import Ergon.Lib.Bytes
import Ergon.Lib.Result

/-!
# Byte-addressed memory

The memory that a function reached through raw pointers sees. An address that is not
allocated has no byte, and touching one is a fault.

* `Memory.write_spec` — a write is read back and leaves every other byte;
* `Below` — a computation run where more is allocated: unless it faulted, nothing
  changes (`Below.load`), and the relation composes along `>>=`;
* `Throws.load` — reading what is allocated does not fault.
-/

namespace Ergon.Lib

open List

def Memory := Nat → Option UInt8

namespace Memory

variable {m m' : Memory} {p n : Nat}

/-- The `n` bytes from address `p` on may be touched. -/
def Allocated (m : Memory) (p n : Nat) : Prop := ∀ i < n, (m (p + i)).isSome

instance (m : Memory) (p n : Nat) : Decidable (m.Allocated p n) :=
  inferInstanceAs (Decidable (∀ i < n, (m (p + i)).isSome))

def read (m : Memory) (p n : Nat) : Option (FixedBytes n) :=
  if m.Allocated p n then
    some ⟨(List.range n).map fun i => (m (p + i)).getD 0, by rw [length_map, length_range]⟩
  else none

def write (m : Memory) (p : Nat) (b : Bytes) : Option Memory :=
  if m.Allocated p b.length then
    some fun a => if p ≤ a ∧ a < p + b.length then b[a - p]? else m a
  else none

/-- Every byte of `m` is in `m'`, where more may be allocated. -/
def Extends (m' m : Memory) : Prop := ∀ a b, m a = some b → m' a = some b

theorem Extends.refl (m : Memory) : m.Extends m := fun _ _ h => h

variable {b : FixedBytes n}

theorem read_eq_some_iff : m.read p n = some b ↔ ∀ i < n, m (p + i) = b.val[i]? := by
  have hLength := b.property
  unfold read
  constructor
  · intro h i hi
    split at h
    · next hAll =>
      obtain ⟨x, hx⟩ := Option.isSome_iff_exists.mp (hAll i hi)
      cases h
      rw [getElem?_map, getElem?_range hi, hx]
      simp only [Option.map_some, hx, Option.getD_some]
    · cases h
  · intro h
    have hAll : m.Allocated p n := fun i hi => by
      rw [h i hi, getElem?_eq_getElem (by omega)]
      rfl
    rw [if_pos hAll, Option.some_inj, Subtype.ext_iff]
    refine ext_getElem (by simp [hLength]) fun i hi hi' => ?_
    rw [getElem_map, getElem_range, h i (by omega), getElem?_eq_getElem hi']
    rfl

theorem exists_read (h : m.Allocated p n) : ∃ b, m.read p n = some b := by
  unfold read
  rw [if_pos h]
  exact ⟨_, rfl⟩

theorem Extends.read (h : m'.Extends m) (hRead : m.read p n = some b) : m'.read p n = some b := by
  rw [read_eq_some_iff] at hRead ⊢
  intro i hi
  have hLength := b.property
  have hByte := getElem?_eq_getElem (show i < b.val.length by omega)
  rw [hByte]
  exact h _ _ ((hRead i hi).trans hByte)

theorem write_spec {b : Bytes} (h : m.Allocated p b.length) :
    ∃ m', m.write p b = some m' ∧ m'.read p b.length = some ⟨b, rfl⟩ ∧
      ∀ a, a < p ∨ p + b.length ≤ a → m' a = m a := by
  refine ⟨_, if_pos h, read_eq_some_iff.mpr fun i hi => ?_, fun a ha => if_neg (by omega)⟩
  rw [if_pos (by omega), Nat.add_sub_cancel_left]

end Memory

/-! ## Computations that read memory -/

/-- How a computation ends early: at memory that is not allocated, or with a reply. -/
inductive Stop (ρ : Type)
  | fault
  | reply (r : ρ)
deriving DecidableEq

section Load

variable {ρ α β : Type} {m m' : Memory}

def load (m : Memory) (p n : Nat) : Except (Stop ρ) (FixedBytes n) := orElse (m.read p n) .fault

theorem Throws.load {P : Stop ρ → Prop} {p n : Nat} (h : m.Allocated p n) :
    Throws P (load m p n) := by
  intro e hFail
  obtain ⟨b, hRead⟩ := Memory.exists_read h
  rw [Lib.load, hRead] at hFail
  cases hFail

/-- `y` is what `x` is, unless `x` faulted. -/
def Below (x y : Except (Stop ρ) α) : Prop := x = .error .fault ∨ x = y

namespace Below

theorem refl (x : Except (Stop ρ) α) : Below x x := .inr rfl

theorem bind {x y : Except (Stop ρ) α} {f g : α → Except (Stop ρ) β} (hx : Below x y)
    (hf : ∀ a, Below (f a) (g a)) : Below (x >>= f) (y >>= g) := by
  rcases hx with rfl | rfl
  · exact .inl rfl
  · cases x with
    | error e => exact .refl _
    | ok a => exact hf a

theorem load (h : m'.Extends m) (p n : Nat) :
    Below (load m p n : Except (Stop ρ) _) (load m' p n) := by
  unfold Lib.load
  cases hRead : m.read p n with
  | none => exact .inl rfl
  | some b => rw [h.read hRead]; exact .refl _

end Below

end Load

end Ergon.Lib
