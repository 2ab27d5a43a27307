import Ergon.Lib.Result
import Ergon.Lib.Bytes

/-!
# Decoders

A decoder consumes a prefix of its input and leaves the rest. Properties of
decoders, with rules for sequencing and repetition:

* `Reads d b a` — `d` decodes `b` to `a`, whatever follows `b`;
* `Returns d P` — whatever `d` decodes satisfies `P`;
* `Canonical d enc` — whatever `d` decodes, it consumed exactly the encoding of.
-/

namespace Ergon.Lib

open List

variable {ε α β : Type}

/-- Decode `n` values. -/
def decodeMany (d : StateT Bytes (Except ε) α) : Nat → StateT Bytes (Except ε) (List α)
  | 0 => pure []
  | n + 1 => do
    let a ← d
    let as ← decodeMany d n
    return a :: as

def Reads (d : StateT Bytes (Except ε) α) (b : Bytes) (a : α) : Prop :=
  ∀ rest, d (b ++ rest) = .ok (a, rest)

def Returns (d : StateT Bytes (Except ε) α) (P : α → Prop) : Prop :=
  ∀ b a rest, d b = .ok (a, rest) → P a

def Canonical (d : StateT Bytes (Except ε) α) (enc : α → Bytes) : Prop :=
  ∀ b a rest, d b = .ok (a, rest) → b = enc a ++ rest

namespace Reads

variable {d : StateT Bytes (Except ε) α} {f : α → StateT Bytes (Except ε) β} {b b' : Bytes}
  {a a' : α} {c : β}

theorem pure (a : α) : Reads (Pure.pure a : StateT Bytes (Except ε) α) [] a := fun _ => rfl

theorem bind (hd : Reads d b a) (hf : Reads (f a) b' c) : Reads (d >>= f) (b ++ b') c := by
  intro rest
  rw [append_assoc]
  exact bind_eq_ok.mpr ⟨(a, b' ++ rest), hd _, hf rest⟩

/-- The last step of a decoder puts its parts together. -/
theorem bind_pure (hd : Reads d b a) (g : α → β) : Reads (d >>= fun x => Pure.pure (g x)) b (g a) := by
  intro rest
  exact bind_eq_ok.mpr ⟨(a, rest), hd rest, rfl⟩

theorem bind_eq_pure (hd : Reads d b a) (hf : f a = Pure.pure c) : Reads (d >>= f) b c := by
  intro rest
  refine bind_eq_ok.mpr ⟨(a, rest), hd rest, ?_⟩
  show f a rest = .ok (c, rest)
  rw [hf]
  rfl

/-- What is decoded is determined by what is encoded. -/
theorem unique (h : Reads d b a) (h' : Reads d b a') : a = a' := by
  have hEq := (h []).symm.trans (h' [])
  cases hEq
  rfl

theorem many {enc : α → Bytes} : ∀ {l : List α}, (∀ a ∈ l, Reads d (enc a) a) →
    Reads (decodeMany d l.length) (l.flatMap enc) l
  | [], _ => pure []
  | a :: l, h => by
    rw [flatMap_cons]
    have hHead : Reads d (enc a) a := h a mem_cons_self
    have hTail : Reads (decodeMany d l.length) (l.flatMap enc) l :=
      many fun x hx => h x (mem_cons_of_mem a hx)
    exact hHead.bind (hTail.bind_pure (a :: ·))

end Reads

namespace Returns

variable {d : StateT Bytes (Except ε) α} {f : α → StateT Bytes (Except ε) β} {P : α → Prop}
  {Q : β → Prop}

theorem pure {a : α} (h : P a) : Returns (Pure.pure a : StateT Bytes (Except ε) α) P := by
  intro b a' rest hEq
  cases hEq
  exact h

theorem bind (hd : Returns d P) (hf : ∀ a, P a → Returns (f a) Q) : Returns (d >>= f) Q := by
  intro b c rest h
  obtain ⟨⟨a, mid⟩, ha, hc⟩ := bind_eq_ok.mp h
  exact hf a (hd b a mid ha) mid c rest hc

/-- A field whose value does not matter. -/
theorem skip (hf : ∀ a, Returns (f a) Q) : Returns (d >>= f) Q :=
  bind (P := fun _ => True) (fun _ _ _ _ => trivial) fun a _ => hf a

theorem mono {P' : α → Prop} (h : Returns d P) (hP : ∀ a, P a → P' a) : Returns d P' :=
  fun b a rest hEq => hP a (h b a rest hEq)

theorem many (h : Returns d P) :
    ∀ n, Returns (decodeMany d n) fun l => l.length = n ∧ ∀ a ∈ l, P a
  | 0 => pure ⟨rfl, fun _ h => nomatch h⟩
  | n + 1 => by
    refine h.bind fun a ha => (many h n).bind fun l hl => pure ⟨?_, ?_⟩
    · rw [length_cons, hl.1]
    · exact forall_mem_cons.mpr ⟨ha, hl.2⟩

end Returns

namespace Canonical

variable {d : StateT Bytes (Except ε) α} {enc : α → Bytes}

theorem many (h : Canonical d enc) : ∀ n, Canonical (decodeMany d n) (List.flatMap enc)
  | 0, b, l, rest, hEq => by
    cases hEq
    rfl
  | n + 1, b, l, rest, hEq => by
    obtain ⟨⟨a, mid⟩, ha, hEq⟩ := bind_eq_ok.mp hEq
    obtain ⟨⟨as, rest'⟩, has, hEq⟩ := bind_eq_ok.mp hEq
    cases hEq
    rw [h b a mid ha, many h n mid as rest has, flatMap_cons, append_assoc]

/-- Two fields, and what is made of them. -/
theorem pair {γ : Type} {d' : StateT Bytes (Except ε) β} {enc' : β → Bytes} (h : Canonical d enc)
    (h' : Canonical d' enc') {g : α → β → γ} {b rest : Bytes} {c : γ}
    (hEq : (d >>= fun a => d' >>= fun a' => pure (g a a')) b = .ok (c, rest)) :
    ∃ a a', c = g a a' ∧ b = enc a ++ (enc' a' ++ rest) := by
  obtain ⟨⟨a, mid⟩, ha, hEq⟩ := bind_eq_ok.mp hEq
  obtain ⟨⟨a', rest'⟩, ha', hEq⟩ := bind_eq_ok.mp hEq
  cases hEq
  exact ⟨a, a', rfl, by rw [h b a mid ha, h' mid a' rest ha']⟩

end Canonical

end Ergon.Lib
