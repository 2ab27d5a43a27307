import Mathlib.Tactic

/-!
# Byte strings and prefix-free codes

General support for the storage formats of this development:

* `FixedBytes n` — byte strings of a fixed length, ordered like the byte
  arrays they stand for;
* `bigEndian` — fixed-width big-endian numbers, as used in database keys;
* `PrefixFree` — codes none of whose words extends another one. A key made of
  a prefix-free word and a suffix determines both (`PrefixFree.append_inj`).
-/

namespace Ergon.Lib

open List

/-- A byte string. -/
abbrev Bytes := List UInt8

/-- A byte string of exactly `n` bytes. -/
abbrev FixedBytes (n : Nat) := { b : Bytes // b.length = n }

/-- Byte arrays are ordered lexicographically. -/
instance (n : Nat) : Ord (FixedBytes n) := ⟨compareOn Subtype.val⟩

instance (n : Nat) : Std.TransOrd (FixedBytes n) :=
  inferInstanceAs (Std.TransCmp (compareOn (Subtype.val : FixedBytes n → Bytes)))

instance (n : Nat) : Std.LawfulEqOrd (FixedBytes n) where
  compare_self {a} := Std.ReflOrd.compare_self (a := a.val)
  eq_of_compare {a b} h := Subtype.ext (Std.LawfulEqOrd.eq_of_compare (a := a.val) (b := b.val) h)

-- constants at the width of a hash, so that terms over hashes agree in every module
instance : Std.TransOrd (FixedBytes 32) := inferInstance

instance : LawfulBEq (FixedBytes 32) := inferInstance

/-- `byte` everywhere. -/
def FixedBytes.fill {n : Nat} (byte : UInt8) : FixedBytes n := ⟨replicate n byte, length_replicate⟩

/-! ## Big-endian numbers -/

/-- The number a big-endian byte string stands for. -/
def ofBigEndian (b : Bytes) : Nat :=
  b.foldl (fun acc x => acc * 256 + x.toNat) 0

/-- The number a little-endian byte string stands for. -/
def ofLittleEndian (b : Bytes) : Nat := ofBigEndian b.reverse

/-- `n` as `w` big-endian bytes (the low `w` bytes of `n`). -/
def bigEndian : Nat → Nat → Bytes
  | 0, _ => []
  | w + 1, n => bigEndian w (n / 256) ++ [UInt8.ofNat (n % 256)]

@[simp] theorem length_bigEndian (w n : Nat) : (bigEndian w n).length = w := by
  induction w generalizing n with
  | zero => rfl
  | succ w ih => simp [bigEndian, ih]

theorem ofBigEndian_concat (b : Bytes) (x : UInt8) :
    ofBigEndian (b ++ [x]) = ofBigEndian b * 256 + x.toNat := by
  simp [ofBigEndian, foldl_append]

theorem ofBigEndian_bigEndian (w n : Nat) : ofBigEndian (bigEndian w n) = n % 256 ^ w := by
  induction w generalizing n with
  | zero => simp [bigEndian, ofBigEndian, Nat.mod_one]
  | succ w ih =>
    have hByte : (UInt8.ofNat (n % 256)).toNat = n % 256 := by simp
    rw [bigEndian, ofBigEndian_concat, ih, hByte, pow_succ', Nat.mod_mul]
    omega

/-- Within its range a fixed-width number is determined by its bytes. -/
theorem bigEndian_inj {w n m : Nat} (hn : n < 256 ^ w) (hm : m < 256 ^ w)
    (h : bigEndian w n = bigEndian w m) : n = m := by
  have hEq := congrArg ofBigEndian h
  rwa [ofBigEndian_bigEndian, ofBigEndian_bigEndian, Nat.mod_eq_of_lt hn, Nat.mod_eq_of_lt hm] at hEq

/-- Only the low bytes are written. -/
theorem bigEndian_mod (w n : Nat) : bigEndian w (n % 256 ^ w) = bigEndian w n := by
  induction w generalizing n with
  | zero => rfl
  | succ w ih =>
    have hDiv : n % 256 ^ (w + 1) / 256 = n / 256 % 256 ^ w := by
      rw [pow_succ', Nat.mod_mul_right_div_self]
    have hMod : n % 256 ^ (w + 1) % 256 = n % 256 :=
      Nat.mod_mod_of_dvd n (Dvd.intro_left (256 ^ w) rfl)
    rw [bigEndian, bigEndian, hDiv, hMod, ih]

/-- `n` as `w` little-endian bytes. -/
def littleEndian (w n : Nat) : Bytes := (bigEndian w n).reverse

@[simp] theorem length_littleEndian (w n : Nat) : (littleEndian w n).length = w := by
  simp [littleEndian]

theorem ofLittleEndian_littleEndian (w n : Nat) :
    ofLittleEndian (littleEndian w n) = n % 256 ^ w := by
  rw [ofLittleEndian, littleEndian, reverse_reverse, ofBigEndian_bigEndian]

theorem ofBigEndian_lt (b : Bytes) : ofBigEndian b < 256 ^ b.length := by
  induction b using List.reverseRecOn with
  | nil => simp [ofBigEndian]
  | append_singleton b x ih =>
    rw [ofBigEndian_concat, length_append, length_singleton, pow_succ]
    have hByte := x.toNat_lt
    omega

theorem ofLittleEndian_lt (b : Bytes) : ofLittleEndian b < 256 ^ b.length := by
  have h := ofBigEndian_lt b.reverse
  rwa [length_reverse] at h

theorem bigEndian_ofBigEndian (b : Bytes) : bigEndian b.length (ofBigEndian b) = b := by
  induction b using List.reverseRecOn with
  | nil => rfl
  | append_singleton b x ih =>
    have hByte := x.toNat_lt
    have hDiv : (ofBigEndian b * 256 + x.toNat) / 256 = ofBigEndian b := by omega
    have hMod : (ofBigEndian b * 256 + x.toNat) % 256 = x.toNat := by omega
    rw [ofBigEndian_concat, length_append, length_singleton, bigEndian, hDiv, hMod, ih,
      UInt8.ofNat_toNat]

theorem littleEndian_ofLittleEndian (b : Bytes) : littleEndian b.length (ofLittleEndian b) = b := by
  have h := bigEndian_ofBigEndian b.reverse
  rw [length_reverse] at h
  rw [littleEndian, ofLittleEndian, h, reverse_reverse]

theorem littleEndian_succ (w n : Nat) :
    littleEndian (w + 1) n = UInt8.ofNat (n % 256) :: littleEndian w (n / 256) := by
  simp [littleEndian, bigEndian]

/-- The first bytes are the low ones. -/
theorem take_littleEndian (w k n : Nat) :
    (littleEndian (w + k) n).take w = littleEndian w n := by
  induction w generalizing n with
  | zero => rfl
  | succ w ih =>
    have hWidth : w + 1 + k = w + k + 1 := by omega
    rw [hWidth, littleEndian_succ, littleEndian_succ, take_succ_cons, ih]

/-! ## Prefix-free codes -/

/-- No code word is a prefix of the word of a different value. -/
def PrefixFree {α β : Type*} (enc : α → List β) : Prop :=
  ∀ a b, a ≠ b → ¬ enc a <+: enc b

section PrefixFree

variable {α β : Type*} {enc : α → List β}

theorem PrefixFree.eq_of_prefix (hEnc : PrefixFree enc) {a b : α}
    (h : enc a <+: enc b) : a = b := by
  by_contra hne
  exact hEnc a b hne h

/-- A word of a prefix-free code followed by a suffix determines the value
and the suffix. -/
theorem PrefixFree.append_inj (hEnc : PrefixFree enc) {a b : α} {s t : List β}
    (h : enc a ++ s = enc b ++ t) : a = b ∧ s = t := by
  have hab : a = b := by
    rcases prefix_or_prefix_of_prefix (prefix_append (enc a) s)
        (h ▸ prefix_append (enc b) t) with hPre | hPre
    · exact hEnc.eq_of_prefix hPre
    · exact (hEnc.eq_of_prefix hPre).symm
  subst hab
  exact ⟨rfl, append_cancel_left h⟩

end PrefixFree

end Ergon.Lib
