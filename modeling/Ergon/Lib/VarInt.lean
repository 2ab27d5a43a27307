import Ergon.Lib.Bytes

/-!
# Variable-length integers

Two base-128 encodings of natural numbers:

* `writeVarInt` / `readVarInt` — most significant group first, every group but
  the last one flagged, and each step to a higher group subtracts one, so that
  every number has exactly one encoding. The reader works in a machine integer
  whose largest value is `maxVal` and rejects what does not fit;
* `leb128` / `readLeb128` — least significant group first, every group but the
  last one flagged.

Main results: `readVarInt_writeVarInt` (round trip, and rejection exactly
above `maxVal`), `prefixFree_writeVarInt` and `readLeb128s_flatMap` (a list of
numbers is read back).
-/

namespace Ergon.Lib

open List

/-! ## Most significant group first -/

/-- The groups of `n`, least significant first; `len` is the number of groups
already produced, and only the very first one (`len = 0`) is unflagged. The
fuel bounds the number of groups. -/
def varIntTmp : Nat → Nat → Nat → Bytes
  | 0, _, _ => []
  | fuel + 1, len, n =>
    let group := UInt8.ofNat (n % 128 + if len ≠ 0 then 128 else 0)
    if n ≤ 127 then [group] else group :: varIntTmp fuel (len + 1) (n / 128 - 1)

/-- The groups are written in reverse order, most significant first. A number
has at most `n + 1` groups. -/
def writeVarInt (n : Nat) : Bytes := (varIntTmp (n + 1) 0 n).reverse

/-- Why reading a number fails. -/
inductive VarIntError
  | endOfData
  | sizeTooLarge
deriving DecidableEq

/-- Read groups on top of the value `n` read so far, in a machine integer with
largest value `maxVal`. -/
def readVarIntFrom (maxVal : Nat) : Nat → Bytes → Except VarIntError (Nat × Bytes)
  | _, [] => .error .endOfData
  | n, chData :: rest =>
    if n > maxVal / 128 then .error .sizeTooLarge
    else
      let n' := n * 128 + chData.toNat % 128
      if chData.toNat < 128 then .ok (n', rest)
      else if n' = maxVal then .error .sizeTooLarge
      else readVarIntFrom maxVal (n' + 1) rest

/-- Read one number and return it with the remaining bytes. -/
def readVarInt (maxVal : Nat) (b : Bytes) : Except VarIntError (Nat × Bytes) :=
  readVarIntFrom maxVal 0 b

private theorem toNat_group (n len : Nat) :
    (UInt8.ofNat (n % 128 + if len ≠ 0 then 128 else 0)).toNat
      = n % 128 + if len ≠ 0 then 128 else 0 := by
  rw [UInt8.toNat_ofNat']
  split <;> omega

/-- Reading one written group on top of the value `k` read so far. -/
private theorem readVarIntFrom_group {maxVal k n len : Nat} (hMax : maxVal % 128 = 127)
    (hk : k * 128 + n % 128 = n) (rest : Bytes) :
    readVarIntFrom maxVal k
        (UInt8.ofNat (n % 128 + if len ≠ 0 then 128 else 0) :: rest) =
      if n > maxVal then .error .sizeTooLarge
      else if len = 0 then .ok (n, rest)
      else if n = maxVal then .error .sizeTooLarge
      else readVarIntFrom maxVal (n + 1) rest := by
  have hLe : k > maxVal / 128 ↔ n > maxVal := by omega
  have hMod : (n % 128 + if len ≠ 0 then 128 else 0) % 128 = n % 128 := by
    split <;> omega
  have hFlag : (n % 128 + if len ≠ 0 then 128 else 0) < 128 ↔ len = 0 := by
    split <;> omega
  simp only [readVarIntFrom, toNat_group, hMod, hk, hLe, hFlag]

/-- The induction is on the fuel: the higher groups are read first and leave
exactly `n / 128` as the value read so far. -/
private theorem readVarIntFrom_tmp {maxVal : Nat} (hMax : maxVal % 128 = 127)
    (fuel len n : Nat) (hFuel : n < fuel) (rest : Bytes) :
    readVarIntFrom maxVal 0 ((varIntTmp fuel len n).reverse ++ rest) =
      if n > maxVal then .error .sizeTooLarge
      else if len = 0 then .ok (n, rest)
      else if n = maxVal then .error .sizeTooLarge
      else readVarIntFrom maxVal (n + 1) rest := by
  induction fuel generalizing len n rest with
  | zero => omega
  | succ fuel ih =>
    rw [varIntTmp]
    by_cases hSmall : n ≤ 127
    · simp only [hSmall, if_true, reverse_singleton, singleton_append]
      exact readVarIntFrom_group hMax (by omega) rest
    · simp only [hSmall, if_false, reverse_cons, append_assoc, singleton_append]
      rw [ih (len + 1) (n / 128 - 1) (by omega)]
      by_cases hBig : maxVal ≤ n / 128 - 1
      · have hn : n > maxVal := by omega
        simp only [hn, if_true]
        split
        · rfl
        · rw [if_neg (by omega), if_pos (by omega)]
      · rw [if_neg (by omega), if_neg (by omega), if_neg (by omega),
          show n / 128 - 1 + 1 = n / 128 by omega]
        exact readVarIntFrom_group hMax (by omega) rest

/-- **Round trip.** A written number is read back exactly when it fits the
reader's machine integer, and is rejected otherwise. -/
theorem readVarInt_writeVarInt {maxVal : Nat} (hMax : maxVal % 128 = 127) (n : Nat) (rest : Bytes) :
    readVarInt maxVal (writeVarInt n ++ rest) =
      if n > maxVal then .error .sizeTooLarge else .ok (n, rest) := by
  rw [readVarInt, writeVarInt, readVarIntFrom_tmp hMax (n + 1) 0 n (Nat.lt_succ_self n) rest]
  simp only [if_true]

/-- An unflagged byte is a number by itself. -/
theorem readVarInt_cons_of_lt {maxVal : Nat} {b : UInt8} (hb : b.toNat < 128) (rest : Bytes) :
    readVarInt maxVal (b :: rest) = .ok (b.toNat, rest) := by
  have hMod : b.toNat % 128 = b.toNat := Nat.mod_eq_of_lt hb
  simp [readVarInt, readVarIntFrom, hb, hMod]

theorem prefixFree_writeVarInt : PrefixFree writeVarInt := by
  rintro a b hne ⟨t, hEq⟩
  -- a reader that is wide enough for both numbers
  have hMax : (128 * (a + b) + 127) % 128 = 127 := by omega
  have hb := readVarInt_writeVarInt hMax b []
  have ha := readVarInt_writeVarInt hMax a t
  rw [append_nil, ← hEq, ha, if_neg (by omega), if_neg (by omega)] at hb
  simp only [Except.ok.injEq, Prod.mk.injEq] at hb
  exact hne hb.1

private theorem varIntTmp_getLast {fuel len n : Nat} (hFuel : n < fuel) (hLen : len ≠ 0) :
    ∃ init g, varIntTmp fuel len n = init ++ [g] ∧ 128 ≤ g.toNat := by
  induction fuel generalizing len n with
  | zero => omega
  | succ fuel ih =>
    rw [varIntTmp]
    by_cases hSmall : n ≤ 127
    · refine ⟨[], UInt8.ofNat (n % 128 + if len ≠ 0 then 128 else 0), ?_, ?_⟩
      · simp only [hSmall, if_true, nil_append]
      · rw [toNat_group, if_pos hLen]
        omega
    · obtain ⟨init, g, hEq, hg⟩ := @ih (len + 1) (n / 128 - 1) (by omega) (by omega)
      exact ⟨_ :: init, g, by simp only [hSmall, if_false, hEq, cons_append]; rfl, hg⟩

/-- Small numbers are one unflagged byte; larger ones start with a flagged
byte. -/
theorem writeVarInt_head (n : Nat) :
    (n ≤ 127 ∧ writeVarInt n = [UInt8.ofNat n]) ∨
      (127 < n ∧ ∃ g rest, writeVarInt n = g :: rest ∧ 128 ≤ g.toNat) := by
  by_cases hSmall : n ≤ 127
  · left
    refine ⟨hSmall, ?_⟩
    rw [writeVarInt, varIntTmp]
    simp only [hSmall, if_true, reverse_singleton, ne_eq, not_true, if_false]
    congr 2
    omega
  · right
    obtain ⟨init, g, hEq, hg⟩ :=
      @varIntTmp_getLast n 1 (n / 128 - 1) (by omega) (by omega)
    refine ⟨by omega, g, init.reverse ++ [UInt8.ofNat (n % 128 + 0)], ?_, hg⟩
    rw [writeVarInt, varIntTmp]
    simp [hSmall, hEq]

/-! ## Least significant group first -/

/-- The groups of `n`, least significant first. The fuel bounds their number. -/
def leb128Groups : Nat → Nat → Bytes
  | 0, _ => []
  | fuel + 1, n =>
    if n < 128 then [UInt8.ofNat n]
    else UInt8.ofNat (n % 128 + 128) :: leb128Groups fuel (n / 128)

def leb128 (n : Nat) : Bytes := leb128Groups (n + 1) n

example : leb128 300 = [0xac, 0x02] := by decide

/-- Read one number and return it with the remaining bytes. -/
def readLeb128 : Bytes → Option (Nat × Bytes)
  | [] => none
  | b :: rest =>
    if b.toNat < 128 then some (b.toNat, rest)
    else (readLeb128 rest).map fun (n, rest) => (b.toNat - 128 + 128 * n, rest)

/-- Read numbers to the end of the bytes. The fuel bounds their number. -/
def readLeb128s : Nat → Bytes → Option (List Nat)
  | _, [] => some []
  | 0, _ => none
  | fuel + 1, b => do
    let (n, rest) ← readLeb128 b
    let ns ← readLeb128s fuel rest
    return n :: ns

private theorem readLeb128_groups (rest : Bytes) :
    ∀ fuel n, n < fuel → readLeb128 (leb128Groups fuel n ++ rest) = some (n, rest) := by
  intro fuel
  induction fuel with
  | zero => intro n h; omega
  | succ fuel ih =>
    intro n h
    rw [leb128Groups]
    split
    · next hSmall =>
      have hByte : (UInt8.ofNat n).toNat = n := by rw [UInt8.toNat_ofNat']; omega
      simp [readLeb128, hByte, hSmall]
    · next hBig =>
      have hByte : (UInt8.ofNat (n % 128 + 128)).toNat = n % 128 + 128 := by
        rw [UInt8.toNat_ofNat']
        omega
      rw [cons_append, readLeb128, hByte, if_neg (by omega), ih (n / 128) (by omega)]
      simp [Nat.mod_add_div]

theorem readLeb128_leb128 (n : Nat) (rest : Bytes) :
    readLeb128 (leb128 n ++ rest) = some (n, rest) :=
  readLeb128_groups rest (n + 1) n (Nat.lt_succ_self n)

theorem leb128_ne_nil (n : Nat) : leb128 n ≠ [] := by
  rw [leb128, leb128Groups]
  split <;> simp

/-- **Round trip** of a list of numbers. -/
theorem readLeb128s_flatMap {ns : List Nat} {fuel : Nat} (hFuel : ns.length ≤ fuel) :
    readLeb128s fuel (ns.flatMap leb128) = some ns := by
  induction ns generalizing fuel with
  | nil => cases fuel <;> rfl
  | cons n ns ih =>
    cases fuel with
    | zero => simp at hFuel
    | succ fuel =>
      obtain ⟨b, bs, hb⟩ := exists_cons_of_ne_nil (leb128_ne_nil n)
      have hRead := readLeb128_leb128 n (ns.flatMap leb128)
      rw [hb, cons_append] at hRead
      rw [flatMap_cons, hb, cons_append, readLeb128s.eq_3 _ _ (by simp), hRead]
      simp [ih (Nat.le_of_succ_le_succ hFuel)]

theorem length_le_length_flatMap_leb128 (ns : List Nat) :
    ns.length ≤ (ns.flatMap leb128).length := by
  induction ns with
  | nil => simp
  | cons n ns ih =>
    have hPos := length_pos_iff.mpr (leb128_ne_nil n)
    rw [flatMap_cons, length_append, length_cons]
    omega

end Ergon.Lib
