import Mathlib.Data.Nat.Bitwise
import Ergon.Lib.Limbs
import Ergon.Lib.Truncate

/-!
# Ergon — 256-bit arithmetic and compact targets

`arith_uint256` (`arith_uint256.{h,cpp}`) with the compact encoding of targets, and
the two functions that go between targets and work: the range check of
`CheckProofOfWork` (`pow.cpp`) and `GetBlockProof` (`chain.cpp`). The operators are
the loops over eight words of 32 bits of `Lib.Limbs`; here each gets its value.

* `setCompact_getCompact` — decoding an encoded number clears its low bits;
* `compact_targets` — what the encoding keeps, and that work and target go
  against each other.
-/

namespace Ergon.Node

open Ergon.Lib

/-- `base_uint<256>`: eight words of 32 bits. -/
abbrev ArithUint256 := Limbs 32 8

/-- `uint_error`, thrown with "Division by zero". -/
inductive UintError
  | divisionByZero
deriving DecidableEq

namespace ArithUint256

/-! ## Operators -/

def toNat (a : ArithUint256) : Nat := a.value

/-- `base_uint(uint64_t)`. -/
def ofUint64 (b : Nat) : ArithUint256 := Limbs.ofNat (b % 2 ^ 64)

instance : Add ArithUint256 := ⟨Limbs.add⟩
instance : Sub ArithUint256 := ⟨Limbs.sub⟩
instance : Neg ArithUint256 := ⟨Limbs.neg⟩
instance : Complement ArithUint256 := ⟨Limbs.complement⟩
instance : Mul ArithUint256 := ⟨Limbs.mul⟩

/-- `operator*(const base_uint &, uint32_t)`, which every built-in integer prefers to
the product of two big numbers: the factor is narrowed to 32 bits. -/
def mulUint32 (a : ArithUint256) (b : Int) : ArithUint256 := a.mulWord (b % 2 ^ 32).toNat

/-- `operator/`. -/
def div (a b : ArithUint256) : Except UintError ArithUint256 :=
  match Limbs.div a b with
  | none => .error .divisionByZero
  | some q => .ok q

/-- `operator>`. -/
def gt (a b : ArithUint256) : Bool := Limbs.compareTo a b == .gt

/-- `operator==` with a `uint64_t`. -/
def equalTo (a : ArithUint256) (b : Nat) : Bool := a = ofUint64 b

def getLow64 (a : ArithUint256) : Nat :=
  a.words.getD 0 0 ||| a.words.getD 1 0 <<< 32

theorem toNat_lt (a : ArithUint256) : a.toNat < 2 ^ 256 := a.value_lt

variable {a b : ArithUint256}

theorem toNat_inj : a.toNat = b.toNat ↔ a = b := Limbs.value_inj

theorem toNat_ofNat (x : Nat) : toNat (Limbs.ofNat x) = x % 2 ^ 256 := Limbs.value_ofNat x

theorem toNat_ofUint64 {b : Nat} (h : b < 2 ^ 64) : (ofUint64 b).toNat = b := by
  rw [ofUint64, toNat_ofNat, Nat.mod_eq_of_lt h, Nat.mod_eq_of_lt (by omega)]

theorem toNat_add (a b : ArithUint256) : (a + b).toNat = (a.toNat + b.toNat) % 2 ^ 256 :=
  Limbs.value_add a b

theorem toNat_sub (a b : ArithUint256) :
    (a - b).toNat = (a.toNat + (2 ^ 256 - b.toNat)) % 2 ^ 256 :=
  Limbs.value_sub a b

theorem toNat_neg (a : ArithUint256) : (-a).toNat = (2 ^ 256 - a.toNat) % 2 ^ 256 :=
  Limbs.value_neg a

theorem toNat_complement (a : ArithUint256) : (~~~a).toNat = 2 ^ 256 - 1 - a.toNat :=
  Limbs.value_complement a

theorem toNat_mul (a b : ArithUint256) : (a * b).toNat = a.toNat * b.toNat % 2 ^ 256 :=
  Limbs.value_mul a b

theorem toNat_mulUint32 (a : ArithUint256) (b : Int) :
    (a.mulUint32 b).toNat = a.toNat * (b % 2 ^ 32).toNat % 2 ^ 256 :=
  Limbs.value_mulWord a _

theorem toNat_shiftLeft (a : ArithUint256) (shift : Nat) :
    toNat (Limbs.shiftLeft a shift) = a.toNat * 2 ^ shift % 2 ^ 256 :=
  Limbs.value_shiftLeft a shift

theorem toNat_shiftRight (a : ArithUint256) (shift : Nat) :
    toNat (Limbs.shiftRight a shift) = a.toNat / 2 ^ shift :=
  Limbs.value_shiftRight a shift

theorem bits_eq_size (a : ArithUint256) : Limbs.bits a = a.toNat.size := Limbs.bits_eq a

theorem gt_iff : a.gt b = true ↔ b.toNat < a.toNat := by
  rw [gt, Limbs.compareTo_eq, beq_iff_eq, compare_gt_iff_gt]
  rfl

variable {a : ArithUint256}

theorem equalTo_iff {b : Nat} (h : b < 2 ^ 64) : a.equalTo b = true ↔ a.toNat = b := by
  rw [equalTo, decide_eq_true_iff, ← toNat_inj, toNat_ofUint64 h]

theorem div_eq_ok (hb : b.toNat ≠ 0) : a.div b = .ok (Limbs.ofNat (a.toNat / b.toNat)) := by
  obtain ⟨q, hq, hValue⟩ := Limbs.value_div (a := a) (b := b) hb
  rw [div, hq]
  refine congrArg Except.ok (toNat_inj.mp ?_)
  have hLt : a.toNat / b.toNat < 2 ^ 256 := (Nat.div_le_self _ _).trans_lt a.toNat_lt
  rw [toNat_ofNat, Nat.mod_eq_of_lt hLt]
  exact hValue

theorem toNat_quotient (a b : ArithUint256) :
    toNat (Limbs.ofNat (a.toNat / b.toNat)) = a.toNat / b.toNat := by
  rw [toNat_ofNat, Nat.mod_eq_of_lt ((Nat.div_le_self _ _).trans_lt a.toNat_lt)]

theorem getLow64_eq (a : ArithUint256) : a.getLow64 = a.toNat % 2 ^ 64 := by
  obtain ⟨words, hLen, hLt⟩ := a
  match words, hLen, hLt with
  | x :: y :: rest, hLen, hLt =>
    have hx : x < 2 ^ 32 := hLt x List.mem_cons_self
    have hy : y < 2 ^ 32 := hLt y (List.mem_cons_of_mem x List.mem_cons_self)
    show x ||| y <<< 32 = Nat.ofDigits (2 ^ 32) (x :: y :: rest) % 2 ^ 64
    rw [Nat.shiftLeft_eq, Nat.mul_comm, Nat.or_comm, ← Nat.two_pow_add_eq_or_of_lt hx,
      Nat.ofDigits_cons, Nat.ofDigits_cons]
    omega

/-! ## The compact encoding -/

/-- What `SetCompact` sets: the number and the two flags. -/
structure SetCompact where
  target : ArithUint256
  fNegative : Bool
  fOverflow : Bool
deriving DecidableEq

def setCompact (nCompact : Nat) : SetCompact :=
  let nSize := nCompact >>> 24
  let mantissa := nCompact &&& 0x007fffff
  let nWord := if nSize ≤ 3 then mantissa >>> (8 * (3 - nSize)) else mantissa
  { target :=
      if nSize ≤ 3 then ofUint64 nWord else Limbs.shiftLeft (ofUint64 nWord) (8 * (nSize - 3))
    fNegative := nWord ≠ 0 && nCompact &&& 0x00800000 ≠ 0
    fOverflow := nWord ≠ 0 && (34 < nSize || (0xff < nWord && 33 < nSize) ||
      (0xffff < nWord && 32 < nSize)) }

/-- The mantissa before the sign bit is looked at. -/
def leadingBytes (a : ArithUint256) (nSize : Nat) : Nat :=
  if nSize ≤ 3 then a.getLow64 <<< (8 * (3 - nSize)) % 2 ^ 32
  else getLow64 (Limbs.shiftRight a (8 * (nSize - 3))) % 2 ^ 32

def getCompact (a : ArithUint256) (fNegative : Bool) : Nat :=
  let nSize := (Limbs.bits a + 7) / 8
  let nCompact := leadingBytes a nSize
  -- the sign bit is in use, so the mantissa gives up a byte
  let (nCompact, nSize) :=
    if nCompact &&& 0x00800000 ≠ 0 then (nCompact >>> 8, nSize + 1) else (nCompact, nSize)
  nCompact ||| nSize <<< 24 |||
    (if fNegative && nCompact &&& 0x007fffff ≠ 0 then 0x00800000 else 0)

/-- How many low bits the encoding drops. -/
def droppedBits (size : Nat) : Nat := 8 * (size / 8 - 2)

theorem droppedBits_lt (s : Nat) (hs : 0 < s) : droppedBits s < s := by
  rw [droppedBits]
  omega

/-- The bytes of the mantissa for an encoding of `size` bytes. -/
def mantissaOf (x size : Nat) : Nat := x / 2 ^ (8 * (size - 3)) * 2 ^ (8 * (3 - size))

theorem mantissaOf_succ (x size : Nat) : mantissaOf x (size + 1) = mantissaOf x size / 2 ^ 8 := by
  rw [mantissaOf, mantissaOf]
  rcases Nat.lt_or_ge size 3 with hLow | hHigh
  · have hShift : 8 * (3 - size) = 8 * (3 - (size + 1)) + 8 := by omega
    rw [show size - 3 = 0 by omega, show size + 1 - 3 = 0 by omega, hShift, Nat.pow_add,
      ← Nat.mul_assoc, Nat.mul_div_cancel _ (Nat.two_pow_pos 8)]
  · have hShift : 8 * (size + 1 - 3) = 8 * (size - 3) + 8 := by omega
    rw [show 3 - size = 0 by omega, show 3 - (size + 1) = 0 by omega, hShift, Nat.pow_add,
      ← Nat.div_div_eq_div_mul]
    simp

theorem mantissaOf_lt {x size k : Nat} (hk : k ≤ 24) (hx : x < 2 ^ (8 * size - k))
    (hSize : k ≤ 8 * size) : mantissaOf x size < 2 ^ (24 - k) := by
  rw [mantissaOf]
  rcases Nat.lt_or_ge size 3 with hLow | hHigh
  · rw [show size - 3 = 0 by omega, Nat.mul_zero, Nat.pow_zero, Nat.div_one]
    calc x * 2 ^ (8 * (3 - size)) < 2 ^ (8 * size - k) * 2 ^ (8 * (3 - size)) :=
          Nat.mul_lt_mul_of_pos_right hx (Nat.two_pow_pos _)
      _ = 2 ^ (24 - k) := by rw [← Nat.pow_add]; congr 1; omega
  · rw [show 3 - size = 0 by omega, Nat.mul_zero, Nat.pow_zero, Nat.mul_one,
      Nat.div_lt_iff_lt_mul (Nat.two_pow_pos _), ← Nat.pow_add]
    rwa [show 24 - k + 8 * (size - 3) = 8 * size - k by omega]

theorem le_mantissaOf {x size : Nat} (hSize : 0 < size) (hx : 2 ^ (8 * size - 1) ≤ x) :
    2 ^ 23 ≤ mantissaOf x size := by
  rw [mantissaOf]
  rcases Nat.lt_or_ge size 3 with hLow | hHigh
  · rw [show size - 3 = 0 by omega, Nat.mul_zero, Nat.pow_zero, Nat.div_one]
    calc 2 ^ 23 = 2 ^ (8 * size - 1) * 2 ^ (8 * (3 - size)) := by
          rw [← Nat.pow_add]; congr 1; omega
      _ ≤ x * 2 ^ (8 * (3 - size)) := Nat.mul_le_mul_right _ hx
  · rw [show 3 - size = 0 by omega, Nat.mul_zero, Nat.pow_zero, Nat.mul_one,
      Nat.le_div_iff_mul_le (Nat.two_pow_pos _), ← Nat.pow_add]
    rwa [show 23 + 8 * (size - 3) = 8 * size - 1 by omega]

theorem leadingBytes_eq {size : Nat} (h : a.toNat < 2 ^ (8 * size)) :
    leadingBytes a size = mantissaOf a.toNat size := by
  have hLt : mantissaOf a.toNat size < 2 ^ 24 :=
    mantissaOf_lt (k := 0) (Nat.zero_le _) h (Nat.zero_le _)
  rw [leadingBytes]
  split
  · next hLow =>
    have hSmall : a.toNat < 2 ^ 24 := h.trans_le (Nat.pow_le_pow_right (by omega) (by omega))
    have hEq : mantissaOf a.toNat size = a.toNat * 2 ^ (8 * (3 - size)) := by
      rw [mantissaOf, show size - 3 = 0 by omega, Nat.mul_zero, Nat.pow_zero, Nat.div_one]
    have hLow64 : a.toNat % 2 ^ 64 = a.toNat := Nat.mod_eq_of_lt (by omega)
    rw [getLow64_eq, hLow64, Nat.shiftLeft_eq, ← hEq, Nat.mod_eq_of_lt (by omega)]
  · next hHigh =>
    have hEq : mantissaOf a.toNat size = a.toNat / 2 ^ (8 * (size - 3)) := by
      rw [mantissaOf, show 3 - size = 0 by omega, Nat.mul_zero, Nat.pow_zero, Nat.mul_one]
    rw [getLow64_eq, toNat_shiftRight, ← hEq, Nat.mod_eq_of_lt (by omega),
      Nat.mod_eq_of_lt (by omega)]

theorem and_sign_ne_zero_iff (n : Nat) : n &&& 0x00800000 ≠ 0 ↔ n / 2 ^ 23 % 2 = 1 := by
  have hBit : n &&& 0x00800000 = 2 ^ 23 * (n.testBit 23).toNat := by
    rw [Nat.and_comm]
    exact Nat.two_pow_and n 23
  rw [hBit, Nat.testBit_eq_decide_div_mod_eq]
  by_cases h : n / 2 ^ 23 % 2 = 1 <;> simp

/-- The encoding of a number: the number of its bytes, with room for the sign, and its
leading bytes. -/
theorem getCompact_eq (hPos : 0 < a.toNat) :
    a.getCompact false =
      mantissaOf a.toNat (a.toNat.size / 8 + 1) + 2 ^ 24 * (a.toNat.size / 8 + 1) := by
  have hSize := Nat.size_pos.mpr hPos
  have hLt := Nat.lt_size_self a.toNat
  have hLead : 2 ^ (a.toNat.size - 1) ≤ a.toNat := Nat.lt_size.mp (by omega)
  have hPack : ∀ m size, m < 2 ^ 24 → m ||| size <<< 24 ||| 0 = m + 2 ^ 24 * size := by
    intro m size hm
    rw [Nat.or_zero, Nat.shiftLeft_eq, Nat.mul_comm size, Nat.or_comm,
      ← Nat.two_pow_add_eq_or_of_lt hm, Nat.add_comm]
  have hFits : a.toNat < 2 ^ (8 * ((a.toNat.size + 7) / 8)) :=
    hLt.trans_le (Nat.pow_le_pow_right (by omega) (by omega))
  have hBytes : mantissaOf a.toNat ((a.toNat.size + 7) / 8) < 2 ^ 24 :=
    mantissaOf_lt (k := 0) (Nat.zero_le _) hFits (Nat.zero_le _)
  simp only [getCompact, bits_eq_size, leadingBytes_eq hFits, and_sign_ne_zero_iff,
    Bool.false_and, Bool.false_eq_true, if_false]
  split
  · next hSign =>
    -- the leading bit is the highest bit of a byte
    have hWhole : (a.toNat.size + 7) / 8 = a.toNat.size / 8 := by
      by_contra hNe
      have hBelow : mantissaOf a.toNat ((a.toNat.size + 7) / 8) < 2 ^ (24 - 1) := by
        refine mantissaOf_lt (k := 1) (by omega) ?_ (by omega)
        exact hLt.trans_le (Nat.pow_le_pow_right (by omega) (by omega))
      omega
    rw [hWhole] at hBytes ⊢
    rw [Nat.shiftRight_eq_div_pow, ← mantissaOf_succ, hPack]
    rw [mantissaOf_succ]
    omega
  · next hSign =>
    have hPart : (a.toNat.size + 7) / 8 = a.toNat.size / 8 + 1 := by
      by_contra hNe
      have hAbove : 2 ^ 23 ≤ mantissaOf a.toNat ((a.toNat.size + 7) / 8) := by
        refine le_mantissaOf (by omega) ?_
        rwa [show 8 * ((a.toNat.size + 7) / 8) - 1 = a.toNat.size - 1 by omega]
      omega
    rw [hPart] at hBytes ⊢
    exact hPack _ _ hBytes

theorem getCompact_zero (hZero : a.toNat = 0) : a.getCompact false = 0 := by
  have hFits : a.toNat < 2 ^ (8 * 0) := by rw [hZero]; exact Nat.one_pos
  have hMantissa : mantissaOf a.toNat 0 = 0 := by rw [mantissaOf, hZero]; rfl
  simp only [getCompact, bits_eq_size, hZero, Nat.size_zero]
  rw [show (0 + 7) / 8 = 0 from rfl, leadingBytes_eq hFits, hMantissa]
  rfl

/-- A packed mantissa and size come apart again, and the sign bit is clear. -/
theorem setCompact_pack {m e : Nat} (hm : m < 2 ^ 23) :
    (m + 2 ^ 24 * e) >>> 24 = e ∧ (m + 2 ^ 24 * e) &&& 0x007fffff = m ∧
      ¬ ((m + 2 ^ 24 * e) &&& 0x00800000 ≠ 0) := by
  refine ⟨?_, ?_, ?_⟩
  · rw [Nat.shiftRight_eq_div_pow]
    omega
  · rw [show 0x007fffff = 2 ^ 23 - 1 from rfl, Nat.and_two_pow_sub_one_eq_mod]
    omega
  · rw [and_sign_ne_zero_iff]
    omega

/-- Decoding an encoded number gives its leading bits, without either flag. -/
theorem setCompact_getCompact (a : ArithUint256) :
    setCompact (a.getCompact false) =
      { target := Limbs.ofNat (truncate droppedBits a.toNat)
        fNegative := false
        fOverflow := false } := by
  rcases Nat.eq_zero_or_pos a.toNat with hZero | hPos
  · rw [getCompact_zero hZero, hZero]
    decide
  · have hSize : a.toNat.size ≤ 256 := Nat.size_le.mpr a.toNat_lt
    have hLt := Nat.lt_size_self a.toNat
    rw [getCompact_eq hPos]
    generalize hExp : a.toNat.size / 8 + 1 = e
    have hMantissa : mantissaOf a.toNat e < 2 ^ 23 := by
      refine mantissaOf_lt (k := 1) (by omega) ?_ (by omega)
      exact hLt.trans_le (Nat.pow_le_pow_right (by omega) (by omega))
    -- with 33 bytes only two are left for the mantissa, which is what fits
    have hWide : 32 < e → mantissaOf a.toNat e < 2 ^ (24 - 8) := by
      intro he
      refine mantissaOf_lt (k := 8) (by omega) ?_ (by omega)
      exact hLt.trans_le (Nat.pow_le_pow_right (by omega) (by omega))
    have hTruncated : truncate droppedBits a.toNat < 2 ^ 256 := truncate_le.trans_lt a.toNat_lt
    have hDrop : droppedBits a.toNat.size = 8 * (e - 3) := by
      rw [droppedBits]
      omega
    obtain ⟨hHigh, hLow, hSign⟩ := setCompact_pack (e := e) hMantissa
    simp only [setCompact, hHigh, hLow, hSign, decide_false, Bool.and_false]
    by_cases hShort : e ≤ 3
    · have hWhole : mantissaOf a.toNat e >>> (8 * (3 - e)) = a.toNat := by
        rw [mantissaOf, show e - 3 = 0 by omega, Nat.mul_zero, Nat.pow_zero, Nat.div_one,
          Nat.shiftRight_eq_div_pow, Nat.mul_div_cancel _ (Nat.two_pow_pos _)]
      have hSmall : a.toNat < 2 ^ 24 := hLt.trans_le (Nat.pow_le_pow_right (by omega) (by omega))
      have hExact : truncate droppedBits a.toNat = a.toNat := by
        rw [truncate, hDrop, show e - 3 = 0 by omega, Nat.mul_zero, Nat.pow_zero, Nat.div_one,
          Nat.mul_one]
      simp only [if_pos hShort, hWhole, hExact, show ¬ 34 < e by omega, show ¬ 33 < e by omega,
        show ¬ 32 < e by omega, decide_false, Bool.and_false, Bool.or_false]
      rw [ofUint64, Nat.mod_eq_of_lt (by omega)]
    · have hBytes : mantissaOf a.toNat e = a.toNat / 2 ^ (8 * (e - 3)) := by
        rw [mantissaOf, show 3 - e = 0 by omega, Nat.mul_zero, Nat.pow_zero, Nat.mul_one]
      have hTarget : Limbs.shiftLeft (ofUint64 (mantissaOf a.toNat e)) (8 * (e - 3)) =
          (Limbs.ofNat (truncate droppedBits a.toNat) : ArithUint256) := by
        rw [truncate, hDrop, ← hBytes] at hTruncated ⊢
        rw [← toNat_inj, toNat_ofNat, toNat_shiftLeft, toNat_ofUint64 (by omega)]
      have hFits : ¬ (0xffff < mantissaOf a.toNat e ∧ 32 < e) := by
        rintro ⟨hAbove, he⟩
        have := hWide he
        omega
      simp only [if_neg hShort, hTarget, show ¬ 34 < e by omega, show ¬ 33 < e by omega,
        ← Bool.decide_and, hFits, decide_false, Bool.and_false, Bool.or_false]

theorem toNat_decoded (a : ArithUint256) :
    (setCompact (a.getCompact false)).target.toNat = truncate droppedBits a.toNat := by
  rw [setCompact_getCompact, toNat_ofNat, Nat.mod_eq_of_lt (truncate_le.trans_lt a.toNat_lt)]

/-- Numbers with the same leading bits have the same encoding. -/
theorem getCompact_decoded (a : ArithUint256) :
    (setCompact (a.getCompact false)).target.getCompact false = a.getCompact false := by
  have hDecoded := toNat_decoded a
  rcases Nat.eq_zero_or_pos a.toNat with hZero | hPos
  · rw [hZero, truncate, Nat.zero_div, Nat.zero_mul] at hDecoded
    rw [getCompact_zero hDecoded, getCompact_zero hZero]
  · have hSame : droppedBits a.toNat.size = 8 * (a.toNat.size / 8 + 1 - 3) := by
      rw [droppedBits]
      omega
    generalize (setCompact (a.getCompact false)).target = decoded at *
    rw [getCompact_eq (by rw [hDecoded]; exact truncate_pos droppedBits_lt hPos),
      getCompact_eq hPos,
      hDecoded, size_truncate droppedBits_lt, mantissaOf, mantissaOf, ← hSame, truncate_div]

/-- At least sixteen leading bits are kept. -/
theorem decoded_error (a : ArithUint256) (hPos : 0 < a.toNat) :
    (a.toNat - (setCompact (a.getCompact false)).target.toNat) * 2 ^ 15 < a.toNat := by
  have hSize := Nat.size_pos.mpr hPos
  have hLost := @lt_truncate_add droppedBits a.toNat
  have hLead : 2 ^ (a.toNat.size - 1) ≤ a.toNat := Nat.lt_size.mp (by omega)
  rw [toNat_decoded]
  rcases Nat.lt_or_ge (a.toNat.size / 8) 3 with hShort | hLong
  · -- nothing is dropped
    rw [show droppedBits a.toNat.size = 0 by rw [droppedBits]; omega] at hLost
    omega
  · have hLe := @truncate_le droppedBits a.toNat
    calc (a.toNat - truncate droppedBits a.toNat) * 2 ^ 15
        < 2 ^ droppedBits a.toNat.size * 2 ^ 15 :=
          Nat.mul_lt_mul_of_pos_right (by omega) (Nat.two_pow_pos 15)
      _ = 2 ^ (droppedBits a.toNat.size + 15) := (Nat.pow_add 2 _ 15).symm
      _ ≤ 2 ^ (a.toNat.size - 1) :=
          Nat.pow_le_pow_right (by omega) (by rw [droppedBits]; omega)
      _ ≤ a.toNat := hLead

theorem decoded_mono (hLe : a.toNat ≤ b.toNat) :
    (setCompact (a.getCompact false)).target.toNat ≤
      (setCompact (b.getCompact false)).target.toNat := by
  rw [toNat_decoded, toNat_decoded]
  exact truncate_mono droppedBits_lt hLe

end ArithUint256

/-! ## Targets and work -/

open ArithUint256

/-- The range check of `CheckProofOfWork`. -/
def targetInRange (powLimit : ArithUint256) (nBits : Nat) : Bool :=
  let bnTarget := ArithUint256.setCompact nBits
  !(bnTarget.fNegative || bnTarget.target.equalTo 0 || bnTarget.fOverflow ||
    bnTarget.target.gt powLimit)

def checkProofOfWork (hash : ArithUint256) (nBits : Nat) (powLimit : ArithUint256) : Bool :=
  targetInRange powLimit nBits && !hash.gt (ArithUint256.setCompact nBits).target

/-- `GetBlockProof` of a block with these `nBits`. -/
def getBlockProof (nBits : Nat) : Except UintError ArithUint256 :=
  let bnTarget := ArithUint256.setCompact nBits
  if bnTarget.fNegative || bnTarget.fOverflow || bnTarget.target.equalTo 0 then
    .ok (ofUint64 0)
  else do
    let quotient ← (~~~bnTarget.target).div (bnTarget.target + ofUint64 1)
    return quotient + ofUint64 1

variable {nBits : Nat}

theorem targetInRange_iff {powLimit : ArithUint256} :
    targetInRange powLimit nBits = true ↔
      (ArithUint256.setCompact nBits).fNegative = false ∧
        (ArithUint256.setCompact nBits).fOverflow = false ∧
        0 < (ArithUint256.setCompact nBits).target.toNat ∧
        (ArithUint256.setCompact nBits).target.toNat ≤ powLimit.toNat := by
  have hGt : (ArithUint256.setCompact nBits).target.gt powLimit = false ↔
      (ArithUint256.setCompact nBits).target.toNat ≤ powLimit.toNat := by
    rw [← Bool.not_eq_true, gt_iff]
    exact not_lt
  have hZero : (ArithUint256.setCompact nBits).target.equalTo 0 = false ↔
      0 < (ArithUint256.setCompact nBits).target.toNat := by
    rw [← Bool.not_eq_true, equalTo_iff (by omega)]
    exact Nat.pos_iff_ne_zero.symm
  simp only [targetInRange, Bool.not_eq_true', Bool.or_eq_false_iff, hGt, hZero]
  tauto

/-- A decoded target is not the largest number: the low byte of a long one is zero. -/
theorem setCompact_target_lt (nBits : Nat) :
    (ArithUint256.setCompact nBits).target.toNat + 1 < 2 ^ 256 := by
  have hMantissa : nBits &&& 0x007fffff < 2 ^ 23 := by
    rw [show 0x007fffff = 2 ^ 23 - 1 from rfl, Nat.and_two_pow_sub_one_eq_mod]
    exact Nat.mod_lt _ (Nat.two_pow_pos 23)
  simp only [ArithUint256.setCompact]
  by_cases hShort : nBits >>> 24 ≤ 3
  · have hWord : (nBits &&& 0x007fffff) >>> (8 * (3 - nBits >>> 24)) < 2 ^ 23 := by
      rw [Nat.shiftRight_eq_div_pow]
      exact (Nat.div_le_self _ _).trans_lt hMantissa
    rw [if_pos hShort, if_pos hShort, toNat_ofUint64 (by omega)]
    omega
  · obtain ⟨k, hk⟩ : ∃ k, 8 * (nBits >>> 24 - 3) = 8 + k := ⟨8 * (nBits >>> 24 - 3) - 8, by omega⟩
    rw [if_neg hShort, if_neg hShort, toNat_shiftLeft, toNat_ofUint64 (by omega), hk, Nat.pow_add,
      Nat.mul_left_comm]
    omega

/-- The work of a target is the number of hashes one is expected to need. -/
theorem getBlockProof_eq (hNegative : (ArithUint256.setCompact nBits).fNegative = false)
    (hOverflow : (ArithUint256.setCompact nBits).fOverflow = false)
    (hPos : 0 < (ArithUint256.setCompact nBits).target.toNat) :
    ∃ w, getBlockProof nBits = .ok w ∧
      w.toNat = 2 ^ 256 / ((ArithUint256.setCompact nBits).target.toNat + 1) := by
  have hLt := setCompact_target_lt nBits
  have hNe : (ArithUint256.setCompact nBits).target.equalTo 0 ≠ true := by
    rw [Ne, equalTo_iff (by omega)]
    omega
  simp only [getBlockProof, hNegative, hOverflow, Bool.false_or, if_neg hNe]
  generalize (ArithUint256.setCompact nBits).target = target at *
  have hSucc : (target + ofUint64 1).toNat = target.toNat + 1 := by
    rw [toNat_add, toNat_ofUint64 (by omega), Nat.mod_eq_of_lt hLt]
  have hQuotient : (2 ^ 256 - 1 - target.toNat) / (target.toNat + 1) + 1 =
      2 ^ 256 / (target.toNat + 1) := by
    rw [← Nat.add_div_right _ (Nat.succ_pos _)]
    congr 1
    omega
  have hHalf : 2 ^ 256 / (target.toNat + 1) ≤ 2 ^ 256 / 2 :=
    Nat.div_le_div_left (by omega) (by omega)
  refine ⟨_, by rw [div_eq_ok (by omega)]; rfl, ?_⟩
  rw [toNat_add, toNat_quotient, toNat_ofUint64 (by omega), toNat_complement, hSucc, hQuotient,
    Nat.mod_eq_of_lt (by omega)]

/-- The target of some work, as `(-work) / work`. -/
theorem neg_div_self {w : ArithUint256} (hPos : 0 < w.toNat) :
    ∃ q, (-w).div w = .ok q ∧ q.toNat = 2 ^ 256 / w.toNat - 1 := by
  have hLt := w.toNat_lt
  refine ⟨_, div_eq_ok (by omega), ?_⟩
  have hSplit : (2 ^ 256 - w.toNat) / w.toNat + 1 = 2 ^ 256 / w.toNat := by
    rw [← Nat.add_div_right _ hPos]
    congr 1
    omega
  rw [toNat_quotient, toNat_neg, Nat.mod_eq_of_lt (by omega), ← hSplit, Nat.add_sub_cancel]

theorem targetInRange_of_checkProofOfWork {hash powLimit : ArithUint256}
    (h : checkProofOfWork hash nBits powLimit = true) : targetInRange powLimit nBits = true := by
  rw [checkProofOfWork, Bool.and_eq_true] at h
  exact h.1

/-- The encoding keeps a number from below, up to a part of `2 ^ 15`, keeps the order,
and is stable. The work of an accepted target leads back to that target or one above, and a
larger target has no more work. -/
theorem compact_targets :
    (∀ x : ArithUint256, (ArithUint256.setCompact (x.getCompact false)).target.toNat ≤ x.toNat ∧
      (0 < x.toNat →
        (x.toNat - (ArithUint256.setCompact (x.getCompact false)).target.toNat) * 2 ^ 15 <
          x.toNat) ∧
      (ArithUint256.setCompact (x.getCompact false)).target.getCompact false = x.getCompact false) ∧
    (∀ x y : ArithUint256, x.toNat ≤ y.toNat →
      (ArithUint256.setCompact (x.getCompact false)).target.toNat ≤
        (ArithUint256.setCompact (y.getCompact false)).target.toNat) ∧
    (∀ hash powLimit nBits, checkProofOfWork hash nBits powLimit = true →
      ∃ w q, getBlockProof nBits = .ok w ∧ (-w).div w = .ok q ∧
        (ArithUint256.setCompact nBits).target.toNat ≤ q.toNat) ∧
    (∀ hash hash' powLimit nBits nBits', checkProofOfWork hash nBits powLimit = true →
      checkProofOfWork hash' nBits' powLimit = true →
      (ArithUint256.setCompact nBits).target.toNat ≤ (ArithUint256.setCompact nBits').target.toNat →
      ∃ w w', getBlockProof nBits = .ok w ∧ getBlockProof nBits' = .ok w' ∧
        w'.toNat ≤ w.toNat) := by
  refine ⟨fun x => ⟨?_, decoded_error x, getCompact_decoded x⟩, fun x y => decoded_mono, ?_, ?_⟩
  · rw [toNat_decoded]
    exact truncate_le
  · intro hash powLimit nBits hAccepted
    obtain ⟨hNegative, hOverflow, hPos, -⟩ :=
      targetInRange_iff.mp (targetInRange_of_checkProofOfWork hAccepted)
    have hLt := setCompact_target_lt nBits
    obtain ⟨w, hProof, hw⟩ := getBlockProof_eq hNegative hOverflow hPos
    have hWork : 0 < w.toNat := by
      rw [hw]
      exact Nat.div_pos (by omega) (by omega)
    obtain ⟨q, hDiv, hq⟩ := neg_div_self hWork
    refine ⟨w, q, hProof, hDiv, ?_⟩
    -- `w * (target + 1)` is at most `2 ^ 256`
    have hBack : (ArithUint256.setCompact nBits).target.toNat + 1 ≤ 2 ^ 256 / w.toNat := by
      rw [Nat.le_div_iff_mul_le hWork, hw, Nat.mul_comm]
      exact Nat.div_mul_le_self _ _
    omega
  · intro hash hash' powLimit nBits nBits' hAccepted hAccepted' hLe
    obtain ⟨hNegative, hOverflow, hPos, -⟩ :=
      targetInRange_iff.mp (targetInRange_of_checkProofOfWork hAccepted)
    obtain ⟨hNegative', hOverflow', hPos', -⟩ :=
      targetInRange_iff.mp (targetInRange_of_checkProofOfWork hAccepted')
    obtain ⟨w, hProof, hw⟩ := getBlockProof_eq hNegative hOverflow hPos
    obtain ⟨w', hProof', hw'⟩ := getBlockProof_eq hNegative' hOverflow' hPos'
    refine ⟨w, w', hProof, hProof', ?_⟩
    rw [hw, hw']
    exact Nat.div_le_div_left (by omega) (by omega)

/-- The target of the first difficulty, and a smaller one, under a limit of the former. -/
theorem compact_targets_first_difficulty :
    checkProofOfWork (ofUint64 0) 0x1b0404cb (ArithUint256.setCompact 0x1d00ffff).target = true ∧
    (∃ w w', getBlockProof 0x1b0404cb = .ok w ∧ getBlockProof 0x1d00ffff = .ok w' ∧
      w'.toNat ≤ w.toNat) ∧
    (0x12345678 -
        (ArithUint256.setCompact ((ofUint64 0x12345678).getCompact false)).target.toNat) * 2 ^ 15 <
      0x12345678 := by
  have hSmall : checkProofOfWork (ofUint64 0) 0x1b0404cb
      (ArithUint256.setCompact 0x1d00ffff).target = true := by
    decide +kernel
  have hLarge : checkProofOfWork (ofUint64 0) 0x1d00ffff
      (ArithUint256.setCompact 0x1d00ffff).target = true := by
    decide +kernel
  have hNumber : (ofUint64 0x12345678).toNat = 0x12345678 := toNat_ofUint64 (by omega)
  refine ⟨hSmall, compact_targets.2.2.2 _ _ _ _ _ hSmall hLarge (by decide +kernel), ?_⟩
  have hError := (compact_targets.1 (ofUint64 0x12345678)).2.1
  rw [hNumber] at hError
  exact hError (by omega)

end Ergon.Node
