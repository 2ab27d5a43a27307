import Mathlib.Tactic
import Mathlib.Data.Nat.Size

/-!
# Truncation to the leading bits

A number format that keeps the leading bits of a number drops some of the low
ones, how many depends on the number of bits only. `truncate` is the number that
is left. It is at most the number itself, keeps the leading bit, does nothing the
second time, and keeps the order.
-/

namespace Ergon.Lib

open Nat

/-- Clear the lowest `drop s` bits of a number of `s` bits. -/
def truncate (drop : Nat → Nat) (x : Nat) : Nat := x / 2 ^ drop x.size * 2 ^ drop x.size

variable {drop : Nat → Nat} {x y : Nat}

theorem truncate_le : truncate drop x ≤ x := div_mul_le_self x _

theorem lt_truncate_add : x < truncate drop x + 2 ^ drop x.size := by
  rw [truncate, ← Nat.add_one_mul]
  exact lt_mul_of_div_lt (lt_succ_self _) (Nat.two_pow_pos _)

theorem truncate_div : truncate drop x / 2 ^ drop x.size = x / 2 ^ drop x.size :=
  Nat.mul_div_cancel _ (Nat.two_pow_pos _)

/-- The leading bit is not among those that are cleared. -/
theorem two_pow_le_truncate (hDrop : drop x.size < x.size) :
    2 ^ (x.size - 1) ≤ truncate drop x := by
  have hLead : 2 ^ (x.size - 1) ≤ x := lt_size.mp (by omega)
  have hSplit : 2 ^ (x.size - 1) = 2 ^ (x.size - 1 - drop x.size) * 2 ^ drop x.size := by
    rw [← Nat.pow_add]
    congr 1
    omega
  rw [truncate]
  calc 2 ^ (x.size - 1) = 2 ^ (x.size - 1 - drop x.size) * 2 ^ drop x.size := hSplit
    _ ≤ x / 2 ^ drop x.size * 2 ^ drop x.size := by
        refine Nat.mul_le_mul_right _ ?_
        rwa [Nat.le_div_iff_mul_le (Nat.two_pow_pos _), ← hSplit]

section Leading

variable (hDrop : ∀ s, 0 < s → drop s < s)
include hDrop

theorem size_truncate : (truncate drop x).size = x.size := by
  rcases Nat.eq_zero_or_pos x with rfl | hPos
  · rw [truncate, Nat.zero_div, zero_mul]
  · have hSize := size_pos.mpr hPos
    have hGe := lt_size.mpr (two_pow_le_truncate (hDrop _ hSize))
    have hLe := size_le_size (@truncate_le drop x)
    omega

theorem truncate_pos (hPos : 0 < x) : 0 < truncate drop x :=
  (Nat.two_pow_pos _).trans_le (two_pow_le_truncate (hDrop _ (size_pos.mpr hPos)))

theorem truncate_mono (hLe : x ≤ y) : truncate drop x ≤ truncate drop y := by
  rcases (size_le_size hLe).eq_or_lt with hSame | hMore
  · -- the same bits are dropped
    rw [truncate, truncate, hSame]
    exact Nat.mul_le_mul_right _ (Nat.div_le_div_right hLe)
  · -- the leading bit of the larger number is above the smaller number
    have hx : x < 2 ^ (y.size - 1) :=
      (lt_size_self x).trans_le (Nat.pow_le_pow_right (by omega) (by omega))
    have hy := two_pow_le_truncate (hDrop y.size (by omega))
    have hLow := @truncate_le drop x
    omega

/-- Everything below the next number with fewer bits is truncated to the one before. -/
theorem truncate_eq_of_lt (hPos : 0 < x) (hFixed : truncate drop x = x) (hLe : x ≤ y)
    (hLt : y < x + 2 ^ drop x.size) : truncate drop y = x := by
  have hDropped := hDrop _ (size_pos.mpr hPos)
  have hWidth : 2 ^ x.size = 2 ^ (x.size - drop x.size) * 2 ^ drop x.size := by
    rw [← Nat.pow_add, Nat.sub_add_cancel hDropped.le]
  generalize hUnit : 2 ^ drop x.size = unit at *
  have hUnitPos : 0 < unit := hUnit ▸ Nat.two_pow_pos _
  have hMultiple : x = x / unit * unit := by rw [← hUnit]; exact hFixed.symm
  have hNext : (x / unit + 1) * unit = x + unit := by rw [Nat.add_one_mul, ← hMultiple]
  have hSize : y.size = x.size := by
    refine le_antisymm (size_le.mpr ?_) (size_le_size hLe)
    have hQuot : x / unit < 2 ^ (x.size - drop x.size) := by
      rw [Nat.div_lt_iff_lt_mul hUnitPos, ← hWidth]
      exact lt_size_self x
    calc y < (x / unit + 1) * unit := by rwa [hNext]
      _ ≤ 2 ^ (x.size - drop x.size) * unit := Nat.mul_le_mul_right _ hQuot
      _ = 2 ^ x.size := hWidth.symm
  have hSame : y / unit = x / unit :=
    Nat.div_eq_of_lt_le (by rwa [← hMultiple]) (by rwa [hNext])
  rw [truncate, hSize, hUnit, hSame, ← hMultiple]

end Leading

end Ergon.Lib
