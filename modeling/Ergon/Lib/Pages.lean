import Mathlib.Tactic
import Mathlib.Algebra.Order.Floor.Div

/-!
# Pages of a list

A list is cut into pages of one size, the last of which may be shorter.

* `flatMap_pageOf_range'` — consecutive pages are a segment of the list;
* `flatMap_pageOf` — all pages together are the list;
* `drop_pageOf_append`, `reverse_take_pageOf_append` — reading from a position on
  page by page, forwards or backwards.
-/

namespace Ergon.Lib

open List

variable {α : Type}

/-- The page with number `i`. -/
def pageOf (s : Nat) (l : List α) (i : Nat) : List α := (l.drop (i * s)).take s

/-- How many pages `n` entries take: the quotient, rounded up. -/
def divCeil (n s : Nat) : Nat := n / s + if n % s = 0 then 0 else 1

theorem divCeil_eq {n s : Nat} (hs : 0 < s) : divCeil n s = n ⌈/⌉ s := by
  rw [divCeil, Nat.ceilDiv_eq_add_pred_div, eq_comm, Nat.div_eq_iff hs, Nat.add_mul, Nat.mul_comm]
  have hDiv := Nat.div_add_mod n s
  have hMod := Nat.mod_lt n hs
  split
  · omega
  · omega

/-- No page is empty. -/
theorem divCeil_le {n s : Nat} (hs : 0 < s) : divCeil n s ≤ n := by
  have hDiv := Nat.div_add_mod n s
  have hMul := Nat.le_mul_of_pos_left (n / s) hs
  rw [divCeil]
  split
  · omega
  · omega

/-- The pages hold all entries. -/
theorem le_divCeil_mul {n s : Nat} (hs : 0 < s) : n ≤ divCeil n s * s := by
  have hDiv := Nat.div_add_mod n s
  have hMod := Nat.mod_lt n hs
  rw [divCeil, Nat.add_mul, Nat.mul_comm]
  split
  · omega
  · omega

theorem flatMap_pageOf_range' (s : Nat) (l : List α) (a k : Nat) :
    (List.range' a k).flatMap (pageOf s l) = (l.drop (a * s)).take (k * s) := by
  induction k generalizing a with
  | zero => simp
  | succ k ih =>
    have hMul : (a + 1) * s = a * s + s := Nat.succ_mul a s
    rw [range'_succ, flatMap_cons, ih, pageOf, hMul, ← drop_drop,
      Nat.succ_mul, Nat.add_comm (k * s), take_add]

/-- **All pages** together hold every entry once, in order. -/
theorem flatMap_pageOf {s : Nat} (hs : 0 < s) (l : List α) :
    (List.range (divCeil l.length s)).flatMap (pageOf s l) = l := by
  rw [range_eq_range', flatMap_pageOf_range', Nat.zero_mul, drop_zero,
    take_of_length_le (le_divCeil_mul hs)]

/-- Reading forwards from entry `r` of page `a` to the end of the list. -/
theorem drop_pageOf_append {s : Nat} {l : List α} {a r k : Nat} (hr : r ≤ s)
    (hEnd : l.length ≤ (a + 1 + k) * s) :
    (pageOf s l a).drop r ++ (List.range' (a + 1) k).flatMap (pageOf s l) =
      l.drop (a * s + r) := by
  have hMul : (a + 1) * s = a * s + s := Nat.succ_mul a s
  have hRest : (l.drop (a * s + s)).take (k * s) = l.drop (a * s + s) := by
    rw [Nat.add_mul, hMul] at hEnd
    exact take_of_length_le (by rw [length_drop]; omega)
  have hSplit : l.drop (a * s + s) = (l.drop (a * s + r)).drop (s - r) := by
    rw [drop_drop]
    congr 1
    omega
  rw [flatMap_pageOf_range', hMul, hRest, pageOf, drop_take, drop_drop, hSplit, take_append_drop]

/-- Reading backwards from entry `r` of page `a` to the start of the list. -/
theorem reverse_take_pageOf_append {s : Nat} {l : List α} {a r : Nat} (hr : r < s) :
    ((pageOf s l a).take (r + 1)).reverse ++
      (List.range a).reverse.flatMap (fun n => (pageOf s l n).reverse) =
    (l.take (a * s + r + 1)).reverse := by
  have hRest : (List.range a).reverse.flatMap (fun n => (pageOf s l n).reverse) =
      (l.take (a * s)).reverse := by
    rw [← drop_zero (l := l), ← Nat.zero_mul s, ← flatMap_pageOf_range', reverse_flatMap,
      range_eq_range', Nat.zero_mul, drop_zero]
    rfl
  rw [hRest, ← reverse_append, pageOf, take_take, Nat.min_eq_left (by omega),
    Nat.add_assoc, take_add (i := a * s)]

end Ergon.Lib
