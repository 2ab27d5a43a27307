import Mathlib.Tactic
import Mathlib.Data.Nat.Digits.Defs
import Mathlib.Data.Nat.Size

/-!
# Unsigned integers in words

A fixed-width unsigned integer as its words, least significant first, with the
loops that compute on the words: carries, the schoolbook product, shifts, and
long division by shifting and subtracting. `value` is the number the words
stand for, and each operation is the one on numbers, reduced to the width:

* `value_add`, `value_neg`, `value_sub`, `value_mulWord`, `value_mul`;
* `value_shiftLeft`, `value_shiftRight`, `bits_eq`, `compareTo_eq`;
* `value_div` — the quotient, for every divisor other than zero.
-/

namespace Ergon.Lib

open List Nat

/-- A number of `n` words of `w` bits. -/
structure Limbs (w n : Nat) where
  words : List Nat
  length_words : words.length = n
  words_lt : ∀ x ∈ words, x < 2 ^ w
deriving DecidableEq

namespace Limbs

/-! ## Loops over words -/

/-- The sum of two numbers and a carry; the last carry is dropped. -/
def addLoop (base : Nat) : Nat → List Nat → List Nat → List Nat
  | carry, x :: xs, y :: ys =>
    (carry + x + y) % base :: addLoop base ((carry + x + y) / base) xs ys
  | _, _, _ => []

def incLoop (base : Nat) : List Nat → List Nat
  | [] => []
  | x :: xs => if x + 1 = base then 0 :: incLoop base xs else (x + 1) :: xs

/-- A number times one word, plus a carry. -/
def mulWordLoop (base factor : Nat) : Nat → List Nat → List Nat
  | _, [] => []
  | carry, x :: xs =>
    (carry + factor * x) % base :: mulWordLoop base factor ((carry + factor * x) / base) xs

/-- One row of the product: `factor` times `ys` is added to `acc`, as far as `acc`
reaches. -/
def mulRow (base factor : Nat) : Nat → List Nat → List Nat → List Nat
  | carry, a :: acc, y :: ys =>
    (carry + a + factor * y) % base ::
      mulRow base factor ((carry + a + factor * y) / base) acc ys
  | _, _, _ => []

/-- The rows of the product. After a row the lowest word of `acc` is final, and the
next row starts one word higher. -/
def mulLoop (base : Nat) : List Nat → List Nat → List Nat → List Nat
  | x :: xs, acc, ys =>
    match mulRow base x 0 acc ys with
    | [] => []
    | r :: row => r :: mulLoop base xs row ys
  | [], _, _ => []

/-- Shift by `s` bits, less than a word; `low` is what the word below moves up. -/
def shiftLeftLoop (w s : Nat) : Nat → List Nat → List Nat
  | _, [] => []
  | low, x :: xs =>
    (x <<< s % 2 ^ w ||| low) :: shiftLeftLoop w s (if s = 0 then 0 else x >>> (w - s)) xs

def shiftRightLoop (w s : Nat) : List Nat → List Nat
  | [] => []
  | x :: xs =>
    (x >>> s ||| (if s = 0 then 0 else xs.headD 0 <<< (w - s) % 2 ^ w)) :: shiftRightLoop w s xs

/-- The order of two numbers: the highest word in which they differ decides. -/
def compareLoop : List Nat → List Nat → Ordering
  | x :: xs, y :: ys =>
    match compareLoop xs ys with
    | .eq => compare x y
    | order => order
  | _, _ => .eq

/-- The position after the highest set bit among the bits `0` to `i`; the lowest bit is not
tested, so `x` is not zero. -/
def topBit (x : Nat) : Nat → Nat
  | 0 => 1
  | i + 1 => if x.testBit (i + 1) then i + 2 else topBit x i

def bitsLoop (w : Nat) : List Nat → Nat
  | [] => 0
  | x :: xs =>
    match bitsLoop w xs with
    | 0 => if x = 0 then 0 else topBit x (w - 1)
    | above + 1 => w + (above + 1)

def ofNatLoop (base : Nat) : Nat → Nat → List Nat
  | 0, _ => []
  | n + 1, x => x % base :: ofNatLoop base n (x / base)

/-! ### The numbers they compute -/

variable {xs : List Nat}

section Loops

variable {b : Nat}

theorem ofDigits_lt_pow {l : List Nat} (h : ∀ x ∈ l, x < b) :
    ofDigits b l < b ^ l.length := by
  induction l with
  | nil => simp
  | cons x l ih =>
    have hx : x + 1 ≤ b := h x mem_cons_self
    have hl : ofDigits b l + 1 ≤ b ^ l.length :=
      ih fun y hy => h y (mem_cons_of_mem x hy)
    calc ofDigits b (x :: l) = x + b * ofDigits b l := ofDigits_cons
      _ < b * (ofDigits b l + 1) := by rw [Nat.mul_add]; omega
      _ ≤ b * b ^ l.length := Nat.mul_le_mul_left b hl
      _ = b ^ (x :: l).length := by rw [length_cons, Nat.pow_succ, Nat.mul_comm]

/-- One word of a sum and the carry into the rest, put back together. -/
theorem mod_add_base_mul (s rest k : Nat) :
    s % b + b * ((s / b + rest) % b ^ k) = (s + b * rest) % b ^ (k + 1) := by
  rcases Nat.eq_zero_or_pos b with rfl | hPos
  · simp
  · rw [Nat.pow_succ, Nat.mul_comm (b ^ k), mod_mul, add_mul_mod_self_left,
      add_mul_div_left _ _ hPos]

theorem length_incLoop (xs : List Nat) : (incLoop b xs).length = xs.length := by
  induction xs with
  | nil => rfl
  | cons x xs ih =>
    rw [incLoop]
    split <;> simp [ih]

theorem ofDigits_incLoop (h : ∀ x ∈ xs, x < b) :
    ofDigits b (incLoop b xs) = (ofDigits b xs + 1) % b ^ xs.length := by
  induction xs with
  | nil => simp [incLoop]
  | cons x xs ih =>
    have hTail : ∀ y ∈ xs, y < b := fun y hy => h y (mem_cons_of_mem x hy)
    have hx := h x mem_cons_self
    rw [incLoop]
    split
    · next hCarry =>
      -- the word wraps to zero and the rest is incremented
      have hSum : x + b * ofDigits b xs + 1 =
          b * (ofDigits b xs + 1) := by
        rw [Nat.mul_add]
        omega
      rw [ofDigits_cons, ih hTail, ofDigits_cons, hSum, length_cons, Nat.pow_succ,
        Nat.mul_comm _ b, mul_mod_mul_left]
      exact Nat.zero_add _
    · next hCarry =>
      have hLt : ofDigits b ((x + 1) :: xs) < b ^ ((x + 1) :: xs).length :=
        ofDigits_lt_pow fun y hy => by
          rcases mem_cons.mp hy with rfl | hy
          · omega
          · exact hTail y hy
      have hSum : ofDigits b (x :: xs) + 1 = ofDigits b ((x + 1) :: xs) := by
        rw [ofDigits_cons, ofDigits_cons]
        omega
      rw [hSum]
      exact (mod_eq_of_lt hLt).symm

theorem ofDigits_complement (h : ∀ x ∈ xs, x < b) :
    ofDigits b (xs.map (b - 1 - ·)) + ofDigits b xs + 1 = b ^ xs.length := by
  induction xs with
  | nil => simp
  | cons x xs ih =>
    have hx := h x mem_cons_self
    have hTail := ih fun y hy => h y (mem_cons_of_mem x hy)
    rw [map_cons, ofDigits_cons, ofDigits_cons, length_cons, Nat.pow_succ,
      ← hTail, Nat.mul_comm _ b, Nat.mul_add, Nat.mul_add]
    omega

theorem length_mulRow (factor carry : Nat) (acc ys : List Nat) :
    (mulRow b factor carry acc ys).length = min acc.length ys.length := by
  induction acc generalizing carry ys with
  | nil => simp [mulRow]
  | cons a acc ih =>
    cases ys with
    | nil => simp [mulRow]
    | cons y ys => simp [mulRow, ih, succ_min_succ]

theorem ofDigits_mulRow (factor carry : Nat) {acc ys : List Nat} (hLen : acc.length ≤ ys.length) :
    ofDigits b (mulRow b factor carry acc ys) =
      (carry + ofDigits b acc + factor * ofDigits b ys) % b ^ acc.length := by
  induction acc generalizing carry ys with
  | nil => simp [mulRow, mod_one]
  | cons a acc ih =>
    cases ys with
    | nil => simp at hLen
    | cons y ys =>
      rw [mulRow, ofDigits_cons, ih _ (le_of_succ_le_succ hLen), Nat.add_assoc (_ / _),
        mod_add_base_mul, length_cons, ofDigits_cons, ofDigits_cons]
      congr 1
      ring

theorem incLoop_lt (h : ∀ x ∈ xs, x < b) : ∀ z ∈ incLoop b xs, z < b := by
  induction xs with
  | nil => simp [incLoop]
  | cons x xs ih =>
    rw [forall_mem_cons] at h
    rw [incLoop]
    split <;> rw [forall_mem_cons]
    · exact ⟨by omega, ih h.2⟩
    · exact ⟨by omega, h.2⟩

/-- A sum is a row with the factor one. -/
theorem addLoop_eq (carry : Nat) (xs ys : List Nat) :
    addLoop b carry xs ys = mulRow b 1 carry xs ys := by
  induction xs generalizing carry ys with
  | nil => rfl
  | cons x xs ih =>
    cases ys with
    | nil => rfl
    | cons y ys => rw [addLoop, mulRow, Nat.one_mul, ih]

/-- The product with one word is a row that starts from zero. -/
theorem mulWordLoop_eq (factor carry : Nat) (xs : List Nat) :
    mulWordLoop b factor carry xs = mulRow b factor carry (List.replicate xs.length 0) xs := by
  induction xs generalizing carry with
  | nil => rfl
  | cons x xs ih => rw [mulWordLoop, length_cons, replicate_succ, mulRow, Nat.add_zero, ih]

theorem mulRow_lt (hPos : 0 < b) (factor carry : Nat) (acc ys : List Nat) :
    ∀ z ∈ mulRow b factor carry acc ys, z < b := by
  induction acc generalizing carry ys with
  | nil => simp [mulRow]
  | cons a acc ih =>
    cases ys with
    | nil => simp [mulRow]
    | cons y ys =>
      rw [mulRow, forall_mem_cons]
      exact ⟨mod_lt _ hPos, ih _ ys⟩

theorem mulLoop_lt (hPos : 0 < b) (xs acc ys : List Nat) :
    ∀ z ∈ mulLoop b xs acc ys, z < b := by
  induction xs generalizing acc with
  | nil => simp [mulLoop]
  | cons x xs ih =>
    have hRow := mulRow_lt hPos x 0 acc ys
    rw [mulLoop]
    cases hEq : mulRow b x 0 acc ys with
    | nil => simp
    | cons r row =>
      rw [hEq, forall_mem_cons] at hRow
      exact forall_mem_cons.mpr ⟨hRow.1, ih row⟩

theorem mulLoop_spec (hPos : 0 < b) {xs acc ys : List Nat} (hAcc : xs.length = acc.length)
    (hLen : acc.length ≤ ys.length) :
    (mulLoop b xs acc ys).length = acc.length ∧ ofDigits b (mulLoop b xs acc ys) =
      (ofDigits b acc + ofDigits b xs * ofDigits b ys) % b ^ acc.length := by
  induction xs generalizing acc with
  | nil =>
    rw [length_nil] at hAcc
    simp [mulLoop, ← hAcc, mod_one]
  | cons x xs ih =>
    have hRow := ofDigits_mulRow (b := b) x 0 hLen
    have hRowLen := length_mulRow (b := b) x 0 acc ys
    have hRowLt := mulRow_lt hPos x 0 acc ys
    rw [Nat.min_eq_left hLen] at hRowLen
    rw [mulLoop]
    cases hEq : mulRow b x 0 acc ys with
    | nil =>
      rw [hEq, length_nil] at hRowLen
      rw [← hRowLen] at hAcc
      cases hAcc
    | cons r row =>
      rw [hEq, ofDigits_cons, Nat.zero_add] at hRow
      rw [hEq, length_cons] at hRowLen
      rw [length_cons] at hAcc
      have hr : r < b := hRowLt r (by rw [hEq]; exact mem_cons_self)
      generalize hY : ofDigits b ys = Y at *
      -- the lowest word stands; the remaining rows are added to the rest
      obtain ⟨hRestLen, hRest⟩ := ih (by omega : xs.length = row.length) (by omega)
      have hWord := mod_add_base_mul (b := b) r (ofDigits b row + ofDigits b xs * Y)
        row.length
      rw [mod_eq_of_lt hr, div_eq_of_lt hr, Nat.zero_add] at hWord
      refine ⟨by rw [length_cons, hRestLen, hRowLen], ?_⟩
      calc ofDigits b (r :: mulLoop b xs row ys)
          = (r + b * (ofDigits b row + ofDigits b xs * Y)) % b ^ acc.length := by
            rw [ofDigits_cons, hRest, hWord, hRowLen]
        _ = ((r + b * ofDigits b row) + b * (ofDigits b xs * Y)) % b ^ acc.length := by
            rw [Nat.mul_add, Nat.add_assoc]
        _ = (ofDigits b acc + x * Y + b * (ofDigits b xs * Y)) % b ^ acc.length := by
            rw [hRow, mod_add_mod]
        _ = (ofDigits b acc + ofDigits b (x :: xs) * Y) % b ^ acc.length := by
            rw [ofDigits_cons, Nat.add_mul, Nat.add_assoc, Nat.mul_assoc]

theorem length_ofNatLoop (n x : Nat) : (ofNatLoop b n x).length = n := by
  induction n generalizing x with
  | zero => rfl
  | succ n ih => simp [ofNatLoop, ih]

theorem ofNatLoop_lt (hPos : 0 < b) (n x : Nat) : ∀ z ∈ ofNatLoop b n x, z < b := by
  induction n generalizing x with
  | zero => simp [ofNatLoop]
  | succ n ih =>
    rw [ofNatLoop, forall_mem_cons]
    exact ⟨mod_lt _ hPos, ih _⟩

theorem ofDigits_ofNatLoop (n x : Nat) : ofDigits b (ofNatLoop b n x) = x % b ^ n := by
  induction n generalizing x with
  | zero => simp [ofNatLoop, mod_one]
  | succ n ih => rw [ofNatLoop, ofDigits_cons, ih, Nat.pow_succ, Nat.mul_comm _ b, mod_mul]

theorem compareLoop_eq {xs ys : List Nat} (hLen : xs.length = ys.length)
    (hx : ∀ x ∈ xs, x < b) (hy : ∀ y ∈ ys, y < b) :
    compareLoop xs ys = compare (ofDigits b xs) (ofDigits b ys) := by
  induction xs generalizing ys with
  | nil =>
    cases ys with
    | nil => rfl
    | cons y ys => cases hLen
  | cons x xs ih =>
    cases ys with
    | nil => cases hLen
    | cons y ys =>
      rw [forall_mem_cons] at hx hy
      rw [compareLoop, ih (Nat.succ.inj hLen) hx.2 hy.2, ofDigits_cons, ofDigits_cons]
      generalize ofDigits b xs = X
      generalize ofDigits b ys = Y
      -- a higher word outweighs everything below it
      rcases Nat.lt_trichotomy X Y with hLt | rfl | hGt
      · have hStep : b * (X + 1) ≤ b * Y := Nat.mul_le_mul_left b hLt
        rw [Nat.mul_add] at hStep
        rw [compare_lt_iff_lt.mpr hLt, eq_comm, compare_lt_iff_lt]
        show x + b * X < y + b * Y
        omega
      · rw [compare_eq_iff_eq.mpr rfl]
        rcases Nat.lt_trichotomy x y with h | rfl | h
        · rw [compare_lt_iff_lt.mpr h, compare_lt_iff_lt.mpr (Nat.add_lt_add_right h _)]
        · rw [compare_eq_iff_eq.mpr rfl, compare_eq_iff_eq.mpr rfl]
        · rw [compare_gt_iff_gt.mpr h, compare_gt_iff_gt.mpr (Nat.add_lt_add_right h _)]
      · have hStep : b * (Y + 1) ≤ b * X := Nat.mul_le_mul_left b hGt
        rw [Nat.mul_add] at hStep
        rw [compare_gt_iff_gt.mpr hGt, eq_comm, compare_gt_iff_gt]
        show y + b * Y < x + b * X
        omega

end Loops

section Bits

variable {w s : Nat}

/-- What a word shifted left by `s` keeps, and what it passes to the next. -/
theorem shiftLeft_word (hs : s ≤ w) {low : Nat} (hLow : low < 2 ^ s) (x : Nat) :
    x <<< s % 2 ^ w ||| low = (low + x * 2 ^ s) % 2 ^ w ∧
      x / 2 ^ (w - s) = (low + x * 2 ^ s) / 2 ^ w := by
  have hWidth : 2 ^ w = 2 ^ s * 2 ^ (w - s) := by rw [← Nat.pow_add, Nat.add_sub_cancel' hs]
  have hPos : 0 < 2 ^ s := Nat.two_pow_pos s
  constructor
  · rw [shiftLeft_eq, hWidth, Nat.mul_comm x, mul_mod_mul_left, ← two_pow_add_eq_or_of_lt hLow,
      mod_mul, add_mul_mod_self_left, add_mul_div_left _ _ hPos, mod_eq_of_lt hLow,
      div_eq_of_lt hLow, Nat.zero_add, Nat.add_comm]
  · rw [hWidth, ← Nat.div_div_eq_div_mul, Nat.mul_comm x, add_mul_div_left _ _ hPos,
      div_eq_of_lt hLow, Nat.zero_add]

theorem length_shiftLeftLoop (low : Nat) (xs : List Nat) :
    (shiftLeftLoop w s low xs).length = xs.length := by
  induction xs generalizing low with
  | nil => rfl
  | cons x xs ih => simp [shiftLeftLoop, ih]

/-- The guard of the source against a shift by a whole word changes nothing. -/
theorem shiftedOut_eq {x : Nat} (hx : x < 2 ^ w) :
    (if s = 0 then 0 else x >>> (w - s)) = x / 2 ^ (w - s) := by
  split
  · next hZero =>
    subst hZero
    exact (div_eq_of_lt (by simpa using hx)).symm
  · exact shiftRight_eq_div_pow x (w - s)

theorem shiftLeftLoop_spec (hs : s ≤ w) {low : Nat} (hLow : low < 2 ^ s)
    (hx : ∀ x ∈ xs, x < 2 ^ w) :
    ofDigits (2 ^ w) (shiftLeftLoop w s low xs) =
        (low + ofDigits (2 ^ w) xs * 2 ^ s) % (2 ^ w) ^ xs.length ∧
      ∀ z ∈ shiftLeftLoop w s low xs, z < 2 ^ w := by
  induction xs generalizing low with
  | nil => simp [shiftLeftLoop, mod_one]
  | cons x xs ih =>
    rw [forall_mem_cons] at hx
    obtain ⟨hWord, hNext⟩ := shiftLeft_word hs hLow x
    have hNextLt : x / 2 ^ (w - s) < 2 ^ s := by
      rw [Nat.div_lt_iff_lt_mul (Nat.two_pow_pos _), ← Nat.pow_add, Nat.add_sub_cancel' hs]
      exact hx.1
    obtain ⟨hRest, hRestLt⟩ := ih hNextLt hx.2
    rw [shiftLeftLoop, shiftedOut_eq hx.1, forall_mem_cons]
    refine ⟨?_, ?_, hRestLt⟩
    · rw [ofDigits_cons, hRest, hWord, hNext, mod_add_base_mul, length_cons, ofDigits_cons]
      congr 1
      ring
    · rw [hWord]
      exact mod_lt _ (Nat.two_pow_pos w)

theorem length_shiftRightLoop (xs : List Nat) : (shiftRightLoop w s xs).length = xs.length := by
  induction xs with
  | nil => rfl
  | cons x xs ih => simp [shiftRightLoop, ih]

/-- The low bits of a number are those of its lowest word. -/
theorem headD_mod (hs : s ≤ w) (xs : List Nat) :
    xs.headD 0 % 2 ^ s = ofDigits (2 ^ w) xs % 2 ^ s := by
  cases xs with
  | nil => rfl
  | cons x xs =>
    obtain ⟨k, hk⟩ := Nat.pow_dvd_pow 2 hs
    rw [ofDigits_cons, hk, Nat.mul_assoc, add_mul_mod_self_left]
    rfl

/-- A word shifted right takes in the low bits of the word above. -/
theorem shiftRight_word (hs : s ≤ w) {x : Nat} (hx : x < 2 ^ w) (above : Nat) :
    (x >>> s ||| (if s = 0 then 0 else above <<< (w - s) % 2 ^ w)) =
      x / 2 ^ s + 2 ^ (w - s) * (above % 2 ^ s) := by
  split
  · next hZero => simp [hZero, mod_one]
  · have hWidth : 2 ^ w = 2 ^ (w - s) * 2 ^ s := by rw [← Nat.pow_add, Nat.sub_add_cancel hs]
    have hLt : x / 2 ^ s < 2 ^ (w - s) := by
      rw [Nat.div_lt_iff_lt_mul (Nat.two_pow_pos s), ← hWidth]
      exact hx
    rw [shiftRight_eq_div_pow, shiftLeft_eq, hWidth, Nat.mul_comm above,
      mul_mod_mul_left, Nat.or_comm, ← two_pow_add_eq_or_of_lt hLt, Nat.add_comm]

theorem shiftRightLoop_spec (hs : s ≤ w) (hx : ∀ x ∈ xs, x < 2 ^ w) :
    ofDigits (2 ^ w) (shiftRightLoop w s xs) = ofDigits (2 ^ w) xs / 2 ^ s ∧
      ∀ z ∈ shiftRightLoop w s xs, z < 2 ^ w := by
  induction xs with
  | nil => simp [shiftRightLoop]
  | cons x xs ih =>
    rw [forall_mem_cons] at hx
    obtain ⟨hRest, hRestLt⟩ := ih hx.2
    have hWidth : 2 ^ w = 2 ^ s * 2 ^ (w - s) := by rw [← Nat.pow_add, Nat.add_sub_cancel' hs]
    rw [shiftRightLoop, shiftRight_word hs hx.1, headD_mod hs, forall_mem_cons]
    generalize hY : ofDigits (2 ^ w) xs = Y at *
    refine ⟨?_, ?_, hRestLt⟩
    · calc ofDigits (2 ^ w) ((x / 2 ^ s + 2 ^ (w - s) * (Y % 2 ^ s)) :: shiftRightLoop w s xs)
          = x / 2 ^ s + 2 ^ (w - s) * (Y % 2 ^ s) + 2 ^ w * (Y / 2 ^ s) := by
            rw [ofDigits_cons, hRest]
        _ = x / 2 ^ s + 2 ^ (w - s) * (Y % 2 ^ s + 2 ^ s * (Y / 2 ^ s)) := by
            rw [hWidth]
            ring
        _ = x / 2 ^ s + 2 ^ (w - s) * Y := by rw [mod_add_div]
        _ = (x + 2 ^ w * Y) / 2 ^ s := by
            rw [hWidth, Nat.mul_assoc, add_mul_div_left _ _ (Nat.two_pow_pos s)]
        _ = ofDigits (2 ^ w) (x :: xs) / 2 ^ s := by rw [ofDigits_cons, hY]
    · have hLow : x / 2 ^ s + 1 ≤ 2 ^ (w - s) := by
        have hDiv : x / 2 ^ s < 2 ^ (w - s) := by
          rw [Nat.div_lt_iff_lt_mul (Nat.two_pow_pos s), Nat.mul_comm, ← hWidth]
          exact hx.1
        exact hDiv
      have hHigh : Y % 2 ^ s + 1 ≤ 2 ^ s := mod_lt _ (Nat.two_pow_pos s)
      calc x / 2 ^ s + 2 ^ (w - s) * (Y % 2 ^ s)
          < 2 ^ (w - s) * (Y % 2 ^ s + 1) := by rw [Nat.mul_add]; omega
        _ ≤ 2 ^ (w - s) * 2 ^ s := Nat.mul_le_mul_left _ hHigh
        _ = 2 ^ w := by rw [hWidth, Nat.mul_comm]

theorem topBit_eq {x i : Nat} (hx : x ≠ 0) (hLt : x < 2 ^ (i + 1)) : topBit x i = Nat.size x := by
  induction i with
  | zero =>
    have hOne : x = 1 := by
      rw [Nat.zero_add, Nat.pow_one] at hLt
      omega
    rw [hOne, topBit, size_one]
  | succ i ih =>
    rw [topBit]
    split
    · next hBit =>
      have hGe : 2 ^ (i + 1) ≤ x := ge_two_pow_of_testBit hBit
      have hAbove := lt_size.mpr hGe
      have hBelow := size_le.mpr hLt
      omega
    · next hBit =>
      refine ih ?_
      by_contra hGe
      -- the only bit that could reach this high is the one just found clear
      have hHigh : x / 2 ^ (i + 1) = 1 := by
        refine Nat.div_eq_of_lt_le (by omega) ?_
        rw [Nat.pow_succ] at hLt
        omega
      rw [testBit_eq_decide_div_mod_eq, hHigh] at hBit
      exact hBit rfl

theorem bitsLoop_eq (hw : 0 < w) (hx : ∀ x ∈ xs, x < 2 ^ w) :
    bitsLoop w xs = Nat.size (ofDigits (2 ^ w) xs) := by
  induction xs with
  | nil => simp [bitsLoop]
  | cons x xs ih =>
    rw [forall_mem_cons] at hx
    rw [bitsLoop, ih hx.2, ofDigits_cons]
    generalize ofDigits (2 ^ w) xs = X
    cases hSize : Nat.size X with
    | zero =>
      rw [size_eq_zero] at hSize
      subst hSize
      rw [mul_zero, Nat.add_zero]
      show (if x = 0 then 0 else topBit x (w - 1)) = Nat.size x
      split
      · next hZero => rw [hZero, size_zero]
      · next hNe => exact topBit_eq hNe (by rw [Nat.sub_add_cancel hw]; exact hx.1)
    | succ above =>
      have hLow : 2 ^ above ≤ X := lt_size.mp (by omega)
      have hHigh : X < 2 ^ (above + 1) := size_le.mp (by omega)
      show w + (above + 1) = Nat.size (x + 2 ^ w * X)
      apply le_antisymm
      · rw [← Nat.add_assoc, succ_le_iff, lt_size, Nat.pow_add]
        exact le_add_left (Nat.mul_le_mul_left _ hLow)
      · rw [size_le, Nat.pow_add]
        have hStep : 2 ^ w * (X + 1) ≤ 2 ^ w * 2 ^ (above + 1) := Nat.mul_le_mul_left _ hHigh
        rw [Nat.mul_add] at hStep
        have := hx.1
        omega

/-- Set one bit of a list of words. -/
theorem ofDigits_modify_or (hx : ∀ x ∈ xs, x < 2 ^ w) {k j : Nat} (hj : j < w)
    (hk : k < xs.length) :
    ofDigits (2 ^ w) (xs.modify k (· ||| 2 ^ j)) =
        ofDigits (2 ^ w) xs ||| 2 ^ (w * k + j) ∧
      ∀ z ∈ xs.modify k (· ||| 2 ^ j), z < 2 ^ w := by
  have hBit : 2 ^ j < 2 ^ w := Nat.pow_lt_pow_right (by omega) hj
  induction xs generalizing k with
  | nil => simp at hk
  | cons x xs ih =>
    rw [forall_mem_cons] at hx
    -- a word and the words above it do not share bits
    have hSplit : ∀ y < 2 ^ w, ∀ rest, y + 2 ^ w * rest = 2 ^ w * rest ||| y := by
      intro y hy rest
      rw [← two_pow_add_eq_or_of_lt hy, Nat.add_comm]
    cases k with
    | zero =>
      have hWord : x ||| 2 ^ j < 2 ^ w := or_lt_two_pow hx.1 hBit
      rw [modify_zero_cons, forall_mem_cons]
      refine ⟨?_, hWord, hx.2⟩
      rw [ofDigits_cons, ofDigits_cons, hSplit _ hWord, hSplit _ hx.1, mul_zero,
        Nat.zero_add, Nat.or_assoc]
    | succ k =>
      obtain ⟨hRest, hLt⟩ := ih hx.2 (lt_of_succ_lt_succ hk)
      rw [modify_succ_cons, forall_mem_cons]
      refine ⟨?_, hx.1, hLt⟩
      have hPow : 2 ^ (w * (k + 1) + j) = 2 ^ w * 2 ^ (w * k + j) := by
        rw [← Nat.pow_add]
        congr 1
        ring
      have hDistrib : ∀ y z, 2 ^ w * (y ||| z) = 2 ^ w * y ||| 2 ^ w * z := by
        intro y z
        simp only [Nat.mul_comm (2 ^ w), ← shiftLeft_eq]
        exact shiftLeft_or_distrib
      rw [ofDigits_cons, ofDigits_cons, hRest, hSplit _ hx.1, hSplit _ hx.1, hPow,
        hDistrib, Nat.or_assoc, Nat.or_comm _ x, ← Nat.or_assoc]

end Bits

/-! ## Operations -/

variable {w n : Nat}

def value (a : Limbs w n) : Nat := ofDigits (2 ^ w) a.words

theorem value_lt (a : Limbs w n) : a.value < 2 ^ (w * n) := by
  have hLt := ofDigits_lt_pow a.words_lt
  rwa [a.length_words, ← Nat.pow_mul] at hLt

def ofNat (x : Nat) : Limbs w n where
  words := ofNatLoop (2 ^ w) n x
  length_words := length_ofNatLoop n x
  words_lt := ofNatLoop_lt (Nat.two_pow_pos w) n x

def complement (a : Limbs w n) : Limbs w n where
  words := a.words.map (2 ^ w - 1 - ·)
  length_words := by rw [length_map, a.length_words]
  words_lt := by
    have hPos := Nat.two_pow_pos w
    intro x hx
    obtain ⟨y, _, rfl⟩ := mem_map.mp hx
    omega

def inc (a : Limbs w n) : Limbs w n where
  words := incLoop (2 ^ w) a.words
  length_words := by rw [length_incLoop, a.length_words]
  words_lt := incLoop_lt a.words_lt

def neg (a : Limbs w n) : Limbs w n := a.complement.inc

def add (a b : Limbs w n) : Limbs w n where
  words := addLoop (2 ^ w) 0 a.words b.words
  length_words := by rw [addLoop_eq, length_mulRow, a.length_words, b.length_words, Nat.min_self]
  words_lt := addLoop_eq 0 a.words b.words ▸ mulRow_lt (Nat.two_pow_pos w) 1 0 a.words b.words

def sub (a b : Limbs w n) : Limbs w n := a.add b.neg

def mulWord (a : Limbs w n) (factor : Nat) : Limbs w n where
  words := mulWordLoop (2 ^ w) factor 0 a.words
  length_words := by
    rw [mulWordLoop_eq, length_mulRow, length_replicate, Nat.min_self, a.length_words]
  words_lt := mulWordLoop_eq factor 0 a.words ▸ mulRow_lt (Nat.two_pow_pos w) factor 0 _ a.words

def mul (a b : Limbs w n) : Limbs w n where
  words := mulLoop (2 ^ w) a.words (List.replicate n 0) b.words
  length_words := by
    rw [(mulLoop_spec (Nat.two_pow_pos w) _ _).1] <;> simp [a.length_words, b.length_words]
  words_lt := mulLoop_lt (Nat.two_pow_pos w) a.words _ b.words

def compareTo (a b : Limbs w n) : Ordering := compareLoop a.words b.words

/-- The position of the highest set bit plus one, or zero. -/
def bits (a : Limbs w n) : Nat := bitsLoop w a.words

theorem value_ofNat (x : Nat) : (ofNat x : Limbs w n).value = x % 2 ^ (w * n) := by
  rw [value, ofNat, ofDigits_ofNatLoop, Nat.pow_mul]

theorem value_complement (a : Limbs w n) : a.complement.value = 2 ^ (w * n) - 1 - a.value := by
  have h := ofDigits_complement a.words_lt
  rw [a.length_words, ← Nat.pow_mul] at h
  show ofDigits (2 ^ w) (a.words.map (2 ^ w - 1 - ·)) = _ - ofDigits (2 ^ w) a.words
  omega

theorem value_inc (a : Limbs w n) : a.inc.value = (a.value + 1) % 2 ^ (w * n) := by
  rw [value, inc, ofDigits_incLoop a.words_lt, a.length_words, ← Nat.pow_mul]
  rfl

theorem value_neg (a : Limbs w n) : a.neg.value = (2 ^ (w * n) - a.value) % 2 ^ (w * n) := by
  have hLt := a.value_lt
  rw [neg, value_inc, value_complement]
  congr 1
  omega

theorem value_add (a b : Limbs w n) : (a.add b).value = (a.value + b.value) % 2 ^ (w * n) := by
  show ofDigits (2 ^ w) (addLoop (2 ^ w) 0 a.words b.words) = _
  rw [addLoop_eq, ofDigits_mulRow _ _ (by rw [a.length_words, b.length_words]),
    Nat.zero_add, Nat.one_mul, a.length_words, ← Nat.pow_mul]
  rfl

theorem value_sub (a b : Limbs w n) :
    (a.sub b).value = (a.value + (2 ^ (w * n) - b.value)) % 2 ^ (w * n) := by
  rw [sub, value_add, value_neg, add_mod_mod]

theorem value_sub_of_le {a b : Limbs w n} (h : b.value ≤ a.value) :
    (a.sub b).value = a.value - b.value := by
  have ha := a.value_lt
  rw [value_sub, show a.value + (2 ^ (w * n) - b.value) = a.value - b.value + 2 ^ (w * n) by omega,
    add_mod_right, mod_eq_of_lt (by omega)]

theorem value_mulWord (a : Limbs w n) (factor : Nat) :
    (a.mulWord factor).value = a.value * factor % 2 ^ (w * n) := by
  have hZero : ofDigits (2 ^ w) (List.replicate a.words.length 0) = 0 := by simp
  show ofDigits (2 ^ w) (mulWordLoop (2 ^ w) factor 0 a.words) = _
  rw [mulWordLoop_eq, ofDigits_mulRow _ _ (by simp), hZero, Nat.zero_add,
    length_replicate, a.length_words, ← Nat.pow_mul, Nat.mul_comm]
  rfl

theorem value_mul (a b : Limbs w n) : (a.mul b).value = a.value * b.value % 2 ^ (w * n) := by
  have hZero : ofDigits (2 ^ w) (List.replicate n 0) = 0 := by
    simp
  rw [value, mul, (mulLoop_spec (Nat.two_pow_pos w) (by rw [a.length_words, length_replicate])
    (by rw [length_replicate, b.length_words])).2, hZero, Nat.zero_add, length_replicate,
    ← Nat.pow_mul]
  rfl

theorem compareTo_eq (a b : Limbs w n) : a.compareTo b = compare a.value b.value :=
  compareLoop_eq (by rw [a.length_words, b.length_words]) a.words_lt b.words_lt

section Shifts

variable [NeZero w]

theorem value_inj {a b : Limbs w n} : a.value = b.value ↔ a = b := by
  constructor
  · intro h
    have hWords := ofDigits_inj_of_len_eq (Nat.one_lt_two_pow (NeZero.ne w))
      (by rw [a.length_words, b.length_words]) a.words_lt b.words_lt h
    cases a
    cases b
    cases hWords
    rfl
  · exact congrArg value

theorem bits_eq (a : Limbs w n) : a.bits = Nat.size a.value :=
  bitsLoop_eq (pos_of_neZero w) a.words_lt

theorem mod_width_le (shift : Nat) : shift % w ≤ w :=
  (mod_lt shift (pos_of_neZero w)).le

theorem shiftLeftLoop_words (a : Limbs w n) (shift : Nat) :
    ofDigits (2 ^ w) (shiftLeftLoop w (shift % w) 0 a.words) =
        a.value * 2 ^ (shift % w) % 2 ^ (w * n) ∧
      ∀ z ∈ shiftLeftLoop w (shift % w) 0 a.words, z < 2 ^ w := by
  have h := shiftLeftLoop_spec (mod_width_le shift) (Nat.two_pow_pos (shift % w)) a.words_lt
  rwa [Nat.zero_add, a.length_words, ← Nat.pow_mul] at h

theorem shiftLeft_words_lt (a : Limbs w n) (shift : Nat) :
    ∀ z ∈ List.replicate (shift / w) 0 ++ shiftLeftLoop w (shift % w) 0 a.words, z < 2 ^ w := by
  intro z hz
  rcases mem_append.mp hz with hz | hz
  · rw [eq_of_mem_replicate hz]
    exact Nat.two_pow_pos w
  · exact (shiftLeftLoop_words a shift).2 z hz

def shiftLeft (a : Limbs w n) (shift : Nat) : Limbs w n where
  words := (List.replicate (shift / w) 0 ++ shiftLeftLoop w (shift % w) 0 a.words).take n
  length_words := by
    rw [length_take, length_append, length_shiftLeftLoop, a.length_words]
    omega
  words_lt z hz := shiftLeft_words_lt a shift z (mem_of_mem_take hz)

def shiftRight (a : Limbs w n) (shift : Nat) : Limbs w n where
  words := (shiftRightLoop w (shift % w) a.words).drop (shift / w) ++
    List.replicate (min (shift / w) n) 0
  length_words := by
    rw [length_append, length_drop, length_shiftRightLoop, a.length_words, length_replicate]
    omega
  words_lt := by
    intro z hz
    rcases mem_append.mp hz with hz | hz
    · exact (shiftRightLoop_spec (mod_width_le shift) a.words_lt).2 z (mem_of_mem_drop hz)
    · rw [eq_of_mem_replicate hz]
      exact Nat.two_pow_pos w

theorem value_shiftLeft (a : Limbs w n) (shift : Nat) :
    (a.shiftLeft shift).value = a.value * 2 ^ shift % 2 ^ (w * n) := by
  have hZero : ofDigits (2 ^ w) (List.replicate (shift / w) 0) = 0 := by
    simp
  have hShift : 2 ^ shift = 2 ^ (shift % w) * 2 ^ (w * (shift / w)) := by
    rw [← Nat.pow_add, mod_add_div]
  rw [value, shiftLeft, ← ofDigits_mod_pow_eq_ofDigits_take n (Nat.two_pow_pos w) _
    (shiftLeft_words_lt a shift), ofDigits_append, hZero, Nat.zero_add, length_replicate,
    (shiftLeftLoop_words a shift).1, ← Nat.pow_mul, ← Nat.pow_mul, mul_mod_mod, hShift,
    Nat.mul_comm (2 ^ (w * (shift / w))), Nat.mul_assoc]

theorem value_shiftRight (a : Limbs w n) (shift : Nat) :
    (a.shiftRight shift).value = a.value / 2 ^ shift := by
  obtain ⟨hValue, hLt⟩ := shiftRightLoop_spec (mod_width_le shift) a.words_lt
  have hShift : 2 ^ shift = 2 ^ (shift % w) * 2 ^ (w * (shift / w)) := by
    rw [← Nat.pow_add, mod_add_div]
  rw [value, shiftRight, ofDigits_append_replicate_zero,
    ← ofDigits_div_pow_eq_ofDigits_drop _ (Nat.two_pow_pos w) _ hLt, hValue, ← Nat.pow_mul,
    Nat.div_div_eq_div_mul, ← hShift]
  rfl

/-- Set bit `i`; nothing if it is out of range. -/
def setBit (a : Limbs w n) (i : Nat) : Limbs w n where
  words := a.words.modify (i / w) (· ||| 2 ^ (i % w))
  length_words := by rw [length_modify, a.length_words]
  words_lt := by
    by_cases hk : i / w < a.words.length
    · exact (ofDigits_modify_or a.words_lt (mod_lt i (pos_of_neZero w)) hk).2
    · rw [modify_eq_self (by omega)]
      exact a.words_lt

theorem value_setBit {a : Limbs w n} {i : Nat} (hi : i < w * n) :
    (a.setBit i).value = a.value ||| 2 ^ i := by
  have hk : i / w < a.words.length := by
    rw [a.length_words]
    exact Nat.div_lt_of_lt_mul hi
  have h := (ofDigits_modify_or a.words_lt (mod_lt i (pos_of_neZero w)) hk).1
  rwa [div_add_mod] at h

/-! ## Division -/

/-- Long division. `steps` bits of the quotient are left, and `div` is the divisor
shifted to the highest of them. -/
def divLoop : Nat → Limbs w n → Limbs w n → Limbs w n → Limbs w n
  | 0, _, _, quotient => quotient
  | shift + 1, num, div, quotient =>
    if num.compareTo div = .lt then divLoop shift num (div.shiftRight 1) quotient
    else divLoop shift (num.sub div) (div.shiftRight 1) (quotient.setBit shift)

/-- The quotient, `none` for a divisor of zero. -/
def div (a b : Limbs w n) : Option (Limbs w n) :=
  if b.bits = 0 then none
  else if a.bits < b.bits then some (ofNat 0)
  else some (divLoop (a.bits - b.bits + 1) a (b.shiftLeft (a.bits - b.bits)) (ofNat 0))

theorem value_divLoop {d : Nat} : ∀ {steps : Nat} {num div quotient : Limbs w n},
    steps ≤ w * n → div.value = d * 2 ^ steps / 2 → num.value < d * 2 ^ steps →
    2 ^ steps ∣ quotient.value →
    (divLoop steps num div quotient).value = quotient.value + num.value / d
  | 0, num, div, quotient, _, _, hNum, _ => by
    rw [Nat.pow_zero, Nat.mul_one] at hNum
    rw [divLoop, div_eq_of_lt hNum, Nat.add_zero]
  | shift + 1, num, div, quotient, hSteps, hDiv, hNum, hDvd => by
    have hPow : d * 2 ^ (shift + 1) = d * 2 ^ shift * 2 := by rw [Nat.pow_succ, Nat.mul_assoc]
    rw [hPow, Nat.mul_div_cancel _ Nat.two_pos] at hDiv
    have hNext : (div.shiftRight 1).value = d * 2 ^ shift / 2 := by
      rw [value_shiftRight, Nat.pow_one, hDiv]
    have hLower : 2 ^ shift ∣ quotient.value :=
      (Nat.pow_dvd_pow 2 (le_succ shift)).trans hDvd
    rw [divLoop]
    split
    · next hLt =>
      rw [compareTo_eq, compare_lt_iff_lt, hDiv] at hLt
      exact value_divLoop (by omega) hNext hLt hLower
    · next hGe =>
      rw [compareTo_eq, compare_lt_iff_lt, hDiv] at hGe
      -- the divisor fits once more, so this bit of the quotient is set
      obtain ⟨k, hk⟩ := hDvd
      have hLe : div.value ≤ num.value := by omega
      have hBit : (quotient.setBit shift).value = quotient.value + 2 ^ shift := by
        have hSmall : 2 ^ shift < 2 ^ (shift + 1) := Nat.pow_lt_pow_right (by omega) (by omega)
        rw [value_setBit (by omega), hk, ← two_pow_add_eq_or_of_lt hSmall]
      have hNum' : (num.sub div).value = num.value - 2 ^ shift * d := by
        rw [value_sub_of_le hLe, hDiv, Nat.mul_comm]
      have hd : 0 < d := by
        by_contra hZero
        rw [Nat.eq_zero_of_not_pos hZero, zero_mul] at hNum
        omega
      have hRemainder : (num.sub div).value < d * 2 ^ shift := by
        rw [hNum', Nat.mul_comm (2 ^ shift)]
        omega
      have hAligned : 2 ^ shift ∣ (quotient.setBit shift).value := by
        rw [hBit]
        exact Nat.dvd_add hLower (Nat.dvd_refl _)
      have hQuot : 2 ^ shift ≤ num.value / d := by
        rw [Nat.le_div_iff_mul_le hd, Nat.mul_comm]
        omega
      rw [value_divLoop (by omega) hNext hRemainder hAligned, hBit, hNum', Nat.mul_comm (2 ^ shift),
        sub_mul_div]
      omega

theorem value_div {a b : Limbs w n} (hb : b.value ≠ 0) :
    ∃ q, a.div b = some q ∧ q.value = a.value / b.value := by
  have hZero : (ofNat 0 : Limbs w n).value = 0 := by rw [value_ofNat, zero_mod]
  have hSize : b.bits ≠ 0 := by rwa [bits_eq, Ne, size_eq_zero]
  have hbLt : b.value < 2 ^ b.bits := by rw [bits_eq]; exact lt_size_self _
  have haLt : a.value < 2 ^ a.bits := by rw [bits_eq]; exact lt_size_self _
  rw [div, if_neg hSize]
  split
  · next hLt =>
    -- fewer bits than the divisor
    have hGe : 2 ^ a.bits ≤ b.value := lt_size.mp (by rwa [← bits_eq])
    exact ⟨_, rfl, by rw [hZero, div_eq_of_lt (by omega)]⟩
  · next hGe =>
    have hTop : a.bits ≤ w * n := by rw [bits_eq]; exact size_le.mpr a.value_lt
    have hLow : 2 ^ (b.bits - 1) ≤ b.value := lt_size.mp (by rw [← bits_eq]; omega)
    refine ⟨_, rfl, ?_⟩
    rw [value_divLoop (d := b.value) (by omega), hZero, Nat.zero_add]
    · -- aligning the divisor with the dividend stays within the width
      have hShift : b.value * 2 ^ (a.bits - b.bits) < 2 ^ (w * n) :=
        calc b.value * 2 ^ (a.bits - b.bits) < 2 ^ b.bits * 2 ^ (a.bits - b.bits) :=
              Nat.mul_lt_mul_of_pos_right hbLt (Nat.two_pow_pos _)
          _ = 2 ^ a.bits := by rw [← Nat.pow_add]; congr 1; omega
          _ ≤ 2 ^ (w * n) := Nat.pow_le_pow_right (by omega) hTop
      rw [value_shiftLeft, mod_eq_of_lt hShift, Nat.pow_succ, ← Nat.mul_assoc,
        Nat.mul_div_cancel _ Nat.two_pos]
    · calc a.value < 2 ^ a.bits := haLt
        _ = 2 ^ (b.bits - 1) * 2 ^ (a.bits - b.bits + 1) := by
            rw [← Nat.pow_add]; congr 1; omega
        _ ≤ b.value * 2 ^ (a.bits - b.bits + 1) := Nat.mul_le_mul_right _ hLow
    · rw [hZero]
      exact Nat.dvd_zero _

end Shifts

end Limbs

end Ergon.Lib
