import Ergon.Node.ArithUint256
import Ergon.Node.Subsidy

/-!
# Ergon — the next work required

`GetNextExpWorkRequired` (`pow.cpp`) with `GetSuitableBlock`, `ComputeExpTarget` and
`ComputeEmaTarget`. The work of the next block is that of its parent, corrected by a
quadratic in the time the parent took: five terms, each divided on its own, added and
subtracted modulo `2 ^ 256`.

Time is multiplied in as a `uint32_t`, since that overload of `operator*` is the better
match for every built-in integer. `ComputeEmaTarget` multiplies by the time twice,
`ComputeExpTarget` once by its square, which is narrowed to 32 bits first.

* `emaWork_of_curve`, `emaWork_of_flat`, `emaWork_of_negative` — the new work of each
  branch, as the five terms in integers;
* `expWork_of_curve` — the same for the older function.
-/

namespace Ergon.Node

open ArithUint256 (ofUint64)

/-! ## Parameters and chain -/

/-- The consensus parameters read here. Every network of `chainparams.cpp` aims at one block
in one or in ten minutes. -/
structure PowParams extends Params where
  powLimit : ArithUint256
  nPowTargetSpacing : Nat
  nBootstrapBits : Nat
  spacing_range : 60 ≤ nPowTargetSpacing ∧ nPowTargetSpacing ≤ 600

/-- A chain with the fields of its headers; `nTime` is a `uint32_t`. -/
structure HeaderChain extends BlockChain where
  nBits : Nat → Nat
  nChainWork : Nat → ArithUint256
  nTime_range : ∀ h, 0 ≤ nTime h ∧ nTime h < 2 ^ 32

/-! ## The functions -/

variable (params : PowParams) (c : HeaderChain)

/-- The block with the median time of the three up to `pindex`, by a sorting network. The
assertion on the height is an argument. -/
def getSuitableBlock (pindex : Nat) (_ : 3 ≤ pindex) : Nat :=
  let (blocks₀, blocks₁, blocks₂) := (pindex - 2, pindex - 1, pindex)
  let (blocks₀, blocks₂) :=
    if c.nTime blocks₂ < c.nTime blocks₀ then (blocks₂, blocks₀) else (blocks₀, blocks₂)
  let (blocks₀, blocks₁) :=
    if c.nTime blocks₁ < c.nTime blocks₀ then (blocks₁, blocks₀) else (blocks₀, blocks₁)
  let (blocks₁, _) :=
    if c.nTime blocks₂ < c.nTime blocks₁ then (blocks₂, blocks₁) else (blocks₁, blocks₂)
  have _ := blocks₀
  blocks₁

/-- The time from one median to the next. -/
def medianStep (pindexPrev : Nat) (h : 4 ≤ pindexPrev) : Int :=
  c.nTime (getSuitableBlock c pindexPrev (by omega)) -
    c.nTime (getSuitableBlock c (pindexPrev - 1) (by omega))

def resistance : Nat := 1000

def minimum : Int := 499

/-- The terms taken off the work, for `x = work * t / T` and `y = work * t * t / (T * T)`. -/
def reduction (work x y : ArithUint256) : Except UintError ArithUint256 := do
  let linear ← x.div (ofUint64 resistance)
  let one ← work.div (ofUint64 resistance)
  let quadratic ← y.div (ofUint64 (resistance * resistance))
  let double ← (ofUint64 2 * x).div (ofUint64 (resistance * resistance))
  let square ← work.div (ofUint64 (resistance * resistance))
  return linear - one - quadratic + double - square

/-- The same terms with the sign of the time pulled out. -/
def increase (work x y : ArithUint256) : Except UintError ArithUint256 := do
  let linear ← x.div (ofUint64 resistance)
  let one ← work.div (ofUint64 resistance)
  let quadratic ← y.div (ofUint64 (resistance * resistance))
  let double ← (ofUint64 2 * x).div (ofUint64 (resistance * resistance))
  let square ← work.div (ofUint64 (resistance * resistance))
  return linear + one + quadratic + double + square

/-- `int normalized_time = t / params.nPowTargetSpacing`. -/
def normalizedTime (t : Int) : Int := (t.tdiv params.nPowTargetSpacing).bmod (2 ^ 32)

/-- The branch past the minimum of the parabola. -/
def flatWork (work : ArithUint256) : Except UintError ArithUint256 := do
  return work - (← reduction work (work.mulUint32 minimum)
    ((work.mulUint32 minimum).mulUint32 minimum))

/-- The work of the next block as `ComputeEmaTarget` has it. -/
def emaWork (work : ArithUint256) (t : Int) : Except UintError ArithUint256 :=
  let spacing := params.nPowTargetSpacing
  if minimum < normalizedTime params t then flatWork work
  else if 0 ≤ t then do
    let x ← (work.mulUint32 t).div (ofUint64 spacing)
    let y ← ((work.mulUint32 t).mulUint32 t).div (ofUint64 (spacing * spacing))
    return work - (← reduction work x y)
  else do
    let t := -t
    let x ← (work.mulUint32 t).div (ofUint64 spacing)
    let y ← ((work.mulUint32 t).mulUint32 t).div (ofUint64 (spacing * spacing))
    return work + (← increase work x y)

/-- The work of the next block as `ComputeExpTarget` has it. -/
def expWork (work : ArithUint256) (t : Int) : Except UintError ArithUint256 :=
  let spacing := params.nPowTargetSpacing
  if minimum < normalizedTime params t then flatWork work
  else do
    let x ← (work.mulUint32 t).div (ofUint64 spacing)
    let y ← (work.mulUint32 (t * t)).div (ofUint64 (spacing * spacing))
    return work - (← reduction work x y)

/-- The work of the block itself. -/
def parentWork (pindexPrev : Nat) : ArithUint256 :=
  c.nChainWork pindexPrev - c.nChainWork (pindexPrev - 1)

def computeEmaTarget (pindexPrev : Nat) (h : 4 ≤ pindexPrev) :
    Except UintError ArithUint256 := do
  let work ← emaWork params (parentWork c pindexPrev) (medianStep c pindexPrev h)
  (-work).div work

/-- The difference of the times is one of `uint32_t` here. -/
def computeExpTarget (pindexPrev : Nat) (h : 4 ≤ pindexPrev) :
    Except UintError ArithUint256 := do
  let work ← expWork params (parentWork c pindexPrev) (medianStep c pindexPrev h % 2 ^ 32)
  (-work).div work

/-- The compact form of a target, at most the limit. -/
def clampedBits (nextTarget : ArithUint256) : Nat :=
  if nextTarget.gt params.powLimit then params.powLimit.getCompact false
  else nextTarget.getCompact false

/-- The target the difficulty restarts from when EMA becomes active. -/
def restartBits : Nat := 0x1a04b500

def getNextExpWorkRequired (pindexPrev : Nat) : Except UintError Nat :=
  if h : pindexPrev < 4 then .ok params.nBootstrapBits
  else do
    -- evaluated in every case
    let _ ← computeExpTarget params c pindexPrev (by omega)
    if !isEmaEnabled params.toParams c.toBlockChain pindexPrev then
      let nextTarget ← computeExpTarget params c pindexPrev (by omega)
      return clampedBits params nextTarget
    else if isEmaEnabled params.toParams c.toBlockChain pindexPrev &&
        !isEmaEnabled params.toParams c.toBlockChain (pindexPrev - 1) then
      return restartBits
    else
      let nextTarget ← computeEmaTarget params c pindexPrev (by omega)
      return clampedBits params nextTarget

/-! ## The terms in integers -/

/-- The five terms for numbers, without wrapping. -/
def reductionOf (w x y : Nat) : Int :=
  (x / 1000 : Nat) - (w / 1000 : Nat) - (y / 1000000 : Nat) + (2 * x / 1000000 : Nat) -
    (w / 1000000 : Nat)

def increaseOf (w x y : Nat) : Int :=
  (x / 1000 : Nat) + (w / 1000 : Nat) + (y / 1000000 : Nat) + (2 * x / 1000000 : Nat) +
    (w / 1000000 : Nat)

open ArithUint256

theorem cast_toNat_sub (a b : ArithUint256) :
    ((a - b).toNat : Int) = ((a.toNat : Int) - b.toNat) % 2 ^ 256 := by
  have hb := b.toNat_lt
  rw [toNat_sub]
  omega

theorem cast_toNat_add (a b : ArithUint256) :
    ((a + b).toNat : Int) = ((a.toNat : Int) + b.toNat) % 2 ^ 256 := by
  rw [toNat_add]
  omega

variable {x : ArithUint256}

theorem toNat_double (h : 2 * x.toNat < 2 ^ 256) : (ofUint64 2 * x).toNat = 2 * x.toNat := by
  rw [toNat_mul, toNat_ofUint64 (by omega), Nat.mod_eq_of_lt h]

/-- The quotients that the sums are made of. -/
theorem div_ofUint64 (a : ArithUint256) {b : Nat} (hPos : 0 < b) (hLt : b < 2 ^ 64) :
    a.div (ofUint64 b) = .ok (Lib.Limbs.ofNat (a.toNat / b)) := by
  rw [div_eq_ok (by rw [toNat_ofUint64 hLt]; omega), toNat_ofUint64 hLt]

theorem toNat_ofNat_div (a : ArithUint256) (b : Nat) :
    toNat (Lib.Limbs.ofNat (a.toNat / b)) = a.toNat / b := by
  rw [toNat_ofNat, Nat.mod_eq_of_lt ((Nat.div_le_self _ _).trans_lt a.toNat_lt)]

theorem sub_reduction (work x y : ArithUint256) :
    ∃ r, reduction work x y = .ok r ∧
      ((work - r).toNat : Int) =
        (work.toNat - ((x.toNat / 1000 : Nat) - (work.toNat / 1000 : Nat) -
          (y.toNat / 1000000 : Nat) + ((ofUint64 2 * x).toNat / 1000000 : Nat) -
            (work.toNat / 1000000 : Nat))) % 2 ^ 256 := by
  refine ⟨_, by
    rw [reduction, div_ofUint64 x (by decide) (by decide),
      div_ofUint64 work (by decide) (by decide), div_ofUint64 y (by decide) (by decide),
      div_ofUint64 _ (by decide) (by decide), div_ofUint64 work (by decide) (by decide)]
    rfl, ?_⟩
  simp only [cast_toNat_sub, cast_toNat_add, toNat_ofNat_div, resistance]
  omega

theorem sub_reduction_of_lt (work : ArithUint256) (y : ArithUint256) (h : 2 * x.toNat < 2 ^ 256) :
    ∃ r, reduction work x y = .ok r ∧ ((work - r).toNat : Int) =
      (work.toNat - reductionOf work.toNat x.toNat y.toNat) % 2 ^ 256 := by
  obtain ⟨r, hr, hNew⟩ := sub_reduction work x y
  rw [toNat_double h] at hNew
  exact ⟨r, hr, hNew⟩

theorem add_increase (work : ArithUint256) (y : ArithUint256) (h : 2 * x.toNat < 2 ^ 256) :
    ∃ r, increase work x y = .ok r ∧ ((work + r).toNat : Int) =
      (work.toNat + increaseOf work.toNat x.toNat y.toNat) % 2 ^ 256 := by
  refine ⟨_, by
    rw [increase, div_ofUint64 x (by decide) (by decide), div_ofUint64 work (by decide) (by decide),
      div_ofUint64 y (by decide) (by decide), div_ofUint64 _ (by decide) (by decide),
      div_ofUint64 work (by decide) (by decide)]
    rfl, ?_⟩
  simp only [cast_toNat_add, toNat_ofNat_div, resistance, increaseOf]
  rw [toNat_double h]
  omega

/-! ### Each branch -/

section Branches

variable {params}

/-- The new work on the parabola, for a time of at least zero. -/
def curveOf (spacing w t : Nat) : Int :=
  w - reductionOf w (w * t / spacing) (w * t * t / (spacing * spacing))

/-- The new work past the minimum. -/
def flatOf (w : Nat) : Int := w - reductionOf w (w * 499) (w * 499 * 499)

/-- The parabola is cut off at its value for 499 spacings. -/
theorem flatOf_eq_curveOf {spacing : Nat} (hPos : 0 < spacing) (w : Nat) :
    flatOf w = curveOf spacing w (499 * spacing) := by
  have hLinear : w * (499 * spacing) / spacing = w * 499 := by
    rw [← Nat.mul_assoc, Nat.mul_div_cancel _ hPos]
  have hQuadratic : w * (499 * spacing) * (499 * spacing) / (spacing * spacing) =
      w * 499 * 499 := by
    rw [show w * (499 * spacing) * (499 * spacing) = w * 499 * 499 * (spacing * spacing) by ring,
      Nat.mul_div_cancel _ (Nat.mul_pos hPos hPos)]
  rw [flatOf, curveOf, hLinear, hQuadratic]

theorem PowParams.spacing_pos (params : PowParams) : 0 < params.nPowTargetSpacing := by
  have := params.spacing_range
  omega

theorem PowParams.spacing_sq_bounds (params : PowParams) :
    0 < params.nPowTargetSpacing * params.nPowTargetSpacing ∧
      params.nPowTargetSpacing * params.nPowTargetSpacing < 2 ^ 64 := by
  have hPos := params.spacing_pos
  have hLe : params.nPowTargetSpacing * params.nPowTargetSpacing ≤ 600 * 600 :=
    Nat.mul_le_mul params.spacing_range.2 params.spacing_range.2
  exact ⟨Nat.mul_pos hPos hPos, by omega⟩

/-- The narrowing to `int` does nothing, and the comparison is one of times. -/
theorem minimum_lt_normalizedTime_iff {t : Int} (hLow : -2 ^ 32 < t) (hHigh : t < 2 ^ 32) :
    minimum < normalizedTime params t ↔ 500 * (params.nPowTargetSpacing : Int) ≤ t := by
  have hRange := params.spacing_range
  rw [normalizedTime, minimum]
  generalize params.nPowTargetSpacing = spacing at *
  rcases lt_or_ge t 0 with hNeg | hNonneg
  · -- a negative time is truncated towards zero
    have hQuot : t.tdiv spacing = -((-t) / spacing) := by
      rw [← Int.tdiv_eq_ediv_of_nonneg (by omega), Int.neg_tdiv, neg_neg]
    have hSmall : (-t) / (spacing : Int) < 2 ^ 31 := by
      rw [Int.ediv_lt_iff_lt_mul (by omega)]
      omega
    have hPos : 0 ≤ (-t) / (spacing : Int) := Int.ediv_nonneg (by omega) (by omega)
    rw [hQuot, Int.bmod_eq_of_le (by omega) (by omega)]
    omega
  · have hSmall : t / (spacing : Int) < 2 ^ 31 := by
      rw [Int.ediv_lt_iff_lt_mul (by omega)]
      omega
    have hPos : 0 ≤ t / (spacing : Int) := Int.ediv_nonneg (by omega) (by omega)
    rw [Int.tdiv_eq_ediv_of_nonneg hNonneg, Int.bmod_eq_of_le (by omega) (by omega),
      ← Int.add_one_le_iff, Int.le_ediv_iff_mul_le (by omega)]
    norm_num

variable {t : Nat}

theorem toNat_mulUint32_nat (work : ArithUint256) (ht : t < 2 ^ 32)
    (hFits : work.toNat * t < 2 ^ 256) : (work.mulUint32 t).toNat = work.toNat * t := by
  have hNarrow : ((t : Int) % 2 ^ 32).toNat = t := by omega
  rw [toNat_mulUint32, hNarrow, Nat.mod_eq_of_lt hFits]

theorem mul_le_mul_mul (w t : Nat) : w * t ≤ w * t * t := by
  rcases Nat.eq_zero_or_pos t with rfl | hPos
  · simp
  · exact Nat.le_mul_of_pos_right _ hPos

/-- The quotient by the spacing leaves room for the factor two. -/
theorem double_div_lt {spacing p : Nat} (hSpacing : 60 ≤ spacing) (hp : p < 2 ^ 256) :
    2 * (p / spacing) < 2 ^ 256 := by
  have hDiv : p / spacing ≤ p / 60 := Nat.div_le_div_left hSpacing (by omega)
  omega

/-- The two quotients by the spacing, for factors that fit. -/
theorem PowParams.spacing_quotients (params : PowParams) (a b : ArithUint256) :
    ∃ x y : ArithUint256, a.div (ofUint64 params.nPowTargetSpacing) = .ok x ∧
      b.div (ofUint64 (params.nPowTargetSpacing * params.nPowTargetSpacing)) = .ok y ∧
      x.toNat = a.toNat / params.nPowTargetSpacing ∧
      y.toNat = b.toNat / (params.nPowTargetSpacing * params.nPowTargetSpacing) ∧
      2 * x.toNat < 2 ^ 256 := by
  have hRange := params.spacing_range
  obtain ⟨hSqPos, hSqLt⟩ := params.spacing_sq_bounds
  refine ⟨_, _, div_ofUint64 _ (by omega) (by omega), div_ofUint64 _ hSqPos hSqLt,
    toNat_ofNat_div _ _, toNat_ofNat_div _ _, ?_⟩
  rw [toNat_ofNat_div]
  exact double_div_lt hRange.1 a.toNat_lt

/-- A factor of the time, once and twice. -/
theorem toNat_mulUint32_twice (work : ArithUint256) (ht : t < 2 ^ 32)
    (hFits : work.toNat * t * t < 2 ^ 256) :
    (work.mulUint32 t).toNat = work.toNat * t ∧
      ((work.mulUint32 t).mulUint32 t).toNat = work.toNat * t * t := by
  have hLinear : work.toNat * t < 2 ^ 256 := (mul_le_mul_mul _ _).trans_lt hFits
  have hOnce := toNat_mulUint32_nat work ht hLinear
  exact ⟨hOnce, by rw [toNat_mulUint32_nat _ ht (by rwa [hOnce]), hOnce]⟩

variable {work : ArithUint256}

theorem emaWork_of_curve (ht : t < 2 ^ 32) (hBelow : t < 500 * params.nPowTargetSpacing)
    (hFits : work.toNat * t * t < 2 ^ 256) :
    ∃ new, emaWork params work t = .ok new ∧
      (new.toNat : Int) = curveOf params.nPowTargetSpacing work.toNat t % 2 ^ 256 := by
  have hBranch : ¬ minimum < normalizedTime params t := by
    rw [minimum_lt_normalizedTime_iff (by omega) (by omega)]
    omega
  obtain ⟨hOnce, hTwice⟩ := toNat_mulUint32_twice work ht hFits
  obtain ⟨x, y, hx, hy, hxNat, hyNat, hDouble⟩ := params.spacing_quotients
    (work.mulUint32 t) ((work.mulUint32 t).mulUint32 t)
  obtain ⟨r, hr, hNew⟩ := sub_reduction_of_lt work y hDouble
  refine ⟨work - r, ?_, ?_⟩
  · simp only [emaWork, if_neg hBranch, Int.natCast_nonneg, if_true, hx, hy]
    show (do return work - (← reduction work x y)) = _
    rw [hr]
    rfl
  · rw [hNew, hxNat, hyNat, hOnce, hTwice, curveOf]

theorem emaWork_of_flat {t : Int} (hLow : -2 ^ 32 < t) (hHigh : t < 2 ^ 32)
    (hAbove : 500 * (params.nPowTargetSpacing : Int) ≤ t) :
    emaWork params work t = flatWork work := by
  rw [emaWork, if_pos ((minimum_lt_normalizedTime_iff hLow hHigh).mpr hAbove)]

theorem flatWork_eq (hFits : work.toNat * 499 * 499 < 2 ^ 256) :
    ∃ new, flatWork work = .ok new ∧ (new.toNat : Int) = flatOf work.toNat % 2 ^ 256 := by
  have hMinimum : minimum = (499 : Nat) := rfl
  obtain ⟨hOnce, hTwice⟩ := toNat_mulUint32_twice work (by omega : 499 < 2 ^ 32) hFits
  rw [← hMinimum] at hOnce hTwice
  obtain ⟨r, hr, hNew⟩ := sub_reduction_of_lt work ((work.mulUint32 minimum).mulUint32 minimum)
    (by rw [hOnce]; omega)
  refine ⟨work - r, by rw [flatWork, hr]; rfl, ?_⟩
  rw [hNew, hOnce, hTwice, flatOf]

theorem emaWork_of_negative {s : Nat} (hPos : 0 < s) (hs : s < 2 ^ 32)
    (hFits : work.toNat * s * s < 2 ^ 256) :
    ∃ new, emaWork params work (-s) = .ok new ∧
      (new.toNat : Int) = (work.toNat + increaseOf work.toNat
        (work.toNat * s / params.nPowTargetSpacing)
        (work.toNat * s * s / (params.nPowTargetSpacing * params.nPowTargetSpacing))) %
          2 ^ 256 := by
  have hBranch : ¬ minimum < normalizedTime params (-s) := by
    rw [minimum_lt_normalizedTime_iff (by omega) (by omega)]
    omega
  obtain ⟨hOnce, hTwice⟩ := toNat_mulUint32_twice work hs hFits
  obtain ⟨x, y, hx, hy, hxNat, hyNat, hDouble⟩ := params.spacing_quotients
    (work.mulUint32 s) ((work.mulUint32 s).mulUint32 s)
  obtain ⟨r, hr, hNew⟩ := add_increase work y hDouble
  refine ⟨work + r, ?_, ?_⟩
  · simp only [emaWork, if_neg hBranch, if_neg (by omega : ¬ (0 : Int) ≤ -s), neg_neg, hx, hy]
    show (do return work + (← increase work x y)) = _
    rw [hr]
    rfl
  · rw [hNew, hxNat, hyNat, hOnce, hTwice]

theorem expWork_of_flat {t : Int} (hLow : -2 ^ 32 < t) (hHigh : t < 2 ^ 32)
    (hAbove : 500 * (params.nPowTargetSpacing : Int) ≤ t) :
    expWork params work t = flatWork work := by
  rw [expWork, if_pos ((minimum_lt_normalizedTime_iff hLow hHigh).mpr hAbove)]

/-- The square of the time is narrowed to 32 bits. -/
theorem expWork_of_curve (hBelow : t < 500 * params.nPowTargetSpacing)
    (hLinear : work.toNat * t < 2 ^ 256) (hSquare : work.toNat * (t * t % 2 ^ 32) < 2 ^ 256) :
    ∃ new, expWork params work t = .ok new ∧
      (new.toNat : Int) = (work.toNat - reductionOf work.toNat
        (work.toNat * t / params.nPowTargetSpacing)
        (work.toNat * (t * t % 2 ^ 32) / (params.nPowTargetSpacing * params.nPowTargetSpacing))) %
          2 ^ 256 := by
  have hRange := params.spacing_range
  have ht : t < 2 ^ 32 := by omega
  have hBranch : ¬ minimum < normalizedTime params t := by
    rw [minimum_lt_normalizedTime_iff (by omega) (by omega)]
    omega
  have hOnce := toNat_mulUint32_nat work ht hLinear
  have hNarrow : (work.mulUint32 ((t : Int) * t)).toNat = work.toNat * (t * t % 2 ^ 32) := by
    have hCast : ((t : Int) * t % 2 ^ 32).toNat = t * t % 2 ^ 32 := by
      rw [← Nat.cast_mul]
      generalize t * t = q
      omega
    rw [toNat_mulUint32, hCast, Nat.mod_eq_of_lt hSquare]
  obtain ⟨x, y, hx, hy, hxNat, hyNat, hDouble⟩ := params.spacing_quotients
    (work.mulUint32 t) (work.mulUint32 ((t : Int) * t))
  obtain ⟨r, hr, hNew⟩ := sub_reduction_of_lt work y hDouble
  refine ⟨work - r, ?_, ?_⟩
  · simp only [expWork, if_neg hBranch, hx, hy]
    show (do return work - (← reduction work x y)) = _
    rw [hr]
    rfl
  · rw [hNew, hxNat, hyNat, hOnce, hNarrow]

end Branches

end Ergon.Node
