import Ergon.Node.PowBounds

/-!
# Ergon — the next target

`GetNextExpWorkRequired` as a whole, from the work of the parent through the corrected
work and its target to the compact form.

* `getNextExpWorkRequired_follows_time` — after ten minutes the difficulty stays, after
  more it does not rise, after less it does not fall. The target of a work that is
  off by a unit does not reach the next compact target, because a target below
  `2 ^ 224` has a work of at least `2 ^ 32`;
* `computeExpTarget_eq_iff` — when the older function agrees with the newer one: the
  square of the time, narrowed to 32 bits, must give the same quadratic term;
* `getNextExpWorkRequired_inRange` — no division by zero, and the result is a target
  within the limit.
-/

namespace Ergon.Node

open ArithUint256 Nat

variable {params : PowParams} {c : HeaderChain} {h : Nat}

/-! ## The older function always has a target -/

theorem nTime_sub_range (c : HeaderChain) (a b : Nat) :
    -2 ^ 32 < c.nTime a - c.nTime b ∧ c.nTime a - c.nTime b < 2 ^ 32 := by
  have ha := c.nTime_range a
  have hb := c.nTime_range b
  omega

theorem medianStep_range (hHeight : 4 ≤ h) :
    -2 ^ 32 < medianStep c h hHeight ∧ medianStep c h hHeight < 2 ^ 32 :=
  nTime_sub_range c _ _

/-- The flat branch does not reach zero, even where its products wrap. -/
theorem flatWork_pos {work : ArithUint256} (hPos : 0 < work.toNat)
    (hHalf : 2 * work.toNat ≤ 2 ^ 256) : ∃ new, flatWork work = .ok new ∧ 0 < new.toNat := by
  obtain ⟨r, hr, hNew⟩ := sub_reduction work (work.mulUint32 minimum)
    ((work.mulUint32 minimum).mulUint32 minimum)
  refine ⟨work - r, by rw [flatWork, hr]; rfl, ?_⟩
  have hLinear : (work.mulUint32 minimum).toNat = work.toNat * 499 % 2 ^ 256 :=
    toNat_mulUint32 work minimum
  have hQuadratic := ((work.mulUint32 minimum).mulUint32 minimum).toNat_lt
  have hDouble : (ofUint64 2 * work.mulUint32 minimum).toNat =
      2 * (work.mulUint32 minimum).toNat % 2 ^ 256 := by
    rw [toNat_mul, toNat_ofUint64 (by omega)]
  generalize (ofUint64 2 * work.mulUint32 minimum).toNat = z at *
  generalize (work.mulUint32 minimum).toNat = x at *
  generalize ((work.mulUint32 minimum).mulUint32 minimum).toNat = y at *
  have hTaken : (work.toNat : Int) - ((x / 1000 : Nat) - (work.toNat / 1000 : Nat) -
      (y / 1000000 : Nat) + (z / 1000000 : Nat) - (work.toNat / 1000000 : Nat)) > 0 := by
    rcases Nat.lt_or_ge (998 * work.toNat) (2 ^ 256) with hSmall | hLarge
    · -- nothing wraps: less than half of the work is taken off
      rw [mod_eq_of_lt (by omega)] at hLinear
      rw [mod_eq_of_lt (by omega)] at hDouble
      omega
    · -- what is taken off is at most a thousandth of the range, and the work is more
      have hx : x < 2 ^ 256 := hLinear ▸ mod_lt _ (by omega)
      have hz : z < 2 ^ 256 := hDouble ▸ mod_lt _ (by omega)
      omega
  rw [Int.emod_eq_of_lt hTaken.le (by omega)] at hNew
  omega

theorem expWork_of_curve_range {work : ArithUint256} {t : Nat} (hPos : 0 < work.toNat)
    (hBelow : t < 500 * params.nPowTargetSpacing) (hWide : 2 * work.toNat ≤ 2 ^ 256)
    (hLinear : work.toNat * t < 2 ^ 256) (hSquare : work.toNat * (t * t % 2 ^ 32) < 2 ^ 256) :
    ∃ new, expWork params work t = .ok new ∧ 0 < new.toNat ∧ 2 * new.toNat ≤ 3 * work.toNat := by
  obtain ⟨new, hNew, hValue⟩ := expWork_of_curve hBelow hLinear hSquare
  obtain ⟨hx, hy⟩ := curve_quotients params.spacing_pos hPos hBelow
  -- narrowing the square does not make it larger
  have hLess : work.toNat * (t * t % 2 ^ 32) /
      (params.nPowTargetSpacing * params.nPowTargetSpacing) ≤ 250000 * work.toNat := by
    refine (Nat.div_le_div_right ?_).trans hy
    rw [Nat.mul_assoc]
    exact Nat.mul_le_mul_left _ (mod_le _ _)
  obtain ⟨hLow, hHigh⟩ := sub_reductionOf_range hx hLess
  rw [Int.emod_eq_of_lt (by omega) (by omega)] at hValue
  exact ⟨new, hNew, by omega, by omega⟩

theorem mul_mod_lt {w t : Nat} (h : w * t * t < 2 ^ 256) : w * (t * t % 2 ^ 32) < 2 ^ 256 := by
  refine (Nat.mul_le_mul_left w (mod_le _ _)).trans_lt ?_
  rwa [← Nat.mul_assoc]

/-- The older function reads a negative step as one of almost `2 ^ 32`. If that is not on the
flat branch, the step is so long that the work is small. -/
theorem wrapped_step_fits {w : Nat} {t : Int} (hLow : -2 ^ 32 < t) (hHigh : t < 2 ^ 32)
    (hFits : (w : Int) * t * t < 2 ^ 256) :
    ∃ s : Nat, t % 2 ^ 32 = s ∧ s < 2 ^ 32 ∧
      (s < 300000 → w * s < 2 ^ 256 ∧ w * (s * s % 2 ^ 32) < 2 ^ 256) := by
  rcases lt_or_ge t 0 with hNeg | hNonneg
  · obtain ⟨u, rfl⟩ : ∃ u : Nat, t = -u := ⟨(-t).toNat, by omega⟩
    refine ⟨2 ^ 32 - u, by omega, by omega, fun hShort => ?_⟩
    have hFits' : w * u * u < 2 ^ 256 := by
      have hSign : (w : Int) * -u * -u = (w * u * u : Nat) := by push_cast; ring
      rw [hSign] at hFits
      exact_mod_cast hFits
    have hSmall : w * 2 ^ 31 * 2 ^ 31 < 2 ^ 256 :=
      (Nat.mul_le_mul (Nat.mul_le_mul_left _ (by omega)) (by omega)).trans_lt hFits'
    constructor
    · have : w * (2 ^ 32 - u) ≤ w * 2 ^ 31 * 2 ^ 31 := by
        rw [Nat.mul_assoc]
        exact Nat.mul_le_mul_left _ (by omega)
      omega
    · have hSq : (2 ^ 32 - u) * (2 ^ 32 - u) % 2 ^ 32 < 2 ^ 32 := mod_lt _ (by omega)
      have : w * ((2 ^ 32 - u) * (2 ^ 32 - u) % 2 ^ 32) ≤ w * 2 ^ 31 * 2 ^ 31 := by
        rw [Nat.mul_assoc]
        exact Nat.mul_le_mul_left _ (by omega)
      omega
  · obtain ⟨s, rfl⟩ : ∃ s : Nat, t = s := ⟨t.toNat, by omega⟩
    have hFits' : w * s * s < 2 ^ 256 := by exact_mod_cast hFits
    exact ⟨s, by omega, by omega,
      fun _ => ⟨(mul_le_mul_mul _ _).trans_lt hFits', mul_mod_lt hFits'⟩⟩

theorem computeExpTarget_ok (params : PowParams) (hHeight : 4 ≤ h)
    (hPos : 0 < (parentWork c h).toNat)
    (hHalf : 2 * (parentWork c h).toNat ≤ 2 ^ 256)
    (hFits : ((parentWork c h).toNat : Int) * medianStep c h hHeight * medianStep c h hHeight <
      2 ^ 256) :
    ∃ q, computeExpTarget params c h hHeight = .ok q := by
  have hRange := params.spacing_range
  obtain ⟨hLow, hHigh⟩ := medianStep_range (c := c) hHeight
  obtain ⟨s, hStep, hs, hShort⟩ := wrapped_step_fits hLow hHigh hFits
  obtain ⟨new, hNew, hNewPos⟩ :
      ∃ new, expWork params (parentWork c h) s = .ok new ∧ 0 < new.toNat := by
    rcases Nat.lt_or_ge s (500 * params.nPowTargetSpacing) with hBelow | hAbove
    · obtain ⟨hLinear, hSquare⟩ := hShort (by omega)
      obtain ⟨new, hNew, hNewPos, -⟩ := expWork_of_curve_range hPos hBelow hHalf hLinear hSquare
      exact ⟨new, hNew, hNewPos⟩
    · rw [expWork_of_flat (by omega) (by omega) (by omega)]
      exact flatWork_pos hPos hHalf
  obtain ⟨q, hq, -⟩ := neg_div_self hNewPos
  exact ⟨q, by rw [computeExpTarget, hStep, hNew]; exact hq⟩

/-! ## Cases of the whole -/

section Cases

variable (hHeight : 4 ≤ h) {e : ArithUint256} (hExp : computeExpTarget params c h hHeight = .ok e)
include hExp

theorem getNextExpWorkRequired_before
    (hOff : isEmaEnabled params.toParams c.toBlockChain h = false) :
    getNextExpWorkRequired params c h = .ok (clampedBits params e) := by
  rw [getNextExpWorkRequired, dif_neg (by omega), hExp, hOff]
  rfl

theorem getNextExpWorkRequired_restart (hOn : isEmaEnabled params.toParams c.toBlockChain h = true)
    (hOff : isEmaEnabled params.toParams c.toBlockChain (h - 1) = false) :
    getNextExpWorkRequired params c h = .ok restartBits := by
  rw [getNextExpWorkRequired, dif_neg (by omega), hExp, hOn, hOff]
  rfl

theorem getNextExpWorkRequired_after {q : ArithUint256}
    (hOn : isEmaEnabled params.toParams c.toBlockChain h = true)
    (hOn' : isEmaEnabled params.toParams c.toBlockChain (h - 1) = true)
    (hEma : computeEmaTarget params c h hHeight = .ok q) :
    getNextExpWorkRequired params c h = .ok (clampedBits params q) := by
  rw [getNextExpWorkRequired, dif_neg (by omega), hExp, hOn, hOn', hEma]
  rfl

end Cases

theorem clampedBits_eq (params : PowParams) (q : ArithUint256) :
    ∃ a : ArithUint256, clampedBits params q = a.getCompact false ∧
      a.toNat = min q.toNat params.powLimit.toNat := by
  rw [clampedBits]
  by_cases hGt : q.gt params.powLimit = true
  · rw [if_pos hGt]
    rw [gt_iff] at hGt
    exact ⟨_, rfl, by omega⟩
  · rw [if_neg hGt]
    rw [gt_iff] at hGt
    exact ⟨_, rfl, by omega⟩

/-! ## From work to target -/

section Target

variable {target w work : Nat} (hw : w = 2 ^ 256 / (target + 1))
include hw

/-- No more work than that of a target leads to at least that target. -/
theorem target_le_of_work_le (hPos : 0 < work) (hLe : work ≤ w) :
    target ≤ 2 ^ 256 / work - 1 := by
  have hBack : target + 1 ≤ 2 ^ 256 / work := by
    rw [Nat.le_div_iff_mul_le hPos]
    calc (target + 1) * work ≤ (target + 1) * w := Nat.mul_le_mul_left _ hLe
      _ ≤ 2 ^ 256 := by rw [hw]; exact mul_div_le _ _
  omega

/-- More work leads below it. -/
theorem le_target_of_work_lt (hLt : w < work) : 2 ^ 256 / work - 1 ≤ target := by
  have hBelow : 2 ^ 256 / work < target + 1 := by
    rw [Nat.div_lt_iff_lt_mul (by omega), Nat.mul_comm]
    rw [hw, Nat.div_lt_iff_lt_mul (succ_pos _)] at hLt
    exact hLt
  omega

/-- A unit less of work does not reach the next compact target. -/
theorem target_lt_of_work (hWide : 2 ^ 32 ≤ w) (hNear : w ≤ work + 1) :
    2 ^ 256 / work - 1 < target + 2 ^ droppedBits target.size := by
  have hSize := lt_size_self target
  have hPos : 0 < work := by omega
  -- the distance to the next one is at least a part `2 ^ 23` of the target
  have hUnit : 2 ^ target.size ≤ 2 ^ 23 * 2 ^ droppedBits target.size := by
    rw [← Nat.pow_add]
    exact Nat.pow_le_pow_right (by omega) (by rw [droppedBits]; omega)
  generalize 2 ^ droppedBits target.size = unit at *
  have hNext : 2 ^ 256 / work < target + 1 + unit := by
    rw [Nat.div_lt_iff_lt_mul hPos]
    have hFloor : 2 ^ 256 < (w + 1) * (target + 1) := by
      rw [hw]
      exact lt_mul_of_div_lt (lt_succ_self _) (succ_pos _)
    have hCount : 2 ^ 31 * unit ≤ work * unit := Nat.mul_le_mul_right _ (by omega)
    have hTop : (w + 1) * (target + 1) ≤ (work + 2) * (target + 1) :=
      Nat.mul_le_mul_right _ (by omega)
    calc 2 ^ 256 < (work + 2) * (target + 1) := hFloor.trans_le hTop
      _ = work * (target + 1) + 2 * (target + 1) := by ring
      _ ≤ work * (target + 1) + work * unit := by omega
      _ = (target + 1 + unit) * work := by ring
  omega

end Target

theorem computeEmaTarget_eq (hHeight : 4 ≤ h) {new : ArithUint256}
    (hNew : emaWork params (parentWork c h) (medianStep c h hHeight) = .ok new)
    (hPos : 0 < new.toNat) :
    ∃ q, computeEmaTarget params c h hHeight = .ok q ∧ q.toNat = 2 ^ 256 / new.toNat - 1 := by
  obtain ⟨q, hDiv, hq⟩ := neg_div_self hPos
  exact ⟨q, by rw [computeEmaTarget, hNew]; exact hDiv, hq⟩

/-! ## The direction of the correction -/

/-- Against the work of a block that took `t` seconds, when one should take 600. -/
structure Follows (w : Nat) (t : Int) (new : Nat) : Prop where
  pos : 0 < new
  same : t = 600 → w ≤ new + 1 ∧ new ≤ w
  slower : 600 < t → new ≤ w
  faster : t < 600 → w < new

/-- Ten minutes and a second, and one second less, are clear of the rounding. -/
theorem curveOf_next_to_spacing {w : Nat} (hWide : 2 ^ 32 ≤ w) :
    curveOf 600 w 601 + 5 ≤ w ∧ w + 5 < curveOf 600 w 599 := by
  have hPos : 0 < 600 := by omega
  have hSame : exactWork 600 w 600 = w := by
    rw [exactWork]
    norm_num
  have hLater := (curveOf_close (w := w) (t := 601) hPos).2
  have hEarlier := (curveOf_close (w := w) (t := 599) hPos).1
  have hFall := @exactWork_sub 600 w 600 601 hPos
  have hFall' := @exactWork_sub 600 w 599 600 hPos
  have hWide' : (4294967296 : ℚ) ≤ w := by exact_mod_cast hWide
  rw [hSame] at hFall hFall'
  norm_num at hFall hFall'
  constructor
  · have hCast : ((curveOf 600 w 601 + 5 : Int) : ℚ) ≤ (w : Int) := by
      push_cast
      linarith
    exact Int.cast_le.mp hCast
  · have hCast : ((w + 5 : Int) : ℚ) < curveOf 600 w 599 := by
      push_cast
      linarith
    exact Int.cast_lt.mp hCast

/-- On ten minutes only the rounding of the double term is left. -/
theorem curveOf_at_spacing (w : Nat) :
    w ≤ curveOf 600 w 600 + 1 ∧ curveOf 600 w 600 ≤ w := by
  have hAt : curveOf 600 w 600 = w - reductionOf w w w := by
    rw [curveOf, Nat.mul_div_cancel _ (by omega), Nat.mul_assoc, Nat.mul_div_cancel _ (by omega)]
  rw [hAt, reductionOf]
  omega

/-- The terms added for a negative time are small parts of the range. -/
theorem add_increaseOf_range {w p q : Nat} (hWide : 2 ^ 32 ≤ w) (hHalf : 2 * w ≤ 2 ^ 256)
    (hp : p ≤ q) (hq : q < 2 ^ 256) :
    w < w + increaseOf w (p / 600) (q / (600 * 600)) ∧
      w + increaseOf w (p / 600) (q / (600 * 600)) < 2 ^ 256 := by
  have hx : p / 600 < 2 ^ 247 := by omega
  have hy : q / (600 * 600) < 2 ^ 247 := by omega
  rw [increaseOf]
  generalize p / 600 = x at *
  generalize q / (600 * 600) = y at *
  omega

theorem emaWork_follows {work : ArithUint256} {t : Int}
    (hSpacing : params.nPowTargetSpacing = 600) (hWide : 2 ^ 32 ≤ work.toNat)
    (hHalf : 2 * work.toNat ≤ 2 ^ 256) (hLow : -2 ^ 32 < t) (hHigh : t < 2 ^ 32)
    (hFits : (work.toNat : Int) * t * t < 2 ^ 256) :
    ∃ new, emaWork params work t = .ok new ∧ Follows work.toNat t new.toNat := by
  rcases lt_or_ge t 0 with hNeg | hNonneg
  · obtain ⟨s, rfl⟩ : ∃ s : Nat, t = -s := ⟨(-t).toNat, by omega⟩
    have hFits' : work.toNat * s * s < 2 ^ 256 := by
      have hSign : (work.toNat : Int) * -s * -s = (work.toNat * s * s : Nat) := by push_cast; ring
      rw [hSign] at hFits
      exact_mod_cast hFits
    have hLinear := mul_le_mul_mul work.toNat s
    obtain ⟨new, hNew, hValue⟩ : ∃ new, emaWork params work (-s) = .ok new ∧ _ :=
      emaWork_of_negative (by omega) (by omega) hFits'
    obtain ⟨hMore, hTop⟩ := add_increaseOf_range hWide hHalf hLinear hFits'
    rw [hSpacing, Int.emod_eq_of_lt (by omega) hTop] at hValue
    exact ⟨new, hNew, by omega, by omega, by omega, by omega⟩
  · obtain ⟨s, rfl⟩ : ∃ s : Nat, t = s := ⟨t.toNat, by omega⟩
    have hFits' : work.toNat * s * s < 2 ^ 256 := by exact_mod_cast hFits
    obtain ⟨new, hNew, hValue⟩ := emaWork_eq_curveOf params work (by omega) hFits'
    rw [hSpacing] at hValue
    generalize work.toNat = w at *
    have hSpacingPos : 0 < 600 := by omega
    have hCutLt : cutTime 600 s < 500 * 600 := cutTime_lt hSpacingPos
    obtain ⟨hPos, hTop⟩ := curveOf_range hSpacingPos (by omega : 0 < w) hCutLt
    obtain ⟨hLater, hEarlier⟩ := curveOf_next_to_spacing hWide
    obtain ⟨hAtLow, hAtHigh⟩ := curveOf_at_spacing w
    rw [Int.emod_eq_of_lt hPos.le (by omega)] at hValue
    refine ⟨new, hNew, by omega, ?_, ?_, ?_⟩
    · intro hSame
      have hCut : cutTime 600 s = 600 := by
        rw [cutTime, if_pos (by omega)]
        omega
      rw [hCut] at hValue
      omega
    · intro hSlow
      have hPast : 601 ≤ cutTime 600 s := by
        rw [cutTime]
        split <;> omega
      have hFall := curveOf_le_add (w := w) hSpacingPos hPast (by omega)
      omega
    · intro hFast
      have hCut : cutTime 600 s = s := if_pos (by omega)
      have hFall := curveOf_le_add (w := w) hSpacingPos (by omega : s ≤ 599) (by omega)
      rw [hCut] at hValue
      omega

theorem getNextExpWorkRequired_follows_time (params : PowParams) (c : HeaderChain) (h : Nat)
    (hHeight : 4 ≤ h) (hEma : isEmaEnabled params.toParams c.toBlockChain h = true)
    (hEma' : isEmaEnabled params.toParams c.toBlockChain (h - 1) = true)
    (hLimit : params.powLimit.toNat < 2 ^ 224) (hSpacing : params.nPowTargetSpacing = 600)
    (hCanonical : (ArithUint256.setCompact (c.nBits h)).target.getCompact false = c.nBits h)
    (hRange : targetInRange params.powLimit (c.nBits h) = true)
    (hProof : getBlockProof (c.nBits h) = .ok (parentWork c h))
    (hFits : ((parentWork c h).toNat : Int) * medianStep c h hHeight * medianStep c h hHeight <
      2 ^ 256) :
    ∃ bits, getNextExpWorkRequired params c h = .ok bits ∧
      (medianStep c h hHeight = 600 → bits = c.nBits h) ∧
      (600 < medianStep c h hHeight →
        (ArithUint256.setCompact (c.nBits h)).target.toNat ≤
          (ArithUint256.setCompact bits).target.toNat) ∧
      (medianStep c h hHeight < 600 →
        (ArithUint256.setCompact bits).target.toNat ≤
          (ArithUint256.setCompact (c.nBits h)).target.toNat) := by
  obtain ⟨hNegative, hOverflow, hPos, hLe⟩ := targetInRange_iff.mp hRange
  obtain ⟨w, hProof', hw⟩ := getBlockProof_eq hNegative hOverflow hPos
  obtain rfl : parentWork c h = w := by
    rw [hProof] at hProof'
    exact Except.ok.inj hProof'
  have hDecoded := toNat_decoded (ArithUint256.setCompact (c.nBits h)).target
  rw [hCanonical] at hDecoded
  generalize (ArithUint256.setCompact (c.nBits h)).target = parent at *
  have hWide : 2 ^ 32 ≤ (parentWork c h).toNat := by
    rw [hw, Nat.le_div_iff_mul_le (by omega)]
    omega
  have hHalf : 2 * (parentWork c h).toNat ≤ 2 ^ 256 := by
    have : 2 ^ 256 / (parent.toNat + 1) ≤ 2 ^ 256 / 2 := div_le_div_left (by omega) (by omega)
    omega
  obtain ⟨hLow, hHigh⟩ := medianStep_range (c := c) hHeight
  obtain ⟨e, hExp⟩ := computeExpTarget_ok params hHeight (by omega) hHalf hFits
  obtain ⟨new, hNew, hFollows⟩ := emaWork_follows hSpacing hWide hHalf hLow hHigh hFits
  obtain ⟨q, hTarget, hq⟩ := computeEmaTarget_eq hHeight hNew hFollows.pos
  obtain ⟨a, hBits, ha⟩ := clampedBits_eq params q
  refine ⟨_, getNextExpWorkRequired_after hHeight hExp hEma hEma' hTarget, ?_, ?_, ?_⟩
  · intro hSame
    obtain ⟨hNear, hNotMore⟩ := hFollows.same hSame
    have hAbove := target_le_of_work_le hw hFollows.pos hNotMore
    have hBelow := target_lt_of_work hw hWide hNear
    -- the result lies before the next compact target
    have hTruncated : Lib.truncate droppedBits a.toNat = parent.toNat :=
      Lib.truncate_eq_of_lt droppedBits_lt hPos hDecoded.symm (by omega) (by omega)
    have hSameTarget : (ArithUint256.setCompact (a.getCompact false)).target = parent := by
      rw [← toNat_inj, toNat_decoded, hTruncated]
    rw [hBits, ← getCompact_decoded a, hSameTarget, hCanonical]
  · intro hSlow
    have hAbove := target_le_of_work_le hw hFollows.pos (hFollows.slower hSlow)
    rw [hBits, toNat_decoded, hDecoded]
    exact Lib.truncate_mono droppedBits_lt (by omega)
  · intro hFast
    have hBelow := le_target_of_work_lt hw (hFollows.faster hFast)
    rw [hBits, toNat_decoded]
    exact Lib.truncate_le.trans (by omega)

/-! A chain of blocks with given times, each of the same work. -/

def timedChain (nTime : Nat → Nat) (nBits work : Nat) : HeaderChain where
  toBlockChain := .ofTimes fun h => (nTime h % 2 ^ 32 : Nat)
  nBits _ := nBits
  nChainWork h := Lib.Limbs.ofNat (h * work)
  nTime_range h := by
    show (0 : Int) ≤ (nTime h % 2 ^ 32 : Nat) ∧ ((nTime h % 2 ^ 32 : Nat) : Int) < 2 ^ 32
    omega

/-- A network on which EMA is active from the start, with a limit of 32 zero bits. -/
def earlyPowParams : PowParams where
  toParams := ⟨144, 7100000000000, 0⟩
  powLimit := Lib.Limbs.ofNat (2 ^ 224 - 1)
  nPowTargetSpacing := 600
  nBootstrapBits := 0x1d00ffff
  spacing_range := mainPowParams.spacing_range

/-- A block every ten minutes, at the first difficulty. -/
def steadyChain : HeaderChain := timedChain (600 * ·) 0x1d00ffff 0x100010001

theorem steadyChain_keeps_bits :
    ∃ bits, getNextExpWorkRequired earlyPowParams steadyChain 4 = .ok bits ∧
      bits = 0x1d00ffff := by
  have hStep : medianStep steadyChain 4 (by decide) = 600 := by decide +kernel
  obtain ⟨bits, hBits, hSame, -⟩ := getNextExpWorkRequired_follows_time earlyPowParams steadyChain 4
    (by decide) (by decide +kernel) (by decide +kernel) (by decide +kernel) rfl
    (by decide +kernel) (by decide +kernel) (by decide +kernel) (by rw [hStep]; decide +kernel)
  exact ⟨bits, hBits, hSame hStep⟩

/-! ## The older function and the newer one -/

/-- A dividend that loses at least `2 ^ 32` times the work loses a share of the quotient. -/
theorem quadratic_gap {w a a' d : Nat} (hPos : 0 < d) (hd : d ≤ 360000000000)
    (hLess : a' + w * 2 ^ 32 ≤ a) (hNe : a' / d < a / d) :
    4294967296 * w < 720000000000 * (a / d - a' / d) := by
  have hTop : a < (a / d + 1) * d := lt_mul_of_div_lt (lt_succ_self _) hPos
  have hBottom : a' / d * d ≤ a' := div_mul_le_self a' d
  obtain ⟨k, hk⟩ : ∃ k, a / d = a' / d + k := ⟨a / d - a' / d, by omega⟩
  rw [hk] at hTop ⊢
  have hSplit : (a' / d + k + 1) * d = a' / d * d + (k + 1) * d := by ring
  have hShare : (k + 1) * d ≤ (k + 1) * 360000000000 := Nat.mul_le_mul_left _ hd
  omega

/-- Works that differ by a share of themselves have different targets. -/
theorem div_lt_div_of_gap {new new' m : Nat} (hPos : 0 < new') (hLt : new' < new)
    (hGap : new' ≤ m / new * (new - new')) : m / new < m / new' := by
  rw [lt_iff_add_one_le, Nat.le_div_iff_mul_le hPos]
  calc (m / new + 1) * new' = m / new * new' + new' := by ring
    _ ≤ m / new * new' + m / new * (new - new') := by omega
    _ = m / new * new := by rw [← Nat.mul_add, Nat.add_sub_cancel' hLt.le]
    _ ≤ m := div_mul_le_self m new

/-- Where the narrowed square changes its term, the works are apart by a share of the work,
and their targets differ. -/
theorem narrowed_square_differs {w t spacing new new' : Nat} (hPos : 0 < spacing)
    (hSpacing : spacing ≤ 600) (hBelow : t < 500 * spacing) (hFits : w * t * t < 2 ^ 256)
    (hValue : (new : Int) = curveOf spacing w t % 2 ^ 256)
    (hValue' : (new' : Int) = (w - reductionOf w (w * t / spacing)
      (w * (t * t % 2 ^ 32) / (spacing * spacing))) % 2 ^ 256)
    (hNe : w * (t * t % 2 ^ 32) / (spacing * spacing) / 1000000 ≠
      w * t * t / (spacing * spacing) / 1000000) :
    0 < new' ∧ 0 < new ∧ 2 ^ 256 / new < 2 ^ 256 / new' := by
  have hAssoc : w * t * t = w * (t * t) := Nat.mul_assoc w t t
  have hSquare : t * t % 2 ^ 32 + 2 ^ 32 ≤ t * t := by
    by_contra hShort
    have hSame : t * t % 2 ^ 32 = t * t := mod_eq_of_lt (by omega)
    exact hNe (by rw [hSame, hAssoc])
  have hw : 0 < w := by
    by_contra hZero
    exact hNe (by simp [Nat.eq_zero_of_not_pos hZero])
  have hLess : w * (t * t % 2 ^ 32) + w * 2 ^ 32 ≤ w * t * t := by
    rw [hAssoc, ← Nat.mul_add]
    exact Nat.mul_le_mul_left w hSquare
  obtain ⟨hx, hy⟩ := curve_quotients hPos hw hBelow
  have hOrder : w * (t * t % 2 ^ 32) / (spacing * spacing) ≤ w * t * t / (spacing * spacing) :=
    Nat.div_le_div_right (by omega)
  obtain ⟨hLow, hHigh⟩ := sub_reductionOf_range hx hy
  obtain ⟨hLow', hHigh'⟩ := sub_reductionOf_range hx (hOrder.trans hy)
  have hDivisor : spacing * spacing * 1000000 ≤ 360000000000 := by
    have : spacing * spacing ≤ 600 * 600 := Nat.mul_le_mul hSpacing hSpacing
    omega
  have hTerms : w * (t * t % 2 ^ 32) / (spacing * spacing) / 1000000 <
      w * t * t / (spacing * spacing) / 1000000 :=
    lt_of_le_of_ne (Nat.div_le_div_right hOrder) hNe
  have hShare := hTerms
  rw [Nat.div_div_eq_div_mul, Nat.div_div_eq_div_mul] at hShare
  have hGap := quadratic_gap (Nat.mul_pos (Nat.mul_pos hPos hPos) (by omega)) hDivisor hLess hShare
  rw [curveOf, Int.emod_eq_of_lt hLow.le (by omega)] at hValue
  rw [Int.emod_eq_of_lt hLow'.le (by omega)] at hValue'
  have hDiff : new - new' = w * t * t / (spacing * spacing) / 1000000 -
      w * (t * t % 2 ^ 32) / (spacing * spacing) / 1000000 := by
    rw [reductionOf] at hValue hValue'
    omega
  have hLt : new' < new := by omega
  rw [Nat.div_div_eq_div_mul, Nat.div_div_eq_div_mul] at hDiff
  rw [← hDiff] at hGap
  refine ⟨by omega, by omega, div_lt_div_of_gap (by omega) hLt ?_⟩
  have hQuotient : 2 ^ 31 ≤ 2 ^ 256 / new := by
    rw [Nat.le_div_iff_mul_le (by omega)]
    omega
  calc new' ≤ 2 ^ 31 * (new - new') := by omega
    _ ≤ 2 ^ 256 / new * (new - new') := Nat.mul_le_mul_right _ hQuotient

theorem computeExpTarget_eq_iff (params : PowParams) (c : HeaderChain) (h : Nat) (hHeight : 4 ≤ h)
    (t : Nat) (hStep : medianStep c h hHeight = t)
    (hFits : (parentWork c h).toNat * t * t < 2 ^ 256) :
    computeExpTarget params c h hHeight = computeEmaTarget params c h hHeight ↔
      500 * params.nPowTargetSpacing ≤ t ∨
      (parentWork c h).toNat * (t * t % 2 ^ 32) /
          (params.nPowTargetSpacing * params.nPowTargetSpacing) / 1000000 =
        (parentWork c h).toNat * t * t /
          (params.nPowTargetSpacing * params.nPowTargetSpacing) / 1000000 := by
  have hRange := params.spacing_range
  have ht : t < 2 ^ 32 := by
    have := (medianStep_range (c := c) hHeight).2
    omega
  have hWrapped : (t : Int) % 2 ^ 32 = t := by omega
  rw [computeExpTarget, computeEmaTarget, hStep, hWrapped]
  rcases Nat.lt_or_ge t (500 * params.nPowTargetSpacing) with hBelow | hAbove
  · obtain ⟨new, hNew, hValue⟩ := emaWork_of_curve ht hBelow hFits
    obtain ⟨new', hNew', hValue'⟩ :=
      expWork_of_curve hBelow ((mul_le_mul_mul _ _).trans_lt hFits) (mul_mod_lt hFits)
    rw [hNew, hNew', or_iff_right (by omega)]
    show (-new').div new' = (-new).div new ↔ _
    constructor
    · -- different terms make different works, and these different targets
      intro hSame
      by_contra hNe
      obtain ⟨hPos', hPos, hDiffer⟩ := narrowed_square_differs params.spacing_pos hRange.2 hBelow
        hFits hValue hValue' hNe
      obtain ⟨q', hq', hTarget'⟩ := neg_div_self hPos'
      obtain ⟨q, hq, hTarget⟩ := neg_div_self hPos
      rw [hq', hq, Except.ok.injEq] at hSame
      have hOne : 0 < 2 ^ 256 / new.toNat := Nat.div_pos new.toNat_lt.le hPos
      rw [hSame] at hTarget'
      omega
    · intro hTerms
      have hEq : new' = new := by
        rw [← toNat_inj]
        rw [curveOf, reductionOf] at hValue
        rw [reductionOf, hTerms] at hValue'
        exact_mod_cast hValue'.trans hValue.symm
      rw [hEq]
  · rw [expWork_of_flat (by omega) (by omega) (by omega),
      emaWork_of_flat (by omega) (by omega) (by omega)]
    exact iff_of_true rfl (.inl hAbove)

/-- Two blocks whose medians are 65536 seconds apart. -/
def slowChain : HeaderChain :=
  timedChain (fun h => if h < 3 then 0 else 65536) 0x1d00ffff 0x100000000

theorem slowChain_step_narrowed :
    medianStep slowChain 4 (by decide) = (65536 : Nat) ∧
    (computeExpTarget mainPowParams slowChain 4 (by decide) =
        computeEmaTarget mainPowParams slowChain 4 (by decide) ↔
      500 * mainPowParams.nPowTargetSpacing ≤ 65536 ∨
      (parentWork slowChain 4).toNat * (65536 * 65536 % 2 ^ 32) /
          (mainPowParams.nPowTargetSpacing * mainPowParams.nPowTargetSpacing) / 1000000 =
        (parentWork slowChain 4).toNat * 65536 * 65536 /
          (mainPowParams.nPowTargetSpacing * mainPowParams.nPowTargetSpacing) / 1000000) := by
  have hStep : medianStep slowChain 4 (by decide) = (65536 : Nat) := by decide +kernel
  exact ⟨hStep, computeExpTarget_eq_iff mainPowParams slowChain 4 (by decide) 65536 hStep
    (by decide +kernel)⟩

/-- The square of 65536 is narrowed to zero, and the older function gives another target. -/
theorem slowChain_targets_differ :
    medianStep slowChain 4 (by decide) = 65536 ∧
    computeExpTarget mainPowParams slowChain 4 (by decide) ≠
      computeEmaTarget mainPowParams slowChain 4 (by decide) := by
  constructor <;> decide +kernel

/-! ## Targets in range -/

theorem clampedBits_inRange {q : ArithUint256} (hPos : 0 < q.toNat)
    (hLimit : 0 < params.powLimit.toNat) :
    targetInRange params.powLimit (clampedBits params q) = true := by
  obtain ⟨a, hBits, ha⟩ := clampedBits_eq params q
  rw [hBits, targetInRange_iff, setCompact_getCompact]
  have hLt : Lib.truncate droppedBits a.toNat < 2 ^ 256 := Lib.truncate_le.trans_lt a.toNat_lt
  refine ⟨rfl, rfl, ?_, ?_⟩ <;> rw [toNat_ofNat, mod_eq_of_lt hLt]
  · exact Lib.truncate_pos droppedBits_lt (by omega)
  · exact Lib.truncate_le.trans (by omega)

section SmallWork

variable {work : ArithUint256} (hPos : 0 < work.toNat) (hSmall : work.toNat < 2 ^ 160)
include hPos hSmall

theorem flatWork_range :
    ∃ new, flatWork work = .ok new ∧ 0 < new.toNat ∧ 2 * new.toNat ≤ 3 * work.toNat := by
  obtain ⟨new, hNew, hValue⟩ := flatWork_eq (by omega : work.toNat * 499 * 499 < 2 ^ 256)
  obtain ⟨hLow, hHigh⟩ := curveOf_range (w := work.toNat) (t := 499 * 1) Nat.one_pos hPos (by omega)
  rw [flatOf_eq_curveOf Nat.one_pos, Int.emod_eq_of_lt hLow.le (by omega)] at hValue
  exact ⟨new, hNew, by omega, by omega⟩

/-- A work below `2 ^ 160` leaves room for every product with a time. -/
theorem small_mul_lt {s : Nat} (hs : s < 2 ^ 32) : work.toNat * s * s < 2 ^ 224 :=
  calc work.toNat * s * s ≤ work.toNat * 2 ^ 32 * 2 ^ 32 :=
        Nat.mul_le_mul (Nat.mul_le_mul_left _ hs.le) hs.le
    _ < 2 ^ 160 * 2 ^ 32 * 2 ^ 32 := by omega
    _ = 2 ^ 224 := by norm_num

theorem expWork_range (params : PowParams) {s : Nat} (hs : s < 2 ^ 32) :
    ∃ new, expWork params work s = .ok new ∧ 0 < new.toNat ∧ 2 * new.toNat ≤ 3 * work.toNat := by
  have hFits := small_mul_lt hPos hSmall hs
  rcases Nat.lt_or_ge s (500 * params.nPowTargetSpacing) with hBelow | hAbove
  · exact expWork_of_curve_range hPos hBelow (by omega)
      ((mul_le_mul_mul _ _).trans_lt (by omega)) (mul_mod_lt (by omega))
  · rw [expWork_of_flat (by omega) (by omega) (by omega)]
    exact flatWork_range hPos hSmall

theorem emaWork_range (params : PowParams) {t : Int} (hLow : -2 ^ 32 < t) (hHigh : t < 2 ^ 32) :
    ∃ new, emaWork params work t = .ok new ∧ 0 < new.toNat ∧ 2 * new.toNat ≤ 2 ^ 256 := by
  rcases lt_or_ge t 0 with hNeg | hNonneg
  · obtain ⟨s, rfl⟩ : ∃ s : Nat, t = -s := ⟨(-t).toNat, by omega⟩
    have hFits := small_mul_lt hPos hSmall (by omega : s < 2 ^ 32)
    have hLinear := mul_le_mul_mul work.toNat s
    obtain ⟨new, hNew, hValue⟩ : ∃ new, emaWork params work (-s) = .ok new ∧ _ :=
      emaWork_of_negative (by omega) (by omega) (by omega)
    have hx : work.toNat * s / params.nPowTargetSpacing < 2 ^ 224 :=
      (Nat.div_le_self _ _).trans_lt (by omega)
    have hy : work.toNat * s * s / (params.nPowTargetSpacing * params.nPowTargetSpacing) <
        2 ^ 224 := (Nat.div_le_self _ _).trans_lt hFits
    rw [increaseOf] at hValue
    generalize work.toNat * s / params.nPowTargetSpacing = x at *
    generalize work.toNat * s * s / (params.nPowTargetSpacing * params.nPowTargetSpacing) = y at *
    rw [Int.emod_eq_of_lt (by omega) (by omega)] at hValue
    exact ⟨new, hNew, by omega, by omega⟩
  · obtain ⟨s, rfl⟩ : ∃ s : Nat, t = s := ⟨t.toNat, by omega⟩
    have hFits := small_mul_lt hPos hSmall (by omega : s < 2 ^ 32)
    obtain ⟨new, hNew, hValue⟩ := emaWork_eq_curveOf params work (by omega : s < 2 ^ 32) (by omega)
    obtain ⟨hFrom, hTo⟩ := curveOf_range (w := work.toNat) params.spacing_pos hPos
      (cutTime_lt params.spacing_pos (t := s))
    rw [Int.emod_eq_of_lt hFrom.le (by omega)] at hValue
    exact ⟨new, hNew, by omega, by omega⟩

/-- The error of the newer function, below the flat branch. -/
theorem emaWork_close {t : Nat} (hBelow : t < 500 * params.nPowTargetSpacing) :
    ∃ new, emaWork params work t = .ok new ∧
      |(new.toNat : ℚ) - exactWork params.nPowTargetSpacing work.toNat t| ≤ 8 := by
  have hRange := params.spacing_range
  have hFits := small_mul_lt hPos hSmall (by omega : t < 2 ^ 32)
  have hFits' : work.toNat * t * t < 2 ^ 256 := by omega
  obtain ⟨new, hNew, hValue⟩ := emaWork_of_curve (by omega) hBelow hFits'
  obtain ⟨hFrom, hTo⟩ := curveOf_range params.spacing_pos hPos hBelow
  obtain ⟨hLow, hHigh⟩ := curveOf_close (w := work.toNat) (t := t) params.spacing_pos
  rw [Int.emod_eq_of_lt hFrom.le (by omega)] at hValue
  refine ⟨new, hNew, ?_⟩
  have hCast : (new.toNat : ℚ) = curveOf params.nPowTargetSpacing work.toNat t := by
    exact_mod_cast congrArg (Int.cast : Int → ℚ) hValue
  rw [abs_le, hCast]
  constructor <;> linarith

end SmallWork

theorem getNextExpWorkRequired_inRange (params : PowParams) (c : HeaderChain) (h : Nat)
    (hHeight : 4 ≤ h) (hPos : 1 ≤ (parentWork c h).toNat)
    (hSmall : (parentWork c h).toNat < 2 ^ 160)
    (hRestart : (ArithUint256.setCompact restartBits).target.toNat ≤ params.powLimit.toNat) :
    (∃ q, computeExpTarget params c h hHeight = .ok q) ∧
    (∃ q, computeEmaTarget params c h hHeight = .ok q) ∧
    (∃ bits, getNextExpWorkRequired params c h = .ok bits ∧
      (ArithUint256.setCompact bits).fNegative = false ∧
      (ArithUint256.setCompact bits).fOverflow = false ∧
      0 < (ArithUint256.setCompact bits).target.toNat ∧
      (ArithUint256.setCompact bits).target.toNat ≤ params.powLimit.toNat) ∧
    (∀ t : Nat, medianStep c h hHeight = t → t < 500 * params.nPowTargetSpacing →
      ∃ new, emaWork params (parentWork c h) t = .ok new ∧
        |(new.toNat : ℚ) - exactWork params.nPowTargetSpacing (parentWork c h).toNat t| ≤ 8) := by
  obtain ⟨hLow, hHigh⟩ := medianStep_range (c := c) hHeight
  obtain ⟨s, hs⟩ : ∃ s : Nat, medianStep c h hHeight % 2 ^ 32 = s :=
    ⟨(medianStep c h hHeight % 2 ^ 32).toNat, by omega⟩
  have hRestartBits : targetInRange params.powLimit restartBits = true := by
    rw [targetInRange_iff]
    exact ⟨by decide +kernel, by decide +kernel, by decide +kernel, hRestart⟩
  have hLimit : 0 < params.powLimit.toNat := by
    have := (targetInRange_iff.mp hRestartBits).2.2
    omega
  -- a work of at most half the range has a target above zero
  have hTargetPos : ∀ {new q : ArithUint256}, 0 < new.toNat → 2 * new.toNat ≤ 2 ^ 256 →
      q.toNat = 2 ^ 256 / new.toNat - 1 → 0 < q.toNat := by
    intro new q hNew hHalf hq
    have hTwo : 2 ≤ 2 ^ 256 / new.toNat := by
      rw [Nat.le_div_iff_mul_le hNew]
      exact hHalf
    omega
  obtain ⟨newExp, hNewExp, hExpPos, hExpTop⟩ :=
    expWork_range hPos hSmall params (by omega : s < 2 ^ 32)
  obtain ⟨newEma, hNewEma, hEmaPos, hEmaTop⟩ :=
    emaWork_range hPos hSmall params hLow hHigh
  obtain ⟨e, hDiv, he⟩ := neg_div_self hExpPos
  have hExp : computeExpTarget params c h hHeight = .ok e := by
    rw [computeExpTarget, hs, hNewExp]
    exact hDiv
  obtain ⟨q, hEma, hq⟩ := computeEmaTarget_eq hHeight hNewEma hEmaPos
  refine ⟨⟨e, hExp⟩, ⟨q, hEma⟩, ?_, fun t _ hBelow => emaWork_close hPos hSmall hBelow⟩
  suffices hBits : ∃ bits, getNextExpWorkRequired params c h = .ok bits ∧
      targetInRange params.powLimit bits = true by
    obtain ⟨bits, hBits, hInRange⟩ := hBits
    exact ⟨bits, hBits, targetInRange_iff.mp hInRange⟩
  cases hOn : isEmaEnabled params.toParams c.toBlockChain h with
  | false =>
    exact ⟨_, getNextExpWorkRequired_before hHeight hExp hOn,
      clampedBits_inRange (hTargetPos hExpPos (by omega) he) hLimit⟩
  | true =>
    cases hOn' : isEmaEnabled params.toParams c.toBlockChain (h - 1) with
    | false => exact ⟨_, getNextExpWorkRequired_restart hHeight hExp hOn hOn', hRestartBits⟩
    | true =>
      exact ⟨_, getNextExpWorkRequired_after hHeight hExp hOn hOn' hEma,
        clampedBits_inRange (hTargetPos hEmaPos hEmaTop hq) hLimit⟩

theorem steadyChain_inRange :
    ∃ bits, getNextExpWorkRequired mainPowParams steadyChain 4 = .ok bits ∧
      (ArithUint256.setCompact bits).fNegative = false ∧
      (ArithUint256.setCompact bits).fOverflow = false ∧
      0 < (ArithUint256.setCompact bits).target.toNat ∧
      (ArithUint256.setCompact bits).target.toNat ≤ mainPowParams.powLimit.toNat :=
  (getNextExpWorkRequired_inRange mainPowParams steadyChain 4 (by decide) (by decide +kernel)
    (by decide +kernel) (by decide +kernel)).2.2.1

end Ergon.Node
