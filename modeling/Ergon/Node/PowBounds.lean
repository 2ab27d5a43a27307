import Ergon.Node.Pow

/-!
# Ergon — what the work correction does

The correction of the work against the exact quadratic
`w * (1 - y / 1000 + y ^ 2 / 1000000)`, where `y` is the time in spacings, minus one.
Each of the five terms is rounded on its own, so the computed work is within three
units of the exact one (`curveOf_close`). The main result:

* `emaWork_rise_iff` — a longer time raises the work by more than eight units in two
  cases only. The branch that is to flatten the parabola takes its value at 499
  spacings, but takes over at 500, below which the parabola has gone on falling; and
  a work next to `2 ^ 256` can wrap at time zero and not at time one.
-/

namespace Ergon.Node

open ArithUint256

/-! ## The exact work -/

/-- The documented formula, for a work `w` and a time of `t`. -/
def exactWork (spacing w t : Nat) : ℚ :=
  let y : ℚ := t / spacing - 1
  w * (1 - y / 1000 + y ^ 2 / 1000000)

section Exact

variable {spacing w t t' : Nat}

theorem exactWork_eq (hPos : 0 < spacing) :
    exactWork spacing w t =
      w - w * t / (spacing * 1000) + w / 1000 + w * t * t / (spacing * spacing * 1000000) -
        2 * (w * t / spacing) / 1000000 + w / 1000000 := by
  have hSpacing : (spacing : ℚ) ≠ 0 := by exact_mod_cast hPos.ne'
  rw [exactWork]
  field_simp
  ring

/-- On the falling side of the parabola a longer time gives less work. -/
theorem exactWork_sub (hPos : 0 < spacing) :
    exactWork spacing w t - exactWork spacing w t' =
      w * (((t' : ℚ) - t) / spacing) * (1002 - ((t : ℚ) + t') / spacing) / 1000000 := by
  have hSpacing : (spacing : ℚ) ≠ 0 := by exact_mod_cast hPos.ne'
  rw [exactWork, exactWork]
  field_simp
  ring

theorem exactWork_anti (hPos : 0 < spacing) (hLe : t ≤ t') (hSum : t + t' ≤ 1002 * spacing) :
    exactWork spacing w t' ≤ exactWork spacing w t := by
  have hSpacing : (0 : ℚ) < spacing := by exact_mod_cast hPos
  rw [← sub_nonneg, exactWork_sub hPos]
  have hLe' : (t : ℚ) ≤ t' := by exact_mod_cast hLe
  have hSum' : ((t : ℚ) + t') / spacing ≤ 1002 := by
    rw [div_le_iff₀ hSpacing]
    exact_mod_cast hSum
  have hStep : (0 : ℚ) ≤ ((t' : ℚ) - t) / spacing := div_nonneg (by linarith) hSpacing.le
  have hRest : (0 : ℚ) ≤ 1002 - ((t : ℚ) + t') / spacing := by linarith
  positivity

/-- A quotient of numbers is the largest integer below the exact one. -/
theorem cast_div_bounds (n : Nat) {d : Nat} (hd : 0 < d) :
    ((n / d : Nat) : ℚ) ≤ n / d ∧ (n : ℚ) / d < (n / d : Nat) + 1 := by
  have hd' : (0 : ℚ) < d := by exact_mod_cast hd
  refine ⟨Nat.cast_div_le, ?_⟩
  rw [div_lt_iff₀ hd']
  exact_mod_cast (Nat.div_lt_iff_lt_mul hd).mp (Nat.lt_succ_self (n / d))

/-- The computed work is within three units of the exact one. -/
theorem curveOf_close (hPos : 0 < spacing) :
    exactWork spacing w t - 3 < curveOf spacing w t ∧
      (curveOf spacing w t : ℚ) < exactWork spacing w t + 5 / 2 := by
  have hSqPos : 0 < spacing * spacing := Nat.mul_pos hPos hPos
  have hLinear := cast_div_bounds (w * t) (Nat.mul_pos hPos (by omega : 0 < 1000))
  have hOne := cast_div_bounds w (by omega : 0 < 1000)
  have hQuadratic := cast_div_bounds (w * t * t) (Nat.mul_pos hSqPos (by omega : 0 < 1000000))
  have hInner := cast_div_bounds (w * t) hPos
  have hDouble := cast_div_bounds (2 * (w * t / spacing)) (by omega : 0 < 1000000)
  have hSquare := cast_div_bounds w (by omega : 0 < 1000000)
  rw [exactWork_eq hPos, curveOf, reductionOf, Nat.div_div_eq_div_mul, Nat.div_div_eq_div_mul]
  push_cast at hLinear hOne hQuadratic hInner hDouble hSquare
  simp only [Int.cast_sub, Int.cast_add, Int.cast_natCast]
  constructor <;> linarith

/-- A longer time on the falling side raises the computed work by the rounding at most. -/
theorem curveOf_le_add (hPos : 0 < spacing) (hLe : t ≤ t') (hSum : t + t' ≤ 1002 * spacing) :
    curveOf spacing w t' ≤ curveOf spacing w t + 5 := by
  have hLong := (curveOf_close (w := w) (t := t') hPos).2
  have hShort := (curveOf_close (w := w) (t := t) hPos).1
  have hExact := exactWork_anti (w := w) hPos hLe hSum
  have hCast : (curveOf spacing w t' : ℚ) < (curveOf spacing w t + 6 : Int) := by
    push_cast
    linarith
  have := Int.cast_lt.mp hCast
  omega

/-- Between 499 and 500 spacings the parabola has fallen below its value at 499. -/
theorem curveOf_gap (hPos : 0 < spacing) (hSpacing : spacing ≤ 600) (hw : 2 ^ 32 ≤ w)
    (hLow : 499 * spacing < t) (hHigh : t < 500 * spacing) :
    curveOf spacing w t + 8 < curveOf spacing w (499 * spacing) := by
  have hAt := (curveOf_close (w := w) (t := 499 * spacing) hPos).1
  have hPast := (curveOf_close (w := w) (t := t) hPos).2
  have hExact := @exactWork_sub spacing w (499 * spacing) t hPos
  have hPos' : (0 : ℚ) < spacing := by exact_mod_cast hPos
  -- the time past 499 spacings, as a part of a spacing
  obtain ⟨part, hPart⟩ : ∃ part : ℚ, part = ((t : ℚ) - (499 * spacing : Nat)) / spacing := ⟨_, rfl⟩
  have hOther : 1002 - (((499 * spacing : Nat) : ℚ) + t) / spacing = 4 - part := by
    rw [hPart]
    push_cast
    field_simp
    ring
  have hLeast : 1 / 600 ≤ part := by
    have hOne : (1 : ℚ) ≤ (t : ℚ) - (499 * spacing : Nat) := by
      have : ((499 * spacing + 1 : Nat) : ℚ) ≤ t := by exact_mod_cast hLow
      push_cast at this ⊢
      linarith
    have hSpacing' : (spacing : ℚ) ≤ 600 := by exact_mod_cast hSpacing
    rw [hPart, div_le_div_iff₀ (by norm_num) hPos']
    linarith
  have hMost : part ≤ 1 := by
    have : (t : ℚ) ≤ (500 * spacing : Nat) := by exact_mod_cast hHigh.le
    rw [hPart, div_le_one hPos']
    push_cast at this ⊢
    linarith
  have hw' : (2 ^ 32 : ℚ) ≤ w := by exact_mod_cast hw
  rw [← hPart, hOther] at hExact
  have hFall : (2 ^ 32 : ℚ) * (1 / 600) * 3 ≤ w * part * (4 - part) := by
    have hFirst : (2 ^ 32 : ℚ) * (1 / 600) ≤ w * part := by
      refine mul_le_mul hw' hLeast (by norm_num) (by positivity)
    exact mul_le_mul hFirst (by linarith) (by norm_num) (by positivity)
  have hCast : ((curveOf spacing w t + 8 : Int) : ℚ) < curveOf spacing w (499 * spacing) := by
    push_cast
    norm_num at hFall
    linarith
  exact Int.cast_lt.mp hCast

/-- From time zero to time one the work falls by a small part. -/
theorem curveOf_zero_one (hLow : 60 ≤ spacing) (hHigh : spacing ≤ 600) (hw : 2 ^ 32 ≤ w) :
    curveOf spacing w 1 < curveOf spacing w 0 ∧
      2 * curveOf spacing w 0 ≤ 2 * curveOf spacing w 1 + w := by
  have hPos : 0 < spacing := by omega
  have hZero := curveOf_close (w := w) (t := 0) hPos
  have hOne := curveOf_close (w := w) (t := 1) hPos
  have hExact := @exactWork_sub spacing w 0 1 hPos
  have hPos' : (0 : ℚ) < spacing := by exact_mod_cast hPos
  obtain ⟨part, hPart⟩ : ∃ part : ℚ, part = 1 / spacing := ⟨_, rfl⟩
  have hLeast : 1 / 600 ≤ part := by
    have hHigh' : (spacing : ℚ) ≤ 600 := by exact_mod_cast hHigh
    rw [hPart]
    exact one_div_le_one_div_of_le hPos' hHigh'
  have hMost : part ≤ 1 / 60 := by
    have hLow' : (60 : ℚ) ≤ spacing := by exact_mod_cast hLow
    rw [hPart]
    exact one_div_le_one_div_of_le (by norm_num) hLow'
  have hw' : (2 ^ 32 : ℚ) ≤ w := by exact_mod_cast hw
  push_cast at hExact
  rw [sub_zero, zero_add, ← hPart] at hExact
  have hFall : (2 ^ 32 : ℚ) * (1 / 600) * 1001 ≤ w * part * (1002 - part) := by
    have hFirst : (2 ^ 32 : ℚ) * (1 / 600) ≤ w * part :=
      mul_le_mul hw' hLeast (by norm_num) (by positivity)
    exact mul_le_mul hFirst (by linarith) (by norm_num) (by positivity)
  have hSmall : (w : ℚ) * part * (1002 - part) ≤ w * (1 / 60) * 1002 := by
    have hFirst : (w : ℚ) * part ≤ w * (1 / 60) := mul_le_mul_of_nonneg_left hMost (by positivity)
    exact mul_le_mul hFirst (by linarith) (by linarith) (by positivity)
  norm_num at hFall
  constructor
  · have hCast : (curveOf spacing w 1 : ℚ) < curveOf spacing w 0 := by linarith
    exact Int.cast_lt.mp hCast
  · have hCast : ((2 * curveOf spacing w 0 : Int) : ℚ) ≤ (2 * curveOf spacing w 1 + w : Int) := by
      push_cast
      linarith
    exact Int.cast_le.mp hCast

end Exact

/-! ## The range of the new work -/

section Range

variable {spacing w t : Nat}

theorem sub_reductionOf_range {x y : Nat} (hx : x < 500 * w) (hy : y ≤ 250000 * w) :
    0 < w - reductionOf w x y ∧ 2 * (w - reductionOf w x y) ≤ 3 * w := by
  rw [reductionOf]
  omega

/-- The two quotients below 500 spacings. -/
theorem curve_quotients (hPos : 0 < spacing) (hw : 0 < w) (ht : t < 500 * spacing) :
    w * t / spacing < 500 * w ∧ w * t * t / (spacing * spacing) ≤ 250000 * w := by
  constructor
  · rw [Nat.div_lt_iff_lt_mul hPos]
    calc w * t < w * (500 * spacing) := Nat.mul_lt_mul_of_pos_left ht hw
      _ = 500 * w * spacing := by ring
  · refine Nat.div_le_of_le_mul ?_
    calc w * t * t ≤ w * (500 * spacing) * (500 * spacing) :=
          Nat.mul_le_mul (Nat.mul_le_mul_left _ ht.le) ht.le
      _ = spacing * spacing * (250000 * w) := by ring

theorem curveOf_range (hPos : 0 < spacing) (hw : 0 < w) (ht : t < 500 * spacing) :
    0 < curveOf spacing w t ∧ 2 * curveOf spacing w t ≤ 3 * w := by
  obtain ⟨hx, hy⟩ := curve_quotients hPos hw ht
  exact sub_reductionOf_range hx hy

/-- Where on the parabola the work for a time is taken. -/
def cutTime (spacing t : Nat) : Nat := if t < 500 * spacing then t else 499 * spacing

theorem cutTime_lt (hPos : 0 < spacing) : cutTime spacing t < 500 * spacing := by
  rw [cutTime]
  split <;> omega

theorem emaWork_eq_curveOf (params : PowParams) (work : ArithUint256) (ht : t < 2 ^ 32)
    (hFits : work.toNat * t * t < 2 ^ 256) :
    ∃ new, emaWork params work t = .ok new ∧ (new.toNat : Int) =
      curveOf params.nPowTargetSpacing work.toNat (cutTime params.nPowTargetSpacing t) %
        2 ^ 256 := by
  rw [cutTime]
  split
  · next hBelow => exact emaWork_of_curve ht hBelow hFits
  · next hAbove =>
    have hRange := params.spacing_range
    have hFlat : work.toNat * 499 * 499 < 2 ^ 256 :=
      (Nat.mul_le_mul (Nat.mul_le_mul_left _ (by omega)) (by omega)).trans_lt hFits
    obtain ⟨new, hNew, hValue⟩ := flatWork_eq hFlat
    rw [flatOf_eq_curveOf params.spacing_pos] at hValue
    exact ⟨new, by rw [emaWork_of_flat (by omega) (by omega) (by omega), hNew], hValue⟩

end Range

/-! ## A longer time -/

/-- The work for a longer time is at most eight units above that for a shorter one, except
across the start of the flat branch from the last spacing before it, and at the wrap
of the largest numbers. -/
theorem emaWork_rise_iff (params : PowParams) (work : ArithUint256) (hWork : 2 ^ 32 ≤ work.toNat)
    (t₁ t₂ : Nat) (hLe : t₁ ≤ t₂) (hTime : t₂ < 2 ^ 32)
    (hFits : work.toNat * t₂ * t₂ < 2 ^ 256) :
    (∃ new₁ new₂, emaWork params work t₁ = .ok new₁ ∧ emaWork params work t₂ = .ok new₂ ∧
      new₂.toNat ≤ new₁.toNat + 8) ↔
    ¬ (499 * params.nPowTargetSpacing < t₁ ∧ t₁ < 500 * params.nPowTargetSpacing ∧
      500 * params.nPowTargetSpacing ≤ t₂) ∧
    ¬ (t₁ = 0 ∧ t₂ = 1 ∧ curveOf params.nPowTargetSpacing work.toNat 1 < 2 ^ 256 ∧
      2 ^ 256 ≤ curveOf params.nPowTargetSpacing work.toNat 0) := by
  have hFits₁ : work.toNat * t₁ * t₁ < 2 ^ 256 :=
    (Nat.mul_le_mul (Nat.mul_le_mul_left _ hLe) hLe).trans_lt hFits
  obtain ⟨new₁, hNew₁, hValue₁⟩ :=
    emaWork_eq_curveOf params work (by omega : t₁ < 2 ^ 32) hFits₁
  obtain ⟨new₂, hNew₂, hValue₂⟩ := emaWork_eq_curveOf params work hTime hFits
  have hRange := params.spacing_range
  have hPos := params.spacing_pos
  have hSplit : (∃ new₁ new₂, emaWork params work t₁ = .ok new₁ ∧
      emaWork params work t₂ = .ok new₂ ∧ new₂.toNat ≤ new₁.toNat + 8) ↔
        new₂.toNat ≤ new₁.toNat + 8 := by
    constructor
    · rintro ⟨a, b, ha, hb, hAB⟩
      rw [hNew₁] at ha
      rw [hNew₂] at hb
      cases ha
      cases hb
      exact hAB
    · exact fun h => ⟨new₁, new₂, hNew₁, hNew₂, h⟩
  rw [hSplit]
  generalize params.nPowTargetSpacing = spacing at *
  have hLt := work.toNat_lt
  generalize work.toNat = w at *
  have hw : 0 < w := by omega
  obtain ⟨hPos₁, hTop₁⟩ := curveOf_range hPos hw (cutTime_lt hPos (t := t₁))
  obtain ⟨hPos₂, hTop₂⟩ := curveOf_range hPos hw (cutTime_lt hPos (t := t₂))
  rcases Nat.lt_or_ge t₂ 2 with hTiny | hWide
  · -- only here can the work be large enough to wrap
    have hCut₁ : cutTime spacing t₁ = t₁ := if_pos (by omega)
    have hCut₂ : cutTime spacing t₂ = t₂ := if_pos (by omega)
    rw [hCut₁] at hValue₁ hTop₁ hPos₁
    rw [hCut₂] at hValue₂ hTop₂ hPos₂
    obtain ⟨hFall, hSmall⟩ := curveOf_zero_one hRange.1 hRange.2 hWork
    rcases Nat.lt_or_ge t₁ t₂ with hStep | hSame
    · obtain ⟨rfl, rfl⟩ : t₁ = 0 ∧ t₂ = 1 := by omega
      omega
    · obtain rfl : t₁ = t₂ := by omega
      omega
  · have hNarrow : 4 * w < 2 ^ 256 := by
      have : w * 2 * 2 ≤ w * t₂ * t₂ := Nat.mul_le_mul (Nat.mul_le_mul_left _ hWide) hWide
      omega
    rw [Int.emod_eq_of_lt (by omega) (by omega)] at hValue₁ hValue₂
    rcases Nat.lt_or_ge t₁ (500 * spacing) with hEarly | hLate
    · have hCut₁ : cutTime spacing t₁ = t₁ := if_pos hEarly
      rw [hCut₁] at hValue₁
      rcases Nat.lt_or_ge t₂ (500 * spacing) with hBefore | hAfter
      · have hCut₂ : cutTime spacing t₂ = t₂ := if_pos hBefore
        have hClose := curveOf_le_add (w := w) hPos hLe (by omega)
        rw [hCut₂] at hValue₂
        omega
      · have hCut₂ : cutTime spacing t₂ = 499 * spacing := if_neg (by omega)
        rw [hCut₂] at hValue₂
        rcases Nat.lt_or_ge (499 * spacing) t₁ with hPast | hNotPast
        · have hGap := curveOf_gap hPos hRange.2 hWork hPast hEarly
          omega
        · have hClose := curveOf_le_add (w := w) hPos hNotPast (by omega)
          omega
    · -- the same value on both sides
      have hCut₁ : cutTime spacing t₁ = 499 * spacing := if_neg (by omega)
      have hCut₂ : cutTime spacing t₂ = 499 * spacing := if_neg (by omega)
      rw [hCut₁] at hValue₁
      rw [hCut₂] at hValue₂
      omega

/-! The parameters of the main network, with its limit of 28 zero bits. -/

def mainPowParams : PowParams where
  toParams := mainParams
  powLimit := Lib.Limbs.ofNat (2 ^ 228 - 1)
  nPowTargetSpacing := 600
  nBootstrapBits := 0x1a04b500
  spacing_range := by decide

theorem emaWork_rise_first_spacing :
    (∃ new₁ new₂, emaWork mainPowParams (ofUint64 (2 ^ 32)) (0 : Nat) = .ok new₁ ∧
      emaWork mainPowParams (ofUint64 (2 ^ 32)) (600 : Nat) = .ok new₂ ∧
        new₂.toNat ≤ new₁.toNat + 8) := by
  have hWork : (ofUint64 (2 ^ 32)).toNat = 2 ^ 32 := toNat_ofUint64 (by omega)
  refine (emaWork_rise_iff mainPowParams (ofUint64 (2 ^ 32)) (by rw [hWork]) 0 600 (by decide)
    (by decide) (by rw [hWork]; decide)).mpr ⟨?_, ?_⟩
  · rintro ⟨hLow, -⟩
    exact absurd hLow (by decide)
  · rintro ⟨-, hOne, -⟩
    cases hOne

/-- One second longer than 299999 raises the work. -/
theorem emaWork_rises_at_500_spacings :
    ∃ new₁ new₂, emaWork mainPowParams (ofUint64 (2 ^ 32)) (299999 : Nat) = .ok new₁ ∧
      emaWork mainPowParams (ofUint64 (2 ^ 32)) (300000 : Nat) = .ok new₂ ∧
        new₁.toNat = 3221229781 ∧ new₂.toNat = 3221242651 ∧ new₁.toNat + 8 < new₂.toNat := by
  have hWork : (ofUint64 (2 ^ 32)).toNat = 2 ^ 32 := toNat_ofUint64 (by omega)
  obtain ⟨new₁, hNew₁, hValue₁⟩ := emaWork_eq_curveOf mainPowParams (ofUint64 (2 ^ 32))
    (by decide : 299999 < 2 ^ 32) (by rw [hWork]; decide)
  obtain ⟨new₂, hNew₂, hValue₂⟩ := emaWork_eq_curveOf mainPowParams (ofUint64 (2 ^ 32))
    (by decide : 300000 < 2 ^ 32) (by rw [hWork]; decide)
  rw [hWork] at hValue₁ hValue₂
  have hBefore : curveOf 600 (2 ^ 32) (cutTime 600 299999) % 2 ^ 256 = 3221229781 := by decide
  have hAfter : curveOf 600 (2 ^ 32) (cutTime 600 300000) % 2 ^ 256 = 3221242651 := by decide
  have hFirst : new₁.toNat = 3221229781 := by exact_mod_cast hValue₁.trans hBefore
  have hSecond : new₂.toNat = 3221242651 := by exact_mod_cast hValue₂.trans hAfter
  exact ⟨new₁, new₂, hNew₁, hNew₂, hFirst, hSecond, by omega⟩

end Ergon.Node
