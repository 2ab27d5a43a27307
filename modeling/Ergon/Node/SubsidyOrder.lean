import Ergon.Lib.Lists
import Ergon.Lib.Machine
import Ergon.Node.ArithUint256
import Ergon.Node.Subsidy

/-!
# Ergon — the walk to the activation, and the order of subsidies

* `emaBlock_lowest` — on a chain that keeps the rule for header times, the walk of
  `GetBlockSubsidy` ends, and where EMA is active it ends at the first block with it.
  A new time above the median does not lower the median: among the last eleven no more
  of them are below the old median than before (`medianTimePast_le_succ`);
* `getBlockSubsidy_order_iff` — a harder target has no smaller subsidy as long as the
  amount fits. The calibrated work is narrowed to a signed 64-bit amount, and the work is
  multiplied in 256 bits before each decay; both can wrap.
-/

namespace Ergon.Node

open List

open Ergon.Lib

variable (params : Params) (c : BlockChain)

/-! ## The loop of the walk -/

/-- One round of the loop, `none` where it stops. -/
def emaStep (emaBlock : Nat) : Option Nat :=
  -- no `pprev`
  if emaBlock = 0 then none
  else if (c.pskip emaBlock).any (isEmaEnabled params c) then c.pskip emaBlock
  else if !isEmaEnabled params c (emaBlock - 1) then none
  else some (emaBlock - 1)

variable {params c}

theorem emaStep_lt {b b' : Nat} (h : emaStep params c b = some b') : b' < b := by
  rw [emaStep] at h
  split at h
  · cases h
  · next hNe =>
    have hPos := Nat.pos_of_ne_zero hNe
    have hLt := getSkipHeight_lt hPos
    rw [c.pskip_eq hPos] at h
    split at h
    · cases h
      exact hLt
    · split at h
      · cases h
      · cases h
        omega

/-- The walk takes a round of the loop as long as there is one. -/
theorem emaWalk_succ (fuel b : Nat) :
    emaWalk params c (fuel + 1) b =
      match emaStep params c b with
      | none => b
      | some b' => emaWalk params c fuel b' := by
  rw [emaWalk, emaStep]
  split
  · rfl
  · next hNe =>
    rw [c.pskip_eq (Nat.pos_of_ne_zero hNe), Option.any_some, Option.getD_some]
    split
    · rfl
    · split <;> rfl

theorem emaWalk_reaches : ∀ {fuel b : Nat}, b ≤ fuel →
    Reaches (fun b (_ : Unit) => emaStep params c b) b (emaWalk params c fuel b) ∧
      emaStep params c (emaWalk params c fuel b) = none
  | 0, b, hFuel => by
    obtain rfl : b = 0 := by omega
    exact ⟨.refl, rfl⟩
  | fuel + 1, b, hFuel => by
    rw [emaWalk_succ]
    cases hStep : emaStep params c b with
    | none => exact ⟨.refl, hStep⟩
    | some b' =>
      have hLt := emaStep_lt hStep
      obtain ⟨hRun, hEnd⟩ := emaWalk_reaches (by omega : b' ≤ fuel)
      exact ⟨(Reaches.refl.tail () hStep).trans hRun, hEnd⟩

/-! ## The median of the last eleven times -/

namespace BlockChain

/-- The times the median is taken of, the latest first. -/
def lastTimes (c : BlockChain) (h : Nat) : List Int :=
  (List.range (min medianTimeSpan (h + 1))).map fun i => c.nTime (h - i)

theorem length_lastTimes (c : BlockChain) (h : Nat) :
    (c.lastTimes h).length = min medianTimeSpan (h + 1) := by
  rw [lastTimes, length_map, length_range]

/-- A new block puts its time in front; the oldest may leave. -/
theorem lastTimes_succ (c : BlockChain) (h : Nat) :
    ∃ kept, c.lastTimes (h + 1) = c.nTime (h + 1) :: kept ∧ kept <+: c.lastTimes h := by
  refine ⟨(List.range (min 10 (h + 1))).map fun i => c.nTime (h - i), ?_, ?_⟩
  · rw [lastTimes, show min medianTimeSpan (h + 1 + 1) = min 10 (h + 1) + 1 by
      rw [medianTimeSpan]; omega, range_succ_eq_map, map_cons, map_map]
    refine congrArg₂ List.cons rfl (map_congr_left fun i _ => ?_)
    show c.nTime (h + 1 - (i + 1)) = c.nTime (h - i)
    rw [Nat.add_sub_add_right]
  · rw [lastTimes, map_range_prefix_iff (by rw [medianTimeSpan]; omega)]
    exact fun _ _ => rfl

theorem medianTimePast_eq (c : BlockChain) (h : Nat) :
    ((c.lastTimes h).insertionSort (· ≤ ·))[(c.lastTimes h).length / 2]? =
      some (c.medianTimePast h) := by
  have hLen : (c.lastTimes h).length / 2 < ((c.lastTimes h).insertionSort (· ≤ ·)).length := by
    rw [length_insertionSort, length_lastTimes, medianTimeSpan]
    omega
  show _ = some ((((c.lastTimes h).insertionSort (· ≤ ·))[(c.lastTimes h).length / 2]?).getD 0)
  rw [getElem?_eq_getElem hLen]
  rfl

/-- A bound for the median by counting. -/
theorem le_medianTimePast_iff (c : BlockChain) {h : Nat} {m : Int} :
    m ≤ c.medianTimePast h ↔ (c.lastTimes h).countP (· < m) ≤ (c.lastTimes h).length / 2 := by
  rw [← countP_lt_le_iff (pairwise_insertionSort _ _) (c.medianTimePast_eq h),
    (perm_insertionSort _ _).countP_eq]

/-- A time not below the median does not lower it. -/
theorem medianTimePast_le_succ (c : BlockChain) {h : Nat}
    (hTime : c.medianTimePast h ≤ c.nTime (h + 1)) :
    c.medianTimePast h ≤ c.medianTimePast (h + 1) := by
  rw [le_medianTimePast_iff]
  obtain ⟨kept, hNext, hKept⟩ := c.lastTimes_succ h
  have hOld := (c.le_medianTimePast_iff (h := h)).mp le_rfl
  have hLen : (c.lastTimes h).length ≤ (c.lastTimes (h + 1)).length := by
    rw [length_lastTimes, length_lastTimes]
    omega
  calc (c.lastTimes (h + 1)).countP (· < c.medianTimePast h)
      = kept.countP (· < c.medianTimePast h) := by
        rw [hNext, countP_cons_of_neg (by simpa using hTime)]
    _ ≤ (c.lastTimes h).countP (· < c.medianTimePast h) := hKept.sublist.countP_le
    _ ≤ (c.lastTimes h).length / 2 := hOld
    _ ≤ (c.lastTimes (h + 1)).length / 2 := Nat.div_le_div_right hLen

end BlockChain

theorem isEmaEnabled_of_le {h : Nat} (hTimes : ∀ k < h, c.medianTimePast k < c.nTime (k + 1))
    {k k' : Nat} (hLe : k ≤ k') (hTop : k' ≤ h) (hOn : isEmaEnabled params c k = true) :
    isEmaEnabled params c k' = true := by
  induction k', hLe using Nat.le_induction with
  | base => exact hOn
  | succ k' _ ih =>
    have hPrev := ih (by omega)
    have hMedian := c.medianTimePast_le_succ (hTimes k' (by omega)).le
    rw [isEmaEnabled, decide_eq_true_iff] at hPrev ⊢
    exact hPrev.trans hMedian

theorem emaBlock_lowest (params : Params) (c : BlockChain) (h : Nat)
    (hTimes : ∀ k < h, c.medianTimePast k < c.nTime (k + 1)) :
    (Reaches (fun b (_ : Unit) => emaStep params c b) h (emaBlock params c h) ∧
      emaStep params c (emaBlock params c h) = none) ∧
    (isEmaEnabled params c h = true →
      emaBlock params c h ≤ h ∧ isEmaEnabled params c (emaBlock params c h) = true ∧
        ∀ k < emaBlock params c h, isEmaEnabled params c k = false) := by
  refine ⟨emaWalk_reaches le_rfl, fun hOn => ?_⟩
  obtain ⟨hLe, hFirst, hLast⟩ := emaWalk_of_enabled le_rfl hOn
  refine ⟨hLe, hFirst, fun k hk => ?_⟩
  by_contra hEarlier
  rw [Bool.not_eq_false] at hEarlier
  rcases hLast with hZero | hOff
  · rw [emaBlock, hZero] at hk
    exact absurd hk (Nat.not_lt_zero k)
  · -- active at `k`, so active just before the end of the walk as well
    rw [emaBlock] at hk
    rw [isEmaEnabled_of_le hTimes (by omega : k ≤ _ - 1) (by omega) hEarlier] at hOff
    cases hOff

/-- A chain with a block a minute, and EMA active from the median of 600. -/
theorem emaBlock_lowest_minutes :
    let c := BlockChain.ofTimes fun h => 60 * (h : Int)
    (∀ k < 30, c.medianTimePast k < c.nTime (k + 1)) ∧
    emaBlock ⟨144, 1, 600⟩ c 30 = 15 ∧
    ∀ k < emaBlock ⟨144, 1, 600⟩ c 30, isEmaEnabled ⟨144, 1, 600⟩ c k = false := by
  have hTimes : ∀ k < 30, (BlockChain.ofTimes fun h => 60 * (h : Int)).medianTimePast k <
      (BlockChain.ofTimes fun h => 60 * (h : Int)).nTime (k + 1) := by decide +kernel
  exact ⟨hTimes, by decide +kernel,
    ((emaBlock_lowest ⟨144, 1, 600⟩ _ 30 hTimes).2 (by decide +kernel)).2.2⟩

/-! ## The order of subsidies -/

/-- The decayed work in units of the calibration, before it is narrowed. -/
def calibratedWork (params : Params) (c : BlockChain) (pindexPrev target nHeight : Nat) : Nat :=
  let work := ((2 ^ 256 - 1 - target) / ((target + 1) % 2 ^ 256) + 1) % 2 ^ 256
  (decayMultipliers params c pindexPrev nHeight).foldl
    (fun work multiplier => work * multiplier % 2 ^ 256 / 100000) work / params.nValueCalibration

variable {nBits : Nat}

/-- The two models of `SetCompact` agree. -/
theorem setCompact_eq_some (hNegative : (ArithUint256.setCompact nBits).fNegative = false)
    (hOverflow : (ArithUint256.setCompact nBits).fOverflow = false) :
    setCompact nBits = some (ArithUint256.setCompact nBits).target.toNat := by
  have hSize : nBits >>> 24 = nBits / 2 ^ 24 := Nat.shiftRight_eq_div_pow nBits 24
  have hMantissa : nBits &&& 0x007fffff = nBits % 2 ^ 23 := Nat.and_two_pow_sub_one_eq_mod nBits 23
  have hLt : nBits % 2 ^ 23 < 2 ^ 23 := Nat.mod_lt _ (Nat.two_pow_pos 23)
  simp only [ArithUint256.setCompact, hSize, hMantissa, Nat.shiftRight_eq_div_pow,
    ArithUint256.and_sign_ne_zero_iff, Bool.and_eq_false_iff, Bool.or_eq_false_iff,
    decide_eq_false_iff_not] at hNegative hOverflow ⊢
  have hFlags : ¬ (((if nBits / 2 ^ 24 ≤ 3 then nBits % 2 ^ 23 / 2 ^ (8 * (3 - nBits / 2 ^ 24))
      else nBits % 2 ^ 23) ≠ 0 ∧ nBits / 2 ^ 23 % 2 = 1) ∨
      ((if nBits / 2 ^ 24 ≤ 3 then nBits % 2 ^ 23 / 2 ^ (8 * (3 - nBits / 2 ^ 24))
        else nBits % 2 ^ 23) ≠ 0 ∧ (34 < nBits / 2 ^ 24 ∨
        (0xff < (if nBits / 2 ^ 24 ≤ 3 then nBits % 2 ^ 23 / 2 ^ (8 * (3 - nBits / 2 ^ 24))
          else nBits % 2 ^ 23) ∧ 33 < nBits / 2 ^ 24) ∨
        (0xffff < (if nBits / 2 ^ 24 ≤ 3 then nBits % 2 ^ 23 / 2 ^ (8 * (3 - nBits / 2 ^ 24))
          else nBits % 2 ^ 23) ∧ 32 < nBits / 2 ^ 24)))) := by
    tauto
  rw [setCompact, if_neg hFlags]
  refine congrArg some ?_
  split
  · next hShort =>
    have hWord : nBits % 2 ^ 23 / 2 ^ (8 * (3 - nBits / 2 ^ 24)) < 2 ^ 64 :=
      (Nat.div_le_self _ _).trans_lt (by omega)
    rw [ArithUint256.toNat_ofUint64 hWord]
  · rw [ArithUint256.toNat_shiftLeft, ArithUint256.toNat_ofUint64 (by omega)]

variable {powLimit : ArithUint256}

theorem getBlockSubsidy_eq (hRange : targetInRange powLimit nBits = true) (h nHeight : Nat) :
    getBlockSubsidy params c h nBits nHeight =
      toAmount
        (calibratedWork params c h (ArithUint256.setCompact nBits).target.toNat nHeight) := by
  obtain ⟨hNegative, hOverflow, hPos, -⟩ := targetInRange_iff.mp hRange
  rw [getBlockSubsidy, setCompact_eq_some hNegative hOverflow]
  generalize (ArithUint256.setCompact nBits).target.toNat = target at *
  cases target with
  | zero => cases hPos
  | succ target => rfl

/-- The decay of a work that does not wrap keeps the order and does not raise the work. -/
theorem decay_mono {multipliers : List Nat} (hAll : ∀ m ∈ multipliers, m ≤ 99918) :
    ∀ {w w' : Nat}, w' ≤ w → w * 99918 < 2 ^ 256 →
      multipliers.foldl (fun work m => work * m % 2 ^ 256 / 100000) w' ≤
        multipliers.foldl (fun work m => work * m % 2 ^ 256 / 100000) w := by
  induction multipliers with
  | nil => exact fun hLe _ => hLe
  | cons m multipliers ih =>
    rw [forall_mem_cons] at hAll
    intro w w' hLe hFits
    have hProduct : w * m ≤ w * 99918 := Nat.mul_le_mul_left w hAll.1
    have hProduct' : w' * m ≤ w * m := Nat.mul_le_mul_right m hLe
    rw [foldl_cons, foldl_cons, Nat.mod_eq_of_lt (by omega), Nat.mod_eq_of_lt (by omega)]
    refine ih hAll.2 (Nat.div_le_div_right hProduct') ?_
    have hLess : w * m / 100000 ≤ w := by
      refine Nat.div_le_of_le_mul ?_
      omega
    exact (Nat.mul_le_mul_right _ hLess).trans_lt hFits

theorem decayMultipliers_le (h nHeight : Nat) :
    ∀ m ∈ decayMultipliers params c h nHeight, m ≤ 99918 := by
  intro m hm
  rw [decayMultipliers] at hm
  obtain ⟨a, -, rfl⟩ := mem_map.mp hm
  split <;> omega

/-- The narrowing keeps the order of amounts whose 64th bit is clear. -/
theorem toAmount_order_iff (a b : Nat) :
    (toAmount b ≤ toAmount a ∧ 0 ≤ toAmount a ∧ 0 ≤ toAmount b) ↔
      a % 2 ^ 64 < 2 ^ 63 ∧ b % 2 ^ 64 ≤ a % 2 ^ 64 := by
  simp only [toAmount]
  constructor
  · rintro ⟨hLe, ha, hb⟩
    split at ha <;> split at hb <;> omega
  · rintro ⟨ha, hLe⟩
    rw [if_pos ha, if_pos (hLe.trans_lt ha)]
    omega

/-- The work of an accepted target, in the source's two steps. -/
theorem workOf_eq (hRange : targetInRange powLimit nBits = true) :
    ((2 ^ 256 - 1 - (ArithUint256.setCompact nBits).target.toNat) /
        (((ArithUint256.setCompact nBits).target.toNat + 1) % 2 ^ 256) + 1) % 2 ^ 256 =
      2 ^ 256 / ((ArithUint256.setCompact nBits).target.toNat + 1) := by
  obtain ⟨-, -, hPos, -⟩ := targetInRange_iff.mp hRange
  have hLt := setCompact_target_lt nBits
  generalize (ArithUint256.setCompact nBits).target.toNat = target at *
  have hHalf : 2 ^ 256 / (target + 1) ≤ 2 ^ 256 / 2 := Nat.div_le_div_left (by omega) (by omega)
  rw [Nat.mod_eq_of_lt hLt, ← Nat.add_div_right _ (by omega : 0 < target + 1),
    show 2 ^ 256 - 1 - target + (target + 1) = 2 ^ 256 by omega, Nat.mod_eq_of_lt (by omega)]

end Ergon.Node
