import Mathlib.Tactic

/-!
# Ergon — the block subsidy

`GetBlockSubsidy` (`validation.cpp`) with the chain index it walks (`chain.{h,cpp}`,
`consensus/activation.cpp`). A block index on a fixed chain is its height. The
subsidy is the work of the block, decayed once for each completed interval: by
99826 / 100000 for intervals before the one in which EMA became active, by
99918 / 100000 from then on.

* `BlockChain.pskip_eq` — the skip pointers lead to the heights they should;
* `emaBlock_spec` — what the walk back to the activation finds;
* `decayMultipliers_prefix_iff` — when the decay of completed intervals is the
  same at a later height. It is not at the first block of an interval before
  the activation, which counts the interval just completed as one after it.
-/

namespace Ergon.Node

open List

/-! ## The chain index -/

/-- Clear the lowest set bit. -/
def invertLowestOne (n : Nat) : Nat := n &&& (n - 1)

def getSkipHeight (height : Nat) : Nat :=
  if height < 2 then 0
  else if height % 2 = 1 then invertLowestOne (invertLowestOne (height - 1)) + 1
  else invertLowestOne height

/-- The walk of `GetAncestor`, from the block `pindexWalk` at `heightWalk`. -/
def ancestorWalk (pskip : Nat → Option Nat) (height : Nat) : Nat → Nat → Nat → Nat
  | 0, pindexWalk, _ => pindexWalk
  | fuel + 1, pindexWalk, heightWalk =>
    if heightWalk ≤ height then pindexWalk
    else
      let heightSkip := getSkipHeight heightWalk
      let heightSkipPrev := getSkipHeight (heightWalk - 1)
      match pskip pindexWalk with
      | some skip =>
        -- only follow the pointer if that of the previous block is not better
        if heightSkip = height ∨ (height < heightSkip ∧
            ¬ (heightSkipPrev + 2 < heightSkip ∧ height ≤ heightSkipPrev)) then
          ancestorWalk pskip height fuel skip heightSkip
        else ancestorWalk pskip height fuel (pindexWalk - 1) (heightWalk - 1)
      | none => ancestorWalk pskip height fuel (pindexWalk - 1) (heightWalk - 1)

def getAncestor (pskip : Nat → Option Nat) (pindex height : Nat) : Option Nat :=
  if pindex < height then none else some (ancestorWalk pskip height pindex pindex pindex)

/-- A chain of block indexes whose skip pointers were set by `BuildSkip`. -/
structure BlockChain where
  nTime : Nat → Int
  pskip : Nat → Option Nat
  pskip_zero : pskip 0 = none
  pskip_succ : ∀ h, pskip (h + 1) = getAncestor pskip h (getSkipHeight (h + 1))

theorem invertLowestOne_le (n : Nat) : invertLowestOne n ≤ n - 1 := Nat.and_le_right

theorem getSkipHeight_lt {height : Nat} (h : 0 < height) : getSkipHeight height < height := by
  rw [getSkipHeight]
  have hTwice := invertLowestOne_le (invertLowestOne (height - 1))
  have hOnce := invertLowestOne_le (height - 1)
  have hEven := invertLowestOne_le height
  split_ifs <;> omega

theorem ancestorWalk_eq {pskip : Nat → Option Nat} {height : Nat} :
    ∀ {fuel h : Nat}, height ≤ h → h ≤ fuel + height →
      (∀ k, 0 < k → k ≤ h → pskip k = some (getSkipHeight k)) →
      ancestorWalk pskip height fuel h h = height
  | 0, h, hLe, hFuel, _ => by
    rw [ancestorWalk]
    omega
  | fuel + 1, h, hLe, hFuel, hSkip => by
    rw [ancestorWalk]
    split
    · omega
    · next hAbove =>
      have hLt := getSkipHeight_lt (by omega : 0 < h)
      rw [hSkip h (by omega) le_rfl]
      dsimp only
      split
      · -- the skip pointer does not pass the target
        exact ancestorWalk_eq (by omega) (by omega) fun k hk hkh => hSkip k hk (by omega)
      · exact ancestorWalk_eq (by omega) (by omega) fun k hk hkh => hSkip k hk (by omega)

theorem getAncestor_eq {pskip : Nat → Option Nat} {height h : Nat} (hLe : height ≤ h)
    (hSkip : ∀ k, 0 < k → k ≤ h → pskip k = some (getSkipHeight k)) :
    getAncestor pskip h height = some height := by
  rw [getAncestor, if_neg (by omega), ancestorWalk_eq hLe (by omega) hSkip]

namespace BlockChain

theorem pskip_eq (c : BlockChain) {h : Nat} (hPos : 0 < h) :
    c.pskip h = some (getSkipHeight h) := by
  induction h using Nat.strong_induction_on with
  | _ h ih =>
    cases h with
    | zero => exact absurd hPos (Nat.lt_irrefl 0)
    | succ k =>
      have hLt := getSkipHeight_lt hPos
      rw [c.pskip_succ]
      exact getAncestor_eq (by omega) fun j hj hjk => ih j (by omega) hj

/-- The chain with given times. -/
def ofTimes (nTime : Nat → Int) : BlockChain where
  nTime := nTime
  pskip h := if h = 0 then none else some (getSkipHeight h)
  pskip_zero := if_pos rfl
  pskip_succ h := by
    have hLt : getSkipHeight (h + 1) < h + 1 := getSkipHeight_lt (Nat.succ_pos h)
    rw [if_neg (Nat.succ_ne_zero h), getAncestor_eq (by omega)]
    intro k hk _
    rw [if_neg (by omega)]

def medianTimeSpan : Nat := 11

/-- The middle of the last eleven times, or of all if there are fewer. -/
def medianTimePast (c : BlockChain) (h : Nat) : Int :=
  let times := (List.range (min medianTimeSpan (h + 1))).map fun i => c.nTime (h - i)
  (times.insertionSort (· ≤ ·))[times.length / 2]?.getD 0

end BlockChain

/-! ## The subsidy -/

structure Params where
  nSubsidyHalvingInterval : Nat
  nValueCalibration : Nat
  -- `-emaactivationtime` or `emaDAATime`
  emaActivationTime : Int
deriving DecidableEq

variable (params : Params) (c : BlockChain)

def isEmaEnabled (pindexPrev : Nat) : Bool :=
  decide (params.emaActivationTime ≤ c.medianTimePast pindexPrev)

/-- Walk back to the first block with EMA; each step goes down, so `fuel` of the
height is enough. -/
def emaWalk : Nat → Nat → Nat
  | 0, emaBlock => emaBlock
  | fuel + 1, emaBlock =>
    if emaBlock = 0 then emaBlock
    else if (c.pskip emaBlock).any (isEmaEnabled params c) then
      emaWalk fuel ((c.pskip emaBlock).getD 0)
    else if !isEmaEnabled params c (emaBlock - 1) then emaBlock
    else emaWalk fuel (emaBlock - 1)

def emaBlock (pindexPrev : Nat) : Nat := emaWalk params c pindexPrev pindexPrev

/-- The decay of each completed interval, in parts of 100000. -/
def decayMultipliers (pindexPrev nHeight : Nat) : List Nat :=
  let divisions := nHeight / params.nSubsidyHalvingInterval
  let emaHeight := emaBlock params c pindexPrev / params.nSubsidyHalvingInterval
  (List.range divisions).map fun a => if a < emaHeight then 99826 else 99918

/-- The target a compact number stands for, `none` if it is negative or too
large. -/
def setCompact (nCompact : Nat) : Option Nat :=
  let nSize := nCompact / 2 ^ 24
  let nWord := nCompact % 2 ^ 23
  let word := if nSize ≤ 3 then nWord / 2 ^ (8 * (3 - nSize)) else nWord
  let target := if nSize ≤ 3 then word else word * 2 ^ (8 * (nSize - 3)) % 2 ^ 256
  let fNegative := word ≠ 0 ∧ nCompact / 2 ^ 23 % 2 = 1
  let fOverflow := word ≠ 0 ∧
    (34 < nSize ∨ (0xff < word ∧ 33 < nSize) ∨ (0xffff < word ∧ 32 < nSize))
  if fNegative ∨ fOverflow then none else some target

/-- The low 64 bits of a number, as a signed amount. -/
def toAmount (work : Nat) : Int :=
  let low : Nat := work % 2 ^ 64
  if low < 2 ^ 63 then (low : Int) else (low : Int) - 2 ^ 64

def getBlockSubsidy (pindexPrev nBits nHeight : Nat) : Int :=
  match setCompact nBits with
  | none => 0
  | some 0 => 0
  | some target =>
    -- 256-bit arithmetic throughout
    let work := ((2 ^ 256 - 1 - target) / ((target + 1) % 2 ^ 256) + 1) % 2 ^ 256
    let decayed := (decayMultipliers params c pindexPrev nHeight).foldl
      (fun work multiplier => work * multiplier % 2 ^ 256 / 100000) work
    toAmount (decayed / params.nValueCalibration)

/-! ## Where the walk ends -/

variable {params c}

/-- EMA stays active once it is. -/
def EmaMonotone (params : Params) (c : BlockChain) : Prop :=
  ∀ h, isEmaEnabled params c h = true → isEmaEnabled params c (h + 1) = true

theorem EmaMonotone.le (hMono : EmaMonotone params c) {h h' : Nat} (hLe : h ≤ h')
    (hOn : isEmaEnabled params c h = true) : isEmaEnabled params c h' = true := by
  induction h', hLe using Nat.le_induction with
  | base => exact hOn
  | succ k _ ih => exact hMono k ih

theorem emaWalk_of_not_enabled (hMono : EmaMonotone params c) {h fuel : Nat}
    (hOff : isEmaEnabled params c h = false) : emaWalk params c fuel h = h := by
  -- nothing below is active either, so the walk stops at once
  have hBelow : ∀ k ≤ h, isEmaEnabled params c k = false := by
    intro k hk
    by_contra hOn
    rw [Bool.not_eq_false] at hOn
    rw [hMono.le hk hOn] at hOff
    cases hOff
  cases fuel with
  | zero => rfl
  | succ fuel =>
    rw [emaWalk]
    split
    · rfl
    · next hNe =>
      have hLt := getSkipHeight_lt (Nat.pos_of_ne_zero hNe)
      rw [c.pskip_eq (Nat.pos_of_ne_zero hNe), Option.any_some, hBelow _ hLt.le,
        hBelow (h - 1) (Nat.sub_le h 1)]
      rfl

theorem emaWalk_of_enabled : ∀ {fuel h : Nat}, h ≤ fuel → isEmaEnabled params c h = true →
    emaWalk params c fuel h ≤ h ∧ isEmaEnabled params c (emaWalk params c fuel h) = true ∧
      (emaWalk params c fuel h = 0 ∨
        isEmaEnabled params c (emaWalk params c fuel h - 1) = false)
  | 0, h, hFuel, hOn => by
    rw [emaWalk]
    exact ⟨le_rfl, hOn, .inl (by omega)⟩
  | fuel + 1, h, hFuel, hOn => by
    rw [emaWalk]
    split
    · next hZero => exact ⟨le_rfl, hOn, .inl hZero⟩
    · next hNe =>
      have hLt := getSkipHeight_lt (Nat.pos_of_ne_zero hNe)
      rw [c.pskip_eq (Nat.pos_of_ne_zero hNe), Option.any_some, Option.getD_some]
      split
      · next hSkip =>
        obtain ⟨hLe, hRest⟩ := @emaWalk_of_enabled fuel (getSkipHeight h) (by omega) hSkip
        exact ⟨hLe.trans hLt.le, hRest⟩
      · split
        · next hPrev => exact ⟨le_rfl, hOn, .inr (by simpa using hPrev)⟩
        · next hPrev =>
          obtain ⟨hLe, hRest⟩ := @emaWalk_of_enabled fuel (h - 1) (by omega) (by simpa using hPrev)
          exact ⟨hLe.trans (Nat.sub_le h 1), hRest⟩

/-- Where EMA is active the walk finds the first block of it; elsewhere it stays
where it is. -/
theorem emaBlock_spec (hMono : EmaMonotone params c) (h : Nat) :
    (isEmaEnabled params c h = false → emaBlock params c h = h) ∧
    (isEmaEnabled params c h = true → ∀ k, isEmaEnabled params c k = true ↔
      emaBlock params c h ≤ k) := by
  refine ⟨emaWalk_of_not_enabled hMono, fun hOn k => ?_⟩
  obtain ⟨_, hFirst, hLast⟩ := emaWalk_of_enabled le_rfl hOn
  constructor
  · intro hk
    by_contra hLt
    rcases hLast with hZero | hOff
    · rw [emaBlock, hZero] at hLt
      exact hLt (Nat.zero_le k)
    · rw [hMono.le (by rw [emaBlock] at hLt; omega) hk] at hOff
      cases hOff
  · exact fun hLe => hMono.le hLe hFirst

/-! ## Completed intervals -/

theorem map_range_prefix_iff {α : Type} {f g : Nat → α} {n k : Nat} (hLe : n ≤ k) :
    (List.range n).map f <+: (List.range k).map g ↔ ∀ a < n, f a = g a := by
  rw [prefix_iff_eq_take, length_map, length_range, ← map_take,
    take_range, Nat.min_eq_left hLe, map_inj_left]
  simp only [mem_range]

theorem decayMultipliers_prefix_iff (hMono : EmaMonotone params c) {h₁ h₂ : Nat} (hPos : 1 ≤ h₁)
    (hLe : h₁ ≤ h₂) :
    decayMultipliers params c (h₁ - 1) h₁ <+: decayMultipliers params c (h₂ - 1) h₂ ↔
      h₁ = h₂ ∨ ¬ params.nSubsidyHalvingInterval ∣ h₁ ∨ isEmaEnabled params c (h₁ - 1) = true := by
  generalize hi : params.nSubsidyHalvingInterval = i at *
  have hSame : decayMultipliers params c (h₁ - 1) h₁ <+: decayMultipliers params c (h₂ - 1) h₂ ↔
      ∀ a < h₁ / i, a < emaBlock params c (h₁ - 1) / i ↔ a < emaBlock params c (h₂ - 1) / i := by
    rw [decayMultipliers, decayMultipliers, hi, map_range_prefix_iff (Nat.div_le_div_right hLe)]
    refine forall₂_congr fun a _ => ?_
    by_cases hEarly : a < emaBlock params c (h₁ - 1) / i <;>
      by_cases hLate : a < emaBlock params c (h₂ - 1) / i <;> simp [hEarly, hLate]
  rw [hSame]
  obtain ⟨hStay, hFirst⟩ := emaBlock_spec hMono (h₁ - 1)
  obtain ⟨hStay', hFirst'⟩ := emaBlock_spec hMono (h₂ - 1)
  cases hOn : isEmaEnabled params c (h₁ - 1) with
  | true =>
    -- both walks end at the activation
    have hOn' := hMono.le (by omega : h₁ - 1 ≤ h₂ - 1) hOn
    have hEq : emaBlock params c (h₁ - 1) = emaBlock params c (h₂ - 1) :=
      le_antisymm ((hFirst hOn _).mp ((hFirst' hOn' _).mpr le_rfl))
        ((hFirst' hOn' _).mp ((hFirst hOn _).mpr le_rfl))
    simp [hEq]
  | false =>
    rw [hStay hOn]
    -- the later walk ends above the earlier parent
    have hAbove : h₁ < h₂ → h₁ ≤ emaBlock params c (h₂ - 1) := by
      intro hLt
      cases hOn' : isEmaEnabled params c (h₂ - 1) with
      | false =>
        rw [hStay' hOn']
        omega
      | true =>
        by_contra hBelow
        have hEarly := (hFirst' hOn' (h₁ - 1)).mpr (by omega)
        rw [hOn] at hEarly
        cases hEarly
    rcases hLe.eq_or_lt with rfl | hLt
    · simp [hStay hOn]
    · have hGe : h₁ / i ≤ emaBlock params c (h₂ - 1) / i := Nat.div_le_div_right (hAbove hLt)
      have hSucc : h₁ / i = (h₁ - 1) / i + if i ∣ h₁ then 1 else 0 := by
        have hDiv := @Nat.succ_div (h₁ - 1) i
        rwa [Nat.sub_add_cancel hPos] at hDiv
      simp only [hLt.ne, false_or, Bool.false_eq_true, or_false]
      constructor
      · -- the interval that ends at `h₁` counts as one after the activation
        intro hAll hDvd
        rw [if_pos hDvd] at hSucc
        have hLast := hAll ((h₁ - 1) / i) (by omega)
        omega
      · intro hNot a ha
        rw [if_neg hNot] at hSucc
        omega

/-! A chain on which EMA never becomes active, with the intervals of the main
network. -/

def mainParams : Params := ⟨144, 7100000000000, 1659182400⟩

def flatChain : BlockChain := .ofTimes fun _ => 0

theorem flatChain_not_enabled (h : Nat) : isEmaEnabled mainParams flatChain h = false := by
  have hMedian : flatChain.medianTimePast h = 0 := by
    simp only [BlockChain.medianTimePast]
    cases hMiddle : (((List.range (min BlockChain.medianTimeSpan (h + 1))).map fun i =>
      flatChain.nTime (h - i)).insertionSort (· ≤ ·))[((List.range (min BlockChain.medianTimeSpan
        (h + 1))).map fun i => flatChain.nTime (h - i)).length / 2]? with
    | none => rfl
    | some t =>
      have hMem := (mem_insertionSort _).mp (mem_of_getElem? hMiddle)
      obtain ⟨i, _, hTime⟩ := mem_map.mp hMem
      exact hTime.symm
  rw [isEmaEnabled, hMedian]
  decide

theorem flatChain_monotone : EmaMonotone mainParams flatChain := by
  intro h hOn
  rw [flatChain_not_enabled] at hOn
  cases hOn

theorem flatChain_first_interval :
    decayMultipliers mainParams flatChain (144 - 1) 144 <+:
        decayMultipliers mainParams flatChain (145 - 1) 145 ↔
      144 = 145 ∨ ¬ mainParams.nSubsidyHalvingInterval ∣ 144 ∨
        isEmaEnabled mainParams flatChain (144 - 1) = true :=
  decayMultipliers_prefix_iff flatChain_monotone (by decide) (by decide)

/-- The multiplier of the first interval changes from one block to the next. -/
theorem flatChain_decay_changes : EmaMonotone mainParams flatChain ∧
    decayMultipliers mainParams flatChain 143 144 = [99918] ∧
      decayMultipliers mainParams flatChain 144 145 = [99826] :=
  ⟨flatChain_monotone, by decide +kernel, by decide +kernel⟩

end Ergon.Node
