import Ergon.Lib.Ancestors
import Ergon.Lib.Machine
import Ergon.Lib.Result
import Ergon.Node.Subsidy

/-!
# Ergon — the tree of block indexes

`CBlockIndex`, `LastCommonAncestor` and `CChain` (`chain.{h,cpp}`) on the tree that
`AddToBlockIndex` (`validation.cpp`) builds. A pointer to a block index is its position
in the list of all of them, in the order in which they were added. An index is
added after its parent, with the skip pointer `BuildSkip` gives it. The active
chain is the vector `SetTip` overwrites from the tip down, until it meets what
is there already.

The walks follow skip pointers where they can. A failed `assert` is
`Abort.assertion`, which is not a null pointer. The counter of source generations
that `SetTip` advances is no part of this module.

* `Linked` — what adding an index keeps: parents one lower, skip pointers to the
  ancestors at their skip heights;
* `getAncestor_eq`, `lastCommonAncestor_eq`, `CChain.pathTo_setTip`, `CChain.findFork_eq` —
  what the walks return;
* `chainState_ancestors` — all of them, after any sequence of new indexes and tips.
-/

namespace Ergon.Node

open Lib List

namespace BlockTree

structure BlockIndex where
  pprev : Option Nat
  pskip : Option Nat
  nHeight : Nat
deriving DecidableEq

inductive Abort
  | assertion
deriving DecidableEq

/-- The genesis block has no parent, and `BuildSkip` leaves its skip pointer null. -/
def genesis : BlockIndex := ⟨none, none, 0⟩

section Source

variable (t : List BlockIndex)

def pprev (p : Nat) : Option Nat := t[p]? >>= BlockIndex.pprev

def pskip (p : Nat) : Option Nat := t[p]? >>= BlockIndex.pskip

def nHeight (p : Nat) : Nat :=
  match t[p]? with
  | some index => index.nHeight
  | none => 0

/-- The loop of `GetAncestor`, from `pindexWalk` at `heightWalk`. -/
def getAncestorLoop (height : Nat) : Nat → Nat → Nat → Except Abort Nat
  | 0, pindexWalk, _ => .ok pindexWalk
  | fuel + 1, pindexWalk, heightWalk =>
    if heightWalk ≤ height then .ok pindexWalk
    else
      let heightSkip := getSkipHeight heightWalk
      let heightSkipPrev := getSkipHeight (heightWalk - 1)
      -- only follow pskip if pprev->pskip isn't better than pskip->pprev
      let skip :=
        if heightSkip = height ∨ (height < heightSkip ∧
            ¬ (heightSkipPrev + 2 < heightSkip ∧ height ≤ heightSkipPrev)) then
          pskip t pindexWalk
        else none
      match skip with
      | some pindexSkip => getAncestorLoop height fuel pindexSkip heightSkip
      | none =>
        match pprev t pindexWalk with
        | some pindexPrev => getAncestorLoop height fuel pindexPrev (heightWalk - 1)
        | none => .error .assertion

def getAncestor (pindex : Nat) (height : Int) : Except Abort (Option Nat) :=
  if (nHeight t pindex : Int) < height ∨ height < 0 then .ok none
  else (getAncestorLoop t height.toNat (nHeight t pindex) pindex (nHeight t pindex)).map some

/-- A new index above `prev`, with its skip pointer (`BuildSkip`). -/
def addToBlockIndex (prev : Nat) : Except Abort (List BlockIndex) := do
  let height := nHeight t prev + 1
  let skip ← getAncestor t prev (getSkipHeight height)
  return t ++ [⟨some prev, skip, height⟩]

/-- The skip pointers of two blocks, if neither is null and they differ. -/
def bothSkip (pa pb : Nat) : Option (Nat × Nat) := do
  let skipA ← pskip t pa
  let skipB ← pskip t pb
  if skipA ≠ skipB then some (skipA, skipB) else none

/-- The loop of `LastCommonAncestor`, with the assertion after it. -/
def commonLoop : Nat → Option Nat → Option Nat → Except Abort (Option Nat)
  | fuel + 1, some pa, some pb =>
    if pa = pb then .ok (some pa)
    else
      match bothSkip t pa pb with
      | some (skipA, skipB) =>
        if nHeight t skipA = nHeight t skipB then commonLoop fuel (some skipA) (some skipB)
        else .error .assertion
      | none => commonLoop fuel (pprev t pa) (pprev t pb)
  | _, pa, pb => if pa = pb then .ok pa else .error .assertion

/-- The ancestor at `height` of a block above it. -/
def lowered (pindex : Nat) (height : Int) : Except Abort (Option Nat) :=
  if height < nHeight t pindex then getAncestor t pindex height else .ok (some pindex)

def lastCommonAncestor (pa pb : Nat) : Except Abort (Option Nat) := do
  let pa' ← lowered t pa (nHeight t pb)
  let pb' ← lowered t pb (nHeight t pa)
  commonLoop t (min (nHeight t pa) (nHeight t pb) + 1) pa' pb'

end Source

/-! ## The active chain -/

structure CChain where
  vChain : List (Option Nat)
deriving DecidableEq

namespace CChain

variable (t : List BlockIndex) (chain : CChain)

def tip : Option Nat := chain.vChain.getLast?.join

/-- `operator[]`, at the height of an index. -/
def get (height : Nat) : Option Nat := chain.vChain[height]?.join

def contains (pindex : Nat) : Bool := chain.get (nHeight t pindex) = some pindex

/-- The empty chain has height `-1`. -/
def height : Int := chain.vChain.length - 1

/-- `std::vector::resize`: new entries are null. -/
def resize (vChain : List (Option Nat)) (n : Nat) : List (Option Nat) :=
  vChain.take n ++ List.replicate (n - vChain.length) none

def setTipLoop : Nat → List (Option Nat) → Option Nat → List (Option Nat)
  | fuel + 1, vChain, some pindex =>
    if vChain[nHeight t pindex]? = some (some pindex) then vChain
    else setTipLoop fuel (vChain.set (nHeight t pindex) (some pindex)) (pprev t pindex)
  | _, vChain, _ => vChain

def setTip : Option Nat → CChain
  | none => ⟨[]⟩
  | some pindex =>
    let height := nHeight t pindex
    ⟨setTipLoop t (height + 1) (resize chain.vChain (height + 1)) (some pindex)⟩

def findForkLoop : Nat → Option Nat → Option Nat
  | fuel + 1, some pindex =>
    if chain.contains t pindex then some pindex else findForkLoop fuel (pprev t pindex)
  | _, pindex => pindex

def findFork : Option Nat → Except Abort (Option Nat)
  | none => .ok none
  | some pindex => do
    let start ← lowered t pindex chain.height
    return findForkLoop t chain (nHeight t pindex + 1) start

end CChain

/-! ## Ancestors -/

/-- What every tree built by `addToBlockIndex` satisfies. -/
structure Linked (t : List BlockIndex) : Prop where
  genesis : t[0]? = some genesis
  above : ∀ p, 0 < p → p < t.length → ∃ q skip,
    t[p]? = some ⟨some q, some skip, nHeight t q + 1⟩ ∧ q < t.length ∧
      up (pprev t) (nHeight t p - getSkipHeight (nHeight t p)) p = some skip

section Append

variable {t : List BlockIndex} {index : BlockIndex} {p : Nat}

theorem pprev_append (h : p < t.length) : pprev (t ++ [index]) p = pprev t p := by
  rw [pprev, pprev, getElem?_append_left h]

theorem nHeight_append (h : p < t.length) : nHeight (t ++ [index]) p = nHeight t p := by
  rw [nHeight, nHeight, getElem?_append_left h]

theorem pprev_last : pprev (t ++ [index]) t.length = index.pprev := by
  rw [pprev, getElem?_concat_length]
  rfl

theorem nHeight_last : nHeight (t ++ [index]) t.length = index.nHeight := by
  rw [nHeight, getElem?_concat_length]

end Append

namespace Linked

variable {t : List BlockIndex} {p : Nat}

theorem nHeight_genesis (hT : Linked t) : nHeight t 0 = 0 := by
  rw [nHeight, hT.genesis]
  rfl

theorem pos_of_nHeight_pos (hT : Linked t) (h : 0 < nHeight t p) : 0 < p := by
  by_contra hZero
  rw [show p = 0 by omega, hT.nHeight_genesis] at h
  omega

theorem of_pos (hT : Linked t) (hPos : 0 < p) (hp : p < t.length) :
    ∃ q skip, pprev t p = some q ∧ q < t.length ∧ nHeight t p = nHeight t q + 1 ∧
      pskip t p = some skip ∧
      up (pprev t) (nHeight t p - getSkipHeight (nHeight t p)) p = some skip := by
  obtain ⟨q, skip, hIndex, hq, hSkip⟩ := hT.above p hPos hp
  refine ⟨q, skip, ?_, hq, ?_, ?_, hSkip⟩
  · rw [pprev, hIndex]
    rfl
  · rw [nHeight, hIndex]
  · rw [pskip, hIndex]
    rfl

/-- All branches start at the genesis block. -/
theorem eq_genesis (hT : Linked t) (hp : p < t.length) (h : nHeight t p = 0) : p = 0 := by
  by_contra hNe
  obtain ⟨q, _, -, -, hHeight, -⟩ := hT.of_pos (Nat.pos_of_ne_zero hNe) hp
  omega

theorem graded (hT : Linked t) : Graded (· < t.length) (pprev t) (nHeight t) where
  parent_of_pos p hp hPos := by
    obtain ⟨q, _, hPrev, hq, hHeight, -⟩ := hT.of_pos (hT.pos_of_nHeight_pos hPos) hp
    exact ⟨q, hPrev, hq, hHeight.symm⟩
  parent_of_zero p hp hZero := by
    rw [hT.eq_genesis hp hZero, pprev, hT.genesis]
    rfl

end Linked

section Walk

variable {t : List BlockIndex} {p : Nat}

/-- The walk never passes the height it looks for, whichever pointer it follows. -/
theorem getAncestorLoop_eq (hT : Linked t) {height fuel : Nat} (hp : p < t.length)
    (hLe : height ≤ nHeight t p) (hFuel : nHeight t p ≤ fuel + height) :
    ∃ a, getAncestorLoop t height fuel p (nHeight t p) = .ok a ∧
      up (pprev t) (nHeight t p - height) p = some a := by
  induction fuel generalizing p with
  | zero =>
    refine ⟨p, rfl, ?_⟩
    rw [show nHeight t p - height = 0 by omega]
    rfl
  | succ fuel ih =>
    rw [getAncestorLoop]
    split
    · refine ⟨p, rfl, ?_⟩
      rw [show nHeight t p - height = 0 by omega]
      rfl
    next hAbove =>
    obtain ⟨q, skip, hPrev, hq, hHeight, hSkip, hUp⟩ :=
      hT.of_pos (hT.pos_of_nHeight_pos (by omega : 0 < nHeight t p)) hp
    have hLower := getSkipHeight_lt (by omega : 0 < nHeight t p)
    rw [hSkip, hPrev]
    dsimp only
    split
    · -- the skip pointer leads to the skip height, at or above the height looked for
      next hTaken =>
      split at hTaken
      · obtain rfl := Option.some.inj hTaken
        obtain ⟨hs, hAt⟩ := hT.graded.of_up hp hUp
        rw [show getSkipHeight (nHeight t p) = nHeight t skip by omega]
        obtain ⟨a, hLoop, hRest⟩ := ih hs (by omega) (by omega)
        refine ⟨a, hLoop, ?_⟩
        rw [← hRest, ← up_of_up hUp]
        congr 1
        omega
      · cases hTaken
    · rw [show nHeight t p - 1 = nHeight t q by omega]
      obtain ⟨a, hLoop, hRest⟩ := ih hq (by omega) (by omega)
      refine ⟨a, hLoop, ?_⟩
      rw [← hRest, ← up_succ_of_parent hPrev]
      congr 1
      omega

theorem getAncestor_eq_up (hT : Linked t) {height : Nat} (hp : p < t.length)
    (hLe : height ≤ nHeight t p) :
    ∃ a, getAncestor t p height = .ok (some a) ∧
      up (pprev t) (nHeight t p - height) p = some a := by
  obtain ⟨a, hLoop, hUp⟩ := getAncestorLoop_eq hT hp hLe (Nat.le_add_right _ _)
  refine ⟨a, ?_, hUp⟩
  rw [getAncestor, if_neg (by omega), Int.toNat_natCast, hLoop]
  rfl

/-- Adding an index never fails, and keeps the links. -/
theorem addToBlockIndex_ok (hT : Linked t) (hp : p < t.length) :
    ∃ index, addToBlockIndex t p = .ok (t ++ [index]) ∧ Linked (t ++ [index]) := by
  have hLower : getSkipHeight (nHeight t p + 1) < nHeight t p + 1 :=
    getSkipHeight_lt (Nat.succ_pos _)
  obtain ⟨skip, hSkip, hUp⟩ := getAncestor_eq_up hT hp (Nat.le_of_lt_succ hLower)
  refine ⟨⟨some p, some skip, nHeight t p + 1⟩, ?_, ?_, ?_⟩
  · rw [addToBlockIndex, hSkip]
    rfl
  · rw [getElem?_append_left (by omega), hT.genesis]
  · intro q hq hLt
    have hUps {r n : Nat} (hr : r < t.length) :
        up (pprev (t ++ [⟨some p, some skip, nHeight t p + 1⟩])) n r = up (pprev t) n r :=
      hT.graded.up_congr (fun _ => pprev_append) hr
    rw [length_append, length_singleton] at hLt ⊢
    rcases Nat.lt_succ_iff_lt_or_eq.mp hLt with hOld | rfl
    · -- an index that was there before
      obtain ⟨r, skip', hIndex, hr, hSkip'⟩ := hT.above q hq hOld
      refine ⟨r, skip', ?_, by omega, ?_⟩
      · rw [getElem?_append_left hOld, hIndex, nHeight_append hr]
      · rw [nHeight_append hOld, hUps hOld, hSkip']
    · -- the new one: its skip pointer was looked up from its parent
      refine ⟨p, skip, ?_, by omega, ?_⟩
      · rw [getElem?_concat_length, nHeight_append hp]
      · have hPrev : pprev (t ++ [⟨some p, some skip, nHeight t p + 1⟩]) t.length = some p :=
          pprev_last
        have hLevels : nHeight t p + 1 - getSkipHeight (nHeight t p + 1) =
            nHeight t p - getSkipHeight (nHeight t p + 1) + 1 := by omega
        rw [nHeight_last, hLevels]
        exact (up_succ_of_parent hPrev).trans ((hUps hp).trans hUp)

/-! ## The last common ancestor -/

/-- A common ancestor of two blocks of which no other is higher. -/
def DeepestCommon (t : List BlockIndex) (a b : Nat) : Nat → Prop :=
  IsDeepest (nHeight t) fun y => IsAncestor (pprev t) y a ∧ IsAncestor (pprev t) y b

/-- Two blocks of one height jump up together without passing a common ancestor. -/
theorem DeepestCommon.of_up (hT : Linked t) {a b a' b' m r : Nat} (ha : a < t.length)
    (hb : b < t.length) (hSame : nHeight t a = nHeight t b) (hA : up (pprev t) m a = some a')
    (hB : up (pprev t) m b = some b') (hApart : ∀ k < m, up (pprev t) k a ≠ up (pprev t) k b)
    (h : DeepestCommon t a' b' r) : DeepestCommon t a b r := by
  obtain ⟨⟨hrA, hrB⟩, hDeepest⟩ := h
  refine ⟨⟨hrA.of_up hA, hrB.of_up hB⟩, ?_⟩
  rintro y ⟨hyA, hyB⟩
  exact hDeepest y (hT.graded.common_of_up ha hb hSame hA hB hApart hyA hyB)

theorem bothSkip_eq_some {a b skipA skipB : Nat} (h : bothSkip t a b = some (skipA, skipB)) :
    pskip t a = some skipA ∧ pskip t b = some skipB ∧ skipA ≠ skipB := by
  obtain ⟨sa, hsa, h⟩ := Option.bind_eq_some_iff.mp h
  obtain ⟨sb, hsb, h⟩ := Option.bind_eq_some_iff.mp h
  split at h
  · next hNe =>
    cases h
    exact ⟨hsa, hsb, hNe⟩
  · cases h

theorem commonLoop_eq (hT : Linked t) {fuel a b : Nat} (ha : a < t.length) (hb : b < t.length)
    (hSame : nHeight t a = nHeight t b) (hFuel : nHeight t a < fuel) :
    ∃ r, commonLoop t fuel (some a) (some b) = .ok (some r) ∧ DeepestCommon t a b r := by
  induction fuel generalizing a b with
  | zero => omega
  | succ fuel ih =>
    rw [commonLoop]
    by_cases hEq : a = b
    · subst hEq
      rw [if_pos rfl]
      exact ⟨a, rfl, ⟨.refl, .refl⟩, fun y hy => hT.graded.height_le ha hy.1⟩
    rw [if_neg hEq]
    -- both are above the genesis block, since there is only one
    have hPos : 0 < nHeight t a := by
      by_contra hZero
      exact hEq ((hT.eq_genesis ha (by omega)).trans (hT.eq_genesis hb (by omega)).symm)
    obtain ⟨qa, _, hPrevA, hqa, hHeightA, hSkipA, hUpA⟩ := hT.of_pos (hT.pos_of_nHeight_pos hPos) ha
    obtain ⟨qb, _, hPrevB, hqb, hHeightB, hSkipB, hUpB⟩ :=
      hT.of_pos (hT.pos_of_nHeight_pos (hSame ▸ hPos)) hb
    cases hBoth : bothSkip t a b with
    | some skips =>
      obtain ⟨sa, sb⟩ := skips
      obtain ⟨hsa, hsb, hNe⟩ := bothSkip_eq_some hBoth
      obtain rfl := Option.some.inj (hsa.symm.trans hSkipA)
      obtain rfl := Option.some.inj (hsb.symm.trans hSkipB)
      rw [← hSame] at hUpB
      obtain ⟨hLtA, hAtA⟩ := hT.graded.of_up ha hUpA
      obtain ⟨hLtB, hAtB⟩ := hT.graded.of_up hb hUpB
      have hLower := getSkipHeight_lt hPos
      dsimp only
      rw [if_pos (by omega)]
      obtain ⟨r, hLoop, hDeepest⟩ := ih hLtA hLtB (by omega) (by omega)
      -- had they met before the skip heights, the skip pointers would be the same
      refine ⟨r, hLoop, hDeepest.of_up hT ha hb hSame hUpA hUpB fun k hk hMeet => hNe ?_⟩
      obtain ⟨j, hj⟩ := Nat.exists_eq_add_of_lt hk
      have hApart : up (pprev t) (k + (j + 1)) a = up (pprev t) (k + (j + 1)) b := by
        rw [up_add, up_add, hMeet]
      rw [hj, Nat.add_assoc] at hUpA hUpB
      exact Option.some.inj (hUpA.symm.trans (hApart.trans hUpB))
    | none =>
      dsimp only
      rw [hPrevA, hPrevB]
      obtain ⟨r, hLoop, hDeepest⟩ := ih hqa hqb (by omega) (by omega)
      refine ⟨r, hLoop, hDeepest.of_up hT ha hb hSame (up_one.trans hPrevA) (up_one.trans hPrevB)
        fun k hk hMeet => hEq ?_⟩
      rw [Nat.lt_one_iff.mp hk] at hMeet
      exact Option.some.inj hMeet

/-- Two blocks give up nothing when the higher is replaced by its ancestor at the
other's height. -/
theorem DeepestCommon.of_lowered (hT : Linked t) {a b a' b' m n r : Nat} (ha : a < t.length)
    (hb : b < t.length) (hA : up (pprev t) m a = some a') (hB : up (pprev t) n b = some b')
    (hLowA : min (nHeight t a) (nHeight t b) ≤ nHeight t a')
    (hLowB : min (nHeight t a) (nHeight t b) ≤ nHeight t b')
    (h : DeepestCommon t a' b' r) : DeepestCommon t a b r := by
  obtain ⟨⟨hrA, hrB⟩, hDeepest⟩ := h
  refine ⟨⟨hrA.of_up hA, hrB.of_up hB⟩, ?_⟩
  rintro y ⟨hyA, hyB⟩
  have hLow := le_min (hT.graded.height_le ha hyA) (hT.graded.height_le hb hyB)
  exact hDeepest y ⟨hT.graded.isAncestor_of_up ha hA hyA (hLow.trans hLowA),
    hT.graded.isAncestor_of_up hb hB hyB (hLow.trans hLowB)⟩

theorem lowered_eq (hT : Linked t) (height : Nat) (hp : p < t.length) :
    ∃ a, lowered t p height = .ok (some a) ∧ up (pprev t) (nHeight t p - height) p = some a := by
  rw [lowered]
  split
  · next hAbove => exact getAncestor_eq_up hT hp (by omega)
  · next hBelow =>
    refine ⟨p, rfl, ?_⟩
    rw [show nHeight t p - height = 0 by omega]
    rfl

theorem lastCommonAncestor_eq (hT : Linked t) {a b : Nat} (ha : a < t.length) (hb : b < t.length) :
    ∃ r, lastCommonAncestor t a b = .ok (some r) ∧ DeepestCommon t a b r := by
  obtain ⟨a', hA, hUpA⟩ := lowered_eq hT (nHeight t b) ha
  obtain ⟨b', hB, hUpB⟩ := lowered_eq hT (nHeight t a) hb
  obtain ⟨ha', hAtA⟩ := hT.graded.of_up ha hUpA
  obtain ⟨hb', hAtB⟩ := hT.graded.of_up hb hUpB
  obtain ⟨r, hLoop, hDeepest⟩ := commonLoop_eq hT ha' hb' (by omega)
    (by omega : nHeight t a' < min (nHeight t a) (nHeight t b) + 1)
  refine ⟨r, ?_, hDeepest.of_lowered hT ha hb hUpA hUpB (by omega) (by omega)⟩
  rw [lastCommonAncestor, hA, hB]
  exact hLoop

end Walk

/-! ## The chain of the tip -/

namespace CChain

variable {t : List BlockIndex} {chain : CChain} {vChain : List (Option Nat)}

/-- The vector holds the ancestors of the tip, each at its height. -/
def PathTo (t : List BlockIndex) (vChain : List (Option Nat)) : Option Nat → Prop
  | none => vChain = []
  | some p => p < t.length ∧ vChain.length = nHeight t p + 1 ∧
      ∀ k ≤ nHeight t p, vChain[k]? = some (up (pprev t) (nHeight t p - k) p)

variable {tip : Option Nat}

/-- Below every block in the vector are its ancestors. -/
theorem PathTo.below (h : PathTo t vChain tip) {i x : Nat} (hx : vChain[i]? = some (some x))
    {j : Nat} (hj : j ≤ i) : vChain[j]? = some (up (pprev t) (i - j) x) := by
  cases tip with
  | none =>
    rw [PathTo] at h
    rw [h] at hx
    cases hx
  | some p =>
    obtain ⟨-, hLength, hPath⟩ := h
    have hi : i < vChain.length := (List.getElem?_eq_some_iff.mp hx).1
    rw [hPath i (by omega)] at hx
    rw [hPath j (by omega), ← up_of_up (Option.some.inj hx)]
    congr 2
    omega

theorem PathTo.tip_eq (h : PathTo t vChain tip) : CChain.tip ⟨vChain⟩ = tip := by
  cases tip with
  | none =>
    rw [PathTo] at h
    rw [h]
    rfl
  | some p =>
    obtain ⟨-, hLength, hPath⟩ := h
    show vChain.getLast?.join = some p
    rw [getLast?_eq_getElem?, hLength, Nat.add_sub_cancel, hPath _ le_rfl, Nat.sub_self]
    rfl

/-- New indexes change nothing for those that were there. -/
theorem PathTo.append (hT : Linked t) (h : PathTo t vChain tip) {index : BlockIndex} :
    PathTo (t ++ [index]) vChain tip := by
  cases tip with
  | none => exact h
  | some p =>
    obtain ⟨hp, hLength, hPath⟩ := h
    rw [PathTo, nHeight_append hp, length_append]
    refine ⟨by omega, hLength, ?_⟩
    intro k hk
    rw [hPath k hk, hT.graded.up_congr (fun _ => pprev_append) hp]

theorem length_resize {n : Nat} : (resize vChain n).length = n := by
  rw [resize, length_append, length_take, length_replicate]
  omega

theorem getElem?_resize {n i : Nat} (hi : i < n) :
    (resize vChain n)[i]? = some vChain[i]?.join := by
  rw [resize]
  rcases Nat.lt_or_ge i vChain.length with hOld | hNew
  · rw [getElem?_append_left (by rw [length_take]; omega),
      getElem?_take_of_lt hi, getElem?_eq_getElem hOld]
    rfl
  · rw [getElem?_append_right (by rw [length_take]; omega),
      getElem?_replicate_of_lt (by rw [length_take]; omega), getElem?_eq_none hNew]
    rfl

theorem setTipLoop_null {fuel : Nat} : setTipLoop t fuel vChain none = vChain := by
  cases fuel <;> rfl

/-- The loop leaves what is above `q` and stops where the vector already holds the path. -/
theorem setTipLoop_eq (hT : Linked t) {p : Nat} (hp : p < t.length) {fuel n q : Nat}
    (hUp : up (pprev t) n p = some q) (hFuel : nHeight t q < fuel)
    (hLength : vChain.length = nHeight t p + 1)
    (hAbove : ∀ j, nHeight t q < j → j ≤ nHeight t p →
      vChain[j]? = some (up (pprev t) (nHeight t p - j) p))
    (hBelow : ∀ i ≤ nHeight t q, ∀ x, vChain[i]? = some (some x) →
      ∀ j ≤ i, vChain[j]? = some (up (pprev t) (i - j) x)) :
    PathTo t (setTipLoop t fuel vChain (some q)) (some p) := by
  induction fuel generalizing vChain n q with
  | zero => omega
  | succ fuel ih =>
    obtain ⟨hq, hHeight⟩ := hT.graded.of_up hp hUp
    rw [setTipLoop]
    split
    · next hMet =>
      refine ⟨hp, hLength, ?_⟩
      intro k hk
      rcases Nat.lt_or_ge (nHeight t q) k with hHigh | hLow
      · exact hAbove k hHigh hk
      · rw [hBelow _ le_rfl q hMet k hLow, ← up_of_up hUp]
        congr 2
        omega
    · -- the entry at the height of `q` is overwritten
      have hSet : ∀ j, nHeight t q ≤ j → j ≤ nHeight t p →
          (vChain.set (nHeight t q) (some q))[j]? =
            some (up (pprev t) (nHeight t p - j) p) := by
        intro j hj hjp
        rcases Nat.lt_or_eq_of_le hj with hHigh | rfl
        · rw [getElem?_set_ne (by omega), hAbove j hHigh hjp]
        · rw [getElem?_set_self (by omega), show nHeight t p - nHeight t q = n by omega, hUp]
      have hLength' : (vChain.set (nHeight t q) (some q)).length = nHeight t p + 1 := by
        rw [length_set, hLength]
      rcases Nat.eq_zero_or_pos (nHeight t q) with hZero | hPos
      · rw [hT.graded.parent_of_zero q hq hZero, setTipLoop_null]
        exact ⟨hp, hLength', fun k hk => hSet k (by omega) hk⟩
      · obtain ⟨r, hPrev, -, hOneLower⟩ := hT.graded.parent_of_pos q hq hPos
        have hUp' : up (pprev t) (n + 1) p = some r := (up_of_up hUp).trans (up_one.trans hPrev)
        rw [hPrev]
        refine ih hUp' (by omega) hLength' ?_ ?_
        · intro j hj hjp
          exact hSet j (by omega) hjp
        · intro i hi x hx j hj
          rw [getElem?_set_ne (by omega)] at hx ⊢
          exact hBelow i (by omega) x hx j hj

/-- Whatever chain was there, `SetTip` leaves the path to the new tip. -/
theorem pathTo_setTip (hT : Linked t) {old new : Option Nat} (h : PathTo t chain.vChain old)
    (hNew : ∀ p, new = some p → p < t.length) : PathTo t (chain.setTip t new).vChain new := by
  cases new with
  | none => rfl
  | some p =>
    refine setTipLoop_eq hT (hNew p rfl) up_zero (Nat.lt_succ_self _) length_resize ?_ ?_
    · intro j hj hjp
      omega
    · intro i hi x hx j hj
      rw [getElem?_resize (by omega)] at hx ⊢
      have hOld : chain.vChain[i]? = some (some x) := Option.join_eq_some_iff.mp (Option.some.inj hx)
      rw [h.below hOld hj]
      rfl

/-- The tip determines the vector. -/
theorem PathTo.unique {vChain' : List (Option Nat)} (h : PathTo t vChain tip)
    (h' : PathTo t vChain' tip) : vChain = vChain' := by
  cases tip with
  | none =>
    rw [PathTo] at h h'
    rw [h, h']
  | some p =>
    obtain ⟨-, hLength, hPath⟩ := h
    obtain ⟨-, hLength', hPath'⟩ := h'
    refine ext_getElem? fun k => ?_
    by_cases hk : k ≤ nHeight t p
    · rw [hPath k hk, hPath' k hk]
    · rw [getElem?_eq_none (by omega), getElem?_eq_none (by omega)]

theorem contains_iff (hT : Linked t) {p : Nat} (h : PathTo t chain.vChain (some p)) {x : Nat} :
    chain.contains t x = true ↔ IsAncestor (pprev t) x p := by
  obtain ⟨hp, hLength, hPath⟩ := h
  rw [contains, decide_eq_true_iff, get, hT.graded.isAncestor_iff hp]
  rcases Nat.lt_or_ge (nHeight t p) (nHeight t x) with hHigh | hLow
  · rw [getElem?_eq_none (by omega)]
    constructor
    · intro hNull
      cases hNull
    · rintro ⟨hLe, -⟩
      omega
  · rw [hPath _ hLow]
    exact ⟨fun hUp => ⟨hLow, hUp⟩, fun hAnc => hAnc.2⟩

/-- The deepest ancestor of `b` on the chain. -/
def DeepestOn (t : List BlockIndex) (chain : CChain) (b : Nat) : Nat → Prop :=
  IsDeepest (nHeight t) fun y => IsAncestor (pprev t) y b ∧ chain.contains t y = true

theorem findForkLoop_eq (hT : Linked t) {p : Nat} (h : PathTo t chain.vChain (some p))
    {fuel q : Nat} (hq : q < t.length) (hFuel : nHeight t q < fuel) :
    ∃ r, findForkLoop t chain fuel (some q) = some r ∧ DeepestOn t chain q r := by
  induction fuel generalizing q with
  | zero => omega
  | succ fuel ih =>
    rw [findForkLoop]
    by_cases hOn : chain.contains t q = true
    · rw [if_pos hOn]
      exact ⟨q, rfl, ⟨.refl, hOn⟩, fun y hy => hT.graded.height_le hq hy.1⟩
    rw [if_neg hOn]
    -- the genesis block is on the chain, so there is a parent
    have hPos : 0 < nHeight t q := by
      by_contra hZero
      obtain ⟨top, hTop, hLt, hAt⟩ := hT.graded.up_eq_some h.1 le_rfl
      rw [hT.eq_genesis hLt (by omega), ← hT.eq_genesis hq (by omega)] at hTop
      exact hOn ((contains_iff hT h).mpr ⟨_, hTop⟩)
    obtain ⟨r, hPrev, hr, hOneLower⟩ := hT.graded.parent_of_pos q hq hPos
    rw [hPrev]
    obtain ⟨fork, hLoop, ⟨hAnc, hFork⟩, hDeepest⟩ := ih hr (by omega)
    refine ⟨fork, hLoop, ⟨hAnc.of_parent hPrev, hFork⟩, ?_⟩
    rintro y ⟨hy, hyOn⟩
    obtain ⟨hLe, hUp⟩ := (hT.graded.isAncestor_iff hq).mp hy
    rcases Nat.lt_or_eq_of_le hLe with hLower | hSame
    · exact hDeepest y
        ⟨hT.graded.isAncestor_of_up hq (up_one.trans hPrev) hy (by omega), hyOn⟩
    · -- the only ancestor of `q` at its height is `q`, which is not on the chain
      rw [hSame, Nat.sub_self] at hUp
      obtain rfl := Option.some.inj hUp
      exact absurd hyOn hOn

theorem findFork_eq (hT : Linked t) {p : Nat} (h : PathTo t chain.vChain (some p)) {b : Nat}
    (hb : b < t.length) :
    ∃ r, chain.findFork t (some b) = .ok (some r) ∧ DeepestOn t chain b r := by
  have hHeight : chain.height = nHeight t p := by
    rw [CChain.height, h.2.1]
    omega
  obtain ⟨q, hStart, hUp⟩ := lowered_eq hT (nHeight t p) hb
  obtain ⟨hq, hAt⟩ := hT.graded.of_up hb hUp
  obtain ⟨r, hLoop, ⟨hAnc, hOn⟩, hDeepest⟩ :=
    findForkLoop_eq hT h hq (by omega : nHeight t q < nHeight t b + 1)
  refine ⟨r, ?_, ⟨hAnc.of_up hUp, hOn⟩, ?_⟩
  · rw [findFork, hHeight, hStart]
    exact congrArg Except.ok hLoop
  · rintro y ⟨hy, hyOn⟩
    have hTip := hT.graded.height_le h.1 ((contains_iff hT h).mp hyOn)
    have hSelf := hT.graded.height_le hb hy
    exact hDeepest y ⟨hT.graded.isAncestor_of_up hb hUp hy (by omega), hyOn⟩

theorem findFork_empty (h : PathTo t chain.vChain none) {b : Nat} :
    chain.findFork t (some b) = .ok none := by
  have hHeight : chain.height = -1 := by
    rw [PathTo] at h
    rw [CChain.height, h]
    rfl
  rw [findFork, hHeight, lowered, if_pos (by omega), getAncestor, if_pos (by omega)]
  rfl

end CChain

/-! ## Runs -/

/-- All block indexes, and the active chain. -/
structure ChainState where
  blocks : List BlockIndex
  chain : CChain
deriving DecidableEq

/-- At first there is the genesis block, and no tip. -/
def ChainState.initial : ChainState := ⟨[genesis], ⟨[]⟩⟩

inductive ChainOp
  | addToBlockIndex (prev : Nat)
  | setTip (pindex : Option Nat)

def ChainState.step (s : ChainState) : ChainOp → Option ChainState
  | .addToBlockIndex prev =>
    if prev < s.blocks.length then
      match BlockTree.addToBlockIndex s.blocks prev with
      | .ok blocks => some { s with blocks }
      | .error _ => none
    else none
  | .setTip pindex =>
    if ∀ p ∈ pindex, p < s.blocks.length then
      some { s with chain := s.chain.setTip s.blocks pindex }
    else none

structure ChainState.Inv (s : ChainState) : Prop where
  linked : Linked s.blocks
  path : CChain.PathTo s.blocks s.chain.vChain s.chain.tip

theorem ChainState.inv_initial : ChainState.initial.Inv where
  linked := by
    refine ⟨rfl, ?_⟩
    intro p hPos hp
    rw [show ChainState.initial.blocks.length = 1 from rfl] at hp
    omega
  path := rfl

theorem ChainState.Inv.step {s s' : ChainState} {op : ChainOp} (h : s.Inv)
    (hStep : s.step op = some s') : s'.Inv := by
  obtain ⟨hT, hPath⟩ := h
  cases op with
  | addToBlockIndex prev =>
    rw [ChainState.step] at hStep
    split at hStep
    · next hPrev =>
      obtain ⟨index, hAdd, hT'⟩ := addToBlockIndex_ok hT hPrev
      rw [hAdd] at hStep
      cases hStep
      exact ⟨hT', hPath.append hT⟩
    · cases hStep
  | setTip pindex =>
    rw [ChainState.step] at hStep
    split at hStep
    · next hValid =>
      cases hStep
      have hNew := CChain.pathTo_setTip hT hPath fun p hp => hValid p hp
      refine ⟨hT, ?_⟩
      rw [show CChain.tip _ = pindex from hNew.tip_eq]
      exact hNew
    · cases hStep

theorem ChainState.inv_of_reaches {s : ChainState} (h : Reaches ChainState.step .initial s) :
    s.Inv :=
  h.invariant ChainState.inv_initial fun _ _ _ hInv hStep => hInv.step hStep

/-- After any sequence of new indexes and tips, the walks over the tree return what following
the parents one by one would. -/
theorem chainState_ancestors (s : ChainState) (h : Reaches ChainState.step .initial s) :
    -- every index can be added to and made the tip
    (∀ prev < s.blocks.length, ∃ s', s.step (.addToBlockIndex prev) = some s') ∧
    (∀ pindex : Option Nat, (∀ p ∈ pindex, p < s.blocks.length) →
      (s.chain.setTip s.blocks pindex).tip = pindex) ∧
    -- GetAncestor
    (∀ b < s.blocks.length, ∀ height ≤ nHeight s.blocks b,
      ∃ a, getAncestor s.blocks b height = .ok (some a) ∧
        up (pprev s.blocks) (nHeight s.blocks b - height) b = some a) ∧
    -- LastCommonAncestor
    (∀ a < s.blocks.length, ∀ b < s.blocks.length,
      ∃ r, lastCommonAncestor s.blocks a b = .ok (some r) ∧ DeepestCommon s.blocks a b r) ∧
    -- FindFork, on the chain of the tip
    (∀ tip, s.chain.tip = some tip →
      (∀ x, s.chain.contains s.blocks x = true ↔ IsAncestor (pprev s.blocks) x tip) ∧
      ∀ b < s.blocks.length,
        ∃ r, s.chain.findFork s.blocks (some b) = .ok (some r) ∧
          CChain.DeepestOn s.blocks s.chain b r) ∧
    (s.chain.tip = none → ∀ b, s.chain.findFork s.blocks (some b) = .ok none) := by
  obtain ⟨hT, hPath⟩ := ChainState.inv_of_reaches h
  refine ⟨?_, ?_, ?_, ?_, ?_, ?_⟩
  · intro prev hPrev
    obtain ⟨index, hAdd, -⟩ := addToBlockIndex_ok hT hPrev
    rw [ChainState.step, if_pos hPrev, hAdd]
    exact ⟨_, rfl⟩
  · intro pindex hValid
    exact (CChain.pathTo_setTip hT hPath fun p hp => hValid p hp).tip_eq
  · intro b hb height hLe
    exact getAncestor_eq_up hT hb hLe
  · intro a ha b hb
    exact lastCommonAncestor_eq hT ha hb
  · intro tip hTip
    rw [hTip] at hPath
    exact ⟨fun x => CChain.contains_iff hT hPath, fun b hb => CChain.findFork_eq hT hPath hb⟩
  · intro hTip b
    rw [hTip] at hPath
    exact CChain.findFork_empty hPath

/-! Two branches above block 1: 1 ← 2 ← 4 and 1 ← 3 ← 5 ← 6, first with the tip 4. -/

def forkedOps : List ChainOp :=
  [.addToBlockIndex 0, .addToBlockIndex 1, .addToBlockIndex 1, .addToBlockIndex 2,
    .setTip (some 4), .addToBlockIndex 3, .addToBlockIndex 5]

theorem forked_common_ancestor :
    ∃ s, forkedOps.foldlM ChainState.step .initial = some s ∧
      ∃ r, lastCommonAncestor s.blocks 4 6 = .ok (some r) ∧ DeepestCommon s.blocks 4 6 r := by
  obtain ⟨s, hRun, hLength⟩ : ∃ s, forkedOps.foldlM ChainState.step .initial = some s ∧
      s.blocks.length = 7 := ⟨_, rfl, rfl⟩
  obtain ⟨-, -, -, hCommon, -⟩ := chainState_ancestors s (.of_run hRun)
  exact ⟨s, hRun, hCommon 4 (by omega) 6 (by omega)⟩

end BlockTree

end Ergon.Node
