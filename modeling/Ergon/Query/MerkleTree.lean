import Mathlib.Data.Nat.Size
import Ergon.Lib.Bytes
import Ergon.Lib.MerkleBranch

/-!
# Ergon — the cached Merkle tree over block hashes

`MerkleTree` (`chronik-indexer/src/merkle.rs`) computes the Merkle root and branch
of a list of hashes and keeps the nodes of each level for the next call. A panic is
`none`: a failed assertion, an index out of range, a difference below zero.

What is kept may come from longer lists, shorter lists and lists before a
reorganisation. `LevelsOk` says that every kept node is the complete subtree over
the hashes last seen at its positions and not invalidated since. A node that
depends on a repeated last hash is never kept.

* `merkleRootAndBranch_spec` — from such a cache a call returns what climbing the
  list does, and leaves such a cache;
* `merkleRootAndBranch_eq_fresh` — in every legal sequence of calls each answer is
  the one of a fresh tree, and its branch folds to its root.
-/

namespace Ergon.Query

open Lib List

abbrev Sha256d := FixedBytes 32

/-! ## The tree -/

def isOdd (n : Nat) : Bool := n % 2 = 1

/-- The number of bits of `num_hashes - 1`. -/
def calcBranchLen (numHashes : Nat) : Option Nat := do
  guard (0 < numHashes)
  return (numHashes - 1).size

def hashConcatenatedBytes (digest : Bytes → Sha256d) (h1 h2 : Sha256d) : Sha256d :=
  digest (h1.val ++ h2.val)

structure MerkleTree where
  levels : List (List Sha256d)
deriving DecidableEq

/-- A difference that is not below zero. -/
def checkedSub (a b : Nat) : Option Nat := if b ≤ a then some (a - b) else none

namespace MerkleTree

def new : MerkleTree := ⟨[]⟩

section Digest

variable (digest : Bytes → Sha256d)

def hashOneLevel (tree : MerkleTree) (hashes : List Sha256d) (cacheLevel : Nat)
    (ignoreLastCachedHash : Bool) : Option (List Sha256d) := do
  guard (!isOdd hashes.length)
  let numHashesToReuse ← checkedSub (hashes.length / 2) ignoreLastCachedHash.toNat
  let out := match tree.levels[cacheLevel]? with
    | some level =>
      -- more was computed for a longer list
      if numHashesToReuse ≤ level.length then level.take numHashesToReuse else level
    | none => []
  return out ++ (pairUp (hashes.drop (2 * out.length))).map fun p =>
    hashConcatenatedBytes digest p.1 p.2

/-- The variables of the loop over the levels. -/
structure Loop where
  tree : MerkleTree
  branch : List Sha256d
  workingHashes : List Sha256d
  doCacheLastHash : Bool
  index : Nat

/-- The nodes of a level, as far as they may be kept. -/
def setLevel (levels : List (List Sha256d)) (i : Nat) (cached : List Sha256d) :
    List (List Sha256d) :=
  if i < levels.length then levels.set i cached
  else if 0 < cached.length then levels ++ [cached]
  else levels

/-- An odd number of hashes gets its last one twice. -/
def padOdd (s : Loop) : Option (List Sha256d × Bool) :=
  if isOdd s.workingHashes.length then do
    let last ← s.workingHashes.getLast?
    return (s.workingHashes ++ [last], false)
  else some (s.workingHashes, s.doCacheLastHash)

/-- A node over a repeated hash may not be kept. -/
def numHashesToCache (doCacheLastHash : Bool) (numHashes : Nat) : Option Nat :=
  if doCacheLastHash then some numHashes else checkedSub numHashes 1

def levelStep (s : Loop) (i : Nat) : Option Loop := do
  let (workingHashes, doCacheLastHash) ← padOdd s
  let sibling ← workingHashes[s.index ^^^ 1]?
  let workingHashes ← s.tree.hashOneLevel digest workingHashes i (!doCacheLastHash)
  let numCached ← numHashesToCache doCacheLastHash workingHashes.length
  return ⟨⟨setLevel s.tree.levels i (workingHashes.take numCached)⟩,
    s.branch ++ [sibling], workingHashes, doCacheLastHash, s.index >>> 1⟩

/-- The root, the branch, and the tree with what was kept. -/
def merkleRootAndBranch (tree : MerkleTree) (hashes : List Sha256d) (index : Nat) :
    Option ((Sha256d × List Sha256d) × MerkleTree) := do
  guard (index ≤ hashes.length)
  let branchLen ← calcBranchLen hashes.length
  let s ← (List.range branchLen).foldlM (levelStep digest) ⟨tree, [], hashes, true, index⟩
  guard (s.workingHashes.length = 1)
  let root ← s.workingHashes[0]?
  return ((root, s.branch), s.tree)

end Digest

def invalidateLevels : Nat → List (List Sha256d) → List (List Sha256d)
  | _, [] => []
  | lastValidIndex, level :: levels =>
    level.take lastValidIndex :: invalidateLevels (lastValidIndex / 2) levels

def invalidateBlock (tree : MerkleTree) (height : Nat) : MerkleTree :=
  ⟨invalidateLevels (height / 2) tree.levels⟩

/-! ## What is kept -/

variable {leaf : Nat → Option Sha256d} {levels : List (List Sha256d)}

section Kept

variable {digest : Bytes → Sha256d}

/-- Every kept node is the complete subtree over the leaves at its positions. -/
def LevelsOk (digest : Bytes → Sha256d) (leaf : Nat → Option Sha256d)
    (levels : List (List Sha256d)) : Prop :=
  ∀ k level, levels[k]? = some level → ∀ (j : Nat) d, level[j]? = some d →
    subtree (hashConcatenatedBytes digest) leaf (k + 1) j = some d

theorem LevelsOk.of_agree {leaf leaf' : Nat → Option Sha256d} (h : LevelsOk digest leaf levels)
    (hAgree : ∀ p x, leaf p = some x → leaf' p = some x) : LevelsOk digest leaf' levels :=
  fun k level hLevel j d hGet => subtree_of_agree (fun p _ => hAgree p) (h k level hLevel j d hGet)

theorem getElem?_setLevel {i k : Nat} {cached level : List Sha256d} (hDeep : i ≤ levels.length)
    (h : (setLevel levels i cached)[k]? = some level) :
    (k = i ∧ level = cached) ∨ levels[k]? = some level := by
  unfold setLevel at h
  split_ifs at h with hInside hSome
  · rw [List.getElem?_set] at h
    split at h
    · next hEq =>
      exact .inl ⟨hEq.symm, (Option.some.inj h).symm⟩
    · exact .inr h
  · rcases Nat.lt_or_ge k levels.length with hk | hk
    · rw [getElem?_append_left hk] at h
      exact .inr h
    · -- the new level is the next one
      have hLast : levels.length = i := by omega
      rw [getElem?_append_right hk] at h
      obtain ⟨hZero, hEq⟩ := List.getElem?_eq_some_iff.mp h
      have hk0 : k - levels.length = 0 := by simpa using hZero
      refine .inl ⟨by omega, ?_⟩
      simp only [hk0] at hEq
      exact hEq.symm
  · exact .inr h

theorem length_setLevel {i : Nat} (hDeep : i ≤ levels.length) (cached : List Sha256d) :
    i + 1 ≤ (setLevel levels i cached).length ∨ cached.length = 0 := by
  unfold setLevel
  split_ifs with hInside hSome
  · rw [length_set]
    exact .inl hInside
  · rw [length_append, length_singleton]
    omega
  · omega

/-! ## One level -/

/-- Nodes of the next layer that are kept need not be computed again. -/
theorem hashOneLevel_eq {tree : MerkleTree} {hashes : List Sha256d} {cacheLevel m : Nat}
    {ignore : Bool} (hReuse : checkedSub ((padEven hashes).length / 2) ignore.toNat = some m)
    (hm : m ≤ (nextLayer (hashConcatenatedBytes digest) hashes).length)
    (hKept : ∀ level, tree.levels[cacheLevel]? = some level → ∀ (j : Nat) d, j < m →
      level[j]? = some d → (nextLayer (hashConcatenatedBytes digest) hashes)[j]? = some d) :
    tree.hashOneLevel digest (padEven hashes) cacheLevel ignore =
      some (nextLayer (hashConcatenatedBytes digest) hashes) := by
  have hEven : isOdd (padEven hashes).length = false := by
    rw [isOdd, length_padEven]
    simp
  unfold hashOneLevel
  rw [hEven, hReuse]
  show some _ = some _
  congr 1
  -- what is taken from the cache begins the layer
  have hOut : ∀ out : List Sha256d, out.length ≤ m →
      (∀ (j : Nat) d, out[j]? = some d →
        (nextLayer (hashConcatenatedBytes digest) hashes)[j]? = some d) →
      out ++ (pairUp ((padEven hashes).drop (2 * out.length))).map (fun p =>
        hashConcatenatedBytes digest p.1 p.2) =
      nextLayer (hashConcatenatedBytes digest) hashes := by
    intro out hLength hGet
    have hTake : out = (nextLayer (hashConcatenatedBytes digest) hashes).take out.length := by
      refine ext_getElem? fun j => ?_
      rw [getElem?_take]
      split
      · next hj =>
        rw [getElem?_eq_getElem hj]
        exact (hGet j _ (getElem?_eq_getElem hj)).symm
      · next hj => exact getElem?_eq_none (by omega)
    rw [pairUp_drop, map_drop]
    conv_lhs => rw [hTake]
    rw [length_take, Nat.min_eq_left (by omega)]
    exact take_append_drop out.length _
  split
  · next level hLevel =>
    split
    · next hMore =>
      refine hOut _ (by rw [length_take]; omega) fun j d hGet => ?_
      rw [getElem?_take] at hGet
      split at hGet
      · next hj => exact hKept level hLevel j d hj hGet
      · cases hGet
    · next hLess =>
      refine hOut level (by omega) fun j d hGet => ?_
      have hj := (List.getElem?_eq_some_iff.mp hGet).1
      exact hKept level hLevel j d (by omega) hGet
  · exact hOut [] (Nat.zero_le _) nofun

/-- The loop at level `i`: the first `m` hashes are complete subtrees, and only the last one
may not be. -/
structure LoopInv (digest : Bytes → Sha256d) (leaf : Nat → Option Sha256d) (i m : Nat)
    (s : Loop) : Prop where
  full : ∀ j < m, ∃ d, s.workingHashes[j]? = some d ∧
    subtree (hashConcatenatedBytes digest) leaf i j = some d
  count : s.workingHashes.length = m + (!s.doCacheLastHash).toNat
  levels : LevelsOk digest leaf s.tree.levels
  deep : i ≤ s.tree.levels.length ∨ m = 0

theorem padOdd_eq {s : Loop} : padOdd s =
    some (padEven s.workingHashes, s.doCacheLastHash && !isOdd s.workingHashes.length) := by
  unfold padOdd
  split
  · next hOdd =>
    obtain ⟨last, hPad, hLast⟩ := padEven_of_odd (of_decide_eq_true hOdd)
    rw [hLast, hPad, hOdd, Bool.not_true, Bool.and_false]
    rfl
  · next hEven =>
    rw [Bool.not_eq_true] at hEven
    have hMod : s.workingHashes.length % 2 = 0 := by
      have := of_decide_eq_false hEven
      omega
    rw [hEven, Bool.not_false, Bool.and_true, padEven, if_pos hMod]

/-- One level up: the next layer, one more sibling, and the complete subtrees kept. -/
theorem levelStep_spec {i m : Nat} {s : Loop} (h : LoopInv digest leaf i m s)
    (hLong : 1 < s.workingHashes.length) (hIndex : s.index < s.workingHashes.length) :
    ∃ s' sibling, levelStep digest s i = some s' ∧ LoopInv digest leaf (i + 1) (m / 2) s' ∧
      (padEven s.workingHashes)[s.index ^^^ 1]? = some sibling ∧
      s'.workingHashes = nextLayer (hashConcatenatedBytes digest) s.workingHashes ∧
      s'.branch = s.branch ++ [sibling] ∧ s'.index = s.index / 2 := by
  obtain ⟨hFull, hCount, hLevels, hDeep⟩ := h
  obtain ⟨tree, branch, workingHashes, doCacheLastHash, index⟩ := s
  dsimp only at *
  obtain ⟨sibling, hSibling, -⟩ :=
    exists_sibling (hashConcatenatedBytes digest) (getElem?_eq_getElem hIndex)
  have hNextLength := length_nextLayer (hashConcatenatedBytes digest) workingHashes
  set next := nextLayer (hashConcatenatedBytes digest) workingHashes with hNext
  set doCache := doCacheLastHash && !isOdd workingHashes.length with hDoCache
  -- as many nodes are complete as the flag says
  have hCount' : next.length = m / 2 + (!doCache).toNat := by
    rw [hNextLength, hDoCache, hCount]
    unfold isOdd
    cases doCacheLastHash <;> simp only [Bool.not_false, Bool.not_true, Bool.toNat_true,
      Bool.toNat_false, Bool.false_and, Bool.true_and, Bool.not_not, Nat.add_zero]
    · omega
    · by_cases hOdd : m % 2 = 1
      · simp only [hOdd, decide_true, Bool.toNat_true]
        omega
      · simp only [hOdd, decide_false, Bool.toNat_false]
        omega
  have hFull' := subtree_nextLayer hFull
  have hReuse :
      checkedSub ((padEven workingHashes).length / 2) (!doCache).toNat = some (m / 2) := by
    have hHalf : (padEven workingHashes).length / 2 = next.length := by
      rw [length_padEven, hNextLength]
      omega
    rw [hHalf, hCount', checkedSub, if_pos (Nat.le_add_left _ _), Nat.add_sub_cancel_right]
  have hHash : tree.hashOneLevel digest (padEven workingHashes) i (!doCache) = some next := by
    refine hashOneLevel_eq hReuse (by rw [← hNext]; omega) fun level hLevel j d hj hGet => ?_
    obtain ⟨d', hGet', hSub⟩ := hFull' j hj
    rw [hLevels i level hLevel j d hGet] at hSub
    exact hSub ▸ hGet'
  have hCached : numHashesToCache doCache next.length = some (m / 2) := by
    unfold numHashesToCache
    rw [hCount']
    cases doCache with
    | true => rfl
    | false =>
      show checkedSub (m / 2 + 1) 1 = some (m / 2)
      exact if_pos (Nat.le_add_left _ _)
  have hInside : i ≤ tree.levels.length := by
    rcases hDeep with hDeep | hZero
    · exact hDeep
    · exfalso
      have hLe := Bool.toNat_le (!doCacheLastHash)
      omega
  have hTake : (next.take (m / 2)).length = m / 2 := by
    rw [length_take]
    omega
  refine ⟨⟨⟨setLevel tree.levels i (next.take (m / 2))⟩, branch ++ [sibling], next, doCache,
    index >>> 1⟩, sibling, ?_, ⟨hFull', hCount', ?_, ?_⟩, hSibling, rfl, rfl,
    Nat.shiftRight_one index⟩
  · unfold levelStep
    rw [padOdd_eq]
    dsimp only [Option.bind_eq_bind, Option.bind_some]
    rw [hSibling]
    dsimp only [Option.bind_some]
    rw [hHash]
    dsimp only [Option.bind_some]
    rw [hCached]
    rfl
  · intro k level hLevel j d hGet
    rcases getElem?_setLevel hInside hLevel with ⟨rfl, rfl⟩ | hOld
    · rw [getElem?_take] at hGet
      split at hGet
      · next hj =>
        obtain ⟨d', hGet', hSub⟩ := hFull' j hj
        rw [hGet] at hGet'
        cases hGet'
        exact hSub
      · cases hGet
    · exact hLevels k level hOld j d hGet
  · rcases length_setLevel hInside (next.take (m / 2)) with hLonger | hZero
    · exact .inl hLonger
    · exact .inr (hTake ▸ hZero)

/-- The levels from `i` on: the loop climbs. -/
theorem levels_spec (n : Nat) {i m : Nat} {s : Loop} (h : LoopInv digest leaf i m s)
    (hIndex : s.index < s.workingHashes.length)
    (hLow : 0 < n → 2 ^ (n - 1) < s.workingHashes.length) :
    ∃ s' top branch, (List.range' i n).foldlM (levelStep digest) s = some s' ∧
      LevelsOk digest leaf s'.tree.levels ∧
      climb (hashConcatenatedBytes digest) n s.workingHashes s.index = some (top, branch) ∧
      s'.workingHashes = top ∧ s'.branch = s.branch ++ branch := by
  induction n generalizing i m s with
  | zero => exact ⟨s, _, _, rfl, h.levels, rfl, rfl, (append_nil _).symm⟩
  | succ n ih =>
    have hPow := Nat.one_le_two_pow (n := n)
    have hLong : 2 ^ n < s.workingHashes.length := hLow (Nat.succ_pos n)
    obtain ⟨mid, sibling, hStep, hMid, hSibling, hWorking, hBranch, hHalf⟩ :=
      levelStep_spec h (by omega) hIndex
    have hLength := length_nextLayer (hashConcatenatedBytes digest) s.workingHashes
    obtain ⟨s', top, branch, hRest, hLevels, hClimb, hTop, hBranch'⟩ := ih hMid
      (by rw [hWorking, hHalf, hLength]; omega) (by
        intro hn
        obtain ⟨n, rfl⟩ := Nat.exists_eq_succ_of_ne_zero (Nat.pos_iff_ne_zero.mp hn)
        rw [hWorking, hLength, Nat.succ_sub_one]
        rw [Nat.pow_succ] at hLong
        omega)
    refine ⟨s', top, sibling :: branch, ?_, hLevels, ?_, hTop, ?_⟩
    · rw [range'_succ, foldlM_cons, hStep]
      exact hRest
    · rw [hWorking, hHalf] at hClimb
      rw [climb, hSibling]
      show (climb _ n _ _ >>= _) = _
      rw [hClimb]
      rfl
    · rw [hBranch', hBranch, append_assoc]
      rfl

/-- The hashes last seen: those of the list, else those before. -/
def seen (hashes : List Sha256d) (leaf : Nat → Option Sha256d) (p : Nat) : Option Sha256d :=
  hashes[p]?.or (leaf p)

/-- From a cache that is right for hashes the list agrees with, a call climbs the list. The
cache is then right for the list too. -/
theorem merkleRootAndBranch_spec {tree : MerkleTree} {hashes : List Sha256d} {index : Nat}
    {hash : Sha256d} (h : LevelsOk digest leaf tree.levels)
    (hAgree : ∀ (p : Nat) x y, leaf p = some x → hashes[p]? = some y → x = y)
    (hHash : hashes[index]? = some hash) :
    ∃ root branch tree', tree.merkleRootAndBranch digest hashes index =
        some ((root, branch), tree') ∧
      LevelsOk digest (seen hashes leaf) tree'.levels ∧
      climb (hashConcatenatedBytes digest) (hashes.length - 1).size hashes index =
        some ([root], branch) ∧
      foldBranch (hashConcatenatedBytes digest) index hash branch = root := by
  have hIndex := (List.getElem?_eq_some_iff.mp hHash).1
  have hSeen : ∀ p x, leaf p = some x → seen hashes leaf p = some x := by
    intro p x hx
    unfold seen
    cases hGet : hashes[p]? with
    | none => exact hx
    | some y => exact congrArg some (hAgree p x y hx hGet).symm
  have hInit : LoopInv digest (seen hashes leaf) 0 hashes.length ⟨tree, [], hashes, true, index⟩ :=
    { full := fun j hj => ⟨hashes[j], getElem?_eq_getElem hj, by
        show seen hashes leaf j = some hashes[j]
        unfold seen
        rw [getElem?_eq_getElem hj]
        rfl⟩
      count := rfl
      levels := h.of_agree hSeen
      deep := .inl (Nat.zero_le _) }
  have hSize : hashes.length - 1 < 2 ^ (hashes.length - 1).size := Nat.lt_size_self _
  obtain ⟨s, top, branch, hLoop, hLevels, hClimb, hTop, hBranch⟩ :=
    levels_spec (hashes.length - 1).size hInit hIndex (by
      intro hPos
      have hPow : 2 ^ ((hashes.length - 1).size - 1) ≤ hashes.length - 1 :=
        Nat.lt_size.mp (Nat.sub_one_lt (Nat.pos_iff_ne_zero.mp hPos))
      show 2 ^ ((hashes.length - 1).size - 1) < hashes.length
      omega)
  obtain ⟨top', branch', hClimb', hNode, hOne⟩ :=
    climb_spec (hashConcatenatedBytes digest) (hashes.length - 1).size hHash
  dsimp only at hClimb
  rw [hClimb] at hClimb'
  cases hClimb'
  have hTopOne : top.length = 1 := hOne (by omega)
  obtain ⟨root, hRoot⟩ := length_eq_one_iff.mp hTopOne
  have hFold : foldBranch (hashConcatenatedBytes digest) index hash branch = root := by
    rw [Nat.div_eq_of_lt (show index < 2 ^ (hashes.length - 1).size by omega), hRoot] at hNode
    exact (Option.some.inj hNode).symm
  refine ⟨root, branch, s.tree, ?_, hLevels, hRoot ▸ hClimb, hFold⟩
  have hLen : calcBranchLen hashes.length = some (hashes.length - 1).size := by
    unfold calcBranchLen
    rw [show guard (0 < hashes.length) = (some () : Option Unit) from if_pos (by omega)]
    rfl
  unfold merkleRootAndBranch
  rw [show guard (index ≤ hashes.length) = (some () : Option Unit) from if_pos (by omega), hLen]
  dsimp only [Option.bind_eq_bind, Option.bind_some]
  rw [range_eq_range', hLoop]
  dsimp only [Option.bind_some]
  rw [hTop, hRoot, hBranch]
  rfl

end Kept

/-! ## Invalidating a block -/

theorem getElem?_invalidateLevels {n k : Nat} {level : List Sha256d}
    (h : (invalidateLevels n levels)[k]? = some level) :
    ∃ level₀, levels[k]? = some level₀ ∧ level = level₀.take (n / 2 ^ k) := by
  induction levels generalizing n k with
  | nil => cases h
  | cons level₁ levels ih =>
    cases k with
    | zero =>
      cases h
      exact ⟨level₁, rfl, by rw [Nat.pow_zero, Nat.div_one]⟩
    | succ k =>
      obtain ⟨level₀, hGet, hTake⟩ := ih h
      refine ⟨level₀, hGet, ?_⟩
      rw [hTake, Nat.div_div_eq_div_mul, Nat.pow_succ, Nat.mul_comm]

/-- The hashes below a height. -/
def below (height : Nat) (leaf : Nat → Option Sha256d) (p : Nat) : Option Sha256d :=
  if p < height then leaf p else none

/-- What is left needs no hash at the height or above. -/
theorem invalidateBlock_levelsOk {digest : Bytes → Sha256d} {tree : MerkleTree}
    (h : LevelsOk digest leaf tree.levels) (height : Nat) :
    LevelsOk digest (below height leaf) (tree.invalidateBlock height).levels := by
  intro k level hLevel j d hGet
  obtain ⟨level₀, hOld, rfl⟩ := getElem?_invalidateLevels hLevel
  rw [getElem?_take] at hGet
  split at hGet
  · next hj =>
    refine subtree_of_agree (fun p hp x hx => ?_) (h k level₀ hOld j d hGet)
    have hEnd : (j + 1) * 2 ^ (k + 1) ≤ height := by
      rw [Nat.div_div_eq_div_mul, ← Nat.pow_succ'] at hj
      exact (Nat.le_div_iff_mul_le (Nat.two_pow_pos _)).mp hj
    unfold below
    rw [if_pos (Nat.lt_of_lt_of_le hp hEnd)]
    exact hx
  · cases hGet

/-! ## Sequences of calls -/

inductive Call
  | merkleRootAndBranch (hashes : List Sha256d) (index : Nat)
  | invalidateBlock (height : Nat)

def step (digest : Bytes → Sha256d) (tree : MerkleTree) : Call → Option MerkleTree
  | .merkleRootAndBranch hashes index =>
    (tree.merkleRootAndBranch digest hashes index).map Prod.snd
  | .invalidateBlock height => some (tree.invalidateBlock height)

/-- Indices are in range, and the hash at a position changes between two calls only if a
height at or below it was invalidated in between. -/
structure Legal (calls : List Call) : Prop where
  index_lt : ∀ hashes index, .merkleRootAndBranch hashes index ∈ calls → index < hashes.length
  unchanged : ∀ (i j : Nat) hashes index hashes' index' (p : Nat) x y, i < j →
    calls[i]? = some (.merkleRootAndBranch hashes index) →
    calls[j]? = some (.merkleRootAndBranch hashes' index') →
    hashes[p]? = some x → hashes'[p]? = some y → x ≠ y →
    ∃ k height, i < k ∧ k < j ∧ calls[k]? = some (.invalidateBlock height) ∧ height ≤ p

theorem Legal.take {calls rest : List Call} (h : Legal (calls ++ rest)) : Legal calls where
  index_lt hashes index hMem := h.index_lt hashes index (mem_append_left _ hMem)
  unchanged i j hashes index hashes' index' p x y hij hi hj hx hy hNe := by
    have hLift : ∀ (k : Nat) call, calls[k]? = some call → (calls ++ rest)[k]? = some call := by
      intro k call hk
      rw [getElem?_append_left (List.getElem?_eq_some_iff.mp hk).1]
      exact hk
    obtain ⟨k, height, hik, hkj, hk, hLe⟩ := h.unchanged i j hashes index hashes' index' p x y hij
      (hLift i _ hi) (hLift j _ hj) hx hy hNe
    have hjLt := (List.getElem?_eq_some_iff.mp hj).1
    rw [getElem?_append_left (by omega)] at hk
    exact ⟨k, height, hik, hkj, hk, hLe⟩

/-- The hashes last seen at each position and not invalidated since. -/
def remember (leaf : Nat → Option Sha256d) : Call → Nat → Option Sha256d
  | .merkleRootAndBranch hashes _ => seen hashes leaf
  | .invalidateBlock height => below height leaf

/-- A remembered hash was seen in a call that no invalidation of it followed. -/
theorem exists_call_of_remembered {calls : List Call} {p : Nat} {x : Sha256d}
    (h : calls.foldl remember (fun _ => none) p = some x) :
    ∃ i hashes index, calls[i]? = some (.merkleRootAndBranch hashes index) ∧
      hashes[p]? = some x ∧
      ∀ (k : Nat) height, i < k → calls[k]? = some (.invalidateBlock height) → p < height := by
  induction calls using List.reverseRecOn with
  | nil => cases h
  | append_singleton calls call ih =>
    rw [foldl_append, foldl_cons, foldl_nil] at h
    -- what was remembered before the last call
    have hBefore : calls.foldl remember (fun _ => none) p = some x →
        (∀ height, call = .invalidateBlock height → p < height) →
        ∃ i hashes index, (calls ++ [call])[i]? = some (.merkleRootAndBranch hashes index) ∧
          hashes[p]? = some x ∧ ∀ (k : Nat) height, i < k →
            (calls ++ [call])[k]? = some (.invalidateBlock height) → p < height := by
      intro hOld hLast
      obtain ⟨i, hashes, index, hGet, hx, hNot⟩ := ih hOld
      have hi := (List.getElem?_eq_some_iff.mp hGet).1
      refine ⟨i, hashes, index, by rwa [getElem?_append_left hi], hx, ?_⟩
      intro k height hk hGetK
      rcases Nat.lt_or_ge k calls.length with hkLt | hkGe
      · rw [getElem?_append_left hkLt] at hGetK
        exact hNot k height hk hGetK
      · rw [getElem?_append_right hkGe] at hGetK
        obtain ⟨hZero, hEq⟩ := List.getElem?_eq_some_iff.mp hGetK
        have hk0 : k - calls.length = 0 := by simpa using hZero
        simp only [hk0, getElem_cons_zero] at hEq
        exact hLast height hEq
    cases call with
    | merkleRootAndBranch hashes index =>
      change hashes[p]?.or _ = some x at h
      cases hGet : hashes[p]? with
      | none =>
        rw [hGet] at h
        exact hBefore h nofun
      | some y =>
        rw [hGet] at h
        cases h
        refine ⟨calls.length, hashes, index, by simp, hGet, fun k height hk hGetK => ?_⟩
        rw [getElem?_eq_none (by simpa using hk)] at hGetK
        cases hGetK
    | invalidateBlock height =>
      change (if p < height then _ else none) = some x at h
      split at h
      · next hp =>
        refine hBefore h fun height' hEq => ?_
        cases hEq
        exact hp
      · cases h

theorem Legal.agree {calls rest : List Call} {hashes : List Sha256d} {index : Nat}
    (h : Legal (calls ++ .merkleRootAndBranch hashes index :: rest)) (p : Nat) (x y : Sha256d)
    (hx : calls.foldl remember (fun _ => none) p = some x) (hy : hashes[p]? = some y) : x = y := by
  by_contra hNe
  obtain ⟨i, hashes₀, index₀, hGet, hx, hNot⟩ := exists_call_of_remembered hx
  have hi := (List.getElem?_eq_some_iff.mp hGet).1
  obtain ⟨k, height, hik, hk, hGetK, hLe⟩ := h.unchanged i calls.length hashes₀ index₀ hashes index
    p x y hi (by rwa [getElem?_append_left hi])
    (by rw [getElem?_append_right le_rfl, Nat.sub_self]; rfl) hx hy hNe
  rw [getElem?_append_left hk] at hGetK
  exact absurd (hNot k height hik hGetK) (by omega)

/-- No legal sequence of calls panics, and it leaves a cache that is right for what is
remembered. -/
theorem exists_run (digest : Bytes → Sha256d) {calls : List Call} (h : Legal calls) :
    ∃ tree, calls.foldlM (step digest) new = some tree ∧
      LevelsOk digest (calls.foldl remember fun _ => none) tree.levels := by
  induction calls using List.reverseRecOn with
  | nil => exact ⟨new, rfl, nofun⟩
  | append_singleton calls call ih =>
    obtain ⟨tree, hRun, hOk⟩ := ih h.take
    rw [foldlM_append, hRun, foldl_append]
    cases call with
    | merkleRootAndBranch hashes index =>
      have hIndex := h.index_lt hashes index (by simp)
      obtain ⟨root, branch, tree', hCall, hOk', -⟩ :=
        merkleRootAndBranch_spec hOk h.agree (getElem?_eq_getElem hIndex)
      refine ⟨tree', ?_, hOk'⟩
      show (step digest tree (.merkleRootAndBranch hashes index) >>= pure) = some tree'
      rw [step, hCall]
      rfl
    | invalidateBlock height =>
      exact ⟨tree.invalidateBlock height, rfl, invalidateBlock_levelsOk hOk height⟩

/-- Every call of a legal sequence returns what a fresh tree returns, and folding the branch
over the hash at the index gives the root. -/
theorem merkleRootAndBranch_eq_fresh (digest : Bytes → Sha256d) (calls rest : List Call)
    (hashes : List Sha256d) (index : Nat)
    (h : Legal (calls ++ .merkleRootAndBranch hashes index :: rest)) :
    ∃ tree root branch tree' fresh hash, calls.foldlM (step digest) new = some tree ∧
      tree.merkleRootAndBranch digest hashes index = some ((root, branch), tree') ∧
      new.merkleRootAndBranch digest hashes index = some ((root, branch), fresh) ∧
      hashes[index]? = some hash ∧
      foldBranch (hashConcatenatedBytes digest) index hash branch = root := by
  obtain ⟨tree, hRun, hOk⟩ := exists_run digest h.take
  have hIndex := h.index_lt hashes index (by simp)
  have hHash := getElem?_eq_getElem hIndex
  obtain ⟨root, branch, tree', hCall, -, hClimb, hFold⟩ :=
    merkleRootAndBranch_spec hOk h.agree hHash
  have hNew : LevelsOk digest (fun _ => none) new.levels := nofun
  obtain ⟨root', branch', fresh, hFresh, -, hClimb', -⟩ :=
    merkleRootAndBranch_spec hNew nofun hHash
  rw [hClimb] at hClimb'
  cases hClimb'
  exact ⟨tree, root, branch, tree', fresh, _, hRun, hCall, hFresh, hHash, hFold⟩

namespace Sample

def hash (byte : UInt8) : Sha256d := .fill byte

/-- The first byte of the concatenation, repeated. -/
def digest (bytes : Bytes) : Sha256d := hash (bytes.headD 0)

/-- Three hashes, and the last one taken back. -/
def calls : List Call := [.merkleRootAndBranch [hash 1, hash 2, hash 3] 0, .invalidateBlock 2]

/-- Another hash in its place, and one more. -/
def reorged : List Sha256d := [hash 1, hash 2, hash 4, hash 5]

theorem legal_reorg : Legal (calls ++ [.merkleRootAndBranch reorged 3]) where
  index_lt hashes index hMem := by
    rcases mem_cons.mp hMem with hEq | hMem
    · cases hEq
      decide
    rcases mem_cons.mp hMem with hEq | hMem
    · cases hEq
    · cases mem_singleton.mp hMem
      decide
  unchanged i j hashes index hashes' index' p x y hij hi hj hx hy hNe := by
    have hLt : j < 3 := (List.getElem?_eq_some_iff.mp hj).1
    obtain ⟨rfl, rfl⟩ : i = 0 ∧ j = 2 := by
      rcases (by omega : (i = 0 ∧ j = 1) ∨ (i = 0 ∧ j = 2) ∨ (i = 1 ∧ j = 2)) with
        ⟨rfl, rfl⟩ | hBoth | ⟨rfl, rfl⟩
      · cases hj
      · exact hBoth
      · cases hi
    cases hi
    cases hj
    refine ⟨1, 2, Nat.zero_lt_one, Nat.one_lt_two, rfl, ?_⟩
    -- the first two hashes are the same
    rcases p with _ | _ | p
    · cases hx
      cases hy
      exact absurd rfl hNe
    · cases hx
      cases hy
      exact absurd rfl hNe
    · omega

end Sample

theorem reorged_eq_fresh :
    ∃ tree root branch tree' fresh hash,
      Sample.calls.foldlM (step Sample.digest) new = some tree ∧
      tree.merkleRootAndBranch Sample.digest Sample.reorged 3 = some ((root, branch), tree') ∧
      new.merkleRootAndBranch Sample.digest Sample.reorged 3 = some ((root, branch), fresh) ∧
      Sample.reorged[3]? = some hash ∧
      foldBranch (hashConcatenatedBytes Sample.digest) 3 hash branch = root :=
  merkleRootAndBranch_eq_fresh Sample.digest Sample.calls [] Sample.reorged 3 Sample.legal_reorg

end MerkleTree

end Ergon.Query
