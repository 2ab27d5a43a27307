import Mathlib.Data.Nat.Bitwise
import Ergon.Lib.Merkle

/-!
# Branches of a Merkle tree

`climb` goes up the layers over a list and collects, for an index, the sibling on
each layer. `foldBranch` combines a leaf with such a branch, by the bits of the
index. `subtree` is the node over a complete range of leaves: it depends on no
other leaf, so it can be kept when the list grows.

* `climb_spec` — climbing succeeds, and folding the branch gives the node above the
  leaf on the last layer;
* `subtree_of_agree` — a subtree is the same for leaves that agree below its end;
* `subtree_nextLayer` — the first nodes of a layer are subtrees.
-/

namespace Ergon.Lib

open List

variable {D : Type} {node : D → D → D}

/-- The last layer after `n` steps up from `l`, and the siblings of `index` on the way. -/
def climb (node : D → D → D) : Nat → List D → Nat → Option (List D × List D)
  | 0, l, _ => some (l, [])
  | n + 1, l, index => do
    let sibling ← (padEven l)[index ^^^ 1]?
    let (top, branch) ← climb node n (nextLayer node l) (index / 2)
    return (top, sibling :: branch)

/-- Combine a leaf with the siblings above it; an odd index stands on the right. -/
def foldBranch (node : D → D → D) : Nat → D → List D → D
  | _, d, [] => d
  | index, d, sibling :: branch =>
    foldBranch node (index / 2) (if index % 2 = 1 then node sibling d else node d sibling) branch

/-- The node of height `k` over the leaves from `j * 2 ^ k` on, if all of them are known. -/
def subtree (node : D → D → D) (leaf : Nat → Option D) : Nat → Nat → Option D
  | 0, j => leaf j
  | k + 1, j => do
    let left ← subtree node leaf k (2 * j)
    let right ← subtree node leaf k (2 * j + 1)
    return node left right

/-! ## Elements of a layer -/

theorem getElem?_pairUp : ∀ {l : List D} {j : Nat} {p : D × D},
    (pairUp l)[j]? = some p ↔ l[2 * j]? = some p.1 ∧ l[2 * j + 1]? = some p.2
  | [], j, p => by simp [pairUp]
  | [a], j, p => by simp [pairUp]
  | a :: b :: l, 0, (x, y) => by simp [pairUp]
  | a :: b :: l, j + 1, p => by
    rw [pairUp, getElem?_cons_succ, getElem?_pairUp]
    rfl

theorem pairUp_drop : ∀ (l : List D) (n : Nat), pairUp (l.drop (2 * n)) = (pairUp l).drop n
  | _, 0 => rfl
  | [], n + 1 => by simp [pairUp]
  | [a], n + 1 => by
    rw [drop_eq_nil_of_le (by rw [length_singleton]; omega)]
    rfl
  | a :: b :: l, n + 1 => by
    rw [pairUp, drop_succ_cons, ← pairUp_drop l n]
    rfl

variable {l : List D}

variable {d : D}

theorem getElem?_nextLayer {j : Nat} :
    (nextLayer node l)[j]? = some d ↔
      ∃ a b, (padEven l)[2 * j]? = some a ∧ (padEven l)[2 * j + 1]? = some b ∧ node a b = d := by
  rw [nextLayer, getElem?_map, Option.map_eq_some_iff]
  constructor
  · rintro ⟨⟨a, b⟩, hPair, rfl⟩
    obtain ⟨ha, hb⟩ := getElem?_pairUp.mp hPair
    exact ⟨a, b, ha, hb, rfl⟩
  · rintro ⟨a, b, ha, hb, rfl⟩
    exact ⟨(a, b), getElem?_pairUp.mpr ⟨ha, hb⟩, rfl⟩

theorem getElem?_padEven {i : Nat} (h : l[i]? = some d) : (padEven l)[i]? = some d := by
  unfold padEven
  split
  · exact h
  · rw [getElem?_append_left (List.getElem?_eq_some_iff.mp h).1]
    exact h

/-! ## Branches -/

theorem xor_one_eq (n : Nat) : n ^^^ 1 = if n % 2 = 1 then n - 1 else n + 1 := by
  split
  · next hOdd => exact Nat.xor_one_of_odd (Nat.odd_iff.mpr hOdd)
  · next hEven => exact Nat.xor_one_of_even (Nat.even_iff.mpr (by omega))

/-- The node above a leaf combines it with its sibling. -/
theorem exists_sibling (node : D → D → D) {index : Nat} (h : l[index]? = some d) :
    ∃ sibling, (padEven l)[index ^^^ 1]? = some sibling ∧ (nextLayer node l)[index / 2]? =
      some (if index % 2 = 1 then node sibling d else node d sibling) := by
  obtain ⟨hIndex, -⟩ := List.getElem?_eq_some_iff.mp h
  have hLength := length_padEven l
  have hSibling : index ^^^ 1 < (padEven l).length := by
    rw [xor_one_eq]
    split <;> omega
  refine ⟨(padEven l)[index ^^^ 1], getElem?_eq_getElem hSibling, ?_⟩
  have hPad := getElem?_padEven h
  have hGet := getElem?_eq_getElem hSibling
  rw [getElem?_nextLayer]
  generalize (padEven l)[index ^^^ 1] = sibling at hGet
  rw [xor_one_eq] at hGet
  split
  · next hOdd =>
    rw [if_pos hOdd] at hGet
    refine ⟨sibling, d, ?_, ?_, rfl⟩
    · rwa [show 2 * (index / 2) = index - 1 by omega]
    · rwa [show 2 * (index / 2) + 1 = index by omega]
  · next hEven =>
    rw [if_neg hEven] at hGet
    refine ⟨d, sibling, ?_, ?_, rfl⟩
    · rwa [show 2 * (index / 2) = index by omega]
    · rwa [show 2 * (index / 2) + 1 = index + 1 by omega]

/-- Climbing succeeds, and folding the branch gives the node above the leaf. -/
theorem climb_spec (node : D → D → D) (n : Nat) {index : Nat} (h : l[index]? = some d) :
    ∃ top branch, climb node n l index = some (top, branch) ∧
      top[index / 2 ^ n]? = some (foldBranch node index d branch) ∧
      (l.length ≤ 2 ^ n → top.length = 1) := by
  induction n generalizing l index d with
  | zero =>
    refine ⟨l, [], rfl, by rwa [Nat.pow_zero, Nat.div_one], fun hLength => ?_⟩
    have hPos := (List.getElem?_eq_some_iff.mp h).1
    omega
  | succ n ih =>
    obtain ⟨sibling, hSibling, hNode⟩ := exists_sibling node h
    obtain ⟨top, branch, hClimb, hTop, hOne⟩ := ih hNode
    refine ⟨top, sibling :: branch, ?_, ?_, fun hLength => hOne ?_⟩
    · rw [climb, hSibling]
      show (climb node n (nextLayer node l) (index / 2) >>= _) = _
      rw [hClimb]
      rfl
    · rwa [Nat.pow_succ, Nat.mul_comm, ← Nat.div_div_eq_div_mul]
    · rw [length_nextLayer]
      rw [Nat.pow_succ] at hLength
      omega

/-! ## Subtrees -/

variable {leaf : Nat → Option D}

theorem subtree_succ_eq_some {k j : Nat} :
    subtree node leaf (k + 1) j = some d ↔ ∃ left right, subtree node leaf k (2 * j) = some left ∧
      subtree node leaf k (2 * j + 1) = some right ∧ node left right = d := by
  rw [subtree]
  simp only [Option.bind_eq_bind, Option.bind_eq_some_iff, Option.pure_def, Option.some.injEq]
  constructor
  · rintro ⟨left, hLeft, right, hRight, hEq⟩
    exact ⟨left, right, hLeft, hRight, hEq⟩
  · rintro ⟨left, right, hLeft, hRight, hEq⟩
    exact ⟨left, hLeft, right, hRight, hEq⟩

/-- A subtree depends on the leaves below its end only. -/
theorem subtree_of_agree {leaf leaf' : Nat → Option D} {k j : Nat}
    (hAgree : ∀ p < (j + 1) * 2 ^ k, ∀ x, leaf p = some x → leaf' p = some x)
    (h : subtree node leaf k j = some d) : subtree node leaf' k j = some d := by
  induction k generalizing j d with
  | zero => exact hAgree j (by omega) d h
  | succ k ih =>
    obtain ⟨left, right, hLeft, hRight, rfl⟩ := subtree_succ_eq_some.mp h
    have hEnd : (2 * j + 1 + 1) * 2 ^ k = (j + 1) * 2 ^ (k + 1) := by ring
    have hStart : (2 * j + 1) * 2 ^ k ≤ (j + 1) * 2 ^ (k + 1) := by
      rw [← hEnd]
      exact Nat.mul_le_mul_right _ (Nat.le_succ _)
    refine subtree_succ_eq_some.mpr ⟨left, right, ih (fun p hp => ?_) hLeft,
      ih (fun p hp => ?_) hRight, rfl⟩
    · exact hAgree p (Nat.lt_of_lt_of_le hp hStart)
    · exact hAgree p (hEnd ▸ hp)

/-- Where the first `m` nodes of a layer are subtrees, so are the first `m / 2` of the next. -/
theorem subtree_nextLayer {k m : Nat}
    (h : ∀ j < m, ∃ d, l[j]? = some d ∧ subtree node leaf k j = some d) :
    ∀ j < m / 2, ∃ d, (nextLayer node l)[j]? = some d ∧ subtree node leaf (k + 1) j = some d := by
  intro j hj
  obtain ⟨left, hLeft, hSubLeft⟩ := h (2 * j) (by omega)
  obtain ⟨right, hRight, hSubRight⟩ := h (2 * j + 1) (by omega)
  exact ⟨node left right, getElem?_nextLayer.mpr ⟨left, right, getElem?_padEven hLeft,
    getElem?_padEven hRight, rfl⟩, subtree_succ_eq_some.mpr ⟨left, right, hSubLeft, hSubRight, rfl⟩⟩

end Ergon.Lib
