import Mathlib.Tactic

/-!
# Merkle roots with duplicated last nodes

The Merkle tree in which a layer of odd length repeats its last node. The node
function is only assumed to be injective on the pairs that the trees in
question really combine.

* `merkleRoot_inj_of_length` — equal roots over lists of equal length come from
  equal lists.
-/

namespace Ergon.Lib

open List

variable {D : Type}

/-- Repeat the last element of a list of odd length. -/
def padEven (l : List D) : List D := if l.length % 2 = 0 then l else l ++ l.getLast?.toList

/-- Pairs of neighbours; an element left over is dropped. -/
def pairUp : List D → List (D × D)
  | a :: b :: l => (a, b) :: pairUp l
  | _ => []

/-- The pairs that are combined to the next layer. -/
def merklePairs (l : List D) : List (D × D) := pairUp (padEven l)

def nextLayer (node : D → D → D) (l : List D) : List D :=
  (merklePairs l).map fun p => node p.1 p.2

/-- Combine layers until one node is left; each layer is shorter, so `fuel` of
the length is enough. -/
def merkleLoop (node : D → D → D) : Nat → List D → Option D
  | 0, l => l.getLast?
  | fuel + 1, l => if l.length ≤ 1 then l.getLast? else merkleLoop node fuel (nextLayer node l)

def merkleRoot (node : D → D → D) (l : List D) : Option D :=
  if l = [] then none else merkleLoop node l.length l

/-! ## Pairs -/

theorem length_pairUp : ∀ l : List D, (pairUp l).length = l.length / 2
  | [] => by simp [pairUp]
  | [_] => by simp [pairUp]
  | a :: b :: l => by
    rw [pairUp, length_cons, length_pairUp l, length_cons, length_cons]
    omega

theorem pairUp_inj : ∀ {l l' : List D}, l.length % 2 = 0 → l'.length % 2 = 0 →
    pairUp l = pairUp l' → l = l'
  | [], [], _, _, _ => rfl
  | [_], _, hEven, _, _ => absurd hEven (by simp)
  | _, [_], _, hEven, _ => absurd hEven (by simp)
  | [], _ :: _ :: _, _, _, h => nomatch h
  | _ :: _ :: _, [], _, _, h => nomatch h
  | a :: b :: l, a' :: b' :: l', hEven, hEven', h => by
    rw [pairUp, pairUp, List.cons.injEq, Prod.mk.injEq] at h
    obtain ⟨⟨rfl, rfl⟩, hRest⟩ := h
    rw [length_cons, length_cons] at hEven hEven'
    rw [pairUp_inj (by omega) (by omega) hRest]

theorem padEven_of_odd {l : List D} (h : l.length % 2 = 1) :
    ∃ x, padEven l = l ++ [x] ∧ l.getLast? = some x := by
  cases hLast : l.getLast? with
  | none =>
    rw [getLast?_eq_none_iff.mp hLast] at h
    cases h
  | some x => exact ⟨x, by rw [padEven, if_neg (by omega), hLast]; rfl, rfl⟩

theorem length_padEven (l : List D) : (padEven l).length = (l.length + 1) / 2 * 2 := by
  by_cases hEven : l.length % 2 = 0
  · rw [padEven, if_pos hEven]
    omega
  · obtain ⟨x, hPad, _⟩ := @padEven_of_odd D l (by omega)
    rw [hPad, length_append, length_singleton]
    omega

theorem length_merklePairs (l : List D) : (merklePairs l).length = (l.length + 1) / 2 := by
  rw [merklePairs, length_pairUp, length_padEven]
  omega

theorem length_nextLayer (node : D → D → D) (l : List D) :
    (nextLayer node l).length = (l.length + 1) / 2 := by
  rw [nextLayer, length_map, length_merklePairs]

theorem padEven_eq_of_merklePairs {l l' : List D} (h : merklePairs l = merklePairs l') :
    padEven l = padEven l' := by
  refine pairUp_inj ?_ ?_ h
  · rw [length_padEven]
    omega
  · rw [length_padEven]
    omega

/-- Lists of equal length are padded equally. -/
theorem eq_of_padEven {l l' : List D} (hLength : l.length = l'.length)
    (h : padEven l = padEven l') : l = l' := by
  by_cases hEven : l.length % 2 = 0
  · rwa [padEven, padEven, if_pos hEven, if_pos (hLength ▸ hEven)] at h
  · obtain ⟨x, hPad, _⟩ := @padEven_of_odd D l (by omega)
    obtain ⟨x', hPad', _⟩ := @padEven_of_odd D l' (by omega)
    rw [hPad, hPad'] at h
    exact (List.append_inj h hLength).1

/-! ## The layers of a tree -/

/-- `IsLayer node l m`: `m` is one of the layers of the tree over `l`. -/
inductive IsLayer (node : D → D → D) : List D → List D → Prop
  | self (l) : IsLayer node l l
  | next {l m} : 1 < l.length → IsLayer node (nextLayer node l) m → IsLayer node l m

/-- The pairs combined in the tree over `l`. -/
def Combines (node : D → D → D) (l : List D) (p : D × D) : Prop :=
  ∃ m, IsLayer node l m ∧ 1 < m.length ∧ p ∈ merklePairs m

variable {node : D → D → D}

theorem Combines.next {l : List D} {p : D × D} (hLength : 1 < l.length)
    (h : Combines node (nextLayer node l) p) : Combines node l p := by
  obtain ⟨m, hLayer, hm⟩ := h
  exact ⟨m, .next hLength hLayer, hm⟩

theorem merkleLoop_layer : ∀ (fuel : Nat) (l : List D), l ≠ [] → l.length ≤ fuel →
    ∃ r, merkleLoop node fuel l = some r ∧ IsLayer node l [r]
  | 0, l, hNe, hFuel => absurd (length_eq_zero_iff.mp (Nat.le_zero.mp hFuel)) hNe
  | fuel + 1, l, hNe, hFuel => by
    rw [merkleLoop]
    have hPos := length_pos_iff.mpr hNe
    by_cases hOne : l.length ≤ 1
    · obtain ⟨r, rfl⟩ := length_eq_one_iff.mp (by omega : l.length = 1)
      exact ⟨r, rfl, .self _⟩
    · -- the next layer is shorter and not empty
      have hNext := length_nextLayer node l
      rw [if_neg hOne]
      obtain ⟨r, hr, hLayer⟩ := merkleLoop_layer fuel (nextLayer node l)
        (length_pos_iff.mp (by omega)) (by omega)
      exact ⟨r, hr, .next (by omega) hLayer⟩

/-- The root is the last layer. -/
theorem isLayer_of_merkleRoot {l : List D} {r : D} (h : merkleRoot node l = some r) :
    IsLayer node l [r] := by
  rw [merkleRoot] at h
  split at h
  · cases h
  · next hNe =>
    obtain ⟨r', hr, hLayer⟩ := @merkleLoop_layer D node l.length l hNe le_rfl
    rw [hr] at h
    cases h
    exact hLayer

/-- A pair is combined in the first layer or later. -/
theorem Combines.cases_layer {l : List D} {p : D × D} (h : Combines node l p) :
    1 < l.length ∧ (p ∈ merklePairs l ∨ Combines node (nextLayer node l) p) := by
  obtain ⟨m, hLayer, hLong, hp⟩ := h
  cases hLayer with
  | self => exact ⟨hLong, .inl hp⟩
  | next hLength hRest => exact ⟨hLength, .inr ⟨m, hRest, hLong, hp⟩⟩

theorem not_combines_singleton {a : D} {p : D × D} : ¬ Combines node [a] p :=
  fun h => absurd h.cases_layer.1 (by simp)

/-! ## Equal roots -/

/-- `node` does not map two pairs of `P` to one value. -/
def InjOnPairs (node : D → D → D) (P : D × D → Prop) : Prop :=
  ∀ p q, P p → P q → node p.1 p.2 = node q.1 q.2 → p = q

theorem merklePairs_eq_of_nextLayer {P : D × D → Prop} (hInj : InjOnPairs node P) {l l' : List D}
    (hl : ∀ p ∈ merklePairs l, P p) (hl' : ∀ p ∈ merklePairs l', P p)
    (h : nextLayer node l = nextLayer node l') : merklePairs l = merklePairs l' := by
  rw [nextLayer, nextLayer] at h
  refine ext_getElem ?_ ?_
  · simpa using congrArg List.length h
  · intro i hi hi'
    refine hInj _ _ (hl _ (getElem_mem hi)) (hl' _ (getElem_mem hi')) ?_
    have hAt := congrArg (·[i]?) h
    simpa [hi, hi'] using hAt

theorem eq_of_layer_of_length {P : D × D → Prop} (hInj : InjOnPairs node P) {l m : List D}
    (h : IsLayer node l m) : ∀ {l' : List D}, m.length = 1 → IsLayer node l' m →
      l.length = l'.length → (∀ p, Combines node l p → P p) → (∀ p, Combines node l' p → P p) →
      l = l' := by
  induction h with
  | self l =>
    intro l' hOne h' hLength _ _
    cases h' with
    | self => rfl
    | next hLong _ => omega
  | @next l m hLong hLayer ih =>
    intro l' hOne h' hLength hl hl'
    cases h' with
    | self => omega
    | next hLong' hLayer' =>
      have hNext : nextLayer node l = nextLayer node l' :=
        ih hOne hLayer' (by rw [length_nextLayer, length_nextLayer, hLength])
          (fun p hp => hl p (hp.next hLong)) (fun p hp => hl' p (hp.next hLong'))
      have hPairs := merklePairs_eq_of_nextLayer hInj (fun p hp => hl p ⟨l, .self l, hLong, hp⟩)
        (fun p hp => hl' p ⟨l', .self l', hLong', hp⟩) hNext
      exact eq_of_padEven hLength (padEven_eq_of_merklePairs hPairs)

theorem merkleRoot_inj_of_length {l l' : List D} {r : D}
    (hInj : InjOnPairs node fun p => Combines node l p ∨ Combines node l' p)
    (hLength : l.length = l'.length)
    (h : merkleRoot node l = some r) (h' : merkleRoot node l' = some r) : l = l' :=
  eq_of_layer_of_length hInj (isLayer_of_merkleRoot h) rfl (isLayer_of_merkleRoot h') hLength
    (fun _ => .inl) (fun _ => .inr)

end Ergon.Lib
