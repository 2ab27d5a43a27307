import Ergon.Lib.Lists

/-!
# Topological orders

A graph is the list of its nodes, each with what it depends on; dependencies
that are no nodes do not count. A topological sort may give any order that
lists parents first, and fails exactly if there is none: `TopoOutcome` is the
set of its results, so that what is proved for all of them holds of every
implementation.

* `IsTopoOrder.before_of_precedes` — in every order a node comes after all it
  depends on, directly or not;
* `IsTopoOrder.promote` — a set that is closed under dependencies can come first.
-/

namespace Ergon.Lib

open List

variable {α : Type}

abbrev Graph (α : Type) := List (α × List α)

/-- Every node comes after the nodes it depends on; those in `done` came
before. -/
def ParentsFirst (g : Graph α) : List α → List α → Prop
  | _, [] => True
  | done, n :: rest =>
    (∀ e ∈ g, e.1 = n → ∀ p ∈ e.2, p ∈ g.map Prod.fst → p ∈ done) ∧
      ParentsFirst g (done ++ [n]) rest

structure IsTopoOrder (g : Graph α) (order : List α) : Prop where
  perm : order.Perm (g.map Prod.fst)
  parents : ParentsFirst g [] order

/-- What a topological sort may answer. -/
def TopoOutcome (g : Graph α) : Option (List α) → Prop
  | some order => IsTopoOrder g order
  | none => ¬ ∃ order, IsTopoOrder g order

variable {g : Graph α}

theorem parentsFirst_concat {done order : List α} {n : α} :
    ParentsFirst g done (order ++ [n]) ↔ ParentsFirst g done order ∧
      ∀ e ∈ g, e.1 = n → ∀ p ∈ e.2, p ∈ g.map Prod.fst → p ∈ done ++ order := by
  induction order generalizing done with
  | nil => simp [ParentsFirst]
  | cons m order ih =>
    simp only [cons_append, ParentsFirst, ih, and_assoc, append_assoc, nil_append]

/-- What comes before a node has its dependencies. -/
theorem ParentsFirst.before {done before rest : List α} {n : α}
    (h : ParentsFirst g done (before ++ n :: rest)) {e : α × List α} (he : e ∈ g) (hn : e.1 = n)
    {p : α} (hp : p ∈ e.2) (hNode : p ∈ g.map Prod.fst) : p ∈ done ++ before := by
  induction before generalizing done with
  | nil => simpa using h.1 e he hn p hp hNode
  | cons m before ih => simpa using ih h.2

/-- A graph whose dependencies are among those of another has its orders. -/
theorem ParentsFirst.of_edges {g g' : Graph α} {done order : List α} (h : ParentsFirst g done order)
    (hEdges : ∀ e ∈ g', ∀ p ∈ e.2, p ∈ g'.map Prod.fst →
      ∃ e' ∈ g, e'.1 = e.1 ∧ p ∈ e'.2 ∧ p ∈ g.map Prod.fst) : ParentsFirst g' done order := by
  induction order generalizing done with
  | nil => trivial
  | cons n order ih =>
    refine ⟨?_, ih h.2⟩
    intro e he hEq p hp hNode
    obtain ⟨e', he', hSame, hp', hNode'⟩ := hEdges e he p hp hNode
    exact h.1 e' he' (hSame.trans hEq) p hp' hNode'

/-! ## All dependencies of a node -/

/-- The node `n` depends on the node `p`. -/
def Graph.Edge (g : Graph α) (p n : α) : Prop :=
  p ∈ g.map Prod.fst ∧ ∃ e ∈ g, e.1 = n ∧ p ∈ e.2

/-- The node `n` depends on `p`, directly or through other nodes. -/
def Graph.Precedes (g : Graph α) : α → α → Prop := Relation.TransGen g.Edge

theorem ParentsFirst.before_of_edge {done before rest : List α} {p n : α}
    (h : ParentsFirst g done (before ++ n :: rest)) (hEdge : g.Edge p n) : p ∈ done ++ before := by
  obtain ⟨hNode, e, he, hn, hp⟩ := hEdge
  exact h.before he hn hp hNode

variable {order before rest : List α}

/-- In every order a node comes after all that it depends on. -/
theorem IsTopoOrder.before_of_precedes {p n : α} (h : IsTopoOrder g order)
    (hSplit : order = before ++ n :: rest) (hPrec : g.Precedes p n) : p ∈ before := by
  induction hPrec generalizing before rest with
  | single hEdge =>
    have hParents := h.parents
    rw [hSplit] at hParents
    exact hParents.before_of_edge hEdge
  | tail _ hEdge ih =>
    have hParents := h.parents
    rw [hSplit] at hParents
    obtain ⟨before', rest', rfl⟩ := append_of_mem (hParents.before_of_edge hEdge)
    have hEarlier : p ∈ before' := ih (hSplit.trans (by rw [append_assoc, cons_append]))
    exact mem_append_left _ hEarlier

/-- And before all that depends on it. -/
theorem IsTopoOrder.not_before_of_precedes {n p : α} (h : IsTopoOrder g order)
    (hNodup : order.Nodup) (hSplit : order = before ++ n :: rest) (hPrec : g.Precedes n p) :
    p ∉ before := by
  intro hp
  obtain ⟨first, mid, rfl⟩ := append_of_mem hp
  rw [append_assoc, cons_append] at hSplit
  have hEarlier := h.before_of_precedes hSplit hPrec
  rw [hSplit] at hNodup
  exact (nodup_append.mp hNodup).2.2 n hEarlier n (by simp) rfl

/-- Two nodes one of which depends on the other come in the same order everywhere. -/
theorem IsTopoOrder.mem_before_iff {before before' rest rest' : List α} {n p : α}
    (h : IsTopoOrder g (before ++ n :: rest)) (h' : IsTopoOrder g (before' ++ n :: rest'))
    (hNodup : (g.map Prod.fst).Nodup) (hRel : p = n ∨ g.Precedes p n ∨ g.Precedes n p) :
    p ∈ before ↔ p ∈ before' := by
  have hNodup₁ := h.perm.nodup_iff.mpr hNodup
  have hNodup₂ := h'.perm.nodup_iff.mpr hNodup
  rcases hRel with rfl | hPrec | hPrec
  · have hNot := fun hp => (nodup_append.mp hNodup₁).2.2 p hp p mem_cons_self rfl
    have hNot' := fun hp => (nodup_append.mp hNodup₂).2.2 p hp p mem_cons_self rfl
    exact iff_of_false hNot hNot'
  · exact iff_of_true (h.before_of_precedes rfl hPrec) (h'.before_of_precedes rfl hPrec)
  · exact iff_of_false (h.not_before_of_precedes hNodup₁ rfl hPrec)
      (h'.not_before_of_precedes hNodup₂ rfl hPrec)

theorem parentsFirst_append {done order order' : List α} :
    ParentsFirst g done (order ++ order') ↔
      ParentsFirst g done order ∧ ParentsFirst g (done ++ order) order' := by
  induction order generalizing done with
  | nil => simp [ParentsFirst]
  | cons n order ih =>
    simp only [cons_append, ParentsFirst, ih, and_assoc, append_assoc, nil_append]

section Promote

variable {g : Graph α} {D : α → Bool}

variable {done done' order : List α}

/-- A set that is closed under dependencies keeps its order when the rest is dropped. -/
theorem ParentsFirst.filter (hClosed : ∀ p n, g.Edge p n → D n = true → D p = true)
    (h : ParentsFirst g done order) (hDone : ∀ p ∈ done, D p = true → p ∈ done') :
    ParentsFirst g done' (order.filter D) := by
  induction order generalizing done done' with
  | nil => trivial
  | cons n order ih =>
    obtain ⟨hFirst, hRest⟩ := h
    by_cases hn : D n = true
    · rw [filter_cons_of_pos hn]
      refine ⟨?_, ih hRest ?_⟩
      · intro e he hEq p hp hNode
        exact hDone p (hFirst e he hEq p hp hNode) (hClosed p n ⟨hNode, e, he, hEq, hp⟩ hn)
      · intro p hp hD
        rcases mem_append.mp hp with hp | hp
        · exact mem_append_left _ (hDone p hp hD)
        · exact mem_append_right _ hp
    · rw [filter_cons_of_neg hn]
      refine ih hRest ?_
      intro p hp hD
      rcases mem_append.mp hp with hp | hp
      · exact hDone p hp hD
      · rw [mem_singleton.mp hp] at hD
        exact absurd hD hn

/-- The rest keeps its order once the set is done. -/
theorem ParentsFirst.filter_not (h : ParentsFirst g done order) (hDone : ∀ p ∈ done, p ∈ done')
    (hSet : ∀ p ∈ order, D p = true → p ∈ done') :
    ParentsFirst g done' (order.filter fun n => !D n) := by
  induction order generalizing done done' with
  | nil => trivial
  | cons n order ih =>
    obtain ⟨hFirst, hRest⟩ := h
    have hSet' : ∀ p ∈ order, D p = true → p ∈ done' :=
      fun p hp => hSet p (mem_cons_of_mem _ hp)
    by_cases hn : D n = true
    · rw [filter_cons_of_neg (by simp [hn])]
      exact ih hRest (forall_mem_concat hDone (hSet n mem_cons_self hn)) hSet'
    · rw [filter_cons_of_pos (by simp [hn])]
      refine ⟨fun e he hEq p hp hNode => hDone p (hFirst e he hEq p hp hNode), ih hRest ?_ ?_⟩
      · intro p hp
        rcases mem_append.mp hp with hp | hp
        · exact mem_append_left _ (hDone p hp)
        · exact mem_append_right _ hp
      · intro p hp hD
        exact mem_append_left _ (hSet' p hp hD)

/-- A set that is closed under dependencies can come first. -/
theorem IsTopoOrder.promote (hClosed : ∀ p n, g.Edge p n → D n = true → D p = true)
    {order : List α} (h : IsTopoOrder g order) :
    IsTopoOrder g (order.filter D ++ order.filter fun n => !D n) where
  perm := (filter_append_perm D order).trans h.perm
  parents := by
    rw [parentsFirst_append]
    refine ⟨h.parents.filter hClosed fun _ hp => absurd hp not_mem_nil, ?_⟩
    refine h.parents.filter_not (fun _ hp => absurd hp not_mem_nil) ?_
    intro p hp hD
    rw [nil_append]
    exact mem_filter.mpr ⟨hp, hD⟩

end Promote

/-- If `n` does not depend on `p`, some order has `n` first. -/
theorem IsTopoOrder.exists_before {g : Graph α} {order : List α} (h : IsTopoOrder g order)
    {n p : α} (hn : n ∈ order) (hp : p ∈ order) (hNe : p ≠ n) (hNot : ¬ g.Precedes p n) :
    ∃ before rest, IsTopoOrder g (before ++ p :: rest) ∧ n ∈ before := by
  classical
  -- the node `n` and all that it depends on come first
  let D : α → Bool := fun k => decide (k = n ∨ g.Precedes k n)
  have hClosed : ∀ k k', g.Edge k k' → D k' = true → D k = true := by
    intro k k' hEdge hD
    refine decide_eq_true (.inr ?_)
    rcases of_decide_eq_true hD with rfl | hPrec
    · exact .single hEdge
    · exact .head hEdge hPrec
  have hnD : D n = true := decide_eq_true (.inl rfl)
  have hpD : D p = false := decide_eq_false (not_or.mpr ⟨hNe, hNot⟩)
  have hRest : p ∈ order.filter fun k => !D k := mem_filter.mpr ⟨hp, by rw [hpD]; rfl⟩
  obtain ⟨mid, rest, hSplit⟩ := append_of_mem hRest
  refine ⟨order.filter D ++ mid, rest, ?_, ?_⟩
  · have hOrder := h.promote hClosed
    rwa [hSplit, ← append_assoc] at hOrder
  · exact mem_append_left _ (mem_filter.mpr ⟨hn, hnD⟩)

variable [DecidableEq α]

instance ParentsFirst.decidable (g : Graph α) :
    ∀ done order, Decidable (ParentsFirst g done order)
  | _, [] => .isTrue trivial
  | done, n :: rest =>
    have := ParentsFirst.decidable g (done ++ [n]) rest
    inferInstanceAs (Decidable (_ ∧ _))

instance (g : Graph α) (order : List α) : Decidable (IsTopoOrder g order) :=
  decidable_of_iff (order.Perm (g.map Prod.fst) ∧ ParentsFirst g [] order)
    ⟨fun h => ⟨h.1, h.2⟩, fun h => ⟨h.perm, h.parents⟩⟩

end Ergon.Lib
