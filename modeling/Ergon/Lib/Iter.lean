import Mathlib.Tactic

/-!
# Iterators that signal their end

An iterator is its `next` function. A loop over it stops at the first `none`,
whatever later calls would give; `Yields` says which items a loop gets.

* `Yields.chain` — a loop over two chained iterators gets the items of the
  first, then those of the second;
* `yields_matching` — an iterator that answers `none` for an element it has no
  item for yields the items up to that element;
* `takeMatching_eq_filterMap_iff` — so nothing is missed exactly if no element
  with an item follows one without.
-/

namespace Ergon.Lib

variable {σ τ α β : Type}

/-- Gives an item, or `none`, and where to go on. -/
abbrev Iter (σ β : Type) := σ → Option β × σ

/-- The items that a loop over the iterator gets. -/
inductive Yields (next : Iter σ β) : σ → List β → Prop
  | done {s : σ} (h : (next s).1 = none) : Yields next s []
  | item {s s' : σ} {b : β} {items : List β} (h : next s = (some b, s'))
      (hRest : Yields next s' items) : Yields next s (b :: items)

theorem Yields.unique {next : Iter σ β} {s : σ} {items items' : List β} (h : Yields next s items)
    (h' : Yields next s items') : items = items' := by
  induction h generalizing items' with
  | done hNone =>
    cases h' with
    | done _ => rfl
    | item hSome _ =>
      rw [hSome] at hNone
      cases hNone
  | item hSome _ ih =>
    cases h' with
    | done hNone =>
      rw [hSome] at hNone
      cases hNone
    | item hSome' hRest' =>
      cases hSome.symm.trans hSome'
      rw [ih hRest']

/-- An optional item, given once. -/
def optionNext : Iter (Option β) β := fun s => (s, none)

theorem yields_optionNext (s : Option β) : Yields optionNext s s.toList := by
  cases s with
  | none => exact .done rfl
  | some b => exact .item rfl (.done rfl)

/-- The first iterator until it answers `none`, from then on the second. -/
def chainNext (first : Iter σ β) (second : Iter τ β) : Iter (Option σ × τ) β
  | (none, t) => ((second t).1, (none, (second t).2))
  | (some s, t) =>
    match first s with
    | (some b, s') => (some b, (some s', t))
    | (none, _) => ((second t).1, (none, (second t).2))

section Chain

variable {first : Iter σ β} {second : Iter τ β}

theorem Yields.chain_none {t : τ} {items : List β} (h : Yields second t items) :
    Yields (chainNext first second) (none, t) items := by
  induction h with
  | done hNone => exact .done hNone
  | item hSome _ ih =>
    refine .item ?_ ih
    simp [chainNext, hSome]

theorem Yields.chain {s : σ} {t : τ} {items items' : List β} (h : Yields first s items)
    (h' : Yields second t items') :
    Yields (chainNext first second) (some s, t) (items ++ items') := by
  induction h with
  | @done s hNone =>
    -- the call that ends the first iterator asks the second one
    have hEnd : chainNext first second (some s, t) = chainNext first second (none, t) := by
      cases hFirst : first s with
      | mk x s' =>
        rw [hFirst] at hNone
        cases hNone
        simp [chainNext, hFirst]
    have hSecond : Yields (chainNext first second) (none, t) items' := h'.chain_none
    cases hSecond with
    | done hNone' => exact .done (by rw [hEnd]; exact hNone')
    | item hSome hRest => exact .item (hEnd.trans hSome) hRest
  | item hSome _ ih =>
    refine .item ?_ ih
    simp [chainNext, hSome]

end Chain

/-! ## Elements with and without an item -/

/-- Takes the next element and answers what `f` finds in it: `none` at the end
of the list, and also for an element without an item. -/
def matchingNext (f : α → Option β) : Iter (List α) β
  | [] => (none, [])
  | a :: l => (f a, l)

/-- The items of the elements before the first one without. -/
def takeMatching (f : α → Option β) : List α → List β
  | [] => []
  | a :: l =>
    match f a with
    | some b => b :: takeMatching f l
    | none => []

theorem yields_matching (f : α → Option β) (l : List α) :
    Yields (matchingNext f) l (takeMatching f l) := by
  induction l with
  | nil => exact .done rfl
  | cons a l ih =>
    cases ha : f a with
    | none =>
      rw [takeMatching, ha]
      exact .done ha
    | some b =>
      rw [takeMatching, ha]
      exact .item (by rw [matchingNext, ha]) ih

theorem length_takeMatching_le (f : α → Option β) (l : List α) :
    (takeMatching f l).length ≤ (l.filterMap f).length := by
  induction l with
  | nil => exact Nat.le_refl 0
  | cons a l ih =>
    cases ha : f a with
    | none => simp [takeMatching, ha]
    | some b => simpa [takeMatching, ha, List.filterMap_cons_some ha] using ih

/-- No element with an item comes after one without. -/
def MatchingFirst (f : α → Option β) (l : List α) : Prop :=
  l.Pairwise fun a a' => f a = none → f a' = none

theorem takeMatching_eq_filterMap_iff (f : α → Option β) (l : List α) :
    takeMatching f l = l.filterMap f ↔ MatchingFirst f l := by
  induction l with
  | nil => exact ⟨fun _ => .nil, fun _ => rfl⟩
  | cons a l ih =>
    unfold MatchingFirst at ih ⊢
    rw [List.pairwise_cons]
    cases ha : f a with
    | none =>
      -- everything after `a` is cut off
      rw [takeMatching, ha, List.filterMap_cons_none ha, eq_comm, List.filterMap_eq_nil_iff]
      constructor
      · intro hNone
        refine ⟨fun a' ha' _ => hNone a' ha', ?_⟩
        exact List.pairwise_of_forall_mem_list fun _ _ a' ha' _ => hNone a' ha'
      · rintro ⟨hFirst, _⟩ a' ha'
        exact hFirst a' ha' rfl
    | some b =>
      rw [takeMatching, ha, List.filterMap_cons_some ha, List.cons.injEq, eq_self, true_and, ih]
      exact ⟨fun h => ⟨nofun, h⟩, fun h => h.2⟩

end Ergon.Lib
