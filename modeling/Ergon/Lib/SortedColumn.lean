import Ergon.Lib.Column
import Ergon.Lib.SortedList

/-!
# Columns of sorted lists

A column whose values are lists sorted by a key, absent for the empty list. A batch
of merges edits single elements; what it makes of the column is said by the elements
of each list alone.

* `exists_write_edits` — a batch of insertions and then removals;
* `exists_write_inserts` — lists of insertions, one for each key of the column;
* `getElem?_write_lists` — whole lists put back, those left empty deleted.
-/

namespace Ergon.Lib

open List

variable {K α κ : Type}

/-- An edit of a sorted list. -/
inductive Edit (α κ : Type)
  | insert (a : α)
  | remove (k : κ)

/-- The list at a key. -/
def listAt [Ord K] [Std.TransOrd K] (col : Column K (List α)) (k : K) : List α := col[k]?.getD []

section Edits

variable [Ord κ] {key : α → κ}

def applyEdit (key : α → κ) (l : Option (List α)) : Edit α κ → Option (List α)
  | .insert a => insertBy key a (l.getD [])
  | .remove k => removeBy key k (l.getD [])

variable [Std.TransOrd κ] [Std.LawfulEqOrd κ]

/-- One insertion after the other. -/
theorem foldlM_insertBy {l as : List α} (hSorted : SortedBy key l) (hNodup : (as.map key).Nodup)
    (hFresh : ∀ a ∈ as, ∀ b ∈ l, key b ≠ key a) :
    ∃ l', as.foldlM (fun l a => insertBy key a l) l = some l' ∧ SortedBy key l' ∧
      ∀ b, b ∈ l' ↔ b ∈ l ∨ b ∈ as := by
  induction as generalizing l with
  | nil => exact ⟨l, rfl, hSorted, fun b => by simp⟩
  | cons a as ih =>
    rw [map_cons, nodup_cons] at hNodup
    obtain ⟨mid, hMid⟩ := exists_insertBy (hFresh a mem_cons_self)
    obtain ⟨-, hMidSorted, hMidMem⟩ := (insertBy_eq_some hSorted).mp hMid
    obtain ⟨l', hRest, hSorted', hMem⟩ := ih hMidSorted hNodup.2 (by
      intro a' ha' b hb hEq
      rcases (hMidMem b).mp hb with rfl | hb
      · exact hNodup.1 (hEq ▸ mem_map_of_mem ha')
      · exact hFresh a' (mem_cons_of_mem _ ha') b hb hEq)
    refine ⟨l', ?_, hSorted', fun b => ?_⟩
    · rw [foldlM_cons, hMid]
      exact hRest
    · rw [hMem, hMidMem, mem_cons]
      tauto

variable [DecidableEq K]

/-- Merges that insert. -/
theorem valueAt_inserts {M : Type} {mrg : Option (List α) → M → Option (List α)} {ins : α → M}
    (hMrg : ∀ old a, mrg old (ins a) = insertBy key a (old.getD [])) {k : K} {ps : List (K × α)}
    {old : Option (List α)} (hSorted : SortedBy key (old.getD []))
    (hNodup : (ps.map fun p => (p.1, key p.2)).Nodup)
    (hFresh : ∀ a, (k, a) ∈ ps → ∀ b ∈ old.getD [], key b ≠ key a) :
    ∃ new, valueAt mrg k (ps.map fun p => .merge p.1 (ins p.2)) old = some new ∧
      SortedBy key (new.getD []) ∧ ∀ b, b ∈ new.getD [] ↔ b ∈ old.getD [] ∨ (k, b) ∈ ps := by
  induction ps generalizing old with
  | nil => exact ⟨old, rfl, hSorted, fun b => by simp⟩
  | cons p ps ih =>
    obtain ⟨k₀, a⟩ := p
    rw [map_cons, nodup_cons] at hNodup
    rw [map_cons, valueAt, ColumnOp.key]
    by_cases hKey : k₀ = k
    · subst hKey
      obtain ⟨mid, hMid⟩ := exists_insertBy (hFresh a mem_cons_self)
      obtain ⟨-, hMidSorted, hMidMem⟩ := (insertBy_eq_some hSorted).mp hMid
      obtain ⟨new, hRest, hSorted', hMem⟩ := @ih (some mid) hMidSorted hNodup.2 (by
        intro a' ha' b hb hEq
        rcases (hMidMem b).mp hb with rfl | hb
        · exact hNodup.1 (mem_map.mpr ⟨(k₀, a'), ha', Prod.ext rfl hEq.symm⟩)
        · exact hFresh a' (mem_cons_of_mem _ ha') b hb hEq)
      refine ⟨new, ?_, hSorted', fun b => ?_⟩
      · rw [if_pos rfl, ColumnOp.value, hMrg, hMid]
        exact hRest
      · rw [hMem, Option.getD_some, hMidMem, mem_cons, Prod.mk.injEq]
        tauto
    · obtain ⟨new, hRest, hSorted', hMem⟩ := @ih old hSorted hNodup.2
        fun a' ha' => hFresh a' (mem_cons_of_mem _ ha')
      refine ⟨new, by rwa [if_neg hKey], hSorted', fun b => ?_⟩
      rw [hMem, mem_cons, Prod.mk.injEq]
      simp [Ne.symm hKey]

theorem valueAt_removes {k : K} {ks : List (K × κ)} {old : Option (List α)}
    (hSorted : SortedBy key (old.getD [])) (hNodup : ks.Nodup)
    (hIn : ∀ x, (k, x) ∈ ks → ∃ a ∈ old.getD [], key a = x) :
    ∃ new, valueAt (applyEdit key) k (ks.map fun p => .merge p.1 (.remove p.2)) old = some new ∧
      SortedBy key (new.getD []) ∧
      ∀ b, b ∈ new.getD [] ↔ b ∈ old.getD [] ∧ (k, key b) ∉ ks := by
  induction ks generalizing old with
  | nil => exact ⟨old, rfl, hSorted, fun b => by simp⟩
  | cons p ks ih =>
    obtain ⟨k₀, x⟩ := p
    rw [nodup_cons] at hNodup
    rw [map_cons, valueAt, ColumnOp.key]
    by_cases hKey : k₀ = k
    · subst hKey
      have hThere := hIn x mem_cons_self
      cases hMid : removeBy key x (old.getD []) with
      | none =>
        exfalso
        obtain ⟨a, ha, rfl⟩ := hThere
        obtain ⟨i, hSearch, -⟩ := hSorted.search_of_mem ha
        rw [removeBy, hSearch] at hMid
        cases hMid
      | some mid =>
        obtain ⟨-, hMidSorted, hMidMem⟩ := (removeBy_eq_some hSorted).mp hMid
        obtain ⟨new, hRest, hSorted', hMem⟩ := @ih (some mid) hMidSorted hNodup.2 (by
          intro y hy
          obtain ⟨a, ha, rfl⟩ := hIn y (mem_cons_of_mem _ hy)
          refine ⟨a, (hMidMem a).mpr ⟨ha, fun hEq => hNodup.1 (hEq ▸ hy)⟩, rfl⟩)
        refine ⟨new, ?_, hSorted', fun b => ?_⟩
        · rw [if_pos rfl, ColumnOp.value, applyEdit, hMid]
          exact hRest
        · rw [hMem, Option.getD_some, hMidMem, mem_cons, Prod.mk.injEq]
          tauto
    · obtain ⟨new, hRest, hSorted', hMem⟩ := @ih old hSorted hNodup.2
        fun y hy => hIn y (mem_cons_of_mem _ hy)
      refine ⟨new, by rwa [if_neg hKey], hSorted', fun b => ?_⟩
      rw [hMem, mem_cons, Prod.mk.injEq]
      simp [Ne.symm hKey]

end Edits

section Columns

variable [Ord K] [Std.TransOrd K] [Std.LawfulEqOrd K] [DecidableEq K]

section Sorted

variable [Ord κ] [Std.TransOrd κ] [Std.LawfulEqOrd κ] {key : α → κ} {col : Column K (List α)}

/-- Insertions of elements that are not there, then removals of elements that are. -/
theorem exists_write_edits (ps : List (K × α)) (ks : List (K × κ))
    (hSorted : ∀ k, SortedBy key (listAt col k)) (hNodup : (ps.map fun p => (p.1, key p.2)).Nodup)
    (hFresh : ∀ p ∈ ps, ∀ b ∈ listAt col p.1, key b ≠ key p.2) (hKeys : ks.Nodup)
    (hIn : ∀ k x, (k, x) ∈ ks → ∃ a, (a ∈ listAt col k ∨ (k, a) ∈ ps) ∧ key a = x) :
    ∃ col', col.write (applyEdit key) (ps.map (fun p => .merge p.1 (.insert p.2)) ++
        ks.map fun p => .merge p.1 (.remove p.2)) = some col' ∧
      ∀ k, SortedBy key (listAt col' k) ∧ ∀ b, b ∈ listAt col' k ↔
        (b ∈ listAt col k ∨ (k, b) ∈ ps) ∧ (k, key b) ∉ ks := by
  have hAt : ∀ k, ∃ new, valueAt (applyEdit key) k (ps.map (fun p => .merge p.1 (.insert p.2)) ++
      ks.map fun p => .merge p.1 (.remove p.2)) col[k]? = some new ∧
      SortedBy key (new.getD []) ∧ ∀ b, b ∈ new.getD [] ↔
        (b ∈ listAt col k ∨ (k, b) ∈ ps) ∧ (k, key b) ∉ ks := by
    intro k
    obtain ⟨mid, hMid, hMidSorted, hMidMem⟩ := valueAt_inserts
      (fun _ _ => (rfl : applyEdit key _ (.insert _) = _)) (hSorted k) hNodup
      fun a ha => hFresh (k, a) ha
    obtain ⟨new, hNew, hNewSorted, hNewMem⟩ := valueAt_removes hMidSorted hKeys (by
      intro x hx
      obtain ⟨a, ha, hKey⟩ := hIn k x hx
      exact ⟨a, (hMidMem a).mpr ha, hKey⟩)
    refine ⟨new, ?_, hNewSorted, fun b => ?_⟩
    · rw [valueAt_append, hMid]
      exact hNew
    · rw [hNewMem, hMidMem]
      rfl
  exact Column.exists_write_spec hAt

/-- A list of insertions for some of the keys; the operands carry their key. -/
theorem exists_write_inserts {mrg : Option (List α) → K × List α → Option (List α)}
    (hMrg : ∀ old p, mrg old p = p.2.foldlM (fun l a => insertBy key a l) (old.getD []))
    (more : Column K (List α)) (hSorted : ∀ k, SortedBy key (listAt col k))
    (hNodup : ∀ k, ((listAt more k).map key).Nodup)
    (hFresh : ∀ k, ∀ a ∈ listAt more k, ∀ b ∈ listAt col k, key b ≠ key a) :
    ∃ col', col.write mrg (more.toList.flatMap fun p => [.merge p.1 p]) = some col' ∧
      ∀ k, SortedBy key (listAt col' k) ∧
        (∀ b, b ∈ listAt col' k ↔ b ∈ listAt col k ∨ b ∈ listAt more k) ∧
        (col'[k]? = none ↔ col[k]? = none ∧ more[k]? = none) := by
  have hAt : ∀ k, ∃ new, valueAt mrg k (more.toList.flatMap fun p => [.merge p.1 p]) col[k]? =
      some new ∧ SortedBy key (new.getD []) ∧
        (∀ b, b ∈ new.getD [] ↔ b ∈ listAt col k ∨ b ∈ listAt more k) ∧
        (new = none ↔ col[k]? = none ∧ more[k]? = none) := by
    intro k
    cases hMore : more[k]? with
    | none =>
      refine ⟨col[k]?, valueAt_of_forall_ne ?_ _, hSorted k, fun b => ?_, by simp⟩
      · intro op hOp
        obtain ⟨⟨k', as⟩, hMem, hOp⟩ := mem_flatMap.mp hOp
        cases mem_singleton.mp hOp
        intro hEq
        cases hEq
        dsimp only [ColumnOp.key] at hMore
        rw [Std.ExtTreeMap.mem_toList_iff_getElem?_eq_some.mp hMem] at hMore
        cases hMore
      · rw [listAt, listAt, hMore]
        simp
    | some as =>
      have hList : listAt more k = as := by rw [listAt, hMore]; rfl
      obtain ⟨l', hFold, hSorted', hMem⟩ := foldlM_insertBy (hSorted k) (hList ▸ hNodup k)
        (hList ▸ hFresh k)
      refine ⟨some l', ?_, hSorted', fun b => by rw [hList]; exact hMem b, by simp⟩
      rw [valueAt_toList hMore fun j _ _ hNe op hOp => by
        cases mem_singleton.mp hOp
        exact hNe]
      rw [valueAt, ColumnOp.key, if_pos rfl, ColumnOp.value, hMrg]
      show (Option.map some _).bind _ = _
      rw [show as.foldlM (fun l a => insertBy key a l) (col[k]?.getD []) = some l' from hFold]
      rfl
  exact Column.exists_write_spec hAt

end Sorted

/-- Put a list back, or delete it if it is left empty. -/
def listOp {M : Type} (p : K × List α) : List (ColumnOp K (List α) M) :=
  [if p.2.isEmpty then .delete p.1 else .put p.1 p.2]

def listOps {M : Type} (lists : Column K (List α)) : List (ColumnOp K (List α) M) :=
  lists.toList.flatMap listOp

theorem getElem?_write_lists {M : Type} (mrg : Option (List α) → M → Option (List α))
    (col lists : Column K (List α)) :
    ∃ col' : Column K (List α), col.write mrg (listOps lists) = some col' ∧ ∀ k : K,
      col'[k]? = (lists[k]?.elim col[k]? fun l => if l.isEmpty then none else some l) ∧
      listAt col' k = lists[k]?.getD (listAt col k) := by
  have hOwn : ∀ (p : K × List α) (op : ColumnOp K (List α) M),
      op ∈ listOp p → op.key = p.1 := by
    intro p op hOp
    rw [mem_singleton.mp hOp]
    split <;> rfl
  have hAt : ∀ k : K, ∃ new, valueAt mrg k (listOps lists) col[k]? = some new ∧
      new = (lists[k]?.elim col[k]? fun l => if l.isEmpty then none else some l) ∧
      new.getD [] = lists[k]?.getD (listAt col k) := by
    intro k
    unfold listOps
    cases hLists : lists[k]? with
    | none =>
      refine ⟨col[k]?, valueAt_of_forall_ne (fun op hOp => ?_) _, rfl, rfl⟩
      obtain ⟨p, hMem, hOp⟩ := mem_flatMap.mp hOp
      rw [hOwn p op hOp]
      rintro rfl
      rw [Std.ExtTreeMap.mem_toList_iff_getElem?_eq_some.mp hMem] at hLists
      cases hLists
    | some l =>
      rw [valueAt_toList hLists fun j _ _ hNe op hOp => (hOwn _ op hOp).trans_ne hNe]
      dsimp only [Option.elim, listOp]
      split
      · next hEmpty =>
        exact ⟨none, valueAt_delete_self k _, rfl, (List.isEmpty_iff.mp hEmpty).symm⟩
      · exact ⟨some l, valueAt_put_self k _ _, rfl, rfl⟩
  exact Column.exists_write_spec hAt

end Columns

end Ergon.Lib
