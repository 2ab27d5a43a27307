import Mathlib.Tactic

/-!
# Bidirectional maps

A one-to-one relation that is looked up from either side. Inserting a pair
drops the pairs that share one of its sides, so that both stay unique.

* `BiMap.mem_insert` — what the relation is after an insert;
* `BiMap.getByLeft_eq_some`, `BiMap.getByRight_eq_some` — both lookups read
  the relation.
-/

namespace Ergon.Lib

open List

variable {L R : Type}

structure BiMap (L R : Type) where
  pairs : List (L × R)
  left_unique : (pairs.map Prod.fst).Nodup
  right_unique : (pairs.map Prod.snd).Nodup

namespace BiMap

def empty : BiMap L R := ⟨[], .nil, .nil⟩

instance : Membership (L × R) (BiMap L R) := ⟨fun b p => p ∈ b.pairs⟩

theorem not_mem_empty (p : L × R) : p ∉ (empty : BiMap L R) := not_mem_nil

variable {b : BiMap L R}

theorem right_inj {l : L} {r r' : R} (h : (l, r) ∈ b) (h' : (l, r') ∈ b) : r = r' :=
  congrArg Prod.snd (inj_on_of_nodup_map b.left_unique h h' rfl)

theorem left_inj {l l' : L} {r : R} (h : (l, r) ∈ b) (h' : (l', r) ∈ b) : l = l' :=
  congrArg Prod.fst (inj_on_of_nodup_map b.right_unique h h' rfl)

variable [DecidableEq L] [DecidableEq R]

def getByLeft (b : BiMap L R) (l : L) : Option R := (b.pairs.find? fun p => p.1 = l).map Prod.snd

def getByRight (b : BiMap L R) (r : R) : Option L := (b.pairs.find? fun p => p.2 = r).map Prod.fst

/-- The pairs that share no side with the new one. -/
def others (b : BiMap L R) (l : L) (r : R) : List (L × R) :=
  b.pairs.filter fun p => p.1 ≠ l ∧ p.2 ≠ r

theorem mem_others {l l' : L} {r r' : R} :
    (l', r') ∈ b.others l r ↔ (l', r') ∈ b ∧ l' ≠ l ∧ r' ≠ r := by
  rw [others, mem_filter, decide_eq_true_eq]
  rfl

def insert (b : BiMap L R) (l : L) (r : R) : BiMap L R where
  pairs := (l, r) :: b.others l r
  left_unique := by
    rw [map_cons, nodup_cons]
    refine ⟨fun hMem => ?_, b.left_unique.sublist (filter_sublist.map _)⟩
    obtain ⟨⟨l', r'⟩, hp, rfl⟩ := mem_map.mp hMem
    exact (mem_others.mp hp).2.1 rfl
  right_unique := by
    rw [map_cons, nodup_cons]
    refine ⟨fun hMem => ?_, b.right_unique.sublist (filter_sublist.map _)⟩
    obtain ⟨⟨l', r'⟩, hp, rfl⟩ := mem_map.mp hMem
    exact (mem_others.mp hp).2.2 rfl

/-- Collect pairs, later ones winning. -/
def ofList (ps : List (L × R)) : BiMap L R := ps.foldl (fun b p => b.insert p.1 p.2) empty

theorem mem_insert {l l' : L} {r r' : R} :
    (l', r') ∈ b.insert l r ↔ (l' = l ∧ r' = r) ∨ ((l', r') ∈ b ∧ l' ≠ l ∧ r' ≠ r) := by
  refine mem_cons.trans ?_
  rw [Prod.mk.injEq, mem_others]

omit [DecidableEq R] in
theorem getByLeft_eq_some {l : L} {r : R} : b.getByLeft l = some r ↔ (l, r) ∈ b := by
  unfold getByLeft
  constructor
  · intro h
    obtain ⟨⟨l', r'⟩, hFind, rfl⟩ := Option.map_eq_some_iff.mp h
    have hEq : l' = l := by simpa using find?_some hFind
    exact hEq ▸ mem_of_find?_eq_some hFind
  · intro h
    cases hFind : b.pairs.find? fun p => p.1 = l with
    | none => exact absurd (decide_eq_true rfl) (find?_eq_none.mp hFind _ h)
    | some p =>
      have hEq : p.1 = l := by simpa using find?_some hFind
      have hMem : (l, p.2) ∈ b := hEq ▸ mem_of_find?_eq_some hFind
      exact congrArg some (right_inj hMem h)

omit [DecidableEq L] in
theorem getByRight_eq_some {l : L} {r : R} : b.getByRight r = some l ↔ (l, r) ∈ b := by
  unfold getByRight
  constructor
  · intro h
    obtain ⟨⟨l', r'⟩, hFind, rfl⟩ := Option.map_eq_some_iff.mp h
    have hEq : r' = r := by simpa using find?_some hFind
    exact hEq ▸ mem_of_find?_eq_some hFind
  · intro h
    cases hFind : b.pairs.find? fun p => p.2 = r with
    | none => exact absurd (decide_eq_true rfl) (find?_eq_none.mp hFind _ h)
    | some p =>
      have hEq : p.2 = r := by simpa using find?_some hFind
      have hMem : (p.1, r) ∈ b := hEq ▸ mem_of_find?_eq_some hFind
      exact congrArg some (left_inj hMem h)

/-- A collected map holds only pairs it was given. -/
theorem mem_of_mem_ofList {ps : List (L × R)} {p : L × R} (h : p ∈ ofList ps) : p ∈ ps := by
  have hFold : ∀ (qs : List (L × R)) (b : BiMap L R),
      p ∈ qs.foldl (fun b q => b.insert q.1 q.2) b → p ∈ b ∨ p ∈ qs := by
    intro qs
    induction qs with
    | nil => exact fun _ h => .inl h
    | cons q qs ih =>
      intro b h
      obtain h | h := ih _ h
      · obtain ⟨h1, h2⟩ | ⟨h, _⟩ := mem_insert.mp h
        · exact .inr (mem_cons.mpr (.inl (Prod.ext h1 h2)))
        · exact .inl h
      · exact .inr (mem_cons_of_mem _ h)
  obtain h | h := hFold ps empty h
  · exact absurd h (not_mem_empty p)
  · exact h

end BiMap

end Ergon.Lib
