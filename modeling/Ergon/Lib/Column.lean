import Mathlib.Tactic

/-!
# Columns of a key-value store

A column is a finite map with extensional equality. A write batch is a list of
operations; a merge combines the stored value with an operand through the
column's merge operator, which may fail. `Column.write_eq_some_iff` reduces a
batch to what it does at every single key, so a batch that touches disjoint
keys can be analysed key by key.
-/

namespace Ergon.Lib

open List Option Std.ExtTreeMap

/-- A column of a key-value store. -/
abbrev Column (K V : Type) [Ord K] := Std.ExtTreeMap K V

/-- One write of a batch. -/
inductive ColumnOp (K V M : Type)
  | put (key : K) (value : V)
  | delete (key : K)
  | merge (key : K) (operand : M)

namespace ColumnOp

variable {K V M : Type}

def key : ColumnOp K V M → K
  | .put k _ => k
  | .delete k => k
  | .merge k _ => k

/-- What the write makes of the value at its key; `none` when the merge
operator fails. -/
def value (mrg : Option V → M → Option V) : ColumnOp K V M → Option V → Option (Option V)
  | .put _ v, _ => some (some v)
  | .delete _, _ => some none
  | .merge _ m, old => (mrg old m).map some

end ColumnOp

section ValueAt

variable {K V M : Type} [DecidableEq K] {mrg : Option V → M → Option V}

/-- What a batch does to the value at one key. -/
def valueAt (mrg : Option V → M → Option V) (k : K) :
    List (ColumnOp K V M) → Option V → Option (Option V)
  | [], v => some v
  | op :: ops, v => if op.key = k then (op.value mrg v).bind (valueAt mrg k ops)
    else valueAt mrg k ops v

@[simp] theorem valueAt_nil (k : K) (v : Option V) : valueAt mrg k [] v = some v := rfl

@[simp] theorem valueAt_put_self (k : K) (v : V) (w : Option V) :
    valueAt mrg k [.put k v] w = some (some v) := by
  simp [valueAt, ColumnOp.key, ColumnOp.value]

@[simp] theorem valueAt_delete_self (k : K) (w : Option V) :
    valueAt mrg k [.delete k] w = some none := by
  simp [valueAt, ColumnOp.key, ColumnOp.value]

theorem valueAt_append (k : K) (ops₁ ops₂ : List (ColumnOp K V M)) (v : Option V) :
    valueAt mrg k (ops₁ ++ ops₂) v = (valueAt mrg k ops₁ v).bind (valueAt mrg k ops₂) := by
  induction ops₁ generalizing v with
  | nil => rfl
  | cons op ops ih =>
    simp only [cons_append, valueAt]
    split
    · cases op.value mrg v with
      | none => rfl
      | some w => exact ih w
    · exact ih v

/-- A batch leaves keys it does not touch alone. -/
theorem valueAt_of_forall_ne {k : K} {ops : List (ColumnOp K V M)}
    (h : ∀ op ∈ ops, op.key ≠ k) (v : Option V) : valueAt mrg k ops v = some v := by
  induction ops with
  | nil => rfl
  | cons op ops ih =>
    rw [valueAt, if_neg (h op mem_cons_self)]
    exact ih fun o ho => h o (mem_cons_of_mem _ ho)

/-- Of the batches of several owners, only the one that owns the key matters. -/
theorem valueAt_flatMap {ι : Type} [DecidableEq ι] {f : ι → List (ColumnOp K V M)} {k : K} {i : ι}
    {l : List ι} (hi : i ∈ l) (hNodup : l.Nodup)
    (hOwn : ∀ j ∈ l, j ≠ i → ∀ op ∈ f j, op.key ≠ k) (v : Option V) :
    valueAt mrg k (l.flatMap f) v = valueAt mrg k (f i) v := by
  induction l with
  | nil => cases hi
  | cons j l ih =>
    rw [flatMap_cons, valueAt_append]
    rw [nodup_cons] at hNodup
    by_cases hji : j = i
    · -- the owner: all later batches touch other keys
      subst hji
      have hRest : ∀ w, valueAt mrg k (l.flatMap f) w = some w := by
        apply valueAt_of_forall_ne
        intro op hop
        obtain ⟨j', hj', hop'⟩ := mem_flatMap.mp hop
        exact hOwn j' (mem_cons_of_mem _ hj')
          (fun hEq => hNodup.1 (hEq ▸ hj')) op hop'
      cases valueAt mrg k (f j) v with
      | none => rfl
      | some w => exact hRest w
    · rw [valueAt_of_forall_ne (hOwn j mem_cons_self hji)]
      exact ih (by simpa [Ne.symm hji] using hi) hNodup.2
        fun j' hj' => hOwn j' (mem_cons_of_mem _ hj')

/-- Of the batches of a map's entries, only that of the entry owning the key
matters. -/
theorem valueAt_toList {I B : Type} [Ord I] [Std.TransOrd I] [Std.LawfulEqOrd I]
    {m : Column I B} {f : I × B → List (ColumnOp K V M)}
    {k : K} {i : I} {b : B} (hi : m[i]? = some b)
    (hOwn : ∀ j c, m[j]? = some c → j ≠ i → ∀ op ∈ f (j, c), op.key ≠ k) (v : Option V) :
    valueAt mrg k (m.toList.flatMap f) v = valueAt mrg k (f (i, b)) v := by
  classical
  refine valueAt_flatMap (mem_toList_iff_getElem?_eq_some.mpr hi) ?_ ?_ v
  · refine m.distinct_keys_toList.imp fun {x y} hne hEq => hne ?_
    rw [hEq]
    exact Std.ReflOrd.compare_self
  · intro e he hne op hop
    have hGet := mem_toList_iff_getElem?_eq_some.mp he
    refine hOwn e.1 e.2 hGet (fun hEq => hne ?_) op hop
    rw [hEq, hi] at hGet
    exact Prod.ext hEq (Option.some.inj hGet).symm

end ValueAt

/-! ## Columns -/

variable {K V M : Type} [Ord K] [Std.TransOrd K]

/-- Replace the value at a key, or remove it. -/
def Column.set (col : Column K V) (k : K) : Option V → Column K V
  | none => col.erase k
  | some v => col.insert k v

/-- Update every key of a list on its own; an update may remove a key, and may
fail. -/
def Column.updateAll {B : Type} (f : Option V → B → Option (Option V)) (col : Column K V)
    (ps : List (K × B)) : Option (Column K V) :=
  ps.foldlM (fun col p => (f col[p.1]? p.2).map (col.set p.1)) col

variable {col col' : Column K V}

variable {B : Type}

theorem Column.updateAll_cons {f : Option V → B → Option (Option V)} {p : K × B}
    {ps : List (K × B)} :
    col.updateAll f (p :: ps) = some col' ↔
      ∃ v, f col[p.1]? p.2 = some v ∧ (col.set p.1 v).updateAll f ps = some col' := by
  simp [updateAll, bind_eq_some_iff]

variable [Std.LawfulEqOrd K] [DecidableEq K]

theorem Column.getElem?_set (col : Column K V) (k k' : K) (v : Option V) :
    (col.set k v)[k']? = if k = k' then v else col[k']? := by
  cases v <;> simp [Column.set, Std.ExtTreeMap.getElem?_insert, Std.ExtTreeMap.getElem?_erase]

theorem Column.getElem?_insert (col : Column K V) (k k' : K) (v : V) :
    (col.insert k v)[k']? = if k = k' then some v else col[k']? :=
  Column.getElem?_set col k k' (some v)

theorem Column.getElem?_erase (col : Column K V) (k k' : K) :
    (col.erase k)[k']? = if k = k' then none else col[k']? :=
  Column.getElem?_set col k k' none

variable {col : Column K V}

theorem Column.getElem?_erase_eq_some {k k' : K} {v : V} :
    (col.erase k)[k']? = some v ↔ k' ≠ k ∧ col[k']? = some v := by
  rw [Column.getElem?_erase]
  split
  · next h => simp [h]
  · next h => simp [Ne.symm h]

theorem Column.getElem?_singleton {k k' : K} {v v' : V} :
    ((∅ : Column K V).insert k v)[k']? = some v' ↔ k = k' ∧ v = v' := by
  rw [Column.getElem?_insert]
  split
  · next h => simp [h]
  · next h => simp [h]

variable {k : K}

/-- Under a new key a value is added. -/
theorem Column.exists_insert (hNew : col[k]? = none) (v : V) {P : V → Prop} :
    (∃ (k' : K) (v' : V), (col.insert k v)[k']? = some v' ∧ P v') ↔
      (∃ (k' : K) (v' : V), col[k']? = some v' ∧ P v') ∨ P v := by
  constructor
  · rintro ⟨k', v', hGet, hP⟩
    rw [Column.getElem?_insert] at hGet
    split at hGet
    · cases hGet
      exact .inr hP
    · exact .inl ⟨k', v', hGet, hP⟩
  · rintro (⟨k', v', hGet, hP⟩ | hP)
    · refine ⟨k', v', ?_, hP⟩
      rw [Column.getElem?_insert, if_neg, hGet]
      rintro rfl
      rw [hNew] at hGet
      cases hGet
    · exact ⟨k, v, by rw [Column.getElem?_insert, if_pos rfl], hP⟩

def Column.applyOp (mrg : Option V → M → Option V) (col : Column K V)
    (op : ColumnOp K V M) : Option (Column K V) :=
  (op.value mrg col[op.key]?).map (col.set op.key)

/-- Apply a batch in order. -/
def Column.write (mrg : Option V → M → Option V) (col : Column K V) :
    List (ColumnOp K V M) → Option (Column K V)
  | [] => some col
  | op :: ops => (col.applyOp mrg op).bind fun col' => col'.write mrg ops

variable {mrg : Option V → M → Option V} {ops : List (ColumnOp K V M)}

/-- **Writing is pointwise.** A batch succeeds with a column exactly when it
does so at every key. -/
theorem Column.write_eq_some_iff :
    col.write mrg ops = some col' ↔ ∀ k, valueAt mrg k ops col[k]? = some col'[k]? := by
  induction ops generalizing col with
  | nil =>
    simp only [Column.write, valueAt_nil, Option.some.injEq]
    exact ⟨fun h k => by rw [h], fun h => Std.ExtTreeMap.ext_getElem? h⟩
  | cons op ops ih =>
    simp only [Column.write, Column.applyOp, valueAt]
    cases hv : op.value mrg col[op.key]? with
    | none =>
      simp only [map_none, bind_none, reduceCtorEq, false_iff]
      intro h
      have := h op.key
      simp [hv] at this
    | some w =>
      simp only [map_some, bind_some, ih, Column.getElem?_set]
      refine forall_congr' fun k => ?_
      by_cases hk : op.key = k
      · subst hk
        simp [hv]
      · simp [hk]

/-- A batch that succeeds at every key succeeds. -/
theorem Column.exists_write (h : ∀ k, ∃ v, valueAt mrg k ops col[k]? = some v) :
    ∃ col', col.write mrg ops = some col' := by
  induction ops generalizing col with
  | nil => exact ⟨col, rfl⟩
  | cons op ops ih =>
    obtain ⟨v, hv⟩ := h op.key
    rw [valueAt, if_pos rfl, bind_eq_some_iff] at hv
    obtain ⟨w, hw, -⟩ := hv
    obtain ⟨col', hCol⟩ := @ih (col.set op.key w) fun k => by
      obtain ⟨u, hu⟩ := h k
      rw [Column.getElem?_set]
      by_cases hk : op.key = k
      · subst hk
        rw [valueAt, if_pos rfl, hw, bind_some] at hu
        exact ⟨u, by rw [if_pos rfl, hu]⟩
      · rw [valueAt, if_neg hk] at hu
        exact ⟨u, by rw [if_neg hk, hu]⟩
    exact ⟨col', by rw [Column.write, Column.applyOp, hw]; exact hCol⟩

/-- What the batch gives at every key is what the column has then. -/
theorem Column.exists_write_spec {P : K → Option V → Prop}
    (h : ∀ k, ∃ v, valueAt mrg k ops col[k]? = some v ∧ P k v) :
    ∃ col', col.write mrg ops = some col' ∧ ∀ k, P k col'[k]? := by
  obtain ⟨col', hWrite⟩ := Column.exists_write fun k => (h k).imp fun _ => And.left
  refine ⟨col', hWrite, fun k => ?_⟩
  obtain ⟨v, hValue, hP⟩ := h k
  rw [Column.write_eq_some_iff.mp hWrite k] at hValue
  rwa [Option.some.inj hValue]

/-! ## Many keys at once -/

/-- Write one pair after the other. -/
def Column.putAll (col : Column K V) (ps : List (K × V)) : Column K V :=
  ps.foldl (fun c p => c.insert p.1 p.2) col

/-- Remove one key after the other. -/
def Column.eraseAll (col : Column K V) (ks : List K) : Column K V :=
  ks.foldl (fun c k => c.erase k) col

/-- The part of a column at some keys. -/
def Column.restrict (col : Column K V) (ks : List K) : Column K V :=
  ks.foldl (fun c k => col[k]?.elim c (c.insert k)) ∅

variable {ps : List (K × V)}

theorem Column.getElem?_putAll_of_not_mem (h : ∀ v, (k, v) ∉ ps) :
    (col.putAll ps)[k]? = col[k]? := by
  induction ps generalizing col with
  | nil => rfl
  | cons p ps ih =>
    have hRest : (Column.putAll (col.insert p.1 p.2) ps)[k]? = (col.insert p.1 p.2)[k]? :=
      ih fun v hv => h v (mem_cons_of_mem _ hv)
    have hNe : p.1 ≠ k := fun hEq => h p.2 (mem_cons.mpr (.inl (Prod.ext hEq.symm rfl)))
    rw [Column.getElem?_insert, if_neg hNe] at hRest
    exact hRest

theorem Column.getElem?_putAll_of_mem {v : V} (h : (k, v) ∈ ps)
    (hUnique : ∀ v', (k, v') ∈ ps → v' = v) : (col.putAll ps)[k]? = some v := by
  induction ps generalizing col with
  | nil => cases h
  | cons p ps ih =>
    by_cases hLater : (k, v) ∈ ps
    · exact ih hLater fun v' hv' => hUnique v' (mem_cons_of_mem _ hv')
    · obtain rfl | h := mem_cons.mp h
      · have hRest : (Column.putAll (col.insert k v) ps)[k]? = (col.insert k v)[k]? := by
          refine Column.getElem?_putAll_of_not_mem fun v' hv' => hLater ?_
          rwa [← hUnique v' (mem_cons_of_mem _ hv')]
        exact hRest.trans getElem?_insert_self
      · exact absurd h hLater

omit [Ord K] [Std.TransOrd K] [Std.LawfulEqOrd K] [DecidableEq K] in
/-- With every key once, the values are those of the list. -/
theorem Column.unique_of_nodup (hNodup : (ps.map Prod.fst).Nodup) {k : K} {v v' : V}
    (h : (k, v) ∈ ps) (h' : (k, v') ∈ ps) : v' = v :=
  congrArg Prod.snd (inj_on_of_nodup_map hNodup h' h rfl)

theorem Column.getElem?_putAll_empty (hUnique : (ps.map Prod.fst).Nodup) {v : V} :
    ((∅ : Column K V).putAll ps)[k]? = some v ↔ (k, v) ∈ ps := by
  refine ⟨fun h => ?_, fun h =>
    Column.getElem?_putAll_of_mem h fun v' hv' => Column.unique_of_nodup hUnique h hv'⟩
  by_contra hNot
  by_cases hKey : ∃ v', (k, v') ∈ ps
  · obtain ⟨v', hv'⟩ := hKey
    rw [Column.getElem?_putAll_of_mem hv' fun w hw => Column.unique_of_nodup hUnique hv' hw] at h
    cases h
    exact hNot hv'
  · rw [Column.getElem?_putAll_of_not_mem fun v' hv' => hKey ⟨v', hv'⟩] at h
    cases h

/-- A column of the elements of a list that have a value. -/
theorem Column.getElem?_putAll_filterMap {α : Type} {f : α → Option V} {key : α → K} {l : List α}
    (hKeys : (l.map key).Nodup) {a : α} (ha : a ∈ l) :
    ((∅ : Column K V).putAll (l.filterMap fun a => (f a).map fun v => (key a, v)))[key a]? = f a := by
  have hMem : ∀ v, (key a, v) ∈ l.filterMap (fun a => (f a).map fun v => (key a, v)) ↔
      f a = some v := by
    intro v
    rw [mem_filterMap]
    constructor
    · rintro ⟨a', ha', hEq⟩
      obtain ⟨v', hv', hPair⟩ := map_eq_some_iff.mp hEq
      cases inj_on_of_nodup_map hKeys ha' ha (congrArg Prod.fst hPair)
      exact hv'.trans (congrArg (fun p => some p.2) hPair)
    · exact fun hv => ⟨a, ha, by rw [hv]; rfl⟩
  cases hv : f a with
  | none =>
    refine Column.getElem?_putAll_of_not_mem fun v hIn => ?_
    rw [(hMem v).mp hIn] at hv
    cases hv
  | some v =>
    refine Column.getElem?_putAll_of_mem ((hMem v).mpr hv) fun v' hIn => ?_
    exact Option.some.inj (((hMem v').mp hIn).symm.trans hv)

/-- What one column has goes before what the other has. -/
theorem Column.getElem?_putAll_toList (col col' : Column K V) (k : K) :
    (col.putAll col'.toList)[k]? = col'[k]?.or col[k]? := by
  cases hk : col'[k]? with
  | none =>
    refine Column.getElem?_putAll_of_not_mem fun v hv => ?_
    rw [mem_toList_iff_getElem?_eq_some.mp hv] at hk
    cases hk
  | some v =>
    refine Column.getElem?_putAll_of_mem (mem_toList_iff_getElem?_eq_some.mpr hk)
      fun v' hv' => ?_
    rw [mem_toList_iff_getElem?_eq_some.mp hv'] at hk
    exact Option.some.inj hk

theorem Column.getElem?_eraseAll (col : Column K V) (ks : List K) (k : K) :
    (col.eraseAll ks)[k]? = if k ∈ ks then none else col[k]? := by
  induction ks generalizing col with
  | nil => rfl
  | cons k₀ ks ih =>
    have hRest : (col.eraseAll (k₀ :: ks))[k]? = (Column.eraseAll (col.erase k₀) ks)[k]? := rfl
    rw [hRest, ih, Column.getElem?_erase]
    by_cases hEq : k₀ = k
    · simp [hEq]
    · simp [hEq, Ne.symm hEq]

theorem Column.getElem?_restrict (col : Column K V) (ks : List K) (k : K) :
    (col.restrict ks)[k]? = if k ∈ ks then col[k]? else none := by
  have hFold : ∀ acc : Column K V,
      (ks.foldl (fun c k => col[k]?.elim c (c.insert k)) acc)[k]? =
        if k ∈ ks then col[k]?.or acc[k]? else acc[k]? := by
    induction ks with
    | nil => exact fun _ => rfl
    | cons k₀ ks ih =>
      intro acc
      rw [foldl_cons, ih]
      by_cases hEq : k₀ = k
      · subst hEq
        cases col[k₀]? <;> simp
      · have hSame : (col[k₀]?.elim acc (acc.insert k₀))[k]? = acc[k]? := by
          cases col[k₀]? with
          | none => rfl
          | some v => exact (Column.getElem?_insert acc k₀ k v).trans (if_neg hEq)
        simp [hSame, Ne.symm hEq]
  rw [Column.restrict, hFold]
  simp

theorem Column.getElem?_updateAll_of_not_mem {f : Option V → B → Option (Option V)}
    {ps : List (K × B)} (h : col.updateAll f ps = some col') (hNot : k ∉ ps.map Prod.fst) :
    col'[k]? = col[k]? := by
  induction ps generalizing col with
  | nil =>
    cases h
    rfl
  | cons p ps ih =>
    obtain ⟨v, -, hRest⟩ := Column.updateAll_cons.mp h
    rw [map_cons, mem_cons, not_or] at hNot
    rw [ih hRest hNot.2, Column.getElem?_set, if_neg (Ne.symm hNot.1)]

theorem Column.getElem?_updateAll_of_mem {f : Option V → B → Option (Option V)} {ps : List (K × B)}
    (hNodup : (ps.map Prod.fst).Nodup) (h : col.updateAll f ps = some col') {b : B}
    (hMem : (k, b) ∈ ps) : f col[k]? b = some col'[k]? := by
  induction ps generalizing col with
  | nil => cases hMem
  | cons p ps ih =>
    obtain ⟨v, hv, hRest⟩ := Column.updateAll_cons.mp h
    rw [map_cons, nodup_cons] at hNodup
    rcases mem_cons.mp hMem with rfl | hMem
    · rw [hv, Column.getElem?_updateAll_of_not_mem hRest hNodup.1, Column.getElem?_set, if_pos rfl]
    · have hNe : p.1 ≠ k := fun hEq => hNodup.1 (hEq ▸ List.mem_map_of_mem (f := Prod.fst) hMem)
      rw [← ih hNodup.2 hRest hMem, Column.getElem?_set, if_neg hNe]

/-- The entries of another column update only their own keys. -/
theorem Column.getElem?_updateAll_toList {f : Option V → B → Option (Option V)} {other : Column K B}
    (h : col.updateAll f other.toList = some col') (k : K) :
    (other[k]?.elim (some col[k]?) (f col[k]?)) = some col'[k]? := by
  cases hOther : other[k]? with
  | none =>
    refine congrArg some (Column.getElem?_updateAll_of_not_mem h fun hMem => ?_).symm
    obtain ⟨⟨k', b⟩, hPair, rfl⟩ := List.mem_map.mp hMem
    rw [mem_toList_iff_getElem?_eq_some, hOther] at hPair
    cases hPair
  | some b =>
    refine Column.getElem?_updateAll_of_mem ?_ h
      (mem_toList_iff_getElem?_eq_some.mpr hOther)
    rw [map_fst_toList_eq_keys]
    exact Std.ExtTreeMap.nodup_keys

/-- Collect entries, which fails if a key is there already. -/
def Column.emplaceAll (ps : List (K × V)) : Option (Column K V) :=
  ps.foldlM (fun col p => if p.1 ∈ col then none else some (col.insert p.1 p.2)) ∅

omit [DecidableEq K] in
theorem Column.emplaceAll_of_nodup (h : (ps.map Prod.fst).Nodup) :
    Column.emplaceAll ps = some ((∅ : Column K V).putAll ps) := by
  have hFold : ∀ (ps : List (K × V)) (col : Column K V), (ps.map Prod.fst).Nodup →
      (∀ p ∈ ps, p.1 ∉ col) →
      ps.foldlM (fun col p => if p.1 ∈ col then none else some (col.insert p.1 p.2)) col =
        some (col.putAll ps) := by
    intro ps
    induction ps with
    | nil => exact fun _ _ _ => rfl
    | cons p ps ih =>
      intro col hNodup hNew
      rw [map_cons, nodup_cons] at hNodup
      rw [foldlM_cons, if_neg (hNew p mem_cons_self)]
      refine ih _ hNodup.2 fun q hq hMem => ?_
      rcases Std.ExtTreeMap.mem_insert.mp hMem with hEq | hOld
      · rw [Std.LawfulEqOrd.compare_eq_iff_eq.mp hEq] at hNodup
        exact hNodup.1 (List.mem_map_of_mem hq)
      · exact hNew q (mem_cons_of_mem _ hq) hOld
  exact hFold ps ∅ h fun _ _ => Std.ExtTreeMap.not_mem_empty

/-- If no entry is lost, every key was there once. -/
theorem Column.nodup_of_size_putAll (h : ((∅ : Column K V).putAll ps).size = ps.length) :
    (ps.map Prod.fst).Nodup := by
  have hSubset : ((∅ : Column K V).putAll ps).keys ⊆ ps.map Prod.fst := by
    intro k hk
    by_contra hNot
    have hNone : ((∅ : Column K V).putAll ps)[k]? = none :=
      Column.getElem?_putAll_of_not_mem fun v hv => hNot (List.mem_map_of_mem hv)
    rw [Std.ExtTreeMap.mem_keys, mem_iff_isSome_getElem?, hNone] at hk
    cases hk
  have hPerm := (Std.ExtTreeMap.nodup_keys.subperm hSubset).perm_of_length_le
    (by rw [length_keys, h, length_map])
  exact hPerm.nodup_iff.mp Std.ExtTreeMap.nodup_keys

/-- The entries of a column give it back. -/
theorem Column.ofList_toList (col : Column K V) :
    (Std.ExtTreeMap.ofList col.toList : Column K V) = col := by
  have hDistinct := col.distinct_keys_toList
  apply Std.ExtTreeMap.ext_getElem?
  intro k
  cases hGet : col[k]? with
  | some v =>
    have hMem : (k, v) ∈ col.toList := mem_toList_iff_getElem?_eq_some.mpr hGet
    exact getElem?_ofList_of_mem Std.ReflCmp.compare_self hDistinct hMem
  | none =>
    apply getElem?_ofList_of_contains_eq_false
    have hNot : k ∉ col := by simpa using hGet
    simpa [map_fst_toList_eq_keys] using hNot

end Ergon.Lib
