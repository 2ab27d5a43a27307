import Ergon.Lib.Result
import Ergon.Lib.SortedColumn

/-!
# Reverse lookup

chronik-db finds blocks and txs by their hash through an index from a short hash of
the key to the serial numbers of all entries with that short hash. The full keys
stand in the data column only, so a lookup reads the data of each candidate.

Nothing is asked of the short hash: keys may share it as they like. What every batch
keeps (`Consistent`) is that the list of a short hash is sorted and has exactly the
serials whose data have a key with that short hash. Batches write the data column
together with the index, as the writers of blocks and txs do.
-/

namespace Ergon.ReverseLookup

open List Option

open Ergon.Lib

/-- What an index is built from: the short hash of a key, and the key of an entry. -/
structure LookupColumn (K H D : Type) where
  cheapHash : K → H
  dataKey : D → K

inductive IndexError (S : Type)
  | notInDataColumn (serial : S)
  -- a merge that fails with `SerialNumAlreadyExists` fails the batch
  | merge
deriving DecidableEq

section Model

variable {K S H D : Type} [DecidableEq K] [Ord S] [Std.TransOrd S] [Std.LawfulEqOrd S]
  [DecidableEq S] [Ord H] [Std.TransOrd H] [Std.LawfulEqOrd H] [DecidableEq H]

/-- The merge operator: serials are kept sorted, and none is inserted twice. -/
def applyOrderedList (nums : Option (List S)) (num : S) : Option (List S) :=
  insertBy id num (nums.getD [])

/-- The index and the data it points to. -/
structure Db (S H D : Type) [Ord S] [Ord H] where
  index : Column H (List S)
  data : Column S D

namespace LookupColumn

variable (col : LookupColumn K H D)

/-- The first of the serials whose data have the key. -/
def getFrom (data : Column S D) (key : K) : List S → Except (IndexError S) (Option (S × D))
  | [] => .ok none
  | serial :: serials => do
    let value ← orElse data[serial]? (.notInDataColumn serial)
    if col.dataKey value = key then return some (serial, value) else getFrom data key serials

def get (db : Db S H D) (key : K) : Except (IndexError S) (Option (S × D)) :=
  match db.index[col.cheapHash key]? with
  | none => .ok none
  | some serials => col.getFrom db.data key serials

/-- One key of a lookup of several: the data of its serials are the first of those
left. Fails when there are too few. -/
def scan (key : K) : List S → List (Option D) → Option (S × D) →
    Option (Option (S × D) × List (Option D))
  | [], dataLists, found => some (found, dataLists)
  | _ :: _, [], _ => none
  | serial :: serials, data :: dataLists, found =>
    scan key serials dataLists <| found.or <| data.bind fun data =>
      if col.dataKey data = key then some (serial, data) else none

def scanAll : List (List S × K) → List (Option D) → Option (List (Option (S × D)))
  | [], _ => some []
  | (serials, key) :: rest, dataLists => do
    let (found, dataLists) ← col.scan key serials dataLists none
    let results ← scanAll rest dataLists
    return found :: results

def getMulti (db : Db S H D) (keys : List K) : Option (List (Option (S × D))) :=
  let serialLists := keys.map fun key => db.index[col.cheapHash key]?.getD []
  let dataLists := serialLists.flatten.map fun serial => db.data[serial]?
  col.scanAll (serialLists.zip keys) dataLists

def insertPairs (pairs : List (S × K)) : List (ColumnOp H (List S) S) :=
  pairs.map fun pair => .merge (col.cheapHash pair.2) pair.1

/-- Taken from the entries changed so far, or else from the DB. -/
def getOrFetch (index : Column H (List S)) (newEntries : Column H (Std.ExtTreeSet S)) (h : H) :
    Std.ExtTreeSet S :=
  newEntries[h]?.getD (.ofList (index[h]?.getD []))

def deletePair (index : Column H (List S)) (newEntries : Column H (Std.ExtTreeSet S))
    (pair : S × K) : Except (IndexError S) (Column H (Std.ExtTreeSet S)) := do
  let h := col.cheapHash pair.2
  let serials := getOrFetch index newEntries h
  ensure (pair.1 ∈ serials) (.notInDataColumn pair.1)
  return newEntries.insert h (serials.erase pair.1)

/-- A short hash that has no serials any more is deleted from the index. -/
def entryOps (entry : H × Std.ExtTreeSet S) : List (ColumnOp H (List S) S) :=
  [if entry.2.isEmpty then .delete entry.1 else .put entry.1 entry.2.toList]

def deletePairs (index : Column H (List S)) (pairs : List (S × K)) :
    Except (IndexError S) (List (ColumnOp H (List S) S)) := do
  let newEntries ← pairs.foldlM (col.deletePair index) ∅
  return newEntries.toList.flatMap entryOps

end LookupColumn

/-! ## Batches -/

inductive Batch (K S D : Type)
  | insert (entries : List (S × D))
  | delete (pairs : List (S × K))

/-- Write a batch: the entries themselves and their index. -/
def LookupColumn.step (col : LookupColumn K H D) (db : Db S H D) :
    Batch K S D → Except (IndexError S) (Db S H D)
  | .insert entries => do
    let pairs := entries.map fun entry => (entry.1, col.dataKey entry.2)
    let index ← orElse (db.index.write applyOrderedList (col.insertPairs pairs)) .merge
    return ⟨index, db.data.putAll entries⟩
  | .delete pairs => do
    let ops ← col.deletePairs db.index pairs
    let index ← orElse (db.index.write applyOrderedList ops) .merge
    return ⟨index, db.data.eraseAll (pairs.map Prod.fst)⟩

/-- A batch inserts fresh serials with new keys, or deletes pairs that are live. -/
def LookupColumn.Legal (col : LookupColumn K H D) (db : Db S H D) : Batch K S D → Prop
  | .insert entries =>
    (entries.map Prod.fst).Nodup ∧ (∀ entry ∈ entries, db.data[entry.1]? = none) ∧
    (entries.map fun entry => col.dataKey entry.2).Nodup ∧
    ∀ entry ∈ entries, ∀ (serial : S) d, db.data[serial]? = some d →
      col.dataKey d ≠ col.dataKey entry.2
  | .delete pairs =>
    (pairs.map Prod.fst).Nodup ∧
    ∀ pair ∈ pairs, ∃ d, db.data[pair.1]? = some d ∧ col.dataKey d = pair.2

/-- The states of the index: every batch is legal. -/
inductive LookupColumn.Reached (col : LookupColumn K H D) : Db S H D → Prop
  | empty : col.Reached ⟨∅, ∅⟩
  | batch {db db' : Db S H D} (b : Batch K S D) : col.Reached db → col.Legal db b →
      col.step db b = .ok db' → col.Reached db'

/-! ## What batches keep -/

structure LookupColumn.Consistent (col : LookupColumn K H D) (db : Db S H D) : Prop where
  sorted : ∀ h : H, SortedBy id (db.index[h]?.getD [])
  serials : ∀ (h : H) (serial : S), serial ∈ db.index[h]?.getD [] ↔
    ∃ d, db.data[serial]? = some d ∧ col.cheapHash (col.dataKey d) = h
  keys : ∀ (serial serial' : S) d d', db.data[serial]? = some d → db.data[serial']? = some d' →
    col.dataKey d = col.dataKey d' → serial = serial'

namespace LookupColumn

variable {col : LookupColumn K H D} {db db' : Db S H D}

/-! ### Deleting -/

section Batches

omit [DecidableEq K]

variable {index : Column H (List S)}

omit [DecidableEq S] in
/-- A deletion succeeds when its serial is among those of the short hash, and takes it
out there. -/
theorem deletePair_spec {acc : Column H (Std.ExtTreeSet S)} {pair : S × K}
    (hMem : pair.1 ∈ getOrFetch index acc (col.cheapHash pair.2)) :
    ∃ acc', col.deletePair index acc pair = .ok acc' ∧ ∀ h serial,
      serial ∈ getOrFetch index acc' h ↔ serial ∈ getOrFetch index acc h ∧
        ¬ (serial = pair.1 ∧ col.cheapHash pair.2 = h) := by
  refine ⟨_, bind_eq_ok.mpr ⟨(), ensure_eq_ok.mpr hMem, rfl⟩, fun h serial => ?_⟩
  unfold getOrFetch
  rw [Column.getElem?_insert]
  by_cases hHash : col.cheapHash pair.2 = h
  · subst hHash
    rw [if_pos rfl, getD_some, Std.ExtTreeSet.mem_erase, Ne,
      Std.LawfulEqOrd.compare_eq_iff_eq, and_comm, and_iff_left rfl, eq_comm]
  · rw [if_neg hHash, and_iff_left fun hBoth => hHash hBoth.2]

omit [DecidableEq S] in
theorem deletePairs_spec {acc : Column H (Std.ExtTreeSet S)} {pairs : List (S × K)}
    (hNodup : (pairs.map Prod.fst).Nodup)
    (hMem : ∀ pair ∈ pairs, pair.1 ∈ getOrFetch index acc (col.cheapHash pair.2)) :
    ∃ acc', pairs.foldlM (col.deletePair index) acc = .ok acc' ∧ ∀ h serial,
      serial ∈ getOrFetch index acc' h ↔ serial ∈ getOrFetch index acc h ∧
        ¬ ∃ key, (serial, key) ∈ pairs ∧ col.cheapHash key = h := by
  induction pairs generalizing acc with
  | nil => exact ⟨acc, rfl, fun h serial => by simp⟩
  | cons pair pairs ih =>
    rw [map_cons, nodup_cons] at hNodup
    obtain ⟨mid, hFirst, hMid⟩ := deletePair_spec (hMem pair mem_cons_self)
    obtain ⟨acc', hRest, hAcc⟩ := @ih mid hNodup.2 (by
      intro other hOther
      refine (hMid _ _).mpr ⟨hMem other (mem_cons_of_mem _ hOther), fun hSame => hNodup.1 ?_⟩
      exact List.mem_map.mpr ⟨other, hOther, hSame.1⟩)
    refine ⟨acc', ?_, fun h serial => ?_⟩
    · rw [foldlM_cons]
      exact bind_eq_ok.mpr ⟨mid, hFirst, hRest⟩
    · rw [hAcc, hMid, and_assoc, ← not_or]
      refine and_congr_right fun _ => not_congr ?_
      constructor
      · rintro (⟨rfl, hHash⟩ | ⟨key, hPair, hHash⟩)
        · exact ⟨pair.2, mem_cons_self, hHash⟩
        · exact ⟨key, mem_cons_of_mem _ hPair, hHash⟩
      · rintro ⟨key, hPair, hHash⟩
        rcases mem_cons.mp hPair with rfl | hPair
        · exact .inl ⟨rfl, hHash⟩
        · exact .inr ⟨key, hPair, hHash⟩

/-- Writing the changed entries back gives every short hash the serials it is left with. -/
theorem exists_write_entries (acc : Column H (Std.ExtTreeSet S))
    (hSorted : ∀ h : H, SortedBy id (index[h]?.getD [])) :
    ∃ index', index.write applyOrderedList (acc.toList.flatMap entryOps) = some index' ∧
      ∀ h : H, SortedBy id (index'[h]?.getD []) ∧ ∀ serial, serial ∈ index'[h]?.getD [] ↔
        serial ∈ getOrFetch index acc h := by
  have hOps : acc.toList.flatMap entryOps = (listOps (acc.map fun _ serials => serials.toList) :
      List (ColumnOp H (List S) S)) := by
    rw [listOps, Std.ExtTreeMap.toList_map, flatMap_map]
    refine flatMap_congr fun entry _ => ?_
    rw [entryOps, listOp, Std.ExtTreeSet.isEmpty_toList]
  obtain ⟨index', hWrite, hIndex⟩ := getElem?_write_lists applyOrderedList index
    (acc.map fun _ serials => serials.toList)
  refine ⟨index', hOps ▸ hWrite, fun h => ?_⟩
  have hList := (hIndex h).2
  rw [listAt, listAt, Std.ExtTreeMap.getElem?_map] at hList
  rw [hList, getOrFetch]
  cases acc[h]? with
  | none =>
    refine ⟨hSorted h, fun serial => ?_⟩
    rw [getD_none, Std.ExtTreeSet.mem_ofList, contains_iff_mem]
    rfl
  | some serials => exact ⟨serials.ordered_toList, fun serial => Std.ExtTreeSet.mem_toList⟩

/-! ### The invariant -/

omit [Std.LawfulEqOrd S] [DecidableEq S] [Std.LawfulEqOrd H] [DecidableEq H] in
theorem consistent_empty : col.Consistent (⟨∅, ∅⟩ : Db S H D) where
  sorted h := by
    rw [Std.ExtTreeMap.getElem?_empty]
    exact SortedBy.nil
  serials h serial := by
    rw [Std.ExtTreeMap.getElem?_empty, Std.ExtTreeMap.getElem?_empty]
    exact ⟨nofun, fun ⟨_, hGet, _⟩ => nomatch hGet⟩
  keys serial serial' d d' hGet := by
    rw [Std.ExtTreeMap.getElem?_empty] at hGet
    cases hGet

theorem getElem?_putAll_fresh {data : Column S D} {entries : List (S × D)}
    (hNodup : (entries.map Prod.fst).Nodup)
    (hFresh : ∀ entry ∈ entries, data[entry.1]? = none) {serial : S} {d : D} :
    (data.putAll entries)[serial]? = some d ↔ data[serial]? = some d ∨ (serial, d) ∈ entries := by
  by_cases hKey : ∃ d', (serial, d') ∈ entries
  · obtain ⟨d', hIn⟩ := hKey
    rw [Column.getElem?_putAll_of_mem hIn fun _ h => Column.unique_of_nodup hNodup hIn h,
      hFresh _ hIn]
    constructor
    · intro h
      cases h
      exact .inr hIn
    · rintro (h | h)
      · cases h
      · rw [Column.unique_of_nodup hNodup h hIn]
  · rw [Column.getElem?_putAll_of_not_mem fun d' h => hKey ⟨d', h⟩,
      or_iff_left fun h => hKey ⟨d, h⟩]

theorem Consistent.insert (h : col.Consistent db) {entries : List (S × D)}
    (hLegal : col.Legal db (.insert entries)) :
    ∃ db', col.step db (.insert entries) = .ok db' ∧ col.Consistent db' := by
  obtain ⟨hNodup, hFresh, hKeys, hNewKeys⟩ := hLegal
  -- the serials that are added, under their short hashes
  set added := entries.map fun entry => (col.cheapHash (col.dataKey entry.2), entry.1) with hAdded
  have hMem : ∀ hash serial, (hash, serial) ∈ added ↔
      ∃ d, (serial, d) ∈ entries ∧ col.cheapHash (col.dataKey d) = hash := by
    intro hash serial
    rw [hAdded, List.mem_map]
    constructor
    · rintro ⟨⟨serial', d⟩, hIn, hEq⟩
      cases hEq
      exact ⟨d, hIn, rfl⟩
    · rintro ⟨d, hIn, rfl⟩
      exact ⟨_, hIn, rfl⟩
  have hOnce : (added.map fun p => (p.1, id p.2)).Nodup := by
    refine List.Nodup.of_map Prod.snd ?_
    rw [hAdded, List.map_map, List.map_map]
    exact hNodup
  obtain ⟨index, hWrite, hIndex⟩ := Column.exists_write_spec fun hash =>
    valueAt_inserts (fun _ _ => (rfl : applyOrderedList _ _ = _)) (h.sorted hash) hOnce (by
      rintro serial hIn other hOld rfl
      obtain ⟨d, hEntry, -⟩ := (hMem _ _).mp hIn
      obtain ⟨d', hGet, -⟩ := (h.serials hash other).mp hOld
      cases (hFresh _ hEntry).symm.trans hGet)
  have hOps : col.insertPairs (entries.map fun entry => (entry.1, col.dataKey entry.2)) =
      added.map fun p => .merge p.1 p.2 := by
    rw [insertPairs, hAdded, List.map_map, List.map_map]
    rfl
  refine ⟨⟨index, db.data.putAll entries⟩, ?_, ?_⟩
  · exact bind_eq_ok.mpr ⟨index, orElse_eq_ok.mpr (hOps ▸ hWrite), rfl⟩
  have hData : ∀ serial d, (db.data.putAll entries)[serial]? = some d ↔
      db.data[serial]? = some d ∨ (serial, d) ∈ entries :=
    fun _ _ => getElem?_putAll_fresh hNodup hFresh
  refine ⟨fun hash => (hIndex hash).1, fun hash serial => ?_, ?_⟩
  · rw [(hIndex hash).2, h.serials, hMem]
    constructor
    · rintro (⟨d, hGet, hHash⟩ | ⟨d, hEntry, hHash⟩)
      · exact ⟨d, (hData _ _).mpr (.inl hGet), hHash⟩
      · exact ⟨d, (hData _ _).mpr (.inr hEntry), hHash⟩
    · rintro ⟨d, hGet, hHash⟩
      rcases (hData _ _).mp hGet with hGet | hEntry
      · exact .inl ⟨d, hGet, hHash⟩
      · exact .inr ⟨d, hEntry, hHash⟩
  · intro serial serial' d d' hGet hGet' hKey
    rcases (hData _ _).mp hGet with hGet | hEntry <;>
      rcases (hData _ _).mp hGet' with hGet' | hEntry'
    · exact h.keys _ _ _ _ hGet hGet' hKey
    · exact absurd hKey (hNewKeys _ hEntry' _ _ hGet)
    · exact absurd hKey.symm (hNewKeys _ hEntry _ _ hGet')
    · exact congrArg Prod.fst (inj_on_of_nodup_map hKeys hEntry hEntry' hKey)

theorem Consistent.delete (h : col.Consistent db) {pairs : List (S × K)}
    (hLegal : col.Legal db (.delete pairs)) :
    ∃ db', col.step db (.delete pairs) = .ok db' ∧ col.Consistent db' := by
  obtain ⟨hNodup, hLive⟩ := hLegal
  have hFetch : ∀ (hash : H) serial, serial ∈ getOrFetch db.index ∅ hash ↔
      serial ∈ db.index[hash]?.getD [] := by
    intro hash serial
    unfold getOrFetch
    rw [Std.ExtTreeMap.getElem?_empty, getD_none, Std.ExtTreeSet.mem_ofList, contains_iff_mem]
  have hIndexed : ∀ pair ∈ pairs, pair.1 ∈ getOrFetch db.index ∅ (col.cheapHash pair.2) := by
    intro pair hPair
    obtain ⟨d, hGet, hKey⟩ := hLive pair hPair
    exact (hFetch _ _).mpr ((h.serials _ _).mpr ⟨d, hGet, congrArg _ hKey⟩)
  obtain ⟨acc, hFold, hAcc⟩ := deletePairs_spec hNodup hIndexed
  obtain ⟨index, hWrite, hIndex⟩ := exists_write_entries acc h.sorted
  refine ⟨⟨index, db.data.eraseAll (pairs.map Prod.fst)⟩, ?_, ?_⟩
  · refine bind_eq_ok.mpr ⟨_, bind_eq_ok.mpr ⟨acc, hFold, rfl⟩, ?_⟩
    exact bind_eq_ok.mpr ⟨index, orElse_eq_ok.mpr hWrite, rfl⟩
  have hData : ∀ serial d, (db.data.eraseAll (pairs.map Prod.fst))[serial]? = some d ↔
      db.data[serial]? = some d ∧ serial ∉ pairs.map Prod.fst := by
    intro serial d
    rw [Column.getElem?_eraseAll]
    split
    · next hIn => exact ⟨nofun, fun hBoth => absurd hIn hBoth.2⟩
    · next hNot => exact ⟨fun hGet => ⟨hGet, hNot⟩, And.left⟩
  refine ⟨fun hash => (hIndex hash).1, fun hash serial => ?_, ?_⟩
  · rw [(hIndex hash).2, hAcc, hFetch, h.serials]
    constructor
    · rintro ⟨⟨d, hGet, hHash⟩, hNot⟩
      refine ⟨d, (hData _ _).mpr ⟨hGet, fun hIn => hNot ?_⟩, hHash⟩
      -- a deleted pair has the key of the entry
      obtain ⟨⟨_, key⟩, hPair, rfl⟩ := List.mem_map.mp hIn
      obtain ⟨d', hGet', hKey⟩ := hLive _ hPair
      cases hGet.symm.trans hGet'
      exact ⟨key, hPair, (congrArg col.cheapHash hKey).symm.trans hHash⟩
    · rintro ⟨d, hGet, hHash⟩
      obtain ⟨hGet, hNot⟩ := (hData _ _).mp hGet
      refine ⟨⟨d, hGet, hHash⟩, fun ⟨key, hPair, _⟩ => hNot ?_⟩
      exact List.mem_map.mpr ⟨_, hPair, rfl⟩
  · intro serial serial' d d' hGet hGet' hKey
    exact h.keys _ _ _ _ ((hData _ _).mp hGet).1 ((hData _ _).mp hGet').1 hKey

/-- No legal batch fails. -/
theorem Consistent.step (h : col.Consistent db) {b : Batch K S D} (hLegal : col.Legal db b) :
    ∃ db', col.step db b = .ok db' ∧ col.Consistent db' := by
  cases b with
  | insert entries => exact h.insert hLegal
  | delete pairs => exact h.delete hLegal

theorem Reached.consistent (h : col.Reached db) : col.Consistent db := by
  induction h with
  | empty => exact consistent_empty
  | batch b _ hLegal hStep ih =>
    obtain ⟨db'', hStep', hConsistent⟩ := ih.step hLegal
    cases hStep.symm.trans hStep'
    exact hConsistent

end Batches

/-! ## Lookups -/

section Lookups

omit [Std.LawfulEqOrd S] [DecidableEq S] [Std.LawfulEqOrd H] [DecidableEq H]

variable {data : Column S D}

/-- The entry of a serial, if it has the key. -/
def candidate (col : LookupColumn K H D) (data : Column S D) (key : K) (serial : S) :
    Option (S × D) :=
  data[serial]?.bind fun d => if col.dataKey d = key then some (serial, d) else none

omit [Ord H] [Std.TransOrd H] in
theorem candidate_eq_some {key : K} {serial serial' : S} {d : D} :
    col.candidate data key serial = some (serial', d) ↔
      serial = serial' ∧ data[serial]? = some d ∧ col.dataKey d = key := by
  unfold candidate
  rw [bind_eq_some_iff]
  constructor
  · rintro ⟨d', hGet, hIf⟩
    split at hIf
    · next hKey =>
      cases hIf
      exact ⟨rfl, hGet, hKey⟩
    · cases hIf
  · rintro ⟨rfl, hGet, hKey⟩
    exact ⟨d, hGet, if_pos hKey⟩

omit [Ord H] [Std.TransOrd H] in
theorem getFrom_eq {key : K} {serials : List S}
    (hData : ∀ serial ∈ serials, ∃ d, data[serial]? = some d) :
    col.getFrom data key serials = .ok (serials.findSome? (col.candidate data key)) := by
  induction serials with
  | nil => rfl
  | cons serial serials ih =>
    obtain ⟨d, hGet⟩ := hData serial mem_cons_self
    have hRest := ih fun s hs => hData s (mem_cons_of_mem _ hs)
    unfold getFrom
    rw [hGet, findSome?_cons]
    show (if col.dataKey d = key then _ else _) = _
    unfold candidate
    rw [hGet, bind_some]
    split
    · rfl
    · exact hRest

omit [Ord H] [Std.TransOrd H] in
theorem scan_eq {key : K} {serials : List S} {rest : List (Option D)} {found : Option (S × D)} :
    col.scan key serials (serials.map (fun serial => data[serial]?) ++ rest) found =
      some (found.or (serials.findSome? (col.candidate data key)), rest) := by
  induction serials generalizing found with
  | nil => simp [scan]
  | cons serial serials ih =>
    rw [map_cons, cons_append, scan, ih, findSome?_cons, Option.or_assoc]
    unfold candidate
    cases data[serial]? with
    | none => rfl
    | some d =>
      dsimp only [bind_some]
      split <;> simp

theorem getMulti_eq {db : Db S H D} {keys : List K} :
    col.getMulti db keys = some (keys.map fun key =>
      (db.index[col.cheapHash key]?.getD []).findSome? (col.candidate db.data key)) := by
  unfold getMulti
  dsimp only
  induction keys with
  | nil => rfl
  | cons key keys ih =>
    rw [map_cons, zip_cons_cons, flatten_cons, map_append, scanAll, scan_eq]
    show (col.scanAll _ _).bind _ = _
    rw [ih]
    rfl

/-- What a lookup of the key finds: the live entry with that key, if there is one. -/
def Finds (col : LookupColumn K H D) (db : Db S H D) (key : K) (found : Option (S × D)) : Prop :=
  ∀ serial d, found = some (serial, d) ↔ db.data[serial]? = some d ∧ col.dataKey d = key

theorem Consistent.finds (h : col.Consistent db) (key : K) :
    col.Finds db key
      ((db.index[col.cheapHash key]?.getD []).findSome? (col.candidate db.data key)) := by
  intro serial d
  constructor
  · intro hFound
    obtain ⟨serial', -, hCand⟩ := exists_of_findSome?_eq_some hFound
    obtain ⟨rfl, hGet⟩ := candidate_eq_some.mp hCand
    exact hGet
  · rintro ⟨hGet, hKey⟩
    have hIn : serial ∈ db.index[col.cheapHash key]?.getD [] :=
      (h.serials _ _).mpr ⟨d, hGet, congrArg _ hKey⟩
    have hSome : ((db.index[col.cheapHash key]?.getD []).findSome?
        (col.candidate db.data key)).isSome := by
      rw [findSome?_isSome_iff]
      exact ⟨serial, hIn, by rw [candidate_eq_some.mpr ⟨rfl, hGet, hKey⟩]; rfl⟩
    obtain ⟨⟨serial', d'⟩, hFound⟩ := isSome_iff_exists.mp hSome
    -- another entry with this key is the same one
    obtain ⟨_, -, hCand⟩ := exists_of_findSome?_eq_some hFound
    obtain ⟨rfl, hGet', hKey'⟩ := candidate_eq_some.mp hCand
    cases h.keys _ _ _ _ hGet hGet' (hKey.trans hKey'.symm)
    cases hGet.symm.trans hGet'
    exact hFound

theorem Consistent.get (h : col.Consistent db) (key : K) :
    col.get db key = .ok
      ((db.index[col.cheapHash key]?.getD []).findSome? (col.candidate db.data key)) := by
  unfold LookupColumn.get
  cases hIndex : db.index[col.cheapHash key]? with
  | none => rfl
  | some serials =>
    refine getFrom_eq fun serial hSerial => ?_
    have hIn : serial ∈ db.index[col.cheapHash key]?.getD [] := by
      rw [hIndex]
      exact hSerial
    obtain ⟨d, hGet, -⟩ := (h.serials _ _).mp hIn
    exact ⟨d, hGet⟩

end Lookups

/-- In every run of legal batches no batch fails, a lookup finds exactly the live entry
of its key, and a lookup of several keys finds that of each. -/
theorem Reached.lookups (h : col.Reached db) :
    (∀ key, ∃ found, col.get db key = .ok found ∧ col.Finds db key found) ∧
    (∀ keys, ∃ results, col.getMulti db keys = some results ∧
      List.Forall₂ (col.Finds db) keys results) ∧
    ∀ b, col.Legal db b → ∃ db', col.step db b = .ok db' := by
  have hConsistent := h.consistent
  refine ⟨fun key => ⟨_, hConsistent.get key, hConsistent.finds key⟩, fun keys => ?_, ?_⟩
  · refine ⟨_, getMulti_eq, ?_⟩
    rw [forall₂_map_right_iff]
    exact forall₂_same.mpr fun key _ => hConsistent.finds key
  · intro b hLegal
    obtain ⟨db', hStep, -⟩ := hConsistent.step hLegal
    exact ⟨db', hStep⟩

end LookupColumn

end Model

/-- All keys share their short hash. -/
def sameHash : LookupColumn Nat Nat Nat := ⟨fun _ => 0, id⟩

theorem sameHash_lookups :
    ∃ db : Db Nat Nat Nat, sameHash.step ⟨∅, ∅⟩ (.insert [(5, 7), (3, 8)]) = .ok db ∧
      ∃ found, sameHash.get db 8 = .ok found ∧ sameHash.Finds db 8 found := by
  have hLegal : sameHash.Legal (⟨∅, ∅⟩ : Db Nat Nat Nat) (.insert [(5, 7), (3, 8)]) := by
    simp [LookupColumn.Legal, sameHash]
  obtain ⟨db, hStep⟩ := (LookupColumn.Reached.lookups .empty).2.2 _ hLegal
  exact ⟨db, hStep, (LookupColumn.Reached.lookups (.batch _ .empty hLegal hStep)).1 8⟩

example : (sameHash.step (⟨∅, ∅⟩ : Db Nat Nat Nat) (.insert [(5, 7), (3, 8)])).bind
    (fun db => sameHash.get db 8) = .ok (some (3, 8)) := by decide +kernel

end Ergon.ReverseLookup
