import Ergon.Script.Compress
import Ergon.Node.Coins
import Ergon.Archival.Index

/-!
# Ergon — unspent outputs and spenders of the index mempool

`MempoolGroupUtxos` (`chronik-db/src/mem/group_utxos.rs`): the mempool outputs
that no mempool transaction spends, under the members (scripts, token IDs, plugin
groups) of their group. `MempoolSpentBy` (`chronik-db/src/mem/spent_by.rs`):
which mempool transaction spends an output.

Removing a transaction puts back the mempool outputs it spends, where they are
not unspent already, and takes out its own, where they are still unspent.

* `GroupUtxos.remove_snd`, `GroupUtxos.has_remove` — when that succeeds and what
  is unspent then;
* `insertSpentBy_eq_true`, `removeSpentBy_snd` — the same for the spenders.
-/

namespace Ergon

open Lib Archival

/-! ## Outputs under members -/

/-- An output under a member of a group. -/
abbrev MemberUtxo := Bytes × OutPoint

/-- The members of a group at the inputs and outputs of a transaction. -/
structure Members where
  inputs : List (Nat × Bytes)
  outputs : List (Nat × Bytes)

structure GroupUtxos where
  utxos : Column Bytes (Column OutPoint Unit)

namespace GroupUtxos

variable {g g' : GroupUtxos} {u v : MemberUtxo} {l : List MemberUtxo}

def empty : GroupUtxos := ⟨∅⟩

def has (g : GroupUtxos) (u : MemberUtxo) : Bool := g.utxos[u.1]?.any fun set => set.contains u.2

/-- Add an output, unless it is there. -/
def addUtxo (g : GroupUtxos) (u : MemberUtxo) : GroupUtxos × Bool :=
  let set := g.utxos[u.1]?.getD ∅
  if set.contains u.2 then (g, false) else (⟨g.utxos.insert u.1 (set.insert u.2 ())⟩, true)

/-- `remove_utxo`: members without outputs are cleaned up. -/
def removeUtxo (g : GroupUtxos) (u : MemberUtxo) : GroupUtxos × Bool :=
  match g.utxos[u.1]? with
  | none => (g, false)
  | some set =>
    if set.contains u.2 then
      let left := set.erase u.2
      (⟨if left.isEmpty then g.utxos.erase u.1 else g.utxos.insert u.1 left⟩, true)
    else (g, false)

/-- The mempool outputs that a transaction spends. -/
def spentUtxos (isMempoolTx : TxId → Bool) (tx : Tx) (inputs : List (Nat × Bytes)) :
    List MemberUtxo :=
  inputs.filterMap fun (idx, member) => tx.inputs[idx]?.bind fun input =>
    if isMempoolTx input.prevOut.txid then some (member, input.prevOut) else none

def ownUtxos (tx : Tx) (outputs : List (Nat × Bytes)) : List MemberUtxo :=
  outputs.map fun (idx, member) => (member, ⟨tx.txid, idx⟩)

def insert (g : GroupUtxos) (tx : Tx) (isMempoolTx : TxId → Bool) (members : Members) :
    GroupUtxos × Bool :=
  andThen (runEach addUtxo g (ownUtxos tx members.outputs)) fun g =>
    runEach removeUtxo g (spentUtxos isMempoolTx tx members.inputs)

def remove (g : GroupUtxos) (tx : Tx) (isMempoolTx : TxId → Bool) (members : Members) :
    GroupUtxos × Bool :=
  andThen (runEach addUtxo g (spentUtxos isMempoolTx tx members.inputs)) fun g =>
    runEach removeUtxo g (ownUtxos tx members.outputs)

/-- Outputs that a mempool transaction spends are not there, which is not an
error. -/
def removeMined (g : GroupUtxos) (tx : Tx) (members : Members) : GroupUtxos :=
  (ownUtxos tx members.outputs).foldl (fun g u => (g.removeUtxo u).1) g

/-! ### One output -/

/-- The outputs under a member. -/
def utxosOf (g : GroupUtxos) (member : Bytes) : Column OutPoint Unit := g.utxos[member]?.getD ∅

theorem has_eq (g : GroupUtxos) (u : MemberUtxo) : g.has u = (g.utxosOf u.1).contains u.2 := by
  unfold has utxosOf
  cases g.utxos[u.1]? with
  | none => simp
  | some set => rfl

theorem addUtxo_snd (g : GroupUtxos) (u : MemberUtxo) : (g.addUtxo u).2 = !g.has u := by
  rw [has_eq]
  show (if (g.utxosOf u.1).contains u.2 then (g, false) else _).2 = _
  split
  · next h => simp [h]
  · next h => simp [h]

theorem removeUtxo_snd (g : GroupUtxos) (u : MemberUtxo) : (g.removeUtxo u).2 = g.has u := by
  unfold removeUtxo has
  cases g.utxos[u.1]? with
  | none => rfl
  | some set =>
    by_cases h : set.contains u.2
    · simp [h]
    · simp [h]

theorem has_addUtxo (g : GroupUtxos) (u v : MemberUtxo) :
    (g.addUtxo u).1.has v = (g.has v || decide (v = u)) := by
  obtain ⟨member', o'⟩ := u
  obtain ⟨member, o⟩ := v
  show GroupUtxos.has (if (g.utxosOf member').contains o' then (g, false) else
    ((⟨g.utxos.insert member' ((g.utxosOf member').insert o' ())⟩ : GroupUtxos), true)).1 _ = _
  split
  · next h =>
    rw [has_eq]
    by_cases hSame : (member, o) = (member', o')
    · cases hSame
      simp_all
    · simp [hSame]
  · next h =>
    rw [has_eq, has_eq, utxosOf, Column.getElem?_insert]
    by_cases hMember : member' = member
    · subst hMember
      by_cases ho : o' = o
      · simp [ho]
      · simp [ho, eq_comm (a := o)]
    · simp [hMember, eq_comm (a := member), utxosOf]

theorem has_removeUtxo (g : GroupUtxos) (u v : MemberUtxo) :
    (g.removeUtxo u).1.has v = (g.has v && decide (v ≠ u)) := by
  obtain ⟨member', o'⟩ := u
  obtain ⟨member, o⟩ := v
  unfold removeUtxo
  cases hSet : g.utxos[member']? with
  | none =>
    have hNot : g.has (member', o') = false := by simp [has, hSet]
    by_cases hSame : (member, o) = (member', o')
    · simp [hSame, hNot]
    · simp [hSame]
  | some set =>
    have hNow : g.utxosOf member' = set := by simp [utxosOf, hSet]
    dsimp only
    split
    · next hIn =>
      have hLeft : (GroupUtxos.mk (if (set.erase o').isEmpty then g.utxos.erase member' else
          g.utxos.insert member' (set.erase o'))).utxosOf member =
          if member' = member then set.erase o' else g.utxosOf member := by
        split
        · next hEmpty =>
          rw [utxosOf, Column.getElem?_erase]
          split
          · exact (Std.ExtTreeMap.isEmpty_iff.mp hEmpty).symm
          · rfl
        · rw [utxosOf, Column.getElem?_insert]
          split
          · rfl
          · rfl
      rw [has_eq, has_eq, hLeft]
      by_cases hMember : member' = member
      · subst hMember
        by_cases ho : o' = o
        · simp [ho]
        · simp [ho, eq_comm (a := o), hNow]
      · simp [hMember, eq_comm (a := member)]
    · next hNot =>
      by_cases hSame : (member, o) = (member', o')
      · cases hSame
        simp [has_eq, hNow, hNot]
      · simp [hSame]

/-! ### All outputs of a transaction -/

theorem addAll_snd (g : GroupUtxos) (l : List MemberUtxo) :
    (runEach addUtxo g l).2 = true ↔ l.Nodup ∧ ∀ u ∈ l, g.has u = false :=
  runEach_once_snd has addUtxo_snd has_addUtxo g l

theorem has_addAll (h : (runEach addUtxo g l).2 = true) (v : MemberUtxo) :
    (runEach addUtxo g l).1.has v = true ↔ g.has v = true ∨ v ∈ l :=
  runEach_once_fst has has_addUtxo h v

/-- Being taken out is final. -/
theorem gone_removeUtxo (g : GroupUtxos) (u v : MemberUtxo) :
    (!(g.removeUtxo u).1.has v) = (!g.has v || decide (v = u)) := by
  rw [has_removeUtxo, Bool.not_and, decide_not, Bool.not_not]

theorem removeAll_snd (g : GroupUtxos) (l : List MemberUtxo) :
    (runEach removeUtxo g l).2 = true ↔ l.Nodup ∧ ∀ u ∈ l, g.has u = true := by
  have hOk : ∀ g u, (removeUtxo g u).2 = !!g.has u := fun g u => by
    rw [removeUtxo_snd, Bool.not_not]
  have h := runEach_once_snd (fun g u => !g.has u) hOk gone_removeUtxo g l
  simpa using h

theorem has_removeAll (h : (runEach removeUtxo g l).2 = true) (v : MemberUtxo) :
    (runEach removeUtxo g l).1.has v = true ↔ g.has v = true ∧ v ∉ l := by
  have hGone := runEach_once_fst (fun g u => !g.has u) gone_removeUtxo h v
  simp only [Bool.not_eq_true'] at hGone
  rw [← not_iff_not, Bool.not_eq_true, hGone, not_and_or, Bool.not_eq_true, not_not]

variable {tx : Tx} {isMempoolTx : TxId → Bool} {members : Members}

theorem mem_ownUtxos_iff {outputs : List (Nat × Bytes)} :
    u ∈ ownUtxos tx outputs ↔ u.2.txid = tx.txid ∧ (u.2.outIdx, u.1) ∈ outputs := by
  constructor
  · intro h
    obtain ⟨⟨idx, member⟩, hIn, rfl⟩ := List.mem_map.mp h
    exact ⟨rfl, hIn⟩
  · rintro ⟨hTxid, hIn⟩
    refine List.mem_map.mpr ⟨_, hIn, ?_⟩
    rw [← hTxid]

theorem mem_ownUtxos {outputs : List (Nat × Bytes)} (h : u ∈ ownUtxos tx outputs) :
    u.2.txid = tx.txid := (mem_ownUtxos_iff.mp h).1

theorem mem_spentUtxos_iff {inputs : List (Nat × Bytes)} :
    u ∈ spentUtxos isMempoolTx tx inputs ↔ isMempoolTx u.2.txid = true ∧
      ∃ (idx : Nat) (input : TxInput), tx.inputs[idx]? = some input ∧ input.prevOut = u.2 ∧
        (idx, u.1) ∈ inputs := by
  constructor
  · intro h
    obtain ⟨⟨idx, member⟩, hIn, hItem⟩ := List.mem_filterMap.mp h
    obtain ⟨input, hInput, hItem⟩ := Option.bind_eq_some_iff.mp hItem
    split at hItem
    · next hMempool =>
      cases hItem
      exact ⟨hMempool, idx, input, hInput, rfl, hIn⟩
    · cases hItem
  · rintro ⟨hMempool, idx, input, hInput, hPrev, hIn⟩
    refine List.mem_filterMap.mpr ⟨_, hIn, ?_⟩
    dsimp only
    rw [hInput, Option.bind_some, hPrev, if_pos hMempool]

theorem not_mem_spentUtxos (hOwn : isMempoolTx tx.txid = false)
    (hu : u ∈ ownUtxos tx members.outputs) :
    u ∉ spentUtxos isMempoolTx tx members.inputs := by
  intro hSpent
  have hIn := (mem_spentUtxos_iff.mp hSpent).1
  rw [mem_ownUtxos hu, hOwn] at hIn
  cases hIn

theorem remove_snd (hOwn : isMempoolTx tx.txid = false) :
    (g.remove tx isMempoolTx members).2 = true ↔
      (spentUtxos isMempoolTx tx members.inputs).Nodup ∧
      (∀ u ∈ spentUtxos isMempoolTx tx members.inputs, g.has u = false) ∧
      (ownUtxos tx members.outputs).Nodup ∧ ∀ u ∈ ownUtxos tx members.outputs, g.has u = true := by
  rw [remove, andThen_snd, ← and_assoc (c := _ ∧ _), ← addAll_snd, removeAll_snd]
  refine and_congr_right fun hAdded => and_congr_right fun _ => ?_
  refine forall₂_congr fun u hu => ?_
  -- what is put back is not the transaction's own
  rw [has_addAll hAdded, or_iff_left (not_mem_spentUtxos hOwn hu)]

theorem has_remove (h : (g.remove tx isMempoolTx members).2 = true) (v : MemberUtxo) :
    (g.remove tx isMempoolTx members).1.has v = true ↔
      (g.has v = true ∨ v ∈ spentUtxos isMempoolTx tx members.inputs) ∧
        v ∉ ownUtxos tx members.outputs := by
  rw [remove] at h ⊢
  have hAdded := (andThen_snd.mp h).1
  rw [andThen_of_true hAdded, has_removeAll (andThen_snd.mp h).2, has_addAll hAdded]

end GroupUtxos

/-! ## Spenders -/

structure SpentBy where
  txid : TxId
  inputIdx : Nat
deriving DecidableEq

/-- What a transaction spends, with the entries of its inputs. -/
def spentEntries (tx : Tx) : List (OutPoint × SpentBy) :=
  tx.inputs.zipIdx.map fun (input, idx) => (input.prevOut, ⟨tx.txid, idx⟩)

/-- `MempoolSpentBy::insert`. -/
def insertSpentBy (spentBy : Column OutPoint SpentBy) (tx : Tx) : Column OutPoint SpentBy × Bool :=
  runEach (fun spentBy (entry : OutPoint × SpentBy) =>
    match spentBy[entry.1]? with
    | none => (spentBy.insert entry.1 entry.2, true)
    | some _ => (spentBy, false)) spentBy (spentEntries tx)

/-- `MempoolSpentBy::remove`. -/
def removeSpentBy (spentBy : Column OutPoint SpentBy) (tx : Tx) : Column OutPoint SpentBy × Bool :=
  runEach (fun spentBy (entry : OutPoint × SpentBy) =>
    if spentBy[entry.1]? = some entry.2 then (spentBy.erase entry.1, true) else (spentBy, false))
    spentBy (spentEntries tx)

theorem mem_spentEntries {tx : Tx} {o : OutPoint} {by' : SpentBy} :
    (o, by') ∈ spentEntries tx ↔ by'.txid = tx.txid ∧
      ∃ input, tx.inputs[by'.inputIdx]? = some input ∧ input.prevOut = o := by
  constructor
  · intro h
    obtain ⟨⟨input, idx⟩, hIn, hEntry⟩ := List.mem_map.mp h
    cases hEntry
    exact ⟨rfl, input, List.mem_zipIdx_iff_getElem?.mp hIn, rfl⟩
  · rintro ⟨hTxid, input, hInput, rfl⟩
    refine List.mem_map.mpr ⟨(input, by'.inputIdx), List.mem_zipIdx_iff_getElem?.mpr hInput, ?_⟩
    rw [← hTxid]

theorem nodup_spentEntries (tx : Tx) : (spentEntries tx).Nodup := by
  refine List.Nodup.of_map (fun entry => entry.2.inputIdx) ?_
  have hIdx : (spentEntries tx).map (fun entry => entry.2.inputIdx) =
      List.range' 0 tx.inputs.length := by
    simp [spentEntries, Function.comp_def]
  rw [hIdx]
  exact List.nodup_range'

section

variable {spentBy spentBy' : Column OutPoint SpentBy} {tx : Tx}

/-- After a success every input has its entry, and nothing else changed. -/
theorem insertSpentBy_eq_true (h : insertSpentBy spentBy tx = (spentBy', true)) (o : OutPoint)
    (entry : SpentBy) :
    spentBy'[o]? = some entry ↔ spentBy[o]? = some entry ∨ (o, entry) ∈ spentEntries tx := by
  refine runEach_induct (P := fun done spentBy' => ∀ o entry, spentBy'[o]? = some entry ↔
    spentBy[o]? = some entry ∨ (o, entry) ∈ done) (by simp) ?_ h o entry
  intro done a rest now next hSplit hDone hStep o entry
  obtain ⟨o', entry'⟩ := a
  dsimp only at hStep
  split at hStep
  · next hFree =>
    cases hStep
    rw [Column.getElem?_insert]
    have hNow := hDone o entry
    by_cases ho : o' = o
    · subst ho
      rw [hFree] at hNow
      have hNot : ¬ (spentBy[o']? = some entry ∨ (o', entry) ∈ done) := fun h => nomatch hNow.mpr h
      rw [not_or] at hNot
      simp [hNot.1, hNot.2, eq_comm]
    · simp [ho, hNow, Ne.symm ho]
  · cases hStep

/-- It fails if two inputs spend one output, or if an input has no entry or that
of another. -/
theorem removeSpentBy_snd :
    (removeSpentBy spentBy tx).2 = true ↔ ((spentEntries tx).map Prod.fst).Nodup ∧
      ∀ entry ∈ spentEntries tx, spentBy[entry.1]? = some entry.2 := by
  unfold removeSpentBy
  generalize spentEntries tx = entries
  induction entries generalizing spentBy with
  | nil => simp [runEach]
  | cons first entries ih =>
    rw [runEach, andThen]
    by_cases hFirst : spentBy[first.1]? = some first.2
    · rw [if_pos hFirst, if_pos rfl, ih]
      simp only [Column.getElem?_erase, List.map_cons, List.nodup_cons, List.mem_map,
        List.forall_mem_cons, hFirst, true_and]
      constructor
      · rintro ⟨hNodup, hRest⟩
        refine ⟨⟨?_, hNodup⟩, fun entry hEntry => ?_⟩
        · rintro ⟨entry, hEntry, hSame⟩
          have hErased := hRest entry hEntry
          rw [if_pos hSame.symm] at hErased
          cases hErased
        · have hErased := hRest entry hEntry
          split at hErased
          · cases hErased
          · exact hErased
      · rintro ⟨⟨hNot, hNodup⟩, hRest⟩
        refine ⟨hNodup, fun entry hEntry => ?_⟩
        rw [if_neg fun hSame => hNot ⟨entry, hEntry, hSame.symm⟩]
        exact hRest entry hEntry
    · simp [hFirst]

theorem removeSpentBy_fst (h : (removeSpentBy spentBy tx).2 = true) (o : OutPoint)
    (entry : SpentBy) :
    (removeSpentBy spentBy tx).1[o]? = some entry ↔
      spentBy[o]? = some entry ∧ (o, entry) ∉ spentEntries tx := by
  refine runEach_induct (l := spentEntries tx) (s := spentBy)
    (P := fun done spentBy' => ∀ o entry, spentBy'[o]? = some entry ↔
      spentBy[o]? = some entry ∧ (o, entry) ∉ done) (by simp) ?_ (Prod.ext rfl h) o entry
  intro done a rest now next hSplit hDone hStep o entry
  obtain ⟨o', entry'⟩ := a
  dsimp only at hStep
  split at hStep
  · next hNow =>
    cases hStep
    rw [Column.getElem?_erase]
    have hOld := (hDone o' entry').mp hNow
    by_cases ho : o' = o
    · subst ho
      rw [if_pos rfl, hOld.1]
      refine ⟨nofun, fun ⟨hEntry, hNot⟩ => ?_⟩
      cases hEntry
      exact absurd (by simp) hNot
    · simp [ho, hDone, Ne.symm ho]
  · cases hStep

end

end Ergon
