import Ergon.Mem.GroupUtxos

/-!
# Ergon — what the unspent outputs of a group are

`GroupUtxos.Holds` says that the unspent outputs of a group are the outputs of the
mempool's transactions, under their members, that are not spent. The members of a
transaction are given; where an input spends an output of the mempool, its members
must be those of the output (`GroupUtxos.Matches`).

* `Holds.insert`, `Holds.remove` — inserting and removing a transaction succeeds and
  keeps this, if nothing in the mempool spends the transaction;
* `Holds.removeMined` — removing a mined transaction does not put back what it
  spends: the outputs that were spent before stay spent.
-/

namespace Ergon

open Lib Archival Column Std.ExtTreeMap

/-- A transaction of the mempool spends the output. -/
def SpentIn (txs : Column TxId MempoolTx) (o : OutPoint) : Prop :=
  ∃ (k : TxId) (row : MempoolTx), txs[k]? = some row ∧ ∃ input ∈ row.tx.inputs, input.prevOut = o

theorem spentIn_insert {txs : Column TxId MempoolTx} {k : TxId} (hNew : txs[k]? = none)
    (row : MempoolTx) (o : OutPoint) :
    SpentIn (txs.insert k row) o ↔ SpentIn txs o ∨ ∃ input ∈ row.tx.inputs, input.prevOut = o :=
  Column.exists_insert hNew row

theorem SpentIn.of_erase {txs : Column TxId MempoolTx} {k : TxId} {o : OutPoint}
    (h : SpentIn (txs.erase k) o) : SpentIn txs o := by
  obtain ⟨k', row, hRow, hInput⟩ := h
  exact ⟨k', row, (getElem?_erase_eq_some.mp hRow).2, hInput⟩

theorem spends_eq_false {tx : Tx} {txid : TxId} :
    spends tx txid = false ↔ ∀ input ∈ tx.inputs, input.prevOut.txid ≠ txid := by
  simp [spends]

namespace GroupUtxos

variable {g : GroupUtxos} {txs : Column TxId MempoolTx} {mem mem' : Tx → Members} {tx : Tx}
  {isMempoolTx : TxId → Bool} {members : Members} {u v : MemberUtxo}

/-- An output of a transaction of the mempool, under a member. -/
def OutputIn (txs : Column TxId MempoolTx) (mem : Tx → Members) (u : MemberUtxo) : Prop :=
  ∃ (k : TxId) (row : MempoolTx), txs[k]? = some row ∧ u ∈ ownUtxos row.tx (mem row.tx).outputs

/-- The unspent outputs are the outputs of the mempool that are not spent. -/
def Holds (g : GroupUtxos) (txs : Column TxId MempoolTx) (mem : Tx → Members)
    (spent : OutPoint → Prop) : Prop :=
  ∀ u, g.has u = true ↔ OutputIn txs mem u ∧ ¬ spent u.2

/-- The members of an input that spends an output of the mempool are those of the
output. -/
def Matches (txs : Column TxId MempoolTx) (mem : Tx → Members) (tx : Tx) : Prop :=
  ∀ (idx : Nat) (input : TxInput), tx.inputs[idx]? = some input →
    ∀ parent, txs[input.prevOut.txid]? = some parent →
      ∀ member, (idx, member) ∈ (mem tx).inputs ↔
        (input.prevOut.outIdx, member) ∈ (mem parent.tx).outputs

/-! ## Lists of outputs -/

theorem nodup_ownUtxos {outputs : List (Nat × Bytes)} (h : outputs.Nodup) (tx : Tx) :
    (ownUtxos tx outputs).Nodup := by
  refine h.map fun a b hEq => ?_
  simp only [Prod.mk.injEq, OutPoint.mk.injEq, true_and] at hEq
  exact Prod.ext hEq.2 hEq.1

theorem nodup_spentUtxos {inputs : List (Nat × Bytes)} (h : inputs.Nodup)
    (hInputs : (tx.inputs.map (·.prevOut)).Nodup) : (spentUtxos isMempoolTx tx inputs).Nodup := by
  refine h.filterMap fun a b u ha hb => ?_
  -- the outpoint determines the input, since no two inputs spend one output
  have hAt : ∀ (e : Nat × Bytes), (u ∈ tx.inputs[e.1]?.bind fun input =>
      if isMempoolTx input.prevOut.txid then some (e.2, input.prevOut) else none) →
      e.2 = u.1 ∧ (tx.inputs.map (·.prevOut))[e.1]? = some u.2 := by
    intro e he
    obtain ⟨input, hInput, he⟩ := Option.bind_eq_some_iff.mp he
    split at he
    · cases he
      exact ⟨rfl, by rw [List.getElem?_map, hInput]; rfl⟩
    · cases he
  obtain ⟨haMember, haPrev⟩ := hAt a ha
  obtain ⟨hbMember, hbPrev⟩ := hAt b hb
  obtain ⟨hLt, -⟩ := List.getElem?_eq_some_iff.mp haPrev
  refine Prod.ext ?_ (haMember.trans hbMember.symm)
  exact (List.getElem?_inj hLt hInputs).mp (haPrev.trans hbPrev.symm)

theorem insert_snd (hOwn : isMempoolTx tx.txid = false) :
    (g.insert tx isMempoolTx members).2 = true ↔
      ((ownUtxos tx members.outputs).Nodup ∧ ∀ u ∈ ownUtxos tx members.outputs, g.has u = false) ∧
      (spentUtxos isMempoolTx tx members.inputs).Nodup ∧
      ∀ u ∈ spentUtxos isMempoolTx tx members.inputs, g.has u = true := by
  rw [insert, andThen_snd, ← addAll_snd, removeAll_snd]
  refine and_congr_right fun hAdded => and_congr_right fun _ => ?_
  refine forall₂_congr fun u hu => ?_
  rw [has_addAll hAdded, or_iff_left fun hIn => not_mem_spentUtxos hOwn hIn hu]

theorem has_insert (h : (g.insert tx isMempoolTx members).2 = true) (v : MemberUtxo) :
    (g.insert tx isMempoolTx members).1.has v = true ↔
      (g.has v = true ∨ v ∈ ownUtxos tx members.outputs) ∧
        v ∉ spentUtxos isMempoolTx tx members.inputs := by
  rw [insert] at h ⊢
  have hAdded := (andThen_snd.mp h).1
  rw [andThen_of_true hAdded, has_removeAll (andThen_snd.mp h).2, has_addAll hAdded]

theorem has_removeMined (g : GroupUtxos) (tx : Tx) (members : Members) (v : MemberUtxo) :
    (g.removeMined tx members).has v = true ↔
      g.has v = true ∧ v ∉ ownUtxos tx members.outputs := by
  unfold removeMined
  generalize ownUtxos tx members.outputs = own
  induction own generalizing g with
  | nil => simp
  | cons u own ih =>
    rw [List.foldl_cons, ih, has_removeUtxo]
    simp [and_assoc]

/-! ## One operation -/

theorem outputIn_congr
    (hMem : ∀ (k : TxId) other, txs[k]? = some other → mem' other.tx = mem other.tx) :
    OutputIn txs mem' u ↔ OutputIn txs mem u := by
  refine exists₂_congr fun k other => and_congr_right fun hOther => ?_
  rw [hMem k other hOther]

variable {row : MempoolTx}

theorem outputIn_insert (hNew : txs[row.tx.txid]? = none)
    (hMem : ∀ (k : TxId) other, txs[k]? = some other → mem' other.tx = mem other.tx) :
    OutputIn (txs.insert row.tx.txid row) mem' u ↔
      OutputIn txs mem u ∨ u ∈ ownUtxos row.tx (mem' row.tx).outputs := by
  rw [← outputIn_congr hMem]
  exact Column.exists_insert hNew row

theorem OutputIn.txid (hKey : ∀ (k : TxId) row, txs[k]? = some row → row.tx.txid = k)
    (h : OutputIn txs mem u) :
    ∃ parent, txs[u.2.txid]? = some parent ∧ (u.2.outIdx, u.1) ∈ (mem parent.tx).outputs := by
  obtain ⟨k, row, hRow, hIn⟩ := h
  obtain ⟨hTxid, hIn⟩ := mem_ownUtxos_iff.mp hIn
  rw [hTxid, hKey k row hRow]
  exact ⟨row, hRow, hIn⟩

theorem OutputIn.of_parent (hKey : ∀ (k : TxId) row, txs[k]? = some row → row.tx.txid = k)
    {parent : MempoolTx} (hParent : txs[u.2.txid]? = some parent)
    (h : (u.2.outIdx, u.1) ∈ (mem parent.tx).outputs) : OutputIn txs mem u :=
  ⟨_, parent, hParent, mem_ownUtxos_iff.mpr ⟨(hKey _ parent hParent).symm, h⟩⟩

theorem Matches.erase (h : Matches txs mem tx) (txid : TxId) : Matches (txs.erase txid) mem tx :=
  fun idx input hInput parent hParent =>
    h idx input hInput parent (getElem?_erase_eq_some.mp hParent).2

/-- What the inputs spend, under the members of the inputs, is on the outputs of the
mempool. -/
theorem Matches.mem_spentUtxos (h : Matches txs mem tx)
    (hKey : ∀ (k : TxId) row, txs[k]? = some row → row.tx.txid = k) :
    u ∈ spentUtxos (fun id => txs.contains id) tx (mem tx).inputs ↔
      OutputIn txs mem u ∧ ∃ input ∈ tx.inputs, input.prevOut = u.2 := by
  rw [mem_spentUtxos_iff, ← isSome_getElem?_eq_contains, Option.isSome_iff_exists]
  constructor
  · rintro ⟨⟨parent, hParent⟩, idx, input, hInput, hPrev, hMember⟩
    refine ⟨.of_parent hKey hParent ?_, input, List.mem_of_getElem? hInput, hPrev⟩
    rw [← hPrev]
    exact (h idx input hInput parent (hPrev ▸ hParent) u.1).mp hMember
  · rintro ⟨hOutput, input, hInput, hPrev⟩
    obtain ⟨parent, hParent, hMember⟩ := hOutput.txid hKey
    obtain ⟨idx, hIdx⟩ := List.getElem?_of_mem hInput
    refine ⟨⟨parent, hParent⟩, idx, input, hIdx, hPrev, ?_⟩
    refine (h idx input hIdx parent (hPrev ▸ hParent) u.1).mpr ?_
    rwa [hPrev]

section

variable (hKey : ∀ (k : TxId) row, txs[k]? = some row → row.tx.txid = k)
  (hHolds : g.Holds txs mem (SpentIn txs))
include hKey hHolds

/-- **Insertion** of a new transaction that nothing in the mempool spends, and whose
inputs are not spent in the mempool. -/
theorem Holds.insert (hNew : txs[row.tx.txid]? = none)
    (hFirst : ∀ o : OutPoint, o.txid = row.tx.txid → ¬ SpentIn txs o)
    (hSelf : spends row.tx row.tx.txid = false) (hInputs : (row.tx.inputs.map (·.prevOut)).Nodup)
    (hFree : ∀ input ∈ row.tx.inputs, ¬ SpentIn txs input.prevOut)
    (hMem : ∀ (k : TxId) other, txs[k]? = some other → mem' other.tx = mem other.tx)
    (hMatch : Matches txs mem' row.tx) (hIn : (mem' row.tx).inputs.Nodup)
    (hOut : (mem' row.tx).outputs.Nodup) :
    (g.insert row.tx (fun id => txs.contains id) (mem' row.tx)).2 = true ∧
      (g.insert row.tx (fun id => txs.contains id) (mem' row.tx)).1.Holds
        (txs.insert row.tx.txid row) mem' (SpentIn (txs.insert row.tx.txid row)) := by
  have hNotIn : txs.contains row.tx.txid = false := by
    rw [← isSome_getElem?_eq_contains, hNew]
    rfl
  -- what an input spends is one of the unspent outputs, under the members of the input
  have hSpent : ∀ u, u ∈ spentUtxos (fun id => txs.contains id) row.tx (mem' row.tx).inputs ↔
      OutputIn txs mem u ∧ ∃ input ∈ row.tx.inputs, input.prevOut = u.2 := by
    intro u
    rw [hMatch.mem_spentUtxos hKey, outputIn_congr hMem]
  have hOk : (g.insert row.tx (fun id => txs.contains id) (mem' row.tx)).2 = true := by
    refine (insert_snd hNotIn).mpr ⟨⟨nodup_ownUtxos hOut _, fun u hu => ?_⟩,
      nodup_spentUtxos hIn hInputs, fun u hu => ?_⟩
    · by_contra hHas
      rw [Bool.not_eq_false] at hHas
      obtain ⟨parent, hParent, -⟩ := ((hHolds u).mp hHas).1.txid hKey
      rw [mem_ownUtxos hu, hNew] at hParent
      cases hParent
    · obtain ⟨hOutput, input, hInput, hPrev⟩ := (hSpent u).mp hu
      exact (hHolds u).mpr ⟨hOutput, hPrev ▸ hFree input hInput⟩
  refine ⟨hOk, fun u => ?_⟩
  rw [has_insert hOk, outputIn_insert hNew hMem, spentIn_insert hNew, hHolds u, hSpent u]
  constructor
  · rintro ⟨⟨hOutput, hUnspent⟩ | hOwn, hNot⟩
    · refine ⟨.inl hOutput, ?_⟩
      rintro (hOld | hInput)
      · exact hUnspent hOld
      · exact hNot ⟨hOutput, hInput⟩
    · refine ⟨.inr hOwn, ?_⟩
      rintro (hOld | ⟨input, hInput, hPrev⟩)
      · exact hFirst u.2 (mem_ownUtxos hOwn) hOld
      · exact spends_eq_false.mp hSelf input hInput (by rw [hPrev]; exact mem_ownUtxos hOwn)
  · rintro ⟨hOutput | hOwn, hUnspent⟩
    · exact ⟨.inl ⟨hOutput, fun hOld => hUnspent (.inl hOld)⟩, fun h => hUnspent (.inr h.2)⟩
    · exact ⟨.inr hOwn, fun h => hUnspent (.inr h.2)⟩

/-- **Removal** of a transaction that nothing in the mempool spends. -/
theorem Holds.remove {txid : TxId} (hRow : txs[txid]? = some row)
    (hUnspent : ∀ o : OutPoint, o.txid = txid → ¬ SpentIn txs o)
    (hInputs : (row.tx.inputs.map (·.prevOut)).Nodup)
    (hOnce : ∀ input ∈ row.tx.inputs, ¬ SpentIn (txs.erase txid) input.prevOut)
    (hMem : ∀ (k : TxId) other, (txs.erase txid)[k]? = some other → mem' other.tx = mem other.tx)
    (hMatch : Matches txs mem row.tx) (hIn : (mem row.tx).inputs.Nodup)
    (hOut : (mem row.tx).outputs.Nodup) :
    (g.remove row.tx (fun id => (txs.erase txid).contains id) (mem row.tx)).2 = true ∧
      (g.remove row.tx (fun id => (txs.erase txid).contains id) (mem row.tx)).1.Holds
        (txs.erase txid) mem' (SpentIn (txs.erase txid)) := by
  have hTxid := hKey txid row hRow
  have hNotIn : (txs.erase txid).contains row.tx.txid = false := by
    rw [← isSome_getElem?_eq_contains, hTxid, Column.getElem?_erase, if_pos rfl]
    rfl
  -- what is put back: the outputs of the others that the transaction spends
  have hSpent : ∀ u, u ∈ spentUtxos (fun id => (txs.erase txid).contains id) row.tx
      (mem row.tx).inputs ↔
      OutputIn (txs.erase txid) mem u ∧ ∃ input ∈ row.tx.inputs, input.prevOut = u.2 :=
    fun u => (hMatch.erase txid).mem_spentUtxos fun k other hOther =>
      hKey k other (getElem?_erase_eq_some.mp hOther).2
  have hOwn : ∀ u ∈ ownUtxos row.tx (mem row.tx).outputs, g.has u = true := fun u hu =>
    (hHolds u).mpr ⟨⟨txid, row, hRow, hu⟩, hUnspent u.2 ((mem_ownUtxos hu).trans hTxid)⟩
  have hOk : (g.remove row.tx (fun id => (txs.erase txid).contains id) (mem row.tx)).2 = true := by
    refine (remove_snd hNotIn).mpr ⟨nodup_spentUtxos hIn hInputs, fun u hu => ?_,
      nodup_ownUtxos hOut _, hOwn⟩
    by_contra hHas
    rw [Bool.not_eq_false] at hHas
    obtain ⟨-, input, hInput, hPrev⟩ := (hSpent u).mp hu
    exact ((hHolds u).mp hHas).2 ⟨txid, row, hRow, input, hInput, hPrev⟩
  refine ⟨hOk, fun u => ?_⟩
  rw [has_remove hOk, outputIn_congr hMem, hSpent u, hHolds u]
  constructor
  · rintro ⟨⟨⟨k, other, hOther, hIn⟩, hNot⟩ | ⟨hOutput, input, hInput, hPrev⟩, hNotOwn⟩
    · refine ⟨⟨k, other, getElem?_erase_eq_some.mpr ⟨?_, hOther⟩, hIn⟩, fun h => hNot h.of_erase⟩
      rintro rfl
      cases hOther.symm.trans hRow
      exact hNotOwn hIn
    · exact ⟨hOutput, hPrev ▸ hOnce input hInput⟩
  · rintro ⟨hOutput, hNot⟩
    obtain ⟨k, other, hOther, hIn⟩ := hOutput
    obtain ⟨hNe, hOther'⟩ := getElem?_erase_eq_some.mp hOther
    refine ⟨?_, fun hIn' => hNe ?_⟩
    · by_cases hSpentNow : SpentIn txs u.2
      · obtain ⟨k', row', hRow', input, hInput, hPrev⟩ := hSpentNow
        by_cases hSame : k' = txid
        · subst hSame
          cases hRow'.symm.trans hRow
          exact .inr ⟨⟨k, other, hOther, hIn⟩, input, hInput, hPrev⟩
        · exact absurd ⟨k', row', getElem?_erase_eq_some.mpr ⟨hSame, hRow'⟩, input, hInput, hPrev⟩
            hNot
      · exact .inl ⟨⟨k, other, hOther', hIn⟩, hSpentNow⟩
    · rw [← hKey k other hOther', ← hTxid, ← mem_ownUtxos hIn, mem_ownUtxos hIn']

omit hHolds in
/-- **Removal of a mined** transaction: what was spent stays spent. -/
theorem Holds.removeMined {spent : OutPoint → Prop} (hHolds : g.Holds txs mem spent) {txid : TxId}
    (hRow : txs[txid]? = some row)
    (hMem : ∀ (k : TxId) other, (txs.erase txid)[k]? = some other → mem' other.tx = mem other.tx) :
    (g.removeMined row.tx (mem row.tx)).Holds (txs.erase txid) mem' spent := by
  intro u
  rw [has_removeMined, hHolds u, outputIn_congr hMem]
  constructor
  · rintro ⟨⟨⟨k, other, hOther, hIn⟩, hNot⟩, hNotOwn⟩
    refine ⟨⟨k, other, getElem?_erase_eq_some.mpr ⟨?_, hOther⟩, hIn⟩, hNot⟩
    rintro rfl
    cases hOther.symm.trans hRow
    exact hNotOwn hIn
  · rintro ⟨⟨k, other, hOther, hIn⟩, hNot⟩
    obtain ⟨hNe, hOther⟩ := getElem?_erase_eq_some.mp hOther
    refine ⟨⟨⟨k, other, hOther, hIn⟩, hNot⟩, fun hIn' => hNe ?_⟩
    rw [← hKey k other hOther, ← hKey txid row hRow, ← mem_ownUtxos hIn, mem_ownUtxos hIn']

end

end GroupUtxos

end Ergon
