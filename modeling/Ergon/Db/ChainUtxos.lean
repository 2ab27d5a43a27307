import Ergon.Mem.Mempool
import Ergon.Db.GroupUtxos

/-!
# Ergon — what the writers of unspent outputs and spenders store

A chain is its blocks, tip first. A block extends a chain where its transactions have
new numbers, what it spends was not spent before and is of the chain or of the block
itself, and the members of an input are those of the output it spends, each once.

* `Stored.insertBlock`, `Stored.deleteBlock` — inserting a block that extends the
  chain, and deleting the tip, succeed, and what is stored stays what the chain says;
* `Reached.index` — so it is in every run, whatever is reorganised, and a deletion
  undoes an insertion.
-/

namespace Ergon.UtxoDb

open Lib List Option

variable {M Aux D : Type}

/-! ## Chains -/

section Chain

variable (g : UtxoGroup M Aux D)

/-- The members of the block's outputs, with the entries of the outputs. -/
def UtxoGroup.outputsOf (block : Block Aux) : List (M × UtxoEntry D) :=
  (g.blockOutputs block).getD []

def UtxoGroup.inputsOf (block : Block Aux) : List (M × UtxoEntry D) :=
  (g.blockInputs block).getD []

def chainOutputs (chain : List (Block Aux)) : List (M × UtxoEntry D) := chain.flatMap g.outputsOf

def chainTxs (chain : List (Block Aux)) : List IndexTx := chain.flatMap Block.txs

def chainSpends (chain : List (Block Aux)) : List (TxNum × SpentByEntry) :=
  chain.flatMap fun block => blockSpends block.txs

def spentOutpoint (spend : TxNum × SpentByEntry) : DbOutpoint := ⟨spend.1, spend.2.outIdx⟩

/-- The outpoints that the chain spends. -/
def spentOutpoints (chain : List (Block Aux)) : List DbOutpoint :=
  (chainSpends chain).map spentOutpoint

/-- A block that continues the chain. -/
structure Extends (chain : List (Block Aux)) (block : Block Aux) : Prop where
  -- members are at inputs and outputs that exist
  outputs : (g.blockOutputs block).isSome
  inputs : (g.blockInputs block).isSome
  fresh : ∀ itx ∈ block.txs, ∀ itx' ∈ chainTxs chain, itx.txNum ≠ itx'.txNum
  known : ∀ spend ∈ blockSpends block.txs, ∃ itx ∈ chainTxs (block :: chain), itx.txNum = spend.1
  spentOnce : (spentOutpoints (block :: chain)).Nodup
  -- no output has a member twice
  outputMember : ((g.outputsOf block).map fun item => (item.1, item.2.outpoint)).Nodup
  -- an input has the members of the output it spends, each once
  inputMember : ∀ item, item ∈ g.inputsOf block ↔ item ∈ chainOutputs g (block :: chain) ∧
    item.2.outpoint ∈ (blockSpends block.txs).map spentOutpoint
  inputOnce : (g.inputsOf block).Nodup

inductive ChainOk : List (Block Aux) → Prop
  | nil : ChainOk []
  | cons {chain : List (Block Aux)} {block : Block Aux} :
      Extends g chain block → ChainOk chain → ChainOk (block :: chain)

end Chain

section

variable {g : UtxoGroup M Aux D} {chain : List (Block Aux)} {block : Block Aux}
  {item : M × UtxoEntry D}

theorem txNum_of_mem_outputItems {aux : Aux} {itx : IndexTx} {items : List (M × UtxoEntry D)}
    (h : g.outputItems aux itx = some items) (hItem : item ∈ items) :
    item.2.outpoint.txNum = itx.txNum := by
  obtain ⟨memberItem, -, hMapped⟩ := Forall₂.exists_left (mapM_eq_some.mp h) hItem
  obtain ⟨entry, hEntry, rfl⟩ := map_eq_some_iff.mp hMapped
  obtain ⟨output, -, hOutput⟩ := bind_eq_some_iff.mp hEntry
  cases hOutput
  rfl

/-- An entry has the number of its transaction. -/
theorem exists_tx_of_mem_outputsOf (h : item ∈ g.outputsOf block) :
    ∃ itx ∈ block.txs, item.2.outpoint.txNum = itx.txNum := by
  unfold UtxoGroup.outputsOf at h
  cases hOutputs : g.blockOutputs block with
  | none =>
    rw [hOutputs] at h
    cases h
  | some items =>
    rw [hOutputs, getD_some] at h
    obtain ⟨lists, hLists, rfl⟩ := map_eq_some_iff.mp hOutputs
    obtain ⟨items, hItems, hItem⟩ := mem_flatten.mp h
    obtain ⟨itx, hItx, hEq⟩ := Forall₂.exists_left (mapM_eq_some.mp hLists) hItems
    exact ⟨itx, hItx, txNum_of_mem_outputItems hEq hItem⟩

theorem exists_tx_of_mem_chainOutputs (h : item ∈ chainOutputs g chain) :
    ∃ itx ∈ chainTxs chain, item.2.outpoint.txNum = itx.txNum := by
  obtain ⟨block, hBlock, hItem⟩ := mem_flatMap.mp h
  obtain ⟨itx, hItx, hNum⟩ := exists_tx_of_mem_outputsOf hItem
  exact ⟨itx, mem_flatMap.mpr ⟨block, hBlock, hItx⟩, hNum⟩

theorem mem_chainOutputs_cons :
    item ∈ chainOutputs g (block :: chain) ↔
      item ∈ g.outputsOf block ∨ item ∈ chainOutputs g chain := by
  rw [chainOutputs, flatMap_cons, mem_append]
  rfl

variable {outpoint : DbOutpoint}

theorem mem_spentOutpoints_cons :
    outpoint ∈ spentOutpoints (block :: chain) ↔
      outpoint ∈ (blockSpends block.txs).map spentOutpoint ∨ outpoint ∈ spentOutpoints chain := by
  rw [spentOutpoints, chainSpends, flatMap_cons, map_append, mem_append]
  rfl

theorem mem_chainSpends_cons {spend : TxNum × SpentByEntry} :
    spend ∈ chainSpends (block :: chain) ↔
      spend ∈ blockSpends block.txs ∨ spend ∈ chainSpends chain := by
  rw [chainSpends, flatMap_cons, mem_append]
  rfl

namespace Extends

variable (h : Extends g chain block)
include h

theorem blockOutputs_eq : g.blockOutputs block = some (g.outputsOf block) := by
  obtain ⟨outputs, hOutputs⟩ := isSome_iff_exists.mp h.outputs
  rw [UtxoGroup.outputsOf, hOutputs]
  rfl

theorem blockInputs_eq : g.blockInputs block = some (g.inputsOf block) := by
  obtain ⟨inputs, hInputs⟩ := isSome_iff_exists.mp h.inputs
  rw [UtxoGroup.inputsOf, hInputs]
  rfl

/-- What the block creates is not of the chain before. -/
theorem outpoint_ne {item item' : M × UtxoEntry D} (hItem : item ∈ g.outputsOf block)
    (hItem' : item' ∈ chainOutputs g chain) : item.2.outpoint ≠ item'.2.outpoint := by
  intro hEq
  obtain ⟨itx, hItx, hNum⟩ := exists_tx_of_mem_outputsOf hItem
  obtain ⟨itx', hItx', hNum'⟩ := exists_tx_of_mem_chainOutputs hItem'
  refine h.fresh itx hItx itx' hItx' ?_
  rw [← hNum, ← hNum', hEq]

theorem not_spent_before (hSpent : outpoint ∈ (blockSpends block.txs).map spentOutpoint) :
    outpoint ∉ spentOutpoints chain := by
  have hNodup := h.spentOnce
  rw [spentOutpoints, chainSpends, flatMap_cons, map_append] at hNodup
  exact fun hBefore => disjoint_of_nodup_append hNodup hSpent hBefore

theorem nodup_blockSpends : ((blockSpends block.txs).map spentOutpoint).Nodup := by
  have hNodup := h.spentOnce
  rw [spentOutpoints, chainSpends, flatMap_cons, map_append] at hNodup
  exact hNodup.of_append_left

theorem nodup_spends : ((blockSpends block.txs).map fun p => (p.1, p.2.outIdx)).Nodup := by
  refine List.Nodup.of_map (fun p => DbOutpoint.mk p.1 p.2) ?_
  rw [List.map_map]
  exact h.nodup_blockSpends

end Extends

namespace ChainOk

/-- A member has one entry for an output. -/
theorem unique (h : ChainOk g chain) {member : M} {entry entry' : UtxoEntry D}
    (hEntry : (member, entry) ∈ chainOutputs g chain)
    (hEntry' : (member, entry') ∈ chainOutputs g chain)
    (hEq : entry.outpoint = entry'.outpoint) : entry = entry' := by
  induction h with
  | nil => cases hEntry
  | cons hExtends _ ih =>
    rcases mem_chainOutputs_cons.mp hEntry with hNew | hOld <;>
      rcases mem_chainOutputs_cons.mp hEntry' with hNew' | hOld'
    · exact congrArg Prod.snd (inj_on_of_nodup_map hExtends.outputMember hNew hNew'
        (Prod.ext rfl hEq))
    · exact absurd hEq (hExtends.outpoint_ne hNew hOld')
    · exact absurd hEq.symm (hExtends.outpoint_ne hNew' hOld)
    · exact ih hOld hOld'

/-- What is spent is of a transaction of the chain. -/
theorem exists_tx_of_spent (h : ChainOk g chain) (hSpent : outpoint ∈ spentOutpoints chain) :
    ∃ itx ∈ chainTxs chain, itx.txNum = outpoint.txNum := by
  induction h with
  | nil => cases hSpent
  | cons hExtends _ ih =>
    rcases mem_spentOutpoints_cons.mp hSpent with hNew | hOld
    · obtain ⟨spend, hSpend, rfl⟩ := List.mem_map.mp hNew
      exact hExtends.known spend hSpend
    · obtain ⟨itx, hItx, hNum⟩ := ih hOld
      exact ⟨itx, mem_flatMap.mpr (by
        obtain ⟨block, hBlock, hIn⟩ := mem_flatMap.mp hItx
        exact ⟨block, mem_cons_of_mem _ hBlock, hIn⟩), hNum⟩

/-- The chain before cannot have spent what the block creates. -/
theorem not_spent_of_new (h : ChainOk g chain) (hExtends : Extends g chain block)
    (hItem : item ∈ g.outputsOf block) : item.2.outpoint ∉ spentOutpoints chain := by
  intro hSpent
  obtain ⟨itx', hItx', hNum'⟩ := h.exists_tx_of_spent hSpent
  obtain ⟨itx, hItx, hNum⟩ := exists_tx_of_mem_outputsOf hItem
  exact hExtends.fresh itx hItx itx' hItx' (hNum.symm.trans hNum'.symm)

end ChainOk

/-- The members of what the block spends. -/
theorem Extends.mem_inputs (h : Extends g chain block) {member : M} :
    (member, outpoint) ∈ (g.inputsOf block).map (fun item => (item.1, item.2.outpoint)) ↔
      outpoint ∈ (blockSpends block.txs).map spentOutpoint ∧
        ∃ entry, (member, entry) ∈ chainOutputs g (block :: chain) ∧ entry.outpoint = outpoint := by
  rw [List.mem_map]
  constructor
  · rintro ⟨⟨member', entry⟩, hItem, hEq⟩
    cases hEq
    obtain ⟨hOutput, hSpent⟩ := (h.inputMember _).mp hItem
    exact ⟨hSpent, entry, hOutput, rfl⟩
  · rintro ⟨hSpent, entry, hOutput, rfl⟩
    exact ⟨(member, entry), (h.inputMember _).mpr ⟨hOutput, hSpent⟩, rfl⟩

theorem Extends.nodup_inputs (h : Extends g chain block) (hChain : ChainOk g chain) :
    ((g.inputsOf block).map fun item => (item.1, item.2.outpoint)).Nodup := by
  refine List.Nodup.map_on ?_ h.inputOnce
  rintro ⟨member, entry⟩ hItem ⟨member', entry'⟩ hItem' hEq
  obtain ⟨rfl, hOutpoint⟩ := Prod.mk.inj hEq
  rw [(ChainOk.cons h hChain).unique ((h.inputMember _).mp hItem).1
    ((h.inputMember _).mp hItem').1 hOutpoint]

/-! ## What is stored -/

theorem readUtxos_eq (col : UtxoColumn D) (memberSer : Bytes) :
    readUtxos col memberSer =
      if (listAt col memberSer).isEmpty then none else some (listAt col memberSer) := by
  unfold readUtxos listAt
  cases col[memberSer]? <;> rfl

theorem getElem?_eq_listAt {col : SpentByColumn}
    (hFull : ∀ (txNum : TxNum) entries, col[txNum]? = some entries → entries ≠ []) (txNum : TxNum) :
    col[txNum]? = if (listAt col txNum).isEmpty then none else some (listAt col txNum) := by
  unfold listAt
  cases hGet : col[txNum]? with
  | none => rfl
  | some entries =>
    rw [getD_some, if_neg]
    exact fun hEmpty => hFull txNum entries hGet (List.isEmpty_iff.mp hEmpty)

/-- The database has what the chain says. -/
structure Stored (g : UtxoGroup M Aux D) (chain : List (Block Aux)) (db : Db D) : Prop where
  utxosSorted : ∀ memberSer, SortedBy UtxoEntry.outpoint (listAt db.utxos memberSer)
  utxos : ∀ member entry, entry ∈ listAt db.utxos (g.serMember member) ↔
    (member, entry) ∈ chainOutputs g chain ∧ entry.outpoint ∉ spentOutpoints chain
  -- nothing is stored that is not of a member
  member : ∀ memberSer, ∀ entry ∈ listAt db.utxos memberSer,
    ∃ member, g.serMember member = memberSer
  spentBySorted : ∀ txNum, SortedBy SpentByEntry.outIdx (listAt db.spentBy txNum)
  spentBy : ∀ txNum entry, entry ∈ listAt db.spentBy txNum ↔ (txNum, entry) ∈ chainSpends chain
  spentByFull : ∀ (txNum : TxNum) entries, db.spentBy[txNum]? = some entries → entries ≠ []

section Ops

variable (hSer : Function.Injective g.serMember)
include hSer

theorem mem_map_serMember {items : List (M × UtxoEntry D)} {member : M} {entry : UtxoEntry D} :
    (g.serMember member, entry) ∈ items.map (fun item => (g.serMember item.1, item.2)) ↔
      (member, entry) ∈ items := by
  rw [List.mem_map]
  constructor
  · rintro ⟨⟨member', entry'⟩, hItem, hEq⟩
    obtain ⟨hMember, rfl⟩ := Prod.mk.inj hEq
    rwa [← hSer hMember]
  · exact fun hItem => ⟨_, hItem, rfl⟩

/-- The edits that add the entries of `added` and then remove those of `removed`. -/
theorem exists_write_items {col : UtxoColumn D} {added removed : List (M × UtxoEntry D)}
    (hSorted : ∀ memberSer, SortedBy UtxoEntry.outpoint (listAt col memberSer))
    (hAdded : (added.map fun item => (item.1, item.2.outpoint)).Nodup)
    (hFresh : ∀ item ∈ added, ∀ entry ∈ listAt col (g.serMember item.1),
      entry.outpoint ≠ item.2.outpoint)
    (hRemoved : (removed.map fun item => (item.1, item.2.outpoint)).Nodup)
    (hIn : ∀ item ∈ removed, item.2 ∈ listAt col (g.serMember item.1) ∨ item ∈ added)
    (hMember : ∀ memberSer, ∀ entry ∈ listAt col memberSer,
      ∃ member, g.serMember member = memberSer) :
    ∃ col', col.write mergeUtxos (added.map g.insertUtxoEntry ++ removed.map g.deleteUtxoEntry) =
        some col' ∧
      (∀ memberSer, SortedBy UtxoEntry.outpoint (listAt col' memberSer)) ∧
      (∀ member entry, entry ∈ listAt col' (g.serMember member) ↔
        (entry ∈ listAt col (g.serMember member) ∨ (member, entry) ∈ added) ∧
          (member, entry.outpoint) ∉ removed.map fun item => (item.1, item.2.outpoint)) ∧
      ∀ memberSer, ∀ entry ∈ listAt col' memberSer, ∃ member, g.serMember member = memberSer := by
  have hInj : ∀ items : List (M × UtxoEntry D),
      (items.map fun item => (item.1, item.2.outpoint)).Nodup →
      (items.map fun item => (g.serMember item.1, item.2.outpoint)).Nodup := by
    intro items hNodup
    have hMap := hNodup.map (f := Prod.map g.serMember (id : DbOutpoint → DbOutpoint))
      (hSer.prodMap Function.injective_id)
    rwa [List.map_map] at hMap
  have hKey : ∀ member outpoint,
      (g.serMember member, outpoint) ∈ removed.map (fun item =>
        (g.serMember item.1, item.2.outpoint)) ↔
      (member, outpoint) ∈ removed.map fun item => (item.1, item.2.outpoint) := by
    intro member outpoint
    simp only [List.mem_map, Prod.mk.injEq, hSer.eq_iff]
  obtain ⟨col', hWrite, hCol⟩ := exists_write_edits
    (added.map fun item => (g.serMember item.1, item.2))
    (removed.map fun item => (g.serMember item.1, item.2.outpoint)) hSorted
    (by rw [List.map_map]; exact hInj added hAdded)
    (by
      intro p hp
      obtain ⟨item, hItem, rfl⟩ := List.mem_map.mp hp
      exact hFresh item hItem)
    (hInj removed hRemoved)
    (by
      intro memberSer outpoint hx
      obtain ⟨item, hItem, hEq⟩ := List.mem_map.mp hx
      cases hEq
      refine ⟨item.2, (hIn item hItem).imp_right fun hAdd => ?_, rfl⟩
      exact List.mem_map.mpr ⟨item, hAdd, rfl⟩)
  rw [List.map_map, List.map_map, ← mergeUtxos_eq] at hWrite
  refine ⟨col', hWrite, fun memberSer => (hCol memberSer).1, fun member entry => ?_, ?_⟩
  · rw [(hCol _).2, mem_map_serMember hSer, hKey]
  · intro memberSer entry hEntry
    rcases (((hCol memberSer).2 entry).mp hEntry).1 with hOld | hAdd
    · exact hMember memberSer entry hOld
    · obtain ⟨item, -, hEq⟩ := List.mem_map.mp hAdd
      exact ⟨item.1, congrArg Prod.fst hEq⟩

end Ops

namespace Stored

variable {db db' : Db D}

/-- What is stored is determined by the chain, up to lists that are stored empty. -/
theorem eq_of_chain (h : Stored g chain db) (h' : Stored g chain db') :
    (∀ memberSer, readUtxos db.utxos memberSer = readUtxos db'.utxos memberSer) ∧
      db.spentBy = db'.spentBy := by
  have hUtxos : ∀ memberSer, listAt db.utxos memberSer = listAt db'.utxos memberSer := by
    intro memberSer
    refine (h.utxosSorted memberSer).eq_of_mem_iff (h'.utxosSorted memberSer) fun entry => ?_
    constructor
    · intro hEntry
      obtain ⟨member, rfl⟩ := h.member _ _ hEntry
      exact (h'.utxos member entry).mpr ((h.utxos member entry).mp hEntry)
    · intro hEntry
      obtain ⟨member, rfl⟩ := h'.member _ _ hEntry
      exact (h.utxos member entry).mpr ((h'.utxos member entry).mp hEntry)
  have hSpentBy : ∀ txNum, listAt db.spentBy txNum = listAt db'.spentBy txNum := by
    intro txNum
    refine (h.spentBySorted txNum).eq_of_mem_iff (h'.spentBySorted txNum) fun entry => ?_
    rw [h.spentBy, h'.spentBy]
  refine ⟨fun memberSer => ?_, Std.ExtTreeMap.ext_getElem? fun txNum => ?_⟩
  · rw [readUtxos_eq, readUtxos_eq, hUtxos]
  · rw [getElem?_eq_listAt h.spentByFull, getElem?_eq_listAt h'.spentByFull, hSpentBy]

variable (hSer : Function.Injective g.serMember)
include hSer

/-- A block that extends the chain can be inserted. -/
theorem insertBlock (h : Stored g chain db) (hChain : ChainOk g chain)
    (hExtends : Extends g chain block) :
    ∃ db', UtxoDb.insertBlock g db block = .ok db' ∧ Stored g (block :: chain) db' := by
  obtain ⟨utxos, hUtxos, hSorted, hMem, hMember⟩ := exists_write_items hSer h.utxosSorted
    hExtends.outputMember
    (by
      intro item hItem entry hEntry hEq
      have hOld := ((h.utxos item.1 entry).mp hEntry).1
      exact hExtends.outpoint_ne hItem hOld hEq.symm)
    (hExtends.nodup_inputs hChain)
    (by
      intro item hItem
      obtain ⟨hOutput, hSpent⟩ := (hExtends.inputMember item).mp hItem
      rcases mem_chainOutputs_cons.mp hOutput with hNew | hOld
      · exact .inr hNew
      · exact .inl ((h.utxos item.1 item.2).mpr ⟨hOld, hExtends.not_spent_before hSpent⟩))
    h.member
  obtain ⟨spentBy, hSpentBy, hSpent⟩ := exists_write_insertSpentBy h.spentBySorted
    hExtends.nodup_spends (by
      intro spend hSpend entry hEntry hEq
      refine hExtends.not_spent_before (List.mem_map_of_mem hSpend) ?_
      refine List.mem_map.mpr ⟨(spend.1, entry), (h.spentBy _ _).mp hEntry, ?_⟩
      unfold spentOutpoint
      rw [hEq])
  refine ⟨⟨utxos, spentBy⟩, ?_, hSorted, fun member entry => ?_, hMember, fun n => (hSpent n).1,
    ?_, ?_⟩
  · unfold UtxoDb.insertBlock UtxoGroup.insertOps
    rw [hExtends.blockOutputs_eq, hExtends.blockInputs_eq]
    refine bind_eq_ok.mpr ⟨_, rfl, bind_eq_ok.mpr ⟨utxos, orElse_eq_ok.mpr hUtxos, ?_⟩⟩
    exact bind_eq_ok.mpr ⟨spentBy, orElse_eq_ok.mpr hSpentBy, rfl⟩
  · rw [hMem, h.utxos, mem_chainOutputs_cons, mem_spentOutpoints_cons, hExtends.mem_inputs]
    constructor
    · rintro ⟨hOld | hNew, hNot⟩
      · refine ⟨.inr hOld.1, not_or.mpr ⟨fun hSpent => hNot ⟨hSpent, entry, ?_⟩, hOld.2⟩⟩
        exact ⟨mem_chainOutputs_cons.mpr (.inr hOld.1), rfl⟩
      · refine ⟨.inl hNew, not_or.mpr ⟨fun hSpent => hNot ⟨hSpent, entry, ?_⟩, ?_⟩⟩
        · exact ⟨mem_chainOutputs_cons.mpr (.inl hNew), rfl⟩
        · exact hChain.not_spent_of_new hExtends hNew
    · rintro ⟨hCreated, hNot⟩
      rw [not_or] at hNot
      refine ⟨?_, fun hBoth => hNot.1 hBoth.1⟩
      rcases hCreated with hNew | hOld
      · exact .inr hNew
      · exact .inl ⟨hOld, hNot.2⟩
  · intro txNum entry
    rw [(hSpent txNum).2.1, h.spentBy, mem_chainSpends_cons, or_comm]
  · intro txNum entries hGet hNil
    have hEmpty : listAt spentBy txNum = [] := by rw [listAt, hGet, hNil]; rfl
    have hNone : ∀ entry, ¬ (entry ∈ listAt db.spentBy txNum ∨
        (txNum, entry) ∈ blockSpends block.txs) := by
      intro entry hIn
      have hNow := ((hSpent txNum).2.1 entry).mpr hIn
      rw [hEmpty] at hNow
      cases hNow
    have hOld : db.spentBy[txNum]? = none := by
      cases hOld : db.spentBy[txNum]? with
      | none => rfl
      | some old =>
        obtain ⟨entry, hEntry⟩ := exists_mem_of_ne_nil old (h.spentByFull txNum old hOld)
        exact absurd (.inl (by rw [listAt, hOld]; exact hEntry)) (hNone entry)
    have hGone := (hSpent txNum).2.2.mpr ⟨hOld, fun spend hSpend hEq =>
      hNone spend.2 (.inr (hEq ▸ hSpend))⟩
    rw [hGet] at hGone
    cases hGone

/-- The tip can be deleted. -/
theorem deleteBlock (h : Stored g (block :: chain) db) (hChain : ChainOk g chain)
    (hExtends : Extends g chain block) :
    ∃ db', UtxoDb.deleteBlock g db block = .ok db' ∧ Stored g chain db' := by
  obtain ⟨utxos, hUtxos, hSorted, hMem, hMember⟩ := exists_write_items hSer h.utxosSorted
    (hExtends.nodup_inputs hChain)
    (by
      -- what the block spends is not unspent
      intro item hItem entry hEntry hEq
      obtain ⟨-, hSpent⟩ := (hExtends.inputMember item).mp hItem
      refine ((h.utxos item.1 entry).mp hEntry).2 ?_
      rw [hEq]
      exact mem_spentOutpoints_cons.mpr (.inl hSpent))
    hExtends.outputMember
    (by
      -- what the block created is unspent, or it was put back just before
      intro item hItem
      have hNew : item ∈ chainOutputs g (block :: chain) :=
        mem_chainOutputs_cons.mpr (.inl hItem)
      by_cases hSpent : item.2.outpoint ∈ (blockSpends block.txs).map spentOutpoint
      · exact .inr ((hExtends.inputMember item).mpr ⟨hNew, hSpent⟩)
      · refine .inl ((h.utxos item.1 item.2).mpr ⟨hNew, fun hIn => ?_⟩)
        rcases mem_spentOutpoints_cons.mp hIn with hIn | hIn
        · exact hSpent hIn
        · exact hChain.not_spent_of_new hExtends hItem hIn)
    h.member
  obtain ⟨ops, spentBy, hOps, hSpentBy, hSpent⟩ := exists_write_deleteSpentBy h.spentBySorted
    hExtends.nodup_blockSpends.of_map
    (fun spend hSpend => (h.spentBy _ _).mpr (mem_chainSpends_cons.mpr (.inl hSpend))) h.spentByFull
  refine ⟨⟨utxos, spentBy⟩, ?_, hSorted, fun member entry => ?_, hMember, fun n => (hSpent n).1,
    ?_, fun n => (hSpent n).2.2⟩
  · unfold UtxoDb.deleteBlock UtxoGroup.deleteOps
    rw [hExtends.blockOutputs_eq, hExtends.blockInputs_eq]
    refine bind_eq_ok.mpr ⟨_, rfl, bind_eq_ok.mpr ⟨utxos, orElse_eq_ok.mpr hUtxos, ?_⟩⟩
    refine bind_eq_ok.mpr ⟨ops, mapError_eq_ok.mpr hOps, ?_⟩
    exact bind_eq_ok.mpr ⟨spentBy, orElse_eq_ok.mpr hSpentBy, rfl⟩
  · rw [hMem, h.utxos, hExtends.inputMember, mem_chainOutputs_cons, mem_spentOutpoints_cons]
    constructor
    · rintro ⟨hIn, hNot⟩
      have hOld : (member, entry) ∈ chainOutputs g chain := by
        rcases (hIn.elim And.left And.left : _ ∨ _) with hNew | hOld
        · exact absurd (List.mem_map.mpr ⟨_, hNew, rfl⟩) hNot
        · exact hOld
      refine ⟨hOld, fun hBefore => ?_⟩
      rcases hIn with ⟨-, hNotSpent⟩ | ⟨-, hSpent⟩
      · exact hNotSpent (.inr hBefore)
      · exact hExtends.not_spent_before hSpent hBefore
    · rintro ⟨hOld, hNotSpent⟩
      refine ⟨?_, fun hNew => ?_⟩
      · by_cases hSpent : entry.outpoint ∈ (blockSpends block.txs).map spentOutpoint
        · exact .inr ⟨.inr hOld, hSpent⟩
        · exact .inl ⟨.inr hOld, not_or.mpr ⟨hSpent, hNotSpent⟩⟩
      · obtain ⟨item, hItem, hEq⟩ := List.mem_map.mp hNew
        exact hExtends.outpoint_ne hItem hOld (congrArg Prod.snd hEq)
  · intro txNum entry
    rw [(hSpent txNum).2.1, h.spentBy, mem_chainSpends_cons]
    refine ⟨fun hBoth => hBoth.1.resolve_left hBoth.2, fun hOld => ⟨.inr hOld, fun hNew => ?_⟩⟩
    exact hExtends.not_spent_before (List.mem_map_of_mem hNew) (List.mem_map_of_mem hOld)

end Stored

/-! ## Runs -/

/-- The states of the index: blocks are inserted that extend the chain, and the tip is deleted. -/
inductive Reached (g : UtxoGroup M Aux D) : List (Block Aux) → Db D → Prop
  | empty : Reached g [] ⟨∅, ∅⟩
  | insert {chain : List (Block Aux)} {db db' : Db D} (block : Block Aux) : Reached g chain db →
      Extends g chain block → insertBlock g db block = .ok db' → Reached g (block :: chain) db'
  | delete {chain : List (Block Aux)} {db db' : Db D} {block : Block Aux} :
      Reached g (block :: chain) db → deleteBlock g db block = .ok db' → Reached g chain db'

theorem stored_empty (g : UtxoGroup M Aux D) : Stored g [] ⟨∅, ∅⟩ where
  utxosSorted _ := SortedBy.nil
  utxos _ _ := ⟨nofun, fun h => nomatch h.1⟩
  member _ _ h := nomatch h
  spentBySorted _ := SortedBy.nil
  spentBy _ _ := ⟨nofun, nofun⟩
  spentByFull _ _ h := nomatch h

theorem Reached.chainOk {db : Db D} (h : Reached g chain db) : ChainOk g chain := by
  induction h with
  | empty => exact .nil
  | insert block _ hExtends _ ih => exact .cons hExtends ih
  | delete _ _ ih =>
    cases ih with
    | cons _ hChain => exact hChain

theorem Reached.stored (hSer : Function.Injective g.serMember) {db : Db D}
    (h : Reached g chain db) : Stored g chain db := by
  induction h with
  | empty => exact stored_empty g
  | insert block hReached hExtends hInsert ih =>
    obtain ⟨db', hInsert', hStored⟩ := ih.insertBlock hSer hReached.chainOk hExtends
    rw [hInsert] at hInsert'
    cases hInsert'
    exact hStored
  | delete hReached hDelete ih =>
    cases hReached.chainOk with
    | cons hExtends hChain =>
      obtain ⟨db', hDelete', hStored⟩ := ih.deleteBlock hSer hChain hExtends
      rw [hDelete] at hDelete'
      cases hDelete'
      exact hStored

/-- In every state: a member has exactly its outputs that the chain does not spend, and a
transaction exactly the spends of its outputs. The next block can be inserted, deleting it then
gives back what was there, and the tip can be deleted. -/
theorem Reached.index (hSer : Function.Injective g.serMember) {db : Db D}
    (h : Reached g chain db) :
    (∀ member, SortedBy UtxoEntry.outpoint (listAt db.utxos (g.serMember member)) ∧
      ∀ entry, entry ∈ listAt db.utxos (g.serMember member) ↔
        (member, entry) ∈ chainOutputs g chain ∧ entry.outpoint ∉ spentOutpoints chain) ∧
    (∀ txNum, SortedBy SpentByEntry.outIdx (listAt db.spentBy txNum) ∧
      ∀ entry, entry ∈ listAt db.spentBy txNum ↔ (txNum, entry) ∈ chainSpends chain) ∧
    (∀ block, Extends g chain block → ∃ db' db'', insertBlock g db block = .ok db' ∧
      deleteBlock g db' block = .ok db'' ∧ db''.spentBy = db.spentBy ∧
      ∀ memberSer, readUtxos db''.utxos memberSer = readUtxos db.utxos memberSer) ∧
    ∀ block rest, chain = block :: rest → ∃ db', deleteBlock g db block = .ok db' := by
  have hStored := h.stored hSer
  refine ⟨fun member => ⟨hStored.utxosSorted _, hStored.utxos member⟩,
    fun txNum => ⟨hStored.spentBySorted txNum, hStored.spentBy txNum⟩, ?_, ?_⟩
  · intro block hExtends
    obtain ⟨db', hInsert, hStored'⟩ := hStored.insertBlock hSer h.chainOk hExtends
    obtain ⟨db'', hDelete, hStored''⟩ := hStored'.deleteBlock hSer h.chainOk hExtends
    obtain ⟨hUtxos, hSpentBy⟩ := hStored''.eq_of_chain hStored
    exact ⟨db', db'', hInsert, hDelete, hSpentBy, hUtxos⟩
  · rintro block rest rfl
    cases h.chainOk with
    | cons hExtends hChain =>
      obtain ⟨db', hDelete, -⟩ := hStored.deleteBlock hSer hChain hExtends
      exact ⟨db', hDelete⟩

end

/-! ## The group of the plugins -/

/-- `PluginsGroup`. -/
def pluginsGroup : UtxoGroup Bytes (Column OutPoint PluginOutput) (Int × Bytes) where
  inputMembers query aux := (pluginMembers query.tx aux).inputs.map fun item => ⟨item.1, item.2⟩
  outputMembers query aux := (pluginMembers query.tx aux).outputs.map fun item => ⟨item.1, item.2⟩
  serMember := id
  fromOutput output := (output.sats, output.script.bytecode)
  defaultData := (0, [])

namespace Sample

def txid (byte : UInt8) : TxId := .fill byte

def output : TxOutput := ⟨50, ⟨[0x51]⟩⟩

/-- The output of the first transaction is in these groups of the plugin 0. -/
def aux (groups : List Bytes) : Column OutPoint PluginOutput :=
  (∅ : Column OutPoint PluginOutput).insert ⟨txid 1, 0⟩
    ⟨(∅ : Column Nat (List Bytes)).insert 0 groups⟩

def first (groups : List Bytes) : Block (Column OutPoint PluginOutput) :=
  ⟨[⟨⟨txid 1, 1, [], [output], 0⟩, 0, true, []⟩], aux groups⟩

/-- A coinbase and a transaction that spends the output. -/
def second : Block (Column OutPoint PluginOutput) :=
  ⟨[⟨⟨txid 2, 1, [], [], 0⟩, 1, true, []⟩,
    ⟨⟨txid 3, 1, [⟨⟨txid 1, 0⟩, ⟨[]⟩, 0, some ⟨output, 0, true⟩⟩], [], 0⟩, 2, false, [0]⟩],
    aux [[7]]⟩

def item : Bytes × UtxoEntry (Int × Bytes) := ([0, 0, 0, 0, 7], ⟨⟨0, 0⟩, (50, [0x51])⟩)

theorem first_extends : Extends pluginsGroup [] (first [[7]]) where
  outputs := by decide +kernel
  inputs := by decide +kernel
  fresh := by decide +kernel
  known := by decide +kernel
  spentOnce := by decide +kernel
  outputMember := by decide +kernel
  inputMember i := by
    have hInputs : pluginsGroup.inputsOf (first [[7]]) = [] := by decide +kernel
    have hSpends : (blockSpends (first [[7]]).txs).map spentOutpoint = [] := by decide +kernel
    rw [hInputs, hSpends]
    exact ⟨nofun, fun hBoth => nomatch hBoth.2⟩
  inputOnce := by decide +kernel

theorem second_extends : Extends pluginsGroup [first [[7]]] second where
  outputs := by decide +kernel
  inputs := by decide +kernel
  fresh := by decide +kernel
  known := by decide +kernel
  spentOnce := by decide +kernel
  outputMember := by decide +kernel
  inputMember i := by
    have hInputs : pluginsGroup.inputsOf second = [item] := by decide +kernel
    have hOutputs : chainOutputs pluginsGroup [second, first [[7]]] = [item] := by decide +kernel
    have hSpends : (blockSpends second.txs).map spentOutpoint = [⟨0, 0⟩] := by decide +kernel
    rw [hInputs, hOutputs, hSpends]
    refine ⟨fun hItem => ⟨hItem, ?_⟩, And.left⟩
    rw [mem_singleton.mp hItem]
    exact mem_singleton.mpr rfl
  inputOnce := by decide +kernel

theorem exists_reached : ∃ db, Reached pluginsGroup [second, first [[7]]] db := by
  obtain ⟨db₁, hFirst, hStored⟩ :=
    (stored_empty pluginsGroup).insertBlock Function.injective_id .nil first_extends
  obtain ⟨db₂, hSecond, -⟩ :=
    hStored.insertBlock Function.injective_id (.cons first_extends .nil) second_extends
  exact ⟨db₂, (Reached.empty.insert _ first_extends hFirst).insert _ second_extends hSecond⟩

end Sample

theorem sample_index : ∃ db, Reached pluginsGroup [Sample.second, Sample.first [[7]]] db ∧
    ∀ txNum entry, entry ∈ listAt db.spentBy txNum ↔
      (txNum, entry) ∈ chainSpends [Sample.second, Sample.first [[7]]] := by
  obtain ⟨db, hReached⟩ := Sample.exists_reached
  exact ⟨db, hReached, fun txNum => ((hReached.index Function.injective_id).2.1 txNum).2⟩

/-- A plugin that names a group twice for an output makes the merge fail: the output is added
to the member a second time. -/
theorem insertBlock_group_twice : Function.Injective pluginsGroup.serMember ∧
    (spentOutpoints [Sample.first [[7], [7]]]).Nodup ∧
    (insertBlock pluginsGroup ⟨∅, ∅⟩ (Sample.first [[7], [7]])).map (fun _ => ()) =
      .error .merge := by
  refine ⟨Function.injective_id, by decide +kernel, by decide +kernel⟩

end Ergon.UtxoDb
