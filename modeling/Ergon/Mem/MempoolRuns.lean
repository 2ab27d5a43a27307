import Ergon.Mem.MempoolInsert

/-!
# Ergon — the unspent outputs of the index mempool over whole runs

`Mempool.LegalRun` are the mempools that inserts, evictions and removals of mined
transactions reach. Mined transactions leave together with the transactions of the
mempool that they spend; in between, an output may be gone whose spender was removed
before it.

* `Inv.remove`, `Inv.removeMinedAll` — both removals succeed and keep the unspent outputs
  exact;
* `LegalRun.utxos_exact` — what holds after every legal run.
-/

namespace Ergon

open Lib Archival List Column

namespace Mempool

variable {m m' : Mempool} {db : MempoolDb} {row : MempoolTx} {txid : TxId} {hasPlugins : Bool}
  {tokens : MempoolTokens} {outputs : Column OutPoint PluginOutput}

/-! ## Removals -/

section Remove

variable (hInv : Inv hasPlugins m) (hRow : m.txs[txid]? = some row)
include hInv hRow

theorem Inv.erase (h : Erased m m' txid row.tx) : Inv hasPlugins m' := by
  have hTxid := hInv.consistent.key txid row hRow
  have hLeft : ∀ (k : TxId) other, m'.txs[k]? = some other → k ≠ txid ∧ m.txs[k]? = some other := by
    intro k other hOther
    rw [h.txs] at hOther
    exact getElem?_erase_eq_some.mp hOther
  have hMembers : ∀ (k : TxId) other, m'.txs[k]? = some other → ∀ group,
      m'.members other.tx group = m.members other.tx group := by
    intro k other hOther group
    obtain ⟨hNe, hOther⟩ := hLeft k other hOther
    exact h.members hTxid (by rwa [hInv.consistent.key k other hOther]) group
  have hPlugins : m'.plugins.pluginOutputs = (m.plugins.forget row.tx).pluginOutputs ∧
      m'.plugins.spentOutputs = (m.plugins.forget row.tx).spentOutputs := by
    rw [← h.plugins]
    exact ⟨rfl, rfl⟩
  constructor
  · exact hInv.consistent.erase hRow (hInv.consistent.removeSpentBy_snd hRow) h.txs h.spentBy
  · intro k other hOther
    exact hInv.noSelf k other (hLeft k other hOther).2
  · intro k hk
    rw [h.isTokenIndexEnabled] at hk
    rw [h.tokens]
    cases hEnabled : m.isTokenIndexEnabled with
    | false =>
      exact hInv.tokens k (.inl hEnabled)
    | true =>
      rw [hEnabled, h.txs, getElem?_erase] at hk
      simp only [if_true, MempoolTokens.remove, getElem?_erase]
      split
      · exact ⟨rfl, rfl⟩
      · next hNe =>
        rw [if_neg hNe] at hk
        exact hInv.tokens k (.inr (hk.resolve_left (by simp)))
  · intro hNo o
    rw [hPlugins.1, MempoolPlugins.forget, getElem?_eraseAll, hInv.noPlugins hNo o]
    simp
  · intro k other hOther o output hOutput
    obtain ⟨hNe, hOther⟩ := hLeft k other hOther
    rw [hPlugins.2, MempoolPlugins.forget, getElem?_erase,
      if_neg (by rw [hTxid]; exact hNe.symm)] at hOutput
    exact hInv.spentOutputs k other hOther o output hOutput
  · intro k other hOther group
    rw [hMembers k other hOther]
    exact hInv.nodup k other (hLeft k other hOther).2 group
  · intro k other hOther group idx input hInput parent hParent member
    dsimp only
    rw [hMembers k other hOther, hMembers _ parent hParent]
    exact hInv.matched k other (hLeft k other hOther).2 group idx input hInput parent
      (hLeft _ parent hParent).2 member

/-- **Removal** of a transaction that no other transaction of the mempool spends. -/
theorem Inv.remove (hExact : Exact m)
    (hUnspent : ∀ (k : TxId) other, k ≠ txid → m.txs[k]? = some other →
      spends other.tx txid = false) :
    (m.remove txid).2 = true ∧ Inv hasPlugins (m.remove txid).1 ∧ Exact (m.remove txid).1 := by
  have hCons := hInv.consistent
  have hTxid := hCons.key txid row hRow
  have hSpentBy := hCons.removeSpentBy_snd hRow
  have hNone : Unspent m txid := by
    intro k other hOther
    by_cases hSame : k = txid
    · subst hSame
      exact hInv.noSelf k other hOther
    · exact hUnspent k other hSame hOther
  have hOnce : ∀ input ∈ row.tx.inputs, ¬ SpentIn (m.txs.erase txid) input.prevOut := by
    rintro input hInput ⟨k, other, hOther, input', hInput', hPrev⟩
    obtain ⟨hNe, hOther⟩ := getElem?_erase_eq_some.mp hOther
    obtain ⟨i, hi⟩ := List.getElem?_of_mem hInput
    obtain ⟨i', hi'⟩ := List.getElem?_of_mem hInput'
    exact hNe (hCons.eq_of_prevOut hOther hRow hi' hi hPrev)
  have hInputs : (row.tx.inputs.map (·.prevOut)).Nodup := by
    rw [← map_fst_spentEntries]
    exact (removeSpentBy_snd.mp hSpentBy).1
  have hGroup := fun (mem' : UtxoGroup → Tx → Members) group
      (hMem : ∀ (k : TxId) other, (m.txs.erase txid)[k]? = some other →
        mem' group other.tx = m.members other.tx group) =>
    (hExact group).remove hCons.key hRow (fun _ ho => hNone.not_spentIn ho) hInputs hOnce hMem
      (hInv.matched txid row hRow group) (hInv.nodup txid row hRow group).1
      (hInv.nodup txid row hRow group).2
  have hOk : (m.remove txid).2 = true :=
    (remove_spec hRow).1.mpr
      ⟨fun group => (hGroup (fun group tx => m.members tx group) group fun _ _ _ => rfl).1,
        hSpentBy⟩
  have hRemoved := (remove_spec hRow).2 hOk
  refine ⟨hOk, hInv.erase hRow hRemoved.erased, fun group => ?_⟩
  have hHolds := (hGroup (fun group tx => (m.remove txid).1.members tx group) group
    fun k other hOther => ?_).2
  · rw [hRemoved.utxos group, hRemoved.txs]
    exact hHolds
  · obtain ⟨hNe, hOther⟩ := getElem?_erase_eq_some.mp hOther
    exact hRemoved.erased.members hTxid (by rwa [hCons.key k other hOther]) group

/-- **Removal of a mined transaction**: what was spent stays spent. -/
theorem Inv.removeMined {spent : OutPoint → Prop}
    (hHolds : ∀ group, (m.utxos group).Holds m.txs (m.members · group) spent) :
    ∃ m', m.removeMined txid = some m' ∧ Inv hasPlugins m' ∧ m'.txs = m.txs.erase txid ∧
      ∀ group, (m'.utxos group).Holds m'.txs (m'.members · group) spent := by
  have hCons := hInv.consistent
  have hTxid := hCons.key txid row hRow
  have hSpentBy := hCons.removeSpentBy_snd hRow
  have hSome : ∃ m', m.removeMined txid = some m' ∧ Erased m m' txid row.tx ∧
      ∀ group, m'.utxos group = (m.utxos group).removeMined row.tx (m.members row.tx group) := by
    rw [Mempool.removeMined, hRow]
    refine ⟨_, Option.bind_eq_some_iff.mpr ⟨_, succeeded_eq_some.mpr (Prod.ext rfl hSpentBy), rfl⟩,
      ⟨rfl, rfl, rfl, rfl, rfl⟩, fun group => ?_⟩
    cases group with
    | script => rfl
    | tokenId =>
      show (if m.isTokenIndexEnabled then _ else _) =
        GroupUtxos.removeMined _ _ (if m.isTokenIndexEnabled then _ else _)
      split
      · rfl
      · rfl
    | plugins => rfl
  obtain ⟨m', hRemove, hErased, hUtxos⟩ := hSome
  refine ⟨m', hRemove, hInv.erase hRow hErased, hErased.txs, fun group => ?_⟩
  rw [hUtxos group, hErased.txs]
  refine (hHolds group).removeMined hCons.key hRow fun k other hOther => ?_
  obtain ⟨hNe, hOther⟩ := getElem?_erase_eq_some.mp hOther
  exact hErased.members hTxid (by rwa [hCons.key k other hOther]) group

end Remove

/-- Remove the mined transactions of a block, those that are there. -/
def removeMinedAll (m : Mempool) (txids : List TxId) : Option Mempool :=
  txids.foldlM removeMined m

/-- The transactions of the mempool that one of them spends are among them. -/
def ParentClosed (m : Mempool) (txids : List TxId) : Prop :=
  ∀ txid ∈ txids, ∀ row, m.txs[txid]? = some row → ∀ input ∈ row.tx.inputs,
    m.txs[input.prevOut.txid]?.isSome → input.prevOut.txid ∈ txids

/-- After some removals of mined transactions the others are left, and the outputs
that are not spent by any of all of them are unspent. -/
theorem Inv.removeMinedAll_spec {spent : OutPoint → Prop} (txids : List TxId) :
    ∀ {m : Mempool}, Inv hasPlugins m →
    (∀ group, (m.utxos group).Holds m.txs (m.members · group) spent) →
    ∃ m', m.removeMinedAll txids = some m' ∧ Inv hasPlugins m' ∧
      (∀ (k : TxId) row, m'.txs[k]? = some row ↔ k ∉ txids ∧ m.txs[k]? = some row) ∧
      ∀ group, (m'.utxos group).Holds m'.txs (m'.members · group) spent := by
  induction txids with
  | nil =>
    intro m hInv hHolds
    exact ⟨m, rfl, hInv, fun k row => by simp, hHolds⟩
  | cons txid txids ih =>
    intro m hInv hHolds
    have hStep : ∃ m₁, m.removeMined txid = some m₁ ∧ Inv hasPlugins m₁ ∧
        (∀ (k : TxId) row, m₁.txs[k]? = some row ↔ k ≠ txid ∧ m.txs[k]? = some row) ∧
        ∀ group, (m₁.utxos group).Holds m₁.txs (m₁.members · group) spent := by
      cases hRow : m.txs[txid]? with
      | none =>
        refine ⟨m, by rw [Mempool.removeMined, hRow], hInv, fun k row => ?_, hHolds⟩
        refine ⟨fun h => ⟨?_, h⟩, fun h => h.2⟩
        rintro rfl
        rw [hRow] at h
        cases h
      | some row =>
        obtain ⟨m₁, hRemove, hInv₁, hTxs, hHolds₁⟩ := hInv.removeMined hRow hHolds
        refine ⟨m₁, hRemove, hInv₁, fun k row => ?_, hHolds₁⟩
        rw [hTxs, getElem?_erase_eq_some]
    obtain ⟨m₁, hRemove, hInv₁, hTxs₁, hHolds₁⟩ := hStep
    obtain ⟨m', hRest, hInv', hTxs', hHolds'⟩ := ih hInv₁ hHolds₁
    refine ⟨m', ?_, hInv', fun k row => ?_, hHolds'⟩
    · rw [removeMinedAll, foldlM_cons, hRemove]
      exact hRest
    · rw [hTxs', hTxs₁, mem_cons, not_or]
      tauto

/-- **Mined transactions** that are removed together with their parents. -/
theorem Inv.removeMinedAll (hInv : Inv hasPlugins m) (hExact : Exact m) {txids : List TxId}
    (hClosed : ParentClosed m txids) :
    ∃ m', m.removeMinedAll txids = some m' ∧ Inv hasPlugins m' ∧ Exact m' := by
  obtain ⟨m', hRemove, hInv', hTxs, hHolds⟩ := Inv.removeMinedAll_spec txids hInv hExact
  refine ⟨m', hRemove, hInv', fun group u => ?_⟩
  rw [hHolds group u]
  refine and_congr_right fun hOutput => not_congr ?_
  obtain ⟨parent, hParent, -⟩ := hOutput.txid hInv'.consistent.key
  obtain ⟨hNot, hParent⟩ := (hTxs _ parent).mp hParent
  constructor
  · rintro ⟨k, row, hRow, input, hInput, hPrev⟩
    refine ⟨k, row, (hTxs k row).mpr ⟨fun hIn => hNot ?_, hRow⟩, input, hInput, hPrev⟩
    -- a removed spender would have taken its parent along
    rw [← hPrev]
    refine hClosed k hIn row hRow input hInput ?_
    rw [hPrev, hParent]
    rfl
  · rintro ⟨k, row, hRow, hInput⟩
    exact ⟨k, row, ((hTxs k row).mp hRow).2, hInput⟩

/-! ## Runs -/

/-- The mempools that legal operations reach: inserts after the parents, removals of
transactions that no other one spends, and removals of mined transactions together
with their parents. -/
inductive LegalRun (hasPlugins : Bool) : Mempool → Prop
  | new (enableTokenIndex : Bool) : LegalRun hasPlugins (new enableTokenIndex)
  | insert {m m' : Mempool} {db : MempoolDb} {row : MempoolTx} (hRun : LegalRun hasPlugins m)
      (hLegal : LegalInsert hasPlugins m db row.tx) (h : m.insert db row = some m') :
      LegalRun hasPlugins m'
  | remove {m : Mempool} {txid : TxId} {row : MempoolTx} (hRun : LegalRun hasPlugins m)
      (hRow : m.txs[txid]? = some row)
      (hUnspent : ∀ (k : TxId) other, k ≠ txid → m.txs[k]? = some other →
        spends other.tx txid = false) :
      LegalRun hasPlugins (m.remove txid).1
  | removeMined {m m' : Mempool} {txids : List TxId} (hRun : LegalRun hasPlugins m)
      (hClosed : ParentClosed m txids) (h : m.removeMinedAll txids = some m') :
      LegalRun hasPlugins m'

theorem inv_new (hasPlugins enableTokenIndex : Bool) : Inv hasPlugins (new enableTokenIndex) where
  consistent := consistent_new enableTokenIndex
  noSelf k row h := by simp [new] at h
  tokens k _ := by simp [new, MempoolTokens.empty]
  noPlugins _ o := by simp [new, MempoolPlugins.empty]
  spentOutputs k row h := by simp [new] at h
  nodup k row h := by simp [new] at h
  matched k row h := by simp [new] at h

theorem exact_new (enableTokenIndex : Bool) : Exact (new enableTokenIndex) := by
  intro group u
  have hNone : ((new enableTokenIndex).utxos group).has u = false := by
    cases group <;> simp [new, utxos, GroupUtxos.empty, GroupUtxos.has, MempoolPlugins.empty]
  rw [hNone]
  refine ⟨fun h => absurd h Bool.false_ne_true, ?_⟩
  rintro ⟨⟨k, row, hRow, -⟩, -⟩
  simp [new] at hRow

theorem LegalRun.inv (h : LegalRun hasPlugins m) : Inv hasPlugins m ∧ Exact m := by
  induction h with
  | new enableTokenIndex => exact ⟨inv_new _ enableTokenIndex, exact_new enableTokenIndex⟩
  | insert _ hLegal h ih =>
    obtain ⟨tokens, outputs, hReads, -, -, -, rfl⟩ := insert_iff.mp h
    exact ⟨inv_inserted ih.1 hLegal hReads ih.2, (inserted_spec ih.1 hLegal hReads ih.2).2.2⟩
  | remove _ hRow hUnspent ih => exact (ih.1.remove hRow ih.2 hUnspent).2
  | removeMined _ hClosed h ih =>
    obtain ⟨m', hRemove, hInv⟩ := ih.1.removeMinedAll ih.2 hClosed
    obtain rfl := Option.some.inj (hRemove.symm.trans h)
    exact hInv

/-- **Unspent outputs and spenders of the mempool.** After every legal run, the
unspent outputs of each group are the mempool's outputs, under their members, that no
transaction of the mempool spends, and the spenders are the inputs of its
transactions. No legal operation fails: an insert succeeds if the tokens and plugin
outputs can be read, removals of unspent transactions and of mined transactions with
their parents always do. -/
theorem LegalRun.utxos_exact (h : LegalRun hasPlugins m) :
    (∀ group u, (m.utxos group).has u = true ↔
      GroupUtxos.OutputIn m.txs (m.members · group) u ∧ ¬ SpentIn m.txs u.2) ∧
    (∀ (o : OutPoint) entry, m.spentBy[o]? = some entry ↔
      ∃ row, m.txs[entry.txid]? = some row ∧ (o, entry) ∈ spentEntries row.tx) ∧
    (∀ db row tokens outputs, LegalInsert hasPlugins m db row.tx →
      Reads m db row.tx tokens outputs → ∃ m', m.insert db row = some m') ∧
    (∀ (txid : TxId) row, m.txs[txid]? = some row →
      (∀ (k : TxId) other, k ≠ txid → m.txs[k]? = some other → spends other.tx txid = false) →
      (m.remove txid).2 = true) ∧
    ∀ txids, ParentClosed m txids → ∃ m', m.removeMinedAll txids = some m' := by
  obtain ⟨hInv, hExact⟩ := h.inv
  refine ⟨hExact, hInv.consistent.spent, fun db row tokens outputs hLegal hReads => ?_,
    fun txid row hRow hUnspent => (hInv.remove hRow hExact hUnspent).1, fun txids hClosed => ?_⟩
  · obtain ⟨hGroups, hSpent, -⟩ := inserted_spec hInv hLegal hReads hExact
    exact ⟨_, insert_iff.mpr ⟨tokens, outputs, hReads, hGroups, hSpent, hLegal.new, rfl⟩⟩
  · obtain ⟨m', hRemove, -⟩ := hInv.removeMinedAll hExact hClosed
    exact ⟨m', hRemove⟩

/-! ## A parent and its child -/

def sampleId (b : UInt8) : TxId := ⟨List.replicate 31 0 ++ [b], by simp⟩

/-- A transaction with one input and one output, both of one script. -/
def sampleRow (id : UInt8) (prevOut : OutPoint) : MempoolTx where
  tx := {
    txid := sampleId id
    version := 1
    inputs := [⟨prevOut, ⟨[]⟩, 0, some ⟨⟨1000, ⟨[0x51]⟩⟩, 0, false⟩⟩]
    outputs := [⟨1000, ⟨[0x51]⟩⟩]
    locktime := 0 }
  timeFirstSeen := 0

/-- Every output is stored, and there are no plugins. -/
def sampleDb : MempoolDb where
  tokens := .empty
  txNumByTxid _ := .ok (some 0)
  pluginOutput _ _ := none
  hasPlugins := false
  runOnTx _ _ _ := none

/-- Transaction 1 spends a stored output, transaction 2 spends transaction 1. -/
def parentRow : MempoolTx := sampleRow 1 ⟨sampleId 9, 0⟩

def childRow : MempoolTx := sampleRow 2 ⟨sampleId 1, 0⟩

def parentPool : Mempool := ((new false).insert sampleDb parentRow).getD (new false)

def childPool : Mempool := (parentPool.insert sampleDb childRow).getD parentPool

theorem txs_parentPool (k : TxId) (row : MempoolTx) :
    parentPool.txs[k]? = some row ↔ sampleId 1 = k ∧ parentRow = row := Column.getElem?_singleton

theorem reads_noPlugins {m : Mempool} {tx : Tx} {tokens : MempoolTokens}
    {outputs : Column OutPoint PluginOutput} (h : Reads m sampleDb tx tokens outputs) :
    outputs = ∅ := by
  have hProbe := h.plugin
  exact (Option.some.inj hProbe).symm

theorem legalInsert_sampleRow {m : Mempool} (hRun : LegalRun false m) {id : UInt8}
    {prevOut : OutPoint} (hNew : m.txs[sampleId id]? = none) (hUnspent : Unspent m (sampleId id))
    (hNe : prevOut.txid ≠ sampleId id) (hNull : prevOut.isNull = false)
    (hFree : ¬ SpentIn m.txs prevOut)
    (hParent : ∀ parent, m.txs[prevOut.txid]? = some parent →
      parent.tx.outputs[prevOut.outIdx]? = some ⟨1000, ⟨[0x51]⟩⟩) :
    LegalInsert false m sampleDb (sampleRow id prevOut).tx where
  new := hNew
  unspent := hUnspent
  noSelf := spends_eq_false.mpr fun input hInput => by
    cases mem_singleton.mp hInput
    exact hNe
  noNull := by simpa [sampleRow] using hNull
  nodup := by simp [sampleRow]
  free := by simpa [sampleRow] using hFree
  coins := by
    intro input hInput
    cases mem_singleton.mp hInput
    exact ⟨_, rfl, fun parent h => ⟨hParent parent h, rfl⟩⟩
  plugins := rfl
  groups tokens outputs hReads o output h := by
    rw [reads_noPlugins hReads] at h
    simp at h
  known tokens outputs hReads idx _ output h := by
    rw [hRun.inv.1.noPlugins rfl] at h
    cases h

theorem legalRun_parentPool : LegalRun false parentPool := by
  have hNew : ∀ (k : TxId) row, (new false).txs[k]? ≠ some row := by simp [new]
  refine .insert (.new false) (legalInsert_sampleRow (.new false) (by simp [new])
    (fun k row h => absurd h (hNew k row)) (by decide) (by decide) ?_
    fun parent h => absurd h (hNew _ parent)) rfl
  rintro ⟨k, row, hRow, -⟩
  exact hNew k row hRow

theorem legalRun_childPool : LegalRun false childPool := by
  have hLegal : LegalInsert false parentPool sampleDb childRow.tx := by
    refine legalInsert_sampleRow legalRun_parentPool (by rfl) ?_ (by decide) (by decide) ?_ ?_
    · intro k row hRow
      obtain ⟨rfl, rfl⟩ := (txs_parentPool k row).mp hRow
      decide
    · rintro ⟨k, row, hRow, input, hInput, hPrev⟩
      obtain ⟨rfl, rfl⟩ := (txs_parentPool k row).mp hRow
      cases mem_singleton.mp hInput
      exact absurd (congrArg OutPoint.txid hPrev) (by decide)
    · intro parent hParent
      obtain ⟨-, rfl⟩ := (txs_parentPool _ parent).mp hParent
      rfl
  exact .insert legalRun_parentPool hLegal rfl

theorem txs_childPool {k : TxId} {row : MempoolTx} (h : childPool.txs[k]? = some row) :
    (k = sampleId 1 ∧ row = parentRow) ∨ k = sampleId 2 ∧ row = childRow := by
  have hTxs : childPool.txs = parentPool.txs.insert (sampleId 2) childRow := rfl
  rw [hTxs, Column.getElem?_insert] at h
  split at h
  · next hSame =>
    cases h
    exact .inr ⟨hSame.symm, rfl⟩
  · obtain ⟨hSame, rfl⟩ := (txs_parentPool k row).mp h
    exact .inl ⟨hSame.symm, rfl⟩

/-- The child's output is unspent, the parent's is not, and the child can be removed. -/
theorem childPool_utxos :
    (childPool.utxos .script).has (serMember ⟨[0x51]⟩, ⟨sampleId 2, 0⟩) = true ∧
    ¬ (childPool.utxos .script).has (serMember ⟨[0x51]⟩, ⟨sampleId 1, 0⟩) = true ∧
    (childPool.remove (sampleId 2)).2 = true := by
  obtain ⟨hUtxos, -, -, hRemove, -⟩ := legalRun_childPool.utxos_exact
  refine ⟨(hUtxos .script _).mpr ⟨⟨sampleId 2, childRow, rfl, by decide +kernel⟩, ?_⟩,
    fun h => ((hUtxos .script _).mp h).2
      ⟨sampleId 2, childRow, rfl, _, mem_singleton_self _, rfl⟩,
    hRemove (sampleId 2) childRow rfl fun k other hNe hOther => ?_⟩
  · rintro ⟨k, row, hRow, input, hInput, hPrev⟩
    rcases txs_childPool hRow with ⟨-, rfl⟩ | ⟨-, rfl⟩
    · cases mem_singleton.mp hInput
      exact absurd (congrArg OutPoint.txid hPrev) (by decide)
    · cases mem_singleton.mp hInput
      exact absurd (congrArg OutPoint.txid hPrev) (by decide)
  · rcases txs_childPool hOther with ⟨-, rfl⟩ | ⟨hSame, -⟩
    · decide
    · exact absurd hSame hNe

/-! ## Operations that fail -/

/-- A plugin that puts output 0 in one group twice. -/
def twiceDb : MempoolDb :=
  { sampleDb with
    hasPlugins := true
    runOnTx := fun _ _ _ => some [(0, ⟨(∅ : Column Nat (List Bytes)).insert 0 [[7], [7]]⟩)] }

/-- The first insert into an empty mempool fails if a plugin names a group twice: the
second entry for the output is there already. So does the insert of a transaction
that spends an output which another transaction of the mempool spends. -/
theorem insert_fails :
    ((new false).insert twiceDb parentRow).isNone = true ∧
    (((new false).plugins.probe twiceDb parentRow.tx (new false).isMempoolTx none).map
      fun outputs => ((new false).insertedInto parentRow.tx .empty outputs .plugins).2) =
        some false ∧
    (parentPool.insert sampleDb (sampleRow 2 ⟨sampleId 9, 0⟩)).isNone = true ∧
    (insertSpentBy parentPool.spentBy (sampleRow 2 ⟨sampleId 9, 0⟩).tx).2 = false := by
  decide +kernel

end Mempool

end Ergon
