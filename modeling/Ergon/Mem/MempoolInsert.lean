import Ergon.Mem.GroupHolds
import Ergon.Mem.Members

/-!
# Ergon — inserting into the index mempool

An insert reads the tokens and the plugin outputs of a transaction and then goes
through the indices (`Mempool.insert_iff`). `Mempool.LegalInsert` says what an insert
comes with that the indices rely on.

* `Mempool.members_inserted_self`, `Mempool.members_inserted_other` — the members that a
  transaction is inserted with are those that its removal will see, and those of the
  others stay as they are;
* `Mempool.matches_inserted` — where an input spends an output of the mempool its members
  are those of the output: for scripts because of the coins, for tokens and plugins
  because of what is looked up;
* `Mempool.inserted_spec`, `Mempool.inv_inserted` — so a legal insert succeeds and keeps
  the unspent outputs exact.
-/

namespace Ergon

open Lib Archival List Option Column Std.ExtTreeMap

namespace Mempool

variable {m m' : Mempool} {db : MempoolDb} {row : MempoolTx} {txid : TxId}
  {tokens : MempoolTokens} {outputs : Column OutPoint PluginOutput}

/-! ## What an insert does -/

/-- The tokens of the mempool with those of a transaction. -/
def readTokens (m : Mempool) (db : MempoolDb) (tx : Tx) : Option MempoolTokens :=
  if m.isTokenIndexEnabled then
    (m.tokens.insert ⟨db.tokens, db.txNumByTxid, m.isMempoolTx⟩ tx).toOption
  else some m.tokens

/-- What an insert reads: the tokens, and the plugin outputs that the transaction
spends and has. If it cannot be read, the insert fails. -/
structure Reads (m : Mempool) (db : MempoolDb) (tx : Tx) (tokens : MempoolTokens)
    (outputs : Column OutPoint PluginOutput) : Prop where
  token : m.readTokens db tx = some tokens
  plugin : m.plugins.probe db tx m.isMempoolTx (m.tokenData tokens tx) = some outputs

/-- The members that a transaction is inserted with. -/
def insertMembers (m : Mempool) (tx : Tx) (tokens : MempoolTokens)
    (outputs : Column OutPoint PluginOutput) : UtxoGroup → Members
  | .script => scriptMembers tx
  | .tokenId => if m.isTokenIndexEnabled then tokenIdMembers tx tokens else ⟨[], []⟩
  | .plugins => pluginMembers tx outputs

/-- The unspent outputs of a group once a transaction is inserted. -/
def insertedInto (m : Mempool) (tx : Tx) (tokens : MempoolTokens)
    (outputs : Column OutPoint PluginOutput) (group : UtxoGroup) : GroupUtxos × Bool :=
  (m.utxos group).insert tx m.isMempoolTx (m.insertMembers tx tokens outputs group)

/-- The mempool once a transaction is inserted. -/
def inserted (m : Mempool) (row : MempoolTx) (tokens : MempoolTokens)
    (outputs : Column OutPoint PluginOutput) : Mempool where
  txs := m.txs.insert row.tx.txid row
  scriptUtxos := (m.insertedInto row.tx tokens outputs .script).1
  spentBy := (insertSpentBy m.spentBy row.tx).1
  tokens := tokens
  tokenIdUtxos := (m.insertedInto row.tx tokens outputs .tokenId).1
  plugins := {
    pluginOutputs := m.plugins.pluginOutputs.putAll outputs.toList
    spentOutputs := m.plugins.spentOutputs.insert row.tx.txid
      (outputs.restrict (row.tx.inputs.map (·.prevOut)))
    groupUtxos := (m.insertedInto row.tx tokens outputs .plugins).1 }
  isTokenIndexEnabled := m.isTokenIndexEnabled

theorem insertTokens_eq (m : Mempool) (db : MempoolDb) (tx : Tx)
    (outputs : Column OutPoint PluginOutput) :
    m.insertTokens db tx = (m.readTokens db tx).bind fun tokens =>
      (succeeded (m.insertedInto tx tokens outputs .tokenId)).map fun g => (tokens, g) := by
  unfold insertTokens readTokens insertedInto insertMembers
  cases m.isTokenIndexEnabled with
  | true =>
    simp only [if_true]
    cases (m.tokens.insert ⟨db.tokens, db.txNumByTxid, m.isMempoolTx⟩ tx).toOption with
    | none => rfl
    | some tokens =>
      show (succeeded _).bind _ = _
      rw [bind_some, Option.map_eq_bind]
      rfl
  | false => rfl

/-- An insert succeeds exactly if everything can be read, no index has an entry
already that it adds or lacks one that it takes out, and the transaction is new. -/
theorem insert_iff :
    m.insert db row = some m' ↔ ∃ tokens outputs, Reads m db row.tx tokens outputs ∧
      (∀ group, (m.insertedInto row.tx tokens outputs group).2 = true) ∧
      (insertSpentBy m.spentBy row.tx).2 = true ∧ m.txs[row.tx.txid]? = none ∧
      m' = m.inserted row tokens outputs := by
  have hNew : m.isMempoolTx row.tx.txid = true ↔ ¬ m.txs[row.tx.txid]? = none := by
    rw [isMempoolTx, ← isSome_getElem?_eq_contains]
    cases m.txs[row.tx.txid]? <;> simp
  constructor
  · intro h
    obtain ⟨scriptUtxos, hScript, h⟩ := bind_eq_some_iff.mp h
    obtain ⟨spentBy, hSpent, h⟩ := bind_eq_some_iff.mp h
    obtain ⟨⟨tokens, tokenIdUtxos⟩, hTokens, h⟩ := bind_eq_some_iff.mp h
    obtain ⟨plugins, hPlugins, h⟩ := bind_eq_some_iff.mp h
    obtain ⟨outputs, hOutputs, hPlugins⟩ := bind_eq_some_iff.mp hPlugins
    obtain ⟨groupUtxos, hGroup, hPlugins⟩ := bind_eq_some_iff.mp hPlugins
    rw [insertTokens_eq m db row.tx outputs] at hTokens
    obtain ⟨tokens', hRead, hTokens⟩ := bind_eq_some_iff.mp hTokens
    obtain ⟨_, hInto, hTokens⟩ := map_eq_some_iff.mp hTokens
    cases hTokens
    cases hPlugins
    rw [succeeded_eq_some] at hScript hSpent hInto hGroup
    split at h
    · cases h
    · next hFresh =>
      cases h
      refine ⟨tokens, outputs, ⟨hRead, hOutputs⟩, fun group => ?_, by rw [hSpent],
        not_not.mp (mt hNew.mpr hFresh), ?_⟩
      · cases group with
        | script => exact congrArg Prod.snd hScript
        | tokenId => exact congrArg Prod.snd hInto
        | plugins => exact congrArg Prod.snd hGroup
      · have hScript' : m.insertedInto row.tx tokens outputs .script = (scriptUtxos, true) :=
          hScript
        have hGroup' : m.insertedInto row.tx tokens outputs .plugins = (groupUtxos, true) :=
          hGroup
        rw [inserted, hScript', hGroup', hInto, hSpent]
  · rintro ⟨tokens, outputs, hReads, hGroups, hSpent, hFresh, rfl⟩
    have hOk : ∀ {σ : Type} {r : σ × Bool}, r.2 = true → succeeded r = some r.1 :=
      fun h => succeeded_eq_some.mpr (Prod.ext rfl h)
    refine bind_eq_some_iff.mpr ⟨_, hOk (hGroups .script), ?_⟩
    refine bind_eq_some_iff.mpr ⟨_, hOk hSpent, ?_⟩
    refine bind_eq_some_iff.mpr
      ⟨(tokens, (m.insertedInto row.tx tokens outputs .tokenId).1), ?_, ?_⟩
    · rw [insertTokens_eq m db row.tx outputs, hReads.token, bind_some, hOk (hGroups .tokenId)]
      rfl
    · refine bind_eq_some_iff.mpr ⟨_, bind_eq_some_iff.mpr ⟨outputs, hReads.plugin,
        bind_eq_some_iff.mpr ⟨_, hOk (hGroups .plugins), rfl⟩⟩, ?_⟩
      rw [if_neg fun h => hNew.mp h hFresh]
      rfl

end Mempool

/-! ## What is read -/

theorem map_fst_spentEntries (tx : Tx) :
    (spentEntries tx).map Prod.fst = tx.inputs.map (·.prevOut) := by
  rw [spentEntries, List.map_map]
  have hFst : (Prod.fst ∘ fun (e : TxInput × Nat) => (e.1.prevOut, (⟨tx.txid, e.2⟩ : SpentBy))) =
      (fun input => input.prevOut) ∘ Prod.fst := rfl
  show tx.inputs.zipIdx.map (Prod.fst ∘ fun (e : TxInput × Nat) =>
    (e.1.prevOut, (⟨tx.txid, e.2⟩ : SpentBy))) = _
  rw [hFst, ← List.map_map, zipIdx_map_fst]

/-- Entries for different outputs that have none can be added. -/
theorem insertSpentBy_snd {spentBy : Column OutPoint SpentBy} {tx : Tx}
    (hNodup : ((spentEntries tx).map Prod.fst).Nodup)
    (hFree : ∀ entry ∈ spentEntries tx, spentBy[entry.1]? = none) :
    (insertSpentBy spentBy tx).2 = true := by
  unfold insertSpentBy
  generalize spentEntries tx = entries at hNodup hFree
  induction entries generalizing spentBy with
  | nil => rfl
  | cons first entries ih =>
    rw [map_cons, nodup_cons] at hNodup
    rw [runEach, hFree first mem_cons_self, andThen_snd]
    refine ⟨rfl, ih hNodup.2 fun entry hEntry => ?_⟩
    rw [Column.getElem?_insert, if_neg, hFree entry (mem_cons_of_mem _ hEntry)]
    intro hSame
    exact hNodup.1 (hSame ▸ List.mem_map_of_mem hEntry)

namespace MempoolPlugins

variable {p : MempoolPlugins} {db : MempoolDb} {tx : Tx} {isMempoolTx : TxId → Bool}
  {tokenData : Option (TokenTx × List (Option SpentToken))} {outputs : Column OutPoint PluginOutput}

/-- The outputs of a probe: what the inputs spend, and what the plugins answered. -/
theorem probe_spec (h : p.probe db tx isMempoolTx tokenData = some outputs)
    (hPlugins : db.hasPlugins = true) (hInputs : (tx.inputs.map (·.prevOut)).Nodup) :
    (∀ input ∈ tx.inputs, input.prevOut.txid ≠ tx.txid →
      p.fetchPluginOutput db isMempoolTx input = some outputs[input.prevOut]?) ∧
    ∀ o : OutPoint, o.txid ≠ tx.txid → (∀ input ∈ tx.inputs, input.prevOut ≠ o) →
      outputs[o]? = none := by
  rw [probe, if_pos hPlugins] at h
  obtain ⟨fetched, hFetched, h⟩ := bind_eq_some_iff.mp h
  obtain ⟨answers, -, h⟩ := bind_eq_some_iff.mp h
  cases h
  rw [mapM_eq_some] at hFetched
  have hKeys : fetched.map Prod.fst = tx.inputs.map (·.prevOut) := by
    refine (Forall₂.map_eq hFetched fun input e hEntry => ?_).symm
    obtain ⟨output, -, rfl⟩ := map_eq_some_iff.mp hEntry
    rfl
  have hOthers : ∀ o : OutPoint, o.txid ≠ tx.txid →
      ∀ v, (o, v) ∉ answers.map fun answer => ((⟨tx.txid, answer.1⟩ : OutPoint), answer.2) := by
    intro o ho v hIn
    obtain ⟨_, -, hEq⟩ := List.mem_map.mp hIn
    exact ho (congrArg (fun e => e.1.txid) hEq).symm
  constructor
  · intro input hInput hNe
    obtain ⟨⟨o, output⟩, hIn, hOutput⟩ := Forall₂.exists_right hFetched hInput
    obtain ⟨output, hFetch, hEq⟩ := map_eq_some_iff.mp hOutput
    cases hEq
    have hGet := @getElem?_putAll_filterMap _ _ _ _ _ _ _ Prod.snd Prod.fst fetched
      (hKeys ▸ hInputs) _ hIn
    rw [hFetch, getElem?_putAll_of_not_mem (hOthers _ hNe)]
    exact congrArg some hGet.symm
  · intro o hNe hNot
    rw [getElem?_putAll_of_not_mem (hOthers o hNe), getElem?_putAll_of_not_mem]
    · simp
    · intro v hIn
      obtain ⟨e, he, hEq⟩ := mem_filterMap.mp hIn
      obtain ⟨_, -, hEq⟩ := map_eq_some_iff.mp hEq
      have hKey : e.1 ∈ tx.inputs.map (·.prevOut) := hKeys ▸ List.mem_map_of_mem he
      obtain ⟨input, hInput, hPrev⟩ := List.mem_map.mp hKey
      exact hNot input hInput (hPrev.trans (congrArg Prod.fst hEq))

end MempoolPlugins

namespace MempoolTokens

variable {t t' : MempoolTokens} {r : MempoolReader} {tx : Tx}

theorem insert_other (h : t.insert r tx = .ok t') {k : TxId} (hk : k ≠ tx.txid) :
    t'.tokenTxs[k]? = t.tokenTxs[k]? ∧ t'.txTokenInputs[k]? = t.txTokenInputs[k]? := by
  obtain ⟨S, -, h⟩ := insert_eq_ok.mp h
  split at h
  · rw [h]
    exact ⟨rfl, rfl⟩
  · obtain ⟨ctx, -, rfl⟩ := h
    refine ⟨by rw [Column.getElem?_insert, if_neg hk.symm], ?_⟩
    dsimp only
    split
    · rw [Column.getElem?_insert, if_neg hk.symm]
    · rfl

/-- The members of the inputs are the tokens that were found at the inputs. -/
theorem insert_inputs (h : t.insert r tx = .ok t') (hNew : t.tokenTxs[tx.txid]? = none)
    (hNew' : t.txTokenInputs[tx.txid]? = none) :
    ∃ S, tx.inputs.mapM (t.inputToken r ∅) = .ok S ∧
      ∀ idx member, (idx, member) ∈ (tokenIdMembers tx t').inputs ↔
        ∃ spent, S[idx]? = some (some spent) ∧ spent.id.val.reverse = member := by
  obtain ⟨S, hS, h⟩ := insert_eq_ok.mp h
  refine ⟨S, fetchTxSpentTokensBatch_eq_ok.mp hS, fun idx member => ?_⟩
  have hNone : S.any Option.isSome = false → ∀ spent, ¬ S[idx]? = some (some spent) := by
    intro hAny spent hSpent
    rw [List.any_eq_false] at hAny
    exact hAny _ (mem_of_getElem? hSpent) rfl
  split at h
  · next hSkip =>
    subst h
    rw [tokenIdMembers_of_none hNew]
    simp [hNone hSkip.2]
  · obtain ⟨ctx, -, rfl⟩ := h
    have hTokenTx : (t.tokenTxs.insert tx.txid (ctx.verify (coloring tx)))[tx.txid]? =
        some (ctx.verify (coloring tx)) := by
      rw [Column.getElem?_insert, if_pos rfl]
    rw [mem_tokenIdMembers_inputs hTokenTx]
    by_cases hAny : S.any Option.isSome = true
    · rw [inputTokens, if_pos hAny, Column.getElem?_insert, if_pos rfl]
      rfl
    · rw [inputTokens, if_neg hAny, hNew']
      rw [Bool.not_eq_true] at hAny
      simp [hNone hAny, getElem?_replicate]

theorem tokenAt_eq_ok {tokenTx : TokenTx} {o : OutPoint} {s : Option SpentToken}
    (h : tokenTx.tokenAt o = .ok s) (spent : SpentToken) :
    s = some spent ↔ ∃ output, tokenTx.outputs[o.outIdx]? = some (some output) ∧
      tokenTx.spentToken output = some spent := by
  unfold TokenTx.tokenAt at h
  split at h
  · cases h
  · next hOutput =>
    cases h
    simp [hOutput]
  · next output hOutput =>
    obtain ⟨spent', hSpent, rfl⟩ := map_eq_ok.mp h
    rw [orElse_eq_ok] at hSpent
    simp [hOutput, hSpent]

/-- The token at an input whose transaction is in the mempool is the one on the
output. -/
theorem inputToken_mempool {input : TxInput} {s : Option SpentToken}
    (h : t.inputToken r ∅ input = .ok s) (hMempool : r.isMempoolTx input.prevOut.txid = true)
    {parent : Tx} (hParent : parent.txid = input.prevOut.txid) (member : Bytes) :
    (∃ spent, s = some spent ∧ spent.id.val.reverse = member) ↔
      (input.prevOut.outIdx, member) ∈ (tokenIdMembers parent t).outputs := by
  obtain ⟨found, hFound, h⟩ := bind_eq_ok.mp h
  unfold findInput at hFound
  cases hTokenTx : t.tokenTxs[input.prevOut.txid]? with
  | none =>
    rw [hTokenTx, if_pos hMempool] at hFound
    simp only [getElem?_empty] at hFound
    cases hFound
    cases h
    rw [tokenIdMembers_of_none (hParent ▸ hTokenTx)]
    simp
  | some tokenTx =>
    rw [hTokenTx] at hFound
    obtain ⟨s', hAt, rfl⟩ := map_eq_ok.mp hFound
    cases h
    rw [mem_tokenIdMembers_outputs (hParent ▸ hTokenTx)]
    simp only [tokenAt_eq_ok hAt]
    constructor
    · rintro ⟨spent, ⟨output, hOutput, hSpent⟩, hMember⟩
      exact ⟨output, spent, hOutput, hSpent, hMember⟩
    · rintro ⟨output, spent, hOutput, hSpent, hMember⟩
      exact ⟨spent, ⟨output, hOutput, hSpent⟩, hMember⟩

end MempoolTokens

/-! ## Legal inserts -/

namespace Mempool

variable {m m' : Mempool} {db : MempoolDb} {row : MempoolTx} {txid : TxId} {hasPlugins : Bool}
  {tokens : MempoolTokens} {outputs : Column OutPoint PluginOutput}

/-- A transaction that can be inserted. It is new and comes after its parents and before its
children; no other transaction of the mempool spends what it spends; the coins of its
inputs are given, and where an input spends an output of the mempool the coin is that
output. The plugins are the same for every insert, name each group of an output once,
and answer what is still known of the transaction's outputs. -/
structure LegalInsert (hasPlugins : Bool) (m : Mempool) (db : MempoolDb) (tx : Tx) : Prop where
  new : m.txs[tx.txid]? = none
  unspent : Unspent m tx.txid
  noSelf : spends tx tx.txid = false
  noNull : ∀ input ∈ tx.inputs, input.prevOut.isNull = false
  nodup : (tx.inputs.map (·.prevOut)).Nodup
  free : ∀ input ∈ tx.inputs, ¬ SpentIn m.txs input.prevOut
  coins : ∀ input ∈ tx.inputs, ∃ coin, input.coin = some coin ∧
    ∀ parent, m.txs[input.prevOut.txid]? = some parent →
      parent.tx.outputs[input.prevOut.outIdx]? = some coin.output ∧
        coin.output.script.isOpreturn = false
  plugins : db.hasPlugins = hasPlugins
  groups : ∀ tokens outputs, Reads m db tx tokens outputs →
    ∀ (o : OutPoint) output, outputs[o]? = some output → output.members.Nodup
  known : ∀ tokens outputs, Reads m db tx tokens outputs →
    ∀ idx < tx.outputs.length, ∀ output,
      m.plugins.pluginOutputs[(⟨tx.txid, idx⟩ : OutPoint)]? = some output →
        outputs[(⟨tx.txid, idx⟩ : OutPoint)]? = some output

/-- What holds of a mempool besides its unspent outputs. -/
structure Inv (hasPlugins : Bool) (m : Mempool) : Prop where
  consistent : Consistent m
  noSelf : ∀ (k : TxId) row, m.txs[k]? = some row → spends row.tx k = false
  tokens : ∀ k : TxId, m.isTokenIndexEnabled = false ∨ m.txs[k]? = none →
    m.tokens.tokenTxs[k]? = none ∧ m.tokens.txTokenInputs[k]? = none
  noPlugins : hasPlugins = false → ∀ o : OutPoint, m.plugins.pluginOutputs[o]? = none
  spentOutputs : ∀ (k : TxId) row, m.txs[k]? = some row → ∀ (o : OutPoint) output,
    (m.plugins.spentOutputs[k]?.getD ∅)[o]? = some output →
      ∃ input ∈ row.tx.inputs, input.prevOut = o
  nodup : ∀ (k : TxId) row, m.txs[k]? = some row → ∀ group,
    (m.members row.tx group).inputs.Nodup ∧ (m.members row.tx group).outputs.Nodup
  matched : ∀ (k : TxId) row, m.txs[k]? = some row → ∀ group,
    GroupUtxos.Matches m.txs (m.members · group) row.tx

/-- In every group the unspent outputs are the mempool's outputs that no transaction
of the mempool spends. -/
def Exact (m : Mempool) : Prop :=
  ∀ group, (m.utxos group).Holds m.txs (m.members · group) (SpentIn m.txs)

theorem Unspent.not_spentIn (h : Unspent m txid) {o : OutPoint} (ho : o.txid = txid) :
    ¬ SpentIn m.txs o := by
  rintro ⟨k, row, hRow, input, hInput, rfl⟩
  exact spends_eq_false.mp (h k row hRow) input hInput ho

theorem getElem?_txOutputs (p : MempoolPlugins) (tx : Tx) (o : OutPoint) :
    (p.txOutputs tx)[o]? =
      (if o ∈ MempoolPlugins.outPoints tx then p.pluginOutputs[o]? else none).or
        (p.spentOutputs[tx.txid]?.getD ∅)[o]? := by
  rw [MempoolPlugins.txOutputs, getElem?_putAll_toList, getElem?_restrict]

theorem mem_outPoints {tx : Tx} {o : OutPoint} :
    o ∈ MempoolPlugins.outPoints tx ↔ o.txid = tx.txid ∧ o.outIdx < tx.outputs.length := by
  unfold MempoolPlugins.outPoints
  rw [List.mem_map]
  constructor
  · rintro ⟨idx, hIdx, rfl⟩
    exact ⟨rfl, mem_range.mp hIdx⟩
  · rintro ⟨hTxid, hIdx⟩
    exact ⟨o.outIdx, mem_range.mpr hIdx, by rw [← hTxid]⟩

theorem fetchPluginOutput_mempool {p : MempoolPlugins} {isMempoolTx : TxId → Bool}
    {input : TxInput} (hNull : input.prevOut.isNull = false)
    (hMempool : isMempoolTx input.prevOut.txid = true) :
    p.fetchPluginOutput db isMempoolTx input = some p.pluginOutputs[input.prevOut]? := by
  rw [MempoolPlugins.fetchPluginOutput, if_neg (by rw [hNull]; exact Bool.false_ne_true)]
  cases p.pluginOutputs[input.prevOut]? with
  | none => exact if_pos hMempool
  | some output => rfl

/-- What is known of the outputs of a transaction of the mempool. -/
theorem Inv.getElem?_txOutputs_own (hInv : Inv hasPlugins m) {k : TxId} {parent : MempoolTx}
    (hParent : m.txs[k]? = some parent) {idx : Nat} (hIdx : idx < parent.tx.outputs.length) :
    (m.plugins.txOutputs parent.tx)[(⟨parent.tx.txid, idx⟩ : OutPoint)]? =
      m.plugins.pluginOutputs[(⟨parent.tx.txid, idx⟩ : OutPoint)]? := by
  have hKey := hInv.consistent.key k parent hParent
  subst hKey
  rw [getElem?_txOutputs, if_pos (mem_outPoints.mpr ⟨rfl, hIdx⟩)]
  cases hSpent : (m.plugins.spentOutputs[parent.tx.txid]?.getD ∅)[
      (⟨parent.tx.txid, idx⟩ : OutPoint)]? with
  | none => exact or_none
  | some output =>
    -- the transaction does not spend itself
    obtain ⟨input, hInput, hPrev⟩ := hInv.spentOutputs _ parent hParent _ output hSpent
    refine absurd ?_ (spends_eq_false.mp (hInv.noSelf _ parent hParent) input hInput)
    rw [hPrev]

section Insert

variable (hInv : Inv hasPlugins m) (hLegal : LegalInsert hasPlugins m db row.tx)
  (hReads : Reads m db row.tx tokens outputs)
include hInv hLegal hReads

/-- What the plugins are told of an output of the mempool is what is known of it. -/
theorem outputs_of_mempool {o : OutPoint} {parent : MempoolTx} (ho : m.txs[o.txid]? = some parent) :
    (∀ output, outputs[o]? = some output → m.plugins.pluginOutputs[o]? = some output) ∧
    ((∃ input ∈ row.tx.inputs, input.prevOut = o) →
      outputs[o]? = m.plugins.pluginOutputs[o]?) := by
  have hNe : o.txid ≠ row.tx.txid := by
    intro hSame
    rw [hSame, hLegal.new] at ho
    cases ho
  have hMempool : m.isMempoolTx o.txid = true := by
    rw [isMempoolTx, ← isSome_getElem?_eq_contains, ho]
    rfl
  cases hPlugins : db.hasPlugins with
  | false =>
    have hProbe := hReads.plugin
    rw [MempoolPlugins.probe, hPlugins] at hProbe
    cases hProbe
    refine ⟨fun output hOutput => by simp at hOutput, fun _ => ?_⟩
    rw [hInv.noPlugins (hLegal.plugins.symm.trans hPlugins)]
    simp
  | true =>
    obtain ⟨hSpent, hOther⟩ := MempoolPlugins.probe_spec hReads.plugin hPlugins hLegal.nodup
    have hEq : (∃ input ∈ row.tx.inputs, input.prevOut = o) →
        outputs[o]? = m.plugins.pluginOutputs[o]? := by
      rintro ⟨input, hInput, rfl⟩
      have hFetch := hSpent input hInput hNe
      rw [fetchPluginOutput_mempool (hLegal.noNull input hInput) hMempool] at hFetch
      exact (Option.some.inj hFetch).symm
    refine ⟨fun output hOutput => ?_, hEq⟩
    by_cases hIn : ∃ input ∈ row.tx.inputs, input.prevOut = o
    · rw [← hEq hIn, hOutput]
    · rw [hOther o hNe fun input hInput hPrev => hIn ⟨input, hInput, hPrev⟩] at hOutput
      cases hOutput

omit hInv hLegal in
theorem readTokens_other {k : TxId} (hk : k ≠ row.tx.txid) :
    tokens.tokenTxs[k]? = m.tokens.tokenTxs[k]? ∧
      tokens.txTokenInputs[k]? = m.tokens.txTokenInputs[k]? := by
  have hRead := hReads.token
  unfold readTokens at hRead
  split at hRead
  · exact MempoolTokens.insert_other (toOption_eq_some.mp hRead) hk
  · cases hRead
    exact ⟨rfl, rfl⟩

/-- An insert does not change the members of the others. -/
theorem members_inserted_other {k : TxId} {other : MempoolTx} (hOther : m.txs[k]? = some other)
    (group : UtxoGroup) :
    (m.inserted row tokens outputs).members other.tx group = m.members other.tx group := by
  have hKey := hInv.consistent.key k other hOther
  subst hKey
  have hNe : other.tx.txid ≠ row.tx.txid := by
    intro hSame
    rw [hSame, hLegal.new] at hOther
    cases hOther
  cases group with
  | script => rfl
  | tokenId =>
    obtain ⟨hTx, hInputs⟩ := readTokens_other hReads hNe
    show (if m.isTokenIndexEnabled then tokenIdMembers other.tx tokens else ⟨[], []⟩) =
      if m.isTokenIndexEnabled then tokenIdMembers other.tx m.tokens else ⟨[], []⟩
    unfold tokenIdMembers TokenIdGroupAux.fromMempool
    rw [hTx, hInputs]
  | plugins =>
    show pluginMembers other.tx ((m.inserted row tokens outputs).plugins.txOutputs other.tx) =
      pluginMembers other.tx (m.plugins.txOutputs other.tx)
    congr 1
    refine Std.ExtTreeMap.ext_getElem? fun o => ?_
    rw [getElem?_txOutputs, getElem?_txOutputs]
    have hSpent : (m.inserted row tokens outputs).plugins.spentOutputs[other.tx.txid]? =
        m.plugins.spentOutputs[other.tx.txid]? := by
      show (m.plugins.spentOutputs.insert _ _)[other.tx.txid]? = _
      rw [Column.getElem?_insert, if_neg hNe.symm]
    rw [hSpent]
    congr 1
    split
    · next ho =>
      show (m.plugins.pluginOutputs.putAll outputs.toList)[o]? = _
      rw [getElem?_putAll_toList]
      cases hOutput : outputs[o]? with
      | none => rfl
      | some output =>
        have hParent : m.txs[o.txid]? = some other := by rwa [(mem_outPoints.mp ho).1]
        exact ((outputs_of_mempool hInv hLegal hReads hParent).1 output hOutput).symm
    · rfl

omit hInv in
/-- The members of the inserted transaction are those that it was inserted with. -/
theorem members_inserted_self (group : UtxoGroup) :
    (m.inserted row tokens outputs).members row.tx group =
      m.insertMembers row.tx tokens outputs group := by
  cases group with
  | script => rfl
  | tokenId => rfl
  | plugins =>
    have hSpentOutputs : (m.inserted row tokens outputs).plugins.spentOutputs[row.tx.txid]?.getD ∅ =
        outputs.restrict (row.tx.inputs.map (·.prevOut)) := by
      show (m.plugins.spentOutputs.insert _ _)[row.tx.txid]?.getD ∅ = _
      rw [Column.getElem?_insert, if_pos rfl]
      rfl
    refine pluginMembers_congr (fun input hInput => ?_) fun idx hIdx => ?_
    · rw [getElem?_txOutputs, hSpentOutputs, getElem?_restrict,
        if_neg fun ho => spends_eq_false.mp hLegal.noSelf input hInput (mem_outPoints.mp ho).1,
        if_pos (List.mem_map_of_mem hInput)]
      rfl
    · rw [getElem?_txOutputs, hSpentOutputs, getElem?_restrict,
        if_pos (mem_outPoints.mpr ⟨rfl, hIdx⟩), if_neg, or_none]
      · show (m.plugins.pluginOutputs.putAll outputs.toList)[(⟨row.tx.txid, idx⟩ : OutPoint)]? = _
        rw [getElem?_putAll_toList]
        cases hOutput : outputs[(⟨row.tx.txid, idx⟩ : OutPoint)]? with
        | some output => rfl
        | none =>
          cases hKnown : m.plugins.pluginOutputs[(⟨row.tx.txid, idx⟩ : OutPoint)]? with
          | none => rfl
          | some output =>
            rw [hLegal.known tokens outputs hReads idx hIdx output hKnown] at hOutput
            cases hOutput
      · intro hIn
        obtain ⟨input, hInput, hPrev⟩ := List.mem_map.mp hIn
        exact spends_eq_false.mp hLegal.noSelf input hInput (by rw [hPrev])

/-- The members of the inputs are those of the outputs of the mempool they spend. -/
theorem matches_inserted (group : UtxoGroup) :
    GroupUtxos.Matches m.txs ((m.inserted row tokens outputs).members · group) row.tx := by
  intro idx input hInput parent hParent member
  dsimp only
  rw [members_inserted_self hLegal hReads, members_inserted_other hInv hLegal hReads hParent]
  have hKey := hInv.consistent.key _ parent hParent
  have hMem := mem_of_getElem? hInput
  obtain ⟨coin, hCoin, hSpends⟩ := hLegal.coins input hMem
  obtain ⟨hOutput, hReturn⟩ := hSpends parent hParent
  have hMempool : m.isMempoolTx input.prevOut.txid = true := by
    rw [isMempoolTx, ← isSome_getElem?_eq_contains, hParent]
    rfl
  cases group with
  | script =>
    have hCoins : ∀ input ∈ row.tx.inputs, input.coin.isSome := by
      intro input hInput
      obtain ⟨coin, hCoin, -⟩ := hLegal.coins input hInput
      rw [hCoin]
      rfl
    show (idx, member) ∈ (scriptMembers row.tx).inputs ↔
      (input.prevOut.outIdx, member) ∈ (scriptMembers parent.tx).outputs
    rw [mem_scriptMembers_inputs hCoins, mem_scriptMembers_outputs, hInput, hOutput]
    constructor
    · rintro ⟨_, coin', h, hCoin', hSer⟩
      cases h
      cases hCoin.symm.trans hCoin'
      exact ⟨coin.output, rfl, hReturn, hSer⟩
    · rintro ⟨_, h, -, hSer⟩
      cases h
      exact ⟨input, coin, rfl, hCoin, hSer⟩
  | tokenId =>
    show (idx, member) ∈ (if m.isTokenIndexEnabled then tokenIdMembers row.tx tokens
        else ⟨[], []⟩ : Members).inputs ↔
      (input.prevOut.outIdx, member) ∈ (if m.isTokenIndexEnabled then
        tokenIdMembers parent.tx m.tokens else ⟨[], []⟩ : Members).outputs
    cases hEnabled : m.isTokenIndexEnabled with
    | false => simp
    | true =>
      have hRead := hReads.token
      rw [readTokens, if_pos hEnabled, toOption_eq_some] at hRead
      obtain ⟨hNew, hNew'⟩ := hInv.tokens row.tx.txid (.inr hLegal.new)
      obtain ⟨S, hS, hMembers⟩ := MempoolTokens.insert_inputs hRead hNew hNew'
      obtain ⟨s, hs, hToken⟩ := Forall₂.exists_getElem? (mapM_eq_ok.mp hS) hInput
      simp only [if_true]
      rw [hMembers, hs, ← MempoolTokens.inputToken_mempool hToken hMempool hKey]
      simp
  | plugins =>
    show (idx, member) ∈ (pluginMembers row.tx outputs).inputs ↔ (input.prevOut.outIdx, member) ∈
      (pluginMembers parent.tx (m.plugins.txOutputs parent.tx)).outputs
    have hIdx : input.prevOut.outIdx < parent.tx.outputs.length :=
      (List.getElem?_eq_some_iff.mp hOutput).1
    have hSame := (outputs_of_mempool hInv hLegal hReads hParent).2 ⟨input, hMem, rfl⟩
    have hPrev : (⟨parent.tx.txid, input.prevOut.outIdx⟩ : OutPoint) = input.prevOut := by rw [hKey]
    rw [mem_pluginMembers_inputs, mem_pluginMembers_outputs,
      hInv.getElem?_txOutputs_own hParent hIdx, hPrev, ← hSame, hInput]
    constructor
    · rintro ⟨_, output, h, hOutput, hMember⟩
      cases h
      exact ⟨hIdx, output, hOutput, hMember⟩
    · rintro ⟨-, output, hOutput, hMember⟩
      exact ⟨input, output, rfl, hOutput, hMember⟩

omit hInv in
theorem nodup_inserted (group : UtxoGroup) :
    ((m.inserted row tokens outputs).members row.tx group).inputs.Nodup ∧
      ((m.inserted row tokens outputs).members row.tx group).outputs.Nodup := by
  rw [members_inserted_self hLegal hReads]
  cases group with
  | script => exact nodup_scriptMembers row.tx
  | tokenId =>
    unfold insertMembers
    dsimp only
    split
    · exact nodup_tokenIdMembers row.tx tokens
    · exact ⟨nodup_nil, nodup_nil⟩
  | plugins => exact nodup_pluginMembers row.tx (hLegal.groups tokens outputs hReads)

/-- Nothing is in the way of a legal insert whose reads succeed. -/
theorem inserted_spec (hExact : Exact m) :
    (∀ group, (m.insertedInto row.tx tokens outputs group).2 = true) ∧
      (insertSpentBy m.spentBy row.tx).2 = true ∧ Exact (m.inserted row tokens outputs) := by
  have hStep := fun group => (hExact group).insert hInv.consistent.key hLegal.new
    (fun _ ho => hLegal.unspent.not_spentIn ho) hLegal.noSelf hLegal.nodup hLegal.free
    (fun _ _ hOther => members_inserted_other hInv hLegal hReads hOther group)
    (matches_inserted hInv hLegal hReads group) (nodup_inserted hLegal hReads group).1
    (nodup_inserted hLegal hReads group).2
  simp only [members_inserted_self hLegal hReads] at hStep
  refine ⟨fun group => (hStep group).1, ?_, fun group => ?_⟩
  · refine insertSpentBy_snd ?_ fun entry hEntry => ?_
    · rw [map_fst_spentEntries]
      exact hLegal.nodup
    · obtain ⟨-, input, hInput, hPrev⟩ := mem_spentEntries.mp hEntry
      cases hSpent : m.spentBy[entry.1]? with
      | none => rfl
      | some other =>
        obtain ⟨row', hRow', hIn⟩ := (hInv.consistent.spent _ _).mp hSpent
        obtain ⟨-, input', hInput', hPrev'⟩ := mem_spentEntries.mp hIn
        refine absurd ?_ (hLegal.free input (mem_of_getElem? hInput))
        exact ⟨_, row', hRow', input', mem_of_getElem? hInput', hPrev'.trans hPrev.symm⟩
  · have hHolds := (hStep group).2
    cases group with
    | script => exact hHolds
    | tokenId => exact hHolds
    | plugins => exact hHolds

theorem inv_inserted (hExact : Exact m) : Inv hasPlugins (m.inserted row tokens outputs) := by
  obtain ⟨hGroups, hSpent, -⟩ := inserted_spec hInv hLegal hReads hExact
  have hInsert : m.insert db row = some (m.inserted row tokens outputs) :=
    insert_iff.mpr ⟨tokens, outputs, hReads, hGroups, hSpent, hLegal.new, rfl⟩
  have hTxs : ∀ k : TxId, (m.inserted row tokens outputs).txs[k]? =
      if row.tx.txid = k then some row else m.txs[k]? := fun k => Column.getElem?_insert _ _ _ _
  constructor
  · exact hInv.consistent.insert hInsert
  · intro k other hOther
    rw [hTxs] at hOther
    split at hOther
    · next hSame =>
      cases hOther
      rw [← hSame]
      exact hLegal.noSelf
    · exact hInv.noSelf k other hOther
  · intro k hk
    have hRead := hReads.token
    rcases hk with hDisabled | hNone
    · have hDisabled : m.isTokenIndexEnabled = false := hDisabled
      rw [readTokens, if_neg (by rw [hDisabled]; exact Bool.false_ne_true)] at hRead
      cases hRead
      exact hInv.tokens k (.inl hDisabled)
    · rw [hTxs] at hNone
      split at hNone
      · cases hNone
      · next hNe =>
        obtain ⟨hTx, hInputs⟩ := readTokens_other hReads (Ne.symm hNe)
        show tokens.tokenTxs[k]? = none ∧ tokens.txTokenInputs[k]? = none
        rw [hTx, hInputs]
        exact hInv.tokens k (.inr hNone)
  · intro hNo o
    have hProbe := hReads.plugin
    rw [MempoolPlugins.probe, hLegal.plugins, hNo] at hProbe
    cases hProbe
    show (m.plugins.pluginOutputs.putAll (∅ : Column OutPoint PluginOutput).toList)[o]? = none
    rw [getElem?_putAll_toList, hInv.noPlugins hNo o]
    simp
  · intro k other hOther o output hOutput
    have hSpentOutputs : (m.inserted row tokens outputs).plugins.spentOutputs[k]? =
        if row.tx.txid = k then some (outputs.restrict (row.tx.inputs.map (·.prevOut)))
        else m.plugins.spentOutputs[k]? := Column.getElem?_insert _ _ _ _
    rw [hTxs] at hOther
    rw [hSpentOutputs] at hOutput
    split at hOther
    · next hSame =>
      cases hOther
      rw [if_pos hSame, getD_some, getElem?_restrict] at hOutput
      split at hOutput
      · next hIn =>
        obtain ⟨input, hInput, hPrev⟩ := List.mem_map.mp hIn
        exact ⟨input, hInput, hPrev⟩
      · cases hOutput
    · next hNe =>
      rw [if_neg hNe] at hOutput
      exact hInv.spentOutputs k other hOther o output hOutput
  · intro k other hOther group
    rw [hTxs] at hOther
    split at hOther
    · cases hOther
      exact nodup_inserted hLegal hReads group
    · rw [members_inserted_other hInv hLegal hReads hOther]
      exact hInv.nodup k other hOther group
  · intro k other hOther group idx input hInput parent hParent member
    rw [hTxs] at hOther hParent
    split at hOther
    · cases hOther
      split at hParent
      · next hSelf =>
        exact absurd hSelf.symm
          (spends_eq_false.mp hLegal.noSelf input (mem_of_getElem? hInput))
      · exact matches_inserted hInv hLegal hReads group idx input hInput parent hParent member
    · split at hParent
      · next hSpends =>
        -- nothing in the mempool spends the transaction
        exact absurd hSpends.symm (spends_eq_false.mp (hLegal.unspent k other hOther) input
          (mem_of_getElem? hInput))
      · dsimp only
        rw [members_inserted_other hInv hLegal hReads hOther,
          members_inserted_other hInv hLegal hReads hParent]
        exact hInv.matched k other hOther group idx input hInput parent hParent member

end Insert

end Mempool

end Ergon
