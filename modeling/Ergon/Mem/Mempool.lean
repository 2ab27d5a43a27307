import Ergon.Token.TokenIdGroup
import Ergon.Token.Mempool
import Ergon.Mem.GroupUtxos

/-!
# Ergon — the index mempool

`Mempool` (`chronik-db/src/mem/mempool.rs`) with its unspent outputs by script, by
token ID and by plugin group, the spenders, the tokens and the outputs of plugins
(`chronik-db/src/plugins/mem.rs`). The histories are left out: they cannot fail
and nothing here reads them. What the plugins answer, and what is stored, is a
parameter of an insert.

A removal takes a transaction out of the mempool first and then out of one index
after the other; where one of these fails, the rest is not done.

* `Mempool.Consistent` — over whole runs, the spenders are the mempool's inputs;
* `Mempool.remove_snd_iff` — a transaction that nothing in the mempool spends
  can be removed exactly if it is `Undoable`;
* `Mempool.undoable_remove` — which the removal of another such transaction does
  not change.
-/

namespace Ergon

open Lib Archival List Option Column

/-! ## Members -/

/-- `ScriptGroup`: the inputs up to the first without a coin, and the outputs
other than `OP_RETURN`. -/
def scriptMembers (tx : Tx) : Members where
  inputs := ((tx.inputs.map (·.coin)).takeWhile Option.isSome).reduceOption.zipIdx.map
    fun (coin, idx) => (idx, serMember coin.output.script)
  outputs := tx.outputs.zipIdx.filterMap fun (output, idx) =>
    if output.script.isOpreturn then none else some (idx, serMember output.script)

/-- `TokenIdGroupAux::from_mempool`. -/
def TokenIdGroupAux.fromMempool (tx : Tx) (tokens : MempoolTokens) :
    Option (MaybeTokenIds × MaybeTokenIds) :=
  tokens.tokenTxs[tx.txid]?.map fun tokenTx =>
    (tokens.txTokenInputs[tx.txid]?.elim (List.replicate tx.inputs.length none)
      (·.map (Option.map SpentToken.id)), tokenTx.outputTokenIds)

/-- `TokenIdGroup::ser_member`. -/
def serTokenMembers (ids : MaybeTokenIds) : List (Nat × Bytes) :=
  (TokenIdGroupAux.members ids).map fun (idx, id) => (idx, id.val.reverse)

def tokenIdMembers (tx : Tx) (tokens : MempoolTokens) : Members :=
  match TokenIdGroupAux.fromMempool tx tokens with
  | none => ⟨[], []⟩
  | some (inputs, outputs) => ⟨serTokenMembers inputs, serTokenMembers outputs⟩

/-- The groups that each plugin puts an output in. -/
structure PluginOutput where
  plugins : Column Nat (List Bytes)

/-- `PluginMember::ser`. -/
def serPluginMember (pluginIdx : Nat) (group : Bytes) : Bytes := bigEndian 4 pluginIdx ++ group

def PluginOutput.members (o : PluginOutput) : List Bytes :=
  o.plugins.toList.flatMap fun (pluginIdx, groups) => groups.map (serPluginMember pluginIdx)

/-- `PluginsGroup`. -/
def pluginMembers (tx : Tx) (aux : Column OutPoint PluginOutput) : Members where
  inputs := tx.inputs.zipIdx.flatMap fun (input, idx) =>
    (aux[input.prevOut]?.elim [] PluginOutput.members).map fun member => (idx, member)
  outputs := (List.range tx.outputs.length).flatMap fun idx =>
    (aux[(⟨tx.txid, idx⟩ : OutPoint)]?.elim [] PluginOutput.members).map fun member => (idx, member)

/-! ## Plugins -/

/-- What an operation leaves if it succeeds. -/
def succeeded {σ : Type} (r : σ × Bool) : Option σ := if r.2 then some r.1 else none

theorem succeeded_eq_some {σ : Type} {r : σ × Bool} {s : σ} :
    succeeded r = some s ↔ r = (s, true) := by
  obtain ⟨t, ok⟩ := r
  cases ok with
  | false => simp [succeeded]
  | true => simp [succeeded]

structure MempoolPlugins where
  pluginOutputs : Column OutPoint PluginOutput
  spentOutputs : Column TxId (Column OutPoint PluginOutput)
  groupUtxos : GroupUtxos

/-- What an insert reads besides the mempool: the token columns, the numbers of
stored transactions, the stored outputs of plugins, and the plugins; `none` is
an error. -/
structure MempoolDb where
  tokens : TokenDb
  txNumByTxid : TxId → Except TokenError (Option TxNum)
  pluginOutput : TxNum → Nat → Option PluginOutput
  hasPlugins : Bool
  runOnTx : Tx → Option (TokenTx × List (Option SpentToken)) → Column OutPoint PluginOutput →
    Option (List (Nat × PluginOutput))

namespace MempoolPlugins

def empty : MempoolPlugins := ⟨∅, ∅, .empty⟩

/-- The plugin output that an input spends. -/
def fetchPluginOutput (p : MempoolPlugins) (db : MempoolDb) (isMempoolTx : TxId → Bool)
    (input : TxInput) : Option (Option PluginOutput) :=
  if input.prevOut.isNull then some none
  else match p.pluginOutputs[input.prevOut]? with
    | some output => some (some output)
    | none =>
      if isMempoolTx input.prevOut.txid then some none
      else match db.txNumByTxid input.prevOut.txid with
        | .ok (some txNum) => some (db.pluginOutput txNum input.prevOut.outIdx)
        | _ => none

def probe (p : MempoolPlugins) (db : MempoolDb) (tx : Tx) (isMempoolTx : TxId → Bool)
    (tokenData : Option (TokenTx × List (Option SpentToken))) :
    Option (Column OutPoint PluginOutput) :=
  if db.hasPlugins then do
    let fetched ← tx.inputs.mapM fun input =>
      (p.fetchPluginOutput db isMempoolTx input).map fun output => (input.prevOut, output)
    let spent := (∅ : Column OutPoint PluginOutput).putAll
      (fetched.filterMap fun (o, output) => output.map fun output => (o, output))
    let outputs ← db.runOnTx tx tokenData spent
    return spent.putAll (outputs.map fun (idx, output) => (⟨tx.txid, idx⟩, output))
  else some ∅

def insert (p : MempoolPlugins) (db : MempoolDb) (tx : Tx) (isMempoolTx : TxId → Bool)
    (tokenData : Option (TokenTx × List (Option SpentToken))) : Option MempoolPlugins := do
  let outputs ← p.probe db tx isMempoolTx tokenData
  let groupUtxos ← succeeded (p.groupUtxos.insert tx isMempoolTx (pluginMembers tx outputs))
  return {
    pluginOutputs := p.pluginOutputs.putAll outputs.toList
    spentOutputs := p.spentOutputs.insert tx.txid (outputs.restrict (tx.inputs.map (·.prevOut)))
    groupUtxos := groupUtxos }

/-- The outpoints of a transaction's outputs. -/
def outPoints (tx : Tx) : List OutPoint :=
  (List.range tx.outputs.length).map fun idx => ⟨tx.txid, idx⟩

/-- `remove_tx`: what a transaction spends and has, -/
def txOutputs (p : MempoolPlugins) (tx : Tx) : Column OutPoint PluginOutput :=
  (p.spentOutputs[tx.txid]?.getD ∅).putAll (p.pluginOutputs.restrict (outPoints tx)).toList

/-- which is forgotten. -/
def forget (p : MempoolPlugins) (tx : Tx) : MempoolPlugins :=
  { p with
    pluginOutputs := p.pluginOutputs.eraseAll (outPoints tx)
    spentOutputs := p.spentOutputs.erase tx.txid }

end MempoolPlugins

/-! ## The mempool -/

structure Mempool where
  txs : Column TxId MempoolTx
  scriptUtxos : GroupUtxos
  spentBy : Column OutPoint SpentBy
  tokens : MempoolTokens
  tokenIdUtxos : GroupUtxos
  plugins : MempoolPlugins
  isTokenIndexEnabled : Bool

/-- What unspent outputs are grouped by. -/
inductive UtxoGroup
  | script
  | tokenId
  | plugins
deriving DecidableEq

namespace Mempool

def new (enableTokenIndex : Bool) : Mempool :=
  ⟨∅, .empty, ∅, .empty, .empty, .empty, enableTokenIndex⟩

def isMempoolTx (m : Mempool) (txid : TxId) : Bool := m.txs.contains txid

def utxos (m : Mempool) : UtxoGroup → GroupUtxos
  | .script => m.scriptUtxos
  | .tokenId => m.tokenIdUtxos
  | .plugins => m.plugins.groupUtxos

/-- The members that a transaction of the mempool has in a group. -/
def members (m : Mempool) (tx : Tx) : UtxoGroup → Members
  | .script => scriptMembers tx
  | .tokenId => if m.isTokenIndexEnabled then tokenIdMembers tx m.tokens else ⟨[], []⟩
  | .plugins => pluginMembers tx (m.plugins.txOutputs tx)

def insertTokens (m : Mempool) (db : MempoolDb) (tx : Tx) : Option (MempoolTokens × GroupUtxos) :=
  if m.isTokenIndexEnabled then do
    let tokens ← (m.tokens.insert ⟨db.tokens, db.txNumByTxid, m.isMempoolTx⟩ tx).toOption
    let tokenIdUtxos ←
      succeeded (m.tokenIdUtxos.insert tx m.isMempoolTx (tokenIdMembers tx tokens))
    return (tokens, tokenIdUtxos)
  else some (m.tokens, m.tokenIdUtxos)

/-- What the plugins are told about the tokens of a transaction. -/
def tokenData (m : Mempool) (tokens : MempoolTokens) (tx : Tx) :
    Option (TokenTx × List (Option SpentToken)) :=
  if m.isTokenIndexEnabled then tokens.tokenTxs[tx.txid]?.map fun tokenTx =>
    (tokenTx, tokens.txTokenInputs[tx.txid]?.getD (List.replicate tx.inputs.length none))
  else none

def insert (m : Mempool) (db : MempoolDb) (row : MempoolTx) : Option Mempool := do
  let tx := row.tx
  let scriptUtxos ← succeeded (m.scriptUtxos.insert tx m.isMempoolTx (scriptMembers tx))
  let spentBy ← succeeded (insertSpentBy m.spentBy tx)
  let (tokens, tokenIdUtxos) ← m.insertTokens db tx
  let plugins ← m.plugins.insert db tx m.isMempoolTx (m.tokenData tokens tx)
  -- only now is it seen whether the transaction was there before
  if m.isMempoolTx tx.txid then none
  else some ⟨m.txs.insert tx.txid row, scriptUtxos, spentBy, tokens, tokenIdUtxos, plugins,
    m.isTokenIndexEnabled⟩

def removeScriptUtxos (m : Mempool) (tx : Tx) : Mempool × Bool :=
  let r := m.scriptUtxos.remove tx m.isMempoolTx (scriptMembers tx)
  ({ m with scriptUtxos := r.1 }, r.2)

def removeSpent (m : Mempool) (tx : Tx) : Mempool × Bool :=
  let r := removeSpentBy m.spentBy tx
  ({ m with spentBy := r.1 }, r.2)

def removeTokens (m : Mempool) (txid : TxId) (tx : Tx) : Mempool × Bool :=
  if m.isTokenIndexEnabled then
    let r := m.tokenIdUtxos.remove tx m.isMempoolTx (tokenIdMembers tx m.tokens)
    ({ m with tokenIdUtxos := r.1, tokens := if r.2 then m.tokens.remove txid else m.tokens }, r.2)
  else (m, true)

def removePlugins (m : Mempool) (tx : Tx) : Mempool × Bool :=
  let r := m.plugins.groupUtxos.remove tx m.isMempoolTx (pluginMembers tx (m.plugins.txOutputs tx))
  ({ m with plugins := { m.plugins.forget tx with groupUtxos := r.1 } }, r.2)

def remove (m : Mempool) (txid : TxId) : Mempool × Bool :=
  match m.txs[txid]? with
  | none => (m, false)
  | some row =>
    andThen (removeScriptUtxos { m with txs := m.txs.erase txid } row.tx) fun m =>
    andThen (m.removeSpent row.tx) fun m =>
    andThen (m.removeTokens txid row.tx) fun m =>
    m.removePlugins row.tx

def removeMined (m : Mempool) (txid : TxId) : Option Mempool :=
  match m.txs[txid]? with
  | none => some m
  | some row => do
    let tx := row.tx
    let spentBy ← succeeded (removeSpentBy m.spentBy tx)
    return {
      txs := m.txs.erase txid
      scriptUtxos := m.scriptUtxos.removeMined tx (scriptMembers tx)
      spentBy := spentBy
      tokens := if m.isTokenIndexEnabled then m.tokens.remove txid else m.tokens
      tokenIdUtxos := if m.isTokenIndexEnabled then
          m.tokenIdUtxos.removeMined tx (tokenIdMembers tx m.tokens)
        else m.tokenIdUtxos
      plugins := { m.plugins.forget tx with
        groupUtxos := m.plugins.groupUtxos.removeMined tx
          (pluginMembers tx (m.plugins.txOutputs tx)) }
      isTokenIndexEnabled := m.isTokenIndexEnabled }

/-! ### Runs -/

inductive Action
  | insert (db : MempoolDb) (row : MempoolTx)
  | remove (txid : TxId)
  | removeMined (txid : TxId)

/-- An operation that succeeds; the indexer stops at the first that does not. -/
def step (m : Mempool) : Action → Option Mempool
  | .insert db row => m.insert db row
  | .remove txid => succeeded (m.remove txid)
  | .removeMined txid => m.removeMined txid

/-- A mempool that the indexer has. -/
def Reached (m : Mempool) : Prop := ∃ enableTokenIndex, Reaches step (new enableTokenIndex) m

/-! ### What a removal does -/

variable {m m' : Mempool} {txid : TxId} {row : MempoolTx}

/-- What is in the mempool besides a transaction. -/
def isOtherTx (m : Mempool) (txid : TxId) : TxId → Bool := fun id => (m.txs.erase txid).contains id

/-- The unspent outputs of a group once a transaction is removed from it. -/
def removedFrom (m : Mempool) (txid : TxId) (tx : Tx) (group : UtxoGroup) : GroupUtxos × Bool :=
  (m.utxos group).remove tx (m.isOtherTx txid) (m.members tx group)

/-- The mempool after a removal. -/
structure Removed (m m' : Mempool) (txid : TxId) (tx : Tx) : Prop where
  txs : m'.txs = m.txs.erase txid
  spentBy : m'.spentBy = (removeSpentBy m.spentBy tx).1
  utxos : ∀ group, m'.utxos group = (m.removedFrom txid tx group).1
  tokens : m'.tokens = if m.isTokenIndexEnabled then m.tokens.remove txid else m.tokens
  plugins : { m'.plugins with groupUtxos := m.plugins.groupUtxos } = m.plugins.forget tx
  isTokenIndexEnabled : m'.isTokenIndexEnabled = m.isTokenIndexEnabled

/-- The token IDs are one of the groups, whether they are indexed or not. -/
theorem removeTokens_spec (tx : Tx) {r : GroupUtxos × Bool}
    (hr : r = m.tokenIdUtxos.remove tx m.isMempoolTx (m.members tx .tokenId)) :
    (m.removeTokens txid tx).2 = r.2 ∧ (r.2 = true → (m.removeTokens txid tx).1 =
      { m with
        tokenIdUtxos := r.1
        tokens := if m.isTokenIndexEnabled then m.tokens.remove txid else m.tokens }) := by
  subst hr
  obtain ⟨txs, scriptUtxos, spentBy, tokens, tokenIdUtxos, plugins, enabled⟩ := m
  cases enabled with
  | false => exact ⟨rfl, fun _ => rfl⟩
  | true =>
    refine ⟨rfl, fun hOk => ?_⟩
    unfold removeTokens
    simp only [members, if_true] at hOk ⊢
    rw [if_pos hOk]

theorem remove_spec (hRow : m.txs[txid]? = some row) :
    ((m.remove txid).2 = true ↔ (∀ group, (m.removedFrom txid row.tx group).2 = true) ∧
      (removeSpentBy m.spentBy row.tx).2 = true) ∧
    ((m.remove txid).2 = true → Removed m (m.remove txid).1 txid row.tx) := by
  have hRemove : m.remove txid =
      andThen (removeScriptUtxos { m with txs := m.txs.erase txid } row.tx) fun m =>
      andThen (m.removeSpent row.tx) fun m =>
      andThen (m.removeTokens txid row.tx) fun m => m.removePlugins row.tx := by
    rw [remove, hRow]
  obtain ⟨m₁, hm₁⟩ : ∃ m₁, m₁ = (removeScriptUtxos { m with txs := m.txs.erase txid } row.tx).1 :=
    ⟨_, rfl⟩
  obtain ⟨m₂, hm₂⟩ : ∃ m₂, m₂ = (m₁.removeSpent row.tx).1 := ⟨_, rfl⟩
  obtain ⟨m₃, hm₃⟩ : ∃ m₃, m₃ = (m₂.removeTokens txid row.tx).1 := ⟨_, rfl⟩
  have hGroups : (∀ group, (m.removedFrom txid row.tx group).2 = true) ↔
      (m.removedFrom txid row.tx .script).2 = true ∧
      (m.removedFrom txid row.tx .tokenId).2 = true ∧
      (m.removedFrom txid row.tx .plugins).2 = true :=
    ⟨fun h => ⟨h _, h _, h _⟩, fun ⟨hs, ht, hp⟩ group => by cases group <;> assumption⟩
  have hTokens : (m₂.removeTokens txid row.tx).2 = (m.removedFrom txid row.tx .tokenId).2 ∧
      ((m.removedFrom txid row.tx .tokenId).2 = true → m₃ = { m₂ with
        tokenIdUtxos := (m.removedFrom txid row.tx .tokenId).1
        tokens := if m.isTokenIndexEnabled then m.tokens.remove txid else m.tokens }) := by
    subst hm₃ hm₂ hm₁
    exact removeTokens_spec row.tx rfl
  have hPlugins : (m.removedFrom txid row.tx .tokenId).2 = true →
      (m₃.removePlugins row.tx).2 = (m.removedFrom txid row.tx .plugins).2 := by
    intro hOk
    rw [hTokens.2 hOk, hm₂, hm₁]
    rfl
  constructor
  · rw [hRemove, andThen_snd, ← hm₁, andThen_snd, ← hm₂, andThen_snd, ← hm₃, hGroups, hTokens.1]
    have hScript : (removeScriptUtxos { m with txs := m.txs.erase txid } row.tx).2 =
        (m.removedFrom txid row.tx .script).2 := rfl
    have hSpent : (m₁.removeSpent row.tx).2 = (removeSpentBy m.spentBy row.tx).2 := by
      rw [hm₁]
      rfl
    rw [hScript, hSpent]
    constructor
    · rintro ⟨hs, hb, ht, hp⟩
      exact ⟨⟨hs, ht, hPlugins ht ▸ hp⟩, hb⟩
    · rintro ⟨⟨hs, ht, hp⟩, hb⟩
      exact ⟨hs, hb, ht, (hPlugins ht).trans hp⟩
  · intro hOk
    rw [hRemove] at hOk ⊢
    have h₁ := andThen_snd.mp hOk
    rw [← hm₁] at h₁
    have h₂ := andThen_snd.mp h₁.2
    rw [← hm₂] at h₂
    have h₃ := andThen_snd.mp h₂.2
    rw [andThen_of_true h₁.1, ← hm₁, andThen_of_true h₂.1, ← hm₂, andThen_of_true h₃.1, ← hm₃,
      hTokens.2 (hTokens.1 ▸ h₃.1), hm₂, hm₁]
    exact ⟨rfl, rfl, fun group => by cases group <;> rfl, rfl, rfl, rfl⟩

/-- What every removal of a transaction does, besides the unspent outputs. -/
structure Erased (m m' : Mempool) (txid : TxId) (tx : Tx) : Prop where
  txs : m'.txs = m.txs.erase txid
  spentBy : m'.spentBy = (removeSpentBy m.spentBy tx).1
  tokens : m'.tokens = if m.isTokenIndexEnabled then m.tokens.remove txid else m.tokens
  plugins : { m'.plugins with groupUtxos := m.plugins.groupUtxos } = m.plugins.forget tx
  isTokenIndexEnabled : m'.isTokenIndexEnabled = m.isTokenIndexEnabled

theorem Removed.erased {tx : Tx} (h : Removed m m' txid tx) : Erased m m' txid tx :=
  { h with }

theorem Erased.members {tx : Tx} (h : Erased m m' txid tx) (hTx : tx.txid = txid) {other : Tx}
    (hOther : other.txid ≠ txid) (group : UtxoGroup) :
    m'.members other group = m.members other group := by
  cases group with
  | script => rfl
  | tokenId =>
    have hTokens : m.isTokenIndexEnabled = true →
        tokenIdMembers other m'.tokens = tokenIdMembers other m.tokens := by
      intro hEnabled
      have hNe : txid ≠ other.txid := hOther.symm
      unfold tokenIdMembers TokenIdGroupAux.fromMempool
      rw [h.tokens, if_pos hEnabled, MempoolTokens.remove]
      simp only [getElem?_erase, if_neg hNe]
    show (if m'.isTokenIndexEnabled then tokenIdMembers other m'.tokens else ⟨[], []⟩) =
      if m.isTokenIndexEnabled then tokenIdMembers other m.tokens else ⟨[], []⟩
    rw [h.isTokenIndexEnabled]
    split
    · next hEnabled => exact hTokens hEnabled
    · rfl
  | plugins =>
    have hOutputs : (m.plugins.forget tx).txOutputs other = m.plugins.txOutputs other := by
      unfold MempoolPlugins.txOutputs MempoolPlugins.forget
      have hRestrict : (m.plugins.pluginOutputs.eraseAll (MempoolPlugins.outPoints tx)).restrict
          (MempoolPlugins.outPoints other) =
          m.plugins.pluginOutputs.restrict (MempoolPlugins.outPoints other) := by
        refine Std.ExtTreeMap.ext_getElem? fun o => ?_
        rw [getElem?_restrict, getElem?_restrict, getElem?_eraseAll]
        split
        · next ho =>
          refine if_neg fun ho' => hOther ?_
          obtain ⟨_, -, rfl⟩ := List.mem_map.mp ho
          obtain ⟨_, -, hSame⟩ := List.mem_map.mp ho'
          rw [← hTx]
          exact (congrArg OutPoint.txid hSame).symm
        · rfl
      rw [hRestrict, getElem?_erase, if_neg (hTx ▸ hOther.symm)]
    show pluginMembers other (m'.plugins.txOutputs other) = _
    have hSame : m'.plugins.txOutputs other = (m.plugins.forget tx).txOutputs other := by
      rw [← h.plugins]
      rfl
    rw [hSame, hOutputs]
    rfl

/-! ### Spenders -/

/-- The spenders are the inputs of the mempool's transactions. -/
structure Consistent (m : Mempool) : Prop where
  key : ∀ (k : TxId) row, m.txs[k]? = some row → row.tx.txid = k
  spent : ∀ (o : OutPoint) entry, m.spentBy[o]? = some entry ↔
    ∃ row, m.txs[entry.txid]? = some row ∧ (o, entry) ∈ spentEntries row.tx

theorem consistent_new (enableTokenIndex : Bool) : Consistent (new enableTokenIndex) where
  key k row h := by simp [new] at h
  spent o entry := by simp [new]

theorem insert_eq_some {db : MempoolDb} (h : m.insert db row = some m') :
    m.txs[row.tx.txid]? = none ∧ insertSpentBy m.spentBy row.tx = (m'.spentBy, true) ∧
      m'.txs = m.txs.insert row.tx.txid row := by
  obtain ⟨scriptUtxos, -, h⟩ := bind_eq_some_iff.mp h
  obtain ⟨spentBy, hSpent, h⟩ := bind_eq_some_iff.mp h
  obtain ⟨⟨tokens, tokenIdUtxos⟩, -, h⟩ := bind_eq_some_iff.mp h
  obtain ⟨plugins, -, h⟩ := bind_eq_some_iff.mp h
  split at h
  · cases h
  · next hNew =>
    cases h
    refine ⟨?_, succeeded_eq_some.mp hSpent, rfl⟩
    simpa [isMempoolTx] using hNew

theorem Consistent.insert {db : MempoolDb} (hCons : Consistent m)
    (h : m.insert db row = some m') : Consistent m' := by
  obtain ⟨hNew, hSpent, hTxs⟩ := insert_eq_some h
  refine ⟨fun k row' hRow => ?_, fun o entry => ?_⟩
  · rw [hTxs, Column.getElem?_insert] at hRow
    split at hRow
    · next hk =>
      cases hRow
      exact hk
    · exact hCons.key k row' hRow
  · rw [insertSpentBy_eq_true hSpent, hCons.spent, hTxs, Column.getElem?_insert]
    by_cases hTx : row.tx.txid = entry.txid
    · rw [if_pos hTx, ← hTx, hNew]
      simp
    · have hNot : (o, entry) ∉ spentEntries row.tx := fun hIn =>
        hTx (mem_spentEntries.mp hIn).1.symm
      rw [if_neg hTx]
      simp [hNot]

theorem Consistent.erase (hCons : Consistent m) (hRow : m.txs[txid]? = some row)
    (hOk : (removeSpentBy m.spentBy row.tx).2 = true) (hTxs : m'.txs = m.txs.erase txid)
    (hSpent : m'.spentBy = (removeSpentBy m.spentBy row.tx).1) : Consistent m' := by
  refine ⟨fun k row' hRow' => ?_, fun o entry => ?_⟩
  · rw [hTxs, getElem?_erase] at hRow'
    split at hRow'
    · cases hRow'
    · exact hCons.key k row' hRow'
  · rw [hSpent, removeSpentBy_fst hOk, hCons.spent, hTxs, getElem?_erase]
    by_cases hTx : txid = entry.txid
    · rw [if_pos hTx, ← hTx, hRow]
      simp
    · have hNot : (o, entry) ∉ spentEntries row.tx := fun hIn =>
        hTx ((hCons.key txid row hRow).symm.trans (mem_spentEntries.mp hIn).1.symm)
      rw [if_neg hTx]
      simp [hNot]

theorem removed_of_remove (hRow : m.txs[txid]? = some row) (h : m.remove txid = (m', true)) :
    Removed m m' txid row.tx := by
  have hRemoved := (remove_spec hRow).2 (by rw [h])
  rwa [h] at hRemoved

theorem remove_eq_true (h : m.remove txid = (m', true)) :
    ∃ row, m.txs[txid]? = some row ∧ (removeSpentBy m.spentBy row.tx).2 = true ∧
      Removed m m' txid row.tx := by
  cases hRow : m.txs[txid]? with
  | none =>
    rw [remove, hRow] at h
    cases h
  | some row =>
    exact ⟨row, rfl, ((remove_spec hRow).1.mp (by rw [h])).2, removed_of_remove hRow h⟩

theorem Consistent.remove (hCons : Consistent m) (h : m.remove txid = (m', true)) :
    Consistent m' := by
  obtain ⟨row, hRow, hOk, hRemoved⟩ := remove_eq_true h
  exact hCons.erase hRow hOk hRemoved.txs hRemoved.spentBy

theorem Consistent.removeMined (hCons : Consistent m) (h : m.removeMined txid = some m') :
    Consistent m' := by
  unfold Mempool.removeMined at h
  split at h
  · cases h
    exact hCons
  · next row hRow =>
    obtain ⟨spentBy, hSpent, h⟩ := bind_eq_some_iff.mp h
    cases h
    rw [succeeded_eq_some] at hSpent
    exact hCons.erase hRow (by rw [hSpent]) rfl (by rw [hSpent])

theorem Consistent.step (hCons : Consistent m) {a : Action} (h : m.step a = some m') :
    Consistent m' := by
  cases a with
  | insert db row => exact hCons.insert h
  | remove txid => exact hCons.remove (succeeded_eq_some.mp h)
  | removeMined txid => exact hCons.removeMined h

theorem Reached.consistent (h : Reached m) : Consistent m := by
  obtain ⟨enableTokenIndex, h⟩ := h
  exact h.invariant (consistent_new enableTokenIndex) fun _ _ _ hCons => hCons.step

theorem Consistent.removeSpentBy_snd (hCons : Consistent m) (hRow : m.txs[txid]? = some row) :
    (removeSpentBy m.spentBy row.tx).2 = true := by
  have hEntry : ∀ p ∈ spentEntries row.tx, m.spentBy[p.1]? = some p.2 := by
    rintro ⟨o, entry⟩ hIn
    refine (hCons.spent o entry).mpr ⟨row, ?_, hIn⟩
    rw [(mem_spentEntries.mp hIn).1, hCons.key txid row hRow]
    exact hRow
  refine Ergon.removeSpentBy_snd.mpr ⟨?_, hEntry⟩
  refine List.Nodup.map_on ?_ (nodup_spentEntries row.tx)
  intro p hp q hq hSame
  have hFirst := hEntry p hp
  rw [hSame, hEntry q hq] at hFirst
  exact Prod.ext hSame (Option.some.inj hFirst).symm

/-- One output has one spender. -/
theorem Consistent.eq_of_prevOut (hCons : Consistent m) {k k' : TxId} {row row' : MempoolTx}
    (hRow : m.txs[k]? = some row) (hRow' : m.txs[k']? = some row') {i i' : Nat}
    {input input' : TxInput} (hInput : row.tx.inputs[i]? = some input)
    (hInput' : row'.tx.inputs[i']? = some input') (hSame : input.prevOut = input'.prevOut) :
    k = k' := by
  have hEntry : m.spentBy[input.prevOut]? = some ⟨k, i⟩ :=
    (hCons.spent _ _).mpr ⟨row, hRow, mem_spentEntries.mpr
      ⟨(hCons.key k row hRow).symm, input, hInput, rfl⟩⟩
  have hEntry' : m.spentBy[input'.prevOut]? = some ⟨k', i'⟩ :=
    (hCons.spent _ _).mpr ⟨row', hRow', mem_spentEntries.mpr
      ⟨(hCons.key k' row' hRow').symm, input', hInput', rfl⟩⟩
  rw [hSame, hEntry'] at hEntry
  exact (congrArg SpentBy.txid (Option.some.inj hEntry)).symm

/-! ### Removing what nothing spends -/

/-- What the removal of a transaction puts back in a group. -/
def putBack (m : Mempool) (tx : Tx) (group : UtxoGroup) : List MemberUtxo :=
  GroupUtxos.spentUtxos (m.isOtherTx tx.txid) tx (m.members tx group).inputs

/-- What the removal of a transaction takes out of a group. -/
def takenOut (m : Mempool) (tx : Tx) (group : UtxoGroup) : List MemberUtxo :=
  GroupUtxos.ownUtxos tx (m.members tx group).outputs

/-- What a removal puts back is not unspent already, and what it takes out is
unspent once the transactions that spend it are removed. -/
structure Undoable (m : Mempool) (tx : Tx) (group : UtxoGroup) : Prop where
  nodup_putBack : (m.putBack tx group).Nodup
  spent : ∀ u ∈ m.putBack tx group, (m.utxos group).has u = false
  nodup_takenOut : (m.takenOut tx group).Nodup
  unspent : ∀ u ∈ m.takenOut tx group, (m.utxos group).has u = true ∨
    ∃ (k : TxId) (row : MempoolTx), m.txs[k]? = some row ∧ u ∈ m.putBack row.tx group

/-- Nothing in the mempool spends a transaction. -/
def Unspent (m : Mempool) (txid : TxId) : Prop :=
  ∀ (k : TxId) row, m.txs[k]? = some row → spends row.tx txid = false

variable {group : UtxoGroup}

theorem spends_of_mem_putBack {tx : Tx} {u : MemberUtxo} (h : u ∈ m.putBack tx group) :
    spends tx u.2.txid = true := by
  obtain ⟨-, i, input, hInput, hPrev, -⟩ := GroupUtxos.mem_spentUtxos_iff.mp h
  refine List.any_eq_true.mpr ⟨input, mem_of_getElem? hInput, ?_⟩
  rw [hPrev]
  exact decide_eq_true rfl

variable {k : TxId}

theorem Unspent.not_mem_putBack (h : Unspent m txid) (hRow : m.txs[k]? = some row) {u : MemberUtxo}
    (hu : u.2.txid = txid) : u ∉ m.putBack row.tx group := by
  intro hIn
  have hSpends := spends_of_mem_putBack hIn
  rw [hu, h k row hRow] at hSpends
  cases hSpends

theorem isOtherTx_eq (m : Mempool) (txid id : TxId) :
    m.isOtherTx txid id = if txid = id then false else m.txs[id]?.isSome := by
  rw [isOtherTx, ← Std.ExtTreeMap.isSome_getElem?_eq_contains, getElem?_erase]
  split
  · rfl
  · rfl

theorem isOtherTx_self (m : Mempool) (txid : TxId) : m.isOtherTx txid txid = false := by
  rw [isOtherTx_eq, if_pos rfl]

theorem remove_snd_iff (hCons : Consistent m) (hRow : m.txs[txid]? = some row)
    (hUnspent : Unspent m txid) :
    (m.remove txid).2 = true ↔ ∀ group, Undoable m row.tx group := by
  have hKey := hCons.key txid row hRow
  subst hKey
  rw [(remove_spec hRow).1, and_iff_left (hCons.removeSpentBy_snd hRow)]
  refine forall_congr' fun group => ?_
  have hGroup : (m.removedFrom row.tx.txid row.tx group).2 = true ↔
      (m.putBack row.tx group).Nodup ∧
      (∀ u ∈ m.putBack row.tx group, (m.utxos group).has u = false) ∧
      (m.takenOut row.tx group).Nodup ∧
      ∀ u ∈ m.takenOut row.tx group, (m.utxos group).has u = true :=
    GroupUtxos.remove_snd (isOtherTx_self m row.tx.txid)
  rw [hGroup]
  constructor
  · rintro ⟨hNodup, hSpent, hOwn, hHas⟩
    exact ⟨hNodup, hSpent, hOwn, fun u hu => .inl (hHas u hu)⟩
  · intro h
    refine ⟨h.nodup_putBack, h.spent, h.nodup_takenOut, fun u hu => ?_⟩
    rcases h.unspent u hu with hHas | ⟨k, row', hRow', hIn⟩
    · exact hHas
    · exact absurd hIn (hUnspent.not_mem_putBack hRow' (GroupUtxos.mem_ownUtxos hu))

section

variable (hCons : Consistent m) (hRow : m.txs[txid]? = some row) (hUnspent : Unspent m txid)
  (hRemove : m.remove txid = (m', true))
include hCons hRow hUnspent hRemove

variable {other : MempoolTx}

theorem putBack_remove (hOther : m.txs[k]? = some other) (hk : k ≠ txid) (group : UtxoGroup) :
    m'.putBack other.tx group = m.putBack other.tx group := by
  have hRemoved := removed_of_remove hRow hRemove
  have hNe : other.tx.txid ≠ txid := by rwa [hCons.key k other hOther]
  unfold putBack
  rw [hRemoved.erased.members (hCons.key txid row hRow) hNe]
  refine filterMap_congr fun item _ => ?_
  refine Option.bind_congr fun input hInput => ?_
  -- the transaction does not spend the removed one
  have hPrev : txid ≠ input.prevOut.txid := by
    rintro rfl
    have hNot := hUnspent k other hOther
    rw [spends, List.any_eq_false] at hNot
    exact hNot input (mem_of_getElem? hInput) (decide_eq_true rfl)
  have hSame : m'.isOtherTx other.tx.txid input.prevOut.txid =
      m.isOtherTx other.tx.txid input.prevOut.txid := by
    rw [isOtherTx_eq, isOtherTx_eq, hRemoved.txs, getElem?_erase, if_neg hPrev]
  rw [hSame]

omit hUnspent in
theorem has_utxos_remove (group : UtxoGroup) (u : MemberUtxo) :
    (m'.utxos group).has u = true ↔
      ((m.utxos group).has u = true ∨ u ∈ m.putBack row.tx group) ∧
        u ∉ m.takenOut row.tx group := by
  have hRemoved := removed_of_remove hRow hRemove
  have hOk : (m.remove txid).2 = true := by rw [hRemove]
  have hGroup := ((remove_spec hRow).1.mp hOk).1 group
  have hKey := hCons.key txid row hRow
  subst hKey
  rw [hRemoved.utxos group]
  exact GroupUtxos.has_remove hGroup u

omit hUnspent in
theorem takenOut_remove (hOther : m.txs[k]? = some other) (hk : k ≠ txid) (group : UtxoGroup) :
    m'.takenOut other.tx group = m.takenOut other.tx group := by
  have hRemoved := removed_of_remove hRow hRemove
  have hNe : other.tx.txid ≠ txid := by rwa [hCons.key k other hOther]
  rw [takenOut, takenOut, hRemoved.erased.members (hCons.key txid row hRow) hNe]

/-- What others put back was not put back before: an output has one spender. -/
theorem has_putBack_remove (hOther : m.txs[k]? = some other) (hk : k ≠ txid) {u : MemberUtxo}
    (hu : u ∈ m.putBack other.tx group) : (m'.utxos group).has u = (m.utxos group).has u := by
  have hNotOwn : u ∉ m.takenOut row.tx group := by
    intro hIn
    refine hUnspent.not_mem_putBack hOther ?_ hu
    rw [GroupUtxos.mem_ownUtxos hIn, hCons.key txid row hRow]
  have hNotBack : u ∉ m.putBack row.tx group := by
    intro hIn
    obtain ⟨-, i, input, hInput, hPrev, -⟩ := GroupUtxos.mem_spentUtxos_iff.mp hu
    obtain ⟨-, i', input', hInput', hPrev', -⟩ := GroupUtxos.mem_spentUtxos_iff.mp hIn
    exact hk (hCons.eq_of_prevOut hOther hRow hInput hInput' (hPrev.trans hPrev'.symm))
  rw [Bool.eq_iff_iff, has_utxos_remove hCons hRow hRemove]
  simp [hNotOwn, hNotBack]

/-- What others take out was unspent before, or it was put back by the removed. -/
theorem unspent_remove (hOther : m.txs[k]? = some other) (hk : k ≠ txid) {u : MemberUtxo}
    (hu : u ∈ m.takenOut other.tx group) :
    ((m'.utxos group).has u = true ∨
        ∃ (k : TxId) (row : MempoolTx), m'.txs[k]? = some row ∧ u ∈ m'.putBack row.tx group) ↔
      ((m.utxos group).has u = true ∨
        ∃ (k : TxId) (row : MempoolTx), m.txs[k]? = some row ∧ u ∈ m.putBack row.tx group) := by
  have hRemoved := removed_of_remove hRow hRemove
  have hNotOwn : u ∉ m.takenOut row.tx group := by
    intro hIn
    have hSame := (GroupUtxos.mem_ownUtxos hu).symm.trans (GroupUtxos.mem_ownUtxos hIn)
    rw [hCons.key k other hOther, hCons.key txid row hRow] at hSame
    exact hk hSame
  have hLeft : ∀ (k : TxId) (row' : MempoolTx), m'.txs[k]? = some row' ↔
      k ≠ txid ∧ m.txs[k]? = some row' := by
    intro k row'
    rw [hRemoved.txs, getElem?_erase]
    split
    · next hSame => simp [hSame]
    · next hNe => simp [Ne.symm hNe]
  rw [has_utxos_remove hCons hRow hRemove, and_iff_left hNotOwn]
  constructor
  · rintro ((hHas | hBack) | ⟨k', row', hIn, hBack⟩)
    · exact .inl hHas
    · exact .inr ⟨txid, row, hRow, hBack⟩
    · obtain ⟨hNe, hIn⟩ := (hLeft k' row').mp hIn
      rw [putBack_remove hCons hRow hUnspent hRemove hIn hNe] at hBack
      exact .inr ⟨k', row', hIn, hBack⟩
  · rintro (hHas | ⟨k', row', hIn, hBack⟩)
    · exact .inl (.inl hHas)
    · by_cases hSame : k' = txid
      · subst hSame
        cases hRow.symm.trans hIn
        exact .inl (.inr hBack)
      · refine .inr ⟨k', row', (hLeft k' row').mpr ⟨hSame, hIn⟩, ?_⟩
        rwa [putBack_remove hCons hRow hUnspent hRemove hIn hSame]

/-- The removal of a transaction that nothing spends changes nothing for the
removal of the others. -/
theorem undoable_remove (hOther : m.txs[k]? = some other) (hk : k ≠ txid) (group : UtxoGroup) :
    Undoable m' other.tx group ↔ Undoable m other.tx group := by
  have hBack := putBack_remove hCons hRow hUnspent hRemove hOther hk group
  have hOwn := takenOut_remove hCons hRow hRemove hOther hk group
  constructor
  · intro h
    refine ⟨hBack ▸ h.nodup_putBack, fun u hu => ?_, hOwn ▸ h.nodup_takenOut, fun u hu => ?_⟩
    · rw [← has_putBack_remove hCons hRow hUnspent hRemove hOther hk hu]
      exact h.spent u (hBack ▸ hu)
    · exact (unspent_remove hCons hRow hUnspent hRemove hOther hk hu).mp (h.unspent u (hOwn ▸ hu))
  · intro h
    refine ⟨hBack ▸ h.nodup_putBack, fun u hu => ?_, hOwn ▸ h.nodup_takenOut, fun u hu => ?_⟩
    · rw [hBack] at hu
      rw [has_putBack_remove hCons hRow hUnspent hRemove hOther hk hu]
      exact h.spent u hu
    · rw [hOwn] at hu
      exact (unspent_remove hCons hRow hUnspent hRemove hOther hk hu).mpr (h.unspent u hu)

end

end Mempool

end Ergon
