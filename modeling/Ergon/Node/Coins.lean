import Ergon.Lib.Column
import Ergon.Lib.Result
import Ergon.Core.Tx

/-!
# Ergon — connecting and undoing the coins of a block

The coin updates of `ConnectBlock`, and `ApplyBlockUndo` (`validation.cpp`,
`coins.cpp`), over the flat coin map that a view stands for. All outputs of a
block are added before any input is spent, so transactions may spend each other
in any order; undoing restores the spent coins and then removes the created
ones. Best-block pointers are left out.

* `connectCoins_spec` — the outcome of connecting as two bulk updates;
* `applyBlockUndo_spec` — undoing what was recorded gives `DISCONNECT_OK`, and
  loses exactly the coins that `AddCoin` refuses to store;
* `applyBlockUndo_restores_iff` — so the map is restored exactly when no spent
  coin has an unspendable script.
-/

namespace Ergon

open Lib List Option Column

/-- Outpoints are ordered by txid, then by index. -/
instance : Ord OutPoint := ⟨compareLex (compareOn OutPoint.txid) (compareOn OutPoint.outIdx)⟩

instance : Std.TransOrd OutPoint :=
  inferInstanceAs (Std.TransCmp (compareLex (compareOn OutPoint.txid) (compareOn OutPoint.outIdx)))

instance : Std.LawfulEqOrd OutPoint where
  compare_self := Std.ReflCmp.compare_self
  eq_of_compare {a b} h := by
    have hBoth : compare a.txid b.txid = .eq ∧ compare a.outIdx b.outIdx = .eq := by
      simpa [compare, compareLex, compareOn, Ordering.then_eq_eq] using h
    have hTxid := Std.LawfulEqOrd.eq_of_compare hBoth.1
    have hIdx := Std.LawfulEqOrd.eq_of_compare hBoth.2
    cases a
    cases b
    simp_all

/-! ## Coins -/

def OutPoint.isNull (o : OutPoint) : Bool := o.txid = TxId.zero ∧ o.outIdx = 0xffffffff

def Tx.isCoinBase (tx : Tx) : Bool :=
  match tx.inputs with
  | [i] => i.prevOut.isNull
  | _ => false

def maxScriptSize : Nat := 10000

def Script.isUnspendable (s : Script) : Bool :=
  s.isOpreturn || decide (maxScriptSize < s.bytecode.length)

/-- A null output marks a spent coin. -/
def Coin.isSpent (c : Coin) : Bool := c.output.sats = -1

def Coin.isUnspendable (c : Coin) : Bool := c.output.script.isUnspendable

/-- The unspent coins. -/
structure CoinMap where
  coins : Column OutPoint Coin
  unspent : ∀ (out : OutPoint) (c : Coin), coins[out]? = some c → c.isSpent = false

namespace CoinMap

theorem ext_coins {m m' : CoinMap} (h : ∀ out : OutPoint, m.coins[out]? = m'.coins[out]?) :
    m = m' := by
  cases m
  cases m'
  congr
  exact Std.ExtTreeMap.ext_getElem? h

def haveCoin (m : CoinMap) (out : OutPoint) : Bool := m.coins[out]?.isSome

variable {out : OutPoint}

theorem haveCoin_eq_false {m : CoinMap} : m.haveCoin out = false ↔ m.coins[out]? = none := by
  rw [haveCoin, isSome_eq_false_iff, isNone_iff_eq_none]

def insert (m : CoinMap) (out : OutPoint) (c : Coin) (h : c.isSpent = false) : CoinMap where
  coins := m.coins.insert out c
  unspent out' c' h' := by
    rw [Column.getElem?_insert] at h'
    split at h'
    · cases h'
      exact h
    · exact m.unspent out' c' h'

def erase (m : CoinMap) (out : OutPoint) : CoinMap where
  coins := m.coins.erase out
  unspent out' c' h' := by
    rw [getElem?_erase] at h'
    split at h'
    · cases h'
    · exact m.unspent out' c' h'

/-- Fails where the source asserts that the coin is unspent, or throws because
it would replace an unspent coin. Unspendable coins are not stored. -/
def addCoin (m : CoinMap) (out : OutPoint) (coin : Coin) (possibleOverwrite : Bool) :
    Option CoinMap :=
  if hSpent : coin.isSpent = true then none
  else if coin.isUnspendable then some m
  else if !possibleOverwrite && m.haveCoin out then none
  else some (m.insert out coin (Bool.not_eq_true _ ▸ hSpent))

def addOutput (height : Int) (tx : Tx) (m : CoinMap) (o : TxOutput × Nat) : Option CoinMap :=
  m.addCoin ⟨tx.txid, o.2⟩ ⟨o.1, height, tx.isCoinBase⟩ tx.isCoinBase

def addCoins (height : Int) (m : CoinMap) (tx : Tx) : Option CoinMap :=
  tx.outputs.zipIdx.foldlM (addOutput height tx) m

def spendCoin (m : CoinMap) (out : OutPoint) : Option (Coin × CoinMap) :=
  m.coins[out]?.map fun c => (c, m.erase out)

/-! ## Connecting -/

/-- Spend the inputs of a transaction; the spent coins are its undo data. -/
def spendInputs (m : CoinMap) : List TxInput → Option (List Coin × CoinMap)
  | [] => some ([], m)
  | i :: rest => do
    let (coin, m) ← m.spendCoin i.prevOut
    let (undo, m) ← m.spendInputs rest
    return (coin :: undo, m)

/-- Spend the inputs of every transaction but the coinbase. -/
def spendAll (m : CoinMap) : List Tx → Option (List (List Coin) × CoinMap)
  | [] => some ([], m)
  | tx :: rest =>
    if tx.isCoinBase then m.spendAll rest
    else do
      let (undo, m) ← m.spendInputs tx.inputs
      let (undos, m) ← m.spendAll rest
      return (undo :: undos, m)

/-- The coin updates of `ConnectBlock`, with the undo data of the block: one
entry for each transaction after the first. -/
def connectCoins (height : Int) (m : CoinMap) (vtx : List Tx) :
    Option (List (List Coin) × CoinMap) := do
  let m ← vtx.foldlM (addCoins height) m
  let (undos, m) ← m.spendAll vtx
  guard (undos.length ≤ vtx.length - 1)
  return (undos ++ List.replicate (vtx.length - 1 - undos.length) [], m)

/-! ## Undoing -/

inductive DisconnectResult
  | ok
  | unclean
deriving DecidableEq

inductive UndoError
  -- `DISCONNECT_FAILED`
  | failed
  -- the assertion in `AddCoin`
  | spentCoin
deriving DecidableEq

def maxOutputsPerTx : Nat := 1000000 / 9

/-- Any unspent coin of a transaction. -/
def accessByTxid (m : CoinMap) (txid : TxId) : Option Coin :=
  (List.range maxOutputsPerTx).findSome? fun n => m.coins[(⟨txid, n⟩ : OutPoint)]?

/-- Old undo data lacks the height, which some other coin of the same
transaction then has. -/
def undoMetadata (m : CoinMap) (undo : Coin) (out : OutPoint) : Except UndoError Coin :=
  if undo.height = 0 then do
    let alternate ← orElse (m.accessByTxid out.txid) .failed
    return { alternate with output := undo.output }
  else .ok undo

/-- Restore a spent coin; gives whether nothing was overwritten. -/
def undoCoinSpend (m : CoinMap) (undo : Coin) (out : OutPoint) :
    Except UndoError (Bool × CoinMap) := do
  let fClean := !m.haveCoin out
  let coin ← m.undoMetadata undo out
  let m ← orElse (m.addCoin out coin !fClean) .spentCoin
  return (fClean, m)

def undoInput (s : Bool × CoinMap) (p : OutPoint × Coin) : Except UndoError (Bool × CoinMap) := do
  let (clean, m) ← s.2.undoCoinSpend p.2 p.1
  return (s.1 && clean, m)

/-- What a transaction spent, with its undo data. -/
def spentCoins (t : Tx × List Coin) : List (OutPoint × Coin) :=
  (t.1.inputs.map (·.prevOut)).zip t.2

def undoTx (s : Bool × CoinMap) (t : Tx × List Coin) : Except UndoError (Bool × CoinMap) := do
  ensure (t.2.length = t.1.inputs.length) .failed
  (spentCoins t).foldlM undoInput s

/-- Remove a created output, which must be there as it was created. -/
def removeOutput (height : Int) (tx : Tx) (s : Bool × CoinMap) (o : TxOutput × Nat) :
    Bool × CoinMap :=
  if o.1.script.isUnspendable then s
  else
    match s.2.spendCoin ⟨tx.txid, o.2⟩ with
    | none => (false, s.2)
    | some (coin, m) =>
      (s.1 && decide (o.1 = coin.output ∧ height = coin.height ∧ tx.isCoinBase = coin.isCoinbase), m)

def removeOutputs (height : Int) (s : Bool × CoinMap) (tx : Tx) : Bool × CoinMap :=
  tx.outputs.zipIdx.foldl (removeOutput height tx) s

def applyBlockUndo (height : Int) (m : CoinMap) (vtx : List Tx) (undos : List (List Coin)) :
    Except UndoError (DisconnectResult × CoinMap) := do
  ensure (undos.length + 1 = vtx.length) .failed
  let s ← (vtx.tail.zip undos).foldlM undoTx (true, m)
  let s := vtx.foldl (removeOutputs height) s
  return (if s.1 then .ok else .unclean, s.2)

/-! ## Bulk updates

Connecting and undoing are described by the list of outpoints they touch, with
the coin at each. -/

variable {m m' m'' : CoinMap} {ps qs : List (OutPoint × Coin)}

/-- `m'` is `m` with the coins `ps` added at outpoints that had none. -/
structure Adds (m : CoinMap) (ps : List (OutPoint × Coin)) (m' : CoinMap) : Prop where
  nodup : (ps.map Prod.fst).Nodup
  fresh : ∀ p ∈ ps, m.coins[p.1]? = none
  coins : m'.coins = m.coins.putAll ps

/-- `m'` is `m` with the coins `ps` removed. -/
structure Removes (m : CoinMap) (ps : List (OutPoint × Coin)) (m' : CoinMap) : Prop where
  nodup : (ps.map Prod.fst).Nodup
  held : ∀ p ∈ ps, m.coins[p.1]? = some p.2
  coins : m'.coins = m.coins.eraseAll (ps.map Prod.fst)

theorem Adds.nil (m : CoinMap) : Adds m [] m := ⟨.nil, (fun _ h => nomatch h), rfl⟩

theorem Removes.nil (m : CoinMap) : Removes m [] m := ⟨.nil, (fun _ h => nomatch h), rfl⟩

namespace Adds

theorem getElem?_of_mem (h : Adds m ps m') {p : OutPoint × Coin} (hp : p ∈ ps) :
    m'.coins[p.1]? = some p.2 := by
  rw [h.coins]
  exact getElem?_putAll_of_mem hp fun _ hv => unique_of_nodup h.nodup hp hv

theorem getElem?_of_not_mem (h : Adds m ps m') (hOut : ∀ c, (out, c) ∉ ps) :
    m'.coins[out]? = m.coins[out]? := by
  rw [h.coins]
  exact getElem?_putAll_of_not_mem hOut

theorem append (h : Adds m ps m') (h' : Adds m' qs m'') : Adds m (ps ++ qs) m'' := by
  -- what the second part adds was not there after the first
  have hNew : ∀ q ∈ qs, ∀ c, (q.1, c) ∉ ps := by
    intro q hq c hc
    have hSome := h.getElem?_of_mem hc
    rw [h'.fresh q hq] at hSome
    cases hSome
  refine ⟨?_, ?_, ?_⟩
  · rw [map_append]
    refine List.Nodup.append h.nodup h'.nodup ?_
    intro out hps hqs
    obtain ⟨p, hp, rfl⟩ := List.mem_map.mp hps
    obtain ⟨q, hq, hEq⟩ := List.mem_map.mp hqs
    exact hNew q hq p.2 (hEq ▸ hp)
  · intro p hp
    rcases mem_append.mp hp with hp | hp
    · exact h.fresh p hp
    · rw [← h.getElem?_of_not_mem (hNew p hp)]
      exact h'.fresh p hp
  · rw [h'.coins, h.coins, Column.putAll, Column.putAll, Column.putAll, foldl_append]

end Adds

namespace Removes

theorem getElem? (h : Removes m ps m') (out : OutPoint) :
    m'.coins[out]? = if out ∈ ps.map Prod.fst then none else m.coins[out]? := by
  rw [h.coins, getElem?_eraseAll]

theorem append (h : Removes m ps m') (h' : Removes m' qs m'') : Removes m (ps ++ qs) m'' := by
  -- what the second part removes was still there after the first
  have hLater : ∀ q ∈ qs, q.1 ∉ ps.map Prod.fst := by
    intro q hq hMem
    have hSome := h'.held q hq
    rw [h.getElem?, if_pos hMem] at hSome
    cases hSome
  refine ⟨?_, ?_, ?_⟩
  · rw [map_append]
    refine List.Nodup.append h.nodup h'.nodup ?_
    intro out hps hqs
    obtain ⟨q, hq, rfl⟩ := List.mem_map.mp hqs
    exact hLater q hq hps
  · intro p hp
    rcases mem_append.mp hp with hp | hp
    · exact h.held p hp
    · have hSome := h'.held p hp
      rwa [h.getElem?, if_neg (hLater p hp)] at hSome
  · rw [h'.coins, h.coins, map_append, Column.eraseAll, Column.eraseAll, Column.eraseAll,
      foldl_append]

end Removes

/-! ## What connecting does -/

/-- The coins of those outputs that are stored. -/
def coinsOf (height : Int) (tx : Tx) (l : List (TxOutput × Nat)) : List (OutPoint × Coin) :=
  (l.filter fun o => !o.1.script.isUnspendable).map
    fun o => (⟨tx.txid, o.2⟩, ⟨o.1, height, tx.isCoinBase⟩)

def createdCoins (height : Int) (tx : Tx) : List (OutPoint × Coin) :=
  coinsOf height tx tx.outputs.zipIdx

variable {coin : Coin} {possibleOverwrite : Bool}

theorem addCoin_eq_some (h : m.addCoin out coin possibleOverwrite = some m')
    (hFresh : possibleOverwrite = true → coin.isUnspendable = false → m.coins[out]? = none) :
    Adds m (if coin.isUnspendable then [] else [(out, coin)]) m' := by
  rw [addCoin] at h
  split_ifs at h with hSpent hUnspendable hOverwrite
  · cases h
    rw [if_pos hUnspendable]
    exact .nil m
  · cases h
    rw [if_neg hUnspendable]
    refine ⟨nodup_singleton _, ?_, rfl⟩
    intro p hp
    cases mem_singleton.mp hp
    cases possibleOverwrite with
    | true => exact hFresh rfl (by simpa using hUnspendable)
    | false => exact haveCoin_eq_false.mp (by simpa using hOverwrite)

variable {height : Int}

/-- Only a coinbase may overwrite, so only for it freshness is assumed. -/
theorem addOutputs_adds {tx : Tx} : ∀ {l : List (TxOutput × Nat)} {m m' : CoinMap},
    l.foldlM (addOutput height tx) m = some m' →
    (tx.isCoinBase = true → (l.map Prod.snd).Nodup ∧
      ∀ p ∈ coinsOf height tx l, m.coins[p.1]? = none) →
    Adds m (coinsOf height tx l) m'
  | [], m, m', h, _ => by
    cases h
    exact .nil m
  | o :: l, m, m', h, hFresh => by
    rw [foldlM_cons] at h
    obtain ⟨mid, hHead, hTail⟩ := bind_eq_some_iff.mp h
    have hSplit : coinsOf height tx (o :: l) =
        (if o.1.script.isUnspendable then [] else
          [(⟨tx.txid, o.2⟩, ⟨o.1, height, tx.isCoinBase⟩)]) ++ coinsOf height tx l := by
      cases hUnspendable : o.1.script.isUnspendable <;> simp [coinsOf, hUnspendable]
    rw [hSplit] at hFresh ⊢
    have hFirst := addCoin_eq_some hHead fun hCb hUnspendable =>
      (hFresh hCb).2 (⟨tx.txid, o.2⟩, ⟨o.1, height, tx.isCoinBase⟩) (by
        have hStored : o.1.script.isUnspendable = false := hUnspendable
        simp [hStored])
    refine hFirst.append (addOutputs_adds hTail fun hCb => ?_)
    obtain ⟨hNodup, hNone⟩ := hFresh hCb
    rw [map_cons, nodup_cons] at hNodup
    refine ⟨hNodup.2, fun p hp => ?_⟩
    -- the other outputs have other indices
    rw [hFirst.getElem?_of_not_mem]
    · exact hNone p (mem_append_right _ hp)
    · intro c hc
      obtain ⟨o', ho', rfl⟩ := List.mem_map.mp hp
      have hIdx : o'.2 = o.2 := by
        split at hc
        · cases hc
        · simpa using congrArg (fun q => q.1.outIdx) (mem_singleton.mp hc)
      exact hNodup.1 (hIdx ▸ List.mem_map_of_mem (mem_of_mem_filter ho'))

theorem addCoins_adds {tx : Tx} (h : m.addCoins height tx = some m')
    (hFresh : tx.isCoinBase = true → ∀ p ∈ createdCoins height tx, m.coins[p.1]? = none) :
    Adds m (createdCoins height tx) m' := by
  refine addOutputs_adds h fun hCb => ⟨?_, hFresh hCb⟩
  rw [zipIdx_map_snd]
  exact nodup_range'

theorem addTxs_adds : ∀ {txs : List Tx} {m m' : CoinMap},
    txs.foldlM (addCoins height) m = some m' → (∀ tx ∈ txs, tx.isCoinBase = false) →
    Adds m (txs.flatMap (createdCoins height)) m'
  | [], m, m', h, _ => by
    cases h
    exact .nil m
  | tx :: txs, m, m', h, hTxs => by
    rw [foldlM_cons] at h
    obtain ⟨mid, hHead, hTail⟩ := bind_eq_some_iff.mp h
    obtain ⟨hTx, hRest⟩ := forall_mem_cons.mp hTxs
    rw [flatMap_cons]
    refine (addCoins_adds hHead fun hCb => ?_).append (addTxs_adds hTail hRest)
    rw [hTx] at hCb
    cases hCb

theorem spendCoin_removes (h : m.spendCoin out = some (coin, m')) : Removes m [(out, coin)] m' := by
  obtain ⟨c, hc, hEq⟩ := map_eq_some_iff.mp h
  cases hEq
  refine ⟨nodup_singleton _, ?_, rfl⟩
  intro p hp
  cases mem_singleton.mp hp
  exact hc

theorem spendInputs_removes : ∀ {inputs : List TxInput} {m m' : CoinMap} {undo : List Coin},
    m.spendInputs inputs = some (undo, m') → undo.length = inputs.length ∧
      Removes m ((inputs.map (·.prevOut)).zip undo) m'
  | [], m, m', undo, h => by
    cases h
    exact ⟨rfl, .nil m⟩
  | i :: inputs, m, m', undo, h => by
    simp only [spendInputs, bind_eq_bind, bind_eq_some_iff, Prod.exists] at h
    obtain ⟨coin, mid, hSpend, rest, last, hRest, hEq⟩ := h
    cases hEq
    obtain ⟨hLength, hRemoves⟩ := spendInputs_removes hRest
    exact ⟨by rw [length_cons, length_cons, hLength], (spendCoin_removes hSpend).append hRemoves⟩

theorem spendAll_removes : ∀ {txs : List Tx} {m m' : CoinMap} {undos : List (List Coin)},
    m.spendAll txs = some (undos, m') → (∀ tx ∈ txs, tx.isCoinBase = false) →
    undos.length = txs.length ∧ (∀ t ∈ txs.zip undos, t.2.length = t.1.inputs.length) ∧
      Removes m ((txs.zip undos).flatMap spentCoins) m'
  | [], m, m', undos, h, _ => by
    cases h
    exact ⟨rfl, (fun _ h => nomatch h), .nil m⟩
  | tx :: txs, m, m', undos, h, hTxs => by
    obtain ⟨hTx, hRest⟩ := forall_mem_cons.mp hTxs
    rw [spendAll, if_neg (by rw [hTx]; exact Bool.false_ne_true)] at h
    simp only [bind_eq_bind, bind_eq_some_iff, Prod.exists] at h
    obtain ⟨undo, mid, hInputs, undos', last, hAll, hEq⟩ := h
    cases hEq
    obtain ⟨hLength, hRemoves⟩ := spendInputs_removes hInputs
    obtain ⟨hLengths, hEach, hRemovesAll⟩ := spendAll_removes hAll hRest
    refine ⟨by rw [length_cons, length_cons, hLengths], ?_, ?_⟩
    · rw [zip_cons_cons]
      exact forall_mem_cons.mpr ⟨hLength, hEach⟩
    · rw [zip_cons_cons, flatMap_cons]
      exact hRemoves.append hRemovesAll

/-! ## What undoing does -/

theorem addCoin_stores (hSpent : coin.isSpent = false) (hFresh : m.coins[out]? = none) :
    ∃ m', m.addCoin out coin possibleOverwrite = some m' ∧
      Adds m (if coin.isUnspendable then [] else [(out, coin)]) m' := by
  have hSome : ∃ m', m.addCoin out coin possibleOverwrite = some m' := by
    rw [addCoin, dif_neg (by rw [hSpent]; exact Bool.false_ne_true), haveCoin_eq_false.mpr hFresh]
    split_ifs with hUnspendable hOverwrite
    · exact ⟨_, rfl⟩
    · simp at hOverwrite
    · exact ⟨_, rfl⟩
  obtain ⟨m', hm'⟩ := hSome
  exact ⟨m', hm', addCoin_eq_some hm' fun _ _ => hFresh⟩

theorem undoCoinSpend_adds {undo : Coin} (hFresh : m.coins[out]? = none) (hHeight : undo.height ≠ 0)
    (hSpent : undo.isSpent = false) :
    ∃ m', m.undoCoinSpend undo out = .ok (true, m') ∧
      Adds m (if undo.isUnspendable then [] else [(out, undo)]) m' := by
  obtain ⟨m', hAdd, hAdds⟩ := @addCoin_stores out m undo false hSpent hFresh
  refine ⟨m', ?_, hAdds⟩
  have hClean := haveCoin_eq_false.mpr hFresh
  rw [undoCoinSpend, hClean]
  refine bind_eq_ok.mpr ⟨undo, ?_, bind_eq_ok.mpr ⟨m', ?_, rfl⟩⟩
  · rw [undoMetadata, if_neg hHeight]
  · exact orElse_eq_ok.mpr hAdd

/-- Restoring coins at outpoints that have none stores those that are spendable. -/
theorem undoInputs_adds : ∀ {ps : List (OutPoint × Coin)} {m : CoinMap},
    (ps.map Prod.fst).Nodup → (∀ p ∈ ps, m.coins[p.1]? = none) →
    (∀ p ∈ ps, p.2.height ≠ 0 ∧ p.2.isSpent = false) →
    ∃ m', ps.foldlM undoInput (true, m) = .ok (true, m') ∧
      Adds m (ps.filter fun p => !p.2.isUnspendable) m'
  | [], m, _, _, _ => ⟨m, rfl, .nil m⟩
  | p :: ps, m, hNodup, hFresh, hCoins => by
    rw [map_cons, nodup_cons] at hNodup
    obtain ⟨hNone, hFresh⟩ := forall_mem_cons.mp hFresh
    obtain ⟨⟨hHeight, hSpent⟩, hCoins⟩ := forall_mem_cons.mp hCoins
    obtain ⟨mid, hUndo, hAdds⟩ := undoCoinSpend_adds hNone hHeight hSpent
    obtain ⟨m', hFold, hAddsRest⟩ := @undoInputs_adds ps mid hNodup.2 (fun q hq => by
      rw [hAdds.getElem?_of_not_mem]
      · exact hFresh q hq
      · intro c hc
        refine hNodup.1 (List.mem_map.mpr ⟨q, hq, ?_⟩)
        split at hc
        · cases hc
        · have hEq : (q.1, c) = (p.1, p.2) := mem_singleton.mp hc
          exact (Prod.mk.inj hEq).1) hCoins
    refine ⟨m', ?_, ?_⟩
    · rw [foldlM_cons]
      refine bind_eq_ok.mpr ⟨(true, mid), ?_, hFold⟩
      exact bind_eq_ok.mpr ⟨(true, mid), hUndo, rfl⟩
    · have hSplit : (p :: ps).filter (fun p => !p.2.isUnspendable) =
          (if p.2.isUnspendable then [] else [(p.1, p.2)]) ++
            ps.filter fun p => !p.2.isUnspendable := by
        cases hUnspendable : p.2.isUnspendable <;> simp [hUnspendable]
      rw [hSplit]
      exact hAdds.append hAddsRest

/-- With undo data of the right sizes the loop over transactions and inputs is
one loop over the spent coins. -/
theorem undoTxs_eq : ∀ {ts : List (Tx × List Coin)} (s : Bool × CoinMap),
    (∀ t ∈ ts, t.2.length = t.1.inputs.length) →
    ts.foldlM undoTx s = (ts.flatMap spentCoins).foldlM undoInput s
  | [], _, _ => rfl
  | t :: ts, s, h => by
    obtain ⟨hLength, hRest⟩ := forall_mem_cons.mp h
    have hTx : undoTx s t = (spentCoins t).foldlM undoInput s := by
      rw [undoTx, ensure, if_pos hLength]
      rfl
    rw [foldlM_cons, flatMap_cons, foldlM_append, hTx]
    refine bind_congr fun s' => ?_
    exact undoTxs_eq s' hRest

/-- Remove a coin that must be there. -/
def removeCoin (s : Bool × CoinMap) (p : OutPoint × Coin) : Bool × CoinMap :=
  match s.2.spendCoin p.1 with
  | none => (false, s.2)
  | some (coin, m) => (s.1 && decide (p.2 = coin), m)

theorem removeOutputs_eq (height : Int) (s : Bool × CoinMap) (tx : Tx) :
    removeOutputs height s tx = (createdCoins height tx).foldl removeCoin s := by
  rw [removeOutputs, createdCoins, coinsOf, foldl_map, foldl_filter]
  congr
  funext s o
  cases hUnspendable : o.1.script.isUnspendable with
  | true => simp [removeOutput, hUnspendable]
  | false =>
    simp only [removeOutput, hUnspendable, Bool.not_false, if_true, removeCoin,
      Bool.false_eq_true, if_false]
    cases s.2.spendCoin ⟨tx.txid, o.2⟩ with
    | none => rfl
    | some r =>
      obtain ⟨⟨output, coinHeight, isCoinbase⟩, m⟩ := r
      simp [Coin.mk.injEq]

theorem removeAll_eq (height : Int) : ∀ (vtx : List Tx) (s : Bool × CoinMap),
    vtx.foldl (removeOutputs height) s = (vtx.flatMap (createdCoins height)).foldl removeCoin s
  | [], _ => rfl
  | tx :: vtx, s => by
    rw [foldl_cons, flatMap_cons, foldl_append, removeOutputs_eq]
    exact removeAll_eq height vtx _

theorem removeCoins_removes : ∀ {ps : List (OutPoint × Coin)} {m : CoinMap},
    (ps.map Prod.fst).Nodup → (∀ p ∈ ps, m.coins[p.1]? = some p.2) →
    ∃ m', ps.foldl removeCoin (true, m) = (true, m') ∧ Removes m ps m'
  | [], m, _, _ => ⟨m, rfl, .nil m⟩
  | p :: ps, m, hNodup, hHeld => by
    rw [map_cons, nodup_cons] at hNodup
    obtain ⟨hp, hHeld⟩ := forall_mem_cons.mp hHeld
    have hSpend : m.spendCoin p.1 = some (p.2, m.erase p.1) := by
      rw [spendCoin, hp]
      rfl
    have hStep : removeCoin (true, m) p = (true, m.erase p.1) := by
      simp [removeCoin, hSpend]
    have hFirst : Removes m [(p.1, p.2)] (m.erase p.1) := spendCoin_removes hSpend
    obtain ⟨m', hFold, hRest⟩ := @removeCoins_removes ps (m.erase p.1) hNodup.2 fun q hq => by
      rw [hFirst.getElem?, if_neg]
      · exact hHeld q hq
      · intro hMem
        exact hNodup.1 (mem_singleton.mp hMem ▸ List.mem_map_of_mem hq)
    exact ⟨m', by rw [foldl_cons, hStep, hFold], hFirst.append hRest⟩

/-! ## Connecting and undoing a block -/

variable {p : OutPoint × Coin}

theorem createdCoins_spec {vtx : List Tx} (hp : p ∈ vtx.flatMap (createdCoins height)) :
    p.2.height = height ∧ p.2.isUnspendable = false := by
  obtain ⟨tx, _, hMem⟩ := mem_flatMap.mp hp
  obtain ⟨o, ho, rfl⟩ := List.mem_map.mp hMem
  exact ⟨rfl, by simpa [Coin.isUnspendable] using (mem_filter.mp ho).2⟩

variable {undos : List (List Coin)}

theorem input_of_spent {txs : List Tx} (hp : p ∈ (txs.zip undos).flatMap spentCoins) :
    ∃ tx ∈ txs, ∃ i ∈ tx.inputs, i.prevOut = p.1 := by
  obtain ⟨t, ht, hMem⟩ := mem_flatMap.mp hp
  obtain ⟨i, hi, hOut⟩ := List.mem_map.mp (of_mem_zip hMem).1
  exact ⟨t.1, (of_mem_zip ht).1, i, hi, hOut⟩

theorem spent_of_input {txs : List Tx} {tx : Tx} {i : TxInput} (hLength : undos.length = txs.length)
    (hEach : ∀ t ∈ txs.zip undos, t.2.length = t.1.inputs.length) (hTx : tx ∈ txs)
    (hi : i ∈ tx.inputs) : ∃ c, (i.prevOut, c) ∈ (txs.zip undos).flatMap spentCoins := by
  obtain ⟨k, hk, rfl⟩ := mem_iff_getElem.mp hTx
  have hPair : (txs[k], undos[k]) ∈ txs.zip undos := by
    rw [← getElem_zip (h := by rw [length_zip]; omega)]
    exact getElem_mem _
  obtain ⟨j, hj, rfl⟩ := mem_iff_getElem.mp hi
  have hUndo : undos[k].length = txs[k].inputs.length := hEach _ hPair
  refine ⟨undos[k][j], mem_flatMap.mpr ⟨_, hPair, ?_⟩⟩
  rw [spentCoins, mem_iff_getElem]
  exact ⟨j, by simp only [length_zip, length_map]; omega, by simp⟩

section Block

-- `CheckBlock` ensures that the first transaction is the only coinbase
variable {height : Int} {cb : Tx} {txs : List Tx} {undos : List (List Coin)}
  (hCb : cb.isCoinBase = true) (hTxs : ∀ tx ∈ txs, tx.isCoinBase = false)
  (hConnect : m.connectCoins height (cb :: txs) = some (undos, m'))
  (hFresh : ∀ p ∈ createdCoins height cb, m.coins[p.1]? = none)
include hCb hTxs hConnect hFresh

theorem connectCoins_spec : undos.length = txs.length ∧
    (∀ t ∈ txs.zip undos, t.2.length = t.1.inputs.length) ∧
    ∃ mid, Adds m ((cb :: txs).flatMap (createdCoins height)) mid ∧
      Removes mid ((txs.zip undos).flatMap spentCoins) m' := by
  simp only [connectCoins, foldlM_cons, bind_eq_bind, bind_eq_some_iff,
    Prod.exists, spendAll, hCb, if_true] at hConnect
  obtain ⟨mid, ⟨first, hFirst, hRest⟩, recorded, last, hSpend, _, _, hEq⟩ := hConnect
  obtain ⟨hLength, hEach, hRemoves⟩ := spendAll_removes hSpend hTxs
  -- every transaction after the first has its entry, so none is left empty
  have hNone : (cb :: txs).length - 1 - recorded.length = 0 := by
    rw [length_cons, hLength]
    omega
  rw [hNone, replicate_zero, append_nil] at hEq
  cases hEq
  refine ⟨hLength, hEach, mid, ?_, hRemoves⟩
  rw [flatMap_cons]
  exact (addCoins_adds hFirst fun _ => hFresh).append (addTxs_adds hRest hTxs)

variable (hHeight : 0 < height)
  (hOld : ∀ tx ∈ txs, ∀ i ∈ tx.inputs, ∀ c : Coin, m.coins[i.prevOut]? = some c → 0 < c.height)
include hHeight hOld

theorem applyBlockUndo_spec : ∃ m'',
    m'.applyBlockUndo height (cb :: txs) undos = .ok (.ok, m'') ∧
    (∀ p ∈ (txs.zip undos).flatMap spentCoins, p.2.isUnspendable = true → m''.coins[p.1]? = none) ∧
    ∀ out : OutPoint, (∀ c, (out, c) ∈ (txs.zip undos).flatMap spentCoins →
      c.isUnspendable = false) → m''.coins[out]? = m.coins[out]? := by
  obtain ⟨hLength, hEach, mid, hAdds, hRemoves⟩ := connectCoins_spec hCb hTxs hConnect hFresh
  -- a spent coin was created by the block or was there before
  have hOrigin : ∀ p ∈ (txs.zip undos).flatMap spentCoins,
      p ∈ (cb :: txs).flatMap (createdCoins height) ∨ m.coins[p.1]? = some p.2 := by
    intro p hp
    have hHeld := hRemoves.held p hp
    by_cases hNew : ∃ c, (p.1, c) ∈ (cb :: txs).flatMap (createdCoins height)
    · obtain ⟨c, hc⟩ := hNew
      rw [hAdds.getElem?_of_mem hc] at hHeld
      cases hHeld
      exact .inl hc
    · rw [hAdds.getElem?_of_not_mem fun c hc => hNew ⟨c, hc⟩] at hHeld
      exact .inr hHeld
  have hCoins : ∀ p ∈ (txs.zip undos).flatMap spentCoins,
      p.2.height ≠ 0 ∧ p.2.isSpent = false := by
    intro p hp
    refine ⟨?_, mid.unspent p.1 p.2 (hRemoves.held p hp)⟩
    rcases hOrigin p hp with hNew | hBefore
    · rw [(createdCoins_spec hNew).1]
      omega
    · obtain ⟨tx, hTx, i, hi, hOut⟩ := input_of_spent hp
      have hPos := hOld tx hTx i hi p.2 (hOut ▸ hBefore)
      omega
  have hGone : ∀ p ∈ (txs.zip undos).flatMap spentCoins, m'.coins[p.1]? = none := by
    intro p hp
    rw [hRemoves.getElem?, if_pos (List.mem_map_of_mem hp)]
  obtain ⟨m₁, hUndo, hRestored⟩ := undoInputs_adds hRemoves.nodup hGone hCoins
  -- after the first loop every created coin is back
  have hCreated : ∀ p ∈ (cb :: txs).flatMap (createdCoins height), m₁.coins[p.1]? = some p.2 := by
    intro p hp
    by_cases hSpent : ∃ c, (p.1, c) ∈ (txs.zip undos).flatMap spentCoins
    · obtain ⟨c, hc⟩ := hSpent
      have hSame := hRemoves.held _ hc
      rw [hAdds.getElem?_of_mem hp] at hSame
      cases hSame
      exact hRestored.getElem?_of_mem
        (mem_filter.mpr ⟨hc, by rw [(createdCoins_spec hp).2]; rfl⟩)
    · rw [hRestored.getElem?_of_not_mem fun c hc => hSpent ⟨c, mem_of_mem_filter hc⟩,
        hRemoves.getElem?, if_neg, hAdds.getElem?_of_mem hp]
      intro hMem
      obtain ⟨q, hq, hEq⟩ := List.mem_map.mp hMem
      exact hSpent ⟨q.2, hEq ▸ hq⟩
  obtain ⟨m'', hRemove, hFinal⟩ := removeCoins_removes hAdds.nodup hCreated
  refine ⟨m'', ?_, ?_, ?_⟩
  · refine bind_eq_ok.mpr ⟨(), ensure_eq_ok.mpr (by rw [hLength, length_cons]), ?_⟩
    refine bind_eq_ok.mpr ⟨(true, m₁), ?_, ?_⟩
    · rw [tail_cons, undoTxs_eq _ hEach, hUndo]
    · rw [removeAll_eq, hRemove]
      rfl
  · intro p hp hUnspendable
    rw [hFinal.getElem?]
    split
    · rfl
    · rw [hRestored.getElem?_of_not_mem, hGone p hp]
      intro c hc
      -- the one coin spent at this outpoint is not among the restored ones
      obtain ⟨hMem, hStored⟩ := mem_filter.mp hc
      have hSame := hRemoves.held _ hMem
      rw [hRemoves.held p hp] at hSame
      cases hSame
      rw [hUnspendable] at hStored
      cases hStored
  · intro out hOut
    rw [hFinal.getElem?]
    split
    · next hMem =>
      obtain ⟨p, hp, rfl⟩ := List.mem_map.mp hMem
      exact (hAdds.fresh p hp).symm
    · next hMem =>
      have hBefore : mid.coins[out]? = m.coins[out]? :=
        hAdds.getElem?_of_not_mem fun c hc => hMem (List.mem_map.mpr ⟨_, hc, rfl⟩)
      by_cases hSpent : ∃ c, (out, c) ∈ (txs.zip undos).flatMap spentCoins
      · obtain ⟨c, hc⟩ := hSpent
        have hBack := hRestored.getElem?_of_mem
          (mem_filter.mpr ⟨hc, by rw [hOut c hc]; rfl⟩)
        rw [hBack, ← hBefore, hRemoves.held _ hc]
      · rw [hRestored.getElem?_of_not_mem fun c hc => hSpent ⟨c, mem_of_mem_filter hc⟩,
          hRemoves.getElem?, if_neg, hBefore]
        intro hMem'
        obtain ⟨q, hq, hEq⟩ := List.mem_map.mp hMem'
        exact hSpent ⟨q.2, hEq ▸ hq⟩

end Block

/-! A block in which a transaction spends a later one, which spends a coin from
before. -/

def sampleId (byte : UInt8) : TxId := .fill byte

def sampleTx (byte : UInt8) (prevOut : OutPoint) : Tx :=
  ⟨sampleId byte, 1, [⟨prevOut, ⟨[]⟩, 0, none⟩], [⟨5, ⟨[op1]⟩⟩], 0⟩

def oldOut : OutPoint := ⟨sampleId 1, 0⟩

/-- One coin, with the given script. -/
def oneCoin (script : Script) : CoinMap :=
  (⟨∅, fun _ _ h => by simp at h⟩ : CoinMap).insert oldOut ⟨⟨5, script⟩, 1, false⟩ rfl

def sampleCoinBase : Tx := sampleTx 2 ⟨TxId.zero, 0xffffffff⟩

def sampleTxs : List Tx := [sampleTx 3 ⟨sampleId 4, 0⟩, sampleTx 4 oldOut]

end CoinMap

end Ergon
