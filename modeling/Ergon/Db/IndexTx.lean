import Ergon.Core.Tx
import Ergon.Lib.Column
import Ergon.Lib.Lists
import Ergon.Lib.Result

/-!
# Ergon — numbering the transactions of a block

`prepare_indexed_txs` (`chronik-db/src/index_tx.rs`): the transactions of a
block are numbered in order, and their inputs get the numbers of the
transactions they spend, of this block or of the database. The cache of numbers
is switched off here, as it is there.

* `prepareIndexedTxs_eq_ok` — what the numbers are.
-/

namespace Ergon

open Lib List

inductive IndexTxError (ε : Type)
  | unknownInputSpent (prevOut : OutPoint)
  | db (error : ε)
deriving DecidableEq

section

variable {ε : Type} (txNumByTxid : TxId → Except ε (Option TxNum)) (firstTxNum : TxNum)

def txNumsByTxid (txs : List Tx) : Column TxId TxNum :=
  (∅ : Column TxId TxNum).putAll (txs.zipIdx.map fun (tx, txIdx) => (tx.txid, firstTxNum + txIdx))

/-- What has to be looked up in the database, each once. -/
def dbTxids (txs : List Tx) : List TxId :=
  ((txs.flatMap fun tx => tx.inputs.map fun input => input.prevOut.txid).filter fun txid =>
    (txNumsByTxid firstTxNum txs)[txid]? = none).dedup

def inputNum (txNums : Column TxId TxNum) (dbTxNums : Column TxId (Option TxNum))
    (input : TxInput) : Except (IndexTxError ε) TxNum :=
  match txNums[input.prevOut.txid]? with
  | some txNum => .ok txNum
  | none => orElse dbTxNums[input.prevOut.txid]?.join (.unknownInputSpent input.prevOut)

def indexTx (txNums : Column TxId TxNum) (dbTxNums : Column TxId (Option TxNum)) :
    Tx × Nat → Except (IndexTxError ε) IndexTx
  -- the first transaction is the coinbase
  | (tx, 0) => .ok ⟨tx, firstTxNum, true, []⟩
  | (tx, txIdx) => do
    let inputNums ← tx.inputs.mapM (inputNum txNums dbTxNums)
    return ⟨tx, firstTxNum + txIdx, false, inputNums⟩

def prepareIndexedTxs (txs : List Tx) : Except (IndexTxError ε) (List IndexTx) := do
  let dbTxNums ← (dbTxids firstTxNum txs).mapM fun txid =>
    ((txNumByTxid txid).mapError .db).map fun txNum => (txid, txNum)
  txs.zipIdx.mapM (indexTx firstTxNum (txNumsByTxid firstTxNum txs)
    ((∅ : Column TxId (Option TxNum)).putAll dbTxNums))

end

/-! ## The numbers -/

variable {ε : Type} {txNumByTxid : TxId → Except ε (Option TxNum)} {firstTxNum : TxNum}
  {txs : List Tx} {itxs : List IndexTx}

/-- The number of the transaction that an input spends. -/
def SpendsNum (txNumByTxid : TxId → Except ε (Option TxNum)) (firstTxNum : TxNum) (txs : List Tx)
    (input : TxInput) (n : TxNum) : Prop :=
  match (txNumsByTxid firstTxNum txs)[input.prevOut.txid]? with
  | some txNum => n = txNum
  | none => txNumByTxid input.prevOut.txid = .ok (some n)

/-- The transaction at an index of the block, with its numbers. -/
def Numbered (txNumByTxid : TxId → Except ε (Option TxNum)) (firstTxNum : TxNum) (txs : List Tx)
    (a : Tx × Nat) (itx : IndexTx) : Prop :=
  itx.tx = a.1 ∧ itx.txNum = firstTxNum + a.2 ∧
    if a.2 = 0 then itx.isCoinbase = true ∧ itx.inputNums = []
    else itx.isCoinbase = false ∧
      List.Forall₂ (SpendsNum txNumByTxid firstTxNum txs) a.1.inputs itx.inputNums

/-- With every transaction once, the column has their indices. -/
theorem getElem?_txNumsByTxid (hNodup : (txs.map fun tx => tx.txid).Nodup) {txid : TxId}
    {n : TxNum} : (txNumsByTxid firstTxNum txs)[txid]? = some n ↔
      ∃ tx idx, txs[idx]? = some tx ∧ tx.txid = txid ∧ n = firstTxNum + idx := by
  have hKeys : ((txs.zipIdx.map fun (tx, idx) => (tx.txid, firstTxNum + idx)).map Prod.fst) =
      txs.map fun tx => tx.txid := by
    conv_rhs => rw [← zipIdx_map_fst 0 txs, map_map]
    exact map_map
  refine (Column.getElem?_putAll_empty (by rwa [hKeys])).trans (mem_map.trans ?_)
  constructor
  · rintro ⟨⟨tx, idx⟩, hMem, hEq⟩
    cases hEq
    exact ⟨tx, idx, mem_zipIdx_iff_getElem?.mp hMem, rfl, rfl⟩
  · rintro ⟨tx, idx, hGet, rfl, rfl⟩
    exact ⟨(tx, idx), mem_zipIdx_iff_getElem?.mpr hGet, rfl⟩

/-- What was looked up in the database is what the database answers. -/
theorem spendsNum_of_inputNum {ps : List (TxId × Option TxNum)}
    (hDb : List.Forall₂ (fun txid p => p.1 = txid ∧ txNumByTxid txid = .ok p.2)
      (dbTxids firstTxNum txs) ps) {input : TxInput} {n : TxNum}
    (h : (inputNum (txNumsByTxid firstTxNum txs) ((∅ : Column TxId (Option TxNum)).putAll ps)
      input : Except (IndexTxError ε) TxNum) = .ok n) :
    SpendsNum txNumByTxid firstTxNum txs input n := by
  have hKeys : (ps.map Prod.fst).Nodup := by
    rw [← Forall₂.map_eq (f := id) hDb fun _ _ hp => hp.1.symm, map_id]
    exact nodup_dedup _
  unfold inputNum at h
  unfold SpendsNum
  split at h
  · cases h
    rfl
  · obtain ⟨found, hFound, rfl⟩ : ∃ found, ((∅ : Column TxId (Option TxNum)).putAll
        ps)[input.prevOut.txid]? = some found ∧ found = some n := by
      simpa [Option.join_eq_some_iff] using orElse_eq_ok.mp h
    obtain ⟨txid, -, hTxid, hAnswer⟩ :=
      Forall₂.exists_left hDb ((Column.getElem?_putAll_empty hKeys).mp hFound)
    rw [← hTxid] at hAnswer
    exact hAnswer

/-- Every transaction is numbered by its index, and its inputs by the transactions they spend. -/
theorem prepareIndexedTxs_eq_ok (h : prepareIndexedTxs txNumByTxid firstTxNum txs = .ok itxs) :
    List.Forall₂ (Numbered txNumByTxid firstTxNum txs) txs.zipIdx itxs := by
  obtain ⟨ps, hDb, h⟩ := bind_eq_ok.mp h
  have hDb : List.Forall₂ (fun txid p => p.1 = txid ∧ txNumByTxid txid = .ok p.2)
      (dbTxids firstTxNum txs) ps := by
    refine (mapM_eq_ok.mp hDb).imp fun txid p hp => ?_
    obtain ⟨answer, hAnswer, rfl⟩ := map_eq_ok.mp hp
    exact ⟨rfl, mapError_eq_ok.mp hAnswer⟩
  refine (mapM_eq_ok.mp h).imp ?_
  rintro ⟨tx, idx⟩ itx hIndex
  cases idx with
  | zero =>
    cases hIndex
    exact ⟨rfl, rfl, rfl, rfl⟩
  | succ idx =>
    obtain ⟨nums, hNums, hIndex⟩ := bind_eq_ok.mp hIndex
    cases pure_eq_ok.mp hIndex
    refine ⟨rfl, rfl, rfl, (mapM_eq_ok.mp hNums).imp fun input n hInput => ?_⟩
    exact spendsNum_of_inputNum hDb hInput

end Ergon
