import Ergon.Script.Script

/-!
# Ergon — transactions

The transaction types of `bitcoinsuite-core/src/tx` and the indexed
transactions of `chronik-db/src/index_tx.rs`. Transactions carry their txid as
data, as the source's `Tx` does; nothing here computes it.
-/

namespace Ergon

open Lib

/-- A transaction id, in the byte order it is hashed and compared in. -/
abbrev TxId := FixedBytes 32

/-- The default txid: all zeros. -/
def TxId.zero : TxId := ⟨List.replicate 32 0, List.length_replicate⟩

/-- A transaction's number in the index. -/
abbrev TxNum := Nat

structure OutPoint where
  txid : TxId
  outIdx : Nat
deriving DecidableEq

structure TxOutput where
  sats : Int
  script : Script
deriving DecidableEq

/-- An output together with where it was created. -/
structure Coin where
  output : TxOutput
  height : Int
  isCoinbase : Bool
deriving DecidableEq

structure TxInput where
  prevOut : OutPoint
  script : Script
  sequence : Nat
  -- decoded blocks carry no coins, the node's bridge fills them in
  coin : Option Coin
deriving DecidableEq

structure Tx where
  txid : TxId
  version : Nat
  inputs : List TxInput
  outputs : List TxOutput
  locktime : Nat
deriving DecidableEq

/-- A block of a chain. -/
structure BlockRef where
  height : Int
  hash : FixedBytes 32
deriving DecidableEq

/-- A transaction of a block with the numbers the index refers to it by.
`inputNums` is empty for a coinbase. -/
structure IndexTx where
  tx : Tx
  txNum : TxNum
  isCoinbase : Bool
  inputNums : List TxNum
deriving DecidableEq

end Ergon
