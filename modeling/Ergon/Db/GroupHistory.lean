import Ergon.Lib.Column
import Ergon.Lib.VarInt
import Ergon.Core.Tx

/-!
# Ergon — paginated group histories

`chronik-db/src/io/group_history.rs`: the transactions of every member of a
group (a script, a token id, …) are stored as pages of transaction numbers.
Inserting a block appends to the last page and opens new ones through merge
operands, deleting it walks the pages backwards.

A batch is computed from the state before it and then written as a whole.
`Db/HistoryPages.lean` says what the pages stand for and when a deletion undoes
an insertion.
-/

namespace Ergon

open Lib

/-! ## The column families -/

/-- A merge operand of the page column: `C` and bytes, or `T` and a length. -/
inductive ConcatTrim
  | concat (bytes : Bytes)
  | trim (len : Nat)

def applyConcatTrim (existing : Option Bytes) : ConcatTrim → Option Bytes
  | .concat bytes => some (existing.getD [] ++ bytes)
  | .trim len =>
    let bytes := existing.getD []
    -- draining from a negative start panics
    if len ≤ bytes.length then some (bytes.take (bytes.length - len)) else none

/-- Columns that are only written and deleted have no merge operator. -/
def noMerge {V : Type} (_ : Option V) (operand : Empty) : Option V := nomatch operand

/-- The page column, keyed by member and page, the number of transactions of
every member (a 32-bit number in the source), and the optional index of
members by their hash. -/
structure HistoryDb where
  pages : Column Bytes Bytes
  numTxs : Column Bytes Nat
  memberHash : Column Bytes Bytes

/-- A write batch, by column family. -/
structure HistoryBatch where
  pages : List (ColumnOp Bytes Bytes ConcatTrim)
  numTxs : List (ColumnOp Bytes Nat Empty)
  memberHash : List (ColumnOp Bytes Bytes Empty)

def HistoryDb.write (db : HistoryDb) (batch : HistoryBatch) : Option HistoryDb := do
  let pages ← db.pages.write applyConcatTrim batch.pages
  let numTxs ← db.numTxs.write noMerge batch.numTxs
  let memberHash ← db.memberHash.write noMerge batch.memberHash
  return ⟨pages, numTxs, memberHash⟩

def HistoryBatch.concat (batches : List HistoryBatch) : HistoryBatch where
  pages := batches.flatMap HistoryBatch.pages
  numTxs := batches.flatMap HistoryBatch.numTxs
  memberHash := batches.flatMap HistoryBatch.memberHash

/-- `db_serialize_vec` of transaction numbers. -/
def dbSerializeVec (txNums : List TxNum) : Bytes := txNums.flatMap leb128

def keyForMemberPage (memberSer : Bytes) (pageNum : Nat) : Bytes :=
  memberSer ++ bigEndian 4 pageNum

/-! ## Groups -/

/-- What the history writer needs of a group and its configuration. -/
structure Group (M : Type) where
  inputMembers : IndexTx → List M
  outputMembers : IndexTx → List M
  serMember : M → Bytes
  serHashMember : M → Bytes
  pageSize : Nat
  -- whether the configuration names a member hash column
  cfMemberHash : Bool

namespace Group

variable {M : Type} [Ord M] [Std.TransOrd M]

def txMembers (g : Group M) (tx : IndexTx) : List M := g.inputMembers tx ++ g.outputMembers tx

/-- A member that occurs several times in a transaction gets it once. -/
def pushTxNum (txNums : List TxNum) (txNum : TxNum) : List TxNum :=
  if txNums.getLast? = some txNum then txNums else txNums ++ [txNum]

def groupTxs (g : Group M) (txs : List IndexTx) : Column M (List TxNum) :=
  txs.foldl (fun grouped tx =>
    (g.txMembers tx).foldl (fun grouped member =>
      grouped.insert member (pushTxNum (grouped.getD member []) tx.txNum)) grouped) ∅

/-! ## Insertion -/

/-- The insertion loop for one member. The fuel bounds the number of pages. -/
def insertLoop (pageSize : Nat) (memberSer : Bytes) :
    Nat → Nat → Nat → Nat → List TxNum →
      List (ColumnOp Bytes Bytes ConcatTrim) × Nat
  | 0, _, _, numTxs, _ => ([], numTxs)
  | fuel + 1, pageNum, lastPageNumTxs, numTxs, newTxNums =>
    let spaceLeft := pageSize - lastPageNumTxs
    let numNewTxs := min spaceLeft newTxNums.length
    let op := .merge (keyForMemberPage memberSer pageNum)
      (.concat (dbSerializeVec (newTxNums.take numNewTxs)))
    let numTxs := numTxs + numNewTxs
    match newTxNums.drop numNewTxs with
    | [] => ([op], numTxs)
    | n :: rest =>
      let (ops, numTxs) := insertLoop pageSize memberSer fuel (pageNum + 1) 0 numTxs (n :: rest)
      (op :: ops, numTxs)

def insertMember (g : Group M) (memberHashEnabled : Bool) (db : HistoryDb)
    (entry : M × List TxNum) : HistoryBatch :=
  let memberSer := g.serMember entry.1
  let numTxs := db.numTxs.getD memberSer 0
  let (ops, numTxs') := insertLoop g.pageSize memberSer (entry.2.length + 1)
    (numTxs / g.pageSize) (numTxs % g.pageSize) numTxs entry.2
  { pages := ops
    numTxs := [.put memberSer numTxs']
    memberHash := if g.cfMemberHash && numTxs == 0 && memberHashEnabled
      then [.put (g.serHashMember entry.1) memberSer] else [] }

/-- `GroupHistoryWriter::insert`, then writing the batch. -/
def insert (g : Group M) (memberHashEnabled : Bool) (db : HistoryDb) (txs : List IndexTx) :
    Option HistoryDb :=
  db.write (.concat ((g.groupTxs txs).toList.map (g.insertMember memberHashEnabled db)))

/-! ## Deletion -/

/-- The deletion loop for one member. `none` is a panic (a number of
transactions below zero) or a loop that does not end. -/
def deleteLoop (pageSize : Nat) (memberSer : Bytes) :
    Nat → Nat → Nat → Nat → Nat → List TxNum →
      Option (List (ColumnOp Bytes Bytes ConcatTrim) × Nat)
  | 0, _, _, _, _, _ => none
  | fuel + 1, pageNum, lastPageNumTxs, numTxs, numRemainingRemoves, removedTxNums =>
    let numPageRemoves := min lastPageNumTxs numRemainingRemoves
    let key := keyForMemberPage memberSer pageNum
    -- a page that is removed as a whole does not drain `removedTxNums`
    let split := removedTxNums.length - numPageRemoves
    let (op, removedTxNums) :=
      if numPageRemoves = lastPageNumTxs then (.delete key, removedTxNums)
      else (.merge key (.trim (dbSerializeVec (removedTxNums.drop split)).length),
        removedTxNums.take split)
    if numTxs < numPageRemoves then none
    else
      let numTxs := numTxs - numPageRemoves
      let numRemainingRemoves := numRemainingRemoves - numPageRemoves
      if numRemainingRemoves = 0 then some ([op], numTxs)
      else
        let (pageNum, lastPageNumTxs) :=
          if pageNum > 0 then (pageNum - 1, pageSize) else (pageNum, lastPageNumTxs)
        (deleteLoop pageSize memberSer fuel pageNum lastPageNumTxs numTxs
          numRemainingRemoves removedTxNums).map fun (ops, numTxs) => (op :: ops, numTxs)

def deleteMember (g : Group M) (memberHashEnabled : Bool) (db : HistoryDb)
    (entry : M × List TxNum) : Option HistoryBatch :=
  let memberSer := g.serMember entry.1
  let numTxs := db.numTxs.getD memberSer 0
  let pageNum := numTxs / g.pageSize
  (deleteLoop g.pageSize memberSer (pageNum + 2) pageNum (numTxs % g.pageSize) numTxs
      entry.2.length entry.2).map fun (ops, numTxs') =>
    { pages := ops
      numTxs := if numTxs' > 0 then [.put memberSer numTxs'] else [.delete memberSer]
      memberHash := if numTxs' = 0 && g.cfMemberHash && memberHashEnabled
        then [.delete (g.serHashMember entry.1)] else [] }

/-- `GroupHistoryWriter::delete`, then writing the batch. -/
def delete (g : Group M) (memberHashEnabled : Bool) (db : HistoryDb) (txs : List IndexTx) :
    Option HistoryDb := do
  let batches ← (g.groupTxs txs).toList.mapM (g.deleteMember memberHashEnabled db)
  db.write (.concat batches)

end Group

end Ergon
