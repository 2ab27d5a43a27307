import Ergon.Lib.Pages
import Ergon.Lib.Result
import Ergon.Db.GroupHistory

/-!
# Ergon — querying group histories

`QueryGroupHistory` (`chronik-indexer/src/query/group_history.rs`) answers requests
for one page of the history of a member. The confirmed transactions are read from
the stored pages in order; the reverse history starts with the latest mempool
transaction and goes on backwards through the stored pages. The request's page
size has nothing to do with the size of the stored pages.

The loops read and push one transaction at a time and stop when the requested page
is full. What reading a transaction loads besides its block height and its time is
left out; that this may fail is not.

`Query/HistoryRequests.lean` says what the requests return.
-/

namespace Ergon

open Lib

/-! ## The reader -/

/-- `db_deserialize_vec` of transaction numbers. -/
def dbDeserializeVec (bytes : Bytes) : Option (List TxNum) := readLeb128s bytes.length bytes

namespace Query

/-- Smallest allowed page size. -/
def minHistoryPageSize : Nat := 1

/-- Largest allowed page size. -/
def maxHistoryPageSize : Nat := 200

/-- Why a request fails: the errors of the query, those of the database reader, any
other error of reading a transaction, and panics. -/
inductive QueryGroupHistoryError
  | missingMempoolTx (txid : TxId)
  | missingDbTx (txNum : TxNum)
  | missingDbTxBlock (txNum : TxNum)
  | requestPageSizeTooBig (size : Nat)
  | requestPageSizeTooSmall (size : Nat)
  | scriptHashIndexDisabled
  | groupDoesNotImplementMemberHash
  | deserializeError (bytes : Bytes)
  | loadError
  | panic
deriving DecidableEq

open QueryGroupHistoryError

abbrev QueryResult := Except QueryGroupHistoryError

/-- A member, or the hash of one. -/
inductive GroupMember (M : Type)
  | member (m : M)
  | memberHash (hash : Bytes)

/-- A transaction as it is returned: with the height of its block, if it has one,
and the time it was first seen. -/
structure HistoryTx where
  txid : TxId
  block : Option Int
  timeFirstSeen : Int
deriving DecidableEq

structure TxHistoryPage where
  txs : List HistoryTx
  numPages : Nat
  numTxs : Nat
deriving DecidableEq

/-- A stored transaction. -/
structure BlockTx where
  txid : TxId
  blockHeight : Int
  timeFirstSeen : Int

/-- What the queries read. The entries of a member's mempool history are pairs of
time and txid in ascending order. -/
structure QueryGroupHistory (M : Type) where
  db : HistoryDb
  group : Group M
  mempoolHistory : Column Bytes (List (Int × TxId))
  -- there is none for groups without member hashes
  memberHashIndex : Option (Column Bytes Bytes)
  mempoolTx : TxId → Option Int
  txByTxNum : TxNum → Option BlockTx
  blockByHeight : Int → Bool
  -- whether everything else that is returned with a transaction can be loaded
  loadMempoolTx : TxId → Bool
  loadBlockTx : Bool → TxNum → Bool
  isScripthashIndexEnabled : Bool

/-- Multiplication of 64-bit numbers that stops at the largest one. -/
def saturatingMul (a b : Nat) : Nat := min (a * b) (2 ^ 64 - 1)

namespace QueryGroupHistory

variable {M : Type} (q : QueryGroupHistory M)

def pageTxs (memberSer : Bytes) (pageNum : Nat) : QueryResult (Option (List TxNum)) :=
  match q.db.pages[keyForMemberPage memberSer pageNum]? with
  | none => .ok none
  | some bytes => (orElse (dbDeserializeVec bytes) (deserializeError bytes)).map some

/-- The number of stored pages and transactions. -/
def memberNumPagesAndTxs (memberSer : Bytes) : Nat × Nat :=
  match q.db.numTxs[memberSer]? with
  | none => (0, 0)
  | some numTxs => (divCeil numTxs q.group.pageSize, numTxs)

def memberSerByMemberHash (hash : Bytes) : QueryResult (Option Bytes) := do
  ensure (q.group.cfMemberHash = true) groupDoesNotImplementMemberHash
  return q.db.memberHash[hash]?

/-! ## Reading transactions -/

def memberSerFromMember : GroupMember M → QueryResult (Option Bytes)
  | .member m => .ok (some (q.group.serMember m))
  | .memberHash hash => do
    ensure (q.isScripthashIndexEnabled = true) scriptHashIndexDisabled
    -- the mempool is asked first
    match q.memberHashIndex.bind (·[hash]?) with
    | some memberSer => return some memberSer
    | none => q.memberSerByMemberHash hash

def readMempoolTx (txid : TxId) : QueryResult HistoryTx := do
  let timeFirstSeen ← orElse (q.mempoolTx txid) (missingMempoolTx txid)
  ensure (q.loadMempoolTx txid = true) loadError
  return ⟨txid, none, timeFirstSeen⟩

def readBlockTx (includeSpentBy : Bool) (txNum : TxNum) : QueryResult HistoryTx := do
  let blockTx ← orElse (q.txByTxNum txNum) (missingDbTx txNum)
  ensure (q.blockByHeight blockTx.blockHeight = true) (missingDbTxBlock txNum)
  ensure (q.loadBlockTx includeSpentBy txNum = true) loadError
  return ⟨blockTx.txid, some blockTx.blockHeight, blockTx.timeFirstSeen⟩

/-- Read and push transactions until the requested page is full; says whether it
is. A transaction that is not there is an index out of range. -/
def fillPage (read : TxNum → QueryResult HistoryTx) (requestPageSize : Nat) :
    List (Option TxNum) → List HistoryTx → QueryResult (List HistoryTx × Bool)
  | [], pageTxs => .ok (pageTxs, false)
  | none :: _, _ => .error .panic
  | some txNum :: rest, pageTxs => do
    let tx ← read txNum
    if (pageTxs ++ [tx]).length = requestPageSize then return (pageTxs ++ [tx], true)
    else fillPage read requestPageSize rest (pageTxs ++ [tx])

/-- Read stored pages one after the other until the requested page is full. `pick`
selects from a stored page; it is started with `firstInnerIdx` on the first page and
with `nextInnerIdx` on every other one. -/
def readPages (pick : Nat → List TxNum → List (Option TxNum)) (nextInnerIdx : Nat)
    (read : TxNum → QueryResult HistoryTx) (memberSer : Bytes) (requestPageSize : Nat) :
    List Nat → Nat → List HistoryTx → QueryResult (List HistoryTx)
  | [], _, pageTxs => .ok pageTxs
  | pageNum :: rest, firstInnerIdx, pageTxs => do
    let dbPageTxNums ← q.pageTxs memberSer (pageNum % 2 ^ 32)
    let (pageTxs, full) ← fillPage read requestPageSize
      (pick firstInnerIdx (dbPageTxNums.getD [])) pageTxs
    if full then return pageTxs
    else readPages pick nextInnerIdx read memberSer requestPageSize rest nextInnerIdx pageTxs

/-- From an index on, forwards. -/
def skipTo (firstInnerIdx : Nat) (txNums : List TxNum) : List (Option TxNum) :=
  (txNums.drop firstInnerIdx).map some

/-- From an index on, backwards. -/
def backFrom (firstInnerIdx : Nat) (txNums : List TxNum) : List (Option TxNum) :=
  (List.range (firstInnerIdx + 1)).reverse.map fun idx => txNums[idx]?

/-! ## Requests -/

def checkPageSize (requestPageSize : Nat) : QueryResult Unit := do
  ensure (¬ requestPageSize < minHistoryPageSize) (requestPageSizeTooSmall requestPageSize)
  ensure (¬ requestPageSize > maxHistoryPageSize) (requestPageSizeTooBig requestPageSize)

/-- A request for a member that is stored under no bytes has no results. -/
def request (member : GroupMember M) (requestPageSize : Nat)
    (body : Bytes → QueryResult TxHistoryPage) : QueryResult TxHistoryPage := do
  checkPageSize requestPageSize
  match ← q.memberSerFromMember member with
  | none => return ⟨[], 0, 0⟩
  | some memberSer => body memberSer

/-- `_confirmed_txs`. -/
def confirmedTxsWith (includeSpentBy : Bool) (member : GroupMember M)
    (requestPageNum requestPageSize : Nat) : QueryResult TxHistoryPage :=
  q.request member requestPageSize fun memberSer => do
    let (numDbPages, numDbTxs) := q.memberNumPagesAndTxs memberSer
    let numRequestPages := divCeil numDbTxs requestPageSize
    let makeResult (txs : List HistoryTx) : TxHistoryPage :=
      ⟨txs, numRequestPages % 2 ^ 32, numDbTxs % 2 ^ 32⟩
    let firstTxIdx := saturatingMul requestPageNum requestPageSize
    let numReturnedTxs := min requestPageSize (numDbTxs - firstTxIdx)
    if numReturnedTxs = 0 then return makeResult []
    else
      let dbPageNumStart := firstTxIdx / q.group.pageSize
      let firstInnerIdx := firstTxIdx % q.group.pageSize
      let pageTxs ← q.readPages skipTo 0 (q.readBlockTx includeSpentBy) memberSer requestPageSize
        (List.range' dbPageNumStart (numDbPages - dbPageNumStart)) firstInnerIdx []
      return makeResult pageTxs

def confirmedTxs (member : GroupMember M) (requestPageNum requestPageSize : Nat) :
    QueryResult TxHistoryPage :=
  q.confirmedTxsWith true member requestPageNum requestPageSize

def confirmedTxsNoSpentBy (member : GroupMember M) (requestPageNum requestPageSize : Nat) :
    QueryResult TxHistoryPage :=
  q.confirmedTxsWith false member requestPageNum requestPageSize

/-- The later block first, then the later time; transactions without a time come
first in their block. Mempool transactions have no key. -/
def sortKey (tx : HistoryTx) : Option (Int × Int) :=
  tx.block.map fun height =>
    (-height, if tx.timeFirstSeen = 0 then -2 ^ 63 else -tx.timeFirstSeen)

/-- The order of the keys, on transactions that have one. -/
def keyLe (a b : HistoryTx) : Bool :=
  match sortKey a, sortKey b with
  | some (h₁, t₁), some (h₂, t₂) => h₁ < h₂ || (h₁ = h₂ && t₁ ≤ t₂)
  | _, _ => true

/-- Sort the transactions from a position on, stably. -/
def sortFrom (start : Nat) (txs : List HistoryTx) : List HistoryTx :=
  txs.take start ++ (txs.drop start).mergeSort keyLe

def revHistory (member : GroupMember M) (requestPageNum requestPageSize : Nat) :
    QueryResult TxHistoryPage :=
  q.request member requestPageSize fun memberSer => do
    let (_, numDbTxs) := q.memberNumPagesAndTxs memberSer
    let requestTxOffset := saturatingMul requestPageNum requestPageSize
    let mempoolTxs := q.mempoolHistory.getD memberSer []
    let totalNumTxs := mempoolTxs.length + numDbTxs
    let totalNumPages := divCeil totalNumTxs requestPageSize
    let numPageMempoolTxs := min requestPageSize (mempoolTxs.length - requestTxOffset)
    let requestDbTxOffset := requestTxOffset - mempoolTxs.length
    let numDbTxsAvailable := numDbTxs - requestDbTxOffset
    let maxPageDbTxs := requestPageSize - numPageMempoolTxs
    let numPageDbTxs := min maxPageDbTxs numDbTxsAvailable
    -- the number of transactions must have been predicted
    let makeResult (txs : List HistoryTx) : QueryResult TxHistoryPage := do
      ensure (txs.length = numPageMempoolTxs + numPageDbTxs) .panic
      return ⟨txs, totalNumPages % 2 ^ 32, totalNumTxs % 2 ^ 32⟩
    let pageTxs ← ((mempoolTxs.reverse.drop requestTxOffset).take requestPageSize).mapM
      fun (_, txid) => q.readMempoolTx txid
    if numPageMempoolTxs = requestPageSize ∨ numPageDbTxs = 0 then makeResult pageTxs
    else
      let firstDbTxIdx := numDbTxsAvailable - 1
      let dbPageNumStart := firstDbTxIdx / q.group.pageSize
      let firstInnerIdx := firstDbTxIdx % q.group.pageSize
      let pageTxs ← q.readPages backFrom (q.group.pageSize - 1) (q.readBlockTx true) memberSer
        requestPageSize (List.range (dbPageNumStart + 1)).reverse firstInnerIdx pageTxs
      -- sorting mempool transactions is unreachable
      ensure (∀ tx ∈ pageTxs.drop numPageMempoolTxs, (sortKey tx).isSome) .panic
      makeResult (sortFrom numPageMempoolTxs pageTxs)

end QueryGroupHistory

end Query

end Ergon
