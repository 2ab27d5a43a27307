import Ergon.Core.Ser
import Ergon.Slp.Color

/-!
# Ergon — the block projection of the observer

The volatile projection of `chronik-observer/src/lib.rs`: a record for each
transaction, a record for each retained block, and running totals over the
retained blocks. Counters are 64-bit in the source and every addition is
checked; allocations are taken to succeed.
-/

namespace Ergon

open Lib List Option

namespace Observer

def checkedAdd (a b : Nat) : Option Nat := if a + b < 2 ^ 64 then some (a + b) else none

def checkedSub (a b : Nat) : Option Nat := if b ≤ a then some (a - b) else none

/-- A length as a 64-bit number. -/
def toU64 (n : Nat) : Option Nat := if n < 2 ^ 64 then some n else none

def cashTokenPrefix : UInt8 := 0xef
def fnvOffsetBasis : UInt64 := 0xcbf29ce484222325
def fnvPrime : UInt64 := 0x100000001b3

def blockRecordFingerprintDomain : Bytes := "ergon-confirmed-transaction-records-v1".toUTF8.toList

def projectionRecordFingerprintDomain : Bytes :=
  "ergon-confirmed-transaction-projection-v1".toUTF8.toList

def updateFingerprint (fingerprint : UInt64) (bytes : Bytes) : UInt64 :=
  bytes.foldl (fun fp byte => (fp ^^^ byte.toUInt64) * fnvPrime) fingerprint

def fingerprintBytes (bytes : Bytes) : UInt64 := updateFingerprint fnvOffsetBasis bytes

/-- The bytes of a 32-bit signed number. -/
def i32Bytes (i : Int) : Bytes := littleEndian 4 (i % 2 ^ 32).toNat

/-! ## Records -/

structure ProjectedTransaction where
  txid : TxId
  index : Nat
  payloadSize : Nat
  payloadFingerprint : UInt64
  slpFamily : Nat
  alpFamily : Nat
  tokenParseFailures : Nat
  tokenColorFailures : Nat
  cashTokenPrefixOutputs : Nat
deriving DecidableEq

structure TokenSummary where
  slpFamilyTransactions : Nat := 0
  alpFamilyTransactions : Nat := 0
  tokenParseFailures : Nat := 0
  tokenColorFailures : Nat := 0
  cashTokenPrefixOutputs : Nat := 0
deriving DecidableEq

def TokenSummary.checkedAddRecord (s : TokenSummary) (r : ProjectedTransaction) :
    Option TokenSummary := do
  let slp ← checkedAdd s.slpFamilyTransactions r.slpFamily
  let alp ← checkedAdd s.alpFamilyTransactions r.alpFamily
  let parse ← checkedAdd s.tokenParseFailures r.tokenParseFailures
  let color ← checkedAdd s.tokenColorFailures r.tokenColorFailures
  let cash ← checkedAdd s.cashTokenPrefixOutputs r.cashTokenPrefixOutputs
  return ⟨slp, alp, parse, color, cash⟩

/-- The types of every section, burn and failed colouring. -/
def tokenTypes (c : ColoredTx) : List TokenType :=
  c.sections.map (·.tokenMeta.tokenType) ++ c.intentionalBurns.map (·.tokenMeta.tokenType) ++
    c.failedColorings.map (·.parsed.tokenMeta.tokenType)

/-- The record of the transaction at `index` of its block. -/
def projectTransaction (index : Nat) (tx : Tx) : Option ProjectedTransaction := do
  let types := ((colorTx tx).map tokenTypes).getD []
  let parseFailures ← toU64 (((colorTx tx).map (·.failedParsings.length)).getD 0)
  let colorFailures ← toU64 (((colorTx tx).map (·.failedColorings.length)).getD 0)
  let cash ← toU64 (tx.outputs.countP fun o => o.script.bytecode.head? = some cashTokenPrefix)
  let payload := tx.ser
  let index ← toU64 index
  let size ← toU64 payload.length
  return {
    txid := tx.txid
    index := index
    payloadSize := size
    payloadFingerprint := fingerprintBytes payload
    slpFamily := if types.any fun t => !t.isAlp then 1 else 0
    alpFamily := if types.any fun t => t.isAlp then 1 else 0
    tokenParseFailures := parseFailures
    tokenColorFailures := colorFailures
    cashTokenPrefixOutputs := cash }

def projectStep (s : List ProjectedTransaction × TokenSummary) (tx : Tx × Nat) :
    Option (List ProjectedTransaction × TokenSummary) := do
  let record ← projectTransaction tx.2 tx.1
  let summary ← s.2.checkedAddRecord record
  return (s.1 ++ [record], summary)

def projectTransactions (txs : List Tx) : Option (List ProjectedTransaction × TokenSummary) :=
  txs.zipIdx.foldlM projectStep ([], {})

def computeTransactionRecordFingerprint (transactions : Nat) (records : List ProjectedTransaction) :
    UInt64 :=
  let start := updateFingerprint (updateFingerprint fnvOffsetBasis blockRecordFingerprintDomain)
    (littleEndian 8 transactions)
  records.foldl (fun fp r =>
    [r.index, r.payloadSize, r.payloadFingerprint.toNat, r.slpFamily, r.alpFamily,
      r.tokenParseFailures, r.tokenColorFailures, r.cashTokenPrefixOutputs].foldl
      (fun fp field => updateFingerprint fp (littleEndian 8 field))
      (updateFingerprint fp r.txid.val)) start

structure ProjectedBlock where
  hash : FixedBytes 32
  height : Int
  transactions : Nat
  slpFamilyTransactions : Nat
  alpFamilyTransactions : Nat
  tokenParseFailures : Nat
  tokenColorFailures : Nat
  cashTokenPrefixOutputs : Nat
  transactionRecordFingerprint : UInt64
  transactionRecords : List ProjectedTransaction
deriving DecidableEq

namespace ProjectedBlock

def checkRecord (s : TokenSummary) (r : ProjectedTransaction × Nat) : Option TokenSummary := do
  let index ← toU64 r.2
  guard (¬ (r.1.index ≠ index ∨ r.1.payloadSize = 0 ∨ 1 < r.1.slpFamily ∨ 1 < r.1.alpFamily))
  s.checkedAddRecord r.1

/-- The sums over the records, if each stands at its index. -/
def checkRecords (records : List ProjectedTransaction) : Option TokenSummary :=
  records.zipIdx.foldlM checkRecord {}

def summary (b : ProjectedBlock) : TokenSummary :=
  ⟨b.slpFamilyTransactions, b.alpFamilyTransactions, b.tokenParseFailures, b.tokenColorFailures,
    b.cashTokenPrefixOutputs⟩

def recordsAreConsistent (b : ProjectedBlock) : Bool :=
  toU64 b.transactionRecords.length = some b.transactions ∧
    checkRecords b.transactionRecords = some b.summary ∧
    b.transactionRecordFingerprint =
      computeTransactionRecordFingerprint b.transactions b.transactionRecords

end ProjectedBlock

/-! ## Totals -/

structure ProjectionTotals where
  blocks : Nat := 0
  transactions : Nat := 0
  slpFamilyTransactions : Nat := 0
  alpFamilyTransactions : Nat := 0
  tokenParseFailures : Nat := 0
  tokenColorFailures : Nat := 0
  cashTokenPrefixOutputs : Nat := 0
deriving DecidableEq

/-- Add or subtract a consistent block, counter by counter. -/
def ProjectionTotals.checked (op : Nat → Nat → Option Nat) (t : ProjectionTotals)
    (block : ProjectedBlock) : Option ProjectionTotals := do
  guard block.recordsAreConsistent
  let blocks ← op t.blocks 1
  let transactions ← op t.transactions block.transactions
  let slp ← op t.slpFamilyTransactions block.slpFamilyTransactions
  let alp ← op t.alpFamilyTransactions block.alpFamilyTransactions
  let parse ← op t.tokenParseFailures block.tokenParseFailures
  let color ← op t.tokenColorFailures block.tokenColorFailures
  let cash ← op t.cashTokenPrefixOutputs block.cashTokenPrefixOutputs
  return ⟨blocks, transactions, slp, alp, parse, color, cash⟩

def ProjectionTotals.checkedAdd : ProjectionTotals → ProjectedBlock → Option ProjectionTotals :=
  checked Observer.checkedAdd

def ProjectionTotals.checkedSub : ProjectionTotals → ProjectedBlock → Option ProjectionTotals :=
  checked Observer.checkedSub

def projectionTransactionRecordFingerprint (blocks : List ProjectedBlock) : UInt64 :=
  let start := updateFingerprint (updateFingerprint fnvOffsetBasis projectionRecordFingerprintDomain)
    (littleEndian 8 ((toU64 blocks.length).getD (2 ^ 64 - 1)))
  blocks.foldl (fun fp b => updateFingerprint (updateFingerprint (updateFingerprint fp b.hash.val)
    (i32Bytes b.height)) (littleEndian 8 b.transactionRecordFingerprint.toNat)) start

/-! ## The observer -/

/-- Result of one observation. Sequence zero means rejection. -/
structure BlockObservation where
  sequence : Nat := 0
  fingerprint : UInt64 := 0
  payloadSize : Nat := 0
  payloadFingerprint : UInt64 := 0
  transactionCount : Nat := 0
  slpFamilyTransactions : Nat := 0
  alpFamilyTransactions : Nat := 0
  tokenParseFailures : Nat := 0
  tokenColorFailures : Nat := 0
  cashTokenPrefixOutputs : Nat := 0
  projection : ProjectionTotals := {}
  blockTransactionRecordFingerprint : UInt64 := 0
  projectionTransactionRecordFingerprint : UInt64 := 0
deriving DecidableEq

end Observer

/-- The retained blocks, oldest first, with the totals over them. -/
structure Observer where
  sequence : Nat
  blocks : List Observer.ProjectedBlock
  projection : Observer.ProjectionTotals
  maxBlocks : Nat
  isTruncated : Bool
  needsRebuild : Bool
deriving DecidableEq

namespace Observer

def connectedKind : UInt8 := 1

def new (maxBlocks : Nat) : Observer := ⟨0, [], {}, maxBlocks, false, false⟩

/-- The next sequence number; zero is skipped. -/
def nextSequence (sequence : Nat) : Nat :=
  if (sequence + 1) % 2 ^ 64 = 0 then 1 else (sequence + 1) % 2 ^ 64

def eventFingerprint (kind : UInt8) (hash : FixedBytes 32) (height : Int) : UInt64 :=
  fingerprintBytes (kind :: hash.val ++ i32Bytes height)

/-- The next height, if it is a 32-bit number. -/
def nextHeight (height : Int) : Option Int := if height + 1 < 2 ^ 31 then some (height + 1) else none

/-- Whether `block` continues the retained chain. -/
def extendsTip (o : Observer) (previousHash : FixedBytes 32) (block : ProjectedBlock) : Bool :=
  match o.blocks.getLast? with
  | none => true
  | some tip => tip.hash = previousHash ∧ nextHeight tip.height = some block.height

def connectBlock (o : Observer) (previousHash : FixedBytes 32) (block : ProjectedBlock) :
    Option (Observer × BlockObservation) := do
  guard (¬ (o.needsRebuild ∨ block.height < 0))
  guard (o.extendsTip previousHash block)
  let added ← o.projection.checkedAdd block
  -- a full projection drops its oldest block
  let evicted := o.blocks.length = o.maxBlocks
  let projection ← if evicted then o.blocks.head?.bind added.checkedSub else some added
  let blocks := (if evicted then o.blocks.tail else o.blocks) ++ [block]
  let sequence := nextSequence o.sequence
  let next : Observer := {
    o with
    sequence := sequence
    blocks := blocks
    projection := projection
    isTruncated :=
      if o.blocks = [] then decide (0 < block.height) else evicted || o.isTruncated }
  return (next, {
    sequence := sequence
    fingerprint := eventFingerprint connectedKind block.hash block.height
    transactionCount := block.transactions
    slpFamilyTransactions := block.slpFamilyTransactions
    alpFamilyTransactions := block.alpFamilyTransactions
    tokenParseFailures := block.tokenParseFailures
    tokenColorFailures := block.tokenColorFailures
    cashTokenPrefixOutputs := block.cashTokenPrefixOutputs
    projection := projection
    blockTransactionRecordFingerprint := block.transactionRecordFingerprint
    projectionTransactionRecordFingerprint := Observer.projectionTransactionRecordFingerprint blocks })

end Observer

end Ergon
