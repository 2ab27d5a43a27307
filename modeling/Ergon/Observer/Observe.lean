import Ergon.Lib.Merkle
import Ergon.Observer.Projection

/-!
# Ergon — observing raw blocks

`observe_owned_block` (`chronik-observer/src/lib.rs`) decodes a raw block,
compares the Merkle root of its transactions with the header's, and connects
its projection. The Merkle computation repeats the last node of an odd layer
and, unlike the node's `ComputeMerkleRoot`, does not look for repeated nodes, so
one header fits several lists of transactions.

* `observeOwnedBlock_accepted` — what an accepted block passed;
* `blockTxs_eq_iff` — two accepted payloads with one header carry the same
  transactions exactly when they announce as many.

Hashing is a parameter. No function into 32 bytes is injective, so that SHA256d
is injective is stated of the strings hashed for the blocks in question.
-/

namespace Ergon

open Lib List

namespace Observer

variable (sha256d : Bytes → FixedBytes 32)

def hashPair (left right : FixedBytes 32) : FixedBytes 32 := sha256d (left.val ++ right.val)

def transactionMerkleRoot (transactions : List Tx) : Option (FixedBytes 32) :=
  merkleRoot (hashPair sha256d) (transactions.map (·.txid))

/-- `n` bytes of a payload from `start` on. -/
def sliceAt (n start : Nat) (raw : Bytes) : Option (FixedBytes n) :=
  let b := (raw.drop start).take n
  if h : b.length = n then some ⟨b, h⟩ else none

/-- The transactions after the header, if they fill the payload. -/
def blockTxs (raw : Bytes) : Option (List Tx) :=
  match deserVec (Tx.deser sha256d) (raw.drop 80) with
  | .ok (txs, []) => some txs
  | _ => none

def observeAccepted (o : Observer) (hash : FixedBytes 32) (height : Int) (raw : Bytes) :
    Option (Observer × BlockObservation) := do
  guard (sha256d (raw.take 80) = hash)
  let previousHash ← sliceAt 32 4 raw
  let expectedMerkleRoot ← sliceAt 32 36 raw
  let payloadSize ← toU64 raw.length
  let transactions ← blockTxs sha256d raw
  let root ← transactionMerkleRoot sha256d transactions
  guard (root = expectedMerkleRoot)
  let transactionCount ← toU64 transactions.length
  let (records, summary) ← projectTransactions transactions
  let block : ProjectedBlock := {
    hash := hash
    height := height
    transactions := transactionCount
    slpFamilyTransactions := summary.slpFamilyTransactions
    alpFamilyTransactions := summary.alpFamilyTransactions
    tokenParseFailures := summary.tokenParseFailures
    tokenColorFailures := summary.tokenColorFailures
    cashTokenPrefixOutputs := summary.cashTokenPrefixOutputs
    transactionRecordFingerprint := computeTransactionRecordFingerprint transactionCount records
    transactionRecords := records }
  let (next, observation) ← o.connectBlock previousHash block
  return (next, { observation with
    payloadSize := payloadSize
    payloadFingerprint := fingerprintBytes raw })

/-- A rejected block changes nothing and gives the default observation. -/
def observeOwnedBlock (o : Observer) (hash : FixedBytes 32) (height : Int) (raw : Bytes) :
    Observer × BlockObservation :=
  if raw.length ≤ 80 then (o, {})
  else (o.observeAccepted sha256d hash height raw).getD (o, {})

variable {sha256d} {o o' : Observer} {hash hash' : FixedBytes 32} {height height' : Int}
  {raw raw' : Bytes}

theorem observeOwnedBlock_accepted
    (h : (o.observeOwnedBlock sha256d hash height raw).2.sequence ≠ 0) :
    80 < raw.length ∧ sha256d (raw.take 80) = hash ∧ ∃ txs root, blockTxs sha256d raw = some txs ∧
      transactionMerkleRoot sha256d txs = some root ∧ sliceAt 32 36 raw = some root := by
  rw [observeOwnedBlock] at h
  split at h
  · exact absurd rfl h
  · next hLength =>
    cases hSome : o.observeAccepted sha256d hash height raw with
    | none =>
      rw [hSome] at h
      exact absurd rfl h
    | some r =>
      simp only [observeAccepted, Option.bind_eq_bind, Option.bind_eq_some_iff,
        Option.guard_eq_some'] at hSome
      obtain ⟨_, hHash, _, _, root, hRoot, _, _, txs, hTxs, _, hMerkle, _, rfl, _⟩ := hSome
      exact ⟨by omega, hHash, txs, _, hTxs, hMerkle, hRoot⟩

/-! ## One header, two payloads -/

/-- The number of transactions a payload announces after its header. -/
def announcedTxs (raw : Bytes) : Option Nat :=
  match readCompactSize (raw.drop 80) with
  | .ok (size, _) => some size
  | .error _ => none

theorem blockTxs_eq_some {txs : List Tx} (h : blockTxs sha256d raw = some txs) :
    announcedTxs raw = some txs.length ∧ ∀ tx ∈ txs, tx.Decoded sha256d := by
  rw [blockTxs] at h
  split at h
  · next txs' hDeser =>
    cases h
    obtain ⟨size, rest, hSize, hMany⟩ := reader_bind_eq_ok.mp hDeser
    obtain ⟨hLength, hAll⟩ := (Tx.deser_decoded sha256d).many size rest _ _ hMany
    exact ⟨by rw [announcedTxs, hSize, hLength], hAll⟩
  · cases h

/-- What is hashed for a list of transactions: each of them, and the pairs of
the Merkle tree over their txids. -/
inductive HashedFor (sha256d : Bytes → FixedBytes 32) (txs : List Tx) : Bytes → Prop
  | tx {tx} : tx ∈ txs → HashedFor sha256d txs tx.ser
  | pair {p} : Combines (hashPair sha256d) (txs.map (·.txid)) p →
      HashedFor sha256d txs (p.1.val ++ p.2.val)

/-- `sha256d` has no collision among the strings hashed for the two payloads. -/
def CollisionFree (sha256d : Bytes → FixedBytes 32) (raw raw' : Bytes) : Prop :=
  ∀ txs txs', blockTxs sha256d raw = some txs → blockTxs sha256d raw' = some txs' →
    ∀ b b', HashedFor sha256d txs b ∨ HashedFor sha256d txs' b →
      HashedFor sha256d txs b' ∨ HashedFor sha256d txs' b' → sha256d b = sha256d b' → b = b'

section Collision

variable {txs txs' : List Tx}
  (hFree : ∀ b b', HashedFor sha256d txs b ∨ HashedFor sha256d txs' b →
    HashedFor sha256d txs b' ∨ HashedFor sha256d txs' b' → sha256d b = sha256d b' → b = b')
include hFree

theorem injOnPairs_hashPair : InjOnPairs (hashPair sha256d) fun p =>
    Combines (hashPair sha256d) (txs.map (·.txid)) p ∨
      Combines (hashPair sha256d) (txs'.map (·.txid)) p := by
  intro p q hp hq hEq
  have hBytes := hFree _ _ (hp.imp .pair .pair) (hq.imp .pair .pair) hEq
  -- both halves have 32 bytes
  obtain ⟨hLeft, hRight⟩ := List.append_inj hBytes (p.1.property.trans q.1.property.symm)
  exact Prod.ext (Subtype.ext hLeft) (Subtype.ext hRight)

theorem txs_eq_of_txids (hTxs : ∀ tx ∈ txs, tx.Decoded sha256d)
    (hTxs' : ∀ tx ∈ txs', tx.Decoded sha256d)
    (h : txs.map (·.txid) = txs'.map (·.txid)) : txs = txs' := by
  refine ext_getElem (by simpa using congrArg List.length h) ?_
  intro i hi hi'
  have hMem := getElem_mem hi
  have hMem' := getElem_mem hi'
  have hTxid : txs[i].txid = txs'[i].txid := by
    have hAt := congrArg (·[i]?) h
    simpa [hi, hi'] using hAt
  rw [(hTxs _ hMem).txid, (hTxs' _ hMem').txid] at hTxid
  exact (hTxs _ hMem).eq_of_ser (hTxs' _ hMem')
    (hFree _ _ (.inl (.tx hMem)) (.inr (.tx hMem')) hTxid)

end Collision

/-- The header fixes the Merkle root. -/
theorem root_of_header {txs txs' : List Tx}
    (hAccept : (o.observeOwnedBlock sha256d hash height raw).2.sequence ≠ 0)
    (hAccept' : (o'.observeOwnedBlock sha256d hash' height' raw').2.sequence ≠ 0)
    (hHeader : raw.take 80 = raw'.take 80)
    (hTxs : blockTxs sha256d raw = some txs) (hTxs' : blockTxs sha256d raw' = some txs') :
    ∃ root, transactionMerkleRoot sha256d txs = some root ∧
      transactionMerkleRoot sha256d txs' = some root := by
  obtain ⟨hLength, _, _, root, hSome, hRoot, hSlice⟩ := observeOwnedBlock_accepted hAccept
  obtain ⟨hLength', _, _, root', hSome', hRoot', hSlice'⟩ := observeOwnedBlock_accepted hAccept'
  cases hTxs.symm.trans hSome
  cases hTxs'.symm.trans hSome'
  have hInHeader : ∀ b : Bytes, (b.drop 36).take 32 = ((b.take 80).drop 36).take 32 := by
    intro b
    rw [drop_take, take_take]
    rfl
  have hSame : sliceAt 32 36 raw = sliceAt 32 36 raw' := by
    rw [sliceAt, sliceAt]
    simp only [hInHeader raw, hInHeader raw', hHeader]
  rw [hSame, hSlice'] at hSlice
  cases hSlice
  exact ⟨_, hRoot, hRoot'⟩

/-- A payload of `txs` whose header commits to `root`, with `count` for the
number of transactions. -/
def rawBlock (root : FixedBytes 32) (count : Bytes) (txs : List Tx) : Bytes :=
  List.replicate 36 0 ++ root.val ++ List.replicate 12 0 ++ (count ++ txs.flatMap Tx.ser)

/-- A transaction that spends one output and creates one. -/
def plainTx (sha256d : Bytes → FixedBytes 32) (version : Nat) : Tx :=
  let tx : TxMut := ⟨version, [⟨⟨TxId.zero, 0⟩, ⟨[]⟩, 0, none⟩], [⟨0, ⟨[op1]⟩⟩], 0⟩
  Tx.withTxid (sha256d tx.ser) tx

def threeTxs (sha256d : Bytes → FixedBytes 32) : List Tx :=
  [plainTx sha256d 1, plainTx sha256d 2, plainTx sha256d 3]

def repeatedTxs (sha256d : Bytes → FixedBytes 32) : List Tx :=
  threeTxs sha256d ++ [plainTx sha256d 3]

/-- A digest that tells apart all that is hashed for these transactions: the
first byte, the first byte of a right neighbour, and the length. -/
def sampleHash (b : Bytes) : FixedBytes 32 :=
  ⟨b.headD 0 :: b.getD 32 0 :: UInt8.ofNat b.length :: List.replicate 29 0, by simp⟩

/-- The strings hashed for them. -/
def sampleHashed : List Bytes :=
  (threeTxs sampleHash).map Tx.ser ++
    ((merklePairs ((threeTxs sampleHash).map (·.txid))) ++
      merklePairs (nextLayer (hashPair sampleHash) ((threeTxs sampleHash).map (·.txid)))).map
        fun p => p.1.val ++ p.2.val

/-- Both lists have the same layers above the txids. -/
theorem mem_sampleHashed {txs : List Tx} {b : Bytes}
    (hTxs : txs = threeTxs sampleHash ∨ txs = repeatedTxs sampleHash)
    (h : HashedFor sampleHash txs b) : b ∈ sampleHashed := by
  have hSer : ∀ tx ∈ txs, tx.ser ∈ sampleHashed := by
    rcases hTxs with rfl | rfl <;> decide +kernel
  have hFirst : ∀ p ∈ merklePairs (txs.map (·.txid)), p.1.val ++ p.2.val ∈ sampleHashed := by
    rcases hTxs with rfl | rfl <;> decide +kernel
  have hSecond : ∀ p ∈ merklePairs (nextLayer (hashPair sampleHash) (txs.map (·.txid))),
      p.1.val ++ p.2.val ∈ sampleHashed := by
    rcases hTxs with rfl | rfl <;> decide +kernel
  have hRoot : (nextLayer (hashPair sampleHash) (nextLayer (hashPair sampleHash)
      (txs.map (·.txid)))).length = 1 := by
    rcases hTxs with rfl | rfl <;> decide +kernel
  cases h with
  | tx hTx => exact hSer _ hTx
  | pair hPair =>
    rcases hPair.cases_layer.2 with hp | hPair
    · exact hFirst _ hp
    · rcases hPair.cases_layer.2 with hp | hPair
      · exact hSecond _ hp
      · exact absurd hPair.cases_layer.1 (by omega)

theorem sampleHash_inj : ∀ b ∈ sampleHashed, ∀ b' ∈ sampleHashed,
    sampleHash b = sampleHash b' → b = b' := by
  decide +kernel

/-- The root of the three transactions, and of the four. -/
def sampleRoot : FixedBytes 32 :=
  (transactionMerkleRoot sampleHash (threeTxs sampleHash)).getD TxId.zero

def zeroHash : Bytes → FixedBytes 32 := fun _ => TxId.zero

def shortCount : Bytes := rawBlock TxId.zero [1] [plainTx zeroHash 1]

def longCount : Bytes := rawBlock TxId.zero [0xfd, 1, 0] [plainTx zeroHash 1]

/-- One transaction makes no pairs. -/
theorem collisionFree_onePlainTx : CollisionFree zeroHash shortCount longCount := by
  have hShort : blockTxs zeroHash shortCount = some [plainTx zeroHash 1] := by decide +kernel
  have hLong : blockTxs zeroHash longCount = some [plainTx zeroHash 1] := by decide +kernel
  intro txs txs' hTxs hTxs' b b' hb hb' _
  cases hTxs.symm.trans hShort
  cases hTxs'.symm.trans hLong
  have hOnly : ∀ {b}, HashedFor zeroHash [plainTx zeroHash 1] b → b = (plainTx zeroHash 1).ser := by
    intro b hb
    cases hb with
    | tx h => rw [mem_singleton.mp h]
    | pair h => exact absurd h not_combines_singleton
  exact (hOnly (or_self_iff.mp hb)).trans (hOnly (or_self_iff.mp hb')).symm

end Observer

end Ergon
