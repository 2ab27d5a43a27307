import Ergon.Lib.Lists
import Ergon.Node.CoinsCache
import Ergon.Archival.Capture
import Ergon.Archival.Replay

/-!
# Ergon — capturing the mempool

The mempool part of `reconcile_captured_and_anchor`
(`chronik-cpp/ergon_archival_probe.cpp`). Under the node's locks its entries are
scheduled parents first; an entry of an earlier capture is reused, of the others
the spent coins are taken from the parents in the mempool and from the coin cache
(`capturePool`). Coins that are not cached are only noted, and read later from a
snapshot of the database that was taken under the same locks (`fillReads`).

* `readEntry_eq_ok` — the three sources of the coins of an entry;
* `capturePool_eq` — the schedule visits the entries in the order of `captureOrder`;
* `capturePool_spec` — when it fails, and what it gives.
-/

namespace Ergon.Archival

open Lib List Option Column Std.ExtTreeMap

inductive CaptureError
  -- "Duplicate retained pool identity"
  | duplicateRetained
  -- "Invalid captured native entry"
  | invalidEntry
  -- "Captured source payload budget exceeded"
  | payloadBudget
  -- "Captured pool entry exceeds budget"
  | entryBudget
  -- "Missing captured pool parent output"
  | missingParentOutput
  -- "Missing actual captured native prevout"
  | missingPrevout
  -- "Captured dependency cycle"
  | dependencyCycle
  -- "Missing actual cold native prevout"
  | missingColdPrevout
  -- an index or a key that is not there
  | outOfRange
deriving DecidableEq

/-- An entry of the node's mempool. -/
structure TxMempoolInfo where
  tx : Tx
  nTime : Int

/-- An entry of an earlier capture. -/
structure PoolCaptureEntry where
  txid : TxId
  time : Int
  wireBytes : Nat
  chainGeneration : Nat

structure PoolRead where
  tx : Tx
  time : Int
  wireBytes : Nat
  -- the index of the earlier entry, if that is reused
  retainedIndex : Option Nat
  coins : List Coin
  cold : List Nat
deriving DecidableEq

/-- What the capture reads of the node: the coins, and the sizes of what is
serialized. The snapshot is of the database below the cache. -/
structure CaptureNode where
  generation : Nat
  tip : CoinsViewCache CoinsViewDB
  txSize : Tx → Nat
  coinSize : Coin → Nat

def charge (bytes amount : Nat) : Except CaptureError Nat :=
  if maxPayload - bytes < amount then .error .payloadBudget else .ok (bytes + amount)

/-! ## One entry -/

section Entry

variable (node : CaptureNode) (entries : Column TxId TxMempoolInfo)

/-- A spent coin is not a missing one. -/
def requireUnspent (coin : Coin) : Except CaptureError (Option Coin) :=
  if coin.isSpent then .error .missingPrevout else .ok (some coin)

/-- The coin of an input, or none if it is neither created in the mempool nor
cached. -/
def findCoin (input : TxInput) : Except CaptureError (Option Coin) :=
  match entries[input.prevOut.txid]? with
  | some parent =>
    match parent.tx.outputs[input.prevOut.outIdx]? with
    | none => .error .missingParentOutput
    | some output => requireUnspent ⟨output, Replay.mempoolHeight, false⟩
  | none =>
    match node.tip.copyCachedCoin input.prevOut with
    | none => .ok none
    | some coin => requireUnspent coin

def readInput (read : PoolRead) (p : TxInput × Nat) : Except CaptureError PoolRead := do
  match ← findCoin node entries p.1 with
  | none => return { read with cold := read.cold ++ [p.2] }
  | some coin =>
    let amount := node.coinSize coin
    ensure (amount ≤ maxPayload - read.wireBytes) .entryBudget
    return { read with wireBytes := read.wireBytes + amount, coins := read.coins.set p.2 coin }

def readEntry (entry : TxMempoolInfo) : Except CaptureError PoolRead := do
  let entryBytes := node.txSize entry.tx
  ensure (entryBytes ≤ maxPayload) .entryBudget
  let coins := List.replicate entry.tx.inputs.length Coin.empty
  entry.tx.inputs.zipIdx.foldlM (readInput node entries)
    ⟨entry.tx, entry.nTime, entryBytes, none, coins, []⟩

end Entry

/-- The positions at which no coin was found. -/
def coldPositions (found : List (Option Coin)) (k : Nat) : List Nat :=
  (found.zipIdx k).filterMap fun (coin, i) => if coin.isNone then some i else none

theorem mem_coldPositions {found : List (Option Coin)} {i : Nat} :
    i ∈ coldPositions found 0 ↔ found[i]? = some none := by
  unfold coldPositions
  rw [mem_filterMap]
  constructor
  · rintro ⟨⟨coin, j⟩, hMem, hEq⟩
    rw [mem_zipIdx_iff_getElem?] at hMem
    cases coin with
    | none =>
      cases hEq
      exact hMem
    | some coin => cases hEq
  · intro h
    exact ⟨(none, i), mem_zipIdx_iff_getElem?.mpr h, rfl⟩

theorem nodup_coldPositions (found : List (Option Coin)) (k : Nat) :
    (coldPositions found k).Nodup := by
  have hIndices : ((found.zipIdx k).map Prod.snd).Nodup := by
    rw [zipIdx_map_snd]
    exact nodup_range'
  refine List.Nodup.of_map id (List.Nodup.sublist ?_ hIndices)
  rw [List.map_id]
  unfold coldPositions
  generalize found.zipIdx k = l
  induction l with
  | nil => exact .slnil
  | cons p l ih =>
    obtain ⟨coin, i⟩ := p
    cases coin with
    | none => exact ih.cons_cons i
    | some coin => exact ih.cons i

theorem readInput_eq_ok {node : CaptureNode} {entries : Column TxId TxMempoolInfo}
    {read read' : PoolRead} {input : TxInput} {k : Nat}
    (h : readInput node entries read (input, k) = .ok read') :
    ∃ coin, findCoin node entries input = .ok coin ∧ read'.tx = read.tx ∧ read'.time = read.time ∧
      read'.retainedIndex = read.retainedIndex ∧
      read'.coins = coin.elim read.coins (read.coins.set k) ∧
      read'.cold = read.cold ++ coldPositions [coin] k := by
  obtain ⟨coin, hCoin, h⟩ := bind_eq_ok.mp h
  refine ⟨coin, hCoin, ?_⟩
  cases coin with
  | none =>
    cases h
    exact ⟨rfl, rfl, rfl, rfl, rfl⟩
  | some coin =>
    obtain ⟨-, -, h⟩ := bind_eq_ok.mp h
    cases h
    exact ⟨rfl, rfl, rfl, rfl, (append_nil _).symm⟩

/-- Reading the inputs one after the other puts each coin at its position. -/
theorem foldlM_readInput {node : CaptureNode} {entries : Column TxId TxMempoolInfo}
    {inputs : List TxInput} {read read' : PoolRead} {done : List Coin}
    (hCoins : read.coins = done ++ List.replicate inputs.length Coin.empty)
    (h : (inputs.zipIdx done.length).foldlM (readInput node entries) read = .ok read') :
    ∃ found, inputs.mapM (findCoin node entries) = .ok found ∧ read'.tx = read.tx ∧
      read'.time = read.time ∧ read'.retainedIndex = read.retainedIndex ∧
      read'.coins = done ++ found.map (·.getD Coin.empty) ∧
      read'.cold = read.cold ++ coldPositions found done.length := by
  induction inputs generalizing read done with
  | nil =>
    cases h
    exact ⟨[], rfl, rfl, rfl, rfl, hCoins, (append_nil _).symm⟩
  | cons input inputs ih =>
    rw [zipIdx_cons, foldlM_cons] at h
    obtain ⟨mid, hFirst, hRest⟩ := bind_eq_ok.mp h
    obtain ⟨coin, hCoin, hTx, hTime, hIndex, hMid, hCold⟩ := readInput_eq_ok hFirst
    -- the position is still empty
    have hMid' : mid.coins =
        (done ++ [coin.getD Coin.empty]) ++ List.replicate inputs.length Coin.empty := by
      rw [hMid, hCoins, length_cons, replicate_succ, append_assoc]
      cases coin with
      | none => rfl
      | some coin =>
        show (done ++ Coin.empty :: _).set done.length coin = _
        rw [set_append_right _ _ le_rfl, Nat.sub_self]
        rfl
    have hLength : (done ++ [coin.getD Coin.empty]).length = done.length + 1 := by
      rw [length_append, length_singleton]
    rw [← hLength] at hRest
    obtain ⟨found, hFound, hTx', hTime', hIndex', hCoins', hCold'⟩ := ih hMid' hRest
    refine ⟨coin :: found, ?_, hTx'.trans hTx, hTime'.trans hTime, hIndex'.trans hIndex, ?_, ?_⟩
    · rw [mapM_cons, hCoin, hFound]
      rfl
    · rw [hCoins', map_cons, append_assoc]
      rfl
    · rw [hCold', hCold, append_assoc, hLength]
      congr 1
      unfold coldPositions
      rw [zipIdx_cons, ← filterMap_append]
      rfl

variable {entry : TxMempoolInfo}

/-- **The coins of an entry**: what is found for each input, at its position. -/
theorem readEntry_eq_ok {node : CaptureNode} {entries : Column TxId TxMempoolInfo} {read : PoolRead}
    (h : readEntry node entries entry = .ok read) :
    ∃ found, entry.tx.inputs.mapM (findCoin node entries) = .ok found ∧ read.tx = entry.tx ∧
      read.time = entry.nTime ∧ read.retainedIndex = none ∧
      read.coins = found.map (·.getD Coin.empty) ∧ read.cold = coldPositions found 0 := by
  obtain ⟨-, -, h⟩ := bind_eq_ok.mp h
  exact @foldlM_readInput node entries _ _ read [] rfl h

variable {e : CaptureError}

/-- If all coins can be found, only the budget can be exceeded. -/
theorem readEntry_eq_error {node : CaptureNode} {entries : Column TxId TxMempoolInfo}
    (h : readEntry node entries entry = .error e)
    (hFound : ∀ input ∈ entry.tx.inputs, ∃ coin, findCoin node entries input = .ok coin) :
    e = .entryBudget := by
  rcases bind_eq_error.mp h with hSize | ⟨-, -, h⟩
  · exact ensure_eq_error hSize
  · obtain ⟨⟨input, k⟩, hMem, read, hFail⟩ := exists_of_foldlM_eq_error h
    obtain ⟨coin, hCoin⟩ := hFound input (fst_mem_of_mem_zipIdx hMem)
    rcases bind_eq_error.mp hFail with hFind | ⟨coin', hFind, hFail⟩
    · rw [hCoin] at hFind
      cases hFind
    · cases coin' with
      | none => cases hFail
      | some coin => exact ensure_eq_error (eq_error_of_bind_pure hFail)

/-! ## The schedule -/

/-- The index of the earlier entry that is reused for one of the mempool. -/
def reusedIndex (node : CaptureNode) (pool : List PoolCaptureEntry) (cached : Column TxId Nat)
    (entry : TxMempoolInfo) : Option (Nat × PoolCaptureEntry) := do
  let found ← cached[entry.tx.txid]?
  let old ← pool[found]?
  if old.chainGeneration = node.generation ∧ old.time = entry.nTime then some (found, old)
  else none

def visitEntry (node : CaptureNode) (entries : Column TxId TxMempoolInfo)
    (pool : List PoolCaptureEntry) (cached : Column TxId Nat) (acc : List PoolRead × Nat)
    (id : TxId) : Except CaptureError (List PoolRead × Nat) := do
  let entry ← orElse entries[id]? .outOfRange
  match reusedIndex node pool cached entry with
  | some (found, old) =>
    let bytes ← charge acc.2 old.wireBytes
    return (acc.1 ++ [⟨entry.tx, entry.nTime, old.wireBytes, some found, [], []⟩], bytes)
  | none =>
    let read ← readEntry node entries entry
    let bytes ← charge acc.2 read.wireBytes
    return (acc.1 ++ [read], bytes)

/-- Everything that is done under the node's locks; `common` has the sizes of the
retained blocks that are kept. -/
def capturePool (node : CaptureNode) (infos : List TxMempoolInfo) (pool : List PoolCaptureEntry)
    (common : List Nat) : Except CaptureError (List PoolRead × Nat) := do
  let cached ← orElse (Column.emplaceAll (pool.zipIdx.map fun (old, i) => (old.txid, i)))
    .duplicateRetained
  let bytes ← common.foldlM charge 0
  let entries ← orElse (Column.emplaceAll (infos.map fun entry => (entry.tx.txid, entry)))
    .invalidEntry
  let parents := poolParents (entries.map fun _ entry => entry.tx)
  let (s, reads, bytes) ← Kahn.visitAll entries.keys parents (visitEntry node entries pool cached)
    entries.keys.length (Kahn.init entries.keys parents) ([], bytes)
  ensure (s.order.length = entries.keys.length) .dependencyCycle
  return (reads, bytes)

/-! ## The entries by their txids -/

section Entries

variable {node : CaptureNode} {infos : List TxMempoolInfo} {pool : List PoolCaptureEntry}

def entriesOf (infos : List TxMempoolInfo) : Column TxId TxMempoolInfo :=
  (∅ : Column TxId TxMempoolInfo).putAll (infos.map fun entry => (entry.tx.txid, entry))

def cachedOf (pool : List PoolCaptureEntry) : Column TxId Nat :=
  (∅ : Column TxId Nat).putAll (pool.zipIdx.map fun (old, i) => (old.txid, i))

def txsOf (infos : List TxMempoolInfo) : Column TxId Tx :=
  (entriesOf infos).map fun _ entry => entry.tx

/-- An entry of the mempool has this txid. -/
def InPool (infos : List TxMempoolInfo) (id : TxId) : Prop := ∃ entry ∈ infos, entry.tx.txid = id

/-- An entry of the mempool spends an output of another. -/
def SpendsFrom (infos : List TxMempoolInfo) (parent child : TxId) : Prop :=
  InPool infos parent ∧ ∃ entry ∈ infos, entry.tx.txid = child ∧
    ∃ input ∈ entry.tx.inputs, input.prevOut.txid = parent

def HasCycle (infos : List TxMempoolInfo) : Prop :=
  ∃ id, Relation.TransGen (SpendsFrom infos) id id

/-- An earlier entry can be used for one of the mempool. -/
def PoolCaptureEntry.Serves (old : PoolCaptureEntry) (node : CaptureNode) (entry : TxMempoolInfo) :
    Prop :=
  old.txid = entry.tx.txid ∧ old.chainGeneration = node.generation ∧ old.time = entry.nTime

/-- Some earlier entry is used for one of the mempool. -/
def Reused (node : CaptureNode) (pool : List PoolCaptureEntry) (entry : TxMempoolInfo) : Prop :=
  ∃ old ∈ pool, old.Serves node entry

theorem map_fst_zipIdx_txid (pool : List PoolCaptureEntry) :
    ((pool.zipIdx.map fun (old, i) => (old.txid, i)).map Prod.fst) =
      pool.map fun old => old.txid := by
  rw [List.map_map]
  exact (List.map_map (f := Prod.fst) (g := fun old => old.txid) (l := pool.zipIdx)).symm.trans
    (congrArg _ (zipIdx_map_fst 0 pool))

section

variable (hPool : (pool.map fun old => old.txid).Nodup)
include hPool

theorem reusedIndex_eq_some {i : Nat} {old : PoolCaptureEntry} :
    reusedIndex node pool (cachedOf pool) entry = some (i, old) ↔
      pool[i]? = some old ∧ old.Serves node entry := by
  have hKeys : ((pool.zipIdx.map fun (old, i) => (old.txid, i)).map Prod.fst).Nodup := by
    rw [map_fst_zipIdx_txid]
    exact hPool
  have hCached : ∀ {id : TxId} {i : Nat}, (cachedOf pool)[id]? = some i ↔
      ∃ old, pool[i]? = some old ∧ old.txid = id := by
    intro id i
    rw [cachedOf, getElem?_putAll_empty hKeys, List.mem_map]
    constructor
    · rintro ⟨⟨old, j⟩, hMem, hEq⟩
      cases hEq
      exact ⟨old, mem_zipIdx_iff_getElem?.mp hMem, rfl⟩
    · rintro ⟨old, hOld, rfl⟩
      exact ⟨(old, i), mem_zipIdx_iff_getElem?.mpr hOld, rfl⟩
  unfold reusedIndex
  constructor
  · intro h
    obtain ⟨found, hFound, h⟩ := bind_eq_some_iff.mp h
    obtain ⟨old', hOld', h⟩ := bind_eq_some_iff.mp h
    split at h
    · next hBoth =>
      cases h
      obtain ⟨old'', hOld'', hTxid⟩ := hCached.mp hFound
      cases hOld'.symm.trans hOld''
      exact ⟨hOld', hTxid, hBoth⟩
    · cases h
  · rintro ⟨hOld, hTxid, hBoth⟩
    refine bind_eq_some_iff.mpr ⟨i, hCached.mpr ⟨old, hOld, hTxid⟩, ?_⟩
    refine bind_eq_some_iff.mpr ⟨old, hOld, ?_⟩
    rw [if_pos hBoth]

theorem reusedIndex_eq_none :
    reusedIndex node pool (cachedOf pool) entry = none ↔ ¬ Reused node pool entry := by
  constructor
  · rintro hNone ⟨old, hOld, hServes⟩
    obtain ⟨i, hi⟩ := mem_iff_getElem?.mp hOld
    rw [(reusedIndex_eq_some hPool).mpr ⟨hi, hServes⟩] at hNone
    cases hNone
  · intro hNot
    cases hIndex : reusedIndex node pool (cachedOf pool) entry with
    | none => rfl
    | some p =>
      obtain ⟨hi, hServes⟩ := (reusedIndex_eq_some hPool).mp hIndex
      exact absurd ⟨p.2, mem_of_getElem? hi, hServes⟩ hNot

end

theorem keys_txsOf (infos : List TxMempoolInfo) : (txsOf infos).keys = (entriesOf infos).keys :=
  keys_map

variable (hInfos : (infos.map fun entry => entry.tx.txid).Nodup)
include hInfos

variable {id : TxId}

theorem getElem?_entriesOf :
    (entriesOf infos)[id]? = some entry ↔ entry ∈ infos ∧ entry.tx.txid = id := by
  have hKeys : ((infos.map fun entry => (entry.tx.txid, entry)).map Prod.fst).Nodup := by
    rw [List.map_map]
    exact hInfos
  rw [entriesOf, getElem?_putAll_empty hKeys, List.mem_map]
  constructor
  · rintro ⟨entry', hMem, hEq⟩
    cases hEq
    exact ⟨hMem, rfl⟩
  · rintro ⟨hMem, rfl⟩
    exact ⟨entry, hMem, rfl⟩

theorem mem_keys_entriesOf : id ∈ (entriesOf infos).keys ↔ InPool infos id := by
  rw [Std.ExtTreeMap.mem_keys, mem_iff_isSome_getElem?, isSome_iff_exists]
  exact exists_congr fun entry => getElem?_entriesOf hInfos

theorem getElem?_entriesOf_eq_none : (entriesOf infos)[id]? = none ↔ ¬ InPool infos id := by
  rw [← mem_keys_entriesOf hInfos, Std.ExtTreeMap.mem_keys, mem_iff_isSome_getElem?,
    Bool.not_eq_true, isSome_eq_false_iff, isNone_iff_eq_none]

variable {parent child : TxId}

theorem mem_poolParents :
    parent ∈ poolParents (txsOf infos) child ↔ SpendsFrom infos parent child := by
  have hIn : ∀ {id : TxId}, id ∈ txsOf infos ↔ InPool infos id := by
    intro id
    rw [txsOf, Std.ExtTreeMap.mem_map, ← mem_keys_entriesOf hInfos, Std.ExtTreeMap.mem_keys]
  have hGet : (txsOf infos)[child]? = (entriesOf infos)[child]?.map fun entry => entry.tx :=
    Std.ExtTreeMap.getElem?_map
  unfold poolParents
  rw [hGet]
  cases hEntry : (entriesOf infos)[child]? with
  | none =>
    refine iff_of_false not_mem_nil ?_
    rintro ⟨-, entry, hMem, hTxid, -⟩
    exact (getElem?_entriesOf_eq_none hInfos).mp hEntry ⟨entry, hMem, hTxid⟩
  | some entry =>
    obtain ⟨hMem, hTxid⟩ := (getElem?_entriesOf hInfos).mp hEntry
    rw [map_some]
    dsimp only
    rw [List.mem_filter, mem_sortedSet, List.mem_map, decide_eq_true_eq, hIn, and_comm]
    refine and_congr_right fun _ => ⟨?_, ?_⟩
    · rintro ⟨input, hInput, hPrev⟩
      exact ⟨entry, hMem, hTxid, input, hInput, hPrev⟩
    · rintro ⟨entry', hMem', hTxid', input, hInput, hPrev⟩
      cases inj_on_of_nodup_map hInfos hMem hMem' (hTxid.trans hTxid'.symm)
      exact ⟨input, hInput, hPrev⟩

theorem mem_keys_of_mem_poolParents (h : parent ∈ poolParents (txsOf infos) child) :
    parent ∈ (txsOf infos).keys := by
  rw [keys_txsOf, mem_keys_entriesOf hInfos]
  exact ((mem_poolParents hInfos).mp h).1

theorem edge_iff :
    Graph.Edge ((txsOf infos).keys.map fun id => (id, poolParents (txsOf infos) id)) parent child ↔
      SpendsFrom infos parent child := by
  constructor
  · rintro ⟨-, e, he, rfl, hp⟩
    obtain ⟨id, -, rfl⟩ := List.mem_map.mp he
    exact (mem_poolParents hInfos).mp hp
  · intro hSpends
    have hp := (mem_poolParents hInfos).mpr hSpends
    refine ⟨?_, _, List.mem_map_of_mem ?_, rfl, hp⟩
    · rw [List.map_map]
      exact List.mem_map.mpr ⟨parent, mem_keys_of_mem_poolParents hInfos hp, rfl⟩
    · obtain ⟨-, entry, hMem, hTxid, -⟩ := hSpends
      rw [keys_txsOf, mem_keys_entriesOf hInfos]
      exact ⟨entry, hMem, hTxid⟩

/-- **The order fails exactly on a cycle.** -/
theorem captureOrder_eq_none_iff :
    captureOrder (txsOf infos) = none ↔ HasCycle infos := by
  rw [captureOrder, Kahn.kahn_eq_none_iff Std.ExtTreeMap.nodup_keys (nodup_poolParents _)
    fun id _ p hp => mem_keys_of_mem_poolParents hInfos hp]
  have hEdge : Graph.Edge ((txsOf infos).keys.map fun id => (id, poolParents (txsOf infos) id)) =
      SpendsFrom infos :=
    funext fun parent => funext fun child => propext (edge_iff hInfos)
  unfold Graph.Precedes
  rw [hEdge]
  rfl

end Entries

/-! ## The whole schedule -/

section Schedule

variable {node : CaptureNode} {infos : List TxMempoolInfo} {pool : List PoolCaptureEntry}
  {common : List Nat}

/-- The txids in the order in which they are emitted. -/
def emitted (infos : List TxMempoolInfo) : List TxId :=
  (Kahn.run (txsOf infos).keys (poolParents (txsOf infos)) (txsOf infos).keys.length
    (Kahn.init (txsOf infos).keys (poolParents (txsOf infos)))).order

theorem captureOrder_eq (infos : List TxMempoolInfo) : captureOrder (txsOf infos) =
    if (emitted infos).length = (txsOf infos).keys.length then some (emitted infos) else none :=
  rfl

/-- The schedule visits the entries in that order. -/
theorem capturePool_eq (hInfos : (infos.map fun entry => entry.tx.txid).Nodup)
    (hPool : (pool.map fun old => old.txid).Nodup) :
    capturePool node infos pool common = do
      let bytes ← common.foldlM charge 0
      let acc ← (emitted infos).foldlM (visitEntry node (entriesOf infos) pool (cachedOf pool))
        ([], bytes)
      ensure ((emitted infos).length = (txsOf infos).keys.length) .dependencyCycle
      return acc := by
  have hCached : Column.emplaceAll (pool.zipIdx.map fun (old, i) => (old.txid, i)) =
      some (cachedOf pool) := by
    refine emplaceAll_of_nodup ?_
    rw [map_fst_zipIdx_txid]
    exact hPool
  have hEntries : Column.emplaceAll (infos.map fun entry => (entry.tx.txid, entry)) =
      some (entriesOf infos) := by
    refine emplaceAll_of_nodup ?_
    rw [List.map_map]
    exact hInfos
  unfold capturePool
  rw [hCached, hEntries]
  show (common.foldlM charge 0 >>= fun bytes => _) = _
  congr 1
  funext bytes
  show (Kahn.visitAll (entriesOf infos).keys (poolParents (txsOf infos)) _ _
    (Kahn.init _ (poolParents (txsOf infos))) _ >>= _) = _
  rw [← keys_txsOf, Kahn.visitAll_eq]
  show (Except.map _ ((emitted infos).foldlM _ _) >>= _) = _
  cases (emitted infos).foldlM (visitEntry node (entriesOf infos) pool (cachedOf pool))
      ([], bytes) with
  | error e => rfl
  | ok acc => rfl

/-- What is done with an entry. -/
def Visits (node : CaptureNode) (infos : List TxMempoolInfo) (pool : List PoolCaptureEntry)
    (entry : TxMempoolInfo) (read : PoolRead) : Prop :=
  (∃ i old, pool[i]? = some old ∧ old.Serves node entry ∧
    read = ⟨entry.tx, entry.nTime, old.wireBytes, some i, [], []⟩) ∨
  (¬ Reused node pool entry ∧ readEntry node (entriesOf infos) entry = .ok read)

variable {acc acc' : List PoolRead × Nat}

theorem visitEntry_eq_ok (hPool : (pool.map fun old => old.txid).Nodup) {id : TxId}
    (h : visitEntry node (entriesOf infos) pool (cachedOf pool) acc id = .ok acc') :
    ∃ entry read, (entriesOf infos)[id]? = some entry ∧ acc'.1 = acc.1 ++ [read] ∧
      Visits node infos pool entry read := by
  obtain ⟨entry, hEntry, h⟩ := bind_eq_ok.mp h
  replace hEntry := orElse_eq_ok.mp hEntry
  split at h
  · next i old hReused =>
    obtain ⟨bytes, -, h⟩ := bind_eq_ok.mp h
    cases h
    obtain ⟨hOld, hServes⟩ := (reusedIndex_eq_some hPool).mp hReused
    exact ⟨entry, _, hEntry, rfl, .inl ⟨i, old, hOld, hServes, rfl⟩⟩
  · next hFresh =>
    obtain ⟨read, hRead, h⟩ := bind_eq_ok.mp h
    obtain ⟨bytes, -, h⟩ := bind_eq_ok.mp h
    cases h
    exact ⟨entry, read, hEntry, rfl, .inr ⟨(reusedIndex_eq_none hPool).mp hFresh, hRead⟩⟩

theorem charge_eq_error {bytes amount : Nat} (h : charge bytes amount = .error e) :
    e = .payloadBudget := by
  unfold charge at h
  split at h
  · exact (Except.error.inj h).symm
  · cases h

theorem visitEntry_eq_error (hPool : (pool.map fun old => old.txid).Nodup)
    {acc : List PoolRead × Nat} {id : TxId}
    (h : visitEntry node (entriesOf infos) pool (cachedOf pool) acc id = .error e) :
    (entriesOf infos)[id]? = none ∨ e = .payloadBudget ∨ ∃ entry,
      (entriesOf infos)[id]? = some entry ∧ ¬ Reused node pool entry ∧
        readEntry node (entriesOf infos) entry = .error e := by
  rcases bind_eq_error.mp h with hMissing | ⟨entry, hEntry, h⟩
  · exact .inl (orElse_eq_error hMissing).1
  · right
    split at h
    · exact .inl (charge_eq_error (eq_error_of_bind_pure h))
    · next hFresh =>
      rcases bind_eq_error.mp h with hRead | ⟨_, -, h⟩
      · exact .inr ⟨entry, orElse_eq_ok.mp hEntry, (reusedIndex_eq_none hPool).mp hFresh, hRead⟩
      · exact .inl (charge_eq_error (eq_error_of_bind_pure h))

theorem foldlM_visitEntry (hPool : (pool.map fun old => old.txid).Nodup) {ids : List TxId}
    (h : ids.foldlM (visitEntry node (entriesOf infos) pool (cachedOf pool)) acc = .ok acc') :
    ∃ reads, acc'.1 = acc.1 ++ reads ∧ List.Forall₂ (fun id read => ∃ entry,
      (entriesOf infos)[id]? = some entry ∧ Visits node infos pool entry read) ids reads := by
  induction ids generalizing acc with
  | nil =>
    cases h
    exact ⟨[], (append_nil _).symm, .nil⟩
  | cons id ids ih =>
    rw [foldlM_cons] at h
    obtain ⟨mid, hFirst, hRest⟩ := bind_eq_ok.mp h
    obtain ⟨entry, read, hEntry, hMid, hVisits⟩ := visitEntry_eq_ok hPool hFirst
    obtain ⟨reads, hReads, hAll⟩ := ih hRest
    refine ⟨read :: reads, ?_, .cons ⟨entry, hEntry, hVisits⟩ hAll⟩
    rw [hReads, hMid, append_assoc]
    rfl

/-! ### What the schedule gives -/

/-- The coin of an input of an entry that is not reused: of the parent in the
mempool, or cached, or noted once as missing. -/
def CoinFound (node : CaptureNode) (infos : List TxMempoolInfo) (read : PoolRead) (i : Nat)
    (input : TxInput) : Prop :=
  (∃ parent ∈ infos, parent.tx.txid = input.prevOut.txid ∧
    ∃ output, parent.tx.outputs[input.prevOut.outIdx]? = some output ∧
      read.coins[i]? = some ⟨output, Replay.mempoolHeight, false⟩ ∧ read.cold.count i = 0) ∨
  (¬ InPool infos input.prevOut.txid ∧ ∃ coin, node.tip.copyCachedCoin input.prevOut = some coin ∧
    coin.isSpent = false ∧ read.coins[i]? = some coin ∧ read.cold.count i = 0) ∨
  (¬ InPool infos input.prevOut.txid ∧ node.tip.copyCachedCoin input.prevOut = none ∧
    read.cold.count i = 1)

/-- The read of an entry. -/
structure ReadOf (node : CaptureNode) (infos : List TxMempoolInfo) (pool : List PoolCaptureEntry)
    (entry : TxMempoolInfo) (read : PoolRead) : Prop where
  tx : read.tx = entry.tx
  time : read.time = entry.nTime
  reused : ∀ i, read.retainedIndex = some i → ∃ old, pool[i]? = some old ∧ old.Serves node entry
  fresh : read.retainedIndex = none → ¬ Reused node pool entry ∧
    read.coins.length = entry.tx.inputs.length ∧ (∀ i ∈ read.cold, i < entry.tx.inputs.length) ∧
    ∀ i input, entry.tx.inputs[i]? = some input → CoinFound node infos read i input

theorem requireUnspent_eq_ok {coin : Coin} {found : Option Coin}
    (h : requireUnspent coin = .ok found) : coin.isSpent = false ∧ found = some coin := by
  unfold requireUnspent at h
  split at h
  · cases h
  · next hUnspent => exact ⟨Bool.eq_false_iff.mpr hUnspent, (Except.ok.inj h).symm⟩

theorem Visits.readOf (hInfos : (infos.map fun entry => entry.tx.txid).Nodup) {read : PoolRead}
    (h : Visits node infos pool entry read) : ReadOf node infos pool entry read := by
  rcases h with ⟨i, old, hOld, hServes, rfl⟩ | ⟨hFresh, hRead⟩
  · refine ⟨rfl, rfl, fun j hj => ?_, nofun⟩
    cases hj
    exact ⟨old, hOld, hServes⟩
  · obtain ⟨found, hFound, hTx, hTime, hIndex, hCoins, hCold⟩ := readEntry_eq_ok hRead
    refine ⟨hTx, hTime, fun j hj => ?_, fun _ => ⟨hFresh, ?_, ?_, ?_⟩⟩
    · rw [hIndex] at hj
      cases hj
    · rw [hCoins, length_map]
      exact (mapM_eq_ok.mp hFound).length_eq.symm
    · intro i hi
      rw [hCold] at hi
      have hLt := (List.getElem?_eq_some_iff.mp (mem_coldPositions.mp hi)).1
      rwa [← (mapM_eq_ok.mp hFound).length_eq] at hLt
    · intro i input hInput
      obtain ⟨coin, hCoin, hGet⟩ := Forall₂.exists_getElem? (mapM_eq_ok.mp hFound) hInput
      -- how often the position is noted
      have hCount : read.cold.count i = if found[i]? = some none then 1 else 0 := by
        rw [hCold, (nodup_coldPositions found 0).count]
        exact if_congr mem_coldPositions rfl rfl
      have hAt : read.coins[i]? = some (coin.getD Coin.empty) := by
        rw [hCoins, getElem?_map, hCoin]
        rfl
      unfold findCoin at hGet
      split at hGet
      · next parent hParent =>
        obtain ⟨hMem, hTxid⟩ := (getElem?_entriesOf hInfos).mp hParent
        split at hGet
        · cases hGet
        · next output hOutput =>
          obtain ⟨-, rfl⟩ := requireUnspent_eq_ok hGet
          refine .inl ⟨parent, hMem, hTxid, output, hOutput, hAt, ?_⟩
          rw [hCount, hCoin]
          exact if_neg (by simp)
      · next hChain =>
        replace hChain := (getElem?_entriesOf_eq_none hInfos).mp hChain
        split at hGet
        · next hMiss =>
          cases hGet
          refine .inr (.inr ⟨hChain, hMiss, ?_⟩)
          rw [hCount, hCoin, if_pos rfl]
        · next cachedCoin hCached =>
          obtain ⟨hUnspent, rfl⟩ := requireUnspent_eq_ok hGet
          refine .inr (.inl ⟨hChain, cachedCoin, hCached, hUnspent, hAt, ?_⟩)
          rw [hCount, hCoin]
          exact if_neg (by simp)

/-- Every output of the mempool that is spent by an entry to be read exists. -/
def OutputsExist (node : CaptureNode) (infos : List TxMempoolInfo) (pool : List PoolCaptureEntry) :
    Prop :=
  ∀ entry ∈ infos, ¬ Reused node pool entry → ∀ input ∈ entry.tx.inputs, ∀ parent ∈ infos,
    parent.tx.txid = input.prevOut.txid →
      ∃ output, parent.tx.outputs[input.prevOut.outIdx]? = some output ∧ output.sats ≠ -1

/-- No cached coin that is needed for an entry to be read is spent. -/
def CachedUnspent (node : CaptureNode) (infos : List TxMempoolInfo)
    (pool : List PoolCaptureEntry) : Prop :=
  ∀ entry ∈ infos, ¬ Reused node pool entry → ∀ input ∈ entry.tx.inputs,
    ¬ InPool infos input.prevOut.txid → ∀ coin, node.tip.copyCachedCoin input.prevOut = some coin →
      coin.isSpent = false

theorem exists_findCoin (hInfos : (infos.map fun entry => entry.tx.txid).Nodup)
    (hOutputs : OutputsExist node infos pool) (hCached : CachedUnspent node infos pool)
    (hEntry : entry ∈ infos) (hFresh : ¬ Reused node pool entry) {input : TxInput}
    (hInput : input ∈ entry.tx.inputs) :
    ∃ coin, findCoin node (entriesOf infos) input = .ok coin := by
  have hUnspent : ∀ coin : Coin, coin.isSpent = false → requireUnspent coin = .ok (some coin) :=
    fun coin h => if_neg (Bool.eq_false_iff.mp h)
  unfold findCoin
  cases hParent : (entriesOf infos)[input.prevOut.txid]? with
  | some parent =>
    obtain ⟨hMem, hTxid⟩ := (getElem?_entriesOf hInfos).mp hParent
    obtain ⟨output, hOutput, hNotNull⟩ :=
      hOutputs entry hEntry hFresh input hInput parent hMem hTxid
    simp only [hOutput]
    exact ⟨_, hUnspent _ (decide_eq_false hNotNull)⟩
  | none =>
    have hChain := (getElem?_entriesOf_eq_none hInfos).mp hParent
    cases hCopy : node.tip.copyCachedCoin input.prevOut with
    | none => exact ⟨none, rfl⟩
    | some coin =>
      exact ⟨_, hUnspent coin (hCached entry hEntry hFresh input hInput hChain coin hCopy)⟩

/-- With all coins in place the visits can only exceed the budget. -/
theorem foldlM_visitEntry_eq_error (hInfos : (infos.map fun entry => entry.tx.txid).Nodup)
    (hPool : (pool.map fun old => old.txid).Nodup) (hOutputs : OutputsExist node infos pool)
    (hCached : CachedUnspent node infos pool) {acc : List PoolRead × Nat}
    (h : (emitted infos).foldlM (visitEntry node (entriesOf infos) pool (cachedOf pool)) acc =
      .error e) :
    e = .payloadBudget ∨ e = .entryBudget := by
  obtain ⟨id, hId, acc', hFail⟩ := exists_of_foldlM_eq_error h
  rcases visitEntry_eq_error hPool hFail with hNone | hBudget | ⟨entry, hEntry, hFresh, hRead⟩
  · -- only entries are emitted
    have hNodes := Std.ExtTreeMap.nodup_keys (t := txsOf infos)
    have hParents := nodup_poolParents (txsOf infos)
    have hMem := ((Kahn.inv_init hNodes).run hNodes hParents _).mem id hId
    rw [keys_txsOf, mem_keys_entriesOf hInfos] at hMem
    exact absurd hMem ((getElem?_entriesOf_eq_none hInfos).mp hNone)
  · exact .inl hBudget
  · have hMem := ((getElem?_entriesOf hInfos).mp hEntry).1
    exact .inr (readEntry_eq_error hRead fun input hInput =>
      exists_findCoin hInfos hOutputs hCached hMem hFresh hInput)

/-- Every entry once, after its parents, with its coins. -/
structure Scheduled (node : CaptureNode) (infos : List TxMempoolInfo)
    (pool : List PoolCaptureEntry) (reads : List PoolRead) : Prop where
  once : (reads.map fun read => read.tx.txid).Perm (infos.map fun entry => entry.tx.txid)
  each : ∀ read ∈ reads, ∃ entry ∈ infos, ReadOf node infos pool entry read
  first : ∀ before read after, reads = before ++ read :: after → ∀ input ∈ read.tx.inputs,
    InPool infos input.prevOut.txid → ∃ r ∈ before, r.tx.txid = input.prevOut.txid

/-- What a capture that succeeded did. -/
theorem scheduled_of_capturePool (hInfos : (infos.map fun entry => entry.tx.txid).Nodup)
    (hPool : (pool.map fun old => old.txid).Nodup) {reads : List PoolRead} {bytes : Nat}
    (h : capturePool node infos pool common = .ok (reads, bytes)) :
    captureOrder (txsOf infos) = some (reads.map fun read => read.tx.txid) ∧
      Scheduled node infos pool reads ∧
      ∀ entry ∈ infos, ∃ read ∈ reads, Visits node infos pool entry read := by
  rw [capturePool_eq hInfos hPool] at h
  obtain ⟨start, -, h⟩ := bind_eq_ok.mp h
  obtain ⟨acc, hFold, h⟩ := bind_eq_ok.mp h
  obtain ⟨_, hLength, h⟩ := bind_eq_ok.mp h
  cases h
  have hOrder : captureOrder (txsOf infos) = some (emitted infos) := by
    rw [captureOrder_eq, if_pos (ensure_eq_ok.mp hLength)]
  have hTopo := Kahn.isTopoOrder_of_kahn Std.ExtTreeMap.nodup_keys (nodup_poolParents _) hOrder
  obtain ⟨reads', hReads, hAll⟩ := foldlM_visitEntry hPool hFold
  rw [nil_append] at hReads
  replace hReads : reads = reads' := hReads
  subst hReads
  -- the reads are those of the emitted txids
  have hTxids : reads.map (fun read => read.tx.txid) = emitted infos := by
    rw [← List.map_id (emitted infos)]
    refine (Forall₂.map_eq hAll ?_).symm
    rintro id read ⟨entry, hEntry, hVisits⟩
    rw [(hVisits.readOf hInfos).tx]
    exact ((getElem?_entriesOf hInfos).mp hEntry).2.symm
  have hMem : ∀ {id}, id ∈ emitted infos ↔ InPool infos id := by
    intro id
    have hNodes := hTopo.perm.mem_iff (a := id)
    rw [List.map_map] at hNodes
    refine hNodes.trans ?_
    rw [← mem_keys_entriesOf hInfos, ← keys_txsOf]
    exact ⟨fun h => by simpa using h, fun h => by simpa using h⟩
  have hNodup : (emitted infos).Nodup := by
    refine hTopo.perm.nodup_iff.mpr ?_
    rw [List.map_map]
    simpa [Function.comp_def] using Std.ExtTreeMap.nodup_keys (t := txsOf infos)
  refine ⟨?_, ⟨?_, ?_, ?_⟩, ?_⟩
  · rw [hTxids, hOrder]
  · rw [hTxids]
    refine (perm_ext_iff_of_nodup hNodup hInfos).mpr fun id => ?_
    rw [hMem, List.mem_map]
    rfl
  · intro read hRead
    obtain ⟨id, -, entry, hEntry, hVisits⟩ := Forall₂.exists_left hAll hRead
    exact ⟨entry, ((getElem?_entriesOf hInfos).mp hEntry).1, hVisits.readOf hInfos⟩
  · intro before read after hSplit input hInput hParent
    have hRead : read ∈ reads := by
      rw [hSplit]
      exact mem_append_right _ mem_cons_self
    obtain ⟨id, -, entry, hEntry, hVisits⟩ := Forall₂.exists_left hAll hRead
    obtain ⟨hEntryMem, -⟩ := (getElem?_entriesOf hInfos).mp hEntry
    have hTx := (hVisits.readOf hInfos).tx
    have hSpends : SpendsFrom infos input.prevOut.txid read.tx.txid :=
      ⟨hParent, entry, hEntryMem, congrArg Tx.txid hTx.symm, input, hTx ▸ hInput, rfl⟩
    have hEdge : Graph.Edge ((txsOf infos).keys.map fun id => (id, poolParents (txsOf infos) id))
        input.prevOut.txid read.tx.txid := edge_iff hInfos |>.mpr hSpends
    have hEmitted : emitted infos = before.map (fun read => read.tx.txid) ++
        read.tx.txid :: after.map fun read => read.tx.txid := by
      rw [← hTxids, hSplit, map_append, map_cons]
    have hBefore := hTopo.before_of_precedes hEmitted (.single hEdge)
    exact List.mem_map.mp hBefore
  · intro entry hEntry
    have hId : entry.tx.txid ∈ emitted infos := hMem.mpr ⟨entry, hEntry, rfl⟩
    obtain ⟨read, hRead, entry', hEntry', hVisits⟩ := Forall₂.exists_right hAll hId
    cases ((getElem?_entriesOf hInfos).mpr ⟨hEntry, rfl⟩).symm.trans hEntry'
    exact ⟨read, hRead, hVisits⟩

end Schedule

/-! ## The coins that are not cached -/

/-- Read a coin that is not cached from the snapshot. -/
def fillInput (node : CaptureNode) (acc : PoolRead × Nat) (i : Nat) :
    Except CaptureError (PoolRead × Nat) := do
  let input ← orElse acc.1.tx.inputs[i]? .outOfRange
  let coin ← orElse (node.tip.base.coins[input.prevOut]?.bind Coin.unspent) .missingColdPrevout
  let amount := node.coinSize coin
  let bytes ← charge acc.2 amount
  return ({ acc.1 with
    wireBytes := acc.1.wireBytes + amount, coins := acc.1.coins.set i coin }, bytes)

def fillRead (node : CaptureNode) (read : PoolRead) (bytes : Nat) :
    Except CaptureError (PoolRead × Nat) :=
  if read.retainedIndex.isSome then .ok (read, bytes)
  else read.cold.foldlM (fillInput node) (read, bytes)

def fillReads (node : CaptureNode) : List PoolRead → Nat →
    Except CaptureError (List PoolRead × Nat)
  | [], bytes => .ok ([], bytes)
  | read :: rest, bytes => do
    let (read, bytes) ← fillRead node read bytes
    let (rest, bytes) ← fillReads node rest bytes
    return (read :: rest, bytes)

section Fill

variable {node : CaptureNode} {read filled : PoolRead} {bytes bytes' : Nat}

/-- The coin of an input in the snapshot. -/
def snapshotCoin (node : CaptureNode) (read : PoolRead) (i : Nat) : Option Coin :=
  read.tx.inputs[i]?.bind fun input => node.tip.base.coins[input.prevOut]?.bind Coin.unspent

/-- A read with the coins filled in that were noted as missing. -/
structure Filled (node : CaptureNode) (read filled : PoolRead) : Prop where
  tx : filled.tx = read.tx
  time : filled.time = read.time
  retainedIndex : filled.retainedIndex = read.retainedIndex
  length : filled.coins.length = read.coins.length
  cold : read.retainedIndex = none → ∀ i ∈ read.cold, i < read.coins.length →
    ∃ coin, snapshotCoin node read i = some coin ∧ filled.coins[i]? = some coin
  warm : ∀ i, i ∉ read.cold → filled.coins[i]? = read.coins[i]?

theorem fillInput_eq_ok {i : Nat} (h : fillInput node (read, bytes) i = .ok (filled, bytes')) :
    ∃ coin, snapshotCoin node read i = some coin ∧ filled.tx = read.tx ∧
      filled.time = read.time ∧ filled.retainedIndex = read.retainedIndex ∧
      filled.coins = read.coins.set i coin := by
  obtain ⟨input, hInput, h⟩ := bind_eq_ok.mp h
  obtain ⟨coin, hCoin, h⟩ := bind_eq_ok.mp h
  obtain ⟨total, -, h⟩ := bind_eq_ok.mp h
  cases h
  refine ⟨coin, ?_, rfl, rfl, rfl, rfl⟩
  exact bind_eq_some_iff.mpr ⟨input, orElse_eq_ok.mp hInput, orElse_eq_ok.mp hCoin⟩

variable {positions : List Nat}

theorem foldlM_fillInput
    (h : positions.foldlM (fillInput node) (read, bytes) = .ok (filled, bytes')) :
    filled.tx = read.tx ∧ filled.time = read.time ∧ filled.retainedIndex = read.retainedIndex ∧
      filled.coins.length = read.coins.length ∧
      (∀ i ∈ positions, i < read.coins.length →
        ∃ coin, snapshotCoin node read i = some coin ∧ filled.coins[i]? = some coin) ∧
      ∀ i, i ∉ positions → filled.coins[i]? = read.coins[i]? := by
  induction positions generalizing read bytes with
  | nil =>
    cases h
    exact ⟨rfl, rfl, rfl, rfl, fun i hi => absurd hi not_mem_nil, fun _ _ => rfl⟩
  | cons j positions ih =>
    rw [foldlM_cons] at h
    obtain ⟨⟨mid, midBytes⟩, hFirst, hRest⟩ := bind_eq_ok.mp h
    obtain ⟨coin, hCoin, hTx, hTime, hIndex, hCoins⟩ := fillInput_eq_ok hFirst
    obtain ⟨hTx', hTime', hIndex', hLength', hCold', hWarm'⟩ := ih hRest
    have hSnapshot : ∀ i, snapshotCoin node mid i = snapshotCoin node read i := by
      intro i
      rw [snapshotCoin, hTx]
      rfl
    have hLength : mid.coins.length = read.coins.length := by rw [hCoins, length_set]
    refine ⟨hTx'.trans hTx, hTime'.trans hTime, hIndex'.trans hIndex, hLength'.trans hLength,
      fun i hi hLt => ?_, fun i hi => ?_⟩
    · by_cases hLater : i ∈ positions
      · obtain ⟨coin', hCoin', hAt⟩ := hCold' i hLater (hLength ▸ hLt)
        exact ⟨coin', (hSnapshot i).symm.trans hCoin', hAt⟩
      · -- set here and not again
        obtain rfl := (mem_cons.mp hi).resolve_right hLater
        refine ⟨coin, hCoin, ?_⟩
        rw [hWarm' i hLater, hCoins, getElem?_set_self hLt]
    · rw [mem_cons, not_or] at hi
      rw [hWarm' i hi.2, hCoins, getElem?_set_ne (Ne.symm hi.1)]

theorem fillRead_eq_ok (h : fillRead node read bytes = .ok (filled, bytes')) :
    Filled node read filled := by
  unfold fillRead at h
  split at h
  · next hReused =>
    cases h
    refine ⟨rfl, rfl, rfl, rfl, fun hNone => ?_, fun _ _ => rfl⟩
    rw [hNone] at hReused
    cases hReused
  · obtain ⟨hTx, hTime, hIndex, hLength, hCold, hWarm⟩ := foldlM_fillInput h
    exact ⟨hTx, hTime, hIndex, hLength, fun _ => hCold, hWarm⟩

theorem fillReads_eq_ok {reads filled : List PoolRead}
    (h : fillReads node reads bytes = .ok (filled, bytes')) :
    List.Forall₂ (Filled node) reads filled := by
  induction reads generalizing filled bytes bytes' with
  | nil =>
    cases h
    exact .nil
  | cons read reads ih =>
    obtain ⟨⟨first, midBytes⟩, hFirst, h⟩ := bind_eq_ok.mp h
    obtain ⟨⟨rest, endBytes⟩, hRest, h⟩ := bind_eq_ok.mp h
    cases h
    exact .cons (fillRead_eq_ok hFirst) (ih hRest)

theorem fillInput_eq_error {i : Nat} (hLt : i < read.tx.inputs.length)
    (h : fillInput node (read, bytes) i = .error e) :
    e = .payloadBudget ∨ (e = .missingColdPrevout ∧ snapshotCoin node read i = none) := by
  rcases bind_eq_error.mp h with hMissing | ⟨input, hInput, h⟩
  · rw [getElem?_eq_getElem hLt] at hMissing
    cases hMissing
  · rcases bind_eq_error.mp h with hMissing | ⟨coin, -, h⟩
    · right
      obtain ⟨hNone, rfl⟩ := orElse_eq_error hMissing
      rw [snapshotCoin, orElse_eq_ok.mp hInput, bind_some]
      exact ⟨rfl, hNone⟩
    · exact .inl (charge_eq_error (eq_error_of_bind_pure h))

theorem foldlM_fillInput_eq_error (hLt : ∀ i ∈ positions, i < read.tx.inputs.length)
    (h : positions.foldlM (fillInput node) (read, bytes) = .error e) :
    e = .payloadBudget ∨
      (e = .missingColdPrevout ∧ ∃ i ∈ positions, snapshotCoin node read i = none) := by
  induction positions generalizing read bytes with
  | nil => cases h
  | cons j positions ih =>
    rw [foldlM_cons] at h
    rcases bind_eq_error.mp h with hFirst | ⟨⟨mid, midBytes⟩, hFirst, hRest⟩
    · refine (fillInput_eq_error (hLt j mem_cons_self) hFirst).imp_right ?_
      exact fun hMissing => ⟨hMissing.1, j, mem_cons_self, hMissing.2⟩
    · obtain ⟨-, -, hTx, -⟩ := fillInput_eq_ok hFirst
      have hLt' : ∀ i ∈ positions, i < mid.tx.inputs.length := by
        intro i hi
        rw [hTx]
        exact hLt i (mem_cons_of_mem _ hi)
      refine (ih hLt' hRest).imp_right ?_
      rintro ⟨hError, i, hi, hNone⟩
      refine ⟨hError, i, mem_cons_of_mem _ hi, ?_⟩
      rw [snapshotCoin, hTx] at hNone
      exact hNone

/-- Filling in fails only if a coin is missing in the snapshot, or exceeds the budget. -/
theorem fillReads_eq_error {reads : List PoolRead}
    (hLt : ∀ read ∈ reads, read.retainedIndex = none → ∀ i ∈ read.cold, i < read.tx.inputs.length)
    (h : fillReads node reads bytes = .error e) :
    e = .payloadBudget ∨ (e = .missingColdPrevout ∧ ∃ read ∈ reads, read.retainedIndex = none ∧
      ∃ i ∈ read.cold, snapshotCoin node read i = none) := by
  induction reads generalizing bytes with
  | nil => cases h
  | cons read reads ih =>
    rcases bind_eq_error.mp h with hFirst | ⟨⟨first, midBytes⟩, -, h⟩
    · unfold fillRead at hFirst
      split at hFirst
      · cases hFirst
      · next hFresh =>
        have hNone : read.retainedIndex = none := by simpa using hFresh
        refine (foldlM_fillInput_eq_error (hLt read mem_cons_self hNone) hFirst).imp_right ?_
        exact fun hMissing => ⟨hMissing.1, read, mem_cons_self, hNone, hMissing.2⟩
    · refine (ih (fun r hr => hLt r (mem_cons_of_mem _ hr))
        (eq_error_of_bind_pure h)).imp_right ?_
      rintro ⟨hError, r, hr, hMissing⟩
      exact ⟨hError, r, mem_cons_of_mem _ hr, hMissing⟩

end Fill

section Main

variable {node : CaptureNode} {infos : List TxMempoolInfo} {pool : List PoolCaptureEntry}
  {common : List Nat}

/-- With all coins in place the capture fails only by its budgets, or on a cycle. -/
theorem capturePool_eq_error (hInfos : (infos.map fun entry => entry.tx.txid).Nodup)
    (hPool : (pool.map fun old => old.txid).Nodup) (hOutputs : OutputsExist node infos pool)
    (hCached : CachedUnspent node infos pool) (h : capturePool node infos pool common = .error e) :
    e = .payloadBudget ∨ e = .entryBudget ∨ (e = .dependencyCycle ∧ HasCycle infos) := by
  rw [capturePool_eq hInfos hPool] at h
  rcases bind_eq_error.mp h with hStart | ⟨start, -, h⟩
  · obtain ⟨amount, -, bytes, hCharge⟩ := exists_of_foldlM_eq_error hStart
    exact .inl (charge_eq_error hCharge)
  · rcases bind_eq_error.mp h with hFold | ⟨acc, -, h⟩
    · rcases foldlM_visitEntry_eq_error hInfos hPool hOutputs hCached hFold with hEq | hEq
      · exact .inl hEq
      · exact .inr (.inl hEq)
    · have hLength := eq_error_of_bind_pure h
      refine .inr (.inr ⟨ensure_eq_error hLength, (captureOrder_eq_none_iff hInfos).mp ?_⟩)
      rw [captureOrder_eq]
      refine if_neg fun hEq => ?_
      rw [ensure, if_pos hEq] at hLength
      cases hLength

/-- **The captured mempool.** If no budget is exceeded, the outputs that are spent
in the mempool exist and the cached coins are unspent, the capture fails exactly
on a cycle; otherwise it lists every entry once after its parents, with each coin
from one of the three places, and the coins that were noted as missing are filled
in at their positions. In any case it fails if a cached coin that an entry needs
is spent. -/
theorem capturePool_spec (hInfos : (infos.map fun entry => entry.tx.txid).Nodup)
    (hPool : (pool.map fun old => old.txid).Nodup) :
    (OutputsExist node infos pool → CachedUnspent node infos pool →
      capturePool node infos pool common ≠ .error .payloadBudget →
      capturePool node infos pool common ≠ .error .entryBudget →
      (capturePool node infos pool common = .error .dependencyCycle ↔ HasCycle infos) ∧
      (¬ HasCycle infos → ∃ reads bytes, capturePool node infos pool common = .ok (reads, bytes) ∧
        Scheduled node infos pool reads ∧
        (∀ filled total, fillReads node reads bytes = .ok (filled, total) →
          List.Forall₂ (Filled node) reads filled) ∧
        ∀ e, fillReads node reads bytes = .error e → e = .payloadBudget ∨
          (e = .missingColdPrevout ∧ ∃ read ∈ reads, read.retainedIndex = none ∧
            ∃ i ∈ read.cold, snapshotCoin node read i = none))) ∧
    ∀ entry ∈ infos, ¬ Reused node pool entry → ∀ input ∈ entry.tx.inputs,
      ¬ InPool infos input.prevOut.txid → ∀ coin,
      node.tip.copyCachedCoin input.prevOut = some coin → coin.isSpent = true →
        ∀ result, capturePool node infos pool common ≠ .ok result := by
  refine ⟨fun hOutputs hCached hPayload hEntryBudget => ?_, ?_⟩
  · -- there is a result, or the error is that of a cycle
    have hCases : (∃ reads bytes, capturePool node infos pool common = .ok (reads, bytes)) ∨
        (capturePool node infos pool common = .error .dependencyCycle ∧ HasCycle infos) := by
      cases hResult : capturePool node infos pool common with
      | ok result => exact .inl ⟨result.1, result.2, rfl⟩
      | error e =>
        rcases capturePool_eq_error hInfos hPool hOutputs hCached hResult with
          rfl | rfl | ⟨rfl, hCycle⟩
        · exact absurd hResult hPayload
        · exact absurd hResult hEntryBudget
        · exact .inr ⟨rfl, hCycle⟩
    rcases hCases with ⟨reads, bytes, hOk⟩ | ⟨hError, hCycle⟩
    · obtain ⟨hOrder, hScheduled, -⟩ := scheduled_of_capturePool hInfos hPool hOk
      have hAcyclic : ¬ HasCycle infos := by
        rw [← captureOrder_eq_none_iff hInfos, hOrder]
        exact some_ne_none _
      refine ⟨?_, fun _ => ⟨reads, bytes, hOk, hScheduled, fun filled total => fillReads_eq_ok,
        fun e => fillReads_eq_error ?_⟩⟩
      · rw [hOk]
        exact ⟨nofun, fun hCycle => absurd hCycle hAcyclic⟩
      · intro read hRead hNone i hi
        obtain ⟨entry, -, hReadOf⟩ := hScheduled.each read hRead
        rw [hReadOf.tx]
        exact (hReadOf.fresh hNone).2.2.1 i hi
    · exact ⟨iff_of_true hError hCycle, fun hAcyclic => absurd hCycle hAcyclic⟩
  · intro entry hEntry hFresh input hInput hChain coin hCoin hSpent result hOk
    obtain ⟨-, -, hAll⟩ := scheduled_of_capturePool hInfos hPool hOk
    obtain ⟨read, -, hVisits⟩ := hAll entry hEntry
    rcases hVisits with ⟨i, old, hOld, hServes, -⟩ | ⟨-, hRead⟩
    · exact hFresh ⟨old, mem_of_getElem? hOld, hServes⟩
    · -- the spent coin is found, and refused
      obtain ⟨found, hFound, -⟩ := readEntry_eq_ok hRead
      obtain ⟨c, -, hGet⟩ := Forall₂.exists_right (mapM_eq_ok.mp hFound) hInput
      have hNone := (getElem?_entriesOf_eq_none hInfos).mpr hChain
      simp only [findCoin, hNone, hCoin, requireUnspent, hSpent, if_true] at hGet
      cases hGet

/-! A transaction that spends a cached coin, and another that spends its output and a coin
that is not cached. -/

namespace CaptureNode

def sampleId (n : UInt8) : TxId := .fill n

def sampleOutput (sats : Int) : TxOutput := ⟨sats, ⟨[0x51]⟩⟩

def sampleTx (id : UInt8) (spent : List UInt8) : Tx where
  txid := sampleId id
  version := 2
  inputs := spent.map fun n => ⟨⟨sampleId n, 0⟩, ⟨[]⟩, 0, none⟩
  outputs := [sampleOutput id.toNat]
  locktime := 0

def sampleNode : CaptureNode where
  generation := 1
  tip :=
    { cacheCoins := (∅ : CoinsMap).insert ⟨sampleId 9, 0⟩ { coin := ⟨sampleOutput 9, 1, false⟩ }
      base := ⟨(∅ : Column OutPoint Coin).insert ⟨sampleId 8, 0⟩ ⟨sampleOutput 8, 1, false⟩⟩ }
  txSize := fun _ => 100
  coinSize := fun _ => 10

def sampleInfos : List TxMempoolInfo := [⟨sampleTx 1 [2, 8], 0⟩, ⟨sampleTx 2 [9], 0⟩]

/-- The parent comes first, and the coin that is not cached is noted. -/
theorem sample_captured :
    ∃ reads bytes, capturePool sampleNode sampleInfos [] [] = .ok (reads, bytes) ∧
      Scheduled sampleNode sampleInfos [] reads ∧
      reads.map (fun read => (read.tx.txid, read.cold)) =
        [(sampleId 2, []), (sampleId 1, [1])] := by
  have hReads : (capturePool sampleNode sampleInfos [] []).toOption.map
      (fun result => result.1.map fun read => (read.tx.txid, read.cold)) =
        some [(sampleId 2, []), (sampleId 1, [1])] := by decide +kernel
  have hOutputs : OutputsExist sampleNode sampleInfos [] := by
    intro entry hEntry _ input hInput parent hParent hTxid
    have hIdx : ∀ entry ∈ sampleInfos, ∀ input ∈ entry.tx.inputs, input.prevOut.outIdx = 0 := by
      decide +kernel
    rw [hIdx entry hEntry input hInput]
    rcases mem_pair.mp hParent with rfl | rfl
    · exact ⟨_, rfl, by decide⟩
    · exact ⟨_, rfl, by decide⟩
  have hCached : CachedUnspent sampleNode sampleInfos [] := by
    intro entry _ _ input _ _ coin hCopy
    obtain ⟨cached, hGet, rfl⟩ := map_eq_some_iff.mp hCopy
    obtain ⟨-, rfl⟩ := Column.getElem?_singleton.mp hGet
    decide
  have hInfos : (sampleInfos.map fun entry => entry.tx.txid).Nodup := by decide +kernel
  have hPool : (([] : List PoolCaptureEntry).map fun old => old.txid).Nodup := nodup_nil
  have hNot : ∀ e, capturePool sampleNode sampleInfos [] [] ≠ .error e := by
    intro e hError
    rw [hError] at hReads
    cases hReads
  obtain ⟨hCycle, hScheduled⟩ :=
    (capturePool_spec hInfos hPool).1 hOutputs hCached (hNot _) (hNot _)
  obtain ⟨reads, bytes, hOk, hAll, -⟩ := hScheduled fun h => hNot _ (hCycle.mpr h)
  rw [hOk] at hReads
  exact ⟨reads, bytes, hOk, hAll, Option.some.inj hReads⟩

end CaptureNode

/-- What becomes of a read: the earlier entry (`seed_pool_entry`), or the
transaction with its coins (`capture_mempool`). -/
def retainRead (kept : List RetainedPoolEntry) (read : PoolRead) : Option RetainedPoolEntry :=
  match read.retainedIndex with
  | some i => kept[i]?
  | none => (Replay.bridgeTx read.tx read.coins).map fun tx => ⟨⟨tx, read.time⟩, read.wireBytes⟩

/-- What is known of the entries of the last capture (`pool_capture_inventory`). -/
def poolCaptureInventory (kept : List RetainedPoolEntry) (chainGeneration : Nat) :
    List PoolCaptureEntry :=
  kept.map fun e => ⟨e.txid, e.entry.timeFirstSeen, e.wireBytes, chainGeneration⟩

theorem bridgeTx_eq_some {tx tx' : Tx} {coins : List Coin}
    (h : Replay.bridgeTx tx coins = some tx') :
    tx'.txid = tx.txid ∧ tx'.inputs.map (·.prevOut) = tx.inputs.map (·.prevOut) := by
  unfold Replay.bridgeTx at h
  split at h
  · split at h
    · cases h
      exact ⟨rfl, List.map_map⟩
    · cases h
  · split at h
    · cases h
    · next hLength =>
      rw [not_not] at hLength
      obtain ⟨coins', hCoins, rfl⟩ := map_eq_some_iff.mp h
      refine ⟨rfl, ?_⟩
      have hLength' : tx.inputs.length = coins'.length := by
        rw [← hLength]
        exact (mapM_eq_some.mp hCoins).length_eq
      show (tx.inputs.zipWith (fun i coin => { i with coin := some coin }) coins').map _ = _
      rw [map_zipWith]
      exact zipWith_eq_map hLength' _

/-- **The capture is in the order of the node's mempool**, if a txid tells the
inputs of an entry that was kept. -/
theorem capturedFrom_of_capturePool {kept captured : List RetainedPoolEntry} {generation : Nat}
    (hInfos : (infos.map fun entry => entry.tx.txid).Nodup)
    (hKept : (kept.map (·.txid)).Nodup)
    (hInputs : ∀ e ∈ kept, ∀ entry ∈ infos, e.txid = entry.tx.txid →
      e.entry.tx.inputs.map (·.prevOut) = entry.tx.inputs.map (·.prevOut))
    {reads filled : List PoolRead} {bytes total : Nat}
    (hCapture : capturePool node infos (poolCaptureInventory kept generation) common =
      .ok (reads, bytes))
    (hFill : fillReads node reads bytes = .ok (filled, total))
    (hRetain : filled.mapM (retainRead kept) = some captured) :
    CapturedFrom (txsOf infos) captured := by
  have hPool : ((poolCaptureInventory kept generation).map fun old => old.txid).Nodup := by
    rw [poolCaptureInventory, List.map_map]
    exact hKept
  obtain ⟨hOrder, hScheduled, -⟩ := scheduled_of_capturePool hInfos hPool hCapture
  -- a captured entry has the txid and the inputs of the entry of the node
  have hEach : ∀ read ∈ reads, ∀ f e, Filled node read f → retainRead kept f = some e →
      ∃ entry ∈ infos, read.tx = entry.tx ∧ e.txid = entry.tx.txid ∧
        e.entry.tx.inputs.map (·.prevOut) = entry.tx.inputs.map (·.prevOut) := by
    intro read hRead f e hFilled hRetained
    obtain ⟨entry, hEntry, hReadOf⟩ := hScheduled.each read hRead
    refine ⟨entry, hEntry, hReadOf.tx, ?_⟩
    unfold retainRead at hRetained
    rw [hFilled.retainedIndex] at hRetained
    cases hIndex : read.retainedIndex with
    | some i =>
      rw [hIndex] at hRetained
      replace hRetained : kept[i]? = some e := hRetained
      obtain ⟨old, hOld, hTxid, -⟩ := hReadOf.reused i hIndex
      rw [poolCaptureInventory, getElem?_map, hRetained] at hOld
      cases hOld
      exact ⟨hTxid, hInputs e (mem_of_getElem? hRetained) entry hEntry hTxid⟩
    | none =>
      rw [hIndex] at hRetained
      obtain ⟨tx, hTx, rfl⟩ := map_eq_some_iff.mp hRetained
      obtain ⟨hTxid, hPrev⟩ := bridgeTx_eq_some hTx
      rw [hFilled.tx, hReadOf.tx] at hTxid hPrev
      exact ⟨hTxid, hPrev⟩
  have hPairs := forall₂_imp_of_mem (Forall₂.comp (fillReads_eq_ok hFill) (mapM_eq_some.mp hRetain))
    fun read hRead e ⟨f, hFilled, hRetained⟩ => hEach read hRead f e hFilled hRetained
  constructor
  · rw [hOrder]
    refine congrArg some (Forall₂.map_eq hPairs ?_)
    rintro read e ⟨entry, -, hTx, hTxid, -⟩
    rw [hTx, hTxid]
  · intro e he
    obtain ⟨read, -, entry, hEntry, -, hTxid, hPrev⟩ := Forall₂.exists_left hPairs he
    refine ⟨entry.tx, ?_, hPrev⟩
    rw [txsOf, Std.ExtTreeMap.getElem?_map, (getElem?_entriesOf hInfos).mpr ⟨hEntry, hTxid.symm⟩]
    rfl

end Main

end Ergon.Archival
