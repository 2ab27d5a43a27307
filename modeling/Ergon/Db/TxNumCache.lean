import Ergon.Db.IndexTx
import Ergon.Lib.Machine
import Ergon.Lib.SortedList

/-!
# Ergon — the cache of transaction numbers

`prepare_indexed_txs_cached` (`chronik-db/src/index_tx.rs`) looks for the numbers
of spent transactions in a belt of buckets before it asks the database. Blocks put
their transactions into the front bucket; when it is full, the last bucket is
emptied and becomes the front. Deleting a block empties all buckets.

The database is the list of the txids it holds, each at its number; a txid is
looked up at the first number that has it, as the reverse lookup does.

* `cacheOk_of_reaches` — in every run of additions and deletions, what the cache has
  is what the database has at that number;
* `prepareIndexedTxsCached_eq` — so the cache is not seen where the database holds
  no txid twice.
-/

namespace Ergon

open Lib List

/-! ## The cache -/

/-- The belt of buckets, front first. -/
structure TxNumCache where
  bucketSize : Nat
  buckets : List (Column TxId TxNum)

namespace TxNumCache

def new (numBuckets bucketSize : Nat) : TxNumCache := ⟨bucketSize, List.replicate numBuckets ∅⟩

/-- Put a transaction into the front bucket. A full front gives way to the last bucket,
which is emptied first. Without buckets nothing is cached. -/
def addTx (bucketSize : Nat) (buckets : List (Column TxId TxNum)) (tx : IndexTx) :
    List (Column TxId TxNum) :=
  match buckets with
  | [] => []
  | front :: rest =>
    if bucketSize ≤ front.size then
      (∅ : Column TxId TxNum).insert tx.tx.txid tx.txNum :: (front :: rest).dropLast
    else front.insert tx.tx.txid tx.txNum :: rest

def addToCache (cache : TxNumCache) (indexTxs : List IndexTx) : TxNumCache :=
  { cache with buckets := indexTxs.foldl (addTx cache.bucketSize) cache.buckets }

def clear (cache : TxNumCache) : TxNumCache :=
  { cache with buckets := cache.buckets.map fun _ => ∅ }

def get (cache : TxNumCache) (txid : TxId) : Option TxNum :=
  cache.buckets.findSome? fun bucket => bucket[txid]?

end TxNumCache

inductive PrepareUpdateMode
  | add
  | delete
  | read
deriving DecidableEq

def TxNumCache.update (cache : TxNumCache) (indexTxs : List IndexTx) :
    PrepareUpdateMode → TxNumCache
  | .add => cache.addToCache indexTxs
  | .delete => cache.clear
  | .read => cache

/-! ## Preparing a block with the cache -/

section

variable {db : List TxId} {txs : List Tx} {firstTxNum : TxNum} {cache : TxNumCache}

section Prepare

variable {ε : Type}

/-- The txids of the database, each at its number. -/
def txNumByTxid (db : List TxId) (txid : TxId) : Option TxNum := db.idxOf? txid

/-- An input's txid that is not known yet comes from the cache, or is left to the
database. -/
def noteTxid (cache : TxNumCache) (acc : Column TxId TxNum × Std.ExtTreeSet TxId) (txid : TxId) :
    Column TxId TxNum × Std.ExtTreeSet TxId :=
  match acc.1[txid]? with
  | some _ => acc
  | none => match cache.get txid with
    | some txNum => (acc.1.insert txid txNum, acc.2)
    | none => (acc.1, acc.2.insert txid)

def inputTxids (txs : List Tx) : List TxId :=
  txs.flatMap fun tx => tx.inputs.map fun input => input.prevOut.txid

def cachedInputNum (txNums : Column TxId TxNum) (dbTxids : List TxId)
    (dbTxNums : List (Option TxNum)) (input : TxInput) : Except (IndexTxError ε) TxNum :=
  match txNums[input.prevOut.txid]? with
  | some txNum => .ok txNum
  | none =>
    match binarySearchBy (fun txid => compare txid input.prevOut.txid) dbTxids with
    | .error _ => .error (.unknownInputSpent input.prevOut)
    | .ok txNumIdx => orElse dbTxNums[txNumIdx]?.join (.unknownInputSpent input.prevOut)

def indexTxBy (num : TxInput → Except (IndexTxError ε) TxNum) (firstTxNum : TxNum) :
    Tx × Nat → Except (IndexTxError ε) IndexTx
  -- the first transaction is the coinbase
  | (tx, 0) => .ok ⟨tx, firstTxNum, true, []⟩
  | (tx, txIdx) => do
    let inputNums ← tx.inputs.mapM num
    return ⟨tx, firstTxNum + txIdx, false, inputNums⟩

/-- The transactions with their numbers, and the cache after it. -/
def prepareIndexedTxsCached (db : List TxId) (firstTxNum : TxNum) (txs : List Tx)
    (cache : TxNumCache) (updateMode : PrepareUpdateMode) :
    Except (IndexTxError ε) (List IndexTx × TxNumCache) := do
  let (txNums, dbTxids) := (inputTxids txs).foldl (noteTxid cache) (txNumsByTxid firstTxNum txs, ∅)
  let dbTxNums := dbTxids.toList.map (txNumByTxid db)
  let indexTxs ← txs.zipIdx.mapM
    (indexTxBy (cachedInputNum txNums dbTxids.toList dbTxNums) firstTxNum)
  return (indexTxs, cache.update indexTxs updateMode)

/-! ## Without the cache -/

/-- The number of a spent transaction: of the block, or else of the database. -/
def spentNum (lookup : TxId → Option TxNum) (txNums : Column TxId TxNum) (input : TxInput) :
    Except (IndexTxError ε) TxNum :=
  match txNums[input.prevOut.txid]? with
  | some txNum => .ok txNum
  | none => orElse (lookup input.prevOut.txid) (.unknownInputSpent input.prevOut)

theorem mem_inputTxids {tx : Tx} {input : TxInput} (hTx : tx ∈ txs) (hInput : input ∈ tx.inputs) :
    input.prevOut.txid ∈ inputTxids txs :=
  mem_flatMap.mpr ⟨tx, hTx, mem_map_of_mem hInput⟩

theorem mapM_indexTxBy_congr {num num' : TxInput → Except (IndexTxError ε) TxNum}
    (h : ∀ tx ∈ txs, ∀ input ∈ tx.inputs, num input = num' input) :
    txs.zipIdx.mapM (indexTxBy num firstTxNum) = txs.zipIdx.mapM (indexTxBy num' firstTxNum) := by
  refine mapM_congr ?_
  rintro ⟨tx, txIdx⟩ hMem
  have hTx : tx ∈ txs := fst_mem_of_mem_zipIdx hMem
  cases txIdx with
  | zero => rfl
  | succ txIdx =>
    show (tx.inputs.mapM num >>= _) = (tx.inputs.mapM num' >>= _)
    rw [mapM_congr (h tx hTx)]

theorem prepareIndexedTxs_eq (lookup : TxId → Option TxNum) (firstTxNum : TxNum) (txs : List Tx) :
    prepareIndexedTxs (fun txid => (.ok (lookup txid) : Except ε _)) firstTxNum txs =
      txs.zipIdx.mapM (indexTxBy (spentNum lookup (txNumsByTxid firstTxNum txs)) firstTxNum) := by
  have hDb : (dbTxids firstTxNum txs).mapM (fun txid =>
      (((Except.ok (lookup txid) : Except ε _).mapError IndexTxError.db).map fun n => (txid, n))) =
      .ok ((dbTxids firstTxNum txs).map fun txid => (txid, lookup txid)) := by
    rw [mapM_eq_ok, forall₂_map_right_iff]
    exact forall₂_same.mpr fun _ _ => rfl
  unfold prepareIndexedTxs
  rw [hDb]
  set ps := (dbTxids firstTxNum txs).map fun txid => (txid, lookup txid) with hPs
  have hIndex : ∀ (txNums : Column TxId TxNum) (dbTxNums : Column TxId (Option TxNum)),
      (indexTx firstTxNum txNums dbTxNums : _ → Except (IndexTxError ε) _) =
        indexTxBy (inputNum txNums dbTxNums) firstTxNum := by
    intro txNums dbTxNums
    funext a
    obtain ⟨tx, txIdx⟩ := a
    cases txIdx <;> rfl
  show txs.zipIdx.mapM (indexTx firstTxNum _ ((∅ : Column TxId (Option TxNum)).putAll ps)) = _
  rw [hIndex]
  refine mapM_indexTxBy_congr fun tx hTx input hInput => ?_
  unfold inputNum spentNum
  cases hNum : (txNumsByTxid firstTxNum txs)[input.prevOut.txid]? with
  | some txNum => rfl
  | none =>
    -- the txid was looked up
    have hMem : input.prevOut.txid ∈ dbTxids firstTxNum txs := by
      unfold dbTxids
      rw [mem_dedup, mem_filter]
      exact ⟨mem_inputTxids hTx hInput, by rw [hNum]; rfl⟩
    have hGet : ((∅ : Column TxId (Option TxNum)).putAll ps)[input.prevOut.txid]? =
        some (lookup input.prevOut.txid) := by
      refine Column.getElem?_putAll_of_mem (mem_map.mpr ⟨_, hMem, rfl⟩) fun v hv => ?_
      obtain ⟨txid, -, hEq⟩ := mem_map.mp hv
      cases hEq
      rfl
    dsimp only
    rw [hGet, Option.join_some]

/-! ## The cache is not seen -/

/-- What the loop over the inputs leaves behind, key by key. -/
theorem foldl_noteTxid (cache : TxNumCache) (txids : List TxId)
    (acc : Column TxId TxNum × Std.ExtTreeSet TxId) (txid : TxId) :
    (txids.foldl (noteTxid cache) acc).1[txid]? =
        acc.1[txid]?.or (if txid ∈ txids then cache.get txid else none) ∧
      (txid ∈ (txids.foldl (noteTxid cache) acc).2 ↔ txid ∈ acc.2 ∨
        (txid ∈ txids ∧ acc.1[txid]? = none ∧ cache.get txid = none)) := by
  induction txids generalizing acc with
  | nil => simp
  | cons txid₀ txids ih =>
    rw [foldl_cons]
    obtain ⟨hNums, hSet⟩ := ih (noteTxid cache acc txid₀)
    rw [hNums, hSet]
    unfold noteTxid
    by_cases hEq : txid₀ = txid
    · subst hEq
      cases hAcc : acc.1[txid₀]? with
      | some n => simp [hAcc]
      | none =>
        cases hCache : cache.get txid₀ with
        | some n => simp
        | none => simp [hAcc]
    · have hNe : txid ≠ txid₀ := Ne.symm hEq
      cases hAcc : acc.1[txid₀]? with
      | some n => simp [hNe]
      | none =>
        cases hCache : cache.get txid₀ with
        | some n => simp [hNe, Column.getElem?_insert, hEq]
        | none => simp [hNe, Std.ExtTreeSet.mem_insert, hEq]

/-- Every number the cache has is one the database gives, for txids that are not of the
block. -/
def SameNums (cache : TxNumCache) (db : List TxId) (firstTxNum : TxNum) (txs : List Tx) : Prop :=
  ∀ txid n, cache.get txid = some n → (txNumsByTxid firstTxNum txs)[txid]? = none →
    txNumByTxid db txid = some n

theorem cachedInputNum_eq (hSame : SameNums cache db firstTxNum txs) {input : TxInput}
    (hInput : input.prevOut.txid ∈ inputTxids txs) {acc : Column TxId TxNum × Std.ExtTreeSet TxId}
    (hAcc : acc = (inputTxids txs).foldl (noteTxid cache) (txNumsByTxid firstTxNum txs, ∅)) :
    cachedInputNum acc.1 acc.2.toList (acc.2.toList.map (txNumByTxid db)) input =
      (spentNum (txNumByTxid db) (txNumsByTxid firstTxNum txs) input :
        Except (IndexTxError ε) TxNum) := by
  obtain ⟨hNums, hSet⟩ := foldl_noteTxid cache (inputTxids txs) (txNumsByTxid firstTxNum txs, ∅)
    input.prevOut.txid
  rw [← hAcc, if_pos hInput] at hNums
  rw [← hAcc] at hSet
  unfold cachedInputNum spentNum
  rw [hNums]
  cases hBlock : (txNumsByTxid firstTxNum txs)[input.prevOut.txid]? with
  | some n => rfl
  | none =>
    rw [Option.none_or]
    cases hCache : cache.get input.prevOut.txid with
    | some n =>
      dsimp only
      rw [hSame _ n hCache hBlock]
      rfl
    | none =>
      -- the txid is among those looked up, at the place the search finds
      have hMem : input.prevOut.txid ∈ acc.2.toList :=
        Std.ExtTreeSet.mem_toList.mpr (hSet.mpr (.inr ⟨hInput, hBlock, hCache⟩))
      have hSorted : SortedBy id acc.2.toList := acc.2.ordered_toList
      obtain ⟨i, hSearch, hGet⟩ := hSorted.search_of_mem hMem
      dsimp only [id] at hSearch ⊢
      rw [hSearch]
      dsimp only
      rw [getElem?_map, hGet, Option.map_some, Option.join_some]

theorem prepareIndexedTxsCached_eq (hSame : SameNums cache db firstTxNum txs)
    (updateMode : PrepareUpdateMode) :
    prepareIndexedTxsCached db firstTxNum txs cache updateMode =
      (prepareIndexedTxs (fun txid => (.ok (txNumByTxid db txid) : Except ε _)) firstTxNum
        txs).map fun indexTxs => (indexTxs, cache.update indexTxs updateMode) := by
  rw [prepareIndexedTxs_eq, map_eq_bind]
  unfold prepareIndexedTxsCached
  generalize hAcc : (inputTxids txs).foldl (noteTxid cache) (txNumsByTxid firstTxNum txs, ∅) = acc
  obtain ⟨txNums, dbTxids⟩ := acc
  dsimp only
  refine congrArg (· >>= _) (mapM_indexTxBy_congr fun tx hTx input hInput => ?_)
  exact cachedInputNum_eq hSame (mem_inputTxids hTx hInput) hAcc.symm

end Prepare

/-! ## Runs -/

/-- What the cache has is what the database has at that number. -/
def CacheOk (db : List TxId) (buckets : List (Column TxId TxNum)) : Prop :=
  ∀ bucket ∈ buckets, ∀ (txid : TxId) n, bucket[txid]? = some n → db[n]? = some txid

theorem CacheOk.sameNums (h : CacheOk db cache.buckets) (hNodup : db.Nodup) (firstTxNum : TxNum)
    (txs : List Tx) : SameNums cache db firstTxNum txs := by
  intro txid n hGet _
  obtain ⟨bucket, hBucket, hGet⟩ := exists_of_findSome?_eq_some hGet
  obtain ⟨hn, rfl⟩ := List.getElem?_eq_some_iff.mp (h bucket hBucket txid n hGet)
  refine idxOf?_eq_some_iff.mpr ⟨hn, rfl, fun j hj hEq => ?_⟩
  exact absurd ((hNodup.getElem_inj_iff).mp hEq) (Nat.ne_of_lt hj)

variable {buckets : List (Column TxId TxNum)}

theorem CacheOk.addTx {bucketSize : Nat} (h : CacheOk db buckets) {tx : IndexTx}
    (hTx : db[tx.txNum]? = some tx.tx.txid) :
    CacheOk db (TxNumCache.addTx bucketSize buckets tx) := by
  have hInsert : ∀ bucket : Column TxId TxNum,
      (∀ (txid : TxId) n, bucket[txid]? = some n → db[n]? = some txid) →
      ∀ (txid : TxId) n, (bucket.insert tx.tx.txid tx.txNum)[txid]? = some n →
        db[n]? = some txid := by
    intro bucket hBucket txid n hGet
    rw [Column.getElem?_insert] at hGet
    split at hGet
    · next hEq =>
      cases hGet
      exact hEq ▸ hTx
    · exact hBucket txid n hGet
  unfold TxNumCache.addTx
  cases buckets with
  | nil => exact h
  | cons front rest =>
    dsimp only
    split
    · intro bucket hBucket
      rcases mem_cons.mp hBucket with rfl | hBucket
      · exact hInsert ∅ fun txid n hGet => by
          rw [Std.ExtTreeMap.getElem?_empty] at hGet
          cases hGet
      · exact h bucket (mem_of_mem_dropLast hBucket)
    · intro bucket hBucket
      rcases mem_cons.mp hBucket with rfl | hBucket
      · exact hInsert front (h front mem_cons_self)
      · exact h bucket (mem_cons_of_mem _ hBucket)

theorem CacheOk.addToCache (h : CacheOk db cache.buckets) {indexTxs : List IndexTx}
    (hTxs : ∀ tx ∈ indexTxs, db[tx.txNum]? = some tx.tx.txid) :
    CacheOk db (cache.addToCache indexTxs).buckets := by
  have hFold : ∀ buckets, CacheOk db buckets →
      CacheOk db (indexTxs.foldl (TxNumCache.addTx cache.bucketSize) buckets) := by
    induction indexTxs with
    | nil => exact fun _ hBuckets => hBuckets
    | cons tx indexTxs ih =>
      intro buckets hBuckets
      obtain ⟨hHead, hTail⟩ := forall_mem_cons.mp hTxs
      exact ih hTail _ (hBuckets.addTx hHead)
  exact hFold _ h

theorem cacheOk_of_empty (h : ∀ bucket ∈ buckets, bucket = ∅) : CacheOk db buckets := by
  intro bucket hBucket txid n hGet
  rw [h bucket hBucket, Std.ExtTreeMap.getElem?_empty] at hGet
  cases hGet

theorem CacheOk.append (h : CacheOk db buckets) (txids : List TxId) :
    CacheOk (db ++ txids) buckets :=
  fun bucket hBucket txid n hGet => getElem?_append_left
    (List.getElem?_eq_some_iff.mp (h bucket hBucket txid n hGet)).1 ▸ h bucket hBucket txid n hGet

/-- What a block prepared with the cache consists of, and what becomes of the cache. -/
theorem prepareIndexedTxsCached_eq_ok {ε : Type} {cache cache' : TxNumCache}
    {updateMode : PrepareUpdateMode} {indexTxs : List IndexTx}
    (h : (prepareIndexedTxsCached db firstTxNum txs cache updateMode : Except (IndexTxError ε) _) =
      .ok (indexTxs, cache'))
    :
    cache' = cache.update indexTxs updateMode ∧
      ∀ itx ∈ indexTxs, ∃ idx, txs[idx]? = some itx.tx ∧ itx.txNum = firstTxNum + idx := by
  obtain ⟨_, hTxs, h⟩ := bind_eq_ok.mp h
  cases pure_eq_ok.mp h
  refine ⟨rfl, fun itx hItx => ?_⟩
  obtain ⟨⟨tx, idx⟩, hMem, hIndex⟩ := Forall₂.exists_left (mapM_eq_ok.mp hTxs) hItx
  refine ⟨idx, ?_⟩
  rw [mem_zipIdx_iff_getElem?.mp hMem]
  cases idx with
  | zero =>
    cases hIndex
    exact ⟨rfl, rfl⟩
  | succ idx =>
    obtain ⟨nums, -, hIndex⟩ := bind_eq_ok.mp hIndex
    cases pure_eq_ok.mp hIndex
    exact ⟨rfl, rfl⟩

end

/-- The blocks whose transactions the database holds, oldest first, and the cache. -/
structure CachedDb where
  blocks : List (List Tx)
  cache : TxNumCache

namespace CachedDb

/-- The txids of the database, at their numbers. -/
def db (s : CachedDb) : List TxId := s.blocks.flatten.map fun tx => tx.txid

def init (numBuckets bucketSize : Nat) : CachedDb := ⟨[], .new numBuckets bucketSize⟩

inductive Action
  | add (txs : List Tx)
  | delete

/-- A block is added with the next numbers, or the tip is deleted. -/
def step (s : CachedDb) : Action → Option CachedDb
  | .add txs => do
    let (_, cache) ← (prepareIndexedTxsCached s.db s.db.length txs s.cache .add :
      Except (IndexTxError Empty) _).toOption
    return ⟨s.blocks ++ [txs], cache⟩
  | .delete => do
    let txs ← s.blocks.getLast?
    let (_, cache) ← (prepareIndexedTxsCached s.db (s.db.length - txs.length) txs s.cache .delete :
      Except (IndexTxError Empty) _).toOption
    return ⟨s.blocks.dropLast, cache⟩

theorem cacheOk_step {s t : CachedDb} {a : Action} (h : CacheOk s.db s.cache.buckets)
    (hStep : s.step a = some t) : CacheOk t.db t.cache.buckets := by
  cases a with
  | add txs =>
    obtain ⟨⟨indexTxs, cache⟩, hPrepare, hStep⟩ := Option.bind_eq_some_iff.mp hStep
    cases hStep
    obtain ⟨rfl, hTxs⟩ := prepareIndexedTxsCached_eq_ok (toOption_eq_some.mp hPrepare)
    have hDb : db ⟨s.blocks ++ [txs], s.cache.update indexTxs .add⟩ =
        s.db ++ txs.map fun tx => tx.txid := by
      unfold db
      rw [flatten_append, map_append, flatten_singleton]
    rw [hDb]
    refine (h.append _).addToCache fun itx hItx => ?_
    obtain ⟨idx, hGet, hNum⟩ := hTxs itx hItx
    rw [hNum, getElem?_append_right (Nat.le_add_right _ _), Nat.add_sub_cancel_left,
      getElem?_map, hGet]
    rfl
  | delete =>
    obtain ⟨txs, -, hStep⟩ := Option.bind_eq_some_iff.mp hStep
    obtain ⟨⟨indexTxs, cache⟩, hPrepare, hStep⟩ := Option.bind_eq_some_iff.mp hStep
    cases hStep
    obtain ⟨rfl, -⟩ := prepareIndexedTxsCached_eq_ok (toOption_eq_some.mp hPrepare)
    -- the deleted block's numbers are given out again, so nothing may stay
    refine cacheOk_of_empty fun bucket hBucket => ?_
    obtain ⟨_, -, rfl⟩ := mem_map.mp hBucket
    rfl

theorem cacheOk_of_reaches {numBuckets bucketSize : Nat} {s : CachedDb}
    (h : Reaches step (init numBuckets bucketSize) s) : CacheOk s.db s.cache.buckets :=
  Reaches.invariant (I := fun s : CachedDb => CacheOk s.db s.cache.buckets)
    (cacheOk_of_empty fun _ hBucket => eq_of_mem_replicate hBucket)
    (fun _ _ _ hOk hStep => cacheOk_step hOk hStep) h

/-- While no txid is twice in the database, a block is prepared as without the cache. -/
theorem prepare_cached_eq_uncached {ε : Type} {numBuckets bucketSize : Nat} {s : CachedDb}
    (hReach : Reaches step (init numBuckets bucketSize) s) (hNodup : s.db.Nodup)
    (firstTxNum : TxNum) (txs : List Tx) (updateMode : PrepareUpdateMode) :
    (prepareIndexedTxsCached s.db firstTxNum txs s.cache updateMode).map Prod.fst =
      prepareIndexedTxs (fun txid => (.ok (txNumByTxid s.db txid) : Except ε _)) firstTxNum
        txs := by
  rw [prepareIndexedTxsCached_eq ((cacheOk_of_reaches hReach).sameNums hNodup firstTxNum txs)]
  cases prepareIndexedTxs (fun txid => (.ok (txNumByTxid s.db txid) : Except ε _)) firstTxNum txs
    <;> rfl

namespace Sample

def txid (byte : UInt8) : TxId := .fill byte

def coinbase (byte : UInt8) : Tx := ⟨txid byte, 1, [], [], 0⟩

def spend (byte prev : UInt8) : Tx := ⟨txid byte, 1, [⟨⟨txid prev, 0⟩, ⟨[]⟩, 0, none⟩], [], 0⟩

/-- A coinbase, a block that spends it, and that block deleted for another one. -/
def reorg : Option CachedDb :=
  [.add [coinbase 1], .add [coinbase 2, spend 3 1], .delete, .add [coinbase 4]].foldlM step
    (init 2 1)

theorem reorg_isSome : reorg.isSome = true := by decide +kernel

/-- The same coinbase in two blocks. -/
def twice : Option CachedDb := [.add [coinbase 1], .add [coinbase 1]].foldlM step (init 1 10)

theorem twice_isSome : twice.isSome = true := by decide +kernel

end Sample

theorem reorg_cached_eq_uncached :
    ((prepareIndexedTxsCached (Sample.reorg.get Sample.reorg_isSome).db 2
        [Sample.coinbase 5, Sample.spend 6 1, Sample.spend 7 6]
        (Sample.reorg.get Sample.reorg_isSome).cache .add).map Prod.fst =
      prepareIndexedTxs (fun txid => (.ok (txNumByTxid
        (Sample.reorg.get Sample.reorg_isSome).db txid) : Except Empty _)) 2
        [Sample.coinbase 5, Sample.spend 6 1, Sample.spend 7 6]) :=
  prepare_cached_eq_uncached (.of_run (Option.some_get Sample.reorg_isSome).symm)
    (by decide +kernel) 2 _ .add

/-- The cache has the number of the second one, the database finds the first. -/
theorem twice_cached_ne_uncached : ∃ s : CachedDb, Reaches step (init 1 10) s ∧
    (prepareIndexedTxsCached s.db s.db.length [Sample.coinbase 2, Sample.spend 3 1] s.cache
        .add).map Prod.fst ≠
      prepareIndexedTxs (fun txid => (.ok (txNumByTxid s.db txid) : Except Empty _)) s.db.length
        [Sample.coinbase 2, Sample.spend 3 1] := by
  refine ⟨Sample.twice.get Sample.twice_isSome,
    .of_run (Option.some_get Sample.twice_isSome).symm, fun hEq => ?_⟩
  have hNums := congrArg (fun r => r.toOption.map fun txs => txs.map fun itx => itx.inputNums) hEq
  revert hNums
  decide +kernel

end CachedDb

end Ergon
