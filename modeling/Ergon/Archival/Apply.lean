import Ergon.Archival.Capture

/-!
# Ergon — applying a captured source

`apply_capture` (`chronik-lib/src/ergon_archival.rs`): bring the index from the
branch it was left at to the captured one, and its mempool to the captured
mempool. Mempool transactions that may not stay are removed, with everything
that spends them and from the leaves on; then blocks are disconnected down to
the common part and connected from there, and what is missing of the mempool is
added in the order of the source.

The function is given over any indexer; `ops` is one that keeps blocks and
mempool and logs each operation with what it was applied to. The counts of
`last_pool_ops` are left out.

* `addDescendants_fuel` — the search for descendants ends.
-/

namespace Ergon.Archival

open Lib List Std.ExtTreeMap

structure ArchivalProbe (Index : Type) extends Probe Index where
  gate : Gate
  capturedChain : Retained
  capturedPool : List RetainedPoolEntry
  poolChainGeneration : Nat

/-! ## Checks -/

namespace CapturedSource

variable (source : CapturedSource)

def complete : Bool :=
  source.blocks.length = (source.height - source.startHeight + 1).toNat ∧
  source.blocks.head?.map (·.block.height) = some source.startHeight ∧
  source.blocks.getLast?.map (·.block.hash) = some source.hash ∧
  (source.blocks.map (·.wireBytes)).sum + (source.mempool.map (·.wireBytes)).sum ≤ maxPayload ∧
  source.mempool.length ≤ 4096

/-- All blocks, for a first capture. -/
def retained : Retained := ⟨source.blocks, source.startHeight, source.start_nonneg, source.linked⟩

/-- The most recent blocks. -/
def recent : Retained where
  blocks := source.blocks.drop (source.blocks.length - retainedBlocks)
  linked := ⟨_, Int.add_nonneg source.start_nonneg (Int.natCast_nonneg _), source.linked.drop _⟩

/-- The captured mempool by txid. -/
def desired : Column TxId RetainedPoolEntry :=
  Column.putAll ∅ (source.mempool.map fun row => (row.txid, row))

end CapturedSource

def sameStorage (a b : RetainedBlock) : Bool :=
  a.block.hash = b.block.hash ∧ a.block.fileNum = b.block.fileNum ∧
    a.block.dataPos = b.block.dataPos ∧ a.block.undoPos = b.block.undoPos

/-- No block of the part with equal hashes was stored elsewhere meanwhile. -/
def storageKept : List RetainedBlock → List RetainedBlock → Bool
  | old :: olds, new :: news =>
    if old.block.hash = new.block.hash then sameStorage old new && storageKept olds news else true
  | _, _ => true

/-- How many blocks the two branches share. -/
def commonLength (old new : List RetainedBlock) : Nat :=
  ((old.zip new).takeWhile fun p => sameStorage p.1 p.2).length

/-! ## Mempool transactions to remove -/

/-- Those that are not captured as they are; all of them if the chain changed. -/
def stale (txs : Column TxId MempoolTx) (unchanged : Bool)
    (desired : Column TxId RetainedPoolEntry) : List TxId :=
  (txs.toList.filter fun p =>
    !unchanged || desired[p.1]?.all fun new => p.2 ≠ new.entry).map Prod.fst

/-- Those that spend from a transaction to remove. -/
def descendants (txs : Column TxId MempoolTx) (remove : List TxId) : List TxId :=
  (txs.toList.filter fun p =>
    p.1 ∉ remove ∧ p.2.tx.inputs.any fun i => i.prevOut.txid ∈ remove).map Prod.fst

def addDescendants (txs : Column TxId MempoolTx) : Nat → List TxId → List TxId
  | 0, remove => remove
  | fuel + 1, remove =>
    if descendants txs remove = [] then remove
    else addDescendants txs fuel (remove ++ descendants txs remove)

/-- The transactions that stay. -/
def staying (txs : Column TxId MempoolTx) (remove : List TxId) : List TxId :=
  txs.keys.filter fun id => id ∉ remove

variable {txs : Column TxId MempoolTx} {remove : List TxId}

theorem mem_descendants {id : TxId} :
    id ∈ descendants txs remove ↔ ∃ row, txs[id]? = some row ∧ id ∉ remove ∧
      ∃ i ∈ row.tx.inputs, i.prevOut.txid ∈ remove := by
  simp [descendants, mem_toList_iff_getElem?_eq_some]

/-- A round that finds a descendant leaves fewer to stay. -/
theorem staying_descendants (h : descendants txs remove ≠ []) :
    (staying txs (remove ++ descendants txs remove)).length < (staying txs remove).length := by
  obtain ⟨id, hId⟩ := exists_mem_of_ne_nil _ h
  obtain ⟨row, hRow, hNot, -⟩ := mem_descendants.mp hId
  have hKey : id ∈ txs.keys :=
    mem_keys.mpr (mem_iff_isSome_getElem?.mpr (by simp [hRow]))
  have hAgain : staying txs (remove ++ descendants txs remove) =
      (staying txs remove).filter fun id => id ∉ descendants txs remove := by
    simp [staying, filter_filter, Bool.and_comm]
  rw [hAgain]
  refine length_filter_lt_length_iff_exists.mpr ⟨id, ?_, ?_⟩
  · exact mem_filter.mpr ⟨hKey, decide_eq_true hNot⟩
  · exact fun hKept => of_decide_eq_true hKept hId

/-- The search ends within the size of the mempool. -/
theorem addDescendants_fuel {fuel fuel' : Nat} (h : (staying txs remove).length ≤ fuel)
    (h' : (staying txs remove).length ≤ fuel') :
    addDescendants txs fuel remove = addDescendants txs fuel' remove := by
  induction fuel generalizing fuel' remove with
  | zero =>
    -- nothing stays, so nothing is found
    have hNone : descendants txs remove = [] := by
      by_contra hSome
      have := staying_descendants hSome
      omega
    cases fuel' <;> simp [addDescendants, hNone]
  | succ fuel ih =>
    by_cases hNone : descendants txs remove = []
    · cases fuel' <;> simp [addDescendants, hNone]
    · have hFewer := staying_descendants hNone
      obtain ⟨fuel', rfl⟩ : ∃ k, fuel' = k + 1 := ⟨fuel' - 1, by omega⟩
      simp only [addDescendants, if_neg hNone]
      exact ih (by omega) (by omega)

/-- And then no transaction that stays spends one to remove. -/
theorem descendants_addDescendants {fuel : Nat} (h : (staying txs remove).length ≤ fuel) :
    descendants txs (addDescendants txs fuel remove) = [] := by
  induction fuel generalizing remove with
  | zero =>
    by_contra hSome
    have : (staying txs (remove ++ descendants txs remove)).length < (staying txs remove).length :=
      staying_descendants hSome
    omega
  | succ fuel ih =>
    by_cases hNone : descendants txs remove = []
    · simp [addDescendants, hNone]
    · have hFewer := staying_descendants hNone
      simp only [addDescendants, if_neg hNone]
      exact ih (by omega)

/-- Only transactions of the mempool are added, and none is lost. -/
theorem mem_addDescendants {fuel : Nat} :
    (∀ id ∈ remove, id ∈ addDescendants txs fuel remove) ∧
    ∀ id ∈ addDescendants txs fuel remove, id ∈ remove ∨ id ∈ txs := by
  induction fuel generalizing remove with
  | zero => exact ⟨fun _ h => h, fun _ h => .inl h⟩
  | succ fuel ih =>
    simp only [addDescendants]
    split
    · exact ⟨fun _ h => h, fun _ h => .inl h⟩
    · obtain ⟨hKept, hFrom⟩ := @ih (remove ++ descendants txs remove)
      refine ⟨fun id hId => hKept id (mem_append_left _ hId), fun id hId => ?_⟩
      rcases hFrom id hId with hMem | hMem
      · rcases mem_append.mp hMem with hOld | hNew
        · exact .inl hOld
        · obtain ⟨row, hRow, -⟩ := mem_descendants.mp hNew
          exact .inr (mem_iff_isSome_getElem?.mpr (by simp [hRow]))
      · exact .inr hMem

variable {Index Env Indexed : Type} (x : IndexOps Index Env Indexed)

/-! ## The steps on the index -/

def disconnectOld (env : Env) (index : Index) (old : RetainedBlock) : Index × Bool :=
  x.handleBlockDisconnected index env (x.makeChronikBlock index old.block)

/-- An entry that was kept is not added again. -/
def addEntry (env : Env) (index : Index) (e : RetainedPoolEntry) : Index × Bool :=
  if (x.txs index)[e.txid]?.isSome then (index, true)
  else x.handleTxAddedToMempool index env e.entry

/-- The last check: txids and tip. -/
def reconciled (env : Env) (source : CapturedSource) (index : Index) : Bool :=
  (x.txs index).keys = sortedSet (source.mempool.map (·.txid)) ∧
    x.blockchainInfo index env = some ⟨source.height, source.hash⟩

def rewriteIndex (env : Env) (fuel : Nat) (index : Index) (origin : List RetainedBlock)
    (source : CapturedSource) (unchanged : Bool) : Index × Bool :=
  let common := commonLength origin source.blocks
  -- with the times of transactions that are still in the index mempool
  let additions := (source.blocks.drop common).map fun b => x.makeChronikBlock index b.block
  if source.desired.size ≠ source.mempool.length then (index, false)
  else
    let txs := x.txs index
    let remove := sortedSet (addDescendants txs fuel (stale txs unchanged source.desired))
    andThen (removeConflicts x env fuel index remove) fun index =>
    andThen (runEach (disconnectOld x env) index (origin.drop common).reverse) fun index =>
    andThen (runEach (fun index block => x.handleBlockConnected index env block) index additions)
      fun index =>
    andThen (runEach (addEntry x env) index source.mempool) fun index =>
    (index, reconciled x env source index)

/-- The branch to rewind from; a first capture starts from the source itself. -/
def ArchivalProbe.withOrigin (p : ArchivalProbe Index) (source : CapturedSource) :
    ArchivalProbe Index :=
  if p.capturedChain.blocks = [] then { p with capturedChain := source.retained } else p

/-- Rewrite the index, and keep what the next capture rewinds from. -/
def rewriteFrom (env : Env) (fuel : Nat) (p : ArchivalProbe Index) (source : CapturedSource) :
    ArchivalProbe Index × Bool :=
  let origin := p.capturedChain.blocks
  let common := commonLength origin source.blocks
  let unchanged := common = origin.length ∧ common = source.blocks.length ∧
    source.generation = p.poolChainGeneration
  let r := rewriteIndex x env fuel p.index origin source unchanged
  if r.2 then
    ({ p with
      index := r.1
      capturedChain := source.recent
      capturedPool := source.mempool
      poolChainGeneration := source.generation
      appliedCapture := some ⟨⟨⟨source.height, source.hash⟩, source.generation, source.revision⟩,
        p.gate.epoch⟩ }, true)
  else ({ p with index := r.1 }, false)

/-- `apply_capture`; `fuel` bounds its loops. -/
def applyCapture (env : Env) (permitted : Bool) (fuel : Nat) (p : ArchivalProbe Index)
    (source : CapturedSource) : ArchivalProbe Index × Bool :=
  if permitted = false ∨ p.journalActive ∨ source.complete = false ∨
      (p.capturedChain.blocks.head?.any fun b => b.block.height ≠ source.startHeight) ∨
      storageKept p.capturedChain.blocks source.blocks = false then
    (p, false)
  else
    let p := { p with reconciling := true, appliedCapture := none, gate := p.gate.begin }
    match x.blockchainInfo p.index env with
    | none => (p, false)
    | some indexed =>
      if p.capturedChain.blocks = [] ∧ indexed ≠ ⟨source.height, source.hash⟩ then (p, false)
      else
        let p := p.withOrigin source
        let origin := p.capturedChain.blocks
        if origin.getLast?.map (fun b => (⟨b.block.height, b.block.hash⟩ : BlockRef)) ≠
            some indexed ∨ commonLength origin source.blocks = 0 then
          (p, false)
        else rewriteFrom x env fuel p source

/-! ## An indexer -/

/-- A block of the index, by height; its time and target are not read. -/
structure DbBlock where
  hash : FixedBytes 32
  fileNum : Nat
  dataPos : Nat

structure ChronikBlock where
  block : Block
  -- `time_first_seen` of each transaction
  times : List Int

inductive Op
  | removed (txid : TxId)
  | disconnected (block : ChronikBlock)
  | connected (block : ChronikBlock)
  | added (tx : MempoolTx)

structure View where
  blocks : Column Int DbBlock
  mempool : Column TxId MempoolTx

/-- `BlockReader::tip`, as `blockchain_info` gives it. -/
def View.tip (v : View) : BlockRef :=
  match v.blocks.toList.getLast? with
  | none => ⟨-1, TxId.zero⟩
  | some (height, block) => ⟨height, block.hash⟩

structure Indexer extends View where
  -- every operation so far, with what it was applied to
  calls : List (View × Op)

/-- Whether the other tables refuse an operation depends on all so far. -/
def Indexer.call (refuses : List Op → Bool) (s : Indexer) (op : Op) (next : View) : Indexer × Bool :=
  if refuses (s.calls.map Prod.snd ++ [op]) then (s, false)
  else ({ next with calls := s.calls ++ [(s.toView, op)] }, true)

/-- The operations of the indexer on blocks and mempool. -/
def ops (refuses : List Op → Bool) : IndexOps Indexer Unit ChronikBlock where
  txs s := s.mempool
  blockchainInfo s _ := some s.tip
  handleTxAddedToMempool s _ row :=
    if s.mempool[row.tx.txid]?.isSome then (s, false)
    else s.call refuses (.added row) ⟨s.blocks, s.mempool.insert row.tx.txid row⟩
  handleTxRemovedFromMempool s _ txid :=
    if s.mempool[txid]?.isSome then s.call refuses (.removed txid) ⟨s.blocks, s.mempool.erase txid⟩
    else (s, false)
  handleBlockConnected s _ b :=
    s.call refuses (.connected b)
      ⟨s.blocks.insert b.block.height ⟨b.block.hash, b.block.fileNum, b.block.dataPos⟩,
        s.mempool.eraseAll (b.block.txs.map (·.txid))⟩
  handleBlockDisconnected s _ b :=
    s.call refuses (.disconnected b) ⟨s.blocks.erase b.block.height, s.mempool⟩
  makeChronikBlock s block :=
    ⟨block, block.txs.map fun tx => (s.mempool[tx.txid]?.map (·.timeFirstSeen)).getD 0⟩

end Ergon.Archival
