import Ergon.Lib.Kahn
import Ergon.Archival.Index

/-!
# Ergon — captured sources

`CapturedSource` (`chronik-lib/src/ergon_archival.rs`): recent blocks of the
node's chain and its mempool, as owned values. A source carries that its blocks
are a piece of a chain, since every operation that adds to it checks or keeps
that. Whether the caller may use the node (the owner's address, the guards) is
a parameter of each operation.

The mempool is captured in the order of `reconcile_captured_and_anchor`
(`chronik-cpp/ergon_archival_probe.cpp`), which schedules parents first.

* `CapturedFrom.parentsFirst` — the captured mempool then lists parents first.
-/

namespace Ergon.Archival

open Lib List

/-- `RETAINED_BLOCKS`. -/
def retainedBlocks : Nat := 288

/-- The bound on the bytes of a source. -/
def maxPayload : Nat := 64 * 1024 * 1024

structure RetainedBlock where
  block : Block
  wireBytes : Nat

structure RetainedPoolEntry where
  entry : MempoolTx
  wireBytes : Nat

def RetainedPoolEntry.txid (e : RetainedPoolEntry) : TxId := e.entry.tx.txid

/-- A piece of a chain: heights go up from `start` and each block names the one
below. -/
structure Linked (start : Int) (bs : List RetainedBlock) : Prop where
  height : ∀ (i : Nat) b, bs[i]? = some b → b.block.height = start + i
  prev : ∀ (i : Nat) b next, bs[i]? = some b → bs[i + 1]? = some next →
    next.block.prevHash = b.block.hash

theorem linked_nil (start : Int) : Linked start [] := ⟨nofun, nofun⟩

variable {bs : List RetainedBlock} {start : Int}

theorem Linked.take (h : Linked start bs) (n : Nat) : Linked start (bs.take n) := by
  have hMem : ∀ {i : Nat} {b}, (bs.take n)[i]? = some b → bs[i]? = some b := by
    intro i b hb
    rw [getElem?_take] at hb
    split at hb
    · exact hb
    · cases hb
  exact ⟨fun i b hb => h.height i b (hMem hb),
    fun i b next hb hNext => h.prev i b next (hMem hb) (hMem hNext)⟩

theorem Linked.drop (h : Linked start bs) (n : Nat) : Linked (start + n) (bs.drop n) where
  height i b hb := by
    rw [getElem?_drop] at hb
    have := h.height _ b hb
    push_cast at this
    omega
  prev i b next hb hNext := by
    rw [getElem?_drop] at hb hNext
    exact h.prev _ b next hb hNext

theorem Linked.concat (h : Linked start bs) {b : RetainedBlock}
    (hHeight : b.block.height = start + bs.length)
    (hPrev : ∀ prev ∈ bs.getLast?, b.block.prevHash = prev.block.hash) :
    Linked start (bs ++ [b]) where
  height i c hc := by
    rcases Nat.lt_trichotomy i bs.length with hLt | rfl | hGt
    · rw [getElem?_append_left hLt] at hc
      exact h.height i c hc
    · rw [getElem?_concat_length] at hc
      cases hc
      exact hHeight
    · rw [getElem?_eq_none (by simp; omega)] at hc
      cases hc
  prev i c next hc hNext := by
    have hLt : i < bs.length := by
      have := (List.getElem?_eq_some_iff.mp hNext).1
      simp at this
      omega
    rw [getElem?_append_left hLt] at hc
    rcases Nat.lt_or_ge (i + 1) bs.length with hLt' | hGe
    · rw [getElem?_append_left hLt'] at hNext
      exact h.prev i c next hc hNext
    · -- the new block, after the last one
      have hEnd : i + 1 = bs.length := by omega
      rw [hEnd, getElem?_concat_length] at hNext
      cases hNext
      refine hPrev c ?_
      rw [getLast?_eq_getElem?, ← hEnd]
      exact hc

/-- The height of its first block tells where a piece starts. -/
theorem Linked.start_eq (h : Linked start bs) {b : RetainedBlock} (hb : bs.head? = some b) :
    b.block.height = start := by
  have := h.height 0 b (by rw [← head?_eq_getElem?]; exact hb)
  simpa using this

/-- Blocks kept from an earlier capture, to rewind from. -/
structure Retained where
  blocks : List RetainedBlock
  linked : ∃ start : Int, 0 ≤ start ∧ Linked start blocks

structure CapturedSource where
  startHeight : Int
  height : Int
  hash : FixedBytes 32
  generation : Nat
  revision : Nat
  blocks : List RetainedBlock
  mempool : List RetainedPoolEntry
  start_nonneg : 0 ≤ startHeight
  linked : Linked startHeight blocks

/-! ## Building a source -/

variable (permitted : Bool)

def newCapture (startHeight height : Int) (hash : FixedBytes 32) (generation revision : Nat) :
    Option CapturedSource :=
  if permitted = false ∨ generation = 0 ∨ revision = 0 then none
  else if h : 0 ≤ startHeight ∧ startHeight ≤ height then
    if 2 * retainedBlocks < (height - startHeight + 1).toNat then none
    else some ⟨startHeight, height, hash, generation, revision, [], [], h.1, linked_nil _⟩
  else none

namespace CapturedSource

variable (source : CapturedSource)

/-- `seed_capture`: the part of the retained blocks that is still in the chain. -/
def seedCapture (retained : Retained) (count : Nat) : Option CapturedSource :=
  if permitted = false ∨ source.blocks ≠ [] ∨ retained.blocks.length < count ∨
      (source.height - source.startHeight + 1).toNat < count then
    none
  else if h : ∀ b ∈ retained.blocks.head?, 0 < count → b.block.height = source.startHeight then
    some { source with
      blocks := retained.blocks.take count
      linked := by
        obtain ⟨start, -, hLinked⟩ := retained.linked
        rcases Nat.eq_zero_or_pos count with rfl | hPos
        · exact linked_nil _
        · cases hHead : retained.blocks.head? with
          | none =>
            rw [head?_eq_none_iff.mp hHead, take_nil]
            exact linked_nil _
          | some b =>
            have hStart := hLinked.start_eq hHead
            rw [h b hHead hPos] at hStart
            rw [hStart]
            exact hLinked.take count }
  else none

/-- `capture_block`, with the block that `bridge_block` gives. -/
def captureBlock (block : Option Block) (wireBytes : Nat) : Option CapturedSource :=
  match block with
  | none => none
  | some block =>
    if permitted = false ∨ wireBytes ≤ block.size ∨ maxPayload < wireBytes then none
    else if h : block.height = source.startHeight + source.blocks.length ∧
        ∀ prev ∈ source.blocks.getLast?, block.prevHash = prev.block.hash then
      some { source with
        blocks := source.blocks ++ [⟨block, wireBytes⟩]
        linked := source.linked.concat h.1 h.2 }
    else none

/-- `capture_mempool`, with the transaction that `bridge_tx` gives. -/
def captureMempool (tx : Option Tx) (time : Int) (wireBytes : Nat) : Option CapturedSource :=
  if permitted = false ∨ wireBytes = 0 ∨ maxPayload < wireBytes then none
  else tx.map fun tx => { source with mempool := source.mempool ++ [⟨⟨tx, time⟩, wireBytes⟩] }

/-- `seed_pool_entry`: an entry of an earlier capture of the same chain. -/
def seedPoolEntry (pool : List RetainedPoolEntry) (poolChainGeneration index : Nat) :
    Option CapturedSource :=
  if permitted = false ∨ source.generation ≠ poolChainGeneration then none
  else pool[index]?.map fun e => { source with mempool := source.mempool ++ [e] }

end CapturedSource

/-! ## The order of the mempool -/

/-- The dependencies among captured transactions. -/
def poolGraph (pool : List RetainedPoolEntry) : Graph TxId :=
  pool.map fun e => (e.txid, e.entry.tx.inputs.map (·.prevOut.txid))

/-- Every transaction comes after those it spends from. -/
def PoolParentsFirst (pool : List RetainedPoolEntry) : Prop :=
  ParentsFirst (poolGraph pool) [] (pool.map (·.txid))

/-- The distinct parents of a transaction of the node's mempool. -/
def poolParents (entries : Column TxId Tx) (txid : TxId) : List TxId :=
  match entries[txid]? with
  | none => []
  | some tx => (sortedSet (tx.inputs.map (·.prevOut.txid))).filter fun parent => parent ∈ entries

theorem nodup_poolParents (entries : Column TxId Tx) (id : TxId) :
    (poolParents entries id).Nodup := by
  unfold poolParents
  split
  · exact nodup_nil
  · exact (nodup_sortedSet _).filter _

/-- The order in which the node's mempool is captured; none for a cycle. -/
def captureOrder (entries : Column TxId Tx) : Option (List TxId) :=
  Kahn.kahn entries.keys (poolParents entries)

/-- The node's mempool, captured in that order; a txid tells the inputs of its
transaction, also of one kept from an earlier capture. -/
structure CapturedFrom (entries : Column TxId Tx) (pool : List RetainedPoolEntry) : Prop where
  order : captureOrder entries = some (pool.map (·.txid))
  inputs : ∀ e ∈ pool, ∃ tx, entries[e.txid]? = some tx ∧
    e.entry.tx.inputs.map (·.prevOut) = tx.inputs.map (·.prevOut)

theorem CapturedFrom.parentsFirst {entries : Column TxId Tx} {pool : List RetainedPoolEntry}
    (h : CapturedFrom entries pool) : PoolParentsFirst pool := by
  have hTopo :=
    Kahn.isTopoOrder_of_kahn Std.ExtTreeMap.nodup_keys (nodup_poolParents entries) h.order
  refine hTopo.parents.of_edges ?_
  intro e he parent hParent hNode
  obtain ⟨row, hRow, rfl⟩ := mem_map.mp he
  obtain ⟨row', hRow', rfl⟩ : ∃ row' ∈ pool, row'.txid = parent := by
    simpa [poolGraph] using hNode
  obtain ⟨tx, hTx, hSame⟩ := h.inputs row hRow
  obtain ⟨tx', hTx', -⟩ := h.inputs row' hRow'
  have hIn : row.txid ∈ entries := Std.ExtTreeMap.mem_iff_isSome_getElem?.mpr (by simp [hTx])
  have hIn' : row'.txid ∈ entries := Std.ExtTreeMap.mem_iff_isSome_getElem?.mpr (by simp [hTx'])
  -- the node's transaction spends from the same parents
  have hSpent : row'.txid ∈ tx.inputs.map (·.prevOut.txid) := by
    have hMap := congrArg (List.map OutPoint.txid) hSame
    simp only [map_map, Function.comp_def] at hMap
    rw [← hMap]
    exact hParent
  have hEdge : row'.txid ∈ poolParents entries row.txid := by
    simp [poolParents, hTx, mem_sortedSet, hSpent, hIn']
  refine ⟨(row.txid, poolParents entries row.txid), ?_, rfl, hEdge, ?_⟩
  · exact mem_map.mpr ⟨row.txid, Std.ExtTreeMap.mem_keys.mpr hIn, rfl⟩
  · simp only [map_map, Function.comp_def, map_id']
    exact Std.ExtTreeMap.mem_keys.mpr hIn'

end Ergon.Archival
