import Ergon.Node.Journal
import Ergon.Archival.Index

/-!
# Ergon — the journal replay

`JournalReplay` (`chronik-cpp/ergon_journal_replay.cpp`) with the journal part of
`ArchivalProbe` (`chronik-lib/src/ergon_archival.rs`) and the request gate as a
machine over the native journal of `Ergon.Journal`.
The holder of the replay's mutex runs `Drain`, `Publish` or `Stop`; between any
two of its steps the node moves its tip and its mempool and records events, the
index is reported failed, and others close, fail or invalidate the gate. While
the replay holds the node's locks the node stands still.

The indexer's own operations and reads of node storage are parameters; a failed
operation may leave the index changed. Storage positions (`recent`), the network
profile and the owner's address are not in the state: a check of them may fail
at any time.
-/

namespace Ergon.Replay

open Lib Archival

/-! ## The node -/

/-- `SourceGeneration::Advance`: zero is exhausted, for ever. -/
def advance (value count : Nat) : Nat :=
  if value = 0 ∨ maxU64 - value < count then 0 else value + count

structure Native where
  tip : Option BlockRef
  generation : Nat
  -- the mempool: when each transaction was accepted
  pool : Column TxId Int
  revision : Nat

/-- What changes the active chain or the mempool. -/
inductive NativeOp
  | setTip (tip : Option BlockRef)
  | addUnchecked (txid : TxId) (time : Int)
  | removeUnchecked (txid : TxId)
  | clear
  | prioritiseTransaction (txid : TxId)
  | addTransactionsUpdated (n : Nat)

def Native.apply (n : Native) : NativeOp → Native
  | .setTip tip =>
    { n with tip := tip, generation := if n.tip = tip then n.generation else advance n.generation 1 }
  | .addUnchecked txid time =>
    { n with pool := n.pool.insertIfNew txid time, revision := advance n.revision 1 }
  | .removeUnchecked txid => { n with pool := n.pool.erase txid, revision := advance n.revision 1 }
  | .clear => { n with pool := ∅, revision := advance n.revision 1 }
  | .prioritiseTransaction txid =>
    { n with revision := if txid ∈ n.pool then advance n.revision 1 else n.revision }
  | .addTransactionsUpdated count => { n with revision := advance n.revision count }

/-! ## Storage -/

/-- The indexer and node storage. -/
structure Backend (Index Env Stored Indexed : Type) extends IndexOps Index Env Indexed where
  -- `load_block`, `load_block_undo` and their size budget
  loadBlock : Env → Journal.BlockMeta → Option Stored
  bridgeBlock : Env → Journal.BlockMeta → Stored → Option Block

/-! ## Applying an event -/

variable {Index Env Stored Indexed : Type} (b : Backend Index Env Stored Indexed)

def defaultCoin : Coin := ⟨⟨0, ⟨[]⟩⟩, 0, false⟩

/-- The height of a coin that a mempool transaction creates. -/
def mempoolHeight : Int := 0x7FFFFFFF

def spentCoin (coin : Coin) : Option Coin :=
  if coin.isSpent then none
  else some { coin with height := if coin.height = mempoolHeight then -1 else coin.height }

/-- `bridge_tx`: there must be a coin for each input, and every input gets one. -/
def bridgeTx (tx : Tx) (coins : List Coin) : Option Tx :=
  if tx.isCoinBase then
    if coins = [] then
      some { tx with inputs := tx.inputs.map fun i => { i with coin := some defaultCoin } }
    else none
  else if coins.length ≠ tx.inputs.length then none
  else
    (coins.mapM spentCoin).map fun coins =>
      { tx with inputs := tx.inputs.zipWith (fun i coin => { i with coin := some coin }) coins }

/-- `apply_journal_add`, after the guard. -/
def applyJournalAdd (index : Index) (env : Env) (e : Journal.Event) : Index × Bool :=
  match e.tx.bind fun tx => bridgeTx tx e.spentCoins with
  | none => (index, false)
  | some tx =>
    if tx.inputs = [] ∨ tx.inputs.any (·.coin.isNone) ∨ (b.txs index)[tx.txid]?.isSome then
      (index, false)
    else b.handleTxAddedToMempool index env ⟨tx, e.acceptTime⟩

/-- `apply_journal_remove`, after the guard. -/
def applyJournalRemove (index : Index) (env : Env) (e : Journal.Event) : Index × Bool :=
  match e.tx with
  | none => (index, false)
  | some tx =>
    -- a transaction trimmed before its acceptance was recorded is not there
    if (b.txs index)[tx.txid]?.isSome then b.handleTxRemovedFromMempool index env tx.txid
    else (index, true)

/-- The block is the next one above the indexed tip, or the tip itself. -/
def fitsTip (tip : BlockRef) (connected : Bool) (block : Block) : Bool :=
  if connected then
    tip.height < 2 ^ 31 - 1 ∧ tip.height + 1 = block.height ∧ tip.hash = block.prevHash
  else tip.height = block.height ∧ tip.hash = block.hash

/-- Remove the conflicts of a block from the index mempool. -/
def clearConflicts (index : Index) (env : Env) (remove : List TxId) : Index × Bool :=
  -- whoever spends a conflict must be one
  if (b.txs index).toList.any fun p => p.1 ∉ remove ∧ remove.any (spends p.2.tx) then
    (index, false)
  else
    let remove := remove.filter fun id => (b.txs index)[id]?.isSome
    removeConflicts b.toIndexOps env remove.length index remove

/-- `apply_journal_block`, after the guard. -/
def applyJournalBlock (index : Index) (env : Env) (connected : Bool) (conflicts : List TxId)
    (block : Option Block) : Index × Bool :=
  if 4096 < conflicts.length ∨ (connected = false ∧ conflicts ≠ []) then (index, false)
  else
    match block, b.blockchainInfo index env with
    | some block, some tip =>
      let remove := sortedSet conflicts
      if fitsTip tip connected block = false ∨ remove.length ≠ conflicts.length ∨
          remove.any (fun id => block.txs.any (·.txid = id)) then
        (index, false)
      else
        -- made before the removals, for the times of transactions not yet removed
        let indexed := b.makeChronikBlock index block
        if connected then
          match clearConflicts b index env remove with
          | (index', true) => b.handleBlockConnected index' env indexed
          | (index', false) => (index', false)
        else b.handleBlockDisconnected index env indexed
    | _, _ => (index, false)

/-- One of the three, by the kind of the event. -/
def applyEvent (index : Index) (env : Env) (e : Journal.Event) (stored : Option Stored) :
    Index × Bool :=
  let block := e.index.bind fun i => stored.bind (b.bridgeBlock env i)
  match e.kind with
  | .added => applyJournalAdd b index env e
  | .removed => applyJournalRemove b index env e
  | .connected => applyJournalBlock b index env true e.conflicts block
  | .disconnected => applyJournalBlock b index env false e.conflicts block

/-- What `Publish` reads under the node's locks. -/
structure Captured where
  sequence : Nat
  binding : Binding
  pool : List (TxId × Int)

/-- `prepare_journal_publication`, up to its changes. -/
def preparable (p : Probe Index) (env : Env) (c : Captured) : Bool :=
  let expected : Column TxId Int := Std.ExtTreeMap.ofList c.pool
  let actual := (b.txs p.index).toList.map fun row => (row.1, row.2.timeFirstSeen)
  p.journalActive && c.sequence == p.journalSequence && decide (c.pool.length ≤ 4096) &&
    decide (b.blockchainInfo p.index env = some c.binding.tip) &&
    decide (expected.size = c.pool.length) && decide (actual = expected.toList)

/-! ## The replay -/

/-- Where the holder of the mutex is. -/
inductive Pc (Stored : Type)
  -- `Drain`
  | drainHealthy
  | drainTarget
  | drainLoop (target : Nat)
  | drainCheck (target : Nat)
  | drainTake (target : Nat)
  | apply (target : Nat) (e : Journal.Event)
  | storage (target : Nat) (e : Journal.Event) (index : Journal.BlockMeta)
  | load (target : Nat) (e : Journal.Event) (index : Journal.BlockMeta)
  | storageAgain (target : Nat) (e : Journal.Event) (stored : Stored)
  | guard (target : Nat) (e : Journal.Event) (stored : Option Stored)
  | run (target : Nat) (e : Journal.Event) (stored : Option Stored)
  | drainEnd
  -- `Publish`
  | publishHealthy
  | publishSequence
  | capture (sequence : Nat)
  | prepare (c : Captured)
  | recheck (c : Captured)
  -- with the node's locks
  | publishCapture (c : Captured)
  -- `Fail` and a cancellation
  | fail
  | failIndex
  | failProbe
  | cancel
  -- `Stop`, with the mutex
  | stop
  | stopDetach
  | stopClose

structure State (Index Stored : Type) where
  native : Native
  journal : Journal.State
  probe : Probe Index
  gate : Gate
  -- the replay holds `cs_main` and the mempool's lock
  fence : Bool
  indexFailed : Bool
  stopped : Bool
  attached : Bool
  busy : Option (Pc Stored)
  -- calls of `Stop` that have closed the gate and wait for the mutex
  stopping : Nat
  -- for the statements: the events applied, and whether a step has thrown
  applied : List Journal.Event
  threw : Bool

/-- What the environment gives to a step. -/
structure Input (Env : Type) where
  env : Env
  -- a check fails that the state does not decide, or that sees the index
  -- reported failed during the step
  throws : Bool
  shutdownRequested : Bool

namespace State

variable (s : State Index Stored)

def goto (pc : Pc Stored) : State Index Stored := { s with busy := some pc }

/-- The call ends, and what it holds is released. -/
def done : State Index Stored := { s with busy := none, fence := false }

def throws : State Index Stored := { s with busy := some .fail, fence := false, threw := true }

def cancels : State Index Stored := { s with busy := some .cancel, fence := false, threw := true }

/-- `Healthy`, then `next`. The journal's status and `index_failed` only go from
good to bad, so they may be read at once. -/
def healthy (i : Input Env) (next : State Index Stored) : State Index Stored :=
  if s.stopped ∨ s.journal.closed ∨ s.journal.failure ≠ none ∨ s.indexFailed ∨ i.throws then s.throws
  else if i.shutdownRequested then s.cancels
  else next

/-- `archival_reconcile_guard`, which `CheckStorage` starts with, then `next`. -/
def guarded (i : Input Env) (next : State Index Stored) : State Index Stored :=
  if i.throws ∨ s.indexFailed ∨ s.native.tip = none ∨ s.native.generation = 0 ∨
      s.native.revision = 0 ∨ 4096 < s.native.pool.size then s.throws
  else next

/-- A step that takes the journal's mutex, or the node's locks, which a producer
holds while it records. -/
def quiet (next : State Index Stored) : Option (State Index Stored) :=
  if s.journal.producer = none then some next else none

end State

/-- The event that `Take` returns. -/
def front (j : Journal.State) : Option Journal.Event :=
  if j.queued = 0 ∨ j.failure ≠ none ∨ j.closed then none else (j.slots[j.head]?).join

/-! ## The steps of `Drain` -/

variable (s : State Index Stored)

/-- `Take`, and the event must be there. -/
def takeEvent (target : Nat) : State Index Stored :=
  let s' := { s with journal := Journal.take s.journal }
  match front s.journal with
  | none => s'.throws
  | some e => s'.goto (.apply target e)

/-- `Apply`, up to the first check of storage or the guard of the probe. -/
def applyStart (target : Nat) (e : Journal.Event) : State Index Stored :=
  if e.sequence ≠ s.probe.journalSequence + 1 then s.throws
  else if e.kind = .added ∨ e.kind = .removed then s.goto (.guard target e none)
  else
    match e.index with
    | none => s.throws
    | some index =>
      if index.height ≤ 0 ∨ index.file < 0 ∨ index.dataPos = 0 ∨ index.undoPos = 0 then s.throws
      else s.goto (.storage target e index)

def loadStored (i : Input Env) (target : Nat) (e : Journal.Event) (index : Journal.BlockMeta) :
    State Index Stored :=
  match b.loadBlock i.env index with
  | none => s.throws
  | some stored => s.goto (.storageAgain target e stored)

/-- `journal_guard`. -/
def journalGuard (i : Input Env) (target : Nat) (e : Journal.Event) (stored : Option Stored) :
    State Index Stored :=
  if i.throws ∨ s.indexFailed ∨ s.probe.journalActive = false ∨
      s.probe.journalSequence = maxU64 ∨ s.probe.journalSequence + 1 ≠ e.sequence then s.throws
  else
    { s with
      probe := { s.probe with reconciling := true, appliedCapture := none }
      gate := s.gate.begin
      busy := some (.run target e stored) }

/-- The rest of `apply_journal_add`, `_remove` or `_block`. -/
def runEvent (i : Input Env) (target : Nat) (e : Journal.Event) (stored : Option Stored) :
    State Index Stored :=
  let r := applyEvent b s.probe.index i.env e stored
  if r.2 then
    { s with
      probe := { s.probe with index := r.1, journalSequence := e.sequence }
      applied := s.applied ++ [e]
      busy := some (.drainLoop target) }
  else { s with probe := { s.probe with index := r.1 } }.throws

/-! ## The steps of `Publish` -/

/-- What is read under the node's locks, if the journal has not gone on. -/
def captureSource (sequence : Nat) : State Index Stored :=
  match s.native.tip with
  | none => s.throws
  | some tip =>
    if s.journal.accepted ≠ sequence then s.done
    else s.goto (.prepare ⟨sequence, ⟨tip, s.native.generation, s.native.revision⟩,
      s.native.pool.toList⟩)

/-- `prepare_journal_publication`. -/
def prepareJournalPublication (i : Input Env) (c : Captured) : State Index Stored :=
  if i.throws ∨ s.indexFailed ∨ preparable b s.probe i.env c = false then s.throws
  else
    { s with
      probe := { s.probe with
        reconciling := true, appliedCapture := some ⟨c.binding, s.gate.begin.epoch⟩ }
      gate := s.gate.begin
      busy := some (.recheck c) }

/-- The node must be as it was captured; its locks are kept from here on. -/
def recheckSource (c : Captured) : State Index Stored :=
  if s.journal.accepted ≠ c.sequence ∨ s.native.tip ≠ some c.binding.tip ∨
      s.native.generation ≠ c.binding.generation ∨ s.native.revision ≠ c.binding.revision then
    s.done
  else { s with fence := true, busy := some (.publishCapture c) }

/-- `publish_capture`, after its guard. -/
def publishCapture (c : Captured) : State Index Stored :=
  match s.probe.appliedCapture with
  | none => s.throws
  | some applied =>
    if s.probe.reconciling = false ∨ applied.binding ≠ c.binding then s.throws
    else
      let r := s.gate.publish applied.epoch c.binding
      if r.2 then
        { s with
          gate := r.1
          probe := { s.probe with reconciling := false, appliedCapture := none } }.done
      else { s with gate := r.1 }.done

/-! ## The machine -/

/-- One step of the holder of the mutex; `none` while it waits. -/
def Pc.step (i : Input Env) : Pc Stored → Option (State Index Stored)
  | .drainHealthy => s.quiet (s.healthy i (s.goto .drainTarget))
  | .drainTarget => s.quiet (s.goto (.drainLoop s.journal.accepted))
  | .drainLoop target =>
    some (s.goto (if s.probe.journalSequence < target then .drainCheck target else .drainEnd))
  | .drainCheck target => s.quiet (s.healthy i (s.goto (.drainTake target)))
  | .drainTake target => s.quiet (takeEvent s target)
  | .apply target e => some (applyStart s target e)
  | .storage target e index => s.quiet (s.guarded i (s.goto (.load target e index)))
  | .load target e index => some (loadStored b s i target e index)
  | .storageAgain target e stored =>
    s.quiet (s.guarded i (s.healthy i (s.goto (.guard target e (some stored)))))
  | .guard target e stored => some (journalGuard s i target e stored)
  | .run target e stored => some (runEvent b s i target e stored)
  | .drainEnd => s.quiet (s.healthy i s.done)
  | .publishHealthy => s.quiet (s.healthy i (s.goto .publishSequence))
  | .publishSequence => some (s.goto (.capture s.probe.journalSequence))
  | .capture sequence => s.quiet (s.guarded i (s.healthy i (captureSource s sequence)))
  | .prepare c => some (prepareJournalPublication b s i c)
  | .recheck c => s.quiet (s.healthy i (s.guarded i (recheckSource s c)))
  | .publishCapture c => some (s.guarded i (Replay.publishCapture s c))
  | .fail => some { s with gate := s.gate.fail, busy := some .failIndex }
  | .failIndex => some { s with indexFailed := true, busy := some .failProbe }
  | .failProbe =>
    some { s with
      gate := s.gate.fail
      probe := { s.probe with reconciling := true }
      indexFailed := true }.done
  | .cancel => some { s with gate := s.gate.close }.done
  | .stop =>
    some (if s.stopped then s.done else if s.attached then s.goto .stopDetach
      else s.goto .stopClose)
  | .stopDetach =>
    s.quiet { s with
      -- it fails if another journal is attached
      indexFailed := s.indexFailed || i.throws
      gate := if i.throws then s.gate.fail else s.gate
      attached := false
      busy := some .stopClose }
  | .stopClose =>
    s.quiet { s with journal := { s.journal with closed := true }, stopped := true }.done

inductive Action (Env : Type)
  | drain
  | publish
  -- `Stop` closes the gate, and later has the mutex
  | stop
  | stopLocked
  | step (i : Input Env)
  | native (op : NativeOp)
  | journal (a : Journal.Action)
  | failIndex
  -- the gate in other hands
  | closeGate
  | failGate
  | invalidateGate

variable {sizes : Journal.Sizes} (limits : Journal.Limits sizes)

/-- What others do to the journal: producers record with the node's locks, and
consumers release events. -/
def journalStep (a : Journal.Action) : Option (State Index Stored) :=
  let next := (Journal.step limits s.journal a).map fun j => { s with journal := j }
  match a with
  | .call _ => if s.fence = false ∧ s.attached = true then next else none
  | .proceed _ => if s.fence = false then next else none
  | .releaseBytes _ | .releaseEvent => next
  | .take | .close => none

/-- One step; `none` if the action is not possible now. -/
def step : Action Env → Option (State Index Stored)
  | .drain => if s.busy.isNone then some (s.goto .drainHealthy) else none
  | .publish => if s.busy.isNone then some (s.goto .publishHealthy) else none
  | .stop => some { s with gate := s.gate.close, stopping := s.stopping + 1 }
  | .stopLocked =>
    if s.busy.isNone ∧ 0 < s.stopping then
      some { s with busy := some .stop, stopping := s.stopping - 1 }
    else none
  | .step i => s.busy.bind (Pc.step b s i)
  | .native op => if s.fence = false then some { s with native := s.native.apply op } else none
  | .journal a => journalStep s limits a
  | .failIndex => some { s with indexFailed := true }
  | .closeGate => some { s with gate := s.gate.close }
  | .failGate => some { s with gate := s.gate.fail }
  | .invalidateGate => some { s with gate := s.gate.begin }

/-- After `Attach`: the journal is empty and `begin_journal` has invalidated the
gate. -/
def init (native : Native) (index : Index) (gate : Gate) : State Index Stored where
  native := native
  journal := Journal.init limits
  probe := ⟨index, true, 0, true, none⟩
  gate := gate.begin
  fence := false
  indexFailed := false
  stopped := false
  attached := true
  busy := none
  stopping := 0
  applied := []
  threw := false

end Ergon.Replay
