import Ergon.Lib.Bytes
import Ergon.Lib.Machine
import Ergon.Lib.Ring

/-!
# Ergon — the event envelope

`EventEnvelope` (`chronik/event-envelope.cpp`) as a machine: one worker, and any
number of threads that call `Submit`, `MarkDegraded` and `Shutdown`. Each access
to an atomic, to a slot or to `wait_mutex` is a step of its own. A hook or a lock
may throw where the source catches it; a wait may time out, or end, at any time.
-/

namespace Ergon.Envelope

open Lib

inductive EventKind
  | blockConnected
  | blockDisconnected
deriving DecidableEq

structure OwnedEvent where
  sequence : Nat
  kind : EventKind
  hash : FixedBytes 32
  height : Int
  payload : Bytes
deriving DecidableEq

/-- Who holds `wait_mutex`. -/
inductive Holder
  | worker
  | thread (t : Nat)
deriving DecidableEq

structure Shared where
  slots : List (Option OwnedEvent)
  readIndex : Nat
  writeIndex : Nat
  -- `producer_busy`, with the thread that set it
  busy : Option Nat
  mutex : Option Holder
  accepted : Nat
  processed : Nat
  lastEnqueuedSequence : Nat
  lastProcessedSequence : Nat
  -- `failure_flags`, which are set together
  degraded : Bool
  stopping : Bool
  workerReady : Bool
  workerDone : Bool
  -- the worker's thread has ended
  workerEnded : Bool
  -- `m_worker` was joined or contained, and is null
  workerReset : Bool
  -- The rest is read by no step. The events published, and those the consumer
  -- accepted:
  published : List OwnedEvent
  consumed : List OwnedEvent
  -- how many events were moved out of their slots
  moved : Nat
  -- the write index that the worker's loop loaded last
  lastSeen : Nat
  -- calls of the consumer that began in a degraded envelope
  callsAfterDegraded : Nat
  -- a flag was set under `wait_mutex`
  sealed : Bool

def maxU64 : Nat := 2 ^ 64 - 1

/-! ## Marking the envelope degraded -/

/-- `MarkStateDegraded`; if the lock throws, the flag is set without it. -/
inductive Mark
  | lock
  | store
  | unlock
  | storeUnlocked

/-- The next step of marking, `none` when it is done. -/
def Mark.step (holder : Holder) (sh : Shared) (throws : Bool) :
    Mark → Option (Shared × Option Mark)
  | .lock =>
    if throws then some (sh, some .storeUnlocked)
    else if sh.mutex = none then some ({ sh with mutex := some holder }, some .store)
    else none
  | .store => some ({ sh with degraded := true, sealed := true }, some .unlock)
  | .unlock => some ({ sh with mutex := none }, none)
  | .storeUnlocked => some ({ sh with degraded := true }, none)

/-! ## Submit -/

/-- Where a thread is in `Submit`; `w` is the write index it loaded. -/
inductive Submit
  | loadFlags
  | loadStopping
  | setBusy
  -- the producer section
  | reloadFlags
  | reloadStopping
  | loadWrite
  | loadRead (w : Nat)
  | checkSlot (w : Nat)
  | emplace (w : Nat)
  | lock (w : Nat)
  -- under `wait_mutex`
  | lockedFlags (w : Nat)
  | lockedStopping (w : Nat)
  | storeWrite (w : Nat)
  | storeSequence
  | countAccepted
  | unlock
  | clearBusy
  -- under `wait_mutex`, having seen a flag
  | resetSlot (w : Nat)
  | lockedClearBusy
  | lockedReturn
  -- leaving the producer section, to return or to mark the envelope
  | leave (mark : Bool)

/-- What a thread does after a step of `Submit`. -/
inductive Next
  | stay (pc : Submit)
  | done
  | mark

/-- One step of `Submit(e)` by thread `t`; `throws` if a hook or the lock does. -/
def Submit.step (capacity t : Nat) (e : OwnedEvent) (sh : Shared) (throws : Bool) :
    Submit → Option (Shared × Next)
  | .loadFlags => some (sh, if sh.degraded then .done else .stay .loadStopping)
  | .loadStopping => some (sh, if sh.stopping then .done else .stay .setBusy)
  | .setBusy =>
    if sh.busy = none then some ({ sh with busy := some t }, .stay .reloadFlags)
    else some (sh, .mark)
  | .reloadFlags =>
    some (sh, if throws then .stay (.leave true)
      else if sh.degraded then .stay (.leave false) else .stay .reloadStopping)
  | .reloadStopping =>
    some (sh, if sh.stopping then .stay (.leave false) else .stay .loadWrite)
  | .loadWrite => some (sh, .stay (.loadRead sh.writeIndex))
  | .loadRead w =>
    some (sh, if w = maxU64 ∨ capacity ≤ w - sh.readIndex then .stay (.leave true)
      else .stay (.checkSlot w))
  | .checkSlot w =>
    some (sh, if (sh.slots[w % capacity]?).join.isSome then .stay (.leave true)
      else .stay (.emplace w))
  | .emplace w =>
    some ({ sh with slots := sh.slots.set (w % capacity) (some e) }, .stay (.lock w))
  | .lock w =>
    if throws then some (sh, .stay (.leave true))
    else if sh.mutex = none then
      some ({ sh with mutex := some (.thread t) }, .stay (.lockedFlags w))
    else none
  | .lockedFlags w =>
    some (sh, if sh.degraded then .stay (.resetSlot w) else .stay (.lockedStopping w))
  | .lockedStopping w =>
    some (sh, if sh.stopping then .stay (.resetSlot w) else .stay (.storeWrite w))
  | .storeWrite w =>
    some ({ sh with writeIndex := w + 1, published := sh.published ++ [e] }, .stay .storeSequence)
  | .storeSequence =>
    some ({ sh with lastEnqueuedSequence := e.sequence }, .stay .countAccepted)
  | .countAccepted => some ({ sh with accepted := sh.accepted + 1 }, .stay .unlock)
  | .unlock => some ({ sh with mutex := none }, .stay .clearBusy)
  | .clearBusy => some ({ sh with busy := none }, .done)
  | .resetSlot w =>
    some ({ sh with slots := sh.slots.set (w % capacity) none }, .stay .lockedClearBusy)
  | .lockedClearBusy => some ({ sh with busy := none }, .stay .lockedReturn)
  | .lockedReturn => some ({ sh with mutex := none }, .done)
  | .leave mark => some ({ sh with busy := none }, if mark then .mark else .done)

/-! ## Threads -/

inductive Shutdown
  | lock
  | store
  | unlock
  | storeUnlocked
  | wait
  | join
  -- the worker did not end in time; the hook before it is detached
  | detachHook
  | contain

/-- What follows `MarkStateDegraded`. -/
inductive AfterMark
  | done
  | shutdown (pc : Shutdown)

inductive Thread
  | idle
  | submit (e : OwnedEvent) (pc : Submit)
  | mark (m : Mark) (after : AfterMark)
  | shutdown (pc : Shutdown)
  -- `Shutdown` returned after waiting for the worker
  | returned (completed : Bool)

inductive Call
  | submit (e : OwnedEvent)
  | markDegraded
  | shutdown
deriving DecidableEq

/-- How a call begins. -/
def Call.start (sh : Shared) : Call → Thread
  | .submit e => if e.sequence = 0 then .mark .lock .done else .submit e .loadFlags
  | .markDegraded => .mark .lock .done
  -- without a worker `Shutdown` returns at once
  | .shutdown => if sh.workerReset then .idle else .shutdown .lock

/-- One step of `Shutdown`; `throws` if the lock, the join or a hook does, or if
the wait ends without the worker. -/
def Shutdown.step (t : Nat) (sh : Shared) (throws : Bool) : Shutdown → Option (Shared × Thread)
  | .lock =>
    if throws then some (sh, .shutdown .storeUnlocked)
    else if sh.mutex = none then some ({ sh with mutex := some (.thread t) }, .shutdown .store)
    else none
  | .store => some ({ sh with stopping := true, sealed := true }, .shutdown .unlock)
  | .unlock => some ({ sh with mutex := none }, .shutdown .wait)
  | .storeUnlocked => some ({ sh with stopping := true }, .shutdown .wait)
  | .wait =>
    if throws then some (sh, .mark .lock (.shutdown .detachHook))
    else if sh.workerDone then some (sh, .shutdown .join)
    else none
  | .join =>
    if throws then some (sh, .mark .lock (.shutdown .contain))
    -- joining a worker that another call has reset is undefined
    else if sh.workerEnded ∧ ¬ sh.workerReset then
      some ({ sh with workerReset := true }, .returned true)
    else none
  | .detachHook =>
    some (sh, if throws then .mark .lock (.shutdown .contain) else .shutdown .contain)
  | .contain => some ({ sh with workerReset := true }, .returned false)

def Next.thread (e : OwnedEvent) : Next → Thread
  | .stay pc => .submit e pc
  | .done => .idle
  | .mark => .mark .lock .done

def AfterMark.thread : AfterMark → Thread
  | .done => .idle
  | .shutdown pc => .shutdown pc

/-- One step of a thread within a call. -/
def Thread.step (capacity t : Nat) (sh : Shared) (throws : Bool) : Thread → Option (Shared × Thread)
  | .submit e pc => (pc.step capacity t e sh throws).map fun r => (r.1, r.2.thread e)
  | .mark m after =>
    (m.step (.thread t) sh throws).map fun r => (r.1, r.2.elim after.thread (.mark · after))
  | .shutdown pc => pc.step t sh throws
  | .idle => none
  | .returned _ => none

/-! ## The worker -/

/-- Where the worker is; `r` is the read index it loaded. -/
inductive Worker
  | entry
  | entryHook
  | loadFlags
  | loadRead
  | loadWrite (r : Nat)
  -- the queue was empty
  | loadStopping
  | lock
  -- under `wait_mutex`
  | canRunFlags
  | canRunStopping
  | canRunRead
  | canRunWrite (r : Nat)
  | wait
  | unlock (throwing : Bool)
  -- woken, or not yet waiting to be
  | relock
  -- the queue was not empty
  | checkSlot (r : Nat)
  | moveSlot (r : Nat)
  | resetSlot (e : OwnedEvent) (r : Nat)
  | storeRead (e : OwnedEvent) (r : Nat)
  | checkSequence (e : OwnedEvent)
  | call (e : OwnedEvent)
  | calling (e : OwnedEvent)
  | storeProcessed (e : OwnedEvent)
  | countProcessed
  -- `MarkStateDegraded`, in the loop or after the exit hook
  | mark (m : Mark) (exiting : Bool)
  | storeDone
  | exitHook
  | ending
  | ended

structure WorkerState where
  pc : Worker
  expectedSequence : Nat

/-- What the consumer answers, or a throw of it, of a hook or of the lock. -/
structure Outcome where
  throws : Bool
  accepts : Bool
deriving DecidableEq

/-- One step of the worker. -/
def Worker.step (capacity : Nat) (sh : Shared) (expected : Nat) (o : Outcome) :
    Worker → Option (Shared × WorkerState)
  | .entry =>
    if o.throws then some (sh, ⟨.mark .lock false, expected⟩)
    else some ({ sh with workerReady := true }, ⟨.entryHook, expected⟩)
  | .entryHook => some (sh, ⟨if o.throws then .mark .lock false else .loadFlags, expected⟩)
  | .loadFlags => some (sh, ⟨if sh.degraded then .storeDone else .loadRead, expected⟩)
  | .loadRead => some (sh, ⟨.loadWrite sh.readIndex, expected⟩)
  | .loadWrite r =>
    some ({ sh with lastSeen := sh.writeIndex },
      ⟨if r = sh.writeIndex then .loadStopping else .checkSlot r, expected⟩)
  | .loadStopping => some (sh, ⟨if sh.stopping then .storeDone else .lock, expected⟩)
  | .lock =>
    if o.throws then some (sh, ⟨.mark .lock false, expected⟩)
    else if sh.mutex = none then
      some ({ sh with mutex := some .worker }, ⟨.canRunFlags, expected⟩)
    else none
  | .canRunFlags => some (sh, ⟨if sh.degraded then .unlock false else .canRunStopping, expected⟩)
  | .canRunStopping => some (sh, ⟨if sh.stopping then .unlock false else .canRunRead, expected⟩)
  | .canRunRead => some (sh, ⟨.canRunWrite sh.readIndex, expected⟩)
  | .canRunWrite r =>
    some (sh, ⟨if r ≠ sh.writeIndex then .unlock false else .wait, expected⟩)
  | .wait =>
    if o.throws then some (sh, ⟨.unlock true, expected⟩)
    else some ({ sh with mutex := none }, ⟨.relock, expected⟩)
  | .unlock throwing =>
    some ({ sh with mutex := none }, ⟨if throwing then .mark .lock false else .loadFlags, expected⟩)
  | .relock =>
    if sh.mutex = none then some ({ sh with mutex := some .worker }, ⟨.canRunFlags, expected⟩)
    else none
  | .checkSlot r =>
    some (sh, ⟨if (sh.slots[r % capacity]?).join.isSome then .moveSlot r else .mark .lock false,
      expected⟩)
  | .moveSlot r =>
    ((sh.slots[r % capacity]?).join).map fun e =>
      -- the vector moved from is left empty
      ({ sh with
        slots := sh.slots.set (r % capacity) (some { e with payload := [] })
        moved := sh.moved + 1 },
      ⟨.resetSlot e r, expected⟩)
  | .resetSlot e r =>
    some ({ sh with slots := sh.slots.set (r % capacity) none }, ⟨.storeRead e r, expected⟩)
  | .storeRead e r => some ({ sh with readIndex := r + 1 }, ⟨.checkSequence e, expected⟩)
  | .checkSequence e =>
    some (sh, ⟨if e.sequence = expected then .call e else .mark .lock false, expected⟩)
  | .call e =>
    some ({ sh with
        callsAfterDegraded := sh.callsAfterDegraded + if sh.degraded then 1 else 0 },
      ⟨.calling e, expected⟩)
  | .calling e =>
    if o.accepts ∧ ¬ o.throws then
      some ({ sh with consumed := sh.consumed ++ [e] }, ⟨.storeProcessed e, expected⟩)
    else some (sh, ⟨.mark .lock false, expected⟩)
  | .storeProcessed e =>
    some ({ sh with lastProcessedSequence := e.sequence }, ⟨.countProcessed, expected⟩)
  | .countProcessed =>
    some ({ sh with processed := sh.processed + 1 },
      if expected = maxU64 then ⟨.mark .lock false, expected⟩ else ⟨.loadFlags, expected + 1⟩)
  | .mark m exiting =>
    (m.step .worker sh o.throws).map fun r =>
      (r.1, ⟨r.2.elim (if exiting then .ending else .storeDone) (.mark · exiting), expected⟩)
  | .storeDone => some ({ sh with workerDone := true }, ⟨.exitHook, expected⟩)
  | .exitHook => some (sh, ⟨if o.throws then .mark .lock true else .ending, expected⟩)
  | .ending => some ({ sh with workerEnded := true }, ⟨.ended, expected⟩)
  | .ended => none

/-! ## The machine -/

structure State where
  shared : Shared
  threads : Nat → Thread
  worker : WorkerState

inductive Action
  | call (t : Nat) (c : Call)
  | thread (t : Nat) (throws : Bool)
  | worker (o : Outcome)
deriving DecidableEq

/-- The state that `Create` starts the worker with. -/
def init (capacity : Nat) : State where
  shared := {
    slots := List.replicate capacity none
    readIndex := 0
    writeIndex := 0
    busy := none
    mutex := none
    accepted := 0
    processed := 0
    lastEnqueuedSequence := 0
    lastProcessedSequence := 0
    degraded := false
    stopping := false
    workerReady := false
    workerDone := false
    workerEnded := false
    workerReset := false
    published := []
    consumed := []
    moved := 0
    lastSeen := 0
    callsAfterDegraded := 0
    sealed := false }
  threads _ := .idle
  worker := ⟨.entry, 1⟩

def State.setThread (s : State) (t : Nat) (sh : Shared) (th : Thread) : State :=
  { s with shared := sh, threads := Function.update s.threads t th }

/-- Whether a thread may begin a call. -/
def Thread.free : Thread → Bool
  | .idle | .returned _ => true
  | _ => false

/-- One step; `none` if the action is not possible now. -/
def step (capacity : Nat) (s : State) : Action → Option State
  | .call t c =>
    -- `Create` returns the envelope once the worker is ready
    if s.shared.workerReady ∧ (s.threads t).free then
      some (s.setThread t s.shared (c.start s.shared))
    else none
  | .thread t throws =>
    ((s.threads t).step capacity t s.shared throws).map fun r => s.setThread t r.1 r.2
  | .worker o =>
    (s.worker.pc.step capacity s.shared s.worker.expectedSequence o).map fun r =>
      { s with shared := r.1, worker := r.2 }

/-! ## Accesses to slots -/

/-- The slot that the next step of a thread accesses. -/
def Thread.touches (capacity : Nat) : Thread → Option Nat
  | .submit _ (.checkSlot w) | .submit _ (.emplace w) | .submit _ (.resetSlot w) =>
    some (w % capacity)
  | _ => none

/-- The slot that the next step of the worker accesses. -/
def Worker.touches (capacity : Nat) : Worker → Option Nat
  | .checkSlot r | .moveSlot r | .resetSlot _ r => some (r % capacity)
  | _ => none

end Ergon.Envelope
