import Ergon.Lib.Machine

/-!
# Ergon — the archival worker

The ticket protocol of `ergon_archival_worker.cpp`. Native callbacks push
tickets, one worker thread takes them, reconciles the index and acknowledges
them, and `Stop` or a failure ends the thread. Everything here is guarded by the
one mutex `mu`, so a step of the model is one critical section, or one piece of
the worker's code between two of them.

The reconciliation, the hooks, shutdown and allocation are inputs of the steps.
Waits end at any time, as a wait with a timeout may; the request gate is not part
of this model.

* `Inv.step` — what every critical section keeps of the ticket accounting.
* `tickets_accounted` — accepted tickets are completed, pending or in the end
  discarded; they complete in order; queries see no pending ticket.
-/

namespace Ergon.ArchivalWorker

open Lib List

def maxU64 : Nat := 2 ^ 64 - 1

/-- Subtraction of 64-bit numbers. -/
def sub64 (a b : Nat) : Nat := (2 ^ 64 + a - b) % 2 ^ 64

inductive WorkerFailure
  | none
  | notificationHook
  | callbackCapacity
  | sequenceExhausted
  | ticketAllocation
  | reconcile
deriving DecidableEq

structure Config where
  serviceMode : Bool
  /-- The most tickets that may wait outside service mode. -/
  capacity : Nat

/-- What `mu` guards. -/
structure Shared where
  tickets : List Nat := []
  /-- Tickets that are not acknowledged, the one in flight included. -/
  pending : Nat := 0
  accepted : Nat := 0
  completed : Nat := 0
  discarded : Nat := 0
  rejected : Nat := 0
  failure : WorkerFailure := .none
  failurePending : Nat := 0
  ready : Bool := false
  failed : Bool := false
  closed : Bool := false
  stopping : Bool := false
  joined : Bool := false
  probe : Bool := true
  /-- The acknowledged tickets, oldest first; only recorded here. -/
  acknowledgements : List Nat := []
deriving DecidableEq

namespace Shared

/-- The first failure is kept, with the tickets that were pending then. -/
def fail (reason : WorkerFailure) (sh : Shared) : Shared :=
  { sh with
    failure := if sh.failed then sh.failure else reason
    failurePending := if sh.failed then sh.failurePending else sh.pending
    failed := true
    ready := false }

def hasTicket (cfg : Config) (sh : Shared) : Bool :=
  if cfg.serviceMode then decide (sh.accepted ≠ sh.completed) else !sh.tickets.isEmpty

/-- In service mode one ticket stands for everything accepted so far. -/
def takeTicket (cfg : Config) (sh : Shared) : Shared × Nat :=
  if cfg.serviceMode then (sh, sh.accepted)
  else ({ sh with tickets := sh.tickets.tail }, sh.tickets.headD 0)

/-- The part of `Push` for an open worker. -/
def enqueue (cfg : Config) (allocates : Bool) (sh : Shared) : Shared :=
  if cfg.serviceMode && (sh.accepted = maxU64 || sh.pending = maxU64) then
    sh.fail .sequenceExhausted
  else if cfg.serviceMode then
    { sh with accepted := sh.accepted + 1, pending := sh.pending + 1 }
  else if sh.pending = cfg.capacity then sh.fail .callbackCapacity
  else if sh.accepted = maxU64 then sh.fail .sequenceExhausted
  else if allocates then
    { sh with
      tickets := sh.tickets ++ [sh.accepted + 1]
      accepted := sh.accepted + 1
      pending := sh.pending + 1 }
  else sh.fail .ticketAllocation

def push (cfg : Config) (hookThrows allocates : Bool) (sh : Shared) : Shared :=
  if hookThrows then sh.fail .notificationHook
  else if sh.closed || sh.failed then { sh with rejected := (sh.rejected + 1) % 2 ^ 64 }
  else enqueue cfg allocates { sh with ready := false }

/-- Whether a query gets past `QueryGuard`. -/
def queryGuard (sh : Shared) : Bool := sh.ready && !sh.closed && !sh.failed && sh.probe

/-- What `WaitThrough` returns when its wait ends now. -/
def waitThrough (sh : Shared) (ticket : Nat) : Bool :=
  !sh.failed && !sh.closed && sh.ready && decide (ticket ≤ sh.completed)

end Shared

/-! ## The worker thread -/

/-- Why the loop was left by an exception. -/
inductive Cause
  | orderGap
  | accountingGap
  | work
deriving DecidableEq

/-- Where the worker thread is. Ticket 0 is an observation without a ticket. -/
inductive Run
  | top
  | polling
  | taken (ticket : Nat)
  | working (ticket : Nat)
  | publishing (ticket : Nat) (published : Bool)
  | cancelled
  | throwing (cause : Cause)
  | ending
  | destroying
  | ended
deriving DecidableEq

/-- What the code between two critical sections comes to. -/
inductive Outcome
  | quiet
  | proceeds
  | throws
  | cancels
  | publishes (published : Bool)
deriving DecidableEq

namespace Run

def leaves (sh : Shared) : Bool := sh.stopping || sh.closed || sh.failed

/-- The check of the ticket that was taken. -/
def orderGap (cfg : Config) (sh : Shared) (ticket : Nat) : Bool :=
  ticket ≠ 0 && bif cfg.serviceMode then decide (ticket ≤ sh.completed)
    else decide (ticket ≠ (sh.completed + 1) % 2 ^ 64)

def step (cfg : Config) (sh : Shared) (shutdown : Bool) (outcome : Outcome) :
    Run → Option (Shared × Run)
  | top =>
    if shutdown then some ({ sh with closed := true, ready := false }, ending)
    else if leaves sh then some (sh, ending)
    else if sh.hasTicket cfg then
      some ((sh.takeTicket cfg).1, taken (sh.takeTicket cfg).2)
    else some (sh, polling)
  | polling =>
    match outcome with
    | .quiet => some (sh, top)
    | .throws => some (sh, throwing .work)
    | .proceeds =>
      if leaves sh then some (sh, ending)
      else if sh.hasTicket cfg then
        some ({ (sh.takeTicket cfg).1 with ready := false }, taken (sh.takeTicket cfg).2)
      else some ({ sh with ready := false }, taken 0)
    | _ => none
  | taken ticket =>
    if orderGap cfg sh ticket then some (sh, throwing .orderGap) else some (sh, working ticket)
  | working ticket =>
    match outcome with
    | .throws => some (sh, throwing .work)
    | .cancels => some (sh, cancelled)
    | .publishes published => some (sh, publishing ticket published)
    | _ => none
  | publishing ticket published =>
    if ticket = 0 then
      some ({ sh with ready := published && !sh.closed && !sh.failed && sh.pending = 0 }, top)
    else
      let acknowledged := sub64 ticket sh.completed
      if acknowledged = 0 ∨ sh.pending < acknowledged then some (sh, throwing .accountingGap)
      else
        let pending := sh.pending - acknowledged
        some ({ sh with
          completed := ticket
          pending := pending
          ready := published && !sh.closed && !sh.failed && pending = 0
          acknowledgements := sh.acknowledgements ++ [ticket] }, top)
  | cancelled => some ({ sh with closed := true, ready := false }, ending)
  | throwing _ => some (sh.fail .reconcile, ending)
  | ending =>
    some ({ sh with
      ready := false
      discarded := sub64 sh.accepted sh.completed
      pending := 0
      tickets := [] }, destroying)
  | destroying => some ({ sh with probe := false }, ended)
  | ended => none

/-- The ticket in flight, if it is not 0. -/
def ticket : Run → Nat
  | taken ticket | working ticket | publishing ticket _ => ticket
  | _ => 0

/-- Before the last critical section. -/
def live : Run → Bool
  | destroying | ended => false
  | _ => true

def inLoop : Run → Bool
  | top | polling | taken _ | working _ | publishing _ _ => true
  | _ => false

/-- Past the loop and its handlers. -/
def left : Run → Bool
  | ending | destroying | ended => true
  | _ => false

end Run

/-! ## The machine -/

/-- The call of `Stop` in progress; `stop_mu` admits one at a time. -/
inductive Stop
  | idle
  | draining
  | joining
deriving DecidableEq

def Stop.step (sh : Shared) (run : Run) : Stop → Option (Shared × Stop)
  | idle =>
    some (if sh.joined then (sh, idle) else ({ sh with closed := true, ready := false }, draining))
  | draining => some ({ sh with stopping := true }, joining)
  | joining => if run = .ended then some ({ sh with joined := true }, idle) else none

structure State where
  shared : Shared
  run : Run
  stop : Stop
deriving DecidableEq

inductive Action
  | push (hookThrows allocates : Bool)
  | run (shutdown : Bool) (outcome : Outcome)
  | fail (reason : WorkerFailure)
  | stop
  | queryGuard
  | waitThrough (ticket : Nat)

def step (cfg : Config) (s : State) : Action → Option State
  | .push hookThrows allocates => some { s with shared := s.shared.push cfg hookThrows allocates }
  | .run shutdown outcome =>
    (s.run.step cfg s.shared shutdown outcome).map fun r => { s with shared := r.1, run := r.2 }
  | .fail reason => some { s with shared := s.shared.fail reason }
  | .stop => (s.stop.step s.shared s.run).map fun r => { s with shared := r.1, stop := r.2 }
  -- these two only read
  | .queryGuard => some s
  | .waitThrough _ => some s

/-- The worker as its constructor starts it. -/
def init (ready : Bool) : State := ⟨{ ready := ready }, .top, .idle⟩

/-! ## Accounting -/

/-- One if a ticket is in flight. -/
def inFlight (run : Run) : Nat := if run.ticket = 0 then 0 else 1

/-- The tickets acknowledged so far: in order, the last one the frontier. Outside
service mode every ticket was acknowledged by itself. -/
structure InOrder (cfg : Config) (sh : Shared) : Prop where
  sorted : sh.acknowledgements.Pairwise (· < ·)
  frontier : ∀ t ∈ sh.acknowledgements, t ≤ sh.completed
  single : cfg.serviceMode = false → sh.acknowledgements = List.range' 1 sh.completed

structure Inv (cfg : Config) (s : State) : Prop where
  accounted : s.run.live → s.shared.accepted = s.shared.completed + s.shared.pending
  bounded : s.shared.accepted ≤ maxU64
  held : s.run.ticket ≠ 0 → s.shared.completed < s.run.ticket ∧ s.run.ticket ≤ s.shared.accepted ∧
    (cfg.serviceMode = false → s.run.ticket = s.shared.completed + 1)
  queued : cfg.serviceMode = false → s.run.inLoop → s.shared.tickets =
    List.range' (s.shared.completed + 1 + inFlight s.run) (s.shared.pending - inFlight s.run)
  ready : s.shared.ready → s.shared.pending = 0 ∧ s.shared.closed = false ∧ s.shared.failed = false
  stopped : s.shared.stopping → s.shared.closed
  closing : s.stop ≠ .idle → s.shared.closed
  left : s.run.left → s.shared.closed ∨ s.shared.failed
  discarded : s.run.live = false → s.shared.accepted = s.shared.completed + s.shared.discarded
  order : InOrder cfg s.shared
  noGap : s.run ≠ .throwing .orderGap ∧ s.run ≠ .throwing .accountingGap

variable {cfg : Config} {s s' : State} {sh : Shared}

theorem inv_init (cfg : Config) (ready : Bool) : Inv cfg (init ready) where
  accounted _ := rfl
  bounded := Nat.zero_le _
  held h := absurd rfl h
  queued _ _ := rfl
  ready _ := ⟨rfl, rfl, rfl⟩
  stopped h := by cases h
  closing h := absurd rfl h
  left h := by cases h
  discarded h := by cases h
  order := ⟨List.Pairwise.nil, by simp [init], fun _ => rfl⟩
  noGap := by simp [init]

variable (h : Inv cfg s)
include h

/-- A change of the flags alone. -/
theorem Inv.setFlags
    (hCounters : sh.accepted = s.shared.accepted ∧ sh.completed = s.shared.completed ∧
      sh.pending = s.shared.pending ∧ sh.discarded = s.shared.discarded ∧
      sh.tickets = s.shared.tickets ∧ sh.acknowledgements = s.shared.acknowledgements)
    (hReady : sh.ready → s.shared.ready ∧ sh.closed = s.shared.closed ∧ sh.failed = s.shared.failed)
    (hStopped : sh.stopping → sh.closed) (hClosed : s.shared.closed → sh.closed)
    (hFailed : s.shared.failed → sh.failed) : Inv cfg { s with shared := sh } := by
  obtain ⟨hAccepted, hCompleted, hPending, hDiscarded, hTickets, hAcks⟩ := hCounters
  constructor
  · simpa only [hAccepted, hCompleted, hPending] using h.accounted
  · simpa only [hAccepted] using h.bounded
  · simpa only [hAccepted, hCompleted] using h.held
  · simpa only [hTickets, hCompleted, hPending] using h.queued
  · intro hNow
    obtain ⟨hBefore, hC, hF⟩ := hReady hNow
    simpa only [hPending, hC, hF] using h.ready hBefore
  · exact hStopped
  · exact fun hStop => hClosed (h.closing hStop)
  · exact fun hLeft => (h.left hLeft).imp hClosed hFailed
  · simpa only [hAccepted, hCompleted, hDiscarded] using h.discarded
  · obtain ⟨hSorted, hFrontier, hSingle⟩ := h.order
    exact ⟨by rwa [hAcks], by rwa [hAcks, hCompleted], by rwa [hAcks, hCompleted]⟩
  · exact h.noGap

theorem Inv.fail (reason : WorkerFailure) : Inv cfg { s with shared := s.shared.fail reason } :=
  h.setFlags ⟨rfl, rfl, rfl, rfl, rfl, rfl⟩ (fun hReady => by cases hReady) h.stopped id
    fun _ => rfl

theorem Inv.close : Inv cfg { s with shared := { s.shared with closed := true, ready := false } } :=
  h.setFlags ⟨rfl, rfl, rfl, rfl, rfl, rfl⟩ (fun hReady => by cases hReady) (fun _ => rfl)
    (fun _ => rfl) id

theorem Inv.notReady : Inv cfg { s with shared := { s.shared with ready := false } } :=
  h.setFlags ⟨rfl, rfl, rfl, rfl, rfl, rfl⟩ (fun hReady => by cases hReady) h.stopped id id

/-- One more ticket. -/
theorem Inv.accept (hClosed : s.shared.closed = false) (hFailed : s.shared.failed = false)
    (hReady : s.shared.ready = false) (hRoom : s.shared.accepted ≠ maxU64) {tickets : List Nat}
    (hTickets : cfg.serviceMode = false → tickets = s.shared.tickets ++ [s.shared.accepted + 1]) :
    Inv cfg { s with shared := { s.shared with
      tickets := tickets, accepted := s.shared.accepted + 1, pending := s.shared.pending + 1 } } := by
  have hNotLeft : ¬ s.run.left = true := fun hLeft => by simpa [hClosed, hFailed] using h.left hLeft
  have hLive : s.run.live = true := by
    cases hRun : s.run <;> simp_all [Run.live, Run.left]
  have hAccounted := h.accounted hLive
  have hBounded := h.bounded
  refine { h with
    accounted := fun _ => ?_
    bounded := ?_
    held := fun hTicket => ?_
    queued := fun hMode hLoop => ?_
    ready := fun hNow => by simp [hReady] at hNow
    discarded := fun hDead => by simp [hLive] at hDead
    order := { h.order with } }
  · show s.shared.accepted + 1 = s.shared.completed + (s.shared.pending + 1)
    omega
  · show s.shared.accepted + 1 ≤ maxU64
    omega
  · obtain ⟨hLow, hHigh, hSingle⟩ := h.held hTicket
    exact ⟨hLow, Nat.le_succ_of_le hHigh, hSingle⟩
  · show tickets = _
    rw [hTickets hMode, h.queued hMode hLoop]
    -- a ticket in flight is pending, so the new one continues the range
    have hFlight : inFlight s.run ≤ s.shared.pending := by
      rw [inFlight]
      split
      · exact Nat.zero_le _
      · obtain ⟨hLow, hHigh, -⟩ := h.held ‹_›
        omega
    have hLast : s.shared.accepted + 1 =
        s.shared.completed + 1 + inFlight s.run + (s.shared.pending - inFlight s.run) := by omega
    rw [hLast, ← range'_1_concat, Nat.sub_add_comm hFlight]

theorem Inv.enqueue (hClosed : s.shared.closed = false) (hFailed : s.shared.failed = false)
    (hReady : s.shared.ready = false) (allocates : Bool) :
    Inv cfg { s with shared := s.shared.enqueue cfg allocates } := by
  rw [Shared.enqueue]
  split_ifs with hFull hMode hCapacity hMax hAllocates
  · exact h.fail _
  · have hRoom : s.shared.accepted ≠ maxU64 := by simp_all
    exact h.accept hClosed hFailed hReady hRoom fun hQueue => by simp [hMode] at hQueue
  · exact h.fail _
  · exact h.fail _
  · exact h.accept hClosed hFailed hReady hMax fun _ => rfl
  · exact h.fail _

theorem Inv.push (hookThrows allocates : Bool) :
    Inv cfg { s with shared := s.shared.push cfg hookThrows allocates } := by
  rw [Shared.push]
  split_ifs with hHook hOver
  · exact h.fail _
  · exact h.setFlags ⟨rfl, rfl, rfl, rfl, rfl, rfl⟩ (fun hReady => ⟨hReady, rfl, rfl⟩) h.stopped id id
  · rw [Bool.or_eq_true, not_or, Bool.not_eq_true, Bool.not_eq_true] at hOver
    exact h.notReady.enqueue hOver.1 hOver.2 rfl allocates

/-- The worker moves on inside the loop with the ticket it has. -/
theorem Inv.moveOn {run : Run} (hFrom : s.run.inLoop) (hTo : run.inLoop)
    (hTicket : run.ticket = s.run.ticket) : Inv cfg { s with run := run } := by
  have hFlight : inFlight run = inFlight s.run := by rw [inFlight, inFlight, hTicket]
  have hLive : s.run.live = true := by cases hRun : s.run <;> simp_all [Run.live, Run.inLoop]
  refine { h with
    accounted := fun _ => h.accounted hLive
    held := by simpa only [hTicket] using h.held
    queued := fun hMode _ => by simpa only [hFlight] using h.queued hMode hFrom
    left := ?_
    discarded := ?_
    noGap := ?_ }
  · cases run <;> simp_all [Run.left, Run.inLoop]
  · cases run <;> simp_all [Run.live, Run.inLoop]
  · cases run <;> simp_all [Run.inLoop]

/-- The worker leaves the loop; a ticket in flight stays pending. -/
theorem Inv.leave {run : Run} (hFrom : s.run.live) (hTo : run.live) (hTicket : run.ticket = 0)
    (hLoop : run.inLoop = false) (hLeft : run.left → s.shared.closed ∨ s.shared.failed)
    (hGap : run ≠ .throwing .orderGap ∧ run ≠ .throwing .accountingGap) :
    Inv cfg { s with run := run } :=
  { h with
    accounted := fun _ => h.accounted hFrom
    held := fun hNow => absurd hTicket hNow
    queued := fun _ hIn => by rw [hLoop] at hIn; cases hIn
    left := hLeft
    discarded := fun hDead => by rw [hTo] at hDead; cases hDead
    noGap := hGap }

theorem Inv.take (hLoop : s.run.inLoop) (hTicket : s.run.ticket = 0)
    (hHas : s.shared.hasTicket cfg) :
    Inv cfg { s with
      shared := (s.shared.takeTicket cfg).1, run := .taken (s.shared.takeTicket cfg).2 } := by
  have hLive : s.run.live = true := by cases hRun : s.run <;> simp_all [Run.live, Run.inLoop]
  have hAccounted := h.accounted hLive
  cases hMode : cfg.serviceMode with
  | true =>
    -- one ticket stands for all that were accepted
    simp only [Shared.hasTicket, hMode, if_true, decide_eq_true_eq] at hHas
    simp only [Shared.takeTicket, hMode, if_true]
    refine { h with
      accounted := fun _ => hAccounted
      held := fun _ => ?_
      queued := fun hQueue => ?_
      left := nofun
      discarded := nofun
      noGap := ⟨nofun, nofun⟩ }
    · show s.shared.completed < s.shared.accepted ∧ s.shared.accepted ≤ s.shared.accepted ∧ _
      refine ⟨by omega, le_rfl, fun hQueue => ?_⟩
      rw [hMode] at hQueue
      cases hQueue
    · rw [hMode] at hQueue
      cases hQueue
  | false =>
    have hTickets : s.shared.tickets = List.range' (s.shared.completed + 1) s.shared.pending := by
      simpa [inFlight, hTicket] using h.queued hMode hLoop
    obtain ⟨rest, hPending⟩ : ∃ rest, s.shared.pending = rest + 1 := by
      refine Nat.exists_eq_succ_of_ne_zero fun hZero => ?_
      simp [Shared.hasTicket, hMode, hTickets, hZero] at hHas
    rw [hPending, range'_succ] at hTickets
    simp only [Shared.takeTicket, hMode, hTickets, tail_cons, headD_cons, if_false,
      Bool.false_eq_true]
    refine { h with
      accounted := fun _ => hAccounted
      held := fun _ => ?_
      queued := fun _ _ => ?_
      left := nofun
      discarded := nofun
      order := { h.order with }
      noGap := ⟨nofun, nofun⟩ }
    · show s.shared.completed < s.shared.completed + 1 ∧ s.shared.completed + 1 ≤ s.shared.accepted ∧ _
      exact ⟨by omega, by omega, fun _ => rfl⟩
    · show List.range' (s.shared.completed + 1 + 1) rest =
        List.range' (s.shared.completed + 1 + 1) (s.shared.pending - 1)
      rw [hPending, Nat.add_sub_cancel]

theorem Inv.closed_of_leaves (hLeaves : Run.leaves s.shared) :
    s.shared.closed ∨ s.shared.failed := by
  simp only [Run.leaves, Bool.or_eq_true] at hLeaves
  rcases hLeaves with (hStopping | hClosed) | hFailed
  · exact .inl (h.stopped hStopping)
  · exact .inl hClosed
  · exact .inr hFailed

omit h

theorem sub64_of_le {a b : Nat} (hLe : b ≤ a) (hBound : a ≤ maxU64) : sub64 a b = a - b := by
  rw [maxU64] at hBound
  rw [sub64]
  omega

variable (h : Inv cfg s)
include h

/-- The order check cannot fail: the ticket is above the frontier, or next to it. -/
theorem Inv.orderGap_eq {ticket : Nat} (hRun : s.run = .taken ticket) :
    Run.orderGap cfg s.shared ticket = false := by
  by_cases hTicket : ticket = 0
  · simp [Run.orderGap, hTicket]
  have hHeld := h.held
  rw [hRun] at hHeld
  obtain ⟨hLow, hHigh, hSingle⟩ := hHeld hTicket
  change s.shared.completed < ticket at hLow
  change ticket ≤ s.shared.accepted at hHigh
  have hBounded := h.bounded
  rw [maxU64] at hBounded
  cases hMode : cfg.serviceMode with
  | true => simpa [Run.orderGap, hMode, hTicket] using hLow
  | false =>
    have hNext : ticket = s.shared.completed + 1 := hSingle hMode
    have hMod : (s.shared.completed + 1) % 2 ^ 64 = s.shared.completed + 1 :=
      Nat.mod_eq_of_lt (by omega)
    rw [Run.orderGap, hMode, hMod, cond_false, decide_eq_false (not_not.mpr hNext), Bool.and_false]

/-- The ticket in flight is acknowledged. -/
theorem Inv.acknowledge {ticket : Nat} {published : Bool}
    (hRun : s.run = .publishing ticket published) (hTicket : ticket ≠ 0) :
    Inv cfg { s with
      shared := { s.shared with
        completed := ticket
        pending := s.shared.pending - (ticket - s.shared.completed)
        ready := published && !s.shared.closed && !s.shared.failed &&
          s.shared.pending - (ticket - s.shared.completed) = 0
        acknowledgements := s.shared.acknowledgements ++ [ticket] }
      run := .top } := by
  have hHeld := h.held
  have hAccounted := h.accounted
  have hQueued := h.queued
  rw [hRun] at hHeld hAccounted hQueued
  obtain ⟨hLow, hHigh, hSingle⟩ := hHeld hTicket
  change s.shared.completed < ticket at hLow
  change ticket ≤ s.shared.accepted at hHigh
  replace hAccounted := hAccounted rfl
  refine { h with
    accounted := fun _ => ?_
    held := fun hNow => absurd rfl hNow
    queued := fun hMode _ => ?_
    ready := fun hReady => ?_
    left := nofun
    discarded := nofun
    order := ?_
    noGap := ⟨nofun, nofun⟩ }
  · show s.shared.accepted = ticket + (s.shared.pending - (ticket - s.shared.completed))
    omega
  · have hNext : ticket = s.shared.completed + 1 := hSingle hMode
    have hTickets := hQueued hMode rfl
    rw [inFlight, if_neg (show (Run.publishing ticket published).ticket ≠ 0 from hTicket)] at hTickets
    show s.shared.tickets =
      List.range' (ticket + 1) (s.shared.pending - (ticket - s.shared.completed))
    rw [hTickets, hNext, Nat.add_sub_cancel_left]
  · simp only [Bool.and_eq_true, Bool.not_eq_true', decide_eq_true_eq] at hReady
    obtain ⟨⟨⟨-, hClosed⟩, hFailed⟩, hPending⟩ := hReady
    exact ⟨hPending, hClosed, hFailed⟩
  · obtain ⟨hSorted, hFrontier, hRange⟩ := h.order
    refine ⟨?_, ?_, ?_⟩
    · refine pairwise_append.mpr ⟨hSorted, pairwise_singleton _ _, ?_⟩
      intro t ht t' ht'
      rw [mem_singleton.mp ht']
      exact lt_of_le_of_lt (hFrontier t ht) hLow
    · intro t ht
      rcases mem_append.mp ht with ht | ht
      · exact (hFrontier t ht).trans hLow.le
      · exact (mem_singleton.mp ht).le
    · intro hMode
      have hNext : ticket = s.shared.completed + 1 := hSingle hMode
      show s.shared.acknowledgements ++ [ticket] = List.range' 1 ticket
      rw [hRange hMode, hNext, range'_1_concat, Nat.add_comm 1]

/-- A round without a ticket. -/
theorem Inv.observe {ticket : Nat} {published : Bool} (hRun : s.run = .publishing ticket published)
    (hTicket : ticket = 0) :
    Inv cfg { s with
      shared := { s.shared with
        ready := published && !s.shared.closed && !s.shared.failed && s.shared.pending = 0 }
      run := .top } := by
  have hTop : Inv cfg { s with run := .top } :=
    h.moveOn (by simp [hRun, Run.inLoop]) rfl (by simp [hRun, Run.ticket, hTicket])
  refine { hTop with ready := fun hReady => ?_, order := { hTop.order with } }
  simp only [Bool.and_eq_true, Bool.not_eq_true', decide_eq_true_eq] at hReady
  obtain ⟨⟨⟨-, hClosed⟩, hFailed⟩, hPending⟩ := hReady
  exact ⟨hPending, hClosed, hFailed⟩

/-- The last critical section of the worker. -/
theorem Inv.finish (hRun : s.run = .ending) :
    Inv cfg { s with
      shared := { s.shared with
        ready := false
        discarded := sub64 s.shared.accepted s.shared.completed
        pending := 0
        tickets := [] }
      run := .destroying } := by
  have hAccounted := h.accounted
  rw [hRun] at hAccounted
  have hLeft := h.left
  rw [hRun] at hLeft
  refine { h with
    accounted := nofun
    held := fun hNow => absurd rfl hNow
    queued := nofun
    ready := nofun
    left := fun _ => hLeft rfl
    discarded := fun _ => ?_
    order := { h.order with }
    noGap := ⟨nofun, nofun⟩ }
  show s.shared.accepted = s.shared.completed + sub64 s.shared.accepted s.shared.completed
  have hSum := hAccounted rfl
  rw [sub64_of_le (by omega) h.bounded]
  omega

theorem Inv.destroy (hRun : s.run = .destroying) :
    Inv cfg { s with shared := { s.shared with probe := false }, run := .ended } := by
  have hLeft := h.left
  have hDiscarded := h.discarded
  rw [hRun] at hLeft hDiscarded
  exact { h with
    accounted := nofun
    held := fun hNow => absurd rfl hNow
    queued := nofun
    left := fun _ => hLeft rfl
    discarded := fun _ => hDiscarded rfl
    order := { h.order with }
    noGap := ⟨nofun, nofun⟩ }

theorem Inv.run {shutdown : Bool} {outcome : Outcome} {r : Shared × Run}
    (hStep : s.run.step cfg s.shared shutdown outcome = some r) :
    Inv cfg { s with shared := r.1, run := r.2 } := by
  cases hRun : s.run with
  | top =>
    rw [hRun, Run.step] at hStep
    split_ifs at hStep with hShutdown hLeaves hHas <;> cases hStep
    · exact h.close.leave (by simp [hRun, Run.live]) rfl rfl rfl (fun _ => .inl rfl) ⟨nofun, nofun⟩
    · exact h.leave (by simp [hRun, Run.live]) rfl rfl rfl (fun _ => h.closed_of_leaves hLeaves)
        ⟨nofun, nofun⟩
    · exact h.take (by simp [hRun, Run.inLoop]) (by simp [hRun, Run.ticket]) hHas
    · exact h.moveOn (by simp [hRun, Run.inLoop]) rfl (by simp [hRun, Run.ticket])
  | polling =>
    rw [hRun] at hStep
    have hLoop : s.run.inLoop = true := by simp [hRun, Run.inLoop]
    have hLive : s.run.live = true := by simp [hRun, Run.live]
    have hTicket : s.run.ticket = 0 := by simp [hRun, Run.ticket]
    cases outcome with
    | quiet =>
      cases hStep
      exact h.moveOn hLoop rfl hTicket.symm
    | throws =>
      cases hStep
      exact h.leave hLive rfl rfl rfl nofun ⟨nofun, nofun⟩
    | proceeds =>
      simp only [Run.step] at hStep
      split_ifs at hStep with hLeaves hHas <;> cases hStep
      · exact h.leave hLive rfl rfl rfl (fun _ => h.closed_of_leaves hLeaves) ⟨nofun, nofun⟩
      · exact (h.take hLoop hTicket hHas).notReady
      · exact h.notReady.moveOn hLoop rfl hTicket.symm
    | cancels => cases hStep
    | publishes published => cases hStep
  | taken ticket =>
    rw [hRun, Run.step] at hStep
    rw [h.orderGap_eq hRun, if_neg nofun] at hStep
    cases hStep
    exact h.moveOn (by simp [hRun, Run.inLoop]) rfl (by simp [hRun, Run.ticket])
  | working ticket =>
    rw [hRun] at hStep
    have hLive : s.run.live = true := by simp [hRun, Run.live]
    cases outcome with
    | quiet => cases hStep
    | proceeds => cases hStep
    | throws | cancels =>
      cases hStep
      exact h.leave hLive rfl rfl rfl nofun ⟨nofun, nofun⟩
    | publishes published =>
      cases hStep
      exact h.moveOn (by simp [hRun, Run.inLoop]) rfl (by simp [hRun, Run.ticket])
  | publishing ticket published =>
    rw [hRun, Run.step] at hStep
    by_cases hTicket : ticket = 0
    · rw [if_pos hTicket] at hStep
      cases hStep
      exact h.observe hRun hTicket
    · rw [if_neg hTicket] at hStep
      have hHeld := h.held
      have hAccounted := h.accounted
      rw [hRun] at hHeld hAccounted
      obtain ⟨hLow, hHigh, -⟩ := hHeld hTicket
      change s.shared.completed < ticket at hLow
      change ticket ≤ s.shared.accepted at hHigh
      replace hAccounted := hAccounted rfl
      -- what is acknowledged is pending, and there is something to acknowledge
      rw [sub64_of_le hLow.le (hHigh.trans h.bounded), if_neg (by omega)] at hStep
      cases hStep
      exact h.acknowledge hRun hTicket
  | cancelled =>
    rw [hRun, Run.step] at hStep
    cases hStep
    exact h.close.leave (by simp [hRun, Run.live]) rfl rfl rfl (fun _ => .inl rfl) ⟨nofun, nofun⟩
  | throwing cause =>
    rw [hRun, Run.step] at hStep
    cases hStep
    exact (h.fail .reconcile).leave (by simp [hRun, Run.live]) rfl rfl rfl (fun _ => .inr rfl)
      ⟨nofun, nofun⟩
  | ending =>
    rw [hRun, Run.step] at hStep
    cases hStep
    exact h.finish hRun
  | destroying =>
    rw [hRun, Run.step] at hStep
    cases hStep
    exact h.destroy hRun
  | ended =>
    rw [hRun, Run.step] at hStep
    cases hStep

theorem Inv.stop {r : Shared × Stop} (hStep : s.stop.step s.shared s.run = some r) :
    Inv cfg { s with shared := r.1, stop := r.2 } := by
  -- `Stop` has no part in the accounting
  have hStop : ∀ {sh : Shared} (stop : Stop), (stop ≠ .idle → sh.closed) →
      Inv cfg { s with shared := sh } → Inv cfg { s with shared := sh, stop := stop } :=
    fun _ hClosing h => { h with closing := hClosing }
  cases hNow : s.stop with
  | idle =>
    rw [hNow, Stop.step] at hStep
    split at hStep <;> cases hStep
    · exact hStop .idle (absurd rfl) h
    · exact hStop .draining (fun _ => rfl) h.close
  | draining =>
    rw [hNow, Stop.step] at hStep
    cases hStep
    have hClosed : s.shared.closed = true := h.closing (by simp [hNow])
    exact hStop .joining (fun _ => hClosed) (h.setFlags ⟨rfl, rfl, rfl, rfl, rfl, rfl⟩
      (fun hReady => ⟨hReady, rfl, rfl⟩) (fun _ => hClosed) id id)
  | joining =>
    rw [hNow, Stop.step] at hStep
    split at hStep <;> cases hStep
    exact hStop .idle (absurd rfl) (h.setFlags ⟨rfl, rfl, rfl, rfl, rfl, rfl⟩
      (fun hReady => ⟨hReady, rfl, rfl⟩) h.stopped id id)

theorem Inv.step {a : Action} (hStep : step cfg s a = some s') : Inv cfg s' := by
  cases a with
  | push hookThrows allocates =>
    cases hStep
    exact h.push hookThrows allocates
  | run shutdown outcome =>
    obtain ⟨r, hRun, rfl⟩ := Option.map_eq_some_iff.mp hStep
    exact h.run hRun
  | fail reason =>
    cases hStep
    exact h.fail reason
  | stop =>
    obtain ⟨r, hStop, rfl⟩ := Option.map_eq_some_iff.mp hStep
    exact h.stop hStop
  | queryGuard =>
    cases hStep
    exact h
  | waitThrough ticket =>
    cases hStep
    exact h

omit h

theorem inv_of_reaches {ready : Bool} (h : Reaches (step cfg) (init ready) s) : Inv cfg s :=
  h.invariant (inv_init cfg ready) fun _ _ _ hInv hStep => hInv.step hStep

/-! ## After the end -/

/-- The worker thread is past its last critical section, with `accepted` tickets. -/
structure Over (accepted : Nat) (s : State) : Prop where
  dead : s.run.live = false
  closed : s.shared.closed ∨ s.shared.failed
  accepted : s.shared.accepted = accepted

theorem Over.push {n : Nat} (h : Over n s) (hookThrows allocates : Bool) :
    Over n { s with shared := s.shared.push cfg hookThrows allocates } := by
  rw [Shared.push]
  split_ifs with hHook hOver
  · exact ⟨h.dead, .inr rfl, h.accepted⟩
  · exact { h with }
  · exact absurd (by simpa using h.closed) hOver

theorem Over.step {n : Nat} (h : Over n s) {a : Action} (hStep : step cfg s a = some s') :
    Over n s' := by
  cases a with
  | push hookThrows allocates =>
    cases hStep
    exact h.push hookThrows allocates
  | run shutdown outcome =>
    obtain ⟨r, hRun, rfl⟩ := Option.map_eq_some_iff.mp hStep
    have hDead := h.dead
    -- only the destruction of the probe is left
    cases hNow : s.run <;> simp only [hNow, Run.live, Bool.true_eq_false] at hDead <;>
      rw [hNow, Run.step] at hRun <;> cases hRun
    exact ⟨rfl, h.closed, h.accepted⟩
  | fail reason =>
    cases hStep
    exact ⟨h.dead, .inr rfl, h.accepted⟩
  | stop =>
    obtain ⟨r, hStop, rfl⟩ := Option.map_eq_some_iff.mp hStep
    cases hNow : s.stop <;> rw [hNow, Stop.step] at hStop
    · split at hStop <;> cases hStop
      · exact { h with }
      · exact ⟨h.dead, .inl rfl, h.accepted⟩
    · cases hStop
      exact { h with }
    · split at hStop <;> cases hStop
      exact { h with }
  | queryGuard =>
    cases hStep
    exact h
  | waitThrough ticket =>
    cases hStep
    exact h

/-- In every interleaving: while the worker runs, each accepted ticket is
completed or pending, tickets complete in the order of their acceptance and
neither gap is ever thrown; a query is admitted, and a wait succeeds, only
without pending tickets; and once the worker has ended, each accepted ticket was
completed or discarded and none is accepted any more. -/
theorem tickets_accounted {ready : Bool} (h : Reaches (step cfg) (init ready) s) :
    (s.run.live → s.shared.accepted = s.shared.completed + s.shared.pending) ∧
      InOrder cfg s.shared ∧ s.shared.completed ≤ s.shared.accepted ∧
      s.run ≠ .throwing .orderGap ∧ s.run ≠ .throwing .accountingGap ∧
      (s.shared.queryGuard ∨ (∃ ticket, s.shared.waitThrough ticket) →
        s.shared.pending = 0 ∧ s.shared.failed = false ∧ s.shared.closed = false) ∧
      (s.run.live = false → s.shared.accepted = s.shared.completed + s.shared.discarded ∧
        ∀ t, Reaches (step cfg) s t → t.shared.accepted = s.shared.accepted) := by
  have hInv : Inv cfg s := inv_of_reaches h
  refine ⟨hInv.accounted, hInv.order, ?_, hInv.noGap.1, hInv.noGap.2, ?_, ?_⟩
  · cases hLive : s.run.live with
    | true => exact hInv.accounted hLive ▸ Nat.le_add_right _ _
    | false => exact hInv.discarded hLive ▸ Nat.le_add_right _ _
  · intro hAdmitted
    have hReady : s.shared.ready = true := by
      rcases hAdmitted with hQuery | ⟨ticket, hWait⟩
      · simp only [Shared.queryGuard, Bool.and_eq_true] at hQuery
        exact hQuery.1.1.1
      · simp only [Shared.waitThrough, Bool.and_eq_true] at hWait
        exact hWait.1.2
    obtain ⟨hPending, hClosed, hFailed⟩ := hInv.ready hReady
    exact ⟨hPending, hFailed, hClosed⟩
  · intro hDead
    have hLeft : s.run.left = true := by
      cases hRun : s.run <;> simp_all [Run.live, Run.left]
    have hOver : Over s.shared.accepted s := ⟨hDead, hInv.left hLeft, rfl⟩
    exact ⟨hInv.discarded hDead, fun t hRun =>
      (hRun.invariant hOver fun _ _ _ hNow hStep => hNow.step hStep).accepted⟩

/-- One ticket is acknowledged, then `Stop` comes before the second is taken. -/
def stoppedEarly : List Action :=
  [.push false true, .run false .quiet, .run false .quiet, .run false (.publishes true),
    .run false .quiet, .queryGuard, .push false true, .stop, .run false .quiet, .run false .quiet]

theorem stoppedEarly_discards : ∃ s, Reaches (step ⟨false, 2⟩) (init true) s ∧
    s.run.live = false ∧ s.shared.discarded = 1 ∧
    s.shared.accepted = s.shared.completed + s.shared.discarded := by
  have hRun : ∃ s, stoppedEarly.foldlM (step ⟨false, 2⟩) (init true) = some s ∧
      s.run.live = false ∧ s.shared.discarded = 1 := ⟨_, rfl, rfl, rfl⟩
  obtain ⟨s, hSome, hDead, hOne⟩ := hRun
  have hReaches := Reaches.of_run hSome
  obtain ⟨-, -, -, -, -, -, hEnded⟩ := tickets_accounted hReaches
  exact ⟨s, hReaches, hDead, hOne, (hEnded hDead).1⟩

end Ergon.ArchivalWorker
