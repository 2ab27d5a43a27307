import Ergon.Lib.Machine
import Ergon.Lib.Ring
import Ergon.Node.Coins

/-!
# Ergon — the validation event journal

`ValidationEventJournal` (`validation_event_journal.h`) as a machine. Producers,
`Take` and `Close` hold the mutex, so what they do to the ring and the failure
is one step; the budget is a pair of atomics that consumers release without the
mutex, so each access to it is a step of its own. Sizes of C++ objects are
parameters, and any allocation may fail.

* `Inv` — what holds between any two steps;
* `journal_run` — the budget, the ring, the order of events and the failure over
  every run.
-/

namespace Ergon.Journal

open Lib List Option

inductive Kind
  | added
  | removed
  | connected
  | disconnected
deriving DecidableEq

inductive Failure
  | capacity
  | bytes
  | sequence
  | missingCoin
  | invalidPayload
  | allocation
deriving DecidableEq

/-- What the journal copies of a block index. -/
structure BlockMeta where
  header : Bytes
  height : Int
  file : Int
  dataPos : Nat
  undoPos : Nat
  status : Nat
deriving DecidableEq

structure Event where
  -- the bytes charged for it
  charge : Nat
  sequence : Nat
  kind : Kind
  tx : Option Tx
  spentCoins : List Coin
  acceptTime : Int
  index : Option BlockMeta
  conflicts : List TxId
deriving DecidableEq

/-- Sizes of C++ objects and of the memory they own. -/
structure Sizes where
  event : Nat
  charge : Nat
  transaction : Nat
  coin : Nat
  txId : Nat
  txUsage : Tx → Nat
  coinUsage : Coin → Nat

/-- The limits that the constructor accepts. -/
structure Limits (sizes : Sizes) where
  maxEvents : Nat
  maxBytes : Nat
  events_pos : 0 < maxEvents
  events_le : maxEvents ≤ 4096
  bytes_ge : sizes.event ≤ maxBytes
  bytes_le : maxBytes ≤ 64 * 1024 * 1024

/-! ## What producers record -/

inductive Request
  | added (tx : Option Tx) (view : List (OutPoint × Coin)) (time : Int)
  | removed (tx : Option Tx)
  | block (kind : Kind) (index : Option BlockMeta) (conflicts : List (Option Tx))
deriving DecidableEq

def coinEmpty : Coin := ⟨⟨-1, ⟨[]⟩⟩, 0, false⟩

/-- A coin of the acceptance view, whose backend is detached. -/
def accessCoin (view : List (OutPoint × Coin)) (out : OutPoint) : Coin :=
  (view.lookup out).getD coinEmpty

def checkTx : Option Tx → Except Failure Tx
  | none => .error .invalidPayload
  | some tx =>
    if tx.inputs = [] ∨ tx.outputs = [] ∨ tx.isCoinBase ∨ 4096 < tx.inputs.length ∨
        4096 < tx.outputs.length then
      .error .invalidPayload
    else .ok tx

variable (sizes : Sizes)

/-- The part of the charge that every event has. -/
def baseCharge : Nat := sizes.event + sizes.charge + 256

/-- Charge the coin that an input spends. -/
def chargeCoin (maxBytes : Nat) (view : List (OutPoint × Coin)) (charge : Nat) (input : TxInput) :
    Except Failure Nat := do
  let coin := accessCoin view input.prevOut
  ensure (coin.isSpent = false) .missingCoin
  let extra := sizes.coinUsage coin
  ensure (¬ (maxBytes < extra ∨ maxBytes - extra < charge)) .bytes
  return charge + extra

/-- The checks of a request up to `Reserve`, with the bytes to reserve; sums are
taken in 64 bits. -/
def Request.charge (maxBytes : Nat) : Request → Except Failure Nat
  | .added tx view _ => do
    let tx ← checkTx tx
    let charge := (baseCharge sizes + sizes.transaction + sizes.txUsage tx +
      tx.inputs.length * sizes.coin) % 2 ^ 64
    tx.inputs.foldlM (chargeCoin sizes maxBytes view) charge
  | .removed tx => do
    let tx ← checkTx tx
    return (baseCharge sizes + sizes.transaction + sizes.txUsage tx) % 2 ^ 64
  | .block kind index conflicts => do
    ensure (¬ (index = none ∨ (∃ i ∈ index, i.height < 0) ∨ 4096 < conflicts.length ∨
      (kind ≠ .connected ∧ kind ≠ .disconnected))) .invalidPayload
    return (baseCharge sizes + conflicts.length * sizes.txId) % 2 ^ 64

/-- The event of a request, before it has its number. -/
def Request.event (charge : Nat) : Request → Except Failure Event
  | .added tx view time =>
    .ok ⟨charge, 0, .added, tx,
      ((tx.map (·.inputs)).getD []).map fun i => accessCoin view i.prevOut, time, none, []⟩
  | .removed tx => .ok ⟨charge, 0, .removed, tx, [], 0, none, []⟩
  | .block kind index conflicts => do
    let ids ← conflicts.mapM fun tx => orElse (tx.map (·.txid)) .invalidPayload
    return ⟨charge, 0, kind, none, [], 0, index, ids⟩

/-! ## The machine -/

/-- Where the holder of the mutex is, between two accesses to the budget. -/
inductive Producer
  -- `Reserve`, about to load the number of events
  | checkEvents (r : Request) (charge : Nat)
  -- about to load the number of bytes
  | checkBytes (r : Request) (charge : Nat)
  -- about to construct the charge
  | chargeEvent (r : Request) (charge : Nat)
  | chargeBytes (r : Request) (charge : Nat)
  -- about to construct the event, and to commit it
  | build (r : Request) (charge : Nat)
  -- destroying an event that was not committed; an exception fails afterwards
  | dropBytes (charge : Nat) (after : Option Failure)
  | dropEvent (after : Option Failure)
deriving DecidableEq

structure State where
  slots : List (Option Event)
  head : Nat
  queued : Nat
  accepted : Nat
  failure : Option Failure
  closed : Bool
  -- the budget
  events : Nat
  bytes : Nat
  -- the holder of the mutex
  producer : Option Producer
  -- events that consumers hold
  held : List Event
  -- consumers that have released the bytes of an event and not yet its place
  releasing : Nat
  -- the numbers of the events taken so far
  taken : List Nat
deriving DecidableEq

namespace State

/-- The first failure is kept. -/
def fail (s : State) (why : Failure) : State := { s with failure := s.failure.or (some why) }

def unlock (s : State) : State := { s with producer := none }

def commit (s : State) (e : Event) : State :=
  { s with
    accepted := s.accepted + 1
    slots := s.slots.set ((s.head + s.queued) % s.slots.length)
      (some { e with sequence := s.accepted + 1 })
    queued := s.queued + 1 }

/-- The queued events, in order. -/
def queue (s : State) : List Event :=
  (List.range s.queued).filterMap fun i => (s.slots[(s.head + i) % s.slots.length]?).join

/-- The events that are queued or still held. -/
def live (s : State) : List Event := s.queue ++ s.held

end State

inductive Action
  | call (r : Request)
  -- the next step of the holder of the mutex; whether its allocations succeed
  | proceed (allocates : Bool)
  | take
  | close
  -- a consumer gives up the event at an index of those held, in two steps
  | releaseBytes (i : Nat)
  | releaseEvent
deriving DecidableEq

variable {sizes} (limits : Limits sizes)

def init : State :=
  ⟨List.replicate limits.maxEvents none, 0, 0, 0, none, false, 0, 0, none, [], 0, []⟩

/-- `Added`, `Removed` or `Block`, up to the first access to the budget. -/
def call (s : State) (r : Request) : State :=
  if s.closed ∨ s.failure ≠ none then s
  else
    match r.charge sizes limits.maxBytes with
    | .error why => s.fail why
    | .ok charge =>
      if s.accepted = 2 ^ 64 - 1 then s.fail .sequence
      else { s with producer := some (.checkEvents r charge) }

def proceed (s : State) (allocates : Bool) : Producer → State
  | .checkEvents r charge =>
    if limits.maxEvents ≤ s.events then (s.fail .capacity).unlock
    else { s with producer := some (.checkBytes r charge) }
  | .checkBytes r charge =>
    if limits.maxBytes < charge ∨ limits.maxBytes - charge < s.bytes then (s.fail .bytes).unlock
    else { s with producer := some (.chargeEvent r charge) }
  | .chargeEvent r charge =>
    if allocates then
      { s with events := s.events + 1, producer := some (.chargeBytes r charge) }
    else (s.fail .allocation).unlock
  | .chargeBytes r charge =>
    { s with bytes := s.bytes + charge, producer := some (.build r charge) }
  | .build r charge =>
    if allocates then
      match r.event charge with
      | .ok e => (s.commit e).unlock
      | .error why => { s.fail why with producer := some (.dropBytes charge none) }
    else { s with producer := some (.dropBytes charge (some .allocation)) }
  | .dropBytes charge after =>
    { s with bytes := s.bytes - charge, producer := some (.dropEvent after) }
  | .dropEvent after =>
    let s := { s with events := s.events - 1 }
    (after.elim s s.fail).unlock

def take (s : State) : State :=
  if s.queued = 0 ∨ s.failure ≠ none ∨ s.closed then s
  else
    let event := (s.slots[s.head]?).join
    { s with
      slots := s.slots.set s.head none
      head := (s.head + 1) % s.slots.length
      queued := s.queued - 1
      held := s.held ++ event.toList
      taken := s.taken ++ (event.map (·.sequence)).toList }

/-- One step; `none` if the action is not possible now. -/
def step (s : State) : Action → Option State
  | .call r => if s.producer = none then some (call limits s r) else none
  | .proceed allocates => s.producer.map (proceed limits s allocates)
  | .take => if s.producer = none then some (take s) else none
  | .close => if s.producer = none then some { s with closed := true } else none
  | .releaseBytes i =>
    s.held[i]?.map fun e =>
      { s with
        held := s.held.eraseIdx i
        bytes := s.bytes - e.charge
        releasing := s.releasing + 1 }
  | .releaseEvent =>
    if s.releasing = 0 then none
    else some { s with events := s.events - 1, releasing := s.releasing - 1 }

/-! ## Invariant -/

def charges (l : List Event) : Nat := (l.map (·.charge)).sum

namespace Producer

/-- Whether the holder's event counts, and with how many bytes. -/
def pendingEvents : Producer → Nat
  | .chargeBytes .. | .build .. | .dropBytes .. | .dropEvent .. => 1
  | _ => 0

def pendingBytes : Producer → Nat
  | .build _ charge | .dropBytes charge _ => charge
  | _ => 0

/-- Whether the holder may still commit. -/
def mayCommit : Producer → Bool
  | .dropBytes .. | .dropEvent .. => false
  | _ => true

end Producer

/-- What `Reserve` has checked so far stays true: others only release. -/
def Reserved (s : State) : Producer → Prop
  | .checkBytes .. => s.events < limits.maxEvents
  | .chargeEvent _ charge => s.events < limits.maxEvents ∧ s.bytes + charge ≤ limits.maxBytes
  | .chargeBytes _ charge => s.bytes + charge ≤ limits.maxBytes
  | _ => True

structure Inv (s : State) (q : List Event) : Prop where
  ring : RingHolds s.slots s.head q
  length : s.slots.length = limits.maxEvents
  queued : s.queued = q.length
  numbers : q.map (·.sequence) = List.range' (s.taken.length + 1) q.length
  taken : s.taken = List.range' 1 s.taken.length
  accepted : s.accepted = s.taken.length + q.length
  events : s.events =
    q.length + s.held.length + s.releasing + (s.producer.map (·.pendingEvents)).getD 0
  bytes : s.bytes = charges q + charges s.held + (s.producer.map (·.pendingBytes)).getD 0
  events_le : s.events ≤ limits.maxEvents
  bytes_le : s.bytes ≤ limits.maxBytes
  reserved : ∀ p ∈ s.producer, Reserved limits s p
  working : ∀ p ∈ s.producer, p.mayCommit = true → s.closed = false ∧ s.failure = none

theorem inv_init : Inv limits (init limits) [] where
  ring := .replicate limits.events_pos
  length := length_replicate
  queued := rfl
  numbers := rfl
  taken := rfl
  accepted := rfl
  events := rfl
  bytes := rfl
  events_le := Nat.zero_le _
  bytes_le := Nat.zero_le _
  reserved _ h := nomatch h
  working _ h := nomatch h

/-- What a step does to the parts of the state that the claims speak about. -/
structure Keeps (s t : State) : Prop where
  failure : s.failure ≠ none → t.failure = s.failure
  closed : s.closed = true → t.closed = true
  stopped : s.failure ≠ none ∨ s.closed = true → t.accepted = s.accepted ∧ t.taken = s.taken

variable {limits} {s t : State} {q : List Event}

theorem Keeps.refl (s : State) : Keeps s s := ⟨fun _ => rfl, id, fun _ => ⟨rfl, rfl⟩⟩

theorem Keeps.trans {s t u : State} (h : Keeps s t) (h' : Keeps t u) : Keeps s u where
  failure hs := by
    have ht := h.failure hs
    rw [← ht, h'.failure (ht ▸ hs)]
  closed hs := h'.closed (h.closed hs)
  stopped hs := by
    have ht : t.failure ≠ none ∨ t.closed = true :=
      hs.imp (fun hf => by rw [h.failure hf]; exact hf) h.closed
    obtain ⟨hAccepted, hTaken⟩ := h.stopped hs
    obtain ⟨hAccepted', hTaken'⟩ := h'.stopped ht
    exact ⟨hAccepted'.trans hAccepted, hTaken'.trans hTaken⟩

/-! ## Steps -/

/-- What is shown of each step: the invariant, what it keeps, and that an event
is accepted into an empty slot only. -/
def StepOk (limits : Limits sizes) (s t : State) : Prop :=
  (∃ q, Inv limits t q) ∧ Keeps s t ∧
    (t.accepted ≠ s.accepted → s.slots[(s.head + s.queued) % s.slots.length]? = some none)

/-- Nothing is accepted or taken, and the flags stay as they are. -/
theorem StepOk.quiet (h : Inv limits t q) (hFailure : t.failure = s.failure)
    (hClosed : t.closed = s.closed) (hAccepted : t.accepted = s.accepted)
    (hTaken : t.taken = s.taken) : StepOk limits s t :=
  ⟨⟨q, h⟩, ⟨fun _ => hFailure, hClosed.trans, fun _ => ⟨hAccepted, hTaken⟩⟩, absurd hAccepted⟩

theorem keeps_fail (s : State) (why : Failure) : Keeps s (s.fail why) where
  failure hs := by
    cases hf : s.failure with
    | none => exact absurd hf hs
    | some f => simp [State.fail, hf]
  closed := id
  stopped _ := ⟨rfl, rfl⟩

/-- Recording a failure changes nothing else; the holder may no longer commit. -/
theorem Inv.fail (h : Inv limits s q) (why : Failure)
    (hHolder : ∀ p ∈ s.producer, p.mayCommit = false) : Inv limits (s.fail why) q :=
  { h with
    working := fun p hp hMay => by
      rw [hHolder p hp] at hMay
      cases hMay }

/-- Leaving the mutex with nothing pending. -/
theorem Inv.unlock (h : Inv limits s q) (hEvents : (s.producer.map (·.pendingEvents)).getD 0 = 0)
    (hBytes : (s.producer.map (·.pendingBytes)).getD 0 = 0) : Inv limits s.unlock q :=
  { h with
    events := by rw [← hEvents]; exact h.events
    bytes := by rw [← hBytes]; exact h.bytes
    reserved := fun p hp => nomatch hp
    working := fun p hp => nomatch hp }

variable {p : Producer}

/-- A failed check of `Reserve`, or a failed allocation before the charge. -/
theorem stepOk_abort (h : Inv limits s q) (hp : s.producer = some p) (hEvents : p.pendingEvents = 0)
    (hBytes : p.pendingBytes = 0) (why : Failure) : StepOk limits s (s.fail why).unlock := by
  refine ⟨⟨q, ?_⟩, { keeps_fail s why with }, absurd rfl⟩
  have hFree : Inv limits s.unlock q :=
    h.unlock (by simp [hp, hEvents]) (by simp [hp, hBytes])
  exact hFree.fail why fun p hp => nomatch hp

/-- The holder goes on to its next access; nothing else changes. -/
theorem stepOk_advance (h : Inv limits s q) {p p' : Producer} (hp : s.producer = some p)
    (hEvents : p'.pendingEvents = p.pendingEvents) (hBytes : p'.pendingBytes = p.pendingBytes)
    (hReserved : Reserved limits s p') (hMay : p'.mayCommit = true → p.mayCommit = true) :
    StepOk limits s { s with producer := some p' } := by
  refine .quiet (q := q)
    { h with events := ?_, bytes := ?_, reserved := ?_, working := ?_ } rfl rfl rfl rfl
  · have hEq := h.events
    rw [hp] at hEq
    simpa [hEvents] using hEq
  · have hEq := h.bytes
    rw [hp] at hEq
    simpa [hBytes] using hEq
  · intro p'' hp''
    cases hp''
    cases p' <;> exact hReserved
  · intro p'' hp'' hMay'
    cases hp''
    exact h.working p hp (hMay hMay')

theorem stepOk_call (h : Inv limits s q) (hFree : s.producer = none) (r : Request) :
    StepOk limits s (call limits s r) := by
  rw [call]
  split
  · exact .quiet h rfl rfl rfl rfl
  · next hOpen =>
    rw [not_or, not_not] at hOpen
    have hFail : ∀ why, StepOk limits s (s.fail why) := fun why =>
      ⟨⟨q, h.fail why fun p hp => by rw [hFree] at hp; cases hp⟩, keeps_fail s why, absurd rfl⟩
    split
    · exact hFail _
    · split
      · exact hFail _
      · exact .quiet (q := q) { h with
          events := by simpa [hFree, Producer.pendingEvents] using h.events
          bytes := by simpa [hFree, Producer.pendingBytes] using h.bytes
          reserved := fun p hp => by cases hp; trivial
          working := fun p hp _ => ⟨by simpa using hOpen.1, hOpen.2⟩ } rfl rfl rfl rfl

variable {e : Event}

/-- Committing puts the event behind the others. -/
theorem Inv.commit (h : Inv limits s q) {r : Request} {charge : Nat}
    (hp : s.producer = some (.build r charge)) (he : e.charge = charge) :
    q.length < s.slots.length ∧
      Inv limits (s.commit e).unlock (q ++ [{ e with sequence := s.accepted + 1 }]) := by
  have hEvents := h.events
  have hBytes := h.bytes
  have hAccepted := h.accepted
  have hQueued := h.queued
  simp only [hp, map_some, getD_some, Producer.pendingEvents,
    Producer.pendingBytes] at hEvents hBytes
  -- the charge of this event is in the budget, so the queue is not full
  have hRoom : q.length < s.slots.length := by
    have hLe := h.events_le
    rw [h.length]
    omega
  have hRing := h.ring.push hRoom { e with sequence := s.accepted + 1 }
  refine ⟨hRoom, { h with
    ring := by
      rw [← hQueued] at hRing
      exact hRing
    length := by
      rw [← h.length]
      exact length_set
    queued := by
      rw [length_append, ← hQueued]
      rfl
    numbers := by
      rw [map_append, h.numbers, length_append, length_singleton, range'_concat]
      simp only [map_cons, map_nil, State.unlock, State.commit]
      rw [hAccepted]
      congr 2
      omega
    accepted := by
      simp only [State.unlock, State.commit, length_append, length_singleton]
      omega
    events := by
      rw [length_append]
      show s.events = _
      rw [hEvents]
      simp only [State.unlock, State.commit, map_none, getD_none, length_singleton]
      omega
    bytes := by
      show s.bytes = _
      rw [hBytes]
      simp only [charges, map_append, sum_append, map_cons, map_nil, sum_cons, sum_nil, he,
        State.unlock, State.commit, map_none, getD_none]
      omega
    reserved := fun p hp => nomatch hp
    working := fun p hp => nomatch hp }⟩

theorem Request.event_charge {r : Request} {charge : Nat} (h : r.event charge = .ok e) :
    e.charge = charge := by
  cases r with
  | added tx view time =>
    cases h
    rfl
  | removed tx =>
    cases h
    rfl
  | block kind index conflicts =>
    obtain ⟨ids, _, hEq⟩ := bind_eq_ok.mp h
    cases hEq
    rfl

theorem stepOk_proceed (h : Inv limits s q) (hp : s.producer = some p) (allocates : Bool) :
    StepOk limits s (proceed limits s allocates p) := by
  have hEvents := h.events
  have hBytes := h.bytes
  have hReserved := h.reserved p hp
  rw [hp, map_some, getD_some] at hEvents hBytes
  cases p with
  | checkEvents r charge =>
    rw [proceed]
    split
    · exact stepOk_abort h hp rfl rfl _
    · next hRoom => exact stepOk_advance h hp rfl rfl (Nat.lt_of_not_le hRoom) fun _ => rfl
  | checkBytes r charge =>
    rw [proceed]
    split
    · exact stepOk_abort h hp rfl rfl _
    · next hRoom => exact stepOk_advance h hp rfl rfl ⟨hReserved, by omega⟩ fun _ => rfl
  | chargeEvent r charge =>
    rw [proceed]
    split
    · obtain ⟨hRoom, hFits⟩ := hReserved
      exact .quiet (q := q) { h with
        events := by simpa [Producer.pendingEvents] using hEvents
        bytes := by simpa [Producer.pendingBytes] using hBytes
        events_le := hRoom
        reserved := fun p' hp' => by cases hp'; exact hFits
        working := fun p' hp' _ => h.working _ hp rfl } rfl rfl rfl rfl
    · exact stepOk_abort h hp rfl rfl _
  | chargeBytes r charge =>
    exact .quiet (q := q) { h with
      events := hEvents
      bytes := by
        simp only [Producer.pendingBytes, Nat.add_zero] at hBytes
        simp [proceed, Producer.pendingBytes, hBytes]
      bytes_le := hReserved
      reserved := fun p' hp' => by cases hp'; trivial
      working := fun p' hp' _ => h.working _ hp rfl } rfl rfl rfl rfl
  | build r charge =>
    rw [proceed]
    split
    · cases he : r.event charge with
      | ok e =>
        obtain ⟨hRoom, hCommit⟩ := h.commit hp (Request.event_charge he)
        obtain ⟨hClosed, hFailure⟩ := h.working _ hp rfl
        refine ⟨⟨_, hCommit⟩, ⟨fun hs => absurd hFailure hs, id, fun hs => ?_⟩, fun _ => ?_⟩
        · -- neither failed nor closed
          rw [hFailure, hClosed] at hs
          simp at hs
        · rw [h.queued]
          exact h.ring.next_empty hRoom
      | error why =>
        exact ⟨⟨q, { h with
          events := hEvents
          bytes := hBytes
          reserved := fun p' hp' => by cases hp'; trivial
          working := fun p' hp' hMay => by cases hp'; cases hMay }⟩, { keeps_fail s why with },
          absurd rfl⟩
    · exact stepOk_advance h hp rfl rfl trivial fun hMay => by cases hMay
  | dropBytes charge after =>
    exact .quiet (q := q) { h with
      events := hEvents
      bytes := by
        simp only [Producer.pendingBytes] at hBytes
        simp [proceed, Producer.pendingBytes, hBytes]
      bytes_le := Nat.le_trans (Nat.sub_le _ _) h.bytes_le
      reserved := fun p' hp' => by cases hp'; trivial
      working := fun p' hp' hMay => by cases hp'; cases hMay } rfl rfl rfl rfl
  | dropEvent after =>
    have hFree : Inv limits { s with events := s.events - 1, producer := none } q :=
      { h with
        events := by
          simp only [Producer.pendingEvents] at hEvents
          simp [hEvents]
        bytes := hBytes
        events_le := Nat.le_trans (Nat.sub_le _ _) h.events_le
        reserved := fun p' hp' => nomatch hp'
        working := fun p' hp' => nomatch hp' }
    cases after with
    | none => exact .quiet hFree rfl rfl rfl rfl
    | some why =>
      exact ⟨⟨q, hFree.fail why fun p' hp' => nomatch hp'⟩, { keeps_fail s why with }, absurd rfl⟩

theorem stepOk_take (h : Inv limits s q) (hFree : s.producer = none) :
    StepOk limits s (take s) := by
  rw [take]
  split
  · exact .quiet h rfl rfl rfl rfl
  · next hOpen =>
    rw [not_or, not_or, not_not] at hOpen
    obtain ⟨hSome, hFailure, hClosed⟩ := hOpen
    have hQueued := h.queued
    have hNumbers := h.numbers
    have hEvents := h.events
    have hBytes := h.bytes
    have hAccepted := h.accepted
    cases q with
    | nil => exact absurd hQueued hSome
    | cons e rest =>
      rw [h.ring.front, length_cons] at *
      simp only [hFree, map_none, getD_none, charges, map_cons, sum_cons,
        range'_succ, List.cons.injEq] at hEvents hBytes hNumbers
      simp only [join_some, toList_some, map_some]
      refine ⟨⟨rest, ?_⟩, ⟨fun _ => rfl, id, fun hs => ?_⟩, absurd rfl⟩
      · exact { h with
          ring := h.ring.pop
          length := by
            rw [← h.length]
            exact length_set
          queued := by
            show s.queued - 1 = _
            omega
          numbers := by
            rw [hNumbers.2, length_append]
            rfl
          taken := by
            rw [hNumbers.1, length_append, length_singleton, range'_concat, ← h.taken]
            simp [Nat.add_comm]
          accepted := by
            show s.accepted = _
            rw [hAccepted, length_append, length_singleton]
            omega
          events := by
            show s.events = _
            rw [hEvents, length_append, length_singleton]
            simp [hFree]
            omega
          bytes := by
            show s.bytes = _
            rw [hBytes]
            simp [hFree, charges]
            omega }
      · rw [hFailure] at hs
        simp [hClosed] at hs

theorem charges_eraseIdx {l : List Event} {i : Nat} (h : l[i]? = some e) :
    charges (l.eraseIdx i) + e.charge = charges l := by
  induction l generalizing i with
  | nil => cases h
  | cons a l ih =>
    cases i with
    | zero =>
      cases h
      simp [charges, Nat.add_comm]
    | succ i =>
      have hRest := ih h
      simp only [charges, eraseIdx_cons_succ, map_cons, sum_cons] at hRest ⊢
      omega

theorem Reserved.mono (h : Reserved limits s p) (hEvents : t.events ≤ s.events)
    (hBytes : t.bytes ≤ s.bytes) : Reserved limits t p := by
  cases p <;> simp only [Reserved] at h ⊢ <;> omega

theorem stepOk_releaseBytes (h : Inv limits s q) {i : Nat} (he : s.held[i]? = some e) :
    StepOk limits s { s with
      held := s.held.eraseIdx i
      bytes := s.bytes - e.charge
      releasing := s.releasing + 1 } := by
  have hEvents := h.events
  have hBytes := h.bytes
  have hCharges := charges_eraseIdx he
  have hLength : (s.held.eraseIdx i).length + 1 = s.held.length := by
    have hLt := (List.getElem?_eq_some_iff.mp he).1
    rw [length_eraseIdx_of_lt hLt]
    omega
  refine .quiet (q := q) { h with
    events := ?_
    bytes := ?_
    bytes_le := Nat.le_trans (Nat.sub_le _ _) h.bytes_le
    reserved := fun p hp => (h.reserved p hp).mono le_rfl (Nat.sub_le _ _) } rfl rfl rfl rfl
  · show s.events = _
    rw [hEvents]
    simp only
    omega
  · show s.bytes - e.charge = _
    rw [hBytes]
    simp only
    omega

theorem stepOk_releaseEvent (h : Inv limits s q) (hSome : s.releasing ≠ 0) :
    StepOk limits s { s with events := s.events - 1, releasing := s.releasing - 1 } := by
  have hEvents := h.events
  refine .quiet (q := q) { h with
    events := ?_
    events_le := Nat.le_trans (Nat.sub_le _ _) h.events_le
    reserved := fun p hp => (h.reserved p hp).mono (Nat.sub_le _ _) le_rfl } rfl rfl rfl rfl
  show s.events - 1 = _
  rw [hEvents]
  simp only
  omega

theorem stepOk_step (h : Inv limits s q) {a : Action} (hStep : step limits s a = some t) :
    StepOk limits s t := by
  cases a with
  | call r =>
    simp only [step] at hStep
    split at hStep
    · next hFree =>
      cases hStep
      exact stepOk_call h hFree r
    · cases hStep
  | proceed allocates =>
    obtain ⟨p, hp, rfl⟩ := map_eq_some_iff.mp hStep
    exact stepOk_proceed h hp allocates
  | take =>
    simp only [step] at hStep
    split at hStep
    · next hFree =>
      cases hStep
      exact stepOk_take h hFree
    · cases hStep
  | close =>
    simp only [step] at hStep
    split at hStep
    · next hFree =>
      cases hStep
      refine ⟨⟨q, { h with working := fun p hp => ?_ }⟩, ⟨fun _ => rfl, fun _ => rfl,
        fun _ => ⟨rfl, rfl⟩⟩, absurd rfl⟩
      rw [hFree] at hp
      cases hp
    · cases hStep
  | releaseBytes i =>
    obtain ⟨e, he, rfl⟩ := map_eq_some_iff.mp hStep
    exact stepOk_releaseBytes h he
  | releaseEvent =>
    simp only [step] at hStep
    split at hStep
    · cases hStep
    · next hSome =>
      cases hStep
      exact stepOk_releaseEvent h hSome

/-! ## Runs -/

theorem filterMap_range_getElem? : ∀ q : List Event,
    (List.range q.length).filterMap (fun i => q[i]?) = q := by
  intro q
  induction q using List.reverseRecOn with
  | nil => rfl
  | append_singleton q x ih =>
    rw [length_append, length_singleton, range_succ, filterMap_append]
    have hFront : (List.range q.length).filterMap (fun i => (q ++ [x])[i]?) =
        (List.range q.length).filterMap fun i => q[i]? :=
      filterMap_congr fun i hi => getElem?_append_left (mem_range.mp hi)
    rw [hFront, ih]
    simp

theorem Inv.queue_eq (h : Inv limits s q) : s.queue = q := by
  rw [State.queue, h.queued]
  have hSlots : (List.range q.length).filterMap
      (fun i => (s.slots[(s.head + i) % s.slots.length]?).join) =
        (List.range q.length).filterMap fun i => q[i]? := by
    refine filterMap_congr fun i hi => ?_
    have hLt := mem_range.mp hi
    rw [h.ring.slot i (Nat.lt_of_lt_of_le hLt h.ring.length_le), join_some]
  rw [hSlots, filterMap_range_getElem?]

theorem inv_of_reaches (h : Reaches (step limits) (init limits) s) : ∃ q, Inv limits s q :=
  h.invariant (I := fun s => ∃ q, Inv limits s q) ⟨[], inv_init limits⟩ fun _ _ _ hInv hStep => by
    obtain ⟨q, hInv⟩ := hInv
    exact (stepOk_step hInv hStep).1

theorem keeps_of_reaches (hInv : ∃ q, Inv limits s q) (h : Reaches (step limits) s t) :
    Keeps s t :=
  h.relates (I := fun s => ∃ q, Inv limits s q) Keeps.refl (fun _ _ _ => Keeps.trans)
    (fun _ _ _ hInv hStep => by
    obtain ⟨q, hInv⟩ := hInv
    obtain ⟨hNext, hKeeps, _⟩ := stepOk_step hInv hStep
    exact ⟨hNext, hKeeps⟩) hInv

theorem journal_run (h : Reaches (step limits) (init limits) s) :
    s.live.length ≤ limits.maxEvents ∧ charges s.live ≤ limits.maxBytes ∧
    (∀ a t, step limits s a = some t → t.accepted ≠ s.accepted →
      s.slots[(s.head + s.queued) % s.slots.length]? = some none) ∧
    s.taken = List.range' 1 s.taken.length ∧
    ∀ t, Reaches (step limits) s t →
      (s.failure ≠ none → t.failure = s.failure) ∧
      (s.failure ≠ none ∨ s.closed = true → t.accepted = s.accepted ∧ t.taken = s.taken) := by
  obtain ⟨q, hInv⟩ := inv_of_reaches h
  have hEvents := hInv.events
  have hEventsLe := hInv.events_le
  have hBytes := hInv.bytes
  have hBytesLe := hInv.bytes_le
  refine ⟨?_, ?_, ?_, hInv.taken, ?_⟩
  · rw [State.live, hInv.queue_eq, length_append]
    omega
  · have hSum : charges s.live = charges q + charges s.held := by
      simp [State.live, hInv.queue_eq, charges]
    omega
  · intro a t hStep
    exact (stepOk_step hInv hStep).2.2
  · intro t hRun
    have hKeeps := keeps_of_reaches ⟨q, hInv⟩ hRun
    exact ⟨hKeeps.failure, hKeeps.stopped⟩

/-! A journal with room for one event: two events go through it one after the
other, and a third finds the second still held. -/

def sampleSizes : Sizes := ⟨1, 1, 1, 1, 1, fun _ => 1, fun _ => 1⟩

def sampleLimits : Limits sampleSizes := ⟨1, 1000, by decide, by decide, by decide, by decide⟩

def sampleBlock : Request := .block .connected (some ⟨[], 1, 0, 0, 0, 0⟩) []

/-- Record a block with every allocation succeeding. -/
def sampleRecord : List Action := .call sampleBlock :: List.replicate 5 (.proceed true)

def sampleRun : List Action :=
  sampleRecord ++ [.take, .releaseBytes 0, .releaseEvent] ++ sampleRecord ++
    [.take, .call sampleBlock, .proceed true]

theorem sampleRun_full : ∃ s, Reaches (step sampleLimits) (init sampleLimits) s ∧
    s.taken = [1, 2] ∧ s.failure = some .capacity ∧ s.live.length ≤ 1 ∧
    ∀ t, Reaches (step sampleLimits) s t → t.failure = some .capacity := by
  have hRun : (sampleRun.foldlM (step sampleLimits) (init sampleLimits)).map
      (fun s => (s.taken, s.failure)) = some ([1, 2], some .capacity) := by
    decide +kernel
  obtain ⟨s, hs, hEq⟩ := map_eq_some_iff.mp hRun
  obtain ⟨hTaken, hFailure⟩ := Prod.mk.inj hEq
  have hReaches := Reaches.of_run hs
  obtain ⟨hLive, _, _, _, hLater⟩ := journal_run hReaches
  refine ⟨s, hReaches, hTaken, hFailure, hLive, fun t ht => ?_⟩
  rw [(hLater t ht).1 (by simp [hFailure]), hFailure]

end Ergon.Journal
