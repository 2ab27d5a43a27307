import Ergon.Observer.Envelope

/-!
# Ergon — the event envelope over whole runs

What the parties of the envelope rely on and guarantee to each other:

* `SharedOk`, `ThreadOk`, `WorkerOk` — what holds between any two steps;
* `Guar` — what a step of one party keeps for all the others;
* `Submit.step_ok`, `Thread.step_ok`, `Worker.step_ok` — every step guarantees it.
-/

namespace Ergon.Envelope

open Lib List Option

variable {capacity : Nat} {sh sh' : Shared} {me holder : Holder} {t u : Nat}

/-! ## The shared state -/

structure SharedOk (capacity : Nat) (sh : Shared) : Prop where
  pos : 0 < capacity
  length : sh.slots.length = capacity
  read_le : sh.readIndex ≤ sh.moved
  moved_le : sh.moved ≤ sh.writeIndex
  room : sh.writeIndex ≤ sh.readIndex + capacity
  published : sh.published.length = sh.writeIndex
  max : sh.writeIndex ≤ maxU64
  -- what is published and not yet moved stands in its slot
  unread : ∀ k, sh.moved ≤ k → k < sh.writeIndex →
    sh.slots[k % capacity]? = some sh.published[k]?
  sealed : sh.sealed = true → sh.degraded = true ∨ sh.stopping = true
  counted : sh.mutex = none → sh.accepted = sh.writeIndex
  sealed_counted : sh.sealed = true → sh.accepted = sh.writeIndex

/-- Two indices of the window that starts at the read index use different slots. -/
theorem slot_ne {r j k : Nat} (hj : r ≤ j) (hj' : j < r + capacity) (hk : r ≤ k)
    (hk' : k < r + capacity) (hne : j ≠ k) : j % capacity ≠ k % capacity := by
  intro hSame
  have hEq := @ring_inj capacity r (j - r) (k - r) (by omega) (by omega)
    (by rwa [Nat.add_sub_cancel' hj, Nat.add_sub_cancel' hk])
  omega

/-! ## What a party may rely on -/

/-- A step of another party, seen by the holder of the mutex. -/
structure RelyLocked (holder : Holder) (sh sh' : Shared) : Prop where
  mutex : sh.mutex = some holder → sh'.mutex = some holder
  accepted : sh.mutex = some holder → sh'.accepted = sh.accepted
  written : sh.mutex = some holder → sh'.writeIndex = sh.writeIndex
  sealed : sh.mutex = some holder → sh'.sealed = sh.sealed

/-- A step of another party, seen by a thread. -/
structure RelyThread (capacity t : Nat) (sh sh' : Shared) : Prop where
  locked : RelyLocked (.thread t) sh sh'
  busy : sh.busy = some t → sh'.busy = some t
  written : sh.busy = some t → sh'.writeIndex = sh.writeIndex
  read_le : sh.readIndex ≤ sh'.readIndex
  slot : sh.busy = some t → sh.writeIndex < sh.readIndex + capacity →
    sh'.slots[sh.writeIndex % capacity]? = sh.slots[sh.writeIndex % capacity]?
  stopping : sh.stopping = true → sh'.stopping = true
  ended : sh.workerEnded = true → sh'.workerEnded = true

/-- A step of a thread, seen by the worker. -/
structure RelyWorker (sh sh' : Shared) : Prop where
  locked : RelyLocked .worker sh sh'
  read : sh'.readIndex = sh.readIndex
  moved : sh'.moved = sh.moved
  processed : sh'.processed = sh.processed
  consumed : sh'.consumed = sh.consumed
  seen : sh'.lastSeen = sh.lastSeen
  calls : sh'.callsAfterDegraded = sh.callsAfterDegraded
  ended : sh'.workerEnded = sh.workerEnded
  written : sh.writeIndex ≤ sh'.writeIndex
  published : sh.published <+: sh'.published
  degraded : sh.degraded = true → sh'.degraded = true

/-- What stays through every later step. -/
structure Keeps (sh sh' : Shared) : Prop where
  degraded : sh.degraded = true → sh'.degraded = true
  sealed : sh.sealed = true → sh'.sealed = true ∧ sh'.published = sh.published

/-- What a step of `me` keeps for all. -/
structure Guar (capacity : Nat) (me : Holder) (sh sh' : Shared) : Prop where
  shared : SharedOk capacity sh'
  threads : ∀ t, me ≠ .thread t → RelyThread capacity t sh sh'
  worker : me ≠ .worker → RelyWorker sh sh'
  keeps : Keeps sh sh'

/-! ## Steps that anyone makes -/

/-- The mutex is held and every published event is counted. -/
structure Locked (holder : Holder) (sh : Shared) : Prop where
  mutex : sh.mutex = some holder
  counted : sh.accepted = sh.writeIndex

theorem Locked.rely (h : Locked holder sh) (hRely : RelyLocked holder sh sh') :
    Locked holder sh' :=
  ⟨hRely.mutex h.mutex, by rw [hRely.accepted h.mutex, hRely.written h.mutex, h.counted]⟩

theorem RelyLocked.refl : RelyLocked holder sh sh := ⟨id, fun _ => rfl, fun _ => rfl, fun _ => rfl⟩

/-- Without the mutex there is nothing to rely on. -/
theorem RelyLocked.of_ne (hMutex : sh.mutex = none ∨ sh.mutex = some me) (hne : me ≠ holder) :
    RelyLocked holder sh sh' := by
  have hNot : sh.mutex ≠ some holder := by
    obtain hFree | hMine := hMutex
    · simp [hFree]
    · rw [hMine]
      exact fun hEq => hne (Option.some.inj hEq)
  exact ⟨fun hm => absurd hm hNot, fun hm => absurd hm hNot, fun hm => absurd hm hNot,
    fun hm => absurd hm hNot⟩

theorem RelyThread.refl : RelyThread capacity t sh sh :=
  ⟨.refl, id, fun _ => rfl, le_rfl, fun _ _ => rfl, id, id⟩

theorem RelyWorker.refl : RelyWorker sh sh :=
  ⟨.refl, rfl, rfl, rfl, rfl, rfl, rfl, rfl, le_rfl, prefix_rfl, id⟩

theorem Keeps.refl : Keeps sh sh := ⟨id, fun h => ⟨h, rfl⟩⟩

theorem Keeps.trans {sh₁ sh₂ sh₃ : Shared} (h : Keeps sh₁ sh₂) (h' : Keeps sh₂ sh₃) :
    Keeps sh₁ sh₃ := by
  refine ⟨fun hd => h'.degraded (h.degraded hd), fun hs => ?_⟩
  obtain ⟨hs₂, hEq⟩ := h.sealed hs
  obtain ⟨hs₃, hEq'⟩ := h'.sealed hs₂
  exact ⟨hs₃, hEq'.trans hEq⟩

namespace SharedOk

/-- The mutex and what it guards, changed by its holder. -/
theorem guar_guarded {mutex : Option Holder} {accepted : Nat}
    (hMutex : sh.mutex = none ∨ sh.mutex = some me)
    (hShared : SharedOk capacity { sh with mutex := mutex, accepted := accepted }) :
    Guar capacity me sh { sh with mutex := mutex, accepted := accepted } :=
  ⟨hShared, fun _ hne => { RelyThread.refl with locked := .of_ne hMutex hne },
    fun hne => { RelyWorker.refl with locked := .of_ne hMutex hne }, ⟨id, fun hs => ⟨hs, rfl⟩⟩⟩

variable (h : SharedOk capacity sh)
include h

theorem guar_refl : Guar capacity me sh sh :=
  ⟨h, fun _ _ => .refl, fun _ => .refl, .refl⟩

theorem guar_lock (me : Holder) (hFree : sh.mutex = none) :
    Guar capacity me sh { sh with mutex := some me } ∧ Locked me { sh with mutex := some me } :=
  ⟨guar_guarded (.inl hFree) { h with counted := nofun }, ⟨rfl, h.counted hFree⟩⟩

theorem guar_unlock (hLocked : Locked me sh) :
    Guar capacity me sh { sh with mutex := none } :=
  guar_guarded (.inr hLocked.mutex) { h with counted := fun _ => hLocked.counted }

/-- A flag that is set without the mutex. -/
theorem guar_flag (me : Holder) (d s : Bool) :
    Guar capacity me sh { sh with degraded := sh.degraded || d, stopping := sh.stopping || s } := by
  refine ⟨{ h with sealed := fun hs => ?_ }, fun t _ => ?_, fun _ => ?_, ⟨?_, fun hs => ⟨hs, rfl⟩⟩⟩
  · obtain hd | hst := h.sealed hs
    · exact .inl (by simp [hd])
    · exact .inr (by simp [hst])
  · exact { RelyThread.refl with
      locked := { RelyLocked.refl with }
      stopping := fun hst => by simp [hst] }
  · exact { RelyWorker.refl with
      locked := { RelyLocked.refl with }
      degraded := fun hd => by simp [hd] }
  · intro hd
    simp [hd]

/-- A flag that is set under the mutex. -/
theorem guar_seal (hLocked : Locked me sh) {d s : Bool} (hSome : d = true ∨ s = true) :
    Guar capacity me sh
      { sh with degraded := sh.degraded || d, stopping := sh.stopping || s, sealed := true } := by
  refine ⟨{ h with sealed := fun _ => ?_, sealed_counted := fun _ => hLocked.counted },
    fun t hne => ?_, fun hne => ?_, ⟨?_, fun _ => ⟨rfl, rfl⟩⟩⟩
  · obtain hd | hs := hSome
    · exact .inl (by simp [hd])
    · exact .inr (by simp [hs])
  · exact { RelyThread.refl with
      locked := .of_ne (.inr hLocked.mutex) hne
      stopping := fun hst => by simp [hst] }
  · exact { RelyWorker.refl with
      locked := .of_ne (.inr hLocked.mutex) hne
      degraded := fun hd => by simp [hd] }
  · intro hd
    simp [hd]

end SharedOk

/-! ## Marking -/

def Mark.locked : Mark → Bool
  | .store | .unlock => true
  | _ => false

structure MarkOk (holder : Holder) (sh : Shared) (m : Mark) : Prop where
  locked : m.locked = true → Locked holder sh
  marked : m = .unlock → sh.degraded = true

theorem MarkOk.start : MarkOk holder sh .lock := ⟨fun h => (nomatch h), fun h => (nomatch h)⟩

theorem MarkOk.rely {m : Mark} (h : MarkOk holder sh m) (hRely : RelyLocked holder sh sh')
    (hKeeps : sh.degraded = true → sh'.degraded = true) : MarkOk holder sh' m :=
  ⟨fun hm => (h.locked hm).rely hRely, fun hm => hKeeps (h.marked hm)⟩

/-- A step of marking; once it is done, the envelope is degraded. -/
theorem Mark.step_ok (h : SharedOk capacity sh) {m : Mark} (hm : MarkOk me sh m) {throws : Bool}
    {r : Shared × Option Mark} (hStep : m.step me sh throws = some r) :
    Guar capacity me sh r.1 ∧ (∀ n ∈ r.2, MarkOk me r.1 n) ∧ (r.2 = none → r.1.degraded = true) ∧
      r.1 = { sh with mutex := r.1.mutex, degraded := r.1.degraded, sealed := r.1.sealed } := by
  cases m with
  | lock =>
    simp only [Mark.step] at hStep
    split at hStep
    · cases hStep
      refine ⟨h.guar_refl, ?_, (nomatch ·), rfl⟩
      rintro n ⟨⟩
      exact ⟨fun hl => (nomatch hl), fun hl => (nomatch hl)⟩
    · split at hStep
      · next hFree =>
        cases hStep
        obtain ⟨hGuar, hLocked⟩ := h.guar_lock me hFree
        refine ⟨hGuar, ?_, (nomatch ·), rfl⟩
        rintro n ⟨⟩
        exact ⟨fun _ => hLocked, fun hl => (nomatch hl)⟩
      · cases hStep
  | store =>
    cases hStep
    have hLocked := hm.locked rfl
    have hGuar := h.guar_seal hLocked (d := true) (s := false) (.inl rfl)
    simp only [Bool.or_true, Bool.or_false] at hGuar
    refine ⟨hGuar, ?_, (nomatch ·), rfl⟩
    rintro n ⟨⟩
    exact ⟨fun _ => ⟨hLocked.mutex, hLocked.counted⟩, fun _ => rfl⟩
  | unlock =>
    cases hStep
    exact ⟨h.guar_unlock (hm.locked rfl), fun n hn => (nomatch hn), fun _ => hm.marked rfl, rfl⟩
  | storeUnlocked =>
    cases hStep
    have hGuar := h.guar_flag me true false
    simp only [Bool.or_true, Bool.or_false] at hGuar
    exact ⟨hGuar, fun n hn => (nomatch hn), fun _ => rfl, rfl⟩

/-! ## Submit -/

variable {pc : Submit}

namespace Submit

/-- In the producer section. -/
def busy : Submit → Bool
  | .loadFlags | .loadStopping | .setBusy | .lockedReturn => false
  | _ => true

/-- The write index that was loaded. -/
def index : Submit → Option Nat
  | .loadRead w | .checkSlot w | .emplace w | .lock w | .lockedFlags w | .lockedStopping w
  | .storeWrite w | .resetSlot w => some w
  | _ => none

/-- Room was found for another event. -/
def reserved : Submit → Bool
  | .loadRead _ => false
  | pc => pc.index.isSome

/-- The event stands in its slot. -/
def emplaced : Submit → Bool
  | .lock _ | .lockedFlags _ | .lockedStopping _ | .storeWrite _ => true
  | _ => false

def locked : Submit → Bool
  | .lockedFlags _ | .lockedStopping _ | .storeWrite _ | .storeSequence | .countAccepted | .unlock
  | .resetSlot _ | .lockedClearBusy | .lockedReturn => true
  | _ => false

/-- How many events are published and not counted. -/
def uncounted : Submit → Nat
  | .storeSequence | .countAccepted => 1
  | _ => 0

theorem busy_of_index (h : pc.index ≠ none) : pc.busy = true := by
  cases pc <;> first | rfl | exact absurd rfl h

theorem index_of_reserved (h : pc.reserved = true) : pc.index ≠ none := by
  cases pc <;> simp_all [Submit.reserved, Submit.index]

theorem reserved_of_emplaced (h : pc.emplaced = true) : pc.reserved = true := by
  cases pc <;> first | rfl | cases h

end Submit

structure SubmitOk (capacity t : Nat) (sh : Shared) (e : OwnedEvent) (pc : Submit) : Prop where
  busy : pc.busy = true → sh.busy = some t
  index : ∀ w ∈ pc.index, w = sh.writeIndex
  reserved : pc.reserved = true →
    sh.writeIndex < maxU64 ∧ sh.writeIndex < sh.readIndex + capacity
  emplaced : pc.emplaced = true → sh.slots[sh.writeIndex % capacity]? = some (some e)
  locked : pc.locked = true → sh.mutex = some (.thread t)
  counted : pc.locked = true → sh.accepted + pc.uncounted = sh.writeIndex
  -- what the flags said under the mutex is still true
  stopping : ∀ w, pc = .lockedStopping w → sh.sealed = true → sh.stopping = true
  unsealed : ∀ w, pc = .storeWrite w → sh.sealed = false

theorem SubmitOk.rely {e : OwnedEvent} (h : SubmitOk capacity t sh e pc)
    (hRely : RelyThread capacity t sh sh') : SubmitOk capacity t sh' e pc where
  busy hb := hRely.busy (h.busy hb)
  index w hw := by
    have hb := h.busy (Submit.busy_of_index (by rw [mem_def.mp hw]; exact some_ne_none w))
    rw [hRely.written hb, h.index w hw]
  reserved hr := by
    have hb := h.busy (Submit.busy_of_index (Submit.index_of_reserved hr))
    obtain ⟨hMax, hRoom⟩ := h.reserved hr
    have hRead := hRely.read_le
    rw [hRely.written hb]
    exact ⟨hMax, by omega⟩
  emplaced he := by
    have hr := Submit.reserved_of_emplaced he
    have hb := h.busy (Submit.busy_of_index (Submit.index_of_reserved hr))
    rw [hRely.written hb, hRely.slot hb (h.reserved hr).2, h.emplaced he]
  locked hl := hRely.locked.mutex (h.locked hl)
  counted hl := by
    rw [hRely.locked.accepted (h.locked hl), hRely.locked.written (h.locked hl), h.counted hl]
  stopping w hw hs := by
    have hl := h.locked (by rw [hw]; rfl)
    exact hRely.stopping (h.stopping w hw (by rwa [hRely.locked.sealed hl] at hs))
  unsealed w hw := by
    have hl := h.locked (by rw [hw]; rfl)
    rw [hRely.locked.sealed hl, h.unsealed w hw]

/-! ## What a step of `Submit` does to the shared state -/

namespace SharedOk

/-- Other threads are not in the producer section. -/
theorem not_busy (hBusy : sh.busy = some t) (hne : Holder.thread t ≠ .thread u) :
    sh.busy ≠ some u := by
  rw [hBusy]
  exact fun hEq => hne (by rw [Option.some.inj hEq])

variable (h : SharedOk capacity sh)
include h

theorem guar_busy (hBusy : sh.busy = none ∨ sh.busy = some t)
    (b : Option Nat) : Guar capacity (.thread t) sh { sh with busy := b } := by
  refine ⟨{ h with }, fun u hne => ?_, fun _ => { RelyWorker.refl with locked := ?_ },
    ⟨id, fun hs => ⟨hs, rfl⟩⟩⟩
  · have hAbs : sh.busy ≠ some u := by
      obtain hFree | hMine := hBusy
      · simp [hFree]
      · rw [hMine]
        exact fun hEq => hne (by rw [Option.some.inj hEq])
    exact { RelyThread.refl with
      locked := { RelyLocked.refl with }
      busy := fun hb => absurd hb hAbs }
  · exact { RelyLocked.refl with }

theorem guar_slot (hBusy : sh.busy = some t)
    (hRoom : sh.writeIndex < sh.readIndex + capacity) (x : Option OwnedEvent) :
    Guar capacity (.thread t) sh
      { sh with slots := sh.slots.set (sh.writeIndex % capacity) x } := by
  refine ⟨{ h with length := ?_, unread := fun k hk hlt => ?_ }, fun u hne => ?_,
    fun _ => { RelyWorker.refl with locked := ?_ }, ⟨id, fun hs => ⟨hs, rfl⟩⟩⟩
  · rw [length_set, h.length]
  · -- the slot written is not one of those unread
    have hRead : sh.readIndex ≤ k := Nat.le_trans h.read_le hk
    have hLt : k < sh.writeIndex := hlt
    have hNe : sh.writeIndex % capacity ≠ k % capacity :=
      slot_ne (r := sh.readIndex) (by omega) hRoom hRead (by omega) (Nat.ne_of_gt hLt)
    rw [getElem?_set_ne hNe]
    exact h.unread k hk hlt
  · have hAbs := not_busy hBusy hne
    exact ⟨{ RelyLocked.refl with }, id, fun _ => rfl, le_rfl, fun hb => absurd hb hAbs, id, id⟩
  · exact { RelyLocked.refl with }

theorem guar_publish {e : OwnedEvent} {w : Nat} (hOk : SubmitOk capacity t sh e (.storeWrite w)) :
    Guar capacity (.thread t) sh
      { sh with writeIndex := sh.writeIndex + 1, published := sh.published ++ [e] } := by
  have hBusy := hOk.busy rfl
  have hMutex := hOk.locked rfl
  have hUnsealed := hOk.unsealed w rfl
  obtain ⟨hMax, hRoom⟩ := hOk.reserved rfl
  have hSealed : ¬ sh.sealed = true := by simp [hUnsealed]
  refine ⟨{ h with
      moved_le := Nat.le_succ_of_le h.moved_le
      room := hRoom
      published := by simp [h.published]
      max := hMax
      unread := fun k hk hlt => ?_
      counted := fun hm => ?_
      sealed_counted := fun hs => absurd hs hSealed }, fun u hne => ?_, fun _ => ?_,
    ⟨id, fun hs => absurd hs hSealed⟩⟩
  · obtain hOld | rfl := Nat.lt_succ_iff_lt_or_eq.mp hlt
    · rw [getElem?_append_left (by rw [h.published]; exact hOld)]
      exact h.unread k hk hOld
    · have hLast : (sh.published ++ [e])[sh.writeIndex]? = some e := by
        rw [← h.published, getElem?_concat_length]
      rw [hLast]
      exact hOk.emplaced rfl
  · change sh.mutex = none at hm
    rw [hMutex] at hm
    cases hm
  · have hAbs := not_busy hBusy hne
    exact { RelyThread.refl with
      locked := .of_ne (.inr hMutex) hne
      written := fun hb => absurd hb hAbs }
  · exact { RelyWorker.refl with
      locked := .of_ne (.inr hMutex) nofun
      written := Nat.le_succ _
      published := prefix_append _ _ }

/-- What no party relies on. -/
theorem guar_unseen {sequence : Nat} {reset : Bool} :
    Guar capacity (.thread t) sh
      { sh with lastEnqueuedSequence := sequence, workerReset := reset } :=
  ⟨{ h with }, fun _ _ => { RelyThread.refl with locked := { RelyLocked.refl with } },
    fun _ => { RelyWorker.refl with locked := { RelyLocked.refl with } }, ⟨id, fun hs => ⟨hs, rfl⟩⟩⟩

theorem guar_count (hMutex : sh.mutex = some (.thread t))
    (hCounted : sh.accepted + 1 = sh.writeIndex) :
    Guar capacity (.thread t) sh { sh with accepted := sh.accepted + 1 } :=
  guar_guarded (.inr hMutex)
    { h with counted := fun _ => hCounted, sealed_counted := fun _ => hCounted }

end SharedOk

/-! ## Threads -/

/-- A step of `Submit` that only goes on, with the shared state as it was. -/
theorem SubmitOk.go {e : OwnedEvent} {pc pc' : Submit} (h : SubmitOk capacity t sh e pc)
    (hBusy : pc'.busy = true → pc.busy = true) (hIndex : ∀ w ∈ pc'.index, w ∈ pc.index)
    (hReserved : pc'.reserved = true → pc.reserved = true)
    (hEmplaced : pc'.emplaced = true → pc.emplaced = true)
    (hLocked : pc'.locked = true → pc.locked = true) (hCount : pc'.uncounted = pc.uncounted)
    (hStopping : ∀ w, pc' = .lockedStopping w → sh.sealed = true → sh.stopping = true)
    (hUnsealed : ∀ w, pc' = .storeWrite w → sh.sealed = false) :
    SubmitOk capacity t sh e pc' where
  busy hb := h.busy (hBusy hb)
  index w hw := h.index w (hIndex w hw)
  reserved hr := h.reserved (hReserved hr)
  emplaced he := h.emplaced (hEmplaced he)
  locked hl := h.locked (hLocked hl)
  counted hl := by rw [hCount, h.counted (hLocked hl)]
  stopping := hStopping
  unsealed := hUnsealed

theorem SubmitOk.leave {e : OwnedEvent} {b : Bool} (h : sh.busy = some t) :
    SubmitOk capacity t sh e (.leave b) :=
  ⟨fun _ => h, nofun, nofun, nofun, nofun, nofun, nofun, nofun⟩

/-- What follows from one step of `Submit`, for the others and for itself. -/
def SubmitStep (capacity t : Nat) (sh : Shared) (e : OwnedEvent) (r : Shared × Next) : Prop :=
  Guar capacity (.thread t) sh r.1 ∧ ∀ pc, r.2 = .stay pc → SubmitOk capacity t r.1 e pc

section

variable {e : OwnedEvent}

theorem SubmitStep.stay (hGuar : Guar capacity (.thread t) sh sh')
    (hOk : SubmitOk capacity t sh' e pc) : SubmitStep capacity t sh e (sh', .stay pc) := by
  refine ⟨hGuar, ?_⟩
  rintro _ ⟨⟩
  exact hOk

theorem SubmitStep.leaves (hGuar : Guar capacity (.thread t) sh sh') {next : Next}
    (hNext : ∀ pc, next ≠ .stay pc) : SubmitStep capacity t sh e (sh', next) :=
  ⟨hGuar, fun pc hEq => absurd hEq (hNext pc)⟩

/-- A step that only reads, and goes one of two ways. -/
theorem SubmitStep.branch (h : SharedOk capacity sh) {c : Prop} [Decidable c] {yes no : Submit}
    (hYes : c → SubmitOk capacity t sh e yes) (hNo : ¬ c → SubmitOk capacity t sh e no) :
    SubmitStep capacity t sh e (sh, if c then .stay yes else .stay no) := by
  split
  · next hc => exact .stay h.guar_refl (hYes hc)
  · next hc => exact .stay h.guar_refl (hNo hc)

end

variable {throws : Bool}

theorem Submit.step_ok (h : SharedOk capacity sh) {e : OwnedEvent}
    (hOk : SubmitOk capacity t sh e pc) {r : Shared × Next}
    (hStep : pc.step capacity t e sh throws = some r) : SubmitStep capacity t sh e r := by
  cases pc with
  | loadFlags | loadStopping =>
    cases hStep
    split
    · exact .leaves h.guar_refl nofun
    · exact .stay h.guar_refl ⟨nofun, nofun, nofun, nofun, nofun, nofun, nofun, nofun⟩
  | setBusy =>
    simp only [Submit.step] at hStep
    split at hStep
    · next hFree =>
      cases hStep
      refine .stay (h.guar_busy (.inl hFree) _) ?_
      exact ⟨fun _ => rfl, nofun, nofun, nofun, nofun, nofun, nofun, nofun⟩
    · cases hStep
      exact .leaves h.guar_refl nofun
  | reloadFlags =>
    cases hStep
    have hBusy := hOk.busy rfl
    split
    · exact .stay h.guar_refl (.leave hBusy)
    · exact .branch h (fun _ => .leave hBusy) fun _ =>
        ⟨fun _ => hBusy, nofun, nofun, nofun, nofun, nofun, nofun, nofun⟩
  | reloadStopping =>
    cases hStep
    have hBusy := hOk.busy rfl
    exact .branch h (fun _ => .leave hBusy) fun _ =>
      ⟨fun _ => hBusy, nofun, nofun, nofun, nofun, nofun, nofun, nofun⟩
  | loadWrite =>
    cases hStep
    refine .stay h.guar_refl ⟨fun _ => hOk.busy rfl, ?_, nofun, nofun, nofun, nofun, nofun, nofun⟩
    rintro w ⟨⟩
    rfl
  | loadRead w =>
    cases hStep
    have hBusy := hOk.busy rfl
    have hIndex := hOk.index w rfl
    refine .branch h (fun _ => .leave hBusy) fun hRoom =>
      ⟨fun _ => hBusy, hOk.index, fun _ => ?_, nofun, nofun, nofun, nofun, nofun⟩
    -- the read index is at most the write index, so the difference does not wrap
    have hMax := h.max
    have hRead := Nat.le_trans h.read_le h.moved_le
    omega
  | checkSlot w =>
    cases hStep
    refine .branch h (fun _ => .leave (hOk.busy rfl)) fun _ => ?_
    exact hOk.go id (fun _ hw => hw) id nofun nofun rfl nofun nofun
  | emplace w =>
    cases hStep
    have hIndex := hOk.index w rfl
    subst hIndex
    obtain ⟨hMax, hRoom⟩ := hOk.reserved rfl
    refine .stay (h.guar_slot (hOk.busy rfl) hRoom _)
      ⟨fun _ => hOk.busy rfl, ?_, fun _ => ⟨hMax, hRoom⟩, fun _ => ?_, nofun, nofun, nofun, nofun⟩
    · rintro w ⟨⟩
      rfl
    · exact getElem?_set_self (by rw [h.length]; exact Nat.mod_lt _ h.pos)
  | lock w =>
    simp only [Submit.step] at hStep
    split at hStep
    · cases hStep
      exact .stay h.guar_refl (.leave (hOk.busy rfl))
    · split at hStep
      · next hFree =>
        cases hStep
        obtain ⟨hGuar, hLocked⟩ := h.guar_lock (.thread t) hFree
        exact .stay hGuar ⟨fun _ => hOk.busy rfl, hOk.index, fun _ => hOk.reserved rfl,
          fun _ => hOk.emplaced rfl, fun _ => rfl, fun _ => hLocked.counted, nofun, nofun⟩
      · cases hStep
  | lockedFlags w =>
    cases hStep
    refine .branch h (fun _ => ?_) fun hDegraded => ?_
    · exact hOk.go id (fun _ hw => hw) id nofun id rfl nofun nofun
    · -- a sealed envelope that is not degraded is stopping
      refine hOk.go id (fun _ hw => hw) id id id rfl (fun _ _ hSealed => ?_) nofun
      exact (h.sealed hSealed).resolve_left hDegraded
  | lockedStopping w =>
    cases hStep
    refine .branch h (fun _ => ?_) fun hStopping => ?_
    · exact hOk.go id (fun _ hw => hw) id nofun id rfl nofun nofun
    · refine hOk.go id (fun _ hw => hw) id id id rfl nofun fun _ _ => ?_
      by_contra hSealed
      exact hStopping (hOk.stopping w rfl (by simpa using hSealed))
  | storeWrite w =>
    cases hStep
    have hIndex := hOk.index w rfl
    subst hIndex
    have hCounted := hOk.counted rfl
    refine .stay (h.guar_publish hOk) ⟨fun _ => hOk.busy rfl, nofun, nofun, nofun,
      fun _ => hOk.locked rfl, fun _ => ?_, nofun, nofun⟩
    exact congrArg (· + 1) hCounted
  | storeSequence =>
    cases hStep
    exact .stay h.guar_unseen ⟨fun _ => hOk.busy rfl, nofun, nofun, nofun,
      fun _ => hOk.locked rfl, fun _ => hOk.counted rfl, nofun, nofun⟩
  | countAccepted =>
    cases hStep
    exact .stay (h.guar_count (hOk.locked rfl) (hOk.counted rfl)) ⟨fun _ => hOk.busy rfl, nofun,
      nofun, nofun, fun _ => hOk.locked rfl, fun _ => hOk.counted rfl, nofun, nofun⟩
  | unlock =>
    cases hStep
    exact .stay (h.guar_unlock ⟨hOk.locked rfl, hOk.counted rfl⟩)
      ⟨fun _ => hOk.busy rfl, nofun, nofun, nofun, nofun, nofun, nofun, nofun⟩
  | clearBusy =>
    cases hStep
    exact .leaves (h.guar_busy (.inr (hOk.busy rfl)) none) nofun
  | resetSlot w =>
    cases hStep
    have hIndex := hOk.index w rfl
    subst hIndex
    exact .stay (h.guar_slot (hOk.busy rfl) (hOk.reserved rfl).2 none)
      ⟨fun _ => hOk.busy rfl, nofun, nofun, nofun, fun _ => hOk.locked rfl,
        fun _ => hOk.counted rfl, nofun, nofun⟩
  | lockedClearBusy =>
    cases hStep
    exact .stay (h.guar_busy (.inr (hOk.busy rfl)) none)
      ⟨nofun, nofun, nofun, nofun, fun _ => hOk.locked rfl, fun _ => hOk.counted rfl, nofun, nofun⟩
  | lockedReturn =>
    cases hStep
    exact .leaves (h.guar_unlock ⟨hOk.locked rfl, hOk.counted rfl⟩) nofun
  | leave mark =>
    cases hStep
    refine .leaves (h.guar_busy (.inr (hOk.busy rfl)) none) fun pc => ?_
    cases mark <;> exact nofun

def Shutdown.locked : Shutdown → Bool
  | .store | .unlock => true
  | _ => false

/-- What holds of a thread between any two steps. -/
def ThreadOk (capacity t : Nat) (sh : Shared) : Thread → Prop
  | .submit e pc => SubmitOk capacity t sh e pc
  -- marking is followed by a step that does not need the mutex
  | .mark m after => MarkOk (.thread t) sh m ∧ ∀ pc, after = .shutdown pc → pc.locked = false
  | .shutdown pc => pc.locked = true → Locked (.thread t) sh
  | .returned completed => completed = true → sh.workerEnded = true
  | .idle => True

theorem ThreadOk.rely {th : Thread} (h : ThreadOk capacity t sh th)
    (hRely : RelyThread capacity t sh sh') (hKeeps : Keeps sh sh') : ThreadOk capacity t sh' th := by
  cases th with
  | idle => trivial
  | submit e pc => exact SubmitOk.rely h hRely
  | mark m after => exact ⟨h.1.rely hRely.locked hKeeps.degraded, h.2⟩
  | shutdown pc => exact fun hl => (h hl).rely hRely.locked
  | returned c => exact fun hc => hRely.ended (h hc)

theorem ThreadOk.start (c : Call) : ThreadOk capacity t sh (c.start sh) := by
  have hMark : ThreadOk capacity t sh (.mark .lock .done) := ⟨.start, nofun⟩
  cases c with
  | submit e =>
    simp only [Call.start]
    split
    · exact hMark
    · exact ⟨nofun, nofun, nofun, nofun, nofun, nofun, nofun, nofun⟩
  | markDegraded => exact hMark
  | shutdown =>
    simp only [Call.start]
    split
    · trivial
    · exact nofun

variable {r : Shared × Thread}

theorem Shutdown.step_ok (h : SharedOk capacity sh) {pc : Shutdown}
    (hOk : pc.locked = true → Locked (.thread t) sh) (hStep : pc.step t sh throws = some r) :
    Guar capacity (.thread t) sh r.1 ∧ ThreadOk capacity t r.1 r.2 := by
  cases pc with
  | lock =>
    simp only [Shutdown.step] at hStep
    split at hStep
    · cases hStep
      exact ⟨h.guar_refl, nofun⟩
    · split at hStep
      · next hFree =>
        cases hStep
        obtain ⟨hGuar, hLocked⟩ := h.guar_lock (.thread t) hFree
        exact ⟨hGuar, fun _ => hLocked⟩
      · cases hStep
  | store =>
    cases hStep
    have hLocked := hOk rfl
    have hGuar := h.guar_seal hLocked (d := false) (s := true) (.inr rfl)
    simp only [Bool.or_true, Bool.or_false] at hGuar
    exact ⟨hGuar, fun _ => ⟨hLocked.mutex, hLocked.counted⟩⟩
  | unlock =>
    cases hStep
    exact ⟨h.guar_unlock (hOk rfl), nofun⟩
  | storeUnlocked =>
    cases hStep
    have hGuar := h.guar_flag (.thread t) false true
    simp only [Bool.or_true, Bool.or_false] at hGuar
    exact ⟨hGuar, nofun⟩
  | wait =>
    simp only [Shutdown.step] at hStep
    split at hStep
    · cases hStep
      refine ⟨h.guar_refl, .start, ?_⟩
      rintro _ ⟨⟩
      rfl
    · split at hStep
      · cases hStep
        exact ⟨h.guar_refl, nofun⟩
      · cases hStep
  | join =>
    simp only [Shutdown.step] at hStep
    split at hStep
    · cases hStep
      refine ⟨h.guar_refl, .start, ?_⟩
      rintro _ ⟨⟩
      rfl
    · split at hStep
      · next hEnded =>
        cases hStep
        exact ⟨h.guar_unseen, fun _ => hEnded.1⟩
      · cases hStep
  | detachHook =>
    cases hStep
    refine ⟨h.guar_refl, ?_⟩
    split
    · refine ⟨.start, ?_⟩
      rintro _ ⟨⟩
      rfl
    · exact nofun
  | contain =>
    cases hStep
    exact ⟨h.guar_unseen, nofun⟩

theorem Thread.step_ok (h : SharedOk capacity sh) {th : Thread} (hOk : ThreadOk capacity t sh th)
    (hStep : th.step capacity t sh throws = some r) :
    Guar capacity (.thread t) sh r.1 ∧ ThreadOk capacity t r.1 r.2 := by
  cases th with
  | idle => cases hStep
  | returned c => cases hStep
  | shutdown pc => exact Shutdown.step_ok h hOk hStep
  | submit e pc =>
    obtain ⟨r', hStep', rfl⟩ := map_eq_some_iff.mp hStep
    obtain ⟨hGuar, hNext⟩ := Submit.step_ok h hOk hStep'
    refine ⟨hGuar, ?_⟩
    cases hr : r'.2 with
    | stay pc' => exact hNext pc' hr
    | done => trivial
    | mark => exact ⟨.start, nofun⟩
  | mark m after =>
    obtain ⟨r', hStep', rfl⟩ := map_eq_some_iff.mp hStep
    obtain ⟨hGuar, hNext, _, _⟩ := Mark.step_ok h hOk.1 hStep'
    refine ⟨hGuar, ?_⟩
    cases hr : r'.2 with
    | some m' => exact ⟨hNext m' hr, hOk.2⟩
    | none =>
      cases after with
      | done => trivial
      | shutdown pc =>
        intro hl
        rw [hOk.2 pc rfl] at hl
        cases hl

/-! ## The worker -/

namespace Worker

def locked : Worker → Bool
  | .canRunFlags | .canRunStopping | .canRunRead | .canRunWrite _ | .wait | .unlock _ => true
  | _ => false

/-- The loop has been left. -/
def stopped : Worker → Bool
  | .mark .. | .storeDone | .exitHook | .ending | .ended => true
  | _ => false

/-- Left, and no failure is about to be marked. -/
def finished : Worker → Bool
  | .storeDone | .exitHook | .ending | .ended => true
  | _ => false

/-- How many events are moved and not counted in the read index. -/
def moving : Worker → Nat
  | .resetSlot .. | .storeRead .. => 1
  | _ => 0

/-- How many events are read and not processed. -/
def delivering : Worker → Nat
  | .checkSequence _ | .call _ | .calling _ | .storeProcessed _ | .countProcessed => 1
  | _ => 0

/-- How many events are accepted by the consumer and not processed. -/
def delivered : Worker → Nat
  | .storeProcessed _ | .countProcessed => 1
  | _ => 0

/-- The event that is not yet accepted. -/
def event : Worker → Option OwnedEvent
  | .resetSlot e _ | .storeRead e _ | .checkSequence e | .call e | .calling e => some e
  | _ => none

/-- The event whose number was checked. -/
def checked : Worker → Option OwnedEvent
  | .call e | .calling e => some e
  | _ => none

/-- The read index that was loaded. -/
def index : Worker → Option Nat
  | .loadWrite r | .checkSlot r | .moveSlot r | .resetSlot _ r | .storeRead _ r => some r
  | _ => none

def nonempty : Worker → Bool
  | .checkSlot _ | .moveSlot _ => true
  | _ => false

/-- Between two events. -/
def looping : Worker → Bool
  | .entry | .entryHook | .loadFlags | .loadRead | .loadWrite _ | .loadStopping | .lock
  | .canRunFlags | .canRunStopping | .canRunRead | .canRunWrite _ | .wait | .unlock _ | .relock
  | .checkSlot _ | .moveSlot _ => true
  | _ => false

/-- Between the load of the flags and the call of the consumer. -/
def fresh : Worker → Bool
  | .loadRead | .loadWrite _ | .checkSlot _ | .moveSlot _ | .resetSlot .. | .storeRead ..
  | .checkSequence _ | .call _ => true
  | _ => false

end Worker

/-- What holds of the worker between any two steps. -/
structure WorkerOk (sh : Shared) (w : WorkerState) : Prop where
  locked : w.pc.locked = true → Locked .worker sh
  mark : ∀ m b, w.pc = .mark m b → MarkOk .worker sh m
  moved : sh.moved = sh.readIndex + w.pc.moving
  processed : w.pc.stopped = false → sh.processed + w.pc.delivering = sh.readIndex
  consumed : w.pc.stopped = false → sh.consumed.length = sh.processed + w.pc.delivered
  expected : w.pc.stopped = false → w.expectedSequence = sh.processed + 1
  event : ∀ e ∈ w.pc.event, sh.published[sh.processed]? = some e
  checked : ∀ e ∈ w.pc.checked, e.sequence = w.expectedSequence
  index : ∀ r ∈ w.pc.index, r = sh.readIndex
  nonempty : w.pc.nonempty = true → sh.readIndex < sh.writeIndex
  seen : w.pc = .loadStopping → sh.lastSeen = sh.readIndex
  drained : w.pc.finished = true → sh.degraded = false → sh.processed = sh.lastSeen
  ended : sh.workerEnded = true → w.pc = .ended
  calls : sh.callsAfterDegraded ≤ 1
  calls_fresh : w.pc.fresh = true → sh.callsAfterDegraded = 0
  calls_degraded : sh.callsAfterDegraded ≠ 0 → sh.degraded = true
  sequences : sh.consumed.map (·.sequence) = List.range' 1 sh.consumed.length
  consumed_published : sh.consumed <+: sh.published

theorem WorkerOk.rely {w : WorkerState} (h : WorkerOk sh w) (hRely : RelyWorker sh sh') :
    WorkerOk sh' w where
  locked hl := (h.locked hl).rely hRely.locked
  mark m b hm := (h.mark m b hm).rely hRely.locked hRely.degraded
  moved := by rw [hRely.moved, hRely.read, h.moved]
  processed hs := by rw [hRely.processed, hRely.read, h.processed hs]
  consumed hs := by rw [hRely.processed, hRely.consumed, h.consumed hs]
  expected hs := by rw [hRely.processed, h.expected hs]
  event e he := by
    obtain ⟨hLt, _⟩ := List.getElem?_eq_some_iff.mp (h.event e he)
    obtain ⟨rest, hEq⟩ := hRely.published
    rw [hRely.processed, ← hEq, getElem?_append_left hLt, h.event e he]
  checked := h.checked
  index r hr := by rw [hRely.read, h.index r hr]
  nonempty hn := by
    rw [hRely.read]
    exact Nat.lt_of_lt_of_le (h.nonempty hn) hRely.written
  seen hs := by rw [hRely.seen, hRely.read, h.seen hs]
  drained hf hd := by
    rw [hRely.processed, hRely.seen]
    refine h.drained hf ?_
    by_contra hDegraded
    rw [hRely.degraded (by simpa using hDegraded)] at hd
    cases hd
  ended he := h.ended (by rwa [hRely.ended] at he)
  calls := by rw [hRely.calls]; exact h.calls
  calls_fresh hf := by rw [hRely.calls, h.calls_fresh hf]
  calls_degraded hc := hRely.degraded (h.calls_degraded (by rwa [hRely.calls] at hc))
  sequences := by rw [hRely.consumed, h.sequences]
  consumed_published := by
    rw [hRely.consumed]
    exact h.consumed_published.trans hRely.published

/-! ## What a step of the worker does to the shared state -/

namespace SharedOk

variable (h : SharedOk capacity sh)
include h

/-- What no other party relies on. -/
theorem guar_own {ready done ended : Bool} {processed last seen calls : Nat}
    {consumed : List OwnedEvent} (hEnded : sh.workerEnded = true → ended = true) :
    Guar capacity .worker sh { sh with
      workerReady := ready, workerDone := done, workerEnded := ended, processed := processed
      lastProcessedSequence := last, lastSeen := seen, callsAfterDegraded := calls
      consumed := consumed } :=
  ⟨{ h with }, fun _ _ => ⟨{ RelyLocked.refl with }, id, fun _ => rfl, le_rfl,
    fun _ _ => rfl, id, hEnded⟩, fun hne => absurd rfl hne, ⟨id, fun hs => ⟨hs, rfl⟩⟩⟩

/-- The slot at the read index is not one that a thread writes. -/
theorem guar_readSlot (hLt : sh.readIndex < sh.writeIndex)
    (hOld : sh.moved ≤ sh.readIndex + 1) {moved : Nat} (hMoved : moved = sh.readIndex + 1)
    (x : Option OwnedEvent) :
    Guar capacity .worker sh
      { sh with slots := sh.slots.set (sh.readIndex % capacity) x, moved := moved } := by
  have hRoom := h.room
  refine ⟨{ h with
      length := by rw [length_set, h.length]
      read_le := by
        change sh.readIndex ≤ moved
        omega
      moved_le := by
        change moved ≤ sh.writeIndex
        omega
      unread := fun k hk hlt => ?_ }, fun t _ => ?_, fun hne => absurd rfl hne,
    ⟨id, fun hs => ⟨hs, rfl⟩⟩⟩
  · have hk' : moved ≤ k := hk
    have hlt' : k < sh.writeIndex := hlt
    have hNe : sh.readIndex % capacity ≠ k % capacity :=
      slot_ne le_rfl (by omega) (by omega) (by omega) (by omega)
    rw [getElem?_set_ne hNe]
    exact h.unread k (by omega) hlt'
  · refine ⟨{ RelyLocked.refl with }, id, fun _ => rfl, le_rfl, fun _ hFree => ?_, id, id⟩
    exact getElem?_set_ne (slot_ne le_rfl (by omega) hLt.le hFree hLt.ne)

theorem guar_storeRead (hMoved : sh.moved = sh.readIndex + 1) :
    Guar capacity .worker sh { sh with readIndex := sh.readIndex + 1 } := by
  refine ⟨{ h with
      read_le := hMoved.ge
      room := Nat.le_trans h.room (by
        change sh.readIndex + capacity ≤ sh.readIndex + 1 + capacity
        omega) }, fun t _ => ?_, fun hne => absurd rfl hne, ⟨id, fun hs => ⟨hs, rfl⟩⟩⟩
  exact ⟨{ RelyLocked.refl with }, id, fun _ => rfl, Nat.le_succ _, fun _ _ => rfl, id, id⟩

end SharedOk

/-! ## Steps of the worker -/

variable {n : Nat} {pc pc' : Worker}

/-- From one place of the loop to another. -/
theorem WorkerOk.loop (h : WorkerOk sh ⟨pc, n⟩) {mutex : Option Holder} {seen : Nat} {ready : Bool}
    (hLoop : pc.looping = true) (hLoop' : pc'.looping = true)
    (hLocked : pc'.locked = true →
      Locked .worker { sh with mutex := mutex, lastSeen := seen, workerReady := ready })
    (hIndex : ∀ r ∈ pc'.index, r = sh.readIndex)
    (hNonempty : pc'.nonempty = true → sh.readIndex < sh.writeIndex)
    (hSeen : pc' = .loadStopping → seen = sh.readIndex)
    (hFresh : pc'.fresh = true → sh.callsAfterDegraded = 0) :
    WorkerOk { sh with mutex := mutex, lastSeen := seen, workerReady := ready } ⟨pc', n⟩ := by
  have hFacts : ∀ p : Worker, p.looping = true → p.stopped = false ∧ p.finished = false ∧
      p.moving = 0 ∧ p.delivering = 0 ∧ p.delivered = 0 ∧ p.event = none ∧ p.checked = none := by
    intro p hp
    cases p <;> first | exact ⟨rfl, rfl, rfl, rfl, rfl, rfl, rfl⟩ | cases hp
  obtain ⟨hStopped, _, hMoving, hDelivering, hDelivered, _, _⟩ := hFacts pc hLoop
  obtain ⟨_, hFinished', hMoving', hDelivering', hDelivered', hEvent', hChecked'⟩ := hFacts pc' hLoop'
  have hMoved := h.moved
  have hProcessed := h.processed hStopped
  have hConsumed := h.consumed hStopped
  simp only [hMoving, hDelivering, hDelivered] at hMoved hProcessed hConsumed
  exact { h with
    locked := hLocked
    mark := by
      rintro m b rfl
      cases hLoop'
    moved := by simp only [hMoving']; exact hMoved
    processed := fun _ => by simp only [hDelivering']; exact hProcessed
    consumed := fun _ => by simp only [hDelivered']; exact hConsumed
    expected := fun _ => h.expected hStopped
    event := by simp [hEvent']
    checked := by simp [hChecked']
    index := hIndex
    nonempty := hNonempty
    seen := hSeen
    drained := by simp [hFinished']
    ended := fun he => by
      have hEq := h.ended he
      simp only at hEq
      rw [hEq] at hLoop
      cases hLoop
    calls_fresh := hFresh }

/-- Out of the loop, to mark a failure. -/
theorem WorkerOk.fail {pc : Worker} {n n' : Nat} (h : WorkerOk sh ⟨pc, n⟩)
    (hMoving : pc.moving = 0) (hEnded : pc ≠ .ended) (exiting : Bool) :
    WorkerOk sh ⟨.mark .lock exiting, n'⟩ :=
  { h with
    locked := nofun
    mark := by
      rintro m b ⟨⟩
      exact .start
    moved := by rw [h.moved]; exact congrArg _ hMoving
    processed := nofun
    consumed := nofun
    expected := nofun
    event := nofun
    checked := nofun
    index := nofun
    nonempty := nofun
    seen := nofun
    drained := nofun
    ended := fun he => absurd (h.ended he) hEnded
    calls_fresh := nofun }

/-- Out of the loop, or one step further out of it. -/
theorem WorkerOk.finish (h : WorkerOk sh ⟨pc, n⟩) (hMoving : pc.moving = 0) {done ended : Bool}
    (hFinished : pc'.finished = true) (hDone : ended = true → pc' = .ended)
    (hDrained : sh.degraded = false → sh.processed = sh.lastSeen) :
    WorkerOk { sh with workerDone := done, workerEnded := ended } ⟨pc', n⟩ := by
  have hFacts : pc'.stopped = true ∧ pc'.locked = false ∧ pc'.moving = 0 ∧ pc'.event = none ∧
      pc'.checked = none ∧ pc'.index = none ∧ pc'.nonempty = false ∧ pc'.fresh = false := by
    cases pc' <;> first | exact ⟨rfl, rfl, rfl, rfl, rfl, rfl, rfl, rfl⟩ | cases hFinished
  obtain ⟨hStopped, hLocked, hMoving', hEvent, hChecked, hIndex, hNonempty, hFresh⟩ := hFacts
  exact { h with
    locked := by simp [hLocked]
    mark := by
      rintro m b rfl
      cases hFinished
    moved := by
      rw [h.moved]
      exact congrArg _ (hMoving.trans hMoving'.symm)
    processed := by simp [hStopped]
    consumed := by simp [hStopped]
    expected := by simp [hStopped]
    event := by simp [hEvent]
    checked := by simp [hChecked]
    index := by simp [hIndex]
    nonempty := by simp [hNonempty]
    seen := by
      rintro rfl
      cases hFinished
    drained := fun _ => hDrained
    ended := hDone
    calls_fresh := by simp [hFresh] }

/-- The parts of a worker's step that changes nothing shared. -/
theorem WorkerOk.loop_read (h : WorkerOk sh ⟨pc, n⟩) (hLoop : pc.looping = true)
    (hLoop' : pc'.looping = true) (hLocked : pc'.locked = true → pc.locked = true)
    (hIndex : ∀ r ∈ pc'.index, r = sh.readIndex)
    (hNonempty : pc'.nonempty = true → sh.readIndex < sh.writeIndex)
    (hSeen : pc' = .loadStopping → sh.lastSeen = sh.readIndex)
    (hFresh : pc'.fresh = true → sh.callsAfterDegraded = 0) : WorkerOk sh ⟨pc', n⟩ :=
  h.loop hLoop hLoop' (fun hl => h.locked (hLocked hl)) hIndex hNonempty hSeen hFresh

/-- A step that only reads, and goes one of two ways. -/
theorem SharedOk.branch (h : SharedOk capacity sh) {c : Prop} [Decidable c] {yes no : Worker}
    (hYes : c → WorkerOk sh ⟨yes, n⟩) (hNo : ¬ c → WorkerOk sh ⟨no, n⟩) :
    Guar capacity .worker sh sh ∧ WorkerOk sh ⟨if c then yes else no, n⟩ := by
  refine ⟨h.guar_refl, ?_⟩
  split
  · next hc => exact hYes hc
  · next hc => exact hNo hc

theorem Worker.step_ok (h : SharedOk capacity sh) {pc : Worker} (hOk : WorkerOk sh ⟨pc, n⟩)
    {o : Outcome} {r : Shared × WorkerState} (hStep : pc.step capacity sh n o = some r) :
    Guar capacity .worker sh r.1 ∧ WorkerOk r.1 r.2 := by
  cases pc with
  | entry =>
    simp only [Worker.step] at hStep
    split at hStep
    · cases hStep
      exact ⟨h.guar_refl, hOk.fail rfl nofun false⟩
    · cases hStep
      exact ⟨h.guar_own id, hOk.loop rfl rfl nofun nofun nofun nofun nofun⟩
  | entryHook =>
    cases hStep
    exact h.branch (fun _ => hOk.fail rfl nofun false)
      fun _ => hOk.loop_read rfl rfl nofun nofun nofun nofun nofun
  | loadFlags =>
    cases hStep
    refine h.branch (fun hDegraded => ?_) fun hDegraded => ?_
    · refine hOk.finish rfl rfl (fun he => (nomatch hOk.ended he)) fun hd => ?_
      rw [hd] at hDegraded
      cases hDegraded
    · -- no call was made in a degraded envelope, since it is not degraded
      refine hOk.loop_read rfl rfl nofun nofun nofun nofun fun _ => ?_
      by_contra hCalls
      exact hDegraded (hOk.calls_degraded hCalls)
  | loadRead =>
    cases hStep
    refine ⟨h.guar_refl, hOk.loop_read rfl rfl nofun ?_ nofun nofun hOk.calls_fresh⟩
    rintro _ ⟨⟩
    rfl
  | loadWrite r =>
    cases hStep
    have hIndex := hOk.index r rfl
    refine ⟨h.guar_own id, ?_⟩
    dsimp only
    split
    · next hEmpty =>
      exact hOk.loop rfl rfl nofun nofun nofun (fun _ => hEmpty.symm.trans hIndex) nofun
    · next hSome =>
      refine hOk.loop rfl rfl nofun hOk.index (fun _ => ?_) nofun fun _ => hOk.calls_fresh rfl
      have hLe := Nat.le_trans h.read_le h.moved_le
      omega
  | loadStopping =>
    cases hStep
    refine h.branch (fun _ => ?_) fun _ => ?_
    · refine hOk.finish rfl rfl (fun he => (nomatch hOk.ended he)) fun _ => ?_
      have hProcessed : sh.processed = sh.readIndex := hOk.processed rfl
      rw [hProcessed, hOk.seen rfl]
    · exact hOk.loop_read rfl rfl nofun nofun nofun nofun nofun
  | lock =>
    simp only [Worker.step] at hStep
    split at hStep
    · cases hStep
      exact ⟨h.guar_refl, hOk.fail rfl nofun false⟩
    · split at hStep
      · next hFree =>
        cases hStep
        obtain ⟨hGuar, hLocked⟩ := h.guar_lock .worker hFree
        exact ⟨hGuar, hOk.loop rfl rfl (fun _ => hLocked) nofun nofun nofun nofun⟩
      · cases hStep
  | canRunFlags | canRunStopping | canRunWrite r =>
    cases hStep
    refine h.branch (fun _ => ?_) fun _ => ?_ <;>
      exact hOk.loop_read rfl rfl id nofun nofun nofun nofun
  | canRunRead =>
    cases hStep
    exact ⟨h.guar_refl, hOk.loop_read rfl rfl id nofun nofun nofun nofun⟩
  | wait =>
    simp only [Worker.step] at hStep
    split at hStep
    · cases hStep
      exact ⟨h.guar_refl, hOk.loop_read rfl rfl id nofun nofun nofun nofun⟩
    · cases hStep
      exact ⟨h.guar_unlock (hOk.locked rfl), hOk.loop rfl rfl nofun nofun nofun nofun nofun⟩
  | unlock throwing =>
    cases hStep
    have hLoop : WorkerOk { sh with mutex := none } ⟨.loadFlags, n⟩ :=
      hOk.loop rfl rfl nofun nofun nofun nofun nofun
    refine ⟨h.guar_unlock (hOk.locked rfl), ?_⟩
    dsimp only
    split
    · exact hLoop.fail rfl nofun false
    · exact hLoop
  | relock =>
    simp only [Worker.step] at hStep
    split at hStep
    · next hFree =>
      cases hStep
      obtain ⟨hGuar, hLocked⟩ := h.guar_lock .worker hFree
      exact ⟨hGuar, hOk.loop rfl rfl (fun _ => hLocked) nofun nofun nofun nofun⟩
    · cases hStep
  | checkSlot r =>
    cases hStep
    exact h.branch (fun _ => hOk.loop_read rfl rfl nofun hOk.index hOk.nonempty nofun
      hOk.calls_fresh) fun _ => hOk.fail rfl nofun false
  | moveSlot r =>
    obtain ⟨e, hSlot, rfl⟩ := map_eq_some_iff.mp hStep
    have hIndex := hOk.index r rfl
    subst hIndex
    have hLt := hOk.nonempty rfl
    have hMoved : sh.moved = sh.readIndex := hOk.moved
    have hProcessed : sh.processed = sh.readIndex := hOk.processed rfl
    -- the slot holds the event that was published at this index
    have hEvent : sh.published[sh.processed]? = some e := by
      rw [h.unread _ hMoved.le hLt, join_some] at hSlot
      rw [hProcessed, hSlot]
    refine ⟨h.guar_readSlot hLt (by omega) (by omega) _, { hOk with
      locked := nofun
      mark := nofun
      moved := ?_
      event := ?_
      index := ?_
      nonempty := nofun
      seen := nofun
      drained := nofun
      ended := fun he => (nomatch hOk.ended he) }⟩
    · exact congrArg (· + 1) hMoved
    · rintro _ ⟨⟩
      exact hEvent
    · rintro _ ⟨⟩
      rfl
  | resetSlot e r =>
    cases hStep
    have hIndex := hOk.index r rfl
    subst hIndex
    have hMoved : sh.moved = sh.readIndex + 1 := hOk.moved
    have hLt : sh.readIndex < sh.writeIndex := by
      have := h.moved_le
      omega
    exact ⟨h.guar_readSlot hLt hMoved.le hMoved none, { hOk with
      locked := nofun
      mark := nofun
      seen := nofun
      drained := nofun
      ended := fun he => (nomatch hOk.ended he) }⟩
  | storeRead e r =>
    cases hStep
    have hIndex := hOk.index r rfl
    subst hIndex
    have hProcessed : sh.processed = sh.readIndex := hOk.processed rfl
    exact ⟨h.guar_storeRead hOk.moved, { hOk with
      locked := nofun
      mark := nofun
      processed := fun _ => congrArg (· + 1) hProcessed
      index := nofun
      nonempty := nofun
      seen := nofun
      drained := nofun
      ended := fun he => (nomatch hOk.ended he) }⟩
  | checkSequence e =>
    cases hStep
    refine h.branch (fun hSequence => ?_) fun _ => hOk.fail rfl nofun false
    refine { hOk with
      locked := nofun
      mark := nofun
      checked := ?_
      seen := nofun
      drained := nofun
      ended := fun he => (nomatch hOk.ended he) }
    rintro _ ⟨⟩
    exact hSequence
  | call e =>
    cases hStep
    have hFresh : sh.callsAfterDegraded = 0 := hOk.calls_fresh rfl
    refine ⟨h.guar_own id, { hOk with
      locked := nofun
      mark := nofun
      seen := nofun
      drained := nofun
      ended := fun he => (nomatch hOk.ended he)
      calls := ?_
      calls_fresh := nofun
      calls_degraded := ?_ }⟩
    · dsimp only
      split <;> omega
    · dsimp only
      split
      · next hDegraded => exact fun _ => hDegraded
      · exact fun hc => absurd hFresh hc
  | calling e =>
    simp only [Worker.step] at hStep
    split at hStep
    · cases hStep
      have hConsumed : sh.consumed.length = sh.processed := hOk.consumed rfl
      have hExpected : n = sh.processed + 1 := hOk.expected rfl
      have hEvent := hOk.event e rfl
      have hSequence : e.sequence = n := hOk.checked e rfl
      refine ⟨h.guar_own id, { hOk with
        locked := nofun
        mark := nofun
        consumed := ?_
        event := nofun
        checked := nofun
        seen := nofun
        drained := nofun
        ended := fun he => (nomatch hOk.ended he)
        sequences := ?_
        consumed_published := ?_ }⟩
      · intro _
        change (sh.consumed ++ [e]).length = sh.processed + 1
        rw [length_append, length_singleton, hConsumed]
      · change (sh.consumed ++ [e]).map (·.sequence) = List.range' 1 (sh.consumed ++ [e]).length
        rw [map_append, hOk.sequences, length_append, length_singleton,
          range'_concat, map_singleton, hSequence, hExpected, hConsumed]
        simp [Nat.add_comm]
      · -- the next published event is the one that was accepted
        change sh.consumed ++ [e] <+: sh.published
        obtain ⟨rest, hEq⟩ := hOk.consumed_published
        rw [← hEq, ← hConsumed, getElem?_append_right le_rfl, Nat.sub_self] at hEvent
        cases rest with
        | nil => cases hEvent
        | cons x rest =>
          cases hEvent
          exact ⟨rest, by rw [← hEq, append_assoc, singleton_append]⟩
    · cases hStep
      exact ⟨h.guar_refl, hOk.fail rfl nofun false⟩
  | storeProcessed e =>
    cases hStep
    exact ⟨h.guar_own id, { hOk with
      locked := nofun
      mark := nofun
      seen := nofun
      drained := nofun
      ended := fun he => (nomatch hOk.ended he) }⟩
  | countProcessed =>
    cases hStep
    have hNext : ∀ pc : Worker, pc = .loadFlags →
        WorkerOk { sh with processed := sh.processed + 1 } ⟨pc, n + 1⟩ := by
      rintro _ rfl
      exact { hOk with
        locked := nofun
        mark := nofun
        expected := fun _ => congrArg (· + 1) (hOk.expected rfl)
        event := nofun
        checked := nofun
        seen := nofun
        drained := nofun
        ended := fun he => (nomatch hOk.ended he) }
    refine ⟨h.guar_own id, ?_⟩
    dsimp only
    split
    · exact (hNext _ rfl).fail rfl nofun false
    · exact hNext _ rfl
  | mark m exiting =>
    obtain ⟨r', hStep', rfl⟩ := map_eq_some_iff.mp hStep
    obtain ⟨hGuar, hNext, hMarked, hSame⟩ := Mark.step_ok h (hOk.mark m exiting rfl) hStep'
    refine ⟨hGuar, ?_⟩
    -- marking changes nothing that the worker keeps account of
    have hFail : WorkerOk r'.1 ⟨.mark .lock exiting, n⟩ := by
      have hKept : WorkerOk sh ⟨.mark .lock exiting, n⟩ := hOk.fail rfl nofun exiting
      rw [hSame]
      exact { hKept with
        locked := nofun
        mark := by
          rintro m b ⟨⟩
          exact .start
        drained := nofun
        calls_degraded := fun hc => hGuar.keeps.degraded (hKept.calls_degraded hc) }
    cases hr : r'.2 with
    | some m' =>
      refine { hFail with mark := ?_, ended := fun he => (nomatch hFail.ended he), seen := nofun }
      rintro _ _ ⟨⟩
      exact hNext m' hr
    | none =>
      have hDegraded := hMarked hr
      have hDrained : r'.1.degraded = false → r'.1.processed = r'.1.lastSeen := fun hd => by
        rw [hDegraded] at hd
        cases hd
      cases exiting with
      | false | true => exact hFail.finish rfl rfl (fun he => (nomatch hFail.ended he)) hDrained
  | storeDone =>
    cases hStep
    exact ⟨h.guar_own id, hOk.finish rfl rfl (fun he => (nomatch hOk.ended he)) (hOk.drained rfl)⟩
  | exitHook =>
    cases hStep
    exact h.branch (fun _ => hOk.fail rfl nofun true) fun _ =>
      hOk.finish rfl rfl (fun he => (nomatch hOk.ended he)) (hOk.drained rfl)
  | ending =>
    cases hStep
    exact ⟨h.guar_own fun _ => rfl, hOk.finish rfl rfl (fun _ => rfl) (hOk.drained rfl)⟩
  | ended => cases hStep

end Ergon.Envelope
