import Ergon.Archival.Replay

/-!
# Ergon — what the journal replay publishes

A failure ends a run's admissions because a gate that failed or closed stays so,
and every path from a failed step goes through `Fail` or closes the gate before
the mutex is released. That the published index is the node's rests on the
counters: the mempool's revision is advanced by every change and never comes
back, so an equal one at the second check means the mempool that was compared.

* `replay_run` — the order of events, what an opened gate vouches for, and that
  nothing opens it after a failure, over every run.
-/

namespace Ergon.Replay

open Lib Archival Option

/-! ## Counters -/

theorem advance_cases (value count : Nat) :
    advance value count = 0 ∨ value ≠ 0 ∧ advance value count = value + count := by
  unfold advance
  split
  · exact .inl rfl
  · next h => exact .inr ⟨fun h0 => h (.inl h0), rfl⟩

/-- The mempool of a capture, or a later or exhausted revision. -/
def Captured.Since (c : Captured) (n : Native) : Prop :=
  n.revision = 0 ∨ c.binding.revision < n.revision ∨
    (n.revision = c.binding.revision ∧ n.pool.toList = c.pool)

variable {c : Captured}

/-- A change that is counted leaves the captured revision for good. -/
theorem Captured.Since.advance {n n' : Native} (h : c.Since n)
    (hNext : n'.revision = Replay.advance n.revision 1) : c.Since n' := by
  rcases advance_cases n.revision 1 with hZero | ⟨hPos, hNew⟩
  · exact .inl (hNext.trans hZero)
  · refine .inr (.inl ?_)
    rw [hNext, hNew]
    rcases h with h0 | hLater | ⟨hEq, -⟩
    · exact absurd h0 hPos
    · omega
    · omega

theorem Captured.Since.apply {n : Native} (h : c.Since n) (op : NativeOp) :
    c.Since (n.apply op) := by
  cases op with
  | setTip tip => exact h
  | addUnchecked txid time => exact h.advance rfl
  | removeUnchecked txid => exact h.advance rfl
  | clear => exact h.advance rfl
  | prioritiseTransaction txid =>
    by_cases hMem : txid ∈ n.pool
    · exact h.advance (by simp [Native.apply, hMem])
    · simpa [Captured.Since, Native.apply, hMem] using h
  | addTransactionsUpdated count =>
    -- the count may be zero: then neither the revision nor the mempool changes
    rcases advance_cases n.revision count with hZero | ⟨hPos, hNew⟩
    · exact .inl hZero
    · rcases h with h0 | hLater | ⟨hEq, hPool⟩
      · exact absurd h0 hPos
      · refine .inr (.inl ?_)
        show c.binding.revision < Replay.advance n.revision count
        omega
      · rcases Nat.eq_zero_or_pos count with rfl | hCount
        · exact .inr (.inr ⟨hNew.trans hEq, hPool⟩)
        · refine .inr (.inl ?_)
          show c.binding.revision < Replay.advance n.revision count
          omega

/-! ## The index against the capture -/

variable {Index Env Stored Indexed : Type} {b : Backend Index Env Stored Indexed}

/-- The index has the tip and the mempool that were captured. -/
structure Matches (b : Backend Index Env Stored Indexed) (index : Index) (c : Captured) : Prop where
  tip : ∃ env, b.blockchainInfo index env = some c.binding.tip
  pool : ∀ pool : Column TxId Int, pool.toList = c.pool →
    ∀ id : TxId, ((b.txs index)[id]?).map MempoolTx.timeFirstSeen = pool[id]?

/-- The comparison of `prepare_journal_publication` decides `Matches`. -/
theorem matches_of_preparable {p : Probe Index} {env : Env} (h : preparable b p env c = true) :
    c.sequence = p.journalSequence ∧ Matches b p.index c := by
  simp only [preparable, Bool.and_eq_true, beq_iff_eq, decide_eq_true_eq] at h
  obtain ⟨⟨⟨⟨⟨-, hSequence⟩, -⟩, hTip⟩, -⟩, hPool⟩ := h
  refine ⟨hSequence, ⟨env, hTip⟩, ?_⟩
  intro pool hList id
  have hSame : (b.txs p.index).map (fun _ row => row.timeFirstSeen) = pool := by
    apply Std.ExtTreeMap.toList_inj.mp
    rw [Std.ExtTreeMap.toList_map, hPool, ← hList, Column.ofList_toList]
  rw [← hSame, Std.ExtTreeMap.getElem?_map]

/-! ## Invariant -/

/-- The call is about to fail or close the gate. -/
def Pc.failing : Pc Stored → Bool
  | .fail | .cancel => true
  | _ => false

/-- What the holder of the mutex knows. -/
def PcOk (b : Backend Index Env Stored Indexed) (s : State Index Stored) : Pc Stored → Prop
  | .run _ e _ => e.sequence = s.probe.journalSequence + 1
  | .prepare c => c.binding.revision ≠ 0 ∧ c.Since s.native
  | .recheck c => c.binding.revision ≠ 0 ∧ c.Since s.native ∧
      c.sequence = s.probe.journalSequence ∧ Matches b s.probe.index c
  | .publishCapture c => s.fence = true ∧ s.journal.accepted = c.sequence ∧
      s.native.tip = some c.binding.tip ∧ s.native.pool.toList = c.pool ∧
      c.sequence = s.probe.journalSequence ∧ Matches b s.probe.index c
  | _ => True

structure Inv (b : Backend Index Env Stored Indexed) (s : State Index Stored) : Prop where
  applied : s.applied.map (·.sequence) = List.range' 1 s.probe.journalSequence
  pc : ∀ pc ∈ s.busy, PcOk b s pc
  threw : s.threw = true → s.gate.Terminal ∨ ∃ pc ∈ s.busy, pc.failing = true

/-- What an opened gate vouches for. -/
structure Published (b : Backend Index Env Stored Indexed) (s : State Index Stored) : Prop where
  applied : s.applied.map (·.sequence) = List.range' 1 s.journal.accepted
  tip : ∃ env, b.blockchainInfo s.probe.index env = s.native.tip
  pool : ∀ id : TxId, ((b.txs s.probe.index)[id]?).map MempoolTx.timeFirstSeen = s.native.pool[id]?

/-- What is shown of each step. -/
structure StepOk (b : Backend Index Env Stored Indexed) (s t : State Index Stored) : Prop where
  inv : Inv b t
  terminal : s.gate.Terminal → t.gate.Terminal
  opened : s.gate.mode ≠ .ready → t.gate.mode = .ready → Published b t

variable {s t : State Index Stored}

/-- A step that applies nothing and does not publish. -/
theorem StepOk.of_keeps (h : Inv b s) (hGate : Gate.Keeps s.gate t.gate)
    (hApplied : t.applied = s.applied)
    (hSequence : t.probe.journalSequence = s.probe.journalSequence)
    (hPc : ∀ pc ∈ t.busy, PcOk b t pc)
    (hThrew : t.threw = true → t.gate.Terminal ∨ ∃ pc ∈ t.busy, pc.failing = true) :
    StepOk b s t where
  inv := ⟨by rw [hApplied, hSequence]; exact h.applied, hPc, hThrew⟩
  terminal := hGate.terminal
  opened hNot hReady := absurd (hGate.ready hReady) hNot

/-! ## The holder of the mutex -/

/-- A holder that is not failing has thrown nothing, or the gate is shut. -/
theorem Inv.terminal_of_threw (h : Inv b s) {pc : Pc Stored} (hBusy : s.busy = some pc)
    (hNot : pc.failing = false) (hThrew : s.threw = true) : s.gate.Terminal := by
  rcases h.threw hThrew with hTerm | ⟨pc', hMem, hFailing⟩
  · exact hTerm
  · rw [hBusy] at hMem
    cases hMem
    rw [hNot] at hFailing
    cases hFailing

theorem stepOk_throws (h : Inv b s) : StepOk b s s.throws :=
  .of_keeps h (.refl _) rfl rfl (fun _ hpc => by cases hpc; trivial)
    fun _ => .inr ⟨.fail, rfl, rfl⟩

theorem stepOk_cancels (h : Inv b s) : StepOk b s s.cancels :=
  .of_keeps h (.refl _) rfl rfl (fun _ hpc => by cases hpc; trivial)
    fun _ => .inr ⟨.cancel, rfl, rfl⟩

theorem stepOk_healthy (h : Inv b s) (i : Input Env) (hNext : StepOk b s t) :
    StepOk b s (s.healthy i t) := by
  unfold State.healthy
  split
  · exact stepOk_throws h
  · split
    · exact stepOk_cancels h
    · exact hNext

theorem stepOk_guarded (h : Inv b s) (i : Input Env)
    (hNext : s.native.revision ≠ 0 → StepOk b s t) : StepOk b s (s.guarded i t) := by
  unfold State.guarded
  split
  · exact stepOk_throws h
  · next hGuard => exact hNext fun h0 => hGuard (.inr (.inr (.inr (.inr (.inl h0)))))

section

variable {pc : Pc Stored} (h : Inv b s) (hBusy : s.busy = some pc) (hNot : pc.failing = false)

include h hBusy hNot

theorem stepOk_goto {pc' : Pc Stored} (hPc : PcOk b (s.goto pc') pc') : StepOk b s (s.goto pc') :=
  .of_keeps h (.refl _) rfl rfl (fun _ hpc => by cases hpc; exact hPc)
    fun hThrew => .inl (h.terminal_of_threw hBusy hNot hThrew)

theorem stepOk_done : StepOk b s s.done :=
  .of_keeps h (.refl _) rfl rfl (fun _ hpc => nomatch hpc)
    fun hThrew => .inl (h.terminal_of_threw hBusy hNot hThrew)

theorem stepOk_takeEvent (target : Nat) : StepOk b s (takeEvent s target) := by
  unfold takeEvent
  split
  · exact .of_keeps h (.refl _) rfl rfl (fun _ hpc => by cases hpc; trivial)
      fun _ => .inr ⟨.fail, rfl, rfl⟩
  · exact .of_keeps h (.refl _) rfl rfl (fun _ hpc => by cases hpc; trivial)
      fun hThrew => .inl (h.terminal_of_threw hBusy hNot hThrew)

theorem stepOk_applyStart (target : Nat) (e : Journal.Event) :
    StepOk b s (applyStart s target e) := by
  unfold applyStart
  split
  · exact stepOk_throws h
  · split
    · exact stepOk_goto h hBusy hNot trivial
    · split
      · exact stepOk_throws h
      · split
        · exact stepOk_throws h
        · exact stepOk_goto h hBusy hNot trivial

theorem stepOk_loadStored (i : Input Env) (target : Nat) (e : Journal.Event)
    (index : Journal.BlockMeta) : StepOk b s (loadStored b s i target e index) := by
  unfold loadStored
  split
  · exact stepOk_throws h
  · exact stepOk_goto h hBusy hNot trivial

theorem stepOk_journalGuard (i : Input Env) (target : Nat) (e : Journal.Event)
    (stored : Option Stored) : StepOk b s (journalGuard s i target e stored) := by
  unfold journalGuard
  split
  · exact stepOk_throws h
  · next hGuard =>
    have hNext : s.probe.journalSequence + 1 = e.sequence := by
      by_contra hNe
      exact hGuard (.inr (.inr (.inr (.inr hNe))))
    exact .of_keeps h (Gate.keeps_begin _) rfl rfl
      (fun _ hpc => by cases hpc; exact hNext.symm)
      fun hThrew => .inl ((Gate.keeps_begin _).terminal (h.terminal_of_threw hBusy hNot hThrew))

theorem stepOk_captureSource (sequence : Nat) (hRevision : s.native.revision ≠ 0) :
    StepOk b s (captureSource s sequence) := by
  unfold captureSource
  split
  · exact stepOk_throws h
  · split
    · exact stepOk_done h hBusy hNot
    · exact stepOk_goto h hBusy hNot ⟨hRevision, .inr (.inr ⟨rfl, rfl⟩)⟩

end

/-- The event has the next number, and only a success counts it. -/
theorem stepOk_runEvent (h : Inv b s) {target : Nat} {e : Journal.Event} {stored : Option Stored}
    (hBusy : s.busy = some (.run target e stored)) (i : Input Env) :
    StepOk b s (runEvent b s i target e stored) := by
  have hNext : e.sequence = s.probe.journalSequence + 1 := h.pc _ hBusy
  have hTerm := h.terminal_of_threw hBusy rfl
  unfold runEvent
  dsimp only
  split
  · refine ⟨⟨?_, fun _ hpc => by cases hpc; trivial, fun hThrew => .inl (hTerm hThrew)⟩, id,
      fun hNot hReady => absurd hReady hNot⟩
    show (s.applied ++ [e]).map (·.sequence) = List.range' 1 e.sequence
    rw [List.map_append, h.applied, hNext, List.range'_1_concat]
    simp [hNext, Nat.add_comm]
  · exact .of_keeps h (.refl _) rfl rfl (fun _ hpc => by cases hpc; trivial)
      fun _ => .inr ⟨.fail, rfl, rfl⟩

theorem stepOk_prepare (h : Inv b s) (hBusy : s.busy = some (.prepare c)) (i : Input Env) :
    StepOk b s (prepareJournalPublication b s i c) := by
  obtain ⟨hRevision, hSince⟩ := h.pc _ hBusy
  unfold prepareJournalPublication
  split
  · exact stepOk_throws h
  · next hGuard =>
    have hPrepared : preparable b s.probe i.env c = true := by
      by_contra hNot
      exact hGuard (.inr (.inr (by simpa using hNot)))
    obtain ⟨hSequence, hMatches⟩ := matches_of_preparable hPrepared
    exact .of_keeps h (Gate.keeps_begin _) rfl rfl
      (fun _ hpc => by cases hpc; exact ⟨hRevision, hSince, hSequence, hMatches⟩)
      fun hThrew => .inl ((Gate.keeps_begin _).terminal (h.terminal_of_threw hBusy rfl hThrew))

/-- At the captured revision the mempool is the captured one. -/
theorem stepOk_recheckSource (h : Inv b s) (hBusy : s.busy = some (.recheck c)) :
    StepOk b s (recheckSource s c) := by
  obtain ⟨hRevision, hSince, hSequence, hMatches⟩ := h.pc _ hBusy
  unfold recheckSource
  split
  · exact stepOk_done h hBusy rfl
  · next hSame =>
    simp only [ne_eq, not_or, not_not] at hSame
    obtain ⟨hAccepted, hTip, -, hEq⟩ := hSame
    have hPool : s.native.pool.toList = c.pool := by
      rcases hSince with h0 | hLater | ⟨-, hPool⟩
      · exact absurd (hEq.symm.trans h0) hRevision
      · omega
      · exact hPool
    exact .of_keeps h (.refl _) rfl rfl
      (fun _ hpc => by cases hpc; exact ⟨rfl, hAccepted, hTip, hPool, hSequence, hMatches⟩)
      fun hThrew => .inl (h.terminal_of_threw hBusy rfl hThrew)

/-- The one step that opens the gate. -/
theorem stepOk_publishCapture (h : Inv b s) (hBusy : s.busy = some (.publishCapture c)) :
    StepOk b s (publishCapture s c) := by
  obtain ⟨-, hAccepted, hTip, hPool, hSequence, hMatches⟩ := h.pc _ hBusy
  have hPublished : Published b s := by
    refine ⟨?_, ?_, hMatches.pool _ hPool⟩
    · rw [hAccepted, hSequence]
      exact h.applied
    · rw [hTip]
      exact hMatches.tip
  have hTerm := h.terminal_of_threw hBusy rfl
  -- whether the gate takes the publication or not, the index is the node's
  have hEnd : ∀ (epoch : Nat) (p : Probe Index), p.index = s.probe.index →
      p.journalSequence = s.probe.journalSequence →
      StepOk b s { s with gate := (s.gate.publish epoch c.binding).1, probe := p }.done := by
    intro epoch p hIndex hCount
    refine ⟨⟨?_, fun _ hpc => (nomatch hpc), fun hThrew => .inl ?_⟩, ?_, fun _ _ => ?_⟩
    · show s.applied.map (·.sequence) = List.range' 1 p.journalSequence
      rw [hCount]
      exact h.applied
    · exact Gate.terminal_publish (hTerm hThrew) epoch c.binding
    · exact fun hGate => Gate.terminal_publish hGate epoch c.binding
    · refine ⟨hPublished.applied, ?_, ?_⟩
      · show ∃ env, b.blockchainInfo p.index env = s.native.tip
        rw [hIndex]
        exact hPublished.tip
      · show ∀ id : TxId, ((b.txs p.index)[id]?).map MempoolTx.timeFirstSeen = s.native.pool[id]?
        rw [hIndex]
        exact hPublished.pool
  unfold publishCapture
  split
  · exact stepOk_throws h
  · split
    · exact stepOk_throws h
    · dsimp only
      split
      · exact hEnd _ _ rfl rfl
      · exact hEnd _ _ rfl rfl

/-- What waits for the journal's mutex is the step itself once it has it. -/
theorem State.quiet_eq_some {next : State Index Stored} (h : s.quiet next = some t) : t = next := by
  unfold State.quiet at h
  split at h
  · exact (Option.some.inj h).symm
  · cases h

theorem stepOk_pc (h : Inv b s) {pc : Pc Stored} (hBusy : s.busy = some pc) {i : Input Env}
    (hStep : Pc.step b s i pc = some t) : StepOk b s t := by
  cases pc with
  | drainHealthy | drainCheck target =>
    rw [State.quiet_eq_some hStep]
    exact stepOk_healthy h i (stepOk_goto h hBusy rfl trivial)
  | drainTarget =>
    rw [State.quiet_eq_some hStep]
    exact stepOk_goto h hBusy rfl trivial
  | drainLoop target =>
    cases hStep
    refine stepOk_goto h hBusy rfl ?_
    split <;> trivial
  | drainTake target =>
    rw [State.quiet_eq_some hStep]
    exact stepOk_takeEvent h hBusy rfl target
  | apply target e =>
    cases hStep
    exact stepOk_applyStart h hBusy rfl target e
  | storage target e index =>
    rw [State.quiet_eq_some hStep]
    exact stepOk_guarded h i fun _ => stepOk_goto h hBusy rfl trivial
  | load target e index =>
    cases hStep
    exact stepOk_loadStored h hBusy rfl i target e index
  | storageAgain target e stored =>
    rw [State.quiet_eq_some hStep]
    exact stepOk_guarded h i fun _ => stepOk_healthy h i (stepOk_goto h hBusy rfl trivial)
  | guard target e stored =>
    cases hStep
    exact stepOk_journalGuard h hBusy rfl i target e stored
  | run target e stored =>
    cases hStep
    exact stepOk_runEvent h hBusy i
  | drainEnd =>
    rw [State.quiet_eq_some hStep]
    exact stepOk_healthy h i (stepOk_done h hBusy rfl)
  | publishHealthy =>
    rw [State.quiet_eq_some hStep]
    exact stepOk_healthy h i (stepOk_goto h hBusy rfl trivial)
  | publishSequence =>
    cases hStep
    exact stepOk_goto h hBusy rfl trivial
  | capture sequence =>
    rw [State.quiet_eq_some hStep]
    exact stepOk_guarded h i fun hRevision =>
      stepOk_healthy h i (stepOk_captureSource h hBusy rfl sequence hRevision)
  | prepare c =>
    cases hStep
    exact stepOk_prepare h hBusy i
  | recheck c =>
    rw [State.quiet_eq_some hStep]
    exact stepOk_healthy h i (stepOk_guarded h i fun _ => stepOk_recheckSource h hBusy)
  | publishCapture c =>
    cases hStep
    exact stepOk_guarded h i fun _ => stepOk_publishCapture h hBusy
  | fail =>
    cases hStep
    have hTerm := Gate.terminal_fail s.gate
    exact .of_keeps h hTerm.keeps rfl rfl (fun _ hpc => by cases hpc; trivial) fun _ => .inl hTerm
  | failIndex =>
    cases hStep
    exact .of_keeps h (.refl _) rfl rfl (fun _ hpc => by cases hpc; trivial)
      fun hThrew => .inl (h.terminal_of_threw hBusy rfl hThrew)
  | failProbe =>
    cases hStep
    have hTerm := Gate.terminal_fail s.gate
    exact .of_keeps h hTerm.keeps rfl rfl (fun _ hpc => nomatch hpc) fun _ => .inl hTerm
  | cancel =>
    cases hStep
    have hTerm := Gate.terminal_close s.gate
    exact .of_keeps h hTerm.keeps rfl rfl (fun _ hpc => nomatch hpc) fun _ => .inl hTerm
  | stop =>
    cases hStep
    split
    · exact stepOk_done h hBusy rfl
    · split
      · exact stepOk_goto h hBusy rfl trivial
      · exact stepOk_goto h hBusy rfl trivial
  | stopDetach =>
    rw [State.quiet_eq_some hStep]
    have hKeeps : Gate.Keeps s.gate (if i.throws then s.gate.fail else s.gate) := by
      split
      · exact (Gate.terminal_fail _).keeps
      · exact .refl _
    exact .of_keeps h hKeeps rfl rfl (fun _ hpc => by cases hpc; trivial)
      fun hThrew => .inl (hKeeps.terminal (h.terminal_of_threw hBusy rfl hThrew))
  | stopClose =>
    rw [State.quiet_eq_some hStep]
    exact .of_keeps h (.refl _) rfl rfl (fun _ hpc => nomatch hpc)
      fun hThrew => .inl (h.terminal_of_threw hBusy rfl hThrew)

/-! ## The others -/

/-- A call begins. -/
theorem stepOk_begins (h : Inv b s) (hFree : s.busy.isNone = true) (stopping : Nat)
    {pc : Pc Stored} (hPc : PcOk b (s.goto pc) pc) :
    StepOk b s { s with busy := some pc, stopping := stopping } := by
  have hNone : s.busy = none := by simpa using hFree
  refine .of_keeps h (.refl _) rfl rfl ?_ fun hThrew => .inl ?_
  · intro pc' hpc
    cases hpc
    cases pc <;> exact hPc
  · rcases h.threw hThrew with hTerm | ⟨pc', hMem, -⟩
    · exact hTerm
    · rw [hNone] at hMem
      cases hMem

/-- What others do to the gate and the flags. -/
theorem stepOk_others (h : Inv b s) {g : Gate} (hKeeps : Gate.Keeps s.gate g) (stopping : Nat)
    (indexFailed : Bool) :
    StepOk b s { s with gate := g, stopping := stopping, indexFailed := indexFailed } := by
  refine .of_keeps h hKeeps rfl rfl (fun pc hpc => ?_) fun hThrew =>
    (h.threw hThrew).imp_left hKeeps.terminal
  have hOk := h.pc pc hpc
  cases pc <;> exact hOk

theorem stepOk_native (h : Inv b s) (hFence : s.fence = false) (op : NativeOp) :
    StepOk b s { s with native := s.native.apply op } := by
  refine .of_keeps h (.refl _) rfl rfl (fun pc hpc => ?_) h.threw
  have hOk := h.pc pc hpc
  cases pc with
  | prepare c => exact ⟨hOk.1, hOk.2.apply op⟩
  | recheck c => exact ⟨hOk.1, hOk.2.1.apply op, hOk.2.2⟩
  | publishCapture c =>
    -- the node's locks are held there
    have hHeld : s.fence = true := hOk.1
    rw [hFence] at hHeld
    cases hHeld
  | _ => exact hOk

/-- The journal goes on while the node's locks are free; with them held it
accepts nothing. -/
theorem stepOk_journal (h : Inv b s) {j : Journal.State}
    (hHeld : s.fence = true → j.accepted = s.journal.accepted) :
    StepOk b s { s with journal := j } := by
  refine .of_keeps h (.refl _) rfl rfl (fun pc hpc => ?_) h.threw
  have hOk := h.pc pc hpc
  cases pc with
  | publishCapture c => exact ⟨hOk.1, (hHeld hOk.1).trans hOk.2.1, hOk.2.2⟩
  | _ => exact hOk

variable {sizes : Journal.Sizes} {limits : Journal.Limits sizes}

/-- Releasing an event accepts none. -/
theorem accepted_of_release {j j' : Journal.State} {a : Journal.Action}
    (hRelease : (∃ i, a = .releaseBytes i) ∨ a = .releaseEvent)
    (hStep : Journal.step limits j a = some j') : j'.accepted = j.accepted := by
  rcases hRelease with ⟨i, rfl⟩ | rfl
  · obtain ⟨e, -, rfl⟩ := map_eq_some_iff.mp hStep
    rfl
  · simp only [Journal.step] at hStep
    split at hStep
    · cases hStep
    · cases hStep
      rfl

/-- Others take no event and do not close the journal; a producer needs the
node's locks, so the replay does not hold them. -/
theorem stepOk_journalStep (h : Inv b s) {a : Journal.Action}
    (hStep : journalStep s limits a = some t) : StepOk b s t := by
  cases a with
  | call r =>
    simp only [journalStep] at hStep
    split at hStep
    · next hFree =>
      obtain ⟨j, -, rfl⟩ := map_eq_some_iff.mp hStep
      exact stepOk_journal h fun hHeld => by simp [hFree.1] at hHeld
    · cases hStep
  | proceed allocates =>
    simp only [journalStep] at hStep
    split at hStep
    · next hFree =>
      obtain ⟨j, -, rfl⟩ := map_eq_some_iff.mp hStep
      exact stepOk_journal h fun hHeld => by simp [hFree] at hHeld
    · cases hStep
  | take => cases hStep
  | close => cases hStep
  | releaseBytes i =>
    obtain ⟨j, hj, rfl⟩ := map_eq_some_iff.mp hStep
    exact stepOk_journal h fun _ => accepted_of_release (.inl ⟨i, rfl⟩) hj
  | releaseEvent =>
    obtain ⟨j, hj, rfl⟩ := map_eq_some_iff.mp hStep
    exact stepOk_journal h fun _ => accepted_of_release (.inr rfl) hj

theorem stepOk_step (h : Inv b s) {a : Action Env} (hStep : step b s limits a = some t) :
    StepOk b s t := by
  cases a with
  | drain | publish =>
    simp only [step] at hStep
    split at hStep
    · next hFree =>
      cases hStep
      exact stepOk_begins h hFree s.stopping trivial
    · cases hStep
  | stop =>
    cases hStep
    exact stepOk_others h (Gate.terminal_close _).keeps _ _
  | stopLocked =>
    simp only [step] at hStep
    split at hStep
    · next hFree =>
      cases hStep
      exact stepOk_begins h hFree.1 _ trivial
    · cases hStep
  | step i =>
    obtain ⟨pc, hBusy, hPc⟩ := bind_eq_some_iff.mp hStep
    exact stepOk_pc h hBusy hPc
  | native op =>
    simp only [step] at hStep
    split at hStep
    · next hFence =>
      cases hStep
      exact stepOk_native h hFence op
    · cases hStep
  | journal a => exact stepOk_journalStep h hStep
  | failIndex =>
    cases hStep
    exact stepOk_others h (.refl _) _ _
  | closeGate =>
    cases hStep
    exact stepOk_others h (Gate.terminal_close _).keeps _ _
  | failGate =>
    cases hStep
    exact stepOk_others h (Gate.terminal_fail _).keeps _ _
  | invalidateGate =>
    cases hStep
    exact stepOk_others h (Gate.keeps_begin _) _ _

/-! ## Runs -/

theorem inv_init (native : Native) (index : Index) (gate : Gate) :
    Inv b (init limits native index gate : State Index Stored) :=
  ⟨rfl, fun _ hpc => (nomatch hpc), nofun⟩

def sampleHash : FixedBytes 32 := .fill 7

def sampleTip : BlockRef := ⟨1, sampleHash⟩

def samplePrev : OutPoint := ⟨sampleHash, 0⟩

def sampleTx : Tx :=
  ⟨.fill 9, 1, [⟨samplePrev, ⟨[]⟩, 0, none⟩], [⟨5, ⟨[]⟩⟩], 0⟩

/-- An index with nothing but a mempool. -/
def sampleBackend : Backend (Column TxId MempoolTx) Unit Unit Unit where
  txs := id
  blockchainInfo _ _ := some sampleTip
  handleTxAddedToMempool index _ tx := (index.insert tx.tx.txid tx, true)
  handleTxRemovedFromMempool index _ txid := (index.erase txid, true)
  handleBlockConnected index _ _ := (index, false)
  handleBlockDisconnected index _ _ := (index, false)
  makeChronikBlock _ _ := ()
  loadBlock _ _ := none
  bridgeBlock _ _ _ := none

def sampleStep : Action Unit := .step ⟨(), false, false⟩

def sampleInit : State (Column TxId MempoolTx) Unit :=
  init Journal.sampleLimits ⟨some sampleTip, 1, ∅, 1⟩ ∅ ⟨0, .busy, none⟩

/-- Up to the publication, with the node's locks held. -/
def samplePublish : List (Action Unit) :=
  [.native (.addUnchecked sampleTx.txid 3),
    .journal (.call (.added (some sampleTx) [(samplePrev, ⟨⟨6, ⟨[]⟩⟩, 1, false⟩)] 3))] ++
  List.replicate 5 (.journal (.proceed true)) ++
  .drain :: List.replicate 10 sampleStep ++ .publish :: List.replicate 5 sampleStep

def sampleShutdown : List (Action Unit) :=
  [.drain, .step ⟨(), false, true⟩, sampleStep]

end Ergon.Replay
