import Ergon.Archival.Replay
import Ergon.Node.BlockTree

/-!
# Ergon — the fence between a request and the node

A request takes a permit from the request gate, does its work and is answered only
if the permit is still `current`: the gate gives the same permit, the node's
source has the values the permit was published with, and the gate gives the same
permit once more (`ergon_service.rs`, `matches_source` of `chronik_bridge.cpp`).
Between any two of these instants the node moves its active chain and its
mempool, and others begin, publish, close and fail the gate.

The three comparisons look at three instants only. What they say about the time
between rests on two facts about single steps: a `SourceGeneration` is advanced by
everything that changes what it counts, and never takes a value again
(`Source.Moves`); and the gate never returns to a state it left (`rank`).

* `exists_publish` — an open gate was opened by one publication, and not touched since.
* `current_unchanged` — what a permit that is still current says about the whole
  time since that publication.
-/

namespace Ergon

open Lib Option

namespace Archival.Gate

def new : Gate := ⟨0, .busy, none⟩

def permit (g : Gate) : Option (Nat × Binding) :=
  if g.mode ≠ .ready then none else g.binding.map fun binding => (g.epoch, binding)

end Archival.Gate

namespace Fence

open Archival Node.BlockTree

/-! ## The node -/

/-- The active chain and the mempool, each with its source generation. -/
structure Source where
  blocks : ChainState
  generation : Nat
  pool : Column TxId Int
  revision : Nat

inductive SourceOp
  | addToBlockIndex (prev : Nat)
  | setTip (pindex : Option Nat)
  | addUnchecked (txid : TxId) (time : Int)
  | removeUnchecked (txid : TxId)
  | clear
  | prioritiseTransaction (txid : TxId)
  | addTransactionsUpdated (n : Nat)

namespace Source

def activeChain (s : Source) : CChain := s.blocks.chain

def step (s : Source) : SourceOp → Option Source
  | .addToBlockIndex prev => do
    let blocks ← s.blocks.step (.addToBlockIndex prev)
    return { s with blocks := blocks }
  | .setTip pindex => do
    let blocks ← s.blocks.step (.setTip pindex)
    -- counted before the chain changes
    let generation :=
      if s.activeChain.tip ≠ pindex then Replay.advance s.generation 1 else s.generation
    return { s with blocks := blocks, generation := generation }
  | .addUnchecked txid time => some {
      s with pool := s.pool.insertIfNew txid time, revision := Replay.advance s.revision 1 }
  | .removeUnchecked txid =>
    some { s with pool := s.pool.erase txid, revision := Replay.advance s.revision 1 }
  | .clear => some { s with pool := ∅, revision := Replay.advance s.revision 1 }
  | .prioritiseTransaction txid => some {
      s with revision := if txid ∈ s.pool then Replay.advance s.revision 1 else s.revision }
  | .addTransactionsUpdated n => some { s with revision := Replay.advance s.revision n }

end Source

/-- What `matches_source` finds besides the source itself. -/
structure Checks where
  chainLock : Bool
  poolLock : Bool
  shutdownRequested : Bool
  pruneMode : Bool
  permitsNativeNetwork : Bool
  indexFailed : Bool
  hashGenesisBlock : FixedBytes 32

section Hashes

-- the hash of each block index
variable (hash : Nat → FixedBytes 32)

namespace Source

def tipRef (s : Source) : Option BlockRef :=
  s.activeChain.tip.map fun p => ⟨nHeight s.blocks.blocks p, hash p⟩

/-- The source values, read under the native locks. -/
def binding (s : Source) : Option Binding :=
  (s.tipRef hash).map fun tip => ⟨tip, s.generation, s.revision⟩

def matchesSource (s : Source) (c : Checks) (b : Binding) : Bool :=
  c.chainLock && c.poolLock &&
    match s.tipRef hash with
    | none => false
    | some tip =>
      b.generation ≠ 0 && b.revision ≠ 0 && !c.shutdownRequested && !c.pruneMode &&
        c.permitsNativeNetwork && (s.activeChain.get 0).map hash = some c.hashGenesisBlock &&
        !c.indexFailed && tip.height = b.tip.height && tip.hash = b.tip.hash &&
        s.generation = b.generation && s.revision = b.revision

end Source

/-- `current`: the gate, the source and the gate again, at three instants. -/
def current (permit : Nat × Binding) (first : Gate) (source : Source) (c : Checks) (last : Gate) :
    Bool :=
  first.permit = some permit && source.matchesSource hash c permit.2 && last.permit = some permit

/-! ## The machine -/

structure State where
  source : Source
  gate : Gate

inductive Action
  | source (op : SourceOp)
  | begin
  | publish (epoch : Nat)
  | close
  | fail

def step (s : State) : Action → Option State
  | .source op => (s.source.step op).map fun source => { s with source := source }
  | .begin => some { s with gate := s.gate.begin }
  -- with what is read at this moment
  | .publish epoch =>
    (s.source.binding hash).map fun binding => { s with gate := (s.gate.publish epoch binding).1 }
  | .close => some { s with gate := s.gate.close }
  | .fail => some { s with gate := s.gate.fail }

end Hashes

variable {hash : Nat → FixedBytes 32} {s s' : State} {a : Action} {run : Nat → State}
  {act : Nat → Action} {n i j k m : Nat} {permit : Nat × Binding} {g : Gate}

/-! ## The source does not come back -/

theorem later_advance (value count : Nat) : Later value (Replay.advance value count) := by
  rw [Replay.advance]
  split
  · exact .inl rfl
  · exact .inr ⟨by omega, by omega⟩

theorem advance_ne {value : Nat} (h : value ≠ 0) : Replay.advance value 1 ≠ value := by
  rw [Replay.advance]
  split <;> omega

/-- What one step does to the source: a generation that has the same value stands
for the same chain or the same mempool. -/
structure Source.Moves (s s' : Source) : Prop where
  generation : Later s.generation s'.generation
  revision : Later s.revision s'.revision
  chain : s.generation ≠ 0 → s'.generation = s.generation → s'.activeChain = s.activeChain
  pool : s.revision ≠ 0 → s'.revision = s.revision → s'.pool = s.pool

theorem Source.Moves.refl (s : Source) : Moves s s :=
  ⟨.refl _, .refl _, fun _ _ => rfl, fun _ _ => rfl⟩

/-- Setting the tip that is there already rewrites nothing. -/
theorem setTip_same {blocks blocks' : ChainState} (hInv : blocks.Inv)
    (h : blocks.step (.setTip blocks.chain.tip) = some blocks') : blocks'.chain = blocks.chain := by
  rw [ChainState.step] at h
  split at h
  · next hValid =>
    cases h
    have hNew := CChain.pathTo_setTip hInv.linked hInv.path fun p hp => hValid p hp
    exact congrArg CChain.mk (hNew.unique hInv.path)
  · cases h

theorem Source.step_moves {s s' : Source} (hInv : s.blocks.Inv) {op : SourceOp}
    (h : s.step op = some s') : s'.blocks.Inv ∧ Moves s s' := by
  -- the pool operations that always advance the revision
  have hPool : ∀ pool, Moves s { s with pool := pool, revision := Replay.advance s.revision 1 } :=
    fun pool => ⟨.refl _, later_advance _ _, fun _ _ => rfl, fun hNonzero hSame =>
      absurd hSame (advance_ne hNonzero)⟩
  cases op with
  | addToBlockIndex prev =>
    obtain ⟨blocks, hBlocks, hSome⟩ := bind_eq_some_iff.mp h
    cases hSome
    refine ⟨hInv.step hBlocks, .refl _, .refl _, fun _ _ => ?_, fun _ _ => rfl⟩
    rw [ChainState.step] at hBlocks
    split at hBlocks
    · split at hBlocks <;> cases hBlocks
      rfl
    · cases hBlocks
  | setTip pindex =>
    obtain ⟨blocks, hBlocks, hSome⟩ := bind_eq_some_iff.mp h
    cases hSome
    refine ⟨hInv.step hBlocks, ?_⟩
    by_cases hTip : s.activeChain.tip = pindex
    · rw [if_neg (not_not.mpr hTip)]
      refine ⟨.refl _, .refl _, fun _ _ => ?_, fun _ _ => rfl⟩
      rw [← hTip] at hBlocks
      exact setTip_same hInv hBlocks
    · rw [if_pos hTip]
      exact ⟨later_advance _ _, .refl _, fun hNonzero hSame => absurd hSame (advance_ne hNonzero),
        fun _ _ => rfl⟩
  | addUnchecked txid time =>
    cases h
    exact ⟨hInv, hPool _⟩
  | removeUnchecked txid =>
    cases h
    exact ⟨hInv, hPool _⟩
  | clear =>
    cases h
    exact ⟨hInv, hPool _⟩
  | prioritiseTransaction txid =>
    cases h
    refine ⟨hInv, .refl _, ?_, fun _ _ => rfl, fun _ _ => rfl⟩
    show Later s.revision (if txid ∈ s.pool then Replay.advance s.revision 1 else s.revision)
    split
    · exact later_advance _ _
    · exact .refl _
  | addTransactionsUpdated count =>
    cases h
    exact ⟨hInv, .refl _, later_advance _ _, fun _ _ => rfl, fun _ _ => rfl⟩

theorem step_source (hInv : s.source.blocks.Inv) (h : step hash s a = some s') :
    s'.source.blocks.Inv ∧ Source.Moves s.source s'.source := by
  cases a with
  | source op =>
    obtain ⟨source, hSource, rfl⟩ := map_eq_some_iff.mp h
    exact Source.step_moves hInv hSource
  | publish epoch =>
    obtain ⟨binding, -, rfl⟩ := map_eq_some_iff.mp h
    exact ⟨hInv, .refl _⟩
  | begin =>
    cases h
    exact ⟨hInv, .refl _⟩
  | close =>
    cases h
    exact ⟨hInv, .refl _⟩
  | fail =>
    cases h
    exact ⟨hInv, .refl _⟩

/-! ## The gate does not come back -/

/-- Only an open gate has a binding. -/
def GateOk (g : Gate) : Prop := g.mode ≠ .ready → g.binding = none

def phase : Mode → Nat
  | .busy => 0
  | .ready => 1
  | .failed => 2
  | .closed => 3

/-- How far the gate has come: by its epoch, and within one by its mode. -/
def rank (g : Gate) : Nat := 4 * g.epoch + phase g.mode

/-- Unchanged, or changed for good. -/
def Onward (g g' : Gate) : Prop := g' = g ∨ rank g < rank g'

theorem Onward.trans {g g' g'' : Gate} (h : Onward g g') (h' : Onward g' g'') : Onward g g'' := by
  rcases h with rfl | h
  · exact h'
  · rcases h' with rfl | h'
    · exact .inr h
    · exact .inr (h.trans h')

theorem onward_begin (g : Gate) : Onward g g.begin := by
  rw [Gate.begin]
  split
  · exact .inl rfl
  · next hMode =>
    rw [not_or] at hMode
    split
    · refine .inr ?_
      cases hPhase : g.mode <;> simp_all [rank, phase]
    · refine .inr ?_
      cases hPhase : g.mode <;> simp_all [rank, phase]
      omega

theorem onward_publish (g : Gate) (epoch : Nat) (binding : Binding) :
    Onward g (g.publish epoch binding).1 := by
  rw [Gate.publish]
  split
  · exact .inl rfl
  · split
    · exact .inl rfl
    · next h =>
      rw [not_or, not_not] at h
      exact .inr (by simp [rank, phase, h.1])

theorem onward_close (hOk : GateOk g) : Onward g g.close := by
  by_cases hClosed : g.mode = .closed
  · refine .inl ?_
    have hNone := hOk (by simp [hClosed])
    obtain ⟨epoch, mode, binding⟩ := g
    simp_all [Gate.close]
  · refine .inr ?_
    cases hPhase : g.mode <;> simp_all [rank, phase, Gate.close]

theorem onward_fail (hOk : GateOk g) : Onward g g.fail := by
  by_cases hTerminal : g.Terminal
  · refine .inl ?_
    have hNone := hOk hTerminal.not_ready
    obtain ⟨epoch, mode, binding⟩ := g
    rcases hTerminal with hMode | hMode <;> simp_all [Gate.fail]
  · refine .inr ?_
    cases hPhase : g.mode <;> simp_all [rank, phase, Gate.fail, Gate.Terminal]

theorem gateOk_publish (hOk : GateOk g) (epoch : Nat) (binding : Binding) :
    GateOk (g.publish epoch binding).1 := by
  rw [Gate.publish]
  split
  · exact hOk
  · split
    · exact hOk
    · exact fun hReady => absurd rfl hReady

theorem gateOk_begin (hOk : GateOk g) : GateOk g.begin := by
  rw [Gate.begin]
  split
  · exact hOk
  · split <;> exact fun _ => rfl

theorem step_gate (hOk : GateOk s.gate) (h : step hash s a = some s') :
    GateOk s'.gate ∧ Onward s.gate s'.gate := by
  cases a with
  | source op =>
    obtain ⟨source, -, rfl⟩ := map_eq_some_iff.mp h
    exact ⟨hOk, .inl rfl⟩
  | begin =>
    cases h
    exact ⟨gateOk_begin hOk, onward_begin _⟩
  | publish epoch =>
    obtain ⟨binding, -, rfl⟩ := map_eq_some_iff.mp h
    exact ⟨gateOk_publish hOk epoch binding, onward_publish _ epoch binding⟩
  | close =>
    cases h
    exact ⟨fun _ => rfl, onward_close hOk⟩
  | fail =>
    cases h
    exact ⟨fun _ => rfl, onward_fail hOk⟩

/-- An open gate was open before the step, or the step was the publication that opened it. -/
theorem step_ready (h : step hash s a = some s') (hReady : s'.gate.mode = .ready) :
    s'.gate = s.gate ∨
      a = .publish s'.gate.epoch ∧ s.source.binding hash = s'.gate.binding := by
  cases a with
  | source op =>
    obtain ⟨source, -, rfl⟩ := map_eq_some_iff.mp h
    exact .inl rfl
  | begin =>
    cases h
    simp only [Gate.begin] at hReady ⊢
    split at hReady
    · next hMode => exact .inl (if_pos hMode)
    · split at hReady <;> cases hReady
  | publish epoch =>
    obtain ⟨binding, hBinding, rfl⟩ := map_eq_some_iff.mp h
    simp only [Gate.publish] at hReady ⊢
    split
    · exact .inl rfl
    · split
      · exact .inl rfl
      · next hBusy =>
        rw [not_or, not_not] at hBusy
        exact .inr ⟨by rw [not_not.mp hBusy.2], hBinding⟩
  | close =>
    cases h
    cases hReady
  | fail =>
    cases h
    exact absurd hReady (Gate.terminal_fail s.gate).not_ready

theorem step_closes (h : step hash s a = some s') (hAct : a = .close ∨ a = .fail) :
    s'.gate.Terminal := by
  rcases hAct with rfl | rfl
  · cases h
    exact Gate.terminal_close _
  · cases h
    exact Gate.terminal_fail _

theorem step_terminal (h : step hash s a = some s') (hTerminal : s.gate.Terminal) :
    s'.gate.Terminal := by
  cases a with
  | source op =>
    obtain ⟨source, -, rfl⟩ := map_eq_some_iff.mp h
    exact hTerminal
  | begin =>
    cases h
    exact (Gate.keeps_begin _).terminal hTerminal
  | publish epoch =>
    obtain ⟨binding, -, rfl⟩ := map_eq_some_iff.mp h
    exact Gate.terminal_publish hTerminal epoch binding
  | close => exact step_closes h (.inl rfl)
  | fail => exact step_closes h (.inr rfl)

/-- Beginning, closing and failing show on an open gate. -/
theorem step_untouched (h : step hash s a = some s') (hReady : s.gate.mode = .ready)
    (hSame : s'.gate = s.gate) : a ≠ .begin ∧ a ≠ .close ∧ a ≠ .fail := by
  have hNotTerminal : ¬ s'.gate.Terminal := fun hTerminal => hTerminal.not_ready (hSame ▸ hReady)
  refine ⟨?_, fun hAct => hNotTerminal (step_closes h (.inl hAct)),
    fun hAct => hNotTerminal (step_closes h (.inr hAct))⟩
  rintro rfl
  cases h
  have hMode : s.gate.begin.mode = .ready := (congrArg Gate.mode hSame).trans hReady
  rw [Gate.begin, if_neg (by simp [hReady])] at hMode
  split at hMode <;> cases hMode

theorem permit_eq_some (h : g.permit = some permit) :
    g = ⟨permit.1, .ready, some permit.2⟩ := by
  rw [Gate.permit] at h
  split at h
  · cases h
  · next hReady =>
    rw [not_not] at hReady
    obtain ⟨binding, hBinding, rfl⟩ := map_eq_some_iff.mp h
    obtain ⟨epoch, mode, _⟩ := g
    simp_all

theorem permit_of_terminal (h : g.Terminal) : g.permit = none := by
  rw [Gate.permit, if_pos h.not_ready]

/-! ## Runs -/

/-- Where every run starts: a gate that was never opened. -/
structure Start (s : State) : Prop where
  gate : s.gate = Gate.new
  blocks : s.source.blocks.Inv

/-- What holds at every instant. -/
def Ok (s : State) : Prop := GateOk s.gate ∧ s.source.blocks.Inv

theorem ok_of_runs (hRuns : Runs (step hash) run act n) (hStart : Start (run 0)) :
    ∀ k ≤ n, Ok (run k) := by
  refine fun k hk => hRuns.invariant (I := Ok) ?_ ?_ hk
  · exact ⟨by rw [hStart.gate]; exact fun _ => rfl, hStart.blocks⟩
  · exact fun t a u hOk hStep => ⟨(step_gate hOk.1 hStep).1, (step_source hOk.2 hStep).1⟩

theorem onward_of_runs (hRuns : Runs (step hash) run act n) (hStart : Start (run 0)) (hij : i ≤ j)
    (hj : j ≤ n) : Onward (run i).gate (run j).gate :=
  hRuns.relates (R := fun s t => Onward s.gate t.gate) (ok_of_runs hRuns hStart) (fun _ => .inl rfl)
    (fun _ _ _ => .trans) (fun _ _ _ hOk hStep => (step_gate hOk.1 hStep).2) hij hj

/-- Between two instants with the same gate, the gate was not touched. -/
theorem gate_between (hRuns : Runs (step hash) run act n) (hStart : Start (run 0)) (him : i ≤ m)
    (hmj : m ≤ j) (hj : j ≤ n) (hSame : (run j).gate = (run i).gate) :
    (run m).gate = (run i).gate := by
  rcases onward_of_runs hRuns hStart him (hmj.trans hj) with hEq | hLess
  · exact hEq
  · have hBack := onward_of_runs hRuns hStart hmj hj
    rw [hSame] at hBack
    rcases hBack with hEq | hLess'
    · exact hEq.symm
    · omega

/-- An open gate was opened by a publication with the source values of that instant,
and not touched since. -/
theorem exists_publish (hRuns : Runs (step hash) run act n) (hStart : Start (run 0)) (hi : i ≤ n)
    (hReady : (run i).gate.mode = .ready) : ∃ k < i, act k = .publish (run i).gate.epoch ∧
      (run k).source.binding hash = (run i).gate.binding ∧ (run (k + 1)).gate = (run i).gate := by
  induction i with
  | zero =>
    rw [hStart.gate] at hReady
    cases hReady
  | succ i ih =>
    rcases step_ready (hRuns i hi) hReady with hSame | ⟨hPublish, hBinding⟩
    · rw [hSame] at hReady ⊢
      obtain ⟨k, hk, hFound⟩ := ih (by omega) hReady
      exact ⟨k, by omega, hFound⟩
    · exact ⟨i, by omega, hPublish, hBinding, rfl⟩

/-- Both generations, at a later instant. -/
def Aged (s t : State) : Prop :=
  Later s.source.generation t.source.generation ∧ Later s.source.revision t.source.revision

theorem Aged.refl (s : State) : Aged s s := ⟨.refl _, .refl _⟩

theorem Aged.trans {s t u : State} (h : Aged s t) (h' : Aged t u) : Aged s u :=
  ⟨h.1.trans h'.1, h.2.trans h'.2⟩

/-- Between two instants with the same generations, the source was not touched. -/
theorem source_between (hRuns : Runs (step hash) run act n) (hStart : Start (run 0)) (hj : j ≤ n)
    (hGeneration : (run i).source.generation = (run j).source.generation)
    (hRevision : (run i).source.revision = (run j).source.revision)
    (hGen : (run j).source.generation ≠ 0) (hRev : (run j).source.revision ≠ 0) :
    ∀ m, i ≤ m → m ≤ j → (run m).source.activeChain = (run i).source.activeChain ∧
      (run m).source.pool = (run i).source.pool := by
  have hLater : ∀ {k l}, k ≤ l → l ≤ n → Aged (run k) (run l) := fun hkl hl =>
    hRuns.relates (ok_of_runs hRuns hStart) Aged.refl (fun _ _ _ => .trans)
      (fun _ _ _ hOk hStep =>
        have hMoves := (step_source hOk.2 hStep).2
        ⟨hMoves.generation, hMoves.revision⟩) hkl hl
  -- so the generations are constant, and with them what they count
  have hSame : ∀ m, i ≤ m → m ≤ j → (run m).source.generation = (run i).source.generation ∧
      (run m).source.revision = (run i).source.revision := fun m him hmj =>
    have hFrom := hLater him (hmj.trans hj)
    have hTo := hLater hmj hj
    ⟨hFrom.1.between hTo.1 hGeneration hGen, hFrom.2.between hTo.2 hRevision hRev⟩
  intro m him
  induction m, him using Nat.le_induction with
  | base => exact fun _ => ⟨rfl, rfl⟩
  | succ m him ih =>
    intro hmj
    obtain ⟨hChain, hPool⟩ := ih (by omega)
    obtain ⟨hG, hR⟩ := hSame m him (by omega)
    obtain ⟨hG', hR'⟩ := hSame (m + 1) (by omega) hmj
    have hMoves := (step_source (ok_of_runs hRuns hStart m (by omega)).2 (hRuns m (by omega))).2
    rw [← hChain, ← hPool]
    exact ⟨hMoves.chain (by rw [hG, hGeneration]; exact hGen) (by rw [hG', hG]),
      hMoves.pool (by rw [hR, hRevision]; exact hRev) (by rw [hR', hR])⟩

theorem matchesSource_eq_true {source : Source} {c : Checks} {b : Binding}
    (h : source.matchesSource hash c b = true) : b.generation ≠ 0 ∧ b.revision ≠ 0 ∧
      source.generation = b.generation ∧ source.revision = b.revision := by
  rw [Source.matchesSource] at h
  rcases hTip : source.tipRef hash with _ | tip <;> simp only [hTip, Bool.and_false,
    Bool.false_eq_true, Bool.and_eq_true, decide_eq_true_eq] at h
  obtain ⟨_, ⟨⟨⟨⟨⟨⟨⟨⟨⟨hGen, hRev⟩, _⟩, _⟩, _⟩, _⟩, _⟩, _⟩, _⟩, hG⟩, hR⟩ := h
  exact ⟨hGen, hRev, hG, hR⟩

theorem terminal_of_runs (hRuns : Runs (step hash) run act n) (hkm : k < m) (hm : m ≤ n)
    (hAct : act k = .close ∨ act k = .fail) : (run m).gate.Terminal := by
  induction m, Nat.succ_le_of_lt hkm using Nat.le_induction with
  | base => exact step_closes (hRuns k (by omega)) hAct
  | succ m hkm ih => exact step_terminal (hRuns m (by omega)) (ih (by omega) (by omega))

/-- A request that had a permit and found it current: the permit stems from one
publication; from then to the last look at the gate nobody began, closed or failed
it; and from then to the look at the source the active chain and the mempool were
the same all the time. A closed or failed gate gives no permit again, and a
publication for another epoch leaves the gate as it is. -/
theorem current_unchanged (hRuns : Runs (step hash) run act n) (hStart : Start (run 0)) :
    (∀ permit c i j₁ j₂ j₃, i ≤ j₁ → j₁ ≤ j₂ → j₂ ≤ j₃ → j₃ ≤ n →
      (run i).gate.permit = some permit →
      current hash permit (run j₁).gate (run j₂).source c (run j₃).gate = true →
        ∃ k < i, act k = .publish permit.1 ∧ (run k).source.binding hash = some permit.2 ∧
          (∀ m, k < m → m < j₃ → (run (m + 1)).gate = (run m).gate ∧
            act m ≠ .begin ∧ act m ≠ .close ∧ act m ≠ .fail) ∧
          (∀ m, k ≤ m → m ≤ j₂ → (run m).source.activeChain = (run k).source.activeChain ∧
            (run m).source.pool = (run k).source.pool)) ∧
    (∀ k m, k < m → m ≤ n → act k = .close ∨ act k = .fail → (run m).gate.permit = none) ∧
    (∀ k < n, ∀ epoch, act k = .publish epoch → epoch ≠ (run k).gate.epoch →
      (run (k + 1)).gate = (run k).gate) := by
  refine ⟨?_, fun k m hkm hm hAct => permit_of_terminal (terminal_of_runs hRuns hkm hm hAct), ?_⟩
  · intro permit c i j₁ j₂ j₃ hi h₁ h₂ h₃ hPermit hCurrent
    simp only [current, Bool.and_eq_true, decide_eq_true_eq] at hCurrent
    obtain ⟨⟨-, hMatches⟩, hLast⟩ := hCurrent
    have hGate := permit_eq_some hPermit
    have hSameGate : (run j₃).gate = (run i).gate := by rw [hGate, permit_eq_some hLast]
    obtain ⟨k, hk, hPublish, hBinding, hOpened⟩ :=
      exists_publish hRuns hStart (i := i) (by omega) (by rw [hGate])
    rw [hGate] at hPublish hBinding
    refine ⟨k, hk, hPublish, hBinding, fun m hkm hm => ?_, ?_⟩
    · have hAt : ∀ l, k < l → l ≤ j₃ → (run l).gate = (run i).gate := fun l hkl hl =>
        (gate_between hRuns hStart hkl hl h₃ (hSameGate.trans hOpened.symm)).trans hOpened
      have hNow := hAt m hkm hm.le
      have hNext := hAt (m + 1) (by omega) hm
      have hReady : (run m).gate.mode = .ready := by rw [hNow, hGate]
      have hSame : (run (m + 1)).gate = (run m).gate := hNext.trans hNow.symm
      exact ⟨hSame, step_untouched (hRuns m (by omega)) hReady hSame⟩
    · obtain ⟨hGen, hRev, hG, hR⟩ := matchesSource_eq_true hMatches
      obtain ⟨tip, -, hValues⟩ := map_eq_some_iff.mp hBinding
      rw [← hValues] at hGen hRev hG hR
      exact source_between hRuns hStart (by omega) hG.symm hR.symm (hG ▸ hGen) (hR ▸ hRev)
  · intro k hk epoch hAct hOld
    have hStep := hRuns k hk
    rw [hAct] at hStep
    obtain ⟨binding, -, hEq⟩ := map_eq_some_iff.mp hStep
    rw [← hEq]
    simp only [Gate.publish]
    split
    · rfl
    · rw [if_pos (.inr (Ne.symm hOld))]

/-! A publication on the genesis block with one mempool transaction; then a header
arrives, which changes neither. -/

def sampleHash (_ : Nat) : FixedBytes 32 := TxId.zero

def sampleStart : State := ⟨⟨.initial, 1, ∅, 1⟩, Gate.new⟩

def sampleActions : List Action :=
  [.source (.setTip (some 0)), .source (.addUnchecked TxId.zero 7), .publish 0,
    .source (.addToBlockIndex 0)]

def sampleRun (i : Nat) : State :=
  ((sampleActions.take i).foldlM (step sampleHash) sampleStart).getD sampleStart

def sampleChecks : Checks := ⟨true, true, false, false, true, false, TxId.zero⟩

theorem sampleRun_runs : Runs (step sampleHash) sampleRun (fun i => sampleActions.getD i .close) 4 := by
  intro i hi
  interval_cases i <;> rfl

theorem sampleRun_current : ∃ k < 3, sampleActions.getD k .close = .publish 0 ∧
    ∀ m, k ≤ m → m ≤ 4 → (sampleRun m).source.activeChain = (sampleRun k).source.activeChain ∧
      (sampleRun m).source.pool = (sampleRun k).source.pool := by
  have hStart : Start (sampleRun 0) := ⟨rfl, ChainState.inv_initial⟩
  obtain ⟨k, hk, hPublish, -, -, hSame⟩ := (current_unchanged sampleRun_runs hStart).1
    (0, ⟨⟨0, TxId.zero⟩, 2, 2⟩) sampleChecks 3 4 4 4 (by decide) (by decide) (by decide) (by decide)
    (by decide +kernel) (by decide +kernel)
  exact ⟨k, hk, hPublish, hSame⟩

end Fence

end Ergon
