import Ergon.Observer.Projection

/-!
# Ergon — retention of the observer

The three commands that change the retained blocks of `chronik-observer`:
connecting a block, disconnecting the tip and adopting a rebuilt projection.
They are written over the mutable observer, so that a command can be rejected
after it has changed something; that none does so is a result here and not part
of the model. The retained blocks are then compared with a reference chain that
forgets nothing.

* `rejected_unchanged` — a rejected command leaves the observer as it was.
* `Tracked.inv` — what a run of the commands keeps between the retained blocks
  and the reference chain.
* `retained_refine_chain` — the retained blocks are the newest of the reference
  chain, counted exactly and within the limit, and a lost window accepts nothing
  until a projection is adopted.
-/

namespace Ergon

open Lib List

namespace Observer

/-- A command on the mutable observer. A rejected one keeps the changes made so far. -/
abbrev Command := OptionT (StateM Observer)

namespace Command

variable {α β : Type}

def on (c : Command α) (o : Observer) : Option α × Observer := Id.run (StateT.run (OptionT.run c) o)

def ofOption (x : Option α) : Command α := OptionT.mk (pure x)

@[simp] theorem on_pure (a : α) (o : Observer) : on (pure a) o = (some a, o) := rfl

theorem on_bind (c : Command α) (f : α → Command β) (o : Observer) :
    on (c >>= f) o = match on c o with
      | (some a, o') => on (f a) o'
      | (none, o') => (none, o') := by
  show Id.run (StateT.run (OptionT.run (c >>= f)) o) = _
  simp only [OptionT.run_bind, on]
  rcases h : Id.run (StateT.run (OptionT.run c) o) with ⟨_ | a, o'⟩ <;> simp_all [Option.elimM]

@[simp] theorem on_get_bind (f : Observer → Command β) (o : Observer) :
    on (get >>= f) o = on (f o) o := on_bind get f o

@[simp] theorem on_modify_bind (g : Observer → Observer) (f : PUnit → Command β) (o : Observer) :
    on (modify g >>= f) o = on (f ⟨⟩) (g o) := on_bind (modify g) f o

@[simp] theorem on_ofOption_bind (x : Option α) (f : α → Command β) (o : Observer) :
    on (ofOption x >>= f) o = x.elim (none, o) fun a => on (f a) o := by
  rw [on_bind]
  cases x <;> rfl

@[simp] theorem on_guard_bind (p : Prop) [Decidable p] (f : Unit → Command β) (o : Observer) :
    on (guard p >>= f) o = if p then on (f ⟨⟩) o else (none, o) := by
  rw [on_bind]
  by_cases h : p <;> simp only [guard, h, if_true, if_false] <;> rfl

/-- The source's `record`: the next sequence number with the fingerprint of the event. -/
def record (kind : UInt8) (hash : FixedBytes 32) (height : Int) : Command (Nat × UInt64) := do
  modify fun self => { self with sequence := nextSequence self.sequence }
  let self ← get
  return (self.sequence, eventFingerprint kind hash height)

/-- What is reported of `block` after it was connected or disconnected. -/
def observation (block : ProjectedBlock) (event : Nat × UInt64) (projection : ProjectionTotals)
    (records : UInt64) : BlockObservation where
  sequence := event.1
  fingerprint := event.2
  transactionCount := block.transactions
  slpFamilyTransactions := block.slpFamilyTransactions
  alpFamilyTransactions := block.alpFamilyTransactions
  tokenParseFailures := block.tokenParseFailures
  tokenColorFailures := block.tokenColorFailures
  cashTokenPrefixOutputs := block.cashTokenPrefixOutputs
  projection := projection
  blockTransactionRecordFingerprint := block.transactionRecordFingerprint
  projectionTransactionRecordFingerprint := records

/-- The totals after the block, less the oldest block of a full projection. Where
nothing is dropped, room for one more record is reserved first. -/
def nextProjection (self : Observer) (block : ProjectedBlock) (reserves : Bool) :
    Option ProjectionTotals := do
  let added ← self.projection.checkedAdd block
  if self.blocks.length = self.maxBlocks then self.blocks.head?.bind added.checkedSub
  else if reserves then some added else none

def connectBlock (previousHash : FixedBytes 32) (block : ProjectedBlock) (reserves : Bool) :
    Command BlockObservation := do
  let self ← get
  guard (¬ (self.needsRebuild ∨ block.height < 0))
  guard (self.extendsTip previousHash block)
  let projection ← ofOption (nextProjection self block reserves)
  let evicted := decide (self.blocks.length = self.maxBlocks)
  let firstBlock := decide (self.blocks = [])
  modify fun self =>
    if evicted then { self with blocks := self.blocks.tail, isTruncated := true } else self
  modify fun self => { self with blocks := self.blocks ++ [block] }
  modify fun self =>
    if firstBlock then { self with isTruncated := decide (0 < block.height) } else self
  modify fun self => { self with projection := projection }
  let connected ← get
  let event ← record connectedKind block.hash block.height
  return observation block event projection
    (projectionTransactionRecordFingerprint connected.blocks)

def disconnectedKind : UInt8 := 2

def disconnectBlock (hash : FixedBytes 32) : Command BlockObservation := do
  let self ← get
  guard (¬ self.needsRebuild)
  let tip ← ofOption self.blocks.getLast?
  guard (tip.hash = hash)
  let projection ← ofOption (self.projection.checkedSub tip)
  modify fun self => { self with blocks := self.blocks.dropLast }
  modify fun self => { self with projection := projection }
  -- without retained blocks, what an incomplete projection continues is lost
  modify fun self =>
    if self.blocks = [] ∧ self.isTruncated then { self with needsRebuild := true } else self
  let disconnected ← get
  let event ← record disconnectedKind hash (-1)
  return observation tip event projection
    (projectionTransactionRecordFingerprint disconnected.blocks)

structure ProjectionObservation where
  success : Nat := 0
  projection : ProjectionTotals := {}
  transactionRecordFingerprint : UInt64 := 0
deriving DecidableEq

def projectionTotals (blocks : List ProjectedBlock) : Option ProjectionTotals :=
  blocks.foldlM ProjectionTotals.checkedAdd {}

def adoptProjection (rebuilt : Observer) : Command ProjectionObservation := do
  let self ← get
  let rebuiltBlocks ← ofOption (toU64 rebuilt.blocks.length)
  guard (¬ (rebuiltBlocks = 0 ∨ rebuilt.sequence ≠ rebuiltBlocks ∨
    rebuilt.projection.blocks ≠ rebuiltBlocks ∨
    projectionTotals rebuilt.blocks ≠ some rebuilt.projection ∨
    rebuilt.maxBlocks ≠ self.maxBlocks ∨ rebuilt.needsRebuild))
  modify fun self => { self with blocks := rebuilt.blocks }
  modify fun self => { self with projection := rebuilt.projection }
  modify fun self => { self with isTruncated := rebuilt.isTruncated }
  modify fun self => { self with needsRebuild := false }
  let adopted ← get
  return ⟨1, rebuilt.projection, projectionTransactionRecordFingerprint adopted.blocks⟩

/-! ## What each command does -/

/-- The observer with `block` appended and, if it was full, its oldest block dropped. -/
def appended (o : Observer) (block : ProjectedBlock) (projection : ProjectionTotals) : Observer where
  sequence := nextSequence o.sequence
  blocks := (if o.blocks.length = o.maxBlocks then o.blocks.tail else o.blocks) ++ [block]
  projection := projection
  maxBlocks := o.maxBlocks
  isTruncated := if o.blocks = [] then decide (0 < block.height)
    else decide (o.blocks.length = o.maxBlocks) || o.isTruncated
  needsRebuild := o.needsRebuild

theorem connectBlock_on (o : Observer) (previousHash : FixedBytes 32) (block : ProjectedBlock)
    (reserves : Bool) :
    on (connectBlock previousHash block reserves) o =
      if ¬ (o.needsRebuild ∨ block.height < 0) ∧ o.extendsTip previousHash block then
        (nextProjection o block reserves).elim (none, o) fun projection =>
          (some (observation block
            (nextSequence o.sequence, eventFingerprint connectedKind block.hash block.height)
            projection (projectionTransactionRecordFingerprint (appended o block projection).blocks)),
          appended o block projection)
      else (none, o) := by
  simp only [connectBlock, on_get_bind, on_guard_bind, on_ofOption_bind, ite_and]
  congr 3
  funext projection
  simp only [on_modify_bind, on_get_bind, record, bind_assoc, pure_bind, on_pure, decide_eq_true_eq]
  -- evicting, appending and the first block's flag are separate writes in the source
  rw [appended]
  split_ifs <;> simp_all

/-- With room for the record, the command is the function that connects a block. -/
theorem connectBlock_eq_on (o : Observer) (previousHash : FixedBytes 32) (block : ProjectedBlock) :
    (o.connectBlock previousHash block).elim (none, o) (fun r => (some r.2, r.1)) =
      on (connectBlock previousHash block true) o := by
  rw [connectBlock_on, Observer.connectBlock]
  by_cases hAdmits : ¬ (o.needsRebuild = true ∨ block.height < 0)
  swap
  · rw [if_neg fun h => hAdmits h.1]
    simp only [guard, if_neg hAdmits]
    rfl
  by_cases hTip : o.extendsTip previousHash block = true
  swap
  · rw [if_neg fun h => hTip h.2]
    simp only [guard, if_pos hAdmits, if_neg hTip]
    rfl
  rw [if_pos ⟨hAdmits, hTip⟩]
  simp only [guard, if_pos hAdmits, if_pos hTip, nextProjection]
  rcases o.projection.checkedAdd block with _ | added
  · rfl
  by_cases hFull : o.blocks.length = o.maxBlocks
  · rcases hSub : o.blocks.head?.bind added.checkedSub with _ | projection <;>
      simp [hFull, hSub, appended, observation]
  · simp [hFull, appended, observation]

/-- The observer without its tip. -/
def removed (o : Observer) (projection : ProjectionTotals) : Observer where
  sequence := nextSequence o.sequence
  blocks := o.blocks.dropLast
  projection := projection
  maxBlocks := o.maxBlocks
  isTruncated := o.isTruncated
  needsRebuild := decide (o.blocks.dropLast = []) && o.isTruncated

theorem disconnectBlock_on (o : Observer) (hash : FixedBytes 32) :
    on (disconnectBlock hash) o =
      if ¬ o.needsRebuild then
        o.blocks.getLast?.elim (none, o) fun tip =>
          if tip.hash = hash then
            (o.projection.checkedSub tip).elim (none, o) fun projection =>
              (some (observation tip
                (nextSequence o.sequence, eventFingerprint disconnectedKind hash (-1))
                projection (projectionTransactionRecordFingerprint o.blocks.dropLast)),
              removed o projection)
          else (none, o)
      else (none, o) := by
  simp only [disconnectBlock, on_get_bind, on_guard_bind, on_ofOption_bind]
  by_cases hRebuild : ¬ o.needsRebuild = true
  swap
  · rw [if_neg hRebuild, if_neg hRebuild]
  rw [if_pos hRebuild, if_pos hRebuild]
  congr 2
  funext tip
  congr 2
  funext projection
  simp only [on_modify_bind, on_get_bind, record, bind_assoc, pure_bind, on_pure]
  rw [removed]
  split_ifs <;> simp_all

theorem adoptProjection_on (o rebuilt : Observer) :
    on (adoptProjection rebuilt) o =
      if rebuilt.blocks.length < 2 ^ 64 ∧ rebuilt.blocks ≠ [] ∧
          rebuilt.sequence = rebuilt.blocks.length ∧
          rebuilt.projection.blocks = rebuilt.blocks.length ∧
          projectionTotals rebuilt.blocks = some rebuilt.projection ∧
          rebuilt.maxBlocks = o.maxBlocks ∧ rebuilt.needsRebuild = false then
        (some ⟨1, rebuilt.projection, projectionTransactionRecordFingerprint rebuilt.blocks⟩,
          { rebuilt with sequence := o.sequence })
      else (none, o) := by
  simp only [adoptProjection, on_get_bind, on_guard_bind, on_ofOption_bind, toU64]
  by_cases hLength : rebuilt.blocks.length < 2 ^ 64
  · simp only [hLength, if_true, Option.elim_some, on_modify_bind, on_get_bind, on_pure, not_or,
      not_not, Bool.not_eq_true, length_eq_zero_iff, true_and, ne_eq]
    split_ifs with hChecks
    · obtain ⟨_, _, _, _, hMax, hRebuild⟩ := hChecks
      rw [← hMax, ← hRebuild]
    · rfl
  · rw [if_neg hLength, if_neg fun h => hLength h.1]
    rfl

end Command

/-! ## Events -/

/-- A command as it is given to the observer. -/
inductive Event
  | connect (previousHash : FixedBytes 32) (block : ProjectedBlock) (reserves : Bool)
  | disconnect (hash : FixedBytes 32)
  | adopt (rebuilt : Observer)

/-- Whether the command was accepted, with the observer after it. -/
def Event.apply (o : Observer) : Event → Bool × Observer
  | .connect previousHash block reserves =>
    ((Command.connectBlock previousHash block reserves).on o).map Option.isSome id
  | .disconnect hash => ((Command.disconnectBlock hash).on o).map Option.isSome id
  | .adopt rebuilt => ((Command.adoptProjection rebuilt).on o).map Option.isSome id

/-- The observer with the chain that every accepted event was applied to, none of
its blocks forgotten. An adopted observer brings its own chain. -/
inductive Tracked : Observer → List ProjectedBlock → Prop
  | new (maxBlocks : Nat) : Tracked (.new maxBlocks) []
  | rejected {o o' : Observer} {chain : List ProjectedBlock} (e : Event) (h : Tracked o chain)
      (hApply : e.apply o = (false, o')) : Tracked o' chain
  | connect {o o' : Observer} {chain : List ProjectedBlock} {previousHash : FixedBytes 32}
      {block : ProjectedBlock} {reserves : Bool} (h : Tracked o chain)
      (hApply : (Event.connect previousHash block reserves).apply o = (true, o')) :
      Tracked o' (chain ++ [block])
  | disconnect {o o' : Observer} {chain : List ProjectedBlock} {hash : FixedBytes 32}
      (h : Tracked o chain) (hApply : (Event.disconnect hash).apply o = (true, o')) :
      Tracked o' chain.dropLast
  | adopt {o o' rebuilt : Observer} {chain rebuiltChain : List ProjectedBlock} (h : Tracked o chain)
      (hRebuilt : Tracked rebuilt rebuiltChain)
      (hApply : (Event.adopt rebuilt).apply o = (true, o')) : Tracked o' rebuiltChain

variable {o o' rebuilt : Observer} {chain : List ProjectedBlock}
  {previousHash hash : FixedBytes 32} {block : ProjectedBlock} {reserves : Bool} {e : Event}

theorem connect_accepted (h : (Event.connect previousHash block reserves).apply o = (true, o')) :
    ∃ projection, o.needsRebuild = false ∧ o.extendsTip previousHash block ∧
      Command.nextProjection o block reserves = some projection ∧
      o' = Command.appended o block projection := by
  rw [Event.apply, Command.connectBlock_on] at h
  split at h
  swap
  · cases h
  rename_i hChecks
  rcases hNext : Command.nextProjection o block reserves with _ | projection <;>
    rw [hNext] at h <;> cases h
  exact ⟨projection, by simpa using (not_or.mp hChecks.1).1, hChecks.2, rfl, rfl⟩

theorem disconnect_accepted (h : (Event.disconnect hash).apply o = (true, o')) :
    ∃ tip projection, o.needsRebuild = false ∧ o.blocks.getLast? = some tip ∧ tip.hash = hash ∧
      o.projection.checkedSub tip = some projection ∧ o' = Command.removed o projection := by
  rw [Event.apply, Command.disconnectBlock_on] at h
  split at h
  swap
  · cases h
  rename_i hRebuild
  rcases hTip : o.blocks.getLast? with _ | tip <;> rw [hTip] at h
  · cases h
  rw [Option.elim_some] at h
  split at h
  swap
  · cases h
  rename_i hHash
  rcases hNext : o.projection.checkedSub tip with _ | projection <;> rw [hNext] at h <;> cases h
  exact ⟨tip, projection, by simpa using hRebuild, rfl, hHash, hNext, rfl⟩

theorem adopt_accepted (h : (Event.adopt rebuilt).apply o = (true, o')) :
    rebuilt.blocks ≠ [] ∧ rebuilt.maxBlocks = o.maxBlocks ∧ rebuilt.needsRebuild = false ∧
      o' = { rebuilt with sequence := o.sequence } := by
  rw [Event.apply, Command.adoptProjection_on] at h
  split at h <;> cases h
  rename_i hChecks
  obtain ⟨_, hNonempty, _, _, _, hMax, hRebuild⟩ := hChecks
  exact ⟨hNonempty, hMax, hRebuild, rfl⟩

theorem rejected_unchanged (h : e.apply o = (false, o')) : o' = o := by
  cases e with
  | connect previousHash block reserves =>
    rw [Event.apply, Command.connectBlock_on] at h
    split at h
    · rcases hNext : Command.nextProjection o block reserves with _ | projection <;>
        rw [hNext] at h <;> cases h
      rfl
    · cases h
      rfl
  | disconnect hash =>
    rw [Event.apply, Command.disconnectBlock_on] at h
    split at h
    swap
    · cases h
      rfl
    rcases hTip : o.blocks.getLast? with _ | tip <;> rw [hTip] at h
    · cases h
      rfl
    rw [Option.elim_some] at h
    split at h
    · rcases hNext : o.projection.checkedSub tip with _ | projection <;> rw [hNext] at h <;> cases h
      rfl
    · cases h
      rfl
  | adopt rebuilt =>
    rw [Event.apply, Command.adoptProjection_on] at h
    split at h <;> cases h
    rfl

/-! ## Totals -/

/-- The totals with the counts of `block` added, without a bound. -/
def ProjectionTotals.plus (t : ProjectionTotals) (block : ProjectedBlock) : ProjectionTotals where
  blocks := t.blocks + 1
  transactions := t.transactions + block.transactions
  slpFamilyTransactions := t.slpFamilyTransactions + block.slpFamilyTransactions
  alpFamilyTransactions := t.alpFamilyTransactions + block.alpFamilyTransactions
  tokenParseFailures := t.tokenParseFailures + block.tokenParseFailures
  tokenColorFailures := t.tokenColorFailures + block.tokenColorFailures
  cashTokenPrefixOutputs := t.cashTokenPrefixOutputs + block.cashTokenPrefixOutputs

/-- The sum of every count over `blocks`. -/
def sumTotals (blocks : List ProjectedBlock) : ProjectionTotals where
  blocks := blocks.length
  transactions := (blocks.map (·.transactions)).sum
  slpFamilyTransactions := (blocks.map (·.slpFamilyTransactions)).sum
  alpFamilyTransactions := (blocks.map (·.alpFamilyTransactions)).sum
  tokenParseFailures := (blocks.map (·.tokenParseFailures)).sum
  tokenColorFailures := (blocks.map (·.tokenColorFailures)).sum
  cashTokenPrefixOutputs := (blocks.map (·.cashTokenPrefixOutputs)).sum

variable {t t' : ProjectionTotals} {blocks : List ProjectedBlock}

theorem sumTotals_cons : sumTotals (block :: blocks) = (sumTotals blocks).plus block := by
  simp [sumTotals, ProjectionTotals.plus, Nat.add_comm]

theorem sumTotals_append : sumTotals (blocks ++ [block]) = (sumTotals blocks).plus block := by
  simp [sumTotals, ProjectionTotals.plus]

theorem ProjectionTotals.plus_cancel (h : t.plus block = t'.plus block) : t = t' := by
  cases t
  cases t'
  simpa [plus] using h

theorem checkedAdd_eq_some {a b n : Nat} (h : checkedAdd a b = some n) : n = a + b := by
  rw [checkedAdd] at h
  split at h <;> simp_all

theorem checkedSub_eq_some {a b n : Nat} (h : checkedSub a b = some n) : n + b = a := by
  rw [checkedSub, Option.ite_none_right_eq_some, Option.some.injEq] at h
  omega

theorem ProjectionTotals.checkedAdd_eq_plus (h : t.checkedAdd block = some t') :
    t' = t.plus block := by
  simp only [checkedAdd, checked, Option.bind_eq_bind, Option.bind_eq_some_iff, Option.pure_def,
    Option.some.injEq] at h
  obtain ⟨_, _, _, h₁, _, h₂, _, h₃, _, h₄, _, h₅, _, h₆, _, h₇, rfl⟩ := h
  rw [plus, checkedAdd_eq_some h₁, checkedAdd_eq_some h₂, checkedAdd_eq_some h₃,
    checkedAdd_eq_some h₄, checkedAdd_eq_some h₅, checkedAdd_eq_some h₆, checkedAdd_eq_some h₇]

theorem ProjectionTotals.plus_of_checkedSub (h : t.checkedSub block = some t') :
    t'.plus block = t := by
  simp only [checkedSub, checked, Option.bind_eq_bind, Option.bind_eq_some_iff, Option.pure_def,
    Option.some.injEq] at h
  obtain ⟨_, _, _, h₁, _, h₂, _, h₃, _, h₄, _, h₅, _, h₆, _, h₇, rfl⟩ := h
  rw [plus, checkedSub_eq_some h₁, checkedSub_eq_some h₂, checkedSub_eq_some h₃,
    checkedSub_eq_some h₄, checkedSub_eq_some h₅, checkedSub_eq_some h₆, checkedSub_eq_some h₇]

/-! ## Runs -/

/-- What relates an observer to the chain that forgets nothing. -/
structure Inv (o : Observer) (chain : List ProjectedBlock) : Prop where
  suffix : o.blocks <:+ chain
  totals : o.projection = sumTotals o.blocks
  bounded : o.blocks.length ≤ o.maxBlocks
  complete : o.isTruncated = false → o.blocks = chain
  window : o.needsRebuild = false → o.blocks = [] → chain = []

theorem Inv.connect (h : Inv o chain)
    (hApply : (Event.connect previousHash block reserves).apply o = (true, o')) :
    Inv o' (chain ++ [block]) := by
  obtain ⟨projection, hRebuild, -, hNext, rfl⟩ := connect_accepted hApply
  rw [Command.nextProjection] at hNext
  obtain ⟨added, hAdded, hNext⟩ := Option.bind_eq_some_iff.mp hNext
  have hSum : added = (sumTotals o.blocks).plus block :=
    h.totals ▸ ProjectionTotals.checkedAdd_eq_plus hAdded
  obtain ⟨front, hFront⟩ := h.suffix
  by_cases hFull : o.blocks.length = o.maxBlocks
  · -- the oldest block leaves as the new one enters
    rw [if_pos hFull] at hNext
    obtain ⟨oldest, hOldest, hNext⟩ := Option.bind_eq_some_iff.mp hNext
    obtain ⟨rest, hBlocks⟩ : ∃ rest, o.blocks = oldest :: rest := by
      cases hBlocks : o.blocks with
      | nil => simp [hBlocks] at hOldest
      | cons b rest =>
        rw [hBlocks, head?_cons, Option.some.injEq] at hOldest
        exact ⟨rest, by rw [hOldest]⟩
    have hTotals : projection = sumTotals (rest ++ [block]) := by
      have hBack := ProjectionTotals.plus_of_checkedSub hNext
      rw [hSum, hBlocks, ← sumTotals_append, cons_append, sumTotals_cons] at hBack
      exact ProjectionTotals.plus_cancel hBack
    have hKept : (Command.appended o block projection).blocks = rest ++ [block] := by
      rw [Command.appended, if_pos hFull, hBlocks, tail_cons]
    constructor
    · exact ⟨front ++ [oldest], by simp [hKept, ← hFront, hBlocks]⟩
    · rw [hKept, ← hTotals, Command.appended]
    · rw [hKept, Command.appended, ← hFull, hBlocks, length_append, length_cons]
      rfl
    · intro hTruncated
      have hFirst : o.blocks ≠ [] := by simp [hBlocks]
      simp [Command.appended, hFull, hFirst] at hTruncated
    · simp [hKept]
  · rw [if_neg hFull, Option.ite_none_right_eq_some, Option.some.injEq] at hNext
    obtain ⟨-, rfl⟩ := hNext
    have hRoom : o.blocks.length < o.maxBlocks := lt_of_le_of_ne h.bounded hFull
    have hKept : (Command.appended o block added).blocks = o.blocks ++ [block] := by
      rw [Command.appended, if_neg hFull]
    constructor
    · exact ⟨front, by rw [hKept, ← hFront, append_assoc]⟩
    · rw [hKept, sumTotals_append, ← hSum, Command.appended]
    · rw [hKept, Command.appended, length_append]
      exact hRoom
    · intro hTruncated
      have hSame : o.blocks = chain := by
        by_cases hFirst : o.blocks = []
        · rw [hFirst, h.window hRebuild hFirst]
        · exact h.complete (by simpa [Command.appended, hFull, hFirst] using hTruncated)
      rw [hKept, hSame]
    · simp [hKept]

theorem Inv.disconnect (h : Inv o chain) (hApply : (Event.disconnect hash).apply o = (true, o')) :
    Inv o' chain.dropLast := by
  obtain ⟨tip, projection, hRebuild, hTip, -, hNext, rfl⟩ := disconnect_accepted hApply
  obtain ⟨front, hFront⟩ := h.suffix
  have hBlocks : o.blocks = o.blocks.dropLast ++ [tip] := (dropLast_append_getLast? tip hTip).symm
  have hDrop : chain.dropLast = front ++ o.blocks.dropLast := by
    rw [← hFront, hBlocks, ← append_assoc, dropLast_concat, dropLast_concat]
  have hTotals : projection = sumTotals o.blocks.dropLast := by
    have hBack := ProjectionTotals.plus_of_checkedSub hNext
    rw [h.totals, hBlocks, sumTotals_append] at hBack
    exact ProjectionTotals.plus_cancel hBack
  constructor
  · exact ⟨front, by rw [hDrop, Command.removed]⟩
  · rw [Command.removed, hTotals]
  · exact (dropLast_sublist _).length_le.trans h.bounded
  · intro hTruncated
    rw [Command.removed, ← h.complete hTruncated]
  · -- an emptied window that is not complete asks for a rebuild
    intro hKept hEmpty
    simp only [Command.removed] at hKept hEmpty
    have hComplete : o.isTruncated = false := by simpa [hEmpty] using hKept
    rw [← h.complete hComplete, hEmpty]

theorem Inv.adopt (h : Inv rebuilt chain) (hApply : (Event.adopt rebuilt).apply o = (true, o')) :
    Inv o' chain := by
  obtain ⟨-, -, -, rfl⟩ := adopt_accepted hApply
  exact { h with }

theorem Tracked.inv (h : Tracked o chain) : Inv o chain := by
  induction h with
  | new maxBlocks => exact ⟨suffix_rfl, rfl, Nat.zero_le _, fun _ => rfl, fun _ _ => rfl⟩
  | rejected e _ hApply ih => exact rejected_unchanged hApply ▸ ih
  | connect _ hApply ih => exact ih.connect hApply
  | disconnect _ hApply ih => exact ih.disconnect hApply
  | adopt _ _ hApply _ ih => exact ih.adopt hApply

/-- The tip of the whole chain is the tip that an accepted block continues. -/
def Extends (chain : List ProjectedBlock) (previousHash : FixedBytes 32) (block : ProjectedBlock) :
    Prop :=
  ∀ tip ∈ chain.getLast?, tip.hash = previousHash ∧ tip.height + 1 = block.height

theorem Inv.extends (h : Inv o chain) (hRebuild : o.needsRebuild = false)
    (hTip : o.extendsTip previousHash block) : Extends chain previousHash block := by
  intro tip hLast
  rcases hBlocks : o.blocks.getLast? with _ | tip'
  · -- nothing retained: then nothing was ever forgotten
    rw [h.window hRebuild (getLast?_eq_none_iff.mp hBlocks)] at hLast
    cases hLast
  · obtain ⟨front, rfl⟩ := h.suffix
    rw [getLast?_append, hBlocks, Option.some_or, Option.mem_some_iff] at hLast
    subst hLast
    rw [extendsTip, hBlocks] at hTip
    obtain ⟨hHash, hHeight⟩ := of_decide_eq_true hTip
    rw [nextHeight, Option.ite_none_right_eq_some, Option.some.injEq] at hHeight
    exact ⟨hHash, hHeight.2⟩

theorem Inv.getLast (h : Inv o chain) {tip : ProjectedBlock} (hTip : o.blocks.getLast? = some tip) :
    chain.getLast? = some tip := by
  obtain ⟨front, rfl⟩ := h.suffix
  rw [getLast?_append, hTip, Option.some_or]

/-- An observer that needs a rebuild accepts no block either way. -/
theorem blocked_of_needsRebuild (h : o.needsRebuild = true) (hAdopt : ∀ rebuilt, e ≠ .adopt rebuilt) :
    e.apply o = (false, o) := by
  cases e with
  | connect previousHash block reserves =>
    rw [Event.apply, Command.connectBlock_on, if_neg fun hAdmits => hAdmits.1 (.inl h)]
    rfl
  | disconnect hash =>
    rw [Event.apply, Command.disconnectBlock_on, if_neg fun hNeeds => hNeeds h]
    rfl
  | adopt rebuilt => exact absurd rfl (hAdopt rebuilt)

/-- Events one after the other. -/
def applyAll (o : Observer) (events : List Event) : Observer :=
  events.foldl (fun o e => (e.apply o).2) o

theorem applyAll_of_rejected {events : List Event} (h : ∀ e ∈ events, e.apply o = (false, o)) :
    applyAll o events = o := by
  induction events with
  | nil => rfl
  | cons e events ih =>
    rw [applyAll, foldl_cons, h e mem_cons_self]
    exact ih fun e' he' => h e' (mem_cons_of_mem _ he')

/-- In every run, next to the chain that forgets nothing: what is retained is its
newest part, within the limit and with exact totals; accepted events are the
events of that chain; rejected ones change nothing; and from the moment a rebuild
is needed, blocks are rejected for as long as no projection is adopted. -/
theorem retained_refine_chain (h : Tracked o chain) :
    o.blocks <:+ chain ∧ o.projection = sumTotals o.blocks ∧ o.blocks.length ≤ o.maxBlocks ∧
      (∀ previousHash block reserves o',
        (Event.connect previousHash block reserves).apply o = (true, o') →
          Extends chain previousHash block ∧ Tracked o' (chain ++ [block])) ∧
      (∀ hash o', (Event.disconnect hash).apply o = (true, o') →
        (∃ tip, chain.getLast? = some tip ∧ tip.hash = hash) ∧ Tracked o' chain.dropLast) ∧
      (∀ (e : Event) o', e.apply o = (false, o') → o' = o) ∧
      (o.needsRebuild = true → ∀ events : List Event,
        (∀ rebuilt, .adopt rebuilt ∈ events → ((Event.adopt rebuilt).apply o).1 = false) →
          (∀ e ∈ events, e.apply o = (false, o)) ∧ applyAll o events = o) := by
  have hInv : Inv o chain := h.inv
  refine ⟨hInv.suffix, hInv.totals, hInv.bounded, ?_, ?_, fun e o' => rejected_unchanged, ?_⟩
  · intro previousHash block reserves o' hApply
    obtain ⟨_, hRebuild, hTip, _, _⟩ := connect_accepted hApply
    exact ⟨hInv.extends hRebuild hTip, h.connect hApply⟩
  · intro hash o' hApply
    obtain ⟨tip, _, _, hTip, hHash, _, _⟩ := disconnect_accepted hApply
    exact ⟨⟨tip, hInv.getLast hTip, hHash⟩, h.disconnect hApply⟩
  · intro hRebuild events hAdopts
    have hRejected : ∀ e ∈ events, e.apply o = (false, o) := by
      intro e he
      by_cases hAdopt : ∃ rebuilt, e = .adopt rebuilt
      · obtain ⟨rebuilt, rfl⟩ := hAdopt
        have hFalse : (Event.adopt rebuilt).apply o = (false, ((Event.adopt rebuilt).apply o).2) :=
          Prod.ext (hAdopts rebuilt he) rfl
        rw [hFalse, rejected_unchanged hFalse]
      · exact blocked_of_needsRebuild hRebuild fun rebuilt hEq => hAdopt ⟨rebuilt, hEq⟩
    exact ⟨hRejected, applyAll_of_rejected hRejected⟩

/-- A block without transactions. -/
def emptyBlock (height : Int) : ProjectedBlock where
  hash := TxId.zero
  height := height
  transactions := 0
  slpFamilyTransactions := 0
  alpFamilyTransactions := 0
  tokenParseFailures := 0
  tokenColorFailures := 0
  cashTokenPrefixOutputs := 0
  transactionRecordFingerprint := computeTransactionRecordFingerprint 0 []
  transactionRecords := []

/-- Two blocks in a window of one, then back past its edge. -/
def pastTheWindow : List Event :=
  [.connect TxId.zero (emptyBlock 0) true, .connect TxId.zero (emptyBlock 1) true,
    .disconnect TxId.zero]

theorem accepted_apply (h : (e.apply o).1 = true) : e.apply o = (true, (e.apply o).2) :=
  Prod.ext h rfl

theorem tracked_pastTheWindow : Tracked (applyAll (.new 1) pastTheWindow) [emptyBlock 0] := by
  have h₁ := (Tracked.new 1).connect
    (accepted_apply (e := .connect TxId.zero (emptyBlock 0) true) (by decide +kernel))
  have h₂ := h₁.connect
    (accepted_apply (e := .connect TxId.zero (emptyBlock 1) true) (by decide +kernel))
  exact h₂.disconnect (accepted_apply (e := .disconnect TxId.zero) (by decide +kernel))

theorem pastTheWindow_blocked :
    Tracked (applyAll (.new 1) pastTheWindow) [emptyBlock 0] ∧
      (applyAll (.new 1) pastTheWindow).blocks <:+ [emptyBlock 0] ∧
      applyAll (applyAll (.new 1) pastTheWindow) pastTheWindow =
        applyAll (.new 1) pastTheWindow := by
  obtain ⟨hSuffix, -, -, -, -, -, hBlocked⟩ := retained_refine_chain tracked_pastTheWindow
  refine ⟨tracked_pastTheWindow, hSuffix, (hBlocked (by decide +kernel) pastTheWindow ?_).2⟩
  simp [pastTheWindow]

theorem ProjectionTotals.checkedSub_plus (h : block.recordsAreConsistent = true) :
    (t.plus block).checkedSub block = some t := by
  simp [checkedSub, checked, plus, Observer.checkedSub, h]

/-- What is retained was checked when it was added. -/
theorem Tracked.consistent (h : Tracked o chain) :
    ∀ b ∈ o.blocks, b.recordsAreConsistent = true := by
  induction h with
  | new maxBlocks => exact fun _ hb => nomatch hb
  | rejected e _ hApply ih => rwa [rejected_unchanged hApply]
  | connect _ hApply ih =>
    obtain ⟨projection, -, -, hNext, rfl⟩ := connect_accepted hApply
    obtain ⟨added, hAdded, -⟩ := Option.bind_eq_some_iff.mp hNext
    obtain ⟨_, hGuard, -⟩ := Option.bind_eq_some_iff.mp hAdded
    refine fun b hb => (mem_append.mp hb).elim (fun hb => ih b ?_) fun hb => ?_
    · split at hb
      · exact mem_of_mem_tail hb
      · exact hb
    · rw [mem_singleton.mp hb]
      simpa using hGuard
  | disconnect _ hApply ih =>
    obtain ⟨_, _, -, -, -, -, rfl⟩ := disconnect_accepted hApply
    exact fun b hb => ih b (mem_of_mem_dropLast hb)
  | adopt _ _ hApply _ ih =>
    obtain ⟨-, -, -, rfl⟩ := adopt_accepted hApply
    exact ih

/-- **The tip can be disconnected** for as long as a block is retained. -/
theorem disconnect_tip_accepted (h : Tracked o chain) (hRebuild : o.needsRebuild = false)
    {tip : ProjectedBlock} (hTip : o.blocks.getLast? = some tip) :
    ∃ o', (Event.disconnect tip.hash).apply o = (true, o') ∧ o'.blocks = o.blocks.dropLast := by
  have hTotals : o.projection = (sumTotals o.blocks.dropLast).plus tip := by
    rw [h.inv.totals, ← sumTotals_append, dropLast_append_getLast? tip hTip]
  have hSub := ProjectionTotals.checkedSub_plus (t := sumTotals o.blocks.dropLast)
    (h.consistent tip (mem_of_getLast? hTip))
  rw [Event.apply, Command.disconnectBlock_on, hRebuild, hTip, hTotals, Option.elim_some,
    if_pos rfl, hSub]
  exact ⟨_, rfl, rfl⟩

def oneBlock : Observer := applyAll (.new 1) [.connect TxId.zero (emptyBlock 0) true]

theorem oneBlock_disconnects : ∃ o', (Event.disconnect (emptyBlock 0).hash).apply oneBlock =
    (true, o') ∧ o'.blocks = oneBlock.blocks.dropLast := by
  have h : Tracked oneBlock [emptyBlock 0] := (Tracked.new 1).connect
    (accepted_apply (e := .connect TxId.zero (emptyBlock 0) true) (by decide +kernel))
  exact disconnect_tip_accepted h (by decide +kernel) (by decide +kernel)

end Observer

end Ergon
