import Ergon.Lib.Column
import Ergon.Core.Tx

/-!
# Ergon — the archival index and its gate

What the journal replay and the reconciliation of captures share: the
`RequestGate` (`chronik-lib/src/ergon_service.rs`), the operations of the indexer
(`chronik-indexer/src/indexer.rs`) as parameters, the part of `ArchivalProbe`
(`chronik-lib/src/ergon_archival.rs`) that both change, and the removal of
mempool transactions with those first that no other spends.

* `removeConflicts_fuel` — that loop ends.
-/

namespace Ergon.Archival

open Lib List

def maxU64 : Nat := 2 ^ 64 - 1

/-! ## The request gate -/

inductive Mode
  | busy
  | ready
  | failed
  | closed
deriving DecidableEq

structure Binding where
  tip : BlockRef
  generation : Nat
  revision : Nat
deriving DecidableEq

structure Gate where
  epoch : Nat
  mode : Mode
  binding : Option Binding
deriving DecidableEq

namespace Gate

/-- `begin`; `invalidate` is the same without the epoch. -/
def begin (g : Gate) : Gate :=
  if g.mode = .closed ∨ g.mode = .failed then g
  else if g.epoch = maxU64 then { g with mode := .failed, binding := none }
  else ⟨g.epoch + 1, .busy, none⟩

def publish (g : Gate) (epoch : Nat) (binding : Binding) : Gate × Bool :=
  if g.mode = .closed then (g, true)
  else if g.mode ≠ .busy ∨ g.epoch ≠ epoch then (g, false)
  else ({ g with binding := some binding, mode := .ready }, true)

def close (g : Gate) : Gate := { g with mode := .closed, binding := none }

def fail (g : Gate) : Gate :=
  { g with mode := if g.mode = .closed then .closed else .failed, binding := none }

/-- Closed to requests for good. -/
def Terminal (g : Gate) : Prop := g.mode = .failed ∨ g.mode = .closed

theorem Terminal.not_ready {g : Gate} (h : g.Terminal) : g.mode ≠ .ready := by
  rcases h with h | h <;> simp [h]

/-- What anyone but `publish` may do to the gate. -/
structure Keeps (g g' : Gate) : Prop where
  terminal : g.Terminal → g'.Terminal
  ready : g'.mode = .ready → g.mode = .ready

theorem Keeps.refl (g : Gate) : Keeps g g := ⟨id, id⟩

theorem keeps_begin (g : Gate) : Keeps g g.begin := by
  unfold begin
  split
  · exact .refl g
  · next h =>
    have hNot : ¬ g.Terminal := fun hTerm => h hTerm.symm
    split
    · exact ⟨fun hTerm => absurd hTerm hNot, nofun⟩
    · exact ⟨fun hTerm => absurd hTerm hNot, nofun⟩

theorem terminal_close (g : Gate) : g.close.Terminal := .inr rfl

theorem terminal_fail (g : Gate) : g.fail.Terminal := by
  by_cases h : g.mode = .closed
  · exact .inr (by simp [fail, h])
  · exact .inl (by simp [fail, h])

theorem Terminal.keeps {g g' : Gate} (h : g'.Terminal) : Keeps g g' :=
  ⟨fun _ => h, fun hReady => absurd hReady h.not_ready⟩

/-- Publishing does not reopen a gate that failed or closed. -/
theorem terminal_publish {g : Gate} (h : g.Terminal) (epoch : Nat) (binding : Binding) :
    (g.publish epoch binding).1.Terminal := by
  unfold publish
  rcases h with h | h
  · simp [h, Terminal]
  · simp [h, Terminal]

end Gate

/-! ## The indexer -/

structure MempoolTx where
  tx : Tx
  timeFirstSeen : Int
deriving DecidableEq

/-- A native block with where it is stored; its time and target are not read. -/
structure Block where
  hash : FixedBytes 32
  prevHash : FixedBytes 32
  height : Int
  fileNum : Nat
  dataPos : Nat
  undoPos : Nat
  size : Nat
  txs : List Tx

/-- The indexer. An operation gives the index it leaves, which may have changed,
and whether it succeeded. -/
structure IndexOps (Index Env Indexed : Type) where
  txs : Index → Column TxId MempoolTx
  blockchainInfo : Index → Env → Option BlockRef
  handleTxAddedToMempool : Index → Env → MempoolTx → Index × Bool
  handleTxRemovedFromMempool : Index → Env → TxId → Index × Bool
  handleBlockConnected : Index → Env → Indexed → Index × Bool
  handleBlockDisconnected : Index → Env → Indexed → Index × Bool
  -- the block with the times its transactions have in the index mempool
  makeChronikBlock : Index → Block → Indexed

/-! ## The probe -/

/-- What is left for `publish_capture`. -/
structure AppliedCapture where
  binding : Binding
  epoch : Nat
deriving DecidableEq

structure Probe (Index : Type) where
  index : Index
  journalActive : Bool
  journalSequence : Nat
  reconciling : Bool
  appliedCapture : Option AppliedCapture

/-! ## Operations one after the other -/

section

variable {Index α : Type}

/-- Go on only after a success. -/
def andThen (r : Index × Bool) (f : Index → Index × Bool) : Index × Bool :=
  if r.2 then f r.1 else r

variable {f : Index → Index × Bool} {r : Index × Bool}

theorem andThen_eq_true {t : Index} :
    andThen r f = (t, true) ↔ ∃ s, r = (s, true) ∧ f s = (t, true) := by
  obtain ⟨s, ok⟩ := r
  cases ok <;> simp [andThen]

theorem andThen_snd : (andThen r f).2 = true ↔ r.2 = true ∧ (f r.1).2 = true := by
  obtain ⟨s, ok⟩ := r
  cases ok <;> simp [andThen]

theorem andThen_of_true (h : r.2 = true) :
    andThen r f = f r.1 := if_pos h

/-- An operation for each of a list, up to a failure. -/
def runEach (f : Index → α → Index × Bool) : Index → List α → Index × Bool
  | s, [] => (s, true)
  | s, a :: rest => andThen (f s a) fun s' => runEach f s' rest

/-- What holds at first, and is kept by every success, holds after all of them. -/
theorem runEach_induct {f : Index → α → Index × Bool} {P : List α → Index → Prop} {l : List α}
    {s t : Index} (hInit : P [] s)
    (hStep : ∀ done a rest s s', l = done ++ a :: rest → P done s → f s a = (s', true) →
      P (done ++ [a]) s')
    (h : runEach f s l = (t, true)) : P l t := by
  -- the induction is on what is left, with what is done kept beside it
  have hLoop : ∀ (rest done : List α) (s : Index), l = done ++ rest → P done s →
      runEach f s rest = (t, true) → P l t := by
    intro rest
    induction rest with
    | nil =>
      intro done s hl hP hRun
      cases hRun
      rw [hl, append_nil]
      exact hP
    | cons a rest ih =>
      intro done s hl hP hRun
      obtain ⟨s', hFirst, hRest⟩ := andThen_eq_true.mp hRun
      exact ih (done ++ [a]) s' (by simp [hl]) (hStep done a rest s s' hl hP hFirst) hRest
  exact hLoop l [] s rfl hInit h

theorem runEach_append (f : Index → α → Index × Bool) (s : Index) (l l' : List α) :
    runEach f s (l ++ l') = andThen (runEach f s l) fun t => runEach f t l' := by
  induction l generalizing s with
  | nil => rfl
  | cons a l ih =>
    rw [cons_append, runEach, runEach]
    obtain ⟨t, ok⟩ := f s a
    cases ok with
    | false => rfl
    | true => exact ih t

section

variable [DecidableEq α] {f : Index → α → Index × Bool} (used : Index → α → Bool)
  (hOk : ∀ s a, (f s a).2 = !used s a)
  (hUsed : ∀ s a b, used (f s a).1 b = (used s b || decide (b = a)))
include hOk hUsed

/-- Where everything can be done once, a list can be done if nothing in it was
done before or is in it twice. -/
theorem runEach_once_snd (s : Index) (l : List α) :
    (runEach f s l).2 = true ↔ l.Nodup ∧ ∀ a ∈ l, used s a = false := by
  induction l generalizing s with
  | nil => simp [runEach]
  | cons a l ih =>
    have hStep : (runEach f s (a :: l)).2 = true ↔
        used s a = false ∧ (runEach f (f s a).1 l).2 = true := by
      rw [runEach, andThen, hOk]
      cases h : used s a with
      | false => simp
      | true => simp [hOk, h]
    rw [hStep, ih]
    simp only [hUsed, nodup_cons, mem_cons, Bool.or_eq_false_iff, decide_eq_false_iff_not]
    constructor
    · rintro ⟨hFirst, hNodup, hRest⟩
      refine ⟨⟨fun hIn => (hRest a hIn).2 rfl, hNodup⟩, ?_⟩
      rintro b (rfl | hb)
      · exact hFirst
      · exact (hRest b hb).1
    · rintro ⟨⟨hNot, hNodup⟩, hAll⟩
      refine ⟨hAll a (.inl rfl), hNodup, fun b hb => ⟨hAll b (.inr hb), ?_⟩⟩
      rintro rfl
      exact hNot hb

omit hOk in
theorem runEach_once_fst {s : Index} {l : List α} (h : (runEach f s l).2 = true) (b : α) :
    used (runEach f s l).1 b = true ↔ used s b = true ∨ b ∈ l := by
  induction l generalizing s with
  | nil => simp [runEach]
  | cons a l ih =>
    rw [runEach, andThen] at h ⊢
    split at h
    · next hFirst =>
      rw [if_pos hFirst, ih h, hUsed]
      simp [or_assoc]
    · next hFirst => exact absurd h hFirst

end

end

/-! ## Removing transactions of the index mempool -/

variable {Index Env Indexed : Type} (x : IndexOps Index Env Indexed)

def spends (tx : Tx) (txid : TxId) : Bool := tx.inputs.any (·.prevOut.txid = txid)

/-- Remove transactions one after the other. -/
def removeEach (env : Env) : Index → List TxId → Index × Bool :=
  runEach fun index txid => x.handleTxRemovedFromMempool index env txid

/-- The conflicts that no other conflict spends. -/
def leavesOf (txs : Column TxId MempoolTx) (remove : List TxId) : List TxId :=
  remove.filter fun id => !remove.any fun child => txs[child]?.any fun row => spends row.tx id

variable {remove : List TxId} {txs : Column TxId MempoolTx}

theorem mem_leavesOf {id : TxId} :
    id ∈ leavesOf txs remove ↔ id ∈ remove ∧
      ∀ child ∈ remove, ∀ row, txs[child]? = some row → spends row.tx id = false := by
  simp [leavesOf, Option.any_eq_false]

/-- Remove conflicts, those that no other conflict spends first. -/
def removeConflicts (env : Env) : Nat → Index → List TxId → Index × Bool
  | _, index, [] => (index, true)
  | 0, index, _ => (index, false)
  | fuel + 1, index, remove =>
    let leaves := leavesOf (x.txs index) remove
    if leaves = [] then (index, false)
    else andThen (removeEach x env index leaves) fun index' =>
      removeConflicts env fuel index' (remove.filter fun id => id ∉ leaves)

/-- Without a leaf there are fewer conflicts. -/
theorem length_without_leaves (h : leavesOf txs remove ≠ []) :
    (remove.filter fun id => id ∉ leavesOf txs remove).length < remove.length := by
  obtain ⟨leaf, hLeaf⟩ := exists_mem_of_ne_nil _ h
  refine length_filter_lt_length_iff_exists.mpr ⟨leaf, mem_of_mem_filter hLeaf, ?_⟩
  exact fun hKept => of_decide_eq_true hKept hLeaf

/-- Every round removes a conflict, so the loop ends within their number. -/
theorem removeConflicts_fuel (env : Env) {fuel fuel' : Nat} {index : Index}
    (h : remove.length ≤ fuel) (h' : remove.length ≤ fuel') :
    removeConflicts x env fuel index remove = removeConflicts x env fuel' index remove := by
  induction fuel generalizing fuel' index remove with
  | zero =>
    have hNil : remove = [] := eq_nil_of_length_eq_zero (Nat.le_zero.mp h)
    simp [hNil, removeConflicts]
  | succ fuel ih =>
    rcases remove with _ | ⟨id, rest⟩
    · simp [removeConflicts]
    · obtain ⟨fuel', rfl⟩ : ∃ k, fuel' = k + 1 := ⟨fuel' - 1, by simp at h'; omega⟩
      simp only [removeConflicts]
      split
      · rfl
      · next hLeaves =>
        have hFewer := length_without_leaves hLeaves
        congr 1
        funext index'
        exact ih (by omega) (by omega)

/-- The keys of a `BTreeSet`. -/
def sortedSet (l : List TxId) : List TxId := (Std.ExtTreeMap.ofList (l.map (·, ()))).keys

theorem nodup_sortedSet (l : List TxId) : (sortedSet l).Nodup := Std.ExtTreeMap.nodup_keys

@[simp] theorem mem_sortedSet {l : List TxId} {id : TxId} : id ∈ sortedSet l ↔ id ∈ l := by
  rw [sortedSet, Std.ExtTreeMap.mem_keys, Std.ExtTreeMap.mem_ofList]
  simp [Function.comp_def]

end Ergon.Archival
