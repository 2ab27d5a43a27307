import Ergon.Lib.Machine
import Ergon.Core.Tx

/-!
# Ergon — query admission

`RustRuntimeHandle` (`chronik/node-observer.cpp`) with its `QueryAdmission` gate
(`chronik/query-admission.h`) as a machine: threads run `Query`, `QueryToken`,
`Mutate` and `Destroy`, while admission is closed and the node's tip moves at any
time. Reads of the index and of node storage are parameters; they may also
depend on an environment that differs from read to read.

* `ReadsTo`, `Computed` — a query whose reads are all made on one index;
* `answers_run` — every answer is one of these, for a tip that was active.
-/

namespace Ergon.Admission

open Lib

/-! ## What is read -/

structure RuntimeTip where
  success : Nat
  errorCode : Nat
  present : Nat
  height : Int
  hash : FixedBytes 32

structure RuntimeTxLocation where
  success : Nat
  errorCode : Nat
  present : Nat
  hash : FixedBytes 32

/-- A query that fills a buffer; with no buffer it only tells the length. -/
structure RuntimePayload where
  success : Nat
  errorCode : Nat
  present : Nat
  payloadLen : Nat
  output : Bytes

structure HostTxResponse where
  status : Nat
  payload : Option Bytes
deriving DecidableEq

def unavailable : HostTxResponse := ⟨503, none⟩

inductive Query
  | tx (txid : FixedBytes 32)
  | token (tokenId : FixedBytes 32)
deriving DecidableEq

/-- The runtime's queries of the index, and what comes from node storage. -/
structure Runtime (Index Env Confirmed : Type) where
  tip : Index → Env → RuntimeTip
  txLocation : Index → Env → FixedBytes 32 → RuntimeTxLocation
  -- the last argument is the size of the buffer
  confirmedTx : Index → Env → Confirmed → Nat → RuntimePayload
  tokenInfo : Index → Env → FixedBytes 32 → Nat → RuntimePayload
  readConfirmedTx : Env → FixedBytes 32 → FixedBytes 32 → Option Confirmed
  -- what `EncodeConfirmedTxProto` checks before it asks the runtime
  encodable : Confirmed → Bool

def maxQueryBytes : Nat := 64 * 1024 * 1024

variable {Index Env Confirmed : Type}

/-- The reads of a query, after its first tip check. -/
inductive Reading (Confirmed : Type)
  | lookup
  | storage (hash : FixedBytes 32)
  | probe (c : Confirmed)
  | copy (c : Confirmed) (len : Nat)
  | copyToken (len : Nat)

inductive ReadResult (Confirmed : Type)
  | next (r : Reading Confirmed)
  | respond (a : HostTxResponse)
  | fail

/-- One read of a query, from an index. -/
def readStep (rt : Runtime Index Env Confirmed) (index : Index) (env : Env) :
    Query → Reading Confirmed → ReadResult Confirmed
  | .tx txid, .lookup =>
    let location := rt.txLocation index env txid
    if location.success ≠ 1 ∨ location.errorCode ≠ 0 then .fail
    else if location.present = 0 then .respond ⟨404, none⟩
    else .next (.storage location.hash)
  | .tx txid, .storage hash =>
    match rt.readConfirmedTx env hash txid with
    | none => .fail
    | some c => .next (.probe c)
  | .tx _, .probe c =>
    let probe := rt.confirmedTx index env c 0
    if rt.encodable c = false ∨ probe.success ≠ 1 ∨ probe.errorCode ≠ 0 ∨ probe.present ≠ 1 ∨
        probe.payloadLen = 0 ∨ maxQueryBytes < probe.payloadLen then .fail
    else .next (.copy c probe.payloadLen)
  | .tx _, .copy c len =>
    let copied := rt.confirmedTx index env c len
    if copied.success ≠ 1 ∨ copied.errorCode ≠ 0 ∨ copied.present ≠ 1 ∨ copied.payloadLen ≠ len then
      .fail
    else .respond ⟨200, some copied.output⟩
  | .token tokenId, .lookup =>
    let sized := rt.tokenInfo index env tokenId 0
    if sized.success ≠ 1 ∨ sized.errorCode ≠ 0 then .fail
    else if sized.present = 0 ∧ sized.payloadLen = 0 then .respond ⟨404, none⟩
    else if sized.present ≠ 1 ∨ sized.payloadLen = 0 ∨ maxQueryBytes < sized.payloadLen then .fail
    else .next (.copyToken sized.payloadLen)
  | .token tokenId, .copyToken len =>
    let copied := rt.tokenInfo index env tokenId len
    if copied.success ≠ 1 ∨ copied.errorCode ≠ 0 ∨ copied.present ≠ 1 ∨ copied.payloadLen ≠ len then
      .fail
    else .respond ⟨200, some copied.output⟩
  -- a query makes no reads of the other kind
  | _, _ => .fail

/-- The reads up to `r` were all made on `index`. -/
inductive ReadsTo (rt : Runtime Index Env Confirmed) (index : Index) (q : Query) :
    Reading Confirmed → Prop
  | start : ReadsTo rt index q .lookup
  | next {r r' : Reading Confirmed} (env : Env) : ReadsTo rt index q r →
      readStep rt index env q r = .next r' → ReadsTo rt index q r'

/-- The answer comes from reads that were all made on `index`. -/
def Computed (rt : Runtime Index Env Confirmed) (index : Index) (q : Query) (a : HostTxResponse) :
    Prop :=
  ∃ r env, ReadsTo rt index q r ∧ readStep rt index env q r = .respond a

/-! ## The state -/

structure Shared (Index : Type) where
  index : Index
  -- how many times the index was written
  mutations : Nat
  -- the tip of the active chain, and who holds `cs_main`
  active : Option BlockRef
  csMain : Option Nat
  -- `QueryAdmission`
  mutex : Option Nat
  closed : Bool
  closing : Bool
  -- `m_runtime` is not null
  runtime : Bool

/-- What a query has seen, for the statements. -/
structure Visit where
  tip : RuntimeTip
  -- the writes made before its first read
  since : Nat
  firstActive : Option BlockRef

/-- What the last check of a query has seen. -/
structure Evidence where
  query : Query
  visit : Visit
  lastActive : Option BlockRef
  -- whether admission was closed when the check began, and when it was loaded
  closedBefore : Bool
  closedLast : Bool

/-- `TipIsCurrent`, for an active tip and the state of the gate. -/
def tipIsCurrent (tip : RuntimeTip) (active : Option BlockRef) (closed : Bool) : Bool :=
  !closed && tip.success == 1 && tip.errorCode == 0 && tip.present == 1 &&
    active.any fun b => b.height == tip.height && b.hash == tip.hash

inductive QueryPc (Confirmed : Type)
  -- `TryQuery`; a null pointer is `none`
  | tryLock (key : Option Query)
  | tryOpen (key : Option Query)
  -- the gate is held from here on
  | checkPointers (key : Option Query)
  | checkOpen (q : Query)
  | readTip (q : Query)
  | firstActive (q : Query) (tip : RuntimeTip) (since : Nat)
  | firstOpen (q : Query) (v : Visit)
  | read (q : Query) (v : Visit) (r : Reading Confirmed)
  | lastActive (q : Query) (v : Visit) (a : HostTxResponse)
  | lastOpen (a : HostTxResponse) (e : Evidence)
  | unlock (a : HostTxResponse) (e : Option Evidence)

inductive Mutate
  | lock
  | checkClosing
  | checkRuntime
  | run
  | unlock

inductive Destroy
  | close
  | storeClosing
  | lock
  | exchange
  | unlock (wasNull : Bool)
  | destroy

inductive Thread (Confirmed : Type)
  | idle
  | query (pc : QueryPc Confirmed)
  | mutate (pc : Mutate)
  | destroy (pc : Destroy)

/-- A returned answer, with the index and its writes at that time. -/
structure Answer (Index : Type) where
  response : HostTxResponse
  index : Index
  mutations : Nat
  evidence : Option Evidence

structure State (Index Confirmed : Type) where
  shared : Shared Index
  threads : Nat → Thread Confirmed
  answers : List (Answer Index)

/-- What the environment gives to a step. -/
structure Input (Index Env : Type) where
  env : Env
  -- an exception, or a lock that is not obtained
  throws : Bool
  -- the index that a mutation writes, and whether it writes again
  index : Index
  more : Bool

inductive Call
  | query (key : Option Query)
  | mutate
  | destroy

def Call.start : Call → Thread Confirmed
  | .query key => .query (.tryLock key)
  | .mutate => .mutate .lock
  | .destroy => .destroy .close

/-! ## Steps -/

/-- One step of `Query` or `QueryToken`, up to its return. -/
def QueryPc.step (rt : Runtime Index Env Confirmed) (t : Nat) (sh : Shared Index)
    (i : Input Index Env) : QueryPc Confirmed → Option (Shared Index × QueryPc Confirmed)
  | .tryLock key =>
    if sh.mutex = none ∧ i.throws = false then some ({ sh with mutex := some t }, .tryOpen key)
    else none
  | .tryOpen key =>
    some (sh, if sh.closed then .unlock unavailable none else .checkPointers key)
  | .checkPointers none => some (sh, .unlock unavailable none)
  | .checkPointers (some q) =>
    some (sh, if sh.runtime then .checkOpen q else .unlock unavailable none)
  | .checkOpen q => some (sh, if sh.closed then .unlock unavailable none else .readTip q)
  | .readTip q =>
    if i.throws then some (sh, .unlock unavailable none)
    else some (sh, .firstActive q (rt.tip sh.index i.env) sh.mutations)
  | .firstActive q tip since =>
    if sh.csMain = none then
      some ({ sh with csMain := some t }, .firstOpen q ⟨tip, since, sh.active⟩)
    else none
  | .firstOpen q v =>
    some ({ sh with csMain := none },
      if tipIsCurrent v.tip v.firstActive sh.closed then .read q v .lookup
      else .unlock unavailable none)
  | .read q v r =>
    if i.throws then some (sh, .unlock unavailable none)
    else
      match readStep rt sh.index i.env q r with
      | .next r' => some (sh, .read q v r')
      | .respond a => some (sh, .lastActive q v a)
      | .fail => some (sh, .unlock unavailable none)
  | .lastActive q v a =>
    if sh.csMain = none then
      some ({ sh with csMain := some t }, .lastOpen a ⟨q, v, sh.active, sh.closed, sh.closed⟩)
    else none
  | .lastOpen a e =>
    let e := { e with closedLast := sh.closed }
    some ({ sh with csMain := none },
      if tipIsCurrent e.visit.tip e.lastActive sh.closed then .unlock a (some e)
      else .unlock unavailable (some e))
  | .unlock _ _ => none

/-- One step of `Mutate`, `none` at its end. -/
def Mutate.step (t : Nat) (sh : Shared Index) (i : Input Index Env) :
    Mutate → Option (Shared Index × Option Mutate)
  | .lock => if sh.mutex = none then some ({ sh with mutex := some t }, some .checkClosing) else none
  | .checkClosing => some (sh, some (if sh.closing then .unlock else .checkRuntime))
  | .checkRuntime => some (sh, some (if sh.runtime then .run else .unlock))
  -- the callable may write the index any number of times
  | .run =>
    if i.more then some ({ sh with index := i.index, mutations := sh.mutations + 1 }, some .run)
    else some (sh, some .unlock)
  | .unlock => some ({ sh with mutex := none }, none)

/-- One step of `Destroy`, `none` at its end. -/
def Destroy.step (t : Nat) (sh : Shared Index) (i : Input Index Env) :
    Destroy → Option (Shared Index × Option Destroy)
  | .close => some ({ sh with closed := true }, some .storeClosing)
  | .storeClosing => some ({ sh with closing := true }, some .lock)
  | .lock => if sh.mutex = none then some ({ sh with mutex := some t }, some .exchange) else none
  | .exchange => some ({ sh with runtime := false }, some (.unlock (!sh.runtime)))
  | .unlock wasNull =>
    some ({ sh with mutex := none }, if wasNull then none else some .destroy)
  -- the runtime is torn down without the gate
  | .destroy => some ({ sh with index := i.index, mutations := sh.mutations + 1 }, none)

inductive Action (Index Env : Type)
  | call (t : Nat) (c : Call)
  | thread (t : Nat) (i : Input Index Env)
  -- `CloseQueries`, from any other thread
  | close
  -- the node's active tip changes
  | native (tip : Option BlockRef)

namespace State

variable (s : State Index Confirmed)

def setThread (t : Nat) (sh : Shared Index) (th : Thread Confirmed) : State Index Confirmed :=
  { s with shared := sh, threads := Function.update s.threads t th }

/-- A query returns. -/
def answer (t : Nat) (sh : Shared Index) (a : HostTxResponse) (e : Option Evidence) :
    State Index Confirmed :=
  { s.setThread t sh .idle with answers := ⟨a, s.shared.index, s.shared.mutations, e⟩ :: s.answers }

end State

/-- One step; `none` if the action is not possible now. -/
def step (rt : Runtime Index Env Confirmed) (s : State Index Confirmed) :
    Action Index Env → Option (State Index Confirmed)
  | .call t c =>
    match s.threads t with
    | .idle => some (s.setThread t s.shared c.start)
    | _ => none
  | .thread t i =>
    match s.threads t with
    | .idle => none
    -- the gate is taken by another thread, or not obtained
    | .query (.tryLock key) =>
      match QueryPc.step rt t s.shared i (.tryLock key) with
      | some r => some (s.setThread t r.1 (.query r.2))
      | none => some (s.answer t s.shared unavailable none)
    | .query (.unlock a e) => some (s.answer t { s.shared with mutex := none } a e)
    | .query pc => (pc.step rt t s.shared i).map fun r => s.setThread t r.1 (.query r.2)
    | .mutate pc =>
      (pc.step t s.shared i).map fun r => s.setThread t r.1 (r.2.elim .idle .mutate)
    | .destroy pc =>
      (pc.step t s.shared i).map fun r => s.setThread t r.1 (r.2.elim .idle .destroy)
  | .close => some { s with shared := { s.shared with closed := true } }
  | .native tip =>
    if s.shared.csMain = none then some { s with shared := { s.shared with active := tip } } else none

/-- A runtime that was bootstrapped, before the first query. -/
def init (index : Index) (active : Option BlockRef) : State Index Confirmed where
  shared := ⟨index, 0, active, none, none, false, false, true⟩
  threads _ := .idle
  answers := []

/-! ## Invariant -/

variable {rt : Runtime Index Env Confirmed} {sh sh' : Shared Index} {t u : Nat}

/-- The tip that was read is an active one. -/
def Matches (tip : RuntimeTip) (active : Option BlockRef) : Prop :=
  tip.success = 1 ∧ tip.errorCode = 0 ∧ tip.present = 1 ∧ active = some ⟨tip.height, tip.hash⟩

theorem tipIsCurrent_iff {tip : RuntimeTip} {active : Option BlockRef} {closed : Bool} :
    tipIsCurrent tip active closed = true ↔ closed = false ∧ Matches tip active := by
  have hBlock : (active.any fun b => b.height == tip.height && b.hash == tip.hash) = true ↔
      active = some ⟨tip.height, tip.hash⟩ := by
    cases active with
    | none => simp
    | some b =>
      cases b
      simp [Subtype.ext_iff]
  simp only [tipIsCurrent, Matches, Bool.and_eq_true, Bool.not_eq_true', beq_iff_eq, hBlock, and_assoc]

/-- A query between its first read and its answer: it holds the gate, the runtime
is there, and the index was not written since. -/
structure Pinned (rt : Runtime Index Env Confirmed) (t : Nat) (sh : Shared Index) (tip : RuntimeTip)
    (since : Nat) : Prop where
  mutex : sh.mutex = some t
  runtime : sh.runtime = true
  since_eq : since = sh.mutations
  tip_read : ∃ env, rt.tip sh.index env = tip

/-- What is known of an answer that is not a refusal. -/
structure Vouched (rt : Runtime Index Env Confirmed) (index : Index) (mutations : Nat)
    (a : HostTxResponse) (e : Evidence) : Prop where
  computed : Computed rt index e.query a
  unwritten : e.visit.since = mutations
  tip_read : ∃ env, rt.tip index env = e.visit.tip
  first : Matches e.visit.tip e.visit.firstActive
  last : Matches e.visit.tip e.lastActive
  not_closed_before : e.closedBefore = false
  not_closed : e.closedLast = false

def QueryOk (rt : Runtime Index Env Confirmed) (t : Nat) (sh : Shared Index) :
    QueryPc Confirmed → Prop
  | .tryLock _ => True
  | .tryOpen _ | .checkPointers _ => sh.mutex = some t
  | .checkOpen _ | .readTip _ => sh.mutex = some t ∧ sh.runtime = true
  | .firstActive _ tip since => Pinned rt t sh tip since
  | .firstOpen _ v => Pinned rt t sh v.tip v.since
  | .read q v r => Pinned rt t sh v.tip v.since ∧ Matches v.tip v.firstActive ∧
      ReadsTo rt sh.index q r
  | .lastActive q v a => Pinned rt t sh v.tip v.since ∧ Matches v.tip v.firstActive ∧
      Computed rt sh.index q a
  | .lastOpen a e => Pinned rt t sh e.visit.tip e.visit.since ∧
      Matches e.visit.tip e.visit.firstActive ∧ Computed rt sh.index e.query a ∧
      (e.closedBefore = true → sh.closed = true)
  | .unlock a e => sh.mutex = some t ∧ (a = unavailable ∨
      ∃ ev, e = some ev ∧ sh.runtime = true ∧ Vouched rt sh.index sh.mutations a ev)

def Mutate.Ok (t : Nat) (sh : Shared Index) : Mutate → Prop
  | .lock => True
  | _ => sh.mutex = some t

def Destroy.Ok (t : Nat) (sh : Shared Index) : Destroy → Prop
  | .close | .storeClosing | .lock => True
  | .exchange => sh.mutex = some t
  | .unlock _ => sh.mutex = some t ∧ sh.runtime = false
  | .destroy => sh.runtime = false

def ThreadOk (rt : Runtime Index Env Confirmed) (t : Nat) (sh : Shared Index) :
    Thread Confirmed → Prop
  | .idle => True
  | .query pc => QueryOk rt t sh pc
  | .mutate pc => pc.Ok t sh
  | .destroy pc => pc.Ok t sh

/-- What a thread relies on: who holds the gate keeps it, and keeps the index as
long as there is a runtime. -/
structure Rely (t : Nat) (sh sh' : Shared Index) : Prop where
  mutex : sh.mutex = some t → sh'.mutex = some t
  runtime : sh.mutex = some t → sh.runtime = true → sh'.runtime = true
  index : sh.mutex = some t → sh.runtime = true → sh'.index = sh.index
  mutations : sh.mutex = some t → sh.runtime = true → sh'.mutations = sh.mutations
  closed : sh.closed = true → sh'.closed = true
  gone : sh.runtime = false → sh'.runtime = false

theorem Rely.refl : Rely t sh sh := ⟨id, fun _ => id, fun _ _ => rfl, fun _ _ => rfl, id, id⟩

theorem Pinned.rely {tip : RuntimeTip} {since : Nat} (h : Pinned rt t sh tip since)
    (hRely : Rely t sh sh') : Pinned rt t sh' tip since where
  mutex := hRely.mutex h.mutex
  runtime := hRely.runtime h.mutex h.runtime
  since_eq := by rw [hRely.mutations h.mutex h.runtime, h.since_eq]
  tip_read := by rw [hRely.index h.mutex h.runtime]; exact h.tip_read

variable {pc : QueryPc Confirmed}

theorem QueryOk.rely (h : QueryOk rt t sh pc) (hRely : Rely t sh sh') : QueryOk rt t sh' pc := by
  cases pc with
  | tryLock key => trivial
  | tryOpen key | checkPointers key => exact hRely.mutex h
  | checkOpen q | readTip q => exact ⟨hRely.mutex h.1, hRely.runtime h.1 h.2⟩
  | firstActive q tip since => exact Pinned.rely h hRely
  | firstOpen q v => exact Pinned.rely h hRely
  | read q v r | lastActive q v a =>
    obtain ⟨hPinned, hFirst, hReads⟩ := h
    rw [← hRely.index hPinned.mutex hPinned.runtime] at hReads
    exact ⟨hPinned.rely hRely, hFirst, hReads⟩
  | lastOpen a e =>
    obtain ⟨hPinned, hFirst, hComputed, hClosed⟩ := h
    rw [← hRely.index hPinned.mutex hPinned.runtime] at hComputed
    exact ⟨hPinned.rely hRely, hFirst, hComputed, fun hb => hRely.closed (hClosed hb)⟩
  | unlock a e =>
    obtain ⟨hMutex, hRefused | ⟨ev, hEv, hRuntime, hVouched⟩⟩ := h
    · exact ⟨hRely.mutex hMutex, .inl hRefused⟩
    · refine ⟨hRely.mutex hMutex, .inr ⟨ev, hEv, hRely.runtime hMutex hRuntime, ?_⟩⟩
      rwa [hRely.index hMutex hRuntime, hRely.mutations hMutex hRuntime]

variable {th : Thread Confirmed}

theorem ThreadOk.rely (h : ThreadOk rt t sh th) (hRely : Rely t sh sh') : ThreadOk rt t sh' th := by
  cases th with
  | idle => trivial
  | query pc => exact QueryOk.rely h hRely
  | mutate pc =>
    cases pc with
    | lock => trivial
    | _ => exact hRely.mutex h
  | destroy pc =>
    cases pc with
    | close | storeClosing | lock => trivial
    | exchange => exact hRely.mutex h
    | unlock wasNull => exact ⟨hRely.mutex h.1, hRely.gone h.2⟩
    | destroy => exact hRely.gone h

/-! ## Steps keep the invariant -/

/-- What a step of `t` leaves to the others. -/
def Guar (t : Nat) (sh sh' : Shared Index) : Prop := ∀ u, u ≠ t → Rely u sh sh'

theorem Guar.refl : Guar t sh sh := fun _ _ => .refl

theorem guar_lock (hFree : sh.mutex = none) : Guar t sh { sh with mutex := some t } := by
  intro u _
  have hAbs : sh.mutex ≠ some u := by simp [hFree]
  exact ⟨fun hm => absurd hm hAbs, fun _ => id, fun _ _ => rfl, fun _ _ => rfl, id, id⟩

/-- Only the holder of the gate is concerned. -/
theorem not_held (hMutex : sh.mutex = some t) (hu : u ≠ t) : sh.mutex ≠ some u := by
  rw [hMutex]
  exact fun hEq => hu (Option.some.inj hEq).symm

theorem guar_unlock (hMutex : sh.mutex = some t) : Guar t sh { sh with mutex := none } :=
  fun _ hu => ⟨fun hm => absurd hm (not_held hMutex hu), fun _ => id, fun _ _ => rfl,
    fun _ _ => rfl, id, id⟩

theorem guar_csMain (c : Option Nat) : Guar t sh { sh with csMain := c } :=
  fun _ _ => ⟨id, fun _ => id, fun _ _ => rfl, fun _ _ => rfl, id, id⟩

theorem guar_write (hMutex : sh.mutex = some t) (index : Index) :
    Guar t sh { sh with index := index, mutations := sh.mutations + 1 } := by
  intro u hu
  have hAbs := not_held hMutex hu
  exact ⟨id, fun _ => id, fun hm => absurd hm hAbs, fun hm => absurd hm hAbs, id, id⟩

variable {i : Input Index Env}

theorem QueryPc.step_ok (hOk : QueryOk rt t sh pc) {r : Shared Index × QueryPc Confirmed}
    (hStep : pc.step rt t sh i = some r) : Guar t sh r.1 ∧ QueryOk rt t r.1 r.2 := by
  have hRefuse : ∀ sh₁ : Shared Index, sh₁.mutex = some t →
      QueryOk rt t sh₁ (.unlock unavailable none : QueryPc Confirmed) :=
    fun _ hMutex => ⟨hMutex, .inl rfl⟩
  cases pc with
  | tryLock key =>
    simp only [QueryPc.step] at hStep
    split at hStep
    · next hFree =>
      cases hStep
      exact ⟨guar_lock hFree.1, rfl⟩
    · cases hStep
  | tryOpen key =>
    cases hStep
    refine ⟨.refl, ?_⟩
    dsimp only
    split
    · exact hRefuse _ hOk
    · exact hOk
  | checkPointers key =>
    cases key with
    | none =>
      cases hStep
      exact ⟨.refl, hRefuse _ hOk⟩
    | some q =>
      cases hStep
      refine ⟨.refl, ?_⟩
      dsimp only
      split
      · next hRuntime => exact ⟨hOk, hRuntime⟩
      · exact hRefuse _ hOk
  | checkOpen q =>
    cases hStep
    refine ⟨.refl, ?_⟩
    dsimp only
    split
    · exact hRefuse _ hOk.1
    · exact hOk
  | readTip q =>
    simp only [QueryPc.step] at hStep
    split at hStep
    · cases hStep
      exact ⟨.refl, hRefuse _ hOk.1⟩
    · cases hStep
      exact ⟨.refl, hOk.1, hOk.2, rfl, i.env, rfl⟩
  | firstActive q tip since =>
    simp only [QueryPc.step] at hStep
    split at hStep
    · cases hStep
      exact ⟨guar_csMain _, { hOk with }⟩
    · cases hStep
  | firstOpen q v =>
    cases hStep
    refine ⟨guar_csMain _, ?_⟩
    dsimp only
    split
    · next hCurrent =>
      exact ⟨{ hOk with }, (tipIsCurrent_iff.mp hCurrent).2, .start⟩
    · exact hRefuse _ hOk.mutex
  | read q v r' =>
    obtain ⟨hPinned, hFirst, hReads⟩ := hOk
    simp only [QueryPc.step] at hStep
    split at hStep
    · cases hStep
      exact ⟨.refl, hRefuse _ hPinned.mutex⟩
    · split at hStep
      · next hRead =>
        cases hStep
        exact ⟨.refl, hPinned, hFirst, .next i.env hReads hRead⟩
      · next hRead =>
        cases hStep
        exact ⟨.refl, hPinned, hFirst, r', i.env, hReads, hRead⟩
      · cases hStep
        exact ⟨.refl, hRefuse _ hPinned.mutex⟩
  | lastActive q v a =>
    obtain ⟨hPinned, hFirst, hComputed⟩ := hOk
    simp only [QueryPc.step] at hStep
    split at hStep
    · cases hStep
      exact ⟨guar_csMain _, { hPinned with }, hFirst, hComputed, id⟩
    · cases hStep
  | lastOpen a e =>
    obtain ⟨hPinned, hFirst, hComputed, hClosed⟩ := hOk
    cases hStep
    refine ⟨guar_csMain _, ?_⟩
    dsimp only
    split
    · next hCurrent =>
      obtain ⟨hOpen, hLast⟩ := tipIsCurrent_iff.mp hCurrent
      -- the gate never opens again, so it was open when the check began
      have hBefore : e.closedBefore = false := by
        by_contra hb
        rw [hClosed (by simpa using hb)] at hOpen
        cases hOpen
      exact ⟨hPinned.mutex, .inr ⟨_, rfl, hPinned.runtime, hComputed, hPinned.since_eq,
        hPinned.tip_read, hFirst, hLast, hBefore, hOpen⟩⟩
    · exact ⟨hPinned.mutex, .inl rfl⟩
  | unlock a e => cases hStep

theorem Mutate.step_ok {pc : Mutate} (hOk : pc.Ok t sh) {r : Shared Index × Option Mutate}
    (hStep : pc.step t sh i = some r) : Guar t sh r.1 ∧ ∀ pc' ∈ r.2, pc'.Ok t r.1 := by
  cases pc with
  | lock =>
    simp only [Mutate.step] at hStep
    split at hStep
    · next hFree =>
      cases hStep
      refine ⟨guar_lock hFree, ?_⟩
      rintro _ ⟨⟩
      rfl
    · cases hStep
  | checkClosing | checkRuntime =>
    cases hStep
    refine ⟨.refl, ?_⟩
    rintro _ ⟨⟩
    split <;> exact hOk
  | run =>
    simp only [Mutate.step] at hStep
    split at hStep
    · cases hStep
      refine ⟨guar_write hOk _, ?_⟩
      rintro _ ⟨⟩
      exact hOk
    · cases hStep
      refine ⟨.refl, ?_⟩
      rintro _ ⟨⟩
      exact hOk
  | unlock =>
    cases hStep
    exact ⟨guar_unlock hOk, nofun⟩

theorem Destroy.step_ok {pc : Destroy} (hOk : pc.Ok t sh) {r : Shared Index × Option Destroy}
    (hStep : pc.step t sh i = some r) : Guar t sh r.1 ∧ ∀ pc' ∈ r.2, pc'.Ok t r.1 := by
  cases pc with
  | close =>
    cases hStep
    refine ⟨fun _ _ => ⟨id, fun _ => id, fun _ _ => rfl, fun _ _ => rfl, fun _ => rfl, id⟩, ?_⟩
    rintro _ ⟨⟩
    trivial
  | storeClosing =>
    cases hStep
    refine ⟨fun _ _ => ⟨id, fun _ => id, fun _ _ => rfl, fun _ _ => rfl, id, id⟩, ?_⟩
    rintro _ ⟨⟩
    trivial
  | lock =>
    simp only [Destroy.step] at hStep
    split at hStep
    · next hFree =>
      cases hStep
      refine ⟨guar_lock hFree, ?_⟩
      rintro _ ⟨⟩
      rfl
    · cases hStep
  | exchange =>
    cases hStep
    refine ⟨fun u hu => ?_, ?_⟩
    · have hAbs := not_held hOk hu
      exact ⟨id, fun hm => absurd hm hAbs, fun _ _ => rfl, fun _ _ => rfl, id, fun _ => rfl⟩
    · rintro _ ⟨⟩
      exact ⟨hOk, rfl⟩
  | unlock wasNull =>
    cases hStep
    refine ⟨guar_unlock hOk.1, fun pc' hpc => ?_⟩
    cases wasNull with
    | true => cases hpc
    | false =>
      cases hpc
      exact hOk.2
  | destroy =>
    cases hStep
    -- whoever holds the gate now has found no runtime
    have hGone : ¬ sh.runtime = true := by
      have hFalse : sh.runtime = false := hOk
      simp [hFalse]
    exact ⟨fun _ _ => ⟨id, fun _ => id, fun _ hr => absurd hr hGone, fun _ hr => absurd hr hGone,
      id, id⟩, nofun⟩

/-- What is known of a returned answer. -/
def AnswerOk (rt : Runtime Index Env Confirmed) (a : Answer Index) : Prop :=
  a.response.status = 200 ∨ a.response.status = 404 →
    ∃ e, a.evidence = some e ∧ Vouched rt a.index a.mutations a.response e

structure Inv (rt : Runtime Index Env Confirmed) (s : State Index Confirmed) : Prop where
  threads : ∀ t, ThreadOk rt t s.shared (s.threads t)
  answers : ∀ a ∈ s.answers, AnswerOk rt a

variable {s s' : State Index Confirmed}

theorem Inv.setThread (h : Inv rt s) (hGuar : Guar t s.shared sh) (hOk : ThreadOk rt t sh th) :
    Inv rt (s.setThread t sh th) where
  threads u := by
    by_cases hu : u = t
    · subst hu
      simpa [State.setThread] using hOk
    · simpa [State.setThread, Function.update_of_ne hu] using (h.threads u).rely (hGuar u hu)
  answers := h.answers

theorem Inv.answer (h : Inv rt s) (hGuar : Guar t s.shared sh) {a : HostTxResponse}
    {e : Option Evidence} (hAnswer : a = unavailable ∨
      ∃ ev, e = some ev ∧ Vouched rt s.shared.index s.shared.mutations a ev) :
    Inv rt (s.answer t sh a e) where
  threads := by
    have hIdle : ThreadOk rt t sh .idle := trivial
    exact (h.setThread hGuar hIdle).threads
  answers a' ha' := by
    rcases List.mem_cons.mp ha' with rfl | hOld
    · intro hStatus
      rcases hAnswer with rfl | hVouched
      · simp [unavailable] at hStatus
      · exact hVouched
    · exact h.answers a' hOld

theorem Inv.step {a : Action Index Env} (h : Inv rt s) (hStep : step rt s a = some s') :
    Inv rt s' := by
  cases a with
  | call t c =>
    simp only [Admission.step] at hStep
    split at hStep
    · cases hStep
      refine h.setThread .refl ?_
      cases c <;> trivial
    · cases hStep
  | thread t i =>
    have hThread := h.threads t
    simp only [Admission.step] at hStep
    split at hStep
    · cases hStep
    · next key hAt =>
      rw [hAt] at hThread
      split at hStep
      · next r hTry =>
        cases hStep
        have hQuery : QueryOk rt t s.shared (.tryLock key) := hThread
        obtain ⟨hGuar, hOk⟩ := QueryPc.step_ok hQuery hTry
        exact h.setThread hGuar hOk
      · cases hStep
        exact h.answer .refl (.inl rfl)
    · next a e hAt =>
      rw [hAt] at hThread
      obtain ⟨hMutex, hAnswer⟩ := hThread
      cases hStep
      refine h.answer (guar_unlock hMutex) (hAnswer.imp_right ?_)
      rintro ⟨ev, hEv, _, hVouched⟩
      exact ⟨ev, hEv, hVouched⟩
    · next pc _ _ hAt =>
      rw [hAt] at hThread
      obtain ⟨r, hQuery, rfl⟩ := Option.map_eq_some_iff.mp hStep
      obtain ⟨hGuar, hOk⟩ := QueryPc.step_ok hThread hQuery
      exact h.setThread hGuar hOk
    · next pc hAt =>
      rw [hAt] at hThread
      obtain ⟨r, hMutate, rfl⟩ := Option.map_eq_some_iff.mp hStep
      obtain ⟨hGuar, hOk⟩ := Mutate.step_ok hThread hMutate
      refine h.setThread hGuar ?_
      cases hr : r.2 with
      | none => trivial
      | some pc' => exact hOk pc' hr
    · next pc hAt =>
      rw [hAt] at hThread
      obtain ⟨r, hDestroy, rfl⟩ := Option.map_eq_some_iff.mp hStep
      obtain ⟨hGuar, hOk⟩ := Destroy.step_ok hThread hDestroy
      refine h.setThread hGuar ?_
      cases hr : r.2 with
      | none => trivial
      | some pc' => exact hOk pc' hr
  | close =>
    cases hStep
    exact ⟨fun t => (h.threads t).rely
      ⟨id, fun _ => id, fun _ _ => rfl, fun _ _ => rfl, fun _ => rfl, id⟩, h.answers⟩
  | native tip =>
    simp only [Admission.step] at hStep
    split at hStep
    · cases hStep
      exact ⟨fun t => (h.threads t).rely
        ⟨id, fun _ => id, fun _ _ => rfl, fun _ _ => rfl, id, id⟩, h.answers⟩
    · cases hStep

/-! ## Main result -/

theorem answers_run {index : Index} {active : Option BlockRef}
    (h : Reaches (step rt) (init index active) s) :
    ∀ a ∈ s.answers, a.response.status = 200 ∨ a.response.status = 404 → ∃ e,
      a.evidence = some e ∧
      -- one index, not written from the first read to the return
      Computed rt a.index e.query a.response ∧ e.visit.since = a.mutations ∧
      -- whose tip was the active one at both checks
      (∃ env, rt.tip a.index env = e.visit.tip) ∧ Matches e.visit.tip e.visit.firstActive ∧
      Matches e.visit.tip e.lastActive ∧
      -- and a gate that was open at the last check, and when that began
      e.closedLast = false ∧ e.closedBefore = false := by
  have hInit : Inv rt (init index active) := ⟨fun _ => trivial, fun _ ha => (nomatch ha)⟩
  have hInv : Inv rt s := h.invariant hInit fun _ _ _ hInv hStep => hInv.step hStep
  intro a ha hStatus
  obtain ⟨e, hEvidence, hVouched⟩ := hInv.answers a ha hStatus
  exact ⟨e, hEvidence, hVouched.computed, hVouched.unwritten, hVouched.tip_read, hVouched.first,
    hVouched.last, hVouched.not_closed, hVouched.not_closed_before⟩

/-! An index with one token, at the node's tip. -/

def sampleHash : FixedBytes 32 := .fill 0

def sampleRuntime : Runtime Bytes Unit Unit where
  tip _ _ := ⟨1, 0, 1, 5, sampleHash⟩
  txLocation _ _ _ := ⟨1, 0, 0, sampleHash⟩
  confirmedTx _ _ _ _ := ⟨0, 1, 0, 0, []⟩
  tokenInfo index _ _ _ := ⟨1, 0, 1, index.length, index⟩
  readConfirmedTx _ _ _ := none
  encodable _ := false

/-- A token is asked for, and then a transaction that is not indexed. -/
def sampleRun : List (Action Bytes Unit) :=
  .call 0 (.query (some (.token sampleHash))) :: List.replicate 12 (.thread 0 ⟨(), false, [], false⟩) ++
  .call 0 (.query (some (.tx sampleHash))) :: List.replicate 11 (.thread 0 ⟨(), false, [], false⟩)

theorem sampleRun_answers : ∃ s, Reaches (step sampleRuntime) (init [7] (some ⟨5, sampleHash⟩)) s ∧
    s.answers.map (·.response) = [⟨404, none⟩, ⟨200, some [7]⟩] ∧
    ∀ a ∈ s.answers, ∃ e, a.evidence = some e ∧
      Computed sampleRuntime a.index e.query a.response ∧ e.visit.since = a.mutations := by
  have hRun : (sampleRun.foldlM (step sampleRuntime) (init [7] (some ⟨5, sampleHash⟩))).map
      (fun s => s.answers.map (·.response)) = some [⟨404, none⟩, ⟨200, some [7]⟩] := by
    decide +kernel
  obtain ⟨s, hs, hAnswers⟩ := Option.map_eq_some_iff.mp hRun
  have hReaches := Reaches.of_run hs
  refine ⟨s, hReaches, hAnswers, fun a ha => ?_⟩
  have hMem := List.mem_map_of_mem (f := (·.response)) ha
  rw [hAnswers] at hMem
  have hStatus : a.response.status = 200 ∨ a.response.status = 404 := by
    rcases List.mem_pair.mp hMem with hEq | hEq
    · exact .inr (congrArg HostTxResponse.status hEq)
    · exact .inl (congrArg HostTxResponse.status hEq)
  obtain ⟨e, hEvidence, hComputed, hSince, _⟩ := answers_run hReaches a ha hStatus
  exact ⟨e, hEvidence, hComputed, hSince⟩

end Ergon.Admission
