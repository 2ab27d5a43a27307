import Ergon.Lib.Column
import Ergon.Lib.Topo

/-!
# Scheduling by counting

The schedule that keeps, for each node, the number of its parents not yet
emitted, and a set of nodes with none left. It always emits the least ready
node, counts down its children and adds those that reach zero.

* `run_ends` — it stops within as many rounds as there are nodes;
* `isTopoOrder_of_kahn` — if all nodes were emitted, their order lists parents
  first;
* `kahn_eq_none_iff` — and they are unless there is a cycle;
* `visitAll_eq` — a schedule that does something with each node does it in that
  order.
-/

namespace Ergon.Lib.Kahn

open List Std.ExtTreeMap

variable {α : Type} [Ord α] [Std.TransOrd α] [Std.LawfulEqOrd α] [DecidableEq α]

structure State (α : Type) [Ord α] where
  degree : Column α Nat
  ready : Column α Unit
  order : List α

def release (s : State α) (child : α) : State α :=
  let left := (s.degree[child]?).getD 0 - 1
  { s with
    degree := s.degree.insert child left
    ready := if left = 0 then s.ready.insert child () else s.ready }

variable (nodes : List α) (parents : α → List α)

def children (id : α) : List α := nodes.filter fun n => id ∈ parents n

def emit (s : State α) (id : α) : State α :=
  (children nodes parents id).foldl release
    { s with ready := s.ready.erase id, order := s.order ++ [id] }

def run : Nat → State α → State α
  | 0, s => s
  | fuel + 1, s =>
    match s.ready.keys.head? with
    | none => s
    | some id => run fuel (emit nodes parents s id)

def init : State α where
  degree := Column.putAll ∅ (nodes.map fun n => (n, (parents n).length))
  ready := Column.putAll ∅ ((nodes.filter fun n => (parents n).isEmpty).map (·, ()))
  order := []

/-- The order, if it has all nodes. -/
def kahn : Option (List α) :=
  let s := run nodes parents nodes.length (init nodes parents)
  if s.order.length = nodes.length then some s.order else none

/-- The schedule with something done for each node when it is emitted. -/
def visitAll {β ε : Type} (visit : β → α → Except ε β) :
    Nat → State α → β → Except ε (State α × β)
  | 0, s, b => .ok (s, b)
  | fuel + 1, s, b =>
    match s.ready.keys.head? with
    | none => .ok (s, b)
    | some id => do
      let b ← visit b id
      visitAll visit fuel (emit nodes parents s id) b

/-! ## One node -/

/-- Counting down distinct children. -/
theorem foldl_release {cs : List α} (hNodup : cs.Nodup) (s : State α) :
    (cs.foldl release s).order = s.order ∧
    (∀ n, (cs.foldl release s).degree[n]? =
      if n ∈ cs then some ((s.degree[n]?).getD 0 - 1) else s.degree[n]?) ∧
    ∀ n, n ∈ (cs.foldl release s).ready ↔
      n ∈ s.ready ∨ n ∈ cs ∧ (s.degree[n]?).getD 0 - 1 = 0 := by
  induction cs generalizing s with
  | nil => simp
  | cons child cs ih =>
    obtain ⟨hNot, hRest⟩ := nodup_cons.mp hNodup
    obtain ⟨hOrder, hDegree, hReady⟩ := ih hRest (release s child)
    -- the others are counted as before, the child is not counted again
    have hSelf : (release s child).degree[child]? = some ((s.degree[child]?).getD 0 - 1) := by
      simp [release]
    have hOther : ∀ n, n ≠ child → (release s child).degree[n]? = s.degree[n]? := by
      intro n hNe
      show (s.degree.insert child _)[n]? = s.degree[n]?
      rw [Column.getElem?_insert, if_neg (Ne.symm hNe)]
    have hAdded : ∀ n, n ∈ (release s child).ready ↔
        n ∈ s.ready ∨ n = child ∧ (s.degree[child]?).getD 0 - 1 = 0 := by
      intro n
      simp only [release]
      split
      · next hZero =>
        rw [Std.ExtTreeMap.mem_insert, Std.LawfulEqOrd.compare_eq_iff_eq, eq_comm, or_comm]
        simp [hZero]
      · next hPos => simp [hPos]
    refine ⟨hOrder, fun n => ?_, fun n => ?_⟩
    · rw [foldl_cons, hDegree]
      by_cases hEq : n = child
      · subst hEq
        simp [hNot, hSelf]
      · simp [hEq, hOther n hEq]
    · rw [foldl_cons, hReady, hAdded]
      by_cases hEq : n = child
      · subst hEq
        simp [hNot]
      · simp [hEq, hOther n hEq]

/-! ## Invariant -/

structure Inv (s : State α) : Prop where
  degree : ∀ n ∈ nodes, s.degree[n]? = some ((parents n).countP fun p => p ∉ s.order)
  ready : ∀ n ∈ s.ready, n ∈ nodes ∧ n ∉ s.order ∧ ∀ p ∈ parents n, p ∈ s.order
  nodup : s.order.Nodup
  mem : ∀ n ∈ s.order, n ∈ nodes
  closed : ∀ n ∈ s.order, ∀ p ∈ parents n, p ∈ s.order
  first : ParentsFirst (nodes.map fun n => (n, parents n)) [] s.order

variable {nodes parents} {s : State α}

omit [Ord α] [Std.TransOrd α] [Std.LawfulEqOrd α] in
/-- Of distinct parents, the emitted one is counted once. -/
theorem countP_concat {ps order : List α} {id : α} (hNodup : ps.Nodup) (hNew : id ∉ order) :
    ps.countP (fun p => p ∉ order ++ [id]) =
      if id ∈ ps then ps.countP (fun p => p ∉ order) - 1 else ps.countP fun p => p ∉ order := by
  induction ps with
  | nil => simp
  | cons p ps ih =>
    obtain ⟨hNot, hRest⟩ := nodup_cons.mp hNodup
    rw [countP_cons, countP_cons, ih hRest]
    by_cases hEq : p = id
    · subst hEq
      simp [hNot, hNew]
    · have hIff : (p ∉ order ++ [id]) ↔ p ∉ order := by simp [hEq]
      by_cases hIn : id ∈ ps
      · have hPos : 0 < ps.countP fun p => p ∉ order :=
          countP_pos_iff.mpr ⟨id, hIn, by simpa using hNew⟩
        simp only [mem_cons, hIn, or_true, if_true, hIff]
        omega
      · simp [hIn, Ne.symm hEq, hEq]

theorem Inv.emits (h : Inv nodes parents s) (hNodes : nodes.Nodup)
    (hParents : ∀ n, (parents n).Nodup) {id : α} (hId : id ∈ s.ready) :
    Inv nodes parents (emit nodes parents s id) := by
  obtain ⟨hNode, hNew, hDone⟩ := h.ready id hId
  obtain ⟨hOrder, hDegree, hReady⟩ := foldl_release (hNodes.filter fun n => id ∈ parents n)
    { s with ready := s.ready.erase id, order := s.order ++ [id] }
  have hChild : ∀ n, n ∈ nodes.filter (fun n => id ∈ parents n) ↔ n ∈ nodes ∧ id ∈ parents n := by
    simp
  have hCount : ∀ n ∈ nodes, (emit nodes parents s id).degree[n]? =
      some ((parents n).countP fun p => p ∉ s.order ++ [id]) := by
    intro n hn
    rw [countP_concat (hParents n) hNew]
    refine (hDegree n).trans ?_
    simp only [h.degree n hn, Option.getD_some]
    by_cases hIn : id ∈ parents n
    · rw [if_pos ((hChild n).mpr ⟨hn, hIn⟩), if_pos hIn]
    · rw [if_neg (fun hc => hIn ((hChild n).mp hc).2), if_neg hIn]
  have hOrder' : (emit nodes parents s id).order = s.order ++ [id] := hOrder
  refine ⟨?_, ?_, ?_, ?_, ?_, ?_⟩ <;> rw [hOrder']
  · exact hCount
  · intro n hn
    rcases (hReady n).mp hn with hOld | ⟨hMem, hZero⟩
    · -- ready before, and not the one emitted
      have hBoth : id ≠ n ∧ n ∈ s.ready := by simpa using hOld
      obtain ⟨hn', hNot, hAll⟩ := h.ready n hBoth.2
      exact ⟨hn', by simp [hNot, Ne.symm hBoth.1], fun p hp => mem_append_left _ (hAll p hp)⟩
    · -- a child whose last parent was emitted
      obtain ⟨hn', hIn⟩ := (hChild n).mp hMem
      have hLeft : (parents n).countP (fun p => p ∉ s.order ++ [id]) = 0 := by
        rw [countP_concat (hParents n) hNew, if_pos hIn]
        simpa [h.degree n hn'] using hZero
      refine ⟨hn', ?_, ?_⟩
      · intro hEmitted
        rcases mem_append.mp hEmitted with hEarlier | hSelf
        · exact hNew (h.closed n hEarlier id hIn)
        · rw [mem_singleton.mp hSelf] at hIn
          exact hNew (hDone id hIn)
      · intro p hp
        by_contra hNot
        exact countP_eq_zero.mp hLeft p hp (decide_eq_true hNot)
  · exact nodup_append_singleton h.nodup hNew
  · exact forall_mem_concat h.mem hNode
  · intro n hn p hp
    rcases mem_append.mp hn with hOld | hSelf
    · exact mem_append_left _ (h.closed n hOld p hp)
    · rw [mem_singleton.mp hSelf] at hp
      exact mem_append_left _ (hDone p hp)
  · refine parentsFirst_concat.mpr ⟨h.first, ?_⟩
    intro e he hEq p hp _
    obtain ⟨n, -, rfl⟩ := mem_map.mp he
    have hSame : n = id := hEq
    subst hSame
    exact hDone p hp

theorem inv_init (hNodes : nodes.Nodup) : Inv nodes parents (init nodes parents) where
  degree n hn := by
    have hKeys : ((nodes.map fun n => (n, (parents n).length)).map Prod.fst).Nodup := by
      simpa [Function.comp_def] using hNodes
    have hMem : (n, (parents n).length) ∈ nodes.map fun n => (n, (parents n).length) :=
      mem_map_of_mem hn
    show (Column.putAll ∅ _)[n]? = _
    rw [(Column.getElem?_putAll_empty hKeys).mpr hMem]
    simp [init]
  ready n hn := by
    have hMem : n ∈ nodes.filter fun n => (parents n).isEmpty := by
      by_contra hNot
      have hNone : (init nodes parents).ready[n]? = none :=
        Column.getElem?_putAll_of_not_mem fun v hv => hNot (by simpa using hv)
      rw [mem_iff_isSome_getElem?, hNone] at hn
      cases hn
    obtain ⟨hNode, hEmpty⟩ : n ∈ nodes ∧ (parents n).isEmpty := by simpa using hMem
    have hNil : parents n = [] := by simpa using hEmpty
    exact ⟨hNode, by simp [init], by simp [hNil]⟩
  nodup := nodup_nil
  mem _ hn := nomatch hn
  closed _ hn := nomatch hn
  first := trivial

/-! ## The whole schedule -/

theorem Inv.run (hNodes : nodes.Nodup) (hParents : ∀ n, (parents n).Nodup) (fuel : Nat)
    (h : Inv nodes parents s) : Inv nodes parents (run nodes parents fuel s) := by
  induction fuel generalizing s with
  | zero => exact h
  | succ fuel ih =>
    simp only [Kahn.run]
    split
    · exact h
    · next id hMin => exact ih (h.emits hNodes hParents (mem_keys.mp (mem_of_head? hMin)))

/-- Every round emits a node, until none is ready. -/
theorem run_length (hNodes : nodes.Nodup) (fuel : Nat) (s : State α) :
    (run nodes parents fuel s).ready.keys.head? = none ∨
      (run nodes parents fuel s).order.length = s.order.length + fuel := by
  induction fuel generalizing s with
  | zero => exact .inr rfl
  | succ fuel ih =>
    simp only [Kahn.run]
    split
    · next hMin => exact .inl hMin
    · next id _ =>
      refine (ih _).imp_right fun hLength => hLength.trans ?_
      have hOrder : (emit nodes parents s id).order = s.order ++ [id] :=
        (foldl_release (hNodes.filter _) _).1
      rw [hOrder, length_append, length_singleton]
      omega

/-- Within as many rounds as there are nodes none is ready any more. -/
theorem run_ends (hNodes : nodes.Nodup) (hParents : ∀ n, (parents n).Nodup) :
    (run nodes parents nodes.length (init nodes parents)).ready.keys.head? = none := by
  have hInv := (inv_init hNodes).run hNodes hParents nodes.length
  rcases run_length hNodes nodes.length (init nodes parents) with hNone | hAll
  · exact hNone
  · cases hMin : (run nodes parents nodes.length (init nodes parents)).ready.keys.head? with
    | none => rfl
    | some id =>
      -- one more node than there are
      obtain ⟨hNode, hNew, -⟩ := hInv.ready id (mem_keys.mp (mem_of_head? hMin))
      have hSubset : id :: (run nodes parents nodes.length (init nodes parents)).order ⊆ nodes := by
        intro n hn
        rcases mem_cons.mp hn with rfl | hn
        · exact hNode
        · exact hInv.mem n hn
      have hLe := (nodup_cons.mpr ⟨hNew, hInv.nodup⟩).length_le_of_subset hSubset
      have hZero : (init nodes parents).order.length = 0 := rfl
      rw [length_cons, hAll, hZero] at hLe
      omega

theorem isTopoOrder_of_kahn (hNodes : nodes.Nodup) (hParents : ∀ n, (parents n).Nodup)
    {order : List α} (h : kahn nodes parents = some order) :
    IsTopoOrder (nodes.map fun n => (n, parents n)) order := by
  have hInv := (inv_init hNodes).run hNodes hParents nodes.length
  simp only [kahn] at h
  split at h
  · next hLength =>
    cases h
    refine ⟨?_, hInv.first⟩
    have hSame : (nodes.map fun n => (n, parents n)).map Prod.fst = nodes := by
      simp [Function.comp_def]
    rw [hSame]
    exact (hInv.nodup.subperm hInv.mem).perm_of_length_le hLength.ge
  · cases h

/-! ## Cycles -/

variable (nodes parents) in
/-- Every node whose parents were emitted is ready or emitted itself. -/
def Complete (s : State α) : Prop :=
  ∀ n ∈ nodes, n ∉ s.order → (∀ p ∈ parents n, p ∈ s.order) → n ∈ s.ready

theorem Complete.emits (hComplete : Complete nodes parents s) (h : Inv nodes parents s)
    (hNodes : nodes.Nodup) (hParents : ∀ n, (parents n).Nodup) {id : α} (hId : id ∈ s.ready) :
    Complete nodes parents (emit nodes parents s id) := by
  obtain ⟨hNode, hNew, -⟩ := h.ready id hId
  obtain ⟨hOrder, -, hReady⟩ := foldl_release (hNodes.filter fun n => id ∈ parents n)
    { s with ready := s.ready.erase id, order := s.order ++ [id] }
  intro n hn hNot hAll
  rw [show (emit nodes parents s id).order = s.order ++ [id] from hOrder] at hNot hAll
  rw [mem_append, not_or, mem_singleton] at hNot
  refine (hReady n).mpr ?_
  by_cases hIn : id ∈ parents n
  · -- the last parent that was missing
    refine .inr ⟨mem_filter.mpr ⟨hn, decide_eq_true hIn⟩, ?_⟩
    have hZero : (parents n).countP (fun p => p ∉ s.order ++ [id]) = 0 := by
      refine countP_eq_zero.mpr fun p hp => ?_
      rw [decide_eq_true_eq, not_not]
      exact hAll p hp
    rw [countP_concat (hParents n) hNew, if_pos hIn] at hZero
    rw [h.degree n hn, Option.getD_some]
    exact hZero
  · left
    have hOld : n ∈ s.ready := by
      refine hComplete n hn hNot.1 fun p hp => ?_
      rcases mem_append.mp (hAll p hp) with hp' | hp'
      · exact hp'
      · rw [mem_singleton.mp hp'] at hp
        exact absurd hp hIn
    simpa [Ne.symm hNot.2] using hOld

theorem complete_init : Complete nodes parents (init nodes parents) := by
  intro n hn _ hAll
  have hNil : parents n = [] :=
    eq_nil_iff_forall_not_mem.mpr fun p hp => absurd (hAll p hp) not_mem_nil
  have hMem : (n, ()) ∈ (nodes.filter fun n => (parents n).isEmpty).map (·, ()) := by
    simp [hn, hNil]
  rw [mem_iff_isSome_getElem?]
  show ((∅ : Column α Unit).putAll _)[n]?.isSome = true
  rw [Column.getElem?_putAll_of_mem hMem fun _ _ => rfl]
  rfl

theorem Complete.run (hComplete : Complete nodes parents s) (h : Inv nodes parents s)
    (hNodes : nodes.Nodup) (hParents : ∀ n, (parents n).Nodup) (fuel : Nat) :
    Complete nodes parents (run nodes parents fuel s) := by
  induction fuel generalizing s with
  | zero => exact hComplete
  | succ fuel ih =>
    simp only [Kahn.run]
    split
    · exact hComplete
    · next id hMin =>
      have hId := mem_keys.mp (mem_of_head? hMin)
      exact ih (hComplete.emits h hNodes hParents hId) (h.emits hNodes hParents hId)

/-- A node that is never emitted waits for another such node. -/
theorem exists_waiting (hNodes : nodes.Nodup) (hParents : ∀ n, (parents n).Nodup) {n : α}
    (hn : n ∈ nodes) (hNot : n ∉ (run nodes parents nodes.length (init nodes parents)).order) :
    ∃ p ∈ parents n, p ∉ (run nodes parents nodes.length (init nodes parents)).order := by
  by_contra hNone
  push Not at hNone
  have hReady := (complete_init.run (inv_init hNodes) hNodes hParents nodes.length) n hn hNot hNone
  have hEmpty := run_ends hNodes hParents
  rw [head?_eq_none_iff] at hEmpty
  rw [← Std.ExtTreeMap.mem_keys, hEmpty] at hReady
  cases hReady

omit [Ord α] [Std.TransOrd α] [Std.LawfulEqOrd α] [DecidableEq α] in
/-- If everything in a finite set waits for something in it, there is a cycle. -/
theorem exists_cycle {R : List α} {edge : α → α → Prop} (hNe : R ≠ [])
    (hWaits : ∀ n ∈ R, ∃ p ∈ R, edge p n) : ∃ n, Relation.TransGen edge n n := by
  by_contra hNone
  push Not at hNone
  let before : {n // n ∈ R} → {n // n ∈ R} → Prop := fun p n => Relation.TransGen edge p n
  have hTrans : IsTrans {n // n ∈ R} before := ⟨fun _ _ _ => Relation.TransGen.trans⟩
  have hIrrefl : Std.Irrefl before := ⟨fun n => hNone n⟩
  have hFinite : Finite {n // n ∈ R} := finite_toSet R
  have hWf : WellFounded before := Finite.wellFounded_of_trans_of_irrefl before
  obtain ⟨n, hn⟩ := exists_mem_of_ne_nil R hNe
  obtain ⟨m, -, hMin⟩ := hWf.has_min Set.univ ⟨⟨n, hn⟩, trivial⟩
  obtain ⟨p, hp, hEdge⟩ := hWaits m m.2
  exact hMin ⟨p, hp⟩ trivial (.single hEdge)

/-- **The schedule fails exactly on a cycle.** -/
theorem kahn_eq_none_iff (hNodes : nodes.Nodup) (hParents : ∀ n, (parents n).Nodup)
    (hClosed : ∀ n ∈ nodes, ∀ p ∈ parents n, p ∈ nodes) :
    kahn nodes parents = none ↔
      ∃ n, Graph.Precedes (nodes.map fun n => (n, parents n)) n n := by
  have hSame : (nodes.map fun n => (n, parents n)).map Prod.fst = nodes := by
    simp [Function.comp_def]
  constructor
  · intro h
    have hInv := (inv_init hNodes).run hNodes hParents nodes.length
    simp only [kahn] at h
    split at h
    · cases h
    · next hLength =>
      -- the nodes that were left out wait for each other
      refine exists_cycle (R := nodes.filter fun n =>
        n ∉ (run nodes parents nodes.length (init nodes parents)).order) ?_ ?_
      · intro hNil
        refine hLength (le_antisymm (hInv.nodup.length_le_of_subset hInv.mem)
          (hNodes.length_le_of_subset ?_))
        intro n hn
        by_contra hNot
        exact filter_eq_nil_iff.mp hNil n hn (decide_eq_true hNot)
      · intro n hn
        obtain ⟨hNode, hNot⟩ := mem_filter.mp hn
        obtain ⟨p, hp, hLeft⟩ := exists_waiting hNodes hParents hNode (of_decide_eq_true hNot)
        have hpNode := hClosed n hNode p hp
        refine ⟨p, mem_filter.mpr ⟨hpNode, decide_eq_true hLeft⟩, ?_, ?_⟩
        · rw [hSame]
          exact hpNode
        · exact ⟨_, mem_map_of_mem hNode, rfl, hp⟩
  · rintro ⟨n, hCycle⟩
    cases hKahn : kahn nodes parents with
    | none => rfl
    | some order =>
      have hTopo := isTopoOrder_of_kahn hNodes hParents hKahn
      have hn : n ∈ order := by
        refine hTopo.perm.mem_iff.mpr ?_
        rcases Relation.TransGen.head'_iff.mp hCycle with ⟨m, hEdge, -⟩
        exact hEdge.1
      obtain ⟨before, rest, hSplit⟩ := append_of_mem hn
      have hEarlier := hTopo.before_of_precedes hSplit hCycle
      have hPerm := hTopo.perm
      rw [hSame, hSplit] at hPerm
      have hNodup := hPerm.nodup_iff.mpr hNodes
      exact ((nodup_append.mp hNodup).2.2 n hEarlier n mem_cons_self rfl).elim

/-! ## Visits -/

omit [Std.LawfulEqOrd α] in
theorem order_emit (s : State α) (id : α) : (emit nodes parents s id).order = s.order ++ [id] := by
  have hRelease : ∀ (cs : List α) (s : State α), (cs.foldl release s).order = s.order := by
    intro cs
    induction cs with
    | nil => exact fun _ => rfl
    | cons child cs ih => exact fun s => ih (release s child)
  exact hRelease _ _

omit [Std.LawfulEqOrd α] in
theorem visitAll_eq_of {β ε : Type} (visit : β → α → Except ε β) (fuel : Nat) (s : State α) :
    ∃ ids, (run nodes parents fuel s).order = s.order ++ ids ∧ ∀ b,
      visitAll nodes parents visit fuel s b =
        (ids.foldlM visit b).map fun b => (run nodes parents fuel s, b) := by
  induction fuel generalizing s with
  | zero => exact ⟨[], (append_nil _).symm, fun _ => rfl⟩
  | succ fuel ih =>
    cases hMin : s.ready.keys.head? with
    | none =>
      refine ⟨[], ?_, fun b => ?_⟩
      · rw [Kahn.run, hMin, append_nil]
      · rw [Kahn.run, visitAll, hMin]
        rfl
    | some id =>
      obtain ⟨ids, hOrder, hVisit⟩ := ih (emit nodes parents s id)
      refine ⟨id :: ids, ?_, fun b => ?_⟩
      · rw [Kahn.run, hMin]
        refine hOrder.trans ?_
        rw [order_emit, append_assoc]
        rfl
      · rw [Kahn.run, visitAll, hMin, foldlM_cons]
        show (visit b id >>= fun b => visitAll nodes parents visit fuel _ b) = _
        cases visit b id with
        | error e => rfl
        | ok b => exact hVisit b

omit [Std.LawfulEqOrd α] in
/-- **Everything is visited in the order in which it is emitted.** -/
theorem visitAll_eq {β ε : Type} (visit : β → α → Except ε β) (fuel : Nat) (b : β) :
    visitAll nodes parents visit fuel (init nodes parents) b =
      ((run nodes parents fuel (init nodes parents)).order.foldlM visit b).map
        fun b => (run nodes parents fuel (init nodes parents), b) := by
  obtain ⟨ids, hOrder, hVisit⟩ := visitAll_eq_of visit fuel (init nodes parents)
  rw [hVisit, hOrder]
  rfl

end Ergon.Lib.Kahn
