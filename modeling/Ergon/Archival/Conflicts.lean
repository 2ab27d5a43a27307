import Ergon.Lib.Kahn
import Ergon.Mem.Mempool
import Ergon.Archival.Replay

/-!
# Ergon — the conflicts of a connected block

`apply_journal_block` (`chronik-lib/src/ergon_archival.rs`) removes the conflicts
of a connected block from the index mempool before it connects the block: in
every round those that no other conflict spends, until none is left.

If no other transaction spends a conflict and spends go round in no circle, the
rounds are one list of removals (`peel`), in which every transaction is removed
when nothing in the mempool spends it, and the loop stops early only where a
removal fails (`removeConflicts_eq`). By `Mempool.remove_snd_iff` that is where a
conflict is not `Undoable`, as it is for a transaction that entered the index
mempool before one whose output it spends.
-/

namespace Ergon.Archival

open Lib Replay List Column Std.ExtTreeMap

/-! ## Leaves first -/

/-- One mempool transaction spends another. -/
def SpendsTx (txs : Column TxId MempoolTx) (child parent : TxId) : Prop :=
  ∃ row, txs[child]? = some row ∧ spends row.tx parent = true

def Acyclic (txs : Column TxId MempoolTx) : Prop := ∀ id, ¬ Relation.TransGen (SpendsTx txs) id id

/-- A transaction that is not in a list spends one of it. -/
def SpentOutside (txs : Column TxId MempoolTx) (ids : List TxId) : Prop :=
  ∃ (k : TxId) (row : MempoolTx), txs[k]? = some row ∧ k ∉ ids ∧ ∃ id ∈ ids, spends row.tx id = true

/-- The conflicts in the order in which they are removed. -/
def peel (txs : Column TxId MempoolTx) : Nat → List TxId → List TxId
  | 0, remove => remove
  | fuel + 1, remove =>
    leavesOf txs remove ++ peel txs fuel (remove.filter fun id => id ∉ leavesOf txs remove)

/-- Nothing in the mempool spends a transaction when it is removed. -/
def LeavesFirst (txs : Column TxId MempoolTx) : List TxId → Prop
  | [] => True
  | id :: rest => (∀ (k : TxId) row, txs[k]? = some row → spends row.tx id = false) ∧
    LeavesFirst (txs.erase id) rest

variable {txs txs' : Column TxId MempoolTx} {remove : List TxId}

theorem spentOutside_iff {ids : List TxId} : SpentOutside txs ids ↔
    (txs.toList.any fun p => p.1 ∉ ids ∧ ids.any (spends p.2.tx)) = true := by
  constructor
  · rintro ⟨k, row, hRow, hk, id, hId, hSpends⟩
    refine any_eq_true.mpr ⟨(k, row), ?_, decide_eq_true ⟨hk, ?_⟩⟩
    · exact mem_toList_iff_getElem?_eq_some.mpr hRow
    · exact any_eq_true.mpr ⟨id, hId, hSpends⟩
  · intro hAny
    obtain ⟨⟨k, row⟩, hRow, hBoth⟩ := any_eq_true.mp hAny
    obtain ⟨hk, hSome⟩ := of_decide_eq_true hBoth
    obtain ⟨id, hId, hSpends⟩ := any_eq_true.mp hSome
    exact ⟨k, row, mem_toList_iff_getElem?_eq_some.mp hRow, hk, id, hId, hSpends⟩

instance (txs : Column TxId MempoolTx) (ids : List TxId) : Decidable (SpentOutside txs ids) :=
  decidable_of_iff _ spentOutside_iff.symm

/-- If everything spends only what is of a lower rank. -/
theorem acyclic_of_rank (rank : TxId → Nat)
    (h : ∀ p ∈ txs.toList, ∀ input ∈ p.2.tx.inputs, rank input.prevOut.txid < rank p.1) :
    Acyclic txs := by
  have hEdge : ∀ child parent, SpendsTx txs child parent → rank parent < rank child := by
    rintro child parent ⟨row, hRow, hSpends⟩
    obtain ⟨input, hInput, hPrev⟩ := any_eq_true.mp hSpends
    rw [← of_decide_eq_true hPrev]
    exact h (child, row) (mem_toList_iff_getElem?_eq_some.mpr hRow) input hInput
  have hLower : ∀ child parent, Relation.TransGen (SpendsTx txs) child parent →
      rank parent < rank child := by
    intro child parent hPath
    induction hPath with
    | single hFirst => exact hEdge _ _ hFirst
    | tail _ hLast ih => exact (hEdge _ _ hLast).trans ih
  exact fun id hCycle => lt_irrefl _ (hLower id id hCycle)

theorem Acyclic.mono (h : Acyclic txs)
    (hSub : ∀ (k : TxId) row, txs'[k]? = some row → txs[k]? = some row) : Acyclic txs' := by
  intro id hCycle
  have hEdge : ∀ child parent, SpendsTx txs' child parent → SpendsTx txs child parent :=
    fun _ _ ⟨row, hRow, hSpends⟩ => ⟨row, hSub _ row hRow, hSpends⟩
  exact h id (Relation.TransGen.mono hEdge _ _ hCycle)

/-- Among conflicts that go round in no circle there is one that none spends. -/
theorem Acyclic.leavesOf_ne_nil (h : Acyclic txs) (hNe : remove ≠ []) :
    leavesOf txs remove ≠ [] := by
  intro hNone
  have hSpent : ∀ id ∈ remove, ∃ child ∈ remove, SpendsTx txs child id := by
    intro id hId
    by_contra hNot
    push Not at hNot
    have hLeaf : id ∈ leavesOf txs remove := by
      refine mem_leavesOf.mpr ⟨hId, fun child hChild row hRow => ?_⟩
      rw [← Bool.not_eq_true]
      exact fun hSpends => hNot child hChild ⟨row, hRow, hSpends⟩
    rw [hNone] at hLeaf
    cases hLeaf
  obtain ⟨id, hCycle⟩ := Kahn.exists_cycle hNe hSpent
  exact h id hCycle

theorem leavesOf_congr (h : ∀ id ∈ remove, txs'[id]? = txs[id]?) :
    leavesOf txs' remove = leavesOf txs remove := by
  refine filter_congr fun id _ => ?_
  congr 1
  rw [Bool.eq_iff_iff, any_eq_true, any_eq_true]
  refine exists_congr fun child => and_congr_right fun hChild => ?_
  rw [h child hChild]

theorem peel_congr {fuel : Nat} (h : ∀ id ∈ remove, txs'[id]? = txs[id]?) :
    peel txs' fuel remove = peel txs fuel remove := by
  induction fuel generalizing remove with
  | zero => rfl
  | succ fuel ih =>
    rw [peel, peel, leavesOf_congr h, ih fun id hId => h id (mem_of_mem_filter hId)]

theorem peel_nil (fuel : Nat) : peel txs fuel [] = [] := by
  induction fuel with
  | zero => rfl
  | succ fuel ih => exact ih

theorem peel_perm (txs : Column TxId MempoolTx) (fuel : Nat) (remove : List TxId) :
    (peel txs fuel remove).Perm remove := by
  induction fuel generalizing remove with
  | zero => exact .refl _
  | succ fuel ih =>
    have hSplit : (leavesOf txs remove ++ remove.filter fun id => id ∉ leavesOf txs remove).Perm
        remove := by
      have hRest : (remove.filter fun id => id ∉ leavesOf txs remove) =
          remove.filter fun id => !!remove.any fun child => txs[child]?.any fun row =>
            spends row.tx id := by
        refine filter_congr fun id hId => ?_
        rw [Bool.eq_iff_iff, decide_eq_true_iff, leavesOf, mem_filter]
        simp only [hId, true_and, Bool.not_eq_true, Bool.not_eq_false', Bool.not_not]
      rw [hRest]
      exact filter_append_perm _ remove
    exact ((ih _).append_left _).trans hSplit

variable {order : List TxId}

theorem LeavesFirst.mono (h : LeavesFirst txs order)
    (hSub : ∀ (k : TxId) row, txs'[k]? = some row → txs[k]? = some row) :
    LeavesFirst txs' order := by
  induction order generalizing txs txs' with
  | nil => trivial
  | cons id rest ih =>
    refine ⟨fun k row hRow => h.1 k row (hSub k row hRow), ih h.2 fun k row hRow => ?_⟩
    rw [Column.getElem?_erase] at hRow ⊢
    split at hRow
    · cases hRow
    · next hNe => rw [if_neg hNe, hSub k row hRow]

theorem LeavesFirst.append {order order' : List TxId} (h : LeavesFirst txs order)
    (h' : LeavesFirst (txs.eraseAll order) order') : LeavesFirst txs (order ++ order') := by
  induction order generalizing txs with
  | nil => exact h'
  | cons id rest ih => exact ⟨h.1, ih h.2 h'⟩

theorem leavesFirst_of_forall
    (h : ∀ id ∈ order, ∀ (k : TxId) row, txs[k]? = some row → spends row.tx id = false) :
    LeavesFirst txs order := by
  induction order with
  | nil => trivial
  | cons id rest ih =>
    refine ⟨h id mem_cons_self, ?_⟩
    refine (ih fun id' hId' => h id' (mem_cons_of_mem _ hId')).mono fun k row hRow => ?_
    rw [Column.getElem?_erase] at hRow
    split at hRow
    · cases hRow
    · exact hRow

theorem getElem?_eraseAll_eq_some {ids : List TxId} {k : TxId} {row : MempoolTx}
    (h : (txs.eraseAll ids)[k]? = some row) : k ∉ ids ∧ txs[k]? = some row := by
  rw [getElem?_eraseAll] at h
  split at h
  · cases h
  · next hNot => exact ⟨hNot, h⟩

/-- The order has leaves first if only conflicts spend conflicts. -/
theorem leavesFirst_peel {fuel : Nat} (hAcyclic : Acyclic txs) (hLength : remove.length ≤ fuel)
    (hClosed : ¬ SpentOutside txs remove) : LeavesFirst txs (peel txs fuel remove) := by
  induction fuel generalizing txs remove with
  | zero =>
    rw [eq_nil_of_length_eq_zero (Nat.le_zero.mp hLength)]
    trivial
  | succ fuel ih =>
    by_cases hNe : remove = []
    · rw [hNe, peel_nil]
      trivial
    have hFewer := length_without_leaves (hAcyclic.leavesOf_ne_nil hNe)
    rw [peel]
    refine LeavesFirst.append (leavesFirst_of_forall fun id hId k row hRow => ?_) ?_
    · -- a leaf is spent by no conflict, and by nothing else
      obtain ⟨hIn, hNone⟩ := mem_leavesOf.mp hId
      by_cases hk : k ∈ remove
      · exact hNone k hk row hRow
      · rw [← Bool.not_eq_true]
        exact fun hSpends => hClosed ⟨k, row, hRow, hk, id, hIn, hSpends⟩
    · have hSame : ∀ id ∈ remove.filter (fun id => id ∉ leavesOf txs remove),
          (txs.eraseAll (leavesOf txs remove))[id]? = txs[id]? := by
        intro id hId
        rw [getElem?_eraseAll, if_neg (of_decide_eq_true (mem_filter.mp hId).2)]
      rw [← peel_congr hSame]
      · refine ih (hAcyclic.mono fun k row hRow => (getElem?_eraseAll_eq_some hRow).2) (by omega) ?_
        rintro ⟨k, row, hRow, hk, id, hId, hSpends⟩
        obtain ⟨hNotLeaf, hRow⟩ := getElem?_eraseAll_eq_some hRow
        refine hClosed ⟨k, row, hRow, fun hIn => hk ?_, id, mem_of_mem_filter hId, hSpends⟩
        exact mem_filter.mpr ⟨hIn, decide_eq_true hNotLeaf⟩

/-! ## The loop -/

section

variable {Index Env Indexed : Type} {x : IndexOps Index Env Indexed} {env : Env}
  {index index' : Index}

theorem andThen_congr {r : Index × Bool} {f f' : Index → Index × Bool}
    (h : ∀ s, r = (s, true) → f s = f' s) : andThen r f = andThen r f' := by
  obtain ⟨s, ok⟩ := r
  cases ok with
  | false => rfl
  | true => exact h s rfl

variable (hErases : ∀ index id index', x.handleTxRemovedFromMempool index env id = (index', true) →
  x.txs index' = (x.txs index).erase id)
include hErases

theorem txs_removeEach (h : removeEach x env index order = (index', true)) :
    x.txs index' = (x.txs index).eraseAll order := by
  induction order generalizing index with
  | nil =>
    cases h
    rfl
  | cons id rest ih =>
    rw [removeEach, runEach] at h
    obtain ⟨mid, hFirst, hRest⟩ := andThen_eq_true.mp h
    rw [ih hRest, hErases index id mid hFirst]
    rfl

/-- The rounds are one list of removals: the loop does not run into a circle. -/
theorem removeConflicts_eq {fuel : Nat} (hAcyclic : Acyclic (x.txs index))
    (hLength : remove.length ≤ fuel) :
    removeConflicts x env fuel index remove =
      removeEach x env index (peel (x.txs index) fuel remove) := by
  induction fuel generalizing index remove with
  | zero =>
    rw [eq_nil_of_length_eq_zero (Nat.le_zero.mp hLength)]
    rfl
  | succ fuel ih =>
    by_cases hNe : remove = []
    · rw [hNe, peel_nil]
      rfl
    have hLeaves := hAcyclic.leavesOf_ne_nil hNe
    have hFewer := length_without_leaves hLeaves
    have hRound : removeConflicts x env (fuel + 1) index remove =
        andThen (removeEach x env index (leavesOf (x.txs index) remove)) fun index' =>
          removeConflicts x env fuel index'
            (remove.filter fun id => id ∉ leavesOf (x.txs index) remove) := by
      cases remove with
      | nil => exact absurd rfl hNe
      | cons first others => exact if_neg hLeaves
    rw [hRound, peel, removeEach, runEach_append]
    refine andThen_congr fun mid hMid => ?_
    have hTxs := txs_removeEach hErases hMid
    rw [ih (hTxs ▸ hAcyclic.mono fun k row hRow => (getElem?_eraseAll_eq_some hRow).2) (by omega),
      hTxs]
    rw [removeEach, peel_congr fun id hId => ?_]
    rw [getElem?_eraseAll, if_neg (of_decide_eq_true (mem_filter.mp hId).2)]

end

/-! ## Over the index mempool -/

section

variable {Index Env Stored Indexed : Type}

/-- The indexer's mempool is a `Mempool`. -/
structure RunsMempool (x : IndexOps Index Env Indexed) (mempool : Index → Mempool) : Prop where
  txs : ∀ index, x.txs index = (mempool index).txs
  remove : ∀ index env id,
    mempool (x.handleTxRemovedFromMempool index env id).1 = ((mempool index).remove id).1 ∧
    (x.handleTxRemovedFromMempool index env id).2 = ((mempool index).remove id).2

variable {x : IndexOps Index Env Indexed} {mempool : Index → Mempool} {env : Env}
  {index index' : Index} (hRuns : RunsMempool x mempool)
include hRuns

theorem RunsMempool.remove_eq_true {id : TxId}
    (h : x.handleTxRemovedFromMempool index env id = (index', true)) :
    (mempool index).remove id = (mempool index', true) := by
  have hBoth := hRuns.remove index env id
  rw [h] at hBoth
  exact Prod.ext hBoth.1.symm hBoth.2.symm

theorem RunsMempool.erases (index : Index) (id : TxId) (index' : Index)
    (h : x.handleTxRemovedFromMempool index env id = (index', true)) :
    x.txs index' = (x.txs index).erase id := by
  obtain ⟨_, -, -, hRemoved⟩ := Mempool.remove_eq_true (hRuns.remove_eq_true h)
  rw [hRuns.txs, hRuns.txs, hRemoved.txs]

/-- Removals with leaves first succeed if each transaction can be removed now. -/
theorem RunsMempool.removeEach_snd (hCons : (mempool index).Consistent) (hNodup : order.Nodup)
    (hIn : ∀ id ∈ order, (x.txs index)[id]?.isSome = true)
    (hLeaves : LeavesFirst (x.txs index) order) :
    (removeEach x env index order).2 = true ↔ ∀ id ∈ order, ∀ row, (x.txs index)[id]? = some row →
      ∀ group, (mempool index).Undoable row.tx group := by
  induction order generalizing index with
  | nil => simp [removeEach, runEach]
  | cons id rest ih =>
    obtain ⟨row, hRow⟩ := Option.isSome_iff_exists.mp (hIn id mem_cons_self)
    obtain ⟨hNot, hNodup⟩ := nodup_cons.mp hNodup
    have hRow' : (mempool index).txs[id]? = some row := by rwa [← hRuns.txs]
    have hUnspent : (mempool index).Unspent id := by
      rw [Mempool.Unspent, ← hRuns.txs]
      exact hLeaves.1
    have hFirst : (x.handleTxRemovedFromMempool index env id).2 = true ↔
        ∀ group, (mempool index).Undoable row.tx group := by
      rw [(hRuns.remove index env id).2]
      exact Mempool.remove_snd_iff hCons hRow' hUnspent
    have hOne : (∀ row', (x.txs index)[id]? = some row' →
        ∀ group, (mempool index).Undoable row'.tx group) ↔
        ∀ group, (mempool index).Undoable row.tx group :=
      ⟨fun h => h row hRow, fun h row' hSame => by cases hRow.symm.trans hSame; exact h⟩
    rw [forall_mem_cons, hOne, ← hFirst, removeEach, runEach, andThen_snd]
    refine and_congr_right fun hOk => ?_
    obtain ⟨mid, hMid⟩ : ∃ mid, x.handleTxRemovedFromMempool index env id = (mid, true) :=
      ⟨_, Prod.ext rfl hOk⟩
    have hRemove := hRuns.remove_eq_true hMid
    have hTxs := hRuns.erases index id mid hMid
    rw [hMid]
    have hRest : ∀ id' ∈ rest, (x.txs mid)[id']? = (x.txs index)[id']? := by
      intro id' hId'
      rw [hTxs, Column.getElem?_erase, if_neg]
      rintro rfl
      exact hNot hId'
    refine (ih (hCons.remove hRemove) hNodup (fun id' hId' => ?_) (hTxs ▸ hLeaves.2)).trans ?_
    · rw [hRest id' hId']
      exact hIn id' (mem_cons_of_mem _ hId')
    · refine forall₂_congr fun id' hId' => forall_congr' fun other => ?_
      rw [hRest id' hId']
      refine forall_congr' fun hOther => forall_congr' fun group => ?_
      rw [hRuns.txs] at hOther
      refine Mempool.undoable_remove hCons hRow' hUnspent hRemove hOther ?_ group
      rintro rfl
      exact hNot hId'

end

/-! ## Connected blocks -/

section

variable {Index Env Stored Indexed : Type} (b : Backend Index Env Stored Indexed) {index : Index}
  {env : Env} {conflicts : List TxId} {block : Block} {tip : BlockRef}

/-- The removal of the conflicts that are in the mempool, and of nothing else, each
when nothing in the mempool spends it. -/
structure Clears (index : Index) (env : Env) (conflicts : List TxId) (index' : Index) : Prop where
  order : ∃ order : List TxId,
    order.Perm (conflicts.filter fun id => (b.txs index)[id]?.isSome) ∧
    removeEach b.toIndexOps env index order = (index', true) ∧
    ∀ before id after mid, order = before ++ id :: after →
      removeEach b.toIndexOps env index before = (mid, true) →
      ∀ (k : TxId) row, (b.txs mid)[k]? = some row → spends row.tx id = false
  txs : ∀ k : TxId, (b.txs index')[k]? = if k ∈ conflicts then none else (b.txs index)[k]?

/-- What `apply_journal_block` does with the conflicts of a connected block. -/
def ClearsConflicts (index : Index) (env : Env) (conflicts : List TxId) (block : Block) : Prop :=
  (SpentOutside (b.txs index) conflicts →
    applyJournalBlock b index env true conflicts (some block) = (index, false)) ∧
  (¬ SpentOutside (b.txs index) conflicts → ∃ index', Clears b index env conflicts index' ∧
    clearConflicts b index env (sortedSet conflicts) = (index', true) ∧
    applyJournalBlock b index env true conflicts (some block) =
      b.handleBlockConnected index' env (b.makeChronikBlock index block))

variable {b}

/-- What is left of the mempool does not spend the next transaction. -/
theorem LeavesFirst.unspent {before after order : List TxId} {id : TxId}
    (h : LeavesFirst txs order) (hOrder : order = before ++ id :: after) :
    ∀ (k : TxId) row, (txs.eraseAll before)[k]? = some row → spends row.tx id = false := by
  subst hOrder
  induction before generalizing txs with
  | nil => exact h.1
  | cons first before ih => exact ih h.2

theorem perm_sortedSet {ids : List TxId} (h : ids.Nodup) : (sortedSet ids).Perm ids :=
  (perm_ext_iff_of_nodup (nodup_sortedSet ids) h).mpr fun _ => mem_sortedSet

theorem clearConflicts_of_not_spentOutside {remove : List TxId}
    (hClosed : ¬ SpentOutside (b.txs index) remove) :
    clearConflicts b index env remove =
      removeConflicts b.toIndexOps env (remove.filter fun id => (b.txs index)[id]?.isSome).length
        index (remove.filter fun id => (b.txs index)[id]?.isSome) :=
  if_neg fun hAny => hClosed (spentOutside_iff.mpr hAny)

theorem clearConflicts_of_spentOutside {remove : List TxId}
    (hSpent : SpentOutside (b.txs index) remove) :
    clearConflicts b index env remove = (index, false) :=
  if_pos (spentOutside_iff.mp hSpent)

theorem spentOutside_congr {ids ids' : List TxId} (h : ∀ id, id ∈ ids ↔ id ∈ ids') :
    SpentOutside txs ids ↔ SpentOutside txs ids' := by
  simp only [SpentOutside, h]

section

variable {mempool : Index → Mempool} (hRuns : RunsMempool b.toIndexOps mempool)
  (hCons : (mempool index).Consistent) (hAcyclic : Acyclic (b.txs index))
  (hNodup : conflicts.Nodup)
include hRuns hCons hAcyclic hNodup

/-- Where only conflicts spend conflicts, they are cleared exactly if each of them
can be removed. -/
theorem clearConflicts_iff (hClosed : ¬ SpentOutside (b.txs index) conflicts) :
    (∃ index', Clears b index env conflicts index' ∧
      clearConflicts b index env (sortedSet conflicts) = (index', true)) ↔
    ∀ id ∈ conflicts, ∀ row, (b.txs index)[id]? = some row →
      ∀ group, (mempool index).Undoable row.tx group := by
  obtain ⟨remove, hRemove⟩ : ∃ remove, remove =
      (sortedSet conflicts).filter fun id => (b.txs index)[id]?.isSome := ⟨_, rfl⟩
  have hMem : ∀ id, id ∈ remove ↔ id ∈ conflicts ∧ (b.txs index)[id]?.isSome = true := by
    intro id
    rw [hRemove, mem_filter, mem_sortedSet]
  have hRemoveNodup : remove.Nodup := hRemove ▸ (nodup_sortedSet conflicts).filter _
  -- a transaction outside the present conflicts is no conflict
  have hPresent : ¬ SpentOutside (b.txs index) remove := by
    rintro ⟨k, row, hRow, hk, id, hId, hSpends⟩
    refine hClosed ⟨k, row, hRow, fun hIn => hk ?_, id, ((hMem id).mp hId).1, hSpends⟩
    exact (hMem k).mpr ⟨hIn, by rw [hRow]; rfl⟩
  obtain ⟨order, hOrder⟩ : ∃ order, order = peel (b.txs index) remove.length remove := ⟨_, rfl⟩
  have hPerm : order.Perm remove := hOrder ▸ peel_perm _ _ _
  have hLeaves : LeavesFirst (b.txs index) order :=
    hOrder ▸ leavesFirst_peel hAcyclic le_rfl hPresent
  have hClear : clearConflicts b index env (sortedSet conflicts) =
      removeEach b.toIndexOps env index order := by
    rw [clearConflicts_of_not_spentOutside ((spentOutside_congr fun _ => mem_sortedSet).not.mpr
      hClosed), ← hRemove, removeConflicts_eq hRuns.erases hAcyclic le_rfl, hOrder]
  have hEach : (removeEach b.toIndexOps env index order).2 = true ↔ _ :=
    hRuns.removeEach_snd hCons (hPerm.nodup_iff.mpr hRemoveNodup)
      (fun id hId => ((hMem id).mp (hPerm.mem_iff.mp hId)).2) hLeaves
  have hAll : (∀ id ∈ order, ∀ row, (b.txs index)[id]? = some row →
      ∀ group, (mempool index).Undoable row.tx group) ↔
      ∀ id ∈ conflicts, ∀ row, (b.txs index)[id]? = some row →
        ∀ group, (mempool index).Undoable row.tx group := by
    refine forall_congr' fun id => ?_
    rw [hPerm.mem_iff, hMem]
    constructor
    · exact fun h hId row hRow => h ⟨hId, by rw [hRow]; rfl⟩ row hRow
    · exact fun h hId row hRow => h hId.1 row hRow
  rw [← hAll, ← hEach, hClear]
  constructor
  · rintro ⟨index', -, hDone⟩
    rw [hDone]
  · intro hOk
    obtain ⟨index', hDone⟩ : ∃ index', removeEach b.toIndexOps env index order = (index', true) :=
      ⟨_, Prod.ext rfl hOk⟩
    refine ⟨index', ⟨⟨order, ?_, hDone, ?_⟩, fun k => ?_⟩, hDone⟩
    · exact hPerm.trans (hRemove ▸ (perm_sortedSet hNodup).filter _)
    · intro before id after mid hSplit hMid
      rw [txs_removeEach hRuns.erases hMid]
      exact hLeaves.unspent hSplit
    · rw [txs_removeEach hRuns.erases hDone, getElem?_eraseAll]
      by_cases hk : k ∈ conflicts
      · rw [if_pos hk]
        split
        · rfl
        · next hNot =>
          rw [hPerm.mem_iff, hMem] at hNot
          exact Option.not_isSome_iff_eq_none.mp fun hSome => hNot ⟨hk, hSome⟩
      · rw [if_neg hk, if_neg fun hIn => hk ((hMem k).mp (hPerm.mem_iff.mp hIn)).1]

end

/-- After its checks, `apply_journal_block` clears the conflicts and connects the
block. -/
theorem applyJournalBlock_of_checks (hCount : conflicts.length ≤ 4096)
    (hTip : b.blockchainInfo index env = some tip) (hFits : fitsTip tip true block = true)
    (hNodup : conflicts.Nodup) (hNotMined : ∀ id ∈ conflicts, ∀ tx ∈ block.txs, tx.txid ≠ id) :
    applyJournalBlock b index env true conflicts (some block) =
      andThen (clearConflicts b index env (sortedSet conflicts)) fun index' =>
        b.handleBlockConnected index' env (b.makeChronikBlock index block) := by
  have hLength : (sortedSet conflicts).length = conflicts.length :=
    (perm_sortedSet hNodup).length_eq
  have hMined : ((sortedSet conflicts).any fun id => block.txs.any (·.txid = id)) = false := by
    rw [any_eq_false]
    intro id hId hAny
    obtain ⟨tx, hTx, hSame⟩ := any_eq_true.mp hAny
    exact hNotMined id (mem_sortedSet.mp hId) tx hTx (of_decide_eq_true hSame)
  unfold applyJournalBlock
  rw [if_neg (by simp [hCount]), hTip]
  dsimp only
  rw [if_neg (by simp [hFits, hLength, hMined]), if_pos rfl]
  rcases clearConflicts b index env (sortedSet conflicts) with ⟨index', ok⟩
  cases ok with
  | false => rfl
  | true => rfl

/-- **Conflicts are cleared exactly if they can be undone.** -/
theorem applyJournalBlock_clearsConflicts_iff {mempool : Index → Mempool}
    (hRuns : RunsMempool b.toIndexOps mempool) (hReached : (mempool index).Reached)
    (hAcyclic : Acyclic (b.txs index)) (hCount : conflicts.length ≤ 4096)
    (hTip : b.blockchainInfo index env = some tip) (hFits : fitsTip tip true block = true)
    (hNodup : conflicts.Nodup) (hNotMined : ∀ id ∈ conflicts, ∀ tx ∈ block.txs, tx.txid ≠ id) :
    ClearsConflicts b index env conflicts block ↔
      SpentOutside (b.txs index) conflicts ∨
      ∀ id ∈ conflicts, ∀ row, (b.txs index)[id]? = some row →
        ∀ group, (mempool index).Undoable row.tx group := by
  have hApply := applyJournalBlock_of_checks hCount hTip hFits hNodup hNotMined
  by_cases hSpent : SpentOutside (b.txs index) conflicts
  · refine ⟨fun _ => .inl hSpent, fun _ => ⟨fun _ => ?_, fun hNot => absurd hSpent hNot⟩⟩
    have hSet := (spentOutside_congr fun _ => mem_sortedSet).mpr hSpent
    rw [hApply, clearConflicts_of_spentOutside hSet]
    rfl
  · have hIff : (∃ index', Clears b index env conflicts index' ∧ _) ↔ _ :=
      clearConflicts_iff hRuns hReached.consistent hAcyclic hNodup hSpent
    rw [← hIff]
    constructor
    · rintro ⟨-, hClears⟩
      obtain ⟨index', hClear, hDone, -⟩ := hClears hSpent
      exact .inr ⟨index', hClear, hDone⟩
    · rintro (hNot | ⟨index', hClear, hDone⟩)
      · exact absurd hNot hSpent
      · refine ⟨fun h => absurd h hSpent, fun _ => ⟨index', hClear, hDone, ?_⟩⟩
        rw [hApply, hDone]
        rfl

end

/-! ## A transaction before its parent -/

namespace Conflicts

def anyScript : Script := ⟨[0x51]⟩

def idOf (byte : UInt8) : TxId := .fill byte

/-- A transaction that spends the first output of another. -/
def spending (txid spent : TxId) : MempoolTx :=
  ⟨⟨txid, 1, [⟨⟨spent, 0⟩, ⟨[]⟩, 0, some ⟨⟨2, anyScript⟩, 1, false⟩⟩], [⟨2, anyScript⟩], 0⟩, 0⟩

def parent : MempoolTx := spending (idOf 1) (idOf 0)

def child : MempoolTx := spending (idOf 2) (idOf 1)

/-- Nothing is stored, and there are no plugins. -/
def noDb : MempoolDb where
  tokens := .empty
  txNumByTxid _ := .ok none
  pluginOutput _ _ := none
  hasPlugins := false
  runOnTx _ _ _ := none

/-- An indexer that is its mempool. -/
def backend : Backend Mempool Unit Unit Unit where
  txs m := m.txs
  blockchainInfo _ _ := some ⟨0, idOf 0⟩
  handleTxAddedToMempool m _ row := ((m.insert noDb row).getD m, (m.insert noDb row).isSome)
  handleTxRemovedFromMempool m _ id := m.remove id
  handleBlockConnected m _ _ := (m, true)
  handleBlockDisconnected m _ _ := (m, true)
  makeChronikBlock _ _ := ()
  loadBlock _ _ := none
  bridgeBlock _ _ _ := none

def nextBlock : Block := ⟨idOf 9, idOf 0, 1, 0, 8, 1, 80, []⟩

def insertAll (rows : List MempoolTx) : Option Mempool :=
  (rows.map (Mempool.Action.insert noDb)).foldlM Mempool.step (Mempool.new false)

/-- The mempool after a transaction and then the one it spends entered it, as after
the block of the parent was disconnected. -/
def childFirst : Mempool := (insertAll [child, parent]).getD (Mempool.new false)

def parentFirst : Mempool := (insertAll [parent, child]).getD (Mempool.new false)

theorem reached_insertAll {rows : List MempoolTx} (h : (insertAll rows).isSome = true) :
    ((insertAll rows).getD (Mempool.new false)).Reached := by
  obtain ⟨m, hm⟩ := Option.isSome_iff_exists.mp h
  rw [hm]
  exact ⟨false, Reaches.of_run hm⟩

def rank (id : TxId) : Nat := if id = idOf 2 then 2 else if id = idOf 1 then 1 else 0

theorem runsMempool_backend : RunsMempool backend.toIndexOps id :=
  ⟨fun _ => rfl, fun _ _ _ => ⟨rfl, rfl⟩⟩

/-- The output of the parent is unspent in the index, so it cannot be put back: the
child is gone, the removal has failed and the parent stays. -/
theorem child_first_fails :
    childFirst.Reached ∧ Acyclic childFirst.txs ∧ fitsTip ⟨0, idOf 0⟩ true nextBlock = true ∧
    ¬ SpentOutside childFirst.txs [idOf 2, idOf 1] ∧
    (applyJournalBlock backend childFirst () true [idOf 2, idOf 1] (some nextBlock)).2 = false ∧
    (applyJournalBlock backend childFirst () true [idOf 2, idOf 1] (some nextBlock)).1.txs.keys =
      [idOf 1] ∧
    ¬ ClearsConflicts backend childFirst () [idOf 2, idOf 1] nextBlock := by
  have hClosed : ¬ SpentOutside childFirst.txs [idOf 2, idOf 1] := by decide +kernel
  refine ⟨reached_insertAll (by decide +kernel), acyclic_of_rank rank (by decide +kernel),
    by decide +kernel, hClosed, by decide +kernel, by decide +kernel, fun h => ?_⟩
  obtain ⟨index', -, hDone, -⟩ := h.2 hClosed
  have hFails : (clearConflicts backend childFirst () (sortedSet [idOf 2, idOf 1])).2 = false := by
    decide +kernel
  rw [hDone] at hFails
  cases hFails

theorem undoable_child (group : UtxoGroup) : parentFirst.Undoable child.tx group := by
  have hUnspent : ∀ u ∈ parentFirst.takenOut child.tx group,
      (parentFirst.utxos group).has u = true := by
    cases group <;> decide +kernel
  refine ⟨?_, ?_, ?_, fun u hu => .inl (hUnspent u hu)⟩
  all_goals cases group <;> decide +kernel

theorem undoable_parent (group : UtxoGroup) : parentFirst.Undoable parent.tx group := by
  have hSpent : ∀ u ∈ parentFirst.takenOut parent.tx group,
      u ∈ parentFirst.putBack child.tx group := by
    cases group <;> decide +kernel
  have hChild : parentFirst.txs[idOf 2]? = some child := by decide +kernel
  refine ⟨?_, ?_, ?_, fun u hu => .inr ⟨idOf 2, child, hChild, hSpent u hu⟩⟩
  all_goals cases group <;> decide +kernel

theorem parent_first_clears :
    parentFirst.txs.keys = [idOf 1, idOf 2] ∧
      ClearsConflicts backend parentFirst () [idOf 2, idOf 1] nextBlock := by
  refine ⟨by decide +kernel, ?_⟩
  refine (applyJournalBlock_clearsConflicts_iff runsMempool_backend
    (reached_insertAll (by decide +kernel : (insertAll [parent, child]).isSome = true))
    (acyclic_of_rank rank (by decide +kernel)) (by decide) rfl (by decide +kernel)
    (by decide +kernel) (by decide)).mpr (.inr ?_)
  intro id hId row hRow
  rcases mem_cons.mp hId with rfl | hId
  · cases (show parentFirst.txs[idOf 2]? = some child by decide +kernel).symm.trans hRow
    exact undoable_child
  · cases mem_singleton.mp hId
    cases (show parentFirst.txs[idOf 1]? = some parent by decide +kernel).symm.trans hRow
    exact undoable_parent

end Conflicts

end Ergon.Archival
