import Ergon.Lib.Result
import Ergon.Lib.SortedColumn
import Ergon.Core.Tx

/-!
# Ergon — unspent outputs and spenders in the database

`GroupUtxoWriter` (`chronik-db/src/io/group_utxos.rs`) keeps the unspent outputs of
every member of a group, and `SpentByWriter` (`chronik-db/src/io/spent_by.rs`) keeps
for every transaction which of its outputs are spent, by which input. Both edit
sorted lists: insertions are merge operands, applied by the store to the value that
it has; a merge that fails fails the batch.

`Db/ChainUtxos.lean` says what is stored after runs of insertions and deletions.
-/

namespace Ergon.UtxoDb

open Lib List

/-! ## Unspent outputs -/

structure DbOutpoint where
  txNum : TxNum
  outIdx : Nat
deriving DecidableEq

instance : Ord DbOutpoint :=
  ⟨compareLex (compareOn DbOutpoint.txNum) (compareOn DbOutpoint.outIdx)⟩

instance : Std.TransOrd DbOutpoint :=
  inferInstanceAs (Std.TransCmp
    (compareLex (compareOn DbOutpoint.txNum) (compareOn DbOutpoint.outIdx)))

instance : Std.LawfulEqOrd DbOutpoint where
  compare_self := Std.ReflCmp.compare_self
  eq_of_compare {a b} h := by
    have hBoth : compare a.txNum b.txNum = .eq ∧ compare a.outIdx b.outIdx = .eq := by
      simpa [compare, compareLex, compareOn, Ordering.then_eq_eq] using h
    have hNum := Std.LawfulEqOrd.eq_of_compare hBoth.1
    have hIdx := Std.LawfulEqOrd.eq_of_compare hBoth.2
    cases a
    cases b
    cases hNum
    cases hIdx
    rfl

structure UtxoEntry (D : Type) where
  outpoint : DbOutpoint
  data : D
deriving DecidableEq

structure GroupQuery where
  isCoinbase : Bool
  tx : Tx

structure MemberItem (M : Type) where
  idx : Nat
  member : M

/-- What the writer needs of a group. -/
structure UtxoGroup (M Aux D : Type) where
  inputMembers : GroupQuery → Aux → List (MemberItem M)
  outputMembers : GroupQuery → Aux → List (MemberItem M)
  serMember : M → Bytes
  -- the data attached to an output, and those of an input without a coin
  fromOutput : TxOutput → D
  defaultData : D

inductive GroupUtxoError
  | duplicateUtxo (outpoint : DbOutpoint)
  | utxoDoesntExist (outpoint : DbOutpoint)
deriving DecidableEq

/-- `I` and an entry, or `D` and an outpoint. -/
abbrev UtxoOperand (D : Type) := Edit (UtxoEntry D) DbOutpoint

def applyMergeUtxos {D : Type} (entries : List (UtxoEntry D)) :
    UtxoOperand D → Except GroupUtxoError (List (UtxoEntry D))
  | .insert newEntry =>
    orElse (insertBy UtxoEntry.outpoint newEntry entries) (.duplicateUtxo newEntry.outpoint)
  | .remove deleteOutpoint =>
    orElse (removeBy UtxoEntry.outpoint deleteOutpoint entries) (.utxoDoesntExist deleteOutpoint)

def mergeUtxos {D : Type} (existing : Option (List (UtxoEntry D))) (operand : UtxoOperand D) :
    Option (List (UtxoEntry D)) :=
  (applyMergeUtxos (existing.getD []) operand).toOption

abbrev UtxoColumn (D : Type) := Column Bytes (List (UtxoEntry D))

/-- The transactions of a block with the data the group needs for them. -/
structure Block (Aux : Type) where
  txs : List IndexTx
  aux : Aux

namespace UtxoGroup

variable {M Aux D : Type} (g : UtxoGroup M Aux D)

/-- `none` where the index is out of range. -/
def outputUtxo (itx : IndexTx) (idx : Nat) : Option (UtxoEntry D) := do
  let output ← itx.tx.outputs[idx]?
  return ⟨⟨itx.txNum, idx⟩, g.fromOutput output⟩

def inputUtxo (itx : IndexTx) (idx : Nat) : Option (UtxoEntry D) := do
  let inputNum ← itx.inputNums[idx]?
  let input ← itx.tx.inputs[idx]?
  return ⟨⟨inputNum, input.prevOut.outIdx⟩,
    input.coin.elim g.defaultData fun coin => g.fromOutput coin.output⟩

/-- The members of the outputs with the entries of the outputs. -/
def outputItems (aux : Aux) (itx : IndexTx) : Option (List (M × UtxoEntry D)) :=
  (g.outputMembers ⟨itx.isCoinbase, itx.tx⟩ aux).mapM fun item =>
    (g.outputUtxo itx item.idx).map fun entry => (item.member, entry)

/-- The same for what the inputs spend; a coinbase is skipped. -/
def inputItems (aux : Aux) (itx : IndexTx) : Option (List (M × UtxoEntry D)) :=
  if itx.isCoinbase then some []
  else (g.inputMembers ⟨itx.isCoinbase, itx.tx⟩ aux).mapM fun item =>
    (g.inputUtxo itx item.idx).map fun entry => (item.member, entry)

def blockOutputs (block : Block Aux) : Option (List (M × UtxoEntry D)) :=
  (block.txs.mapM (g.outputItems block.aux)).map List.flatten

def blockInputs (block : Block Aux) : Option (List (M × UtxoEntry D)) :=
  (block.txs.mapM (g.inputItems block.aux)).map List.flatten

def insertUtxoEntry (item : M × UtxoEntry D) :
    ColumnOp Bytes (List (UtxoEntry D)) (UtxoOperand D) :=
  .merge (g.serMember item.1) (.insert item.2)

def deleteUtxoEntry (item : M × UtxoEntry D) :
    ColumnOp Bytes (List (UtxoEntry D)) (UtxoOperand D) :=
  .merge (g.serMember item.1) (.remove item.2.outpoint)

/-- All outputs of the block are added before any is spent. -/
def insertOps (block : Block Aux) :
    Option (List (ColumnOp Bytes (List (UtxoEntry D)) (UtxoOperand D))) := do
  let outputs ← g.blockOutputs block
  let inputs ← g.blockInputs block
  return outputs.map g.insertUtxoEntry ++ inputs.map g.deleteUtxoEntry

def deleteOps (block : Block Aux) :
    Option (List (ColumnOp Bytes (List (UtxoEntry D)) (UtxoOperand D))) := do
  let inputs ← g.blockInputs block
  let outputs ← g.blockOutputs block
  return inputs.map g.insertUtxoEntry ++ outputs.map g.deleteUtxoEntry

end UtxoGroup

/-- `GroupUtxoReader::utxos`; empty lists wait for the compaction. -/
def readUtxos {D : Type} (col : UtxoColumn D) (memberSer : Bytes) : Option (List (UtxoEntry D)) :=
  match col[memberSer]? with
  | some entries => if entries.isEmpty then none else some entries
  | none => none

/-! ## Spenders -/

structure SpentByEntry where
  outIdx : Nat
  txNum : TxNum
  inputIdx : Nat
deriving DecidableEq

inductive SpentByError
  | duplicateSpentByEntry (txNum : TxNum) (existing new : SpentByEntry)
  | mismatchedSpentByEntry (txNum : TxNum) (expected actual : SpentByEntry)
  | missingSpentByEntry (txNum : TxNum) (expected : SpentByEntry)
deriving DecidableEq

abbrev SpentByColumn := Column TxNum (List SpentByEntry)

def insertSpentBy (txNum : TxNum) (entries : List SpentByEntry) (spentBy : SpentByEntry) :
    Except SpentByError (List SpentByEntry) :=
  match binarySearchBy (fun entry => compare entry.outIdx spentBy.outIdx) entries with
  -- the search gives a position of the list
  | .ok idx => .error (.duplicateSpentByEntry txNum (entries[idx]?.getD spentBy) spentBy)
  | .error insertIdx => .ok (entries.insertIdx insertIdx spentBy)

def applyMergeSpentBy (txNum : TxNum) (entries extraEntries : List SpentByEntry) :
    Except SpentByError (List SpentByEntry) :=
  extraEntries.foldlM (insertSpentBy txNum) entries

/-- The operand carries the key, which the error names. -/
def mergeSpentBy (existing : Option (List SpentByEntry)) (operand : TxNum × List SpentByEntry) :
    Option (List SpentByEntry) :=
  (applyMergeSpentBy operand.1 (existing.getD []) operand.2).toOption

/-- The entries of a transaction's inputs, under the transactions they spend. -/
def spentByEntries (itx : IndexTx) : List (TxNum × SpentByEntry) :=
  if itx.isCoinbase then []
  else (itx.tx.inputs.zip itx.inputNums).zipIdx.map fun ((input, inputTxNum), inputIdx) =>
    (inputTxNum, ⟨input.prevOut.outIdx, itx.txNum, inputIdx⟩)

def blockSpends (txs : List IndexTx) : List (TxNum × SpentByEntry) := txs.flatMap spentByEntries

/-- The entries grouped by the transaction they are of. -/
def spentByMap (spends : List (TxNum × SpentByEntry)) : SpentByColumn :=
  spends.foldl (fun map spend => map.insert spend.1 (listAt map spend.1 ++ [spend.2])) ∅

def insertSpentByOps (txs : List IndexTx) :
    List (ColumnOp TxNum (List SpentByEntry) (TxNum × List SpentByEntry)) :=
  (spentByMap (blockSpends txs)).toList.flatMap fun entry => [.merge entry.1 entry]

/-- Taken from the entries changed so far, or else from the database. -/
def getOrFetch (col map : SpentByColumn) (txNum : TxNum) : List SpentByEntry :=
  map[txNum]?.getD (listAt col txNum)

def deleteSpentBy (col map : SpentByColumn) (spend : TxNum × SpentByEntry) :
    Except SpentByError SpentByColumn :=
  let entries := getOrFetch col map spend.1
  match binarySearchBy (fun entry => compare entry.outIdx spend.2.outIdx) entries with
  | .ok idx =>
    let actual := entries[idx]?.getD spend.2
    if actual = spend.2 then .ok (map.insert spend.1 (entries.eraseIdx idx))
    else .error (.mismatchedSpentByEntry spend.1 spend.2 actual)
  | .error _ => .error (.missingSpentByEntry spend.1 spend.2)

def deleteSpentByOps (col : SpentByColumn) (txs : List IndexTx) :
    Except SpentByError
      (List (ColumnOp TxNum (List SpentByEntry) (TxNum × List SpentByEntry))) := do
  let map ← (blockSpends txs).foldlM (deleteSpentBy col) ∅
  return listOps map

/-! ## Both -/

structure Db (D : Type) where
  utxos : UtxoColumn D
  spentBy : SpentByColumn

inductive WriteError
  | panic
  | merge
  | spentBy (error : SpentByError)
deriving DecidableEq

section Write

variable {M Aux D : Type} (g : UtxoGroup M Aux D)

def insertBlock (db : Db D) (block : Block Aux) : Except WriteError (Db D) := do
  let ops ← orElse (g.insertOps block) .panic
  let utxos ← orElse (db.utxos.write mergeUtxos ops) .merge
  let spentBy ← orElse (db.spentBy.write mergeSpentBy (insertSpentByOps block.txs)) .merge
  return ⟨utxos, spentBy⟩

def deleteBlock (db : Db D) (block : Block Aux) : Except WriteError (Db D) := do
  let ops ← orElse (g.deleteOps block) .panic
  let utxos ← orElse (db.utxos.write mergeUtxos ops) .merge
  let spentByOps ← (deleteSpentByOps db.spentBy block.txs).mapError .spentBy
  let spentBy ← orElse (db.spentBy.write mergeSpentBy spentByOps) .merge
  return ⟨utxos, spentBy⟩

end Write

/-! ## Merging -/

theorem toOption_orElse {ε α : Type} (x : Option α) (e : ε) : (orElse x e).toOption = x := by
  cases x <;> rfl

theorem mergeUtxos_eq {D : Type} :
    (mergeUtxos : Option (List (UtxoEntry D)) → _) = applyEdit UtxoEntry.outpoint := by
  funext existing operand
  cases operand <;> exact toOption_orElse _ _

theorem toOption_insertSpentBy (txNum : TxNum) (entries : List SpentByEntry)
    (spentBy : SpentByEntry) :
    (insertSpentBy txNum entries spentBy).toOption =
      insertBy SpentByEntry.outIdx spentBy entries := by
  unfold insertSpentBy insertBy
  cases binarySearchBy (fun entry => compare entry.outIdx spentBy.outIdx) entries <;> rfl

theorem mergeSpentBy_eq (existing : Option (List SpentByEntry))
    (operand : TxNum × List SpentByEntry) :
    mergeSpentBy existing operand =
      operand.2.foldlM (fun l spentBy => insertBy SpentByEntry.outIdx spentBy l)
        (existing.getD []) := by
  obtain ⟨txNum, extraEntries⟩ := operand
  unfold mergeSpentBy applyMergeSpentBy
  dsimp only
  generalize existing.getD [] = entries
  induction extraEntries generalizing entries with
  | nil => rfl
  | cons spentBy extraEntries ih =>
    rw [foldlM_cons, foldlM_cons, ← toOption_insertSpentBy txNum]
    cases insertSpentBy txNum entries spentBy with
    | error e => rfl
    | ok mid => exact ih mid

/-! ## The writer of spenders -/

theorem listAt_spentByMap (spends : List (TxNum × SpentByEntry)) (n : TxNum) :
    listAt (spentByMap spends) n = (spends.filter fun spend => spend.1 = n).map Prod.snd ∧
      ((spentByMap spends)[n]? = none ↔ ∀ spend ∈ spends, spend.1 ≠ n) := by
  unfold spentByMap
  induction spends using List.reverseRecOn with
  | nil => exact ⟨rfl, by simp⟩
  | append_singleton spends spend ih =>
    rw [foldl_append, foldl_cons, foldl_nil]
    generalize spends.foldl (fun map spend =>
      map.insert spend.1 (listAt map spend.1 ++ [spend.2])) (∅ : SpentByColumn) = map at ih
    rw [listAt, Column.getElem?_insert, filter_append, map_append]
    by_cases hEq : spend.1 = n
    · subst hEq
      refine ⟨by simp [← ih.1], ?_⟩
      rw [if_pos rfl]
      exact ⟨fun h => absurd h (Option.some_ne_none _),
        fun hNot => absurd rfl (hNot spend (by simp))⟩
    · rw [if_neg hEq]
      have hLast : ∀ other ∈ [spend], other.1 ≠ n := by simpa using hEq
      refine ⟨by simp [hEq, ← ih.1, listAt], ?_⟩
      rw [ih.2, forall_mem_append, and_iff_left hLast]

section SpentBy

variable {col : SpentByColumn} {spends : List (TxNum × SpentByEntry)}

/-- Spends of outputs that have no entry are added. -/
theorem exists_write_insertSpentBy {txs : List IndexTx}
    (hSorted : ∀ n, SortedBy SpentByEntry.outIdx (listAt col n))
    (hNodup : ((blockSpends txs).map fun p => (p.1, p.2.outIdx)).Nodup)
    (hFresh : ∀ p ∈ blockSpends txs, ∀ e ∈ listAt col p.1, e.outIdx ≠ p.2.outIdx) :
    ∃ col', col.write mergeSpentBy (insertSpentByOps txs) = some col' ∧
      ∀ n, SortedBy SpentByEntry.outIdx (listAt col' n) ∧
        (∀ e, e ∈ listAt col' n ↔ e ∈ listAt col n ∨ (n, e) ∈ blockSpends txs) ∧
        (col'[n]? = none ↔ col[n]? = none ∧ ∀ p ∈ blockSpends txs, p.1 ≠ n) := by
  have hMem : ∀ n e, e ∈ listAt (spentByMap (blockSpends txs)) n ↔ (n, e) ∈ blockSpends txs := by
    intro n e
    rw [(listAt_spentByMap _ n).1, mem_map]
    constructor
    · rintro ⟨⟨n', e'⟩, hFiltered, rfl⟩
      obtain ⟨hIn, hn⟩ := mem_filter.mp hFiltered
      rw [show n = n' from (of_decide_eq_true hn).symm]
      exact hIn
    · exact fun hIn => ⟨(n, e), mem_filter.mpr ⟨hIn, decide_eq_true rfl⟩, rfl⟩
  have hKeys : ∀ n, ((listAt (spentByMap (blockSpends txs)) n).map SpentByEntry.outIdx).Nodup := by
    intro n
    rw [(listAt_spentByMap _ n).1, map_map]
    have hSub := (hNodup.sublist (filter_sublist.map _) :
      (((blockSpends txs).filter fun spend => spend.1 = n).map fun p => (p.1, p.2.outIdx)).Nodup)
    refine List.Nodup.of_map (fun outIdx => (n, outIdx)) ?_
    rw [map_map]
    refine (map_congr_left fun p hp => ?_) ▸ hSub
    cases of_decide_eq_true (mem_filter.mp hp).2
    rfl
  obtain ⟨col', hWrite, hCol⟩ := exists_write_inserts mergeSpentBy_eq
    (spentByMap (blockSpends txs)) hSorted hKeys
    fun n a ha => hFresh (n, a) ((hMem n a).mp ha)
  refine ⟨col', hWrite, fun n => ?_⟩
  obtain ⟨hSorted', hMem', hNone⟩ := hCol n
  refine ⟨hSorted', fun e => ?_, ?_⟩
  · rw [hMem', hMem]
  · rw [hNone, (listAt_spentByMap _ n).2]

/-- One entry that is there is taken out. -/
theorem deleteSpentBy_spec {map : SpentByColumn} {spend : TxNum × SpentByEntry}
    (hSorted : ∀ n, SortedBy SpentByEntry.outIdx (getOrFetch col map n))
    (hMem : spend.2 ∈ getOrFetch col map spend.1) :
    ∃ map', deleteSpentBy col map spend = .ok map' ∧
      ∀ n, SortedBy SpentByEntry.outIdx (getOrFetch col map' n) ∧
        (∀ e, e ∈ getOrFetch col map' n ↔ e ∈ getOrFetch col map n ∧ (n, e) ≠ spend) ∧
        (map'[n]? = none ↔ map[n]? = none ∧ n ≠ spend.1) := by
  obtain ⟨idx, hSearch, hGet⟩ := (hSorted spend.1).search_of_mem hMem
  have hRemove : removeBy SpentByEntry.outIdx spend.2.outIdx (getOrFetch col map spend.1) =
      some ((getOrFetch col map spend.1).eraseIdx idx) := by
    rw [removeBy, hSearch]
  obtain ⟨-, hSorted', hMem'⟩ := (removeBy_eq_some (hSorted spend.1)).mp hRemove
  refine ⟨map.insert spend.1 ((getOrFetch col map spend.1).eraseIdx idx), ?_, fun n => ?_⟩
  · unfold deleteSpentBy
    dsimp only
    rw [hSearch]
    dsimp only
    rw [hGet, Option.getD_some, if_pos rfl]
  · unfold getOrFetch
    rw [Column.getElem?_insert]
    by_cases hEq : spend.1 = n
    · subst hEq
      rw [if_pos rfl, Option.getD_some]
      refine ⟨hSorted', fun e => (hMem' e).trans (and_congr_right fun hIn => ?_), by simp⟩
      -- entries of one list with one output are the same
      refine not_congr ⟨fun hIdx => ?_, fun hPair => by rw [← hPair]⟩
      exact Prod.ext rfl ((hSorted spend.1).eq_of_key hIn hMem hIdx)
    · rw [if_neg hEq]
      refine ⟨hSorted n, fun e => ?_, by simp [Ne.symm hEq]⟩
      rw [and_iff_left fun hPair => hEq (congrArg Prod.fst hPair).symm]

theorem foldlM_deleteSpentBy {map : SpentByColumn}
    (hSorted : ∀ n, SortedBy SpentByEntry.outIdx (getOrFetch col map n)) (hNodup : spends.Nodup)
    (hMem : ∀ spend ∈ spends, spend.2 ∈ getOrFetch col map spend.1) :
    ∃ map', spends.foldlM (deleteSpentBy col) map = .ok map' ∧
      ∀ n, SortedBy SpentByEntry.outIdx (getOrFetch col map' n) ∧
        (∀ e, e ∈ getOrFetch col map' n ↔ e ∈ getOrFetch col map n ∧ (n, e) ∉ spends) ∧
        (map'[n]? = none ↔ map[n]? = none ∧ ∀ spend ∈ spends, spend.1 ≠ n) := by
  induction spends generalizing map with
  | nil => exact ⟨map, rfl, fun n => ⟨hSorted n, fun e => by simp, by simp⟩⟩
  | cons spend spends ih =>
    rw [nodup_cons] at hNodup
    obtain ⟨mid, hFirst, hMid⟩ := deleteSpentBy_spec hSorted (hMem spend mem_cons_self)
    obtain ⟨map', hRest, hMap⟩ := @ih mid (fun n => (hMid n).1) hNodup.2 (by
      intro other hOther
      refine ((hMid _).2.1 _).mpr ⟨hMem other (mem_cons_of_mem _ hOther), ?_⟩
      rintro rfl
      exact hNodup.1 hOther)
    refine ⟨map', ?_, fun n => ⟨(hMap n).1, fun e => ?_, ?_⟩⟩
    · rw [foldlM_cons]
      exact bind_eq_ok.mpr ⟨mid, hFirst, hRest⟩
    · rw [(hMap n).2.1, (hMid n).2.1, mem_cons, not_or, and_assoc]
    · rw [(hMap n).2.2, (hMid n).2.2, forall_mem_cons, and_assoc, ne_comm]

/-- Spends that have their entries are taken out, and no list is left empty. -/
theorem exists_write_deleteSpentBy {txs : List IndexTx}
    (hSorted : ∀ n, SortedBy SpentByEntry.outIdx (listAt col n)) (hNodup : (blockSpends txs).Nodup)
    (hMem : ∀ spend ∈ blockSpends txs, spend.2 ∈ listAt col spend.1)
    (hFull : ∀ (n : TxNum) l, col[n]? = some l → l ≠ []) :
    ∃ ops col', deleteSpentByOps col txs = .ok ops ∧ col.write mergeSpentBy ops = some col' ∧
      ∀ n, SortedBy SpentByEntry.outIdx (listAt col' n) ∧
        (∀ e, e ∈ listAt col' n ↔ e ∈ listAt col n ∧ (n, e) ∉ blockSpends txs) ∧
        ∀ l, col'[n]? = some l → l ≠ [] := by
  obtain ⟨map, hFold, hMap⟩ := @foldlM_deleteSpentBy col (blockSpends txs) ∅ hSorted hNodup hMem
  obtain ⟨col', hWrite, hCol⟩ := getElem?_write_lists mergeSpentBy col map
  have hList : ∀ n, listAt col' n = getOrFetch col map n := fun n => (hCol n).2
  refine ⟨listOps map, col', bind_eq_ok.mpr ⟨map, hFold, rfl⟩, hWrite, fun n => ?_⟩
  rw [hList]
  refine ⟨(hMap n).1, (hMap n).2.1, fun l hGet => ?_⟩
  rw [(hCol n).1] at hGet
  cases hNow : map[n]? with
  | none =>
    rw [hNow] at hGet
    exact hFull n l hGet
  | some l' =>
    rw [hNow] at hGet
    dsimp only [Option.elim] at hGet
    split at hGet
    · cases hGet
    · next hNot =>
      cases hGet
      exact fun hNil => hNot (List.isEmpty_iff.mpr hNil)

end SpentBy

end Ergon.UtxoDb
