import Ergon.Db.HistoryPages

/-!
# Ergon — inserting and deleting blocks of a group history

`StoredAt` says that a database stores a list of transaction numbers under a
serialised member, `Represents` that it does so for every member. A block's batch
is made of one batch per member of the block; members with different
serialisations own disjoint keys, so the loops of `Db/HistoryPages.lean` can be
put together.

* `insert_stored` — inserting a block appends its transactions to the list of
  every member of the block and touches no other key;
* `Stored.storedAt` — so the lists of a database built by insertions are what the
  blocks appended, if no block has two members with one serialisation;
* `insert_delete_restores_iff` — inserting a block and deleting it again gives
  the pages and counts back exactly when, for every member of the block, the
  page that the deletion only trims loses the right number of bytes.
-/

namespace Ergon

open Lib List Option Column Std.ExtTreeMap

namespace Group

/-! ## Batches made of one batch per member -/

variable {new : List TxNum}

section Batches

variable {M : Type} [Ord M] [Std.TransOrd M]

theorem pushTxNum_ne_nil (txNums : List TxNum) (n : TxNum) : pushTxNum txNums n ≠ [] := by
  unfold pushTxNum
  split
  · next hLast =>
    rintro rfl
    cases hLast
  · simp

/-- Members are only grouped with the transactions they occur in. -/
theorem groupTxs_ne_nil {g : Group M} {txs : List IndexTx} {m : M}
    (h : (g.groupTxs txs)[m]? = some new) : new ≠ [] := by
  -- no step of the two nested folds stores an empty list
  let NoEmpty (grouped : Column M (List TxNum)) : Prop :=
    ∀ (m : M) (l : List TxNum), grouped[m]? = some l → l ≠ []
  have hNoEmpty : NoEmpty (g.groupTxs txs) := by
    refine List.foldlRecOn txs _ (motive := NoEmpty) (fun m l hGet => ?_) fun acc hAcc tx _ => ?_
    · rw [getElem?_empty] at hGet
      cases hGet
    · refine List.foldlRecOn (g.txMembers tx) _ (motive := NoEmpty) hAcc
        fun acc' hAcc' member _ m l hGet => ?_
      rw [Std.ExtTreeMap.getElem?_insert] at hGet
      split at hGet
      · cases hGet
        exact pushTxNum_ne_nil _ _
      · exact hAcc' m l hGet
  exact hNoEmpty m new h

/-- The batches only write pages and counts of their own member. -/
structure OwnKeys (g : Group M) (f : M × List TxNum → HistoryBatch) : Prop where
  pages : ∀ e, ∀ op ∈ (f e).pages, ∃ i, op.key = keyForMemberPage (g.serMember e.1) i
  numTxs : ∀ e, ∀ op ∈ (f e).numTxs, op.key = g.serMember e.1

/-- The batch of a block: one batch for each of its members. -/
def blockBatch (g : Group M) (txs : List IndexTx) (f : M × List TxNum → HistoryBatch) :
    HistoryBatch :=
  .concat ((g.groupTxs txs).toList.map f)

/-- The page keys of the members of a block. -/
def BlockPage (g : Group M) (txs : List IndexTx) (k : Bytes) : Prop :=
  ∃ m new i, (g.groupTxs txs)[m]? = some new ∧ i < 2 ^ 32 ∧
    k = keyForMemberPage (g.serMember m) i

/-- The count keys of the members of a block. -/
def BlockMember (g : Group M) (txs : List IndexTx) (k : Bytes) : Prop :=
  ∃ m new, (g.groupTxs txs)[m]? = some new ∧ k = g.serMember m

/-- Different members of the block have different serialisations. -/
def DistinctSer (g : Group M) (txs : List IndexTx) : Prop :=
  ∀ m m' new new', (g.groupTxs txs)[m]? = some new → (g.groupTxs txs)[m']? = some new' →
    g.serMember m = g.serMember m' → m = m'

/-- The four bytes of the page number end the key. -/
theorem keyForMemberPage_ser {ser ser' : Bytes} {i j : Nat}
    (h : keyForMemberPage ser i = keyForMemberPage ser' j) : ser = ser' :=
  append_inj_left' h (by simp)

variable [Std.LawfulEqOrd M] {g : Group M} {txs : List IndexTx}
  {f : M × List TxNum → HistoryBatch}

theorem blockBatch_pages_at (hSer : DistinctSer g txs) (hOwn : OwnKeys g f) {m : M}
    (hm : (g.groupTxs txs)[m]? = some new) (i : Nat) (v : Option Bytes) :
    valueAt applyConcatTrim (keyForMemberPage (g.serMember m) i) (g.blockBatch txs f).pages v =
      valueAt applyConcatTrim (keyForMemberPage (g.serMember m) i) (f (m, new)).pages v := by
  simp only [blockBatch, HistoryBatch.concat, flatMap_map]
  refine valueAt_toList hm (fun m' new' hm' hne op hop hEq => hne ?_) v
  obtain ⟨j, hj⟩ := hOwn.pages _ op hop
  exact hSer m' m new' new hm' hm (keyForMemberPage_ser (hj.symm.trans hEq))

theorem blockBatch_pages_other (hOwn : OwnKeys g f) {k : Bytes} (hk : ¬ BlockPage g txs k)
    (v : Option Bytes) : valueAt applyConcatTrim k (g.blockBatch txs f).pages v = some v := by
  simp only [blockBatch, HistoryBatch.concat, flatMap_map]
  refine valueAt_of_forall_ne (fun op hop hEq => hk ?_) v
  obtain ⟨e, he, hop⟩ := mem_flatMap.mp hop
  obtain ⟨i, hi⟩ := hOwn.pages e op hop
  refine ⟨e.1, e.2, i % 2 ^ 32, mem_toList_iff_getElem?_eq_some.mp he,
    Nat.mod_lt _ (by norm_num), ?_⟩
  rw [keyForMemberPage_mod, ← hi, hEq]

theorem blockBatch_numTxs_at (hSer : DistinctSer g txs) (hOwn : OwnKeys g f) {m : M}
    (hm : (g.groupTxs txs)[m]? = some new) (v : Option Nat) :
    valueAt noMerge (g.serMember m) (g.blockBatch txs f).numTxs v =
      valueAt noMerge (g.serMember m) (f (m, new)).numTxs v := by
  simp only [blockBatch, HistoryBatch.concat, flatMap_map]
  refine valueAt_toList hm (fun m' new' hm' hne op hop hEq => hne ?_) v
  rw [hOwn.numTxs _ op hop] at hEq
  exact hSer m' m new' new hm' hm hEq

theorem blockBatch_numTxs_other (hOwn : OwnKeys g f) {k : Bytes} (hk : ¬ BlockMember g txs k)
    (v : Option Nat) : valueAt noMerge k (g.blockBatch txs f).numTxs v = some v := by
  simp only [blockBatch, HistoryBatch.concat, flatMap_map]
  refine valueAt_of_forall_ne (fun op hop hEq => hk ?_) v
  obtain ⟨e, he, hop⟩ := mem_flatMap.mp hop
  exact ⟨e.1, e.2, mem_toList_iff_getElem?_eq_some.mp he, by rw [← hEq, hOwn.numTxs e op hop]⟩

end Batches

/-! ## The stored content -/

section Content

variable {M : Type}

/-- The database stores the lists `hist`, one for every member. -/
structure Represents (g : Group M) (db : HistoryDb) (hist : M → List TxNum) : Prop where
  numTxs : ∀ m, db.numTxs[g.serMember m]? =
    if hist m = [] then none else some (hist m).length
  pages : ∀ m, ∀ i < 2 ^ 32, db.pages[keyForMemberPage (g.serMember m) i]? =
    pageValue g.pageSize (hist m) i

/-- The database stores the list under the serialised member. -/
structure StoredAt (pageSize : Nat) (db : HistoryDb) (memberSer : Bytes) (txNums : List TxNum) :
    Prop where
  numTxs : db.numTxs[memberSer]? = if txNums = [] then none else some txNums.length
  pages : ∀ i < 2 ^ 32, db.pages[keyForMemberPage memberSer i]? = pageValue pageSize txNums i

variable {db : HistoryDb} {ser : Bytes}

theorem StoredAt.getD_numTxs {p : Nat} {l : List TxNum} (h : StoredAt p db ser l) :
    db.numTxs.getD ser 0 = l.length := by
  rw [getD_eq_getD_getElem?, h.numTxs]
  split
  · next hNil => rw [hNil]; rfl
  · rfl

variable {g : Group M} {hist : M → List TxNum}

theorem Represents.storedAt (hRep : Represents g db hist) (m : M) :
    StoredAt g.pageSize db (g.serMember m) (hist m) :=
  ⟨hRep.numTxs m, hRep.pages m⟩

theorem Represents.getD_numTxs (hRep : Represents g db hist) (m : M) :
    db.numTxs.getD (g.serMember m) 0 = (hist m).length :=
  (hRep.storedAt m).getD_numTxs

theorem exists_valueAt_noMerge {V : Type} (k : Bytes) (ops : List (ColumnOp Bytes V Empty))
    (v : Option V) : ∃ w, valueAt noMerge k ops v = some w := by
  induction ops generalizing v with
  | nil => exact ⟨v, rfl⟩
  | cons op ops ih =>
    rw [valueAt]
    split
    · cases op with
      | put k' v' => exact ih (some v')
      | delete k' => exact ih none
      | merge k' m => exact m.elim
    · exact ih v

variable {batch : HistoryBatch}

/-- A batch whose page writes succeed succeeds, and what it stores can be read
off key by key. -/
theorem write_of_pages (h : ∀ k, ∃ v, valueAt applyConcatTrim k batch.pages db.pages[k]? = some v) :
    ∃ db', db.write batch = some db' ∧
      (∀ k, valueAt applyConcatTrim k batch.pages db.pages[k]? = some db'.pages[k]?) ∧
      ∀ k, valueAt noMerge k batch.numTxs db.numTxs[k]? = some db'.numTxs[k]? := by
  obtain ⟨pages, hPages⟩ := exists_write h
  obtain ⟨numTxs, hNum⟩ := exists_write
    fun k => exists_valueAt_noMerge k batch.numTxs db.numTxs[k]?
  obtain ⟨hashes, hHash⟩ := exists_write
    fun k => exists_valueAt_noMerge k batch.memberHash db.memberHash[k]?
  refine ⟨⟨pages, numTxs, hashes⟩, ?_, write_eq_some_iff.mp hPages, write_eq_some_iff.mp hNum⟩
  simp [HistoryDb.write, hPages, hNum, hHash]

theorem write_eq_some {db db' : HistoryDb} (h : db.write batch = some db') :
    (∀ k, valueAt applyConcatTrim k batch.pages db.pages[k]? = some db'.pages[k]?) ∧
      ∀ k, valueAt noMerge k batch.numTxs db.numTxs[k]? = some db'.numTxs[k]? := by
  simp only [HistoryDb.write, bind_eq_bind, bind_eq_some_iff, Option.pure_def,
    Option.some.injEq] at h
  obtain ⟨pages, hPages, numTxs, hNum, hashes, -, rfl⟩ := h
  exact ⟨write_eq_some_iff.mp hPages, write_eq_some_iff.mp hNum⟩

theorem ownKeys_insertMember (g : Group M) (enabled : Bool) (db : HistoryDb) :
    OwnKeys g (g.insertMember enabled db) where
  pages e op hop := by
    rw [insertMember] at hop
    exact insertLoop_key hop
  numTxs e op hop := by
    rw [insertMember] at hop
    dsimp only at hop
    rw [mem_singleton] at hop
    rw [hop]
    rfl

/-- The deletion batch of one member, as a total function. -/
def deleteBatch (g : Group M) (enabled : Bool) (db : HistoryDb) (e : M × List TxNum) :
    HistoryBatch :=
  (g.deleteMember enabled db e).getD ⟨[], [], []⟩

theorem ownKeys_deleteBatch (g : Group M) (enabled : Bool) (db : HistoryDb) :
    OwnKeys g (g.deleteBatch enabled db) := by
  have hCases : ∀ e, g.deleteBatch enabled db e = ⟨[], [], []⟩ ∨
      g.deleteMember enabled db e = some (g.deleteBatch enabled db e) := by
    intro e
    unfold deleteBatch
    cases g.deleteMember enabled db e <;> simp
  constructor
  · intro e op hop
    rcases hCases e with hNil | hSome
    · rw [hNil] at hop
      cases hop
    · simp only [deleteMember, map_eq_some_iff] at hSome
      obtain ⟨⟨ops, n⟩, hLoop, hEq⟩ := hSome
      rw [← hEq] at hop
      exact deleteLoop_key hLoop hop
  · intro e op hop
    rcases hCases e with hNil | hSome
    · rw [hNil] at hop
      cases hop
    · simp only [deleteMember, map_eq_some_iff] at hSome
      obtain ⟨⟨ops, n⟩, -, hEq⟩ := hSome
      rw [← hEq] at hop
      dsimp only at hop
      split at hop <;> · rw [mem_singleton] at hop; rw [hop]; rfl

variable [Ord M] [Std.TransOrd M]

/-- The transactions of the block, by member. -/
def added (g : Group M) (txs : List IndexTx) (m : M) : List TxNum := (g.groupTxs txs).getD m []

variable {m : M}

theorem added_of_getElem? {txs : List IndexTx} (hm : (g.groupTxs txs)[m]? = some new) :
    g.added txs m = new := by
  rw [added, getD_eq_getD_getElem?, hm]
  rfl

variable {g : Group M} {db : HistoryDb} {hist : M → List TxNum} {txs : List IndexTx}

theorem added_of_getElem?_none (h : (g.groupTxs txs)[m]? = none) : g.added txs m = [] := by
  rw [added, getD_eq_getD_getElem?, h]
  rfl

/-- A list under a serialised member that the block does not have stays as it is. -/
theorem StoredAt.frame {db' : HistoryDb} {p : Nat} {l : List TxNum} (h : StoredAt p db ser l)
    (hPages : ∀ k, ¬ BlockPage g txs k → db'.pages[k]? = db.pages[k]?)
    (hNum : ∀ k, ¬ BlockMember g txs k → db'.numTxs[k]? = db.numTxs[k]?)
    (hSer : ∀ m new, (g.groupTxs txs)[m]? = some new → g.serMember m ≠ ser) :
    StoredAt p db' ser l where
  numTxs := by
    rw [hNum ser, h.numTxs]
    rintro ⟨m, new, hm, hEq⟩
    exact hSer m new hm hEq.symm
  pages i hi := by
    rw [hPages _, h.pages i hi]
    rintro ⟨m, new, j, hm, -, hEq⟩
    exact hSer m new hm (keyForMemberPage_ser hEq).symm

theorem distinctSer_of_prefixFree (hSer : PrefixFree g.serMember) : DistinctSer g txs :=
  fun m m' _ _ _ _ hEq => hSer.eq_of_prefix (show g.serMember m <+: g.serMember m' by rw [hEq])

private theorem mapM_eq_some_map {α β : Type} {f : α → Option β} {f' : α → β} {l : List α}
    (h : ∀ a ∈ l, f a = some (f' a)) : l.mapM f = some (l.map f') := by
  induction l with
  | nil => rfl
  | cons a l ih =>
    rw [mapM_cons, h a mem_cons_self, ih fun b hb => h b (mem_cons_of_mem _ hb)]
    rfl

/-- What the deletion does to the pages and the count of one member of the
block, if the database stores the block at the end of `hist`. -/
theorem deleteMember_spec (hp : 0 < g.pageSize)
    (hRep : Represents g db fun m => hist m ++ g.added txs m) (enabled : Bool)
    (hm : (g.groupTxs txs)[m]? = some new) (hFit : (hist m).length + new.length < 2 ^ 32) :
    g.deleteMember enabled db (m, new) = some (g.deleteBatch enabled db (m, new)) ∧
    (g.deleteBatch enabled db (m, new)).numTxs = (if (hist m).length > 0
      then [.put (g.serMember m) (hist m).length] else [.delete (g.serMember m)]) ∧
    ∀ i < 2 ^ 32, valueAt applyConcatTrim (keyForMemberPage (g.serMember m) i)
        (g.deleteBatch enabled db (m, new)).pages (pageValue g.pageSize (hist m ++ new) i) =
      if i = (hist m).length / g.pageSize ∧ (hist m).length % g.pageSize ≠ 0
      then trimFirstPage g.pageSize (hist m) new else some (pageValue g.pageSize (hist m) i) := by
  have hNum : db.numTxs.getD (g.serMember m) 0 = (hist m).length + new.length := by
    rw [hRep.getD_numTxs m, added_of_getElem? hm, length_append]
  have hPos : 0 < new.length := length_pos_iff.mpr (groupTxs_ne_nil hm)
  set n := (hist m).length + new.length with hn
  obtain ⟨ops, hOps, hVal⟩ := @deleteLoop_spec g.pageSize (g.serMember m) hp
    (n / g.pageSize + 2) (n / g.pageSize) (n % g.pageSize) new.length (hist m) new
    hPos le_rfl (by rw [Nat.mul_comm]; exact (Nat.div_add_mod _ _).symm)
    (Nat.mod_lt _ hp).le (.inr rfl) (by omega) hFit
  have hMember : g.deleteMember enabled db (m, new) = some
      { pages := ops
        numTxs := if (hist m).length > 0 then [.put (g.serMember m) (hist m).length]
          else [.delete (g.serMember m)]
        memberHash := if (hist m).length = 0 && g.cfMemberHash && enabled
          then [.delete (g.serHashMember m)] else [] } := by
    simp only [deleteMember, hNum]
    rw [hOps]
    rfl
  rw [take_length] at hVal
  unfold deleteBatch
  rw [hMember]
  exact ⟨rfl, rfl, hVal⟩

variable [Std.LawfulEqOrd M]

/-- **Insertion appends.** Inserting a block never fails, appends the block's
transactions to the list of every member of the block, and leaves all other keys
alone. -/
theorem insert_stored (hp : 0 < g.pageSize) (hSer : DistinctSer g txs) (enabled : Bool)
    (hStored : ∀ m new, (g.groupTxs txs)[m]? = some new →
      StoredAt g.pageSize db (g.serMember m) (hist m))
    (hFit : ∀ m new, (g.groupTxs txs)[m]? = some new →
      (hist m).length + new.length < 2 ^ 32) :
    ∃ db', g.insert enabled db txs = some db' ∧
      (∀ m new, (g.groupTxs txs)[m]? = some new →
        StoredAt g.pageSize db' (g.serMember m) (hist m ++ new)) ∧
      (∀ k, ¬ BlockPage g txs k → db'.pages[k]? = db.pages[k]?) ∧
      ∀ k, ¬ BlockMember g txs k → db'.numTxs[k]? = db.numTxs[k]? := by
  have hOwn := ownKeys_insertMember g enabled db
  -- what the loop of one member does
  have hLoop : ∀ m new, (g.groupTxs txs)[m]? = some new →
      (g.insertMember enabled db (m, new)).numTxs =
        [.put (g.serMember m) ((hist m).length + new.length)] ∧
      ∀ i < 2 ^ 32, valueAt applyConcatTrim (keyForMemberPage (g.serMember m) i)
        (g.insertMember enabled db (m, new)).pages (pageValue g.pageSize (hist m) i) =
          some (pageValue g.pageSize (hist m ++ new) i) := by
    intro m new hm
    have hSpec := @insertLoop_spec g.pageSize (g.serMember m) hp (new.length + 1)
      ((hist m).length / g.pageSize) ((hist m).length % g.pageSize) (hist m).length (hist m) new
      (by rw [Nat.mul_comm]; exact (Nat.div_add_mod _ _).symm) (Nat.mod_lt _ hp)
      (groupTxs_ne_nil hm) (Nat.lt_succ_self _) (hFit m new hm)
    simp only [insertMember, (hStored m new hm).getD_numTxs]
    exact ⟨by rw [hSpec.1], hSpec.2⟩
  have hPages : ∀ m new i, (g.groupTxs txs)[m]? = some new → i < 2 ^ 32 →
      valueAt applyConcatTrim (keyForMemberPage (g.serMember m) i)
        (g.blockBatch txs (g.insertMember enabled db)).pages
        db.pages[keyForMemberPage (g.serMember m) i]? =
      some (pageValue g.pageSize (hist m ++ new) i) := by
    intro m new i hm hi
    rw [blockBatch_pages_at hSer hOwn hm, (hStored m new hm).pages i hi, (hLoop m new hm).2 i hi]
  obtain ⟨db', hWrite, hP, hN⟩ :=
    @write_of_pages db (g.blockBatch txs (g.insertMember enabled db)) fun k => by
      by_cases hk : BlockPage g txs k
      · obtain ⟨m, new, i, hm, hi, rfl⟩ := hk
        exact ⟨_, hPages m new i hm hi⟩
      · exact ⟨_, blockBatch_pages_other hOwn hk _⟩
  refine ⟨db', hWrite, fun m new hm => ⟨?_, fun i hi => ?_⟩, fun k hk => ?_, fun k hk => ?_⟩
  · have hVal := hN (g.serMember m)
    rw [blockBatch_numTxs_at hSer hOwn hm, (hLoop m new hm).1, valueAt_put_self] at hVal
    rw [if_neg (by simp [groupTxs_ne_nil hm]), length_append]
    exact (Option.some.inj hVal).symm
  · have hVal := hP (keyForMemberPage (g.serMember m) i)
    rw [hPages m new i hm hi] at hVal
    exact (Option.some.inj hVal).symm
  · exact Option.some.inj ((hP k).symm.trans (blockBatch_pages_other hOwn hk _))
  · exact Option.some.inj ((hN k).symm.trans (blockBatch_numTxs_other hOwn hk _))

/-- If all members have different serialisations, the block is appended to the
lists of all members. -/
theorem represents_insert (hp : 0 < g.pageSize) (hSer : PrefixFree g.serMember)
    (hRep : Represents g db hist) (enabled : Bool)
    (hFit : ∀ m, (hist m).length + (g.added txs m).length < 2 ^ 32) :
    ∃ db', g.insert enabled db txs = some db' ∧
      Represents g db' (fun m => hist m ++ g.added txs m) ∧
      (∀ k, ¬ BlockPage g txs k → db'.pages[k]? = db.pages[k]?) ∧
      ∀ k, ¬ BlockMember g txs k → db'.numTxs[k]? = db.numTxs[k]? := by
  obtain ⟨db', hInsert, hStored, hPages, hNum⟩ := insert_stored hp
    (distinctSer_of_prefixFree hSer) enabled (fun m _ _ => hRep.storedAt m)
    fun m _ hm => added_of_getElem? hm ▸ hFit m
  have hAll : ∀ m, StoredAt g.pageSize db' (g.serMember m) (hist m ++ g.added txs m) := by
    intro m
    cases hm : (g.groupTxs txs)[m]? with
    | none =>
      rw [added_of_getElem?_none hm, append_nil]
      refine (hRep.storedAt m).frame hPages hNum fun m' new hm' hEq => ?_
      rw [hSer.eq_of_prefix (show g.serMember m' <+: g.serMember m by rw [hEq]), hm] at hm'
      cases hm'
    | some new =>
      rw [added_of_getElem? hm]
      exact hStored m new hm
  exact ⟨db', hInsert, ⟨fun m => (hAll m).numTxs, fun m => (hAll m).pages⟩, hPages, hNum⟩

/-- Deleting the block succeeds exactly when writing its batch does. -/
theorem delete_eq_write (hp : 0 < g.pageSize)
    (hRep : Represents g db fun m => hist m ++ g.added txs m) (enabled : Bool)
    (hFit : ∀ m, (hist m).length + (g.added txs m).length < 2 ^ 32) :
    g.delete enabled db txs = db.write (g.blockBatch txs (g.deleteBatch enabled db)) := by
  have hAll : ∀ e ∈ (g.groupTxs txs).toList,
      g.deleteMember enabled db e = some (g.deleteBatch enabled db e) := by
    intro e he
    have hm := mem_toList_iff_getElem?_eq_some.mp he
    exact (deleteMember_spec hp hRep enabled hm (added_of_getElem? hm ▸ hFit e.1)).1
  rw [delete, mapM_eq_some_map hAll]
  rfl

/-- **Insertion, then deletion.** On a database that stores `hist`, deleting
the block that was just inserted gives the pages and the counts back exactly
when the trimmed page of every member of the block matches. -/
theorem restores_iff_of_represents (hp : 0 < g.pageSize) (hSer : PrefixFree g.serMember)
    (hRep : Represents g db hist) (enabled₁ enabled₂ : Bool)
    (hFit : ∀ m, (hist m).length + (g.added txs m).length < 2 ^ 32) :
    (∃ db₁ db₂, g.insert enabled₁ db txs = some db₁ ∧ g.delete enabled₂ db₁ txs = some db₂ ∧
      db₂.pages = db.pages ∧ db₂.numTxs = db.numTxs) ↔
    ∀ m new, (g.groupTxs txs)[m]? = some new →
      TrimMatches g.pageSize (hist m).length new := by
  obtain ⟨db₁, hInsert, hRep₁, hPages₁, hNum₁⟩ :=
    represents_insert hp hSer hRep enabled₁ hFit
  have hOwn := ownKeys_deleteBatch g enabled₂ db₁
  have hDistinct : DistinctSer g txs := distinctSer_of_prefixFree hSer
  have hDelete := delete_eq_write hp hRep₁ enabled₂ hFit
  -- what the deletion batch does to a page of a member of the block
  have hAt : ∀ m new i, (g.groupTxs txs)[m]? = some new → i < 2 ^ 32 →
      valueAt applyConcatTrim (keyForMemberPage (g.serMember m) i)
        (g.blockBatch txs (g.deleteBatch enabled₂ db₁)).pages
        db₁.pages[keyForMemberPage (g.serMember m) i]? =
      if i = (hist m).length / g.pageSize ∧ (hist m).length % g.pageSize ≠ 0
      then trimFirstPage g.pageSize (hist m) new else some (pageValue g.pageSize (hist m) i) := by
    intro m new i hm hi
    have hSpec := (deleteMember_spec hp hRep₁ enabled₂ hm (added_of_getElem? hm ▸ hFit m)).2.2 i hi
    rw [blockBatch_pages_at hDistinct hOwn hm, hRep₁.pages m i hi, added_of_getElem? hm, hSpec]
  constructor
  · rintro ⟨db₁', db₂, hInsert', hDelete', hPages, -⟩ m new hm
    obtain rfl : db₁ = db₁' := Option.some.inj (hInsert.symm.trans hInsert')
    by_cases hMod : (hist m).length % g.pageSize = 0
    · exact .inl hMod
    · -- look at the page that was begun before the block
      have hi : (hist m).length / g.pageSize < 2 ^ 32 := by
        have := Nat.div_le_self (hist m).length g.pageSize
        have := hFit m
        omega
      rw [hDelete] at hDelete'
      have hVal := (write_eq_some hDelete').1
        (keyForMemberPage (g.serMember m) ((hist m).length / g.pageSize))
      rw [hAt m new _ hm hi, if_pos ⟨rfl, hMod⟩, hPages, hRep.pages m _ hi] at hVal
      exact (trimFirstPage_eq_iff hp hMod).mp hVal
  · intro hTrim
    have hRestore : ∀ k, valueAt applyConcatTrim k
        (g.blockBatch txs (g.deleteBatch enabled₂ db₁)).pages db₁.pages[k]? =
          some db.pages[k]? := by
      intro k
      by_cases hk : BlockPage g txs k
      · obtain ⟨m, new, i, hm, hi, rfl⟩ := hk
        rw [hAt m new i hm hi, hRep.pages m i hi]
        split
        · next hc =>
          rw [hc.1]
          exact (trimFirstPage_eq_iff hp hc.2).mpr (hTrim m new hm)
        · rfl
      · rw [blockBatch_pages_other hOwn hk, hPages₁ k hk]
    obtain ⟨db₂, hWrite, hP, hN⟩ := write_of_pages fun k => ⟨_, hRestore k⟩
    refine ⟨db₁, db₂, hInsert, hDelete.trans hWrite, ?_, ?_⟩
    · refine Std.ExtTreeMap.ext_getElem? fun k => ?_
      exact Option.some.inj ((hP k).symm.trans (hRestore k))
    · refine Std.ExtTreeMap.ext_getElem? fun k => ?_
      by_cases hk : BlockMember g txs k
      · obtain ⟨m, new, hm, rfl⟩ := hk
        have hVal := hN (g.serMember m)
        have hSpec := (deleteMember_spec hp hRep₁ enabled₂ hm (added_of_getElem? hm ▸ hFit m)).2.1
        rw [blockBatch_numTxs_at hDistinct hOwn hm, hSpec] at hVal
        rw [hRep.numTxs m]
        by_cases hNil : hist m = []
        · rw [hNil, length_nil, if_neg (by omega), valueAt_delete_self] at hVal
          rw [if_pos hNil]
          exact (Option.some.inj hVal).symm
        · rw [if_pos (length_pos_iff.mpr hNil), valueAt_put_self] at hVal
          rw [if_neg hNil]
          exact (Option.some.inj hVal).symm
      · have hVal := hN k
        rw [blockBatch_numTxs_other hOwn hk, hNum₁ k hk] at hVal
        exact (Option.some.inj hVal).symm

/-! ## Databases built by insertion -/

/-- Every count stays a 32-bit number: no member gets `2 ^ 32` transactions. -/
def CountsFit (g : Group M) (db : HistoryDb) (txs : List IndexTx) : Prop :=
  ∀ m, db.numTxs.getD (g.serMember m) 0 + (g.added txs m).length < 2 ^ 32

/-- The databases that insertions build from an empty one. -/
inductive Built (g : Group M) : HistoryDb → Prop
  | empty : Built g ⟨∅, ∅, ∅⟩
  | insert {db db' : HistoryDb} (enabled : Bool) (txs : List IndexTx) (hDb : Built g db)
      (hFit : CountsFit g db txs) (h : g.insert enabled db txs = some db') : Built g db'

theorem represents_of_built (hp : 0 < g.pageSize) (hSer : PrefixFree g.serMember)
    (hBuilt : Built g db) : ∃ hist, Represents g db hist := by
  induction hBuilt with
  | empty =>
    refine ⟨fun _ => [], fun m => by simp, fun m i _ => ?_⟩
    rw [pageValue_of_length_le (by simp)]
    simp
  | insert enabled txs _ hFit h ih =>
    obtain ⟨hist, hRep⟩ := ih
    have hFit' : ∀ m, (hist m).length + (g.added txs m).length < 2 ^ 32 :=
      fun m => hRep.getD_numTxs m ▸ hFit m
    obtain ⟨db₁, h₁, hRep₁, -⟩ := represents_insert hp hSer hRep enabled hFit'
    obtain rfl := Option.some.inj (h₁.symm.trans h)
    exact ⟨_, hRep₁⟩

/-- The transactions of the block under a serialised member. -/
def addedSer (g : Group M) (txs : List IndexTx) (memberSer : Bytes) : List TxNum :=
  (((g.groupTxs txs).toList.find? fun e => g.serMember e.1 = memberSer).map Prod.snd).getD []

theorem addedSer_of_getElem? (hSer : DistinctSer g txs) (hm : (g.groupTxs txs)[m]? = some new) :
    g.addedSer txs (g.serMember m) = new := by
  unfold addedSer
  cases hFind : (g.groupTxs txs).toList.find? fun e => g.serMember e.1 = g.serMember m with
  | none =>
    have hNot := find?_eq_none.mp hFind (m, new)
      (mem_toList_iff_getElem?_eq_some.mpr hm)
    simp at hNot
  | some e =>
    have he := mem_toList_iff_getElem?_eq_some.mp (mem_of_find?_eq_some hFind)
    have hEq : g.serMember e.1 = g.serMember m := by simpa using find?_some hFind
    rw [hSer e.1 m e.2 new he hm hEq, hm] at he
    exact (Option.some.inj he).symm

theorem addedSer_of_forall_ne (h : ∀ m new, (g.groupTxs txs)[m]? = some new → g.serMember m ≠ ser) :
    g.addedSer txs ser = [] := by
  have hFind : ((g.groupTxs txs).toList.find? fun e => g.serMember e.1 = ser) = none := by
    refine find?_eq_none.mpr fun e he => ?_
    simpa using h e.1 e.2 (mem_toList_iff_getElem?_eq_some.mp he)
  rw [addedSer, hFind]
  rfl

/-- The databases that insertions build from an empty one, with what the blocks
appended under every serialised member. -/
inductive Stored (g : Group M) : HistoryDb → (Bytes → List TxNum) → Prop
  | empty : Stored g ⟨∅, ∅, ∅⟩ fun _ => []
  | insert {db db' : HistoryDb} {hist : Bytes → List TxNum} (enabled : Bool)
      (txs : List IndexTx) (hDb : Stored g db hist) (hSer : DistinctSer g txs)
      (hFit : ∀ ser, (hist ser).length + (g.addedSer txs ser).length < 2 ^ 32)
      (h : g.insert enabled db txs = some db') :
      Stored g db' fun ser => hist ser ++ g.addedSer txs ser

theorem Stored.storedAt {hist : Bytes → List TxNum} (hp : 0 < g.pageSize)
    (h : Stored g db hist) (ser : Bytes) :
    StoredAt g.pageSize db ser (hist ser) ∧ (hist ser).length < 2 ^ 32 := by
  induction h generalizing ser with
  | empty =>
    refine ⟨⟨by simp, fun i _ => ?_⟩, by simp⟩
    rw [pageValue_of_length_le (by simp)]
    simp
  | @insert db₀ db₁ hist enabled txs _ hSer hFit hInsert ih =>
    refine ⟨?_, by rw [length_append]; exact hFit ser⟩
    obtain ⟨db', hInsert', hStored, hPages, hNum⟩ :=
      @insert_stored _ _ _ g db₀ (fun m => hist (g.serMember m)) txs _ hp hSer enabled
        (fun m _ _ => (ih (g.serMember m)).1)
        fun m new hm => addedSer_of_getElem? hSer hm ▸ hFit (g.serMember m)
    obtain rfl : db' = db₁ := Option.some.inj (hInsert'.symm.trans hInsert)
    show StoredAt g.pageSize db' ser (hist ser ++ g.addedSer txs ser)
    by_cases hIn : ∃ m new, (g.groupTxs txs)[m]? = some new ∧ g.serMember m = ser
    · obtain ⟨m, new, hm, rfl⟩ := hIn
      rw [addedSer_of_getElem? hSer hm]
      exact hStored m new hm
    · have hNot : ∀ m new, (g.groupTxs txs)[m]? = some new → g.serMember m ≠ ser :=
        fun m new hm hEq => hIn ⟨m, new, hm, hEq⟩
      rw [addedSer_of_forall_ne hNot, append_nil]
      exact (ih ser).1.frame hPages hNum hNot

/-- **Reverting a block.** On a database built by insertions, inserting a block
and deleting it again restores every page and every count exactly when, for
every member of the block, either its stored transactions fill whole pages, or
the transactions that completed the last page take as many bytes as the same
number of transactions at the end of the block. -/
theorem insert_delete_restores_iff (hp : 1 ≤ g.pageSize) (hSer : PrefixFree g.serMember)
    (hBuilt : Built g db) (hFit : CountsFit g db txs) (enabled₁ enabled₂ : Bool) :
    (∃ db₁ db₂, g.insert enabled₁ db txs = some db₁ ∧ g.delete enabled₂ db₁ txs = some db₂ ∧
      db₂.pages = db.pages ∧ db₂.numTxs = db.numTxs) ↔
    ∀ m new, (g.groupTxs txs)[m]? = some new →
      TrimMatches g.pageSize (db.numTxs.getD (g.serMember m) 0) new := by
  obtain ⟨hist, hRep⟩ := represents_of_built hp hSer hBuilt
  rw [restores_iff_of_represents hp hSer hRep enabled₁ enabled₂
    fun m => hRep.getD_numTxs m ▸ hFit m]
  simp only [hRep.getD_numTxs]

end Content

/-! ## A block that cannot be reverted -/

/-- An indexed transaction of which only the number matters. -/
def bareTx (txNum : TxNum) : IndexTx := ⟨⟨TxId.zero, 1, [], [], 0⟩, txNum, false, []⟩

/-- A group of two members with pages of two transactions; every transaction
belongs to the member `true`. -/
def flagGroup : Group Bool where
  inputMembers _ := []
  outputMembers _ := [true]
  serMember b := [if b then 1 else 0]
  serHashMember b := [if b then 1 else 0]
  pageSize := 2
  cfMemberHash := false

/-- The history of `flagGroup` after one block with transaction 5. -/
def flagDb : HistoryDb := (flagGroup.insert false ⟨∅, ∅, ∅⟩ [bareTx 5]).getD ⟨∅, ∅, ∅⟩

theorem built_flagDb : Built flagGroup flagDb :=
  .insert false [bareTx 5] .empty (by unfold CountsFit; decide +kernel) (by rfl)

theorem prefixFree_flagGroup : PrefixFree flagGroup.serMember := by
  unfold PrefixFree
  decide

/-- The block with transactions 6, 7 and 8 fills the page of transaction 5 and
opens a new one; all numbers take one byte, so the block can be reverted. -/
theorem flagGroup_restores :
    ∃ db₁ db₂, flagGroup.insert false flagDb [bareTx 6, bareTx 7, bareTx 8] = some db₁ ∧
      flagGroup.delete false db₁ [bareTx 6, bareTx 7, bareTx 8] = some db₂ ∧
      db₂.pages = flagDb.pages ∧ db₂.numTxs = flagDb.numTxs := by
  refine (insert_delete_restores_iff (by decide) prefixFree_flagGroup built_flagDb
    (by unfold CountsFit; decide +kernel) false false).mpr fun m new hm => ?_
  have hGrouped : ∀ m : Bool, (flagGroup.groupTxs [bareTx 6, bareTx 7, bareTx 8])[m]? =
      if m then some [6, 7, 8] else none := by
    decide +kernel
  rw [hGrouped] at hm
  cases m with
  | false => cases hm
  | true =>
    cases hm
    unfold TrimMatches
    decide +kernel

/-- The block with transactions 127 and 128: transaction 127 goes to the page
of transaction 5 and takes one byte, but the deletion trims that page by the two
bytes of transaction 128, and transaction 5 is lost. -/
theorem flagGroup_loses_stored_tx :
    ¬ (∃ db₁ db₂, flagGroup.insert false flagDb [bareTx 127, bareTx 128] = some db₁ ∧
      flagGroup.delete false db₁ [bareTx 127, bareTx 128] = some db₂ ∧
      db₂.pages = flagDb.pages ∧ db₂.numTxs = flagDb.numTxs) ∧
    ((flagGroup.insert false flagDb [bareTx 127, bareTx 128]).bind fun db₁ =>
      (flagGroup.delete false db₁ [bareTx 127, bareTx 128]).map fun db₂ =>
        db₂.pages[keyForMemberPage [1] 0]?) = some (some []) ∧
    flagDb.pages[keyForMemberPage [1] 0]? = some [5] := by
  have hPage : ((flagGroup.insert false flagDb [bareTx 127, bareTx 128]).bind fun db₁ =>
      (flagGroup.delete false db₁ [bareTx 127, bareTx 128]).map fun db₂ =>
        db₂.pages[keyForMemberPage [1] 0]?) = some (some []) := by
    decide +kernel
  have hOld : flagDb.pages[keyForMemberPage [1] 0]? = some [5] := by decide +kernel
  refine ⟨?_, hPage, hOld⟩
  rintro ⟨db₁, db₂, hInsert, hDelete, hPages, -⟩
  rw [hInsert, bind_some, hDelete, map_some, hPages, hOld] at hPage
  cases hPage

end Group

end Ergon
