import Ergon.Lib.Lists
import Ergon.Db.HistoryRevert
import Ergon.Query.GroupHistory
import Ergon.Script.Compress

/-!
# Ergon — what history requests return

A request page is a segment of the member's history: of the stored list, or of the
reversed mempool list followed by the reversed stored list. The steps are:

* `fillPage_map_some` — pushing until the page is full takes as many transactions
  as fit;
* `readPages_eq` — so reading stored pages one after the other takes them from what
  the pages hold together;
* `confirmedTxsWith_eq`, `revHistory_eq` — and what they hold is the history from
  the requested position on;
* `history_pages` — over databases built by insertions, with the number of pages
  and that the pages together are the whole history.

Reads are compared as computations: a request fails exactly where reading the
transactions of its segment fails.
-/

namespace Ergon

open Lib List

theorem dbDeserializeVec_dbSerializeVec (txNums : List TxNum) :
    dbDeserializeVec (dbSerializeVec txNums) = some txNums :=
  readLeb128s_flatMap (length_le_length_flatMap_leb128 txNums)

namespace Query.QueryGroupHistory

variable {M : Type} {q : QueryGroupHistory M} {memberSer : Bytes} {txNums : List TxNum}
  {read : TxNum → QueryResult HistoryTx} {s : Nat}

/-! ## Reading stored pages -/

theorem pageTxs_stored (h : Group.StoredAt q.group.pageSize q.db memberSer txNums) {i : Nat}
    (hi : i < 2 ^ 32) :
    ∃ page, q.pageTxs memberSer i = .ok page ∧ page.getD [] = pageOf q.group.pageSize txNums i := by
  rw [pageTxs, h.pages i hi, pageValue]
  split
  · next hEq =>
    split at hEq
    · next hNil => exact ⟨none, rfl, hNil.symm⟩
    · cases hEq
  · next bytes hEq =>
    split at hEq
    · cases hEq
    · cases hEq
      rw [dbDeserializeVec_dbSerializeVec]
      exact ⟨_, rfl, rfl⟩

theorem memberNumPagesAndTxs_stored (h : Group.StoredAt q.group.pageSize q.db memberSer txNums) :
    q.memberNumPagesAndTxs memberSer =
      (divCeil txNums.length q.group.pageSize, txNums.length) := by
  rw [memberNumPagesAndTxs, h.numTxs]
  by_cases hNil : txNums = []
  · simp [hNil, divCeil]
  · simp [hNil]

variable {pageTxs : List HistoryTx}

/-- Pushing until the page is full takes as many transactions as fit. -/
theorem fillPage_map_some {l : List TxNum} (hFit : pageTxs.length < s) :
    fillPage read s (l.map some) pageTxs =
      ((l.take (s - pageTxs.length)).mapM read).map fun txs =>
        (pageTxs ++ txs, decide (s - pageTxs.length ≤ l.length)) := by
  induction l generalizing pageTxs with
  | nil =>
    have hRoom : s - pageTxs.length ≠ 0 := by omega
    simp [fillPage, Except.map, pure, Except.pure, hRoom]
  | cons n l ih =>
    obtain ⟨room, hRoom⟩ : ∃ room, s - pageTxs.length = room + 1 :=
      ⟨s - pageTxs.length - 1, by omega⟩
    rw [map_cons, fillPage, hRoom, take_succ_cons, mapM_cons]
    cases read n with
    | error e => rfl
    | ok tx =>
      show (if (pageTxs ++ [tx]).length = s then _ else _) = _
      have hLen : (pageTxs ++ [tx]).length = pageTxs.length + 1 := by simp
      by_cases hFull : (pageTxs ++ [tx]).length = s
      · obtain rfl : room = 0 := by omega
        rw [if_pos hFull]
        simp [Except.map, pure, Except.pure, bind, Except.bind]
      · rw [if_neg hFull, ih (by omega)]
        obtain rfl : room = s - (pageTxs ++ [tx]).length := by omega
        cases (l.take (s - (pageTxs ++ [tx]).length)).mapM read with
        | error e => rfl
        | ok txs => simp [Except.map, pure, Except.pure, bind, Except.bind]

/-- **Reading stored pages.** The loop takes as many transactions as fit from what
is picked from the pages. The induction is on the pages that follow the first. -/
theorem readPages_eq {pick : Nat → List TxNum → List (Option TxNum)} {next : Nat}
    (page body : Nat → List TxNum) {ns : List Nat} :
    ∀ {n inner : Nat} (head : List TxNum) {pageTxs : List HistoryTx},
    (∀ i ∈ n :: ns, ∃ o, q.pageTxs memberSer (i % 2 ^ 32) = .ok o ∧ o.getD [] = page i) →
    pick inner (page n) = head.map some →
    (∀ i ∈ ns, pick next (page i) = (body i).map some) →
    pageTxs.length < s →
    q.readPages pick next read memberSer s (n :: ns) inner pageTxs =
      (((head ++ ns.flatMap body).take (s - pageTxs.length)).mapM read).map (pageTxs ++ ·) := by
  induction ns with
  | nil =>
    intro n inner head pageTxs hPages hHead _ hFit
    obtain ⟨o, hRead, hPage⟩ := hPages n mem_cons_self
    rw [readPages, hRead, ok_bind, hPage, hHead, fillPage_map_some hFit, flatMap_nil, append_nil]
    cases (head.take (s - pageTxs.length)).mapM read with
    | error e => rfl
    | ok txs =>
      show (if _ then _ else _) = _
      split <;> rfl
  | cons n' ns ih =>
    intro n inner head pageTxs hPages hHead hNext hFit
    obtain ⟨o, hRead, hPage⟩ := hPages n mem_cons_self
    rw [readPages, hRead, ok_bind, hPage, hHead, fillPage_map_some hFit]
    by_cases hFull : s - pageTxs.length ≤ head.length
    · rw [take_append_of_le_length hFull]
      cases (head.take (s - pageTxs.length)).mapM read with
      | error e => rfl
      | ok txs =>
        show (if decide _ = true then _ else _) = _
        rw [if_pos (by simpa using hFull)]
        rfl
    · rw [take_of_length_le (by omega), take_append, take_of_length_le (by omega), mapM_append]
      cases hHeadRead : head.mapM read with
      | error e => rfl
      | ok txs =>
        have hLen := (mapM_eq_ok.mp hHeadRead).length_eq
        show (if decide _ = true then _ else _) = _
        rw [if_neg (by simpa using hFull),
          ih (body n') (fun i hi => hPages i (mem_cons_of_mem _ hi))
          (hNext n' mem_cons_self) (fun i hi => hNext i (mem_cons_of_mem _ hi))
          (by rw [length_append]; omega), flatMap_cons, length_append, ← hLen, Nat.sub_add_eq]
        cases ((body n' ++ ns.flatMap body).take (s - pageTxs.length - head.length)).mapM read with
        | error e => rfl
        | ok txs' => simp [Except.map, pure, Except.pure, bind, Except.bind]

/-! ## Positions -/

theorem drop_saturatingMul {α : Type} {l : List α} (hLen : l.length < 2 ^ 64) (p s : Nat) :
    l.drop (saturatingMul p s) = l.drop (p * s) := by
  unfold saturatingMul
  rcases Nat.le_total (p * s) (2 ^ 64 - 1) with h | h
  · rw [Nat.min_eq_left h]
  · rw [Nat.min_eq_right h, drop_of_length_le (by omega), drop_of_length_le (by omega)]

/-- Going back from an index that is on the page. -/
theorem backFrom_eq {idx : Nat} {page : List TxNum} (h : idx < page.length) :
    backFrom idx page = ((page.take (idx + 1)).reverse).map some := by
  rw [backFrom, map_reverse, map_reverse]
  congr 1
  refine ext_getElem? fun i => ?_
  simp only [getElem?_map, getElem?_take]
  by_cases hi : i < idx + 1
  · rw [getElem?_range hi, if_pos hi, Option.map_some,
      getElem?_eq_getElem (by omega : i < page.length)]
    rfl
  · rw [getElem?_eq_none (by simpa using hi), if_neg hi]
    rfl

/-- A page before the last one is full. -/
theorem length_pageOf {α : Type} {P i : Nat} {l : List α} (h : (i + 1) * P ≤ l.length) :
    (pageOf P l i).length = P := by
  rw [Nat.succ_mul] at h
  rw [pageOf, length_take, length_drop]
  omega

variable {member : GroupMember M}

theorem request_eq (hs : 1 ≤ s ∧ s ≤ 200)
    (hMember : q.memberSerFromMember member = .ok (some memberSer))
    (body : Bytes → QueryResult TxHistoryPage) : q.request member s body = body memberSer := by
  have hCheck : checkPageSize s = .ok () := by
    simp only [checkPageSize, ensure, minHistoryPageSize, maxHistoryPageSize, Nat.not_lt, gt_iff_lt,
      hs.1, hs.2, if_true]
    rfl
  rw [request, hCheck, ok_bind, hMember, ok_bind]

/-! ## Confirmed transactions -/

/-- The confirmed transactions of a request page are the ones on that page of the
stored list. -/
theorem confirmedTxsWith_eq (hp : 0 < q.group.pageSize) (hs : 1 ≤ s ∧ s ≤ 200)
    (h : Group.StoredAt q.group.pageSize q.db memberSer txNums) (hFit : txNums.length < 2 ^ 32)
    (hMember : q.memberSerFromMember member = .ok (some memberSer)) (includeSpentBy : Bool)
    (p : Nat) :
    q.confirmedTxsWith includeSpentBy member p s =
      ((pageOf s txNums p).mapM (q.readBlockTx includeSpentBy)).map fun txs =>
        ⟨txs, txNums.length ⌈/⌉ s, txNums.length⟩ := by
  have hDrop := drop_saturatingMul (l := txNums) (by omega) p s
  have hCeil : divCeil txNums.length s % 2 ^ 32 = txNums.length ⌈/⌉ s := by
    have hLe := divCeil_le (n := txNums.length) hs.1
    rw [Nat.mod_eq_of_lt (by omega), divCeil_eq hs.1]
  rw [confirmedTxsWith, request_eq hs hMember, memberNumPagesAndTxs_stored h]
  simp only [hCeil, Nat.mod_eq_of_lt hFit]
  set first := saturatingMul p s with hFirst
  set P := q.group.pageSize with hP
  split
  · next hNone =>
    -- nothing is left at the requested position
    have hNil : pageOf s txNums p = [] := by
      rw [pageOf, ← hDrop, drop_of_length_le (by omega), take_nil]
    rw [hNil]
    rfl
  · next hSome =>
    have hLt : first < txNums.length := by omega
    have hPages := le_divCeil_mul (n := txNums.length) hp
    have hStart : first / P < divCeil txNums.length P := by
      rw [Nat.div_lt_iff_lt_mul hp]
      omega
    have hPageNum := divCeil_le (n := txNums.length) hp
    obtain ⟨k, hk⟩ : ∃ k, divCeil txNums.length P - first / P = k + 1 :=
      ⟨divCeil txNums.length P - first / P - 1, by omega⟩
    have hSplit : first / P * P + first % P = first := by
      rw [Nat.mul_comm]
      exact Nat.div_add_mod first P
    have hContent := drop_pageOf_append (l := txNums) (a := first / P) (k := k)
      (Nat.mod_lt first hp).le (by
        rw [show first / P + 1 + k = divCeil txNums.length P by omega]
        exact hPages)
    rw [hk, range'_succ, readPages_eq (pageOf P txNums) (pageOf P txNums)
      ((pageOf P txNums (first / P)).drop (first % P)), hContent, hSplit, hDrop]
    · show Except.map _ ((pageOf s txNums p).mapM _) >>= _ = _
      cases (pageOf s txNums p).mapM (q.readBlockTx includeSpentBy) <;> rfl
    · intro i hi
      have hi' : i < 2 ^ 32 := by
        rw [mem_cons, mem_range'_1] at hi
        omega
      rw [Nat.mod_eq_of_lt hi']
      exact pageTxs_stored h hi'
    · rfl
    · intro i _
      rw [skipTo, drop_zero]
    · exact hs.1

/-! ## The reverse history -/

/-- Reading backwards from entry `avail - 1` of the stored list. -/
theorem readPages_backFrom (hp : 0 < q.group.pageSize)
    (h : Group.StoredAt q.group.pageSize q.db memberSer txNums) (hFit : txNums.length < 2 ^ 32)
    {avail : Nat} (hPos : 0 < avail) (hAvail : avail ≤ txNums.length) (hRoom : pageTxs.length < s) :
    q.readPages backFrom (q.group.pageSize - 1) read memberSer s
        (List.range ((avail - 1) / q.group.pageSize + 1)).reverse ((avail - 1) % q.group.pageSize)
        pageTxs =
      (((txNums.take avail).reverse.take (s - pageTxs.length)).mapM read).map (pageTxs ++ ·) := by
  set P := q.group.pageSize with hP
  set a := (avail - 1) / P with ha
  set r := (avail - 1) % P with hr
  have hSplit : a * P + r = avail - 1 := by
    rw [Nat.mul_comm]
    exact Nat.div_add_mod (avail - 1) P
  have hrLt : r < P := Nat.mod_lt _ hp
  have haLe : a ≤ avail - 1 := Nat.div_le_self _ _
  have hContent := reverse_take_pageOf_append (l := txNums) (a := a) hrLt
  rw [show a * P + r + 1 = avail by omega] at hContent
  rw [range_succ, reverse_append, reverse_singleton, singleton_append,
    readPages_eq (pageOf P txNums) (fun i => (pageOf P txNums i).reverse)
      ((pageOf P txNums a).take (r + 1)).reverse, hContent]
  · intro i hi
    have hi' : i < 2 ^ 32 := by
      rw [mem_cons, mem_reverse, mem_range] at hi
      omega
    rw [Nat.mod_eq_of_lt hi']
    exact pageTxs_stored h hi'
  · refine backFrom_eq ?_
    rw [pageOf, length_take, length_drop]
    omega
  · -- the pages before the first one that is read are full
    intro i hi
    rw [mem_reverse, mem_range] at hi
    have hFull : (pageOf P txNums i).length = P := by
      refine length_pageOf ?_
      have hLe := Nat.mul_le_mul_right P (show i + 1 ≤ a by omega)
      omega
    rw [backFrom_eq (by omega), take_of_length_le (by omega)]
  · exact hRoom

/-- The entries of a history, latest first: those of the mempool, then the stored
ones. -/
def revEntries (q : QueryGroupHistory M) (memberSer : Bytes) (txNums : List TxNum) :
    List (TxId ⊕ TxNum) :=
  (q.mempoolHistory.getD memberSer []).reverse.map (fun e => .inl e.2) ++
    txNums.reverse.map .inr

/-- Read an entry, wherever it is. -/
def readEntry (q : QueryGroupHistory M) : TxId ⊕ TxNum → QueryResult HistoryTx :=
  Sum.elim q.readMempoolTx (q.readBlockTx true)

theorem readBlockTx_sortKey {includeSpentBy : Bool} {n : TxNum} {tx : HistoryTx}
    (h : q.readBlockTx includeSpentBy n = .ok tx) : (sortKey tx).isSome := by
  obtain ⟨blockTx, -, h⟩ := bind_eq_ok.mp h
  obtain ⟨-, -, h⟩ := bind_eq_ok.mp h
  obtain ⟨-, -, h⟩ := bind_eq_ok.mp h
  cases pure_eq_ok.mp h
  rfl

theorem sortFrom_perm (start : Nat) (txs : List HistoryTx) : (sortFrom start txs).Perm txs := by
  have h := (mergeSort_perm (txs.drop start) keyLe).append_left (txs.take start)
  rwa [take_append_drop] at h

theorem sortFrom_of_length_le {start : Nat} {txs : List HistoryTx} (h : txs.length ≤ start) :
    sortFrom start txs = txs := by
  rw [sortFrom, drop_of_length_le h, take_of_length_le h, mergeSort_nil, append_nil]

/-- The reverse history of a request page are the entries on that page, the block
transactions among them sorted. -/
theorem revHistory_eq (hp : 0 < q.group.pageSize) (hs : 1 ≤ s ∧ s ≤ 200)
    (h : Group.StoredAt q.group.pageSize q.db memberSer txNums) (hFit : txNums.length < 2 ^ 32)
    (hMember : q.memberSerFromMember member = .ok (some memberSer))
    (hPages : (q.revEntries memberSer txNums).length ⌈/⌉ s < 2 ^ 32) (p : Nat) :
    q.revHistory member p s =
      ((pageOf s (q.revEntries memberSer txNums) p).mapM q.readEntry).map fun txs =>
        ⟨sortFrom (min s ((q.mempoolHistory.getD memberSer []).length - p * s)) txs,
          (q.revEntries memberSer txNums).length ⌈/⌉ s,
          (q.revEntries memberSer txNums).length % 2 ^ 32⟩ := by
  set mempoolTxs := q.mempoolHistory.getD memberSer [] with hMempool
  set off := saturatingMul p s with hOff
  have hLen : (q.revEntries memberSer txNums).length = mempoolTxs.length + txNums.length := by
    simp [revEntries, hMempool]
  have hCeil : divCeil (mempoolTxs.length + txNums.length) s % 2 ^ 32 =
      (mempoolTxs.length + txNums.length) ⌈/⌉ s := by
    rw [divCeil_eq hs.1, Nat.mod_eq_of_lt (hLen ▸ hPages)]
  -- the pages bound the number of entries, so that saturation does not matter
  have hTotal : mempoolTxs.length + txNums.length < 2 ^ 64 := by
    have hLe := le_divCeil_mul (n := mempoolTxs.length + txNums.length) hs.1
    rw [divCeil_eq hs.1] at hLe
    have hMul := Nat.mul_le_mul (Nat.le_of_lt (hLen ▸ hPages)) hs.2
    omega
  have hStart : mempoolTxs.length - p * s = mempoolTxs.length - off := by
    have hDrop := congrArg List.length (drop_saturatingMul (l := mempoolTxs) (by omega) p s)
    rw [length_drop, length_drop] at hDrop
    exact hDrop.symm
  set numMem := min s (mempoolTxs.length - off) with hNumMem
  set avail := txNums.length - (off - mempoolTxs.length) with hAvail
  set memSeg := (mempoolTxs.reverse.drop off).take s with hMemSeg
  set dbSeg := (txNums.take avail).reverse.take (s - numMem) with hDbSeg
  have hSegment : pageOf s (q.revEntries memberSer txNums) p =
      memSeg.map (fun e => .inl e.2) ++ dbSeg.map .inr := by
    rw [pageOf, ← drop_saturatingMul (by omega), ← hOff, revEntries, ← hMempool, drop_append,
      take_append, ← map_drop, ← map_take, ← map_drop, ← map_take, length_map, length_map,
      length_reverse, length_drop, length_reverse, @drop_reverse _ txNums]
    congr 3
    omega
  have hDbLen : dbSeg.length = min (s - numMem) avail := by
    rw [hDbSeg, length_take, length_reverse, length_take]
    omega
  rw [hStart, hSegment, hLen, mapM_append, mapM_map, mapM_map, revHistory,
    request_eq hs hMember, memberNumPagesAndTxs_stored h]
  simp only [← hMempool, ← hOff, hCeil, ← hMemSeg, ← hNumMem, ← hAvail]
  show (memSeg.mapM (fun e => q.readMempoolTx e.2) >>= _) =
    Except.map _ (memSeg.mapM (fun e => q.readMempoolTx e.2) >>= _)
  cases hMem : memSeg.mapM fun e => q.readMempoolTx e.2 with
  | error e => rfl
  | ok mem =>
    have hMemLen : mem.length = numMem := by
      rw [← (mapM_eq_ok.mp hMem).length_eq, hMemSeg, length_take, length_drop, length_reverse]
    rw [ok_bind, ok_bind]
    split
    · next hEarly =>
      have hNil : dbSeg = [] := length_eq_zero_iff.mp (by omega)
      rw [ensure, if_pos (by omega), ok_bind, hNil, mapM_nil]
      show _ = Except.ok (TxHistoryPage.mk (sortFrom numMem (mem ++ [])) _ _)
      rw [append_nil, sortFrom_of_length_le hMemLen.le]
      rfl
    · next hLate =>
      rw [readPages_backFrom hp h hFit (by omega) (by omega) (by omega), hMemLen, ← hDbSeg]
      show _ = Except.map _ (dbSeg.mapM (q.readBlockTx true) >>= _)
      cases hDb : dbSeg.mapM (q.readBlockTx true) with
      | error e => rfl
      | ok txs =>
        have hRead := mapM_eq_ok.mp hDb
        have hDrop : (mem ++ txs).drop numMem = txs := by rw [← hMemLen, drop_left]
        have hKeys : ∀ tx ∈ txs, (sortKey tx).isSome := by
          intro tx htx
          obtain ⟨n, -, hn⟩ := Forall₂.exists_left hRead htx
          exact readBlockTx_sortKey hn
        have hSorted : (sortFrom numMem (mem ++ txs)).length = numMem + min (s - numMem) avail := by
          rw [(sortFrom_perm _ _).length_eq, length_append, hMemLen, ← hRead.length_eq, hDbLen]
        show (ensure (∀ tx ∈ (mem ++ txs).drop numMem, (sortKey tx).isSome)
          QueryGroupHistoryError.panic >>= fun _ =>
            ensure (_ = _) QueryGroupHistoryError.panic >>= _) = _
        rw [hDrop, ensure, if_pos hKeys, ok_bind, ensure, if_pos hSorted]
        rfl

/-- **History requests.** Over a database built by insertions of blocks in which
no two members have one serialisation, with `hist` as what the blocks appended: the
confirmed transactions of page `p` are read from positions `p * s` to `p * s + s - 1`
of the member's stored list, the reverse history from the same positions of the
reversed mempool list followed by the reversed stored list. The reported number of
pages is that of the list, and these pages together are the list. For the reverse
history the number of pages has to be a 32-bit number. -/
theorem history_pages [Ord M] [Std.TransOrd M] [Std.LawfulEqOrd M] (hp : 1 ≤ q.group.pageSize)
    {hist : Bytes → List TxNum} (hStored : Group.Stored q.group q.db hist)
    {member : GroupMember M} (hMember : q.memberSerFromMember member = .ok (some memberSer))
    (hs : 1 ≤ s ∧ s ≤ 200) :
    (∀ p, q.confirmedTxs member p s =
      ((pageOf s (hist memberSer) p).mapM (q.readBlockTx true)).map fun txs =>
        ⟨txs, (hist memberSer).length ⌈/⌉ s, (hist memberSer).length⟩) ∧
    (List.range ((hist memberSer).length ⌈/⌉ s)).flatMap (pageOf s (hist memberSer)) =
      hist memberSer ∧
    ((q.revEntries memberSer (hist memberSer)).length ⌈/⌉ s < 2 ^ 32 → ∀ p,
      q.revHistory member p s =
        ((pageOf s (q.revEntries memberSer (hist memberSer)) p).mapM q.readEntry).map fun txs =>
          ⟨sortFrom (min s ((q.mempoolHistory.getD memberSer []).length - p * s)) txs,
            (q.revEntries memberSer (hist memberSer)).length ⌈/⌉ s,
            (q.revEntries memberSer (hist memberSer)).length % 2 ^ 32⟩) ∧
    (List.range ((q.revEntries memberSer (hist memberSer)).length ⌈/⌉ s)).flatMap
      (pageOf s (q.revEntries memberSer (hist memberSer))) =
        q.revEntries memberSer (hist memberSer) := by
  obtain ⟨hAt, hFit⟩ := hStored.storedAt hp memberSer
  refine ⟨fun p => confirmedTxsWith_eq hp hs hAt hFit hMember true p, ?_,
    fun hPages p => revHistory_eq hp hs hAt hFit hMember hPages p, ?_⟩
  · rw [← divCeil_eq hs.1]
    exact flatMap_pageOf hs.1 _
  · rw [← divCeil_eq hs.1]
    exact flatMap_pageOf hs.1 _

/-- A query over a group and a database in which every transaction can be read: the
transaction with number `n` has the txid that ends in `n`. -/
def sampleQuery (g : Group M) (db : HistoryDb) : QueryGroupHistory M where
  db := db
  group := g
  mempoolHistory := ∅
  memberHashIndex := none
  mempoolTx _ := none
  txByTxNum n := some ⟨⟨List.replicate 31 0 ++ [UInt8.ofNat n], by simp⟩, 1, 0⟩
  blockByHeight _ := true
  loadMempoolTx _ := true
  loadBlockTx _ _ := true
  isScripthashIndexEnabled := false

/-- Five transactions on stored pages of two, requested in pages of three. -/
def fiveTxs : List IndexTx := [5, 6, 7, 8, 9].map Group.bareTx

def fiveDb : HistoryDb := (Group.flagGroup.insert false ⟨∅, ∅, ∅⟩ fiveTxs).getD ⟨∅, ∅, ∅⟩

theorem stored_fiveDb :
    Group.Stored Group.flagGroup fiveDb fun ser => [] ++ Group.flagGroup.addedSer fiveTxs ser := by
  refine .insert false fiveTxs .empty
    (Group.distinctSer_of_prefixFree Group.prefixFree_flagGroup) (fun ser => ?_) (by rfl)
  have hGrouped : (Group.flagGroup.groupTxs fiveTxs).toList = [(true, [5, 6, 7, 8, 9])] := by
    decide +kernel
  rw [Group.addedSer, hGrouped, find?_singleton]
  split <;> simp

theorem fiveDb_pages :
    (sampleQuery Group.flagGroup fiveDb).confirmedTxs (.member true) 1 3 =
      ([8, 9].mapM ((sampleQuery Group.flagGroup fiveDb).readBlockTx true)).map
        (fun txs => ⟨txs, 2, 5⟩) ∧
    (sampleQuery Group.flagGroup fiveDb).revHistory (.member true) 0 3 =
      ([.inr 9, .inr 8, .inr 7].mapM (sampleQuery Group.flagGroup fiveDb).readEntry).map
        fun txs => ⟨sortFrom 0 txs, 2, 5⟩ := by
  have hMember : (sampleQuery Group.flagGroup fiveDb).memberSerFromMember (.member true) =
      .ok (some [1]) := rfl
  have hHist : [] ++ Group.flagGroup.addedSer fiveTxs [1] = [5, 6, 7, 8, 9] := by decide +kernel
  have hEntries : (sampleQuery Group.flagGroup fiveDb).revEntries [1] [5, 6, 7, 8, 9] =
      [.inr 9, .inr 8, .inr 7, .inr 6, .inr 5] := by decide +kernel
  obtain ⟨hConfirmed, -, hRev, -⟩ :=
    history_pages (s := 3) (by decide) stored_fiveDb hMember (by decide)
  rw [hHist] at hConfirmed hRev
  rw [hEntries] at hRev
  exact ⟨hConfirmed 1, hRev (by decide) 0⟩

end Query.QueryGroupHistory

/-! ## Scripts with one compressed form -/

instance : Ord Script := ⟨compareOn Script.bytecode⟩

instance : Std.TransOrd Script := inferInstanceAs (Std.TransCmp (compareOn Script.bytecode))

/-- `ScriptGroup`: a coinbase has no input scripts, `OP_RETURN` outputs are skipped. -/
def scriptGroup (sha256 : Bytes → Bytes) : Group Script where
  inputMembers tx :=
    if tx.isCoinbase then []
    else ((tx.tx.inputs.map (·.coin)).takeWhile Option.isSome).reduceOption.map (·.output.script)
  outputMembers tx := (tx.tx.outputs.map (·.script)).filter fun s => !s.isOpreturn
  serMember := serMember
  serHashMember s := sha256 s.bytecode
  pageSize := 1000
  cfMemberHash := true

namespace Query.QueryGroupHistory

/-- Transactions 5 and 6 pay to scripts with one compressed form. -/
def clashTxs : List IndexTx :=
  [⟨⟨TxId.zero, 1, [], [⟨1000, keyScript 0⟩], 0⟩, 5, false, []⟩,
    ⟨⟨TxId.zero, 1, [], [⟨1000, keyScript 2⟩], 0⟩, 6, false, []⟩]

def clashQuery : QueryGroupHistory Script :=
  sampleQuery (scriptGroup id)
    (((scriptGroup id).insert false ⟨∅, ∅, ∅⟩ clashTxs).getD ⟨∅, ∅, ∅⟩)

/-- Both scripts read a count of zero and write a count of one, but the page gets
both transactions. Transaction 6 is the history of the second script and its second
entry on the stored page, but a request for it returns transaction 5 and reports one
page with one transaction. -/
theorem clashQuery_confirmedTxs :
    (scriptGroup id).added clashTxs (keyScript 2) = [6] ∧
    clashQuery.pageTxs (serMember (keyScript 2)) 0 = .ok (some [5, 6]) ∧
    clashQuery.confirmedTxs (.member (keyScript 2)) 0 1 =
      (clashQuery.readBlockTx true 5).map fun tx => ⟨[tx], 1, 1⟩ := by
  decide +kernel

end Query.QueryGroupHistory

end Ergon
