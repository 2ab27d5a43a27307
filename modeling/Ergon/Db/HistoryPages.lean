import Ergon.Db.GroupHistory

/-!
# Ergon — what history pages stand for

The content of a member's history is a list of transaction numbers;
`pageValue` says which bytes each of its pages holds. The loops of the history
writer are described by what they do to the pages of a list:

* `insertLoop_spec` — the insertion loop appends;
* `deleteLoop_spec` — the deletion loop deletes the pages that hold only
  transactions of the block, and trims the page that was begun before it
  (`trimFirstPage`);
* `trimFirstPage_eq_iff` — the trimmed page is the page before the block
  exactly when `TrimMatches` holds.
-/

namespace Ergon

open Lib List Option

/-! ## Pages of a list -/

/-- The transaction numbers on a page. -/
def chunk (pageSize : Nat) (txNums : List TxNum) (i : Nat) : List TxNum :=
  (txNums.drop (i * pageSize)).take pageSize

/-- The stored bytes of a page; empty pages are not stored. -/
def pageValue (pageSize : Nat) (txNums : List TxNum) (i : Nat) : Option Bytes :=
  if chunk pageSize txNums i = [] then none
  else some (dbSerializeVec (chunk pageSize txNums i))

section Pages

variable {p : Nat} {h t : List TxNum} {i : Nat}

theorem dbSerializeVec_append (s t : List TxNum) :
    dbSerializeVec (s ++ t) = dbSerializeVec s ++ dbSerializeVec t := by
  simp [dbSerializeVec]

theorem pageValue_of_length_le (hLen : h.length ≤ i * p) : pageValue p h i = none := by
  have hNil : chunk p h i = [] := by
    rw [chunk, drop_eq_nil_of_le hLen, take_nil]
  rw [pageValue, if_pos hNil]

/-- A full page does not change when something is appended. -/
theorem pageValue_append_of_full (hFull : (i + 1) * p ≤ h.length) :
    pageValue p (h ++ t) i = pageValue p h i := by
  have hChunk : chunk p (h ++ t) i = chunk p h i := by
    have hMul : (i + 1) * p = i * p + p := Nat.succ_mul i p
    rw [chunk, chunk, drop_append_of_le_length (by omega),
      take_append_of_le_length (by rw [length_drop]; omega)]
  rw [pageValue, pageValue, hChunk]

/-- The page that is being filled holds the rest of the list. -/
theorem chunk_last {l : Nat} (hLen : h.length = i * p + l) (hLast : l ≤ p) :
    chunk p h i = h.drop (i * p) := by
  rw [chunk, take_of_length_le]
  rw [length_drop]
  omega

/-- Pages away from the one being filled are untouched by an append that stays
within it. -/
theorem pageValue_append_of_ne {g l : Nat} (hLen : h.length = g * p + l)
    (hFit : l + t.length ≤ p) (hne : i ≠ g) :
    pageValue p (h ++ t) i = pageValue p h i := by
  rcases Nat.lt_or_ge i g with hlt | hge
  · apply pageValue_append_of_full
    have := Nat.mul_le_mul_right p (show i + 1 ≤ g by omega)
    omega
  · have hMul := Nat.mul_le_mul_right p (show g + 1 ≤ i by omega)
    have hSucc : (g + 1) * p = g * p + p := Nat.succ_mul g p
    rw [pageValue_of_length_le (by rw [length_append]; omega), pageValue_of_length_le (by omega)]

/-- Concatenating to the page being filled. -/
theorem applyConcatTrim_concat_last {g last : Nat} (hLen : h.length = g * p + last)
    (hFit : last + t.length ≤ p) (ht : t ≠ []) :
    (applyConcatTrim (pageValue p h g) (.concat (dbSerializeVec t))).map some =
      some (pageValue p (h ++ t) g) := by
  have hOld : (pageValue p h g).getD [] = dbSerializeVec (h.drop (g * p)) := by
    have hChunk := chunk_last hLen (by omega : last ≤ p)
    rw [pageValue]
    split
    · next hNil =>
      rw [← hChunk, hNil]
      rfl
    · rw [hChunk]
      rfl
  have hNew : chunk p (h ++ t) g = h.drop (g * p) ++ t := by
    rw [chunk_last (l := last + t.length) (by rw [length_append]; omega) hFit,
      drop_append_of_le_length (by omega)]
  rw [applyConcatTrim, hOld, pageValue, hNew, if_neg (by simp [ht]), dbSerializeVec_append]
  rfl

end Pages

/-! ## Page keys -/

theorem keyForMemberPage_inj {ser : Bytes} {i j : Nat} (hi : i < 2 ^ 32) (hj : j < 2 ^ 32)
    (h : keyForMemberPage ser i = keyForMemberPage ser j) : i = j :=
  bigEndian_inj (w := 4) (by omega) (by omega) (append_cancel_left h)

theorem keyForMemberPage_mod (ser : Bytes) (i : Nat) :
    keyForMemberPage ser (i % 2 ^ 32) = keyForMemberPage ser i := by
  rw [keyForMemberPage, keyForMemberPage, show (2 : Nat) ^ 32 = 256 ^ 4 by norm_num, bigEndian_mod]

variable {op : ColumnOp Bytes Bytes ConcatTrim}

/-- What one write to a page does at a page. -/
theorem valueAt_page {ser : Bytes} {i g : Nat} (hi : i < 2 ^ 32) (hg : g < 2 ^ 32)
    (hOp : op.key = keyForMemberPage ser g) (ops : List (ColumnOp Bytes Bytes ConcatTrim))
    (v : Option Bytes) :
    valueAt applyConcatTrim (keyForMemberPage ser i) (op :: ops) v =
      if i = g then (op.value applyConcatTrim v).bind
        (valueAt applyConcatTrim (keyForMemberPage ser i) ops)
      else valueAt applyConcatTrim (keyForMemberPage ser i) ops v := by
  have hKey : op.key = keyForMemberPage ser i ↔ i = g := by
    rw [hOp]
    exact ⟨fun h => (keyForMemberPage_inj hg hi h).symm, fun h => by rw [h]⟩
  rw [valueAt]
  simp only [hKey]

namespace Group

variable {p : Nat} {ser : Bytes}

/-! ## The insertion loop -/

/-- **Insertion, page by page.** The loop starts at the end of the stored list
`h` and turns its pages into those of `h ++ new`. The induction is on the
fuel; every round but the last one fills the page it writes to. -/
theorem insertLoop_spec (hp : 0 < p) {fuel page last num : Nat} {h new : List TxNum}
    (hLen : h.length = page * p + last) (hLast : last < p) (hNew : new ≠ [])
    (hFuel : new.length < fuel) (hFit : h.length + new.length < 2 ^ 32) :
    (insertLoop p ser fuel page last num new).2 = num + new.length ∧
    ∀ i < 2 ^ 32, valueAt applyConcatTrim (keyForMemberPage ser i)
        (insertLoop p ser fuel page last num new).1 (pageValue p h i) =
      some (pageValue p (h ++ new) i) := by
  induction fuel generalizing page last num h new with
  | zero => omega
  | succ fuel ih =>
    have hPos : 0 < new.length := length_pos_iff.mpr hNew
    have hPage : page < 2 ^ 32 := by
      have := Nat.le_mul_of_pos_right page hp
      omega
    set k := min (p - last) new.length with hk
    have hTake : new.take k ≠ [] := by
      intro hNil
      have := congrArg List.length hNil
      rw [length_take, length_nil] at this
      omega
    have hTakeLen : (new.take k).length = k := by
      rw [length_take]
      omega
    -- the first round writes the first `k` numbers to the current page
    have hRound : ∀ i < 2 ^ 32, ∀ ops,
        valueAt applyConcatTrim (keyForMemberPage ser i)
          (.merge (keyForMemberPage ser page) (.concat (dbSerializeVec (new.take k))) :: ops)
          (pageValue p h i) =
        valueAt applyConcatTrim (keyForMemberPage ser i) ops (pageValue p (h ++ new.take k) i) := by
      intro i hi ops
      rw [valueAt_page hi hPage rfl]
      by_cases hig : i = page
      · subst hig
        rw [if_pos rfl, ColumnOp.value, applyConcatTrim_concat_last hLen (by omega) hTake]
        rfl
      · rw [if_neg hig, pageValue_append_of_ne hLen (by omega) hig]
    rw [insertLoop]
    simp only [← hk]
    cases hRest : new.drop k with
    | nil =>
      have hAll : new.take k = new := by
        rw [← take_append_drop k new, hRest, append_nil, take_take, min_self]
      have hLenEq : k = new.length := by rw [← hTakeLen, hAll]
      refine ⟨by simp only [hLenEq], fun i hi => ?_⟩
      simp only
      rw [hRound i hi, hAll, valueAt_nil]
    | cons n rest =>
      -- something is left, so the current page is full now
      have hRestLen : new.length - k = rest.length + 1 := by
        rw [← length_drop, hRest, length_cons]
      have hFull : (h ++ new.take k).length = (page + 1) * p + 0 := by
        rw [length_append, hTakeLen, Nat.succ_mul]
        omega
      have hSplit : (h ++ new.take k) ++ (n :: rest) = h ++ new := by
        rw [append_assoc, ← hRest, take_append_drop]
      obtain ⟨hNum, hVal⟩ := @ih (page + 1) 0 (num + k) _ _ hFull hp (cons_ne_nil n rest)
        (by rw [length_cons]; omega)
        (by rw [length_append, hTakeLen, length_cons]; omega)
      refine ⟨?_, fun i hi => ?_⟩
      · simp only [hNum, length_cons]
        omega
      · simp only
        rw [hRound i hi, hVal i hi, hSplit]

/-- The loop only writes pages of its member. -/
theorem insertLoop_key {fuel page last num : Nat} {new : List TxNum}
    (hOp : op ∈ (insertLoop p ser fuel page last num new).1) :
    ∃ i, op.key = keyForMemberPage ser i := by
  induction fuel generalizing page last num new with
  | zero => cases hOp
  | succ fuel ih =>
    rw [insertLoop] at hOp
    dsimp only at hOp
    split at hOp
    · rw [mem_singleton] at hOp
      exact ⟨page, by rw [hOp]; rfl⟩
    · rcases mem_cons.mp hOp with rfl | hOp
      · exact ⟨page, rfl⟩
      · exact ih hOp

/-! ## The deletion loop -/

/-- How many transactions of a block went to the page that was already begun:
`n` transactions are stored and `new` are added. -/
def firstPageFill (p n : Nat) (new : List TxNum) : Nat := min (p - n % p) new.length

/-- What the deletion makes of the page that was already begun: it is trimmed
by the size of the last transactions of the block, as many as went there. -/
def trimFirstPage (p : Nat) (h new : List TxNum) : Option (Option Bytes) :=
  let fill := firstPageFill p h.length new
  (applyConcatTrim (pageValue p (h ++ new.take fill) (h.length / p))
    (.trim (dbSerializeVec (new.drop (new.length - fill))).length)).map some

/-- **Deletion, page by page.** The loop runs backwards from the pages of
`h ++ new.take r`, where `r` transactions are still to be removed. Pages that
hold only transactions of the block are deleted; the page that was begun before
the block is trimmed. -/
theorem deleteLoop_spec (hp : 0 < p) {fuel page last r : Nat} {h new : List TxNum}
    (hr : 0 < r) (hrLen : r ≤ new.length) (hLen : h.length + r = page * p + last)
    (hLast : last ≤ p) (hFirst : last = p ∨ r = new.length) (hFuel : page < fuel)
    (hFit : h.length + new.length < 2 ^ 32) :
    ∃ ops, deleteLoop p ser fuel page last (h.length + r) r new = some (ops, h.length) ∧
    ∀ i < 2 ^ 32, valueAt applyConcatTrim (keyForMemberPage ser i) ops
        (pageValue p (h ++ new.take r) i) =
      if i = h.length / p ∧ h.length % p ≠ 0 then trimFirstPage p h new
      else some (pageValue p h i) := by
  induction fuel generalizing page last r with
  | zero => omega
  | succ fuel ih =>
    have hPage : page < 2 ^ 32 := by
      have := Nat.le_mul_of_pos_right page hp
      omega
    rw [deleteLoop]
    by_cases hWhole : last ≤ r
    · -- the page holds only transactions of the block
      have hMin : min last r = last := Nat.min_eq_left hWhole
      have hNum : ¬ h.length + r < last := by omega
      have hLen' : h.length + (r - last) = page * p := by omega
      have hTakeLen : (h ++ new.take (r - last)).length = page * p := by
        rw [length_append, length_take]
        omega
      -- without the page, the pages are those of the shorter list
      have hRound : ∀ i < 2 ^ 32, ∀ ops,
          valueAt applyConcatTrim (keyForMemberPage ser i)
            (.delete (keyForMemberPage ser page) :: ops) (pageValue p (h ++ new.take r) i) =
          valueAt applyConcatTrim (keyForMemberPage ser i) ops
            (pageValue p (h ++ new.take (r - last)) i) := by
        intro i hi ops
        have hSplit : h ++ new.take r =
            (h ++ new.take (r - last)) ++ (new.drop (r - last)).take last := by
          rw [append_assoc, ← take_add, Nat.sub_add_cancel hWhole]
        rw [valueAt_page hi hPage rfl]
        by_cases hig : i = page
        · subst hig
          rw [if_pos rfl, ColumnOp.value, bind_some, pageValue_of_length_le (Nat.le_of_eq hTakeLen)]
        · rw [if_neg hig, hSplit, pageValue_append_of_ne (l := 0) hTakeLen
            (by rw [length_take, length_drop]; omega) hig]
      have hSub : h.length + r - last = h.length + (r - last) := by omega
      simp only [hMin, if_true, hNum, if_false, hSub]
      by_cases hDone : r - last = 0
      · -- the list ends at a page boundary: nothing is trimmed
        have hMod : h.length % p = 0 := by
          rw [show h.length = page * p by omega, Nat.mul_mod_left]
        simp only [hDone, if_true, Nat.add_zero]
        refine ⟨_, rfl, fun i hi => ?_⟩
        rw [hRound i hi, valueAt_nil, hDone, take_zero, append_nil]
        simp [hMod]
      · have hPos : 0 < page := by
          rcases Nat.eq_zero_or_pos page with rfl | h
          · omega
          · exact h
        have hPrev : h.length + (r - last) = (page - 1) * p + p := by
          rw [hLen', ← Nat.succ_mul, Nat.succ_eq_add_one, Nat.sub_add_cancel hPos]
        obtain ⟨ops, hOps, hVal⟩ := @ih (page - 1) p (r - last) (by omega) (by omega) hPrev
          le_rfl (.inl rfl) (by omega)
        simp only [hDone, if_false, gt_iff_lt, hPos, if_true, hOps, map_some]
        refine ⟨_, rfl, fun i hi => ?_⟩
        rw [hRound i hi, hVal i hi]
    · -- the page was begun before the block: it is trimmed, and the loop ends
      have hMin : min last r = r := by omega
      have hDiv : h.length / p = page ∧ h.length % p = last - r := by
        have hEq : h.length = p * page + (last - r) := by
          rw [Nat.mul_comm]
          omega
        exact ⟨by rw [hEq, Nat.mul_add_div hp, Nat.div_eq_of_lt (by omega), Nat.add_zero],
          by rw [hEq, Nat.mul_add_mod, Nat.mod_eq_of_lt (by omega)]⟩
      have hFill : firstPageFill p h.length new = r := by
        unfold firstPageFill
        omega
      have hNe : r ≠ last := by omega
      simp only [hMin, hNe, if_false, Nat.add_sub_cancel, Nat.sub_self, if_true,
        show ¬ h.length + r < r by omega]
      refine ⟨_, rfl, fun i hi => ?_⟩
      rw [valueAt_page hi hPage rfl, hDiv.1, hDiv.2]
      by_cases hig : i = page
      · rw [if_pos hig, if_pos ⟨hig, by omega⟩, trimFirstPage, hFill, hDiv.1, ← hig, ColumnOp.value]
        cases applyConcatTrim (pageValue p (h ++ new.take r) i)
            (.trim (dbSerializeVec (new.drop (new.length - r))).length) <;> rfl
      · rw [if_neg hig, if_neg (fun hc => hig hc.1), valueAt_nil,
          pageValue_append_of_ne (l := last - r) (g := page) (by omega)
            (by rw [length_take]; omega) hig]

theorem deleteLoop_key {fuel page last num r num' : Nat} {new : List TxNum}
    {ops : List (ColumnOp Bytes Bytes ConcatTrim)}
    (h : deleteLoop p ser fuel page last num r new = some (ops, num')) (hOp : op ∈ ops) :
    ∃ i, op.key = keyForMemberPage ser i := by
  induction fuel generalizing page last num r new ops num' with
  | zero => cases h
  | succ fuel ih =>
    rw [deleteLoop] at h
    dsimp only at h
    split at h
    · cases h
    · split at h
      · cases h
        rw [mem_singleton] at hOp
        refine ⟨page, ?_⟩
        rw [hOp]
        split <;> rfl
      · rw [map_eq_some_iff] at h
        obtain ⟨⟨ops', n⟩, hRec, hEq⟩ := h
        cases hEq
        rcases mem_cons.mp hOp with rfl | hOp
        · refine ⟨page, ?_⟩
          split <;> rfl
        · exact ih hRec hOp

/-- The condition under which the page that was already begun is trimmed by
the right number of bytes: there is no such page, or the transactions that went
there are stored in as many bytes as the last ones of the block. -/
def TrimMatches (p n : Nat) (new : List TxNum) : Prop :=
  n % p = 0 ∨
    (dbSerializeVec (new.take (firstPageFill p n new))).length =
      (dbSerializeVec (new.drop (new.length - firstPageFill p n new))).length

theorem trimFirstPage_eq_iff (hp : 0 < p) {h new : List TxNum} (hMod : h.length % p ≠ 0) :
    trimFirstPage p h new = some (pageValue p h (h.length / p)) ↔
      TrimMatches p h.length new := by
  have hLen : h.length = h.length / p * p + h.length % p := by
    rw [Nat.mul_comm]
    exact (Nat.div_add_mod _ _).symm
  have hLt : h.length % p < p := Nat.mod_lt _ hp
  set g := h.length / p with hg
  set fill := firstPageFill p h.length new with hFill
  have hTake : (new.take fill).length ≤ p - h.length % p := by
    rw [length_take, hFill, firstPageFill]
    omega
  have hOld : pageValue p h g = some (dbSerializeVec (h.drop (g * p))) := by
    have hNe : h.drop (g * p) ≠ [] := by
      intro hNil
      have := congrArg List.length hNil
      rw [length_drop, length_nil] at this
      omega
    rw [pageValue, chunk_last hLen hLt.le, if_neg hNe]
  have hNew : pageValue p (h ++ new.take fill) g =
      some (dbSerializeVec (h.drop (g * p)) ++ dbSerializeVec (new.take fill)) := by
    have hChunk : chunk p (h ++ new.take fill) g = h.drop (g * p) ++ new.take fill := by
      rw [chunk_last (l := h.length % p + (new.take fill).length)
        (by rw [length_append]; omega) (by omega), drop_append_of_le_length (by omega)]
    have hNe : h.drop (g * p) ++ new.take fill ≠ [] := by
      intro hNil
      rw [pageValue, if_pos (chunk_last hLen hLt.le ▸ (append_eq_nil_iff.mp hNil).1)] at hOld
      cases hOld
    rw [pageValue, hChunk, if_neg hNe, dbSerializeVec_append]
  -- both sides are the same equation between lengths
  simp only [trimFirstPage, TrimMatches, ← hg, ← hFill, hMod, false_or, hOld, hNew, applyConcatTrim,
    getD_some, length_append]
  generalize dbSerializeVec (h.drop (g * p)) = a
  generalize dbSerializeVec (new.take fill) = b
  generalize (dbSerializeVec (new.drop (new.length - fill))).length = n
  by_cases hn : n ≤ a.length + b.length
  · rw [if_pos hn, map_some, Option.some.injEq, Option.some.injEq]
    constructor
    · intro hEq
      have := congrArg List.length hEq
      rw [length_take, length_append] at this
      omega
    · intro hEq
      rw [show a.length + b.length - n = a.length by omega, take_left]
  · rw [if_neg hn]
    simp only [map_none, reduceCtorEq, false_iff]
    omega

end Group

end Ergon
