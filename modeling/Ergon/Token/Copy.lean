import Ergon.Token.ReadBack

/-!
# Ergon — copying tokens to a transaction without payload

A transaction without a token payload that spends tokens gets copies of them
(`BatchProcessor.copyToken`): the transactions that created the tokens are
listed anew, and of several links of one token the last one stays.

* `CopyInv.copy` — one more input;
* `CopyInv.reads` — how the copies read back;
* `map_regroup_lastGroup_iff` — they are what was spent exactly if inputs of one
  token agree on its group.
-/

namespace Ergon

open Lib List Option

namespace BatchProcessor

/-- The group of the last of some inputs that holds the token with a group. -/
def lastGroup (S : List (Option SpentToken)) (m : TokenMeta) : Option TokenMeta :=
  S.foldl (fun g s => (s.bind fun t =>
    if t.token.tokenMeta = m then t.groupTokenMeta else none).or g) none

theorem lastGroup_concat (S : List (Option SpentToken)) (s : Option SpentToken) (m : TokenMeta) :
    lastGroup (S ++ [s]) m =
      (s.bind fun t => if t.token.tokenMeta = m then t.groupTokenMeta else none).or
        (lastGroup S m) := by
  rw [lastGroup, foldl_append]
  rfl

variable {s : Option SpentToken}

theorem lastGroup_concat_of_none {S : List (Option SpentToken)} {m : TokenMeta}
    (h : ∀ t, s = some t → t.token.tokenMeta = m → t.groupTokenMeta = none) :
    lastGroup (S ++ [s]) m = lastGroup S m := by
  rw [lastGroup_concat]
  cases s with
  | none => rfl
  | some t =>
    by_cases hMeta : t.token.tokenMeta = m
    · simp [hMeta, h t rfl hMeta]
    · simp [hMeta]

/-- The last group is the group of one of the inputs. -/
theorem exists_of_lastGroup {S : List (Option SpentToken)} {m g : TokenMeta}
    (h : lastGroup S m = some g) :
    ∃ t, some t ∈ S ∧ t.token.tokenMeta = m ∧ t.groupTokenMeta = some g := by
  induction S using List.reverseRecOn with
  | nil => cases h
  | append_singleton S s ih =>
    rw [lastGroup_concat, or_eq_some_iff] at h
    obtain hLast | ⟨_, hRest⟩ := h
    · obtain ⟨t, rfl, hGroup⟩ := bind_eq_some_iff.mp hLast
      split at hGroup
      · next hMeta => exact ⟨t, by simp, hMeta, hGroup⟩
      · cases hGroup
    · obtain ⟨t, ht, hRest⟩ := ih hRest
      exact ⟨t, mem_append_left _ ht, hRest⟩

/-- A token with a group has a last group. -/
theorem lastGroup_isSome {S : List (Option SpentToken)} {t : SpentToken} (ht : some t ∈ S)
    {g : TokenMeta} (hg : t.groupTokenMeta = some g) :
    ∃ g', lastGroup S t.token.tokenMeta = some g' := by
  induction S using List.reverseRecOn with
  | nil => cases ht
  | append_singleton S s ih =>
    rw [lastGroup_concat]
    obtain ht | ht := mem_append.mp ht
    · obtain ⟨g', hg'⟩ := ih ht
      rw [hg']
      cases hLast : s.bind fun t' =>
          if t'.token.tokenMeta = t.token.tokenMeta then t'.groupTokenMeta else none with
      | none => exact ⟨g', rfl⟩
      | some g'' => exact ⟨g'', rfl⟩
    · cases mem_singleton.mp ht
      simp [hg]

theorem map_regroup_lastGroup_iff {B : BiMap TxNum TokenMeta} {S : List (Option SpentToken)}
    (hGood : AllGood B S) :
    S.map (Option.map fun s => regroup (lastGroup S) s.token) = S ↔ SameGroups S := by
  rw [map_regroup_eq_iff hGood]
  refine ⟨sameGroups_of_groupOf hGood, fun hSame t ht _ => ?_⟩
  cases hg : t.groupTokenMeta with
  | some g =>
    obtain ⟨g', hg'⟩ := lastGroup_isSome ht hg
    obtain ⟨t', ht', hMeta, hGroup⟩ := exists_of_lastGroup hg'
    rw [hg', ← hGroup, hSame t' t ht' ht hMeta, hg]
  | none =>
    refine eq_none_iff_forall_ne_some.mpr fun g hLast => ?_
    obtain ⟨t', ht', hMeta, hGroup⟩ := exists_of_lastGroup hLast
    rw [hSame t' t ht' ht hMeta, hg] at hGroup
    cases hGroup

/-! ## Copies -/

/-- A copy of a spent token, up to its group. -/
def Copied (fnMeta : TxNum → Except TokenError TokenMeta) (nums : List TxNum) :
    Option SpentToken → DbToken → Prop
  | none, x => x = .noToken
  | some t, x =>
    match t.token.variant with
    | .atoms n => ∃ idx a, x = .atoms idx n ∧ nums[idx]? = some a ∧ fnMeta a = .ok t.token.tokenMeta
    | .mintBaton =>
      ∃ idx a, x = .mintBaton idx ∧ nums[idx]? = some a ∧ fnMeta a = .ok t.token.tokenMeta
    | .unknown byte =>
      (x = .unknownSlp byte ∧ t = unknownToken (.slp (.unknown byte)) byte) ∨
        (x = .unknownAlp byte ∧ t = unknownToken (.alp (.unknown byte)) byte)

/-- The copies as they are going to be stored. -/
def NonTokenState.toDb (n : NonTokenState) (outputs : List DbToken) : DbTokenTx :=
  ⟨n.tokenTxNums, n.groupTokenIndices, n.inputs, outputs, 0⟩

/-- The copies of the tokens `S`. -/
structure CopyInv (fnMeta : TxNum → Except TokenError TokenMeta) (S : List (Option SpentToken))
    (n : NonTokenState) : Prop where
  nodup : n.tokenTxNums.Nodup
  metas : ∀ a ∈ n.tokenTxNums, ∃ m, fnMeta a = .ok m
  inputs : List.Forall₂ (Copied fnMeta n.tokenTxNums) S n.inputs
  range : ∀ idx gi, n.groupTokenIndices[idx]? = some gi → idx < n.tokenTxNums.length
  groups : ∀ idx a m, n.tokenTxNums[idx]? = some a → fnMeta a = .ok m →
    (n.toDb []).ReadsGroup fnMeta idx (lastGroup S m)

section Copy

variable {fnMeta : TxNum → Except TokenError TokenMeta} {S : List (Option SpentToken)}
  {n : NonTokenState} {nums : List TxNum}

variable {x : DbToken}

/-- Longer lists of transactions keep copies and links valid. -/
theorem Copied.append (h : Copied fnMeta nums s x) (more : List TxNum) :
    Copied fnMeta (nums ++ more) s x := by
  cases s with
  | none => exact h
  | some t =>
    unfold Copied at h ⊢
    dsimp only at h ⊢
    split at h
    · obtain ⟨idx, a, rfl, hIdx, ha⟩ := h
      exact ⟨idx, a, rfl, getElem?_append_of_some _ hIdx, ha⟩
    · obtain ⟨idx, a, rfl, hIdx, ha⟩ := h
      exact ⟨idx, a, rfl, getElem?_append_of_some _ hIdx, ha⟩
    · exact h

/-- A known token is listed by the transaction that created it. -/
theorem Copied.listed {t : SpentToken} (h : Copied fnMeta nums (some t) x) :
    t.groupTokenMeta = none ∨ ∃ a ∈ nums, fnMeta a = .ok t.token.tokenMeta := by
  unfold Copied at h
  dsimp only at h
  split at h
  · obtain ⟨idx, a, _, hIdx, ha⟩ := h
    exact .inr ⟨a, mem_of_getElem? hIdx, ha⟩
  · obtain ⟨idx, a, _, hIdx, ha⟩ := h
    exact .inr ⟨a, mem_of_getElem? hIdx, ha⟩
  · obtain ⟨_, rfl⟩ | ⟨_, rfl⟩ := h
    · exact .inl rfl
    · exact .inl rfl

theorem readsGroup_append {n : NonTokenState} {idx : Nat} {group : Option TokenMeta}
    (h : (n.toDb []).ReadsGroup fnMeta idx group) (more : List TxNum) (inputs : List DbToken) :
    (NonTokenState.toDb ⟨n.tokenTxNums ++ more, n.groupTokenIndices, inputs⟩ []).ReadsGroup
      fnMeta idx group := by
  unfold DbTokenTx.ReadsGroup at h ⊢
  dsimp only [NonTokenState.toDb] at h ⊢
  split at h
  · exact h
  · obtain ⟨ga, g, hga, hg, hEq⟩ := h
    exact ⟨ga, g, getElem?_append_of_some _ hga, hg, hEq⟩

/-- A transaction that no copy refers to has no group yet. -/
theorem CopyInv.lastGroup_eq_none (h : CopyInv fnMeta S n)
    (hInj : ∀ a a' m, fnMeta a = .ok m → fnMeta a' = .ok m → a = a') {a : TxNum} {m : TokenMeta}
    (ha : fnMeta a = .ok m) (hNot : a ∉ n.tokenTxNums) : lastGroup S m = none := by
  refine eq_none_iff_forall_ne_some.mpr fun g hg => ?_
  obtain ⟨t, ht, rfl, hGroup⟩ := exists_of_lastGroup hg
  obtain ⟨x, _, hCopied⟩ := Forall₂.exists_right h.inputs ht
  obtain hNone | ⟨a', ha', hMeta⟩ := hCopied.listed
  · rw [hNone] at hGroup
    cases hGroup
  · exact hNot (hInj a' a _ hMeta ha ▸ ha')

theorem indexOrPush_cases (nums : List TxNum) (a : TxNum) :
    ∃ more, (indexOrPush nums a).1 = nums ++ more ∧
      (indexOrPush nums a).1[(indexOrPush nums a).2]? = some a ∧
      ((more = [] ∧ a ∈ nums) ∨ (more = [a] ∧ a ∉ nums)) := by
  unfold indexOrPush
  split
  · next idx hIdx =>
    obtain ⟨hLt, hEq, _⟩ := findIdx?_eq_some_iff_getElem.mp hIdx
    have hGet : nums[idx]? = some a := List.getElem?_eq_some_iff.mpr ⟨hLt, of_decide_eq_true hEq⟩
    exact ⟨[], (append_nil _).symm, hGet, .inl ⟨rfl, mem_of_getElem? hGet⟩⟩
  · next hNone =>
    refine ⟨[a], rfl, getElem?_concat_length, .inr ⟨rfl, fun hMem => ?_⟩⟩
    have hNot := findIdx?_eq_none_iff.mp hNone a hMem
    simp at hNot

/-- Listing one more transaction. -/
theorem CopyInv.push (h : CopyInv fnMeta S n)
    (hInj : ∀ a a' m, fnMeta a = .ok m → fnMeta a' = .ok m → a = a') {a : TxNum} {m : TokenMeta}
    (ha : fnMeta a = .ok m) :
    CopyInv fnMeta S ⟨(indexOrPush n.tokenTxNums a).1, n.groupTokenIndices, n.inputs⟩ := by
  obtain ⟨more, hEq, _, hCases⟩ := indexOrPush_cases n.tokenTxNums a
  rw [hEq]
  obtain ⟨rfl, _⟩ | ⟨rfl, hNot⟩ := hCases
  · rw [append_nil]
    exact h
  · constructor
    · exact nodup_append_singleton h.nodup hNot
    · exact forall_mem_concat h.metas ⟨m, ha⟩
    · exact h.inputs.imp fun s x hCopied => hCopied.append [a]
    · intro idx gi hIdx
      exact (h.range idx gi hIdx).trans_le (by simp)
    · intro idx b m' hb hm'
      obtain ⟨_, hb⟩ | ⟨rfl, rfl⟩ := getElem?_concat_cases hb
      · exact readsGroup_append (h.groups idx b m' hb hm') [a] _
      · rw [h.lastGroup_eq_none hInj hm' hNot]
        -- the new index has no link yet
        have hNone : n.groupTokenIndices[n.tokenTxNums.length]? = none :=
          eq_none_iff_forall_ne_some.mpr fun gi hgi =>
            absurd (h.range _ gi hgi) (Nat.lt_irrefl _)
        unfold DbTokenTx.ReadsGroup
        dsimp only [NonTokenState.toDb]
        rw [hNone]

theorem CopyInv.record (h : CopyInv fnMeta S n) (hCopied : Copied fnMeta n.tokenTxNums s x)
    (hNone : ∀ t, s = some t → t.groupTokenMeta = none) :
    CopyInv fnMeta (S ++ [s]) { n with inputs := n.inputs ++ [x] } := by
  refine ⟨h.nodup, h.metas, rel_append h.inputs (.cons hCopied .nil), h.range, ?_⟩
  intro idx a m ha hm
  rw [lastGroup_concat_of_none fun t ht _ => hNone t ht]
  exact h.groups idx a m ha hm

theorem CopyInv.link (h : CopyInv fnMeta S n)
    (hInj : ∀ a a' m, fnMeta a = .ok m → fnMeta a' = .ok m → a = a') {t : SpentToken}
    (hCopied : Copied fnMeta n.tokenTxNums (some t) x) {idx gi : Nat} {a ga : TxNum} {g : TokenMeta}
    (hIdx : n.tokenTxNums[idx]? = some a) (ha : fnMeta a = .ok t.token.tokenMeta)
    (hgi : n.tokenTxNums[gi]? = some ga) (hga : fnMeta ga = .ok g) (hg : t.groupTokenMeta = some g)
    :
    CopyInv fnMeta (S ++ [some t])
      ⟨n.tokenTxNums, n.groupTokenIndices.insert idx gi, n.inputs ++ [x]⟩ := by
  refine ⟨h.nodup, h.metas, rel_append h.inputs (.cons hCopied .nil), ?_, ?_⟩
  · intro idx' gi' hGet
    rw [Column.getElem?_insert] at hGet
    split at hGet
    · next hEq =>
      subst hEq
      exact (List.getElem?_eq_some_iff.mp hIdx).1
    · exact h.range idx' gi' hGet
  · intro idx' a' m' ha' hm'
    unfold DbTokenTx.ReadsGroup
    dsimp only [NonTokenState.toDb]
    rw [Column.getElem?_insert, lastGroup_concat]
    by_cases hEq : idx = idx'
    · subst hEq
      cases hIdx.symm.trans ha'
      cases ha.symm.trans hm'
      rw [if_pos rfl]
      exact ⟨ga, g, hgi, hga, by simp [hg]⟩
    · -- another index stands for another token
      have hNe : t.token.tokenMeta ≠ m' := by
        rintro rfl
        cases hInj a a' _ ha hm'
        obtain ⟨hLt, hGet⟩ := List.getElem?_eq_some_iff.mp hIdx
        obtain ⟨hLt', hGet'⟩ := List.getElem?_eq_some_iff.mp ha'
        exact hEq (h.nodup.getElem_inj_iff.mp (hGet.trans hGet'.symm))
      rw [if_neg hEq]
      simp only [bind_some, if_neg hNe, none_or]
      exact h.groups idx' a' m' ha' hm'

/-- What a token that is read from a transaction looks like there. -/
theorem spentToken_cases {d : DbTokenTx} (h : d.spentToken x fnMeta = .ok s) :
    (d.tokenTxNum x = none ∧ (∀ nums, Copied fnMeta nums s x) ∧
      ∀ t, s = some t → t.groupTokenMeta = none) ∨
    ∃ t a, s = some t ∧ d.tokenTxNum x = some a ∧ fnMeta a = .ok t.token.tokenMeta ∧
      (∀ nums idx, nums[idx]? = some a → Copied fnMeta nums s (x.withIdx idx)) ∧
      ((d.groupTokenTxNum x = none ∧ t.groupTokenMeta = none) ∨
        ∃ ga g, d.groupTokenTxNum x = some ga ∧ fnMeta ga = .ok g ∧ t.groupTokenMeta = some g) := by
  have hGroup : ∀ {idx : Nat} {group : Option TokenMeta}, d.ReadsGroup fnMeta idx group →
      (d.groupTokenIndices[idx]?.bind (fun gi => d.tokenTxNums[gi]?) = none ∧ group = none) ∨
        ∃ ga g, d.groupTokenIndices[idx]?.bind (fun gi => d.tokenTxNums[gi]?) = some ga ∧
          fnMeta ga = .ok g ∧ group = some g := by
    intro idx group hReads
    unfold DbTokenTx.ReadsGroup at hReads
    split at hReads
    · next hNone => exact .inl ⟨by rw [hNone]; rfl, hReads⟩
    · next gi hSome =>
      obtain ⟨ga, g, hga, hg, hEq⟩ := hReads
      exact .inr ⟨ga, g, by rw [hSome]; exact hga, hg, hEq⟩
  cases x with
  | noToken =>
    cases h
    exact .inl ⟨rfl, fun _ => rfl, nofun⟩
  | unknownSlp byte =>
    cases h
    exact .inl ⟨rfl, fun _ => .inl ⟨rfl, rfl⟩, fun t ht => by cases ht; rfl⟩
  | unknownAlp byte =>
    cases h
    exact .inl ⟨rfl, fun _ => .inr ⟨rfl, rfl⟩, fun t ht => by cases ht; rfl⟩
  | atoms idx _ | mintBaton idx =>
    obtain ⟨m, group, ⟨⟨a, ha, hm⟩, hReads⟩, rfl⟩ := DbTokenTx.indexedToken_eq_ok.mp h
    exact .inr ⟨_, a, rfl, ha, hm, fun nums idx' hIdx => ⟨idx', a, rfl, hIdx, hm⟩, hGroup hReads⟩

/-- **Copying one more token.** -/
theorem CopyInv.copy (h : CopyInv fnMeta S n)
    (hInj : ∀ a a' m, fnMeta a = .ok m → fnMeta a' = .ok m → a = a') {d : DbTokenTx}
    (hs : d.spentToken x fnMeta = .ok s) : CopyInv fnMeta (S ++ [s]) (copyToken n d x) := by
  unfold copyToken
  obtain ⟨hNum, hCopied, hNone⟩ | ⟨t, a, rfl, hNum, ha, hCopied, hGroup⟩ := spentToken_cases hs
  · rw [hNum]
    exact h.record (hCopied _) hNone
  · rw [hNum]
    have hPush := h.push hInj ha
    obtain ⟨_, _, hIdx, _⟩ := indexOrPush_cases n.tokenTxNums a
    dsimp only
    obtain ⟨hNoGroup, hNone⟩ | ⟨ga, g, hSome, hga, hg⟩ := hGroup
    · rw [hNoGroup]
      refine hPush.record (hCopied _ _ hIdx) fun t' ht' => ?_
      cases ht'
      exact hNone
    · rw [hSome]
      obtain ⟨more, hEq, hgi, _⟩ := indexOrPush_cases (indexOrPush n.tokenTxNums a).1 ga
      have hIdx' := getElem?_append_of_some more hIdx
      rw [← hEq] at hIdx'
      exact (hPush.push hInj hga).link hInj (hCopied _ _ hIdx') hIdx' ha hgi hga hg

theorem CopyInv.start : CopyInv fnMeta [] ⟨[], ∅, []⟩ where
  nodup := nodup_nil
  metas a ha := absurd ha not_mem_nil
  inputs := .nil
  range idx gi hIdx := by cases hIdx
  groups idx a m ha := by cases ha

/-- Copying the tokens of all inputs. -/
theorem CopyInv.copyAll (h : CopyInv fnMeta S n)
    (hInj : ∀ a a' m, fnMeta a = .ok m → fnMeta a' = .ok m → a = a')
    {reads : List (DbTokenTx × DbToken)} {S' : List (Option SpentToken)}
    (hReads : List.Forall₂ (fun r s => r.1.spentToken r.2 fnMeta = .ok s) reads S') :
    CopyInv fnMeta (S ++ S') (reads.foldl (fun n r => copyToken n r.1 r.2) n) := by
  induction hReads generalizing S n with
  | nil => rwa [append_nil]
  | cons hRead _ ih =>
    rw [← singleton_append, ← append_assoc]
    exact ih (h.copy hInj hRead)

/-- Inputs are marked exactly if they hold a token. -/
theorem CopyInv.any_inputs (h : CopyInv fnMeta S n) :
    n.inputs.any (fun input => input ≠ .noToken) = S.any Option.isSome := by
  have hMark : ∀ {s : Option SpentToken} {x : DbToken}, Copied fnMeta n.tokenTxNums s x →
      decide (x ≠ .noToken) = s.isSome := by
    intro s x hCopied
    cases s with
    | none =>
      cases hCopied
      rfl
    | some t =>
      refine decide_eq_true ?_
      rintro rfl
      unfold Copied at hCopied
      dsimp only at hCopied
      split at hCopied
      · obtain ⟨_, _, hEq, _⟩ := hCopied
        cases hEq
      · obtain ⟨_, _, hEq, _⟩ := hCopied
        cases hEq
      · obtain ⟨hEq, _⟩ | ⟨hEq, _⟩ := hCopied <;> cases hEq
  have hInputs := h.inputs
  generalize n.inputs = inputs at hInputs
  clear h
  induction hInputs with
  | nil => rfl
  | cons hHead _ ih => rw [any_cons, any_cons, ih, hMark hHead]

theorem inputs_copyToken (n : NonTokenState) (d : DbTokenTx) (x : DbToken) :
    ∃ x', (copyToken n d x).inputs = n.inputs ++ [x'] ∧ (x' = .noToken → x = .noToken) := by
  have hIdx : ∀ idx, x.withIdx idx = .noToken → x = .noToken := by
    intro idx hEq
    cases x <;> first | rfl | cases hEq
  unfold copyToken
  cases d.tokenTxNum x with
  | none => exact ⟨x, rfl, id⟩
  | some a =>
    dsimp only
    cases d.groupTokenTxNum x with
    | none => exact ⟨_, rfl, hIdx _⟩
    | some ga => exact ⟨_, rfl, hIdx _⟩

/-- If no input is marked, there was nothing to copy. -/
theorem noToken_of_copyAll {reads : List (DbTokenTx × DbToken)}
    (h : ∀ x ∈ (reads.foldl (fun n r => copyToken n r.1 r.2) n).inputs, x = .noToken) :
    (∀ x ∈ n.inputs, x = .noToken) ∧ ∀ r ∈ reads, r.2 = .noToken := by
  induction reads generalizing n with
  | nil => exact ⟨h, fun r hr => absurd hr not_mem_nil⟩
  | cons r reads ih =>
    obtain ⟨hFirst, hRest⟩ := ih h
    obtain ⟨x', hInputs, hx'⟩ := inputs_copyToken n r.1 r.2
    rw [hInputs] at hFirst
    refine ⟨fun x hx => hFirst x (mem_append_left _ hx), ?_⟩
    intro r' hr'
    rcases mem_cons.mp hr' with rfl | hr'
    · exact hx' (hFirst x' (by simp))
    · exact hRest r' hr'

/-- How the copies read back. -/
theorem CopyInv.reads (h : CopyInv fnMeta S n) (outputs : List DbToken) :
    (n.toDb outputs).inputs.mapM (fun x => (n.toDb outputs).spentToken x fnMeta) =
      .ok (S.map (Option.map fun s => regroup (lastGroup S) s.token)) := by
  refine mapM_eq_ok.mpr (forall₂_map_right_iff.mpr (h.inputs.imp ?_).flip)
  intro s x hCopied
  have hIndexed : ∀ {m : TokenMeta} {idx : Nat} {a : TxNum} (variant : TokenVariant),
      n.tokenTxNums[idx]? = some a → fnMeta a = .ok m →
      (n.toDb outputs).indexedToken fnMeta idx variant =
        .ok (some ⟨⟨m, variant⟩, lastGroup S m⟩) := by
    intro m idx a variant hIdx ha
    exact DbTokenTx.indexedToken_eq_ok.mpr ⟨m, _, ⟨⟨a, hIdx, ha⟩, h.groups idx a m hIdx ha⟩, rfl⟩
  cases s with
  | none =>
    cases hCopied
    rfl
  | some t =>
    obtain ⟨⟨m, variant⟩, group⟩ := t
    cases variant with
    | atoms k =>
      obtain ⟨idx, a, rfl, hIdx, ha⟩ := hCopied
      exact hIndexed (.atoms k) hIdx ha
    | mintBaton =>
      obtain ⟨idx, a, rfl, hIdx, ha⟩ := hCopied
      exact hIndexed .mintBaton hIdx ha
    | unknown byte =>
      obtain ⟨rfl, hEq⟩ | ⟨rfl, hEq⟩ := hCopied
      · cases hEq
        rfl
      · cases hEq
        rfl

end Copy

end BatchProcessor

end Ergon
