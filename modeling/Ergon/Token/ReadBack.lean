import Ergon.Token.BatchInv

/-!
# Ergon — which groups are read back

A stored transaction reads back with the groups that were linked. For the
tokens on its outputs these are the right ones; for the tokens it spends only
if no other entry took the group before.

* `isLinked_section`, `isLinked_bare` — when an NFT is linked to its group;
* `reads_outputs` — outputs read back as they were verified;
* `map_regroup_verify_iff` — inputs do exactly if `SameGroups` and `GroupsFree`.
-/

namespace Ergon

open Lib VerifyContext List

namespace BatchProcessor

variable {B : BiMap TxNum TokenMeta} {ctx : VerifyContext} {tx : ColoredTx} {txid : TxId}

/-! ## Links of a verified transaction -/

/-- Entries of a token with a section are entries of that section. -/
theorem section_of_entry {S X N : List TokenTxEntry} (h : Entries ctx tx S X N) {e : TokenTxEntry}
    (he : e ∈ S ++ X ++ N) (hSec : Sectioned tx e.tokenMeta) :
    ∃ s ∈ tx.sections, e.tokenMeta = s.tokenMeta ∧ e.groupTokenMeta = ctx.sectionGroup s := by
  obtain he | he := mem_append.mp he
  · obtain he | he := mem_append.mp he
    · exact h.section_of_mem he
    · exact absurd hSec (h.extra e he).1
  · exact absurd hSec (h.bare e he).1

/-- A linked token is an NFT of the group. -/
theorem groupLink_of_isLinked (h : AllGood B ctx.spentTokens) (hNew : Creates B ctx tx)
    {m g : TokenMeta} (hLinked : IsLinked (ctx.verifyEntries tx) m g) : GroupLink B m g := by
  obtain ⟨before, e, after, hEq, rfl, hGroup, _⟩ := hLinked
  have he : e ∈ ctx.verifyEntries tx := by
    rw [hEq]
    exact mem_append_right _ mem_cons_self
  obtain ⟨s, hs, hMeta, hSec⟩ | hInherited := group_of_entry he
  · rw [hMeta]
    exact h.sectionGroup hNew hs (hSec.symm.trans hGroup)
  · exact h.inherited (hInherited.symm.trans hGroup)

theorem GroupLink.ne {m g : TokenMeta} (h : GroupLink B m g) : g ≠ m := by
  rintro rfl
  have hType := h.child.symm.trans h.group
  cases hType

/-- An NFT with a section is the first entry, so it is always linked. -/
theorem isLinked_section (hwf : tx.WellFormed txid) (h : AllGood B ctx.spentTokens)
    (hNew : Creates B ctx tx) {s : ColoredTxSection} (hs : s ∈ tx.sections)
    (hChild : s.tokenMeta.tokenType = .slp .nft1Child) {g : TokenMeta} :
    IsLinked (ctx.verifyEntries tx) s.tokenMeta g ↔ ctx.sectionGroup s = some g := by
  obtain ⟨S, X, N, hEq, hEntries⟩ := entries_eq ctx tx
  have hSlp : s.tokenMeta.tokenType.isAlp = false := by
    rw [hChild]
    rfl
  obtain ⟨s', hOne⟩ := length_eq_one_iff.mp (hwf.slp_alone s hs hSlp)
  have hOnly : ∀ s'' ∈ tx.sections, s'' = s := by
    intro s'' hs''
    rw [hOne] at hs hs''
    rw [mem_singleton.mp hs, mem_singleton.mp hs'']
  constructor
  · rintro ⟨before, e, after, hSplit, hMeta, hGroup, _⟩
    have he : e ∈ S ++ X ++ N := by
      rw [← hEq, hSplit]
      exact mem_append_right _ mem_cons_self
    obtain ⟨s'', hs'', _, hSec⟩ := section_of_entry hEntries he ⟨s, hs, hMeta.symm⟩
    rw [hOnly s'' hs''] at hSec
    exact hSec.symm.trans hGroup
  · intro hGroup
    have hLength : S.length = 1 := by
      have hMap := congrArg List.length hEntries.sections
      rwa [length_map, length_map, hOne] at hMap
    obtain ⟨e, rfl⟩ := length_eq_one_iff.mp hLength
    obtain ⟨e', he', hMeta, hSec⟩ := hEntries.exists_of_section hs
    cases mem_singleton.mp he'
    refine ⟨[], e, X ++ N, hEq.trans (by simp), hMeta, hSec.trans hGroup, ?_, ?_⟩
    · exact (h.sectionGroup hNew hs hGroup).ne
    · exact fun _ hMem => absurd hMem not_mem_nil

/-- What keeps an NFT without a section from being linked to its group: a
section, or a spent token without a section and with a smaller meta, that lists
the group. -/
def GroupTaken (ctx : VerifyContext) (tx : ColoredTx) (m g : TokenMeta) : Prop :=
  (∃ s ∈ tx.sections, s.tokenMeta = g ∨ ctx.sectionGroup s = some g) ∨
    ∃ t, some t ∈ ctx.spentTokens ∧ ¬ Sectioned tx t.token.tokenMeta ∧
      compare t.token.tokenMeta m = .lt ∧
      (t.token.tokenMeta = g ∨ ctx.inheritedGroupTokenMeta t.token.tokenMeta = some g)

/-- Entries of other tokens that payloads mention list no group. -/
theorem not_lists_extra (h : AllGood B ctx.spentTokens)
    (hExtra : ∀ m, tx.Extra m → m.tokenType.isAlp = true) {S X N : List TokenTxEntry}
    (hEntries : Entries ctx tx S X N) {x : TokenTxEntry} (hx : x ∈ X) {g : TokenMeta}
    (hg : g.tokenType = .slp .nft1Group) : ¬ Lists x g := by
  obtain ⟨_, hMentioned, hGroup⟩ := hEntries.extra x hx
  have hAlp := hExtra _ hMentioned
  rintro (rfl | hSome)
  · rw [hg] at hAlp
    cases hAlp
  · rw [(h.inherited (hGroup.symm.trans hSome)).child] at hAlp
    cases hAlp

/-- The entry of an NFT without a section comes after the sections, the other
mentioned tokens and the spent tokens with smaller metas. -/
theorem split_bare (hExtra : ∀ m, tx.Extra m → m.tokenType.isAlp = true)
    {S X N : List TokenTxEntry} (hEntries : Entries ctx tx S X N) {e : TokenTxEntry}
    (hChild : e.tokenMeta.tokenType = .slp .nft1Child) (hSec : ¬ Sectioned tx e.tokenMeta)
    {before after : List TokenTxEntry} (hEq : S ++ X ++ N = before ++ e :: after) :
    ∃ N', before = S ++ X ++ N' ∧ N = N' ++ e :: after := by
  have hNot : e ∉ S ++ X := by
    intro he
    obtain he | he := mem_append.mp he
    · obtain ⟨s, hs, hMeta, _⟩ := hEntries.section_of_mem he
      exact hSec ⟨s, hs, hMeta.symm⟩
    · have hAlp := hExtra _ (hEntries.extra e he).2.1
      rw [hChild] at hAlp
      cases hAlp
  obtain ⟨N', hBefore, hN⟩ | ⟨rest, hSX, hRest⟩ := append_eq_append_iff.mp hEq
  · exact ⟨N', hBefore, hN⟩
  · cases rest with
    | nil => exact ⟨[], by simpa using hSX.symm, hRest.symm⟩
    | cons e' rest =>
      cases hRest
      exact absurd (hSX ▸ mem_append_right _ mem_cons_self) hNot

theorem isLinked_bare (h : AllGood B ctx.spentTokens)
    (hExtra : ∀ m, tx.Extra m → m.tokenType.isAlp = true) {m g : TokenMeta}
    (hChild : m.tokenType = .slp .nft1Child) (hSec : ¬ Sectioned tx m) :
    IsLinked (ctx.verifyEntries tx) m g ↔
      ctx.inheritedGroupTokenMeta m = some g ∧ ¬ GroupTaken ctx tx m g := by
  obtain ⟨S, X, N, hEq, hEntries⟩ := entries_eq ctx tx
  have hSorted := pairwise_map.mp hEntries.sorted
  rw [hEq]
  constructor
  · rintro ⟨before, e, after, hSplit, rfl, hGroup, _, hBefore⟩
    obtain ⟨N', rfl, rfl⟩ := split_bare hExtra hEntries hChild hSec hSplit
    refine ⟨(hEntries.bare e (by simp)).2.2.symm.trans hGroup, ?_⟩
    rintro (⟨s, hs, hLists⟩ | ⟨t, ht, htSec, hLt, hLists⟩)
    · obtain ⟨e', he', hMeta, hSecGroup⟩ := hEntries.exists_of_section hs
      rw [← hMeta, ← hSecGroup] at hLists
      exact hBefore e' (by simp [he']) hLists
    · obtain hMem | hMem := hEntries.covers t ht htSec
      · obtain ⟨x, hx, hMeta⟩ := mem_map.mp hMem
        rw [← hMeta, ← (hEntries.extra x hx).2.2] at hLists
        exact hBefore x (by simp [hx]) hLists
      · obtain ⟨e', he', hMeta⟩ := mem_map.mp hMem
        rw [← hMeta, ← (hEntries.bare e' he').2.2] at hLists
        rw [← hMeta] at hLt
        -- smaller metas come before
        obtain he' | he' := mem_append.mp he'
        · exact hBefore e' (by simp [he']) hLists
        · have hGe : e' = e ∨ compare e.tokenMeta e'.tokenMeta = .lt := by
            obtain rfl | he' := mem_cons.mp he'
            · exact .inl rfl
            · exact .inr ((pairwise_cons.mp (pairwise_append.mp hSorted).2.1).1 e' he')
          obtain rfl | hGt := hGe
          · rw [Std.ReflOrd.compare_self] at hLt
            cases hLt
          · rw [Std.OrientedCmp.gt_of_lt hGt] at hLt
            cases hLt
  · rintro ⟨hGroup, hFree⟩
    have hLink := h.inherited hGroup
    obtain ⟨t, ht, _⟩ := Option.bind_eq_some_iff.mp hGroup
    obtain ⟨htMem, rfl⟩ := firstOf_eq_some ht
    -- the token has an entry among the burned ones
    have hMem : t.token.tokenMeta ∈ metas N := by
      refine (hEntries.covers t htMem hSec).resolve_left fun hMem => ?_
      obtain ⟨x, hx, hMeta⟩ := mem_map.mp hMem
      have hAlp := hExtra _ (hEntries.extra x hx).2.1
      rw [hMeta, hChild] at hAlp
      cases hAlp
    obtain ⟨e, he, hMeta⟩ := mem_map.mp hMem
    obtain ⟨N', after, rfl⟩ := append_of_mem he
    refine ⟨S ++ X ++ N', e, after, by simp, hMeta, ?_, hLink.ne, ?_⟩
    · rw [(hEntries.bare e he).2.2, hMeta]
      exact hGroup
    · intro e' he' hLists
      obtain he' | he' := mem_append.mp he'
      · obtain he' | he' := mem_append.mp he'
        · obtain ⟨s, hs, hMeta', hGroup'⟩ := hEntries.section_of_mem he'
          refine hFree (.inl ⟨s, hs, ?_⟩)
          rw [← hMeta', ← hGroup']
          exact hLists
        · exact not_lists_extra h hExtra hEntries he' hLink.group hLists
      · have heN : e' ∈ N' ++ e :: after := mem_append_left _ he'
        obtain ⟨hBareSec, _, hBareGroup⟩ := hEntries.bare e' heN
        obtain ⟨t', ht', hMeta'⟩ := hEntries.spent e' heN
        have hLt := (pairwise_append.mp hSorted).2.2 e' he' e mem_cons_self
        refine hFree (.inr ⟨t', ht', ?_, ?_, ?_⟩)
        · rwa [hMeta']
        · rwa [hMeta', ← hMeta]
        · rw [hMeta', ← hBareGroup]
          exact hLists

/-! ## Reading a stored transaction -/

variable {groupOf : TokenMeta → Option TokenMeta}

theorem regroup_of_unknown {t : Token} {byte : UInt8} (h : t.variant = .unknown byte) :
    regroup groupOf t = ⟨t, none⟩ := by
  simp only [regroup, h]

theorem regroup_of_known {t : Token} (h : ∀ byte, t.variant ≠ .unknown byte) :
    regroup groupOf t = ⟨t, groupOf t.tokenMeta⟩ := by
  unfold regroup
  split
  · next byte hByte => exact absurd hByte (h byte)
  · rfl

/-- An NFT is no mark. -/
theorem GoodSpent.known {t : SpentToken} (h : GoodSpent B t)
    (hChild : t.token.tokenMeta.tokenType = .slp .nft1Child) (byte : UInt8) :
    t.token.variant ≠ .unknown byte := by
  intro hByte
  obtain hMeta | hMeta := h.marked byte hByte
  all_goals
    rw [hMeta] at hChild
    cases hChild

/-- A good token reads back as itself exactly if its group is the linked one. -/
theorem regroup_eq_iff {t : SpentToken} (h : GoodSpent B t) : regroup groupOf t.token = t ↔
      ((∀ byte, t.token.variant ≠ .unknown byte) →
        groupOf t.token.tokenMeta = t.groupTokenMeta) := by
  by_cases hKnown : ∀ byte, t.token.variant ≠ .unknown byte
  · rw [regroup_of_known hKnown]
    refine ⟨fun hEq _ => congrArg SpentToken.groupTokenMeta hEq, fun hEq => ?_⟩
    rw [hEq hKnown]
  · refine ⟨fun _ hKnown' => absurd hKnown' hKnown, fun _ => ?_⟩
    obtain ⟨byte, hByte⟩ := not_forall_not.mp hKnown
    have hNone : t.groupTokenMeta = none := by
      refine Option.eq_none_iff_forall_ne_some.mpr fun g hg => ?_
      exact h.known (h.group g hg).child byte hByte
    rw [regroup_of_unknown hByte, ← hNone]

/-- The groups as the links of a verified transaction give them. -/
abbrev linkedGroup (B : BiMap TxNum TokenMeta) (entries : List TokenTxEntry) (m : TokenMeta) :
    Option TokenMeta := (tokenLinks B entries).groups[m]?

section Stored

variable {p : PreparedTx} {S : List (Option SpentToken)} {d : DbTokenTx} {hasVault : Bool}
  {fnMeta : TxNum → Except TokenError TokenMeta}

theorem linksOf_verify (hwf : tx.WellFormed txid) (hGood : AllGood B ctx.spentTokens)
    (hNew : Creates B ctx tx) :
    LinksOf B (ctx.verifyEntries tx) (tokenLinks B (ctx.verify tx).entries) :=
  linksOf_tokenLinks (groupedEntries_verify hwf hGood hNew)

theorem reads_inputs (hwf : tx.WellFormed txid) (hGood : AllGood B ctx.spentTokens)
    (hNew : Creates B ctx tx) (hMeta : ∀ q ∈ B, fnMeta q.1 = .ok q.2)
    (hd : Stores (tokenLinks B (ctx.verify tx).entries) ctx.spentTokens (ctx.verify tx) hasVault d) :
    d.inputs.mapM (fun t => d.spentToken t fnMeta) = .ok (ctx.spentTokens.map
      (Option.map fun s => regroup (linkedGroup B (ctx.verify tx).entries) s.token)) := by
  have hLinks := linksOf_verify hwf hGood hNew
  have hTokens : ∀ q ∈ (tokenLinks B (ctx.verify tx).entries).tokens, fnMeta q.1 = .ok q.2 :=
    fun q hq => hMeta q (hLinks.tokens q hq)
  refine mapM_eq_ok.mpr (forall₂_map_right_iff.mpr ?_)
  refine List.Forall₂.flip ?_
  refine forall₂_imp_of_mem hd.inputs fun s hs t ht => ?_
  cases s with
  | none =>
    cases ht
    rfl
  | some s => exact toDbToken_reads hd.nums hd.indices hLinks.nodup hTokens ht (hGood s hs).marked

/-- An NFT with a section reads back with the group of the section. -/
theorem linkedGroup_section (hwf : tx.WellFormed txid) (hGood : AllGood B ctx.spentTokens)
    (hNew : Creates B ctx tx) {s : ColoredTxSection} (hs : s ∈ tx.sections) :
    linkedGroup B (ctx.verify tx).entries s.tokenMeta = ctx.sectionGroup s := by
  refine Option.ext fun g => ((linksOf_verify hwf hGood hNew).groups _ g).trans ?_
  by_cases hChild : s.tokenMeta.tokenType = .slp .nft1Child
  · exact isLinked_section hwf hGood hNew hs hChild
  · -- other tokens have no group at all
    refine ⟨fun hLinked => absurd (groupLink_of_isLinked hGood hNew hLinked).child hChild, ?_⟩
    exact fun hGroup => absurd (hGood.sectionGroup hNew hs hGroup).child hChild

/-- **Outputs read back as they were verified.** -/
theorem reads_outputs (hwf : tx.WellFormed txid) (hGood : AllGood B ctx.spentTokens)
    (hNew : Creates B ctx tx) (hMeta : ∀ q ∈ B, fnMeta q.1 = .ok q.2)
    (hd : Stores (tokenLinks B (ctx.verify tx).entries) S (ctx.verify tx) hasVault d) :
    List.Forall₂ (fun t o => d.spentToken t fnMeta = .ok (o.bind (ctx.verify tx).spentToken))
      d.outputs (ctx.verify tx).outputs := by
  have hLinks := linksOf_verify hwf hGood hNew
  have hTokens : ∀ q ∈ (tokenLinks B (ctx.verify tx).entries).tokens, fnMeta q.1 = .ok q.2 :=
    fun q hq => hMeta q (hLinks.tokens q hq)
  refine List.Forall₂.flip (forall₂_imp_of_mem hd.outputs fun o ho t hot => ?_)
  obtain ⟨rfl, rfl⟩ | ⟨o', spent, rfl, hSpent, hToken⟩ := hot
  · rfl
  · obtain ⟨i, hi⟩ := mem_iff_getElem?.mp ho
    obtain ⟨hOut, sec, hSec, _⟩ := (verify_output_iff hwf).mp hi
    have hMem := mem_of_getElem? hSec
    obtain ⟨sec', hSec', hColors⟩ := hwf.colors o' (mem_of_getElem? hOut)
    cases hSec.symm.trans hSec'
    show d.spentToken t fnMeta = .ok ((ctx.verify tx).spentToken o')
    rw [hSpent]
    rw [spentToken_output hSec] at hSpent
    cases hSpent
    have hMark := wellMarked_output (hwf.section_wf sec hMem) hColors
    rw [toDbToken_reads hd.nums hd.indices hLinks.nodup hTokens hToken hMark]
    refine congrArg (fun x => Except.ok (some x)) ?_
    by_cases hKnown : ∀ byte, o'.variant ≠ .unknown byte
    · rw [regroup_of_known hKnown]
      exact congrArg (SpentToken.mk _) (linkedGroup_section hwf hGood hNew hMem)
    · obtain ⟨byte, hByte⟩ := not_forall_not.mp hKnown
      rw [hByte] at hColors
      rw [regroup_of_unknown hByte,
        hGood.sectionGroup_unknown hNew hMem (hwf.section_wf sec hMem) hColors.1]

/-! ## Inputs -/

/-- Inputs of one token agree on its group. -/
def SameGroups (S : List (Option SpentToken)) : Prop :=
  ∀ t t', some t ∈ S → some t' ∈ S → t.token.tokenMeta = t'.token.tokenMeta →
    t.groupTokenMeta = t'.groupTokenMeta

/-- No section of the payload, and no smaller token that is burned, takes the
group of an NFT that is burned. -/
def GroupsFree (tx : ColoredTx) (S : List (Option SpentToken)) : Prop :=
  ∀ t g, some t ∈ S → t.groupTokenMeta = some g → ¬ Sectioned tx t.token.tokenMeta →
    (∀ s ∈ tx.sections, s.tokenMeta ≠ g ∧
      sectionGroup ⟨S, none, none, none⟩ s ≠ some g) ∧
    ∀ t', some t' ∈ S → ¬ Sectioned tx t'.token.tokenMeta →
      compare t'.token.tokenMeta t.token.tokenMeta = .lt →
      t'.token.tokenMeta ≠ g ∧ t'.groupTokenMeta ≠ some g

theorem SameGroups.inherited (h : SameGroups ctx.spentTokens) {t : SpentToken}
    (ht : some t ∈ ctx.spentTokens) :
    ctx.inheritedGroupTokenMeta t.token.tokenMeta = t.groupTokenMeta := by
  obtain ⟨t', ht'⟩ := exists_firstOf ht
  obtain ⟨hMem, hMeta⟩ := firstOf_eq_some ht'
  rw [inheritedGroupTokenMeta, ht']
  exact h t' t hMem ht hMeta

theorem groupsFree_iff (hSame : SameGroups ctx.spentTokens) :
    GroupsFree tx ctx.spentTokens ↔
      ∀ t g, some t ∈ ctx.spentTokens → t.groupTokenMeta = some g →
        ¬ Sectioned tx t.token.tokenMeta → ¬ GroupTaken ctx tx t.token.tokenMeta g := by
  refine forall_congr' fun t => forall_congr' fun g => forall_congr' fun ht =>
    forall_congr' fun _ => forall_congr' fun _ => ?_
  constructor
  · rintro ⟨hSections, hBurned⟩ (⟨s, hs, hEq | hEq⟩ | ⟨t', ht', hSec', hLt, hEq | hEq⟩)
    · exact (hSections s hs).1 hEq
    · exact (hSections s hs).2 hEq
    · exact (hBurned t' ht' hSec' hLt).1 hEq
    · exact (hBurned t' ht' hSec' hLt).2 ((hSame.inherited ht').symm.trans hEq)
  · intro hFree
    refine ⟨fun s hs => ⟨fun hEq => ?_, fun hEq => ?_⟩,
      fun t' ht' hSec' hLt => ⟨fun hEq => ?_, fun hEq => ?_⟩⟩
    · exact hFree (.inl ⟨s, hs, .inl hEq⟩)
    · exact hFree (.inl ⟨s, hs, .inr hEq⟩)
    · exact hFree (.inr ⟨t', ht', hSec', hLt, .inl hEq⟩)
    · exact hFree (.inr ⟨t', ht', hSec', hLt, .inr ((hSame.inherited ht').trans hEq)⟩)

theorem map_regroup_eq_iff (hGood : AllGood B S) :
    S.map (Option.map fun s => regroup groupOf s.token) = S ↔
      ∀ t, some t ∈ S → (∀ byte, t.token.variant ≠ .unknown byte) →
        groupOf t.token.tokenMeta = t.groupTokenMeta := by
  have hId : S.map (Option.map fun s => regroup groupOf s.token) = S ↔
      S.map (Option.map fun s => regroup groupOf s.token) = S.map id := by
    rw [map_id]
  rw [hId, map_inj_left]
  constructor
  · intro h t ht
    exact (regroup_eq_iff (hGood t ht)).mp (Option.some.inj (h (some t) ht))
  · intro h s hs
    cases s with
    | none => rfl
    | some t => exact congrArg some ((regroup_eq_iff (hGood t hs)).mpr (h t hs))

/-- If every token has the group that is linked to its meta, inputs of one token
agree. -/
theorem sameGroups_of_groupOf (hGood : AllGood B S)
    (h : ∀ t, some t ∈ S → (∀ byte, t.token.variant ≠ .unknown byte) →
      groupOf t.token.tokenMeta = t.groupTokenMeta) :
    SameGroups S := by
  intro t t' ht ht' hMeta
  by_cases hChild : t.token.tokenMeta.tokenType = .slp .nft1Child
  · rw [← h t ht ((hGood t ht).known hChild), ← h t' ht' ((hGood t' ht').known (hMeta ▸ hChild)),
      hMeta]
  · have hNone : ∀ {u : SpentToken}, some u ∈ S →
        u.token.tokenMeta.tokenType ≠ .slp .nft1Child → u.groupTokenMeta = none := by
      intro u hu hNot
      exact Option.eq_none_iff_forall_ne_some.mpr fun g hg => hNot ((hGood u hu).group g hg).child
    rw [hNone ht hChild, hNone ht' (hMeta ▸ hChild)]

/-- **Inputs read back as they were spent exactly if no group is taken.** -/
theorem map_regroup_verify_iff (hwf : tx.WellFormed txid) (hGood : AllGood B ctx.spentTokens)
    (hNew : Creates B ctx tx) (hExtra : ∀ m, tx.Extra m → m.tokenType.isAlp = true)
    (hNotOwn : ∀ t, some t ∈ ctx.spentTokens → (∀ byte, t.token.variant ≠ .unknown byte) →
      t.token.tokenMeta.tokenId ≠ txid) :
    ctx.spentTokens.map (Option.map fun s =>
        regroup (linkedGroup B (ctx.verify tx).entries) s.token) = ctx.spentTokens ↔
      SameGroups ctx.spentTokens ∧ GroupsFree tx ctx.spentTokens := by
  have hLinks := linksOf_verify hwf hGood hNew
  rw [map_regroup_eq_iff hGood]
  constructor
  · intro h
    have hSame := sameGroups_of_groupOf hGood h
    refine ⟨hSame, (groupsFree_iff hSame).mpr fun t g ht hg hSec => ?_⟩
    have hChild := ((hGood t ht).group g hg).child
    have hGroup := h t ht ((hGood t ht).known hChild)
    have hLinked := (hLinks.groups _ g).mp (hGroup.trans hg)
    exact ((isLinked_bare hGood hExtra hChild hSec).mp hLinked).2
  · rintro ⟨hSame, hFree⟩ t ht hKnown
    rw [groupsFree_iff hSame] at hFree
    by_cases hSec : Sectioned tx t.token.tokenMeta
    · obtain ⟨s, hs, hMeta⟩ := hSec
      -- a token that is spent here was not created here
      have hNot : ¬ (s.txType = .genesis ∧ s.tokenMeta.tokenType = .slp .nft1Child) := by
        rintro ⟨hType, _⟩
        have hSecWf := hwf.section_wf s hs
        simp only [ColoredTxSection.WellFormed, hType] at hSecWf
        exact hNotOwn t ht hKnown (hMeta ▸ hSecWf.1)
      rw [← hMeta, linkedGroup_section hwf hGood hNew hs, sectionGroup, if_neg hNot, hMeta]
      exact hSame.inherited ht
    · refine Option.ext fun g => (hLinks.groups _ g).trans ?_
      by_cases hChild : t.token.tokenMeta.tokenType = .slp .nft1Child
      · rw [isLinked_bare hGood hExtra hChild hSec, hSame.inherited ht]
        exact ⟨fun hBoth => hBoth.1, fun hg => ⟨hg, hFree t g ht hg hSec⟩⟩
      · refine ⟨fun hLinked => absurd (groupLink_of_isLinked hGood hNew hLinked).child hChild, ?_⟩
        exact fun hg => absurd ((hGood t ht).group g hg).child hChild

end Stored

end BatchProcessor

end Ergon
