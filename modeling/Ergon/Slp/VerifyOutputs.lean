import Ergon.Slp.VerifyEntries

/-!
# Ergon — valid sections and their outputs

When `verifySection` accepts a section, which group its token gets, and which
outputs of a verified transaction hold tokens.

* `VerifyContext.isInvalid_verifySection` — the conditions of validity;
* `VerifyContext.verify_output_iff` — an output keeps its colour exactly if its
  section is valid;
* `VerifyContext.spentToken_output` — the token such an output holds.
-/

namespace Ergon

open Lib List

namespace VerifyContext

variable {ctx : VerifyContext} {tx : ColoredTx} {txid : TxId}

/-- What makes a section valid. -/
def SectionValid (ctx : VerifyContext) (s : ColoredTxSection) : Prop :=
  (s.tokenMeta.tokenType.isAlp = true → ctx.spentTokens.length ≤ maxTxInputs) ∧
  match s.txType with
  | .genesis => s.tokenMeta.tokenType = .slp .nft1Child → ctx.nft1Group ≠ none
  | .mint =>
    if s.isMintVaultMint then ctx.hasMintVault = true else ctx.hasMintBaton s.tokenMeta = true
  | .send => s.requiredInputSum ≤ ctx.calcInputSum s.tokenMeta
  | .unknown => True
  | .burn => True

/-- The group of a section's token: an NFT that is created belongs to the group
that is spent. -/
def sectionGroup (ctx : VerifyContext) (s : ColoredTxSection) : Option TokenMeta :=
  if s.txType = .genesis ∧ s.tokenMeta.tokenType = .slp .nft1Child then
    ctx.nft1Group.or (ctx.inheritedGroupTokenMeta s.tokenMeta)
  else ctx.inheritedGroupTokenMeta s.tokenMeta

theorem isInvalid_verifySection (ctx : VerifyContext) (tx : ColoredTx) (s : ColoredTxSection) :
    (ctx.verifySection tx s).isInvalid = false ↔ ctx.SectionValid s := by
  unfold verifySection SectionValid
  dsimp only
  by_cases hMany : s.tokenMeta.tokenType.isAlp = true ∧ maxTxInputs < ctx.spentTokens.length
  · rw [if_pos hMany]
    exact ⟨nofun, fun h => absurd (h.1 hMany.1) (Nat.not_le.mpr hMany.2)⟩
  · rw [if_neg hMany]
    have hFew : s.tokenMeta.tokenType.isAlp = true → ctx.spentTokens.length ≤ maxTxInputs :=
      fun hAlp => Nat.not_lt.mp fun hLt => hMany ⟨hAlp, hLt⟩
    rw [and_iff_right hFew]
    cases s.txType with
    | genesis =>
      by_cases hChild : s.tokenMeta.tokenType = .slp .nft1Child
      · cases hGroup : ctx.nft1Group <;> simp [hChild]
      · simp [hChild]
    | mint =>
      cases hVault : s.isMintVaultMint
      · cases hBaton : ctx.hasMintBaton s.tokenMeta <;> simp
      · cases hHas : ctx.hasMintVault <;> simp
    | send =>
      by_cases hSum : ctx.calcInputSum s.tokenMeta < s.requiredInputSum
      · simp [hSum]
      · simp [hSum, Nat.not_lt.mp hSum]
    | unknown => simp
    | burn => simp

theorem groupTokenMeta_verifySection (ctx : VerifyContext) (tx : ColoredTx) (s : ColoredTxSection) :
    (ctx.verifySection tx s).groupTokenMeta = ctx.sectionGroup s := by
  unfold verifySection sectionGroup
  dsimp only
  by_cases hMany : s.tokenMeta.tokenType.isAlp = true ∧ maxTxInputs < ctx.spentTokens.length
  · -- NFTs are SLP tokens
    have hSlp : ¬ (s.txType = .genesis ∧ s.tokenMeta.tokenType = .slp .nft1Child) := by
      rintro ⟨_, hChild⟩
      rw [hChild] at hMany
      exact absurd hMany.1 nofun
    rw [if_pos hMany, if_neg hSlp]
  · rw [if_neg hMany]
    cases s.txType with
    | genesis =>
      by_cases hChild : s.tokenMeta.tokenType = .slp .nft1Child
      · cases hGroup : ctx.nft1Group <;> simp [hChild]
      · simp [hChild]
    | mint =>
      cases s.isMintVaultMint
      · cases ctx.hasMintBaton s.tokenMeta <;> rfl
      · cases ctx.hasMintVault <;> rfl
    | send => by_cases hSum : ctx.calcInputSum s.tokenMeta < s.requiredInputSum <;> simp [hSum]
    | unknown => rfl
    | burn => rfl

theorem genesisInfo_verifySection (ctx : VerifyContext) (tx : ColoredTx) (s : ColoredTxSection) :
    (ctx.verifySection tx s).genesisInfo = s.genesisInfo := by
  unfold verifySection
  dsimp only
  repeat' split
  all_goals rfl

theorem txType_verifySection (ctx : VerifyContext) (tx : ColoredTx) (s : ColoredTxSection) :
    (ctx.verifySection tx s).txType = some s.txType := by
  unfold verifySection
  dsimp only
  repeat' split
  all_goals rfl

variable {S X N : List TokenTxEntry}

/-- The first entries are those of the sections. -/
theorem Entries.section_of_mem (h : Entries ctx tx S X N) {e : TokenTxEntry} (he : e ∈ S) :
    ∃ s ∈ tx.sections, e.tokenMeta = s.tokenMeta ∧ e.groupTokenMeta = ctx.sectionGroup s := by
  have hVerdict : e.verdict ∈ S.map TokenTxEntry.verdict := mem_map_of_mem he
  rw [h.sections] at hVerdict
  obtain ⟨s, hs, hSame⟩ := mem_map.mp hVerdict
  refine ⟨s, hs, ?_, ?_⟩
  · exact (congrArg Verdict.tokenMeta hSame).symm.trans (tokenMeta_verifySection ctx tx s)
  · exact (congrArg Verdict.groupTokenMeta hSame).symm.trans (groupTokenMeta_verifySection ctx tx s)

variable {s : ColoredTxSection}

theorem Entries.exists_of_section (h : Entries ctx tx S X N) (hs : s ∈ tx.sections) :
    ∃ e ∈ S, e.tokenMeta = s.tokenMeta ∧ e.groupTokenMeta = ctx.sectionGroup s := by
  have hVerdict : (ctx.verifySection tx s).verdict ∈ S.map TokenTxEntry.verdict := by
    rw [h.sections]
    exact mem_map_of_mem hs
  obtain ⟨e, he, hSame⟩ := mem_map.mp hVerdict
  exact ⟨e, he, (congrArg Verdict.tokenMeta hSame).trans (tokenMeta_verifySection ctx tx s),
    (congrArg Verdict.groupTokenMeta hSame).trans (groupTokenMeta_verifySection ctx tx s)⟩

/-- The entry of a section, by the index that the outputs refer to. -/
theorem entry_of_section (ctx : VerifyContext) {k : Nat} (hs : tx.sections[k]? = some s) :
    ∃ e, (ctx.verifyEntries tx)[k]? = some e ∧ e.verdict = (ctx.verifySection tx s).verdict := by
  obtain ⟨S, X, N, hEq, h⟩ := entries_eq ctx tx
  have hGet : (S.map TokenTxEntry.verdict)[k]? = some (ctx.verifySection tx s).verdict := by
    rw [h.sections, getElem?_map, hs]
    rfl
  rw [getElem?_map] at hGet
  obtain ⟨e, he, hVerdict⟩ := Option.map_eq_some_iff.mp hGet
  refine ⟨e, ?_, hVerdict⟩
  rw [hEq, append_assoc]
  exact getElem?_append_of_some _ he

/-- **Outputs of valid sections keep their colour**, the others lose it. -/
theorem verify_output_iff (hwf : tx.WellFormed txid) {i : Nat} {o : TokenOutput} :
    (ctx.verify tx).outputs[i]? = some (some o) ↔
      tx.outputs[i]? = some (some o) ∧
        ∃ s, tx.sections[o.tokenIdx]? = some s ∧ ctx.SectionValid s := by
  have hMap : (ctx.verify tx).outputs[i]? =
      tx.outputs[i]?.map fun o => o.bind (keepValid (ctx.verifyEntries tx)) := getElem?_map
  rw [hMap]
  constructor
  · intro h
    obtain ⟨out, hOut, hBind⟩ := Option.map_eq_some_iff.mp h
    obtain ⟨o', rfl, hKeep⟩ := Option.bind_eq_some_iff.mp hBind
    obtain ⟨s, hs, _⟩ := hwf.colors o' (mem_of_getElem? hOut)
    obtain ⟨e, he, hVerdict⟩ := entry_of_section ctx hs
    simp only [keepValid, he] at hKeep
    split at hKeep
    · cases hKeep
    · next hValid =>
      cases hKeep
      refine ⟨hOut, s, hs, (isInvalid_verifySection ctx tx s).mp ?_⟩
      have hEq : e.isInvalid = (ctx.verifySection tx s).isInvalid := congrArg Verdict.isInvalid hVerdict
      rw [← hEq]
      exact Bool.eq_false_iff.mpr hValid
  · rintro ⟨hOut, s, hs, hValid⟩
    obtain ⟨e, he, hVerdict⟩ := entry_of_section ctx hs
    have hEq : e.isInvalid = (ctx.verifySection tx s).isInvalid := congrArg Verdict.isInvalid hVerdict
    rw [(isInvalid_verifySection ctx tx s).mpr hValid] at hEq
    rw [hOut]
    simp [keepValid, he, hEq]

/-- The token of an output that was coloured by a section. -/
theorem spentToken_output {o : TokenOutput} (hs : tx.sections[o.tokenIdx]? = some s) :
    (ctx.verify tx).spentToken o = some ⟨⟨s.tokenMeta, o.variant⟩, ctx.sectionGroup s⟩ := by
  obtain ⟨e, he, hVerdict⟩ := entry_of_section ctx hs
  have hMeta : e.tokenMeta = s.tokenMeta :=
    (congrArg Verdict.tokenMeta hVerdict).trans (tokenMeta_verifySection ctx tx s)
  have hGroup : e.groupTokenMeta = ctx.sectionGroup s :=
    (congrArg Verdict.groupTokenMeta hVerdict).trans (groupTokenMeta_verifySection ctx tx s)
  have hGet : (ctx.verify tx).entries[o.tokenIdx]? = some e := he
  rw [TokenTx.spentToken, hGet, Option.map_some, hMeta, hGroup]

end VerifyContext

end Ergon
