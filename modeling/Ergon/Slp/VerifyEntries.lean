import Ergon.Slp.Verify

/-!
# Ergon — the entries of a verified transaction

What `VerifyContext.verify` makes of a coloured transaction, stated on the
verdict of each entry: its token, its type, the token it creates, its group and
whether it is invalid.

* `VerifyContext.burnsOf_calcBareBurns` — which spent tokens count as burned;
* `VerifyContext.entries_eq` — the entries in order: the sections with the
  verdicts of `verifySection`, the tokens of burns and failed payloads, and the
  tokens burned without a section in the order of their metas.
-/

namespace Ergon

open Lib List Option Std.ExtTreeMap

/-- What later stages use of an entry. -/
structure Verdict where
  tokenMeta : TokenMeta
  txType : Option TxType
  genesisInfo : Option GenesisInfo
  groupTokenMeta : Option TokenMeta
  isInvalid : Bool

def TokenTxEntry.verdict (e : TokenTxEntry) : Verdict :=
  ⟨e.tokenMeta, e.txType, e.genesisInfo, e.groupTokenMeta, e.isInvalid⟩

namespace VerifyContext

variable {ctx : VerifyContext} {tx : ColoredTx}

/-! ## Burns without a section -/

def Sectioned (tx : ColoredTx) (m : TokenMeta) : Prop := ∃ s ∈ tx.sections, s.tokenMeta = m

theorem firstOf_append_none (inputs : List (Option SpentToken)) (m : TokenMeta) :
    firstOf (inputs ++ [none]) m = firstOf inputs m := by
  simp [firstOf]

theorem firstOf_append_some (inputs : List (Option SpentToken)) (s : SpentToken) (m : TokenMeta) :
    firstOf (inputs ++ [some s]) m =
      (firstOf inputs m).or (if s.token.tokenMeta = m then some s else none) := by
  simp only [firstOf, filterMap_append, find?_append]
  by_cases h : s.token.tokenMeta = m <;> simp [h]

variable {m : TokenMeta}

variable {inputs : List (Option SpentToken)}

theorem firstOf_eq_some {s : SpentToken} (h : firstOf inputs m = some s) :
    some s ∈ inputs ∧ s.token.tokenMeta = m := by
  have hMem := mem_of_find?_eq_some h
  have hMeta := find?_some h
  simp only [mem_filterMap, id_eq, exists_eq_right, decide_eq_true_eq] at hMem hMeta
  exact ⟨hMem, hMeta⟩

theorem exists_firstOf {s : SpentToken} (h : some s ∈ inputs) :
    ∃ s', firstOf inputs s.token.tokenMeta = some s' := by
  refine isSome_iff_exists.mp (find?_isSome.mpr ⟨s, ?_, decide_eq_true rfl⟩)
  exact mem_filterMap.mpr ⟨some s, h, rfl⟩

theorem group_burnInput (spared : Bool) (variant : TokenVariant) (burn : BareBurn) :
    (burnInput spared variant burn).groupTokenMeta = burn.groupTokenMeta := by
  unfold burnInput
  split
  · rfl
  · split <;> rfl

/-- The groups of the burns after some inputs: those of the first inputs. -/
def BurnsOf (tx : ColoredTx) (done : List (Option SpentToken)) (burns : Column TokenMeta BareBurn) :
    Prop :=
  ∀ m, (Sectioned tx m → burns[m]? = none) ∧
    (¬ Sectioned tx m → burns[m]?.map (·.groupTokenMeta) = (firstOf done m).map (·.groupTokenMeta))

theorem BurnsOf.step {done : List (Option SpentToken)} {burns : Column TokenMeta BareBurn}
    (h : BurnsOf tx done burns) (entries : List TokenTxEntry) (input : Option SpentToken)
    (idx : Nat) : BurnsOf tx (done ++ [input]) (addBurnedInput tx entries burns (input, idx)) := by
  intro m
  cases input with
  | none =>
    rw [firstOf_append_none]
    exact h m
  | some s =>
    have hAny : (tx.sections.any fun sec => sec.tokenMeta = s.token.tokenMeta) = true ↔
        Sectioned tx s.token.tokenMeta := by
      simp [Sectioned]
    unfold addBurnedInput
    dsimp only
    split
    · next hSec =>
      -- the token has a section: nothing changes for it, nor for others
      refine ⟨(h m).1, fun hm => ?_⟩
      have hNe : s.token.tokenMeta ≠ m := fun hEq => hm (hEq ▸ hAny.mp hSec)
      rw [firstOf_append_some, if_neg hNe, or_none]
      exact (h m).2 hm
    · next hSec =>
      rw [Column.getElem?_insert, firstOf_append_some]
      by_cases hEq : s.token.tokenMeta = m
      · subst hEq
        have hNot : ¬ Sectioned tx s.token.tokenMeta := fun hs => hSec (hAny.mpr hs)
        refine ⟨fun hs => absurd hs hNot, fun _ => ?_⟩
        have hOld := (h s.token.tokenMeta).2 hNot
        rw [if_pos rfl, if_pos rfl, map_some, group_burnInput]
        cases hBurn : burns[s.token.tokenMeta]? with
        | none =>
          rw [hBurn] at hOld
          have hNone : firstOf done s.token.tokenMeta = none := map_eq_none_iff.mp hOld.symm
          rw [hNone]
          rfl
        | some b =>
          rw [hBurn] at hOld
          obtain ⟨s', hs', hGroup⟩ := map_eq_some_iff.mp hOld.symm
          rw [hs', some_or, map_some, hGroup]
          rfl
      · rw [if_neg hEq, if_neg hEq, or_none]
        exact h m

theorem burnsOf_calcBareBurns (ctx : VerifyContext) (tx : ColoredTx)
    (entries : List TokenTxEntry) : BurnsOf tx ctx.spentTokens (ctx.calcBareBurns tx entries) := by
  have hRun : ∀ (rest done : List (Option SpentToken)) (burns : Column TokenMeta BareBurn)
      (start : Nat), BurnsOf tx done burns →
      BurnsOf tx (done ++ rest) ((rest.zipIdx start).foldl (addBurnedInput tx entries) burns) := by
    intro rest
    induction rest with
    | nil =>
      intro done burns start h
      rwa [append_nil]
    | cons input rest ih =>
      intro done burns start h
      have hStep := ih _ _ (start + 1) (h.step entries input start)
      rwa [append_assoc, singleton_append] at hStep
  have hEmpty : BurnsOf tx [] ∅ := fun m => ⟨fun _ => rfl, fun _ => rfl⟩
  exact hRun ctx.spentTokens [] ∅ 0 hEmpty

/-! ## The entries in order -/

/-- The tokens of some entries. -/
abbrev metas (entries : List TokenTxEntry) : List TokenMeta := entries.map (·.tokenMeta)

variable {X : List TokenTxEntry}

theorem addBareBurn_of_mem (hm : m ∈ metas X) (b : BareBurn) (N : List TokenTxEntry) :
    ∃ l₁ y l₂, X = l₁ ++ y :: l₂ ∧ y.tokenMeta = m ∧
      addBareBurn (X ++ N) (m, b) = l₁ ++ BareBurn.update b y :: l₂ ++ N := by
  obtain ⟨x, hx, hxm⟩ := List.mem_map.mp hm
  obtain ⟨l₁, y, l₂, hX, hy, hUpsert⟩ | ⟨hNone, _⟩ :=
    upsert_cases (fun e : TokenTxEntry => e.tokenMeta = m) (BareBurn.update b)
      (BareBurn.toEntry b m) X
  · refine ⟨l₁, y, l₂, hX, of_decide_eq_true hy, ?_⟩
    rw [← hUpsert]
    exact upsert_append_left ⟨x, hx, decide_eq_true hxm⟩ _ _ _
  · exact absurd (decide_eq_true hxm) (Bool.eq_false_iff.mp (hNone x hx))

theorem addBareBurn_of_not_mem (hm : m ∉ metas X) (b : BareBurn) :
    addBareBurn X (m, b) = X ++ [BareBurn.toEntry b m] := by
  obtain ⟨l₁, y, l₂, hX, hy, _⟩ | ⟨_, hUpsert⟩ :=
    upsert_cases (fun e : TokenTxEntry => e.tokenMeta = m) (BareBurn.update b)
      (BareBurn.toEntry b m) X
  · have hMem : y ∈ X := by
      rw [hX]
      exact mem_append_right _ mem_cons_self
    exact absurd (List.mem_map.mpr ⟨y, hMem, of_decide_eq_true hy⟩) hm
  · exact hUpsert

/-- The group of an entry after some burns of distinct tokens: that of the burn
of its token, if there is one. -/
def GroupAfter (burns : List (TokenMeta × BareBurn)) (e e' : TokenTxEntry) : Prop :=
  e'.tokenMeta = e.tokenMeta ∧
    ((∃ b, (e.tokenMeta, b) ∈ burns ∧ e'.groupTokenMeta = b.groupTokenMeta) ∨
      ((∀ b, (e.tokenMeta, b) ∉ burns) ∧ e'.groupTokenMeta = e.groupTokenMeta))

theorem GroupAfter.cons {burns : List (TokenMeta × BareBurn)} {e e' : TokenTxEntry}
    (h : GroupAfter burns e e') (hm : e.tokenMeta ≠ m) (b : BareBurn) :
    GroupAfter ((m, b) :: burns) e e' := by
  refine ⟨h.1, ?_⟩
  obtain ⟨b', hb', hGroup⟩ | ⟨hNot, hSame⟩ := h.2
  · exact .inl ⟨b', mem_cons_of_mem _ hb', hGroup⟩
  · refine .inr ⟨fun b' hb' => ?_, hSame⟩
    obtain hEq | hb' := mem_cons.mp hb'
    · exact hm (congrArg Prod.fst hEq)
    · exact hNot b' hb'

/-- The burns without a section, folded into entries `X` with distinct tokens:
entries of a burned token change, the other burns are added in order. -/
theorem foldl_addBareBurn (burns : List (TokenMeta × BareBurn)) (X N : List TokenTxEntry)
    (hNodup : (metas X).Nodup) (hNew : ∀ p ∈ burns, p.1 ∉ metas N)
    (hKeys : (burns.map Prod.fst).Nodup) :
    ∃ X', burns.foldl addBareBurn (X ++ N) =
        X' ++ N ++ (burns.filter fun p => p.1 ∉ metas X).map (fun p => BareBurn.toEntry p.2 p.1) ∧
      metas X' = metas X ∧ ∀ e' ∈ X', ∃ e ∈ X, GroupAfter burns e e' := by
  induction burns generalizing X N with
  | nil =>
    refine ⟨X, by simp, rfl, fun e he => ⟨e, he, rfl, .inr ⟨fun _ => not_mem_nil, rfl⟩⟩⟩
  | cons p burns ih =>
    obtain ⟨m, b⟩ := p
    rw [map_cons, nodup_cons] at hKeys
    have hLater : ∀ b', (m, b') ∉ burns := fun b' hb' => hKeys.1 (List.mem_map.mpr ⟨_, hb', rfl⟩)
    have hNew' : ∀ q ∈ burns, q.1 ∉ metas N := fun q hq => hNew q (mem_cons_of_mem _ hq)
    rw [foldl_cons]
    by_cases hm : m ∈ metas X
    · -- the burn changes the entry of its token, `y`
      obtain ⟨l₁, y, l₂, rfl, hy, hAdd⟩ := addBareBurn_of_mem hm b N
      have hMetas : metas (l₁ ++ BareBurn.update b y :: l₂) = metas (l₁ ++ y :: l₂) := by
        simp [metas, BareBurn.update]
      have hNodup' : (metas (l₁ ++ BareBurn.update b y :: l₂)).Nodup := by rwa [hMetas]
      obtain ⟨X', hFold, hX', hGroups⟩ := ih _ N hNodup' hNew' hKeys.2
      refine ⟨X', ?_, hX'.trans hMetas, fun e' he' => ?_⟩
      · have hFilter : ((m, b) :: burns).filter (fun p => p.1 ∉ metas (l₁ ++ y :: l₂)) =
            burns.filter fun p => p.1 ∉ metas (l₁ ++ y :: l₂) :=
          filter_cons_of_neg (by rw [decide_eq_true_eq]; exact not_not_intro hm)
        rw [hAdd, hFold, hMetas, hFilter]
      · obtain ⟨e, he, hAfter⟩ := hGroups e' he'
        by_cases hem : e.tokenMeta = m
        · -- no later burn is of this token, so `e'` has the group of this burn
          have hEq : e = BareBurn.update b y :=
            inj_on_of_nodup_map hNodup' he (by simp) (hem.trans hy.symm)
          refine ⟨y, by simp, hAfter.1.trans (hem.trans hy.symm), .inl ⟨b, ?_, ?_⟩⟩
          · exact mem_cons.mpr (.inl (by rw [hy]))
          · obtain ⟨b', hb', _⟩ | ⟨_, hSame⟩ := hAfter.2
            · exact absurd (hem ▸ hb') (hLater b')
            · rw [hSame, hEq]
              rfl
        · refine ⟨e, ?_, hAfter.cons hem b⟩
          obtain he | he := mem_append.mp he
          · exact mem_append_left _ he
          · obtain rfl | he := mem_cons.mp he
            · exact absurd hy hem
            · exact mem_append_right _ (mem_cons_of_mem _ he)
    · -- the burn is added
      have hmN : m ∉ metas N := hNew (m, b) mem_cons_self
      have hAdd : addBareBurn (X ++ N) (m, b) = X ++ (N ++ [BareBurn.toEntry b m]) := by
        have hNot : m ∉ metas (X ++ N) := by
          rw [metas, map_append, mem_append]
          exact not_or.mpr ⟨hm, hmN⟩
        rw [addBareBurn_of_not_mem hNot, append_assoc]
      have hNewCons : ∀ q ∈ burns, q.1 ∉ metas (N ++ [BareBurn.toEntry b m]) := by
        intro q hq hMem
        simp only [metas, map_append] at hMem
        obtain hMem | hMem := mem_append.mp hMem
        · exact hNew' q hq hMem
        · have hEq : q.1 = m := mem_singleton.mp hMem
          exact hLater q.2 (hEq ▸ hq)
      obtain ⟨X', hFold, hX', hGroups⟩ := ih X _ hNodup hNewCons hKeys.2
      refine ⟨X', ?_, hX', fun e' he' => ?_⟩
      · have hFilter : ((m, b) :: burns).filter (fun p => p.1 ∉ metas X) =
            (m, b) :: burns.filter fun p => p.1 ∉ metas X :=
          filter_cons_of_pos (decide_eq_true hm)
        rw [hAdd, hFold, hFilter]
        simp only [map_cons, append_assoc, singleton_append]
      · obtain ⟨e, he, hAfter⟩ := hGroups e' he'
        exact ⟨e, he, hAfter.cons (fun hEq => hm (List.mem_map.mpr ⟨e, he, hEq⟩)) b⟩

/-- The entries before the burns without a section: those of the sections, then
those of other tokens that the payloads mention. -/
structure BaseEntries (ctx : VerifyContext) (tx : ColoredTx) (S X : List TokenTxEntry) : Prop where
  sections : S.map TokenTxEntry.verdict = tx.sections.map fun s => (ctx.verifySection tx s).verdict
  nodup : (metas X).Nodup
  extra : ∀ x ∈ X, ¬ Sectioned tx x.tokenMeta ∧ x.groupTokenMeta = none ∧ tx.Extra x.tokenMeta

theorem tokenMeta_verifySection (ctx : VerifyContext) (tx : ColoredTx) (s : ColoredTxSection) :
    (ctx.verifySection tx s).tokenMeta = s.tokenMeta := by
  unfold verifySection
  dsimp only
  repeat' split
  all_goals rfl

variable {S X : List TokenTxEntry}

theorem BaseEntries.metas_eq (h : BaseEntries ctx tx S X) :
    metas S = tx.sections.map (·.tokenMeta) := by
  have hMap := congrArg (List.map Verdict.tokenMeta) h.sections
  simp only [List.map_map] at hMap
  refine Eq.trans hMap (map_congr_left fun s _ => ?_)
  exact tokenMeta_verifySection ctx tx s

theorem BaseEntries.sectioned (h : BaseEntries ctx tx S X) : Sectioned tx m ↔ m ∈ metas S := by
  rw [h.metas_eq, List.mem_map]
  rfl

theorem BaseEntries.cons (h : BaseEntries ctx tx S X) {x : TokenTxEntry}
    (hS : x.tokenMeta ∉ metas S) (hX : x.tokenMeta ∉ metas X) (hGroup : x.groupTokenMeta = none)
    (hExtra : tx.Extra x.tokenMeta) :
    BaseEntries ctx tx S (X ++ [x]) where
  sections := h.sections
  nodup := by
    rw [metas, map_append]
    exact nodup_append_singleton h.nodup hX
  extra := forall_mem_concat h.extra ⟨fun hSec => hS (h.sectioned.mp hSec), hGroup, hExtra⟩

theorem BaseEntries.addIntentionalBurn (h : BaseEntries ctx tx S X) {b : IntentionalBurn}
    (hb : b ∈ tx.intentionalBurns) :
    ∃ X', addIntentionalBurn (S ++ X) b = S ++ X' ∧ BaseEntries ctx tx S X' := by
  unfold VerifyContext.addIntentionalBurn
  split
  · exact ⟨X, rfl, h⟩
  · next hNone =>
    have hNot : ∀ e ∈ S ++ X, e.tokenMeta ≠ b.tokenMeta := by
      intro e he hEq
      exact hNone (List.any_eq_true.mpr ⟨e, he, decide_eq_true (congrArg _ hEq)⟩)
    refine ⟨_, append_assoc _ _ _, h.cons ?_ ?_ rfl (.inl ⟨b, hb, rfl⟩)⟩
    · intro hMem
      obtain ⟨e, he, hEq⟩ := List.mem_map.mp hMem
      exact hNot e (mem_append_left _ he) hEq
    · intro hMem
      obtain ⟨e, he, hEq⟩ := List.mem_map.mp hMem
      exact hNot e (mem_append_right _ he) hEq

theorem BaseEntries.addFailedColoring (h : BaseEntries ctx tx S X) {f : FailedColoring}
    (hf : f ∈ tx.failedColorings) :
    ∃ S' X', addFailedColoring (S ++ X) f = S' ++ X' ∧ BaseEntries ctx tx S' X' := by
  have hAny : ∀ E : List TokenTxEntry, f.parsed.tokenMeta ∈ metas E →
      ∃ e ∈ E, decide (e.tokenMeta = f.parsed.tokenMeta) = true := by
    intro E hMem
    obtain ⟨e, he, hEq⟩ := List.mem_map.mp hMem
    exact ⟨e, he, decide_eq_true hEq⟩
  have hNone : ∀ E : List TokenTxEntry, f.parsed.tokenMeta ∉ metas E →
      ∀ e ∈ E, decide (e.tokenMeta = f.parsed.tokenMeta) = false := by
    intro E hMem e he
    exact decide_eq_false fun hEq => hMem (List.mem_map.mpr ⟨e, he, hEq⟩)
  have hVerdict : ∀ e, (attachFailed f e).verdict = e.verdict := fun _ => rfl
  have hMeta : ∀ e, (attachFailed f e).tokenMeta = e.tokenMeta := fun _ => rfl
  unfold VerifyContext.addFailedColoring
  by_cases hS : f.parsed.tokenMeta ∈ metas S
  · -- the payload goes to a section
    refine ⟨_, X, upsert_append_left (hAny S hS) _ _ _, ?_, h.nodup, h.extra⟩
    rw [map_upsert hVerdict _ (hAny S hS)]
    exact h.sections
  · rw [upsert_append_right (hNone S hS)]
    by_cases hX : f.parsed.tokenMeta ∈ metas X
    · refine ⟨S, _, rfl, h.sections, ?_, ?_⟩
      · rw [metas, map_upsert hMeta _ (hAny X hX)]
        exact h.nodup
      · intro x' hx'
        have hMem := List.mem_map_of_mem (f := TokenTxEntry.verdict) hx'
        rw [map_upsert hVerdict _ (hAny X hX)] at hMem
        obtain ⟨x, hx, hEq⟩ := List.mem_map.mp hMem
        have hMetaEq : x.tokenMeta = x'.tokenMeta := congrArg Verdict.tokenMeta hEq
        have hGroupEq : x.groupTokenMeta = x'.groupTokenMeta := congrArg Verdict.groupTokenMeta hEq
        rw [← hMetaEq, ← hGroupEq]
        exact h.extra x hx
    · obtain ⟨_, e, _, hEq, he, _⟩ | ⟨_, hUpsert⟩ :=
        upsert_cases (fun e : TokenTxEntry => e.tokenMeta = f.parsed.tokenMeta) (attachFailed f)
          (failedEntry f) X
      · exact absurd he (Bool.eq_false_iff.mp (hNone X hX e (by rw [hEq]; simp)))
      · exact ⟨S, _, congrArg _ hUpsert, h.cons hS hX rfl (.inr ⟨f, hf, rfl⟩)⟩

/-- The entries before the burns without a section are as described. -/
theorem exists_baseEntries (ctx : VerifyContext) (tx : ColoredTx) :
    ∃ S X, tx.failedColorings.foldl addFailedColoring
        (tx.intentionalBurns.foldl addIntentionalBurn (tx.sections.map (ctx.verifySection tx))) =
      S ++ X ∧ BaseEntries ctx tx S X := by
  have hBurns : ∀ burns : List IntentionalBurn, (∀ b ∈ burns, b ∈ tx.intentionalBurns) →
      ∀ S X, BaseEntries ctx tx S X →
        ∃ X', burns.foldl addIntentionalBurn (S ++ X) = S ++ X' ∧ BaseEntries ctx tx S X' := by
    intro burns
    induction burns with
    | nil => exact fun _ S X h => ⟨X, rfl, h⟩
    | cons b burns ih =>
      intro hMem S X h
      obtain ⟨X₁, hAdd, h₁⟩ := h.addIntentionalBurn (hMem b mem_cons_self)
      obtain ⟨X', hFold, h'⟩ := ih (fun c hc => hMem c (mem_cons_of_mem _ hc)) S X₁ h₁
      exact ⟨X', by rw [foldl_cons, hAdd, hFold], h'⟩
  have hFailed : ∀ fs : List FailedColoring, (∀ f ∈ fs, f ∈ tx.failedColorings) →
      ∀ S X, BaseEntries ctx tx S X →
        ∃ S' X', fs.foldl addFailedColoring (S ++ X) = S' ++ X' ∧ BaseEntries ctx tx S' X' := by
    intro fs
    induction fs with
    | nil => exact fun _ S X h => ⟨S, X, rfl, h⟩
    | cons f fs ih =>
      intro hMem S X h
      obtain ⟨S₁, X₁, hAdd, h₁⟩ := h.addFailedColoring (hMem f mem_cons_self)
      obtain ⟨S', X', hFold, h'⟩ := ih (fun c hc => hMem c (mem_cons_of_mem _ hc)) S₁ X₁ h₁
      exact ⟨S', X', by rw [foldl_cons, hAdd, hFold], h'⟩
  have hStart : BaseEntries ctx tx (tx.sections.map (ctx.verifySection tx)) [] :=
    ⟨List.map_map, nodup_nil, fun _ hx => absurd hx not_mem_nil⟩
  obtain ⟨X, hFold, h⟩ := hBurns tx.intentionalBurns (fun _ hb => hb) _ _ hStart
  rw [append_nil] at hFold
  obtain ⟨S', X', hFold', h'⟩ := hFailed tx.failedColorings (fun _ hf => hf) _ _ h
  exact ⟨S', X', by rw [hFold, hFold'], h'⟩

/-- All entries: those of the sections `S`, of other tokens the payloads mention
`X`, and of the other spent tokens `N`, the last in the order of their metas.
Outside of the sections an entry has the group of the first input of its
token. -/
structure Entries (ctx : VerifyContext) (tx : ColoredTx) (S X N : List TokenTxEntry) : Prop where
  sections : S.map TokenTxEntry.verdict = tx.sections.map fun s => (ctx.verifySection tx s).verdict
  extra : ∀ x ∈ X, ¬ Sectioned tx x.tokenMeta ∧ tx.Extra x.tokenMeta ∧
    x.groupTokenMeta = ctx.inheritedGroupTokenMeta x.tokenMeta
  nodup : (metas X).Nodup
  bare : ∀ e ∈ N, ¬ Sectioned tx e.tokenMeta ∧ e.tokenMeta ∉ metas X ∧
    e.groupTokenMeta = ctx.inheritedGroupTokenMeta e.tokenMeta
  spent : ∀ e ∈ N, ∃ s, some s ∈ ctx.spentTokens ∧ s.token.tokenMeta = e.tokenMeta
  sorted : (metas N).Pairwise fun m m' => compare m m' = .lt
  covers : ∀ s, some s ∈ ctx.spentTokens → ¬ Sectioned tx s.token.tokenMeta →
    s.token.tokenMeta ∈ metas X ∨ s.token.tokenMeta ∈ metas N

section Burns

variable {burns : Column TokenMeta BareBurn}

variable (h : BurnsOf tx ctx.spentTokens burns)
include h

/-- A burn is of a spent token without a section, with the group of its first
input. -/
theorem BurnsOf.of_mem {p : TokenMeta × BareBurn} (hp : p ∈ burns.toList) :
    ¬ Sectioned tx p.1 ∧ p.2.groupTokenMeta = ctx.inheritedGroupTokenMeta p.1 ∧
      ∃ s, some s ∈ ctx.spentTokens ∧ s.token.tokenMeta = p.1 := by
  have hb : burns[p.1]? = some p.2 := mem_toList_iff_getElem?_eq_some.mp hp
  have hNot : ¬ Sectioned tx p.1 := by
    intro hSec
    have hNone := (h p.1).1 hSec
    rw [hb] at hNone
    cases hNone
  have hGroup := (h p.1).2 hNot
  rw [hb, map_some] at hGroup
  obtain ⟨s, hs, hEq⟩ := map_eq_some_iff.mp hGroup.symm
  refine ⟨hNot, ?_, s, firstOf_eq_some hs⟩
  rw [inheritedGroupTokenMeta, hs]
  exact hEq.symm

/-- A token without a section that is not burned is not spent. -/
theorem BurnsOf.inherited_of_not_mem (hSec : ¬ Sectioned tx m) (hNot : ∀ b, (m, b) ∉ burns.toList) :
    ctx.inheritedGroupTokenMeta m = none := by
  have hGet : burns[m]? = none := by
    refine eq_none_iff_forall_ne_some.mpr fun b hb => hNot b ?_
    exact mem_toList_iff_getElem?_eq_some.mpr hb
  have hFirst := (h m).2 hSec
  rw [hGet, map_none] at hFirst
  rw [inheritedGroupTokenMeta, map_eq_none_iff.mp hFirst.symm]
  rfl

theorem BurnsOf.exists_of_spent {s : SpentToken} (hs : some s ∈ ctx.spentTokens)
    (hSec : ¬ Sectioned tx s.token.tokenMeta) : ∃ b, (s.token.tokenMeta, b) ∈ burns.toList := by
  obtain ⟨s', hs'⟩ := exists_firstOf hs
  have hGet := (h s.token.tokenMeta).2 hSec
  rw [hs', map_some] at hGet
  obtain ⟨b, hb, _⟩ := map_eq_some_iff.mp hGet
  exact ⟨b, mem_toList_iff_getElem?_eq_some.mpr hb⟩

/-- Burns are of tokens without a section, so they pass the sections. -/
theorem BurnsOf.pass {S : List TokenTxEntry} (hS : metas S = tx.sections.map (·.tokenMeta))
    (R : List TokenTxEntry) :
    burns.toList.foldl addBareBurn (S ++ R) = S ++ burns.toList.foldl addBareBurn R := by
  have hBurned : ∀ p ∈ burns.toList, ¬ Sectioned tx p.1 := fun p hp => (h.of_mem hp).1
  revert hBurned
  generalize burns.toList = L
  intro hBurned
  induction L generalizing R with
  | nil => rfl
  | cons p L ih =>
    have hNot : ∀ e ∈ S, decide (e.tokenMeta = p.1) = false := by
      intro e he
      refine decide_eq_false fun hEq => hBurned p mem_cons_self ?_
      have hMem : p.1 ∈ metas S := List.mem_map.mpr ⟨e, he, hEq⟩
      rw [hS] at hMem
      exact List.mem_map.mp hMem
    have hStep : addBareBurn (S ++ R) p = S ++ addBareBurn R p := upsert_append_right hNot _ _ _
    rw [foldl_cons, foldl_cons, hStep]
    exact ih _ fun q hq => hBurned q (mem_cons_of_mem _ hq)

omit h

theorem sorted_keys (burns : Column TokenMeta BareBurn) :
    (burns.toList.map Prod.fst).Pairwise fun m m' => compare m m' = .lt :=
  pairwise_map.mpr ordered_keys_toList

theorem nodup_keys (burns : Column TokenMeta BareBurn) : (burns.toList.map Prod.fst).Nodup := by
  refine (sorted_keys burns).imp fun hLt hEq => ?_
  rw [hEq, Std.ReflOrd.compare_self] at hLt
  cases hLt

theorem BurnsOf.extra (h : BurnsOf tx ctx.spentTokens burns) (hBase : BaseEntries ctx tx S X)
    {x x' : TokenTxEntry} (hx : x ∈ X) (hAfter : GroupAfter burns.toList x x') :
    ¬ Sectioned tx x'.tokenMeta ∧ tx.Extra x'.tokenMeta ∧
      x'.groupTokenMeta = ctx.inheritedGroupTokenMeta x'.tokenMeta := by
  obtain ⟨hMeta, hGroup⟩ := hAfter
  obtain ⟨hSec, hNone, hExtra⟩ := hBase.extra x hx
  rw [hMeta]
  refine ⟨hSec, hExtra, ?_⟩
  obtain ⟨b, hb, hEq⟩ | ⟨hNot, hEq⟩ := hGroup
  · rw [hEq]
    exact (h.of_mem hb).2.1
  · rw [hEq, hNone, h.inherited_of_not_mem hSec hNot]

end Burns

theorem entries_eq (ctx : VerifyContext) (tx : ColoredTx) :
    ∃ S X N, ctx.verifyEntries tx = S ++ X ++ N ∧ Entries ctx tx S X N := by
  obtain ⟨S, X, hBase, h⟩ := exists_baseEntries ctx tx
  unfold verifyEntries
  dsimp only
  rw [hBase]
  generalize hCol : ctx.calcBareBurns tx _ = burns
  have hBurns : BurnsOf tx ctx.spentTokens burns := by
    rw [← hCol]
    exact burnsOf_calcBareBurns ctx tx _
  obtain ⟨X', hFold, hMetas, hAfter⟩ :=
    foldl_addBareBurn burns.toList X [] h.nodup (fun _ _ => not_mem_nil) (nodup_keys burns)
  rw [append_nil, append_nil] at hFold
  refine ⟨S, X', _, by rw [hBurns.pass h.metas_eq, hFold, append_assoc], ?_⟩
  constructor
  · exact h.sections
  · intro x' hx'
    obtain ⟨x, hx, hGroup⟩ := hAfter x' hx'
    exact hBurns.extra h hx hGroup
  · rw [hMetas]
    exact h.nodup
  · intro e he
    obtain ⟨⟨m, b⟩, hp, rfl⟩ := List.mem_map.mp he
    obtain ⟨hp, hm⟩ := mem_filter.mp hp
    obtain ⟨hSec, hGroup, _⟩ := hBurns.of_mem hp
    rw [hMetas]
    exact ⟨hSec, of_decide_eq_true hm, hGroup⟩
  · intro e he
    obtain ⟨⟨m, b⟩, hp, rfl⟩ := List.mem_map.mp he
    exact (hBurns.of_mem (mem_filter.mp hp).1).2.2
  · rw [metas, List.map_map]
    exact pairwise_map.mpr ((pairwise_map.mp (sorted_keys burns)).filter _)
  · intro s hs hSec
    obtain ⟨b, hb⟩ := hBurns.exists_of_spent hs hSec
    rw [hMetas]
    by_cases hm : s.token.tokenMeta ∈ metas X
    · exact .inl hm
    · refine .inr (List.mem_map.mpr ⟨BareBurn.toEntry b s.token.tokenMeta, ?_, rfl⟩)
      exact List.mem_map.mpr ⟨_, mem_filter.mpr ⟨hb, decide_eq_true hm⟩, rfl⟩

end VerifyContext

end Ergon
