import Ergon.Slp.VerifyOutputs

/-!
# Ergon — where the spent atoms go

For a token that a transaction neither creates nor mints, the atoms it spends are
the atoms on its valid outputs and the atoms its entries report as burned
(`VerifyContext::verify`, `bitcoinsuite-slp/src/verify.rs`). The entries come out of
four passes, each with its own way to look for the entry to change: sections,
intentional burns, failed payloads, and the inputs that no section mentions.

* `Grows` — what the middle two passes can do: attach failed payloads, and add
  entries that burn nothing;
* `burnedBy_foldl_addBareBurn` — the last pass, on the atoms of one token;
* `verifyEntries_accounts` — the entries of sections first, the others account for
  the tokens without a section;
* `verify_conserves` — the atoms of every token.
-/

namespace Ergon

open Lib List Option

/-- What is burned of the token `m` according to some entries. -/
def burnedBy (m : TokenMeta) (entries : List TokenTxEntry) : Nat :=
  (entries.map fun e => if e.tokenMeta = m then e.actualBurnAtoms else 0).sum

namespace TokenTx

def burnedAtoms (t : TokenTx) (m : TokenMeta) : Nat := burnedBy m t.entries

/-- The atoms of the token `m` on the outputs. -/
def outputAtoms (t : TokenTx) (m : TokenMeta) : Nat :=
  (t.outputs.map fun o => o.elim 0 fun o =>
    if t.entries[o.tokenIdx]?.map (·.tokenMeta) = some m then o.variant.amount else 0).sum

def HasValid (t : TokenTx) (m : TokenMeta) (txType : TxType) : Prop :=
  ∃ e ∈ t.entries, e.tokenMeta = m ∧ e.txType = some txType ∧ e.isInvalid = false

def IsNft1ChildGenesis (t : TokenTx) : Prop :=
  ∃ e ∈ t.entries, e.tokenMeta.tokenType = .slp .nft1Child ∧ e.txType = some .genesis ∧
    e.isInvalid = false

instance (t : TokenTx) (m : TokenMeta) (txType : TxType) : Decidable (t.HasValid m txType) :=
  inferInstanceAs (Decidable (∃ e ∈ t.entries, _))

instance (t : TokenTx) : Decidable t.IsNft1ChildGenesis :=
  inferInstanceAs (Decidable (∃ e ∈ t.entries, _))

end TokenTx

namespace VerifyContext

/-- The atoms of the token `m` on the first input. -/
def firstInputAtoms (ctx : VerifyContext) (m : TokenMeta) : Nat :=
  ctx.spentTokens.head?.join.elim 0 (SpentToken.amountOf m)

variable {ctx : VerifyContext} {tx : ColoredTx} {txid : TxId} {m : TokenMeta}

/-! ## What is burned -/

theorem burnedBy_append (m : TokenMeta) (l l' : List TokenTxEntry) :
    burnedBy m (l ++ l') = burnedBy m l + burnedBy m l' := by
  rw [burnedBy, map_append, sum_append]
  rfl

variable {entries : List TokenTxEntry}

theorem burnedBy_eq_zero (h : ∀ e ∈ entries, e.tokenMeta = m → e.actualBurnAtoms = 0) :
    burnedBy m entries = 0 := by
  rw [burnedBy, sum_eq_zero_iff]
  intro n hn
  obtain ⟨e, he, rfl⟩ := List.mem_map.mp hn
  split
  · next hm => exact h e he hm
  · rfl

theorem burnedBy_split (m : TokenMeta) (l₁ l₂ : List TokenTxEntry) (e : TokenTxEntry) :
    burnedBy m (l₁ ++ e :: l₂) =
      burnedBy m l₁ + ((if e.tokenMeta = m then e.actualBurnAtoms else 0) + burnedBy m l₂) := by
  rw [burnedBy_append, burnedBy, burnedBy, map_cons, sum_cons]
  rfl

/-- A burn of another token changes nothing. -/
theorem burnedBy_addBareBurn_of_ne {m' : TokenMeta} (hNe : m' ≠ m) (b : BareBurn)
    (entries : List TokenTxEntry) :
    burnedBy m (addBareBurn entries (m', b)) = burnedBy m entries := by
  by_cases hMem : m' ∈ metas entries
  · obtain ⟨l₁, y, l₂, hEntries, hy, hAdd⟩ := addBareBurn_of_mem hMem b []
    rw [append_nil, append_nil] at hAdd
    have hUpdated : (BareBurn.update b y).tokenMeta ≠ m := fun h => hNe (hy.symm.trans h)
    rw [hAdd, hEntries, burnedBy_split, burnedBy_split, if_neg hUpdated, if_neg (hy ▸ hNe)]
  · have hNew : (BareBurn.toEntry b m').tokenMeta ≠ m := hNe
    rw [addBareBurn_of_not_mem hMem, burnedBy_split, if_neg hNew]
    rfl

/-- The burn of a token of which nothing was burned before. -/
theorem burnedBy_addBareBurn (b : BareBurn) (hZero : burnedBy m entries = 0) :
    burnedBy m (addBareBurn entries (m, b)) = b.burnAtoms := by
  by_cases hMem : m ∈ metas entries
  · obtain ⟨l₁, y, l₂, hEntries, hy, hAdd⟩ := addBareBurn_of_mem hMem b []
    rw [append_nil, append_nil] at hAdd
    have hUpdated : (BareBurn.update b y).tokenMeta = m := hy
    have hAtoms : (BareBurn.update b y).actualBurnAtoms = b.burnAtoms := rfl
    rw [hEntries, burnedBy_split] at hZero
    rw [hAdd, burnedBy_split, if_pos hUpdated, hAtoms]
    omega
  · have hNew : (BareBurn.toEntry b m).tokenMeta = m := rfl
    have hAtoms : (BareBurn.toEntry b m).actualBurnAtoms = b.burnAtoms := rfl
    rw [addBareBurn_of_not_mem hMem, burnedBy_split, if_pos hNew, hAtoms, hZero]
    show 0 + (b.burnAtoms + 0) = b.burnAtoms
    omega

theorem burnedBy_foldl_addBareBurn_of_not_mem (burns : List (TokenMeta × BareBurn))
    (hNot : ∀ b, (m, b) ∉ burns) (entries : List TokenTxEntry) :
    burnedBy m (burns.foldl addBareBurn entries) = burnedBy m entries := by
  induction burns generalizing entries with
  | nil => rfl
  | cons p burns ih =>
    obtain ⟨m', b⟩ := p
    have hNe : m' ≠ m := by
      rintro rfl
      exact hNot b mem_cons_self
    rw [foldl_cons, ih fun b' hb' => hNot b' (mem_cons_of_mem _ hb'),
      burnedBy_addBareBurn_of_ne hNe]

theorem burnedBy_foldl_addBareBurn (burns : List (TokenMeta × BareBurn))
    (hKeys : (burns.map Prod.fst).Nodup) {b : BareBurn} (hMem : (m, b) ∈ burns)
    (hZero : burnedBy m entries = 0) :
    burnedBy m (burns.foldl addBareBurn entries) = b.burnAtoms := by
  induction burns generalizing entries with
  | nil => cases hMem
  | cons p burns ih =>
    obtain ⟨m', b'⟩ := p
    rw [map_cons, nodup_cons] at hKeys
    rw [foldl_cons]
    rcases mem_cons.mp hMem with hHead | hTail
    · -- the keys are distinct, so no later burn is of this token
      cases hHead
      have hLater : ∀ b', (m, b') ∉ burns := fun b' hb' =>
        hKeys.1 (List.mem_map.mpr ⟨_, hb', rfl⟩)
      rw [burnedBy_foldl_addBareBurn_of_not_mem burns hLater, burnedBy_addBareBurn b hZero]
    · have hNe : m' ≠ m := by
        rintro rfl
        exact hKeys.1 (List.mem_map.mpr ⟨_, hTail, rfl⟩)
      exact ih hKeys.2 hTail (by rw [burnedBy_addBareBurn_of_ne hNe, hZero])

/-! ## Intentional burns and failed payloads -/

end VerifyContext

/-- An entry without the payloads that failed to colour. -/
def TokenTxEntry.core (e : TokenTxEntry) : TokenTxEntry := { e with failedColorings := [] }

/-- An entry of a payload that has no section. -/
def TokenTxEntry.Mentioned (e : TokenTxEntry) : Prop :=
  e.actualBurnAtoms = 0 ∧ (e.isInvalid = true ∨ e.txType = some .burn)

theorem TokenTxEntry.of_core {e e' : TokenTxEntry} (h : e'.core = e.core) :
    e'.tokenMeta = e.tokenMeta ∧ e'.txType = e.txType ∧ e'.isInvalid = e.isInvalid ∧
      e'.actualBurnAtoms = e.actualBurnAtoms := by
  have hMeta := congrArg TokenTxEntry.tokenMeta h
  have hType := congrArg TokenTxEntry.txType h
  have hInvalid := congrArg TokenTxEntry.isInvalid h
  have hAtoms := congrArg TokenTxEntry.actualBurnAtoms h
  exact ⟨hMeta, hType, hInvalid, hAtoms⟩

namespace VerifyContext

variable {ctx : VerifyContext} {tx : ColoredTx} {txid : TxId} {m : TokenMeta}

/-- Failed payloads may be attached, and entries of payloads without a section added. -/
def Grows (entries entries' : List TokenTxEntry) : Prop :=
  ∃ S N, entries' = S ++ N ∧ S.map TokenTxEntry.core = entries.map TokenTxEntry.core ∧
    ∀ e ∈ N, e.Mentioned

theorem mentioned_of_core {e e' : TokenTxEntry} (hCore : e'.core = e.core) (h : e.Mentioned) :
    e'.Mentioned := by
  obtain ⟨-, hType, hInvalid, hAtoms⟩ := TokenTxEntry.of_core hCore
  rw [TokenTxEntry.Mentioned, hAtoms, hInvalid, hType]
  exact h

theorem Grows.refl (entries : List TokenTxEntry) : Grows entries entries :=
  ⟨entries, [], (append_nil _).symm, rfl, fun _ he => absurd he not_mem_nil⟩

theorem Grows.trans {l l' l'' : List TokenTxEntry} (h : Grows l l') (h' : Grows l' l'') :
    Grows l l'' := by
  obtain ⟨S, N, rfl, hS, hN⟩ := h
  obtain ⟨T, N', rfl, hT, hN'⟩ := h'
  rw [map_append] at hT
  obtain ⟨S', M, rfl, hS', hM⟩ := map_eq_append_iff.mp hT
  refine ⟨S', M ++ N', append_assoc _ _ _, hS'.trans hS, ?_⟩
  intro e he
  rcases mem_append.mp he with he | he
  · have hMem : e.core ∈ N.map TokenTxEntry.core := by
      rw [← hM]
      exact List.mem_map_of_mem he
    obtain ⟨e', he', hCore⟩ := List.mem_map.mp hMem
    exact mentioned_of_core hCore.symm (hN e' he')
  · exact hN' e he

theorem grows_addIntentionalBurn (entries : List TokenTxEntry) (b : IntentionalBurn) :
    Grows entries (addIntentionalBurn entries b) := by
  unfold addIntentionalBurn
  split
  · exact .refl entries
  · refine ⟨entries, _, rfl, rfl, ?_⟩
    intro e he
    rw [mem_singleton.mp he]
    exact ⟨rfl, .inr rfl⟩

theorem grows_addFailedColoring (entries : List TokenTxEntry) (f : FailedColoring) :
    Grows entries (addFailedColoring entries f) := by
  unfold addFailedColoring
  rcases upsert_cases (fun e : TokenTxEntry => e.tokenMeta = f.parsed.tokenMeta) (attachFailed f)
    (failedEntry f) entries with ⟨l₁, e, l₂, rfl, -, hEq⟩ | ⟨-, hEq⟩
  · rw [hEq]
    refine ⟨_, [], (append_nil _).symm, ?_, fun _ he => absurd he not_mem_nil⟩
    rw [map_append, map_append, map_cons, map_cons]
    rfl
  · rw [hEq]
    refine ⟨entries, _, rfl, rfl, ?_⟩
    intro e he
    rw [mem_singleton.mp he]
    exact ⟨rfl, .inl rfl⟩

theorem grows_foldl {α : Type} {f : List TokenTxEntry → α → List TokenTxEntry}
    (hf : ∀ entries a, Grows entries (f entries a)) (l : List α) (entries : List TokenTxEntry) :
    Grows entries (l.foldl f entries) := by
  induction l generalizing entries with
  | nil => exact .refl entries
  | cons a l ih => exact (hf entries a).trans (ih (f entries a))

/-- Only a section can be a valid `GENESIS` of an NFT. -/
theorem Grows.isNft1Genesis {entries entries' : List TokenTxEntry} (h : Grows entries entries') :
    isNft1Genesis entries' = isNft1Genesis entries := by
  obtain ⟨S, N, rfl, hS, hN⟩ := h
  cases entries with
  | nil =>
    obtain rfl : S = [] := map_eq_nil_iff.mp hS
    cases N with
    | nil => rfl
    | cons e N =>
      show (decide _ : Bool) = false
      refine decide_eq_false ?_
      rintro ⟨-, hType, hValid⟩
      obtain ⟨-, hInvalid | hBurn⟩ := hN e mem_cons_self
      · rw [hInvalid] at hValid
        cases hValid
      · rw [hBurn] at hType
        cases hType
  | cons e entries =>
    cases S with
    | nil => cases hS
    | cons e' S =>
      have hCore : e'.core = e.core := (List.cons.inj hS).1
      obtain ⟨hMeta, hType, hInvalid, -⟩ := TokenTxEntry.of_core hCore
      show (decide _ : Bool) = decide _
      rw [hMeta, hInvalid, hType]

/-! ## Inputs without a section -/

/-- The atoms of `m` among some inputs, from index `start`, without those of a first
input that is spared. -/
def burnedInputs (m : TokenMeta) (spared : Bool) (inputs : List (Option SpentToken × Nat)) : Nat :=
  (inputs.map fun (input, idx) =>
    if idx = 0 ∧ spared = true then 0 else input.elim 0 (SpentToken.amountOf m)).sum

theorem burnAtoms_burnInput (spared : Bool) (variant : TokenVariant) (burn : BareBurn) :
    (burnInput spared variant burn).burnAtoms =
      burn.burnAtoms + if spared then 0 else variant.amount := by
  cases spared with
  | true => rfl
  | false => cases variant <;> rfl

/-- The atoms burned of `m` so far. -/
def burnedSoFar (m : TokenMeta) (burns : Column TokenMeta BareBurn) : Nat :=
  burns[m]?.elim 0 (·.burnAtoms)

theorem burnedSoFar_addBurnedInput (hSec : ¬ Sectioned tx m) (entries : List TokenTxEntry)
    (burns : Column TokenMeta BareBurn) (input : Option SpentToken) (idx : Nat) :
    burnedSoFar m (addBurnedInput tx entries burns (input, idx)) =
      burnedSoFar m burns +
        if idx = 0 ∧ isNft1Genesis entries = true then 0
        else input.elim 0 (SpentToken.amountOf m) := by
  cases input with
  | none =>
    show burnedSoFar m burns = burnedSoFar m burns + _
    split <;> rfl
  | some s =>
    unfold addBurnedInput
    dsimp only
    split
    · next hAny =>
      -- the token of the input has a section, so it is not `m`
      have hNe : s.token.tokenMeta ≠ m := by
        rintro rfl
        obtain ⟨sec, hsec, hEq⟩ := List.any_eq_true.mp hAny
        exact hSec ⟨sec, hsec, of_decide_eq_true hEq⟩
      rw [elim_some, SpentToken.amountOf, if_neg hNe, ite_self, Nat.add_zero]
    · rw [burnedSoFar, Column.getElem?_insert, elim_some, SpentToken.amountOf]
      by_cases hEq : s.token.tokenMeta = m
      · subst hEq
        rw [if_pos rfl, if_pos rfl, elim_some, burnAtoms_burnInput, burnedSoFar]
        congr 1
        · cases burns[s.token.tokenMeta]? <;> rfl
        · simp only [Bool.and_eq_true, beq_iff_eq]
      · rw [if_neg hEq, if_neg hEq, ite_self, Nat.add_zero]
        rfl

theorem burnedSoFar_foldl (hSec : ¬ Sectioned tx m) (entries : List TokenTxEntry)
    (inputs : List (Option SpentToken × Nat)) (burns : Column TokenMeta BareBurn) :
    burnedSoFar m (inputs.foldl (addBurnedInput tx entries) burns) =
      burnedSoFar m burns + burnedInputs m (isNft1Genesis entries) inputs := by
  induction inputs generalizing burns with
  | nil => rfl
  | cons p inputs ih =>
    obtain ⟨input, idx⟩ := p
    rw [foldl_cons, ih, burnedSoFar_addBurnedInput hSec, Nat.add_assoc]
    rfl

theorem burnedInputs_zipIdx_succ (spared : Bool) (inputs : List (Option SpentToken)) (start : Nat) :
    burnedInputs m spared (inputs.zipIdx (start + 1)) =
      (inputs.map fun s => s.elim 0 (SpentToken.amountOf m)).sum := by
  induction inputs generalizing start with
  | nil => rfl
  | cons input inputs ih =>
    have hRest := ih (start + 1)
    rw [burnedInputs] at hRest
    rw [burnedInputs, zipIdx_cons, map_cons, sum_cons, hRest, map_cons, sum_cons]
    exact congrArg (· + _) (if_neg (by omega))

/-- All atoms of a token without a section are burned, but for those of a spared first
input. -/
theorem burnedSoFar_calcBareBurns (ctx : VerifyContext) (hSec : ¬ Sectioned tx m)
    (entries : List TokenTxEntry) :
    burnedSoFar m (ctx.calcBareBurns tx entries) +
        (if isNft1Genesis entries = true then ctx.firstInputAtoms m else 0) =
      ctx.calcInputSum m := by
  rw [calcBareBurns, burnedSoFar_foldl hSec, firstInputAtoms, calcInputSum]
  show 0 + _ + _ = _
  cases ctx.spentTokens with
  | nil =>
    show 0 + 0 + (if _ then 0 else 0) = 0
    rw [ite_self]
  | cons input inputs =>
    rw [zipIdx_cons, burnedInputs, map_cons, sum_cons, map_cons, sum_cons]
    have hRest := burnedInputs_zipIdx_succ (m := m) (isNft1Genesis entries) inputs 0
    rw [burnedInputs] at hRest
    rw [hRest]
    show 0 + ((if 0 = 0 ∧ isNft1Genesis entries = true then 0
      else input.elim 0 (SpentToken.amountOf m)) + _) +
        (if isNft1Genesis entries = true then input.elim 0 (SpentToken.amountOf m) else 0) = _
    by_cases hNft : isNft1Genesis entries = true
    · rw [if_pos ⟨rfl, hNft⟩, if_pos hNft]
      omega
    · rw [if_neg fun h => hNft h.2, if_neg hNft]
      omega

/-! ## The entries -/

end VerifyContext

/-- The entry is no valid `GENESIS`, `MINT` or `SEND`. -/
def TokenTxEntry.Unbacked (e : TokenTxEntry) : Prop :=
  e.isInvalid = true ∨ e.txType = some .burn ∨ e.txType = none

namespace VerifyContext

variable {ctx : VerifyContext} {tx : ColoredTx} {txid : TxId} {m : TokenMeta}

theorem unbacked_addBareBurn {R : List TokenTxEntry} (hR : ∀ e ∈ R, e.Unbacked)
    (p : TokenMeta × BareBurn) : ∀ e ∈ addBareBurn R p, e.Unbacked := by
  obtain ⟨m, b⟩ := p
  by_cases hMem : m ∈ metas R
  · obtain ⟨l₁, y, l₂, rfl, -, hAdd⟩ := addBareBurn_of_mem hMem b []
    rw [append_nil, append_nil] at hAdd
    rw [hAdd]
    intro e he
    rcases mem_append.mp he with he | he
    · exact hR e (mem_append_left _ he)
    rcases mem_cons.mp he with rfl | he
    · -- a burn keeps the type, and never makes an entry valid
      rcases hR y (by simp) with hInvalid | hRest
      · left
        show (y.isInvalid || b.burnsMintBatons) = true
        rw [hInvalid, Bool.true_or]
      · exact .inr hRest
    · exact hR e (mem_append_right _ (mem_cons_of_mem _ he))
  · rw [addBareBurn_of_not_mem hMem]
    exact forall_mem_concat hR (.inr (.inr rfl))

theorem unbacked_foldl (burns : List (TokenMeta × BareBurn)) {R : List TokenTxEntry}
    (hR : ∀ e ∈ R, e.Unbacked) : ∀ e ∈ burns.foldl addBareBurn R, e.Unbacked := by
  induction burns generalizing R with
  | nil => exact hR
  | cons p burns ih => exact ih (unbacked_addBareBurn hR p)

/-- All entries: those of the sections `S`, and others `R`, which account for the tokens
that have no section. -/
structure Accounts (ctx : VerifyContext) (tx : ColoredTx) (S R : List TokenTxEntry) : Prop where
  sections : S.map TokenTxEntry.core = tx.sections.map fun s => (ctx.verifySection tx s).core
  unbacked : ∀ e ∈ R, e.Unbacked
  sectioned : ∀ m, Sectioned tx m → burnedBy m R = 0
  bare : ∀ m, ¬ Sectioned tx m →
    burnedBy m R +
        (if isNft1Genesis (tx.sections.map (ctx.verifySection tx)) = true then
          ctx.firstInputAtoms m else 0) =
      ctx.calcInputSum m

theorem verifyEntries_accounts (ctx : VerifyContext) (tx : ColoredTx) :
    ∃ S R, ctx.verifyEntries tx = S ++ R ∧ Accounts ctx tx S R := by
  have hBurned := grows_foldl grows_addIntentionalBurn tx.intentionalBurns
    (tx.sections.map (ctx.verifySection tx))
  have hGrows := hBurned.trans (grows_foldl grows_addFailedColoring tx.failedColorings _)
  obtain ⟨S, N, hEntries, hS, hN⟩ := hGrows
  rw [List.map_map] at hS
  have hMetas : metas S = tx.sections.map (·.tokenMeta) := by
    have hMap := congrArg (List.map TokenTxEntry.tokenMeta) hS
    rw [List.map_map, List.map_map] at hMap
    exact hMap.trans (map_congr_left fun s _ => tokenMeta_verifySection ctx tx s)
  have hZero : ∀ m, burnedBy m N = 0 := fun m => burnedBy_eq_zero fun e he _ => (hN e he).1
  unfold verifyEntries
  dsimp only
  rw [hEntries]
  generalize hCol : ctx.calcBareBurns tx _ = burns
  have hBurns : BurnsOf tx ctx.spentTokens burns := by
    rw [← hCol]
    exact burnsOf_calcBareBurns ctx tx _
  refine ⟨S, burns.toList.foldl addBareBurn N, hBurns.pass hMetas N, hS, ?_, ?_, ?_⟩
  · refine unbacked_foldl burns.toList fun e he => ?_
    rcases (hN e he).2 with hInvalid | hType
    · exact .inl hInvalid
    · exact .inr (.inl hType)
  · intro m hSec
    rw [burnedBy_foldl_addBareBurn_of_not_mem burns.toList, hZero]
    intro b hb
    exact (hBurns.of_mem hb).1 hSec
  · intro m hSec
    have hSoFar := burnedSoFar_calcBareBurns ctx hSec
      (tx.intentionalBurns.foldl addIntentionalBurn (tx.sections.map (ctx.verifySection tx)))
    rw [hCol, hBurned.isNft1Genesis] at hSoFar
    rw [← hSoFar]
    congr 1
    rw [burnedSoFar]
    cases hGet : burns[m]? with
    | none =>
      rw [burnedBy_foldl_addBareBurn_of_not_mem burns.toList, hZero]
      · rfl
      · intro b hb
        rw [Std.ExtTreeMap.mem_toList_iff_getElem?_eq_some.mp hb] at hGet
        cases hGet
    | some b =>
      exact burnedBy_foldl_addBareBurn burns.toList (nodup_keys burns)
        (Std.ExtTreeMap.mem_toList_iff_getElem?_eq_some.mpr hGet) (hZero m)

variable {s : ColoredTxSection}

section Entries

variable {S R : List TokenTxEntry}

/-- The entry of a section. -/
theorem Accounts.of_section (h : Accounts ctx tx S R) (hs : s ∈ tx.sections) :
    ∃ e ∈ S, e.core = (ctx.verifySection tx s).core := by
  have hMem : (ctx.verifySection tx s).core ∈ S.map TokenTxEntry.core := by
    rw [h.sections]
    exact List.mem_map.mpr ⟨s, hs, rfl⟩
  exact List.mem_map.mp hMem

theorem Accounts.section_of_mem (h : Accounts ctx tx S R) {e : TokenTxEntry} (he : e ∈ S) :
    ∃ s ∈ tx.sections, e.core = (ctx.verifySection tx s).core := by
  have hMem : e.core ∈ S.map TokenTxEntry.core := List.mem_map_of_mem he
  rw [h.sections] at hMem
  obtain ⟨s, hs, hEq⟩ := List.mem_map.mp hMem
  exact ⟨s, hs, hEq.symm⟩

/-- A valid entry of a type other than a burn is that of a section. -/
theorem Accounts.section_of_valid (h : Accounts ctx tx S R) {e : TokenTxEntry}
    (he : e ∈ S ++ R) {txType : TxType} (hType : e.txType = some txType) (hNot : txType ≠ .burn)
    (hValid : e.isInvalid = false) :
    ∃ s ∈ tx.sections, s.txType = txType ∧ e.core = (ctx.verifySection tx s).core := by
  rcases mem_append.mp he with he | he
  · obtain ⟨s, hs, hCore⟩ := h.section_of_mem he
    refine ⟨s, hs, ?_, hCore⟩
    have hSame := (TokenTxEntry.of_core hCore).2.1
    rw [hType, txType_verifySection] at hSame
    exact (Option.some.inj hSame).symm
  · rcases h.unbacked e he with hInvalid | hBurn | hNone
    · rw [hInvalid] at hValid
      cases hValid
    · rw [hBurn] at hType
      exact absurd (Option.some.inj hType).symm hNot
    · rw [hNone] at hType
      cases hType

theorem Accounts.hasValid_iff (h : Accounts ctx tx S R) (hEntries : ctx.verifyEntries tx = S ++ R)
    {txType : TxType} (hNot : txType ≠ .burn) :
    (ctx.verify tx).HasValid m txType ↔
      ∃ s ∈ tx.sections, s.tokenMeta = m ∧ s.txType = txType ∧
        (ctx.verifySection tx s).isInvalid = false := by
  constructor
  · rintro ⟨e, he, rfl, hType, hValid⟩
    rw [show (ctx.verify tx).entries = S ++ R from hEntries] at he
    obtain ⟨s, hs, hTypes, hCore⟩ := h.section_of_valid he hType hNot hValid
    obtain ⟨hMeta, -, hInvalid, -⟩ := TokenTxEntry.of_core hCore
    exact ⟨s, hs, by rw [hMeta, tokenMeta_verifySection], hTypes, by rw [← hInvalid, hValid]⟩
  · rintro ⟨s, hs, rfl, rfl, hValid⟩
    obtain ⟨e, he, hCore⟩ := h.of_section hs
    obtain ⟨hMeta, hType, hInvalid, -⟩ := TokenTxEntry.of_core hCore
    refine ⟨e, ?_, ?_, ?_, hInvalid.trans hValid⟩
    · rw [show (ctx.verify tx).entries = S ++ R from hEntries]
      exact mem_append_left _ he
    · rw [hMeta, tokenMeta_verifySection]
    · rw [hType, txType_verifySection]

/-- The pass over the inputs spares the first one exactly if the transaction ends up as the
`GENESIS` of an NFT. -/
theorem Accounts.isNft1ChildGenesis_iff (h : Accounts ctx tx S R)
    (hEntries : ctx.verifyEntries tx = S ++ R) (hwf : tx.WellFormed txid) :
    (ctx.verify tx).IsNft1ChildGenesis ↔
      isNft1Genesis (tx.sections.map (ctx.verifySection tx)) = true := by
  rw [isNft1Genesis, head?_map, Option.any_map]
  constructor
  · rintro ⟨e, he, hChild, hType, hValid⟩
    rw [show (ctx.verify tx).entries = S ++ R from hEntries] at he
    obtain ⟨s, hs, hTypes, hCore⟩ := h.section_of_valid he hType nofun hValid
    obtain ⟨hMeta, -, hInvalid, -⟩ := TokenTxEntry.of_core hCore
    -- a `GENESIS` is the first section
    obtain ⟨k, hk⟩ := mem_iff_getElem?.mp hs
    rw [hwf.genesis_first k s hk hTypes, ← head?_eq_getElem?] at hk
    rw [hk]
    show (decide _ : Bool) = true
    rw [decide_eq_true_iff, ← hMeta, txType_verifySection, hTypes, ← hInvalid, hValid]
    exact ⟨hChild, rfl, rfl⟩
  · intro hFirst
    obtain ⟨s, hs, hGenesis⟩ := (Option.any_eq_true _ _).mp hFirst
    obtain ⟨hChild, hType, hValid⟩ := of_decide_eq_true hGenesis
    obtain ⟨e, he, hCore⟩ := h.of_section (mem_of_head? hs)
    obtain ⟨hMeta, hTypes, hInvalid, -⟩ := TokenTxEntry.of_core hCore
    refine ⟨e, ?_, by rw [hMeta]; exact hChild, by rw [hTypes]; exact hType, ?_⟩
    · rw [show (ctx.verify tx).entries = S ++ R from hEntries]
      exact mem_append_left _ he
    · rw [hInvalid]
      simpa using hValid

end Entries

/-! ## The outputs -/

/-- The atoms of `m` that an output keeps. -/
def keptAtoms (ctx : VerifyContext) (tx : ColoredTx) (m : TokenMeta) (o : TokenOutput) : Nat :=
  match tx.sections[o.tokenIdx]? with
  | some s =>
    if s.tokenMeta = m ∧ (ctx.verifySection tx s).isInvalid = false then o.variant.amount else 0
  | none => 0

theorem outputAtoms_eq (hwf : tx.WellFormed txid) :
    (ctx.verify tx).outputAtoms m =
      (tx.outputs.map fun o => o.elim 0 (ctx.keptAtoms tx m)).sum := by
  rw [TokenTx.outputAtoms]
  show ((tx.outputs.map fun o => o.bind (keepValid (ctx.verifyEntries tx))).map _).sum = _
  rw [List.map_map]
  refine congrArg List.sum (map_congr_left fun o ho => ?_)
  cases o with
  | none => rfl
  | some o =>
    obtain ⟨s, hs, -⟩ := hwf.colors o ho
    obtain ⟨e, he, hVerdict⟩ := entry_of_section ctx hs
    have hMeta : e.tokenMeta = s.tokenMeta :=
      (congrArg Verdict.tokenMeta hVerdict).trans (tokenMeta_verifySection ctx tx s)
    have hInvalid : e.isInvalid = (ctx.verifySection tx s).isInvalid :=
      congrArg Verdict.isInvalid hVerdict
    show Option.elim (keepValid (ctx.verifyEntries tx) o) 0 _ = keptAtoms ctx tx m o
    rw [keepValid, he, keptAtoms, hs]
    dsimp only
    rw [← hInvalid, ← hMeta]
    by_cases hBad : e.isInvalid = true
    · rw [if_pos hBad, if_neg fun h => absurd hBad (Bool.eq_false_iff.mp h.2)]
      rfl
    · rw [if_neg hBad, elim_some, show (ctx.verify tx).entries[o.tokenIdx]? = some e from he,
        map_some]
      simp only [Option.some.injEq, Bool.eq_false_iff.mpr hBad, and_true]

/-- Nothing is kept of a token whose sections are all invalid. -/
theorem outputAtoms_eq_zero (hwf : tx.WellFormed txid)
    (h : ∀ o, some o ∈ tx.outputs → ∀ s, tx.sections[o.tokenIdx]? = some s → s.tokenMeta = m →
      (ctx.verifySection tx s).isInvalid = true ∨ o.variant.amount = 0) :
    (ctx.verify tx).outputAtoms m = 0 := by
  rw [outputAtoms_eq hwf, sum_eq_zero_iff]
  intro n hn
  obtain ⟨o, ho, rfl⟩ := List.mem_map.mp hn
  cases o with
  | none => rfl
  | some o =>
    obtain ⟨s, hs, -⟩ := hwf.colors o ho
    rw [elim_some, keptAtoms, hs]
    dsimp only
    split
    · next hKept =>
      rcases h o ho s hs hKept.1 with hInvalid | hNone
      · rw [hInvalid] at hKept
        exact absurd hKept.2 nofun
      · exact hNone
    · rfl

/-- All is kept of a token whose sections are all valid. -/
theorem outputAtoms_of_valid (hwf : tx.WellFormed txid)
    (h : ∀ s ∈ tx.sections, s.tokenMeta = m → (ctx.verifySection tx s).isInvalid = false) :
    (ctx.verify tx).outputAtoms m = calcOutputSum tx m := by
  rw [outputAtoms_eq hwf, calcOutputSum]
  refine congrArg List.sum (map_congr_left fun o ho => ?_)
  cases o with
  | none => rfl
  | some o =>
    obtain ⟨s, hs, -⟩ := hwf.colors o ho
    rw [elim_some, elim_some, keptAtoms, hs, map_some]
    dsimp only
    by_cases hMeta : s.tokenMeta = m
    · rw [if_pos ⟨hMeta, h s (mem_of_getElem? hs) hMeta⟩, if_pos (congrArg some hMeta)]
    · rw [if_neg fun hKept => hMeta hKept.1, if_neg fun hEq => hMeta (Option.some.inj hEq)]

/-! ## The sections -/

/-- A token has one section, unless its type is unknown. -/
theorem section_unique (hwf : tx.WellFormed txid) (hs : s ∈ tx.sections)
    (hKnown : s.txType ≠ .unknown) :
    ∃ l₁ l₂, tx.sections = l₁ ++ s :: l₂ ∧ (∀ s' ∈ l₁, s'.tokenMeta ≠ s.tokenMeta) ∧
      ∀ s' ∈ l₂, s'.tokenMeta ≠ s.tokenMeta := by
  obtain ⟨l₁, l₂, hSplit⟩ := append_of_mem hs
  have hDistinct := hwf.distinct
  rw [hSplit, pairwise_append] at hDistinct
  obtain ⟨-, hTail, hCross⟩ := hDistinct
  refine ⟨l₁, l₂, hSplit, ?_, ?_⟩
  · intro s' hs' hEq
    exact hKnown (hCross s' hs' s mem_cons_self hEq).2
  · intro s' hs' hEq
    exact hKnown ((pairwise_cons.mp hTail).1 s' hs' hEq.symm).1

theorem eq_of_tokenMeta_eq (hwf : tx.WellFormed txid) {s s' : ColoredTxSection}
    (hs : s ∈ tx.sections) (hKnown : s.txType ≠ .unknown) (hs' : s' ∈ tx.sections)
    (hEq : s'.tokenMeta = s.tokenMeta) : s' = s := by
  obtain ⟨l₁, l₂, hSplit, hLeft, hRight⟩ := section_unique hwf hs hKnown
  rw [hSplit] at hs'
  rcases mem_append.mp hs' with hMem | hMem
  · exact absurd hEq (hLeft s' hMem)
  rcases mem_cons.mp hMem with rfl | hMem
  · rfl
  · exact absurd hEq (hRight s' hMem)

theorem burnedBy_of_sections {S R : List TokenTxEntry} (h : Accounts ctx tx S R) :
    burnedBy m S = burnedBy m (tx.sections.map (ctx.verifySection tx)) := by
  have hCore : ∀ entries : List TokenTxEntry,
      burnedBy m entries = burnedBy m (entries.map TokenTxEntry.core) := by
    intro entries
    rw [burnedBy, burnedBy, List.map_map]
    rfl
  calc burnedBy m S = burnedBy m (S.map TokenTxEntry.core) := hCore S
    _ = burnedBy m ((tx.sections.map (ctx.verifySection tx)).map TokenTxEntry.core) := by
      rw [h.sections, List.map_map]
      rfl
    _ = burnedBy m (tx.sections.map (ctx.verifySection tx)) := (hCore _).symm

/-- What the section of a token burns is all that is burned of it. -/
theorem burnedBy_of_section (hwf : tx.WellFormed txid) (hs : s ∈ tx.sections)
    (hKnown : s.txType ≠ .unknown) :
    burnedBy s.tokenMeta (tx.sections.map (ctx.verifySection tx)) =
      (ctx.verifySection tx s).actualBurnAtoms := by
  obtain ⟨l₁, l₂, hSplit, hLeft, hRight⟩ := section_unique hwf hs hKnown
  have hNone : ∀ l : List ColoredTxSection, (∀ s' ∈ l, s'.tokenMeta ≠ s.tokenMeta) →
      burnedBy s.tokenMeta (l.map (ctx.verifySection tx)) = 0 := by
    intro l hl
    refine burnedBy_eq_zero fun e he hEq => ?_
    obtain ⟨s', hs', rfl⟩ := List.mem_map.mp he
    rw [tokenMeta_verifySection] at hEq
    exact absurd hEq (hl s' hs')
  rw [hSplit, map_append, map_cons, burnedBy_split, hNone l₁ hLeft, hNone l₂ hRight,
    if_pos (tokenMeta_verifySection ctx tx s), Nat.zero_add, Nat.add_zero]

theorem actualBurnAtoms_le (ctx : VerifyContext) (tx : ColoredTx) (s : ColoredTxSection) :
    (ctx.verifySection tx s).actualBurnAtoms ≤ ctx.calcInputSum s.tokenMeta := by
  unfold verifySection
  dsimp only
  repeat' split
  all_goals first | exact Nat.zero_le _ | exact le_rfl | exact Nat.sub_le _ _

/-- A `MINT`, valid or not, burns everything that is spent of its token. -/
theorem actualBurnAtoms_mint (hType : s.txType = .mint) :
    (ctx.verifySection tx s).actualBurnAtoms = ctx.calcInputSum s.tokenMeta := by
  unfold verifySection
  rw [hType]
  dsimp only
  repeat' split
  all_goals rfl

theorem actualBurnAtoms_send (hType : s.txType = .send) :
    (ctx.verifySection tx s).actualBurnAtoms =
      if (ctx.verifySection tx s).isInvalid = true then ctx.calcInputSum s.tokenMeta
      else ctx.calcInputSum s.tokenMeta - calcOutputSum tx s.tokenMeta := by
  unfold verifySection
  rw [hType]
  dsimp only
  repeat' split
  all_goals first | rfl | contradiction

/-- The outputs of a `SEND` are paid for by its required sum. -/
theorem calcOutputSum_le (hwf : tx.WellFormed txid) (hs : s ∈ tx.sections)
    (hType : s.txType = .send) : calcOutputSum tx s.tokenMeta ≤ s.requiredInputSum := by
  obtain ⟨k, hk⟩ := mem_iff_getElem?.mp hs
  have hKnown : s.txType ≠ .unknown := by
    rw [hType]
    nofun
  refine le_trans (le_of_eq ?_) (hwf.send_paid k s hk hType)
  rw [calcOutputSum, amountOf]
  refine congrArg List.sum (map_congr_left fun o ho => ?_)
  cases o with
  | none => rfl
  | some o =>
    obtain ⟨s', hs', -⟩ := hwf.colors o ho
    rw [elim_some, elim_some, TokenOutput.amountOf, hs', map_some]
    refine if_congr ⟨fun hEq => ?_, fun hEq => ?_⟩ rfl rfl
    · -- the section of the output is `s`, at its index
      have hMeta : s'.tokenMeta = s.tokenMeta := Option.some.inj hEq
      by_contra hNe
      have hDistinct := pairwise_iff_getElem.mp hwf.distinct
      obtain ⟨hLt, hAt⟩ := List.getElem?_eq_some_iff.mp hk
      obtain ⟨hLt', hAt'⟩ := List.getElem?_eq_some_iff.mp hs'
      rcases Nat.lt_or_gt_of_ne hNe with hOrder | hOrder
      · have hBoth := hDistinct _ _ hLt' hLt hOrder
        rw [hAt, hAt'] at hBoth
        exact hKnown (hBoth hMeta).2
      · have hBoth := hDistinct _ _ hLt hLt' hOrder
        rw [hAt, hAt'] at hBoth
        exact hKnown (hBoth hMeta.symm).1
    · rw [hEq, hk] at hs'
      rw [Option.some.inj hs']

/-! ## Conservation -/

theorem calcInputSum_eq_zero
    (h : ∀ s, some s ∈ ctx.spentTokens → s.token.tokenMeta = m → s.token.variant.amount = 0) :
    ctx.calcInputSum m = 0 := by
  rw [calcInputSum, sum_eq_zero_iff]
  intro n hn
  obtain ⟨o, ho, rfl⟩ := List.mem_map.mp hn
  cases o with
  | none => rfl
  | some s =>
    rw [elim_some, SpentToken.amountOf]
    split
    · next hMeta => exact h s ho hMeta
    · rfl

/-- A token of which nothing is spent. -/
theorem conserved_of_unspent {S R : List TokenTxEntry} (h : Accounts ctx tx S R)
    (hEntries : ctx.verifyEntries tx = S ++ R) (hSec : Sectioned tx m)
    (hOut : (ctx.verify tx).outputAtoms m = 0) (hNone : ctx.calcInputSum m = 0) :
    (ctx.verify tx).outputAtoms m + (ctx.verify tx).burnedAtoms m = ctx.calcInputSum m := by
  have hBurned : burnedBy m (tx.sections.map (ctx.verifySection tx)) = 0 := by
    refine burnedBy_eq_zero fun e he hMeta => ?_
    obtain ⟨s, -, rfl⟩ := List.mem_map.mp he
    have hLe := actualBurnAtoms_le ctx tx s
    rw [tokenMeta_verifySection] at hMeta
    rw [hMeta] at hLe
    omega
  rw [TokenTx.burnedAtoms, show (ctx.verify tx).entries = S ++ R from hEntries, burnedBy_append,
    burnedBy_of_sections h, h.sectioned m hSec]
  omega

/-- A token with a `MINT` or `SEND` that adds nothing to it. -/
theorem conserved_of_section {S R : List TokenTxEntry} (h : Accounts ctx tx S R)
    (hEntries : ctx.verifyEntries tx = S ++ R) (hwf : tx.WellFormed txid) (hs : s ∈ tx.sections)
    (hType : s.txType = .send ∨ (s.txType = .mint ∧ (ctx.verifySection tx s).isInvalid = true)) :
    (ctx.verify tx).outputAtoms s.tokenMeta + (ctx.verify tx).burnedAtoms s.tokenMeta =
      ctx.calcInputSum s.tokenMeta := by
  have hKnown : s.txType ≠ .unknown := by
    rintro hUnknown
    rw [hUnknown] at hType
    rcases hType with hType | ⟨hType, -⟩ <;> cases hType
  have hOnly {s' : ColoredTxSection} (hs' : s' ∈ tx.sections) (hMeta : s'.tokenMeta = s.tokenMeta) :
      s' = s := eq_of_tokenMeta_eq hwf hs hKnown hs' hMeta
  rw [TokenTx.burnedAtoms, show (ctx.verify tx).entries = S ++ R from hEntries, burnedBy_append,
    burnedBy_of_sections h, h.sectioned s.tokenMeta ⟨s, hs, rfl⟩, Nat.add_zero,
    burnedBy_of_section hwf hs hKnown]
  by_cases hInvalid : (ctx.verifySection tx s).isInvalid = true
  · -- an invalid section keeps no output and burns all
    have hNone : (ctx.verify tx).outputAtoms s.tokenMeta = 0 := by
      refine outputAtoms_eq_zero hwf fun o _ s' hs' hMeta => .inl ?_
      rw [hOnly (mem_of_getElem? hs') hMeta]
      exact hInvalid
    rw [hNone, Nat.zero_add]
    rcases hType with hSend | ⟨hMint, -⟩
    · rw [actualBurnAtoms_send hSend, if_pos hInvalid]
    · exact actualBurnAtoms_mint hMint
  · rcases hType with hSend | ⟨-, hBad⟩
    · have hValid := Bool.eq_false_iff.mpr hInvalid
      have hPaid := ((isInvalid_verifySection ctx tx s).mp hValid).2
      rw [hSend] at hPaid
      have hLe : calcOutputSum tx s.tokenMeta ≤ ctx.calcInputSum s.tokenMeta :=
        (calcOutputSum_le hwf hs hSend).trans hPaid
      have hAll : (ctx.verify tx).outputAtoms s.tokenMeta = calcOutputSum tx s.tokenMeta := by
        refine outputAtoms_of_valid hwf fun s' hs' hMeta => ?_
        rw [hOnly hs' hMeta]
        exact hValid
      rw [hAll, actualBurnAtoms_send hSend, if_neg hInvalid]
      omega
    · exact absurd hBad hInvalid

/-- Marks of unknown types hold no atoms. -/
theorem amount_of_unknown (hwf : tx.WellFormed txid) {o : TokenOutput} (ho : some o ∈ tx.outputs)
    (hs : tx.sections[o.tokenIdx]? = some s) (hUnknown : s.tokenMeta.tokenType.isKnown = false) :
    o.variant.amount = 0 := by
  obtain ⟨s', hs', hColors⟩ := hwf.colors o ho
  obtain rfl := Option.some.inj (hs.symm.trans hs')
  have hSection := hwf.section_wf s (mem_of_getElem? hs)
  cases hVariant : o.variant with
  | atoms n =>
    -- atoms are of a section that was read, so its type is known
    rw [hVariant] at hColors
    rw [ColoredTxSection.WellFormed] at hSection
    split at hSection
    · exact absurd hUnknown (by rw [hSection.2.1]; nofun)
    · exact absurd hUnknown (by rw [hSection.1]; nofun)
    · exact absurd hUnknown (by rw [hSection.1]; nofun)
    · next hType => exact absurd hType hColors.1
    · exact hSection.elim
  | mintBaton => rfl
  | unknown byte => rfl

/-- So a token of an unknown type never has atoms when it is spent. -/
theorem amount_spentToken_of_unknown (hwf : tx.WellFormed txid) {o : TokenOutput}
    (ho : some o ∈ (ctx.verify tx).outputs) {spent : SpentToken}
    (hSpent : (ctx.verify tx).spentToken o = some spent)
    (hUnknown : spent.token.tokenMeta.tokenType.isKnown = false) :
    spent.token.variant.amount = 0 := by
  obtain ⟨i, hi⟩ := mem_iff_getElem?.mp ho
  obtain ⟨hOut, s, hs, -⟩ := (verify_output_iff hwf).mp hi
  rw [spentToken_output hs] at hSpent
  obtain rfl := Option.some.inj hSpent
  exact amount_of_unknown hwf (mem_of_getElem? hOut) hs hUnknown

end VerifyContext

open VerifyContext in
/-- **The atoms of every token are conserved**, if no input holds a token created by the
transaction itself, or atoms of an unknown type. -/
theorem verify_conserves (tx : Tx) (colored : ColoredTx) (hColor : colorTx tx = some colored)
    (ctx : VerifyContext)
    (hOwn : ∀ s, some s ∈ ctx.spentTokens → s.token.tokenMeta.tokenId ≠ tx.txid)
    (hUnknown : ∀ s, some s ∈ ctx.spentTokens → s.token.tokenMeta.tokenType.isKnown = false →
      s.token.variant.amount = 0) (m : TokenMeta) :
    let t := ctx.verify colored
    -- nothing is created of a token without a valid GENESIS or MINT
    (¬ t.HasValid m .genesis → ¬ t.HasValid m .mint →
      (t.IsNft1ChildGenesis ∧ ¬ Sectioned colored m →
        t.outputAtoms m + t.burnedAtoms m + ctx.firstInputAtoms m = ctx.calcInputSum m) ∧
      (¬ (t.IsNft1ChildGenesis ∧ ¬ Sectioned colored m) →
        t.outputAtoms m + t.burnedAtoms m = ctx.calcInputSum m)) ∧
    -- a valid MINT burns what is spent of its token
    (∀ e ∈ t.entries, e.tokenMeta = m → e.txType = some .mint → e.isInvalid = false →
      e.actualBurnAtoms = ctx.calcInputSum m) ∧
    -- the subtraction of a valid SEND does not underflow
    (∀ s ∈ colored.sections, s.txType = .send →
      s.requiredInputSum ≤ ctx.calcInputSum s.tokenMeta →
      calcOutputSum colored s.tokenMeta ≤ ctx.calcInputSum s.tokenMeta) ∧
    -- outputs point to the entries of their tokens
    (∀ o, some o ∈ t.outputs → ∃ s e, colored.sections[o.tokenIdx]? = some s ∧
      t.entries[o.tokenIdx]? = some e ∧ e.tokenMeta = s.tokenMeta) := by
  intro t
  have hwf := (colorTx_wellFormed hColor).1
  obtain ⟨S, R, hEntries, hAccounts⟩ := verifyEntries_accounts ctx colored
  have hAll : t.entries = S ++ R := hEntries
  refine ⟨?_, ?_, ?_, ?_⟩
  · intro hNoGenesis hNoMint
    rw [show t.HasValid m .genesis ↔ _ from hAccounts.hasValid_iff hEntries nofun] at hNoGenesis
    rw [show t.HasValid m .mint ↔ _ from hAccounts.hasValid_iff hEntries nofun] at hNoMint
    by_cases hSec : Sectioned colored m
    · refine ⟨fun hSpared => absurd hSec hSpared.2, fun _ => ?_⟩
      obtain ⟨s, hs, rfl⟩ := hSec
      have hValid : ∀ txType, s.txType = txType →
          (¬ ∃ s' ∈ colored.sections, s'.tokenMeta = s.tokenMeta ∧ s'.txType = txType ∧
            (ctx.verifySection colored s').isInvalid = false) →
          (ctx.verifySection colored s).isInvalid = true := by
        intro txType hType hNone
        by_contra hInvalid
        exact hNone ⟨s, hs, rfl, hType, Bool.eq_false_iff.mpr hInvalid⟩
      have hSection := hwf.section_wf s hs
      rw [ColoredTxSection.WellFormed] at hSection
      cases hType : s.txType with
      | genesis =>
        -- an invalid one: its token is that of the transaction, which no input holds
        rw [hType] at hSection
        have hInvalid := hValid _ hType hNoGenesis
        refine conserved_of_unspent hAccounts hEntries ⟨s, hs, rfl⟩ ?_ ?_
        · refine outputAtoms_eq_zero hwf fun o _ s' hs' hMeta => .inl ?_
          rw [eq_of_tokenMeta_eq hwf hs (by rw [hType]; nofun) (mem_of_getElem? hs') hMeta]
          exact hInvalid
        · refine calcInputSum_eq_zero fun spent hSpent hMeta => absurd ?_ (hOwn spent hSpent)
          rw [hMeta]
          exact hSection.1
      | mint =>
        exact conserved_of_section hAccounts hEntries hwf hs
          (.inr ⟨hType, hValid _ hType hNoMint⟩)
      | send => exact conserved_of_section hAccounts hEntries hwf hs (.inl hType)
      | unknown =>
        rw [hType] at hSection
        refine conserved_of_unspent hAccounts hEntries ⟨s, hs, rfl⟩ ?_ ?_
        · refine outputAtoms_eq_zero hwf fun o ho s' hs' hMeta => .inr ?_
          exact amount_of_unknown hwf ho hs' (by rw [hMeta]; exact hSection.2.1)
        · refine calcInputSum_eq_zero fun spent hSpent hMeta => hUnknown spent hSpent ?_
          rw [hMeta]
          exact hSection.2.1
      | burn =>
        rw [hType] at hSection
        exact hSection.elim
    · -- nothing is coloured with a token that has no section
      have hNone : t.outputAtoms m = 0 :=
        outputAtoms_eq_zero hwf fun o _ s hs hMeta =>
          absurd ⟨s, mem_of_getElem? hs, hMeta⟩ hSec
      have hSections : burnedBy m S = 0 := by
        rw [burnedBy_of_sections hAccounts]
        refine burnedBy_eq_zero fun e he hMeta => ?_
        obtain ⟨s, hs, rfl⟩ := List.mem_map.mp he
        exact absurd ⟨s, hs, (tokenMeta_verifySection ctx colored s).symm.trans hMeta⟩ hSec
      have hBare := hAccounts.bare m hSec
      rw [TokenTx.burnedAtoms, hAll, burnedBy_append, hNone, hSections,
        hAccounts.isNft1ChildGenesis_iff hEntries hwf]
      constructor
      · rintro ⟨hNft, -⟩
        rw [if_pos hNft] at hBare
        omega
      · intro hNot
        rw [if_neg fun hNft => hNot ⟨hNft, hSec⟩] at hBare
        omega
  · rintro e he rfl hType hValid
    rw [hAll] at he
    obtain ⟨s, -, hMint, hCore⟩ := hAccounts.section_of_valid he hType nofun hValid
    obtain ⟨hMeta, -, -, hAtoms⟩ := TokenTxEntry.of_core hCore
    rw [hAtoms, actualBurnAtoms_mint hMint, hMeta, tokenMeta_verifySection]
  · intro s hs hSend hPaid
    exact (calcOutputSum_le hwf hs hSend).trans hPaid
  · intro o ho
    obtain ⟨i, hi⟩ := mem_iff_getElem?.mp ho
    obtain ⟨-, s, hs, -⟩ := (verify_output_iff hwf).mp hi
    obtain ⟨e, he, hVerdict⟩ := entry_of_section ctx hs
    exact ⟨s, e, hs, he,
      (congrArg Verdict.tokenMeta hVerdict).trans (tokenMeta_verifySection ctx colored s)⟩

/-! A transaction with one input and a payload. -/

def payloadTx (payload : Bytes) : Tx where
  txid := .fill 0x11
  version := 2
  inputs := [⟨⟨.fill 0x22, 0⟩, ⟨[]⟩, 0, none⟩]
  outputs := [⟨0, ⟨payload⟩⟩, ⟨546, ⟨[0x51]⟩⟩]
  locktime := 0

def spending (token : Token) : VerifyContext := ⟨[some ⟨token, none⟩], none, none, none⟩

/-- `SEND` of three atoms. -/
def sendPayload (tokenId : TokenId) : Bytes :=
  [0x6a, 4] ++ slpLokadId ++ [1, 1, 4] ++ sendBytes ++ [32] ++ tokenId.val.reverse ++
    [8, 0, 0, 0, 0, 0, 0, 0, 3]

def sentToken : TokenMeta := ⟨.fill 0x33, .slp .fungible⟩

theorem send_three_of_five :
    ∃ colored, colorTx (payloadTx (sendPayload sentToken.tokenId)) = some colored ∧
      ((spending ⟨sentToken, .atoms 5⟩).verify colored).outputAtoms sentToken +
        ((spending ⟨sentToken, .atoms 5⟩).verify colored).burnedAtoms sentToken = 5 := by
  obtain ⟨colored, hColor, hGenesis, hMint, hNft⟩ :
      ∃ colored, colorTx (payloadTx (sendPayload sentToken.tokenId)) = some colored ∧
        ¬ ((spending ⟨sentToken, .atoms 5⟩).verify colored).HasValid sentToken .genesis ∧
        ¬ ((spending ⟨sentToken, .atoms 5⟩).verify colored).HasValid sentToken .mint ∧
        ¬ ((spending ⟨sentToken, .atoms 5⟩).verify colored).IsNft1ChildGenesis :=
    ⟨_, rfl, by decide +kernel, by decide +kernel, by decide +kernel⟩
  have hOnly : ∀ s, some s ∈ (spending ⟨sentToken, .atoms 5⟩).spentTokens →
      s = ⟨⟨sentToken, .atoms 5⟩, none⟩ :=
    fun s hs => Option.some.inj (mem_singleton.mp hs)
  have hConserved := verify_conserves _ colored hColor (spending ⟨sentToken, .atoms 5⟩)
    (fun s hs => by rw [hOnly s hs]; decide +kernel)
    (fun s hs hUnknown => by rw [hOnly s hs] at hUnknown; cases hUnknown) sentToken
  refine ⟨colored, hColor, ?_⟩
  exact (hConserved.1 hGenesis hMint).2 fun h => hNft h.1

/-- A payload of the token type `0x99`, which is not looked into. -/
def unknownPayload : Bytes := [0x6a, 4] ++ slpLokadId ++ [1, 0x99, 1, 0]

def unknownMeta : TokenMeta := ⟨TxId.zero, .slp (.unknown 0x99)⟩

/-- Atoms of an unknown type, which no verified transaction leaves on an output, would be
neither passed on nor reported as burned. -/
theorem unknown_atoms_unaccounted :
    ∃ colored, colorTx (payloadTx unknownPayload) = some colored ∧
      (spending ⟨unknownMeta, .atoms 5⟩).spentTokens.length =
        (payloadTx unknownPayload).inputs.length ∧
      ¬ ((spending ⟨unknownMeta, .atoms 5⟩).verify colored).HasValid unknownMeta .genesis ∧
      ¬ ((spending ⟨unknownMeta, .atoms 5⟩).verify colored).HasValid unknownMeta .mint ∧
      ¬ ((spending ⟨unknownMeta, .atoms 5⟩).verify colored).IsNft1ChildGenesis ∧
      ((spending ⟨unknownMeta, .atoms 5⟩).verify colored).outputAtoms unknownMeta +
        ((spending ⟨unknownMeta, .atoms 5⟩).verify colored).burnedAtoms unknownMeta = 0 ∧
      (spending ⟨unknownMeta, .atoms 5⟩).calcInputSum unknownMeta = 5 :=
  ⟨_, rfl, by decide +kernel⟩

end Ergon
