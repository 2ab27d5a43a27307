import Ergon.Token.Io
import Ergon.Slp.VerifyOutputs

/-!
# Ergon — which tokens and group links are stored

`BatchProcessor.tokenLinks` lists the tokens that the entries of a transaction
mention and links NFTs to their groups, in one pass over the entries. A link is
only made when the group is not listed yet.

* `linksOf_tokenLinks` — the links, described by the entries alone: an NFT is
  linked exactly if neither its group nor another NFT of the group comes before
  it (`IsLinked`);
* `toDbToken_reads` — a compressed token reads back with the linked group.
-/

namespace Ergon

open Lib List Std.ExtTreeMap

namespace BatchProcessor

variable {B : BiMap TxNum TokenMeta}

/-- A transaction created the token. -/
def Created (B : BiMap TxNum TokenMeta) (m : TokenMeta) : Prop := ∃ n, (n, m) ∈ B

/-- An earlier entry of a transaction lists the token. -/
def Lists (e : TokenTxEntry) (m : TokenMeta) : Prop := e.tokenMeta = m ∨ e.groupTokenMeta = some m

/-- The entry of `m` belongs to group `g`, which no entry before it lists. -/
def IsLinked (entries : List TokenTxEntry) (m g : TokenMeta) : Prop :=
  ∃ before e after, entries = before ++ e :: after ∧ e.tokenMeta = m ∧ e.groupTokenMeta = some g ∧
    g ≠ m ∧ ∀ e' ∈ before, ¬ Lists e' g

/-- Entries as verification makes them: groups are created tokens of created
tokens, and no two entries of a token with a group. -/
structure GroupedEntries (B : BiMap TxNum TokenMeta) (entries : List TokenTxEntry) : Prop where
  created : ∀ e ∈ entries, ∀ g, e.groupTokenMeta = some g → Created B e.tokenMeta ∧ Created B g
  unique : entries.Pairwise fun e e' => e.tokenMeta = e'.tokenMeta →
    e.groupTokenMeta = none ∧ e'.groupTokenMeta = none

variable {e : TokenTxEntry}

variable {entries : List TokenTxEntry}

theorem isLinked_concat {m g : TokenMeta} :
    IsLinked (entries ++ [e]) m g ↔ IsLinked entries m g ∨
      (e.tokenMeta = m ∧ e.groupTokenMeta = some g ∧ g ≠ m ∧ ∀ e' ∈ entries, ¬ Lists e' g) := by
  constructor
  · rintro ⟨before, e₁, after, hEq, hMeta, hGroup, hNe, hBefore⟩
    -- the linked entry is the last one, or it was there before
    obtain rfl | ⟨after', e₂, rfl⟩ := eq_nil_or_concat after
    · obtain ⟨rfl, hLast⟩ := append_inj' hEq rfl
      obtain rfl : e = e₁ := singleton_inj.mp hLast
      exact .inr ⟨hMeta, hGroup, hNe, hBefore⟩
    · rw [concat_eq_append, ← cons_append, ← append_assoc] at hEq
      obtain ⟨rfl, _⟩ := append_inj' hEq rfl
      exact .inl ⟨before, e₁, after', rfl, hMeta, hGroup, hNe, hBefore⟩
  · rintro (⟨before, e₁, after, rfl, hMeta, hGroup, hNe, hBefore⟩ | ⟨hMeta, hGroup, hNe, hBefore⟩)
    · exact ⟨before, e₁, after ++ [e], by simp, hMeta, hGroup, hNe, hBefore⟩
    · exact ⟨entries, e, [], rfl, hMeta, hGroup, hNe, hBefore⟩

/-! ## The pass over the entries -/

/-- What the pass has built after the entries `done`. -/
structure LinksOf (B : BiMap TxNum TokenMeta) (done : List TokenTxEntry) (l : TokenLinks) :
    Prop where
  tokens : ∀ p ∈ l.tokens, p ∈ B
  nodup : l.metas.Nodup
  metas : ∀ m, m ∈ l.metas ↔ Created B m ∧ ∃ e ∈ done, Lists e m
  groups : ∀ m g, l.groups[m]? = some g ↔ IsLinked done m g

variable {l : TokenLinks}

theorem mem_metas_addToken {n : TxNum} {m m' : TokenMeta} :
    m' ∈ (l.addToken n m).metas ↔ m' ∈ l.metas ∨ m' = m := by
  unfold TokenLinks.addToken
  split
  · next hm => exact ⟨.inl, fun h => h.elim id fun hEq => hEq ▸ hm⟩
  · simp [TokenLinks.metas, eq_comm]

theorem nodup_addToken (h : l.metas.Nodup) (n : TxNum) (m : TokenMeta) :
    (l.addToken n m).metas.Nodup := by
  unfold TokenLinks.addToken
  split
  · exact h
  · next hm =>
    have hMetas : TokenLinks.metas { l with tokens := l.tokens ++ [(n, m)] } = l.metas ++ [m] :=
      map_append
    rw [hMetas]
    exact nodup_append_singleton h hm

variable {m : TokenMeta}

theorem tokens_addToken {n : TxNum} (h : ∀ p ∈ l.tokens, p ∈ B) (hm : (n, m) ∈ B) :
    ∀ p ∈ (l.addToken n m).tokens, p ∈ B := by
  unfold TokenLinks.addToken
  split
  · exact h
  · exact forall_mem_concat h hm

theorem groups_addToken (l : TokenLinks) (n : TxNum) (m : TokenMeta) :
    (l.addToken n m).groups = l.groups := by
  unfold TokenLinks.addToken
  split <;> rfl

variable {done : List TokenTxEntry}

/-- The tokens listed after one more entry of a created token. -/
theorem LinksOf.metas_concat {l l' : TokenLinks} (h : LinksOf B done l)
    (hCreated : Created B e.tokenMeta) (hGroup : ∀ g, e.groupTokenMeta = some g → Created B g)
    (hl' : ∀ m, m ∈ l'.metas ↔ m ∈ l.metas ∨ Lists e m) (m : TokenMeta) :
    m ∈ l'.metas ↔ Created B m ∧ ∃ e' ∈ done ++ [e], Lists e' m := by
  rw [hl', h.metas]
  constructor
  · rintro (⟨hm, e', he', hLists⟩ | hLists)
    · exact ⟨hm, e', mem_append_left _ he', hLists⟩
    · refine ⟨?_, e, by simp, hLists⟩
      obtain rfl | hEq := hLists
      · exact hCreated
      · exact hGroup m hEq
  · rintro ⟨hm, e', he', hLists⟩
    obtain he' | he' := mem_append.mp he'
    · exact .inl ⟨hm, e', he', hLists⟩
    · cases mem_singleton.mp he'
      exact .inr hLists

/-- An entry whose group is listed already, or that has none, adds no link. -/
theorem LinksOf.groups_concat_of_listed (h : LinksOf B done l)
    (hListed : ∀ g, e.groupTokenMeta = some g → g = e.tokenMeta ∨ ∃ e' ∈ done, Lists e' g)
    (m g : TokenMeta) : l.groups[m]? = some g ↔ IsLinked (done ++ [e]) m g := by
  rw [h.groups, isLinked_concat]
  refine ⟨.inl, fun hLinked => hLinked.elim id ?_⟩
  rintro ⟨rfl, hGroup, hNe, hNone⟩
  obtain hEq | ⟨e', he', hLists⟩ := hListed g hGroup
  · exact absurd hEq hNe
  · exact absurd hLists (hNone e' he')

/-- An entry whose group is not listed yet links its token. -/
theorem LinksOf.link {n gn : TxNum} {g : TokenMeta} (h : LinksOf B done l)
    (hG : GroupedEntries B (done ++ [e])) (hB : (n, e.tokenMeta) ∈ B) (hgn : (gn, g) ∈ B)
    (hg : e.groupTokenMeta = some g) (hListed : g ∉ (l.addToken n e.tokenMeta).metas)
    (hNe : g ≠ e.tokenMeta) (hNone : ∀ e' ∈ done, ¬ Lists e' g) :
    LinksOf B (done ++ [e])
      { tokens := (l.addToken n e.tokenMeta).tokens ++ [(gn, g)]
        groups := (l.addToken n e.tokenMeta).groups.insert e.tokenMeta g } where
  tokens := forall_mem_concat (tokens_addToken h.tokens hB) hgn
  nodup := by
    rw [TokenLinks.metas, map_append]
    exact nodup_append_singleton (nodup_addToken h.nodup n e.tokenMeta) hListed
  metas := by
    refine h.metas_concat ⟨n, hB⟩ (fun g' hg' => ?_) fun m => ?_
    · rw [hg] at hg'
      cases hg'
      exact ⟨gn, hgn⟩
    · have hMetas : m ∈ TokenLinks.metas
            { tokens := (l.addToken n e.tokenMeta).tokens ++ [(gn, g)]
              groups := (l.addToken n e.tokenMeta).groups.insert e.tokenMeta g } ↔
          m ∈ (l.addToken n e.tokenMeta).metas ∨ m = g := by
        simp [TokenLinks.metas, eq_comm]
      rw [hMetas, mem_metas_addToken, or_assoc, Lists, hg]
      simp [eq_comm]
  groups m g' := by
    rw [Column.getElem?_insert, groups_addToken, isLinked_concat]
    by_cases hm : e.tokenMeta = m
    · -- no entry before is of this token, since this one has a group
      have hBefore : ¬ IsLinked done m g' := by
        rintro ⟨before, e₁, after, rfl, hMeta, hGroup, _⟩
        have hUnique := (pairwise_append.mp hG.unique).2.2 e₁ (by simp) e (by simp)
        rw [(hUnique (hMeta.trans hm.symm)).1] at hGroup
        cases hGroup
      rw [if_pos hm, hg, or_iff_right hBefore]
      constructor
      · intro hEq
        cases hEq
        exact ⟨hm, rfl, hm ▸ hNe, hNone⟩
      · exact fun hRight => hRight.2.1
    · rw [if_neg hm, h.groups]
      exact ⟨.inl, fun hLinked => hLinked.elim id fun hRight => absurd hRight.1 hm⟩

theorem LinksOf.step (h : LinksOf B done l) (hG : GroupedEntries B (done ++ [e])) :
    LinksOf B (done ++ [e]) (addEntry B l e) := by
  have hGroup : ∀ g, e.groupTokenMeta = some g → Created B e.tokenMeta ∧ Created B g :=
    hG.created e (by simp)
  unfold addEntry
  split
  · -- nobody created the token, so it has no group either
    next hNone =>
    have hNot : ¬ Created B e.tokenMeta := by
      rintro ⟨n, hn⟩
      rw [BiMap.getByRight_eq_some.mpr hn] at hNone
      cases hNone
    refine ⟨h.tokens, h.nodup, fun m => ?_, h.groups_concat_of_listed fun g hg =>
      absurd (hGroup g hg).1 hNot⟩
    rw [h.metas]
    refine and_congr_right fun hm => ⟨fun ⟨e', he', hLists⟩ => ⟨e', by simp [he'], hLists⟩, ?_⟩
    rintro ⟨e', he', hLists⟩
    obtain he' | he' := mem_append.mp he'
    · exact ⟨e', he', hLists⟩
    · cases mem_singleton.mp he'
      obtain rfl | hg := hLists
      · exact absurd hm hNot
      · exact absurd (hGroup m hg).1 hNot
  · next n hn =>
    have hB : (n, e.tokenMeta) ∈ B := BiMap.getByRight_eq_some.mp hn
    have hTokens := tokens_addToken h.tokens hB
    have hNodup := nodup_addToken h.nodup n e.tokenMeta
    have hGroups : (l.addToken n e.tokenMeta).groups = l.groups := groups_addToken l n e.tokenMeta
    have hLast : ∀ m, Lists e m ↔ m = e.tokenMeta ∨ e.groupTokenMeta = some m :=
      fun m => or_congr_left eq_comm
    dsimp only
    split
    · next hNone =>
      refine ⟨hTokens, hNodup, h.metas_concat ⟨n, hB⟩ (fun g hg => (hGroup g hg).2) fun m => ?_, ?_⟩
      · rw [mem_metas_addToken, hLast, hNone]
        simp
      · rw [hGroups]
        exact h.groups_concat_of_listed fun g hg => by rw [hNone] at hg; cases hg
    · next g hg =>
      obtain ⟨gn, hgn⟩ := (hGroup g hg).2
      rw [BiMap.getByRight_eq_some.mpr hgn]
      dsimp only
      -- listed before or as this very token
      have hMem : g ∈ (l.addToken n e.tokenMeta).metas ↔
          g = e.tokenMeta ∨ ∃ e' ∈ done, Lists e' g := by
        rw [mem_metas_addToken, h.metas, and_iff_right ⟨gn, hgn⟩, or_comm]
      split
      · next hListed =>
        refine ⟨hTokens, hNodup, h.metas_concat ⟨n, hB⟩ (fun g hg => (hGroup g hg).2) fun m => ?_, ?_⟩
        · rw [mem_metas_addToken, hLast, hg]
          refine ⟨fun hm => hm.imp_right .inl, ?_⟩
          rintro (hm | rfl | hEq)
          · exact .inl hm
          · exact .inr rfl
          · cases hEq
            exact mem_metas_addToken.mp hListed
        · rw [hGroups]
          refine h.groups_concat_of_listed fun g' hg' => ?_
          rw [hg] at hg'
          cases hg'
          exact hMem.mp hListed
      · next hListed =>
        obtain ⟨hNe, hNone⟩ := not_or.mp (mt hMem.mpr hListed)
        exact h.link hG hB hgn hg hListed hNe fun e' he' hLists => hNone ⟨e', he', hLists⟩

theorem GroupedEntries.of_append {E E' : List TokenTxEntry} (h : GroupedEntries B (E ++ E')) :
    GroupedEntries B E :=
  ⟨fun e he => h.created e (mem_append_left _ he), (pairwise_append.mp h.unique).1⟩

/-- **What the pass lists and links**, by the entries alone. -/
theorem linksOf_tokenLinks (hG : GroupedEntries B entries) :
    LinksOf B entries (tokenLinks B entries) := by
  have hStart : LinksOf B [] ⟨[], ∅⟩ := by
    refine ⟨fun _ hp => absurd hp not_mem_nil, nodup_nil, fun m => ?_, fun m g => ?_⟩
    · exact ⟨fun hm => absurd hm not_mem_nil, fun ⟨_, e, he, _⟩ => absurd he not_mem_nil⟩
    · refine ⟨fun h => ?_, ?_⟩
      · cases h
      · rintro ⟨before, e, after, hEq, _⟩
        exact absurd hEq.symm (append_ne_nil_of_right_ne_nil _ (cons_ne_nil _ _))
  have hRun : ∀ (rest done : List TokenTxEntry) (l : TokenLinks), GroupedEntries B (done ++ rest) →
      LinksOf B done l → LinksOf B (done ++ rest) (rest.foldl (addEntry B) l) := by
    intro rest
    induction rest with
    | nil =>
      intro done l _ h
      rwa [append_nil]
    | cons e rest ih =>
      intro done l hG h
      rw [← singleton_append, ← append_assoc] at hG ⊢
      exact ih _ _ hG (h.step hG.of_append)
  exact hRun entries [] ⟨[], ∅⟩ hG hStart

/-! ## Indices -/

variable {metas : List TokenMeta}

theorem metaIdx_eq_ok (hNodup : metas.Nodup) {idx : Nat} :
    metaIdx m metas = .ok idx ↔ metas[idx]? = some m := by
  unfold metaIdx
  rw [orElse_eq_ok, findIdx?_eq_some_iff_getElem]
  constructor
  · rintro ⟨hLt, hEq, _⟩
    exact List.getElem?_eq_some_iff.mpr ⟨hLt, of_decide_eq_true hEq⟩
  · intro h
    obtain ⟨hLt, hEq⟩ := List.getElem?_eq_some_iff.mp h
    refine ⟨hLt, decide_eq_true hEq, fun j hj hEqJ => ?_⟩
    have hSame : metas[j] = metas[idx] := (of_decide_eq_true hEqJ).trans hEq.symm
    exact absurd (hNodup.getElem_inj_iff.mp hSame) (by omega)

/-- Positions in a list without duplicates are unique. -/
theorem idx_eq_of_getElem? (hNodup : metas.Nodup) {i j : Nat} (hi : metas[i]? = some m)
    (hj : metas[j]? = some m) : i = j := by
  obtain ⟨hLt, hEq⟩ := List.getElem?_eq_some_iff.mp hi
  obtain ⟨hLt', hEq'⟩ := List.getElem?_eq_some_iff.mp hj
  exact hNodup.getElem_inj_iff.mp (hEq.trans hEq'.symm)

theorem groupIndices_eq_ok (hNodup : metas.Nodup) {groups : Column TokenMeta TokenMeta}
    {col : Column Nat Nat} (h : groupIndices metas groups = .ok col) {idx groupIdx : Nat} :
    col[idx]? = some groupIdx ↔
      ∃ m g, groups[m]? = some g ∧ metas[idx]? = some m ∧ metas[groupIdx]? = some g := by
  obtain ⟨ps, hps, h⟩ := bind_eq_ok.mp h
  cases pure_eq_ok.mp h
  have hRel : List.Forall₂ (fun (p : TokenMeta × TokenMeta) (q : Nat × Nat) =>
      metas[q.1]? = some p.1 ∧ metas[q.2]? = some p.2) groups.toList ps := by
    refine (mapM_eq_ok.mp hps).imp fun p q hpq => ?_
    obtain ⟨i, hi, hpq⟩ := bind_eq_ok.mp hpq
    obtain ⟨j, hj, hpq⟩ := bind_eq_ok.mp hpq
    cases pure_eq_ok.mp hpq
    exact ⟨(metaIdx_eq_ok hNodup).mp hi, (metaIdx_eq_ok hNodup).mp hj⟩
  have hUnique : (ps.map Prod.fst).Nodup := by
    refine pairwise_map.mpr (Forall₂.pairwise ?_ hRel distinct_keys_toList)
    intro p p' q q' hpq hpq' hNe hEq
    rw [hEq, hpq'.1] at hpq
    have hSame : p'.1 = p.1 := Option.some.inj hpq.1
    exact hNe (by rw [hSame]; exact Std.ReflOrd.compare_self)
  rw [Column.getElem?_putAll_empty hUnique]
  constructor
  · intro hMem
    obtain ⟨⟨m, g⟩, hp, hm, hg⟩ := Forall₂.exists_left hRel hMem
    exact ⟨m, g, mem_toList_iff_getElem?_eq_some.mp hp, hm, hg⟩
  · rintro ⟨m, g, hGroup, hm, hg⟩
    obtain ⟨⟨i, j⟩, hq, hi, hj⟩ :=
      Forall₂.exists_right hRel (mem_toList_iff_getElem?_eq_some.mpr hGroup)
    rw [idx_eq_of_getElem? hNodup hm hi, idx_eq_of_getElem? hNodup hg hj]
    exact hq

/-! ## Storing -/

/-- How `d` stores a transaction with spent tokens `S` and verdict `validTx`. -/
structure Stores (l : TokenLinks) (S : List (Option SpentToken)) (validTx : TokenTx)
    (hasMintVault : Bool) (d : DbTokenTx) : Prop where
  nums : d.tokenTxNums = l.tokens.map Prod.fst
  indices : groupIndices l.metas l.groups = .ok d.groupTokenIndices
  inputs : List.Forall₂ (fun s t => toDbToken l.metas (s.map (·.token)) = .ok t) S d.inputs
  outputs : List.Forall₂ (fun o t =>
    (o = none ∧ t = .noToken) ∨ ∃ o' spent, o = some o' ∧ validTx.spentToken o' = some spent ∧
      toDbToken l.metas (some spent.token) = .ok t) validTx.outputs d.outputs
  flags : d.flags = if hasMintVault then flagsHasMintVault else 0

theorem stores_of_tokenTxToDb {S : List (Option SpentToken)} {validTx : TokenTx}
    {hasMintVault : Bool} {d : DbTokenTx} (h : tokenTxToDb l S validTx hasMintVault = .ok d) :
    Stores l S validTx hasMintVault d := by
  obtain ⟨indices, hIndices, h⟩ := bind_eq_ok.mp h
  obtain ⟨inputs, hInputs, h⟩ := bind_eq_ok.mp h
  obtain ⟨outputs, hOutputs, h⟩ := bind_eq_ok.mp h
  cases pure_eq_ok.mp h
  refine ⟨rfl, hIndices, mapM_eq_ok.mp hInputs, (mapM_eq_ok.mp hOutputs).imp fun o t hot => ?_, rfl⟩
  cases o with
  | none =>
    cases hot
    exact .inl ⟨rfl, rfl⟩
  | some o =>
    obtain ⟨spent, hSpent, hToken⟩ := bind_eq_ok.mp hot
    exact .inr ⟨o, spent, rfl, orElse_eq_ok.mp hSpent, hToken⟩

/-- Only listed tokens can be compressed to an index. -/
theorem mem_of_toDbToken (hNodup : metas.Nodup) {t : Token} {dbToken : DbToken}
    (h : toDbToken metas (some t) = .ok dbToken) (hKnown : ∀ byte, t.variant ≠ .unknown byte) :
    t.tokenMeta ∈ metas := by
  unfold toDbToken at h
  dsimp only at h
  split at h
  · obtain ⟨idx, hIdx, _⟩ := map_eq_ok.mp h
    exact mem_of_getElem? ((metaIdx_eq_ok hNodup).mp hIdx)
  · obtain ⟨idx, hIdx, _⟩ := map_eq_ok.mp h
    exact mem_of_getElem? ((metaIdx_eq_ok hNodup).mp hIdx)
  · next byte hByte => exact absurd hByte (hKnown byte)

/-! ## Reading back -/

/-- A token of unknown type has the meta that its stored mark stands for. -/
def WellMarked (t : Token) : Prop :=
  ∀ byte, t.variant = .unknown byte →
    t.tokenMeta = ⟨TxId.zero, .slp (.unknown byte)⟩ ∨ t.tokenMeta = ⟨TxId.zero, .alp (.unknown byte)⟩

/-- A token as it is read back: with the group that is linked to its meta. -/
def regroup (groupOf : TokenMeta → Option TokenMeta) (t : Token) : SpentToken :=
  match t.variant with
  | .unknown _ => ⟨t, none⟩
  | _ => ⟨t, groupOf t.tokenMeta⟩

section Reading

variable {l : TokenLinks} {d : DbTokenTx} {fnMeta : TxNum → Except TokenError TokenMeta}

theorem readsToken_of_links (hNums : d.tokenTxNums = l.tokens.map Prod.fst)
    (hIndices : groupIndices l.metas l.groups = .ok d.groupTokenIndices) (hNodup : l.metas.Nodup)
    (hMeta : ∀ p ∈ l.tokens, fnMeta p.1 = .ok p.2) {idx : Nat} {m : TokenMeta}
    (hm : l.metas[idx]? = some m) : d.ReadsToken fnMeta idx m l.groups[m]? := by
  have hNum : ∀ {i : Nat} {m' : TokenMeta}, l.metas[i]? = some m' →
      ∃ n, d.tokenTxNums[i]? = some n ∧ fnMeta n = .ok m' := by
    intro i m' hi
    rw [TokenLinks.metas, getElem?_map] at hi
    obtain ⟨p, hp, rfl⟩ := Option.map_eq_some_iff.mp hi
    exact ⟨p.1, by rw [hNums, getElem?_map, hp]; rfl, hMeta p (mem_of_getElem? hp)⟩
  refine ⟨hNum hm, ?_⟩
  unfold DbTokenTx.ReadsGroup
  split
  · next hNone =>
    -- a link would have an index
    refine Option.eq_none_iff_forall_ne_some.mpr fun g hg => ?_
    have hPair := mem_toList_iff_getElem?_eq_some.mpr hg
    obtain ⟨ps, hps, h⟩ := bind_eq_ok.mp hIndices
    obtain ⟨⟨i, j⟩, _, hij⟩ := Forall₂.exists_right (mapM_eq_ok.mp hps) hPair
    obtain ⟨_, _, hij⟩ := bind_eq_ok.mp hij
    obtain ⟨j', hj', _⟩ := bind_eq_ok.mp hij
    rw [metaIdx_eq_ok hNodup] at hj'
    have hSome := (groupIndices_eq_ok hNodup hIndices).mpr ⟨m, g, hg, hm, hj'⟩
    rw [hNone] at hSome
    cases hSome
  · next groupIdx hSome =>
    obtain ⟨m', g, hg, hm', hIdx⟩ := (groupIndices_eq_ok hNodup hIndices).mp hSome
    rw [hm] at hm'
    cases hm'
    obtain ⟨n, hn, hfn⟩ := hNum hIdx
    exact ⟨n, g, hn, hfn, hg⟩

theorem toDbToken_reads (hNums : d.tokenTxNums = l.tokens.map Prod.fst)
    (hIndices : groupIndices l.metas l.groups = .ok d.groupTokenIndices) (hNodup : l.metas.Nodup)
    (hMeta : ∀ p ∈ l.tokens, fnMeta p.1 = .ok p.2) {t : Token} {dbToken : DbToken}
    (h : toDbToken l.metas (some t) = .ok dbToken) (hMark : WellMarked t) :
    d.spentToken dbToken fnMeta = .ok (some (regroup (fun m => l.groups[m]?) t)) := by
  obtain ⟨m, variant⟩ := t
  unfold toDbToken at h
  cases variant with
  | atoms n | mintBaton =>
    obtain ⟨idx, hIdx, rfl⟩ := map_eq_ok.mp h
    have hReads := readsToken_of_links hNums hIndices hNodup hMeta ((metaIdx_eq_ok hNodup).mp hIdx)
    exact DbTokenTx.indexedToken_eq_ok.mpr ⟨_, _, hReads, rfl⟩
  | unknown byte =>
    obtain hEq | hEq := hMark byte rfl
    · obtain rfl : m = ⟨TxId.zero, .slp (.unknown byte)⟩ := hEq
      cases h
      rfl
    · obtain rfl : m = ⟨TxId.zero, .alp (.unknown byte)⟩ := hEq
      cases h
      rfl

end Reading

end BatchProcessor

end Ergon
