import Ergon.Token.Spent

/-!
# Ergon — the loop over the token transactions of a block

`BatchProcessor.verify` takes the token transactions parents first. The state
after the loop satisfies equations that do not mention the order in which the
transactions were taken: the tokens a transaction spends are those on the
outputs it refers to, and its verdict follows from them (`Verified`).

* `verifyTokenTx_eq_ok` — what one iteration computes and records;
* `BatchInv.step` — an iteration keeps the equations of the transactions before
  it, since those do not spend from later ones;
* `batchInv_of_order` — so they hold of all transactions at the end.
-/

namespace Ergon

open Lib List

namespace PreparedTx

theorem wellFormed (p : PreparedTx) : p.colored.WellFormed p.tx.tx.txid :=
  (colorTx_wellFormed p.colored_eq).1

theorem getElem?_zero_sections (p : PreparedTx) : p.colored.sections[0]? = some p.firstSection := by
  rw [← head?_eq_getElem?, head?_eq_some_head p.sections_ne]
  rfl

theorem firstSection_mem (p : PreparedTx) : p.firstSection ∈ p.colored.sections :=
  head_mem p.sections_ne

end PreparedTx

namespace BatchProcessor

/-! ## One transaction -/

variable {p : PreparedTx} {S : List (Option SpentToken)} {ctx : VerifyContext}

theorem spentTokens_of_verifyContext {db : BatchDbData} (h : verifyContext db p S = .ok ctx) :
    ctx.spentTokens = S := by
  unfold verifyContext at h
  split at h
  · obtain ⟨scripts, _, rfl⟩ := map_eq_ok.mp h
    rfl
  · cases h
    rfl

variable {m : TokenMeta}

/-- The token that a transaction creates is the one of its first section. -/
theorem newToken_verify {info : GenesisInfo} :
    newToken (ctx.verify p.colored) = some (m, info) ↔
      ctx.SectionValid p.firstSection ∧ p.firstSection.genesisInfo = some info ∧
        p.firstSection.tokenMeta = m := by
  obtain ⟨e, he, hVerdict⟩ := VerifyContext.entry_of_section ctx p.getElem?_zero_sections
  have hInvalid : e.isInvalid = (ctx.verifySection p.colored p.firstSection).isInvalid :=
    congrArg Verdict.isInvalid hVerdict
  have hInfo : e.genesisInfo = p.firstSection.genesisInfo :=
    (congrArg Verdict.genesisInfo hVerdict).trans (VerifyContext.genesisInfo_verifySection ..)
  have hMeta : e.tokenMeta = p.firstSection.tokenMeta :=
    (congrArg Verdict.tokenMeta hVerdict).trans (VerifyContext.tokenMeta_verifySection ..)
  have hHead : (ctx.verify p.colored).entries.head? = some e := by
    rw [head?_eq_getElem?]
    exact he
  rw [← VerifyContext.isInvalid_verifySection ctx p.colored, ← hInvalid, ← hInfo, ← hMeta, newToken,
    hHead, Option.bind_some]
  cases e.isInvalid <;> cases e.genesisInfo <;> simp [and_comm]

/-- What a transaction spends and what it is verified with. -/
structure Computes (db : BatchDbData) (validTxs : Column TxNum TokenTx) (p : PreparedTx)
    (S : List (Option SpentToken)) (ctx : VerifyContext) : Prop where
  inputs : txTokenInputs db validTxs p.tx = .ok S
  context : verifyContext db p S = .ok ctx

theorem Computes.spentTokens_eq {db : BatchDbData} {validTxs : Column TxNum TokenTx}
    (h : Computes db validTxs p S ctx) : ctx.spentTokens = S :=
  spentTokens_of_verifyContext h.context

theorem verifyTokenTx_eq_ok {s s' : BatchState} :
    verifyTokenTx s p = .ok s' ↔ ∃ S ctx, Computes s.db s.processed.validTxs p S ctx ∧
      if isStored p S (ctx.verify p.colored) then
        ∃ d, tokenTxToDb (tokenLinks (addNewToken s p.tx.txNum
              (newToken (ctx.verify p.colored))).db.tokenMetas (ctx.verify p.colored).entries) S
            (ctx.verify p.colored) (hasMintVault p (ctx.verify p.colored)) = .ok d ∧
          s' = storeTokenTx (addNewToken s p.tx.txNum (newToken (ctx.verify p.colored))) p.tx.txNum
            d (ctx.verify p.colored) S
      else s' = s := by
  unfold verifyTokenTx
  constructor
  · intro h
    obtain ⟨S, hS, h⟩ := bind_eq_ok.mp h
    obtain ⟨ctx, hCtx, h⟩ := bind_eq_ok.mp h
    refine ⟨S, ctx, ⟨hS, hCtx⟩, ?_⟩
    dsimp only at h
    split at h
    · next hStored =>
      obtain ⟨d, hd, h⟩ := bind_eq_ok.mp h
      rw [if_pos hStored]
      exact ⟨d, hd, (pure_eq_ok.mp h).symm⟩
    · next hStored =>
      rw [if_neg hStored]
      exact (pure_eq_ok.mp h).symm
  · rintro ⟨S, ctx, ⟨hS, hCtx⟩, h⟩
    refine bind_eq_ok.mpr ⟨S, hS, bind_eq_ok.mpr ⟨ctx, hCtx, ?_⟩⟩
    dsimp only
    split at h
    · next hStored =>
      obtain ⟨d, hd, rfl⟩ := h
      rw [if_pos hStored]
      exact bind_eq_ok.mpr ⟨d, hd, rfl⟩
    · next hStored =>
      rw [if_neg hStored, h]
      rfl

/-- What the state says about a transaction once it was verified. -/
structure Recorded (s : BatchState) (p : PreparedTx) (S : List (Option SpentToken))
    (ctx : VerifyContext) : Prop where
  valid : s.processed.validTxs[p.tx.txNum]? =
    if isStored p S (ctx.verify p.colored) then some (ctx.verify p.colored) else none
  spent : s.processed.spentTokens[p.tx.txNum]? =
    if isStored p S (ctx.verify p.colored) then some S else none
  -- the tokens that were known at the time
  dbTx : if isStored p S (ctx.verify p.colored) then
      ∃ B d, (∀ q ∈ B, q ∈ s.db.tokenMetas) ∧ AllGood B S ∧ Creates B ctx p.colored ∧
        tokenTxToDb (tokenLinks B (ctx.verify p.colored).entries) S (ctx.verify p.colored)
          (hasMintVault p (ctx.verify p.colored)) = .ok d ∧
        s.processed.dbTokenTxs[p.tx.txNum]? = some d
    else s.processed.dbTokenTxs[p.tx.txNum]? = none
  new : ∀ m info, (p.tx.txNum, m, info) ∈ s.processed.newTokens ↔
    newToken (ctx.verify p.colored) = some (m, info)

/-- A transaction that creates a token is stored. -/
theorem isStored_of_newToken {x : TokenMeta × GenesisInfo}
    (h : newToken (ctx.verify p.colored) = some x) :
    isStored p S (ctx.verify p.colored) = true := by
  have hInfo := (newToken_verify.mp h).2.1
  simp [isStored, hInfo]

/-- A valid `GENESIS` is the first section, so its token is the new one. -/
theorem newToken_of_genesis {s : ColoredTxSection} (hs : s ∈ p.colored.sections)
    (hType : s.txType = .genesis) (hValid : ctx.SectionValid s) :
    ∃ info, newToken (ctx.verify p.colored) = some (s.tokenMeta, info) := by
  obtain ⟨k, hk⟩ := mem_iff_getElem?.mp hs
  have hZero := p.wellFormed.genesis_first k s hk hType
  rw [hZero, p.getElem?_zero_sections] at hk
  cases hk
  have hwf := p.wellFormed.section_wf _ hs
  simp only [ColoredTxSection.WellFormed, hType] at hwf
  obtain ⟨info, hInfo⟩ := Option.isSome_iff_exists.mp hwf.2.2
  exact ⟨info, newToken_verify.mpr ⟨hValid, hInfo, rfl⟩⟩

/-- The new token is named after the transaction. -/
theorem tokenId_of_newToken {info : GenesisInfo}
    (h : newToken (ctx.verify p.colored) = some (m, info)) :
    m.tokenId = p.tx.tx.txid ∧ m.tokenType.isKnown = true := by
  obtain ⟨_, hInfo, rfl⟩ := newToken_verify.mp h
  have hwf := p.wellFormed.section_wf _ p.firstSection_mem
  -- only a `GENESIS` has a genesis info
  unfold ColoredTxSection.WellFormed at hwf
  rw [hInfo] at hwf
  split at hwf
  · exact ⟨hwf.1, hwf.2.1⟩
  · cases hwf.2
  · cases hwf.2
  · cases hwf.2.2
  · exact hwf.elim

/-! ## The loop -/

/-- What the database gives to the batch: it does not know the transactions of
the batch yet, and the tokens on its outputs are good. -/
structure BaseOk (base : BatchDbData) (b : BatchProcessor) : Prop where
  nodup_nums : (b.preparedTxs.map fun p => p.tx.txNum).Nodup
  nodup_txids : (b.preparedTxs.map fun p => p.tx.tx.txid).Nodup
  nums : ∀ p ∈ b.preparedTxs, ∀ m, (p.tx.txNum, m) ∉ base.tokenMetas
  txids : ∀ p ∈ b.preparedTxs, ∀ n m, (n, m) ∈ base.tokenMetas → m.tokenId ≠ p.tx.tx.txid
  listed : ∀ (n : TxNum) (d : DbTokenTx), base.tokenTxs[n]? = some d →
    ∀ p ∈ b.preparedTxs, p.tx.txNum ∉ d.tokenTxNums
  good : ∀ (n : TxNum) (d : DbTokenTx), base.tokenTxs[n]? = some d → ∀ t ∈ d.outputs, ∀ s,
    d.spentToken t (batchMeta base) = .ok (some s) → GoodSpent base.tokenMetas s

/-- The transaction spends nothing of the token that is named after it. -/
def NotOwn (p : PreparedTx) (S : List (Option SpentToken)) : Prop :=
  ∀ t, some t ∈ S → (∀ byte, t.token.variant ≠ .unknown byte) →
    t.token.tokenMeta.tokenId ≠ p.tx.tx.txid

/-- A transaction that was verified with spent tokens `S`. -/
structure Verified (base : BatchDbData) (s : BatchState) (p : PreparedTx)
    (S : List (Option SpentToken)) (ctx : VerifyContext) : Prop where
  computes : Computes base s.processed.validTxs p S ctx
  good : AllGood s.db.tokenMetas S
  notOwn : NotOwn p S
  recorded : Recorded s p S ctx

/-- The state of the loop after the transactions `done`. -/
structure BatchInv (base : BatchDbData) (b : BatchProcessor) (done : List TxNum)
    (s : BatchState) : Prop where
  tokenTxs : s.db.tokenTxs = base.tokenTxs
  infos : s.db.genesisInfos = base.genesisInfos
  metas : ∀ n m, (n, m) ∈ s.db.tokenMetas ↔
    (n, m) ∈ base.tokenMetas ∨ ∃ info, (n, m, info) ∈ s.processed.newTokens
  outside : ∀ n, n ∉ done → s.processed.validTxs[n]? = none ∧ s.processed.spentTokens[n]? = none ∧
    s.processed.dbTokenTxs[n]? = none ∧ ∀ x ∈ s.processed.newTokens, x.1 ≠ n
  nodup : (s.processed.newTokens.map Prod.fst).Nodup
  prepared : ∀ n ∈ done, ∃ p ∈ b.preparedTxs, p.tx.txNum = n
  closed : ∀ p ∈ b.preparedTxs, p.tx.txNum ∈ done → ∀ n ∈ p.tx.inputNums,
    (∃ q ∈ b.preparedTxs, q.tx.txNum = n) → n ∈ done
  verified : ∀ p ∈ b.preparedTxs, p.tx.txNum ∈ done → ∃ S ctx, Verified base s p S ctx

section Loop

/-- The state before the loop. -/
abbrev BatchState.start (base : BatchDbData) : BatchState :=
  ⟨base, { ProcessedTokenTxBatch.empty with didValidation := true }⟩

variable {base : BatchDbData} {b : BatchProcessor} {done : List TxNum} {s s' : BatchState}

theorem BatchInv.start : BatchInv base b [] (.start base) where
  tokenTxs := rfl
  infos := rfl
  metas n m := by simp [ProcessedTokenTxBatch.empty]
  outside n _ := ⟨rfl, rfl, rfl, fun x hx => absurd hx not_mem_nil⟩
  nodup := nodup_nil
  prepared n hn := absurd hn not_mem_nil
  closed p _ hDone := absurd hDone not_mem_nil
  verified p _ hDone := absurd hDone not_mem_nil

variable {n : TxNum}

variable (h : BatchInv base b done s)
include h

/-- A recorded new token belongs to a transaction that is done. -/
theorem BatchInv.exists_of_new {info : GenesisInfo} (hNew : (n, m, info) ∈ s.processed.newTokens) :
    ∃ p ∈ b.preparedTxs, p.tx.txNum = n ∧ n ∈ done ∧ m.tokenId = p.tx.tx.txid ∧
      m.tokenType.isKnown = true := by
  have hDone : n ∈ done := by
    by_contra hNot
    exact (h.outside n hNot).2.2.2 _ hNew rfl
  obtain ⟨p, hp, rfl⟩ := h.prepared n hDone
  obtain ⟨S, ctx, hVerified⟩ := h.verified p hp hDone
  exact ⟨p, hp, rfl, hDone, tokenId_of_newToken ((hVerified.recorded.new m info).mp hNew)⟩

theorem BatchInv.sub : ∀ q ∈ base.tokenMetas, q ∈ s.db.tokenMetas :=
  fun q hq => (h.metas q.1 q.2).mpr (.inl hq)

/-- The metas of transactions outside of the batch are those of the database. -/
theorem BatchInv.batchMeta_eq (hn : ∀ p ∈ b.preparedTxs, p.tx.txNum ≠ n) :
    batchMeta s.db n = batchMeta base n := by
  have hGet : s.db.tokenMetas.getByLeft n = base.tokenMetas.getByLeft n := by
    refine Option.ext fun m => ?_
    rw [BiMap.getByLeft_eq_some, BiMap.getByLeft_eq_some, h.metas]
    refine ⟨fun hMem => hMem.elim id ?_, .inl⟩
    rintro ⟨info, hNew⟩
    obtain ⟨p, hp, hNum, _⟩ := h.exists_of_new hNew
    exact absurd hNum (hn p hp)
  rw [batchMeta, batchMeta, hGet]

/-- So outputs hold what they hold given the database before the batch. -/
theorem BatchInv.tokenOutput_eq (hBase : BaseOk base b) (validTxs : Column TxNum TokenTx)
    (n : TxNum) (i : Nat) : tokenOutput s.db validTxs n i = tokenOutput base validTxs n i := by
  unfold tokenOutput
  rw [h.tokenTxs]
  cases validTxs[n]? with
  | some tokenTx => rfl
  | none =>
    cases hd : base.tokenTxs[n]? with
    | none => rfl
    | some d =>
      have hCongr := DbTokenTx.spentToken_congr
        (show ∀ x ∈ d.tokenTxNums, batchMeta s.db x = batchMeta base x from fun x hx =>
          h.batchMeta_eq fun p hp hNum => hBase.listed n d hd p hp (hNum ▸ hx))
      simp only [hCongr]

theorem BatchInv.txTokenInputs_eq (hBase : BaseOk base b) (validTxs : Column TxNum TokenTx)
    (tx : IndexTx) : txTokenInputs s.db validTxs tx = txTokenInputs base validTxs tx := by
  unfold txTokenInputs
  split
  · rfl
  · exact mapM_congr fun a _ => h.tokenOutput_eq hBase validTxs a.1 a.2.prevOut.outIdx

theorem BatchInv.verifyContext_eq (p : PreparedTx) (S : List (Option SpentToken)) :
    verifyContext s.db p S = verifyContext base p S := by
  unfold verifyContext
  rw [h.infos]

/-! ### Good tokens -/

theorem BatchInv.creates (hRec : Recorded s p S ctx) : Creates s.db.tokenMetas ctx p.colored := by
  intro sec hSec hType hValid
  obtain ⟨info, hNew⟩ := newToken_of_genesis hSec hType hValid
  exact ⟨p.tx.txNum, (h.metas _ _).mpr (.inr ⟨info, (hRec.new _ info).mpr hNew⟩)⟩

/-- The tokens on the outputs of a recorded transaction are good. -/
theorem BatchInv.good_valid (hp : p ∈ b.preparedTxs) (hDone : p.tx.txNum ∈ done) {validTx : TokenTx}
    (hValid : s.processed.validTxs[p.tx.txNum]? = some validTx) {i : Nat} {o : TokenOutput}
    (ho : validTx.outputs[i]? = some (some o)) {t : SpentToken}
    (ht : validTx.spentToken o = some t) : GoodSpent s.db.tokenMetas t := by
  obtain ⟨S, ctx, hComp, hGood, _, hRec⟩ := h.verified p hp hDone
  have hSpent := hComp.spentTokens_eq
  rw [hRec.valid] at hValid
  split at hValid
  · next hStored =>
    cases hValid
    have hDb := hRec.dbTx
    rw [if_pos hStored] at hDb
    obtain ⟨B, d, hSub, hGoodB, hCreates, hd, _⟩ := hDb
    rw [← hSpent] at hGoodB hGood
    have hLinks := linksOf_tokenLinks (groupedEntries_verify p.wellFormed hGoodB hCreates)
    refine goodSpent_output p.wellFormed hGood (h.creates hRec) ho ht fun hKnown => ?_
    -- the transaction was stored, so the token is listed
    obtain ⟨x, hx, hRel⟩ :=
      Forall₂.exists_right (stores_of_tokenTxToDb hd).outputs (mem_of_getElem? ho)
    obtain ⟨hNone, _⟩ | ⟨o', t', hSome, ht', hToken⟩ := hRel
    · cases hNone
    · cases hSome
      cases ht.symm.trans ht'
      have hVariant : t.token.variant = o.variant := by
        obtain ⟨e, _, rfl⟩ := Option.map_eq_some_iff.mp ht
        rfl
      have hListed := mem_of_toDbToken hLinks.nodup hToken fun byte => hVariant ▸ hKnown byte
      exact ((hLinks.metas _).mp hListed).1.mono hSub
  · cases hValid

theorem BatchInv.good_output (hBase : BaseOk base b) {i : Nat} {t : SpentToken}
    (ht : tokenOutput base s.processed.validTxs n i = .ok (some t)) :
    GoodSpent s.db.tokenMetas t := by
  unfold tokenOutput at ht
  split at ht
  · next validTx hValid =>
    have hDone : n ∈ done := by
      by_contra hNot
      rw [(h.outside n hNot).1] at hValid
      cases hValid
    obtain ⟨p, hp, rfl⟩ := h.prepared n hDone
    split at ht
    · next o ho =>
      obtain ⟨t', ht', hEq⟩ := map_eq_ok.mp ht
      cases hEq
      exact h.good_valid hp hDone hValid ho (orElse_eq_ok.mp ht')
    · cases ht
  · split at ht
    · cases ht
    · next d hd =>
      obtain ⟨x, hx, ht⟩ := bind_eq_ok.mp ht
      have hMem := mem_of_getElem? (orElse_eq_ok.mp hx)
      exact (hBase.good n d hd x hMem t ht).mono h.sub

theorem BatchInv.good_inputs (hBase : BaseOk base b) {tx : IndexTx}
    (hS : txTokenInputs base s.processed.validTxs tx = .ok S) : AllGood s.db.tokenMetas S := by
  intro t ht
  unfold txTokenInputs at hS
  split at hS
  · cases hS
    cases eq_of_mem_replicate ht
  · obtain ⟨a, _, ha⟩ := Forall₂.exists_left (mapM_eq_ok.mp hS) ht
    exact h.good_output hBase ha

omit h

/-! ### One iteration -/

theorem mem_addNewToken {x : Option (TokenMeta × GenesisInfo)}
    (hNum : ∀ m, (n, m) ∉ s.db.tokenMetas)
    (hMeta : ∀ m info, x = some (m, info) → ∀ k, (k, m) ∉ s.db.tokenMetas) {k : TxNum} :
    (k, m) ∈ (addNewToken s n x).db.tokenMetas ↔
      (k, m) ∈ s.db.tokenMetas ∨ (k = n ∧ ∃ info, x = some (m, info)) := by
  cases x with
  | none => simp [addNewToken]
  | some x =>
    obtain ⟨m', info⟩ := x
    -- nothing is replaced, both sides are new
    have hKeep : (k, m) ∈ s.db.tokenMetas → k ≠ n ∧ m ≠ m' := by
      intro hMem
      constructor
      · rintro rfl
        exact hNum m hMem
      · rintro rfl
        exact hMeta m info rfl k hMem
    refine BiMap.mem_insert.trans ?_
    constructor
    · rintro (⟨rfl, rfl⟩ | ⟨hMem, _⟩)
      · exact .inr ⟨rfl, info, rfl⟩
      · exact .inl hMem
    · rintro (hMem | ⟨rfl, info', hEq⟩)
      · exact .inr ⟨hMem, hKeep hMem⟩
      · cases hEq
        exact .inl ⟨rfl, rfl⟩

/-- Besides the token metas and the list of new tokens nothing changes. -/
theorem addNewToken_eq (s : BatchState) (n : TxNum) (x : Option (TokenMeta × GenesisInfo)) :
    addNewToken s n x =
      ⟨{ s.db with tokenMetas := (addNewToken s n x).db.tokenMetas },
        { s.processed with newTokens := s.processed.newTokens ++ x.toList.map fun y => (n, y) }⟩ := by
  cases x with
  | none => simp [addNewToken]
  | some x => rfl

/-- What an iteration changes. -/
structure After (s : BatchState) (p : PreparedTx) (S : List (Option SpentToken))
    (ctx : VerifyContext) (s' : BatchState) : Prop where
  tokenTxs : s'.db.tokenTxs = s.db.tokenTxs
  infos : s'.db.genesisInfos = s.db.genesisInfos
  metas : ∀ n m, (n, m) ∈ s'.db.tokenMetas ↔ (n, m) ∈ s.db.tokenMetas ∨
    (n = p.tx.txNum ∧ ∃ info, newToken (ctx.verify p.colored) = some (m, info))
  newTokens : s'.processed.newTokens = s.processed.newTokens ++
    (newToken (ctx.verify p.colored)).toList.map fun x => (p.tx.txNum, x)
  others : ∀ n, n ≠ p.tx.txNum → s'.processed.validTxs[n]? = s.processed.validTxs[n]? ∧
    s'.processed.spentTokens[n]? = s.processed.spentTokens[n]? ∧
    s'.processed.dbTokenTxs[n]? = s.processed.dbTokenTxs[n]?
  recorded : Recorded s' p S ctx

/-- Neither the number nor the txid of the next transaction is known yet. -/
theorem BatchInv.fresh (hBase : BaseOk base b) (h : BatchInv base b done s) (hp : p ∈ b.preparedTxs)
    (hNot : p.tx.txNum ∉ done) (hMem : (n, m) ∈ s.db.tokenMetas) :
    n ≠ p.tx.txNum ∧ m.tokenId ≠ p.tx.tx.txid := by
  obtain hMem | ⟨info, hNew⟩ := (h.metas n m).mp hMem
  · refine ⟨?_, hBase.txids p hp n m hMem⟩
    rintro rfl
    exact hBase.nums p hp m hMem
  · obtain ⟨q, hq, rfl, hDone, hId, _⟩ := h.exists_of_new hNew
    refine ⟨fun hEq => hNot (hEq ▸ hDone), fun hEq => hNot ?_⟩
    rw [← inj_on_of_nodup_map hBase.nodup_txids hq hp (hId.symm.trans hEq)]
    exact hDone

/-- The tokens that are known while a transaction is stored: its own one is among them. -/
structure KnownNext (s : BatchState) (p : PreparedTx) (S : List (Option SpentToken))
    (ctx : VerifyContext) (B : BiMap TxNum TokenMeta) : Prop where
  mem : ∀ k m, (k, m) ∈ B ↔ (k, m) ∈ s.db.tokenMetas ∨
    (k = p.tx.txNum ∧ ∃ info, newToken (ctx.verify p.colored) = some (m, info))
  good : AllGood B S
  creates : Creates B ctx p.colored

theorem BatchInv.knownNext (hBase : BaseOk base b) (h : BatchInv base b done s)
    (hp : p ∈ b.preparedTxs) (hNot : p.tx.txNum ∉ done)
    (hComp : Computes base s.processed.validTxs p S ctx) :
    KnownNext s p S ctx
      (addNewToken s p.tx.txNum (newToken (ctx.verify p.colored))).db.tokenMetas := by
  have hMem : ∀ k m, (k, m) ∈ (addNewToken s p.tx.txNum
        (newToken (ctx.verify p.colored))).db.tokenMetas ↔ (k, m) ∈ s.db.tokenMetas ∨
      (k = p.tx.txNum ∧ ∃ info, newToken (ctx.verify p.colored) = some (m, info)) :=
    fun k m => mem_addNewToken (fun m hm => (h.fresh hBase hp hNot hm).1 rfl)
      fun m info hNew k hm => (h.fresh hBase hp hNot hm).2 (tokenId_of_newToken hNew).1
  refine ⟨hMem, (h.good_inputs hBase hComp.inputs).mono fun q hq => (hMem _ _).mpr (.inl hq), ?_⟩
  intro sec hSec hType hSecValid
  obtain ⟨info, hNew⟩ := newToken_of_genesis hSec hType hSecValid
  exact ⟨p.tx.txNum, (hMem _ _).mpr (.inr ⟨rfl, info, hNew⟩)⟩

theorem BatchInv.after (hBase : BaseOk base b) (h : BatchInv base b done s) (hp : p ∈ b.preparedTxs)
    (hNot : p.tx.txNum ∉ done) (hStep : verifyTokenTx s p = .ok s') :
    ∃ S ctx, Computes base s.processed.validTxs p S ctx ∧ AllGood s.db.tokenMetas S ∧
      NotOwn p S ∧ After s p S ctx s' := by
  obtain ⟨S, ctx, hComp, hStep⟩ := verifyTokenTx_eq_ok.mp hStep
  have hComp : Computes base s.processed.validTxs p S ctx :=
    ⟨(h.txTokenInputs_eq hBase _ _).symm.trans hComp.inputs,
      (h.verifyContext_eq p S).symm.trans hComp.context⟩
  have hGood := h.good_inputs hBase hComp.inputs
  have hNotOwn : NotOwn p S := by
    intro t ht hKnown
    obtain ⟨n, hMem⟩ := (hGood t ht).created hKnown
    exact (h.fresh hBase hp hNot hMem).2
  refine ⟨S, ctx, hComp, hGood, hNotOwn, ?_⟩
  obtain ⟨hValid, hSpent, hDbTx, hOld⟩ := h.outside _ hNot
  have hOld : ∀ y, (p.tx.txNum, y) ∉ s.processed.newTokens := fun y hy => hOld _ hy rfl
  split at hStep
  · next hStored =>
    obtain ⟨d, hd, rfl⟩ := hStep
    have hKnown := h.knownNext hBase hp hNot hComp
    generalize hB : (addNewToken s p.tx.txNum
      (newToken (ctx.verify p.colored))).db.tokenMetas = B at hd hKnown
    rw [addNewToken_eq, hB]
    refine ⟨rfl, rfl, hKnown.mem, rfl, fun n hn => ?_, ?_⟩
    · refine ⟨?_, ?_, ?_⟩
      all_goals exact (Column.getElem?_insert ..).trans (if_neg (Ne.symm hn))
    · refine ⟨?_, ?_, ?_, fun m info => ?_⟩
      · rw [if_pos hStored]
        exact (Column.getElem?_insert ..).trans (if_pos rfl)
      · rw [if_pos hStored]
        exact (Column.getElem?_insert ..).trans (if_pos rfl)
      · rw [if_pos hStored]
        exact ⟨B, d, fun q hq => hq, hKnown.good, hKnown.creates, hd,
          (Column.getElem?_insert ..).trans (if_pos rfl)⟩
      · refine mem_append.trans ((or_iff_right (hOld (m, info))).trans ?_)
        simp
  · next hStored =>
    subst hStep
    have hNone : newToken (ctx.verify p.colored) = none :=
      Option.eq_none_iff_forall_ne_some.mpr fun x hx => hStored (isStored_of_newToken hx)
    refine ⟨rfl, rfl, fun n m => ?_, ?_, fun n _ => ⟨rfl, rfl, rfl⟩, ?_⟩
    · simp [hNone]
    · simp [hNone]
    · refine ⟨?_, ?_, ?_, fun m info => ?_⟩
      · rw [if_neg hStored, hValid]
      · rw [if_neg hStored, hSpent]
      · rw [if_neg hStored, hDbTx]
      · rw [hNone]
        exact ⟨fun hMem => absurd hMem (hOld _), nofun⟩

/-- What is recorded stays recorded. -/
theorem Recorded.mono {p q : PreparedTx} {S Sq : List (Option SpentToken)}
    {ctx ctxq : VerifyContext} (h : Recorded s q Sq ctxq) (hAfter : After s p S ctx s')
    (hNe : q.tx.txNum ≠ p.tx.txNum) : Recorded s' q Sq ctxq := by
  obtain ⟨hValid, hSpent, hDb⟩ := hAfter.others _ hNe
  refine ⟨hValid.trans h.valid, hSpent.trans h.spent, ?_, fun m info => ?_⟩
  · have hDbTx := h.dbTx
    rw [hDb]
    split at hDbTx
    · next hStored =>
      obtain ⟨B, d, hSub, hRest⟩ := hDbTx
      rw [if_pos hStored]
      exact ⟨B, d, fun x hx => (hAfter.metas x.1 x.2).mpr (.inl (hSub x hx)), hRest⟩
    · next hStored =>
      rw [if_neg hStored]
      exact hDbTx
  · rw [hAfter.newTokens, mem_append, ← h.new m info, or_iff_left]
    intro hMem
    obtain ⟨x, _, hEq⟩ := mem_map.mp hMem
    exact hNe (congrArg Prod.fst hEq).symm

/-- What a transaction computes depends on the transactions it spends from. -/
theorem Computes.congr {validTxs validTxs' : Column TxNum TokenTx}
    (h : Computes base validTxs p S ctx)
    (hSame : ∀ n ∈ p.tx.inputNums, validTxs'[n]? = validTxs[n]?) :
    Computes base validTxs' p S ctx := by
  refine ⟨Eq.trans ?_ h.inputs, h.context⟩
  unfold txTokenInputs
  split
  · rfl
  · refine mapM_congr fun a ha => ?_
    have hNum := hSame a.1 (of_mem_zip ha).1
    dsimp only [tokenOutput]
    rw [hNum]

theorem BatchInv.step (hBase : BaseOk base b) (h : BatchInv base b done s) (hp : p ∈ b.preparedTxs)
    (hNot : p.tx.txNum ∉ done)
    (hParents : ∀ n ∈ p.tx.inputNums, (∃ q ∈ b.preparedTxs, q.tx.txNum = n) → n ∈ done)
    (hStep : verifyTokenTx s p = .ok s') : BatchInv base b (done ++ [p.tx.txNum]) s' := by
  obtain ⟨S, ctx, hComp, hGood, hNotOwn, hAfter⟩ := h.after hBase hp hNot hStep
  have hSub : ∀ q ∈ s.db.tokenMetas, q ∈ s'.db.tokenMetas :=
    fun q hq => (hAfter.metas q.1 q.2).mpr (.inl hq)
  -- transactions with their parents done do not spend from this one
  have hSame : ∀ nums : List TxNum,
      (∀ n ∈ nums, (∃ q ∈ b.preparedTxs, q.tx.txNum = n) → n ∈ done) →
      ∀ n ∈ nums, s'.processed.validTxs[n]? = s.processed.validTxs[n]? := by
    intro nums hNums n hn
    refine (hAfter.others n ?_).1
    rintro rfl
    exact hNot (hNums _ hn ⟨p, hp, rfl⟩)
  have hOnly : ∀ q ∈ b.preparedTxs, q.tx.txNum ∈ done ++ [p.tx.txNum] →
      q.tx.txNum ∈ done ∨ q = p := by
    intro q hq hMem
    obtain hMem | hMem := mem_append.mp hMem
    · exact .inl hMem
    · exact .inr (inj_on_of_nodup_map hBase.nodup_nums hq hp (mem_singleton.mp hMem))
  constructor
  · exact hAfter.tokenTxs.trans h.tokenTxs
  · exact hAfter.infos.trans h.infos
  · intro n m
    rw [hAfter.metas, h.metas, hAfter.newTokens, or_assoc, ← exists_and_left, ← exists_or]
    simp [eq_comm, and_comm]
  · intro n hn
    rw [mem_append, mem_singleton, not_or] at hn
    obtain ⟨hValid, hSpent, hDb⟩ := hAfter.others n hn.2
    obtain ⟨hValid', hSpent', hDb', hNew⟩ := h.outside n hn.1
    refine ⟨hValid.trans hValid', hSpent.trans hSpent', hDb.trans hDb', fun x hx => ?_⟩
    rw [hAfter.newTokens] at hx
    obtain hx | hx := mem_append.mp hx
    · exact hNew x hx
    · obtain ⟨y, _, rfl⟩ := mem_map.mp hx
      exact Ne.symm hn.2
  · rw [hAfter.newTokens, map_append]
    refine nodup_append.mpr ⟨h.nodup, ?_, fun n hn n' hn' => ?_⟩
    · cases newToken (ctx.verify p.colored) <;> simp
    · obtain ⟨x, hx, rfl⟩ := mem_map.mp hn
      obtain ⟨_, hy, rfl⟩ := mem_map.mp hn'
      obtain ⟨y, _, rfl⟩ := mem_map.mp hy
      exact (h.outside _ hNot).2.2.2 x hx
  · intro n hn
    obtain hn | hn := mem_append.mp hn
    · exact h.prepared n hn
    · exact ⟨p, hp, (mem_singleton.mp hn).symm⟩
  · intro q hq hMem n hn hNode
    obtain hMem | rfl := hOnly q hq hMem
    · exact mem_append_left _ (h.closed q hq hMem n hn hNode)
    · exact mem_append_left _ (hParents n hn hNode)
  · intro q hq hMem
    obtain hMem | rfl := hOnly q hq hMem
    · obtain ⟨Sq, ctxq, hQ⟩ := h.verified q hq hMem
      have hNe : q.tx.txNum ≠ p.tx.txNum := fun hEq => hNot (hEq ▸ hMem)
      exact ⟨Sq, ctxq, hQ.computes.congr (hSame _ (h.closed q hq hMem)), hQ.good.mono hSub,
        hQ.notOwn, hQ.recorded.mono hAfter hNe⟩
    · exact ⟨S, ctx, hComp.congr (hSame _ hParents), hGood.mono hSub, hNotOwn, hAfter.recorded⟩

/-! ### The whole loop -/

theorem mem_graph : n ∈ b.graph.map Prod.fst ↔ ∃ p ∈ b.preparedTxs, p.tx.txNum = n := by
  simp [graph]

variable {rest : List TxNum}

/-- The transaction that an iteration takes. -/
theorem verifyByNum_eq (hBase : BaseOk base b) (hp : p ∈ b.preparedTxs) :
    b.verifyByNum s p.tx.txNum = verifyTokenTx s p := by
  have hFind : b.preparedTxs.find? (fun q => q.tx.txNum = p.tx.txNum) = some p := by
    cases hGet : b.preparedTxs.find? (fun q => q.tx.txNum = p.tx.txNum) with
    | none => exact absurd (decide_eq_true rfl) (find?_eq_none.mp hGet p hp)
    | some q =>
      have hNum : q.tx.txNum = p.tx.txNum := by simpa using find?_some hGet
      exact congrArg some (inj_on_of_nodup_map hBase.nodup_nums
        (mem_of_find?_eq_some hGet) hp hNum)
  rw [verifyByNum, hFind]
  rfl

theorem nodup_graph (hBase : BaseOk base b) : (b.graph.map Prod.fst).Nodup := by
  have hMap : b.graph.map Prod.fst = b.preparedTxs.map fun p => p.tx.txNum := by simp [graph]
  exact hMap ▸ hBase.nodup_nums

/-- The rest of an order, given its first part. -/
structure Prefix (b : BatchProcessor) (done rest : List TxNum) : Prop where
  nodup : (done ++ rest).Nodup
  parents : ParentsFirst b.graph done rest
  nodes : ∀ n ∈ rest, ∃ p ∈ b.preparedTxs, p.tx.txNum = n

variable {order : List TxNum}

theorem Prefix.of_order (hBase : BaseOk base b) (hOrder : IsTopoOrder b.graph order) :
    Prefix b [] order where
  nodup := by
    exact hOrder.perm.nodup_iff.mpr (nodup_graph hBase)
  parents := hOrder.parents
  nodes n hn := mem_graph.mp (hOrder.perm.mem_iff.mp hn)

theorem Prefix.next (hp : p ∈ b.preparedTxs) (h : Prefix b done (p.tx.txNum :: rest)) :
    p.tx.txNum ∉ done ∧
      (∀ n ∈ p.tx.inputNums, (∃ q ∈ b.preparedTxs, q.tx.txNum = n) → n ∈ done) ∧
      Prefix b (done ++ [p.tx.txNum]) rest := by
  refine ⟨?_, ?_, ?_, h.parents.2, fun n hn => h.nodes n (mem_cons_of_mem _ hn)⟩
  · intro hDone
    exact (nodup_append.mp h.nodup).2.2 _ hDone _ mem_cons_self rfl
  · intro n hn hNode
    exact h.parents.1 _ (mem_map.mpr ⟨p, hp, rfl⟩) rfl n hn (mem_graph.mpr hNode)
  · rw [append_assoc, singleton_append]
    exact h.nodup

/-- Taking the remaining transactions in an order with parents first. -/
theorem BatchInv.run (hBase : BaseOk base b) (h : BatchInv base b done s) (hRest : Prefix b done rest)
    (hRun : rest.foldlM b.verifyByNum s = .ok s') : BatchInv base b (done ++ rest) s' := by
  induction rest generalizing done s with
  | nil =>
    cases pure_eq_ok.mp hRun
    rwa [append_nil]
  | cons n rest ih =>
    obtain ⟨p, hp, rfl⟩ := hRest.nodes n mem_cons_self
    obtain ⟨s₁, hStep, hRun⟩ := bind_eq_ok.mp hRun
    rw [verifyByNum_eq hBase hp] at hStep
    obtain ⟨hNot, hFirst, hNext⟩ := hRest.next hp
    rw [← singleton_append, ← append_assoc]
    exact ih (h.step hBase hp hNot hFirst hStep) hNext hRun

/-- **After the loop** every token transaction is recorded as verification
says, whatever topological order was taken. -/
theorem batchInv_of_order (hBase : BaseOk base b) (hOrder : IsTopoOrder b.graph order)
    (hRun : order.foldlM b.verifyByNum (.start base) = .ok s) :
    BatchInv base b order s ∧ ∀ p ∈ b.preparedTxs, p.tx.txNum ∈ order := by
  refine ⟨BatchInv.start.run hBase (.of_order hBase hOrder) hRun, fun p hp => ?_⟩
  exact hOrder.perm.mem_iff.mpr (mem_graph.mpr ⟨p, hp, rfl⟩)

/-! ### Both loops -/

theorem processNonTokenTx_eq_ok {tx : IndexTx} :
    processNonTokenTx s tx = .ok s' ↔
      ∃ n, (tx.inputNums.zip tx.tx.inputs).foldlM (addNonTokenInput s) ⟨[], ∅, []⟩ = .ok n ∧
        if n.inputs.any (fun input => input ≠ .noToken) then
          ∃ S, txTokenInputs s.db s.processed.validTxs tx = .ok S ∧
            s' = { s with processed := { s.processed with
              dbTokenTxs := s.processed.dbTokenTxs.insert tx.txNum
                ⟨n.tokenTxNums, n.groupTokenIndices, n.inputs,
                  List.replicate tx.tx.outputs.length .noToken, 0⟩
              spentTokens := s.processed.spentTokens.insert tx.txNum S } }
        else s' = s := by
  refine bind_eq_ok.trans (exists_congr fun n => and_congr_right fun _ => ?_)
  split
  · refine bind_eq_ok.trans (exists_congr fun S => and_congr_right fun _ => ?_)
    exact pure_eq_ok.trans eq_comm
  · exact pure_eq_ok.trans eq_comm

theorem verify_eq_ok {batch : ProcessedTokenTxBatch} :
    b.verify (some order) base = .ok batch ↔ ∃ s s',
      order.foldlM b.verifyByNum (.start base) = .ok s ∧
      b.nonTokenTxs.foldlM processNonTokenTx s = .ok s' ∧ batch = s'.processed := by
  show (order.foldlM b.verifyByNum (.start base) >>= fun s =>
    b.nonTokenTxs.foldlM processNonTokenTx s >>= fun s => pure s.processed) = _ ↔ _
  constructor
  · intro h
    obtain ⟨s, hTokens, h⟩ := bind_eq_ok.mp h
    obtain ⟨s', hOthers, h⟩ := bind_eq_ok.mp h
    exact ⟨s, s', hTokens, hOthers, (pure_eq_ok.mp h).symm⟩
  · rintro ⟨s, s', hTokens, hOthers, rfl⟩
    exact bind_eq_ok.mpr ⟨s, hTokens, bind_eq_ok.mpr ⟨s', hOthers, rfl⟩⟩

end Loop

end BatchProcessor

end Ergon
