import Ergon.Token.Copy

/-!
# Ergon — inserting a block into the token columns

`TokenDb.insert` over a database and a list of transactions that it does not
know yet (`FreshTxs`).

* `baseOk_of_loaded` — what is loaded is fit for the loop of `BatchInv`;
* `NonTokenInv.step` — the loop over the transactions without payload;
* `exists_processed` — the result of both loops (`Processed`).
-/

namespace Ergon

open Lib List

/-- The transactions of a block as they reach the token index: numbered and
named once, and new to the database. -/
structure TokenDb.FreshTxs (db : TokenDb) (txs : List IndexTx) : Prop where
  nums : (txs.map fun tx => tx.txNum).Nodup
  txids : (txs.map fun tx => tx.tx.txid).Nodup
  coinbase : ∀ tx ∈ txs, tx.isCoinbase = true → tx.inputNums = []
  noMeta : ∀ tx ∈ txs, db.tokenMeta[tx.txNum]? = none
  noTx : ∀ tx ∈ txs, db.tokenTx[tx.txNum]? = none
  noToken : ∀ tx ∈ txs, ∀ (n : TxNum) (m : TokenMeta), db.tokenMeta[n]? = some m →
    m.tokenId ≠ tx.tx.txid

/-- Stored groups are groups of NFTs. -/
def TokenDb.GroupsTyped (db : TokenDb) : Prop :=
  ∀ (n : TxNum) (d : DbTokenTx), db.tokenTx[n]? = some d → ∀ t ∈ d.outputs, ∀ s g,
    d.spentToken t db.readMeta = .ok (some s) → s.groupTokenMeta = some g →
    s.token.tokenMeta.tokenType = .slp .nft1Child ∧ g.tokenType = .slp .nft1Group

namespace BatchProcessor

variable {db : TokenDb} {txs : List IndexTx} {base : BatchDbData}

/-! ## The transactions of a batch -/

variable {tx : IndexTx}

theorem prepareTx_tx {p : PreparedTx} (h : prepareTx tx = some p) : p.tx = tx := by
  unfold prepareTx at h
  split at h
  · split at h
    · cases h
      rfl
    · cases h
  · cases h

theorem mem_preparedTxs {p : PreparedTx} :
    p ∈ (prepare txs).preparedTxs ↔ p.tx ∈ txs ∧ prepareTx p.tx = some p := by
  refine mem_filterMap.trans ⟨?_, fun h => ⟨p.tx, h⟩⟩
  rintro ⟨tx, hMem, hPrepare⟩
  rw [prepareTx_tx hPrepare]
  exact ⟨hMem, hPrepare⟩

theorem mem_nonTokenTxs : tx ∈ (prepare txs).nonTokenTxs ↔ tx ∈ txs ∧ prepareTx tx = none := by
  refine mem_filter.trans (and_congr_right fun _ => ?_)
  exact Option.isNone_iff_eq_none

/-- Prepared transactions stand in the order of the block. -/
theorem sublist_preparedTxs (txs : List IndexTx) :
    ((prepare txs).preparedTxs.map fun p => p.tx).Sublist txs := by
  show ((txs.filterMap prepareTx).map fun p => p.tx).Sublist txs
  induction txs with
  | nil => exact .slnil
  | cons tx txs ih =>
    cases hPrepare : prepareTx tx with
    | none =>
      rw [filterMap_cons_none hPrepare]
      exact ih.cons tx
    | some p =>
      rw [filterMap_cons_some hPrepare, map_cons, prepareTx_tx hPrepare]
      exact ih.cons_cons tx

/-! ## What is loaded -/

theorem batchMeta_eq_ok {n : TxNum} {m : TokenMeta} :
    batchMeta base n = .ok m ↔ (n, m) ∈ base.tokenMetas :=
  orElse_eq_ok.trans BiMap.getByLeft_eq_some

/-- A token that is read through the loaded metas is good if its group is. -/
theorem goodSpent_of_read {d : DbTokenTx} {t : DbToken} {s : SpentToken}
    (h : d.spentToken t (batchMeta base) = .ok (some s))
    (hTyped : ∀ g, s.groupTokenMeta = some g →
      s.token.tokenMeta.tokenType = .slp .nft1Child ∧ g.tokenType = .slp .nft1Group) :
    GoodSpent base.tokenMetas s := by
  have hIndexed : ∀ {idx : Nat} {variant : TokenVariant}, (∀ byte, variant ≠ .unknown byte) →
      d.indexedToken (batchMeta base) idx variant = .ok (some s) →
      GoodSpent base.tokenMetas s := by
    intro idx variant hKnown h
    obtain ⟨m, group, ⟨⟨n, _, hm⟩, hGroup⟩, hEq⟩ := DbTokenTx.indexedToken_eq_ok.mp h
    cases hEq
    have hCreated : Created base.tokenMetas m := ⟨n, batchMeta_eq_ok.mp hm⟩
    refine ⟨fun byte hByte => absurd hByte (hKnown byte), fun _ => hCreated, fun g hg => ?_⟩
    have hg : group = some g := hg
    unfold DbTokenTx.ReadsGroup at hGroup
    split at hGroup
    · rw [hGroup] at hg
      cases hg
    · obtain ⟨gn, gm, _, hgm, hEq⟩ := hGroup
      cases hEq.symm.trans hg
      obtain ⟨hChild, hType⟩ := hTyped g hEq
      exact ⟨hCreated, ⟨gn, batchMeta_eq_ok.mp hgm⟩, hChild, hType⟩
  have hMark : ∀ {tokenType : TokenType} {byte : UInt8}, tokenType = .slp (.unknown byte) ∨
      tokenType = .alp (.unknown byte) → s = unknownToken tokenType byte →
      GoodSpent base.tokenMetas s := by
    rintro tokenType byte hType rfl
    refine ⟨fun byte' hByte => ?_, fun hKnown => absurd rfl (hKnown byte), nofun⟩
    cases hByte
    exact hType.imp (congrArg (TokenMeta.mk TxId.zero)) (congrArg (TokenMeta.mk TxId.zero))
  cases t with
  | noToken => cases h
  | atoms idx n | mintBaton idx => exact hIndexed (fun _ => TokenVariant.noConfusion) h
  | unknownSlp byte =>
    cases h
    exact hMark (.inl rfl) rfl
  | unknownAlp byte =>
    cases h
    exact hMark (.inr rfl) rfl

/-- What is loaded is fit for the loop over the token transactions. -/
theorem baseOk_of_loaded (hTyped : db.GroupsTyped) (hFresh : db.FreshTxs txs)
    (h : db.Loaded txs base) : BaseOk base (prepare txs) where
  nodup_nums := by
    have hSub := (sublist_preparedTxs txs).map fun tx => tx.txNum
    rw [map_map] at hSub
    exact hSub.nodup hFresh.nums
  nodup_txids := by
    have hSub := (sublist_preparedTxs txs).map fun tx => tx.tx.txid
    rw [map_map] at hSub
    exact hSub.nodup hFresh.txids
  nums p hp m hMem := by
    have hNone := hFresh.noMeta p.tx (mem_preparedTxs.mp hp).1
    rw [h.metas _ m hMem] at hNone
    cases hNone
  txids p hp n m hMem := hFresh.noToken p.tx (mem_preparedTxs.mp hp).1 n m (h.metas n m hMem)
  listed n d hd p hp hMem := by
    obtain ⟨m, hm⟩ := h.listed n d hd _ hMem
    rw [hFresh.noMeta p.tx (mem_preparedTxs.mp hp).1] at hm
    cases hm
  good n d hd t ht s hs := by
    refine goodSpent_of_read hs fun g hg => ?_
    have hStored : db.tokenTx[n]? = some d := by
      have hGet := h.tokenTxs n
      rw [hd] at hGet
      split at hGet
      · exact hGet.symm
      · cases hGet
    refine hTyped n d hStored t ht s g (DbTokenTx.spentToken_mono (fun x m hx => ?_) hs) hg
    exact TokenDb.readMeta_eq_ok.mpr (h.metas x m (batchMeta_eq_ok.mp hx))

/-! ## Transactions without payload -/

/-- The state after the loop over the token transactions. -/
structure TokensDone (txs : List IndexTx) (base : BatchDbData) (order : List TxNum)
    (s₀ : BatchState) : Prop where
  base_ok : BaseOk base (prepare txs)
  inv : BatchInv base (prepare txs) order s₀
  all : ∀ p ∈ (prepare txs).preparedTxs, p.tx.txNum ∈ order
  fresh : ∀ tx ∈ txs, base.tokenTxs[tx.txNum]? = none
  nums : (txs.map fun tx => tx.txNum).Nodup
  coinbase : ∀ tx ∈ txs, tx.isCoinbase = true → tx.inputNums = []

section NonToken

variable {order : List TxNum} {s₀ s s' : BatchState} {done : List IndexTx}

theorem tokenOutput_verify {validTxs : Column TxNum TokenTx} {n : TxNum} {p : PreparedTx}
    {ctx : VerifyContext} (hValid : validTxs[n]? = some (ctx.verify p.colored)) {i : Nat}
    {o : Option TokenOutput} (ho : (ctx.verify p.colored).outputs[i]? = some o) :
    tokenOutput base validTxs n i = .ok (o.bind (ctx.verify p.colored).spentToken) := by
  simp only [tokenOutput, hValid, ho]
  cases o with
  | none => rfl
  | some o =>
    obtain ⟨_, sec, hSec, _⟩ := (VerifyContext.verify_output_iff p.wellFormed).mp ho
    have hSpent : (ctx.verify p.colored).spentToken o = _ := VerifyContext.spentToken_output hSec
    simp only [Option.bind_some, hSpent]
    rfl

/-- What is stored of a token transaction says the same about its outputs as its
verdict. -/
theorem TokensDone.tokenOutput_stored (h : TokensDone txs base order s₀) {p : PreparedTx}
    (hp : p ∈ (prepare txs).preparedTxs) {d : DbTokenTx}
    (hd : s₀.processed.dbTokenTxs[p.tx.txNum]? = some d) {i : Nat} {x : DbToken}
    (hx : d.outputs[i]? = some x) :
    tokenOutput base s₀.processed.validTxs p.tx.txNum i = d.spentToken x (batchMeta s₀.db) := by
  obtain ⟨S, ctx, hComp, _, _, hRec⟩ := h.inv.verified p hp (h.all p hp)
  have hDbTx := hRec.dbTx
  have hValid := hRec.valid
  split at hDbTx
  · next hStored =>
    obtain ⟨B, d', hSub, hGood, hNew, hd', hGet⟩ := hDbTx
    cases hd.symm.trans hGet
    rw [if_pos hStored] at hValid
    rw [← hComp.spentTokens_eq] at hGood
    have hReads := reads_outputs p.wellFormed hGood hNew
      (fun q hq => batchMeta_eq_ok.mpr (hSub q hq)) (stores_of_tokenTxToDb hd')
    obtain ⟨o, ho, hRead⟩ := Forall₂.exists_getElem? hReads hx
    rw [hRead, tokenOutput_verify hValid ho]
  · rw [hDbTx] at hd
    cases hd

/-- What the loop over the transactions without payload keeps. -/
structure NonTokenInv (base : BatchDbData) (s₀ : BatchState) (done : List IndexTx)
    (s : BatchState) : Prop where
  db : s.db = s₀.db
  validTxs : s.processed.validTxs = s₀.processed.validTxs
  newTokens : s.processed.newTokens = s₀.processed.newTokens
  others : ∀ n, n ∉ done.map (fun tx => tx.txNum) →
    s.processed.dbTokenTxs[n]? = s₀.processed.dbTokenTxs[n]? ∧
      s.processed.spentTokens[n]? = s₀.processed.spentTokens[n]?
  copied : ∀ tx ∈ done, ∃ S, txTokenInputs base s₀.processed.validTxs tx = .ok S ∧
    if S.any Option.isSome then
      s.processed.spentTokens[tx.txNum]? = some S ∧ ∃ n, CopyInv (batchMeta s₀.db) S n ∧
        s.processed.dbTokenTxs[tx.txNum]? =
          some (n.toDb (List.replicate tx.tx.outputs.length .noToken))
    else s.processed.spentTokens[tx.txNum]? = none ∧ s.processed.dbTokenTxs[tx.txNum]? = none

theorem tokenOutput_eq_none {validTxs : Column TxNum TokenTx} {k : TxNum}
    (hValid : validTxs[k]? = none) (hBase : base.tokenTxs[k]? = none) (i : Nat) :
    tokenOutput base validTxs k i = .ok none := by
  simp only [tokenOutput, hValid, hBase]

/-- A transaction without payload is not verified. -/
theorem TokensDone.outside (h : TokensDone txs base order s₀) (hTx : tx ∈ (prepare txs).nonTokenTxs) :
    tx.txNum ∉ order := by
  intro hMem
  obtain ⟨p, hp, hNum⟩ := h.inv.prepared _ hMem
  obtain ⟨hpTx, hPrepared⟩ := mem_preparedTxs.mp hp
  obtain ⟨hTxs, hNone⟩ := mem_nonTokenTxs.mp hTx
  rw [inj_on_of_nodup_map h.nums hpTx hTxs hNum, hNone] at hPrepared
  cases hPrepared

/-- Which row an input is copied from, and that it holds what the input spends. -/
theorem NonTokenInv.source (hTokens : TokensDone txs base order s₀)
    (h : NonTokenInv base s₀ done s) (hDone : ∀ tx ∈ done, tx ∈ (prepare txs).nonTokenTxs)
    {n n' : NonTokenState} {k : TxNum} {input : TxInput}
    (hAdd : addNonTokenInput s n (k, input) = .ok n') :
    ∃ d x, n' = copyToken n d x ∧ tokenOutput base s₀.processed.validTxs k input.prevOut.outIdx =
      d.spentToken x (batchMeta s₀.db) := by
  have hNothing : findDbTokenTx s k = none → s₀.processed.validTxs[k]? = none →
      base.tokenTxs[k]? = none → ∃ d x, n' = copyToken n d x ∧
        tokenOutput base s₀.processed.validTxs k input.prevOut.outIdx =
          d.spentToken x (batchMeta s₀.db) := by
    intro hFind hValid hBase
    simp only [addNonTokenInput, hFind] at hAdd
    cases hAdd
    exact ⟨⟨[], ∅, [], [], 0⟩, .noToken, rfl, tokenOutput_eq_none hValid hBase _⟩
  have hFound : ∀ d, findDbTokenTx s k = some d →
      ∃ x, d.outputs[input.prevOut.outIdx]? = some x ∧ n' = copyToken n d x := by
    intro d hFind
    simp only [addNonTokenInput, hFind] at hAdd
    obtain ⟨x, hx, hAdd⟩ := bind_eq_ok.mp hAdd
    exact ⟨x, orElse_eq_ok.mp hx, (pure_eq_ok.mp hAdd).symm⟩
  have hTxs : s.db.tokenTxs = base.tokenTxs := (congrArg _ h.db).trans hTokens.inv.tokenTxs
  have hFind : findDbTokenTx s k = s.processed.dbTokenTxs[k]?.or base.tokenTxs[k]? := by
    rw [findDbTokenTx, hTxs]
  by_cases hk : k ∈ done.map fun tx => tx.txNum
  · -- a transaction without payload has no token on any output
    obtain ⟨tx, hTx, rfl⟩ := mem_map.mp hk
    have hValid := (hTokens.inv.outside _ (hTokens.outside (hDone tx hTx))).1
    have hBase := hTokens.fresh tx (mem_nonTokenTxs.mp (hDone tx hTx)).1
    obtain ⟨S, -, hRow⟩ := h.copied tx hTx
    split at hRow
    · obtain ⟨-, c₀, -, hRow⟩ := hRow
      obtain ⟨x, hx, hEq⟩ := hFound _ (by rw [hFind, hRow]; rfl)
      have hNone : x = .noToken := eq_of_mem_replicate (mem_of_getElem? hx)
      subst hNone
      exact ⟨_, _, hEq, tokenOutput_eq_none hValid hBase _⟩
    · exact hNothing (by rw [hFind, hRow.2, hBase]; rfl) hValid hBase
  · rw [(h.others k hk).1] at hFind
    by_cases hOrder : k ∈ order
    · obtain ⟨p, hp, rfl⟩ := hTokens.inv.prepared k hOrder
      have hBase := hTokens.fresh p.tx (mem_preparedTxs.mp hp).1
      cases hRow : s₀.processed.dbTokenTxs[p.tx.txNum]? with
      | some d =>
        obtain ⟨x, hx, hEq⟩ := hFound d (by rw [hFind, hRow]; rfl)
        exact ⟨d, x, hEq, hTokens.tokenOutput_stored hp hRow hx⟩
      | none =>
        obtain ⟨S, ctx, -, -, -, hRec⟩ := hTokens.inv.verified p hp hOrder
        have hDb := hRec.dbTx
        have hValid := hRec.valid
        split at hDb
        · obtain ⟨_, _, _, _, _, _, hGet⟩ := hDb
          rw [hRow] at hGet
          cases hGet
        · next hStored =>
          rw [if_neg hStored] at hValid
          exact hNothing (by rw [hFind, hRow, hBase]; rfl) hValid hBase
    · obtain ⟨hValid, -, hRow, -⟩ := hTokens.inv.outside k hOrder
      rw [hRow, Option.none_or] at hFind
      cases hBase : base.tokenTxs[k]? with
      | none => exact hNothing (hFind.trans hBase) hValid hBase
      | some d =>
        obtain ⟨x, hx, hEq⟩ := hFound d (hFind.trans hBase)
        refine ⟨d, x, hEq, ?_⟩
        rw [← hTokens.inv.tokenOutput_eq hTokens.base_ok]
        simp only [tokenOutput, hValid, hTokens.inv.tokenTxs, hBase, hx]
        rfl

theorem NonTokenInv.sources (hTokens : TokensDone txs base order s₀)
    (h : NonTokenInv base s₀ done s) (hDone : ∀ tx ∈ done, tx ∈ (prepare txs).nonTokenTxs)
    {l : List (TxNum × TxInput)} {n₀ n : NonTokenState}
    (hLoop : l.foldlM (addNonTokenInput s) n₀ = .ok n) :
    ∃ reads : List (DbTokenTx × DbToken),
      List.Forall₂ (fun a r => tokenOutput base s₀.processed.validTxs a.1 a.2.prevOut.outIdx =
        r.1.spentToken r.2 (batchMeta s₀.db)) l reads ∧
      n = reads.foldl (fun n r => copyToken n r.1 r.2) n₀ := by
  induction l generalizing n₀ with
  | nil =>
    cases pure_eq_ok.mp hLoop
    exact ⟨[], .nil, rfl⟩
  | cons a l ih =>
    obtain ⟨n₁, hAdd, hRest⟩ := bind_eq_ok.mp hLoop
    obtain ⟨d, x, rfl, hRead⟩ := h.source hTokens hDone hAdd
    obtain ⟨reads, hReads, rfl⟩ := ih hRest
    exact ⟨(d, x) :: reads, .cons hRead hReads, rfl⟩

/-- Tokens have one creator. -/
theorem batchMeta_inj (db : BatchDbData) (a a' : TxNum) (m : TokenMeta)
    (ha : batchMeta db a = .ok m) (ha' : batchMeta db a' = .ok m) : a = a' :=
  BiMap.left_inj (batchMeta_eq_ok.mp ha) (batchMeta_eq_ok.mp ha')

/-- What the loop over the inputs copies, and that it is what the inputs spend. -/
theorem NonTokenInv.copies (hTokens : TokensDone txs base order s₀) (h : NonTokenInv base s₀ done s)
    (hDone : ∀ tx ∈ done, tx ∈ (prepare txs).nonTokenTxs) (hTx : tx ∈ txs) {n : NonTokenState}
    (hLoop : (tx.inputNums.zip tx.tx.inputs).foldlM (addNonTokenInput s) ⟨[], ∅, []⟩ = .ok n) :
    (∀ S, txTokenInputs base s₀.processed.validTxs tx = .ok S →
      n.inputs.any (fun input => input ≠ .noToken) = S.any Option.isSome ∧
        (S.any Option.isSome → CopyInv (batchMeta s₀.db) S n)) ∧
    (n.inputs.any (fun input => input ≠ .noToken) = false →
      ∃ S, txTokenInputs base s₀.processed.validTxs tx = .ok S) := by
  cases hCoinbase : tx.isCoinbase with
  | true =>
    -- a coinbase spends nothing
    rw [hTokens.coinbase tx hTx hCoinbase] at hLoop
    cases pure_eq_ok.mp hLoop
    have hInputs : txTokenInputs base s₀.processed.validTxs tx =
        .ok (List.replicate tx.tx.inputs.length none) := if_pos hCoinbase
    refine ⟨fun S hS => ?_, fun _ => ⟨_, hInputs⟩⟩
    cases hInputs.symm.trans hS
    have hNone : (List.replicate tx.tx.inputs.length (none : Option SpentToken)).any
        Option.isSome = false := by simp
    rw [hNone]
    exact ⟨rfl, nofun⟩
  | false =>
    obtain ⟨reads, hReads, rfl⟩ := h.sources hTokens hDone hLoop
    have hInputs : txTokenInputs base s₀.processed.validTxs tx =
        reads.mapM fun r => r.1.spentToken r.2 (batchMeta s₀.db) := by
      rw [txTokenInputs, hCoinbase]
      exact mapM_eq_of_forall₂ hReads
    refine ⟨fun S hS => ?_, fun hNone => ?_⟩
    · have hCopied := CopyInv.start.copyAll (batchMeta_inj s₀.db)
        (mapM_eq_ok.mp (hInputs.symm.trans hS))
      exact ⟨hCopied.any_inputs, fun _ => hCopied⟩
    · have hNoToken := (noToken_of_copyAll (fun x hx => by
        by_contra hNot
        exact Bool.false_ne_true (hNone.symm.trans
          (any_eq_true.mpr ⟨x, hx, decide_eq_true hNot⟩)))).2
      rw [hInputs]
      refine exists_mapM_eq_ok fun r hr => ⟨none, ?_⟩
      rw [hNoToken r hr]
      rfl

theorem NonTokenInv.step (hTokens : TokensDone txs base order s₀) (h : NonTokenInv base s₀ done s)
    (hDone : ∀ tx ∈ done, tx ∈ (prepare txs).nonTokenTxs) (hTx : tx ∈ (prepare txs).nonTokenTxs)
    (hNot : tx.txNum ∉ done.map fun tx => tx.txNum) (hStep : processNonTokenTx s tx = .ok s') :
    NonTokenInv base s₀ (done ++ [tx]) s' := by
  obtain ⟨n, hLoop, hStep⟩ := processNonTokenTx_eq_ok.mp hStep
  obtain ⟨hGiven, hNone⟩ := h.copies hTokens hDone (mem_nonTokenTxs.mp hTx).1 hLoop
  split at hStep
  · next hAny =>
    obtain ⟨S, hS, rfl⟩ := hStep
    rw [h.db, h.validTxs, hTokens.inv.txTokenInputs_eq hTokens.base_ok] at hS
    obtain ⟨hSame, hCopied⟩ := hGiven S hS
    rw [hAny] at hSame
    have hOther : ∀ {k : TxNum}, k ≠ tx.txNum → ∀ {V : Type} (col : Column TxNum V) (v : V),
        (col.insert tx.txNum v)[k]? = col[k]? :=
      fun hk _ col v => (Column.getElem?_insert ..).trans (if_neg (Ne.symm hk))
    refine ⟨h.db, h.validTxs, h.newTokens, fun k hk => ?_, fun tx' hTx' => ?_⟩
    · rw [map_append, mem_append, not_or] at hk
      have hNe : k ≠ tx.txNum := fun hEq => hk.2 (mem_singleton.mpr hEq)
      exact ⟨(hOther hNe _ _).trans (h.others k hk.1).1, (hOther hNe _ _).trans (h.others k hk.1).2⟩
    · rcases mem_append.mp hTx' with hOld | hNew
      · have hNe : tx'.txNum ≠ tx.txNum :=
          fun hEq => hNot (hEq ▸ mem_map_of_mem (f := fun tx => tx.txNum) hOld)
        rw [hOther hNe, hOther hNe]
        exact h.copied tx' hOld
      · obtain rfl := mem_singleton.mp hNew
        refine ⟨S, hS, ?_⟩
        rw [if_pos hSame.symm]
        exact ⟨(Column.getElem?_insert ..).trans (if_pos rfl), n, hCopied hSame.symm,
          (Column.getElem?_insert ..).trans (if_pos rfl)⟩
  · next hAny =>
    subst hStep
    rw [Bool.not_eq_true] at hAny
    obtain ⟨S, hS⟩ := hNone hAny
    have hSame := (hGiven S hS).1
    refine ⟨h.db, h.validTxs, h.newTokens, fun k hk => ?_, fun tx' hTx' => ?_⟩
    · rw [map_append, mem_append, not_or] at hk
      exact h.others k hk.1
    · rcases mem_append.mp hTx' with hOld | hNew
      · exact h.copied tx' hOld
      · obtain rfl := mem_singleton.mp hNew
        obtain ⟨-, hSpent, hRow, -⟩ := hTokens.inv.outside _ (hTokens.outside hTx)
        refine ⟨S, hS, ?_⟩
        rw [← hSame, hAny, (h.others _ hNot).1, (h.others _ hNot).2, hSpent, hRow]
        exact ⟨rfl, rfl⟩

theorem NonTokenInv.start : NonTokenInv base s₀ [] s₀ :=
  ⟨rfl, rfl, rfl, fun _ _ => ⟨rfl, rfl⟩, fun _ hTx => absurd hTx not_mem_nil⟩

theorem NonTokenInv.run (hTokens : TokensDone txs base order s₀)
    (h : NonTokenInv base s₀ done s) {rest : List IndexTx}
    (hTxs : ∀ tx ∈ done ++ rest, tx ∈ (prepare txs).nonTokenTxs)
    (hNodup : ((done ++ rest).map fun tx => tx.txNum).Nodup)
    (hRun : rest.foldlM processNonTokenTx s = .ok s') : NonTokenInv base s₀ (done ++ rest) s' := by
  induction rest generalizing done s with
  | nil =>
    cases pure_eq_ok.mp hRun
    rwa [append_nil]
  | cons tx rest ih =>
    obtain ⟨s₁, hStep, hRest⟩ := bind_eq_ok.mp hRun
    have hNot : tx.txNum ∉ done.map fun tx => tx.txNum := by
      rw [map_append, map_cons] at hNodup
      exact fun hMem => (nodup_append.mp hNodup).2.2 _ hMem _ mem_cons_self rfl
    have hNext := h.step hTokens (fun tx' hTx' => hTxs tx' (mem_append_left _ hTx'))
      (hTxs tx (by simp)) hNot hStep
    rw [← singleton_append, ← append_assoc] at hTxs hNodup ⊢
    exact ih hNext hTxs hNodup hRest

/-- What a batch that was processed comes from. -/
structure Processed (db : TokenDb) (txs : List IndexTx) (base : BatchDbData) (order : List TxNum)
    (s₀ s : BatchState) : Prop where
  loaded : db.Loaded txs base
  tokens : TokensDone txs base order s₀
  others : NonTokenInv base s₀ (prepare txs).nonTokenTxs s

theorem exists_processed {txNumByTxid : TxId → Except TokenError (Option TxNum)}
    {topo : Option (List TxNum)} {batch : ProcessedTokenTxBatch} (hTyped : db.GroupsTyped)
    (hFresh : db.FreshTxs txs) (hTopo : TopoOutcome (prepare txs).graph topo)
    (hAny : db.hasAnyTokens = true ∨ (prepare txs).hasAnyGenesis = true)
    (h : db.insert txNumByTxid topo txs = .ok batch) :
    ∃ base order s₀ s, Processed db txs base order s₀ s ∧ batch = s.processed := by
  have hSkip : ¬ (db.hasAnyTokens = false ∧ (prepare txs).hasAnyGenesis = false) := by
    rintro ⟨hNoTokens, hNoGenesis⟩
    rcases hAny with hAny | hAny
    · exact Bool.false_ne_true (hNoTokens.symm.trans hAny)
    · exact Bool.false_ne_true (hNoGenesis.symm.trans hAny)
  unfold TokenDb.insert at h
  rw [if_neg hSkip] at h
  obtain ⟨base, hLoad, h⟩ := bind_eq_ok.mp h
  have hLoaded := TokenDb.loaded_of_batchDbData hLoad
  have hBase := baseOk_of_loaded hTyped hFresh hLoaded
  cases topo with
  | none => cases h
  | some order =>
    obtain ⟨s₀, s, hFirst, hSecond, rfl⟩ := verify_eq_ok.mp h
    obtain ⟨hInv, hAll⟩ := batchInv_of_order hBase hTopo hFirst
    have hNew : ∀ tx ∈ txs, base.tokenTxs[tx.txNum]? = none := by
      intro tx hTx
      rw [hLoaded.tokenTxs, hFresh.noTx tx hTx, ite_self]
    have hTokens : TokensDone txs base order s₀ :=
      ⟨hBase, hInv, hAll, hNew, hFresh.nums, hFresh.coinbase⟩
    have hOthers : NonTokenInv base s₀ ([] ++ (prepare txs).nonTokenTxs) s :=
      NonTokenInv.start.run hTokens (fun _ hTx => hTx)
        ((filter_sublist.map _).nodup hFresh.nums) hSecond
    exact ⟨base, order, s₀, s, ⟨hLoaded, hTokens, hOthers⟩, rfl⟩

end NonToken

end BatchProcessor

end Ergon
