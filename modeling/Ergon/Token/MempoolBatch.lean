import Ergon.Db.IndexTx
import Ergon.Slp.Conservation
import Ergon.Token.Mempool

/-!
# Ergon — the mempool agrees with the block

Transactions are verified twice: one by one when they enter the mempool, and
together once a block has them. Both give the same, apart from mints of mint
vault tokens, which look at different things.

The state after a batch satisfies equations that do not mention the order of
verification (`Spends`). The mempool computes the same values along any order
that has parents first, by induction over it (`Agrees`).

* `mempool_agrees` — the tokens that are spent and the verdicts are the same.
-/

namespace Ergon

open Lib List Option

/-- What the index keeps true of its columns: tokens are named after stored
transactions, which have the first numbers, and groups are groups of NFTs. -/
structure TokenDb.Consistent (db : TokenDb) (txNumByTxid : TxId → Except TokenError (Option TxNum))
    (firstTxNum : TxNum) : Prop where
  groups : db.GroupsTyped
  named : ∀ (n : TxNum) (m : TokenMeta), db.tokenMeta[n]? = some m →
    txNumByTxid m.tokenId = .ok (some n)
  numbered : ∀ txid n, txNumByTxid txid = .ok (some n) → n < firstTxNum
  stored : ∀ (n : TxNum) (d : DbTokenTx), db.tokenTx[n]? = some d → n < firstTxNum

/-- Transactions that can be in a block over the database: they are new to it,
and their inputs exist. -/
structure NextBlock (txNumByTxid : TxId → Except TokenError (Option TxNum)) (coinbase : Tx)
    (txs : List Tx) : Prop where
  nodup : ((coinbase :: txs).map fun tx => tx.txid).Nodup
  unknown : ∀ tx ∈ coinbase :: txs, txNumByTxid tx.txid = .ok none
  inputs : ∀ tx ∈ txs, ∀ input ∈ tx.inputs,
    (∃ n, txNumByTxid input.prevOut.txid = .ok (some n)) ∨
      ∃ q ∈ txs, q.txid = input.prevOut.txid ∧ input.prevOut.outIdx < q.outputs.length

/-- Transactions depend on the transactions they spend. -/
def spendGraph (txs : List Tx) : Graph TxId :=
  txs.map fun tx => (tx.txid, tx.inputs.map fun input => input.prevOut.txid)

/-- Transactions enter the mempool one after the other, after those in `done`. -/
def MempoolTokens.insertAll (db : TokenDb) (txNumByTxid : TxId → Except TokenError (Option TxNum)) :
    MempoolTokens → List TxId → List Tx → Except MempoolTokensError MempoolTokens
  | m, _, [] => .ok m
  | m, done, tx :: rest => do
    let m ← m.insert ⟨db, txNumByTxid, fun txid => txid ∈ done⟩ tx
    m.insertAll db txNumByTxid (done ++ [tx.txid]) rest

/-- The tokens a transaction of the mempool spends; all-`none` lists are not kept. -/
def MempoolTokens.spentBy (m : MempoolTokens) (tx : Tx) : List (Option SpentToken) :=
  m.txTokenInputs[tx.txid]?.getD (List.replicate tx.inputs.length none)

/-- The tokens a transaction of a batch spends; those of some transactions
without tokens are not kept. -/
def ProcessedTokenTxBatch.spentBy (batch : ProcessedTokenTxBatch) (itx : IndexTx) :
    List (Option SpentToken) :=
  batch.spentTokens[itx.txNum]?.getD (List.replicate itx.tx.inputs.length none)

namespace MempoolTokens

/-! ## What the batch says -/

/-- The verdict on a transaction that spends the tokens `S`. -/
def verdict (tx : Tx) (S : List (Option SpentToken)) : TokenTx :=
  VerifyContext.verify ⟨S, none, none, none⟩ (coloring tx)

/-- What a batch says about a transaction: the tokens it spends, and its verdict
if it is kept. Verdicts that are not kept put no token on an output. -/
structure Spends (base : BatchDbData) (batch : ProcessedTokenTxBatch) (itx : IndexTx)
    (S : List (Option SpentToken)) : Prop where
  inputs : BatchProcessor.txTokenInputs base batch.validTxs itx = .ok S
  spent : batch.spentTokens[itx.txNum]? = some S ∨
    (batch.spentTokens[itx.txNum]? = none ∧ S.any Option.isSome = false)
  fresh : base.tokenTxs[itx.txNum]? = none
  valid : (batch.validTxs[itx.txNum]? = some (verdict itx.tx S) ∧ (colorTx itx.tx).isSome = true) ∨
    (batch.validTxs[itx.txNum]? = none ∧ ∀ o ∈ (verdict itx.tx S).outputs, o = none)

/-- Without sections no output is coloured. -/
theorem outputs_verdict_of_no_sections {tx : Tx} (h : (coloring tx).sections = [])
    (S : List (Option SpentToken)) : ∀ o ∈ (verdict tx S).outputs, o = none := by
  intro o ho
  obtain ⟨colored, hColored, rfl⟩ := List.mem_map.mp ho
  cases colored with
  | none => rfl
  | some c =>
    obtain ⟨sec, hSec, -⟩ := (wellFormed_coloring tx).colors c hColored
    rw [h] at hSec
    cases hSec

theorem length_outputs_verdict (tx : Tx) (S : List (Option SpentToken)) :
    (verdict tx S).outputs.length = tx.outputs.length := by
  have hColoring : (coloring tx).outputs.length = tx.outputs.length := by
    unfold coloring
    cases hColor : colorTx tx with
    | none => exact length_replicate
    | some colored => exact (colorTx_wellFormed hColor).2.1
  exact (length_map _).trans hColoring

variable {itx : IndexTx}

section Batch

open BatchProcessor

variable {db : TokenDb} {itxs : List IndexTx} {base : BatchDbData} {order : List TxNum}
  {s₀ s : BatchState}

theorem sections_of_not_prepared (h : prepareTx itx = none) : (coloring itx.tx).sections = [] := by
  unfold prepareTx at h
  unfold coloring
  split at h
  · next colored hColor =>
    split at h
    · cases h
    · next hEmpty =>
      rw [hColor]
      exact not_not.mp hEmpty
  · next hColor =>
    rw [hColor]
    rfl

theorem coloring_of_prepared (p : PreparedTx) : coloring p.tx.tx = p.colored := by
  rw [coloring, p.colored_eq]
  rfl

/-- A transaction with a payload. -/
theorem spends_of_prepared (h : Processed db itxs base order s₀ s) {p : PreparedTx}
    (hp : p ∈ (prepare itxs).preparedTxs) (hMint : p.firstSection.isMintVaultMint = false) :
    ∃ S, Spends base s.processed p.tx S := by
  obtain ⟨S, ctx, ⟨hInputs, hCtx⟩, -, -, hRec⟩ := h.tokens.inv.verified p hp (h.tokens.all p hp)
  have hContext : verifyContext base p S = .ok ⟨S, none, none, none⟩ := by
    rw [verifyContext, hMint]
    rfl
  obtain rfl := Except.ok.inj (hContext.symm.trans hCtx)
  have hVerdict : verdict p.tx.tx S = VerifyContext.verify ⟨S, none, none, none⟩ p.colored := by
    rw [verdict, coloring_of_prepared]
  have hOther : p.tx.txNum ∉ (prepare itxs).nonTokenTxs.map fun tx => tx.txNum := by
    intro hMem
    obtain ⟨tx, hTx, hEq⟩ := List.mem_map.mp hMem
    exact h.tokens.outside hTx (hEq ▸ h.tokens.all p hp)
  have hSpent := (h.others.others _ hOther).2.trans hRec.spent
  have hValid := hRec.valid
  rw [← h.others.validTxs] at hInputs hValid
  refine ⟨S, hInputs, ?_, h.tokens.fresh _ (mem_preparedTxs.mp hp).1, ?_⟩
  · by_cases hStored : isStored p S (VerifyContext.verify ⟨S, none, none, none⟩ p.colored) = true
    · exact .inl (hSpent.trans (if_pos hStored))
    · refine .inr ⟨hSpent.trans (if_neg hStored), ?_⟩
      simp only [isStored, Bool.or_eq_true, not_or, Bool.not_eq_true] at hStored
      exact hStored.1.1.2
  · by_cases hStored : isStored p S (VerifyContext.verify ⟨S, none, none, none⟩ p.colored) = true
    · refine .inl ⟨?_, by rw [p.colored_eq]; rfl⟩
      rw [hVerdict]
      exact hValid.trans (if_pos hStored)
    · refine .inr ⟨hValid.trans (if_neg hStored), fun o ho => ?_⟩
      -- it would be stored if it had a token on an output
      simp only [isStored, Bool.or_eq_true, not_or, Bool.not_eq_true] at hStored
      rw [hVerdict] at ho
      exact not_isSome_iff_eq_none.mp (List.any_eq_false.mp hStored.1.1.1 o ho)

/-- A transaction without payload, or whose payload has no section. -/
theorem spends_of_nonToken (h : Processed db itxs base order s₀ s)
    (hTx : itx ∈ (prepare itxs).nonTokenTxs) : ∃ S, Spends base s.processed itx S := by
  obtain ⟨S, hInputs, hCopied⟩ := h.others.copied itx hTx
  obtain ⟨hMem, hNone⟩ := mem_nonTokenTxs.mp hTx
  have hValid := (h.tokens.inv.outside _ (h.tokens.outside hTx)).1
  rw [← h.others.validTxs] at hInputs hValid
  refine ⟨S, hInputs, ?_, h.tokens.fresh _ hMem, .inr ⟨hValid, ?_⟩⟩
  · split at hCopied
    · exact .inl hCopied.1
    · next hAny => exact .inr ⟨hCopied.1, Bool.not_eq_true _ ▸ hAny⟩
  · exact outputs_verdict_of_no_sections (sections_of_not_prepared hNone) S

theorem exists_spends (h : Processed db itxs base order s₀ s) (hTx : itx ∈ itxs)
    (hMint : ∀ sec ∈ (coloring itx.tx).sections, sec.isMintVaultMint = false) :
    ∃ S, Spends base s.processed itx S := by
  cases hPrepare : prepareTx itx with
  | none => exact spends_of_nonToken h (mem_nonTokenTxs.mpr ⟨hTx, hPrepare⟩)
  | some p =>
    obtain rfl := prepareTx_tx hPrepare
    refine spends_of_prepared h (mem_preparedTxs.mpr ⟨hTx, hPrepare⟩) (hMint _ ?_)
    rw [coloring_of_prepared]
    exact p.firstSection_mem

end Batch

/-! ## What the mempool computes -/

/-- A block that was processed as a batch. -/
structure Confirms (db : TokenDb) (txNumByTxid : TxId → Except TokenError (Option TxNum))
    (firstTxNum : TxNum) (coinbase : Tx) (txs : List Tx) (itxs : List IndexTx)
    (base : BatchDbData) (batch : ProcessedTokenTxBatch) : Prop where
  numbered : ∀ txid n, txNumByTxid txid = .ok (some n) → n < firstTxNum
  block : NextBlock txNumByTxid coinbase txs
  indexed : List.Forall₂ (Numbered txNumByTxid firstTxNum (coinbase :: txs))
    (coinbase :: txs).zipIdx itxs
  loaded : db.Loaded itxs base
  validNum : ∀ (n : TxNum) (t : TokenTx), batch.validTxs[n]? = some t → firstTxNum ≤ n
  spends : ∀ itx ∈ itxs, itx.tx ∈ txs → ∃ S, Spends base batch itx S

/-- After the transactions `done` the mempool has what the batch says of them. -/
structure Agrees (txs : List Tx) (itxs : List IndexTx) (base : BatchDbData)
    (batch : ProcessedTokenTxBatch) (done : List Tx) (m : MempoolTokens) : Prop where
  sub : ∀ tx ∈ done, tx ∈ txs
  tokenTxs : ∀ itx ∈ itxs, itx.tx ∈ done → ∀ S, Spends base batch itx S →
    m.tokenTxs[itx.tx.txid]? =
      if (colorTx itx.tx).isNone ∧ S.any Option.isSome = false then none
      else some (verdict itx.tx S)
  inputs : ∀ itx ∈ itxs, itx.tx ∈ done → ∀ S, Spends base batch itx S →
    m.txTokenInputs[itx.tx.txid]? = if S.any Option.isSome then some S else none
  others : ∀ txid, txid ∉ done.map (fun tx => tx.txid) →
    m.tokenTxs[txid]? = none ∧ m.txTokenInputs[txid]? = none

section Mempool

variable {db : TokenDb} {txNumByTxid : TxId → Except TokenError (Option TxNum)}
  {firstTxNum : TxNum} {coinbase : Tx} {txs : List Tx} {itxs : List IndexTx} {base : BatchDbData}
  {batch : ProcessedTokenTxBatch} {done : List Tx} {m : MempoolTokens}

/-! ### The three ways to find an input -/

variable {r : MempoolReader} {input : TxInput}

variable {spent : Option SpentToken}

theorem inputToken_of_tokenTx {t : TokenTx} (h : m.tokenTxs[input.prevOut.txid]? = some t)
    (ht : t.tokenAt input.prevOut = .ok spent) : m.inputToken r ∅ input = .ok spent := by
  refine bind_eq_ok.mpr ⟨.found spent, ?_, rfl⟩
  simp only [findInput, h, ht]
  rfl

theorem inputToken_of_mempool (h : m.tokenTxs[input.prevOut.txid]? = none)
    (hMempool : r.isMempoolTx input.prevOut.txid = true) : m.inputToken r ∅ input = .ok none := by
  refine bind_eq_ok.mpr ⟨.found none, ?_, rfl⟩
  simp only [findInput, h, hMempool, if_true]
  rfl

theorem inputToken_of_stored (h : m.tokenTxs[input.prevOut.txid]? = none)
    (hMempool : r.isMempoolTx input.prevOut.txid = false) {n : TxNum}
    (hn : r.txNumByTxid input.prevOut.txid = .ok (some n)) :
    m.inputToken r ∅ input =
      fillInput r.tokens.tokenTx r.tokens.readMeta (.stored input.prevOut n) := by
  simp only [inputToken, findInput, h, hMempool, hn]
  rfl

/-- A verdict that a batch keeps has the same token on an output. -/
theorem tokenAt_of_tokenOutput {validTxs : Column TxNum TokenTx} {n : TxNum} {t : TokenTx}
    (hValid : validTxs[n]? = some t) {prevOut : OutPoint} (hOut : prevOut.outIdx < t.outputs.length)
    (h : BatchProcessor.tokenOutput base validTxs n prevOut.outIdx = .ok spent) :
    t.tokenAt prevOut = .ok spent := by
  have ho := getElem?_eq_getElem hOut
  unfold TokenTx.tokenAt
  simp only [BatchProcessor.tokenOutput, hValid, ho] at h ⊢
  cases hCase : t.outputs[prevOut.outIdx] with
  | none =>
    rw [hCase] at h
    exact congrArg _ (Except.ok.inj h)
  | some o =>
    rw [hCase] at h
    obtain ⟨token, hToken, rfl⟩ := map_eq_ok.mp h
    exact map_eq_ok.mpr ⟨token, orElse_eq_ok.mpr (orElse_eq_ok.mp hToken), rfl⟩

theorem tokenAt_of_outputs_none {t : TokenTx} (h : ∀ o ∈ t.outputs, o = none) {prevOut : OutPoint}
    (hOut : prevOut.outIdx < t.outputs.length) : t.tokenAt prevOut = .ok none := by
  have ho := getElem?_eq_getElem hOut
  rw [h _ (getElem_mem hOut)] at ho
  simp only [TokenTx.tokenAt, ho]

variable {S : List (Option SpentToken)}

/-- An input that spends a transaction of the mempool. -/
theorem Agrees.inputToken_mempool (hAgrees : Agrees txs itxs base batch done m)
    (hReader : r.isMempoolTx = fun txid => decide (txid ∈ done.map fun tx => tx.txid))
    (hItx : itx ∈ itxs) (hDone : itx.tx ∈ done) (hS : Spends base batch itx S)
    (hTxid : itx.tx.txid = input.prevOut.txid) (hOut : input.prevOut.outIdx < itx.tx.outputs.length)
    (hSpent : BatchProcessor.tokenOutput base batch.validTxs itx.txNum input.prevOut.outIdx =
      .ok spent)
    :
    m.inputToken r ∅ input = .ok spent := by
  have hKept := hAgrees.tokenTxs itx hItx hDone S hS
  have hNothing : batch.validTxs[itx.txNum]? = none → spent = none := by
    intro hValid
    rw [BatchProcessor.tokenOutput_eq_none hValid hS.fresh] at hSpent
    exact (Except.ok.inj hSpent).symm
  rw [hTxid] at hKept
  rw [← length_outputs_verdict itx.tx S] at hOut
  by_cases hPlain : (colorTx itx.tx).isNone ∧ S.any Option.isSome = false
  · -- it has no token, and the block does not keep it either
    rw [if_pos hPlain] at hKept
    rcases hS.valid with ⟨-, hColored⟩ | ⟨hValid, -⟩
    · rw [isNone_iff_eq_none.mp hPlain.1] at hColored
      cases hColored
    · rw [hNothing hValid]
      refine inputToken_of_mempool hKept ?_
      rw [hReader, ← hTxid]
      exact decide_eq_true (List.mem_map_of_mem hDone)
  · rw [if_neg hPlain] at hKept
    refine inputToken_of_tokenTx hKept ?_
    rcases hS.valid with ⟨hValid, -⟩ | ⟨hValid, hNone⟩
    · exact tokenAt_of_tokenOutput hValid hOut hSpent
    · rw [hNothing hValid]
      exact tokenAt_of_outputs_none hNone hOut

/-! ### One transaction after the other -/

theorem Spends.unique {S S' : List (Option SpentToken)} (h : Spends base batch itx S)
    (h' : Spends base batch itx S') : S = S' :=
  Except.ok.inj (h.inputs.symm.trans h'.inputs)

/-- What an insert of a new transaction that is no mint of a mint vault token
leaves in the columns. -/
theorem exists_insert {tx : Tx} (hFetch : m.fetchTxSpentTokens tx r = .ok S)
    (hMint : ∀ sec ∈ (coloring tx).sections, sec.isMintVaultMint = false)
    (hNew : m.tokenTxs[tx.txid]? = none ∧ m.txTokenInputs[tx.txid]? = none) :
    ∃ m', m.insert r tx = .ok m' ∧ ∀ txid : TxId,
      (m'.tokenTxs[txid]? = if tx.txid = txid then
          if (colorTx tx).isNone ∧ S.any Option.isSome = false then none else some (verdict tx S)
        else m.tokenTxs[txid]?) ∧
      (m'.txTokenInputs[txid]? = if tx.txid = txid then
          if S.any Option.isSome then some S else none
        else m.txTokenInputs[txid]?) := by
  have hCtx : probeContext tx r (coloring tx) S = .ok ⟨S, none, none, none⟩ := by
    unfold probeContext
    split
    · rfl
    · next first hFirst =>
      have hPlain := hMint first (mem_of_head? hFirst)
      simp only [hPlain]
      rfl
  by_cases hPlain : (colorTx tx).isNone ∧ S.any Option.isSome = false
  · refine ⟨m, insert_eq_ok.mpr ⟨S, hFetch, by rw [if_pos hPlain]⟩, fun txid => ?_⟩
    rw [if_pos hPlain, hPlain.2]
    by_cases hTxid : tx.txid = txid
    · subst hTxid
      simpa using hNew
    · simp [hTxid]
  · refine ⟨_, insert_eq_ok.mpr ⟨S, hFetch, by rw [if_neg hPlain]; exact ⟨_, hCtx, rfl⟩⟩,
      fun txid => ⟨?_, ?_⟩⟩
    · rw [if_neg hPlain]
      exact Column.getElem?_insert ..
    · by_cases hAny : S.any Option.isSome = true
      · simp only [hAny, if_true]
        exact Column.getElem?_insert ..
      · simp only [hAny]
        by_cases hTxid : tx.txid = txid
        · subst hTxid
          simpa using hNew.2
        · simp [hTxid]

section Confirms

variable (h : Confirms db txNumByTxid firstTxNum coinbase txs itxs base batch)
include h

/-- The number of a transaction of the block. -/
theorem Confirms.exists_indexed {tx : Tx}
    (hTx : tx ∈ txs) : ∃ itx ∈ itxs, itx.tx = tx ∧ itx.isCoinbase = false ∧
      (txNumsByTxid firstTxNum (coinbase :: txs))[tx.txid]? = some itx.txNum ∧
      List.Forall₂ (SpendsNum txNumByTxid firstTxNum (coinbase :: txs)) tx.inputs itx.inputNums := by
  obtain ⟨i, hi⟩ := mem_iff_getElem?.mp hTx
  have hMem : (tx, i + 1) ∈ (coinbase :: txs).zipIdx := mem_zipIdx_iff_getElem?.mpr hi
  obtain ⟨itx, hItx, rfl, hNum, hRest⟩ := Forall₂.exists_right h.indexed hMem
  rw [if_neg (Nat.succ_ne_zero i)] at hRest
  refine ⟨itx, hItx, rfl, hRest.1, ?_, hRest.2⟩
  exact (getElem?_txNumsByTxid h.block.nodup).mpr ⟨itx.tx, i + 1, hi, rfl, hNum⟩

theorem Confirms.map_tx :
    itxs.map (fun itx => itx.tx) = coinbase :: txs := by
  rw [← zipIdx_map_fst 0 (coinbase :: txs)]
  exact (Forall₂.map_eq h.indexed fun _ _ hNumbered => hNumbered.1.symm).symm

theorem Confirms.indexed_inj {itx itx' : IndexTx} (hItx : itx ∈ itxs) (hItx' : itx' ∈ itxs)
    (hTxid : itx.tx.txid = itx'.tx.txid) : itx = itx' := by
  have hNodup : (itxs.map fun itx => itx.tx.txid).Nodup := by
    have hMap := congrArg (List.map fun tx => tx.txid) h.map_tx
    rw [List.map_map] at hMap
    rw [show itxs.map (fun itx => itx.tx.txid) = _ from hMap]
    exact h.block.nodup
  exact inj_on_of_nodup_map hNodup hItx hItx' hTxid

/-- An input that spends a stored transaction. -/
theorem Confirms.inputToken_stored (hTokens : r.tokens = db)
    (hNum : r.txNumByTxid = txNumByTxid) (hKept : m.tokenTxs[input.prevOut.txid]? = none)
    (hMempool : r.isMempoolTx input.prevOut.txid = false) (hItx : itx ∈ itxs) {n : TxNum}
    (hInput : n ∈ itx.inputNums) (hn : txNumByTxid input.prevOut.txid = .ok (some n))
    (hSpent : BatchProcessor.tokenOutput base batch.validTxs n input.prevOut.outIdx = .ok spent) :
    m.inputToken r ∅ input = .ok spent := by
  subst hTokens hNum
  rw [inputToken_of_stored hKept hMempool hn]
  have hValid : batch.validTxs[n]? = none := by
    refine eq_none_iff_forall_ne_some.mpr fun t ht => ?_
    exact absurd (h.validNum n t ht) (Nat.not_le.mpr (h.numbered _ n hn))
  have hRow : base.tokenTxs[n]? = r.tokens.tokenTx[n]? := by
    rw [h.loaded.tokenTxs, if_pos (mem_flatMap.mpr ⟨itx, hItx, hInput⟩)]
  simp only [BatchProcessor.tokenOutput, hValid, hRow] at hSpent
  cases hd : r.tokens.tokenTx[n]? with
  | none =>
    rw [hd] at hSpent
    simp only [fillInput, storedToken, hd]
    exact congrArg _ (Except.ok.inj hSpent)
  | some d =>
    rw [hd] at hSpent
    obtain ⟨t, ht, hSpent⟩ := bind_eq_ok.mp hSpent
    refine bind_eq_ok.mpr ⟨some (d, t), ?_, mapError_eq_ok.mpr ?_⟩
    · simp only [storedToken, hd]
      exact map_eq_ok.mpr ⟨t, orElse_eq_ok.mpr (orElse_eq_ok.mp ht), rfl⟩
    · -- the metas that were loaded are those of the database
      refine DbTokenTx.spentToken_mono (fun x tokenMeta hx => ?_) hSpent
      exact TokenDb.readMeta_eq_ok.mpr
        (h.loaded.metas x tokenMeta (BatchProcessor.batchMeta_eq_ok.mp hx))

/-- What the inputs of the next transaction are found to spend. -/
theorem Confirms.fetch
    (hAgrees : Agrees txs itxs base batch done m) (hItx : itx ∈ itxs) (hTx : itx.tx ∈ txs)
    (hCoinbase : itx.isCoinbase = false)
    (hNums : List.Forall₂ (SpendsNum txNumByTxid firstTxNum (coinbase :: txs)) itx.tx.inputs
      itx.inputNums)
    (hParents : ∀ input ∈ itx.tx.inputs, ∀ q ∈ txs, q.txid = input.prevOut.txid → q ∈ done)
    (hS : Spends base batch itx S) :
    m.fetchTxSpentTokens itx.tx
      ⟨db, txNumByTxid, fun txid => txid ∈ done.map fun tx => tx.txid⟩ = .ok S := by
  have hInputs := hS.inputs
  rw [BatchProcessor.txTokenInputs, hCoinbase] at hInputs
  refine fetchTxSpentTokensBatch_eq_ok.mpr (mapM_zip_eq_ok hNums ?_ hInputs)
  intro input hInput n hn hSpends spent hSpent
  unfold SpendsNum at hSpends
  -- stored transactions are not in the block
  have hKnown : ∀ n, txNumByTxid input.prevOut.txid = .ok (some n) →
      ∀ tx ∈ coinbase :: txs, tx.txid ≠ input.prevOut.txid := by
    intro n hStored tx hMem hTxid
    have hUnknown := h.block.unknown tx hMem
    rw [hTxid, hStored] at hUnknown
    cases hUnknown
  rcases h.block.inputs itx.tx hTx input hInput with ⟨n', hStored⟩ | ⟨q, hq, hTxid, hOut⟩
  · have hNot := hKnown n' hStored
    have hDone : input.prevOut.txid ∉ done.map fun tx => tx.txid := by
      intro hMem
      obtain ⟨tx, hDone, hEq⟩ := List.mem_map.mp hMem
      exact hNot tx (mem_cons_of_mem _ (hAgrees.sub tx hDone)) hEq
    split at hSpends
    · next k hGet =>
      obtain ⟨tx, idx, hIdx, hEq, -⟩ := (getElem?_txNumsByTxid h.block.nodup).mp hGet
      exact absurd hEq (hNot tx (mem_of_getElem? hIdx))
    · exact h.inputToken_stored rfl rfl (hAgrees.others _ hDone).1 (decide_eq_false hDone) hItx hn
        hSpends hSpent
  · obtain ⟨itxq, hItxq, rfl, -, hNum, -⟩ := h.exists_indexed hq
    obtain ⟨Sq, hSq⟩ := h.spends itxq hItxq hq
    rw [← hTxid, hNum] at hSpends
    subst hSpends
    exact hAgrees.inputToken_mempool rfl hItxq (hParents input hInput _ hq hTxid) hSq hTxid hOut
      hSpent

/-- The next transaction is inserted, and agrees with the batch. -/
theorem Confirms.step
    (hMint : ∀ tx ∈ txs, ∀ sec ∈ (coloring tx).sections, sec.isMintVaultMint = false)
    (hAgrees : Agrees txs itxs base batch done m) {tx : Tx} (hTx : tx ∈ txs) (hNot : tx ∉ done)
    (hParents : ∀ input ∈ tx.inputs, ∀ q ∈ txs, q.txid = input.prevOut.txid → q ∈ done) :
    ∃ m', m.insert ⟨db, txNumByTxid, fun txid => txid ∈ done.map fun tx => tx.txid⟩ tx = .ok m' ∧
      Agrees txs itxs base batch (done ++ [tx]) m' := by
  obtain ⟨itx, hItx, rfl, hCoinbase, -, hNums⟩ := h.exists_indexed hTx
  obtain ⟨S, hS⟩ := h.spends itx hItx hTx
  have hFetch := h.fetch hAgrees hItx hTx hCoinbase hNums hParents hS
  have hNe : ∀ tx ∈ done, tx.txid ≠ itx.tx.txid := by
    intro tx hDone hEq
    have hNodup := (nodup_cons.mp h.block.nodup).2
    exact hNot (inj_on_of_nodup_map hNodup (hAgrees.sub tx hDone) hTx hEq ▸ hDone)
  have hSub : ∀ tx ∈ done ++ [itx.tx], tx ∈ txs := forall_mem_concat hAgrees.sub hTx
  have hNone : itx.tx.txid ∉ done.map fun tx => tx.txid := by
    intro hMem
    obtain ⟨tx, hDone, hEq⟩ := List.mem_map.mp hMem
    exact hNe tx hDone hEq
  obtain ⟨m', hInsert, hLookup⟩ := exists_insert hFetch (hMint itx.tx hTx) (hAgrees.others _ hNone)
  -- for the transactions before nothing changes
  have hCases : ∀ itx' ∈ itxs, itx'.tx ∈ done ++ [itx.tx] →
      (itx'.tx ∈ done ∧ itx.tx.txid ≠ itx'.tx.txid) ∨ itx' = itx := by
    intro itx' hItx' hMem
    rcases mem_append.mp hMem with hDone | hLast
    · exact .inl ⟨hDone, (hNe _ hDone).symm⟩
    · exact .inr (h.indexed_inj hItx' hItx (congrArg _ (mem_singleton.mp hLast)))
  refine ⟨m', hInsert, hSub, ?_, ?_, ?_⟩
  · intro itx' hItx' hMem S' hS'
    rcases hCases itx' hItx' hMem with ⟨hDone, hDiffers⟩ | rfl
    · rw [(hLookup _).1, if_neg hDiffers]
      exact hAgrees.tokenTxs itx' hItx' hDone S' hS'
    · rw [(hLookup _).1, if_pos rfl, hS.unique hS']
  · intro itx' hItx' hMem S' hS'
    rcases hCases itx' hItx' hMem with ⟨hDone, hDiffers⟩ | rfl
    · rw [(hLookup _).2, if_neg hDiffers]
      exact hAgrees.inputs itx' hItx' hDone S' hS'
    · rw [(hLookup _).2, if_pos rfl, hS.unique hS']
  · intro txid hTxid
    rw [map_append, mem_append, not_or] at hTxid
    have hDiffers : itx.tx.txid ≠ txid := fun hEq => hTxid.2 (mem_singleton.mpr hEq.symm)
    rw [(hLookup _).1, (hLookup _).2, if_neg hDiffers, if_neg hDiffers]
    exact hAgrees.others txid hTxid.1

/-- All transactions are inserted, parents first. -/
theorem Confirms.run
    (hMint : ∀ tx ∈ txs, ∀ sec ∈ (coloring tx).sections, sec.isMintVaultMint = false)
    {rest : List Tx} (hAgrees : Agrees txs itxs base batch done m) (hTxs : ∀ tx ∈ rest, tx ∈ txs)
    (hNodup : (done ++ rest).Nodup)
    (hOrder : ParentsFirst (spendGraph txs) (done.map fun tx => tx.txid)
      (rest.map fun tx => tx.txid)) :
    ∃ m', m.insertAll db txNumByTxid (done.map fun tx => tx.txid) rest = .ok m' ∧
      Agrees txs itxs base batch (done ++ rest) m' := by
  induction rest generalizing done m with
  | nil => exact ⟨m, rfl, by rwa [append_nil]⟩
  | cons tx rest ih =>
    have hTx := hTxs tx mem_cons_self
    have hNot : tx ∉ done :=
      fun hDone => (nodup_append.mp hNodup).2.2 tx hDone tx mem_cons_self rfl
    have hTxids := (nodup_cons.mp h.block.nodup).2
    have hParents : ∀ input ∈ tx.inputs, ∀ q ∈ txs, q.txid = input.prevOut.txid → q ∈ done := by
      intro input hInput q hq hTxid
      have hMem : input.prevOut.txid ∈ done.map fun tx => tx.txid := by
        refine hOrder.1 _ (List.mem_map.mpr ⟨tx, hTx, rfl⟩) rfl _ (List.mem_map_of_mem hInput) ?_
        exact List.mem_map.mpr ⟨_, List.mem_map.mpr ⟨q, hq, rfl⟩, hTxid⟩
      obtain ⟨q', hq', hEq⟩ := List.mem_map.mp hMem
      rw [← inj_on_of_nodup_map hTxids (hAgrees.sub q' hq') hq (hEq.trans hTxid.symm)]
      exact hq'
    obtain ⟨m₁, hInsert, hNext⟩ := h.step hMint hAgrees hTx hNot hParents
    rw [← singleton_append, ← append_assoc] at hNodup
    obtain ⟨m', hRest, hFinal⟩ := ih hNext (fun q hq => hTxs q (mem_cons_of_mem _ hq)) hNodup
      (by rw [map_append]; exact hOrder.2)
    rw [append_assoc, singleton_append] at hFinal
    refine ⟨m', bind_eq_ok.mpr ⟨m₁, hInsert, ?_⟩, hFinal⟩
    rwa [map_append] at hRest

end Confirms

/-! ## Both together -/

/-- Numbers of the block are new, and so are its transactions. -/
theorem freshTxs_of_numbered (hDb : db.Consistent txNumByTxid firstTxNum)
    (hBlock : NextBlock txNumByTxid coinbase txs)
    (hIndexed : List.Forall₂ (Numbered txNumByTxid firstTxNum (coinbase :: txs))
      (coinbase :: txs).zipIdx itxs) : db.FreshTxs itxs := by
  have hEach : ∀ itx ∈ itxs, itx.tx ∈ coinbase :: txs ∧ firstTxNum ≤ itx.txNum ∧
      (itx.isCoinbase = true → itx.inputNums = []) := by
    intro itx hItx
    obtain ⟨⟨tx, idx⟩, hMem, hTx, hNum, hRest⟩ := Forall₂.exists_left hIndexed hItx
    refine ⟨hTx ▸ mem_of_getElem? (mem_zipIdx_iff_getElem?.mp hMem), ?_, fun hCoinbase => ?_⟩
    · rw [hNum]
      exact Nat.le_add_right _ _
    · split at hRest
      · exact hRest.2
      · rw [hRest.1] at hCoinbase
        cases hCoinbase
  constructor
  · have hMap : itxs.map (fun itx => itx.txNum) =
        (coinbase :: txs).zipIdx.map fun a => firstTxNum + a.2 :=
      (Forall₂.map_eq hIndexed fun _ _ hNumbered => hNumbered.2.1.symm).symm
    have hRange : (coinbase :: txs).zipIdx.map (fun a => firstTxNum + a.2) =
        (List.range' 0 (coinbase :: txs).length).map fun i => firstTxNum + i := by
      rw [← zipIdx_map_snd, List.map_map]
      rfl
    rw [hMap, hRange]
    exact (nodup_map_iff fun a b hEq => Nat.add_left_cancel hEq).mpr nodup_range'
  · have hMap : itxs.map (fun itx => itx.tx.txid) = (coinbase :: txs).map fun tx => tx.txid := by
      rw [← zipIdx_map_fst 0 (coinbase :: txs), List.map_map]
      exact (Forall₂.map_eq hIndexed fun _ _ hNumbered => congrArg Tx.txid hNumbered.1.symm).symm
    rw [hMap]
    exact hBlock.nodup
  · exact fun itx hItx => (hEach itx hItx).2.2
  · intro itx hItx
    refine eq_none_iff_forall_ne_some.mpr fun tokenMeta hMeta => ?_
    exact Nat.not_lt.mpr (hEach itx hItx).2.1 (hDb.numbered _ _ (hDb.named _ _ hMeta))
  · intro itx hItx
    refine eq_none_iff_forall_ne_some.mpr fun d hd => ?_
    exact Nat.not_lt.mpr (hEach itx hItx).2.1 (hDb.stored _ d hd)
  · intro itx hItx n tokenMeta hMeta hTxid
    have hUnknown := hBlock.unknown itx.tx (hEach itx hItx).1
    rw [← hTxid, hDb.named n tokenMeta hMeta] at hUnknown
    cases hUnknown

theorem length_of_spends (hS : Spends base batch itx S) (hCoinbase : itx.isCoinbase = false)
    (hNums : List.Forall₂ (SpendsNum txNumByTxid firstTxNum (coinbase :: txs)) itx.tx.inputs
      itx.inputNums) :
    S.length = itx.tx.inputs.length := by
  have hInputs := hS.inputs
  rw [BatchProcessor.txTokenInputs, hCoinbase] at hInputs
  have hLength := (mapM_eq_ok.mp hInputs).length_eq
  rw [length_zip, ← hNums.length_eq, Nat.min_self] at hLength
  exact hLength.symm

/-- The mempool and the batch have the same tokens for a transaction. -/
theorem Agrees.same (hAgrees : Agrees txs itxs base batch done m) (hItx : itx ∈ itxs)
    (hDone : itx.tx ∈ done) (hS : Spends base batch itx S)
    (hLength : S.length = itx.tx.inputs.length) :
    m.spentBy itx.tx = batch.spentBy itx ∧ ∀ t : TokenTx, batch.validTxs[itx.txNum]? = some t →
      m.tokenTxs[itx.tx.txid]? = some t := by
  constructor
  · have hNone : S.any Option.isSome = false → S = List.replicate itx.tx.inputs.length none := by
      intro hAny
      refine eq_replicate_iff.mpr ⟨hLength, fun spent hSpent => ?_⟩
      exact not_isSome_iff_eq_none.mp (List.any_eq_false.mp hAny spent hSpent)
    have hMempool : m.spentBy itx.tx = S := by
      rw [spentBy, hAgrees.inputs itx hItx hDone S hS]
      split
      · rfl
      · next hAny => exact (hNone (Bool.eq_false_iff.mpr hAny)).symm
    have hBatch : batch.spentBy itx = S := by
      rw [ProcessedTokenTxBatch.spentBy]
      rcases hS.spent with hSpent | ⟨hSpent, hAny⟩
      · rw [hSpent]
        rfl
      · rw [hSpent]
        exact (hNone hAny).symm
    rw [hMempool, hBatch]
  · intro t ht
    rw [hAgrees.tokenTxs itx hItx hDone S hS]
    rcases hS.valid with ⟨hValid, hColored⟩ | ⟨hValid, -⟩
    · rw [if_neg fun hPlain => by
        rw [isNone_iff_eq_none.mp hPlain.1] at hColored
        cases hColored]
      exact hValid.symm.trans ht
    · rw [hValid] at ht
      cases ht

/-- **The mempool agrees with the block**: transactions that are inserted one by
one, parents first, spend the tokens that the batch over the same database says
they spend, and have the verdicts that it keeps. -/
theorem mempool_agrees (hDb : db.Consistent txNumByTxid firstTxNum)
    (hAny : db.hasAnyTokens = true) (hBlock : NextBlock txNumByTxid coinbase txs)
    (hMint : ∀ tx ∈ txs, ∀ sec ∈ (coloring tx).sections, sec.isMintVaultMint = false)
    (hIndex : prepareIndexedTxs txNumByTxid firstTxNum (coinbase :: txs) = .ok itxs)
    {topo : Option (List TxNum)} (hTopo : TopoOutcome (BatchProcessor.prepare itxs).graph topo)
    (hBatch : db.insert txNumByTxid topo itxs = .ok batch) {order : List Tx}
    (hPerm : order.Perm txs)
    (hOrder : ParentsFirst (spendGraph txs) [] (order.map fun tx => tx.txid)) :
    ∃ m, empty.insertAll db txNumByTxid [] order = .ok m ∧ ∀ tx ∈ txs, ∃ itx ∈ itxs,
      itx.tx = tx ∧ m.spentBy tx = batch.spentBy itx ∧
        ∀ t : TokenTx, batch.validTxs[itx.txNum]? = some t → m.tokenTxs[tx.txid]? = some t := by
  have hIndexed := prepareIndexedTxs_eq_ok hIndex
  have hFresh := freshTxs_of_numbered hDb hBlock hIndexed
  obtain ⟨base, nums, s₀, s, hProcessed, rfl⟩ :=
    BatchProcessor.exists_processed hDb.groups hFresh hTopo (.inl hAny) hBatch
  have hValidNum : ∀ (n : TxNum) (t : TokenTx), s.processed.validTxs[n]? = some t →
      firstTxNum ≤ n := by
    intro n t ht
    rw [hProcessed.others.validTxs] at ht
    by_cases hMem : n ∈ nums
    · obtain ⟨p, hp, rfl⟩ := hProcessed.tokens.inv.prepared n hMem
      obtain ⟨⟨tx, idx⟩, -, -, hNum, -⟩ :=
        Forall₂.exists_left hIndexed (BatchProcessor.mem_preparedTxs.mp hp).1
      rw [hNum]
      exact Nat.le_add_right _ _
    · rw [(hProcessed.tokens.inv.outside n hMem).1] at ht
      cases ht
  have hConfirms : Confirms db txNumByTxid firstTxNum coinbase txs itxs base s.processed :=
    ⟨hDb.numbered, hBlock, hIndexed, hProcessed.loaded, hValidNum,
      fun itx hItx hTx => exists_spends hProcessed hItx (hMint itx.tx hTx)⟩
  have hTxids := (nodup_cons.mp hBlock.nodup).2
  have hStart : Agrees txs itxs base s.processed [] empty :=
    ⟨fun _ hTx => absurd hTx not_mem_nil, fun _ _ hTx => absurd hTx not_mem_nil,
      fun _ _ hTx => absurd hTx not_mem_nil, fun _ _ => ⟨rfl, rfl⟩⟩
  obtain ⟨m, hInsert, hAgrees⟩ := hConfirms.run hMint hStart (fun tx hTx => hPerm.mem_iff.mp hTx)
    (hPerm.nodup_iff.mpr (List.Nodup.of_map _ hTxids)) hOrder
  refine ⟨m, hInsert, fun tx hTx => ?_⟩
  obtain ⟨itx, hItx, rfl, hCoinbase, -, hNums⟩ := hConfirms.exists_indexed hTx
  obtain ⟨S, hS⟩ := hConfirms.spends itx hItx hTx
  exact ⟨itx, hItx, rfl, hAgrees.same hItx (hPerm.mem_iff.mpr hTx) hS
    (length_of_spends hS hCoinbase hNums)⟩

end Mempool

/-! ### A token that is sent and burned

The block lists the burn before the transaction it spends from. -/

def sampleDb : TokenDb where
  genesisInfo := ∅
  tokenMeta := (∅ : Column TxNum TokenMeta).insert 5 sentToken
  tokenTx := (∅ : Column TxNum DbTokenTx).insert 5 ⟨[5], ∅, [.noToken], [.noToken, .atoms 0 7], 0⟩

def sampleTxNum (txid : TxId) : Except TokenError (Option TxNum) :=
  .ok (if txid = sentToken.tokenId then some 5 else none)

/-- A transaction with one input. -/
def spendingTx (byte : UInt8) (prevOut : OutPoint) (outputs : List TxOutput) : Tx :=
  ⟨.fill byte, 2, [⟨prevOut, ⟨[]⟩, 0, none⟩], outputs, 0⟩

def sendingTx : Tx :=
  spendingTx 0x61 ⟨sentToken.tokenId, 1⟩ [⟨0, ⟨sendPayload sentToken.tokenId⟩⟩, ⟨546, ⟨[0x51]⟩⟩]

def burningTx : Tx := spendingTx 0x62 ⟨sendingTx.txid, 1⟩ [⟨546, ⟨[0x51]⟩⟩]

def sampleCoinbase : Tx := spendingTx 0x60 ⟨TxId.zero, 0xffffffff⟩ [⟨5000, ⟨[0x51]⟩⟩]

theorem consistent_sampleDb : sampleDb.Consistent sampleTxNum 10 := by
  refine ⟨?_, ?_, ?_, ?_⟩
  · intro n d hd t ht spent g hSpent hGroup
    obtain ⟨rfl, rfl⟩ := Column.getElem?_singleton.mp hd
    rcases mem_cons.mp ht with rfl | ht
    · cases hSpent
    · obtain rfl := mem_singleton.mp ht
      cases hSpent
      cases hGroup
  · intro n m hm
    obtain ⟨rfl, rfl⟩ := Column.getElem?_singleton.mp hm
    rfl
  · intro txid n hn
    unfold sampleTxNum at hn
    split at hn
    · cases hn
      decide
    · cases hn
  · intro n d hd
    obtain ⟨rfl, -⟩ := Column.getElem?_singleton.mp hd
    decide

theorem nextBlock_sample : NextBlock sampleTxNum sampleCoinbase [burningTx, sendingTx] where
  nodup := by decide +kernel
  unknown := by decide +kernel
  inputs := by
    intro tx hTx input hInput
    rcases mem_cons.mp hTx with rfl | hTx
    · obtain rfl := mem_singleton.mp hInput
      exact .inr ⟨sendingTx, by simp, rfl, by decide⟩
    · obtain rfl := mem_singleton.mp hTx
      obtain rfl := mem_singleton.mp hInput
      exact .inl ⟨5, rfl⟩

theorem sample_agrees :
    ∃ itxs batch m, prepareIndexedTxs sampleTxNum 10 [sampleCoinbase, burningTx, sendingTx] =
        .ok itxs ∧ sampleDb.insert sampleTxNum (some [12]) itxs = .ok batch ∧
      batch.validTxs[12]?.isSome = true ∧
      empty.insertAll sampleDb sampleTxNum [] [sendingTx, burningTx] = .ok m ∧
      ∀ tx ∈ [burningTx, sendingTx], ∃ itx ∈ itxs, itx.tx = tx ∧
        m.spentBy tx = batch.spentBy itx ∧
        ∀ t : TokenTx, batch.validTxs[itx.txNum]? = some t → m.tokenTxs[tx.txid]? = some t := by
  obtain ⟨itxs, hIndex, hGraph, hInsert⟩ : ∃ itxs,
      prepareIndexedTxs sampleTxNum 10 [sampleCoinbase, burningTx, sendingTx] = .ok itxs ∧
      IsTopoOrder (BatchProcessor.prepare itxs).graph [12] ∧
      ((sampleDb.insert sampleTxNum (some [12]) itxs).toOption.bind
        fun batch => batch.validTxs[(12 : TxNum)]?).isSome = true :=
    ⟨_, rfl, by decide +kernel, by decide +kernel⟩
  cases hBatch : sampleDb.insert sampleTxNum (some [12]) itxs with
  | error e =>
    rw [hBatch] at hInsert
    cases hInsert
  | ok batch =>
    rw [hBatch] at hInsert
    obtain ⟨m, hm, hSame⟩ := mempool_agrees consistent_sampleDb (by decide +kernel)
      nextBlock_sample (by decide +kernel) hIndex (show TopoOutcome _ (some [12]) from hGraph) hBatch
      (List.Perm.swap sendingTx burningTx []).symm (by decide +kernel)
    exact ⟨itxs, batch, m, hIndex, hBatch, hInsert, hm, hSame⟩

end MempoolTokens

end Ergon
