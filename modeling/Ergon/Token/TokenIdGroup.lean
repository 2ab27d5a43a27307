import Ergon.Token.PutBatch

/-!
# Ergon — grouping transactions by token ID

`TokenIdGroup` (`chronik-db/src/groups/token_id.rs`): the history and the UTXOs
of a token are keyed by its ID. The IDs of a block come from the processed batch
when it is connected (`fromBatch`), and from the stored rows when it is
disconnected (`fromDb`).

* `ReadsRow.ids_eq_iff` — when both agree on a transaction;
* `TokenIdGroupAux.fromDb_eq_fromBatch_iff` — so a block is taken back as it was
  added exactly if none of its tokens is of an unknown type.
-/

namespace Ergon

open Lib List Option

abbrev MaybeTokenIds := List (Option TokenId)

structure TokenIdGroupAux where
  txs : Column TxId (MaybeTokenIds × MaybeTokenIds)

/-- The ID of a spent token. -/
def SpentToken.id (s : SpentToken) : TokenId := s.token.tokenMeta.tokenId

def TokenTx.outputTokenIds (t : TokenTx) : MaybeTokenIds :=
  t.outputs.map fun o => (o.bind t.spentToken).map SpentToken.id

/-- The ID of a stored token, if it points to the transaction that created it. -/
def DbTokenTx.dbTokenId (d : DbTokenTx) (tokenMetas : Column TxNum TokenMeta) (t : DbToken) :
    Option TokenId :=
  (d.tokenTxNum t).bind fun tokenTxNum => tokenMetas[tokenTxNum]?.map (·.tokenId)

namespace TokenIdGroupAux

/-- Collect the IDs of the transactions that have some. -/
def collect (txs : List IndexTx) (ids : IndexTx → Option (MaybeTokenIds × MaybeTokenIds)) :
    TokenIdGroupAux :=
  ⟨(∅ : Column TxId (MaybeTokenIds × MaybeTokenIds)).putAll
    (txs.filterMap fun tx => (ids tx).map fun x => (tx.tx.txid, x))⟩

def batchIds (batch : ProcessedTokenTxBatch) (tx : IndexTx) :
    Option (MaybeTokenIds × MaybeTokenIds) :=
  batch.spentTokens[tx.txNum]?.map fun spentTokens =>
    (spentTokens.map (Option.map SpentToken.id),
      batch.validTxs[tx.txNum]?.elim (List.replicate tx.tx.outputs.length none)
        TokenTx.outputTokenIds)

def fromBatch (txs : List IndexTx) (batch : ProcessedTokenTxBatch) : TokenIdGroupAux :=
  collect txs (batchIds batch)

def dbIds (dbTokenTxs : Column TxNum DbTokenTx) (tokenMetas : Column TxNum TokenMeta)
    (tx : IndexTx) : Option (MaybeTokenIds × MaybeTokenIds) :=
  dbTokenTxs[tx.txNum]?.map fun d =>
    (d.inputs.map (d.dbTokenId tokenMetas), d.outputs.map (d.dbTokenId tokenMetas))

def fromDb (txs : List IndexTx) (db : TokenDb) : Except TokenError TokenIdGroupAux := do
  let dbTokenTxs := db.fetchTokenTxs (numSet (txs.map fun tx => tx.txNum))
  let metas ← db.fetchTokenMetas (numSet (dbTokenTxs.toList.flatMap fun (_, d) => d.tokenTxNums))
  let tokenMetas := (∅ : Column TxNum TokenMeta).putAll metas
  return collect txs (dbIds dbTokenTxs tokenMetas)

/-- The IDs of a list with their indices. -/
def members (ids : MaybeTokenIds) : List (Nat × TokenId) :=
  ids.zipIdx.filterMap fun (id, idx) => id.map fun id => (idx, id)

/-- Which inputs remove a UTXO of a token and add to its history. -/
def inputMembers (aux : TokenIdGroupAux) (tx : IndexTx) : List (Nat × TokenId) :=
  if tx.isCoinbase then []
  else aux.txs[tx.tx.txid]?.elim [] fun ids => members ids.1

/-- Which outputs add a UTXO of a token and add to its history. -/
def outputMembers (aux : TokenIdGroupAux) (tx : IndexTx) : List (Nat × TokenId) :=
  aux.txs[tx.tx.txid]?.elim [] fun ids => members ids.2

/-- Both have the same IDs at every input and output of the transaction, so they
have the same members. -/
def SameFor (a b : TokenIdGroupAux) (tx : IndexTx) : Prop :=
  a.txs[tx.tx.txid]? = b.txs[tx.tx.txid]? ∧ a.inputMembers tx = b.inputMembers tx ∧
    a.outputMembers tx = b.outputMembers tx

theorem sameFor_iff {a b : TokenIdGroupAux} {tx : IndexTx} :
    SameFor a b tx ↔ a.txs[tx.tx.txid]? = b.txs[tx.tx.txid]? := by
  refine ⟨And.left, fun h => ⟨h, ?_, ?_⟩⟩
  · rw [inputMembers, inputMembers, h]
  · rw [outputMembers, outputMembers, h]

end TokenIdGroupAux

/-! ## IDs of rows -/

/-- The ID of a token unless its type is unknown. -/
def SpentToken.knownId (s : SpentToken) : Option TokenId :=
  match s.token.variant with
  | .unknown _ => none
  | _ => some s.id

theorem SpentToken.knownId_eq_iff {s : SpentToken} :
    s.knownId = some s.id ↔ ∀ byte, s.token.variant ≠ .unknown byte := by
  unfold knownId
  split
  · next byte hByte => exact ⟨nofun, fun h => absurd hByte (h byte)⟩
  · next hKnown => exact ⟨fun _ => hKnown, fun _ => rfl⟩

/-- A row gives the IDs of the tokens that it reads as, except of unknown types. -/
theorem DbTokenTx.dbTokenId_of_spentToken {d : DbTokenTx} {t : DbToken} {db : TokenDb}
    {spent : Option SpentToken} (h : d.spentToken t db.readMeta = .ok spent)
    {tokenMetas : Column TxNum TokenMeta}
    (hMetas : ∀ x ∈ d.tokenTxNums, tokenMetas[x]? = db.tokenMeta[x]?) :
    d.dbTokenId tokenMetas t = spent.bind SpentToken.knownId := by
  have hIndexed : ∀ idx variant, (∀ byte, variant ≠ .unknown byte) →
      d.indexedToken db.readMeta idx variant = .ok spent → (d.tokenTxNums[idx]?.bind fun n =>
        tokenMetas[n]?.map (·.tokenId)) = spent.bind SpentToken.knownId := by
    intro idx variant hKnown h
    obtain ⟨m, group, ⟨⟨n, hn, hm⟩, -⟩, rfl⟩ := indexedToken_eq_ok.mp h
    rw [hn, bind_some, hMetas n (mem_of_getElem? hn), TokenDb.readMeta_eq_ok.mp hm]
    exact (SpentToken.knownId_eq_iff (s := ⟨⟨m, variant⟩, group⟩).mpr hKnown).symm
  cases t with
  | noToken =>
    cases h
    rfl
  | atoms idx n => exact hIndexed idx (.atoms n) (fun _ => TokenVariant.noConfusion) h
  | mintBaton idx => exact hIndexed idx .mintBaton (fun _ => TokenVariant.noConfusion) h
  | unknownSlp byte =>
    cases h
    rfl
  | unknownAlp byte =>
    cases h
    rfl

/-- No token that a transaction of the batch spends or keeps is of an unknown type. -/
def NoUnknown (batch : ProcessedTokenTxBatch) (tx : IndexTx) : Prop :=
  (∀ S, batch.spentTokens[tx.txNum]? = some S → ∀ t, some t ∈ S →
    ∀ byte, t.token.variant ≠ .unknown byte) ∧
  ∀ validTx : TokenTx, batch.validTxs[tx.txNum]? = some validTx → ∀ o t, some o ∈ validTx.outputs →
    validTx.spentToken o = some t → ∀ byte, t.token.variant ≠ .unknown byte

theorem map_knownId_eq_iff {l : List (Option SpentToken)} :
    l.map (fun s => s.bind SpentToken.knownId) = l.map (Option.map SpentToken.id) ↔
      ∀ t, some t ∈ l → ∀ byte, t.token.variant ≠ .unknown byte := by
  rw [map_inj_left]
  constructor
  · intro h t ht
    exact SpentToken.knownId_eq_iff.mp (h (some t) ht)
  · intro h s hs
    cases s with
    | none => rfl
    | some t => exact SpentToken.knownId_eq_iff.mpr (h t hs)

namespace BatchProcessor

variable {db : TokenDb} {batch : ProcessedTokenTxBatch} {tx : IndexTx} {d : DbTokenTx}
  {S : List (Option SpentToken)} {groupOf : TokenMeta → Option TokenMeta}
  {tokenMetas : Column TxNum TokenMeta}

theorem token_regroup (groupOf : TokenMeta → Option TokenMeta) (t : Token) :
    (regroup groupOf t).token = t := by
  unfold regroup
  split <;> rfl

variable (hMetas : ∀ x ∈ d.tokenTxNums, tokenMetas[x]? = db.tokenMeta[x]?)
include hMetas

theorem ReadsRow.inputIds (h : ReadsRow db batch tx d S groupOf) :
    d.inputs.map (d.dbTokenId tokenMetas) = S.map fun s => s.bind SpentToken.knownId := by
  have hRead := mapM_eq_ok.mp h.inputs
  have hMap : d.inputs.map (d.dbTokenId tokenMetas) =
      (S.map (Option.map fun s => regroup groupOf s.token)).map
        fun s => s.bind SpentToken.knownId :=
    Forall₂.map_eq hRead fun _ _ hSpent => DbTokenTx.dbTokenId_of_spentToken hSpent hMetas
  rw [hMap, List.map_map]
  refine map_congr_left fun s _ => ?_
  cases s with
  | none => rfl
  | some t =>
    -- the group does not matter
    show (regroup groupOf t.token).knownId = t.knownId
    rw [SpentToken.knownId, SpentToken.id, token_regroup]
    rfl

theorem ReadsRow.outputIds (h : ReadsRow db batch tx d S groupOf) :
    d.outputs.map (d.dbTokenId tokenMetas) =
      batch.validTxs[tx.txNum]?.elim (List.replicate tx.tx.outputs.length none) fun validTx =>
        (validTx.outputs.map fun o => o.bind validTx.spentToken).map
          fun s => s.bind SpentToken.knownId := by
  have hOutputs := h.outputs
  cases hValid : batch.validTxs[tx.txNum]? with
  | none =>
    rw [hValid] at hOutputs
    rw [hOutputs, map_replicate]
    rfl
  | some validTx =>
    rw [hValid] at hOutputs
    rw [elim_some, List.map_map]
    exact Forall₂.map_eq hOutputs fun _ _ hSpent =>
      DbTokenTx.dbTokenId_of_spentToken hSpent hMetas

/-- **A row has the IDs of the batch** exactly if no token is of an unknown type. -/
theorem ReadsRow.ids_eq_iff (h : ReadsRow db batch tx d S groupOf) :
    some (d.inputs.map (d.dbTokenId tokenMetas), d.outputs.map (d.dbTokenId tokenMetas)) =
        TokenIdGroupAux.batchIds batch tx ↔ NoUnknown batch tx := by
  rw [TokenIdGroupAux.batchIds, h.spent, map_some, Option.some.injEq, Prod.mk.injEq,
    h.inputIds hMetas, h.outputIds hMetas, map_knownId_eq_iff]
  refine and_congr ?_ ?_
  · rw [h.spent]
    exact ⟨fun hKnown S' hS' => Option.some.inj hS' ▸ hKnown, fun hKnown => hKnown S rfl⟩
  · cases hValid : batch.validTxs[tx.txNum]? with
    | none => exact ⟨fun _ => nofun, fun _ => rfl⟩
    | some validTx =>
      have hIds : validTx.outputTokenIds = (validTx.outputs.map
          fun o => o.bind validTx.spentToken).map (Option.map SpentToken.id) := by
        rw [List.map_map]
        rfl
      rw [elim_some, elim_some, hIds, map_knownId_eq_iff]
      constructor
      · rintro hKnown validTx' hEq o t ho ht
        cases hEq
        exact hKnown t (List.mem_map.mpr ⟨some o, ho, ht⟩)
      · intro hKnown t ht
        obtain ⟨o, ho, hEq⟩ := List.mem_map.mp ht
        obtain ⟨o', rfl, ht'⟩ := bind_eq_some_iff.mp hEq
        exact hKnown validTx rfl o' t ho ht'

end BatchProcessor

namespace TokenIdGroupAux

open BatchProcessor

variable {db : TokenDb} {txs : List IndexTx} {batch : ProcessedTokenTxBatch}

/-- The rows that are found for the transactions of a block. -/
theorem getElem?_fetchTokenTxs {tx : IndexTx} (hTx : tx ∈ txs) :
    (db.fetchTokenTxs (numSet (txs.map fun tx => tx.txNum)))[tx.txNum]? =
      db.tokenTx[tx.txNum]? := by
  refine (Column.getElem?_restrict _ _ _).trans (if_pos ?_)
  exact TokenDb.mem_numSet.mpr (List.mem_map_of_mem hTx)

/-- Reading the IDs of a block whose rows list known tokens. -/
theorem exists_fromDb (hTxids : (txs.map fun tx => tx.tx.txid).Nodup)
    (hListed : ∀ tx ∈ txs, ∀ d : DbTokenTx, db.tokenTx[tx.txNum]? = some d →
      ∀ x ∈ d.tokenTxNums, ∃ m, db.tokenMeta[x]? = some m) :
    ∃ aux tokenMetas, fromDb txs db = .ok aux ∧
      (∀ tx ∈ txs, ∀ d : DbTokenTx, db.tokenTx[tx.txNum]? = some d → ∀ x ∈ d.tokenTxNums,
        tokenMetas[x]? = db.tokenMeta[x]?) ∧
      ∀ tx ∈ txs, aux.txs[tx.tx.txid]? = dbIds db.tokenTx tokenMetas tx := by
  have hRows : ∀ x, x ∈ (db.fetchTokenTxs (numSet (txs.map fun tx => tx.txNum))).toList.flatMap
      (fun (_, d) => d.tokenTxNums) ↔ ∃ tx ∈ txs, ∃ d : DbTokenTx,
        db.tokenTx[tx.txNum]? = some d ∧ x ∈ d.tokenTxNums := by
    intro x
    rw [mem_flatMap]
    constructor
    · rintro ⟨⟨n, d⟩, hMem, hx⟩
      have hGet := Std.ExtTreeMap.mem_toList_iff_getElem?_eq_some.mp hMem
      replace hGet := (Column.getElem?_restrict ..).symm.trans hGet
      split at hGet
      · next hn =>
        obtain ⟨tx, hTx, rfl⟩ := List.mem_map.mp (TokenDb.mem_numSet.mp hn)
        exact ⟨tx, hTx, d, hGet, hx⟩
      · cases hGet
    · rintro ⟨tx, hTx, d, hd, hx⟩
      refine ⟨(tx.txNum, d), Std.ExtTreeMap.mem_toList_iff_getElem?_eq_some.mpr ?_, hx⟩
      rw [getElem?_fetchTokenTxs hTx, hd]
  obtain ⟨ps, hps⟩ : ∃ ps, db.fetchTokenMetas (numSet
      ((db.fetchTokenTxs (numSet (txs.map fun tx => tx.txNum))).toList.flatMap
        fun (_, d) => d.tokenTxNums)) = .ok ps := by
    refine TokenDb.exists_fetchTokenMetas fun x hx => ?_
    obtain ⟨tx, hTx, d, hd, hx⟩ := (hRows x).mp hx
    exact hListed tx hTx d hd x hx
  refine ⟨_, (∅ : Column TxNum TokenMeta).putAll ps, bind_eq_ok.mpr ⟨ps, hps, rfl⟩, ?_, ?_⟩
  · intro tx hTx d hd x hx
    obtain ⟨m, hStored, hGet⟩ :=
      TokenDb.getElem?_fetchTokenMetas hps ((hRows x).mpr ⟨tx, hTx, d, hd, hx⟩)
    rw [hStored, hGet]
  · intro tx hTx
    refine (Column.getElem?_putAll_filterMap hTxids hTx).trans ?_
    rw [dbIds, dbIds, getElem?_fetchTokenTxs hTx]

/-- **A block is taken back as it was added** exactly if none of the tokens it
spends or keeps is of an unknown type. -/
theorem fromDb_eq_fromBatch_iff {txNumByTxid : TxId → Except TokenError (Option TxNum)}
    {topo : Option (List TxNum)} (hTyped : db.GroupsTyped) (hFresh : db.FreshTxs txs)
    (hTopo : TopoOutcome (prepare txs).graph topo)
    (hInsert : db.insert txNumByTxid topo txs = .ok batch) :
    ∃ aux, fromDb txs (db.putBatch batch) = .ok aux ∧
      ((∀ tx ∈ txs, SameFor aux (fromBatch txs batch) tx) ↔ ∀ tx ∈ txs, NoUnknown batch tx) := by
  -- a transaction has a row exactly if its tokens are recorded, and the row reads back
  have hEach : ∀ tx ∈ txs, (∃ d S groupOf, ReadsRow (db.putBatch batch) batch tx d S groupOf) ∨
      ((db.putBatch batch).tokenTx[tx.txNum]? = none ∧ batch.spentTokens[tx.txNum]? = none ∧
        batch.validTxs[tx.txNum]? = none) := by
    intro tx hTx
    have hOld := hFresh.noTx tx hTx
    by_cases hAny : db.hasAnyTokens = true ∨ (prepare txs).hasAnyGenesis = true
    · obtain ⟨base, order, s₀, s, hProcessed, rfl⟩ :=
        exists_processed hTyped hFresh hTopo hAny hInsert
      cases hd : s.processed.dbTokenTxs[tx.txNum]? with
      | some d =>
        left
        cases hPrepare : prepareTx tx with
        | none =>
          obtain ⟨S, groupOf, hReads, -⟩ := hProcessed.reads_nonToken hFresh
            (mem_nonTokenTxs.mpr ⟨hTx, hPrepare⟩) hd
          exact ⟨d, S, groupOf, hReads⟩
        | some p =>
          obtain rfl := prepareTx_tx hPrepare
          obtain ⟨S, groupOf, hReads, -⟩ := hProcessed.reads_prepared hFresh
            (mem_preparedTxs.mpr ⟨hTx, hPrepare⟩) hd
          exact ⟨d, S, groupOf, hReads⟩
      | none =>
        refine .inr ⟨?_, hProcessed.nothing_recorded hTx hd⟩
        rw [getElem?_tokenTx_putBatch, hd, hOld]
        rfl
    · rw [not_or, Bool.not_eq_true, Bool.not_eq_true] at hAny
      unfold TokenDb.insert at hInsert
      rw [if_pos hAny] at hInsert
      cases hInsert
      refine .inr ⟨?_, rfl, rfl⟩
      rw [getElem?_tokenTx_putBatch, hOld]
      rfl
  have hListed : ∀ tx ∈ txs, ∀ d : DbTokenTx, (db.putBatch batch).tokenTx[tx.txNum]? = some d →
      ∀ x ∈ d.tokenTxNums, ∃ m, (db.putBatch batch).tokenMeta[x]? = some m := by
    intro tx hTx d hd
    rcases hEach tx hTx with ⟨d', S, groupOf, hReads⟩ | ⟨hNone, -⟩
    · cases hReads.row.symm.trans hd
      exact hReads.listed
    · rw [hNone] at hd
      cases hd
  obtain ⟨aux, tokenMetas, hAux, hMetas, hIds⟩ := exists_fromDb hFresh.txids hListed
  refine ⟨aux, hAux, forall_congr' fun tx => forall_congr' fun hTx => ?_⟩
  rw [sameFor_iff, hIds tx hTx, fromBatch, collect,
    Column.getElem?_putAll_filterMap hFresh.txids hTx, dbIds]
  rcases hEach tx hTx with ⟨d, S, groupOf, hReads⟩ | ⟨hNone, hSpent, hValid⟩
  · rw [hReads.row, map_some]
    exact hReads.ids_eq_iff (hMetas tx hTx d hReads.row)
  · rw [hNone, batchIds, hSpent]
    refine ⟨fun _ => ⟨?_, ?_⟩, fun _ => rfl⟩
    · intro S hS
      rw [hSpent] at hS
      cases hS
    · intro validTx hv
      rw [hValid] at hv
      cases hv

/-! ### A payload of an unknown type -/

/-- A transaction with an SLP payload of type 0x99, which colors the output after it. -/
def colorsUnknown : IndexTx :=
  { sendsNft [] with
    tx :=
      { (sendsNft []).tx with
        outputs := [⟨0, ⟨[0x6a, 4] ++ slpLokadId ++ [1, 0x99, 1, 0]⟩⟩, ⟨546, ⟨[0x51]⟩⟩] } }

/-- The members that are added with a block, and those that are taken back. -/
def outputMembersOf (tx : IndexTx) : Option (List (Nat × TokenId) × List (Nat × TokenId)) := do
  let batch ← (nftDb.insert (fun _ => .ok none) (some [10]) [tx]).toOption
  let aux ← (fromDb [tx] (nftDb.putBatch batch)).toOption
  return ((fromBatch [tx] batch).outputMembers tx, aux.outputMembers tx)

/-- The output is added under the zero ID, and never taken back. -/
theorem outputMembersOf_unknown :
    nftDb.GroupsTyped ∧ nftDb.FreshTxs [colorsUnknown] ∧
      TopoOutcome (prepare [colorsUnknown]).graph (some [10]) ∧
      outputMembersOf colorsUnknown = some ([(1, TxId.zero)], []) := by
  refine ⟨groupsTyped_nftDb, freshTxs_nftDb rfl rfl rfl, ?_, by decide +kernel⟩
  show IsTopoOrder _ _
  decide +kernel

/-- An NFT that is sent is taken back. -/
theorem sent_nft_taken_back :
    ∃ batch aux, nftDb.insert (fun _ => .ok none) (some [10]) [sendsNft [6]] = .ok batch ∧
      fromDb [sendsNft [6]] (nftDb.putBatch batch) = .ok aux ∧
      SameFor aux (fromBatch [sendsNft [6]] batch) (sendsNft [6]) ∧
      aux.outputMembers (sendsNft [6]) = [(1, (nft 6).tokenId)] := by
  have hOrder : IsTopoOrder (prepare [sendsNft [6]]).graph [10] := by decide +kernel
  have hRun : (nftDb.insert (fun _ => .ok none) (some [10]) [sendsNft [6]]).toOption.map
      (fun batch => (batch.spentTokens[(10 : TxNum)]?, batch.validTxs[(10 : TxNum)]?.map
        fun validTx => validTx.outputs.map fun o => o.bind validTx.spentToken)) =
        some (some [some ⟨⟨nft 6, .atoms 1⟩, some nftGroup⟩],
          some [none, some ⟨⟨nft 6, .atoms 1⟩, some nftGroup⟩]) := by decide +kernel
  have hMembers : outputMembersOf (sendsNft [6]) =
      some ([(1, (nft 6).tokenId)], [(1, (nft 6).tokenId)]) := by decide +kernel
  obtain ⟨batch, hBatch, hEq⟩ := map_eq_some_iff.mp hRun
  obtain ⟨hSpent, hKept⟩ := Prod.mk.inj hEq
  have hInsert := toOption_eq_some.mp hBatch
  obtain ⟨aux, hAux, hSame⟩ := fromDb_eq_fromBatch_iff groupsTyped_nftDb
    (freshTxs_sendsNft [6]) (show TopoOutcome _ (some [10]) from hOrder) hInsert
  have hKnown : NoUnknown batch (sendsNft [6]) := by
    constructor
    · intro S hS t ht byte
      cases hSpent.symm.trans hS
      cases mem_singleton.mp ht
      exact TokenVariant.noConfusion
    · intro validTx hValid o t ho ht byte
      have hMem : some t ∈ validTx.outputs.map fun o => o.bind validTx.spentToken :=
        List.mem_map.mpr ⟨some o, ho, ht⟩
      rw [show batch.validTxs[(10 : TxNum)]? = some validTx from hValid, map_some,
        Option.some.injEq] at hKept
      rw [hKept] at hMem
      rcases mem_cons.mp hMem with hNone | hMem
      · cases hNone
      · cases mem_singleton.mp hMem
        exact TokenVariant.noConfusion
  refine ⟨batch, aux, hInsert, hAux, ?_, ?_⟩
  · refine hSame.mpr ?_ _ (mem_singleton_self _)
    intro tx hTx
    cases mem_singleton.mp hTx
    exact hKnown
  · unfold outputMembersOf at hMembers
    rw [hInsert] at hMembers
    replace hMembers : ((fromDb [sendsNft [6]] (nftDb.putBatch batch)).toOption.bind _) = _ :=
      hMembers
    rw [hAux] at hMembers
    exact congrArg Prod.snd (Option.some.inj hMembers)

end TokenIdGroupAux

end Ergon
