import Ergon.Token.Insert

/-!
# Ergon — reading a block back from the token columns

After a batch is written (`TokenDb.putBatch`), a stored transaction reads back
with the tokens it was verified with, up to the groups of NFTs: a payload that
mentions an NFT, or a smaller token that is burned, may take the only link to a
group.

* `Processed.readMeta` — the tokens the batch knew are stored;
* `Processed.reads_prepared`, `Processed.reads_nonToken` — what is read (`ReadsRow`);
* `spentTokens_read_back_iff` — when it is what the transaction spent.
-/

namespace Ergon

open Lib List

namespace BatchProcessor

variable {db : TokenDb} {txs : List IndexTx} {base : BatchDbData} {order : List TxNum}
  {s₀ s : BatchState}

theorem getElem?_tokenTx_putBatch (db : TokenDb) (batch : ProcessedTokenTxBatch) (n : TxNum) :
    (db.putBatch batch).tokenTx[n]? = batch.dbTokenTxs[n]?.or db.tokenTx[n]? :=
  Std.ExtTreeMap.getElem?_union

/-- The tokens that the batch knew are stored with it. -/
theorem Processed.readMeta (h : Processed db txs base order s₀ s) (hFresh : db.FreshTxs txs)
    {n : TxNum} {m : TokenMeta} (hMem : (n, m) ∈ s₀.db.tokenMetas) :
    (db.putBatch s.processed).readMeta n = .ok m := by
  have hNew : s.processed.newTokens = s₀.processed.newTokens := h.others.newTokens
  have hKeys : ((s₀.processed.newTokens.map fun t => (t.1, t.2.1)).map Prod.fst).Nodup := by
    rw [map_map]
    exact h.tokens.inv.nodup
  refine TokenDb.readMeta_eq_ok.mpr ?_
  show (db.tokenMeta.putAll (s.processed.newTokens.map fun t => (t.1, t.2.1)))[n]? = some m
  rw [hNew]
  rcases (h.tokens.inv.metas n m).mp hMem with hOld | ⟨info, hMem⟩
  · -- an older token: no transaction of the batch has its number
    have hStored := h.loaded.metas n m hOld
    rw [Column.getElem?_putAll_of_not_mem, hStored]
    intro m' hm'
    obtain ⟨⟨n', m'', info⟩, hMem, hEq⟩ := mem_map.mp hm'
    change (n', m'') = (n, m') at hEq
    cases hEq
    obtain ⟨p, hp, rfl, -⟩ := h.tokens.inv.exists_of_new hMem
    rw [hFresh.noMeta p.tx (mem_preparedTxs.mp hp).1] at hStored
    cases hStored
  · have hPair : (n, m) ∈ s₀.processed.newTokens.map fun t => (t.1, t.2.1) :=
      mem_map.mpr ⟨_, hMem, rfl⟩
    exact Column.getElem?_putAll_of_mem hPair fun m' hm' => Column.unique_of_nodup hKeys hPair hm'

/-- How the row of a transaction reads: its inputs with the groups that are
linked, its outputs as they were verified. -/
structure ReadsRow (db : TokenDb) (batch : ProcessedTokenTxBatch) (tx : IndexTx) (d : DbTokenTx)
    (S : List (Option SpentToken)) (groupOf : TokenMeta → Option TokenMeta) : Prop where
  row : db.tokenTx[tx.txNum]? = some d
  listed : ∀ x ∈ d.tokenTxNums, ∃ m, db.tokenMeta[x]? = some m
  spent : batch.spentTokens[tx.txNum]? = some S
  inputs : d.inputs.mapM (fun t => d.spentToken t db.readMeta) =
    .ok (S.map (Option.map fun s => regroup groupOf s.token))
  outputs : match batch.validTxs[tx.txNum]? with
    | some validTx => List.Forall₂ (fun t o => d.spentToken t db.readMeta =
        .ok (o.bind validTx.spentToken)) d.outputs validTx.outputs
    | none => d.outputs = List.replicate tx.tx.outputs.length .noToken

variable {tx : IndexTx} {d : DbTokenTx}

theorem ReadsRow.spentTokensAndDbTx_iff {batch : ProcessedTokenTxBatch}
    {S : List (Option SpentToken)} {groupOf : TokenMeta → Option TokenMeta}
    (h : ReadsRow db batch tx d S groupOf) :
    db.spentTokensAndDbTx tx.txNum = .ok (some (S, d)) ↔
      S.map (Option.map fun s => regroup groupOf s.token) = S := by
  rw [TokenDb.spentTokensAndDbTx_eq h.row h.listed, h.inputs]
  constructor
  · intro hEq
    exact congrArg Prod.fst (Option.some.inj (Except.ok.inj hEq))
  · intro hEq
    rw [hEq]
    rfl

variable (h : Processed db txs base order s₀ s)
include h

theorem Processed.not_nonToken {p : PreparedTx} (hp : p ∈ (prepare txs).preparedTxs) :
    p.tx.txNum ∉ (prepare txs).nonTokenTxs.map fun tx => tx.txNum := by
  intro hMem
  obtain ⟨tx, hTx, hEq⟩ := mem_map.mp hMem
  exact h.tokens.outside hTx (hEq ▸ h.tokens.all p hp)

/-- The row of a token transaction. -/
theorem Processed.reads_prepared (hFresh : db.FreshTxs txs) {p : PreparedTx}
    (hp : p ∈ (prepare txs).preparedTxs) (hd : s.processed.dbTokenTxs[p.tx.txNum]? = some d) :
    ∃ S groupOf, ReadsRow (db.putBatch s.processed) s.processed p.tx d S groupOf ∧
      (S.map (Option.map fun s => regroup groupOf s.token) = S ↔
        SameGroups S ∧ GroupsFree p.colored S) := by
  obtain ⟨S, ctx, hComp, -, hNotOwn, hRec⟩ := h.tokens.inv.verified p hp (h.tokens.all p hp)
  obtain ⟨hRow, hSpent⟩ := h.others.others _ (h.not_nonToken hp)
  have hDbTx := hRec.dbTx
  split at hDbTx
  · next hStored =>
    obtain ⟨B, d', hSub, hGood, hNew, hd', hGet⟩ := hDbTx
    cases (hRow.symm.trans hd).symm.trans hGet
    have hMeta : ∀ q ∈ B, (db.putBatch s.processed).readMeta q.1 = .ok q.2 :=
      fun q hq => h.readMeta hFresh (hSub q hq)
    have hStores := stores_of_tokenTxToDb hd'
    obtain rfl := hComp.spentTokens_eq
    have hLinks := linksOf_verify p.wellFormed hGood hNew
    obtain ⟨-, -, hExtra⟩ := colorTx_wellFormed p.colored_eq
    refine ⟨ctx.spentTokens, linkedGroup B (ctx.verify p.colored).entries, ⟨?_, ?_, ?_, ?_, ?_⟩, ?_⟩
    · rw [getElem?_tokenTx_putBatch, hd]
      rfl
    · intro x hx
      rw [hStores.nums] at hx
      obtain ⟨q, hq, rfl⟩ := mem_map.mp hx
      exact ⟨q.2, TokenDb.readMeta_eq_ok.mp (hMeta q (hLinks.tokens q hq))⟩
    · exact hSpent.trans (hRec.spent.trans (if_pos hStored))
    · exact reads_inputs p.wellFormed hGood hNew hMeta hStores
    · rw [h.others.validTxs, hRec.valid, if_pos hStored]
      exact reads_outputs p.wellFormed hGood hNew hMeta hStores
    · exact map_regroup_verify_iff p.wellFormed hGood hNew (fun m hm => hExtra m hm p.sections_ne)
        hNotOwn
  · rw [hRow, hDbTx] at hd
    cases hd

/-- The row of a transaction without payload. -/
theorem Processed.reads_nonToken (hFresh : db.FreshTxs txs) (hTx : tx ∈ (prepare txs).nonTokenTxs)
    (hd : s.processed.dbTokenTxs[tx.txNum]? = some d) :
    ∃ S groupOf, ReadsRow (db.putBatch s.processed) s.processed tx d S groupOf ∧
      (S.map (Option.map fun s => regroup groupOf s.token) = S ↔ SameGroups S) := by
  obtain ⟨S, hInputs, hCopied⟩ := h.others.copied tx hTx
  have hGood := h.tokens.inv.good_inputs h.tokens.base_ok hInputs
  have hMeta : ∀ x m, batchMeta s₀.db x = .ok m →
      (db.putBatch s.processed).readMeta x = .ok m :=
    fun x m hx => h.readMeta hFresh (batchMeta_eq_ok.mp hx)
  split at hCopied
  · obtain ⟨hSpent, n, hCopy, hRow⟩ := hCopied
    cases hRow.symm.trans hd
    refine ⟨S, lastGroup S, ⟨?_, ?_, hSpent, ?_, ?_⟩, map_regroup_lastGroup_iff hGood⟩
    · rw [getElem?_tokenTx_putBatch, hd]
      rfl
    · intro x hx
      obtain ⟨m, hm⟩ := hCopy.metas x hx
      exact ⟨m, TokenDb.readMeta_eq_ok.mp (hMeta x m hm)⟩
    · refine mapM_eq_ok.mpr ((mapM_eq_ok.mp (hCopy.reads _)).imp fun t spent hRead => ?_)
      exact DbTokenTx.spentToken_mono hMeta hRead
    · rw [h.others.validTxs, (h.tokens.inv.outside _ (h.tokens.outside hTx)).1]
      rfl
  · rw [hCopied.2] at hd
    cases hd

/-- A transaction without row has no other entry in the batch. -/
theorem Processed.nothing_recorded (hTx : tx ∈ txs)
    (hNone : s.processed.dbTokenTxs[tx.txNum]? = none) :
    s.processed.spentTokens[tx.txNum]? = none ∧ s.processed.validTxs[tx.txNum]? = none := by
  rw [h.others.validTxs]
  cases hPrepare : prepareTx tx with
  | none =>
    have hOther := mem_nonTokenTxs.mpr ⟨hTx, hPrepare⟩
    obtain ⟨S, -, hCopied⟩ := h.others.copied tx hOther
    refine ⟨?_, (h.tokens.inv.outside _ (h.tokens.outside hOther)).1⟩
    split at hCopied
    · obtain ⟨-, n, -, hRow⟩ := hCopied
      rw [hNone] at hRow
      cases hRow
    · exact hCopied.1
  | some p =>
    obtain rfl := prepareTx_tx hPrepare
    have hp := mem_preparedTxs.mpr ⟨hTx, hPrepare⟩
    obtain ⟨S, ctx, -, -, -, hRec⟩ := h.tokens.inv.verified p hp (h.tokens.all p hp)
    obtain ⟨hRow, hSpent⟩ := h.others.others _ (h.not_nonToken hp)
    have hDbTx := hRec.dbTx
    split at hDbTx
    · obtain ⟨B, d, -, -, -, -, hGet⟩ := hDbTx
      rw [hNone, hGet] at hRow
      cases hRow
    · next hNot =>
      rw [hSpent, hRec.spent, hRec.valid, if_neg hNot, if_neg hNot]
      exact ⟨rfl, rfl⟩

omit h

/-- **When a stored transaction reads back as it was verified**: exactly if the inputs of one
token agree on its group, and no other entry of the transaction takes the group of an NFT that
it burns. -/
theorem spentTokens_read_back_iff {txNumByTxid : TxId → Except TokenError (Option TxNum)}
    {topo : Option (List TxNum)} {batch : ProcessedTokenTxBatch} (hTyped : db.GroupsTyped)
    (hFresh : db.FreshTxs txs) (hTopo : TopoOutcome (prepare txs).graph topo)
    (hInsert : db.insert txNumByTxid topo txs = .ok batch) {tx : IndexTx} (hTx : tx ∈ txs)
    {d : DbTokenTx} (hd : batch.dbTokenTxs[tx.txNum]? = some d) :
    ∃ S, batch.spentTokens[tx.txNum]? = some S ∧
      ((db.putBatch batch).spentTokensAndDbTx tx.txNum = .ok (some (S, d)) ↔
        SameGroups S ∧ ∀ p, prepareTx tx = some p → GroupsFree p.colored S) := by
  by_cases hAny : db.hasAnyTokens = true ∨ (prepare txs).hasAnyGenesis = true
  · obtain ⟨base, order, s₀, s, hProcessed, rfl⟩ :=
      exists_processed hTyped hFresh hTopo hAny hInsert
    cases hPrepare : prepareTx tx with
    | none =>
      obtain ⟨S, groupOf, hReads, hSame⟩ := hProcessed.reads_nonToken hFresh
        (mem_nonTokenTxs.mpr ⟨hTx, hPrepare⟩) hd
      refine ⟨S, hReads.spent, hReads.spentTokensAndDbTx_iff.trans (hSame.trans ?_)⟩
      exact ⟨fun hSame => ⟨hSame, nofun⟩, And.left⟩
    | some p =>
      obtain rfl := prepareTx_tx hPrepare
      obtain ⟨S, groupOf, hReads, hSame⟩ := hProcessed.reads_prepared hFresh
        (mem_preparedTxs.mpr ⟨hTx, hPrepare⟩) hd
      refine ⟨S, hReads.spent, hReads.spentTokensAndDbTx_iff.trans (hSame.trans ?_)⟩
      refine and_congr_right fun _ => ⟨?_, fun hFree => hFree p rfl⟩
      intro hFree p' hp'
      cases hp'
      exact hFree
  · -- nothing is stored
    rw [not_or, Bool.not_eq_true, Bool.not_eq_true] at hAny
    unfold TokenDb.insert at hInsert
    rw [if_pos hAny] at hInsert
    cases hInsert
    cases hd

/-! ### Two NFTs of one group -/

def nftGroup : TokenMeta := ⟨.fill 0x03, .slp .nft1Group⟩

def nft (byte : UInt8) : TokenMeta :=
  ⟨.fill byte, .slp .nft1Child⟩

/-- What transactions 5 and 6 have on their outputs. -/
def nftRow (n : TxNum) : DbTokenTx :=
  ⟨[n, 3], (∅ : Column Nat Nat).insert 0 1, [.atoms 1 1], [.noToken, .atoms 0 1], 0⟩

/-- Transaction 3 created a group, 5 and 6 created an NFT of it each. -/
def nftDb : TokenDb where
  genesisInfo := ∅
  tokenMeta := (((∅ : Column TxNum TokenMeta).insert 3 nftGroup).insert 5 (nft 5)).insert 6 (nft 6)
  tokenTx := ((∅ : Column TxNum DbTokenTx).insert 5 (nftRow 5)).insert 6 (nftRow 6)

/-- A transaction that sends the NFT of transaction 6, and spends some. -/
def sendsNft (spent : List UInt8) : IndexTx where
  tx :=
    { txid := .fill 0x10
      version := 2
      inputs := spent.map fun byte =>
        ⟨⟨.fill byte, 1⟩, ⟨[]⟩, 0, none⟩
      outputs := [⟨0, ⟨[0x6a, 4] ++ slpLokadId ++ [1, 0x41, 4] ++ sendBytes ++
        [32] ++ (nft 6).tokenId.val.reverse ++ [8, 0, 0, 0, 0, 0, 0, 0, 1]⟩⟩, ⟨546, ⟨[0x51]⟩⟩]
      locktime := 0 }
  txNum := 10
  isCoinbase := false
  inputNums := spent.map UInt8.toNat

theorem groupsTyped_nftDb : nftDb.GroupsTyped := by
  have hAll : ∀ p ∈ nftDb.tokenTx.toList, ∀ t ∈ p.2.outputs,
      ∀ s ∈ (p.2.spentToken t nftDb.readMeta).toOption.join, ∀ g ∈ s.groupTokenMeta,
      s.token.tokenMeta.tokenType = .slp .nft1Child ∧ g.tokenType = .slp .nft1Group := by
    decide +kernel
  intro n d hd t ht s g hs hg
  exact hAll _ (Std.ExtTreeMap.mem_toList_iff_getElem?_eq_some.mpr hd) t ht s
    (by rw [hs]; rfl) g hg

/-- Transaction 10 is new. -/
theorem freshTxs_nftDb (hNum : tx.txNum = 10) (hCoinbase : tx.isCoinbase = false)
    (hTxid : tx.tx.txid.val = List.replicate 32 0x10) : nftDb.FreshTxs [tx] where
  nums := nodup_singleton _
  txids := nodup_singleton _
  coinbase := by simp [hCoinbase]
  noMeta := by
    rw [forall_mem_singleton, hNum]
    decide +kernel
  noTx := by
    rw [forall_mem_singleton, hNum]
    decide +kernel
  noToken := by
    have hNot : ∀ p ∈ nftDb.tokenMeta.toList, p.2.tokenId.val ≠ List.replicate 32 0x10 := by
      decide +kernel
    rw [forall_mem_singleton]
    exact fun n m hm hEq => hNot _ (Std.ExtTreeMap.mem_toList_iff_getElem?_eq_some.mpr hm)
      ((congrArg Subtype.val hEq).trans hTxid)

theorem freshTxs_sendsNft (spent : List UInt8) : nftDb.FreshTxs [sendsNft spent] :=
  freshTxs_nftDb rfl rfl rfl

/-- The tokens a transaction was verified with, and the tokens it reads back with. -/
def readBack (spent : List UInt8) :
    Option (List (Option SpentToken) × List (Option SpentToken)) := do
  let batch ← (nftDb.insert (fun _ => .ok none) (some [10]) [sendsNft spent]).toOption
  let spentTokens ← batch.spentTokens[(10 : TxNum)]?
  let row ← (← ((nftDb.putBatch batch).spentTokensAndDbTx 10).toOption)
  return (spentTokens, row.1)

/-- The NFT that is not sent reads back without its group. -/
theorem readBack_siblings :
    nftDb.GroupsTyped ∧ nftDb.FreshTxs [sendsNft [5, 6]] ∧
      TopoOutcome (prepare [sendsNft [5, 6]]).graph (some [10]) ∧
      readBack [5, 6] = some
        ([some ⟨⟨nft 5, .atoms 1⟩, some nftGroup⟩, some ⟨⟨nft 6, .atoms 1⟩, some nftGroup⟩],
          [some ⟨⟨nft 5, .atoms 1⟩, none⟩, some ⟨⟨nft 6, .atoms 1⟩, some nftGroup⟩]) := by
  refine ⟨groupsTyped_nftDb, freshTxs_sendsNft _, ?_, by decide +kernel⟩
  show IsTopoOrder _ _
  decide +kernel

/-- An NFT that is sent alone reads back with its group. -/
theorem sent_nft_reads_back :
    ∃ batch S d, nftDb.insert (fun _ => .ok none) (some [10]) [sendsNft [6]] = .ok batch ∧
      S = [some ⟨⟨nft 6, .atoms 1⟩, some nftGroup⟩] ∧
      batch.spentTokens[(10 : TxNum)]? = some S ∧
      (nftDb.putBatch batch).spentTokensAndDbTx 10 = .ok (some (S, d)) := by
  have hOrder : IsTopoOrder (prepare [sendsNft [6]]).graph [10] := by decide +kernel
  have hRun : (nftDb.insert (fun _ => .ok none) (some [10]) [sendsNft [6]]).toOption.map
      (fun batch => (batch.dbTokenTxs[(10 : TxNum)]?.isSome, batch.spentTokens[(10 : TxNum)]?)) =
        some (true, some [some ⟨⟨nft 6, .atoms 1⟩, some nftGroup⟩]) := by decide +kernel
  have hSections : (colorTx (sendsNft [6]).tx).map (fun c => c.sections.map (·.tokenMeta)) =
      some [nft 6] := by decide +kernel
  obtain ⟨batch, hBatch, hEq⟩ := Option.map_eq_some_iff.mp hRun
  obtain ⟨hStored, hSpent⟩ := Prod.mk.inj hEq
  have hInsert := toOption_eq_some.mp hBatch
  obtain ⟨d, hd⟩ := Option.isSome_iff_exists.mp hStored
  obtain ⟨S, hS, hReads⟩ := spentTokens_read_back_iff groupsTyped_nftDb (freshTxs_sendsNft [6])
    (show TopoOutcome _ (some [10]) from hOrder) hInsert (mem_singleton_self _) hd
  have hEq : S = [some ⟨⟨nft 6, .atoms 1⟩, some nftGroup⟩] :=
    Option.some.inj (hS.symm.trans hSpent)
  have hOnly : ∀ t, some t ∈ S → t = ⟨⟨nft 6, .atoms 1⟩, some nftGroup⟩ := by
    intro t ht
    rw [hEq] at ht
    exact Option.some.inj (mem_singleton.mp ht)
  refine ⟨batch, S, d, hInsert, hEq, hS, hReads.mpr ⟨?_, ?_⟩⟩
  · intro t t' ht ht' _
    rw [hOnly t ht, hOnly t' ht']
  · intro p hp t g ht _ hSec
    refine absurd ?_ hSec
    have hColored := p.colored_eq
    rw [prepareTx_tx hp] at hColored
    rw [hColored, Option.map_some, Option.some.injEq] at hSections
    rw [hOnly t ht]
    exact mem_map.mp (hSections ▸ mem_singleton_self _)

end BatchProcessor

end Ergon
