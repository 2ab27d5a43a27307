import Ergon.Token.Batch

/-!
# Ergon — the token columns

`TokenWriter` and `TokenReader` (`chronik-db/src/io/token/io.rs`) over the three
token columns. Reads during `insert` see the columns before the batch; the
batch is written by `TokenDb.putBatch`.

* `TokenDb.loaded_of_batchDbData` — what is loaded before a batch;
* `TokenDb.spentTokensAndDbTx_eq` — what reading a stored transaction gives.
-/

namespace Ergon

open Lib Std.ExtTreeMap

structure TokenDb where
  genesisInfo : Column TxNum GenesisInfo
  tokenMeta : Column TxNum TokenMeta
  tokenTx : Column TxNum DbTokenTx

/-- A sorted set of transaction numbers. -/
def numSet (nums : List TxNum) : List TxNum :=
  ((∅ : Column TxNum Unit).putAll (nums.map fun n => (n, ()))).keys

namespace TokenDb

def empty : TokenDb := ⟨∅, ∅, ∅⟩

/-! ## Reading -/

def hasAnyTokens (db : TokenDb) : Bool := !db.tokenMeta.isEmpty

def fetchTokenTxs (db : TokenDb) (nums : List TxNum) : Column TxNum DbTokenTx :=
  db.tokenTx.restrict nums

def fetchTokenMetas (db : TokenDb) (nums : List TxNum) :
    Except TokenError (List (TxNum × TokenMeta)) :=
  nums.mapM fun n => (orElse db.tokenMeta[n]? (.tokenTxNumNotFound n)).map fun m => (n, m)

def spentTokensAndDbTx (db : TokenDb) (txNum : TxNum) :
    Except TokenError (Option (List (Option SpentToken) × DbTokenTx)) :=
  match db.tokenTx[txNum]? with
  | none => .ok none
  | some d => do
    let metas ← db.fetchTokenMetas (numSet d.tokenTxNums)
    let tokenMetas := (∅ : Column TxNum TokenMeta).putAll metas
    let spentInputs ← d.inputs.mapM fun input =>
      d.spentToken input fun n => orElse tokenMetas[n]? (.tokenTxNumNotFound n)
    return some (spentInputs, d)

/-! ## Writing -/

/-- The genesis info of a mint vault token, if it is in the database; its
meta is loaded in any case. -/
def addMintVault (db : TokenDb) (txNumByTxid : TxId → Except TokenError (Option TxNum))
    (acc : Column TokenMeta GenesisInfo × List TxNum) (m : TokenMeta) :
    Except TokenError (Column TokenMeta GenesisInfo × List TxNum) := do
  match ← txNumByTxid m.tokenId with
  | none => return acc
  | some txNum =>
    return (db.genesisInfo[txNum]?.elim acc.1 (acc.1.insert m), acc.2 ++ [txNum])

/-- Everything the batch needs from the database. -/
def batchDbData (db : TokenDb) (txNumByTxid : TxId → Except TokenError (Option TxNum))
    (txs : List IndexTx) : Except TokenError BatchDbData := do
  -- for all transactions, so that burns are accounted for
  let inputTokenTxs := db.fetchTokenTxs (numSet (txs.flatMap fun tx => tx.inputNums))
  let tokenTxNums := inputTokenTxs.toList.flatMap fun (_, d) => d.tokenTxNums
  let (genesisInfos, vaultTxNums) ←
    (BatchProcessor.prepare txs).collectMintVaultMetas.foldlM (db.addMintVault txNumByTxid) (∅, [])
  let tokenMetas ← db.fetchTokenMetas (numSet (tokenTxNums ++ vaultTxNums))
  return ⟨inputTokenTxs, BiMap.ofList tokenMetas, genesisInfos⟩

/-- `topo` is the answer of the topological sort. -/
def insert (db : TokenDb) (txNumByTxid : TxId → Except TokenError (Option TxNum))
    (topo : Option (List TxNum)) (txs : List IndexTx) :
    Except TokenError ProcessedTokenTxBatch :=
  let batchProcessor := BatchProcessor.prepare txs
  -- no tokens in the database and no `GENESIS` in the batch
  if db.hasAnyTokens = false ∧ batchProcessor.hasAnyGenesis = false then .ok .empty
  else do
    let batchDbData ← db.batchDbData txNumByTxid txs
    batchProcessor.verify topo batchDbData

def putBatch (db : TokenDb) (batch : ProcessedTokenTxBatch) : TokenDb where
  genesisInfo := db.genesisInfo.putAll (batch.newTokens.map fun (n, _, info) => (n, info))
  tokenMeta := db.tokenMeta.putAll (batch.newTokens.map fun (n, m, _) => (n, m))
  tokenTx := db.tokenTx ∪ batch.dbTokenTxs

/-! ## What is read -/

variable {nums : List TxNum}

variable {n : TxNum}

theorem mem_numSet : n ∈ numSet nums ↔ n ∈ nums := by
  have hGet : ∀ (col : Column TxNum Unit),
      n ∈ (col.putAll (nums.map fun n => (n, ()))).keys ↔ n ∈ nums ∨ n ∈ col.keys := by
    induction nums with
    | nil => simp [Column.putAll]
    | cons k nums ih =>
      intro col
      refine (ih (col.insert k ())).trans ?_
      rw [mem_keys, Std.ExtTreeMap.mem_insert, mem_keys,
        Std.compare_eq_iff_eq, List.mem_cons, or_left_comm, or_assoc, eq_comm]
  refine (hGet ∅).trans ?_
  simp

def readMeta (db : TokenDb) (n : TxNum) : Except TokenError TokenMeta :=
  orElse db.tokenMeta[n]? (.tokenTxNumNotFound n)

variable {db : TokenDb}

theorem readMeta_eq_ok {m : TokenMeta} :
    db.readMeta n = .ok m ↔ db.tokenMeta[n]? = some m := orElse_eq_ok

variable {ps : List (TxNum × TokenMeta)}

theorem fetchTokenMetas_eq_ok :
    db.fetchTokenMetas nums = .ok ps ↔
      List.Forall₂ (fun n p => p.1 = n ∧ db.tokenMeta[n]? = some p.2) nums ps := by
  refine mapM_eq_ok.trans ⟨fun h => h.imp fun n p hp => ?_, fun h => h.imp fun n p hp => ?_⟩
  · obtain ⟨m, hm, rfl⟩ := map_eq_ok.mp hp
    exact ⟨rfl, orElse_eq_ok.mp hm⟩
  · obtain ⟨rfl, hm⟩ := hp
    exact map_eq_ok.mpr ⟨p.2, orElse_eq_ok.mpr hm, rfl⟩

/-- Metas that were fetched in bulk are found again. -/
theorem getElem?_fetchTokenMetas (h : db.fetchTokenMetas (numSet nums) = .ok ps) (hn : n ∈ nums) :
    ∃ m, db.tokenMeta[n]? = some m ∧ ((∅ : Column TxNum TokenMeta).putAll ps)[n]? = some m := by
  have hRel := fetchTokenMetas_eq_ok.mp h
  obtain ⟨⟨n', m⟩, hp, rfl, hm⟩ := Forall₂.exists_right hRel (mem_numSet.mpr hn)
  refine ⟨m, hm, Column.getElem?_putAll_of_mem hp fun m' hm' => ?_⟩
  obtain ⟨y, _, hEq, hy⟩ := Forall₂.exists_left hRel hm'
  cases hEq
  rw [hm] at hy
  exact (Option.some.inj hy).symm

/-- Metas that are all stored can be fetched in bulk. -/
theorem exists_fetchTokenMetas (h : ∀ n ∈ nums, ∃ m, db.tokenMeta[n]? = some m) :
    ∃ ps, db.fetchTokenMetas (numSet nums) = .ok ps := by
  refine exists_mapM_eq_ok fun n hn => ?_
  obtain ⟨m, hm⟩ := h n (mem_numSet.mp hn)
  exact ⟨(n, m), map_eq_ok.mpr ⟨m, orElse_eq_ok.mpr hm, rfl⟩⟩

/-- A stored transaction whose tokens are all known is read through the column
of the metas. -/
theorem spentTokensAndDbTx_eq {d : DbTokenTx} (hd : db.tokenTx[n]? = some d)
    (hNums : ∀ x ∈ d.tokenTxNums, ∃ m, db.tokenMeta[x]? = some m) :
    db.spentTokensAndDbTx n =
      (d.inputs.mapM fun t => d.spentToken t db.readMeta).map fun S => some (S, d) := by
  obtain ⟨ps, hps⟩ := exists_fetchTokenMetas hNums
  have hCongr : ∀ t ∈ d.inputs, d.spentToken t (fun n =>
      orElse ((∅ : Column TxNum TokenMeta).putAll ps)[n]? (.tokenTxNumNotFound n)) =
      d.spentToken t db.readMeta := by
    intro t _
    refine DbTokenTx.spentToken_congr (fun x hx => ?_) t
    obtain ⟨m, hm, hGet⟩ := getElem?_fetchTokenMetas hps hx
    rw [hGet, readMeta, hm]
  unfold spentTokensAndDbTx
  simp only [hd, hps]
  rw [map_eq_bind, ← mapM_congr hCongr]
  rfl

/-- What is loaded for a batch: the transactions it spends from and the tokens
they list. -/
structure Loaded (db : TokenDb) (txs : List IndexTx) (base : BatchDbData) : Prop where
  tokenTxs : ∀ n, base.tokenTxs[n]? =
    if n ∈ txs.flatMap (fun tx => tx.inputNums) then db.tokenTx[n]? else none
  metas : ∀ n m, (n, m) ∈ base.tokenMetas → db.tokenMeta[n]? = some m
  listed : ∀ (n : TxNum) (d : DbTokenTx), base.tokenTxs[n]? = some d →
    ∀ x ∈ d.tokenTxNums, ∃ m, db.tokenMeta[x]? = some m

theorem loaded_of_batchDbData {txNumByTxid : TxId → Except TokenError (Option TxNum)}
    {txs : List IndexTx} {base : BatchDbData} (h : db.batchDbData txNumByTxid txs = .ok base) :
    Loaded db txs base := by
  obtain ⟨⟨infos, vaultNums⟩, _, h⟩ := bind_eq_ok.mp h
  obtain ⟨ps, hps, h⟩ := bind_eq_ok.mp h
  cases pure_eq_ok.mp h
  have hRel := fetchTokenMetas_eq_ok.mp hps
  constructor
  · intro n
    refine (Column.getElem?_restrict _ _ n).trans ?_
    simp only [mem_numSet]
  · intro n m hMem
    obtain ⟨x, _, rfl, hm⟩ := Forall₂.exists_left hRel (BiMap.mem_of_mem_ofList hMem)
    exact hm
  · intro n d hd x hx
    have hMem : x ∈ ((db.fetchTokenTxs (numSet (txs.flatMap fun tx => tx.inputNums))).toList.flatMap
        fun (_, d) => d.tokenTxNums) :=
      List.mem_flatMap.mpr ⟨(n, d), mem_toList_iff_getElem?_eq_some.mpr hd, hx⟩
    obtain ⟨⟨x', m⟩, _, _, hm⟩ :=
      Forall₂.exists_right hRel (mem_numSet.mpr (List.mem_append_left _ hMem))
    exact ⟨m, hm⟩

end TokenDb

end Ergon
