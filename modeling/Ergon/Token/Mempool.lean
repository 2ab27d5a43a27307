import Ergon.Lib.Machine
import Ergon.Token.Insert

/-!
# Ergon — the tokens of the mempool

`MempoolTokens` (`chronik-db/src/mem/tokens.rs`): a transaction that enters the
mempool is coloured and verified on its own, with the tokens of its inputs taken
from the mempool or from the database.

* `MempoolTokens.fetchTxSpentTokensBatch_eq_ok` — the lookups in bulk find what
  a lookup of each input would find (`inputToken`);
* `MempoolTokens.genesisInfo_valid_iff` — over whole runs, the genesis info of a
  mempool transaction is that of a valid `GENESIS` exactly if no `GENESIS` that
  verification rejects (`RejectedGenesis`) is inserted.
-/

namespace Ergon

open Lib List Option

/-- What can stop a transaction from being inserted. The source nests two
results: `db` is the outer error. -/
inductive MempoolTokensError
  | inputTxNotFound (txid : TxId)
  | inputTxNoSuchOutput (prevOut : OutPoint)
  | db (error : TokenError)
deriving DecidableEq

structure MempoolTokens where
  tokenTxs : Column TxId TokenTx
  txTokenInputs : Column TxId (List (Option SpentToken))

/-- What an insert reads besides the tokens of the mempool: the token columns,
the numbers of stored transactions and which transactions the mempool has. -/
structure MempoolReader where
  tokens : TokenDb
  txNumByTxid : TxId → Except TokenError (Option TxNum)
  isMempoolTx : TxId → Bool

/-- Where the token of an input is looked up. -/
inductive InputLookup
  | found (spent : Option SpentToken)
  | stored (prevOut : OutPoint) (txNum : TxNum)

def InputLookup.txNum : InputLookup → Option TxNum
  | .found _ => none
  | .stored _ txNum => some txNum

/-- The transactions that created the token at an index and its group. -/
def DbTokenTx.usedTxNumsAt (d : DbTokenTx) (idx : Nat) : Except TokenError (List TxNum) := do
  let tokenTxNum ← orElse d.tokenTxNums[idx]? .outOfBounds
  let groupTxNum ← d.groupTxNumAt idx
  return tokenTxNum :: groupTxNum.toList

def DbTokenTx.usedTxNums (d : DbTokenTx) (t : DbToken) : Except TokenError (List TxNum) :=
  match t.tokenNumIdx with
  -- non-token or unknown outputs
  | none => .ok []
  | some idx => d.usedTxNumsAt idx

/-- The token on an output of a transaction that is not stored. -/
def TokenTx.tokenAt (tokenTx : TokenTx) (prevOut : OutPoint) :
    Except MempoolTokensError (Option SpentToken) :=
  match tokenTx.outputs[prevOut.outIdx]? with
  | none => .error (.inputTxNoSuchOutput prevOut)
  | some none => .ok none
  | some (some o) => (orElse (tokenTx.spentToken o) (.db .outOfBounds)).map some

namespace MempoolTokens

def empty : MempoolTokens := ⟨∅, ∅⟩

/-! ## Spent tokens -/

/-- Find an input in the mempool, or its number in the database. `batchTxs` are
transactions that are about to enter the mempool. -/
def findInput (m : MempoolTokens) (r : MempoolReader) (batchTxs : Column TxId TokenTx)
    (input : TxInput) : Except MempoolTokensError InputLookup :=
  match m.tokenTxs[input.prevOut.txid]? with
  | some tokenTx => (tokenTx.tokenAt input.prevOut).map .found
  | none =>
    if r.isMempoolTx input.prevOut.txid then
      match batchTxs[input.prevOut.txid]? with
      | some tokenTx => (tokenTx.tokenAt input.prevOut).map .found
      | none => .ok (.found none)
    else do
      match ← (r.txNumByTxid input.prevOut.txid).mapError .db with
      | some txNum => return .stored input.prevOut txNum
      | none => throw (.inputTxNotFound input.prevOut.txid)

/-- The stored token an input spends, `none` if it is not in a token
transaction. -/
def storedToken (tokenTxs : Column TxNum DbTokenTx) (prevOut : OutPoint) (txNum : TxNum) :
    Except MempoolTokensError (Option (DbTokenTx × DbToken)) :=
  match tokenTxs[txNum]? with
  | none => .ok none
  | some d =>
    (orElse d.outputs[prevOut.outIdx]? (.inputTxNoSuchOutput prevOut)).map fun t => some (d, t)

def lookupTxNums (tokenTxs : Column TxNum DbTokenTx) :
    InputLookup → Except MempoolTokensError (List TxNum)
  | .found _ => .ok []
  | .stored prevOut txNum => do
    match ← storedToken tokenTxs prevOut txNum with
    | none => return []
    | some (d, t) => (d.usedTxNums t).mapError .db

def fillInput (tokenTxs : Column TxNum DbTokenTx) (fnMeta : TxNum → Except TokenError TokenMeta) :
    InputLookup → Except MempoolTokensError (Option SpentToken)
  | .found spent => .ok spent
  | .stored prevOut txNum => do
    match ← storedToken tokenTxs prevOut txNum with
    | none => return none
    | some (d, t) => (d.spentToken t fnMeta).mapError .db

def fetchTxSpentTokensBatch (m : MempoolTokens) (tx : Tx) (r : MempoolReader)
    (batchTxs : Column TxId TokenTx) : Except MempoolTokensError (List (Option SpentToken)) := do
  let lookups ← tx.inputs.mapM (m.findInput r batchTxs)
  -- only once per number
  let tokenTxs := r.tokens.fetchTokenTxs (numSet (lookups.filterMap InputLookup.txNum))
  let txNums ← lookups.mapM (lookupTxNums tokenTxs)
  let metas ← (r.tokens.fetchTokenMetas (numSet txNums.flatten)).mapError .db
  let tokenMetas := (∅ : Column TxNum TokenMeta).putAll metas
  lookups.mapM (fillInput tokenTxs fun n => orElse tokenMetas[n]? .outOfBounds)

def fetchTxSpentTokens (m : MempoolTokens) (tx : Tx) (r : MempoolReader) :
    Except MempoolTokensError (List (Option SpentToken)) :=
  m.fetchTxSpentTokensBatch tx r ∅

/-! ## Verifying -/

/-- The scripts of the inputs, empty where the coin is not known. -/
def spentScripts (tx : Tx) : List Script :=
  tx.inputs.map fun input => input.coin.elim ⟨[]⟩ (·.output.script)

/-- Mints of mint vault tokens need the spent scripts and the `GENESIS`, which
has to be in the database. -/
def probeContext (tx : Tx) (r : MempoolReader) (colored : ColoredTx)
    (spentTokens : List (Option SpentToken)) : Except MempoolTokensError VerifyContext :=
  match colored.sections.head? with
  | none => .ok ⟨spentTokens, none, none, none⟩
  | some first =>
    if first.isMintVaultMint then do
      let txNum ← (r.txNumByTxid first.tokenMeta.tokenId).mapError .db
      return ⟨spentTokens, some (spentScripts tx), txNum.bind fun n => r.tokens.genesisInfo[n]?,
        none⟩
    else .ok ⟨spentTokens, none, none, none⟩

/-- What a transaction is verified as: transactions without a payload can still
burn tokens. -/
def coloring (tx : Tx) : ColoredTx := (colorTx tx).getD (ColoredTx.uncolored tx)

def probe (m : MempoolTokens) (r : MempoolReader) (tx : Tx) :
    Except MempoolTokensError (Option (TokenTx × List (Option SpentToken))) := do
  let spentTokens ← m.fetchTxSpentTokens tx r
  if (colorTx tx).isNone ∧ spentTokens.any Option.isSome = false then return none
  else
    let context ← probeContext tx r (coloring tx) spentTokens
    return some (context.verify (coloring tx), spentTokens)

def insert (m : MempoolTokens) (r : MempoolReader) (tx : Tx) :
    Except MempoolTokensError MempoolTokens := do
  match ← m.probe r tx with
  | none => return m
  | some (verified, spentTokens) =>
    return {
      tokenTxs := m.tokenTxs.insert tx.txid verified
      txTokenInputs :=
        if spentTokens.any Option.isSome then m.txTokenInputs.insert tx.txid spentTokens
        else m.txTokenInputs }

def remove (m : MempoolTokens) (txid : TxId) : MempoolTokens :=
  ⟨m.tokenTxs.erase txid, m.txTokenInputs.erase txid⟩

def genesisInfo (m : MempoolTokens) (txid : TxId) : Option GenesisInfo := do
  let tokenTx ← m.tokenTxs[txid]?
  let entry ← tokenTx.entries.head?
  entry.genesisInfo

end MempoolTokens

/-! ## What an input spends -/

namespace DbTokenTx

variable {d : DbTokenTx} {fnMeta fnMeta' : TxNum → Except TokenError TokenMeta}

theorem usedTxNumsAt_eq_ok {idx : Nat} {nums : List TxNum} :
    d.usedTxNumsAt idx = .ok nums ↔ ∃ n group, d.tokenTxNums[idx]? = some n ∧
      d.groupTxNumAt idx = .ok group ∧ nums = n :: group.toList := by
  unfold usedTxNumsAt
  constructor
  · intro h
    obtain ⟨n, hn, h⟩ := bind_eq_ok.mp h
    obtain ⟨group, hGroup, h⟩ := bind_eq_ok.mp h
    exact ⟨n, group, orElse_eq_ok.mp hn, hGroup, (pure_eq_ok.mp h).symm⟩
  · rintro ⟨n, group, hn, hGroup, rfl⟩
    exact bind_eq_ok.mpr ⟨n, orElse_eq_ok.mpr hn, bind_eq_ok.mpr ⟨group, hGroup, rfl⟩⟩

/-- A token that can be read has creators that are known. -/
theorem usedTxNums_of_spentToken {t : DbToken} {spent : Option SpentToken}
    (h : d.spentToken t fnMeta = .ok spent) :
    ∃ nums, d.usedTxNums t = .ok nums ∧ ∀ n ∈ nums, ∃ m, fnMeta n = .ok m := by
  have hIndexed : ∀ idx variant, d.indexedToken fnMeta idx variant = .ok spent →
      ∃ nums, d.usedTxNumsAt idx = .ok nums ∧ ∀ n ∈ nums, ∃ m, fnMeta n = .ok m := by
    intro idx variant h
    obtain ⟨group, hGroup, h⟩ := bind_eq_ok.mp h
    obtain ⟨n, hn, h⟩ := bind_eq_ok.mp h
    obtain ⟨m, hm, h⟩ := bind_eq_ok.mp h
    refine ⟨_, usedTxNumsAt_eq_ok.mpr ⟨n, group, orElse_eq_ok.mp hn, hGroup, rfl⟩, ?_⟩
    intro x hx
    rcases mem_cons.mp hx with rfl | hx
    · exact ⟨m, hm⟩
    · cases group with
      | none => cases hx
      | some g =>
        obtain ⟨gm, hgm, -⟩ := bind_eq_ok.mp h
        cases mem_singleton.mp hx
        exact ⟨gm, hgm⟩
  cases t with
  | atoms idx n => exact hIndexed idx (.atoms n) h
  | mintBaton idx => exact hIndexed idx .mintBaton h
  | noToken | unknownSlp byte | unknownAlp byte => exact ⟨[], rfl, fun _ hn => absurd hn not_mem_nil⟩

/-- Reading a token only asks for its creators. -/
theorem spentToken_congr_used {t : DbToken} {nums : List TxNum} (hNums : d.usedTxNums t = .ok nums)
    (h : ∀ n ∈ nums, fnMeta n = fnMeta' n) : d.spentToken t fnMeta = d.spentToken t fnMeta' := by
  have hIndexed : ∀ idx variant, d.usedTxNumsAt idx = .ok nums →
      d.indexedToken fnMeta idx variant = d.indexedToken fnMeta' idx variant := by
    intro idx variant hUsed
    obtain ⟨n, group, hn, hGroup, rfl⟩ := usedTxNumsAt_eq_ok.mp hUsed
    unfold indexedToken
    rw [hGroup, hn]
    change (fnMeta n >>= _) = (fnMeta' n >>= _)
    rw [h n mem_cons_self]
    cases group with
    | none => rfl
    | some g => simp only [h g (mem_cons_of_mem _ (mem_singleton_self g))]
  cases t with
  | atoms idx n => exact hIndexed idx (.atoms n) hNums
  | mintBaton idx => exact hIndexed idx .mintBaton hNums
  | noToken => rfl
  | unknownSlp byte => rfl
  | unknownAlp byte => rfl

end DbTokenTx

namespace MempoolTokens

/-- The token of a single input. -/
def inputToken (m : MempoolTokens) (r : MempoolReader) (batchTxs : Column TxId TokenTx)
    (input : TxInput) : Except MempoolTokensError (Option SpentToken) := do
  fillInput r.tokens.tokenTx r.tokens.readMeta (← m.findInput r batchTxs input)

variable {db : TokenDb} {tokenTxs : Column TxNum DbTokenTx}

variable {lookups : List InputLookup}

/-- A lookup finds the same in the rows that were fetched for it. -/
theorem storedToken_fetched {prevOut : OutPoint} {txNum : TxNum}
    (h : .stored prevOut txNum ∈ lookups) :
    storedToken (db.fetchTokenTxs (numSet (lookups.filterMap InputLookup.txNum))) prevOut txNum =
      storedToken db.tokenTx prevOut txNum := by
  have hMem : txNum ∈ numSet (lookups.filterMap InputLookup.txNum) :=
    TokenDb.mem_numSet.mpr (mem_filterMap.mpr ⟨_, h, rfl⟩)
  have hGet : (db.fetchTokenTxs (numSet (lookups.filterMap InputLookup.txNum)))[txNum]? =
      db.tokenTx[txNum]? := by
    refine (Column.getElem?_restrict _ _ txNum).trans ?_
    rw [if_pos hMem]
  unfold storedToken
  rw [hGet]

variable {l : InputLookup}

theorem lookupTxNums_fetched (h : l ∈ lookups) :
    lookupTxNums (db.fetchTokenTxs (numSet (lookups.filterMap InputLookup.txNum))) l =
      lookupTxNums db.tokenTx l := by
  cases l with
  | found => rfl
  | stored prevOut txNum => simp only [lookupTxNums, storedToken_fetched h]

theorem fillInput_fetched (h : l ∈ lookups) (fnMeta : TxNum → Except TokenError TokenMeta) :
    fillInput (db.fetchTokenTxs (numSet (lookups.filterMap InputLookup.txNum))) fnMeta l =
      fillInput db.tokenTx fnMeta l := by
  cases l with
  | found => rfl
  | stored prevOut txNum => simp only [fillInput, storedToken_fetched h]

variable {fnMeta fnMeta' : TxNum → Except TokenError TokenMeta} {l : InputLookup}

theorem lookupTxNums_of_fillInput {spent : Option SpentToken}
    (h : fillInput tokenTxs fnMeta l = .ok spent) :
    ∃ nums, lookupTxNums tokenTxs l = .ok nums ∧ ∀ n ∈ nums, ∃ m, fnMeta n = .ok m := by
  cases l with
  | found => exact ⟨[], rfl, fun _ hn => absurd hn not_mem_nil⟩
  | stored prevOut txNum =>
    obtain ⟨found, hFound, h⟩ := bind_eq_ok.mp h
    cases found with
    | none =>
      exact ⟨[], bind_eq_ok.mpr ⟨none, hFound, rfl⟩, fun _ hn => absurd hn not_mem_nil⟩
    | some dt =>
      obtain ⟨nums, hNums, hKnown⟩ :=
        DbTokenTx.usedTxNums_of_spentToken (mapError_eq_ok.mp h)
      exact ⟨nums, bind_eq_ok.mpr ⟨some dt, hFound, mapError_eq_ok.mpr hNums⟩, hKnown⟩

theorem fillInput_congr {nums : List TxNum} (hNums : lookupTxNums tokenTxs l = .ok nums)
    (h : ∀ n ∈ nums, fnMeta n = fnMeta' n) :
    fillInput tokenTxs fnMeta l = fillInput tokenTxs fnMeta' l := by
  cases l with
  | found => rfl
  | stored prevOut txNum =>
    obtain ⟨found, hFound, hUsed⟩ := bind_eq_ok.mp hNums
    show (storedToken tokenTxs prevOut txNum >>= _) = (storedToken tokenTxs prevOut txNum >>= _)
    rw [hFound]
    cases found with
    | none => rfl
    | some dt =>
      show (dt.1.spentToken dt.2 fnMeta).mapError _ = (dt.1.spentToken dt.2 fnMeta').mapError _
      rw [DbTokenTx.spentToken_congr_used (mapError_eq_ok.mp hUsed) h]

/-- The metas that were fetched for the lookups are all they need. -/
theorem fillInput_metas {txNums : List (List TxNum)} {ps : List (TxNum × TokenMeta)}
    (hNums : lookups.mapM (lookupTxNums db.tokenTx) = .ok txNums)
    (hps : db.fetchTokenMetas (numSet txNums.flatten) = .ok ps) (hl : l ∈ lookups) :
    fillInput db.tokenTx
        (fun n => orElse ((∅ : Column TxNum TokenMeta).putAll ps)[n]? .outOfBounds) l =
      fillInput db.tokenTx db.readMeta l := by
  obtain ⟨nums, hMem, hUsed⟩ := Forall₂.exists_right (mapM_eq_ok.mp hNums) hl
  refine fillInput_congr hUsed fun n hn => ?_
  obtain ⟨tokenMeta, hStored, hGet⟩ := TokenDb.getElem?_fetchTokenMetas hps
    (mem_flatten.mpr ⟨nums, hMem, hn⟩)
  rw [hGet, TokenDb.readMeta, hStored]
  rfl

/-- Looking up all inputs in bulk finds what looking up each of them finds. -/
theorem fetchTxSpentTokensBatch_eq_ok {m : MempoolTokens} {tx : Tx} {r : MempoolReader}
    {batchTxs : Column TxId TokenTx} {S : List (Option SpentToken)} :
    m.fetchTxSpentTokensBatch tx r batchTxs = .ok S ↔
      tx.inputs.mapM (m.inputToken r batchTxs) = .ok S := by
  refine Iff.trans ?_ mapM_bind_eq_ok.symm
  constructor
  · intro h
    obtain ⟨lookups, hLookups, h⟩ := bind_eq_ok.mp h
    obtain ⟨txNums, hNums, h⟩ := bind_eq_ok.mp h
    obtain ⟨ps, hps, h⟩ := bind_eq_ok.mp h
    rw [mapM_congr fun l hl => lookupTxNums_fetched hl] at hNums
    refine ⟨lookups, hLookups, ?_⟩
    rwa [mapM_congr fun l hl => fillInput_fetched hl _,
      mapM_congr fun l hl => fillInput_metas hNums (mapError_eq_ok.mp hps) hl] at h
  · rintro ⟨lookups, hLookups, h⟩
    -- every token that can be read has creators whose metas are stored
    have hUsed : ∀ l ∈ lookups, ∃ nums, lookupTxNums r.tokens.tokenTx l = .ok nums ∧
        ∀ n ∈ nums, ∃ tokenMeta, r.tokens.tokenMeta[n]? = some tokenMeta := by
      intro l hl
      obtain ⟨spent, -, hSpent⟩ := Forall₂.exists_right (mapM_eq_ok.mp h) hl
      obtain ⟨nums, hNums, hKnown⟩ := lookupTxNums_of_fillInput hSpent
      refine ⟨nums, hNums, fun n hn => ?_⟩
      exact (hKnown n hn).imp fun _ => TokenDb.readMeta_eq_ok.mp
    obtain ⟨txNums, hNums⟩ := exists_mapM_eq_ok fun l hl => (hUsed l hl).imp fun _ => And.left
    obtain ⟨ps, hps⟩ : ∃ ps, r.tokens.fetchTokenMetas (numSet txNums.flatten) = .ok ps := by
      refine TokenDb.exists_fetchTokenMetas fun n hn => ?_
      obtain ⟨nums, hMem, hn⟩ := mem_flatten.mp hn
      obtain ⟨l, hl, hEq⟩ := Forall₂.exists_left (mapM_eq_ok.mp hNums) hMem
      obtain ⟨nums', hNums', hKnown⟩ := hUsed l hl
      cases hEq.symm.trans hNums'
      exact hKnown n hn
    refine bind_eq_ok.mpr ⟨lookups, hLookups, bind_eq_ok.mpr ⟨txNums, ?_, ?_⟩⟩
    · rwa [mapM_congr fun l hl => lookupTxNums_fetched hl]
    · refine bind_eq_ok.mpr ⟨ps, mapError_eq_ok.mpr hps, ?_⟩
      rwa [mapM_congr fun l hl => fillInput_fetched hl _,
        mapM_congr fun l hl => fillInput_metas hNums hps hl]

end MempoolTokens

/-! ## The genesis info of a mempool transaction

It is read from the first entry, whose info comes from the payload. -/

/-- A `GENESIS` that is the first entry and that verification rejects: one with
too many inputs, an NFT without its group, or one that could not be coloured. -/
def RejectedGenesis (colored : ColoredTx) (spentTokens : List (Option SpentToken)) : Prop :=
  match colored.sections with
  | first :: _ => first.txType = .genesis ∧
      ((first.tokenMeta.tokenType.isAlp = true ∧ maxTxInputs < spentTokens.length) ∨
        (first.tokenMeta.tokenType = .slp .nft1Child ∧
          VerifyContext.nft1Group ⟨spentTokens, none, none, none⟩ = none))
  | [] => colored.intentionalBurns = [] ∧
      ∃ f ∈ colored.failedColorings.head?, f.parsed.txType.txType = .genesis

/-- The first entry has a genesis info, but is not that of a valid `GENESIS`. -/
def TokenTx.ReportsInvalid (t : TokenTx) : Prop :=
  ∃ e ∈ t.entries.head?, e.genesisInfo.isSome = true ∧
    ¬ (e.txType = some .genesis ∧ e.isInvalid = false)

namespace VerifyContext

/-- What later stages leave of an entry. -/
structure Follows (e e' : TokenTxEntry) : Prop where
  txType : e'.txType = e.txType
  genesisInfo : e'.genesisInfo = e.genesisInfo
  invalid : e.isInvalid = true → e'.isInvalid = true

theorem Follows.refl (e : TokenTxEntry) : Follows e e := ⟨rfl, rfl, id⟩

theorem Follows.trans {e e' e'' : TokenTxEntry} (h : Follows e e') (h' : Follows e' e'') :
    Follows e e'' :=
  ⟨h'.txType.trans h.txType, h'.genesisInfo.trans h.genesisInfo, fun hi => h'.invalid (h.invalid hi)⟩

/-- A stage that adds entries at the end and leaves the first entry in its place. -/
def KeepsFirst {β : Type} (stage : List TokenTxEntry → β → List TokenTxEntry) : Prop :=
  ∀ entries b e, entries.head? = some e → ∃ e', (stage entries b).head? = some e' ∧ Follows e e'

theorem KeepsFirst.foldl {β : Type} {stage : List TokenTxEntry → β → List TokenTxEntry}
    (h : KeepsFirst stage) (bs : List β) {entries : List TokenTxEntry} {e : TokenTxEntry}
    (he : entries.head? = some e) :
    ∃ e', (bs.foldl stage entries).head? = some e' ∧ Follows e e' := by
  induction bs generalizing entries e with
  | nil => exact ⟨e, he, .refl e⟩
  | cons b bs ih =>
    obtain ⟨e₁, he₁, h₁⟩ := h entries b e he
    obtain ⟨e₂, he₂, h₂⟩ := ih he₁
    exact ⟨e₂, he₂, h₁.trans h₂⟩

theorem keepsFirst_addIntentionalBurn : KeepsFirst addIntentionalBurn := by
  intro entries burn e he
  refine ⟨e, ?_, .refl e⟩
  unfold addIntentionalBurn
  split
  · exact he
  · rw [head?_append, he]
    rfl

theorem keepsFirst_addFailedColoring : KeepsFirst addFailedColoring := by
  intro entries f e he
  refine ⟨_, head?_upsert he _ _, ?_⟩
  split
  · exact ⟨rfl, rfl, id⟩
  · exact .refl e

theorem keepsFirst_addBareBurn : KeepsFirst addBareBurn := by
  intro entries b e he
  refine ⟨_, head?_upsert he _ _, ?_⟩
  split
  · exact ⟨rfl, rfl, fun hi => by rw [BareBurn.update, hi, Bool.true_or]⟩
  · exact .refl e

variable {ctx : VerifyContext} {colored : ColoredTx}

/-- An entry that is first before the burns is first in the end. -/
theorem head?_verifyEntries {e : TokenTxEntry}
    (he : (colored.failedColorings.foldl addFailedColoring
      (colored.intentionalBurns.foldl addIntentionalBurn
        (colored.sections.map (ctx.verifySection colored)))).head? = some e) :
    ∃ e', (ctx.verify colored).entries.head? = some e' ∧ Follows e e' :=
  keepsFirst_addBareBurn.foldl _ he

theorem not_reportsInvalid_of_follows {e e' : TokenTxEntry}
    (hHead : (ctx.verify colored).entries.head? = some e') (h : Follows e e')
    (hInfo : e.genesisInfo = none) : ¬ (ctx.verify colored).ReportsInvalid := by
  rintro ⟨x, hx, hSome, -⟩
  cases hHead.symm.trans hx
  rw [h.genesisInfo, hInfo] at hSome
  cases hSome

/-- Without sections, the first entry is that of a burn, of a payload that could
not be coloured, or of a spent token. -/
theorem reportsInvalid_of_no_sections (hNone : colored.sections = []) :
    (ctx.verify colored).ReportsInvalid ↔ colored.intentionalBurns = [] ∧
      ∃ f ∈ colored.failedColorings.head?, f.parsed.txType.txType = .genesis := by
  cases hBurns : colored.intentionalBurns with
  | cons burn burns =>
    obtain ⟨e₁, he₁, h₁⟩ := keepsFirst_addIntentionalBurn.foldl burns
      (show (addIntentionalBurn [] burn).head? = some _ from rfl)
    obtain ⟨e₂, he₂, h₂⟩ := keepsFirst_addFailedColoring.foldl colored.failedColorings he₁
    have hBase : (colored.failedColorings.foldl addFailedColoring
        (colored.intentionalBurns.foldl addIntentionalBurn
          (colored.sections.map (ctx.verifySection colored)))).head? = some e₂ := by
      rw [hNone, hBurns]
      exact he₂
    obtain ⟨e₃, he₃, h₃⟩ := head?_verifyEntries hBase
    have hNot := not_reportsInvalid_of_follows he₃ ((h₁.trans h₂).trans h₃) rfl
    exact ⟨fun h => absurd h hNot, fun h => nomatch h.1⟩
  | nil =>
    rw [and_iff_right rfl]
    cases hFailed : colored.failedColorings with
    | cons f fs =>
      obtain ⟨e₁, he₁, h₁⟩ := keepsFirst_addFailedColoring.foldl fs
        (show (addFailedColoring [] f).head? = some (failedEntry f) from rfl)
      have hBase : (colored.failedColorings.foldl addFailedColoring
          (colored.intentionalBurns.foldl addIntentionalBurn
            (colored.sections.map (ctx.verifySection colored)))).head? = some e₁ := by
        rw [hNone, hBurns, hFailed]
        exact he₁
      obtain ⟨e₂, he₂, h₂⟩ := head?_verifyEntries hBase
      have h := h₁.trans h₂
      have hInfo : e₂.genesisInfo.isSome = true ↔ f.parsed.txType.txType = .genesis := by
        rw [h.genesisInfo]
        cases hType : f.parsed.txType <;> simp [failedEntry, hType, ParsedTxType.txType]
      constructor
      · rintro ⟨e, he, hSome, -⟩
        cases he₂.symm.trans he
        exact ⟨f, rfl, hInfo.mp hSome⟩
      · rintro ⟨f', hf', hType⟩
        cases hf'
        refine ⟨e₂, he₂, hInfo.mpr hType, fun hValid => ?_⟩
        rw [h.invalid rfl] at hValid
        exact absurd hValid.2 nofun
    | nil =>
      refine ⟨fun h => ?_, fun ⟨f, hf, _⟩ => nomatch hf⟩
      -- only tokens that are spent have an entry
      cases hList : (ctx.calcBareBurns colored []).toList with
      | nil =>
        obtain ⟨e, he, -⟩ := h
        have hEntries : (ctx.verify colored).entries = [] := by
          show ctx.verifyEntries colored = []
          unfold verifyEntries
          simp only [hNone, hBurns, hFailed, map_nil, foldl_nil, hList]
        rw [hEntries] at he
        cases he
      | cons b bs =>
        obtain ⟨e, he, hFollows⟩ := keepsFirst_addBareBurn.foldl bs
          (show (addBareBurn [] b).head? = some (BareBurn.toEntry b.2 b.1) from rfl)
        have hHead : (ctx.verify colored).entries.head? = some e := by
          show (ctx.verifyEntries colored).head? = some e
          unfold verifyEntries
          simp only [hNone, hBurns, hFailed, map_nil, foldl_nil, hList]
          exact he
        exact absurd h (not_reportsInvalid_of_follows hHead hFollows rfl)

/-- With sections, the first entry is that of the first section. -/
theorem reportsInvalid_of_section {txid : TxId} {first : ColoredTxSection}
    {rest : List ColoredTxSection} (hSections : colored.sections = first :: rest)
    (hwf : first.WellFormed txid) :
    (ctx.verify colored).ReportsInvalid ↔ first.txType = .genesis ∧ ¬ ctx.SectionValid first := by
  obtain ⟨e, he, hVerdict⟩ := entry_of_section ctx
    (show colored.sections[0]? = some first by rw [hSections]; rfl)
  have hHead : (ctx.verify colored).entries.head? = some e := head?_eq_getElem? ▸ he
  have hType : e.txType = some first.txType :=
    (congrArg Verdict.txType hVerdict).trans (txType_verifySection ..)
  have hInfo : e.genesisInfo = first.genesisInfo :=
    (congrArg Verdict.genesisInfo hVerdict).trans (genesisInfo_verifySection ..)
  have hInvalid : e.isInvalid = false ↔ ctx.SectionValid first := by
    have hEq : e.isInvalid = (ctx.verifySection colored first).isInvalid :=
      congrArg Verdict.isInvalid hVerdict
    rw [hEq]
    exact isInvalid_verifySection ctx colored first
  -- only a `GENESIS` has a genesis info
  have hGenesis : first.genesisInfo.isSome = true ↔ first.txType = .genesis := by
    unfold ColoredTxSection.WellFormed at hwf
    cases hCase : first.txType <;> simp_all
  constructor
  · rintro ⟨x, hx, hSome, hNot⟩
    cases hHead.symm.trans hx
    rw [hInfo, hGenesis] at hSome
    refine ⟨hSome, fun hValid => hNot ⟨?_, hInvalid.mpr hValid⟩⟩
    rw [hType, hSome]
  · rintro ⟨hFirst, hNot⟩
    refine ⟨e, hHead, ?_, fun h => hNot (hInvalid.mp h.2)⟩
    rw [hInfo, hGenesis]
    exact hFirst

theorem reportsInvalid_iff {txid : TxId} (hwf : colored.WellFormed txid) :
    (ctx.verify colored).ReportsInvalid ↔ RejectedGenesis colored ctx.spentTokens := by
  unfold RejectedGenesis
  split
  · next first rest hSections =>
    have hFirst : first.WellFormed txid := hwf.section_wf first (by rw [hSections]; simp)
    rw [reportsInvalid_of_section hSections hFirst]
    refine and_congr_right fun hType => ?_
    have hGroup : ctx.nft1Group = nft1Group ⟨ctx.spentTokens, none, none, none⟩ := rfl
    simp only [SectionValid, hType, ← hGroup]
    rw [not_and_or]
    simp
  · next hNone => exact reportsInvalid_of_no_sections hNone

end VerifyContext

namespace MempoolTokens

inductive Op
  | insert (r : MempoolReader) (tx : Tx)
  | remove (txid : TxId)

/-- A failed insert leaves the tokens alone. -/
def step (m : MempoolTokens) : Op → Option MempoolTokens
  | .insert r tx => some ((m.insert r tx).toOption.getD m)
  | .remove txid => some (m.remove txid)

/-- Every genesis info that is reported is that of a valid `GENESIS`. -/
def GenesisInfoValid (m : MempoolTokens) : Prop :=
  ∀ txid info, m.genesisInfo txid = some info → ∃ tokenTx entry,
    m.tokenTxs[txid]? = some tokenTx ∧ tokenTx.entries.head? = some entry ∧
      entry.txType = some .genesis ∧ entry.isInvalid = false

/-- The call inserts a `GENESIS` that verification rejects. -/
def InsertsRejected (m : MempoolTokens) : Op → Prop
  | .insert r tx => ∃ S, m.fetchTxSpentTokens tx r = .ok S ∧ RejectedGenesis (coloring tx) S
  | .remove _ => False

variable {m m' : MempoolTokens} {r : MempoolReader} {tx : Tx} {S : List (Option SpentToken)}

theorem genesisInfoValid_iff :
    m.GenesisInfoValid ↔
      ∀ (txid : TxId) (t : TokenTx), m.tokenTxs[txid]? = some t → ¬ t.ReportsInvalid := by
  constructor
  · rintro h txid t ht ⟨e, he, hSome, hNot⟩
    obtain ⟨info, hInfo⟩ := isSome_iff_exists.mp hSome
    have hReported : m.genesisInfo txid = some info := by
      simp only [genesisInfo, ht, bind_eq_bind, bind_some]
      rw [mem_def.mp he]
      exact hInfo
    obtain ⟨t', e', ht', he', hValid⟩ := h txid info hReported
    cases ht.symm.trans ht'
    cases he'.symm.trans he
    exact hNot hValid
  · intro h txid info hReported
    obtain ⟨t, ht, hReported⟩ := bind_eq_some_iff.mp hReported
    obtain ⟨e, he, hInfo⟩ := bind_eq_some_iff.mp hReported
    refine ⟨t, e, ht, he, ?_⟩
    by_contra hNot
    exact h txid t ht ⟨e, he, by rw [hInfo]; rfl, hNot⟩

theorem wellFormed_coloring (tx : Tx) : (coloring tx).WellFormed tx.txid := by
  unfold coloring
  cases hColor : colorTx tx with
  | none => exact ColoredTx.uncolored_wellFormed tx
  | some colored => exact (colorTx_wellFormed hColor).1

theorem spentTokens_of_probeContext {colored : ColoredTx} {ctx : VerifyContext}
    (h : probeContext tx r colored S = .ok ctx) : ctx.spentTokens = S := by
  unfold probeContext at h
  split at h
  · cases h
    rfl
  · split at h
    · obtain ⟨txNum, -, h⟩ := bind_eq_ok.mp h
      cases pure_eq_ok.mp h
      rfl
    · cases h
      rfl

/-- What an insert does, given the tokens that are spent. -/
theorem insert_eq_ok : m.insert r tx = .ok m' ↔ ∃ S, m.fetchTxSpentTokens tx r = .ok S ∧
    if (colorTx tx).isNone ∧ S.any Option.isSome = false then m' = m
    else ∃ ctx, probeContext tx r (coloring tx) S = .ok ctx ∧
      m' = ⟨m.tokenTxs.insert tx.txid (ctx.verify (coloring tx)),
        if S.any Option.isSome then m.txTokenInputs.insert tx.txid S else m.txTokenInputs⟩ := by
  unfold insert probe
  constructor
  · intro h
    obtain ⟨probed, hProbe, h⟩ := bind_eq_ok.mp h
    obtain ⟨S, hS, hProbe⟩ := bind_eq_ok.mp hProbe
    refine ⟨S, hS, ?_⟩
    by_cases hSkip : (colorTx tx).isNone ∧ S.any Option.isSome = false
    · rw [if_pos hSkip] at hProbe ⊢
      cases pure_eq_ok.mp hProbe
      exact (pure_eq_ok.mp h).symm
    · rw [if_neg hSkip] at hProbe ⊢
      obtain ⟨ctx, hCtx, hProbe⟩ := bind_eq_ok.mp hProbe
      cases pure_eq_ok.mp hProbe
      exact ⟨ctx, hCtx, (pure_eq_ok.mp h).symm⟩
  · rintro ⟨S, hS, h⟩
    by_cases hSkip : (colorTx tx).isNone ∧ S.any Option.isSome = false
    · rw [if_pos hSkip] at h
      refine bind_eq_ok.mpr ⟨none, bind_eq_ok.mpr ⟨S, hS, ?_⟩, congrArg _ h.symm⟩
      rw [if_pos hSkip]
      rfl
    · rw [if_neg hSkip] at h
      obtain ⟨ctx, hCtx, rfl⟩ := h
      refine bind_eq_ok.mpr ⟨some (ctx.verify (coloring tx), S), bind_eq_ok.mpr ⟨S, hS, ?_⟩, rfl⟩
      rw [if_neg hSkip]
      exact bind_eq_ok.mpr ⟨ctx, hCtx, rfl⟩

/-- A call that inserts no rejected `GENESIS` keeps the reports valid. -/
theorem genesisInfoValid_step {op : Op} (hValid : m.GenesisInfoValid)
    (hOp : ¬ m.InsertsRejected op) (h : m.step op = some m') : m'.GenesisInfoValid := by
  rw [genesisInfoValid_iff] at hValid ⊢
  intro txid t ht
  cases op with
  | remove removed =>
    cases h
    have hGet := (Column.getElem?_erase m.tokenTxs removed txid).symm.trans ht
    split at hGet
    · cases hGet
    · exact hValid txid t hGet
  | insert r tx =>
    cases h
    cases hInsert : m.insert r tx with
    | error =>
      rw [hInsert] at ht
      exact hValid txid t ht
    | ok m' =>
      rw [hInsert] at ht
      obtain ⟨S, hS, hCase⟩ := insert_eq_ok.mp hInsert
      split at hCase
      · cases hCase
        exact hValid txid t ht
      · obtain ⟨ctx, hCtx, rfl⟩ := hCase
        have hGet := (Column.getElem?_insert m.tokenTxs tx.txid txid _).symm.trans ht
        split at hGet
        · cases hGet
          rw [VerifyContext.reportsInvalid_iff (wellFormed_coloring tx),
            spentTokens_of_probeContext hCtx]
          exact fun hRejected => hOp ⟨S, hS, hRejected⟩
        · exact hValid txid t hGet

/-- A rejected `GENESIS` is coloured, and does not need the database. -/
theorem probeContext_of_rejected (h : RejectedGenesis (coloring tx) S) :
    (colorTx tx).isNone = false ∧
      probeContext tx r (coloring tx) S = .ok ⟨S, none, none, none⟩ := by
  constructor
  · cases hColor : colorTx tx with
    | some => rfl
    | none =>
      rw [coloring, hColor] at h
      obtain ⟨-, f, hf, -⟩ := h
      cases hf
  · unfold probeContext
    unfold RejectedGenesis at h
    split at h
    · next first rest hSections =>
      have hNot : first.isMintVaultMint = false := by simp [ColoredTxSection.isMintVaultMint, h.1]
      rw [hSections, head?_cons]
      simp only [hNot]
      rfl
    · next hSections => rw [hSections, head?_nil]

/-- A rejected `GENESIS` is reported. -/
theorem not_genesisInfoValid_step {op : Op} (hOp : m.InsertsRejected op)
    (h : m.step op = some m') : ¬ m'.GenesisInfoValid := by
  cases op with
  | remove => exact hOp.elim
  | insert r tx =>
    obtain ⟨S, hS, hRejected⟩ := hOp
    obtain ⟨hColored, hCtx⟩ := probeContext_of_rejected hRejected
    have hInsert := insert_eq_ok.mpr ⟨S, hS, by
      rw [if_neg fun h => absurd h.1 (by rw [hColored]; exact Bool.false_ne_true)]
      exact ⟨_, hCtx, rfl⟩⟩
    cases h
    rw [hInsert, genesisInfoValid_iff]
    intro hValid
    refine hValid tx.txid _ Std.ExtTreeMap.getElem?_insert_self ?_
    rw [VerifyContext.reportsInvalid_iff (wellFormed_coloring tx)]
    exact hRejected

/-- **What the genesis info of a mempool transaction says**: over every run, it is
that of a valid `GENESIS` exactly if no rejected one is inserted. -/
theorem genesisInfo_valid_iff {run : Nat → MempoolTokens} {act : Nat → Op} {n : Nat}
    (hInit : run 0 = empty) (hRuns : Runs step run act n) :
    (∀ i ≤ n, (run i).GenesisInfoValid) ↔ ∀ i < n, ¬ (run i).InsertsRejected (act i) := by
  constructor
  · intro h i hi hRejected
    exact not_genesisInfoValid_step hRejected (hRuns i hi) (h (i + 1) hi)
  · intro h i hi
    induction i with
    | zero =>
      rw [hInit, genesisInfoValid_iff]
      intro txid t ht
      cases ht
    | succ i ih =>
      exact genesisInfoValid_step (ih (by omega)) (h i (by omega)) (hRuns i (by omega))

/-! ### NFTs with and without a group -/

/-- `GENESIS` of an SLP token of the given type, one atom and no baton. -/
def genesisTx (tokenType : UInt8) : Tx where
  txid := .fill 0x41
  version := 2
  inputs := [⟨⟨.fill 0x04, 0⟩, ⟨[]⟩, 0, none⟩]
  outputs := [⟨0, ⟨[0x6a, 4] ++ slpLokadId ++ [1, tokenType, 7] ++ genesisBytes ++
    [0x4c, 0, 0x4c, 0, 0x4c, 0, 0x4c, 0, 1, 0, 0x4c, 0, 8, 0, 0, 0, 0, 0, 0, 0, 1]⟩⟩,
    ⟨546, ⟨[0x51]⟩⟩]
  locktime := 0

/-- A database without tokens that knows one transaction. -/
def plainReader : MempoolReader :=
  ⟨.empty, fun txid => .ok (if txid.val = List.replicate 32 0x04 then some 4 else none),
    fun _ => false⟩

/-- The first entry of a transaction of the mempool. -/
def firstEntry (m : MempoolTokens) (txid : TxId) : Option TokenTxEntry :=
  m.tokenTxs[txid]?.bind fun tokenTx => tokenTx.entries.head?

/-- An NFT that is created without spending its group is reported all the same. -/
theorem genesisInfo_of_lone_nft :
    ∃ m entry, empty.insert plainReader (genesisTx 0x41) = .ok m ∧
      (m.genesisInfo (genesisTx 0x41).txid).isSome = true ∧
      m.firstEntry (genesisTx 0x41).txid = some entry ∧ entry.txType = some .genesis ∧
      entry.tokenMeta.tokenType = .slp .nft1Child ∧ entry.isInvalid = true ∧
      entry.burnError = some .missingNft1Group := by
  refine ⟨_, _, rfl, ?_, rfl, ?_⟩
  · decide +kernel
  · decide +kernel

/-- A run that inserts a token that is created properly. -/
def fungibleRun : Nat → MempoolTokens
  | 0 => empty
  | _ => (empty.insert plainReader (genesisTx 1)).toOption.getD empty

theorem fungibleRun_valid : (∀ i ≤ 1, (fungibleRun i).GenesisInfoValid) ∧
    ((fungibleRun 1).genesisInfo (genesisTx 1).txid).isSome = true := by
  have hRuns : Runs step fungibleRun (fun _ => .insert plainReader (genesisTx 1)) 1 := by
    intro i hi
    obtain rfl : i = 0 := by omega
    rfl
  have hTypes : (coloring (genesisTx 1)).sections.map (fun s => s.tokenMeta.tokenType) =
      [.slp .fungible] := by decide +kernel
  refine ⟨(genesisInfo_valid_iff rfl hRuns).mpr ?_, by decide +kernel⟩
  rintro i hi ⟨S, -, hRejected⟩
  unfold RejectedGenesis at hRejected
  split at hRejected
  · next first rest hSections =>
    rw [hSections] at hTypes
    have hType : first.tokenMeta.tokenType = .slp .fungible := (List.cons.inj hTypes).1
    rw [hType] at hRejected
    rcases hRejected.2 with ⟨hAlp, -⟩ | ⟨hChild, -⟩
    · cases hAlp
    · cases hChild
  · next hNone =>
    rw [hNone] at hTypes
    cases hTypes

end MempoolTokens

end Ergon
