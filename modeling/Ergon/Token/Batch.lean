import Ergon.Lib.BiMap
import Ergon.Lib.Topo
import Ergon.Token.Data

/-!
# Ergon — verifying the transactions of a block

`BatchProcessor` (`chronik-db/src/io/token/batch.rs`): the token transactions
of a block are verified parents first, then the tokens that other transactions
spend are recorded. The topological sort is a library; its answer is an
argument here (`TopoOutcome`), since it may differ from call to call.
-/

namespace Ergon

open Lib

/-- What the database knows about the inputs of a block. Tokens that the block
creates are added to `tokenMetas` as they are verified. -/
structure BatchDbData where
  tokenTxs : Column TxNum DbTokenTx
  tokenMetas : BiMap TxNum TokenMeta
  genesisInfos : Column TokenMeta GenesisInfo

structure ProcessedTokenTxBatch where
  newTokens : List (TxNum × TokenMeta × GenesisInfo)
  dbTokenTxs : Column TxNum DbTokenTx
  validTxs : Column TxNum TokenTx
  spentTokens : Column TxNum (List (Option SpentToken))
  didValidation : Bool

def ProcessedTokenTxBatch.empty : ProcessedTokenTxBatch := ⟨[], ∅, ∅, ∅, false⟩

/-- A transaction with a token payload. -/
structure PreparedTx where
  tx : IndexTx
  colored : ColoredTx
  colored_eq : colorTx tx.tx = some colored
  sections_ne : colored.sections ≠ []

def PreparedTx.firstSection (p : PreparedTx) : ColoredTxSection :=
  p.colored.sections.head p.sections_ne

def prepareTx (tx : IndexTx) : Option PreparedTx :=
  match h : colorTx tx.tx with
  | some colored => if hNe : colored.sections ≠ [] then some ⟨tx, colored, h, hNe⟩ else none
  | none => none

structure BatchProcessor where
  preparedTxs : List PreparedTx
  nonTokenTxs : List IndexTx
  hasAnyGenesis : Bool

namespace BatchProcessor

def prepare (txs : List IndexTx) : BatchProcessor :=
  let preparedTxs := txs.filterMap prepareTx
  { preparedTxs := preparedTxs
    nonTokenTxs := txs.filter fun tx => (prepareTx tx).isNone
    hasAnyGenesis := preparedTxs.any fun p => p.firstSection.txType = .genesis }

def collectMintVaultMetas (b : BatchProcessor) : List TokenMeta :=
  ((b.preparedTxs.filter fun p => p.firstSection.isMintVaultMint).map
    fun p => p.firstSection.tokenMeta).dedup

/-! ## Spent tokens -/

def batchMeta (db : BatchDbData) (txNum : TxNum) : Except TokenError TokenMeta :=
  orElse (db.tokenMetas.getByLeft txNum) (.missingTokenTxNum txNum)

/-- The token on an output of this block or of the database. -/
def tokenOutput (db : BatchDbData) (validTxs : Column TxNum TokenTx) (txNum : TxNum)
    (outIdx : Nat) : Except TokenError (Option SpentToken) :=
  match validTxs[txNum]? with
  | some tokenTx =>
    match tokenTx.outputs[outIdx]? with
    | some (some o) => (orElse (tokenTx.spentToken o) .outOfBounds).map some
    | _ => .ok none
  | none =>
    match db.tokenTxs[txNum]? with
    | none => .ok none
    | some d => do
      let dbToken ← orElse d.outputs[outIdx]? .outOfBounds
      d.spentToken dbToken (batchMeta db)

def txTokenInputs (db : BatchDbData) (validTxs : Column TxNum TokenTx) (tx : IndexTx) :
    Except TokenError (List (Option SpentToken)) :=
  if tx.isCoinbase then .ok (List.replicate tx.tx.inputs.length none)
  else (tx.inputNums.zip tx.tx.inputs).mapM
    fun (inputNum, input) => tokenOutput db validTxs inputNum input.prevOut.outIdx

def txSpentScripts (tx : IndexTx) : Except TokenError (List Script) :=
  tx.tx.inputs.mapM fun input =>
    (orElse input.coin (.missingTxInputCoin input.prevOut)).map (·.output.script)

/-! ## Compressing tokens to indices -/

def metaIdx (needle : TokenMeta) (metas : List TokenMeta) : Except TokenError Nat :=
  orElse (metas.findIdx? fun m => m = needle) .metaNotListed

def toDbToken (metas : List TokenMeta) : Option Token → Except TokenError DbToken
  | none => .ok .noToken
  | some token =>
    match token.variant with
    | .atoms n => (metaIdx token.tokenMeta metas).map fun idx => .atoms idx n
    | .mintBaton => (metaIdx token.tokenMeta metas).map .mintBaton
    | .unknown byte =>
      match token.tokenMeta.tokenType with
      | .slp _ => .ok (.unknownSlp byte)
      | .alp _ => .ok (.unknownAlp byte)

/-- The tokens an entry list mentions, with the transactions that created
them, and the links from an NFT to its group. -/
structure TokenLinks where
  tokens : List (TxNum × TokenMeta)
  groups : Column TokenMeta TokenMeta

def TokenLinks.metas (l : TokenLinks) : List TokenMeta := l.tokens.map Prod.snd

def TokenLinks.addToken (l : TokenLinks) (txNum : TxNum) (m : TokenMeta) : TokenLinks :=
  if m ∈ l.metas then l else { l with tokens := l.tokens ++ [(txNum, m)] }

/-- Entries of tokens that nobody created are skipped. -/
def addEntry (tokenMetas : BiMap TxNum TokenMeta) (l : TokenLinks) (entry : TokenTxEntry) :
    TokenLinks :=
  match tokenMetas.getByRight entry.tokenMeta with
  | none => l
  | some txNum =>
    let l := l.addToken txNum entry.tokenMeta
    match entry.groupTokenMeta with
    | none => l
    | some group =>
      match tokenMetas.getByRight group with
      | none => l
      | some groupTxNum =>
        -- a group that is listed already gets no link
        if group ∈ l.metas then l
        else
          { tokens := l.tokens ++ [(groupTxNum, group)]
            groups := l.groups.insert entry.tokenMeta group }

def tokenLinks (tokenMetas : BiMap TxNum TokenMeta) (entries : List TokenTxEntry) : TokenLinks :=
  entries.foldl (addEntry tokenMetas) ⟨[], ∅⟩

/-- The links between metas as links between their indices. -/
def groupIndices (metas : List TokenMeta) (groups : Column TokenMeta TokenMeta) :
    Except TokenError (Column Nat Nat) := do
  let indices ← groups.toList.mapM fun (m, group) => do
    let idx ← metaIdx m metas
    let groupIdx ← metaIdx group metas
    return (idx, groupIdx)
  return (∅ : Column Nat Nat).putAll indices

def tokenTxToDb (l : TokenLinks) (spentTokens : List (Option SpentToken)) (validTx : TokenTx)
    (hasMintVault : Bool) : Except TokenError DbTokenTx := do
  let groupTokenIndices ← groupIndices l.metas l.groups
  let inputs ← spentTokens.mapM fun input => toDbToken l.metas (input.map (·.token))
  let outputs ← validTx.outputs.mapM fun output => do
    match output with
    | none => toDbToken l.metas none
    | some o =>
      let spent ← orElse (validTx.spentToken o) .outOfBounds
      toDbToken l.metas (some spent.token)
  return ⟨l.tokens.map Prod.fst, groupTokenIndices, inputs, outputs,
    if hasMintVault then flagsHasMintVault else 0⟩

/-! ## Token transactions -/

/-- Mints of mint vault tokens look at the spent scripts and at the `GENESIS`,
which has to be in the database. -/
def verifyContext (db : BatchDbData) (p : PreparedTx) (spentTokens : List (Option SpentToken)) :
    Except TokenError VerifyContext :=
  if p.firstSection.isMintVaultMint then
    (txSpentScripts p.tx).map fun spentScripts =>
      ⟨spentTokens, some spentScripts, db.genesisInfos[p.firstSection.tokenMeta]?, none⟩
  else .ok ⟨spentTokens, none, none, none⟩

/-- The token that a valid `GENESIS` creates. -/
def newToken (validTx : TokenTx) : Option (TokenMeta × GenesisInfo) :=
  validTx.entries.head?.bind fun entry =>
    if entry.isInvalid then none else entry.genesisInfo.map fun info => (entry.tokenMeta, info)

/-- Whether the first entry is a mint that a mint vault authorised. -/
def hasMintVault (p : PreparedTx) (validTx : TokenTx) : Bool :=
  p.firstSection.isMintVaultMint && validTx.entries.head?.any fun entry => !entry.isInvalid

/-- Transactions without any token, `GENESIS` or mint vault are not stored. -/
def isStored (p : PreparedTx) (spentTokens : List (Option SpentToken)) (validTx : TokenTx) :
    Bool :=
  validTx.outputs.any Option.isSome || spentTokens.any Option.isSome ||
    p.firstSection.genesisInfo.isSome || hasMintVault p validTx

/-- What the loop over the transactions of a block changes. -/
structure BatchState where
  db : BatchDbData
  processed : ProcessedTokenTxBatch

def addNewToken (s : BatchState) (txNum : TxNum) : Option (TokenMeta × GenesisInfo) → BatchState
  | none => s
  | some (m, info) =>
    -- the genesis info is left alone: it takes effect once it is confirmed
    { db := { s.db with tokenMetas := s.db.tokenMetas.insert txNum m }
      processed := { s.processed with newTokens := s.processed.newTokens ++ [(txNum, m, info)] } }

def storeTokenTx (s : BatchState) (txNum : TxNum) (d : DbTokenTx) (validTx : TokenTx)
    (spentTokens : List (Option SpentToken)) : BatchState :=
  { s with processed := { s.processed with
      dbTokenTxs := s.processed.dbTokenTxs.insert txNum d
      validTxs := s.processed.validTxs.insert txNum validTx
      spentTokens := s.processed.spentTokens.insert txNum spentTokens } }

def verifyTokenTx (s : BatchState) (p : PreparedTx) : Except TokenError BatchState := do
  let spentTokens ← txTokenInputs s.db s.processed.validTxs p.tx
  let context ← verifyContext s.db p spentTokens
  let validTx := context.verify p.colored
  if isStored p spentTokens validTx then
    let s := addNewToken s p.tx.txNum (newToken validTx)
    let d ← tokenTxToDb (tokenLinks s.db.tokenMetas validTx.entries) spentTokens validTx
      (hasMintVault p validTx)
    return storeTokenTx s p.tx.txNum d validTx spentTokens
  else return s

/-! ## Other transactions -/

/-- The index of a number in the list, which grows if it has to. -/
def indexOrPush (nums : List TxNum) (txNum : TxNum) : List TxNum × Nat :=
  match nums.findIdx? fun n => n = txNum with
  | some idx => (nums, idx)
  | none => (nums ++ [txNum], nums.length)

/-- What the loop over the inputs builds. -/
structure NonTokenState where
  tokenTxNums : List TxNum
  groupTokenIndices : Column Nat Nat
  inputs : List DbToken

def findDbTokenTx (s : BatchState) (txNum : TxNum) : Option DbTokenTx :=
  s.processed.dbTokenTxs[txNum]?.or s.db.tokenTxs[txNum]?

/-- Copy a token from the transaction that is spent. -/
def copyToken (n : NonTokenState) (d : DbTokenTx) (dbToken : DbToken) : NonTokenState :=
  match d.tokenTxNum dbToken with
  | none => { n with inputs := n.inputs ++ [dbToken] }
  | some tokenTxNum =>
    let (nums, idx) := indexOrPush n.tokenTxNums tokenTxNum
    match d.groupTokenTxNum dbToken with
    | none => ⟨nums, n.groupTokenIndices, n.inputs ++ [dbToken.withIdx idx]⟩
    | some groupTxNum =>
      let (nums, groupIdx) := indexOrPush nums groupTxNum
      ⟨nums, n.groupTokenIndices.insert idx groupIdx, n.inputs ++ [dbToken.withIdx idx]⟩

def addNonTokenInput (s : BatchState) (n : NonTokenState) :
    TxNum × TxInput → Except TokenError NonTokenState
  | (inputNum, input) =>
    match findDbTokenTx s inputNum with
    | none => .ok { n with inputs := n.inputs ++ [.noToken] }
    | some d => do
      let dbToken ← orElse d.outputs[input.prevOut.outIdx]? .outOfBounds
      return copyToken n d dbToken

def processNonTokenTx (s : BatchState) (tx : IndexTx) : Except TokenError BatchState := do
  let n ← (tx.inputNums.zip tx.tx.inputs).foldlM (addNonTokenInput s) ⟨[], ∅, []⟩
  if n.inputs.any fun input => input ≠ .noToken then
    let d : DbTokenTx := ⟨n.tokenTxNums, n.groupTokenIndices, n.inputs,
      List.replicate tx.tx.outputs.length .noToken, 0⟩
    let spentTokens ← txTokenInputs s.db s.processed.validTxs tx
    return { s with processed := { s.processed with
      dbTokenTxs := s.processed.dbTokenTxs.insert tx.txNum d
      spentTokens := s.processed.spentTokens.insert tx.txNum spentTokens } }
  else return s

/-! ## The batch -/

/-- Token transactions depend on the transactions they spend from. -/
def graph (b : BatchProcessor) : Graph TxNum :=
  b.preparedTxs.map fun p => (p.tx.txNum, p.tx.inputNums)

def verifyByNum (b : BatchProcessor) (s : BatchState) (txNum : TxNum) :
    Except TokenError BatchState := do
  let p ← orElse (b.preparedTxs.find? fun p => p.tx.txNum = txNum) .outOfBounds
  verifyTokenTx s p

def verify (b : BatchProcessor) (topo : Option (List TxNum)) (db : BatchDbData) :
    Except TokenError ProcessedTokenTxBatch := do
  let order ← orElse topo .cycle
  let s ← order.foldlM b.verifyByNum ⟨db, { ProcessedTokenTxBatch.empty with didValidation := true }⟩
  let s ← b.nonTokenTxs.foldlM processNonTokenTx s
  return s.processed

end BatchProcessor

end Ergon
