import Ergon.Lib.Column
import Ergon.Slp.Color

/-!
# Ergon — verifying coloured transactions

`VerifyContext::verify` (`bitcoinsuite-slp/src/verify.rs`) decides, from the
tokens a transaction spends, which of its sections are valid, and which tokens
it burns. The result is a `TokenTx` (`token_tx.rs`).

The entries of a `TokenTx` are its sections, in order, and after them the
tokens that are burned without a section.
-/

namespace Ergon

open Lib

def maxTxInputs : Nat := 32767

inductive BurnError
  | tooManyTxInputs (n : Nat)
  | missingNft1Group
  | missingMintBaton
  | missingMintVault
  | insufficientInputSum (required actual : Nat)
deriving DecidableEq

/-- A token on a spent output, with the group it belongs to if it is an NFT. -/
structure SpentToken where
  token : Token
  groupTokenMeta : Option TokenMeta
deriving DecidableEq

/-- The atoms an input holds of the token `m`. -/
def SpentToken.amountOf (m : TokenMeta) (s : SpentToken) : Nat :=
  if s.token.tokenMeta = m then s.token.variant.amount else 0

structure TokenTxEntry where
  tokenMeta : TokenMeta
  txType : Option TxType
  genesisInfo : Option GenesisInfo
  groupTokenMeta : Option TokenMeta
  isInvalid : Bool
  intentionalBurnAtoms : Option Nat
  actualBurnAtoms : Nat
  burnsMintBatons : Bool
  burnError : Option BurnError
  hasColoredOutOfRange : Bool
  failedColorings : List FailedColoring
deriving DecidableEq

structure TokenTx where
  entries : List TokenTxEntry
  outputs : List (Option TokenOutput)
  failedParsings : List FailedParsing
deriving DecidableEq

/-- The token of an output, as a later transaction spends it. -/
def TokenTx.spentToken (t : TokenTx) (o : TokenOutput) : Option SpentToken :=
  t.entries[o.tokenIdx]?.map fun entry => ⟨⟨entry.tokenMeta, o.variant⟩, entry.groupTokenMeta⟩

/-- What is known about the inputs of a transaction. The scripts and the
genesis info are only looked at for mints of mint vault tokens. -/
structure VerifyContext where
  spentTokens : List (Option SpentToken)
  spentScripts : Option (List Script)
  genesisInfo : Option GenesisInfo
  overrideHasMintVault : Option Bool

structure BareBurn where
  burnAtoms : Nat
  burnsMintBatons : Bool
  groupTokenMeta : Option TokenMeta
  isInvalid : Bool
deriving DecidableEq

namespace VerifyContext

/-! ## What the inputs hold -/

def hasMintBaton (ctx : VerifyContext) (m : TokenMeta) : Bool :=
  ctx.spentTokens.any fun spent =>
    spent.any fun s => s.token.tokenMeta = m ∧ s.token.variant.isMintBaton

def hasMintVault (ctx : VerifyContext) : Bool :=
  match ctx.overrideHasMintVault with
  | some hasVault => hasVault
  | none =>
    -- without scripts the source panics
    match ctx.spentScripts, ctx.genesisInfo with
    | some spentScripts, some genesisInfo =>
      match genesisInfo.mintVaultScripthash with
      | some scripthash => spentScripts.any fun script => script = Script.p2sh scripthash
      | none => false
    | _, _ => false

def calcInputSum (ctx : VerifyContext) (m : TokenMeta) : Nat :=
  (ctx.spentTokens.map fun s => s.elim 0 (SpentToken.amountOf m)).sum

def calcOutputSum (tx : ColoredTx) (m : TokenMeta) : Nat :=
  (tx.outputs.map fun o => o.elim 0 fun o =>
    if (tx.sections[o.tokenIdx]?.map (·.tokenMeta)) = some m then o.variant.amount else 0).sum

/-- The first of some inputs that holds the token `m`. -/
def firstOf (inputs : List (Option SpentToken)) (m : TokenMeta) : Option SpentToken :=
  (inputs.filterMap id).find? fun s => s.token.tokenMeta = m

def inheritedGroupTokenMeta (ctx : VerifyContext) (m : TokenMeta) : Option TokenMeta :=
  (firstOf ctx.spentTokens m).bind (·.groupTokenMeta)

def intentionalBurnAtoms (tx : ColoredTx) (m : TokenMeta) : Option Nat :=
  (tx.intentionalBurns.find? fun burn => burn.tokenMeta = m).map (·.atoms)

/-! ## Sections -/

/-- The group token an NFT is minted from: the first input has to hold it. -/
def nft1Group (ctx : VerifyContext) : Option TokenMeta :=
  match ctx.spentTokens.head? with
  | some (some spent) =>
    if spent.token.tokenMeta.tokenType = .slp .nft1Group ∧ 0 < spent.token.variant.amount then
      some spent.token.tokenMeta
    else none
  | _ => none

def verifySection (ctx : VerifyContext) (tx : ColoredTx) (s : ColoredTxSection) : TokenTxEntry :=
  let inputSum := ctx.calcInputSum s.tokenMeta
  let entry : TokenTxEntry :=
    { tokenMeta := s.tokenMeta
      txType := some s.txType
      genesisInfo := s.genesisInfo
      groupTokenMeta := ctx.inheritedGroupTokenMeta s.tokenMeta
      isInvalid := false
      intentionalBurnAtoms := intentionalBurnAtoms tx s.tokenMeta
      actualBurnAtoms := 0
      burnsMintBatons := false
      burnError := none
      hasColoredOutOfRange := s.hasColoredOutOfRange
      failedColorings := [] }
  if s.tokenMeta.tokenType.isAlp ∧ maxTxInputs < ctx.spentTokens.length then
    { entry with
      isInvalid := true
      actualBurnAtoms := inputSum
      burnsMintBatons := ctx.hasMintBaton s.tokenMeta
      burnError := some (.tooManyTxInputs ctx.spentTokens.length) }
  else match s.txType with
  | .genesis =>
    if s.tokenMeta.tokenType = .slp .nft1Child then
      match ctx.nft1Group with
      | some group => { entry with groupTokenMeta := some group }
      | none => { entry with isInvalid := true, burnError := some .missingNft1Group }
    else entry
  | .mint =>
    if s.isMintVaultMint then
      if ctx.hasMintVault then { entry with actualBurnAtoms := inputSum }
      else
        { entry with
          isInvalid := true, actualBurnAtoms := inputSum, burnError := some .missingMintVault }
    else if ctx.hasMintBaton s.tokenMeta then { entry with actualBurnAtoms := inputSum }
    else
      { entry with
        isInvalid := true, actualBurnAtoms := inputSum, burnError := some .missingMintBaton }
  | .send =>
    if inputSum < s.requiredInputSum then
      { entry with
        isInvalid := true
        actualBurnAtoms := inputSum
        burnsMintBatons := ctx.hasMintBaton s.tokenMeta
        burnError := some (.insufficientInputSum s.requiredInputSum inputSum) }
    else
      { entry with
        actualBurnAtoms := inputSum - calcOutputSum tx s.tokenMeta
        burnsMintBatons := ctx.hasMintBaton s.tokenMeta }
  | .unknown => entry
  -- unreachable, burns are kept apart from the sections
  | .burn => entry

/-! ## Burns -/

/-- An entry for a token that is mentioned outside of the sections. -/
def plainEntry (m : TokenMeta) (txType : Option TxType) : TokenTxEntry :=
  { tokenMeta := m
    txType := txType
    genesisInfo := none
    groupTokenMeta := none
    isInvalid := false
    intentionalBurnAtoms := none
    actualBurnAtoms := 0
    burnsMintBatons := false
    burnError := none
    hasColoredOutOfRange := false
    failedColorings := [] }

def addIntentionalBurn (entries : List TokenTxEntry) (burn : IntentionalBurn) :
    List TokenTxEntry :=
  if entries.any fun entry => entry.tokenMeta.tokenId = burn.tokenMeta.tokenId then entries
  else
    entries ++ [{ plainEntry burn.tokenMeta (some .burn) with
      intentionalBurnAtoms := some burn.atoms }]

def attachFailed (f : FailedColoring) (entry : TokenTxEntry) : TokenTxEntry :=
  { entry with failedColorings := entry.failedColorings ++ [f] }

def failedEntry (f : FailedColoring) : TokenTxEntry :=
  { plainEntry f.parsed.tokenMeta (some f.parsed.txType.txType) with
    genesisInfo := match f.parsed.txType with
      | .genesis info _ => some info
      | _ => none
    isInvalid := true
    failedColorings := [f] }

/-- A payload that could not be coloured goes to the entry of its token. -/
def addFailedColoring (entries : List TokenTxEntry) (f : FailedColoring) : List TokenTxEntry :=
  upsert (fun entry => entry.tokenMeta = f.parsed.tokenMeta) (attachFailed f) (failedEntry f)
    entries

def BareBurn.update (burn : BareBurn) (entry : TokenTxEntry) : TokenTxEntry :=
  { entry with
    isInvalid := entry.isInvalid || burn.burnsMintBatons
    actualBurnAtoms := burn.burnAtoms
    burnsMintBatons := burn.burnsMintBatons
    groupTokenMeta := burn.groupTokenMeta }

def BareBurn.toEntry (burn : BareBurn) (m : TokenMeta) : TokenTxEntry :=
  { plainEntry m none with
    groupTokenMeta := burn.groupTokenMeta
    isInvalid := burn.isInvalid
    actualBurnAtoms := burn.burnAtoms
    burnsMintBatons := burn.burnsMintBatons }

def addBareBurn (entries : List TokenTxEntry) : TokenMeta × BareBurn → List TokenTxEntry
  | (m, burn) =>
    upsert (fun entry => entry.tokenMeta = m) (BareBurn.update burn) (BareBurn.toEntry burn m)
      entries

/-- The group token spent by a valid `GENESIS` of an NFT is not burned. -/
def isNft1Genesis (entries : List TokenTxEntry) : Bool :=
  entries.head?.any fun first =>
    first.tokenMeta.tokenType = .slp .nft1Child ∧ first.txType = some .genesis ∧ !first.isInvalid

def burnInput (spared : Bool) (variant : TokenVariant) (burn : BareBurn) : BareBurn :=
  if spared then burn
  else match variant with
  | .atoms n => { burn with isInvalid := true, burnAtoms := burn.burnAtoms + n }
  | .mintBaton => { burn with isInvalid := true, burnsMintBatons := true }
  | .unknown _ => { burn with isInvalid := true }

/-- Count an input as burned unless a section mentions its token. -/
def addBurnedInput (tx : ColoredTx) (entries : List TokenTxEntry)
    (burns : Column TokenMeta BareBurn) : Option SpentToken × Nat → Column TokenMeta BareBurn
  | (none, _) => burns
  | (some input, inputIdx) =>
    if tx.sections.any fun s => s.tokenMeta = input.token.tokenMeta then burns
    else
      let burn := burns[input.token.tokenMeta]?.getD ⟨0, false, input.groupTokenMeta, false⟩
      let spared := inputIdx == 0 && isNft1Genesis entries
      burns.insert input.token.tokenMeta (burnInput spared input.token.variant burn)

/-- The spent tokens that no section mentions, in the order of their metas. -/
def calcBareBurns (ctx : VerifyContext) (tx : ColoredTx) (entries : List TokenTxEntry) :
    Column TokenMeta BareBurn :=
  ctx.spentTokens.zipIdx.foldl (addBurnedInput tx entries) ∅

/-! ## Transactions -/

def verifyEntries (ctx : VerifyContext) (tx : ColoredTx) : List TokenTxEntry :=
  let entries := tx.sections.map (ctx.verifySection tx)
  let entries := tx.intentionalBurns.foldl addIntentionalBurn entries
  let bareBurns := ctx.calcBareBurns tx entries
  let entries := tx.failedColorings.foldl addFailedColoring entries
  bareBurns.toList.foldl addBareBurn entries

def keepValid (entries : List TokenTxEntry) (o : TokenOutput) : Option TokenOutput :=
  match entries[o.tokenIdx]? with
  | some entry => if entry.isInvalid then none else some o
  | none => none

def verify (ctx : VerifyContext) (tx : ColoredTx) : TokenTx :=
  let entries := ctx.verifyEntries tx
  ⟨entries, tx.outputs.map fun o => o.bind (keepValid entries), tx.failedParsings⟩

end VerifyContext

end Ergon
