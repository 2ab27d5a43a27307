import Ergon.Script.Ops
import Ergon.Slp.Structs

/-!
# Ergon — SLP payloads

The SLP parser (`bitcoinsuite-slp/src/slp`): an `OP_RETURN` script that pushes
the SLP marker, a token type, a transaction type and the fields of that
transaction type.

* `Slp.parse_wellFormed` — what every accepted payload satisfies.
-/

namespace Ergon

open Lib

/-! ## Constants -/

def slpLokadId : Bytes := [0x53, 0x4c, 0x50, 0x00]
def alpLokadId : Bytes := [0x53, 0x4c, 0x50, 0x32]
def genesisBytes : Bytes := [0x47, 0x45, 0x4e, 0x45, 0x53, 0x49, 0x53]
def mintBytes : Bytes := [0x4d, 0x49, 0x4e, 0x54]
def sendBytes : Bytes := [0x53, 0x45, 0x4e, 0x44]
def burnBytes : Bytes := [0x42, 0x55, 0x52, 0x4e]

/-- The length of a field as the array type wants it. -/
def toFixed (n : Nat) (b : Bytes) : Option (FixedBytes n) :=
  if h : b.length = n then some ⟨b, h⟩ else none

/-- SLP writes token ids the other way round. -/
def TokenId.fromBeBytes (b : FixedBytes 32) : TokenId :=
  ⟨b.val.reverse, by rw [List.length_reverse, b.2]⟩

namespace Slp

inductive ParseError
  | dataError (err : DataError)
  | emptyScript
  | missingOpReturn (opcode : UInt8)
  | missingLokadId
  | wrongLokadId (lokadId : Bytes)
  | invalidLokadIdOpcode (opcode : UInt8)
  | invalidAlpLokadId
  | nonPushOp (opIdx : Nat) (opcode : UInt8)
  | disallowedPush (opIdx : Nat) (opcode : UInt8)
  | invalidFieldSize (fieldName : String) (expected : List Nat) (actual : Nat)
  | invalidDecimals (actual : Nat)
  | invalidMintBatonIdx (idx : UInt8)
  | nft1ChildCannotHaveMintBaton
  | nft1ChildInvalidInitialQuantity (atoms : Nat)
  | nft1ChildInvalidDecimals (decimals : UInt8)
  | tooFewPushes (expected actual : Nat)
  | unexpectedNumPushes (expected actual : Nat)
  | superfluousPushes (expected actual : Nat)
  | invalidTokenType (bytes : Bytes)
  | invalidTxType (bytes : Bytes)
deriving DecidableEq

open ParseError

/-! ## Fields -/

def parseAtoms (atomsBytes : Bytes) (fieldName : String) : Except ParseError Nat :=
  (orElse (toFixed 8 atomsBytes) (invalidFieldSize fieldName [8] atomsBytes.length)).map
    fun b => ofBigEndian b.val

def parseTokenId (tokenIdBytes : Bytes) : Except ParseError TokenId :=
  (orElse (toFixed 32 tokenIdBytes) (invalidFieldSize "token_id" [32] tokenIdBytes.length)).map
    TokenId.fromBeBytes

/-- Where the mint baton goes: empty for no baton, else an output index of at
least 2. -/
def parseMintBatonOutIdx (field : Bytes) : Except ParseError (Option UInt8) := do
  ensure (field.length = 0 ∨ field.length = 1)
    (invalidFieldSize "mint_baton_out_idx" [0, 1] field.length)
  match field.head? with
  | none => return none
  | some idx =>
    ensure (2 ≤ idx) (invalidMintBatonIdx idx)
    return some idx

inductive MintField
  | batonOutIdx (outIdx : Option UInt8)
  | vaultScripthash (hash : ShaRmd160)
deriving DecidableEq

def MintField.mintBatonOutIdx : MintField → Option UInt8
  | .batonOutIdx outIdx => outIdx
  | .vaultScripthash _ => none

def MintField.mintVaultScripthash : MintField → Option ShaRmd160
  | .batonOutIdx _ => none
  | .vaultScripthash hash => some hash

def parseMintField (tokenType : SlpTokenType) (mintField : Bytes) :
    Except ParseError MintField :=
  if tokenType = .mintVault then
    (orElse (toFixed 20 mintField)
      (invalidFieldSize "mint_vault_scripthash" [20] mintField.length)).map .vaultScripthash
  else
    (parseMintBatonOutIdx mintField).map .batonOutIdx

/-- The quantity, and zeros so that the baton lands at its output index. -/
def batonMintData (quantity : Nat) (batonOutIdx : Option UInt8) : ParsedMintData :=
  match batonOutIdx with
  | none => ⟨[quantity], 0⟩
  -- one output for the `OP_RETURN` and one for the quantity come first
  | some idx => ⟨quantity :: List.replicate (idx.toNat - 2) 0, 1⟩

/-- Fields that hold a quantity each, named by their position. -/
def parseQuantities (fieldName : String) (quantities : List Bytes) :
    Except ParseError (List Nat) :=
  quantities.zipIdx.mapM fun (quantity, idx) =>
    parseAtoms quantity (fieldName ++ toString (idx + 1))

/-! ## Transaction types

Each gets all pushes, the first three (marker, token type, transaction type)
included. -/

def parseGenesisData (txid : TxId) (tokenType : SlpTokenType) (opreturnData : List Bytes) :
    Except ParseError ParsedData :=
  match opreturnData with
  | [_, _, _, tokenTicker, tokenName, tokenDocumentUrl, tokenDocumentHash, decimals,
      mintField, initialQuantity] => do
    ensure (tokenDocumentHash.length = 0 ∨ tokenDocumentHash.length = 32)
      (invalidFieldSize "token_document_hash" [0, 32] tokenDocumentHash.length)
    ensure (decimals.length = 1) (invalidFieldSize "decimals" [1] decimals.length)
    let mintField ← parseMintField tokenType mintField
    let initialQuantity ← parseAtoms initialQuantity "initial_quantity"
    let decimals := decimals.headD 0
    ensure (decimals ≤ 9) (invalidDecimals decimals.toNat)
    ensure (tokenType = .nft1Child → mintField.mintBatonOutIdx = none)
      nft1ChildCannotHaveMintBaton
    ensure (tokenType = .nft1Child → initialQuantity = 1)
      (nft1ChildInvalidInitialQuantity initialQuantity)
    ensure (tokenType = .nft1Child → decimals = 0) (nft1ChildInvalidDecimals decimals)
    let info : GenesisInfo :=
      { tokenTicker := tokenTicker
        tokenName := tokenName
        mintVaultScripthash := mintField.mintVaultScripthash
        url := tokenDocumentUrl
        hash := toFixed 32 tokenDocumentHash
        data := none
        authPubkey := none
        decimals := decimals }
    return ⟨⟨txid, .slp tokenType⟩,
      .genesis info (batonMintData initialQuantity mintField.mintBatonOutIdx)⟩
  | _ => .error (unexpectedNumPushes 10 opreturnData.length)

def parseMintDataBaton (tokenType : SlpTokenType) (opreturnData : List Bytes) :
    Except ParseError ParsedData :=
  match opreturnData with
  | [_, _, _, tokenIdBytes, mintBatonOutIdx, additionalQuantity] => do
    let tokenId ← parseTokenId tokenIdBytes
    let mintBatonOutIdx ← parseMintBatonOutIdx mintBatonOutIdx
    let additionalQuantity ← parseAtoms additionalQuantity "additional_quantity"
    return ⟨⟨tokenId, .slp tokenType⟩, .mint (batonMintData additionalQuantity mintBatonOutIdx)⟩
  | _ => .error (unexpectedNumPushes 6 opreturnData.length)

/-- The token id and up to 19 quantities; `MINT` of a mint vault token and
`SEND` share this shape. -/
def parseTokenQuantities (fieldName : String) (opreturnData : List Bytes) :
    Except ParseError (TokenId × List Nat) := do
  ensure (5 ≤ opreturnData.length) (tooFewPushes 5 opreturnData.length)
  ensure (opreturnData.length ≤ 23) (superfluousPushes 23 opreturnData.length)
  let tokenId ← parseTokenId (opreturnData.getD 3 [])
  let quantities ← parseQuantities fieldName (opreturnData.drop 4)
  return (tokenId, quantities)

def parseMintDataMintVault (opreturnData : List Bytes) : Except ParseError ParsedData := do
  let (tokenId, atomsVec) ← parseTokenQuantities "additional_quantity" opreturnData
  return ⟨⟨tokenId, .slp .mintVault⟩, .mint ⟨atomsVec, 0⟩⟩

def parseSendData (tokenType : SlpTokenType) (opreturnData : List Bytes) :
    Except ParseError ParsedData := do
  let (tokenId, outputQuantities) ← parseTokenQuantities "token_output_quantity" opreturnData
  return ⟨⟨tokenId, .slp tokenType⟩, .send outputQuantities⟩

def parseBurnData (tokenType : SlpTokenType) (opreturnData : List Bytes) :
    Except ParseError ParsedData :=
  match opreturnData with
  | [_, _, _, tokenIdBytes, tokenBurnQuantity] => do
    let tokenId ← parseTokenId tokenIdBytes
    let tokenBurnQuantity ← parseAtoms tokenBurnQuantity "token_burn_quantity"
    return ⟨⟨tokenId, .slp tokenType⟩, .burn tokenBurnQuantity⟩
  | _ => .error (unexpectedNumPushes 5 opreturnData.length)

/-! ## The script -/

/-- The pushed data of the operations after `OP_RETURN`. -/
def parseOpreturnOps (ops : List Op) : Except ParseError (List Bytes) :=
  match ops with
  | [] => .ok []
  | .code opcode :: rest =>
    if opcode = opReturn then rest.zipIdx.mapM fun (op, idx) => pushedData (idx + 1) op
    else .error (missingOpReturn opcode)
  | .push opcode _ :: _ => .error (missingOpReturn opcode)
where
  pushedData (opIdx : Nat) : Op → Except ParseError Bytes
    | .code opcode =>
      if opcode = 0 ∨ (op1Negate ≤ opcode ∧ opcode ≤ op16) then
        .error (disallowedPush opIdx opcode)
      else .error (nonPushOp opIdx opcode)
    | .push opcode data =>
      if opcode = 0 ∨ opPushData4 < opcode then .error (disallowedPush opIdx opcode)
      else .ok data

def parseLokadId (script : Script) : Except ParseError Unit :=
  match script.iterOps with
  | [] => .error emptyScript
  | first :: rest => do
    ensure (first.toOption = some (Op.code opReturn))
      (missingOpReturn (script.bytecode.headD 0))
    match rest.head? with
    | some (.ok (.push _ lokadId)) => do
      ensure (¬ alpLokadId <+: lokadId) invalidAlpLokadId
      ensure (lokadId = slpLokadId) (wrongLokadId lokadId)
    | some _ => .error (invalidLokadIdOpcode (script.bytecode.getD 1 0))
    | none => .error missingLokadId

def parseTokenType (byte : UInt8) : SlpTokenType :=
  if byte = 1 then .fungible
  else if byte = 2 then .mintVault
  else if byte = 0x81 then .nft1Group
  else if byte = 0x41 then .nft1Child
  else .unknown byte

/-- Unknown token types are not looked into; they have no token id. -/
def parseFields (txid : TxId) (tokenType : SlpTokenType) (txType : Bytes)
    (opreturnData : List Bytes) : Except ParseError ParsedData :=
  match tokenType with
  | .unknown byte => .ok ⟨⟨TxId.zero, .slp (.unknown byte)⟩, .unknown⟩
  | _ =>
    if txType = genesisBytes then parseGenesisData txid tokenType opreturnData
    else if txType = mintBytes then
      if tokenType = .mintVault then parseMintDataMintVault opreturnData
      else parseMintDataBaton tokenType opreturnData
    else if txType = sendBytes then parseSendData tokenType opreturnData
    else if txType = burnBytes then parseBurnData tokenType opreturnData
    else .error (invalidTxType txType)

def parseWithIgnoredErr (txid : TxId) (script : Script) : Except ParseError ParsedData := do
  parseLokadId script
  let ops ← (script.iterOps.mapM id).mapError dataError
  let opreturnData ← parseOpreturnOps ops
  match opreturnData with
  | _ :: tokenType :: txType :: _ =>
    match tokenType with
    | [byte] => parseFields txid (parseTokenType byte) txType opreturnData
    | _ => .error (invalidTokenType tokenType)
  | _ => .error (tooFewPushes 3 opreturnData.length)

/-- Errors of scripts that do not look like SLP at all. -/
def shouldIgnoreErr : ParseError → Bool
  | emptyScript => true
  | missingOpReturn _ => true
  | missingLokadId => true
  | invalidLokadIdOpcode _ => true
  | wrongLokadId _ => true
  | _ => false

/-- Parse the script as SLP; `none` if it belongs to an unrelated protocol. -/
def parse (txid : TxId) (script : Script) : Except ParseError (Option ParsedData) :=
  match parseWithIgnoredErr txid script with
  | .ok parsed => .ok (some parsed)
  | .error err => if shouldIgnoreErr err then .ok none else .error err

/-! ## What is accepted -/

section Accepted

variable {txid : TxId} {t : SlpTokenType} {d : List Bytes} {p : ParsedData}

theorem parseMintField_gives (t : SlpTokenType) (b : Bytes) :
    Gives (fun f => t = .mintVault → f.mintBatonOutIdx = none) (parseMintField t b) := by
  rintro f h rfl
  obtain ⟨hash, _, rfl⟩ := map_eq_ok.mp (by simpa [parseMintField] using h)
  rfl

/-- What a payload of the type `t` is parsed to. -/
def OfType (txid : TxId) (t : SlpTokenType) (p : ParsedData) : Prop :=
  p.WellFormed txid ∧ p.tokenMeta.tokenType = .slp t

section Known

variable (hKnown : (TokenType.slp t).isKnown = true)
include hKnown

theorem parseGenesisData_gives : Gives (OfType txid t) (parseGenesisData txid t d) := by
  unfold parseGenesisData
  split
  · refine .skip fun _ => .skip fun _ => .bind (parseMintField_gives t _) fun field hField =>
      .skip fun _ => .skip fun _ => .skip fun _ => .skip fun _ => .skip fun _ =>
      .pure ⟨⟨rfl, hKnown, fun hVault => ?_⟩, rfl⟩
    rw [hField (by cases hVault; rfl)]
    rfl
  · exact .error _

theorem parseMintDataBaton_gives (hVault : t ≠ .mintVault) :
    Gives (OfType txid t) (parseMintDataBaton t d) := by
  unfold parseMintDataBaton
  split
  · exact .skip fun id => .skip fun _ => .skip fun _ =>
      .pure ⟨⟨hKnown, fun hEq => absurd (by cases hEq; rfl) hVault⟩, rfl⟩
  · exact .error _

theorem parseSendData_gives : Gives (OfType txid t) (parseSendData t d) :=
  .skip fun _ => .pure ⟨hKnown, rfl⟩

theorem parseBurnData_gives : Gives (OfType txid t) (parseBurnData t d) := by
  unfold parseBurnData
  split
  · exact .skip fun id => .skip fun _ => .pure ⟨hKnown, rfl⟩
  · exact .error _

/-- The payload of a known type, by its transaction type. -/
theorem parseFields_known {txType : Bytes} (h : parseFields txid t txType d = .ok p) :
    OfType txid t p := by
  have hFields : parseFields txid t txType d =
      if txType = genesisBytes then parseGenesisData txid t d
      else if txType = mintBytes then
        if t = .mintVault then parseMintDataMintVault d else parseMintDataBaton t d
      else if txType = sendBytes then parseSendData t d
      else if txType = burnBytes then parseBurnData t d
      else .error (invalidTxType txType) := by
    cases t with
    | unknown byte => cases hKnown
    | _ => rfl
  rw [hFields] at h
  split_ifs at h with _ _ hVault
  · exact parseGenesisData_gives hKnown p h
  · subst hVault
    have hMint : Gives (OfType txid .mintVault) (parseMintDataMintVault d) :=
      .skip fun _ => .pure ⟨⟨rfl, fun _ => rfl⟩, rfl⟩
    exact hMint p h
  · exact parseMintDataBaton_gives hKnown hVault p h
  · exact parseSendData_gives hKnown p h
  · exact parseBurnData_gives hKnown p h

end Known

theorem parse_wellFormed {script : Script} (h : parse txid script = .ok (some p)) :
    p.WellFormed txid ∧ p.tokenMeta.tokenType.isAlp = false := by
  unfold parse at h
  split at h
  · next parsed hParse =>
    cases h
    obtain ⟨_, _, hParse⟩ := bind_eq_ok.mp hParse
    obtain ⟨_, _, hParse⟩ := bind_eq_ok.mp hParse
    obtain ⟨pushes, _, hParse⟩ := bind_eq_ok.mp hParse
    split at hParse
    · split at hParse
      · next byte _ =>
        by_cases hKnown : (TokenType.slp (parseTokenType byte)).isKnown = true
        · obtain ⟨hWf, hType⟩ := parseFields_known hKnown hParse
          exact ⟨hWf, by rw [hType]; rfl⟩
        · -- the mark of an unknown type
          unfold parseFields at hParse
          split at hParse
          · cases hParse
            exact ⟨⟨rfl, rfl⟩, rfl⟩
          · next hNot =>
            exfalso
            cases hType : parseTokenType byte with
            | unknown b => exact hNot b hType
            | _ => exact hKnown (by rw [hType]; rfl)
      · cases hParse
    · cases hParse
  · split at h
    · cases h
    · cases h

end Accepted

end Slp

end Ergon
