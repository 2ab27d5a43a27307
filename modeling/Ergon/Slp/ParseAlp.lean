import Ergon.Lib.Decode
import Ergon.Slp.ParseSlp

/-!
# Ergon — eMPP and ALP payloads

eMPP scripts hold several pushes after `OP_RETURN OP_RESERVED`
(`bitcoinsuite-slp/src/empp/parse.rs`); each of them may be an ALP section
(`alp/parse.rs`), which is read byte by byte.

* `Alp.parseSection_wellFormed` — what every accepted section satisfies.
-/

namespace Ergon

open Lib

namespace Empp

inductive ParseError
  | dataError (err : DataError)
  | emptyScript
  | missingOpReturn (opcode : UInt8)
  | emptyOpReturn
  | missingOpReserved (opcode : UInt8)
  | invalidPushOpcode (opcode : UInt8)
  | invalidNonPushOpcode (opcode : UInt8)
  | emptyPushdata (opcode : UInt8)
deriving DecidableEq

open ParseError

def pushPayload (pushop : Except DataError Op) : Except ParseError Bytes := do
  match ← pushop.mapError dataError with
  | .code opcode =>
    if opcode = 0 then .error (emptyPushdata opcode)
    else if op1Negate ≤ opcode ∧ opcode ≤ op16 then .error (invalidPushOpcode opcode)
    else .error (invalidNonPushOpcode opcode)
  | .push opcode payload => do
    ensure (payload ≠ []) (emptyPushdata opcode)
    return payload

def parseWithIgnoredErr (script : Script) : Except ParseError (List Bytes) :=
  match script.iterOps with
  | [] => .error emptyScript
  | first :: rest => do
    ensure (first.toOption = some (Op.code opReturn))
      (missingOpReturn (script.bytecode.headD 0))
    match rest with
    | [] => .error emptyOpReturn
    | second :: pushops => do
      ensure (second.toOption = some (Op.code opReserved))
        (missingOpReserved (script.bytecode.getD 1 0))
      pushops.mapM pushPayload

def shouldIgnoreErr : ParseError → Bool
  | emptyScript => true
  | missingOpReturn _ => true
  | emptyOpReturn => true
  | missingOpReserved _ => true
  | _ => false

def parse (script : Script) : Except ParseError (Option (List Bytes)) :=
  match parseWithIgnoredErr script with
  | .ok empp => .ok (some empp)
  | .error err => if shouldIgnoreErr err then .ok none else .error err

end Empp

namespace Alp

inductive ParseError
  | dataError (err : DataError)
  | notEnoughBytes (fieldName : String) (expected actual : Nat)
  | sizeOutOfRange (fieldName : String) (size : UInt8)
  | missingLokadId (bytes : Bytes)
  | invalidLokadId (lokadId : Bytes)
  | invalidSlpLokadId
  | unknownTxType (txType : Bytes)
  | decimalsOutOfRange (decimals : UInt8)
  | leftoverBytes (bytes : Bytes)
deriving DecidableEq

open ParseError

/-- Say in the error which field was being read. -/
def ParseError.named (fieldName : String) : ParseError → ParseError
  | dataError (.invalidLength expected actual) => notEnoughBytes fieldName expected actual
  | sizeOutOfRange _ size => sizeOutOfRange fieldName size
  | err => err

def named {α : Type} (fieldName : String) (r : Reader ParseError α) : Reader ParseError α :=
  fun pushdata => (r pushdata).mapError (ParseError.named fieldName)

def liftData {α : Type} (r : Reader DataError α) : Reader ParseError α :=
  fun pushdata => (r pushdata).mapError dataError

/-! ## Fields -/

def readByte : Reader ParseError UInt8 := do
  let byte ← liftData (readArray 1)
  return byte.val.headD 0

def readSize : Reader ParseError Nat := do
  let size ← readByte
  if 127 < size then throw (sizeOutOfRange "" size)
  return size.toNat

/-- Six bytes, little-endian. -/
def readAtoms : Reader ParseError Nat := do
  let amount6 ← liftData (readArray 6)
  return ofLittleEndian amount6.val

def readMany : Nat → Reader ParseError (List Nat)
  | 0 => return []
  | size + 1 => do
    let amount ← readAtoms
    let amounts ← readMany size
    return amount :: amounts

def readAtomsVec : Reader ParseError (List Nat) := do
  let size ← readSize
  readMany size

def readVarBytes : Reader ParseError Bytes := do
  let size ← readSize
  liftData (readBytes size)

def readTokenId : Reader ParseError TokenId := named "token_id" (liftData (readArray 32))

def parseTokenType : Reader ParseError AlpTokenType := do
  let tokenType ← named "token_type" readByte
  return if tokenType = 0 then .standard else .unknown tokenType

def parseMintData : Reader ParseError ParsedMintData := do
  let atomsVec ← named "mint_amount" readAtomsVec
  let numBatons ← named "num_batons" readSize
  return ⟨atomsVec, numBatons⟩

/-! ## Transaction types -/

def parseGenesis (txid : TxId) (tokenType : AlpTokenType) : Reader ParseError ParsedData := do
  let tokenTicker ← named "token_ticker" readVarBytes
  let tokenName ← named "token_name" readVarBytes
  let url ← named "url" readVarBytes
  let data ← named "data" readVarBytes
  let authPubkey ← named "auth_pubkey" readVarBytes
  let decimals ← named "decimals" readByte
  let mintData ← parseMintData
  if 9 < decimals then throw (decimalsOutOfRange decimals)
  let info : GenesisInfo :=
    { tokenTicker := tokenTicker
      tokenName := tokenName
      mintVaultScripthash := none
      url := url
      hash := none
      data := some data
      authPubkey := some authPubkey
      decimals := decimals }
  return ⟨⟨txid, .alp tokenType⟩, .genesis info mintData⟩

def parseMint (tokenType : AlpTokenType) : Reader ParseError ParsedData := do
  let tokenId ← readTokenId
  let mintData ← parseMintData
  return ⟨⟨tokenId, .alp tokenType⟩, .mint mintData⟩

def parseSend (tokenType : AlpTokenType) : Reader ParseError ParsedData := do
  let tokenId ← readTokenId
  let outputAmounts ← named "send_amount" readAtomsVec
  return ⟨⟨tokenId, .alp tokenType⟩, .send outputAmounts⟩

def parseBurn (tokenType : AlpTokenType) : Reader ParseError ParsedData := do
  let tokenId ← readTokenId
  let amount ← named "burn_amount" readAtoms
  return ⟨⟨tokenId, .alp tokenType⟩, .burn amount⟩

/-! ## Sections -/

def parseKnown (txid : TxId) (tokenType : AlpTokenType) : Reader ParseError ParsedData := do
  let txType ← named "tx_type" readVarBytes
  if txType = genesisBytes then parseGenesis txid tokenType
  else if txType = mintBytes then parseMint tokenType
  else if txType = sendBytes then parseSend tokenType
  else if txType = burnBytes then parseBurn tokenType
  else throw (unknownTxType txType)

def parseSectionWithIgnoredErr (txid : TxId) (pushdata : Bytes) :
    Except ParseError ParsedData := do
  ensure (4 ≤ pushdata.length) (missingLokadId pushdata)
  let lokadId := pushdata.take 4
  ensure (lokadId ≠ slpLokadId) invalidSlpLokadId
  ensure (lokadId = alpLokadId) (invalidLokadId lokadId)
  let (tokenType, rest) ← parseTokenType (pushdata.drop 4)
  match tokenType with
  -- what follows an unknown type is not read
  | .unknown byte => return ⟨⟨TxId.zero, .alp (.unknown byte)⟩, .unknown⟩
  | .standard =>
    let (parsed, leftover) ← parseKnown txid .standard rest
    ensure (leftover = []) (leftoverBytes leftover)
    return parsed

/-- Parse one push as ALP; `none` if it belongs to an unrelated protocol. -/
def parseSection (txid : TxId) (pushdata : Bytes) : Except ParseError (Option ParsedData) :=
  match parseSectionWithIgnoredErr txid pushdata with
  | .ok parsed => .ok (some parsed)
  | .error (missingLokadId _) => .ok none
  | .error (invalidLokadId _) => .ok none
  | .error err => .error err

/-! ## What is accepted -/

section Accepted

variable {txid : TxId} {t : AlpTokenType} {b rest : Bytes} {p : ParsedData}

/-- What a payload of the known type is parsed to. -/
def OfStandard (txid : TxId) (p : ParsedData) : Prop :=
  p.WellFormed txid ∧ p.tokenMeta.tokenType = .alp .standard

theorem parseGenesis_returns : Returns (parseGenesis txid .standard) (OfStandard txid) := by
  -- seven fields come before the range check of the decimals
  refine .skip fun _ => .skip fun _ => .skip fun _ => .skip fun _ => .skip fun _ =>
    .skip fun _ => .skip fun mintData => ?_
  split
  · exact .bind (P := fun _ => False) (fun _ _ _ h => nomatch h) fun _ h => h.elim
  · exact .pure ⟨⟨rfl, rfl, nofun⟩, rfl⟩

theorem parseKnown_returns : Returns (parseKnown txid .standard) (OfStandard txid) := by
  refine .skip fun txType => ?_
  split_ifs
  · exact parseGenesis_returns
  · exact .skip fun id => .skip fun mintData => .pure ⟨⟨rfl, nofun⟩, rfl⟩
  · exact .skip fun id => .skip fun atoms => .pure ⟨rfl, rfl⟩
  · exact .skip fun id => .skip fun atoms => .pure ⟨rfl, rfl⟩
  · exact fun _ _ _ h => nomatch h

/-- A section that is accepted is of an unknown type, or its fields fill the push. -/
theorem parseSection_cases (h : parseSection txid b = .ok (some p)) :
    (∃ byte, p = ⟨⟨TxId.zero, .alp (.unknown byte)⟩, .unknown⟩) ∨
      ∃ rest, b.take 4 = alpLokadId ∧ parseTokenType (b.drop 4) = .ok (.standard, rest) ∧
        parseKnown txid .standard rest = .ok (p, []) := by
  unfold parseSection at h
  split at h
  · next parsed hParse =>
    cases h
    obtain ⟨_, _, hParse⟩ := bind_eq_ok.mp hParse
    obtain ⟨_, _, hParse⟩ := bind_eq_ok.mp hParse
    obtain ⟨_, hLokad, hParse⟩ := bind_eq_ok.mp hParse
    obtain ⟨⟨tokenType, rest⟩, hTokenType, hParse⟩ := bind_eq_ok.mp hParse
    cases tokenType with
    | unknown byte =>
      cases hParse
      exact .inl ⟨byte, rfl⟩
    | standard =>
      obtain ⟨⟨parsed', leftover⟩, hKnown, hParse⟩ := bind_eq_ok.mp hParse
      obtain ⟨_, hLeft, hParse⟩ := bind_eq_ok.mp hParse
      cases hParse
      rw [ensure_eq_ok.mp hLeft] at hKnown
      exact .inr ⟨rest, ensure_eq_ok.mp hLokad, hTokenType, hKnown⟩
  · cases h
  · cases h
  · cases h

theorem parseSection_wellFormed (h : parseSection txid b = .ok (some p)) :
    p.WellFormed txid ∧ p.tokenMeta.tokenType.isAlp = true := by
  rcases parseSection_cases h with ⟨byte, rfl⟩ | ⟨rest, -, -, hKnown⟩
  · exact ⟨⟨rfl, rfl⟩, rfl⟩
  · obtain ⟨hWf, hType⟩ := parseKnown_returns _ _ _ hKnown
    exact ⟨hWf, by rw [hType]; rfl⟩

end Accepted

end Alp

end Ergon
