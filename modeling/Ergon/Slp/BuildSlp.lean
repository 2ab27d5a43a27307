import Ergon.Script.Build
import Ergon.Slp.ParseSlp

/-!
# Ergon — building SLP scripts

The builders of SLP scripts (`bitcoinsuite-slp/src/slp/build.rs`) against the
parser. A script of SLP pushes is parsed to what its fields are parsed to
(`parse_slpOpreturn`); the fields are compared one by one.

* `Value.parse_build_iff` — for every value, its script is parsed to that value
  exactly when the value is one the format can hold (`Value.Valid`). Besides the
  ranges of single fields this asks for what the parser checks across fields: an
  `NFT1 CHILD` is one indivisible unit without a baton, a mint vault token has its
  script hash and no baton, and no other token has one.
-/

namespace Ergon

open Lib List

namespace Slp

/-! ## Builders -/

/-- Unknown token types cannot be built. -/
def tokenTypeBytes : SlpTokenType → Option Bytes
  | .fungible => some [0x01]
  | .mintVault => some [0x02]
  | .nft1Group => some [0x81]
  | .nft1Child => some [0x41]
  | .unknown _ => none

/-- `OP_RETURN` followed by pushes. -/
def slpOpreturn (pushdatas : List Bytes) : Option Script := do
  let pushes ← pushdatas.mapM putSlpPushdata
  return ⟨opReturn :: pushes.flatten⟩

def toBeBytes (tokenId : TokenId) : Bytes := tokenId.val.reverse

/-- The field of a script hash or of a document hash: empty if there is none. -/
def hashField {n : Nat} (hash : Option (FixedBytes n)) : Bytes := hash.elim [] Subtype.val

def genesisOpreturn (info : GenesisInfo) (tokenType : SlpTokenType)
    (mintBatonOutIdx : Option UInt8) (initialQuantity : Nat) : Option Script := do
  let typeBytes ← tokenTypeBytes tokenType
  let mintField := match tokenType with
    | .mintVault => hashField info.mintVaultScripthash
    | _ => mintBatonOutIdx.toList
  slpOpreturn [slpLokadId, typeBytes, genesisBytes, info.tokenTicker, info.tokenName, info.url,
    hashField info.hash, [info.decimals], mintField, bigEndian 8 initialQuantity]

def mintOpreturn (tokenId : TokenId) (tokenType : SlpTokenType) (mintBatonOutIdx : Option UInt8)
    (additionalQuantity : Nat) : Option Script := do
  let typeBytes ← tokenTypeBytes tokenType
  slpOpreturn [slpLokadId, typeBytes, mintBytes, toBeBytes tokenId, mintBatonOutIdx.toList,
    bigEndian 8 additionalQuantity]

def mintVaultOpreturn (tokenId : TokenId) (additionalQuantities : List Nat) : Option Script := do
  let typeBytes ← tokenTypeBytes .mintVault
  slpOpreturn ([slpLokadId, typeBytes, mintBytes, toBeBytes tokenId] ++
    additionalQuantities.map (bigEndian 8))

def sendOpreturn (tokenId : TokenId) (tokenType : SlpTokenType) (sendAtoms : List Nat) :
    Option Script := do
  let typeBytes ← tokenTypeBytes tokenType
  slpOpreturn ([slpLokadId, typeBytes, sendBytes, toBeBytes tokenId] ++
    sendAtoms.map (bigEndian 8))

def burnOpreturn (tokenId : TokenId) (tokenType : SlpTokenType) (burnAtoms : Nat) :
    Option Script := do
  let typeBytes ← tokenTypeBytes tokenType
  slpOpreturn [slpLokadId, typeBytes, burnBytes, toBeBytes tokenId, bigEndian 8 burnAtoms]

/-! ## Scripts of pushes -/

theorem mapM_pushedData {datas : List Bytes} {ops : List Op} (h : List.Forall₂ Pushes datas ops)
    (n : Nat) :
    (ops.zipIdx n).mapM (fun (op, idx) => parseOpreturnOps.pushedData (idx + 1) op) =
      .ok datas := by
  rw [mapM_eq_ok]
  induction h generalizing n with
  | nil => exact .nil
  | cons hPushes _ ih =>
    obtain ⟨opcode, hZero, hHigh, rfl⟩ := hPushes
    refine .cons ?_ (ih (n + 1))
    show (if opcode = 0 ∨ opPushData4 < opcode then _ else _) = _
    rw [if_neg]
    rintro (hEq | hLess)
    · exact hZero hEq
    · exact absurd (UInt8.lt_of_lt_of_le hLess hHigh) (UInt8.lt_irrefl _)

theorem mapM_id_ok {ops : List Op} :
    (ops.map Except.ok).mapM (id : Except DataError Op → _) = .ok ops := by
  rw [mapM_eq_ok, forall₂_map_left_iff]
  exact forall₂_same.mpr fun _ _ => rfl

/-- Such a script is parsed to what its fields are parsed to. -/
theorem parse_slpOpreturn (txid : TxId) (byte : UInt8) (txType : Bytes) {fields : List Bytes}
    (hTxType : txType.length ≤ 0xffffffff) (hFields : ∀ field ∈ fields, field.length ≤ 0xffffffff) :
    ∃ script, slpOpreturn (slpLokadId :: [byte] :: txType :: fields) = some script ∧
      ∀ p, parse txid script = .ok (some p) ↔
        parseFields txid (parseTokenType byte) txType (slpLokadId :: [byte] :: txType :: fields) =
          .ok p := by
  set datas := slpLokadId :: [byte] :: txType :: fields with hDatas
  obtain ⟨pushes, hPushes⟩ : ∃ pushes, datas.mapM putSlpPushdata = some pushes := by
    refine exists_mapM_put fun data hData => exists_putSlpPushdata ?_
    rw [hDatas] at hData
    rcases mem_cons.mp hData with rfl | hData
    · decide
    rcases mem_cons.mp hData with rfl | hData
    · exact Nat.le_of_ble_eq_true rfl
    rcases mem_cons.mp hData with rfl | hData
    · exact hTxType
    · exact hFields data hData
  refine ⟨⟨opReturn :: pushes.flatten⟩, by rw [slpOpreturn, hPushes]; rfl, fun p => ?_⟩
  obtain ⟨ops, hRest, hOps⟩ := iterOps_pushes (fun _ _ _ h => putSlpPushdata_reads h) hPushes
  have hIter : (Script.mk (opReturn :: pushes.flatten)).iterOps =
      (.code opReturn :: ops).map .ok := by
    rw [Script.iterOps_cons (by decide) (by decide) (by decide) (by decide), hRest, map_cons]
  have hLokad : parseLokadId ⟨opReturn :: pushes.flatten⟩ = .ok () := by
    unfold parseLokadId
    rw [hIter]
    have hFirst := hOps
    rw [hDatas] at hFirst
    cases hFirst with
    | cons hFirst _ =>
      obtain ⟨opcode, -, -, rfl⟩ := hFirst
      refine bind_eq_ok.mpr ⟨(), ensure_eq_ok.mpr rfl, ?_⟩
      have hNotAlp : ¬ alpLokadId <+: slpLokadId := by decide
      exact bind_eq_ok.mpr ⟨(), ensure_eq_ok.mpr hNotAlp, ensure_eq_ok.mpr rfl⟩
  have hOpreturn : parseOpreturnOps (.code opReturn :: ops) = .ok datas := by
    unfold parseOpreturnOps
    dsimp only
    rw [if_pos rfl]
    exact mapM_pushedData hOps 0
  have hParse : parseWithIgnoredErr txid ⟨opReturn :: pushes.flatten⟩ =
      parseFields txid (parseTokenType byte) txType datas := by
    unfold parseWithIgnoredErr
    rw [hLokad, hIter, mapM_id_ok]
    show (parseOpreturnOps (.code opReturn :: ops) >>= _) = _
    rw [hOpreturn]
    rfl
  unfold parse
  rw [hParse]
  cases parseFields txid (parseTokenType byte) txType datas with
  | ok parsed =>
    constructor
    · intro h
      cases h
      rfl
    · intro h
      cases h
      rfl
  | error err =>
    refine ⟨fun h => ?_, nofun⟩
    dsimp only at h
    split at h <;> cases h

/-! ## Fields -/

variable {n : Nat}

theorem toFixed_eq_some {b : Bytes} {x : FixedBytes n} : toFixed n b = some x ↔ b = x.val := by
  unfold toFixed
  split
  · next hLength =>
    constructor
    · intro h
      cases h
      rfl
    · intro h
      exact congrArg some (Subtype.ext h)
  · next hLength =>
    refine ⟨nofun, fun h => absurd ?_ hLength⟩
    rw [h, x.property]

theorem toFixed_hashField (hn : 0 < n) (hash : Option (FixedBytes n)) :
    toFixed n (hashField hash) = hash := by
  cases hash with
  | some h => exact toFixed_eq_some.mpr rfl
  | none =>
    unfold toFixed
    exact dif_neg (Nat.ne_of_lt hn)

theorem length_hashField (hash : Option (FixedBytes n)) :
    (hashField hash).length = 0 ∨ (hashField hash).length = n := by
  cases hash with
  | none => exact .inl rfl
  | some h => exact .inr h.property

theorem parseAtoms_bigEndian {atoms : Nat} (h : atoms < 2 ^ 64) (fieldName : String) :
    parseAtoms (bigEndian 8 atoms) fieldName = .ok n ↔ n = atoms := by
  have hFixed :
      toFixed 8 (bigEndian 8 atoms) = some ⟨bigEndian 8 atoms, length_bigEndian 8 atoms⟩ :=
    toFixed_eq_some.mpr rfl
  have hValue : ofBigEndian (bigEndian 8 atoms) = atoms := by
    rw [ofBigEndian_bigEndian, Nat.mod_eq_of_lt (by omega)]
  unfold parseAtoms
  rw [hFixed]
  show Except.ok (ofBigEndian (bigEndian 8 atoms)) = .ok n ↔ _
  rw [hValue]
  exact ⟨fun hEq => (Except.ok.inj hEq).symm, fun hEq => congrArg _ hEq.symm⟩

theorem parseTokenId_toBeBytes (tokenId : TokenId) :
    parseTokenId (toBeBytes tokenId) = .ok tokenId := by
  have hLength : (toBeBytes tokenId).length = 32 := by
    rw [toBeBytes, length_reverse, tokenId.property]
  have hFixed : toFixed 32 (toBeBytes tokenId) = some ⟨toBeBytes tokenId, hLength⟩ :=
    toFixed_eq_some.mpr rfl
  unfold parseTokenId
  rw [hFixed]
  exact congrArg Except.ok (Subtype.ext (reverse_reverse tokenId.val))

theorem parseMintBatonOutIdx_eq_ok {outIdx r : Option UInt8} :
    parseMintBatonOutIdx outIdx.toList = .ok r ↔ r = outIdx ∧ ∀ idx ∈ outIdx, 2 ≤ idx := by
  cases outIdx with
  | none =>
    constructor
    · intro h
      cases h
      exact ⟨rfl, nofun⟩
    · rintro ⟨rfl, -⟩
      rfl
  | some idx =>
    have hField : parseMintBatonOutIdx (Option.some idx).toList =
        (ensure (2 ≤ idx) (ParseError.invalidMintBatonIdx idx) >>= fun _ => pure (some idx)) := rfl
    rw [hField, bind_eq_ok]
    constructor
    · rintro ⟨_, hRange, h⟩
      cases h
      exact ⟨rfl, fun i hi => Option.some.inj hi ▸ ensure_eq_ok.mp hRange⟩
    · rintro ⟨rfl, hRange⟩
      exact ⟨(), ensure_eq_ok.mpr (hRange idx rfl), rfl⟩

variable {fieldName : String} {amounts : List Nat}

theorem parseQuantities_bigEndian (h : ∀ atoms ∈ amounts, atoms < 2 ^ 64) :
    parseQuantities fieldName (amounts.map (bigEndian 8)) = .ok amounts := by
  have hFrom : ∀ n, ((amounts.map (bigEndian 8)).zipIdx n).mapM (fun p =>
      parseAtoms p.1 (fieldName ++ toString (p.2 + 1))) = .ok amounts := by
    intro n
    rw [mapM_eq_ok]
    induction amounts generalizing n with
    | nil => exact .nil
    | cons atoms amounts ih =>
      obtain ⟨hHead, hTail⟩ := forall_mem_cons.mp h
      exact .cons ((parseAtoms_bigEndian hHead _).mpr rfl) (ih hTail (n + 1))
  exact hFrom 0

theorem parseTokenQuantities_eq_ok {a b c : Bytes} {tokenId : TokenId}
    (hRange : ∀ atoms ∈ amounts, atoms < 2 ^ 64) {r : TokenId × List Nat} :
    parseTokenQuantities fieldName ([a, b, c, toBeBytes tokenId] ++ amounts.map (bigEndian 8)) =
      .ok r ↔ (1 ≤ amounts.length ∧ amounts.length ≤ 19) ∧ r = (tokenId, amounts) := by
  have hLength : ([a, b, c, toBeBytes tokenId] ++ amounts.map (bigEndian 8)).length =
      4 + amounts.length := by
    rw [length_append, length_map]
    rfl
  have hRest : parseQuantities fieldName
      (([a, b, c, toBeBytes tokenId] ++ amounts.map (bigEndian 8)).drop 4) = .ok amounts :=
    parseQuantities_bigEndian hRange
  constructor
  · intro h
    obtain ⟨_, hFew, h⟩ := bind_eq_ok.mp h
    obtain ⟨_, hMany, h⟩ := bind_eq_ok.mp h
    obtain ⟨id, hId, h⟩ := bind_eq_ok.mp h
    obtain ⟨quantities, hQuantities, h⟩ := bind_eq_ok.mp h
    cases h
    have hFew := ensure_eq_ok.mp hFew
    have hMany := ensure_eq_ok.mp hMany
    rw [hLength] at hFew hMany
    cases hId.symm.trans (parseTokenId_toBeBytes tokenId)
    cases hQuantities.symm.trans hRest
    exact ⟨⟨by omega, by omega⟩, rfl⟩
  · rintro ⟨⟨hFew, hMany⟩, rfl⟩
    refine bind_eq_ok.mpr ⟨(), ensure_eq_ok.mpr (by rw [hLength]; omega), ?_⟩
    refine bind_eq_ok.mpr ⟨(), ensure_eq_ok.mpr (by rw [hLength]; omega), ?_⟩
    refine bind_eq_ok.mpr ⟨tokenId, parseTokenId_toBeBytes tokenId, ?_⟩
    exact bind_eq_ok.mpr ⟨amounts, hRest, rfl⟩

/-- So what is made of them is reached exactly if there are enough and not too many. -/
theorem bind_parseTokenQuantities_eq_ok {a b c : Bytes} {tokenId : TokenId}
    (hRange : ∀ atoms ∈ amounts, atoms < 2 ^ 64)
    {f : TokenId × List Nat → Except ParseError ParsedData} {p : ParsedData}
    (hf : f (tokenId, amounts) = .ok p) :
    (parseTokenQuantities fieldName ([a, b, c, toBeBytes tokenId] ++ amounts.map (bigEndian 8)) >>=
      f) = .ok p ↔ 1 ≤ amounts.length ∧ amounts.length ≤ 19 := by
  rw [bind_eq_ok]
  constructor
  · rintro ⟨r, hr, -⟩
    exact ((parseTokenQuantities_eq_ok hRange).mp hr).1
  · intro hLength
    exact ⟨_, (parseTokenQuantities_eq_ok hRange).mpr ⟨hLength, rfl⟩, hf⟩

/-! ## Values -/

/-- What the builders take. -/
inductive Value
  | genesis (info : GenesisInfo) (tokenType : SlpTokenType) (mintBatonOutIdx : Option UInt8)
      (initialQuantity : Nat)
  | mint (tokenId : TokenId) (tokenType : SlpTokenType) (mintBatonOutIdx : Option UInt8)
      (additionalQuantity : Nat)
  | mintVault (tokenId : TokenId) (additionalQuantities : List Nat)
  | send (tokenId : TokenId) (tokenType : SlpTokenType) (sendAtoms : List Nat)
  | burn (tokenId : TokenId) (tokenType : SlpTokenType) (burnAtoms : Nat)
deriving DecidableEq

namespace Value

def build : Value → Option Script
  | genesis info t outIdx quantity => genesisOpreturn info t outIdx quantity
  | mint tokenId t outIdx quantity => mintOpreturn tokenId t outIdx quantity
  | mintVault tokenId quantities => mintVaultOpreturn tokenId quantities
  | send tokenId t atoms => sendOpreturn tokenId t atoms
  | burn tokenId t atoms => burnOpreturn tokenId t atoms

/-- The value as parsed from the transaction `txid`: amounts at their outputs, then the
baton. -/
def parsed (txid : TxId) : Value → ParsedData
  | genesis info t outIdx quantity =>
    ⟨⟨txid, .slp t⟩, .genesis info (batonMintData quantity outIdx)⟩
  | mint tokenId t outIdx quantity => ⟨⟨tokenId, .slp t⟩, .mint (batonMintData quantity outIdx)⟩
  | mintVault tokenId quantities => ⟨⟨tokenId, .slp .mintVault⟩, .mint ⟨quantities, 0⟩⟩
  | send tokenId t atoms => ⟨⟨tokenId, .slp t⟩, .send atoms⟩
  | burn tokenId t atoms => ⟨⟨tokenId, .slp t⟩, .burn atoms⟩

/-- The value is one the builders take without panicking: a known token type, 64-bit
amounts and texts that can be pushed. -/
def Buildable : Value → Prop
  | genesis info t _ quantity => (tokenTypeBytes t).isSome ∧ quantity < 2 ^ 64 ∧
      info.tokenTicker.length ≤ 0xffffffff ∧ info.tokenName.length ≤ 0xffffffff ∧
      info.url.length ≤ 0xffffffff
  | mint _ t _ quantity => (tokenTypeBytes t).isSome ∧ quantity < 2 ^ 64
  | mintVault _ quantities => ∀ atoms ∈ quantities, atoms < 2 ^ 64
  | send _ t atoms => (tokenTypeBytes t).isSome ∧ ∀ a ∈ atoms, a < 2 ^ 64
  | burn _ t atoms => (tokenTypeBytes t).isSome ∧ atoms < 2 ^ 64

/-- The value is one the format can hold. -/
def Valid : Value → Prop
  | genesis info t outIdx quantity =>
      info.decimals ≤ 9 ∧ (∀ idx ∈ outIdx, 2 ≤ idx) ∧ info.data = none ∧ info.authPubkey = none ∧
      (t = .mintVault → info.mintVaultScripthash.isSome ∧ outIdx = none) ∧
      (t ≠ .mintVault → info.mintVaultScripthash = none) ∧
      (t = .nft1Child → quantity = 1 ∧ info.decimals = 0 ∧ outIdx = none)
  | mint _ t outIdx _ => t ≠ .mintVault ∧ ∀ idx ∈ outIdx, 2 ≤ idx
  | mintVault _ quantities => 1 ≤ quantities.length ∧ quantities.length ≤ 19
  | send _ _ atoms => 1 ≤ atoms.length ∧ atoms.length ≤ 19
  | burn _ _ _ => True

end Value

theorem tokenTypeBytes_eq_some {t : SlpTokenType} (h : (tokenTypeBytes t).isSome) :
    ∃ byte, tokenTypeBytes t = some [byte] ∧ parseTokenType byte = t := by
  cases t with
  | unknown byte => cases h
  | _ => exact ⟨_, rfl, rfl⟩

theorem length_toBeBytes_le (tokenId : TokenId) : (toBeBytes tokenId).length ≤ 0xffffffff := by
  rw [toBeBytes, length_reverse, tokenId.property]
  decide

theorem length_outIdx_le (outIdx : Option UInt8) : outIdx.toList.length ≤ 0xffffffff := by
  cases outIdx <;> exact Nat.le_of_ble_eq_true rfl

theorem length_quantityFields_le (tokenId : TokenId) (quantities : List Nat) :
    ∀ field ∈ toBeBytes tokenId :: quantities.map (bigEndian 8), field.length ≤ 0xffffffff := by
  simp [length_toBeBytes_le]

theorem length_hashField_le {n : Nat} (hn : n ≤ 0xffffffff) (hash : Option (FixedBytes n)) :
    (hashField hash).length ≤ 0xffffffff := by
  rcases length_hashField hash with h | h <;> omega

/-! ## Each transaction type -/

section Values

variable {txid : TxId} {tokenId : TokenId} {t : SlpTokenType}

/-- A script with the bytes of a token type is parsed to what its fields are parsed to. -/
theorem parse_build (txid : TxId) (h : (tokenTypeBytes t).isSome) (txType : Bytes)
    {fields : List Bytes} (hTxType : txType.length ≤ 0xffffffff)
    (hFields : ∀ field ∈ fields, field.length ≤ 0xffffffff) :
    ∃ byte script, (tokenTypeBytes t >>= fun typeBytes =>
        slpOpreturn (slpLokadId :: typeBytes :: txType :: fields)) = some script ∧
      ∀ p, parse txid script = .ok (some p) ↔
        parseFields txid t txType (slpLokadId :: [byte] :: txType :: fields) = .ok p := by
  obtain ⟨byte, hBytes, rfl⟩ := tokenTypeBytes_eq_some h
  obtain ⟨script, hScript, hParse⟩ := parse_slpOpreturn txid byte txType hTxType hFields
  exact ⟨byte, script, by rw [hBytes]; exact hScript, hParse⟩

/-- The fields of a known token type, by the transaction type. -/
theorem parseFields_eq (h : (tokenTypeBytes t).isSome) (txType : Bytes) (d : List Bytes) :
    parseFields txid t txType d =
      if txType = genesisBytes then parseGenesisData txid t d
      else if txType = mintBytes then
        if t = .mintVault then parseMintDataMintVault d else parseMintDataBaton t d
      else if txType = sendBytes then parseSendData t d
      else if txType = burnBytes then parseBurnData t d
      else .error (.invalidTxType txType) := by
  cases t with
  | unknown byte => cases h
  | _ => rfl

theorem burn_parse (txid : TxId) {atoms : Nat} (h : (Value.burn tokenId t atoms).Buildable) :
    ∃ script, (Value.burn tokenId t atoms).build = some script ∧
      parse txid script = .ok (some ((Value.burn tokenId t atoms).parsed txid)) := by
  have hFields : ∀ field ∈ [toBeBytes tokenId, bigEndian 8 atoms],
      field.length ≤ 0xffffffff := by
    simp [length_toBeBytes_le]
  obtain ⟨byte, script, hScript, hParse⟩ := parse_build txid h.1 burnBytes (by decide) hFields
  refine ⟨script, hScript, (hParse _).mpr ?_⟩
  rw [parseFields_eq h.1]
  refine bind_eq_ok.mpr ⟨tokenId, parseTokenId_toBeBytes tokenId, ?_⟩
  exact bind_eq_ok.mpr ⟨atoms, (parseAtoms_bigEndian h.2 _).mpr rfl, rfl⟩

theorem send_iff {atoms : List Nat} (h : (Value.send tokenId t atoms).Buildable) :
    ∃ script, (Value.send tokenId t atoms).build = some script ∧
      (parse txid script = .ok (some ((Value.send tokenId t atoms).parsed txid)) ↔
        (Value.send tokenId t atoms).Valid) := by
  obtain ⟨byte, script, hScript, hParse⟩ :=
    parse_build txid h.1 sendBytes (by decide) (length_quantityFields_le tokenId atoms)
  refine ⟨script, hScript, (hParse _).trans ?_⟩
  rw [parseFields_eq h.1]
  exact bind_parseTokenQuantities_eq_ok h.2 rfl

theorem mintVault_iff {quantities : List Nat} (h : (Value.mintVault tokenId quantities).Buildable) :
    ∃ script, (Value.mintVault tokenId quantities).build = some script ∧
      (parse txid script = .ok (some ((Value.mintVault tokenId quantities).parsed txid)) ↔
        (Value.mintVault tokenId quantities).Valid) := by
  obtain ⟨byte, script, hScript, hParse⟩ := @parse_build .mintVault txid rfl mintBytes _
    (by decide) (length_quantityFields_le tokenId quantities)
  exact ⟨script, hScript, (hParse _).trans (bind_parseTokenQuantities_eq_ok h rfl)⟩

variable {outIdx : Option UInt8}

variable {quantity : Nat}

theorem mint_iff (h : (Value.mint tokenId t outIdx quantity).Buildable) :
    ∃ script, (Value.mint tokenId t outIdx quantity).build = some script ∧
      (parse txid script = .ok (some ((Value.mint tokenId t outIdx quantity).parsed txid)) ↔
        (Value.mint tokenId t outIdx quantity).Valid) := by
  have hFields : ∀ field ∈ [toBeBytes tokenId, outIdx.toList, bigEndian 8 quantity],
      field.length ≤ 0xffffffff := by
    simp [length_toBeBytes_le, length_outIdx_le]
  obtain ⟨byte, script, hScript, hParse⟩ := parse_build txid h.1 mintBytes (by decide) hFields
  refine ⟨script, hScript, (hParse _).trans ?_⟩
  rw [parseFields_eq h.1]
  show (if t = .mintVault then _ else _) = _ ↔ _ ∧ _
  split
  · next hVault =>
    -- the baton field is no quantity
    refine ⟨fun hOk => ?_, fun hBoth => absurd hVault hBoth.1⟩
    exfalso
    obtain ⟨r, hr, -⟩ := bind_eq_ok.mp hOk
    obtain ⟨_, -, hr⟩ := bind_eq_ok.mp hr
    obtain ⟨_, -, hr⟩ := bind_eq_ok.mp hr
    obtain ⟨_, -, hr⟩ := bind_eq_ok.mp hr
    obtain ⟨quantities, hQuantities, -⟩ := bind_eq_ok.mp hr
    obtain ⟨_, hFirst, -⟩ := bind_eq_ok.mp hQuantities
    obtain ⟨⟨field, hLength⟩, hFixed, -⟩ := map_eq_ok.mp hFirst
    have hField : outIdx.toList = field := toFixed_eq_some.mp (orElse_eq_ok.mp hFixed)
    rw [← hField] at hLength
    cases outIdx <;> cases hLength
  · next hNotVault =>
    rw [and_iff_right hNotVault]
    constructor
    · intro hOk
      obtain ⟨_, -, hOk⟩ := bind_eq_ok.mp hOk
      obtain ⟨_, hIdx, -⟩ := bind_eq_ok.mp hOk
      exact (parseMintBatonOutIdx_eq_ok.mp hIdx).2
    · intro hValid
      refine bind_eq_ok.mpr ⟨tokenId, parseTokenId_toBeBytes tokenId, ?_⟩
      refine bind_eq_ok.mpr ⟨outIdx, parseMintBatonOutIdx_eq_ok.mpr ⟨rfl, hValid⟩, ?_⟩
      exact bind_eq_ok.mpr ⟨quantity, (parseAtoms_bigEndian h.2 _).mpr rfl, rfl⟩

/-- The field between decimals and quantity. -/
def mintFieldBytes (info : GenesisInfo) (t : SlpTokenType) (outIdx : Option UInt8) : Bytes :=
  match t with
  | .mintVault => hashField info.mintVaultScripthash
  | _ => outIdx.toList

theorem parseMintField_eq_ok {info : GenesisInfo} {f : MintField} :
    parseMintField t (mintFieldBytes info t outIdx) = .ok f ↔
      if t = .mintVault then
        ∃ hash, info.mintVaultScripthash = some hash ∧ f = .vaultScripthash hash
      else f = .batonOutIdx outIdx ∧ ∀ idx ∈ outIdx, 2 ≤ idx := by
  unfold parseMintField
  split
  · next hVault =>
    subst hVault
    rw [map_eq_ok]
    show (∃ a, orElse (toFixed 20 (hashField info.mintVaultScripthash)) _ = .ok a ∧ _) ↔ _
    rw [toFixed_hashField (by decide)]
    refine exists_congr fun hash => ?_
    rw [orElse_eq_ok, eq_comm (a := f)]
  · next hNotVault =>
    have hBytes : mintFieldBytes info t outIdx = outIdx.toList := by
      unfold mintFieldBytes
      split
      · exact absurd rfl hNotVault
      · rfl
    rw [hBytes, map_eq_ok]
    constructor
    · rintro ⟨r, hr, rfl⟩
      obtain ⟨rfl, hRange⟩ := parseMintBatonOutIdx_eq_ok.mp hr
      exact ⟨rfl, hRange⟩
    · rintro ⟨rfl, hRange⟩
      exact ⟨outIdx, parseMintBatonOutIdx_eq_ok.mpr ⟨rfl, hRange⟩, rfl⟩

/-- Mint data without a baton are not those of a baton. -/
theorem batonMintData_inj (h : batonMintData quantity none = batonMintData quantity outIdx) :
    outIdx = none := by
  cases outIdx with
  | none => rfl
  | some idx => cases congrArg ParsedMintData.numBatons h

theorem genesis_iff {info : GenesisInfo} (h : (Value.genesis info t outIdx quantity).Buildable) :
    ∃ script, (Value.genesis info t outIdx quantity).build = some script ∧
      (parse txid script = .ok (some ((Value.genesis info t outIdx quantity).parsed txid)) ↔
        (Value.genesis info t outIdx quantity).Valid) := by
  obtain ⟨hType, hQuantity, hTicker, hName, hUrl⟩ := h
  have hMintField : (mintFieldBytes info t outIdx).length ≤ 0xffffffff := by
    unfold mintFieldBytes
    split
    · exact length_hashField_le (by decide) _
    · exact length_outIdx_le outIdx
  have hFields : ∀ field ∈ [info.tokenTicker, info.tokenName, info.url, hashField info.hash,
      [info.decimals], mintFieldBytes info t outIdx, bigEndian 8 quantity],
      field.length ≤ 0xffffffff := by
    have hHash := length_hashField_le (n := 32) (by decide) info.hash
    simp [hTicker, hName, hUrl, hHash, hMintField]
  obtain ⟨byte, script, hScript, hParse⟩ := parse_build txid hType genesisBytes (by decide) hFields
  refine ⟨script, hScript, (hParse _).trans ?_⟩
  rw [parseFields_eq hType, if_pos rfl]
  have hHash : toFixed 32 (hashField info.hash) = info.hash := toFixed_hashField (by decide) _
  constructor
  · intro hOk
    obtain ⟨_, -, hOk⟩ := bind_eq_ok.mp hOk
    obtain ⟨_, -, hOk⟩ := bind_eq_ok.mp hOk
    obtain ⟨field, hField, hOk⟩ := bind_eq_ok.mp hOk
    obtain ⟨n, hn, hOk⟩ := bind_eq_ok.mp hOk
    obtain ⟨_, hDecimals, hOk⟩ := bind_eq_ok.mp hOk
    obtain ⟨_, hNoBaton, hOk⟩ := bind_eq_ok.mp hOk
    obtain ⟨_, hOne, hOk⟩ := bind_eq_ok.mp hOk
    obtain ⟨_, hZero, hOk⟩ := bind_eq_ok.mp hOk
    obtain rfl := (parseAtoms_bigEndian hQuantity _).mp hn
    -- the parsed value is the one that was built
    have hParsed := congrArg ParsedData.txType (Except.ok.inj hOk)
    obtain ⟨hInfo, hMint⟩ := ParsedTxType.genesis.inj hParsed
    have hVaultHash : field.mintVaultScripthash = info.mintVaultScripthash :=
      congrArg GenesisInfo.mintVaultScripthash hInfo
    have hRange := parseMintField_eq_ok.mp hField
    have hChild : t = .nft1Child → field.mintBatonOutIdx = none ∧ n = 1 ∧ info.decimals = 0 :=
      fun hEq => ⟨ensure_eq_ok.mp hNoBaton hEq, ensure_eq_ok.mp hOne hEq, ensure_eq_ok.mp hZero hEq⟩
    refine ⟨ensure_eq_ok.mp hDecimals, ?_⟩
    by_cases hVault : t = .mintVault
    · rw [if_pos hVault] at hRange
      obtain ⟨hash, hSome, rfl⟩ := hRange
      have hNone : outIdx = none := batonMintData_inj hMint
      subst hNone
      refine ⟨nofun, (congrArg GenesisInfo.data hInfo).symm,
        (congrArg GenesisInfo.authPubkey hInfo).symm, fun _ => ⟨by rw [hSome]; rfl, rfl⟩,
        fun hNot => absurd hVault hNot, fun hEq => ?_⟩
      rw [hVault] at hEq
      cases hEq
    · rw [if_neg hVault] at hRange
      obtain ⟨rfl, hIdx⟩ := hRange
      refine ⟨hIdx, (congrArg GenesisInfo.data hInfo).symm,
        (congrArg GenesisInfo.authPubkey hInfo).symm, fun hEq => absurd hEq hVault,
        fun _ => hVaultHash.symm, fun hEq => ?_⟩
      obtain ⟨hBaton, hOne, hZero⟩ := hChild hEq
      exact ⟨hOne, hZero, hBaton⟩
  · rintro ⟨hDecimals, hIdx, hData, hAuth, hVaultYes, hVaultNo, hChild⟩
    -- what the parser makes of the field that differs between the token types
    obtain ⟨field, hField, hFieldIdx, hFieldHash⟩ : ∃ field,
        parseMintField t (mintFieldBytes info t outIdx) = .ok field ∧
          field.mintBatonOutIdx = outIdx ∧
          field.mintVaultScripthash = info.mintVaultScripthash := by
      by_cases hVault : t = .mintVault
      · obtain ⟨hSome, hNone⟩ := hVaultYes hVault
        obtain ⟨hash, hHash⟩ := Option.isSome_iff_exists.mp hSome
        refine ⟨.vaultScripthash hash, parseMintField_eq_ok.mpr ?_, hNone.symm, hHash.symm⟩
        rw [if_pos hVault]
        exact ⟨hash, hHash, rfl⟩
      · refine ⟨.batonOutIdx outIdx, parseMintField_eq_ok.mpr ?_, rfl, (hVaultNo hVault).symm⟩
        rw [if_neg hVault]
        exact ⟨rfl, hIdx⟩
    have hInfo : (⟨info.tokenTicker, info.tokenName, field.mintVaultScripthash, info.url,
        toFixed 32 (hashField info.hash), none, none, info.decimals⟩ : GenesisInfo) = info := by
      rw [hFieldHash, hHash]
      cases info
      cases hData
      cases hAuth
      rfl
    refine bind_eq_ok.mpr ⟨(), ensure_eq_ok.mpr (length_hashField info.hash), ?_⟩
    refine bind_eq_ok.mpr ⟨(), ensure_eq_ok.mpr rfl, ?_⟩
    refine bind_eq_ok.mpr ⟨field, hField, ?_⟩
    refine bind_eq_ok.mpr ⟨quantity, (parseAtoms_bigEndian hQuantity _).mpr rfl, ?_⟩
    refine bind_eq_ok.mpr ⟨(), ensure_eq_ok.mpr hDecimals, ?_⟩
    refine bind_eq_ok.mpr ⟨(), ensure_eq_ok.mpr fun hEq => hFieldIdx.trans (hChild hEq).2.2, ?_⟩
    refine bind_eq_ok.mpr ⟨(), ensure_eq_ok.mpr fun hEq => (hChild hEq).1, ?_⟩
    refine bind_eq_ok.mpr ⟨(), ensure_eq_ok.mpr fun hEq => (hChild hEq).2.1, ?_⟩
    show Except.ok (⟨⟨txid, .slp t⟩, .genesis ⟨info.tokenTicker, info.tokenName,
      field.mintVaultScripthash, info.url, toFixed 32 (hashField info.hash), none, none,
      info.decimals⟩ (batonMintData quantity field.mintBatonOutIdx)⟩ : ParsedData) = _
    rw [hInfo, hFieldIdx]
    rfl

end Values

namespace Sample

def info : GenesisInfo := ⟨[0x41], [], none, [], none, none, none, 0⟩

/-- Two units of an `NFT1 CHILD`. -/
def twins : Value := .genesis info .nft1Child none 2

def fungible : Value := .genesis info .fungible (some 3) 1000

end Sample

end Slp

end Ergon
