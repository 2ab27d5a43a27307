import Ergon.Script.Build
import Ergon.Slp.ParseAlp

/-!
# Ergon — building ALP sections

The builders of ALP sections (`bitcoinsuite-slp/src/alp/build.rs`) against the
parser. For every field there are two facts: the parser reads what the builder
writes (`Reads`), and what the parser accepts is what the builder writes for the
value it returns (`Canonical`).

* `parse_sectionsOpreturn` — sections in the range of the format are read back in
  order;
* `build_of_parseSection` — an accepted section is rebuilt byte by byte.

Absent `data` and `auth_pubkey` of a `GENESIS` are written like empty ones and
read back as present, and the two fields that only SLP has are not written
(`Section.asRead`).
-/

namespace Ergon

open Lib List

namespace Alp

/-! ## Builders -/

/-- Data behind their length in one byte. -/
def putVarBytes (b : Bytes) : Bytes := UInt8.ofNat b.length :: b

def putAtoms (atoms : Nat) : Bytes := (littleEndian 8 atoms).take 6

def putAtomsVec (atomsVec : List Nat) : Bytes :=
  UInt8.ofNat atomsVec.length :: atomsVec.flatMap putAtoms

def putMintData (mintData : ParsedMintData) : Bytes :=
  putAtomsVec mintData.atomsVec ++ [UInt8.ofNat mintData.numBatons]

def genesisSection (tokenType : AlpTokenType) (info : GenesisInfo) (mintData : ParsedMintData) :
    Bytes :=
  alpLokadId ++ (tokenType.toU8 :: (putVarBytes genesisBytes ++
    (putVarBytes info.tokenTicker ++ (putVarBytes info.tokenName ++ (putVarBytes info.url ++
      (putVarBytes (info.data.getD []) ++ (putVarBytes (info.authPubkey.getD []) ++
        (info.decimals :: putMintData mintData))))))))

def mintSection (tokenId : TokenId) (tokenType : AlpTokenType) (mintData : ParsedMintData) :
    Bytes :=
  alpLokadId ++ (tokenType.toU8 :: (putVarBytes mintBytes ++ (tokenId.val ++ putMintData mintData)))

def burnSection (tokenId : TokenId) (tokenType : AlpTokenType) (atoms : Nat) : Bytes :=
  alpLokadId ++ (tokenType.toU8 :: (putVarBytes burnBytes ++ (tokenId.val ++ putAtoms atoms)))

def sendSection (tokenId : TokenId) (tokenType : AlpTokenType) (sendAmounts : List Nat) : Bytes :=
  alpLokadId ++ (tokenType.toU8 :: (putVarBytes sendBytes ++
    (tokenId.val ++ putAtomsVec sendAmounts)))

def sectionsOpreturn (sections : List Bytes) : Option Script := do
  let pushes ← sections.mapM putPushdata
  return ⟨opReturn :: opReserved :: pushes.flatten⟩

/-! ## Standard sections -/

/-- The values the builders take. -/
inductive Section
  | genesis (info : GenesisInfo) (mintData : ParsedMintData)
  | mint (tokenId : TokenId) (mintData : ParsedMintData)
  | send (tokenId : TokenId) (sendAmounts : List Nat)
  | burn (tokenId : TokenId) (atoms : Nat)
deriving DecidableEq

namespace Section

def build : Section → Bytes
  | genesis info mintData => genesisSection .standard info mintData
  | mint tokenId mintData => mintSection tokenId .standard mintData
  | send tokenId sendAmounts => sendSection tokenId .standard sendAmounts
  | burn tokenId atoms => burnSection tokenId .standard atoms

/-- The section as parsed from the transaction `txid`. -/
def parsed (txid : TxId) : Section → ParsedData
  | genesis info mintData => ⟨⟨txid, .alp .standard⟩, .genesis info mintData⟩
  | mint tokenId mintData => ⟨⟨tokenId, .alp .standard⟩, .mint mintData⟩
  | send tokenId sendAmounts => ⟨⟨tokenId, .alp .standard⟩, .send sendAmounts⟩
  | burn tokenId atoms => ⟨⟨tokenId, .alp .standard⟩, .burn atoms⟩

end Section

def AmountsFit (atomsVec : List Nat) : Prop :=
  atomsVec.length ≤ 127 ∧ ∀ atoms ∈ atomsVec, atoms < 2 ^ 48

structure GenesisFits (info : GenesisInfo) : Prop where
  tokenTicker : info.tokenTicker.length ≤ 127
  tokenName : info.tokenName.length ≤ 127
  url : info.url.length ≤ 127
  data : (info.data.getD []).length ≤ 127
  authPubkey : (info.authPubkey.getD []).length ≤ 127
  decimals : info.decimals ≤ 9

/-- The fields of the section fit the format. -/
def Section.Fits : Section → Prop
  | genesis info mintData =>
    GenesisFits info ∧ AmountsFit mintData.atomsVec ∧ mintData.numBatons ≤ 127
  | mint _ mintData => AmountsFit mintData.atomsVec ∧ mintData.numBatons ≤ 127
  | send _ sendAmounts => AmountsFit sendAmounts
  | burn _ atoms => atoms < 2 ^ 48

/-- What of a `GENESIS` is read back. -/
def genesisAsRead (info : GenesisInfo) : GenesisInfo :=
  { info with
    mintVaultScripthash := none
    hash := none
    data := some (info.data.getD [])
    authPubkey := some (info.authPubkey.getD []) }

def Section.asRead : Section → Section
  | genesis info mintData => genesis (genesisAsRead info) mintData
  | other => other

/-- Nothing of the section is lost in the format. -/
def Section.Faithful : Section → Prop
  | genesis info _ => info.data.isSome ∧ info.authPubkey.isSome ∧
      info.hash = none ∧ info.mintVaultScripthash = none
  | _ => True

theorem Section.asRead_eq_self_iff {s : Section} : s.asRead = s ↔ s.Faithful := by
  cases s with
  | genesis info mintData =>
    obtain ⟨ticker, name, vault, url, hash, data, auth, decimals⟩ := info
    cases data <;> cases auth <;> cases hash <;> cases vault <;>
      simp [asRead, Faithful, genesisAsRead]
  | mint tokenId mintData | send tokenId sendAmounts | burn tokenId atoms =>
    exact ⟨fun _ => trivial, fun _ => rfl⟩

/-! ## Fields read back -/

variable {txid : TxId}

section Reads

theorem reads_mapError {ε ε' α : Type} {r : Reader ε α} {b : Bytes} {a : α} (f : ε → ε')
    (h : Reads r b a) : Reads (fun pushdata => (r pushdata).mapError f : Reader ε' α) b a :=
  fun rest => mapError_eq_ok.mpr (h rest)

theorem readByte_reads (byte : UInt8) : Reads readByte [byte] byte :=
  (reads_mapError _ (readArray_reads ⟨[byte], rfl⟩)).bind_pure fun b => b.val.headD 0

theorem readSize_reads {size : Nat} (h : size ≤ 127) :
    Reads readSize [UInt8.ofNat size] size := by
  have hToNat : (UInt8.ofNat size).toNat = size := by
    rw [UInt8.toNat_ofNat']
    omega
  have hInRange : ¬ 127 < UInt8.ofNat size := by
    rw [UInt8.lt_iff_toNat_lt, hToNat]
    exact Nat.not_lt.mpr h
  have hRead : Reads readSize ([UInt8.ofNat size] ++ []) (UInt8.ofNat size).toNat := by
    refine (readByte_reads _).bind ?_
    rw [if_neg hInRange]
    exact .pure _
  rwa [hToNat] at hRead

theorem putAtoms_eq (atoms : Nat) : putAtoms atoms = littleEndian 6 atoms :=
  take_littleEndian 6 2 atoms

theorem readAtoms_reads {atoms : Nat} (h : atoms < 2 ^ 48) :
    Reads readAtoms (putAtoms atoms) atoms := by
  have hRead := (reads_mapError ParseError.dataError (readArray_reads
    ⟨littleEndian 6 atoms, length_littleEndian 6 atoms⟩)).bind_pure fun b => ofLittleEndian b.val
  rw [putAtoms_eq]
  rwa [ofLittleEndian_littleEndian, Nat.mod_eq_of_lt (by omega)] at hRead

theorem readMany_eq (size : Nat) : readMany size = decodeMany readAtoms size := by
  induction size with
  | zero => rfl
  | succ size ih => rw [readMany, decodeMany, ih]

theorem readAtomsVec_reads {atomsVec : List Nat} (h : AmountsFit atomsVec) :
    Reads readAtomsVec (putAtomsVec atomsVec) atomsVec := by
  refine (readSize_reads h.1).bind ?_
  rw [readMany_eq]
  exact .many fun atoms hAtoms => readAtoms_reads (h.2 atoms hAtoms)

theorem readVarBytes_reads {b : Bytes} (h : b.length ≤ 127) :
    Reads readVarBytes (putVarBytes b) b :=
  (readSize_reads h).bind (reads_mapError _ (readBytes_reads b))

theorem readTokenId_reads (tokenId : TokenId) : Reads readTokenId tokenId.val tokenId :=
  reads_mapError _ (reads_mapError _ (readArray_reads tokenId))

variable {mintData : ParsedMintData}

theorem parseMintData_reads (h : AmountsFit mintData.atomsVec) (hBatons : mintData.numBatons ≤ 127)
    :
    Reads parseMintData (putMintData mintData) mintData :=
  (reads_mapError _ (readAtomsVec_reads h)).bind
    ((reads_mapError _ (readSize_reads hBatons)).bind_pure (ParsedMintData.mk mintData.atomsVec))

theorem parseTokenType_reads : Reads parseTokenType [AlpTokenType.standard.toU8] .standard :=
  (reads_mapError _ (readByte_reads 0)).bind_pure
    fun tokenType => if tokenType = 0 then AlpTokenType.standard else .unknown tokenType

theorem parseGenesis_reads {info : GenesisInfo} (h : GenesisFits info)
    (hAmounts : AmountsFit mintData.atomsVec) (hBatons : mintData.numBatons ≤ 127) :
    Reads (parseGenesis txid .standard)
      (putVarBytes info.tokenTicker ++ (putVarBytes info.tokenName ++ (putVarBytes info.url ++
        (putVarBytes (info.data.getD []) ++ (putVarBytes (info.authPubkey.getD []) ++
          (info.decimals :: putMintData mintData))))))
      ⟨⟨txid, .alp .standard⟩, .genesis (genesisAsRead info) mintData⟩ := by
  have hDecimals : ¬ 9 < info.decimals := fun hLess =>
    absurd (UInt8.lt_of_lt_of_le hLess h.decimals) (UInt8.lt_irrefl 9)
  refine (reads_mapError _ (readVarBytes_reads h.tokenTicker)).bind ?_
  refine (reads_mapError _ (readVarBytes_reads h.tokenName)).bind ?_
  refine (reads_mapError _ (readVarBytes_reads h.url)).bind ?_
  refine (reads_mapError _ (readVarBytes_reads h.data)).bind ?_
  refine (reads_mapError _ (readVarBytes_reads h.authPubkey)).bind ?_
  refine (reads_mapError _ (readByte_reads info.decimals)).bind ?_
  refine (parseMintData_reads hAmounts hBatons).bind_eq_pure ?_
  rw [if_neg hDecimals]
  rfl

variable {tokenId : TokenId}

theorem parseMint_reads (hAmounts : AmountsFit mintData.atomsVec)
    (hBatons : mintData.numBatons ≤ 127) :
    Reads (parseMint .standard) (tokenId.val ++ putMintData mintData)
      ⟨⟨tokenId, .alp .standard⟩, .mint mintData⟩ :=
  (readTokenId_reads tokenId).bind ((parseMintData_reads hAmounts hBatons).bind_eq_pure rfl)

theorem parseSend_reads {sendAmounts : List Nat} (h : AmountsFit sendAmounts) :
    Reads (parseSend .standard) (tokenId.val ++ putAtomsVec sendAmounts)
      ⟨⟨tokenId, .alp .standard⟩, .send sendAmounts⟩ :=
  (readTokenId_reads tokenId).bind
    ((reads_mapError _ (readAtomsVec_reads h)).bind_eq_pure rfl)

theorem parseBurn_reads {atoms : Nat} (h : atoms < 2 ^ 48) :
    Reads (parseBurn .standard) (tokenId.val ++ putAtoms atoms)
      ⟨⟨tokenId, .alp .standard⟩, .burn atoms⟩ :=
  (readTokenId_reads tokenId).bind ((reads_mapError _ (readAtoms_reads h)).bind_eq_pure rfl)

/-- The part of a section after its token type. -/
def Section.body : Section → Bytes
  | genesis info mintData => putVarBytes genesisBytes ++
      (putVarBytes info.tokenTicker ++ (putVarBytes info.tokenName ++ (putVarBytes info.url ++
        (putVarBytes (info.data.getD []) ++ (putVarBytes (info.authPubkey.getD []) ++
          (info.decimals :: putMintData mintData))))))
  | mint tokenId mintData => putVarBytes mintBytes ++ (tokenId.val ++ putMintData mintData)
  | send tokenId sendAmounts => putVarBytes sendBytes ++ (tokenId.val ++ putAtomsVec sendAmounts)
  | burn tokenId atoms => putVarBytes burnBytes ++ (tokenId.val ++ putAtoms atoms)

theorem Section.build_eq (s : Section) : s.build = alpLokadId ++ (0 :: s.body) := by
  cases s <;> rfl

theorem parseKnown_reads {s : Section} (h : s.Fits) :
    Reads (parseKnown txid .standard) s.body (s.asRead.parsed txid) := by
  cases s with
  | genesis info mintData =>
    refine (reads_mapError _ (readVarBytes_reads (b := genesisBytes) (by decide))).bind ?_
    exact parseGenesis_reads h.1 h.2.1 h.2.2
  | mint tokenId mintData =>
    refine (reads_mapError _ (readVarBytes_reads (b := mintBytes) (by decide))).bind ?_
    exact parseMint_reads h.1 h.2
  | send tokenId sendAmounts =>
    refine (reads_mapError _ (readVarBytes_reads (b := sendBytes) (by decide))).bind ?_
    exact parseSend_reads h
  | burn tokenId atoms =>
    refine (reads_mapError _ (readVarBytes_reads (b := burnBytes) (by decide))).bind ?_
    exact parseBurn_reads h

end Reads

theorem parseSection_build {s : Section} (h : s.Fits) :
    parseSection txid s.build = .ok (some (s.asRead.parsed txid)) := by
  have hKnown : parseKnown txid .standard s.body = .ok (s.asRead.parsed txid, []) := by
    have hRead : parseKnown txid .standard (s.body ++ []) = .ok (s.asRead.parsed txid, []) :=
      parseKnown_reads h []
    rwa [append_nil] at hRead
  have hType : parseTokenType (0 :: s.body) = .ok (.standard, s.body) := parseTokenType_reads s.body
  have hParse : parseSectionWithIgnoredErr txid s.build = .ok (s.asRead.parsed txid) := by
    rw [s.build_eq]
    refine bind_eq_ok.mpr ⟨(), ensure_eq_ok.mpr ?_, ?_⟩
    · rw [length_append]
      exact Nat.le_add_right 4 _
    have hLokad : alpLokadId ≠ slpLokadId := by decide
    refine bind_eq_ok.mpr ⟨(), ensure_eq_ok.mpr hLokad, ?_⟩
    refine bind_eq_ok.mpr ⟨(), ensure_eq_ok.mpr rfl, ?_⟩
    refine bind_eq_ok.mpr ⟨(.standard, s.body), hType, ?_⟩
    refine bind_eq_ok.mpr ⟨(s.asRead.parsed txid, []), hKnown, ?_⟩
    exact bind_eq_ok.mpr ⟨(), ensure_eq_ok.mpr rfl, rfl⟩
  unfold parseSection
  rw [hParse]

/-! ## Sections in a script -/

theorem length_putAtomsVec (atomsVec : List Nat) :
    (putAtomsVec atomsVec).length = 1 + 6 * atomsVec.length := by
  have hFlat : (atomsVec.flatMap putAtoms).length = 6 * atomsVec.length := by
    induction atomsVec with
    | nil => rfl
    | cons atoms atomsVec ih =>
      rw [flatMap_cons, length_append, ih, putAtoms_eq, length_littleEndian, length_cons]
      omega
  rw [putAtomsVec, length_cons, hFlat]
  omega

/-- A section in the range of the format can be pushed. -/
theorem Section.length_build {s : Section} (h : s.Fits) : s.build.length ≤ 0xffffffff := by
  have hVar : ∀ b : Bytes, (putVarBytes b).length = b.length + 1 := fun b => length_cons
  have hLokad : alpLokadId.length = 4 := rfl
  rw [s.build_eq, length_append, length_cons, hLokad]
  cases s with
  | genesis info mintData =>
    obtain ⟨hInfo, hAmounts, -⟩ := h
    have hGenesis : genesisBytes.length = 7 := rfl
    have h1 := hInfo.tokenTicker
    have h2 := hInfo.tokenName
    have h3 := hInfo.url
    have h4 := hInfo.data
    have h5 := hInfo.authPubkey
    have h6 := hAmounts.1
    simp only [body, putMintData, length_append, length_cons, hVar, length_putAtomsVec, length_nil]
    omega
  | mint tokenId mintData =>
    have hMint : mintBytes.length = 4 := rfl
    have h1 := h.1.1
    have hId : tokenId.val.length = 32 := tokenId.property
    simp only [body, putMintData, length_append, length_cons, hVar, length_putAtomsVec, length_nil]
    omega
  | send tokenId sendAmounts =>
    have hSend : sendBytes.length = 4 := rfl
    have h1 := h.1
    have hId : tokenId.val.length = 32 := tokenId.property
    simp only [body, length_append, hVar, length_putAtomsVec]
    omega
  | burn tokenId atoms =>
    have hBurn : burnBytes.length = 4 := rfl
    have hId : tokenId.val.length = 32 := tokenId.property
    simp only [body, length_append, hVar, putAtoms_eq, length_littleEndian]
    omega

theorem Section.build_ne_nil (s : Section) : s.build ≠ [] := by
  rw [s.build_eq]
  exact append_ne_nil_of_left_ne_nil (by decide) _

theorem pushPayload_of_pushes {pushdata : Bytes} {op : Op} (h : Pushes pushdata op)
    (hNonempty : pushdata ≠ []) : Empp.pushPayload (.ok op) = .ok pushdata := by
  obtain ⟨opcode, -, -, rfl⟩ := h
  exact bind_eq_ok.mpr ⟨_, rfl, bind_eq_ok.mpr ⟨(), ensure_eq_ok.mpr hNonempty, rfl⟩⟩

theorem mapM_pushPayload {datas : List Bytes} {ops : List Op} (h : List.Forall₂ Pushes datas ops)
    (hNonempty : ∀ data ∈ datas, data ≠ []) :
    (ops.map Except.ok).mapM Empp.pushPayload = .ok datas := by
  rw [mapM_eq_ok]
  induction h with
  | nil => exact .nil
  | cons hPushes _ ih =>
    obtain ⟨hHead, hTail⟩ := forall_mem_cons.mp hNonempty
    exact .cons (pushPayload_of_pushes hPushes hHead) (ih hTail)

/-- eMPP reads back the pushes of a script it could have written. -/
theorem parse_sectionsOpreturn {datas : List Bytes} (hNonempty : ∀ data ∈ datas, data ≠ [])
    (hLength : ∀ data ∈ datas, data.length ≤ 0xffffffff) :
    ∃ script, sectionsOpreturn datas = some script ∧ Empp.parse script = .ok (some datas) := by
  obtain ⟨pushes, hPushes⟩ := exists_mapM_put fun data hData =>
    exists_putPushdata (hLength data hData)
  refine ⟨⟨opReturn :: opReserved :: pushes.flatten⟩, by rw [sectionsOpreturn, hPushes]; rfl, ?_⟩
  obtain ⟨ops, hRest, hOps⟩ := iterOps_pushes (fun data hData bytes hBytes =>
    putPushdata_reads (hNonempty data hData) hBytes) hPushes
  have hPayloads := mapM_pushPayload hOps hNonempty
  have hIter : (Script.mk (opReturn :: opReserved :: pushes.flatten)).iterOps =
      .ok (.code opReturn) :: .ok (.code opReserved) :: ops.map .ok := by
    rw [Script.iterOps_cons (by decide) (by decide) (by decide) (by decide),
      Script.iterOps_cons (by decide) (by decide) (by decide) (by decide), hRest]
  have hParse :
      Empp.parseWithIgnoredErr ⟨opReturn :: opReserved :: pushes.flatten⟩ = .ok datas := by
    unfold Empp.parseWithIgnoredErr
    rw [hIter]
    refine bind_eq_ok.mpr ⟨(), ensure_eq_ok.mpr rfl, ?_⟩
    exact bind_eq_ok.mpr ⟨(), ensure_eq_ok.mpr rfl, hPayloads⟩
  unfold Empp.parse
  rw [hParse]

/-! ## Accepted sections rebuilt -/

section Canonical

theorem canonical_mapError {ε ε' α : Type} {r : Reader ε α} {enc : α → Bytes} (f : ε → ε')
    (h : Canonical r enc) :
    Canonical (fun pushdata => (r pushdata).mapError f : Reader ε' α) enc :=
  fun b a rest hEq => h b a rest (mapError_eq_ok.mp hEq)

theorem readArray_canonical (n : Nat) : Canonical (readArray n) Subtype.val := by
  intro b a rest h
  unfold readArray at h
  split at h
  · cases h
  · cases h
    exact (take_append_drop n b).symm

theorem readByte_canonical : Canonical readByte fun byte => [byte] := by
  intro b byte rest h
  obtain ⟨⟨bytes, hLength⟩, mid, hRead, h⟩ := reader_bind_eq_ok.mp h
  cases h
  obtain ⟨x, rfl⟩ := length_eq_one_iff.mp hLength
  exact canonical_mapError _ (readArray_canonical 1) b _ _ hRead

theorem readSize_canonical : Canonical readSize fun size => [UInt8.ofNat size] := by
  intro b size rest h
  obtain ⟨byte, mid, hByte, h⟩ := reader_bind_eq_ok.mp h
  split_ifs at h with hRange
  · obtain ⟨_, _, hThrow, _⟩ := reader_bind_eq_ok.mp h
    cases hThrow
  · cases h
    dsimp only
    rw [UInt8.ofNat_toNat]
    exact readByte_canonical b byte _ hByte

theorem readAtoms_canonical : Canonical readAtoms putAtoms := by
  intro b atoms rest h
  obtain ⟨⟨bytes, hLength⟩, mid, hRead, h⟩ := reader_bind_eq_ok.mp h
  cases h
  have hBytes : putAtoms (ofLittleEndian bytes) = bytes := by
    rw [putAtoms_eq, ← hLength, littleEndian_ofLittleEndian]
  dsimp only
  rw [hBytes]
  exact canonical_mapError _ (readArray_canonical 6) b _ _ hRead

theorem readAtomsVec_canonical : Canonical readAtomsVec putAtomsVec := by
  intro b atomsVec rest h
  obtain ⟨size, mid, hSize, h⟩ := reader_bind_eq_ok.mp h
  rw [readMany_eq] at h
  have hMany := readAtoms_canonical.many size mid atomsVec rest h
  have hAny : Returns readAtoms fun _ => True := fun _ _ _ _ => trivial
  obtain ⟨rfl, -⟩ := hAny.many size mid atomsVec rest h
  rw [readSize_canonical b _ mid hSize, hMany]
  rfl

theorem readVarBytes_canonical : Canonical readVarBytes putVarBytes := by
  intro b data rest h
  obtain ⟨size, mid, hSize, h⟩ := reader_bind_eq_ok.mp h
  obtain ⟨rfl, rfl⟩ := readBytes_eq_ok (mapError_eq_ok.mp h)
  rw [readSize_canonical b _ _ hSize]
  rfl

theorem readTokenId_canonical : Canonical readTokenId Subtype.val :=
  canonical_mapError _ (canonical_mapError _ (readArray_canonical 32))

theorem parseMintData_canonical : Canonical parseMintData putMintData := by
  intro b mintData rest h
  obtain ⟨atomsVec, numBatons, rfl, rfl⟩ := (canonical_mapError _ readAtomsVec_canonical).pair
    (canonical_mapError _ readSize_canonical) h
  rw [putMintData, append_assoc]

variable {b rest : Bytes} {p : ParsedData}

theorem parseGenesis_canonical (h : parseGenesis txid .standard b = .ok (p, rest)) :
    ∃ info mintData, p = (Section.genesis info mintData).parsed txid ∧
      putVarBytes genesisBytes ++ b = (Section.genesis info mintData).body ++ rest := by
  obtain ⟨ticker, b1, hTicker, h⟩ := reader_bind_eq_ok.mp h
  obtain ⟨name, b2, hName, h⟩ := reader_bind_eq_ok.mp h
  obtain ⟨url, b3, hUrl, h⟩ := reader_bind_eq_ok.mp h
  obtain ⟨data, b4, hData, h⟩ := reader_bind_eq_ok.mp h
  obtain ⟨auth, b5, hAuth, h⟩ := reader_bind_eq_ok.mp h
  obtain ⟨decimals, b6, hDecimals, h⟩ := reader_bind_eq_ok.mp h
  obtain ⟨mintData, b7, hMint, h⟩ := reader_bind_eq_ok.mp h
  split at h
  · obtain ⟨_, _, hThrow, _⟩ := reader_bind_eq_ok.mp h
    cases hThrow
  · cases h
    have hVar := fun fieldName =>
      canonical_mapError (ParseError.named fieldName) readVarBytes_canonical
    refine ⟨_, mintData, rfl, ?_⟩
    rw [hVar _ _ _ _ hTicker, hVar _ _ _ _ hName, hVar _ _ _ _ hUrl, hVar _ _ _ _ hData,
      hVar _ _ _ _ hAuth, canonical_mapError _ readByte_canonical _ _ _ hDecimals,
      parseMintData_canonical _ _ _ hMint]
    simp only [Section.body, append_assoc, Option.getD_some, cons_append, nil_append]

theorem parseMint_canonical (txid : TxId) (h : parseMint .standard b = .ok (p, rest)) :
    ∃ tokenId mintData, p = (Section.mint tokenId mintData).parsed txid ∧
      putVarBytes mintBytes ++ b = (Section.mint tokenId mintData).body ++ rest := by
  obtain ⟨tokenId, mintData, rfl, rfl⟩ := readTokenId_canonical.pair parseMintData_canonical h
  exact ⟨tokenId, mintData, rfl, by simp only [Section.body, append_assoc]⟩

theorem parseSend_canonical (txid : TxId) (h : parseSend .standard b = .ok (p, rest)) :
    ∃ tokenId sendAmounts, p = (Section.send tokenId sendAmounts).parsed txid ∧
      putVarBytes sendBytes ++ b = (Section.send tokenId sendAmounts).body ++ rest := by
  obtain ⟨tokenId, sendAmounts, rfl, rfl⟩ :=
    readTokenId_canonical.pair (canonical_mapError _ readAtomsVec_canonical) h
  exact ⟨tokenId, sendAmounts, rfl, by simp only [Section.body, append_assoc]⟩

theorem parseBurn_canonical (txid : TxId) (h : parseBurn .standard b = .ok (p, rest)) :
    ∃ tokenId atoms, p = (Section.burn tokenId atoms).parsed txid ∧
      putVarBytes burnBytes ++ b = (Section.burn tokenId atoms).body ++ rest := by
  obtain ⟨tokenId, atoms, rfl, rfl⟩ :=
    readTokenId_canonical.pair (canonical_mapError _ readAtoms_canonical) h
  exact ⟨tokenId, atoms, rfl, by simp only [Section.body, append_assoc]⟩

theorem parseKnown_canonical (h : parseKnown txid .standard b = .ok (p, rest)) :
    ∃ s : Section, p = s.parsed txid ∧ b = s.body ++ rest := by
  obtain ⟨txType, mid, hType, h⟩ := reader_bind_eq_ok.mp h
  rw [canonical_mapError _ readVarBytes_canonical _ _ _ hType]
  split_ifs at h with hGenesis hMint hSend hBurn
  · obtain ⟨info, mintData, hp, hBody⟩ := parseGenesis_canonical h
    exact ⟨_, hp, hGenesis ▸ hBody⟩
  · obtain ⟨tokenId, mintData, hp, hBody⟩ := parseMint_canonical txid h
    exact ⟨_, hp, hMint ▸ hBody⟩
  · obtain ⟨tokenId, sendAmounts, hp, hBody⟩ := parseSend_canonical txid h
    exact ⟨_, hp, hSend ▸ hBody⟩
  · obtain ⟨tokenId, atoms, hp, hBody⟩ := parseBurn_canonical txid h
    exact ⟨_, hp, hBurn ▸ hBody⟩
  · cases h

theorem parseTokenType_standard (h : parseTokenType b = .ok (.standard, rest)) : b = 0 :: rest := by
  obtain ⟨byte, mid, hByte, h⟩ := reader_bind_eq_ok.mp h
  have hEq := canonical_mapError _ readByte_canonical _ _ _ hByte
  obtain ⟨hStandard, rfl⟩ := Prod.mk.inj (Except.ok.inj h)
  split_ifs at hStandard with hZero
  rw [hEq, hZero]
  rfl

theorem build_of_parseSection {b : Bytes} (h : parseSection txid b = .ok (some p))
    (hType : p.tokenMeta.tokenType = .alp .standard) :
    ∃ s : Section, p = s.parsed txid ∧ s.build = b := by
  rcases parseSection_cases h with ⟨byte, rfl⟩ | ⟨rest, hLokad, hTokenType, hKnown⟩
  · cases hType
  · obtain ⟨s, hp, hBody⟩ := parseKnown_canonical hKnown
    refine ⟨s, hp, ?_⟩
    have hDrop := parseTokenType_standard hTokenType
    rw [hBody, append_nil] at hDrop
    rw [s.build_eq, ← hLokad, ← hDrop, take_append_drop]

end Canonical

/-- Sections within the format are built, pushed and parsed back in order, each as the
format keeps it, which is all of it except for a `GENESIS` without `data` or `auth_pubkey` or
with the fields of SLP. An accepted Standard section is rebuilt with the same bytes. -/
theorem sections_roundtrip (txid : TxId) :
    (∀ sections : List Section, (∀ s ∈ sections, s.Fits) →
      ∃ script pushes, sectionsOpreturn (sections.map Section.build) = some script ∧
        Empp.parse script = .ok (some pushes) ∧
        pushes.mapM (parseSection txid) =
          .ok (sections.map fun s => some (s.asRead.parsed txid))) ∧
    (∀ s : Section, s.asRead = s ↔ s.Faithful) ∧
    ∀ b p, parseSection txid b = .ok (some p) → p.tokenMeta.tokenType = .alp .standard →
      ∃ s : Section, p = s.parsed txid ∧ s.build = b := by
  refine ⟨fun sections hFits => ?_, fun s => s.asRead_eq_self_iff, ?_⟩
  · have hNonempty : ∀ data ∈ sections.map Section.build, data ≠ [] :=
      forall_mem_map.mpr fun s _ => s.build_ne_nil
    have hLength : ∀ data ∈ sections.map Section.build, data.length ≤ 0xffffffff :=
      forall_mem_map.mpr fun s hs => Section.length_build (hFits s hs)
    obtain ⟨script, hBuild, hParse⟩ := parse_sectionsOpreturn hNonempty hLength
    refine ⟨script, _, hBuild, hParse, ?_⟩
    rw [mapM_eq_ok, forall₂_map_left_iff, forall₂_map_right_iff]
    exact forall₂_same.mpr fun s hs => parseSection_build (hFits s hs)
  · exact fun b p h hType => build_of_parseSection h hType

/-- A `GENESIS` without `data` and `auth_pubkey`. -/
def bareGenesis : Section :=
  .genesis ⟨[0x41], [], none, [], none, none, none, 0⟩ ⟨[1000], 1⟩

/-- Absent data come back as empty data. -/
theorem bareGenesis_not_read_back :
    ((sectionsOpreturn [bareGenesis.build]).map fun script =>
      (Empp.parse script).toOption.map fun pushes =>
        pushes.map fun pushes => pushes.mapM (parseSection TxId.zero)) ≠
      some (some (some (.ok [some (bareGenesis.parsed TxId.zero)]))) := by
  decide +kernel

theorem sample_sections_roundtrip :
    ∃ script pushes,
      sectionsOpreturn [bareGenesis.build, (Section.burn TxId.zero 5).build] = some script ∧
      Empp.parse script = .ok (some pushes) ∧
      pushes.mapM (parseSection TxId.zero) = .ok [some (bareGenesis.asRead.parsed TxId.zero),
        some ((Section.burn TxId.zero 5).parsed TxId.zero)] := by
  refine (sections_roundtrip TxId.zero).1 [bareGenesis, .burn TxId.zero 5] ?_
  intro s hs
  rcases mem_cons.mp hs with rfl | hs
  · refine ⟨⟨by decide, by decide, by decide, by decide, by decide, by decide⟩, ⟨by decide, ?_⟩,
      by decide⟩
    decide
  · rw [mem_singleton.mp hs]
    show 5 < 2 ^ 48
    decide

end Alp

end Ergon
