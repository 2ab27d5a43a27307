import Ergon.Lib.Framing
import Ergon.Lib.Result

/-!
# Content-bound operator bundles

The admission of trusted operator plugins in chronik-lib: a directory of plugin
files is inspected, its contents are hashed together with the Python version and
the network's domain, and the hash has to be the one the operator approved.

What is hashed is the concatenation `identity` of a domain, two framed texts, the
number of files and the framed names and contents in the order of the names. Every
part is a word of a prefix-free code (`Network.prefixFree_domain`,
`prefixFree_framed`), so the concatenation is read back in one way only
(`Bundle.identity_injective`).

A file operation that fails ends the inspection with its error; the directories
here are those whose operations succeed.
-/

namespace Ergon.Operator

open List

open Ergon.Lib

/-! ## Texts, names and contents -/

/-- The bytes of a text. -/
def asBytes (s : String) : Bytes := s.toUTF8.data.toList

theorem asBytes_injective : Function.Injective asBytes := by
  intro s t h
  have hArray : s.toUTF8 = t.toUTF8 := ByteArray.ext (Array.toList_inj.mp h)
  exact String.toByteArray_inj.mp hArray

/-- A text: its length is a 64-bit number. -/
abbrev Text := { s : String // (asBytes s).length < 256 ^ 8 }

/-- The content of a file. -/
abbrev Content := Framable 8

def Text.bytes (t : Text) : Framable 8 := ⟨asBytes t.val, t.property⟩

theorem Text.bytes_injective : Function.Injective Text.bytes := by
  intro s t h
  exact Subtype.ext (asBytes_injective (congrArg Subtype.val h))

/-- Names are ordered by their bytes. -/
def Text.cmp : Text → Text → Ordering := compareOn fun t => asBytes t.val

instance : Std.TransCmp Text.cmp :=
  inferInstanceAs (Std.TransCmp (compareOn fun t : Text => asBytes t.val))

/-- The files of a bundle, sorted by name. -/
abbrev Files := Std.ExtTreeMap Text Content Text.cmp

/-! ## The commitment -/

inductive Network
  | regtest
  | main
  | ergonTestnetV1
deriving DecidableEq

namespace Network

def name : Network → String
  | regtest => "regtest"
  | main => "main"
  | ergonTestnetV1 => "ergon-testnet-v1"

def domain : Network → Bytes
  | regtest => asBytes "ergon-trusted-operator-plugin-bundle/regtest/v1\n"
  | main => asBytes "ergon-trusted-operator-plugin-bundle/main/v1\n"
  | ergonTestnetV1 => asBytes "ergon-trusted-operator-plugin-bundle/ergon-testnet-v1/v1\n"

/-- The networks with trusted plugins. -/
def ofName (network : String) : Option Network :=
  if network = "regtest" then some regtest
  else if network = "main" then some main
  else if network = "ergon-testnet-v1" then some ergonTestnetV1
  else none

theorem ofName_eq_some {s : String} {n : Network} (h : ofName s = some n) : s = n.name := by
  unfold ofName at h
  split_ifs at h with hRegtest hMain hTestnet
  · cases h
    exact hRegtest
  · cases h
    exact hMain
  · cases h
    exact hTestnet

/-- The domains differ before the shortest of them ends. -/
theorem prefixFree_domain : PrefixFree domain := by
  intro a b hNe
  cases a <;> cases b <;> first | exact absurd rfl hNe | decide +kernel

end Network

/-- What `commitment_domain` hashes. -/
def identity (files : Files) (pythonVersion pythonId : Text) (domain : Bytes) : Bytes :=
  domain ++ (framed 8 (asBytes pythonVersion.val) ++ (framed 8 (asBytes pythonId.val) ++
    (littleEndian 8 files.size ++ files.toList.flatMap fun file =>
      framed 8 (asBytes file.1.val) ++ framed 8 file.2.val)))

/-- Lower-case hexadecimal. -/
def hexEncode (b : Bytes) : String :=
  String.ofList (b.flatMap fun x => [Nat.digitChar (x.toNat / 16), Nat.digitChar (x.toNat % 16)])

def commitmentDomain (sha256 : Bytes → FixedBytes 32) (files : Files)
    (pythonVersion pythonId : Text) (domain : Bytes) : String :=
  hexEncode (sha256 (identity files pythonVersion pythonId domain)).val

def commitment (sha256 : Bytes → FixedBytes 32) (files : Files)
    (pythonVersion pythonId : Text) : String :=
  commitmentDomain sha256 files pythonVersion pythonId Network.regtest.domain

/-! ## Inspection and admission -/

def maxModules : Nat := 32

def maxSource : Nat := 1024 * 1024

def maxConfig : Nat := 64 * 1024

def maxTotal : Nat := 4 * 1024 * 1024

structure Metadata where
  isFile : Bool
  len : Nat
  nlink : Nat
  mode : Nat
  dev : Nat
  ino : Nat
  mtime : Int
  mtimeNsec : Int
  ctime : Int
  ctimeNsec : Int
deriving DecidableEq

def checkMetadata (metadata : Metadata) (limit : Nat) : Except String Unit := do
  ensure (metadata.isFile = true ∧ metadata.len ≤ limit)
    "Operator bundle input must be a bounded regular file"
  ensure (metadata.nlink = 1 ∧ metadata.mode &&& 0o022 = 0)
    "Operator bundle input is hard-linked or externally writable"

/-- The mode of the file is not compared. -/
def sameFile (a b : Metadata) : Bool :=
  a.dev = b.dev ∧ a.ino = b.ino ∧ a.len = b.len ∧ a.mtime = b.mtime ∧
    a.mtimeNsec = b.mtimeNsec ∧ a.ctime = b.ctime ∧ a.ctimeNsec = b.ctimeNsec

def isAsciiAlphabetic (b : UInt8) : Bool := (0x41 ≤ b ∧ b ≤ 0x5a) ∨ (0x61 ≤ b ∧ b ≤ 0x7a)

def isAsciiDigit (b : UInt8) : Bool := 0x30 ≤ b ∧ b ≤ 0x39

def moduleName : Bytes → Bool
  | [] => false
  | first :: rest =>
    (isAsciiAlphabetic first || first = 0x5f) &&
      rest.all fun b => isAsciiAlphabetic b || isAsciiDigit b || b = 0x5f

def stripSuffix (suffix b : Bytes) : Option Bytes :=
  if suffix <:+ b then some (b.take (b.length - suffix.length)) else none

/-- An entry of the directory: what its metadata are before and after it is opened and
after it is read, and what reading it gives. A name that is no text is absent. -/
structure Entry where
  fileName : Option Text
  before : Metadata
  opened : Metadata
  after : Metadata
  content : Content

/-- The size limit of a file, for the names a bundle may have. -/
def sizeLimit (name : Text) : Except String Nat :=
  if name.val = "plugins.toml" then .ok maxConfig
  else match stripSuffix (asBytes ".py") (asBytes name.val) with
    | none => .error "Unexpected operator bundle input"
    | some module =>
      if moduleName module then .ok maxSource else .error "Invalid operator module name"

/-- Reading stops one byte past the limit. -/
def Content.readTo (content : Content) (limit : Nat) : Content :=
  ⟨content.val.take (limit + 1), lt_of_le_of_lt (length_take_le' _ _) content.property⟩

def Entry.read (entry : Entry) (limit : Nat) : Except String Content := do
  checkMetadata entry.before limit
  checkMetadata entry.opened limit
  ensure (sameFile entry.before entry.opened) "Operator bundle input changed during open"
  let bytes := entry.content.readTo limit
  checkMetadata entry.after limit
  ensure (sameFile entry.opened entry.after ∧ bytes.val.length = entry.after.len ∧
      bytes.val.length ≤ limit)
    "Operator bundle input changed during read"
  ensure (bytes.val.toByteArray.validateUTF8 ∧ 0 ∉ bytes.val)
    "Operator plugin inputs require UTF-8 text without NUL"
  return bytes

def inspectEntry (state : Files × Nat) (entry : Entry) : Except String (Files × Nat) := do
  let (files, total) := state
  ensure (files.size < maxModules + 1) "Too many operator bundle inputs"
  let name ← orElse entry.fileName "Non-UTF-8 operator bundle name"
  let limit ← sizeLimit name
  let bytes ← entry.read limit
  ensure (total + bytes.val.length ≤ maxTotal) "Operator bundle exceeds total input limit"
  return (files.insert name bytes, total + bytes.val.length)

/-- A directory: whether its path is absolute, canonical and a directory's, and its
entries in the order they are listed. -/
structure Directory where
  isAbsolute : Bool
  isCanonical : Bool
  isDir : Bool
  entries : List Entry

def configName : Text := ⟨"plugins.toml", by decide +kernel⟩

structure OperatorBundle where
  files : Files
  binding : String
  network : String

def inspectNetwork (sha256 : Bytes → FixedBytes 32) (root : Directory)
    (pythonVersion pythonId : Text) (network : String) : Except String OperatorBundle := do
  let net ← orElse (Network.ofName network) "Unsupported trusted plugin network"
  ensure (root.isAbsolute ∧ root.isCanonical ∧ root.isDir)
    "Operator plugin bundle requires a canonical directory"
  let (files, _) ← root.entries.foldlM inspectEntry (∅, 0)
  ensure (configName ∈ files ∧ 2 ≤ files.size)
    "Operator bundle requires config and at least one module"
  let binding := if network = "regtest" then commitment sha256 files pythonVersion pythonId
    else commitmentDomain sha256 files pythonVersion pythonId net.domain
  return ⟨files, binding, network⟩

def isLowerHex (b : UInt8) : Bool := isAsciiDigit b || (0x61 ≤ b && b ≤ 0x66)

def admitNetwork (sha256 : Bytes → FixedBytes 32) (root : Directory) (expected : String)
    (pythonVersion pythonId : Text) (network : String) : Except String OperatorBundle := do
  ensure ((asBytes expected).length = 64 ∧ (asBytes expected).all isLowerHex)
    "Expected operator binding must be lowercase SHA-256"
  let bundle ← inspectNetwork sha256 root pythonVersion pythonId network
  ensure (bundle.binding = expected) "Operator plugin bundle binding mismatch; no import"
  return bundle

/-! ## Bundles as they are identified -/

/-- What a binding stands for. -/
structure Bundle where
  network : Network
  pythonVersion : Text
  pythonId : Text
  files : Files

namespace Bundle

def identity (b : Bundle) : Bytes :=
  Operator.identity b.files b.pythonVersion b.pythonId b.network.domain

/-- A directory with these files is admitted under the binding. -/
def AdmittedBy (sha256 : Bytes → FixedBytes 32) (expected : String) (b : Bundle) : Prop :=
  ∃ root bundle, bundle.files = b.files ∧
    admitNetwork sha256 root expected b.pythonVersion b.pythonId b.network.name = .ok bundle

end Bundle

theorem prefixFree_text : PrefixFree fun t : Text => framed 8 (asBytes t.val) :=
  (prefixFree_framed 8).comp (f := Text.bytes) Text.bytes_injective

/-- Name and content of a file. -/
theorem prefixFree_file :
    PrefixFree fun file : Text × Content =>
      framed 8 (asBytes file.1.val) ++ framed 8 file.2.val := by
  have hContent : PrefixFree fun b : Content => framed 8 b.val := prefixFree_framed 8
  have hPair := prefixFree_text.seq hContent
  exact hPair

theorem Bundle.identity_injective : Function.Injective Bundle.identity := by
  rintro ⟨network, version, id, files⟩ ⟨network', version', id', files'⟩ h
  -- the parts are split off from the front
  obtain ⟨hNetwork, h⟩ := Network.prefixFree_domain.append_inj h
  obtain ⟨hVersion, h⟩ := prefixFree_text.append_inj h
  obtain ⟨hId, h⟩ := prefixFree_text.append_inj h
  obtain ⟨-, h⟩ := List.append_inj h (by simp)
  have hFiles : files.toList = files'.toList := by
    refine prefixFree_file.flatMap_injective (fun file hNil => ?_) h
    exact framed_ne_nil _ (append_eq_nil_iff.mp hNil).1
  dsimp only at hNetwork hVersion hId
  rw [hNetwork, hVersion, hId, Std.ExtTreeMap.ext_toList (.of_eq hFiles)]

/-! ## Hexadecimal -/

theorem digitChar_injOn {n m : Nat} (hn : n < 16) (hm : m < 16)
    (h : Nat.digitChar n = Nat.digitChar m) : n = m := by
  have hAll : ∀ i j : Fin 16, Nat.digitChar i = Nat.digitChar j → i = j := by decide
  exact congrArg Fin.val (hAll ⟨n, hn⟩ ⟨m, hm⟩ h)

theorem utf8EncodeChar_digitChar {n : Nat} (hn : n < 16) :
    ∃ b, isLowerHex b ∧ String.utf8EncodeChar (Nat.digitChar n) = [b] := by
  have hAll : ∀ i : Fin 16, isLowerHex (UInt8.ofNat (Nat.digitChar i).toNat) ∧
      String.utf8EncodeChar (Nat.digitChar i) = [UInt8.ofNat (Nat.digitChar i).toNat] := by
    decide
  exact ⟨_, hAll ⟨n, hn⟩⟩

theorem hexEncode_injective : Function.Injective hexEncode := by
  intro b b' h
  have hDigits : PrefixFree fun x : UInt8 =>
      [Nat.digitChar (x.toNat / 16), Nat.digitChar (x.toNat % 16)] := by
    refine prefixFree_of_length (n := 2) (fun x y hxy => ?_) fun _ => rfl
    have hx := x.toNat_lt
    have hy := y.toNat_lt
    obtain ⟨hHigh, hLow⟩ := List.cons.inj hxy
    have hHighEq := digitChar_injOn (by omega) (by omega) hHigh
    have hLowEq := digitChar_injOn (by omega) (by omega) (List.cons.inj hLow).1
    exact UInt8.toNat_inj.mp (by omega)
  exact hDigits.flatMap_injective (fun _ => cons_ne_nil _ _) (String.ofList_inj.mp h)

/-- A hash in hexadecimal has the form that is asked of a binding. -/
theorem asBytes_hexEncode (b : Bytes) :
    (asBytes (hexEncode b)).length = 2 * b.length ∧ (asBytes (hexEncode b)).all isLowerHex := by
  have hBytes : asBytes (hexEncode b) = (b.flatMap fun x =>
      [Nat.digitChar (x.toNat / 16), Nat.digitChar (x.toNat % 16)]).flatMap
        String.utf8EncodeChar := by
    simp [asBytes, hexEncode, String.toByteArray_ofList, List.utf8Encode]
  rw [hBytes]
  clear hBytes
  induction b with
  | nil => exact ⟨rfl, rfl⟩
  | cons x b ih =>
    have hx := x.toNat_lt
    obtain ⟨high, hHigh, hHighEq⟩ := utf8EncodeChar_digitChar (n := x.toNat / 16) (by omega)
    obtain ⟨low, hLow, hLowEq⟩ := utf8EncodeChar_digitChar (n := x.toNat % 16) (by omega)
    simp only [flatMap_cons, flatMap_nil, flatMap_append, hHighEq, hLowEq, length_append,
      length_cons, length_nil, all_append, all_cons, all_nil, ih, hHigh, hLow]
    refine ⟨by omega, rfl⟩

/-! ## Bindings -/

/-- What an inspection that succeeds returns. -/
theorem inspectNetwork_eq_ok {sha256 : Bytes → FixedBytes 32} {root : Directory}
    {pythonVersion pythonId : Text} {network : String} {bundle : OperatorBundle}
    (h : inspectNetwork sha256 root pythonVersion pythonId network = .ok bundle) :
    ∃ net : Network, network = net.name ∧ bundle.binding = hexEncode
      (sha256 (Bundle.identity ⟨net, pythonVersion, pythonId, bundle.files⟩)).val := by
  unfold inspectNetwork at h
  obtain ⟨net, hNet, h⟩ := bind_eq_ok.mp h
  obtain ⟨-, -, h⟩ := bind_eq_ok.mp h
  obtain ⟨⟨files, total⟩, -, h⟩ := bind_eq_ok.mp h
  obtain ⟨-, -, h⟩ := bind_eq_ok.mp h
  have hName := Network.ofName_eq_some (orElse_eq_ok.mp hNet)
  cases h
  refine ⟨net, hName, ?_⟩
  -- the regtest branch uses the domain of its network as well
  dsimp only
  split
  · next hRegtest =>
    have hNetEq : net = .regtest := by
      cases net with
      | regtest => rfl
      | main | ergonTestnetV1 => exact absurd (hName.symm.trans hRegtest) (by decide)
    rw [hNetEq]
    rfl
  · rfl

theorem Network.name_injective : Function.Injective Network.name := by
  intro a b
  cases a <;> cases b <;> decide

theorem Bundle.AdmittedBy.binding {sha256 : Bytes → FixedBytes 32} {expected : String} {b : Bundle}
    (h : b.AdmittedBy sha256 expected) : hexEncode (sha256 b.identity).val = expected := by
  obtain ⟨root, bundle, hFiles, h⟩ := h
  unfold admitNetwork at h
  obtain ⟨-, -, h⟩ := bind_eq_ok.mp h
  obtain ⟨bundle', hInspect, h⟩ := bind_eq_ok.mp h
  obtain ⟨_, hBinding, h⟩ := bind_eq_ok.mp h
  cases h
  obtain ⟨net, hName, hEq⟩ := inspectNetwork_eq_ok hInspect
  rw [hFiles, ← Network.name_injective hName] at hEq
  rw [← ensure_eq_ok.mp hBinding, hEq]

/-- An inspected directory is admitted under its own binding. -/
theorem admitNetwork_self {sha256 : Bytes → FixedBytes 32} {root : Directory}
    {pythonVersion pythonId : Text} {network : String} {bundle : OperatorBundle}
    (h : inspectNetwork sha256 root pythonVersion pythonId network = .ok bundle) :
    admitNetwork sha256 root bundle.binding pythonVersion pythonId network = .ok bundle := by
  obtain ⟨net, -, hBinding⟩ := inspectNetwork_eq_ok h
  have hForm := asBytes_hexEncode
    (sha256 (Bundle.identity ⟨net, pythonVersion, pythonId, bundle.files⟩)).val
  rw [← hBinding, (sha256 _).property] at hForm
  refine bind_eq_ok.mpr ⟨(), ensure_eq_ok.mpr hForm, ?_⟩
  exact bind_eq_ok.mpr ⟨bundle, h, bind_eq_ok.mpr ⟨(), ensure_eq_ok.mpr rfl, rfl⟩⟩

/-- The bytes that are hashed determine the bundle and its network. So where the hash
has no collisions a binding admits at most one bundle, on one network, and it does admit
the bundle it was computed from. -/
theorem binding_identifies_bundle (sha256 : Bytes → FixedBytes 32) :
    (∀ b b' : Bundle, b.identity = b'.identity →
      b.network = b'.network ∧ b.pythonVersion = b'.pythonVersion ∧ b.pythonId = b'.pythonId ∧
        b.files = b'.files) ∧
    (∀ hashed : Set Bytes, Set.InjOn sha256 hashed → ∀ expected,
      Set.Subsingleton { b : Bundle | b.identity ∈ hashed ∧ b.AdmittedBy sha256 expected }) ∧
    ∀ root pythonVersion pythonId network bundle,
      inspectNetwork sha256 root pythonVersion pythonId network = .ok bundle →
        admitNetwork sha256 root bundle.binding pythonVersion pythonId network = .ok bundle := by
  refine ⟨?_, ?_, fun _ _ _ _ _ h => admitNetwork_self h⟩
  · intro b b' h
    rw [Bundle.identity_injective h]
    exact ⟨rfl, rfl, rfl, rfl⟩
  · rintro hashed hInj expected b ⟨hMem, hAdmitted⟩ b' ⟨hMem', hAdmitted'⟩
    have hHash : sha256 b.identity = sha256 b'.identity :=
      Subtype.ext (hexEncode_injective (hAdmitted.binding.trans hAdmitted'.binding.symm))
    exact Bundle.identity_injective (hInj hMem hMem' hHash)

namespace Sample

def file (name : Text) (content : Content) : Entry :=
  let metadata : Metadata :=
    ⟨true, content.val.length, 1, 0o644, 0, 0, 0, 0, 0, 0⟩
  ⟨some name, metadata, metadata, metadata, content⟩

def root : Directory :=
  ⟨true, true, true,
    [file configName ⟨asBytes "[main.plugin.probe]\n", by decide +kernel⟩,
      file ⟨"probe.py", by decide +kernel⟩ ⟨asBytes "# probe\n", by decide +kernel⟩]⟩

def version : Text := ⟨"3.12.0", by decide +kernel⟩

def sha256 (_ : Bytes) : FixedBytes 32 := .fill 0

def bundle (network : Network) : Bundle := ⟨network, version, version, ∅⟩

end Sample

/-- The same files on two networks are different bytes, and an inspected directory is
admitted. -/
theorem sample_admitted :
    (Sample.bundle .main).identity ≠ (Sample.bundle .regtest).identity ∧
    ∃ bundle, admitNetwork Sample.sha256 Sample.root bundle.binding Sample.version Sample.version
      "main" = .ok bundle := by
  obtain ⟨hInj, -, hAdmit⟩ := binding_identifies_bundle Sample.sha256
  refine ⟨fun h => Network.noConfusion (hInj _ _ h).1, ?_⟩
  have hOk : (inspectNetwork Sample.sha256 Sample.root Sample.version Sample.version
      "main").isOk := by decide +kernel
  cases hInspect :
      inspectNetwork Sample.sha256 Sample.root Sample.version Sample.version "main" with
  | error e =>
    rw [hInspect] at hOk
    cases hOk
  | ok bundle => exact ⟨bundle, hAdmit _ _ _ _ _ hInspect⟩

end Ergon.Operator
