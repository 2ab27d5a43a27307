import Ergon.Core.Tx

/-!
# Ergon — token types

The types SLP and ALP share (`bitcoinsuite-slp/src/{structs,token_type,parsed}.rs`).
A token is identified by its `TokenMeta`, the id of the transaction that
created it together with its type. Amounts are `Nat`: every amount comes out of
the parsers as an 8-byte or 6-byte number, and sums of them are 128-bit numbers
in the source.
-/

namespace Ergon

open Lib

inductive SlpTokenType
  | fungible
  | mintVault
  | nft1Group
  | nft1Child
  | unknown (byte : UInt8)
deriving DecidableEq

inductive AlpTokenType
  | standard
  | unknown (byte : UInt8)
deriving DecidableEq

inductive TokenType
  | slp (t : SlpTokenType)
  | alp (t : AlpTokenType)
deriving DecidableEq

def SlpTokenType.toU8 : SlpTokenType → UInt8
  | .fungible => 1
  | .mintVault => 2
  | .nft1Group => 0x81
  | .nft1Child => 0x41
  | .unknown byte => byte

def AlpTokenType.toU8 : AlpTokenType → UInt8
  | .standard => 0
  | .unknown byte => byte

namespace TokenType

def toU8 : TokenType → UInt8
  | .slp t => t.toU8
  | .alp t => t.toU8

def isAlp : TokenType → Bool
  | .slp _ => false
  | .alp _ => true

/-- Types whose payloads are read; the others only leave a mark. -/
def isKnown : TokenType → Bool
  | .slp (.unknown _) => false
  | .alp (.unknown _) => false
  | _ => true

/-- Position in the derived order: SLP before ALP, variants as declared,
unknown types by their byte. -/
def rank : TokenType → Nat
  | .slp .fungible => 0
  | .slp .mintVault => 1
  | .slp .nft1Group => 2
  | .slp .nft1Child => 3
  | .slp (.unknown byte) => 4 + byte.toNat
  | .alp .standard => 260
  | .alp (.unknown byte) => 261 + byte.toNat

theorem rank_injective : Function.Injective rank := by
  intro a b h
  have hLt : ∀ x : UInt8, x.toNat < 256 := fun x => x.toNat_lt
  have hByte : ∀ x y : UInt8, x.toNat = y.toNat → x = y := fun _ _ => UInt8.toNat_inj.mp
  rcases a with (_ | _ | _ | _ | x) | (_ | x) <;> rcases b with (_ | _ | _ | _ | y) | (_ | y) <;>
    simp only [rank] at h <;> first
    | rfl
    | omega
    | rw [hByte x y (by omega)]
    | exact absurd (hLt x) (by omega)
    | exact absurd (hLt y) (by omega)

end TokenType

/-- The id of a token is the id of the transaction that created it. -/
abbrev TokenId := TxId

structure TokenMeta where
  tokenId : TokenId
  tokenType : TokenType
deriving DecidableEq

instance : Ord TokenMeta :=
  ⟨compareLex (compareOn TokenMeta.tokenId) (compareOn fun m => m.tokenType.rank)⟩

instance : Std.TransOrd TokenMeta :=
  inferInstanceAs (Std.TransCmp
    (compareLex (compareOn TokenMeta.tokenId) (compareOn fun m : TokenMeta => m.tokenType.rank)))

instance : Std.LawfulEqOrd TokenMeta where
  eq_of_compare {a b} h := by
    have hBoth := compareLex_eq_eq.mp h
    have hId : a.tokenId = b.tokenId := Std.LawfulEqOrd.eq_of_compare hBoth.1
    have hType : a.tokenType = b.tokenType :=
      TokenType.rank_injective (Std.LawfulEqOrd.eq_of_compare hBoth.2)
    cases a
    cases b
    simp_all

inductive TxType
  | genesis
  | mint
  | send
  | burn
  | unknown
deriving DecidableEq

/-- What an output holds of a token. -/
inductive TokenVariant
  | atoms (n : Nat)
  | mintBaton
  | unknown (byte : UInt8)
deriving DecidableEq

namespace TokenVariant

def amount : TokenVariant → Nat
  | .atoms n => n
  | .mintBaton => 0
  | .unknown _ => 0

def isMintBaton : TokenVariant → Bool
  | .mintBaton => true
  | _ => false

end TokenVariant

/-- A coloured output; `tokenIdx` points into the sections or entries of the
transaction. -/
structure TokenOutput where
  tokenIdx : Nat
  variant : TokenVariant
deriving DecidableEq

structure Token where
  tokenMeta : TokenMeta
  variant : TokenVariant
deriving DecidableEq

structure GenesisInfo where
  tokenTicker : Bytes
  tokenName : Bytes
  mintVaultScripthash : Option ShaRmd160
  url : Bytes
  hash : Option (FixedBytes 32)
  data : Option Bytes
  authPubkey : Option Bytes
  decimals : UInt8
deriving DecidableEq

/-! ## Parsed payloads -/

/-- Amounts to be minted, each with its own output, followed by mint batons. -/
structure ParsedMintData where
  atomsVec : List Nat
  numBatons : Nat
deriving DecidableEq

inductive ParsedTxType
  | genesis (info : GenesisInfo) (mintData : ParsedMintData)
  | mint (mintData : ParsedMintData)
  | send (atoms : List Nat)
  | burn (atoms : Nat)
  | unknown
deriving DecidableEq

def ParsedTxType.txType : ParsedTxType → TxType
  | .genesis _ _ => .genesis
  | .mint _ => .mint
  | .send _ => .send
  | .burn _ => .burn
  | .unknown => .unknown

structure ParsedData where
  tokenMeta : TokenMeta
  txType : ParsedTxType
deriving DecidableEq

/-- What both parsers guarantee of a payload of the transaction `txid`: only a
`GENESIS` names its own transaction, the type is known unless the payload is
the mark of an unknown type, and mint vault tokens have no batons. -/
def ParsedData.WellFormed (txid : TxId) (parsed : ParsedData) : Prop :=
  match parsed.txType with
  | .genesis _ mintData =>
    parsed.tokenMeta.tokenId = txid ∧ parsed.tokenMeta.tokenType.isKnown = true ∧
      (parsed.tokenMeta.tokenType = .slp .mintVault → mintData.numBatons = 0)
  | .mint mintData =>
    parsed.tokenMeta.tokenType.isKnown = true ∧
      (parsed.tokenMeta.tokenType = .slp .mintVault → mintData.numBatons = 0)
  | .send _ => parsed.tokenMeta.tokenType.isKnown = true
  | .burn _ => parsed.tokenMeta.tokenType.isKnown = true
  | .unknown => parsed.tokenMeta.tokenId = TxId.zero ∧ parsed.tokenMeta.tokenType.isKnown = false

end Ergon
