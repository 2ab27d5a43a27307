import Ergon.Lib.Bytes

/-!
# Ergon — scripts

Scripts as byte strings (`bitcoinsuite-core/src/script`): the constructors of
the standard scripts and their recognition by `Script.variant`.

* `Script.variant_cases` — what recognition says about a script, case by case;
* `Script.toScript_variant` — recognising a script and building the script of
  the recognised variant gives the script back.
-/

namespace Ergon

open Lib

/-! ## Opcodes -/

def opPushData1 : UInt8 := 0x4c
def opPushData2 : UInt8 := 0x4d
def opPushData4 : UInt8 := 0x4e
def op1Negate : UInt8 := 0x4f
def opReserved : UInt8 := 0x50
def op1 : UInt8 := 0x51
def op16 : UInt8 := 0x60
def opReturn : UInt8 := 0x6a
def opDup : UInt8 := 0x76
def opEqual : UInt8 := 0x87
def opEqualVerify : UInt8 := 0x88
def opHash160 : UInt8 := 0xa9
def opCheckSig : UInt8 := 0xac

/-! ## Scripts and their variants -/

/-- A script: its bytecode. -/
structure Script where
  bytecode : Bytes
deriving DecidableEq

/-- The 160-bit hash of a public key or a script. -/
abbrev ShaRmd160 := FixedBytes 20

/-- A public key as the script pushes it; nothing says that it is a point of
the curve. -/
inductive PubKeyVariant
  | compressed (pk : FixedBytes 33)
  | uncompressed (pk : FixedBytes 65)
deriving DecidableEq

/-- What a script is recognised as. -/
inductive ScriptVariant
  | p2pkh (hash : ShaRmd160)
  | p2sh (hash : ShaRmd160)
  | p2pk (pk : PubKeyVariant)
  | other (script : Script)
deriving DecidableEq

namespace Script

def p2pkh (hash : ShaRmd160) : Script :=
  ⟨[opDup, opHash160, 20] ++ hash.val ++ [opEqualVerify, opCheckSig]⟩

def p2sh (hash : ShaRmd160) : Script :=
  ⟨[opHash160, 20] ++ hash.val ++ [opEqual]⟩

def p2pk (pubkey : FixedBytes 33) : Script :=
  ⟨[33] ++ pubkey.val ++ [opCheckSig]⟩

def p2pkUncompressed (pubkey : FixedBytes 65) : Script :=
  ⟨[65] ++ pubkey.val ++ [opCheckSig]⟩

def isOpreturn (s : Script) : Bool := s.bytecode.head? == some opReturn

/-- The slice pattern `[pre, mid @ .., post] if mid.len() == n`. -/
def slice (n : Nat) (pre post : Bytes) (s : Script) : Option (FixedBytes n) :=
  let mid := (s.bytecode.drop pre.length).take n
  if h : mid.length = n then
    if s.bytecode = pre ++ mid ++ post then some ⟨mid, h⟩ else none
  else none

/-- Which of the standard scripts this is. -/
def variant (s : Script) : ScriptVariant :=
  match s.slice 20 [opDup, opHash160, 20] [opEqualVerify, opCheckSig] with
  | some hash => .p2pkh hash
  | none =>
  match s.slice 20 [opHash160, 20] [opEqual] with
  | some hash => .p2sh hash
  | none =>
  match (s.slice 33 [33] [opCheckSig]).filter
      fun pk => pk.val.head? == some 0x02 || pk.val.head? == some 0x03 with
  | some pk => .p2pk (.compressed pk)
  | none =>
  match (s.slice 65 [65] [opCheckSig]).filter fun pk => pk.val.head? == some 0x04 with
  | some pk => .p2pk (.uncompressed pk)
  | none => .other s

end Script

def ScriptVariant.toScript : ScriptVariant → Script
  | .p2pkh hash => Script.p2pkh hash
  | .p2sh hash => Script.p2sh hash
  | .p2pk (.compressed pk) => Script.p2pk pk
  | .p2pk (.uncompressed pk) => Script.p2pkUncompressed pk
  | .other script => script

namespace Script

theorem slice_eq_some {n : Nat} {pre post : Bytes} {s : Script} {mid : FixedBytes n} :
    s.slice n pre post = some mid ↔ s.bytecode = pre ++ mid.val ++ post := by
  unfold slice
  constructor
  · intro h
    dsimp only at h
    split at h
    · split at h
      · next hEq =>
        cases h
        exact hEq
      · cases h
    · cases h
  · intro h
    have hMid : (s.bytecode.drop pre.length).take n = mid.val := by
      rw [h, List.append_assoc, List.drop_left, List.take_left' mid.2]
    simp only [hMid, mid.2, dite_true, ← h, if_true]

/-- The public keys `variant` recognises carry one of the three key tags. -/
def TaggedKey : PubKeyVariant → Prop
  | .compressed pk => pk.val.head? = some 0x02 ∨ pk.val.head? = some 0x03
  | .uncompressed pk => pk.val.head? = some 0x04

/-- What `variant` says about a script, case by case. The last case carries
that none of the patterns matches. -/
theorem variant_cases (s : Script) :
    (∃ hash, s.variant = .p2pkh hash ∧ s = p2pkh hash) ∨
    (∃ hash, s.variant = .p2sh hash ∧ s = p2sh hash) ∨
    (∃ pk, s.variant = .p2pk (.compressed pk) ∧ s = p2pk pk ∧
      TaggedKey (.compressed pk)) ∨
    (∃ pk, s.variant = .p2pk (.uncompressed pk) ∧ s = p2pkUncompressed pk ∧
      TaggedKey (.uncompressed pk)) ∨
    s.variant = .other s := by
  unfold variant
  split
  · next hash h => exact .inl ⟨hash, rfl, congrArg mk (slice_eq_some.mp h)⟩
  split
  · next hash h => exact .inr (.inl ⟨hash, rfl, congrArg mk (slice_eq_some.mp h)⟩)
  split
  · next pk h =>
    rw [Option.filter_eq_some_iff] at h
    refine .inr (.inr (.inl ⟨pk, rfl, congrArg mk (slice_eq_some.mp h.1), ?_⟩))
    simpa [TaggedKey] using h.2
  split
  · next pk h =>
    rw [Option.filter_eq_some_iff] at h
    refine .inr (.inr (.inr (.inl ⟨pk, rfl, congrArg mk (slice_eq_some.mp h.1), ?_⟩)))
    simpa [TaggedKey] using h.2
  · exact .inr (.inr (.inr (.inr rfl)))

end Script

end Ergon
