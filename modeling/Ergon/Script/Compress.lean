import Ergon.Lib.VarInt
import Ergon.Script.Script

/-!
# Ergon — compressed scripts

The index keys every script history and every script UTXO entry by the
compressed script. The encoder is the Rust function `compress_script_variant`
(`bitcoinsuite-core/src/script/compress.rs`), the decoder is the C++ function
`decompress_script` (`chronik-cpp/chronik_bridge.cpp`, on top of
`compressor.cpp`). Public-key decompression is a `PubKeyCodec`, a parameter
with the law that it finds the curve point with the given `x` and parity.

Main results:

* `serMember_prefix_iff` — the compressed scripts of two scripts are a prefix
  of one another exactly for equal scripts and for two uncompressed
  pay-to-public-key scripts that share `x` and the parity of `y` (`KeyClash`);
* `decompressScript_serMember_iff` — decompression gives the script back
  exactly when an uncompressed key lies on the curve and the length fits the
  decoder's 32-bit size (`Decompressible`);
* `serMember_faithful_iff` — both together.
-/

namespace Ergon

open Lib List

/-! ## The encoder -/

/-- Number of special scripts for compression. -/
def compressNumSpecialScripts : Nat := 6

/-- The `x` coordinate of an uncompressed key, as it is pushed. -/
def keyX (pk : FixedBytes 65) : Bytes := (pk.val.drop 1).take 32

/-- The `y` coordinate of an uncompressed key, as it is pushed. -/
def keyY (pk : FixedBytes 65) : Bytes := pk.val.drop 33

/-- Whether a big-endian coordinate is odd: the low bit of its last byte. -/
def isOddCoord (y : Bytes) : Bool := y.getD 31 0 &&& 0x01 == 0x01

def compressScriptVariant : ScriptVariant → Bytes
  | .p2pkh pkh => 0x00 :: pkh.val
  | .p2sh sh => 0x01 :: sh.val
  | .p2pk (.compressed pk) => pk.val
  | .p2pk (.uncompressed pk) => ((pk.val.getD 64 0 &&& 0x01) ||| 0x04) :: keyX pk
  | .other script =>
    writeVarInt (script.bytecode.length + compressNumSpecialScripts) ++ script.bytecode

/-- The member key of a script in the script group (`ScriptGroup::ser_member`). -/
def serMember (s : Script) : Bytes := compressScriptVariant s.variant

/-! ## The decoder -/

/-- Public-key decompression: `decompress odd x` is the `y` of the curve point
with that `x` and parity, if there is one. -/
structure PubKeyCodec where
  onCurve : Bytes → Bytes → Prop
  decompress : Bool → Bytes → Option Bytes
  decompress_eq_some : ∀ odd x y, x.length = 32 →
    (decompress odd x = some y ↔ y.length = 32 ∧ onCurve x y ∧ isOddCoord y = odd)

/-- What `decompress_script` throws. -/
inductive DecompressError
  | varInt (e : VarIntError)
  | endOfData
  | invalidPublicKey
  | lengthMismatch
  | trailingBytes
deriving DecidableEq

/-- The largest `unsigned int`. -/
def uint32Max : Nat := 2 ^ 32 - 1

def getSpecialScriptSize (nSize : Nat) : Nat :=
  if nSize = 0 ∨ nSize = 1 then 20
  else if nSize = 2 ∨ nSize = 3 ∨ nSize = 4 ∨ nSize = 5 then 32
  else 0

/-- `DecompressScript` of `compressor.cpp`; `none` is its `false`. -/
def decompressSpecial (codec : PubKeyCodec) (nSize : Nat) (data : Bytes) : Option Script :=
  match nSize with
  | 0 => some ⟨[opDup, opHash160, 20] ++ data ++ [opEqualVerify, opCheckSig]⟩
  | 1 => some ⟨[opHash160, 20] ++ data ++ [opEqual]⟩
  | 2 => some ⟨[33, 0x02] ++ data ++ [opCheckSig]⟩
  | 3 => some ⟨[33, 0x03] ++ data ++ [opCheckSig]⟩
  | 4 => (codec.decompress false data).map fun y => ⟨[65, 0x04] ++ data ++ y ++ [opCheckSig]⟩
  | 5 => (codec.decompress true data).map fun y => ⟨[65, 0x04] ++ data ++ y ++ [opCheckSig]⟩
  | _ => none

/-- `chronik_bridge::decompress_script`. -/
def decompressScript (codec : PubKeyCodec) (b : Bytes) : Except DecompressError Script :=
  match readVarInt uint32Max b with
  | .error e => .error (.varInt e)
  | .ok (size, rest) =>
    if size < compressNumSpecialScripts then
      let special := rest.take (getSpecialScriptSize size)
      if special.length < getSpecialScriptSize size then .error .endOfData
      else match decompressSpecial codec size special with
        | none => .error .invalidPublicKey
        | some script =>
          if rest.drop (getSpecialScriptSize size) = [] then .ok script
          else .error .trailingBytes
    else if size - compressNumSpecialScripts ≠ rest.length then .error .lengthMismatch
    else .ok ⟨rest⟩

/-! ## The shape of a compressed script -/

variable {n : Nat}

/-- A key that starts with a known tag is the tag and the rest. -/
private theorem val_eq_cons {pk : FixedBytes (n + 1)} {tag : UInt8} (h : pk.val.head? = some tag) :
    ∃ rest, pk.val = tag :: rest ∧ rest.length = n := by
  obtain ⟨l, hl⟩ := pk
  cases l with
  | nil => cases h
  | cons a rest =>
    cases h
    exact ⟨rest, rfl, Nat.succ.inj hl⟩

@[simp] theorem length_keyX (pk : FixedBytes 65) : (keyX pk).length = 32 := by
  simp [keyX, pk.2]

@[simp] theorem length_keyY (pk : FixedBytes 65) : (keyY pk).length = 32 := by
  simp [keyY, pk.2]

theorem val_eq_tag_keyX_keyY {pk : FixedBytes 65} (h : pk.val.head? = some 0x04) :
    pk.val = 0x04 :: (keyX pk ++ keyY pk) := by
  obtain ⟨rest, hEq, -⟩ := val_eq_cons h
  simp [keyX, keyY, hEq]

/-- The size tag of an uncompressed key: 4 for an even `y`, 5 for an odd one. -/
def keySize (pk : FixedBytes 65) : Nat := if isOddCoord (keyY pk) then 5 else 4

theorem keyTag_eq (pk : FixedBytes 65) :
    (pk.val.getD 64 0 &&& 0x01) ||| 0x04 = UInt8.ofNat (keySize pk) := by
  have hLast : (keyY pk).getD 31 0 = pk.val.getD 64 0 := by
    simp [keyY, getD_eq_getElem?_getD]
  have hByte : ∀ n : Fin 256, (UInt8.ofFin n &&& 0x01) ||| 0x04 =
      UInt8.ofNat (if UInt8.ofFin n &&& 0x01 == 0x01 then 5 else 4) := by
    decide +kernel
  rw [keySize, isOddCoord, hLast]
  exact hByte (pk.val.getD 64 0).toFin

/-- The three shapes of a compressed script: a special script that decodes
without the curve, an uncompressed key, and a length-prefixed script. -/
theorem serMember_cases (s : Script) :
    (∃ n data, n < 4 ∧ data.length = getSpecialScriptSize n ∧
      serMember s = UInt8.ofNat n :: data ∧
      (∀ pk, s.variant ≠ .p2pk (.uncompressed pk)) ∧
      ∀ codec, decompressSpecial codec n data = some s) ∨
    (∃ pk, s.variant = .p2pk (.uncompressed pk) ∧
      s = ⟨[65, 0x04] ++ keyX pk ++ keyY pk ++ [opCheckSig]⟩ ∧
      serMember s = UInt8.ofNat (keySize pk) :: keyX pk) ∨
    (s.variant = .other s ∧
      serMember s = writeVarInt (s.bytecode.length + compressNumSpecialScripts) ++ s.bytecode) := by
  rcases s.variant_cases with ⟨hash, h, hs⟩ | ⟨hash, h, hs⟩ | ⟨pk, h, hs, hTag⟩ |
    ⟨pk, h, hs, hTag⟩ | h
  · exact .inl ⟨0, hash.val, by omega, hash.2, by rw [serMember, h]; rfl, by simp [h],
      fun _ => by rw [hs]; rfl⟩
  · exact .inl ⟨1, hash.val, by omega, hash.2, by rw [serMember, h]; rfl, by simp [h],
      fun _ => by rw [hs]; rfl⟩
  · left
    rcases hTag with hTag | hTag
    · obtain ⟨rest, hEq, hLen⟩ := val_eq_cons hTag
      refine ⟨2, rest, by omega, hLen, by rw [serMember, h]; exact hEq, by simp [h], fun _ => ?_⟩
      rw [hs, Script.p2pk, hEq]
      rfl
    · obtain ⟨rest, hEq, hLen⟩ := val_eq_cons hTag
      refine ⟨3, rest, by omega, hLen, by rw [serMember, h]; exact hEq, by simp [h], fun _ => ?_⟩
      rw [hs, Script.p2pk, hEq]
      rfl
  · refine .inr (.inl ⟨pk, h, ?_, ?_⟩)
    · rw [hs, Script.p2pkUncompressed, val_eq_tag_keyX_keyY hTag]
      simp
    · rw [serMember, h, compressScriptVariant, keyTag_eq]
  · exact .inr (.inr ⟨h, by rw [serMember, h]; rfl⟩)

/-- Special scripts are short. -/
theorem length_decompressSpecial {codec : PubKeyCodec} {data : Bytes} {s : Script} (hn : n < 4)
    (hLen : data.length = getSpecialScriptSize n) (h : decompressSpecial codec n data = some s) :
    s.bytecode.length ≤ 35 := by
  obtain rfl | rfl | rfl | rfl : n = 0 ∨ n = 1 ∨ n = 2 ∨ n = 3 := by omega
  all_goals
    cases h
    simp [hLen, getSpecialScriptSize]

/-- A length-prefixed script starts with a byte that no special script uses. -/
theorem writeVarInt_special_head (n : Nat) (rest : Bytes) :
    ∃ g tail, writeVarInt (n + compressNumSpecialScripts) ++ rest = g :: tail ∧ 6 ≤ g.toNat := by
  rcases writeVarInt_head (n + compressNumSpecialScripts) with ⟨hSmall, hEq⟩ | ⟨_, g, tail, hEq, hg⟩
  · refine ⟨_, rest, by rw [hEq]; rfl, ?_⟩
    rw [UInt8.toNat_ofNat']
    unfold compressNumSpecialScripts at *
    omega
  · exact ⟨g, tail ++ rest, by rw [hEq]; rfl, by omega⟩

/-! ## Decompression -/

theorem decompressScript_special (codec : PubKeyCodec) (hn : n < 6) {data : Bytes}
    (hLen : data.length = getSpecialScriptSize n) :
    decompressScript codec (UInt8.ofNat n :: data) =
      match decompressSpecial codec n data with
      | none => .error .invalidPublicKey
      | some script => .ok script := by
  have hByte : (UInt8.ofNat n).toNat = n := by
    rw [UInt8.toNat_ofNat']
    omega
  have hTake : data.take (getSpecialScriptSize n) = data := by
    rw [← hLen, take_length]
  have hDrop : data.drop (getSpecialScriptSize n) = [] := by
    rw [← hLen, drop_length]
  unfold decompressScript
  rw [readVarInt_cons_of_lt (by omega), hByte]
  simp only [compressNumSpecialScripts, hn, if_true, hTake, hDrop, hLen, lt_irrefl, if_false]

theorem decompressScript_other (codec : PubKeyCodec) (b : Bytes) :
    decompressScript codec (writeVarInt (b.length + compressNumSpecialScripts) ++ b) =
      if b.length + compressNumSpecialScripts > uint32Max then .error (.varInt .sizeTooLarge)
      else .ok ⟨b⟩ := by
  unfold decompressScript
  rw [readVarInt_writeVarInt (by decide)]
  by_cases hBig : b.length + compressNumSpecialScripts > uint32Max
  · simp only [hBig, if_true]
  · have hSize : ¬ b.length + compressNumSpecialScripts < compressNumSpecialScripts := by omega
    simp only [hBig, if_false, hSize, Nat.add_sub_cancel, ne_eq, not_true]

/-- An uncompressed key decompresses to the same script exactly when it is a
point of the curve. -/
theorem decompressScript_uncompressed_iff (codec : PubKeyCodec) (pk : FixedBytes 65) :
    decompressScript codec (UInt8.ofNat (keySize pk) :: keyX pk) =
        .ok ⟨[65, 0x04] ++ keyX pk ++ keyY pk ++ [opCheckSig]⟩ ↔
      codec.onCurve (keyX pk) (keyY pk) := by
  have hSize : keySize pk < 6 ∧ (keyX pk).length = getSpecialScriptSize (keySize pk) := by
    rw [length_keyX, keySize]
    split <;> decide
  have hSpecial : decompressSpecial codec (keySize pk) (keyX pk) =
      (codec.decompress (isOddCoord (keyY pk)) (keyX pk)).map
        fun y => ⟨[65, 0x04] ++ keyX pk ++ y ++ [opCheckSig]⟩ := by
    rw [keySize]
    cases isOddCoord (keyY pk) <;> rfl
  have hLaw := codec.decompress_eq_some (isOddCoord (keyY pk)) (keyX pk) (keyY pk) (length_keyX pk)
  rw [decompressScript_special codec hSize.1 hSize.2, hSpecial]
  constructor
  · intro h
    -- the decoder found some `y`; the script determines it
    cases hY : codec.decompress (isOddCoord (keyY pk)) (keyX pk) with
    | none => simp [hY] at h
    | some y =>
      have hEq : y = keyY pk := by simpa [hY] using h
      exact (hLaw.mp (hEq ▸ hY)).2.1
  · intro hCurve
    rw [hLaw.mpr ⟨length_keyY pk, hCurve, rfl⟩]
    rfl

/-! ## Faithfulness of the encoding -/

/-- Two different uncompressed pay-to-public-key scripts whose keys share `x`
and the parity of `y`. On the curve there is only one such `y`, but
`Script.variant` does not check that a key lies on it. -/
def KeyClash (s₁ s₂ : Script) : Prop :=
  s₁ ≠ s₂ ∧ ∃ pk₁ pk₂, s₁.variant = .p2pk (.uncompressed pk₁) ∧
    s₂.variant = .p2pk (.uncompressed pk₂) ∧ keyX pk₁ = keyX pk₂ ∧
    isOddCoord (keyY pk₁) = isOddCoord (keyY pk₂)

/-- The scripts the decoder can represent: an uncompressed key must be a point
of the curve, and the length must fit the decoder's size. -/
def Decompressible (codec : PubKeyCodec) (s : Script) : Prop :=
  s.bytecode.length + compressNumSpecialScripts ≤ uint32Max ∧
    ∀ pk, s.variant = .p2pk (.uncompressed pk) → codec.onCurve (keyX pk) (keyY pk)

private theorem toNat_ofNat_of_lt_six (hn : n < 6) : (UInt8.ofNat n).toNat = n := by
  rw [UInt8.toNat_ofNat']
  omega

/-- The first byte of a compressed script tells which shape it has. -/
theorem serMember_shape (s : Script) : ∃ g tail, serMember s = g :: tail ∧
    ((g.toNat < 4 ∧ tail.length = getSpecialScriptSize g.toNat ∧
        ∀ codec, decompressSpecial codec g.toNat tail = some s) ∨
      (4 ≤ g.toNat ∧ g.toNat < 6 ∧ ∃ pk, s.variant = .p2pk (.uncompressed pk) ∧
        g.toNat = keySize pk ∧ tail = keyX pk) ∨
      (6 ≤ g.toNat ∧ g :: tail =
        writeVarInt (s.bytecode.length + compressNumSpecialScripts) ++ s.bytecode)) := by
  rcases serMember_cases s with ⟨n, data, hn, hLen, h, -, hDec⟩ | ⟨pk, hv, -, h⟩ | ⟨-, h⟩
  · refine ⟨_, data, h, .inl ?_⟩
    rw [toNat_ofNat_of_lt_six (by omega)]
    exact ⟨hn, hLen, hDec⟩
  · have hSize : 4 ≤ keySize pk ∧ keySize pk < 6 := by
      unfold keySize
      split <;> decide
    refine ⟨_, keyX pk, h, .inr (.inl ?_)⟩
    rw [toNat_ofNat_of_lt_six hSize.2]
    exact ⟨hSize.1, hSize.2, pk, hv, rfl, rfl⟩
  · obtain ⟨g, tail, hEq, hg⟩ := writeVarInt_special_head s.bytecode.length s.bytecode
    exact ⟨g, tail, h.trans hEq, .inr (.inr ⟨hg, hEq.symm⟩)⟩

variable {s₁ s₂ : Script}

/-- **Prefixes of compressed scripts.** Up to keys that clash, no compressed
script is a prefix of another one. -/
theorem eq_or_keyClash_of_prefix (h : serMember s₁ <+: serMember s₂) :
    s₁ = s₂ ∨ KeyClash s₁ s₂ := by
  obtain ⟨g, t₁, h₁, hShape₁⟩ := serMember_shape s₁
  obtain ⟨g', t₂, h₂, hShape₂⟩ := serMember_shape s₂
  rw [h₁, h₂, cons_prefix_cons] at h
  obtain ⟨rfl, hPre⟩ := h
  -- equal first bytes: the mixed cases contradict each other
  rcases hShape₁ with ⟨hg₁, hl₁, hd₁⟩ | ⟨hg₁, hg₁', pk₁, hv₁, hSize₁, hx₁⟩ | ⟨hg₁, hw₁⟩ <;>
  rcases hShape₂ with ⟨hg₂, hl₂, hd₂⟩ | ⟨hg₂, hg₂', pk₂, hv₂, hSize₂, hx₂⟩ | ⟨hg₂, hw₂⟩ <;>
  try omega
  · -- equally long data, which decodes to both scripts
    have hData : t₁ = t₂ := hPre.eq_of_length (hl₁.trans hl₂.symm)
    have hDec := hd₁ ⟨fun _ _ => False, fun _ _ => none, by simp⟩
    rw [hData, hd₂] at hDec
    exact .inl (Option.some.inj hDec).symm
  · have hX : keyX pk₁ = keyX pk₂ := by
      rw [hx₁, hx₂] at hPre
      exact hPre.eq_of_length (by simp)
    have hOdd : isOddCoord (keyY pk₁) = isOddCoord (keyY pk₂) := by
      rw [hSize₁, keySize, keySize] at hSize₂
      cases hy₁ : isOddCoord (keyY pk₁) <;> cases hy₂ : isOddCoord (keyY pk₂) <;>
        simp_all
    by_cases hne : s₁ = s₂
    · exact .inl hne
    · exact .inr ⟨hne, pk₁, pk₂, hv₁, hv₂, hX, hOdd⟩
  · -- the length prefixes agree, so the scripts are equally long
    obtain ⟨t, rfl⟩ := hPre
    rw [← cons_append, hw₁, append_assoc] at hw₂
    obtain ⟨hLen, hEq⟩ := prefixFree_writeVarInt.append_inj hw₂
    have hNil : t = [] := by
      have := congrArg List.length hEq
      rw [length_append] at this
      exact length_eq_zero_iff.mp (by omega)
    rw [hNil, append_nil] at hEq
    exact .inl (congrArg Script.mk hEq)

/-- Clashing keys have the same compressed script. -/
theorem serMember_eq_of_keyClash (h : KeyClash s₁ s₂) : serMember s₁ = serMember s₂ := by
  obtain ⟨-, pk₁, pk₂, hv₁, hv₂, hX, hOdd⟩ := h
  rw [serMember, serMember, hv₁, hv₂, compressScriptVariant, compressScriptVariant,
    keyTag_eq, keyTag_eq, keySize, keySize, hX, hOdd]

theorem serMember_prefix_iff (s₁ s₂ : Script) :
    serMember s₁ <+: serMember s₂ ↔ s₁ = s₂ ∨ KeyClash s₁ s₂ := by
  constructor
  · exact eq_or_keyClash_of_prefix
  · rintro (rfl | hClash)
    · exact prefix_refl _
    · rw [serMember_eq_of_keyClash hClash]

theorem KeyClash.symm (h : KeyClash s₁ s₂) : KeyClash s₂ s₁ := by
  obtain ⟨hne, pk₁, pk₂, hv₁, hv₂, hX, hOdd⟩ := h
  exact ⟨hne.symm, pk₂, pk₁, hv₂, hv₁, hX.symm, hOdd.symm⟩

theorem decompressScript_serMember_iff (codec : PubKeyCodec) (s : Script) :
    decompressScript codec (serMember s) = .ok s ↔ Decompressible codec s := by
  unfold Decompressible
  rcases serMember_cases s with ⟨n, data, hn, hLen, h, hv, hDec⟩ | ⟨pk, hv, hs, h⟩ | ⟨hv, h⟩
  · -- a special script is short, and is not an uncompressed key
    have hShort := length_decompressSpecial hn hLen (hDec codec)
    rw [h, decompressScript_special codec (by omega) hLen, hDec]
    refine iff_of_true rfl ⟨?_, fun pk hpk => absurd hpk (hv pk)⟩
    unfold compressNumSpecialScripts uint32Max
    omega
  · have hShort : s.bytecode.length + compressNumSpecialScripts ≤ uint32Max := by
      rw [hs]
      simp [compressNumSpecialScripts, uint32Max]
    have hIff := decompressScript_uncompressed_iff codec pk
    rw [← hs, ← h] at hIff
    rw [hIff, hv]
    simp [hShort]
  · rw [h, decompressScript_other, hv]
    by_cases hBig : s.bytecode.length + compressNumSpecialScripts > uint32Max
    · simp [hBig]
    · simp [hBig, Nat.not_lt.mp hBig]

/-- **Compressed scripts.** Different scripts have compressed scripts that are
not prefixes of one another exactly when their keys do not clash, and a
compressed script decompresses to the script exactly when the script is
decompressible. -/
theorem serMember_faithful_iff (codec : PubKeyCodec) (s₁ s₂ s : Script) :
    ((s₁ ≠ s₂ → ¬ serMember s₁ <+: serMember s₂ ∧ ¬ serMember s₂ <+: serMember s₁) ↔
      ¬ KeyClash s₁ s₂) ∧
    (decompressScript codec (serMember s) = .ok s ↔ Decompressible codec s) := by
  refine ⟨?_, decompressScript_serMember_iff codec s⟩
  rw [serMember_prefix_iff, serMember_prefix_iff]
  constructor
  · intro h hClash
    exact (h hClash.1).1 (.inr hClash)
  · intro hNo hne
    refine ⟨?_, ?_⟩
    · rintro (hEq | hClash)
      · exact hne hEq
      · exact hNo hClash
    · rintro (hEq | hClash)
      · exact hne hEq.symm
      · exact hNo hClash.symm

/-- The script `65 04 0…0 y OP_CHECKSIG`, whose key has `x = 0`. -/
def keyScript (y : UInt8) : Script :=
  Script.p2pkUncompressed ⟨0x04 :: List.replicate 63 0 ++ [y], by simp⟩

/-- Two scripts with one compressed script, of which at most one can be
decompressed, whatever the curve is. -/
theorem serMember_keyScript_clash :
    keyScript 0 ≠ keyScript 2 ∧ serMember (keyScript 0) = serMember (keyScript 2) ∧
      ∀ codec, ¬ (decompressScript codec (serMember (keyScript 0)) = .ok (keyScript 0) ∧
        decompressScript codec (serMember (keyScript 2)) = .ok (keyScript 2)) := by
  have hne : keyScript 0 ≠ keyScript 2 := by decide
  have hSer : serMember (keyScript 0) = serMember (keyScript 2) := by decide +kernel
  refine ⟨hne, hSer, fun codec h => hne ?_⟩
  have h₀ := h.1
  rw [hSer, h.2] at h₀
  exact (Except.ok.inj h₀).symm

end Ergon
