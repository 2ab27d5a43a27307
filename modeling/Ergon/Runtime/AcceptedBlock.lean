import Ergon.Core.Ser

/-!
# Ergon — accepted blocks

`decode_accepted_block` (`chronik-runtime/src/lib.rs`) turns the node's
serialization of a block into the input of the token indexer. The 80 bytes of the
header are only hashed, and the previous hash and the time are cut out of them; the
transactions after it have to fill the payload.

* `decodeAcceptedBlock_eq_ok` — what is accepted, and what is returned for it;
* `decodeAcceptedBlock_ser` — serialized transactions come back with their txids.
  The coins that inputs spend are not part of the serialization and come back absent.
-/

namespace Ergon

open Lib List

/-! ## Transactions without their coins -/

def TxInput.forgetCoin (i : TxInput) : TxInput := { i with coin := none }

def TxMut.forgetCoins (tx : TxMut) : TxMut := { tx with inputs := tx.inputs.map TxInput.forgetCoin }

theorem TxMut.ser_forgetCoins (tx : TxMut) : tx.forgetCoins.ser = tx.ser := by
  have hInputs : serVec TxInput.ser (tx.inputs.map TxInput.forgetCoin) =
      serVec TxInput.ser tx.inputs := by
    unfold serVec
    rw [length_map, flatMap_map]
    rfl
  show serUInt 4 tx.version ++ (serVec TxInput.ser (tx.inputs.map TxInput.forgetCoin) ++ _) = _
  rw [hInputs]
  rfl

/-! ## Decoding a block -/

namespace Runtime

structure AcceptedBlock where
  hash : FixedBytes 32
  prevHash : FixedBytes 32
  height : Int
  timestamp : Nat
  txs : List Tx
deriving DecidableEq

inductive RuntimeError
  | serializedBlockTooShort
  | blockHashMismatch
  | trailingBlockBytes
  | data (err : DataError)
deriving DecidableEq

/-- The previous hash stands in bytes 4 to 36 of the header. -/
def prevHashOf (rawBlock : Bytes) (h : 80 < rawBlock.length) : FixedBytes 32 :=
  ⟨(rawBlock.drop 4).take 32, by rw [length_take, length_drop]; omega⟩

def decodeAcceptedBlock (sha256d : Bytes → FixedBytes 32) (hash : FixedBytes 32) (height : Int)
    (rawBlock : Bytes) : Except RuntimeError AcceptedBlock :=
  if hLength : 80 < rawBlock.length then
    if sha256d (rawBlock.take 80) ≠ hash then .error .blockHashMismatch
    else match deserVec (Tx.deser sha256d) (rawBlock.drop 80) with
      | .error err => .error (.data err)
      | .ok (txs, rest) =>
        if rest ≠ [] then .error .trailingBlockBytes
        else .ok {
          hash := hash
          prevHash := prevHashOf rawBlock hLength
          height := height
          timestamp := ofLittleEndian ((rawBlock.drop 68).take 4)
          txs := txs }
  else .error .serializedBlockTooShort

section Decode

variable {sha256d : Bytes → FixedBytes 32} {hash : FixedBytes 32} {height : Int} {rawBlock : Bytes}

theorem decodeAcceptedBlock_eq_ok {block : AcceptedBlock} :
    decodeAcceptedBlock sha256d hash height rawBlock = .ok block ↔
      ∃ hLength : 80 < rawBlock.length, sha256d (rawBlock.take 80) = hash ∧
        deserVec (Tx.deser sha256d) (rawBlock.drop 80) = .ok (block.txs, []) ∧
        block.hash = hash ∧ block.prevHash = prevHashOf rawBlock hLength ∧
        block.height = height ∧ block.timestamp = ofLittleEndian ((rawBlock.drop 68).take 4) := by
  unfold decodeAcceptedBlock
  constructor
  · intro h
    split at h
    · next hLength =>
      split at h
      · cases h
      · next hHash =>
        split at h
        · cases h
        · next txs rest hDeser =>
          split at h
          · cases h
          · next hRest =>
            cases h
            rw [not_not] at hHash hRest
            exact ⟨hLength, hHash, hRest ▸ hDeser, rfl, rfl, rfl, rfl⟩
    · cases h
  · rintro ⟨hLength, hHash, hDeser, hBlockHash, hPrev, hHeight, hTime⟩
    rw [dif_pos hLength, if_neg (not_not.mpr hHash), hDeser]
    cases block
    dsimp only at hBlockHash hPrev hHeight hTime ⊢
    rw [if_neg (not_not.mpr rfl), hBlockHash, hPrev, hHeight, hTime]

/-- Transactions in the range of the format are read back as their serialization has
them. -/
theorem deserVec_serVec {txs : List TxMut} (hLength : txs.length < 2 ^ 64)
    (hFits : ∀ tx ∈ txs, tx.forgetCoins.Fits) :
    Reads (deserVec (Tx.deser sha256d)) (serVec TxMut.ser txs)
      (txs.map fun tx => Tx.withTxid (sha256d tx.ser) tx.forgetCoins) := by
  have hSer : serVec TxMut.ser txs = serVec Tx.ser
      (txs.map fun tx => Tx.withTxid (sha256d tx.ser) tx.forgetCoins) := by
    unfold serVec
    rw [length_map, flatMap_map]
    exact congrArg _ (flatMap_congr fun tx _ => tx.ser_forgetCoins.symm)
  rw [hSer]
  refine deserVec_reads (by rwa [length_map]) fun tx hTx => Tx.reads ?_
  obtain ⟨tx', hTx', rfl⟩ := mem_map.mp hTx
  exact ⟨hFits tx' hTx', congrArg sha256d tx'.ser_forgetCoins.symm⟩

theorem decodeAcceptedBlock_ser (sha256d : Bytes → FixedBytes 32) (height : Int)
    (header : FixedBytes 80) {txs : List TxMut}
    (hLength : txs.length < 2 ^ 64) (hFits : ∀ tx ∈ txs, tx.forgetCoins.Fits) :
    ∃ block, decodeAcceptedBlock sha256d (sha256d header.val) height
        (header.val ++ serVec TxMut.ser txs) = .ok block ∧
      block.txs = txs.map fun tx => Tx.withTxid (sha256d tx.ser) tx.forgetCoins := by
  have hHeader : header.val.length = 80 := header.property
  have hLonger : 80 < (header.val ++ serVec TxMut.ser txs).length := by
    have hNonempty : 0 < (writeCompactSize txs.length).length := by
      unfold writeCompactSize
      split_ifs <;> simp [serUInt]
    rw [length_append, hHeader, serVec, length_append]
    omega
  have hDrop : (header.val ++ serVec TxMut.ser txs).drop 80 = serVec TxMut.ser txs ++ [] := by
    rw [drop_left' hHeader, append_nil]
  refine ⟨⟨sha256d header.val, prevHashOf _ hLonger, height, _, _⟩,
    decodeAcceptedBlock_eq_ok.mpr ⟨hLonger, ?_, ?_, rfl, rfl, rfl, rfl⟩, rfl⟩
  · rw [take_left' hHeader]
  · rw [hDrop]
    exact deserVec_serVec hLength hFits []

end Decode

/-- A block is accepted exactly when it is longer than its header, the header has the
hash, and the decoder of the transactions consumes the rest. Serialized transactions
come back the same except for the coins their inputs spend, which come back absent, and
each with the hash of its serialization as txid. -/
theorem decodeAcceptedBlock_accepts (sha256d : Bytes → FixedBytes 32) (height : Int) :
    (∀ hash rawBlock, (∃ block, decodeAcceptedBlock sha256d hash height rawBlock = .ok block) ↔
      80 < rawBlock.length ∧ sha256d (rawBlock.take 80) = hash ∧
        ∃ txs, deserVec (Tx.deser sha256d) (rawBlock.drop 80) = .ok (txs, [])) ∧
    ∀ (header : FixedBytes 80) (txs : List TxMut), txs.length < 2 ^ 64 →
      (∀ tx ∈ txs, tx.forgetCoins.Fits) →
      ∃ block, decodeAcceptedBlock sha256d (sha256d header.val) height
          (header.val ++ serVec TxMut.ser txs) = .ok block ∧
        block.txs.map Tx.toMut = txs.map TxMut.forgetCoins ∧
        ∀ tx ∈ block.txs, tx.txid = sha256d tx.ser := by
  refine ⟨fun hash rawBlock => ⟨?_, ?_⟩, fun header txs hLength hFits => ?_⟩
  · rintro ⟨block, hBlock⟩
    obtain ⟨hLength, hHash, hDeser, -⟩ := decodeAcceptedBlock_eq_ok.mp hBlock
    exact ⟨hLength, hHash, block.txs, hDeser⟩
  · rintro ⟨hLength, hHash, txs, hDeser⟩
    exact ⟨⟨hash, prevHashOf rawBlock hLength, height, _, txs⟩,
      decodeAcceptedBlock_eq_ok.mpr ⟨hLength, hHash, hDeser, rfl, rfl, rfl, rfl⟩⟩
  · obtain ⟨block, hBlock, hTxs⟩ := decodeAcceptedBlock_ser sha256d height header hLength
      hFits
    refine ⟨block, hBlock, ?_, fun tx hTx => ?_⟩
    · rw [hTxs, map_map]
      rfl
    · rw [hTxs] at hTx
      obtain ⟨tx', -, rfl⟩ := mem_map.mp hTx
      exact congrArg sha256d tx'.ser_forgetCoins.symm

namespace Sample

def input : TxInput := ⟨⟨TxId.zero, 0⟩, ⟨[]⟩, 0, some ⟨⟨0, ⟨[]⟩⟩, 0, false⟩⟩

/-- A transaction whose input carries the coin it spends. -/
def spend : TxMut := ⟨1, [input], [⟨1000, ⟨[0x6a]⟩⟩], 0⟩

def sha256d (_ : Bytes) : FixedBytes 32 := TxId.zero

def header : FixedBytes 80 := ⟨List.replicate 80 0, rfl⟩

end Sample

open Sample

/-- The coin of an input is not part of the block and is not read back. -/
theorem decodeAcceptedBlock_loses_coin :
    (decodeAcceptedBlock sha256d (sha256d header.val) 0
      (header.val ++ serVec TxMut.ser [spend])).map (fun block => block.txs.map Tx.toMut) ≠
      .ok [spend] := by
  decide +kernel

theorem sample_decoded :
    ∃ block, decodeAcceptedBlock sha256d (sha256d header.val) 7
        (header.val ++ serVec TxMut.ser [spend]) = .ok block ∧
      block.txs.map Tx.toMut = [spend.forgetCoins] ∧
      ∀ tx ∈ block.txs, tx.txid = sha256d tx.ser := by
  refine (decodeAcceptedBlock_accepts sha256d 7).2 header [spend] (by decide) ?_
  rintro tx hTx
  rw [mem_singleton.mp hTx]
  refine ⟨by decide, by decide, ?_, by decide, ?_, by decide⟩
  · intro i hi
    rw [mem_singleton.mp hi]
    exact ⟨by decide, by decide, by decide, rfl⟩
  · intro o ho
    rw [mem_singleton.mp ho]
    exact ⟨by decide, by decide, by decide⟩

end Runtime

end Ergon
