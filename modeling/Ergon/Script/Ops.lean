import Ergon.Lib.Result
import Ergon.Script.Script

/-!
# Ergon — script operations

Reading bytes (`bitcoinsuite-core/src/bytes.rs`) and the operations of a script
(`script/{op,iter}.rs`). A reader takes the remaining bytes and gives what it
read with what is left, or an error.

* `Script.iterOps_cons` — the operations of a script that starts with a
  stand-alone opcode are that opcode and those of the rest.
-/

namespace Ergon

open Lib

inductive DataError
  | invalidLength (expected actual : Nat)
deriving DecidableEq

/-- A reader of bytes that fails with `ε`. -/
abbrev Reader (ε : Type) := StateT Bytes (Except ε)

def readBytes (numBytes : Nat) : Reader DataError Bytes := fun bytes =>
  if bytes.length < numBytes then
    .error (.invalidLength numBytes bytes.length)
  else
    .ok (bytes.take numBytes, bytes.drop numBytes)

/-- A reader in two parts succeeds when both do, the second on what the first
left. -/
theorem reader_bind_eq_ok {ε α β : Type} {x : Reader ε α} {f : α → Reader ε β} {b : Bytes}
    {r : β × Bytes} :
    (x >>= f) b = .ok r ↔ ∃ a rest, x b = .ok (a, rest) ∧ f a rest = .ok r := by
  constructor
  · intro h
    obtain ⟨⟨a, rest⟩, hx, hf⟩ := bind_eq_ok.mp h
    exact ⟨a, rest, hx, hf⟩
  · rintro ⟨a, rest, hx, hf⟩
    exact bind_eq_ok.mpr ⟨(a, rest), hx, hf⟩

def readArray (n : Nat) : Reader DataError (FixedBytes n) := fun bytes =>
  if h : bytes.length < n then
    .error (.invalidLength n bytes.length)
  else
    .ok (⟨bytes.take n, List.length_take_of_le (Nat.not_lt.mp h)⟩, bytes.drop n)

/-- An operation of a script: an opcode alone, or one that pushes the bytes
after it. -/
inductive Op
  | code (opcode : UInt8)
  | push (opcode : UInt8) (data : Bytes)
deriving DecidableEq

/-- Read a little-endian size of `w` bytes and then as many bytes. -/
def readSized (w : Nat) (opcode : UInt8) : Reader DataError Op := do
  let size ← readBytes w
  let data ← readBytes (ofLittleEndian size)
  return .push opcode data

def readOp : Reader DataError Op := do
  let opcodeNum ← readBytes 1
  let opcode := opcodeNum.headD 0
  if 0x01 ≤ opcode ∧ opcode ≤ 0x4b then
    let data ← readBytes opcode.toNat
    return .push opcode data
  else if opcode = opPushData1 then readSized 1 opcode
  else if opcode = opPushData2 then readSized 2 opcode
  else if opcode = opPushData4 then readSized 4 opcode
  else return .code opcode

/-- The operations of `bytecode`, up to and including the first that cannot be
read; each takes at least one byte, so `fuel` of the length is enough. -/
def iterOpsLoop : Nat → Bytes → List (Except DataError Op)
  | 0, _ => []
  | fuel + 1, bytecode =>
    if bytecode = [] then []
    else match readOp bytecode with
      | .ok (op, rest) => .ok op :: iterOpsLoop fuel rest
      | .error err => [.error err]

def Script.iterOps (s : Script) : List (Except DataError Op) :=
  iterOpsLoop s.bytecode.length s.bytecode

/-- An opcode that neither pushes nor announces a size stands alone. -/
theorem readOp_code {c : UInt8} {rest : Bytes} (hSmall : ¬ (0x01 ≤ c ∧ c ≤ 0x4b))
    (h1 : c ≠ opPushData1) (h2 : c ≠ opPushData2) (h4 : c ≠ opPushData4) :
    readOp (c :: rest) = .ok (.code c, rest) := by
  have hOne : readBytes 1 (c :: rest) = .ok ([c], rest) := by simp [readBytes]
  simp only [readOp, bind, StateT.bind, hOne, Except.bind]
  rw [List.headD_cons, if_neg hSmall, if_neg h1, if_neg h2, if_neg h4]
  rfl

theorem Script.iterOps_cons {c : UInt8} {rest : Bytes} (hSmall : ¬ (0x01 ≤ c ∧ c ≤ 0x4b))
    (h1 : c ≠ opPushData1) (h2 : c ≠ opPushData2) (h4 : c ≠ opPushData4) :
    (Script.mk (c :: rest)).iterOps = .ok (.code c) :: (Script.mk rest).iterOps := by
  simp only [iterOps, List.length_cons, iterOpsLoop, reduceCtorEq, if_false,
    readOp_code hSmall h1 h2 h4]

end Ergon
