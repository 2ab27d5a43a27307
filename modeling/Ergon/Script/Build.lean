import Ergon.Core.Ser

/-!
# Ergon — building scripts

`ScriptMut` (`bitcoinsuite-core/src/script/script_mut.rs`): pushes with the
shortest opcode for their length. A push that is read back by `readOp` is the
data that was pushed, so a script built from pushes has exactly those
operations (`iterOps_pushes`).
-/

namespace Ergon

open Lib List

/-! ## Pushes -/

/-- The bytes of the shortest push. Data of 2^32 bytes or more cannot be pushed. -/
def putPushdata (pushdata : Bytes) : Option Bytes :=
  let len := pushdata.length
  if len = 0 then some [0x00]
  else if len ≤ 0x4b then some (UInt8.ofNat len :: pushdata)
  else if len ≤ 0xff then some (opPushData1 :: UInt8.ofNat len :: pushdata)
  else if len ≤ 0xffff then some (opPushData2 :: (littleEndian 2 len ++ pushdata))
  else if len ≤ 0xffffffff then some (opPushData4 :: (littleEndian 4 len ++ pushdata))
  else none

/-- SLP has no opcode that pushes by itself, so empty data take a length byte. -/
def putSlpPushdata (pushdata : Bytes) : Option Bytes :=
  if pushdata = [] then some [opPushData1, 0x00] else putPushdata pushdata

theorem exists_putPushdata {pushdata : Bytes} (h : pushdata.length ≤ 0xffffffff) :
    ∃ bytes, putPushdata pushdata = some bytes := by
  unfold putPushdata
  dsimp only
  split_ifs <;> exact ⟨_, rfl⟩

theorem exists_putSlpPushdata {pushdata : Bytes} (h : pushdata.length ≤ 0xffffffff) :
    ∃ bytes, putSlpPushdata pushdata = some bytes := by
  unfold putSlpPushdata
  split
  · exact ⟨_, rfl⟩
  · exact exists_putPushdata h

/-! ## Reading pushes back -/

theorem readOpcode_reads (opcode : UInt8) : Reads (readBytes 1) [opcode] [opcode] :=
  readBytes_reads [opcode]

variable {opcode : UInt8} {data : Bytes}

theorem readOp_short (hLength : data.length = opcode.toNat)
    (hOpcode : 0x01 ≤ opcode ∧ opcode ≤ 0x4b) :
    Reads readOp (opcode :: data) (.push opcode data) := by
  refine (readOpcode_reads opcode).bind ?_
  show Reads (if 0x01 ≤ opcode ∧ opcode ≤ 0x4b then _ else _) _ _
  rw [if_pos hOpcode]
  have hData := readBytes_reads data
  rw [hLength] at hData
  exact hData.bind_pure (Op.push opcode)

/-- A push whose length stands in `w` bytes after its opcode. -/
theorem readSized_reads {w : Nat} (h : data.length < 256 ^ w) :
    Reads (readSized w opcode) (littleEndian w data.length ++ data) (.push opcode data) := by
  have hSize := readBytes_reads (littleEndian w data.length)
  rw [length_littleEndian] at hSize
  refine hSize.bind ?_
  have hData := readBytes_reads data
  rw [ofLittleEndian_littleEndian, Nat.mod_eq_of_lt h]
  exact hData.bind_pure (Op.push opcode)

theorem readOp_sized {w : Nat} (h : data.length < 256 ^ w)
    (hOpcode : (opcode = opPushData1 ∧ w = 1) ∨ (opcode = opPushData2 ∧ w = 2) ∨
      (opcode = opPushData4 ∧ w = 4)) :
    Reads readOp (opcode :: (littleEndian w data.length ++ data)) (.push opcode data) := by
  refine (readOpcode_reads opcode).bind ?_
  rcases hOpcode with ⟨rfl, rfl⟩ | ⟨rfl, rfl⟩ | ⟨rfl, rfl⟩ <;> exact readSized_reads h

/-- An operation that pushes the data, with an opcode that takes data. -/
def Pushes (pushdata : Bytes) (op : Op) : Prop :=
  ∃ opcode, opcode ≠ 0 ∧ opcode ≤ opPushData4 ∧ op = .push opcode pushdata

variable {pushdata bytes : Bytes}

theorem putPushdata_reads (hNonempty : pushdata ≠ []) (h : putPushdata pushdata = some bytes) :
    ∃ op, Pushes pushdata op ∧ Reads readOp bytes op := by
  have hPos : pushdata.length ≠ 0 := fun hZero => hNonempty (length_eq_zero_iff.mp hZero)
  unfold putPushdata at h
  dsimp only at h
  rw [if_neg hPos] at h
  split_ifs at h with h1 h2 h3 h4
  · cases h
    have hToNat : (UInt8.ofNat pushdata.length).toNat = pushdata.length := by
      rw [UInt8.toNat_ofNat']
      omega
    have hLow : 0x01 ≤ UInt8.ofNat pushdata.length := by
      rw [UInt8.le_iff_toNat_le, hToNat]
      exact Nat.one_le_iff_ne_zero.mpr hPos
    have hHigh : UInt8.ofNat pushdata.length ≤ 0x4b := by
      rw [UInt8.le_iff_toNat_le, hToNat]
      exact h1
    refine ⟨_, ⟨_, ?_, ?_, rfl⟩, readOp_short hToNat.symm ⟨hLow, hHigh⟩⟩
    · rintro hZero
      rw [hZero] at hLow
      exact absurd hLow (by decide)
    · exact UInt8.le_trans hHigh (by decide)
  · cases h
    have hByte : littleEndian 1 pushdata.length = [UInt8.ofNat pushdata.length] := by
      simp [littleEndian, bigEndian, Nat.mod_eq_of_lt (show pushdata.length < 256 by omega)]
    have hRead := readOp_sized (w := 1) (show pushdata.length < 256 ^ 1 by omega)
      (.inl ⟨rfl, rfl⟩)
    rw [hByte] at hRead
    exact ⟨_, ⟨opPushData1, by decide, by decide, rfl⟩, hRead⟩
  · cases h
    exact ⟨_, ⟨opPushData2, by decide, by decide, rfl⟩,
      readOp_sized (by omega) (.inr (.inl ⟨rfl, rfl⟩))⟩
  · cases h
    exact ⟨_, ⟨opPushData4, by decide, by decide, rfl⟩,
      readOp_sized (by omega) (.inr (.inr ⟨rfl, rfl⟩))⟩

theorem putSlpPushdata_reads (h : putSlpPushdata pushdata = some bytes) :
    ∃ op, Pushes pushdata op ∧ Reads readOp bytes op := by
  unfold putSlpPushdata at h
  split at h
  · next hEmpty =>
    cases h
    subst hEmpty
    exact ⟨_, ⟨opPushData1, by decide, by decide, rfl⟩,
      readOp_sized (w := 1) (show ([] : Bytes).length < 256 ^ 1 by decide) (.inl ⟨rfl, rfl⟩)⟩
  · next hNonempty => exact putPushdata_reads hNonempty h

/-! ## Operations of a built script -/

theorem readBytes_eq_ok {n : Nat} {b data rest : Bytes} (h : readBytes n b = .ok (data, rest)) :
    b = data ++ rest ∧ data.length = n := by
  unfold readBytes at h
  split at h
  · cases h
  · next hLength =>
    cases h
    exact ⟨(take_append_drop n b).symm, length_take_of_le (by omega)⟩

theorem readBytes_length {n : Nat} {b data rest : Bytes} (h : readBytes n b = .ok (data, rest)) :
    b.length = n + rest.length := by
  obtain ⟨rfl, hLength⟩ := readBytes_eq_ok h
  rw [length_append, hLength]

theorem readSized_length {w : Nat} {b rest : Bytes} {op : Op}
    (h : readSized w opcode b = .ok (op, rest)) : rest.length ≤ b.length := by
  obtain ⟨size, mid, hSize, h⟩ := reader_bind_eq_ok.mp h
  obtain ⟨data, rest', hData, h⟩ := reader_bind_eq_ok.mp h
  cases h
  have h1 := readBytes_length hSize
  have h2 := readBytes_length hData
  omega

/-- An operation takes at least its opcode. -/
theorem readOp_length {b rest : Bytes} {op : Op} (h : readOp b = .ok (op, rest)) :
    rest.length < b.length := by
  obtain ⟨opcodeNum, mid, hOpcode, h⟩ := reader_bind_eq_ok.mp h
  have hMid := readBytes_length hOpcode
  split_ifs at h
  · obtain ⟨data, rest', hData, h⟩ := reader_bind_eq_ok.mp h
    cases h
    have hRest := readBytes_length hData
    omega
  · have := readSized_length h
    omega
  · have := readSized_length h
    omega
  · have := readSized_length h
    omega
  · cases h
    omega

/-- More fuel than bytes changes nothing. -/
theorem iterOpsLoop_fuel {fuel fuel' : Nat} {b : Bytes} (h : b.length ≤ fuel)
    (h' : b.length ≤ fuel') : iterOpsLoop fuel b = iterOpsLoop fuel' b := by
  induction fuel generalizing fuel' b with
  | zero =>
    have hNil : b = [] := length_eq_zero_iff.mp (Nat.le_zero.mp h)
    subst hNil
    cases fuel' <;> simp [iterOpsLoop]
  | succ fuel ih =>
    cases fuel' with
    | zero =>
      have hNil : b = [] := length_eq_zero_iff.mp (Nat.le_zero.mp h')
      subst hNil
      simp [iterOpsLoop]
    | succ fuel' =>
      unfold iterOpsLoop
      split
      · rfl
      · cases hRead : readOp b with
        | error err => rfl
        | ok r =>
          obtain ⟨op, rest⟩ := r
          have hLess := readOp_length hRead
          exact congrArg _ (ih (by omega) (by omega))

/-- The operations of a script that starts with a readable one. -/
theorem Script.iterOps_append {bytes rest : Bytes} {op : Op} (hRead : Reads readOp bytes op) :
    (Script.mk (bytes ++ rest)).iterOps = .ok op :: (Script.mk rest).iterOps := by
  have hOp := hRead rest
  have hLess := readOp_length hOp
  unfold iterOps
  cases hLength : (bytes ++ rest).length with
  | zero =>
    rw [hLength] at hLess
    cases hLess
  | succ n =>
    have hNonempty : bytes ++ rest ≠ [] := ne_nil_of_length_pos (by omega)
    rw [iterOpsLoop, if_neg hNonempty, hOp]
    exact congrArg _ (iterOpsLoop_fuel (by omega) le_rfl)

variable {put : Bytes → Option Bytes}

/-- A script of pushes has the pushes as its operations. -/
theorem iterOps_pushes {datas pushes : List Bytes}
    (hRead : ∀ data ∈ datas, ∀ bytes, put data = some bytes →
      ∃ op, Pushes data op ∧ Reads readOp bytes op) (h : datas.mapM put = some pushes) :
    ∃ ops, (Script.mk pushes.flatten).iterOps = ops.map .ok ∧ List.Forall₂ Pushes datas ops := by
  induction datas generalizing pushes with
  | nil =>
    cases h
    exact ⟨[], rfl, .nil⟩
  | cons data datas ih =>
    rw [mapM_cons] at h
    obtain ⟨bytes, hBytes, h⟩ := Option.bind_eq_some_iff.mp h
    obtain ⟨rest, hRest, h⟩ := Option.bind_eq_some_iff.mp h
    cases h
    obtain ⟨op, hPushes, hOp⟩ := hRead data mem_cons_self bytes hBytes
    obtain ⟨ops, hIter, hOps⟩ := ih (fun d hd => hRead d (mem_cons_of_mem _ hd)) hRest
    refine ⟨op :: ops, ?_, .cons hPushes hOps⟩
    rw [flatten_cons, Script.iterOps_append hOp, hIter, map_cons]

theorem exists_mapM_put {datas : List Bytes} (h : ∀ data ∈ datas, ∃ bytes, put data = some bytes) :
    ∃ pushes, datas.mapM put = some pushes := by
  induction datas with
  | nil => exact ⟨[], rfl⟩
  | cons data datas ih =>
    obtain ⟨bytes, hBytes⟩ := h data mem_cons_self
    obtain ⟨pushes, hPushes⟩ := ih fun d hd => h d (mem_cons_of_mem _ hd)
    exact ⟨bytes :: pushes, by rw [mapM_cons, hBytes, hPushes]; rfl⟩

end Ergon
