import Ergon.Lib.Iter
import Ergon.Slp.ParseAlp

/-!
# Ergon — LOKAD ids

The protocol ids of a transaction (`bitcoinsuite-slp/src/lokad_id.rs`): the
first push after `OP_RETURN`, the start of every eMPP push and the first push of
every input. They are given by three chained iterators, and the last two
answer `None` for a push or input without an id, which a loop takes for the
end.

* `yields_parseTxLokadIds` — what a loop over the ids gets;
* `parseTxLokadIds_complete_iff` — it is every id exactly if pushes and inputs
  with an id come first.
-/

namespace Ergon

open Lib

abbrev LokadId := FixedBytes 4

def parseLokadIdPushopPrefix : Op → Option LokadId
  | .push _ data => toFixed 4 data
  | .code _ => none

/-- `OP_RETURN <LOKAD ID> ...` -/
def parseOpreturnLokadId (script : Script) : Option LokadId :=
  match script.iterOps with
  | .ok (.code opcode) :: .ok op :: _ =>
    if opcode = opReturn then parseLokadIdPushopPrefix op else none
  | _ => none

/-- The first four bytes of a push. -/
def pushdataLokadId (pushdata : Bytes) : Option LokadId :=
  if 4 ≤ pushdata.length then toFixed 4 (pushdata.take 4) else none

/-- `<LOKAD ID> ...` -/
def parseInputScriptLokadId (input : TxInput) : Option LokadId :=
  match input.script.iterOps with
  | .ok op :: _ => parseLokadIdPushopPrefix op
  | _ => none

/-! ## The iterators -/

def emppLokadIdNext : Iter (List Bytes) LokadId := matchingNext pushdataLokadId

def txInputLokadIdNext : Iter (List TxInput) LokadId := matchingNext parseInputScriptLokadId

/-- `Chain<Chain<option::IntoIter<LokadId>, EmppLokadIdIter>, TxInputLokadIdIter>` -/
abbrev LokadIdIter := Option (Option (Option LokadId) × List Bytes) × List TxInput

def lokadIdNext : Iter LokadIdIter LokadId :=
  chainNext (chainNext optionNext emppLokadIdNext) txInputLokadIdNext

def opreturnLokadId (tx : Tx) : Option LokadId :=
  tx.outputs.head?.bind fun output => parseOpreturnLokadId output.script

def emppPushdata (tx : Tx) : List Bytes :=
  ((tx.outputs.head?.bind fun output => (Empp.parse output.script).toOption).join).getD []

def parseTxLokadIds (tx : Tx) : LokadIdIter :=
  (some (some (opreturnLokadId tx), emppPushdata tx), tx.inputs)

/-- A loop over the ids gets those of the pushes and of the inputs up to the
first without one. -/
theorem yields_parseTxLokadIds (tx : Tx) :
    Yields lokadIdNext (parseTxLokadIds tx)
      ((opreturnLokadId tx).toList ++ takeMatching pushdataLokadId (emppPushdata tx) ++
        takeMatching parseInputScriptLokadId tx.inputs) :=
  ((yields_optionNext _).chain (yields_matching _ _)).chain (yields_matching _ _)

/-! ## What the ids should be -/

/-- All ids of a transaction, in order. -/
def allLokadIds (tx : Tx) : List LokadId :=
  (opreturnLokadId tx).toList ++ (emppPushdata tx).filterMap pushdataLokadId ++
    tx.inputs.filterMap parseInputScriptLokadId

/-- **A loop gets every id exactly if those without one come last**, among the
pushes and among the inputs. -/
theorem parseTxLokadIds_complete_iff (tx : Tx) :
    Yields lokadIdNext (parseTxLokadIds tx) (allLokadIds tx) ↔
      MatchingFirst pushdataLokadId (emppPushdata tx) ∧
        MatchingFirst parseInputScriptLokadId tx.inputs := by
  rw [← takeMatching_eq_filterMap_iff, ← takeMatching_eq_filterMap_iff]
  constructor
  · intro h
    have hEq := (yields_parseTxLokadIds tx).unique h
    rw [allLokadIds, List.append_assoc, List.append_assoc] at hEq
    have hRest := List.append_cancel_left hEq
    -- neither part can be longer than it should be
    have hPushes := length_takeMatching_le pushdataLokadId (emppPushdata tx)
    have hInputs := length_takeMatching_le parseInputScriptLokadId tx.inputs
    have hLength := congrArg List.length hRest
    rw [List.length_append, List.length_append] at hLength
    exact List.append_inj hRest (by omega)
  · rintro ⟨hPushes, hInputs⟩
    have hYields := yields_parseTxLokadIds tx
    rwa [hPushes, hInputs] at hYields

/-- An input with an empty script before one that starts with a push of four
bytes. -/
def emptyThenIdTx : Tx where
  txid := TxId.zero
  version := 1
  inputs := [⟨⟨TxId.zero, 0⟩, ⟨[]⟩, 0, none⟩, ⟨⟨TxId.zero, 1⟩, ⟨[4, 97, 98, 99, 100]⟩, 0, none⟩]
  outputs := []
  locktime := 0

theorem emptyThenIdTx_loses_id :
    Yields lokadIdNext (parseTxLokadIds emptyThenIdTx) [] ∧
      allLokadIds emptyThenIdTx = [⟨[97, 98, 99, 100], rfl⟩] := by
  refine ⟨.done ?_, ?_⟩
  · decide
  · decide

end Ergon
