import Mathlib.Data.List.ReduceOption
import Mathlib.Data.List.TakeWhile
import Ergon.Mem.Mempool

/-!
# Ergon — the members of a mempool transaction

Which members the inputs and outputs of a transaction have in each of the three
groups, and that no list names one twice.
-/

namespace Ergon

open Lib Archival List Option

/-! ## Lists with their indices -/

section Indexed

variable {α β : Type}

theorem pairwise_zipIdx (l : List α) : l.zipIdx.Pairwise fun p q => p.2 ≠ q.2 := by
  have h : (l.zipIdx.map Prod.snd).Nodup := by
    rw [zipIdx_map_snd]
    exact nodup_range'
  exact pairwise_map.mp h

/-- What is collected from a list under the indices of its elements. -/
theorem nodup_filterMap_zipIdx {f : α × Nat → Option (Nat × β)} (l : List α)
    (hf : ∀ p b, f p = some b → b.1 = p.2) : (l.zipIdx.filterMap f).Nodup := by
  refine (pairwise_zipIdx l).filterMap f fun p q hne b hb b' hb' hEq => hne ?_
  rw [← hf p b hb, ← hf q b' hb', hEq]

theorem nodup_flatMap_zipIdx (f : α → List β) (l : List α) (hf : ∀ a ∈ l, (f a).Nodup) :
    (l.zipIdx.flatMap fun (a, idx) => (f a).map fun b => (idx, b)).Nodup := by
  rw [nodup_flatMap]
  constructor
  · rintro ⟨a, idx⟩ hIn
    refine (hf a ?_).map fun b b' hEq => (Prod.mk.inj hEq).2
    exact mem_of_getElem? (mem_zipIdx_iff_getElem?.mp hIn)
  · refine (pairwise_zipIdx l).imp fun {p q} hne => ?_
    rintro ⟨idx, b⟩ hIn hIn'
    obtain ⟨_, -, hEq⟩ := List.mem_map.mp hIn
    obtain ⟨_, -, hEq'⟩ := List.mem_map.mp hIn'
    exact hne ((Prod.mk.inj hEq).1.trans (Prod.mk.inj hEq').1.symm)

end Indexed

/-! ## Scripts -/

section Scripts

variable {tx : Tx} {idx : Nat} {member : Bytes}

theorem mem_scriptMembers_outputs : (idx, member) ∈ (scriptMembers tx).outputs ↔
    ∃ output, tx.outputs[idx]? = some output ∧ output.script.isOpreturn = false ∧
      serMember output.script = member := by
  simp only [scriptMembers, mem_filterMap, Prod.exists, mem_zipIdx_iff_getElem?]
  constructor
  · rintro ⟨output, _, hOutput, hItem⟩
    split at hItem
    · cases hItem
    · next hReturn =>
      cases hItem
      exact ⟨output, hOutput, Bool.not_eq_true _ ▸ hReturn, rfl⟩
  · rintro ⟨output, hOutput, hReturn, rfl⟩
    exact ⟨output, idx, hOutput, by rw [if_neg (by rw [hReturn]; exact Bool.false_ne_true)]⟩

/-- If all coins are known, no input is skipped. -/
theorem mem_scriptMembers_inputs (hCoins : ∀ input ∈ tx.inputs, input.coin.isSome) :
    (idx, member) ∈ (scriptMembers tx).inputs ↔
      ∃ input coin, tx.inputs[idx]? = some input ∧ input.coin = some coin ∧
        serMember coin.output.script = member := by
  have hAll : (tx.inputs.map (·.coin)).takeWhile Option.isSome = tx.inputs.map (·.coin) := by
    refine takeWhile_eq_self_iff.mpr fun c hc => ?_
    obtain ⟨input, hInput, rfl⟩ := List.mem_map.mp hc
    exact hCoins input hInput
  have hReduce : ((tx.inputs.map (·.coin)).reduceOption).map some = tx.inputs.map (·.coin) := by
    generalize tx.inputs = inputs at hCoins
    induction inputs with
    | nil => rfl
    | cons input inputs ih =>
      obtain ⟨coin, hCoin⟩ := isSome_iff_exists.mp (hCoins input mem_cons_self)
      rw [map_cons, hCoin, reduceOption_cons_of_some, map_cons,
        ih fun i hi => hCoins i (mem_cons_of_mem _ hi)]
  have hGet : ∀ coin, ((tx.inputs.map (·.coin)).reduceOption)[idx]? = some coin ↔
      ∃ input, tx.inputs[idx]? = some input ∧ input.coin = some coin := by
    intro coin
    have hSome := congrArg (·[idx]?) hReduce
    simp only [getElem?_map] at hSome
    constructor
    · intro h
      rw [h] at hSome
      exact map_eq_some_iff.mp hSome.symm
    · intro h
      rw [map_eq_some_iff.mpr h] at hSome
      obtain ⟨_, h', hEq⟩ := map_eq_some_iff.mp hSome
      rw [h', Option.some.inj hEq]
  simp only [scriptMembers, hAll, List.mem_map, Prod.exists, mem_zipIdx_iff_getElem?, Prod.mk.injEq]
  constructor
  · rintro ⟨coin, _, hCoin, rfl, rfl⟩
    obtain ⟨input, hInput, hSame⟩ := (hGet coin).mp hCoin
    exact ⟨input, coin, hInput, hSame, rfl⟩
  · rintro ⟨input, coin, hInput, hCoin, rfl⟩
    exact ⟨coin, idx, (hGet coin).mpr ⟨input, hInput, hCoin⟩, rfl, rfl⟩

theorem nodup_scriptMembers (tx : Tx) :
    (scriptMembers tx).inputs.Nodup ∧ (scriptMembers tx).outputs.Nodup := by
  constructor
  · refine pairwise_map.mpr ((pairwise_zipIdx _).imp fun {p q} hne hEq => hne ?_)
    exact (Prod.mk.inj hEq).1
  · refine nodup_filterMap_zipIdx _ fun p b hb => ?_
    dsimp only at hb
    split at hb
    · cases hb
    · cases hb
      rfl

end Scripts

/-! ## Token IDs -/

section Tokens

variable {tx : Tx} {tokens : MempoolTokens} {idx : Nat} {member : Bytes}

theorem mem_serTokenMembers {ids : MaybeTokenIds} : (idx, member) ∈ serTokenMembers ids ↔
    ∃ id, ids[idx]? = some (some id) ∧ id.val.reverse = member := by
  simp only [serTokenMembers, TokenIdGroupAux.members, List.mem_map, mem_filterMap,
    Prod.exists, mem_zipIdx_iff_getElem?, map_eq_some_iff, Prod.mk.injEq]
  constructor
  · rintro ⟨_, _, ⟨_, _, hId, id, rfl, rfl, rfl⟩, rfl, rfl⟩
    exact ⟨id, hId, rfl⟩
  · rintro ⟨id, hId, rfl⟩
    exact ⟨idx, id, ⟨some id, idx, hId, id, rfl, rfl, rfl⟩, rfl, rfl⟩

theorem nodup_serTokenMembers (ids : MaybeTokenIds) : (serTokenMembers ids).Nodup := by
  refine List.Nodup.map_on ?_ (nodup_filterMap_zipIdx ids fun p b hb => ?_)
  · rintro ⟨i, id⟩ - ⟨i', id'⟩ - hEq
    simp only [Prod.mk.injEq] at hEq
    exact Prod.ext hEq.1 (Subtype.ext (reverse_injective hEq.2))
  · obtain ⟨id, -, rfl⟩ := map_eq_some_iff.mp hb
    rfl

theorem nodup_tokenIdMembers (tx : Tx) (tokens : MempoolTokens) :
    (tokenIdMembers tx tokens).inputs.Nodup ∧ (tokenIdMembers tx tokens).outputs.Nodup := by
  unfold tokenIdMembers
  split
  · exact ⟨nodup_nil, nodup_nil⟩
  · exact ⟨nodup_serTokenMembers _, nodup_serTokenMembers _⟩

/-- The tokens of a transaction's inputs that were found when it was inserted. -/
def inputTokens (tokens : MempoolTokens) (tx : Tx) : List (Option SpentToken) :=
  tokens.txTokenInputs[tx.txid]?.getD (List.replicate tx.inputs.length none)

theorem mem_tokenIdMembers_inputs {tokenTx : TokenTx}
    (h : tokens.tokenTxs[tx.txid]? = some tokenTx) :
    (idx, member) ∈ (tokenIdMembers tx tokens).inputs ↔
      ∃ spent, (inputTokens tokens tx)[idx]? = some (some spent) ∧
        spent.id.val.reverse = member := by
  have hIds : (tokenIdMembers tx tokens).inputs =
      serTokenMembers ((inputTokens tokens tx).map (Option.map SpentToken.id)) := by
    unfold tokenIdMembers TokenIdGroupAux.fromMempool inputTokens
    rw [h]
    cases tokens.txTokenInputs[tx.txid]? with
    | none => simp
    | some spent => rfl
  rw [hIds, mem_serTokenMembers]
  simp only [getElem?_map, map_eq_some_iff]
  constructor
  · rintro ⟨_, ⟨_, hSpent, spent, rfl, rfl⟩, rfl⟩
    exact ⟨spent, hSpent, rfl⟩
  · rintro ⟨spent, hSpent, rfl⟩
    exact ⟨_, ⟨_, hSpent, spent, rfl, rfl⟩, rfl⟩

theorem mem_tokenIdMembers_outputs {tokenTx : TokenTx}
    (h : tokens.tokenTxs[tx.txid]? = some tokenTx) :
    (idx, member) ∈ (tokenIdMembers tx tokens).outputs ↔
      ∃ output spent, tokenTx.outputs[idx]? = some (some output) ∧
        tokenTx.spentToken output = some spent ∧ spent.id.val.reverse = member := by
  have hIds : (tokenIdMembers tx tokens).outputs = serTokenMembers tokenTx.outputTokenIds := by
    unfold tokenIdMembers TokenIdGroupAux.fromMempool
    rw [h]
    rfl
  rw [hIds, mem_serTokenMembers]
  simp only [TokenTx.outputTokenIds, getElem?_map, map_eq_some_iff, bind_eq_some_iff]
  constructor
  · rintro ⟨_, ⟨_, hOutput, spent, ⟨output, rfl, hSpent⟩, rfl⟩, rfl⟩
    exact ⟨output, spent, hOutput, hSpent, rfl⟩
  · rintro ⟨output, spent, hOutput, hSpent, rfl⟩
    exact ⟨_, ⟨_, hOutput, spent, ⟨output, rfl, hSpent⟩, rfl⟩, rfl⟩

theorem tokenIdMembers_of_none (h : tokens.tokenTxs[tx.txid]? = none) :
    tokenIdMembers tx tokens = ⟨[], []⟩ := by
  rw [tokenIdMembers, TokenIdGroupAux.fromMempool, h]
  rfl

end Tokens

/-! ## Plugin groups -/

section Plugins

variable {tx : Tx} {aux aux' : Column OutPoint PluginOutput} {idx : Nat} {member : Bytes}

theorem mem_pluginMembers_inputs : (idx, member) ∈ (pluginMembers tx aux).inputs ↔
    ∃ input output, tx.inputs[idx]? = some input ∧ aux[input.prevOut]? = some output ∧
      member ∈ output.members := by
  simp only [pluginMembers, mem_flatMap, Prod.exists, mem_zipIdx_iff_getElem?,
    List.mem_map, Prod.mk.injEq]
  constructor
  · rintro ⟨input, _, hInput, _, hMember, rfl, rfl⟩
    cases hOutput : aux[input.prevOut]? with
    | none =>
      rw [hOutput] at hMember
      cases hMember
    | some output =>
      rw [hOutput] at hMember
      exact ⟨input, output, hInput, hOutput, hMember⟩
  · rintro ⟨input, output, hInput, hOutput, hMember⟩
    exact ⟨input, idx, hInput, member, by rw [hOutput]; exact hMember, rfl, rfl⟩

theorem mem_pluginMembers_outputs : (idx, member) ∈ (pluginMembers tx aux).outputs ↔
    idx < tx.outputs.length ∧ ∃ output, aux[(⟨tx.txid, idx⟩ : OutPoint)]? = some output ∧
      member ∈ output.members := by
  simp only [pluginMembers, mem_flatMap, mem_range, List.mem_map, Prod.mk.injEq]
  constructor
  · rintro ⟨i, hi, _, hMember, rfl, rfl⟩
    cases hOutput : aux[(⟨tx.txid, i⟩ : OutPoint)]? with
    | none =>
      rw [hOutput] at hMember
      cases hMember
    | some output =>
      rw [hOutput] at hMember
      exact ⟨hi, output, rfl, hMember⟩
  · rintro ⟨hIdx, output, hOutput, hMember⟩
    exact ⟨idx, hIdx, member, by rw [hOutput]; exact hMember, rfl, rfl⟩

theorem nodup_pluginMembers (tx : Tx)
    (h : ∀ (o : OutPoint) output, aux[o]? = some output → output.members.Nodup) :
    (pluginMembers tx aux).inputs.Nodup ∧ (pluginMembers tx aux).outputs.Nodup := by
  have hElim : ∀ o : OutPoint, (aux[o]?.elim [] PluginOutput.members).Nodup := by
    intro o
    cases ho : aux[o]? with
    | none => exact nodup_nil
    | some output => exact h o output ho
  refine ⟨nodup_flatMap_zipIdx
    (fun input : TxInput => aux[input.prevOut]?.elim [] PluginOutput.members) tx.inputs
    fun input _ => hElim input.prevOut, ?_⟩
  refine nodup_flatMap.mpr ⟨fun i _ => ?_, ?_⟩
  · exact (hElim _).map fun b b' hEq => (Prod.mk.inj hEq).2
  · refine nodup_range.imp fun {i j} hne => ?_
    rintro ⟨idx, b⟩ hIn hIn'
    obtain ⟨_, -, hEq⟩ := List.mem_map.mp hIn
    obtain ⟨_, -, hEq'⟩ := List.mem_map.mp hIn'
    exact hne ((Prod.mk.inj hEq).1.trans (Prod.mk.inj hEq').1.symm)

/-- Only the outputs that the transaction spends and has are looked at. -/
theorem pluginMembers_congr
    (hInputs : ∀ input ∈ tx.inputs, aux[input.prevOut]? = aux'[input.prevOut]?)
    (hOutputs : ∀ idx < tx.outputs.length,
      aux[(⟨tx.txid, idx⟩ : OutPoint)]? = aux'[(⟨tx.txid, idx⟩ : OutPoint)]?) :
    pluginMembers tx aux = pluginMembers tx aux' := by
  unfold pluginMembers
  congr 1
  · refine flatMap_congr fun p hp => ?_
    obtain ⟨input, idx⟩ := p
    dsimp only
    rw [hInputs input (mem_of_getElem? (mem_zipIdx_iff_getElem?.mp hp))]
  · refine flatMap_congr fun i hi => ?_
    rw [hOutputs i (mem_range.mp hi)]

end Plugins

end Ergon
