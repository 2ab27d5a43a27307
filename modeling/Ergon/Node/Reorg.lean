import Ergon.Lib.Machine
import Ergon.Node.Coins

/-!
# Ergon — the coins through reorganisations

`ConnectTip` and `DisconnectTip` (`validation.cpp`) on the active chain above the
genesis block, which has no coins. Of `ConnectBlock` the checks that undoing rests on
are spelled out; `valid` is all the others.
-/

namespace Ergon.Reorg

open Lib List CoinMap

/-- The active chain with the undo data of its blocks, the tip first, and its coins. -/
structure State where
  blocks : List (List Tx × List (List Coin))
  coins : CoinMap

theorem unspent_empty : ∀ (out : OutPoint) (c : Coin),
    (∅ : Column OutPoint Coin)[out]? = some c → c.isSpent = false := by
  simp

def init : State := ⟨[], ∅, unspent_empty⟩

/-- `CheckBlock`: the first transaction, and no other, is a coinbase. -/
def checkCoinBase (cb : Tx) (txs : List Tx) : Prop :=
  cb.isCoinBase = true ∧ ∀ tx ∈ txs, tx.isCoinBase = false
deriving Decidable

/-- BIP30, always enforced on the main network: no block of it has `BIP34Hash`. -/
def overwritesNone (m : CoinMap) (vtx : List Tx) : Prop :=
  ∀ tx ∈ vtx, ∀ o ∈ tx.outputs.zipIdx, m.haveCoin ⟨tx.txid, o.2⟩ = false
deriving Decidable

variable (valid : State → List Tx → Bool)

def connectTip (s : State) : List Tx → Option State
  | [] => none
  | cb :: txs => do
    guard (checkCoinBase cb txs ∧ overwritesNone s.coins (cb :: txs) ∧ valid s (cb :: txs))
    let (undos, coins) ← s.coins.connectCoins (s.blocks.length + 1 : Nat) (cb :: txs)
    return ⟨(cb :: txs, undos) :: s.blocks, coins⟩

/-- Without `DISCONNECT_OK` the node aborts. -/
def disconnectTip : State → Option State
  | ⟨[], _⟩ => none
  | ⟨(vtx, undos) :: blocks, coins⟩ =>
    match coins.applyBlockUndo (blocks.length + 1 : Nat) vtx undos with
    | .ok (.ok, coins) => some ⟨blocks, coins⟩
    | _ => none

inductive Action
  | connectTip (vtx : List Tx)
  | disconnectTip

def step (s : State) : Action → Option State
  | .connectTip vtx => connectTip valid s vtx
  | .disconnectTip => disconnectTip s

/-- No coin is from the genesis block, and all can be spent. -/
def CoinsOk (m : CoinMap) : Prop :=
  ∀ (out : OutPoint) (c : Coin), m.coins[out]? = some c → 0 < c.height ∧ c.isUnspendable = false

variable {valid} {s t : State} {vtx : List Tx}

theorem CoinsOk.adds {m mid : CoinMap} {height : Int} (hOk : CoinsOk m) (hHeight : 0 < height)
    (h : Adds m (vtx.flatMap (createdCoins height)) mid) : CoinsOk mid := by
  intro out c hc
  by_cases hNew : ∃ c', (out, c') ∈ vtx.flatMap (createdCoins height)
  · obtain ⟨c', hc'⟩ := hNew
    cases (h.getElem?_of_mem hc').symm.trans hc
    exact ⟨(createdCoins_spec hc').1 ▸ hHeight, (createdCoins_spec hc').2⟩
  · rw [h.getElem?_of_not_mem fun c' hc' => hNew ⟨c', hc'⟩] at hc
    exact hOk out c hc

/-- The tip's undo data leads back to the state before it. -/
theorem disconnectTip_connectTip (hOk : CoinsOk s.coins) (h : connectTip valid s vtx = some t) :
    CoinsOk t.coins ∧ disconnectTip t = some s := by
  cases vtx with
  | nil => cases h
  | cons cb txs =>
    simp only [connectTip, Option.bind_eq_bind, Option.bind_eq_some_iff, Option.guard_eq_some',
      Prod.exists] at h
    obtain ⟨-, ⟨hCb, hNew, -⟩, undos, coins, hConnect, hEq⟩ := h
    cases hEq
    have hFresh : ∀ p ∈ createdCoins (s.blocks.length + 1 : Nat) cb,
        s.coins.coins[p.1]? = none := by
      intro p hp
      obtain ⟨o, ho, rfl⟩ := mem_map.mp hp
      exact haveCoin_eq_false.mp (hNew cb mem_cons_self o (mem_of_mem_filter ho))
    obtain ⟨-, -, mid, hAdds, hRemoves⟩ := connectCoins_spec hCb.1 hCb.2 hConnect hFresh
    have hMid := hOk.adds (by omega) hAdds
    obtain ⟨m, hUndo, -, hKept⟩ := applyBlockUndo_spec hCb.1 hCb.2 hConnect hFresh (by omega)
      fun _ _ _ _ c hc => (hOk _ c hc).1
    -- only unspendable coins would be lost, and there are none
    have hBack : m = s.coins :=
      ext_coins fun out => hKept out fun c hc => (hMid out c (hRemoves.held _ hc)).2
    refine ⟨fun out c hc => hMid out c ?_, by simp only [disconnectTip, hUndo, hBack]⟩
    rw [hRemoves.getElem?, Option.ite_none_left_eq_some] at hc
    exact hc.2

theorem disconnectTip_of_connects (h : Reaches (connectTip valid) init s) :
    s = init ∨ ∃ s', Reaches (connectTip valid) init s' ∧ disconnectTip s = some s' := by
  cases h with
  | refl => exact .inl rfl
  | tail vtx h hConnect =>
    have hOk := h.invariant (I := fun t => CoinsOk t.coins) (fun _ _ hc => by simp [init] at hc)
      fun _ _ _ hOk hStep => (disconnectTip_connectTip hOk hStep).1
    exact .inr ⟨_, h, (disconnectTip_connectTip hOk hConnect).2⟩

/-- **A reorganisation leaves no trace.** Chain, undo data and coins after any run are those
of a node that only connected blocks, and so they are with the tip disconnected. -/
theorem connects_of_reaches (h : Reaches (step valid) init s) :
    Reaches (connectTip valid) init s ∧
      (s = init ∨ ∃ s', Reaches (connectTip valid) init s' ∧ disconnectTip s = some s') := by
  have hRun := h.invariant .refl fun t a u (hRun : Reaches (connectTip valid) init t) hStep => by
    cases a with
    | connectTip vtx => exact hRun.tail vtx hStep
    | disconnectTip =>
      obtain rfl | ⟨s', hRun', hBack⟩ := disconnectTip_of_connects hRun
      · cases hStep
      · cases hBack.symm.trans hStep
        exact hRun'
  exact ⟨hRun, disconnectTip_of_connects hRun⟩

/-- The first block is replaced. -/
def sampleRun : List Action := [.connectTip [sampleCoinBase], .disconnectTip,
  .connectTip [sampleCoinBase, sampleTx 3 ⟨sampleId 2, 0⟩]]

theorem sampleRun_connects : ∃ s, sampleRun.foldlM (step fun _ _ => true) init = some s ∧
    Reaches (connectTip fun _ _ => true) init s := by
  obtain ⟨s, hs⟩ := Option.isSome_iff_exists.mp (by decide +kernel :
    (sampleRun.foldlM (step fun _ _ => true) init).isSome = true)
  exact ⟨s, hs, (connects_of_reaches (.of_run hs)).1⟩

end Ergon.Reorg
