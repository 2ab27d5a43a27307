import Ergon.Slp.Verify

/-!
# Ergon — stored token data

How the index stores the tokens of a transaction
(`chronik-db/src/io/token/data.rs`): tokens are indices into the list of the
transactions that created them, and a separate map links an NFT to its group.

* `DbTokenTx.indexedToken_eq_ok` — what a stored token reads back as.
-/

namespace Ergon

open Lib

/-- What can stop the token index. The last two are panics of the source:
indexing a slice out of bounds, and a token that is not in the list it is
looked up in. -/
inductive TokenError
  | cycle
  | missingTokenTxNum (txNum : TxNum)
  | missingTxInputCoin (prevOut : OutPoint)
  | tokenTxNumNotFound (txNum : TxNum)
  | outOfBounds
  | metaNotListed
deriving DecidableEq

def flagsHasMintVault : UInt8 := 1

inductive DbToken
  | noToken
  | atoms (idx n : Nat)
  | mintBaton (idx : Nat)
  | unknownSlp (byte : UInt8)
  | unknownAlp (byte : UInt8)
deriving DecidableEq

structure DbTokenTx where
  tokenTxNums : List TxNum
  -- from an index of `tokenTxNums` to another
  groupTokenIndices : Column Nat Nat
  inputs : List DbToken
  outputs : List DbToken
  flags : UInt8

namespace DbToken

def withIdx (t : DbToken) (idx : Nat) : DbToken :=
  match t with
  | .atoms _ n => .atoms idx n
  | .mintBaton _ => .mintBaton idx
  | t => t

def tokenNumIdx : DbToken → Option Nat
  | .noToken => none
  | .atoms idx _ => some idx
  | .mintBaton idx => some idx
  | .unknownSlp _ => none
  | .unknownAlp _ => none

end DbToken

/-- An output or input marked by a payload of unknown type. -/
def unknownToken (tokenType : TokenType) (byte : UInt8) : SpentToken :=
  ⟨⟨⟨TxId.zero, tokenType⟩, .unknown byte⟩, none⟩

namespace DbTokenTx

def tokenTxNum (d : DbTokenTx) (t : DbToken) : Option TxNum :=
  t.tokenNumIdx.bind fun idx => d.tokenTxNums[idx]?

def groupTokenTxNum (d : DbTokenTx) (t : DbToken) : Option TxNum :=
  t.tokenNumIdx.bind fun idx => d.groupTokenIndices[idx]?.bind fun groupIdx =>
    d.tokenTxNums[groupIdx]?

/-- The creator of the group that the token at an index is linked to. -/
def groupTxNumAt (d : DbTokenTx) (idx : Nat) : Except TokenError (Option TxNum) :=
  match d.groupTokenIndices[idx]? with
  | none => .ok none
  | some groupIdx => (orElse d.tokenTxNums[groupIdx]? .outOfBounds).map some

/-- Read the token at an index, with the group it is linked to. -/
def indexedToken (d : DbTokenTx) (fnMeta : TxNum → Except TokenError TokenMeta) (idx : Nat)
    (variant : TokenVariant) : Except TokenError (Option SpentToken) := do
  let groupTokenTxNum ← d.groupTxNumAt idx
  let tokenTxNum ← orElse d.tokenTxNums[idx]? .outOfBounds
  let tokenMeta ← fnMeta tokenTxNum
  match groupTokenTxNum with
  | none => return some ⟨⟨tokenMeta, variant⟩, none⟩
  | some groupTxNum =>
    let groupTokenMeta ← fnMeta groupTxNum
    return some ⟨⟨tokenMeta, variant⟩, some groupTokenMeta⟩

def spentToken (d : DbTokenTx) (t : DbToken) (fnMeta : TxNum → Except TokenError TokenMeta) :
    Except TokenError (Option SpentToken) :=
  match t with
  | .noToken => .ok none
  | .atoms idx n => d.indexedToken fnMeta idx (.atoms n)
  | .mintBaton idx => d.indexedToken fnMeta idx .mintBaton
  | .unknownSlp byte => .ok (some (unknownToken (.slp (.unknown byte)) byte))
  | .unknownAlp byte => .ok (some (unknownToken (.alp (.unknown byte)) byte))

/-! ## Reading back -/

section Reading

variable {d : DbTokenTx} {fnMeta : TxNum → Except TokenError TokenMeta}

/-- The group that is read for the token at `idx`. -/
def ReadsGroup (d : DbTokenTx) (fnMeta : TxNum → Except TokenError TokenMeta) (idx : Nat)
    (group : Option TokenMeta) : Prop :=
  match d.groupTokenIndices[idx]? with
  | none => group = none
  | some groupIdx =>
    ∃ n m, d.tokenTxNums[groupIdx]? = some n ∧ fnMeta n = .ok m ∧ group = some m

/-- The token `m` of group `group` is read at `idx`. -/
def ReadsToken (d : DbTokenTx) (fnMeta : TxNum → Except TokenError TokenMeta) (idx : Nat)
    (m : TokenMeta) (group : Option TokenMeta) : Prop :=
  (∃ n, d.tokenTxNums[idx]? = some n ∧ fnMeta n = .ok m) ∧ d.ReadsGroup fnMeta idx group

variable {r : Option SpentToken}

theorem indexedToken_eq_ok {idx : Nat} {variant : TokenVariant} :
    d.indexedToken fnMeta idx variant = .ok r ↔
      ∃ m group, d.ReadsToken fnMeta idx m group ∧ r = some ⟨⟨m, variant⟩, group⟩ := by
  unfold indexedToken ReadsToken ReadsGroup groupTxNumAt
  cases d.groupTokenIndices[idx]? with
  | none =>
    constructor
    · intro h
      obtain ⟨_, hNone, h⟩ := bind_eq_ok.mp h
      cases hNone
      obtain ⟨n, hn, h⟩ := bind_eq_ok.mp h
      obtain ⟨m, hm, h⟩ := bind_eq_ok.mp h
      exact ⟨m, none, ⟨⟨n, orElse_eq_ok.mp hn, hm⟩, rfl⟩, (pure_eq_ok.mp h).symm⟩
    · rintro ⟨m, g, ⟨⟨n, hn, hm⟩, rfl⟩, rfl⟩
      refine bind_eq_ok.mpr ⟨none, rfl, ?_⟩
      exact bind_eq_ok.mpr ⟨n, orElse_eq_ok.mpr hn, bind_eq_ok.mpr ⟨m, hm, rfl⟩⟩
  | some groupIdx =>
    constructor
    · intro h
      obtain ⟨_, hGroup, h⟩ := bind_eq_ok.mp h
      obtain ⟨gn, hgn, rfl⟩ := map_eq_ok.mp hGroup
      obtain ⟨n, hn, h⟩ := bind_eq_ok.mp h
      obtain ⟨m, hm, h⟩ := bind_eq_ok.mp h
      obtain ⟨gm, hgm, h⟩ := bind_eq_ok.mp h
      exact ⟨m, some gm, ⟨⟨n, orElse_eq_ok.mp hn, hm⟩, gn, gm, orElse_eq_ok.mp hgn, hgm, rfl⟩,
        (pure_eq_ok.mp h).symm⟩
    · rintro ⟨m, g, ⟨⟨n, hn, hm⟩, gn, gm, hgn, hgm, rfl⟩, rfl⟩
      refine bind_eq_ok.mpr ⟨some gn, map_eq_ok.mpr ⟨gn, orElse_eq_ok.mpr hgn, rfl⟩, ?_⟩
      refine bind_eq_ok.mpr ⟨n, orElse_eq_ok.mpr hn, bind_eq_ok.mpr ⟨m, hm, ?_⟩⟩
      exact bind_eq_ok.mpr ⟨gm, hgm, rfl⟩

theorem groupTxNumAt_mem {idx : Nat} {n : TxNum} (h : d.groupTxNumAt idx = .ok (some n)) :
    n ∈ d.tokenTxNums := by
  unfold groupTxNumAt at h
  split at h
  · cases h
  · obtain ⟨a, ha, hEq⟩ := map_eq_ok.mp h
    cases hEq
    exact List.mem_of_getElem? (orElse_eq_ok.mp ha)

variable {fnMeta' : TxNum → Except TokenError TokenMeta}

/-- Reading a token only asks for the transactions that are listed. -/
theorem spentToken_congr (h : ∀ n ∈ d.tokenTxNums, fnMeta n = fnMeta' n) (t : DbToken) :
    d.spentToken t fnMeta = d.spentToken t fnMeta' := by
  have hIndexed : ∀ idx variant,
      d.indexedToken fnMeta idx variant = d.indexedToken fnMeta' idx variant := by
    intro idx variant
    unfold indexedToken
    cases hGroup : d.groupTxNumAt idx with
    | error e => rfl
    | ok group =>
      cases hNum : d.tokenTxNums[idx]? with
      | none => rfl
      | some n =>
        change (fnMeta n >>= _) = (fnMeta' n >>= _)
        rw [h n (List.mem_of_getElem? hNum)]
        cases group with
        | none => rfl
        | some gn => simp only [h gn (groupTxNumAt_mem hGroup)]
  cases t with
  | atoms idx n => exact hIndexed idx (.atoms n)
  | mintBaton idx => exact hIndexed idx .mintBaton
  | noToken => rfl
  | unknownSlp byte => rfl
  | unknownAlp byte => rfl

/-- Knowing more transactions does not change what is read. -/
theorem spentToken_mono (h : ∀ n m, fnMeta n = .ok m → fnMeta' n = .ok m) {t : DbToken}
    (hr : d.spentToken t fnMeta = .ok r) : d.spentToken t fnMeta' = .ok r := by
  have hIndexed : ∀ idx variant, d.indexedToken fnMeta idx variant = .ok r →
      d.indexedToken fnMeta' idx variant = .ok r := by
    intro idx variant hr
    obtain ⟨m, group, ⟨⟨n, hn, hm⟩, hGroup⟩, rfl⟩ := indexedToken_eq_ok.mp hr
    refine indexedToken_eq_ok.mpr ⟨m, group, ⟨⟨n, hn, h n m hm⟩, ?_⟩, rfl⟩
    unfold ReadsGroup at hGroup ⊢
    split at hGroup
    · exact hGroup
    · obtain ⟨gn, gm, hgn, hgm, hEq⟩ := hGroup
      exact ⟨gn, gm, hgn, h gn gm hgm, hEq⟩
  cases t with
  | atoms idx n => exact hIndexed idx (.atoms n) hr
  | mintBaton idx => exact hIndexed idx .mintBaton hr
  | noToken => exact hr
  | unknownSlp byte => exact hr
  | unknownAlp byte => exact hr

end Reading

end DbTokenTx

end Ergon
