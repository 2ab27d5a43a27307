import Ergon.Lib.Lists
import Ergon.Slp.ParseAlp

/-!
# Ergon — colouring transactions

`ColoredTx::color_tx` (`bitcoinsuite-slp/src/color.rs`) reads the payload of a
transaction and assigns tokens to its outputs, without looking at what the
transaction spends. The colouring of `GENESIS`, `MINT` and `SEND` is one
definition over the list of outputs to colour.

* `colorTx_wellFormed` — what holds of every coloured transaction;
* `colorSection_slp` — colouring an SLP payload never fails.
-/

namespace Ergon

open Lib List

structure ColoredTxSection where
  tokenMeta : TokenMeta
  txType : TxType
  requiredInputSum : Nat
  hasColoredOutOfRange : Bool
  genesisInfo : Option GenesisInfo
deriving DecidableEq

/-- Types of token whose mints are authorised by a mint vault. -/
def ColoredTxSection.isMintVaultMint (s : ColoredTxSection) : Bool :=
  s.txType = .mint ∧ s.tokenMeta.tokenType = .slp .mintVault

structure IntentionalBurn where
  tokenMeta : TokenMeta
  atoms : Nat
deriving DecidableEq

inductive TokenParseError
  | empp (err : Empp.ParseError)
  | slp (err : Slp.ParseError)
  | alp (err : Alp.ParseError)
deriving DecidableEq

structure FailedParsing where
  pushdataIdx : Option Nat
  bytes : Bytes
  error : TokenParseError
deriving DecidableEq

inductive ColorError
  | tooFewOutputs (expected actual : Nat)
  | genesisMustBeFirst
  | descendingTokenType (before after : UInt8)
  | duplicateTokenId (prevSectionIdx : Nat) (tokenId : TokenId)
  | duplicateIntentionalBurnTokenId (prevBurnIdx burnIdx : Nat) (tokenId : TokenId)
  | overlappingAtoms (prevToken : Option Token) (outputIdx atoms : Nat)
  | overlappingMintBaton (prevToken : Option Token) (outputIdx : Nat)
deriving DecidableEq

structure FailedColoring where
  pushdataIdx : Nat
  parsed : ParsedData
  error : ColorError
deriving DecidableEq

structure ColoredTx where
  sections : List ColoredTxSection
  intentionalBurns : List IntentionalBurn
  outputs : List (Option TokenOutput)
  failedParsings : List FailedParsing
  failedColorings : List FailedColoring
deriving DecidableEq

namespace ColoredTx

/-- The token of a coloured output. -/
def token (c : ColoredTx) (o : TokenOutput) : Option Token :=
  c.sections[o.tokenIdx]?.map fun s => ⟨s.tokenMeta, o.variant⟩

/-! ## Colouring outputs -/

/-- The outputs that nonzero amounts go to, the first after the `OP_RETURN`. -/
def atomsTargets (atoms : List Nat) : List (Nat × TokenVariant) :=
  ((atoms.zipIdx 1).filter fun (amount, _) => amount ≠ 0).map
    fun (amount, idx) => (idx, .atoms amount)

/-- Amounts, then mint batons on the outputs right after them. -/
def mintTargets (mintData : ParsedMintData) : List (Nat × TokenVariant) :=
  atomsTargets mintData.atomsVec ++
    (List.range mintData.numBatons).map
      fun idx => (1 + mintData.atomsVec.length + idx, .mintBaton)

/-- Check that nothing colours the output yet; remembers in `outOfRange` the
last index past the outputs. -/
def checkTarget (c : ColoredTx) (outOfRange : Option Nat) :
    Nat × TokenVariant → Except ColorError (Option Nat)
  | (idx, variant) =>
    match c.outputs[idx]? with
    | none => .ok (some idx)
    | some none => .ok outOfRange
    | some (some prev) =>
      match variant with
      | .atoms amount => .error (.overlappingAtoms (c.token prev) idx amount)
      | _ => .error (.overlappingMintBaton (c.token prev) idx)

/-- Colour the outputs for the section about to be added; indices past the
outputs are dropped, which ALP forbids. Gives whether there were any. -/
def colorTargets (c : ColoredTx) (tokenMeta : TokenMeta) (targets : List (Nat × TokenVariant)) :
    Except ColorError (List (Option TokenOutput) × Bool) := do
  let outOfRange ← targets.foldlM c.checkTarget none
  ensure (outOfRange = none ∨ tokenMeta.tokenType.isAlp = false)
    (.tooFewOutputs (outOfRange.getD 0 + 1) c.outputs.length)
  let outputs := targets.foldl
    (fun outs (idx, variant) => outs.set idx (some ⟨c.sections.length, variant⟩)) c.outputs
  return (outputs, outOfRange.isSome)

/-! ## Colouring sections -/

def addSection (c : ColoredTx) (s : ColoredTxSection) (outputs : List (Option TokenOutput)) :
    ColoredTx :=
  { c with sections := c.sections ++ [s], outputs := outputs }

def colorGenesis (c : ColoredTx) (pushdataIdx : Nat) (tokenMeta : TokenMeta) (info : GenesisInfo)
    (mintData : ParsedMintData) : Except ColorError ColoredTx := do
  -- so that no other section can carry the same token id
  ensure (pushdataIdx = 0) .genesisMustBeFirst
  let (outputs, outOfRange) ← c.colorTargets tokenMeta (mintTargets mintData)
  return c.addSection ⟨tokenMeta, .genesis, 0, outOfRange, some info⟩ outputs

def colorMint (c : ColoredTx) (tokenMeta : TokenMeta) (mintData : ParsedMintData) :
    Except ColorError ColoredTx := do
  let (outputs, outOfRange) ← c.colorTargets tokenMeta (mintTargets mintData)
  return c.addSection ⟨tokenMeta, .mint, 0, outOfRange, none⟩ outputs

def colorSend (c : ColoredTx) (tokenMeta : TokenMeta) (atoms : List Nat) :
    Except ColorError ColoredTx := do
  let (outputs, outOfRange) ← c.colorTargets tokenMeta (atomsTargets atoms)
  -- amounts past the outputs have to be paid for too
  return c.addSection ⟨tokenMeta, .send, atoms.sum, outOfRange, none⟩ outputs

def colorBurn (c : ColoredTx) (tokenMeta : TokenMeta) (atoms : Nat) :
    Except ColorError ColoredTx := do
  match c.intentionalBurns.findIdx? fun prev => prev.tokenMeta.tokenId = tokenMeta.tokenId with
  | some prevBurnIdx =>
    .error (.duplicateIntentionalBurnTokenId prevBurnIdx c.intentionalBurns.length
      tokenMeta.tokenId)
  | none => return { c with intentionalBurns := c.intentionalBurns ++ [⟨tokenMeta, atoms⟩] }

/-- Mark every output that has no colour yet, the `OP_RETURN` excepted. -/
def colorUnknown (c : ColoredTx) (tokenMeta : TokenMeta) : ColoredTx :=
  let mark : TokenOutput := ⟨c.sections.length, .unknown tokenMeta.tokenType.toU8⟩
  c.addSection ⟨tokenMeta, .unknown, 0, false, none⟩
    (c.outputs.take 1 ++ (c.outputs.drop 1).map fun o => some (o.getD mark))

def colorParsed (c : ColoredTx) (pushdataIdx : Nat) (parsed : ParsedData) :
    Except ColorError ColoredTx :=
  match parsed.txType with
  | .genesis info mintData => c.colorGenesis pushdataIdx parsed.tokenMeta info mintData
  | .mint mintData => c.colorMint parsed.tokenMeta mintData
  | .send atoms => c.colorSend parsed.tokenMeta atoms
  | .burn atoms => c.colorBurn parsed.tokenMeta atoms
  | .unknown => .ok (c.colorUnknown parsed.tokenMeta)

/-- Only a `MINT` or `SEND` of a token id that has a section already is a
duplicate. -/
def checkDuplicate (c : ColoredTx) (parsed : ParsedData) : Except ColorError Unit :=
  if parsed.txType.txType = .mint ∨ parsed.txType.txType = .send then
    match c.sections.findIdx? fun prev => prev.tokenMeta.tokenId = parsed.tokenMeta.tokenId with
    | some prevSectionIdx => .error (.duplicateTokenId prevSectionIdx parsed.tokenMeta.tokenId)
    | none => .ok ()
  else .ok ()

/-- Colour one payload. Token types must not descend from one payload to the
next; `maxTokenType` is where they are after `maxTokenTypeAfter`. -/
def colorSection (c : ColoredTx) (pushdataIdx : Nat) (parsed : ParsedData)
    (maxTokenType : UInt8) : Except ColorError ColoredTx := do
  let tokenType := parsed.tokenMeta.tokenType.toU8
  ensure (maxTokenType ≤ tokenType) (.descendingTokenType maxTokenType tokenType)
  c.checkDuplicate parsed
  c.colorParsed pushdataIdx parsed

/-- The running maximum moves even if the payload then fails to colour. -/
def maxTokenTypeAfter (parsed : ParsedData) (maxTokenType : UInt8) : UInt8 :=
  max maxTokenType parsed.tokenMeta.tokenType.toU8

/-! ## Colouring transactions -/

/-- What the loop over the pushes keeps. -/
structure AlpState where
  colored : ColoredTx
  maxTokenType : UInt8
  hasAnyAlp : Bool

def colorAlpPushdata (txid : TxId) (s : AlpState) : Bytes × Nat → AlpState
  | (pushdata, pushdataIdx) =>
    match Alp.parseSection txid pushdata with
    | .ok none => s
    | .error err =>
      { s with
        colored := { s.colored with
          failedParsings := s.colored.failedParsings ++ [⟨some pushdataIdx, pushdata, .alp err⟩] }
        hasAnyAlp := true }
    | .ok (some parsed) =>
      { colored :=
          match s.colored.colorSection pushdataIdx parsed s.maxTokenType with
          | .ok colored => colored
          | .error err =>
            { s.colored with
              failedColorings := s.colored.failedColorings ++ [⟨pushdataIdx, parsed, err⟩] }
        maxTokenType := maxTokenTypeAfter parsed s.maxTokenType
        hasAnyAlp := true }

def colorAllAlpPushdata (c : ColoredTx) (txid : TxId) (pushdata : List Bytes) : AlpState :=
  pushdata.zipIdx.foldl (colorAlpPushdata txid) ⟨c, 0, false⟩

/-- The uncoloured transaction. -/
def uncolored (tx : Tx) : ColoredTx :=
  ⟨[], [], List.replicate tx.outputs.length none, [], []⟩

def failed (tx : Tx) (script : Script) (error : TokenParseError) : ColoredTx :=
  { uncolored tx with failedParsings := [⟨none, script.bytecode, error⟩] }

end ColoredTx

open ColoredTx

/-- The tokens a transaction assigns to its outputs, `none` if it has nothing
to do with tokens. -/
def colorTx (tx : Tx) : Option ColoredTx := do
  let output ← tx.outputs.head?
  let opReturn := output.script
  guard opReturn.isOpreturn
  match Slp.parse tx.txid opReturn with
  | .ok (some parsed) =>
    match (uncolored tx).colorSection 0 parsed 0 with
    | .ok colored => return colored
    -- the source unwraps: see `colorSection_slp`
    | .error _ => return uncolored tx
  | .error slpError => return failed tx opReturn (.slp slpError)
  | .ok none =>
    match Empp.parse opReturn with
    | .error emppErr => return failed tx opReturn (.empp emppErr)
    | .ok none => none
    | .ok (some pushdata) =>
      let s := (uncolored tx).colorAllAlpPushdata tx.txid pushdata
      if s.hasAnyAlp then return s.colored else none

/-! ## What colouring guarantees -/

/-- What a section that read the payload of `txid` satisfies. -/
def ColoredTxSection.WellFormed (txid : TxId) (s : ColoredTxSection) : Prop :=
  match s.txType with
  | .genesis =>
    s.tokenMeta.tokenId = txid ∧ s.tokenMeta.tokenType.isKnown = true ∧ s.genesisInfo.isSome = true
  | .mint => s.tokenMeta.tokenType.isKnown = true ∧ s.genesisInfo = none
  | .send => s.tokenMeta.tokenType.isKnown = true ∧ s.genesisInfo = none
  | .unknown =>
    s.tokenMeta.tokenId = TxId.zero ∧ s.tokenMeta.tokenType.isKnown = false ∧ s.genesisInfo = none
  -- burns are kept apart
  | .burn => False

/-- Which holdings a section can give to an output. -/
def ColoredTxSection.Colors (s : ColoredTxSection) : TokenVariant → Prop
  | .atoms n => s.txType ≠ .unknown ∧ 0 < n
  | .mintBaton =>
    (s.txType = .genesis ∨ s.txType = .mint) ∧ s.tokenMeta.tokenType ≠ .slp .mintVault
  | .unknown byte => s.txType = .unknown ∧ byte = s.tokenMeta.tokenType.toU8

/-- The atoms an output holds of the token with index `k`. -/
def TokenOutput.amountOf (k : Nat) (o : TokenOutput) : Nat :=
  if o.tokenIdx = k then o.variant.amount else 0

/-- The atoms that outputs hold together of the token with index `k`. -/
def amountOf (k : Nat) (outputs : List (Option TokenOutput)) : Nat :=
  (outputs.map fun o => o.elim 0 (TokenOutput.amountOf k)).sum

namespace ColoredTx

structure WellFormed (txid : TxId) (c : ColoredTx) : Prop where
  section_wf : ∀ s ∈ c.sections, s.WellFormed txid
  colors : ∀ o, some o ∈ c.outputs → ∃ s, c.sections[o.tokenIdx]? = some s ∧ s.Colors o.variant
  send_paid : ∀ k s, c.sections[k]? = some s → s.txType = .send →
    amountOf k c.outputs ≤ s.requiredInputSum
  genesis_first : ∀ k s, c.sections[k]? = some s → s.txType = .genesis → k = 0
  distinct : c.sections.Pairwise fun s s' => s.tokenMeta = s'.tokenMeta →
    s.txType = .unknown ∧ s'.txType = .unknown
  slp_alone : ∀ s ∈ c.sections, s.tokenMeta.tokenType.isAlp = false → c.sections.length = 1
  failed_wf : ∀ f ∈ c.failedColorings, f.parsed.WellFormed txid

/-- Tokens that a payload mentions without giving them a section. -/
def Extra (c : ColoredTx) (m : TokenMeta) : Prop :=
  (∃ b ∈ c.intentionalBurns, b.tokenMeta = m) ∨ ∃ f ∈ c.failedColorings, f.parsed.tokenMeta = m

/-- Well-formedness looks at the sections, the outputs and the failed payloads. -/
theorem WellFormed.of_eq {txid : TxId} {c c' : ColoredTx} (hwf : c.WellFormed txid)
    (hSections : c'.sections = c.sections) (hOutputs : c'.outputs = c.outputs)
    (hFailed : ∀ f ∈ c'.failedColorings, f.parsed.WellFormed txid) : c'.WellFormed txid := by
  obtain ⟨_⟩ := c'
  cases hSections
  cases hOutputs
  exact { hwf with failed_wf := hFailed }

/-! ### Outputs -/

/-- The outputs after the targets have been coloured for section `k`. -/
def setTargets (k : Nat) (targets : List (Nat × TokenVariant))
    (outputs : List (Option TokenOutput)) : List (Option TokenOutput) :=
  targets.foldl (fun outs (idx, variant) => outs.set idx (some ⟨k, variant⟩)) outputs

variable {targets : List (Nat × TokenVariant)}

variable {outputs : List (Option TokenOutput)}

theorem mem_setTargets {k : Nat} {o : TokenOutput} (h : some o ∈ setTargets k targets outputs) :
    some o ∈ outputs ∨ ∃ t ∈ targets, o = ⟨k, t.2⟩ := by
  induction targets generalizing outputs with
  | nil => exact .inl h
  | cons t ts ih =>
    obtain hMem | ⟨t', ht', rfl⟩ := ih h
    · obtain hMem | hEq := mem_or_eq_of_mem_set hMem
      · exact .inl hMem
      · exact .inr ⟨t, mem_cons_self, Option.some.inj hEq⟩
    · exact .inr ⟨t', mem_cons_of_mem _ ht', rfl⟩

theorem length_setTargets (k : Nat) (targets : List (Nat × TokenVariant))
    (outputs : List (Option TokenOutput)) :
    (setTargets k targets outputs).length = outputs.length := by
  induction targets generalizing outputs with
  | nil => rfl
  | cons t ts ih =>
    have hSet : (outputs.set t.1 (some ⟨k, t.2⟩)).length = outputs.length := length_set
    rw [← hSet]
    exact ih (outputs.set t.1 (some ⟨k, t.2⟩))

theorem amountOf_setTargets_le (j k : Nat) (targets : List (Nat × TokenVariant))
    (outputs : List (Option TokenOutput)) :
    amountOf j (setTargets k targets outputs) ≤
      amountOf j outputs + if k = j then (targets.map fun t => t.2.amount).sum else 0 := by
  induction targets generalizing outputs with
  | nil => simp [setTargets]
  | cons t ts ih =>
    have hRest := ih (outputs.set t.1 (some ⟨k, t.2⟩))
    have hSet : amountOf j (outputs.set t.1 (some ⟨k, t.2⟩)) ≤
        amountOf j outputs + TokenOutput.amountOf j ⟨k, t.2⟩ :=
      sum_map_set_le (fun o : Option TokenOutput => o.elim 0 (TokenOutput.amountOf j)) outputs t.1
        (some ⟨k, t.2⟩)
    have hStep : setTargets k (t :: ts) outputs =
        setTargets k ts (outputs.set t.1 (some ⟨k, t.2⟩)) := rfl
    rw [hStep]
    simp only [TokenOutput.amountOf] at hSet
    split
    · next hk =>
      rw [if_pos hk] at hSet hRest
      simp only [map_cons, sum_cons]
      omega
    · next hk =>
      rw [if_neg hk] at hSet hRest
      omega

theorem amountOf_eq_zero {k : Nat} (h : ∀ o, some o ∈ outputs → o.tokenIdx ≠ k) :
    amountOf k outputs = 0 := by
  unfold amountOf
  rw [sum_eq_zero_iff]
  intro n hn
  obtain ⟨o, ho, rfl⟩ := mem_map.mp hn
  cases o with
  | none => rfl
  | some o => exact if_neg (h o ho)

variable {outs : List (Option TokenOutput)} {m : TokenMeta}

theorem colorTargets_ok {c : ColoredTx} {b : Bool} (h : c.colorTargets m targets = .ok (outs, b)) :
    outs = setTargets c.sections.length targets c.outputs := by
  obtain ⟨_, _, h⟩ := bind_eq_ok.mp h
  obtain ⟨_, _, h⟩ := bind_eq_ok.mp h
  cases h
  rfl

theorem length_of_colorTargets {c : ColoredTx} {b : Bool}
    (h : c.colorTargets m targets = .ok (outs, b)) : outs.length = c.outputs.length := by
  rw [colorTargets_ok h]
  exact length_setTargets _ _ _

theorem atoms_of_mem_atomsTargets {atoms : List Nat} {t : Nat × TokenVariant}
    (h : t ∈ atomsTargets atoms) : ∃ n, t.2 = .atoms n ∧ 0 < n := by
  obtain ⟨⟨n, idx⟩, hMem, rfl⟩ := mem_map.mp h
  have hNe : n ≠ 0 := of_decide_eq_true (mem_filter.mp hMem).2
  exact ⟨n, rfl, Nat.pos_of_ne_zero hNe⟩

theorem sum_atomsTargets (atoms : List Nat) :
    ((atomsTargets atoms).map fun t => t.2.amount).sum = atoms.sum := by
  unfold atomsTargets
  generalize 1 = start
  induction atoms generalizing start with
  | nil => rfl
  | cons n ns ih =>
    have hRest := ih (start + 1)
    by_cases hn : n = 0
    · simp only [zipIdx_cons, hn, ne_eq, not_true_eq_false, decide_false, sum_cons,
        Nat.zero_add, filter_cons, Bool.false_eq_true, if_false]
      exact hRest
    · simp only [zipIdx_cons, ne_eq, hn, not_false_eq_true, decide_true, filter_cons,
        if_true, map_cons, sum_cons]
      exact congrArg (n + ·) hRest

/-! ### Sections -/

variable {parsed : ParsedData}

section Step

variable {txid : TxId} {c c' : ColoredTx}

/-- A section of the token `m` may stand with the others: there is none, or all are of
ALP. -/
def Joins (c : ColoredTx) (m : TokenMeta) : Prop :=
  c.sections = [] ∨
    (m.tokenType.isAlp = true ∧ ∀ s ∈ c.sections, s.tokenMeta.tokenType.isAlp = true)

variable {s : ColoredTxSection}

/-- Adding a section keeps a coloured transaction well-formed. -/
theorem WellFormed.addSection (hwf : c.WellFormed txid) (hs : s.WellFormed txid)
    (hOuts : ∀ o, some o ∈ outs →
      some o ∈ c.outputs ∨ (o.tokenIdx = c.sections.length ∧ s.Colors o.variant))
    (hOld : ∀ k < c.sections.length, amountOf k outs ≤ amountOf k c.outputs)
    (hNew : s.txType = .send → amountOf c.sections.length outs ≤ s.requiredInputSum)
    (hGenesis : s.txType = .genesis → c.sections = [])
    (hDistinct : ∀ s' ∈ c.sections, s'.tokenMeta = s.tokenMeta →
      s'.txType = .unknown ∧ s.txType = .unknown)
    (hAlone : c.Joins s.tokenMeta) : (c.addSection s outs).WellFormed txid where
  section_wf := forall_mem_concat hwf.section_wf hs
  colors o ho := by
    obtain hMem | ⟨hIdx, hColors⟩ := hOuts o ho
    · obtain ⟨s', hs', hColors⟩ := hwf.colors o hMem
      exact ⟨s', getElem?_append_of_some _ hs', hColors⟩
    · exact ⟨s, by rw [hIdx]; exact getElem?_concat_length, hColors⟩
  send_paid k s' hk hSend := by
    obtain ⟨hLt, hGet⟩ | ⟨rfl, rfl⟩ := getElem?_concat_cases hk
    · exact (hOld k hLt).trans (hwf.send_paid k s' hGet hSend)
    · exact hNew hSend
  genesis_first k s' hk hType := by
    obtain ⟨_, hGet⟩ | ⟨rfl, rfl⟩ := getElem?_concat_cases hk
    · exact hwf.genesis_first k s' hGet hType
    · rw [hGenesis hType]
      rfl
  distinct := by
    refine pairwise_append.mpr ⟨hwf.distinct, pairwise_singleton _ _, ?_⟩
    intro s₁ hs₁ s₂ hs₂ hEq
    cases mem_singleton.mp hs₂
    exact hDistinct s₁ hs₁ hEq
  slp_alone s' hs' hSlp := by
    obtain hNil | ⟨hAlp, hAll⟩ := hAlone
    · simp [ColoredTx.addSection, hNil]
    · obtain hMem | hMem := mem_append.mp hs'
      · rw [hAll s' hMem] at hSlp
        cases hSlp
      · cases mem_singleton.mp hMem
        rw [hAlp] at hSlp
        cases hSlp
  failed_wf := hwf.failed_wf

/-- No output is coloured for the section that is about to be added. -/
theorem WellFormed.amountOf_length (hwf : c.WellFormed txid) :
    amountOf c.sections.length c.outputs = 0 := by
  refine amountOf_eq_zero fun o ho hEq => ?_
  obtain ⟨s, hs, _⟩ := hwf.colors o ho
  have hLt := (List.getElem?_eq_some_iff.mp hs).1
  omega

/-- `addSection` for the sections that colour a list of targets. -/
theorem WellFormed.addTargets (hwf : c.WellFormed txid) {b : Bool}
    (h : c.colorTargets s.tokenMeta targets = .ok (outs, b)) (hs : s.WellFormed txid)
    (hColors : ∀ t ∈ targets, s.Colors t.2)
    (hPaid : s.txType = .send → (targets.map fun t => t.2.amount).sum ≤ s.requiredInputSum)
    (hGenesis : s.txType = .genesis → c.sections = [])
    (hDistinct : ∀ s' ∈ c.sections, s'.tokenMeta ≠ s.tokenMeta) (hAlone : c.Joins s.tokenMeta) :
    (c.addSection s outs).WellFormed txid := by
  rw [colorTargets_ok h]
  refine hwf.addSection hs ?_ ?_ ?_ hGenesis (fun s' hs' hEq => absurd hEq (hDistinct s' hs'))
    hAlone
  · intro o ho
    obtain hMem | ⟨t, ht, rfl⟩ := mem_setTargets ho
    · exact .inl hMem
    · exact .inr ⟨rfl, hColors t ht⟩
  · intro k hk
    have hLe := amountOf_setTargets_le k c.sections.length targets c.outputs
    rwa [if_neg (by omega), Nat.add_zero] at hLe
  · intro hSend
    have hLe := amountOf_setTargets_le c.sections.length c.sections.length targets c.outputs
    rw [if_pos rfl, hwf.amountOf_length, Nat.zero_add] at hLe
    exact hLe.trans (hPaid hSend)

variable {mintData : ParsedMintData}

theorem colors_mintTargets (hType : s.txType = .genesis ∨ s.txType = .mint)
    (hVault : s.tokenMeta.tokenType = .slp .mintVault → mintData.numBatons = 0) :
    ∀ t ∈ mintTargets mintData, s.Colors t.2 := by
  intro t ht
  obtain hMem | hMem := mem_append.mp ht
  · obtain ⟨n, hn, hPos⟩ := atoms_of_mem_atomsTargets hMem
    rw [hn]
    refine ⟨fun hUnknown => ?_, hPos⟩
    rw [hUnknown] at hType
    cases hType <;> contradiction
  · obtain ⟨idx, hIdx, rfl⟩ := mem_map.mp hMem
    refine ⟨hType, fun hEq => ?_⟩
    rw [hVault hEq] at hIdx
    cases hIdx

theorem checkDuplicate_ok (h : c.checkDuplicate parsed = .ok ())
    (hType : parsed.txType.txType = .mint ∨ parsed.txType.txType = .send) :
    ∀ s ∈ c.sections, s.tokenMeta ≠ parsed.tokenMeta := by
  unfold checkDuplicate at h
  rw [if_pos hType] at h
  split at h
  · cases h
  · next hNone =>
    intro s hs hEq
    have hNot := findIdx?_eq_none_iff.mp hNone s hs
    simp [hEq] at hNot

variable {idx : Nat}

theorem colorGenesis_wellFormed {info : GenesisInfo} (hwf : c.WellFormed txid)
    (hp : ParsedData.WellFormed txid ⟨m, .genesis info mintData⟩)
    (hFirst : idx = 0 → c.sections = []) (h : c.colorGenesis idx m info mintData = .ok c') :
    c'.WellFormed txid := by
  obtain ⟨_, hIdx, h⟩ := bind_eq_ok.mp h
  obtain ⟨⟨outs, b⟩, hTargets, h⟩ := bind_eq_ok.mp h
  cases pure_eq_ok.mp h
  obtain ⟨hId, hKnown, hVault⟩ := hp
  have hNil := hFirst (ensure_eq_ok.mp hIdx)
  refine hwf.addTargets hTargets ⟨hId, hKnown, rfl⟩ (colors_mintTargets (.inl rfl) hVault) nofun
    (fun _ => hNil) ?_ (.inl hNil)
  intro s' hs'
  rw [hNil] at hs'
  cases hs'

theorem colorMint_wellFormed (hwf : c.WellFormed txid)
    (hp : ParsedData.WellFormed txid ⟨m, .mint mintData⟩)
    (hDistinct : ∀ s ∈ c.sections, s.tokenMeta ≠ m)
    (hAlone : c.Joins m) (h : c.colorMint m mintData = .ok c') : c'.WellFormed txid := by
  obtain ⟨⟨outs, b⟩, hTargets, h⟩ := bind_eq_ok.mp h
  cases pure_eq_ok.mp h
  exact hwf.addTargets hTargets ⟨hp.1, rfl⟩ (colors_mintTargets (.inr rfl) hp.2) nofun nofun
    hDistinct hAlone

theorem colorSend_wellFormed {atoms : List Nat} (hwf : c.WellFormed txid)
    (hp : ParsedData.WellFormed txid ⟨m, .send atoms⟩)
    (hDistinct : ∀ s ∈ c.sections, s.tokenMeta ≠ m)
    (hAlone : c.Joins m) (h : c.colorSend m atoms = .ok c') : c'.WellFormed txid := by
  obtain ⟨⟨outs, b⟩, hTargets, h⟩ := bind_eq_ok.mp h
  cases pure_eq_ok.mp h
  refine hwf.addTargets hTargets ⟨hp, rfl⟩ ?_ (fun _ => (sum_atomsTargets atoms).le) nofun
    hDistinct hAlone
  intro t ht
  obtain ⟨n, hn, hPos⟩ := atoms_of_mem_atomsTargets ht
  rw [hn]
  exact ⟨nofun, hPos⟩

theorem colorUnknown_wellFormed (hwf : c.WellFormed txid)
    (hp : ParsedData.WellFormed txid ⟨m, .unknown⟩)
    (hAlone : c.Joins m) : (c.colorUnknown m).WellFormed txid := by
  have hMem : ∀ o, some o ∈ c.outputs.take 1 ++ (c.outputs.drop 1).map
      (fun o => some (o.getD ⟨c.sections.length, .unknown m.tokenType.toU8⟩)) →
      some o ∈ c.outputs ∨ o = ⟨c.sections.length, .unknown m.tokenType.toU8⟩ := by
    intro o ho
    obtain ho | ho := mem_append.mp ho
    · exact .inl (mem_of_mem_take ho)
    · obtain ⟨prev, hPrev, hEq⟩ := mem_map.mp ho
      cases prev with
      | none => exact .inr (Option.some.inj hEq).symm
      | some prev =>
        cases hEq
        exact .inl (mem_of_mem_drop hPrev)
  refine hwf.addSection ⟨hp.1, hp.2, rfl⟩ ?_ ?_ nofun nofun ?_ hAlone
  · intro o ho
    obtain ho | rfl := hMem o ho
    · exact .inl ho
    · exact .inr ⟨rfl, rfl, rfl⟩
  · -- a mark holds no atoms
    intro k hk
    refine le_of_eq ?_
    conv_rhs => rw [← take_append_drop 1 c.outputs]
    simp only [amountOf, map_append, sum_append, map_map]
    refine congrArg _ (congrArg List.sum (map_congr_left fun o _ => ?_))
    cases o with
    | none => exact if_neg (Nat.ne_of_gt hk)
    | some o => rfl
  · -- a section with this meta has an unknown type too
    intro s hs hEq
    refine ⟨?_, rfl⟩
    have hSec := hwf.section_wf s hs
    have hUnknown : s.tokenMeta.tokenType.isKnown = false := by
      rw [hEq]
      exact hp.2
    unfold ColoredTxSection.WellFormed at hSec
    split at hSec <;> simp_all

/-- Colouring a payload keeps a coloured transaction well-formed. -/
theorem colorSection_wellFormed {maxType : UInt8} (hwf : c.WellFormed txid)
    (hp : parsed.WellFormed txid) (hFirst : idx = 0 → c.sections = [])
    (hAlone : c.Joins parsed.tokenMeta) (h : c.colorSection idx parsed maxType = .ok c') :
    c'.WellFormed txid := by
  obtain ⟨_, _, h⟩ := bind_eq_ok.mp h
  obtain ⟨_, hDup, h⟩ := bind_eq_ok.mp h
  obtain ⟨m, txType⟩ := parsed
  cases txType with
  | genesis info mintData => exact colorGenesis_wellFormed hwf hp hFirst h
  | mint mintData =>
    exact colorMint_wellFormed hwf hp (checkDuplicate_ok hDup (.inl rfl)) hAlone h
  | send atoms => exact colorSend_wellFormed hwf hp (checkDuplicate_ok hDup (.inr rfl)) hAlone h
  | burn atoms =>
    -- burns touch neither sections nor outputs
    simp only [colorParsed, colorBurn] at h
    split at h
    · cases h
    · cases h
      exact hwf.of_eq rfl rfl hwf.failed_wf
  | unknown =>
    cases h
    exact colorUnknown_wellFormed hwf hp hAlone

/-- A payload adds one section for its token, or mentions it as burned. -/
theorem colorSection_sections {maxType : UInt8} (h : c.colorSection idx parsed maxType = .ok c') :
    ((c'.sections = c.sections ∧ ∀ m, c'.Extra m → c.Extra m ∨ m = parsed.tokenMeta) ∨
      ∃ s, c'.sections = c.sections ++ [s] ∧ s.tokenMeta = parsed.tokenMeta ∧
        ∀ m, c'.Extra m → c.Extra m) ∧
    c'.outputs.length = c.outputs.length := by
  obtain ⟨_, _, h⟩ := bind_eq_ok.mp h
  obtain ⟨_, _, h⟩ := bind_eq_ok.mp h
  obtain ⟨m, txType⟩ := parsed
  cases txType with
  | genesis info mintData =>
    obtain ⟨_, _, h⟩ := bind_eq_ok.mp h
    obtain ⟨⟨outs, b⟩, hTargets, h⟩ := bind_eq_ok.mp h
    cases pure_eq_ok.mp h
    exact ⟨.inr ⟨_, rfl, rfl, fun _ hm => hm⟩, length_of_colorTargets hTargets⟩
  | mint _ | send _ =>
    obtain ⟨⟨outs, b⟩, hTargets, h⟩ := bind_eq_ok.mp h
    cases pure_eq_ok.mp h
    exact ⟨.inr ⟨_, rfl, rfl, fun _ hm => hm⟩, length_of_colorTargets hTargets⟩
  | burn atoms =>
    simp only [colorParsed, colorBurn] at h
    split at h
    · cases h
    · cases h
      refine ⟨.inl ⟨rfl, fun m' hm' => ?_⟩, rfl⟩
      obtain ⟨b, hb, hEq⟩ | hFailed := hm'
      · obtain hb | hb := mem_append.mp hb
        · exact .inl (.inl ⟨b, hb, hEq⟩)
        · cases mem_singleton.mp hb
          exact .inr hEq.symm
      · exact .inl (.inr hFailed)
  | unknown =>
    cases h
    refine ⟨.inr ⟨_, rfl, rfl, fun _ hm => hm⟩, ?_⟩
    simp only [colorUnknown, addSection, length_append, length_map, length_take, length_drop]
    omega

end Step

/-! ### Transactions -/

theorem foldlM_checkTarget_ok {c : ColoredTx} (hNone : ∀ o, some o ∉ c.outputs)
    (targets : List (Nat × TokenVariant)) (outOfRange : Option Nat) :
    ∃ r, targets.foldlM c.checkTarget outOfRange = .ok r := by
  induction targets generalizing outOfRange with
  | nil => exact ⟨outOfRange, rfl⟩
  | cons t ts ih =>
    have hOk : ∃ r, c.checkTarget outOfRange t = .ok r := by
      unfold checkTarget
      dsimp only
      split
      · exact ⟨_, rfl⟩
      · exact ⟨_, rfl⟩
      · next prev hPrev => exact absurd (mem_of_getElem? hPrev) (hNone prev)
    obtain ⟨r, hr⟩ := hOk
    obtain ⟨r', hr'⟩ := ih r
    exact ⟨r', by rw [foldlM_cons, bind_eq_ok]; exact ⟨r, hr, hr'⟩⟩

theorem colorTargets_slp {c : ColoredTx} (hNone : ∀ o, some o ∉ c.outputs)
    (hSlp : m.tokenType.isAlp = false) (targets : List (Nat × TokenVariant)) :
    ∃ r, c.colorTargets m targets = .ok r := by
  obtain ⟨outOfRange, hRange⟩ := foldlM_checkTarget_ok hNone targets none
  exact ⟨_, bind_eq_ok.mpr ⟨outOfRange, hRange,
    bind_eq_ok.mpr ⟨(), ensure_eq_ok.mpr (.inr hSlp), rfl⟩⟩⟩

theorem not_mem_uncolored (tx : Tx) (o : TokenOutput) : some o ∉ (uncolored tx).outputs :=
  fun h => nomatch (eq_of_mem_replicate h)

/-- **Colouring an SLP payload always succeeds**, as the source asserts: there
is one section, so nothing can be a duplicate, overlap or descend. -/
theorem colorSection_slp (tx : Tx) (hSlp : parsed.tokenMeta.tokenType.isAlp = false) :
    ∃ c, (uncolored tx).colorSection 0 parsed 0 = .ok c := by
  have hDup : (uncolored tx).checkDuplicate parsed = .ok () := by
    unfold checkDuplicate
    split <;> rfl
  have hColor : ∃ c, (uncolored tx).colorParsed 0 parsed = .ok c := by
    obtain ⟨m, txType⟩ := parsed
    cases txType with
    | genesis info mintData =>
      obtain ⟨⟨outs, b⟩, hOuts⟩ :=
        colorTargets_slp (not_mem_uncolored tx) hSlp (mintTargets mintData)
      exact ⟨_, bind_eq_ok.mpr ⟨(), rfl, bind_eq_ok.mpr ⟨_, hOuts, rfl⟩⟩⟩
    | mint mintData =>
      obtain ⟨⟨outs, b⟩, hOuts⟩ :=
        colorTargets_slp (not_mem_uncolored tx) hSlp (mintTargets mintData)
      exact ⟨_, bind_eq_ok.mpr ⟨_, hOuts, rfl⟩⟩
    | send atoms =>
      obtain ⟨⟨outs, b⟩, hOuts⟩ :=
        colorTargets_slp (not_mem_uncolored tx) hSlp (atomsTargets atoms)
      exact ⟨_, bind_eq_ok.mpr ⟨_, hOuts, rfl⟩⟩
    | burn atoms => exact ⟨_, rfl⟩
    | unknown => exact ⟨_, rfl⟩
  obtain ⟨c, hc⟩ := hColor
  have hMax : (0 : UInt8) ≤ parsed.tokenMeta.tokenType.toU8 := UInt8.zero_le
  exact ⟨c, bind_eq_ok.mpr ⟨(), ensure_eq_ok.mpr hMax, bind_eq_ok.mpr ⟨(), hDup, hc⟩⟩⟩

theorem uncolored_wellFormed (tx : Tx) : (uncolored tx).WellFormed tx.txid where
  section_wf _ hs := absurd hs not_mem_nil
  colors o ho := absurd ho (not_mem_uncolored tx o)
  send_paid _ _ hs := by cases hs
  genesis_first _ _ hs := by cases hs
  distinct := List.Pairwise.nil
  slp_alone _ hs := absurd hs not_mem_nil
  failed_wf _ hf := absurd hf not_mem_nil

/-- What the loop over the pushes keeps; `next` is the index of the next push. -/
structure AlpInvariant (tx : Tx) (next : Nat) (s : AlpState) : Prop where
  wf : s.colored.WellFormed tx.txid
  length : s.colored.outputs.length = tx.outputs.length
  alp : ∀ sec ∈ s.colored.sections, sec.tokenMeta.tokenType.isAlp = true
  extra : ∀ m, s.colored.Extra m → m.tokenType.isAlp = true
  first : next = 0 → s.colored.sections = []

theorem AlpInvariant.step {tx : Tx} {next : Nat} {s : AlpState} (hInv : AlpInvariant tx next s)
    (pushdata : Bytes) : AlpInvariant tx (next + 1) (colorAlpPushdata tx.txid s (pushdata, next)) := by
  simp only [colorAlpPushdata]
  split
  · exact { hInv with first := nofun }
  · exact { hInv with wf := hInv.wf.of_eq rfl rfl hInv.wf.failed_wf, first := nofun }
  · next parsed hParse =>
    obtain ⟨hParsed, hAlp⟩ := Alp.parseSection_wellFormed hParse
    split
    · next colored hColor =>
      obtain ⟨hSections, hLength⟩ := colorSection_sections hColor
      have hwf :=
        colorSection_wellFormed hInv.wf hParsed hInv.first (.inr ⟨hAlp, hInv.alp⟩) hColor
      obtain ⟨hEq, hExtra⟩ | ⟨sec', hEq, hMeta, hExtra⟩ := hSections
      · refine ⟨hwf, hLength.trans hInv.length, ?_, fun m hm => ?_, nofun⟩
        · rw [hEq]
          exact hInv.alp
        · obtain hm | rfl := hExtra m hm
          · exact hInv.extra m hm
          · exact hAlp
      · refine ⟨hwf, hLength.trans hInv.length, ?_,
          fun m hm => hInv.extra m (hExtra m hm), nofun⟩
        rw [hEq]
        exact forall_mem_concat hInv.alp (hMeta ▸ hAlp)
    · next err _ =>
      refine ⟨hInv.wf.of_eq rfl rfl (forall_mem_concat hInv.wf.failed_wf hParsed), hInv.length,
        hInv.alp, fun m hm => ?_, nofun⟩
      · obtain hBurn | ⟨f, hf, hEq⟩ := hm
        · exact hInv.extra m (.inl hBurn)
        · obtain hMem | hMem := mem_append.mp hf
          · exact hInv.extra m (.inr ⟨f, hMem, hEq⟩)
          · cases mem_singleton.mp hMem
            rw [← hEq]
            exact hAlp

theorem AlpInvariant.run {tx : Tx} {next : Nat} {s : AlpState} (hInv : AlpInvariant tx next s)
    (pushdata : List Bytes) :
    AlpInvariant tx (next + pushdata.length)
      ((pushdata.zipIdx next).foldl (colorAlpPushdata tx.txid) s) := by
  induction pushdata generalizing next s with
  | nil => exact hInv
  | cons p ps ih =>
    have hRest := ih (hInv.step p)
    rwa [Nat.add_assoc, Nat.add_comm 1] at hRest

end ColoredTx

/-- **Every coloured transaction is well-formed**, with one colour per output.
Next to sections only ALP payloads mention further tokens. -/
theorem colorTx_wellFormed {tx : Tx} {c : ColoredTx} (h : colorTx tx = some c) :
    c.WellFormed tx.txid ∧ c.outputs.length = tx.outputs.length ∧
      ∀ m, c.Extra m → c.sections ≠ [] → m.tokenType.isAlp = true := by
  have hUncolored : (uncolored tx).outputs.length = tx.outputs.length := length_replicate
  have hNoExtra : ∀ m, ¬ (uncolored tx).Extra m := by
    rintro m (⟨b, hb, _⟩ | ⟨f, hf, _⟩)
    · cases hb
    · cases hf
  have hFailed : ∀ script err, (failed tx script err).WellFormed tx.txid ∧
      (failed tx script err).outputs.length = tx.outputs.length ∧
      ∀ m, (failed tx script err).Extra m → (failed tx script err).sections ≠ [] →
        m.tokenType.isAlp = true := by
    intro script err
    have hwf := uncolored_wellFormed tx
    exact ⟨hwf.of_eq rfl rfl hwf.failed_wf, hUncolored, fun m _ hNe => absurd rfl hNe⟩
  unfold colorTx at h
  simp only [Option.bind_eq_bind, Option.bind_eq_some_iff] at h
  obtain ⟨output, _, _, _, h⟩ := h
  split at h
  · next parsed hParse =>
    obtain ⟨hParsed, hSlp⟩ := Slp.parse_wellFormed hParse
    obtain ⟨c', hc'⟩ := colorSection_slp tx hSlp
    rw [hc'] at h
    cases h
    obtain ⟨hSections, hLength⟩ := colorSection_sections hc'
    refine ⟨colorSection_wellFormed (uncolored_wellFormed tx) hParsed (fun _ => rfl) (.inl rfl) hc',
      hLength.trans hUncolored, fun m hm hNe => ?_⟩
    -- an SLP transaction with a section mentions nothing else
    obtain ⟨hEq, _⟩ | ⟨_, _, _, hExtra⟩ := hSections
    · exact absurd hEq hNe
    · exact absurd (hExtra m hm) (hNoExtra m)
  · cases h
    exact hFailed _ _
  · split at h
    · cases h
      exact hFailed _ _
    · cases h
    · next pushdata _ =>
      have hInv : AlpInvariant tx 0 ⟨uncolored tx, 0, false⟩ :=
        ⟨uncolored_wellFormed tx, hUncolored, fun _ hs => absurd hs not_mem_nil,
          fun m hm => absurd hm (hNoExtra m), fun _ => rfl⟩
      have hRun := hInv.run pushdata
      split at h
      · cases h
        exact ⟨hRun.wf, hRun.length, fun m hm _ => hRun.extra m hm⟩
      · cases h

end Ergon
