import Ergon.Lib.Memory
import Ergon.Core.Ser
import Ergon.Node.Coins

/-!
# Ergon — queries through the C interface

`chronik_runtime_token_info` (`chronik-observer/src/persistent.rs`) and
`chronik_runtime_confirmed_tx` (`chronik-observer/src/tx_bridge.rs`). The node passes
raw pointers and lengths, and a buffer for the encoded answer; null is address 0. What
the index answers in its present state is a parameter.

* `Request.payload_below` — the answer does not depend on the buffer, nor on memory
  that is not part of the request;
* `Request.payload_throws` — a call touches nothing but what it was given, and a call
  without an answer reports no length;
* `call_passes` — what a call does, for every buffer the interface accepts.
-/

namespace Ergon.Runtime

open Lib

def maxBytes : Nat := 64 * 1024 * 1024

def maxCoins : Nat := 1000000

/-! ## The structures of the interface -/

structure RuntimeQuery where
  success : Nat := 0
  errorCode : Nat := 0
  present : Nat := 0
  payloadLen : Nat := 0
deriving DecidableEq

def queryError (errorCode : Nat) : RuntimeQuery := { errorCode }

def errorInvalidArgument : Nat := 2
def errorPayload : Nat := 4
def errorRuntime : Nat := 5
def errorPanic : Nat := 6
def errorBufferTooSmall : Nat := 7

/-- The number in the `w` bytes of a structure from offset `k` on. -/
def field (b : Bytes) (k w : Nat) : Nat := ofLittleEndian ((b.drop k).take w)

/-- The same in two's complement. -/
def signedField (b : Bytes) (k w : Nat) : Int := (field b k w : Int).bmod (256 ^ w)

structure RuntimeTxLocation where
  success : Nat
  errorCode : Nat
  present : Nat
  height : Int
  timestamp : Int
  isCoinbase : Nat
  hash : FixedBytes 32
deriving DecidableEq

def RuntimeTxLocation.ofBytes (b : FixedBytes 80) : RuntimeTxLocation where
  success := field b.val 0 8
  errorCode := field b.val 8 8
  present := field b.val 16 8
  height := signedField b.val 24 8
  timestamp := signedField b.val 32 8
  isCoinbase := field b.val 40 8
  hash := ⟨b.val.drop 48, by rw [List.length_drop, b.property]⟩

structure RuntimeSpentCoin where
  sats : Int
  height : Int
  isCoinbase : Nat
  script : Nat
  scriptLen : Nat
deriving DecidableEq

def RuntimeSpentCoin.ofBytes (b : FixedBytes 32) : RuntimeSpentCoin where
  sats := signedField b.val 0 8
  height := signedField b.val 8 4
  isCoinbase := field b.val 12 4
  script := field b.val 16 8
  scriptLen := field b.val 24 8

structure ConfirmedTxLocation where
  blockHash : FixedBytes 32
  blockHeight : Int
  blockTimestamp : Int
  isCoinbase : Bool
deriving DecidableEq

/-! ## The index -/

/-- How a query of the index fails. -/
inductive Failure
  | err
  | panicked
deriving DecidableEq

/-- A runtime in some state of its index: what it answers, encoded. -/
structure RuntimeHandle where
  tokenInfo : TxId → Except Failure (Option Bytes)
  confirmedTxProto : Tx → ConfirmedTxLocation → Except Failure Bytes

abbrev Query := Except (Stop RuntimeQuery)

def fail (errorCode : Nat) : Stop RuntimeQuery := .reply (queryError errorCode)

/-- Panics are caught at the interface. -/
def Failure.stop : Failure → Stop RuntimeQuery
  | .err => fail errorRuntime
  | .panicked => fail errorPanic

/-! ## Token queries -/

def readHash (m : Memory) (hash : Nat) : Query (FixedBytes 32) := do
  ensure (hash ≠ 0) (fail errorInvalidArgument)
  load m hash 32

/-- A buffer is null exactly if it has no room. -/
def BufferOk (output capacity : Nat) : Prop := output = 0 ↔ capacity = 0

instance (output capacity : Nat) : Decidable (BufferOk output capacity) :=
  inferInstanceAs (Decidable (_ ↔ _))

variable (sha256d : Bytes → FixedBytes 32) (runtime : Option RuntimeHandle) (m : Memory)

def tokenInfoPayload (tokenIdTxid output capacity : Nat) : Query Bytes := do
  let runtime ← orElse runtime (fail errorInvalidArgument)
  let tokenIdTxid ← readHash m tokenIdTxid
  ensure (BufferOk output capacity) (fail errorInvalidArgument)
  let tokenInfo ← (runtime.tokenInfo tokenIdTxid).mapError Failure.stop
  let payload ← orElse tokenInfo (.reply { success := 1 })
  ensure (payload.length < 2 ^ 64) (fail errorRuntime)
  return payload

/-! ## Queries for confirmed transactions -/

def RuntimeTxLocation.Valid (l : RuntimeTxLocation) : Prop :=
  l.success = 1 ∧ l.present = 1 ∧ l.errorCode = 0 ∧ l.isCoinbase ≤ 1 ∧ 0 ≤ l.height ∧
    l.height < 2 ^ 31

instance (l : RuntimeTxLocation) : Decidable l.Valid := inferInstanceAs (Decidable (_ ∧ _))

def RuntimeSpentCoin.Valid (coin : RuntimeSpentCoin) : Prop :=
  coin.isCoinbase ≤ 1 ∧ 0 ≤ coin.height ∧ 0 ≤ coin.sats ∧ (coin.script = 0 ↔ coin.scriptLen = 0)

instance (coin : RuntimeSpentCoin) : Decidable coin.Valid := inferInstanceAs (Decidable (_ ∧ _))

/-- The pointer of an empty script is null, and is not followed. -/
def RuntimeSpentCoin.readScript (m : Memory) (coin : RuntimeSpentCoin) : Query Bytes :=
  if coin.scriptLen = 0 then .ok []
  else return (← load m coin.script coin.scriptLen).val

/-- Give each input its coin, from the array at `coins`. The scripts may take
`maxBytes` together, of which `total` are taken. -/
def setCoins (m : Memory) : (coins coinCount total : Nat) → List TxInput → Query (List TxInput)
  | _, _, _, [] => .ok []
  | _, 0, _, inputs => .ok inputs
  | coins, coinCount + 1, total, input :: inputs => do
    let b ← load m coins 32
    let coin := RuntimeSpentCoin.ofBytes b
    ensure (total + coin.scriptLen ≤ maxBytes) (fail errorInvalidArgument)
    ensure coin.Valid (fail errorInvalidArgument)
    let script ← coin.readScript m
    let rest ← setCoins m (coins + 32) coinCount (total + coin.scriptLen) inputs
    let inputCoin : Coin := ⟨⟨coin.sats, ⟨script⟩⟩, coin.height, coin.isCoinbase = 1⟩
    return { input with coin := some inputCoin } :: rest

/-- The transaction has to fill its bytes. -/
def decodeTx (raw : Bytes) : Query Tx :=
  match Tx.deser sha256d raw with
  | .ok (tx, []) => .ok tx
  | _ => .error (fail errorPayload)

/-- A coinbase comes without coins, any other transaction with one for each input. -/
def CoinsMatch (tx : Tx) (location : RuntimeTxLocation) (coinCount : Nat) : Prop :=
  (tx.isCoinBase = true ↔ location.isCoinbase = 1) ∧
    coinCount = if tx.isCoinBase then 0 else tx.inputs.length

instance (tx : Tx) (location : RuntimeTxLocation) (coinCount : Nat) :
    Decidable (CoinsMatch tx location coinCount) := inferInstanceAs (Decidable (_ ∧ _))

def ArgumentsOk (rawTx rawTxLen coins coinCount location : Nat) : Prop :=
  rawTx ≠ 0 ∧ rawTxLen ≠ 0 ∧ rawTxLen ≤ maxBytes ∧ coinCount ≤ maxCoins ∧
    (coins = 0 ↔ coinCount = 0) ∧ location ≠ 0

instance (rawTx rawTxLen coins coinCount location : Nat) :
    Decidable (ArgumentsOk rawTx rawTxLen coins coinCount location) :=
  inferInstanceAs (Decidable (_ ∧ _))

def confirmedTxPayload (rawTx rawTxLen coins coinCount location output capacity : Nat) :
    Query Bytes := do
  let runtime ← orElse runtime (fail errorInvalidArgument)
  ensure (ArgumentsOk rawTx rawTxLen coins coinCount location ∧ BufferOk output capacity)
    (fail errorInvalidArgument)
  let b ← load m location 80
  let location := RuntimeTxLocation.ofBytes b
  ensure location.Valid (fail errorInvalidArgument)
  let raw ← load m rawTx rawTxLen
  let tx ← decodeTx sha256d raw.val
  ensure (CoinsMatch tx location coinCount) (fail errorPayload)
  let inputs ← setCoins m coins coinCount 0 tx.inputs
  let payload ← (runtime.confirmedTxProto { tx with inputs }
    ⟨location.hash, location.height, location.timestamp, tx.isCoinBase⟩).mapError Failure.stop
  ensure (payload.length ≤ maxBytes) (fail errorPayload)
  return payload

/-! ## Calls -/

/-- What a call leaves in memory and returns; `none` is a fault. Both functions end
this way: an answer is copied if there is room for it, otherwise its length is
reported. -/
def reply (output capacity : Nat) : Query Bytes → Option (Memory × RuntimeQuery)
  | .error .fault => none
  | .error (.reply q) => some (m, q)
  | .ok payload =>
    if capacity = 0 then some (m, ⟨1, 0, 1, payload.length⟩)
    else if capacity < payload.length then some (m, ⟨0, errorBufferTooSmall, 1, payload.length⟩)
    else (m.write output payload).map (·, ⟨1, 0, 1, payload.length⟩)

def chronikRuntimeTokenInfo (tokenIdTxid output capacity : Nat) :
    Option (Memory × RuntimeQuery) :=
  reply m output capacity (tokenInfoPayload runtime m tokenIdTxid output capacity)

def chronikRuntimeConfirmedTx (rawTx rawTxLen coins coinCount location output capacity : Nat) :
    Option (Memory × RuntimeQuery) :=
  reply m output capacity
    (confirmedTxPayload sha256d runtime m rawTx rawTxLen coins coinCount location output capacity)

/-- What is asked, by the pointers and lengths that are passed. -/
inductive Request
  | tokenInfo (tokenIdTxid : Nat)
  | confirmedTx (rawTx rawTxLen coins coinCount location : Nat)
deriving DecidableEq

namespace Request

def payload (output capacity : Nat) : Request → Query Bytes
  | tokenInfo tokenIdTxid => tokenInfoPayload runtime m tokenIdTxid output capacity
  | confirmedTx rawTx rawTxLen coins coinCount location =>
    confirmedTxPayload sha256d runtime m rawTx rawTxLen coins coinCount location output capacity

def call (output capacity : Nat) : Request → Option (Memory × RuntimeQuery)
  | tokenInfo tokenIdTxid => chronikRuntimeTokenInfo runtime m tokenIdTxid output capacity
  | confirmedTx rawTx rawTxLen coins coinCount location =>
    chronikRuntimeConfirmedTx sha256d runtime m rawTx rawTxLen coins coinCount location output
      capacity

/-- A coin structure and the script it points to. -/
def CoinGiven (p : Nat) : Prop :=
  m.Allocated p 32 ∧ ∀ b ∈ m.read p 32, (RuntimeSpentCoin.ofBytes b).script ≠ 0 →
    m.Allocated (RuntimeSpentCoin.ofBytes b).script (RuntimeSpentCoin.ofBytes b).scriptLen

/-- What the caller promises: a pointer that is not null points to as much as it says. -/
def Given : Request → Prop
  | tokenInfo tokenIdTxid => tokenIdTxid ≠ 0 → m.Allocated tokenIdTxid 32
  | confirmedTx rawTx rawTxLen coins coinCount location =>
    (rawTx ≠ 0 → m.Allocated rawTx rawTxLen) ∧ (location ≠ 0 → m.Allocated location 80) ∧
      (coins ≠ 0 → ∀ k < coinCount, CoinGiven m (coins + 32 * k))

/-- The request is in order, and this is what the index answers. -/
def Answered : Request → Bytes → Prop
  | tokenInfo tokenIdTxid, payload => ∃ h hash, runtime = some h ∧ tokenIdTxid ≠ 0 ∧
      m.read tokenIdTxid 32 = some hash ∧ h.tokenInfo hash = .ok (some payload) ∧
      payload.length < 2 ^ 64
  | confirmedTx rawTx rawTxLen coins coinCount location, payload => ∃ h b raw tx inputs,
      runtime = some h ∧ ArgumentsOk rawTx rawTxLen coins coinCount location ∧
      m.read location 80 = some b ∧ (RuntimeTxLocation.ofBytes b).Valid ∧
      m.read rawTx rawTxLen = some raw ∧ Tx.deser sha256d raw.val = .ok (tx, []) ∧
      CoinsMatch tx (.ofBytes b) coinCount ∧ setCoins m coins coinCount 0 tx.inputs = .ok inputs ∧
      h.confirmedTxProto { tx with inputs } ⟨(RuntimeTxLocation.ofBytes b).hash,
        (RuntimeTxLocation.ofBytes b).height, (RuntimeTxLocation.ofBytes b).timestamp,
        tx.isCoinBase⟩ = .ok payload ∧ payload.length ≤ maxBytes

theorem call_eq (output capacity : Nat) (req : Request) : req.call sha256d runtime m output capacity =
      reply m output capacity (req.payload sha256d runtime m output capacity) := by
  cases req <;> rfl

/-! ## What an answer depends on -/

section Below

variable {m m' : Memory} (hExt : m'.Extends m)
include hExt

theorem setCoins_below (coins coinCount total : Nat) (inputs : List TxInput) :
    Below (setCoins m coins coinCount total inputs) (setCoins m' coins coinCount total inputs) := by
  induction inputs generalizing coins coinCount total with
  | nil => cases coinCount <;> exact .refl _
  | cons input inputs ih =>
    cases coinCount with
    | zero => exact .refl _
    | succ coinCount =>
      refine .bind (.load hExt _ _) fun b => .bind (.refl _) fun _ => .bind (.refl _) fun _ =>
        .bind ?_ fun _ => .bind (ih _ _ _) fun _ => .refl _
      unfold RuntimeSpentCoin.readScript
      split
      · exact .refl _
      · exact .bind (.load hExt _ _) fun _ => .refl _

/-- Neither the place of the buffer matters for the answer nor its size, only that
both are accepted or neither is. -/
theorem payload_below {output capacity output' capacity' : Nat}
    (hBuffer : BufferOk output capacity ↔ BufferOk output' capacity') (req : Request) :
    Below (req.payload sha256d runtime m output capacity)
      (req.payload sha256d runtime m' output' capacity') := by
  cases req with
  | tokenInfo tokenIdTxid =>
    refine .bind (.refl _) fun _ => .bind (.bind (.refl _) fun _ => .load hExt _ _) fun _ =>
      .bind (.inr ?_) fun _ => .refl _
    simp only [ensure, hBuffer]
  | confirmedTx rawTx rawTxLen coins coinCount location =>
    refine .bind (.refl _) fun _ => .bind (.inr ?_) fun _ => .bind (.load hExt _ _) fun _ =>
      .bind (.refl _) fun _ => .bind (.load hExt _ _) fun _ => .bind (.refl _) fun _ =>
      .bind (.refl _) fun _ => .bind (setCoins_below hExt _ _ _ _) fun _ => .refl _
    simp only [ensure, hBuffer]

end Below

/-! ## What a call without an answer replies -/

/-- A reply that reports no payload and no length. -/
def Blank (q : RuntimeQuery) : Prop := q.present = 0 ∧ q.payloadLen = 0

/-- The call stops with such a reply, and not at memory it was not given. -/
def Declined (stop : Stop RuntimeQuery) : Prop := ∃ q, stop = .reply q ∧ Blank q

theorem declined_fail (errorCode : Nat) : Declined (fail errorCode) := ⟨_, rfl, rfl, rfl⟩

theorem throws_index {α : Type} (x : Except Failure α) :
    Throws Declined (x.mapError Failure.stop) := by
  rcases x with (_ | _) | a
  · exact fun _ h => Except.error.inj h ▸ declined_fail _
  · exact fun _ h => Except.error.inj h ▸ declined_fail _
  · exact .ok a

theorem throws_decodeTx (raw : Bytes) : Throws Declined (decodeTx sha256d raw) := by
  unfold decodeTx
  split
  · exact .ok _
  · exact fun _ h => Except.error.inj h ▸ declined_fail _

section Throws

variable {m : Memory}

theorem setCoins_throws {coins coinCount : Nat} (total : Nat) (inputs : List TxInput)
    (h : ∀ k < coinCount, CoinGiven m (coins + 32 * k)) :
    Throws Declined (setCoins m coins coinCount total inputs) := by
  induction inputs generalizing coins coinCount total with
  | nil => cases coinCount <;> exact .ok _
  | cons input inputs ih =>
    cases coinCount with
    | zero => exact .ok _
    | succ coinCount =>
      obtain ⟨hCoin, hScript⟩ := h 0 (by omega)
      refine .bind (.load hCoin) fun b hb => .bind (.ensure (declined_fail _)) fun _ _ =>
        .bind (.ensure (declined_fail _)) fun _ hValid => .bind ?_ fun _ _ =>
        .bind (ih _ fun k hk => ?_) fun _ _ => .ok _
      · unfold RuntimeSpentCoin.readScript
        split
        · exact .ok _
        · next hLen =>
          -- a script that is not empty has a pointer
          have hPointer := mt (ensure_eq_ok.mp hValid).2.2.2.mp hLen
          exact .bind (.load (hScript b (orElse_eq_ok.mp hb) hPointer)) fun _ _ => .ok _
      · have hNext := h (k + 1) (by omega)
        rwa [show coins + 32 * (k + 1) = coins + 32 + 32 * k by ring] at hNext

theorem payload_throws (output capacity : Nat) {req : Request}
    (hGiven : req.Given m) : Throws Declined (req.payload sha256d runtime m output capacity) := by
  cases req with
  | tokenInfo tokenIdTxid =>
    refine .bind (.orElse (declined_fail _)) fun _ _ =>
      .bind (.bind (.ensure (declined_fail _)) fun _ hHash => ?_) fun _ _ =>
      .bind (.ensure (declined_fail _)) fun _ _ => .bind (throws_index _) fun _ _ =>
      .bind (.orElse ⟨_, rfl, rfl, rfl⟩) fun _ _ => .bind (.ensure (declined_fail _)) fun _ _ =>
      .ok _
    exact .load (hGiven (ensure_eq_ok.mp hHash))
  | confirmedTx rawTx rawTxLen coins coinCount location =>
    obtain ⟨hRaw, hLocation, hCoins⟩ := hGiven
    refine .bind (.orElse (declined_fail _)) fun _ _ =>
      .bind (.ensure (declined_fail _)) fun _ hArgs => ?_
    obtain ⟨⟨hRawTx, -, -, -, hCoinsNull, hLocationNull⟩, -⟩ := ensure_eq_ok.mp hArgs
    refine .bind (.load (hLocation hLocationNull)) fun _ _ =>
      .bind (.ensure (declined_fail _)) fun _ _ => .bind (.load (hRaw hRawTx)) fun _ _ =>
      .bind (throws_decodeTx sha256d _) fun tx _ => .bind (.ensure (declined_fail _)) fun _ _ =>
      .bind (setCoins_throws _ _ fun k hk => ?_) fun _ _ => .bind (throws_index _) fun _ _ =>
      .bind (.ensure (declined_fail _)) fun _ _ => .ok _
    exact hCoins (fun hNull => by omega) k hk

/-- A buffer with an address and no room, or with room and no address, is refused. -/
theorem payload_of_not_bufferOk {output capacity : Nat}
    (hBuffer : ¬ BufferOk output capacity) {req : Request} (hGiven : req.Given m) :
    req.payload sha256d runtime m output capacity = .error (fail errorInvalidArgument) := by
  cases runtime with
  | none => cases req <;> rfl
  | some h =>
    cases req with
    | tokenInfo tokenIdTxid =>
      have hHash : Throws (· = fail errorInvalidArgument) (readHash m tokenIdTxid) :=
        .bind (.ensure rfl) fun _ hNull => .load (hGiven (ensure_eq_ok.mp hNull))
      show (readHash m tokenIdTxid >>= fun _ => ensure (BufferOk output capacity) _ >>= _) = _
      cases hRead : readHash m tokenIdTxid with
      | error e => exact congrArg Except.error (hHash e hRead)
      | ok hash => rw [ok_bind, ensure, if_neg hBuffer]; rfl
    | confirmedTx rawTx rawTxLen coins coinCount location =>
      show (ensure _ _ >>= _) = _
      rw [ensure, if_neg fun hArgs => hBuffer hArgs.2]
      rfl

end Throws

/-! ## When there is an answer -/

theorem decodeTx_eq_ok {raw : Bytes} {tx : Tx} :
    decodeTx sha256d raw = .ok tx ↔ Tx.deser sha256d raw = .ok (tx, []) := by
  unfold decodeTx
  split
  · next tx' hDeser => rw [hDeser]; simp
  · next hOther => exact ⟨nofun, fun h => absurd h (hOther tx)⟩

variable {output capacity : Nat}

theorem payload_eq_ok {m : Memory}
    (hBuffer : BufferOk output capacity) {req : Request} {payload : Bytes} :
    req.payload sha256d runtime m output capacity = .ok payload ↔
      req.Answered sha256d runtime m payload := by
  cases req with
  | tokenInfo tokenIdTxid =>
    simp only [Request.payload, tokenInfoPayload, readHash, load, Answered, bind_eq_ok,
      ensure_eq_ok, orElse_eq_ok, mapError_eq_ok, pure_eq_ok]
    constructor
    · rintro ⟨h, hRuntime, hash, ⟨-, hNull, hRead⟩, -, -, info, hInfo, _, rfl, -, hLength, rfl⟩
      exact ⟨h, hash, hRuntime, hNull, hRead, hInfo, hLength⟩
    · rintro ⟨h, hash, hRuntime, hNull, hRead, hInfo, hLength⟩
      exact ⟨h, hRuntime, hash, ⟨(), hNull, hRead⟩, (), hBuffer, _, hInfo, _, rfl, (), hLength, rfl⟩
  | confirmedTx rawTx rawTxLen coins coinCount location =>
    simp only [Request.payload, confirmedTxPayload, load, Answered, bind_eq_ok, ensure_eq_ok,
      orElse_eq_ok, mapError_eq_ok, pure_eq_ok, decodeTx_eq_ok]
    constructor
    · rintro ⟨h, hRuntime, -, ⟨hArgs, -⟩, b, hLocation, -, hValid, raw, hRaw, tx, hTx, -, hMatch,
        inputs, hCoins, _, hProto, -, hLength, rfl⟩
      exact ⟨h, b, raw, tx, inputs, hRuntime, hArgs, hLocation, hValid, hRaw, hTx, hMatch, hCoins,
        hProto, hLength⟩
    · rintro ⟨h, b, raw, tx, inputs, hRuntime, hArgs, hLocation, hValid, hRaw, hTx, hMatch, hCoins,
        hProto, hLength⟩
      exact ⟨h, hRuntime, (), ⟨hArgs, hBuffer⟩, b, hLocation, (), hValid, raw, hRaw, tx, hTx, (),
        hMatch, inputs, hCoins, _, hProto, (), hLength, rfl⟩

/-! ## Calls with every buffer -/

/-- What a call replies with was settled by the request's own bytes. -/
theorem call_eq_reply {m m' : Memory}
    {output capacity output' capacity' : Nat} {req : Request} (hGiven : req.Given m)
    (hExt : m'.Extends m) (hBuffer : BufferOk output capacity ↔ BufferOk output' capacity') :
    req.call sha256d runtime m' output' capacity' =
      reply m' output' capacity' (req.payload sha256d runtime m output capacity) := by
  rw [call_eq]
  rcases payload_below sha256d runtime hExt hBuffer req with hFault | hSame
  · obtain ⟨q, hStop, -⟩ := payload_throws sha256d runtime output capacity hGiven _ hFault
    cases hStop
  · rw [hSame]

theorem bufferOk_iff (h : BufferOk output capacity) :
    BufferOk 0 0 ↔ BufferOk output capacity := iff_of_true Iff.rfl h

/-- An answer that fits is copied, and nothing else is written. -/
theorem reply_ok {m : Memory} {payload : Bytes} (hRoom : capacity ≠ 0)
    (hFits : payload.length ≤ capacity) (hOutput : m.Allocated output capacity) :
    ∃ m', reply m output capacity (.ok payload) = some (m', ⟨1, 0, 1, payload.length⟩) ∧
      m'.read output payload.length = some ⟨payload, rfl⟩ ∧
      ∀ a, a < output ∨ output + payload.length ≤ a → m' a = m a := by
  obtain ⟨m', hWrite, hRead, hElse⟩ := Memory.write_spec (b := payload)
    fun i hi => hOutput i (by omega)
  refine ⟨m', ?_, hRead, hElse⟩
  show (if _ then _ else if _ then _ else _) = _
  rw [if_neg hRoom, if_neg (by omega), hWrite]
  rfl

/-- A call with too little room reports the length of the answer and writes nothing;
one with enough room writes the answer and nothing else. -/
def Delivers (req : Request) (payload : Bytes) (m : Memory) (output capacity : Nat) : Prop :=
  (capacity = 0 ∨ capacity < payload.length →
    req.call sha256d runtime m output capacity = some (m, if capacity = 0
      then ⟨1, 0, 1, payload.length⟩ else ⟨0, errorBufferTooSmall, 1, payload.length⟩)) ∧
  (capacity ≠ 0 → payload.length ≤ capacity → m.Allocated output capacity →
    ∃ m', req.call sha256d runtime m output capacity = some (m', ⟨1, 0, 1, payload.length⟩) ∧
      m'.read output payload.length = some ⟨payload, rfl⟩ ∧
      ∀ a, a < output ∨ output + payload.length ≤ a → m' a = m a)

section Calls

variable {runtime m} {req : Request} (hGiven : req.Given m)
include hGiven

theorem call_of_answered {payload : Bytes} (hAnswer : req.Answered sha256d runtime m payload)
    {m' : Memory} {output capacity : Nat} (hExt : m'.Extends m)
    (hBuffer : BufferOk output capacity) :
    req.Delivers sha256d runtime payload m' output capacity := by
  unfold Delivers
  rw [call_eq_reply sha256d runtime hGiven hExt (bufferOk_iff hBuffer),
    (payload_eq_ok sha256d runtime Iff.rfl).mpr hAnswer]
  refine ⟨fun hSmall => ?_, reply_ok⟩
  show (if _ then _ else if _ then _ else _) = _
  split_ifs with hZero
  · rfl
  · rfl
  · omega

theorem call_of_not_answered (hNone : ∀ payload, ¬ req.Answered sha256d runtime m payload) :
    ∃ q, q.present = 0 ∧ q.payloadLen = 0 ∧
      ∀ m' output capacity, m'.Extends m → BufferOk output capacity →
        req.call sha256d runtime m' output capacity = some (m', q) := by
  cases hPayload : req.payload sha256d runtime m 0 0 with
  | ok payload => exact absurd ((payload_eq_ok sha256d runtime Iff.rfl).mp hPayload) (hNone payload)
  | error stop =>
    obtain ⟨q, rfl, hPresent, hLength⟩ := payload_throws sha256d runtime 0 0 hGiven _ hPayload
    refine ⟨q, hPresent, hLength, fun m' output capacity hExt hBuffer => ?_⟩
    rw [call_eq_reply sha256d runtime hGiven hExt (bufferOk_iff hBuffer), hPayload]
    rfl

end Calls

/-- A request that is in memory as far as its pointers and lengths say, in whatever
memory around it and with whatever buffer: a buffer whose address and size contradict
each other is refused; if the index answers, a buffer that is too small is left alone
and the length of the answer reported, and one that is large enough gets the answer
and nothing else is written; otherwise every buffer is left alone and the reply is the
same, without a length. -/
theorem call_passes (req : Request) (hGiven : req.Given m) :
    (∀ m' output capacity, m'.Extends m → ¬ BufferOk output capacity →
      req.call sha256d runtime m' output capacity =
        some (m', queryError errorInvalidArgument)) ∧
    (∀ payload, req.Answered sha256d runtime m payload →
      ∀ m' output capacity, m'.Extends m → BufferOk output capacity →
        req.Delivers sha256d runtime payload m' output capacity) ∧
    ((∀ payload, ¬ req.Answered sha256d runtime m payload) →
      ∃ q, q.present = 0 ∧ q.payloadLen = 0 ∧
        ∀ m' output capacity, m'.Extends m → BufferOk output capacity →
          req.call sha256d runtime m' output capacity = some (m', q)) := by
  refine ⟨fun m' output capacity hExt hBuffer => ?_,
    fun payload hAnswer m' output capacity => call_of_answered sha256d hGiven hAnswer,
    call_of_not_answered sha256d hGiven⟩
  rw [call_eq_reply sha256d runtime hGiven hExt (Iff.refl (BufferOk output capacity)),
    payload_of_not_bufferOk sha256d runtime hBuffer hGiven]
  rfl

/-- An index that knows one token. -/
def sampleRuntime : RuntimeHandle where
  tokenInfo _ := .ok (some [1, 2, 3])
  confirmedTxProto _ _ := .error .err

/-- A token id at address 100, and three bytes of room at 200. -/
def sampleMemory : Memory := fun a =>
  if 100 ≤ a ∧ a < 132 ∨ 200 ≤ a ∧ a < 203 then some 0 else none

/-- A buffer without room that has an address is refused, and the length that is
reported without a buffer is not. -/
theorem tokenInfo_refused :
    (chronikRuntimeTokenInfo (some sampleRuntime) sampleMemory 100 0 0).map Prod.snd =
      some ⟨1, 0, 1, 3⟩ ∧
    (chronikRuntimeTokenInfo (some sampleRuntime) sampleMemory 100 200 0).map Prod.snd =
      some (queryError errorInvalidArgument) := by
  decide +kernel

/-- With three bytes of room the answer is copied. -/
theorem tokenInfo_copied : ∃ m',
    chronikRuntimeTokenInfo (some sampleRuntime) sampleMemory 100 200 3 =
      some (m', ⟨1, 0, 1, 3⟩) ∧ m'.read 200 3 = some ⟨[1, 2, 3], rfl⟩ := by
  have hGiven : (tokenInfo 100).Given sampleMemory := fun _ => by decide +kernel
  obtain ⟨hash, hHash⟩ := Memory.exists_read (hGiven (by decide))
  obtain ⟨-, hAnswered, -⟩ := call_passes (fun _ => hash) (some sampleRuntime) sampleMemory
    (tokenInfo 100) hGiven
  obtain ⟨-, hCopied⟩ := hAnswered [1, 2, 3] ⟨_, hash, rfl, by decide, hHash, rfl, by decide⟩
    sampleMemory 200 3 (.refl _) (by decide)
  obtain ⟨m', hCall, hRead, -⟩ := hCopied (by decide) (by decide) (by decide +kernel)
  exact ⟨m', hCall, hRead⟩

end Request

end Ergon.Runtime
