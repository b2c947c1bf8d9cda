import Fluidic.Api.State

/-!
# The routes of the HTTP API

`register_account` and `submit_stateful` of `src/api/routes.rs`, with the parsing of their requests.
A route is a function of the state to the next state and the answer; an answer is an error with a
status code, or what the source prints as JSON. The list of recent shifts, which only the explorer
reads, is left out.
-/

set_option autoImplicit false
set_option relaxedAutoImplicit false

namespace Fluidic.Api

open Library Crypto Consensus
open Std (ExtTreeMap)

/-- The status codes of the errors. -/
inductive StatusCode
  | badRequest
  | unauthorized
  | serviceUnavailable
  deriving DecidableEq, Repr

/-! ### Parsing -/

/-- A 32-byte array in hexadecimal. -/
def parseHash (hex : String) : Except StatusCode Bytes32 :=
  match (hexDecode hex).bind Bytes32.ofBytes with
  | some value => .ok value
  | none => .error .badRequest

/-- An account in hexadecimal. -/
def parseAccount (hex : String) : Except StatusCode AccountId := (parseHash hex).map AccountId.mk

/-- The number that decimal digits spell, unless one of them is foreign. -/
def parseDigits : ℕ → List Char → Option ℕ
  | value, [] => some value
  | value, digit :: rest =>
    if digit.isDigit then parseDigits (10 * value + (digit.toNat - '0'.toNat)) rest else none

/-- A `u128` in decimal, with an optional plus sign. -/
def parseU128 (text : String) : Except StatusCode ℕ :=
  let digits := match text.toList with
    | '+' :: rest => rest
    | letters => letters
  match parseDigits 0 digits with
  | some value => if digits ≠ [] ∧ value < 2 ^ 128 then .ok value else .error .badRequest
  | none => .error .badRequest

/-- A stateful shift as clients submit it. The entries of the clock are in the order in which the
hash table of the request is visited. -/
structure StatefulShiftRequest where
  sender : String
  recipient : String
  amount : String
  domain : Option DomainId
  vectorClock : Option (List (String × ℕ))
  predecessors : List String
  nonce : ℕ
  timestampNs : ℕ
  signature : String
  deriving DecidableEq

/-- Replace the status of an error by the status and a text. -/
def withText {α : Type} (text : String) : Except StatusCode α → Except (StatusCode × String) α :=
  Except.mapError fun status ↦ (status, text)

/-- Parse a submitted stateful shift. -/
def parseStatefulShift (request : StatefulShiftRequest) :
    Except (StatusCode × String) StatefulShift := do
  let sender ← withText "invalid from account" (parseAccount request.sender)
  let recipient ← withText "invalid to account" (parseAccount request.recipient)
  let amount ← withText "invalid amount" (parseU128 request.amount)
  let signature ← (hexDecode request.signature).elim
    (.error (.badRequest, "invalid signature hex")) .ok
  let entries ← request.vectorClock.elim (.error (.badRequest, "missing vector_clock")) .ok
  let vectorClock ← entries.foldlM
    (fun clock entry ↦ do
      let node ← withText "invalid vector_clock node" (parseHash entry.1)
      return (⟨clock.times.insert node entry.2⟩ : VectorClock)) VectorClock.new
  let predecessors ← request.predecessors.mapM fun hash ↦
    withText "invalid predecessor" (parseHash hash)
  return { domain := request.domain.getD defaultDexDomain
           sender
           recipient
           amount
           vectorClock
           predecessors
           nonce := request.nonce
           timestampNs := request.timestampNs
           firstSeenAtNs := 0
           signature }

/-! ### Registration -/

/-- The sub-units that the faucet mints into each token account: 1,000 tokens. -/
def faucetGrant : ℕ := 1000000000000000

namespace ApiState

variable {platform : Platform}

/-- Register an account by its public key in hexadecimal, with a grant for its token accounts. The
answer is the registration that is gossiped. -/
def registerAccount (state : ApiState platform) (publicKeyHex : String) :
    ApiState platform × Except StatusCode RegistrationShift :=
  let prim := platform.primitives
  match parseHash publicKeyHex with
  | .error status => (state, .error status)
  | .ok key =>
    if !prim.isValidKey key then (state, .error .badRequest)
    else
      let account := AccountId.fromPublicKey prim key
      let (waveAccount, usdcAccount) := tokenAccounts prim account
      let state := state.registerKey account key
      let state := { state with
        oscillator := ((state.oscillator.seedAccount waveAccount faucetGrant).seedAccount
          usdcAccount faucetGrant).markNonDecaying usdcAccount }
      let state := (state.registerKey waveAccount key).registerKey usdcAccount key
      let state := (state.registerDerived waveAccount account).registerDerived usdcAccount account
      (state, .ok { account, publicKey := key, waveAccount, usdcAccount, nonce := 0
                    timestampNs := 0 })

/-! ### Submission -/

/-- Check the signature and the clock of a submitted shift. -/
def checkSubmitted (state : ApiState platform) (shift : StatefulShift) :
    Except (StatusCode × String) Unit :=
  match state.registry[shift.sender]? with
  | none => .error (.unauthorized, "unknown sender")
  | some key =>
    if shift.signature.length ≠ 64 then .error (.badRequest, "invalid signature bytes")
    else if !platform.primitives.verify key shift.signingBytes shift.signature then
      .error (.unauthorized, "invalid signature")
    else
      (state.oscillator.dag.validateVectorClock shift.sender shift.vectorClock).mapError
        fun text ↦ (.badRequest, text)

/-- The payout of a swap: from the other pool to the other token account of the owner. -/
def payoutFor (state : ApiState platform) (shift : StatefulShift) :
    Except (StatusCode × String) StatefulShift :=
  match state.mainAccount shift.sender with
  | none => .error (.badRequest, "derived account not registered")
  | some main =>
    let prim := platform.primitives
    let (waveUser, usdcUser) := tokenAccounts prim main
    let (payoutSender, payoutRecipient, payoutAmount) :=
      if shift.recipient = state.poolWaveAccount then
        (state.poolUsdcAccount, usdcUser, state.waveToUsdcOut shift.amount)
      else (state.poolWaveAccount, waveUser, state.usdcToWaveOut shift.amount)
    if payoutAmount = 0 then .error (.serviceUnavailable, "swap output is zero")
    else
      .ok (buildPoolPayoutShift prim state.poolKeypair payoutSender payoutRecipient payoutAmount
        shift.nonce (state.oscillator.dag.accountTip payoutSender))

/-- Ingest a stateful shift. -/
def ingestShift (state : ApiState platform) (shift : StatefulShift) (nowNs : ℕ)
    (context : String) : ApiState platform × Except (StatusCode × String) Unit :=
  let (oscillator, result) := state.oscillator.ingest (.stateful shift) nowNs
  ({ state with oscillator }, result.mapError fun text ↦ (.badRequest, context ++ text))

/-- Submit a stateful shift. A shift to one of the pools is a swap: its payout is queued first. -/
def submitStateful (state : ApiState platform) (request : StatefulShiftRequest) (nowNs : ℕ) :
    ApiState platform × Except (StatusCode × String) TxHash :=
  match parseStatefulShift request with
  | .error error => (state, .error error)
  | .ok shift =>
    match state.checkSubmitted shift with
    | .error error => (state, .error error)
    | .ok _ =>
      let isSwap :=
        shift.recipient = state.poolWaveAccount ∨ shift.recipient = state.poolUsdcAccount
      let (state, paid) :=
        if isSwap then
          match state.payoutFor shift with
          | .error error => (state, .error error)
          | .ok payout => state.ingestShift payout nowNs "payout ingest failed: "
        else (state, .ok ())
      match paid with
      | .error error => (state, .error error)
      | .ok _ =>
        let (state, result) := state.ingestShift shift nowNs "shift ingest failed: "
        (state, result.map fun _ ↦ shift.hash platform.primitives)

end ApiState

end Fluidic.Api
