import Fluidic.Api.Routes

/-!
# A mesh node

`src/bin/mesh_node.rs`: how a node starts, and what its ingest loop does with a signal from a peer.
The signal has passed the handshake of the gossip layer and is otherwise arbitrary. The answers to
probes and the latency estimate are left out.

`serve` is one event of any kind: a signal, a request to the API, or a synthesis with the keys
registered at that time. `Reaches serve` is the relation of all runs of a node.
-/

set_option autoImplicit false
set_option relaxedAutoImplicit false

namespace Fluidic.Node

open Library Crypto Consensus Api
open Std (ExtTreeMap)

/-- The genesis balance of an operator, all of which it stakes. -/
def genesisBalance : ℕ := 1000000000000000000

variable {platform : Platform}

/-- The state of a node after it started over a loaded node state. -/
def start (loaded : Oscillator platform) (localKeypair : KeyPair) (timestampNs : ℕ) :
    ApiState platform :=
  let prim := platform.primitives
  let localAccount := localKeypair.accountId prim
  let oscillator := { loaded with operatorKeypair := some localKeypair }
  let seeded := if (oscillator.waveField.accountBalance localAccount).units = 0 then
      oscillator.seedAccount localAccount genesisBalance
    else oscillator
  let (staked, _) := seeded.applyStake
    (StakeShift.sign prim localKeypair genesisBalance 0 timestampNs)
  (ApiState.new staked).registerKey localAccount (localKeypair.publicKey prim)

/-- What the ingest loop does with a signal. -/
def handleSignal (state : ApiState platform) (signal : Signal) (nowNs : ℕ) : ApiState platform :=
  match signal with
  | .registration reg =>
    if platform.primitives.isValidKey reg.publicKey then
      let state := ((state.registerKey reg.account reg.publicKey).registerKey reg.waveAccount
        reg.publicKey).registerKey reg.usdcAccount reg.publicKey
      let state := (state.registerDerived reg.waveAccount reg.account).registerDerived
        reg.usdcAccount reg.account
      { state with oscillator := state.oscillator.applyRegistration reg }
    else state
  | .stake stake =>
    let state := if platform.primitives.isValidKey stake.publicKey then
        state.registerKey stake.operator stake.publicKey
      else state
    { state with oscillator := (state.oscillator.applyStake stake).1 }
  | .ping => state
  | .pong => state
  | .certificate cert =>
    { state with oscillator := (state.oscillator.ingestCertificate cert state.registry).1 }
  | .auth => state
  | .commutative shift =>
    { state with oscillator := (state.oscillator.ingest (.commutative shift) nowNs).1 }
  | .stateful shift =>
    { state with oscillator := (state.oscillator.ingest (.stateful shift) nowNs).1 }

/-- One event at a node. -/
inductive Event
  | gossip (signal : Signal) (nowNs : ℕ)
  | registerAccount (publicKeyHex : String)
  | submitStateful (request : StatefulShiftRequest) (nowNs : ℕ)
  | synthesize (order : SynthesisOrder) (timestampNs : ℕ)

/-- What an event returns. -/
inductive Output
  | done
  | registered (answer : Except StatusCode RegistrationShift)
  | submitted (answer : Except (StatusCode × String) TxHash)
  | synthesized (result : SynthesisResult) (hashes : List TxHash)

/-- Serve one event. -/
def serve (state : ApiState platform) : Event → Option (ApiState platform × Output)
  | .gossip signal nowNs => some (handleSignal state signal nowNs, .done)
  | .registerAccount publicKeyHex =>
    let (state, answer) := state.registerAccount publicKeyHex
    some (state, .registered answer)
  | .submitStateful request nowNs =>
    let (state, answer) := state.submitStateful request nowNs
    some (state, .submitted answer)
  | .synthesize order timestampNs =>
    (state.oscillator.synthesize state.registry order timestampNs).map
      fun (oscillator, result, hashes) ↦ ({ state with oscillator }, .synthesized result hashes)

end Fluidic.Node
