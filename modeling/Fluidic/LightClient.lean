import Fluidic.Consensus.Certificate
import Fluidic.Operator.Stake

/-!
# Light client

`src/light_client/mod.rs`: a client that observes certificates without synthesizing. It keeps a key
registry of its own and shares the stake table of its creator, through which equivocating operators
are slashed. `verify_result` accepts every result and is left out.
-/

set_option autoImplicit false
set_option relaxedAutoImplicit false

namespace Fluidic

open Library Crypto Consensus Operator
open Std (ExtTreeMap)

/-- The name of a reason as the debug format of the source prints it. -/
def Consensus.SlashingReason.debugName : SlashingReason → String
  | .invalidSignature => "InvalidSignature"
  | .unstakedOperator => "UnstakedOperator"
  | .conflictingCertificate => "ConflictingCertificate"

/-- The state of a light client. -/
structure LightClient where
  keyRegistry : KeyRegistry
  stakeTable : StakeTable
  tracker : CertificateTracker
  latestFinalizedTick : ℕ

namespace LightClient

/-- A client for a stake table, without keys. -/
def new (stakeTable : StakeTable) : LightClient := ⟨∅, stakeTable, CertificateTracker.new, 0⟩

/-- Register the key of an operator. -/
def registerKey (client : LightClient) (account : AccountId) (publicKey : VerifyingKey) :
    LightClient :=
  { client with keyRegistry := client.keyRegistry.insert account publicKey }

/-- Ingest a certificate and report the view that has a quorum at its tick, visiting the views in
the given order. A certificate that is refused is reported as an error, also when it slashes. -/
def ingestCertificate (prim : Primitives) (client : LightClient) (cert : SynthesisCertificate)
    (order : IterationOrder (QuorumView × ℕ)) :
    LightClient × Except String (Option QuorumView) :=
  let (tracker, stakeTable, outcome) :=
    client.tracker.apply prim cert client.keyRegistry client.stakeTable.isStaked
      client.stakeTable.getStake (fun operator table ↦ (table.slash operator).1) client.stakeTable
  let client := { client with tracker, stakeTable }
  match outcome with
  | .error reason => (client, .error ("certificate rejected: " ++ reason.debugName))
  | .ok () =>
    match tracker.checkQuorum order cert.tick stakeTable.quorumThreshold with
    | none => (client, .ok none)
    | some (view, _) =>
      ({ client with latestFinalizedTick := max client.latestFinalizedTick cert.tick },
        .ok (some view))

/-- One call of a client. -/
inductive Call
  | registerKey (account : AccountId) (publicKey : VerifyingKey)
  | ingestCertificate (cert : SynthesisCertificate) (order : IterationOrder (QuorumView × ℕ))

/-- Serve one call. The output is what the client reports. -/
def serve (prim : Primitives) (client : LightClient) :
    Call → Option (LightClient × Except String (Option QuorumView))
  | .registerKey account publicKey => some (client.registerKey account publicKey, .ok none)
  | .ingestCertificate cert order => some (client.ingestCertificate prim cert order)

end LightClient

end Fluidic
