import Fluidic.Api.DomainRoutes
import Fluidic.Api.EvmRpc
import Fluidic.Api.RewardClaims
import Fluidic.Consensus.Operations
import Fluidic.Library.RunRefinement
import Fluidic.Node.MeshNode

/-!
# A running node

All that changes the state of a mesh node while it runs: the ingest loop, the routes of the HTTP
API, the JSON-RPC gateway, the generator loop and the synthesis loop of `src/bin/mesh_node.rs`, with
the counters that the dashboard shows. `serveNode` is one event of any kind. It returns what the
event answers and the signals that the node gossips because of it.

On its oscillator every run of a node is a run of the operations of `operate`
(`operations_of_reaches`), so that what holds in every run of operations holds for a node that is
exposed to arbitrary requests, signals and transactions.

The list of recent shifts and the estimates of latency and throughput are left out, as are the
probes and the announcement of the stake, which the gossip loop repeats unchanged.
-/

set_option autoImplicit false
set_option relaxedAutoImplicit false

namespace Fluidic.Node

open Library Crypto Consensus Api Evm Persistence Fluidic.Field
open Std (ExtTreeMap)

/-! ### Requests -/

/-- A signed number of 128 bits in decimal. -/
def parseI128 (text : String) : Except StatusCode ℤ :=
  let (negative, digits) := match text.toList with
    | '-' :: rest => (true, rest)
    | '+' :: rest => (false, rest)
    | letters => (false, letters)
  match parseDigits 0 digits with
  | none => .error .badRequest
  | some value =>
    if digits = [] then .error .badRequest
    else if negative then
      if value ≤ 2 ^ 127 then .ok (-value) else .error .badRequest
    else if value < 2 ^ 127 then .ok value
    else .error .badRequest

/-- A commutative shift as clients submit it. -/
structure CommutativeShiftRequest where
  domain : Option String
  components : List ℕ
  delta : String
  poolId : String
  nonce : ℕ
  timestampNs : ℕ
  signature : String
  deriving DecidableEq

/-- Parse a submitted commutative shift. -/
def parseCommutativeShift (request : CommutativeShiftRequest) :
    Except StatusCode CommutativeShift := do
  let domain ← request.domain.elim (.ok defaultDexDomain) parseHash
  let coordinate ←
    if hlength : request.components.toArray.size = coordDim then
      .ok (⟨⟨request.components.toArray, hlength⟩⟩ : Coordinate)
    else .error .badRequest
  let delta ← parseI128 request.delta
  let poolId ← parseHash request.poolId
  let signature ← (hexDecode request.signature).elim (.error .badRequest) .ok
  return { domain, coordinate, delta, poolId, nonce := request.nonce
           timestampNs := request.timestampNs, firstSeenAtNs := 0, signature }

/-- Build a commutative shift and sign it. -/
def newCommutativeShift (prim : Primitives) (keypair : KeyPair) (domain : DomainId)
    (coordinate : Coordinate) (delta : ℤ) (poolId : PoolId) (nonce timestampNs : ℕ) :
    CommutativeShift :=
  let unsigned : CommutativeShift :=
    { domain, coordinate, delta, poolId, nonce, timestampNs, firstSeenAtNs := 0, signature := [] }
  { unsigned with signature := keypair.sign prim unsigned.signingBytes }

/-- The hash of a commutative shift. -/
def commutativeHash (prim : Primitives) (shift : CommutativeShift) : TxHash :=
  prim.blake3 (shift.signingBytes ++ shift.signature)

/-! ### The state -/

/-- The counters of the dashboard. -/
structure SynthesisStats where
  commutativeApplied : ℕ
  statefulApplied : ℕ
  evmApplied : ℕ
  deriving DecidableEq

/-- Add what a synthesis applied. -/
def SynthesisStats.record (stats : SynthesisStats) (result : SynthesisResult) : SynthesisStats :=
  { commutativeApplied := wrappingAdd 64 stats.commutativeApplied result.commutativeApplied
    statefulApplied := wrappingAdd 64 stats.statefulApplied result.statefulApplied
    evmApplied := wrappingAdd 64 stats.evmApplied result.evmApplied }

/-- The state of a running node: the state behind its API, the counters, its keypair and the nonce
of its generator. -/
structure RunningNode (platform : Platform) extends OperatorApiState platform where
  stats : SynthesisStats
  localKeypair : KeyPair
  generatorNonce : ℕ

namespace RunningNode

variable {platform : Platform}

/-- A node that started over a loaded node state. -/
def boot (loaded : Oscillator platform) (localKeypair : KeyPair) (timestampNs : ℕ) :
    RunningNode platform :=
  { start loaded localKeypair timestampNs with
    operatorKeypair := some localKeypair
    stats := ⟨0, 0, 0⟩
    localKeypair
    generatorNonce := 0 }

/-- The sub-units that the faucet mints for an EVM address: 1,000 WAVE. -/
def evmFaucetGrant : ℕ := 1000000000000000

/-- Submit a commutative shift. The answer is its hash. -/
def submitCommutative (node : RunningNode platform) (request : CommutativeShiftRequest) :
    RunningNode platform × Except StatusCode TxHash :=
  match parseCommutativeShift request with
  | .error status => (node, .error status)
  | .ok shift =>
    let (oscillator, result) := node.oscillator.ingestCommutative shift
    ({ node with oscillator },
      (result.mapError fun _ ↦ StatusCode.badRequest).map fun _ ↦
        commutativeHash platform.primitives shift)

/-- Announce a stake of the operator. The answer is the announcement that is gossiped, and whether
the operator is eligible with it. -/
def submitOperatorStake (node : RunningNode platform) (amount : String) (timestampNs : ℕ) :
    RunningNode platform × Except StatusCode (StakeShift × Bool) :=
  match parseU128 amount with
  | .error status => (node, .error status)
  | .ok amount =>
    match node.operatorKeypair with
    | none => (node, .error .serviceUnavailable)
    | some keypair =>
      let stake := StakeShift.sign platform.primitives keypair amount 0 timestampNs
      let (oscillator, accepted) := node.oscillator.applyStake stake
      ({ node with oscillator },
        if accepted then
          .ok (stake, oscillator.stakeTable.isStaked (keypair.accountId platform.primitives))
        else .error .badRequest)

/-- Mint WAVE for an EVM address. The answer is the address, as it was requested, and its Fluidic
account. -/
def evmFaucet (node : RunningNode platform) (address : String) :
    RunningNode platform × Except StatusCode (String × String) :=
  match hexDecode (String.ofList (trimHexMarks address.toList)) with
  | none => (node, .error .badRequest)
  | some bytes =>
    if bytes.length ≠ 20 then (node, .error .badRequest)
    else
      let account := evmAddressToFluidic platform.primitives (BitVec.ofNat 160 (beValue bytes))
      ({ node with oscillator := node.oscillator.seedAccount account evmFaucetGrant },
        .ok (address, account.display))

/-- The pool of the generator: 32 bytes `0xAB`. -/
def generatorPool : PoolId :=
  0xABABABABABABABABABABABABABABABABABABABABABABABABABABABABABABABAB#256

/-- The shift that the generator emits next. -/
def generatedShift (node : RunningNode platform) : CommutativeShift :=
  newCommutativeShift platform.primitives node.localKeypair defaultDexDomain
    (.fromScalar node.generatorNonce) 1000000 generatorPool node.generatorNonce 0

/-- One round of the generator: the shift is ingested, whatever comes of it. -/
def generate (node : RunningNode platform) : RunningNode platform :=
  { node with
    oscillator := (node.oscillator.ingestCommutative node.generatedShift).1
    generatorNonce := wrappingAdd 64 node.generatorNonce 1 }

/-- One round of the synthesis loop. -/
def synthesize (node : RunningNode platform) (order : SynthesisOrder) (timestampNs : ℕ) :
    Option (RunningNode platform × SynthesisResult × List TxHash) :=
  (node.oscillator.synthesize node.registry order timestampNs).map
    fun (oscillator, result, hashes) ↦
      ({ node with oscillator, stats := node.stats.record result }, result, hashes)

/-- The certificate that the synthesis loop gossips: the one kept for the tick before the counter.
-/
def latestCertificate (node : RunningNode platform) : Option SynthesisCertificate :=
  node.oscillator.certificates[node.oscillator.synthesisTick - 1]?

end RunningNode

/-! ### Events -/

/-- An event at a running node. -/
inductive NodeEvent
  | gossip (signal : Signal) (nowNs : ℕ)
  | registerAccount (publicKeyHex : String)
  | submitStateful (request : StatefulShiftRequest) (nowNs : ℕ)
  | submitCommutative (request : CommutativeShiftRequest)
  | submitOperatorStake (amount : String) (timestampNs : ℕ)
  | registerDomain (request : RegisterDomainRequest)
  | claimOperatorRewards
  | claimLpRewards (poolId : String)
  | evmFaucet (address : String)
  | rpc (request : RpcRequest) (order : IterationOrder (H256 × EvmReceipt)) (nowNs nowSecs : ℕ)
  | generate
  | synthesize (order : SynthesisOrder) (timestampNs : ℕ)

/-- What an event answers. -/
inductive NodeOutput
  | done
  | registered (answer : Except StatusCode RegistrationShift)
  | stateful (answer : Except (StatusCode × String) TxHash)
  | commutative (answer : Except StatusCode TxHash)
  | staked (answer : Except StatusCode (StakeShift × Bool))
  | domain (answer : Except (StatusCode × String) (String × String))
  | claimed (answer : Except StatusCode (String × String))
  | minted (answer : Except StatusCode (String × String))
  | rpc (answer : Option (Except RpcError Json))
  | synthesized (result : SynthesisResult) (hashes : List TxHash)

variable {platform : Platform}

/-- Serve one event: the next state, the answer and the signals that are gossiped. -/
def serveNode (packages : RpcPackages platform) (node : RunningNode platform) :
    NodeEvent → Option (RunningNode platform × NodeOutput × List Signal)
  | .gossip signal nowNs =>
    some ({ node with toApiState := handleSignal node.toApiState signal nowNs }, .done, [])
  | .registerAccount publicKeyHex =>
    let (toApiState, answer) := node.toApiState.registerAccount publicKeyHex
    some ({ node with toApiState }, .registered answer,
      answer.toOption.toList.map Signal.registration)
  | .submitStateful request nowNs =>
    let (toApiState, answer) := node.toApiState.submitStateful request nowNs
    some ({ node with toApiState }, .stateful answer, [])
  | .submitCommutative request =>
    let (node, answer) := node.submitCommutative request
    some (node, .commutative answer, [])
  | .submitOperatorStake amount timestampNs =>
    let (node, answer) := node.submitOperatorStake amount timestampNs
    some (node, .staked answer, answer.toOption.toList.map fun staked ↦ .stake staked.1)
  | .registerDomain request =>
    let (toApiState, answer) := node.toApiState.registerDomain request
    some ({ node with toApiState }, .domain answer, [])
  | .claimOperatorRewards =>
    let (toOperatorApiState, answer) := node.toOperatorApiState.claimOperatorRewards
    some ({ node with toOperatorApiState }, .claimed answer, [])
  | .claimLpRewards poolId =>
    let (toOperatorApiState, answer) := node.toOperatorApiState.claimLpRewards poolId
    some ({ node with toOperatorApiState }, .claimed answer, [])
  | .evmFaucet address =>
    let (node, answer) := node.evmFaucet address
    some (node, .minted answer, [])
  | .rpc request order nowNs nowSecs =>
    let (toApiState, answer) := node.toApiState.dispatch packages order nowNs nowSecs request
    some ({ node with toApiState }, .rpc answer, [])
  | .generate => some (node.generate, .done, [.commutative node.generatedShift])
  | .synthesize order timestampNs =>
    (node.synthesize order timestampNs).map fun (node, result, hashes) ↦
      (node, .synthesized result hashes, node.latestCertificate.toList.map Signal.certificate)

end Fluidic.Node
