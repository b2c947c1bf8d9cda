import Fluidic.Consensus.Oscillator
import Fluidic.Library.LabelledRun

/-!
# Synthesis

`Oscillator::synthesize` of `src/consensus/oscillator.rs`, one function for each of its sections
between two lock acquisitions: decay, the copy of the decayed balances into the DAG, the admission
of pending shifts with the double-spend check and the promotion, the commutative batches, the loop
that applies stateful shifts in topological order, the EVM transactions, the fees, the commit, the
copy back into the wave-field, and the certificate.

A panic of the source is the value `none`. `attempt` is the outcome of one round of the loop, with a
constructor for each reason to skip a shift. The latency, throughput and duration that the source
reports are floating-point metrics and are left out. The hashes of the applied shifts, which the
source uses for its certificate, are returned beside the result.

`step` is one request of any kind, so that `Reaches (step platform)` is the relation of all runs of
a node.
-/

set_option autoImplicit false
set_option relaxedAutoImplicit false

namespace Fluidic.Consensus

open Library Crypto Fluidic.Field Value Operator Evm
open Std (ExtTreeMap ExtTreeSet)

/-- The result of a synthesis. -/
structure SynthesisResult where
  commutativeApplied : ℕ
  statefulApplied : ℕ
  evmApplied : ℕ
  statefulRejected : List DagError
  finalBalances : ExtTreeMap AccountId ℕ
  metabolicBurned : ℕ
  deriving DecidableEq

/-- The orders in which a synthesis visits the hash tables of the node. -/
structure SynthesisOrder extends DagOrder where
  domains : IterationOrder (DomainId × List (Coordinate × ℤ × PoolId))
  pools : DomainId → IterationOrder (PoolId × ℤ)
  views : ℕ → IterationOrder (QuorumView × ℕ)
  addresses : IterationOrder EvmAddress

/-- Every hash table is visited in the order of its keys. -/
def SynthesisOrder.forward : SynthesisOrder where
  roots := .forward
  children _ := .forward
  senders := .forward
  domains := .forward
  pools _ := .forward
  views _ := .forward
  addresses := .forward

/-- What one round of the loop over the stateful shifts finds. -/
inductive Attempt
  | settled
  | invalidSignature
  | unknownDomain
  | awaitingQuorum
  | feeUncovered
  | insufficientBalance
  | transfer (shift : StatefulShift) (fee net : ℕ)
  deriving DecidableEq

/-- Whether an attempt refuses a shift that is neither rejected nor applied. -/
def Attempt.isRefusal : Attempt → Bool
  | .settled => false
  | .transfer _ _ _ => false
  | _ => true

/-- The accumulators of the loop over the stateful shifts. -/
structure Ledger where
  balances : ExtTreeMap AccountId ℕ
  hashes : List TxHash
  activeAccounts : ExtTreeSet AccountId
  totalFees : ℕ
  rejected : List DagError
  deriving DecidableEq

namespace Oscillator

variable {platform : Platform}

/-! ### Decay -/

/-- The decay constant of the DEX domain. -/
def dexLambda (registry : DomainRegistry) : ℕ :=
  match registry.get? defaultDexDomain with
  | some policy => policy.metabolicLambdaPpm
  | none => defaultDexLambdaPpm

/-- Decay all balances to a tick, burn a share of what decayed and distribute the rest. The second
component is the total that decayed. -/
def decayPhase (oscillator : Oscillator platform) (tick : ℕ) : Oscillator platform × ℕ :=
  let immune := fun account ↦
    (oscillator.stakeTable.stakedOperators.map Prod.fst).contains account
  let (waveField, decayed) := oscillator.waveField.applyMetabolicDecay tick
    (dexLambda oscillator.domainRegistry) immune
  let burnShare := saturatingMul 128 decayed metabolicBurnBp / basisPointsDenominator
  let rewardShare := decayed - burnShare
  ({ oscillator with
      waveField
      metabolicEngine := oscillator.metabolicEngine.recordBurn decayed
      supplyTracker := if 0 < burnShare then oscillator.supplyTracker.burn burnShare
        else oscillator.supplyTracker
      rewardPool := if 0 < rewardShare then
          oscillator.rewardPool.distribute rewardShare oscillator.stakeTable
        else oscillator.rewardPool }, decayed)

/-- Copy the balances of the wave-field into the DAG. -/
def syncFieldIntoDag (oscillator : Oscillator platform) : Oscillator platform :=
  { oscillator with
    dag := { oscillator.dag with
      balances := oscillator.waveField.accounts.toList.foldl
        (fun balances entry ↦ balances.insert entry.1 entry.2.units) oscillator.dag.balances } }

/-! ### Admission -/

/-- The finalization depth of a domain. -/
def depthOf (registry : DomainRegistry) (domain : DomainId) : ℕ :=
  match registry.get? domain with
  | some policy => policy.finalizationDepth
  | none => VectorClockDag.finalizationDepth

/-- Move one pending shift into the DAG. -/
def admitShift (prim : Primitives) (registry : DomainRegistry) (keys : KeyRegistry) (tick : ℕ)
    (progress : VectorClockDag × List DagError) (shift : StatefulShift) :
    VectorClockDag × List DagError :=
  match keys[shift.sender]? with
  | none => (progress.1, progress.2 ++ [.invalidSignature (shift.hash prim)])
  | some publicKey =>
    match progress.1.insert prim shift publicKey tick (depthOf registry shift.domain) with
    | (dag, .ok _) => (dag, progress.2)
    | (dag, .error error) => (dag, progress.2 ++ [error])

/-- Move the pending shifts into the DAG, mark double spends and promote the shifts that are deep
enough. The second component lists the rejections. -/
def admitPhase (oscillator : Oscillator platform) (keys : KeyRegistry) (order : DagOrder)
    (tick : ℕ) : Oscillator platform × List DagError :=
  let (dag, rejected) := oscillator.pendingStateful.foldl
    (admitShift platform.primitives oscillator.domainRegistry keys tick) (oscillator.dag, [])
  let doubleSpends := dag.detectDoubleSpends order
  let marked := dag.markDoubleSpends doubleSpends
  ({ oscillator with pendingStateful := [], dag := (marked.promoteToFinalized tick).1 },
    rejected ++ doubleSpends)

/-! ### Commutative batches -/

/-- The pending deltas of each registered domain that allows commutative signals. The others are
dropped. -/
def byDomain (registry : DomainRegistry)
    (deltas : List (DomainId × Coordinate × ℤ × PoolId)) :
    ExtTreeMap DomainId (List (Coordinate × ℤ × PoolId)) :=
  deltas.foldl
    (fun groups delta ↦
      match registry.get? delta.1 with
      | some policy =>
        if policy.commutative then
          groups.insert delta.1 (groups.getD delta.1 [] ++ [delta.2])
        else groups
      | none => groups) ∅

/-- Synthesize the batch of one domain. A batch that fails is queued again. -/
def commutativeBatch (order : SynthesisOrder) (tick : ℕ)
    (progress : Oscillator platform × ℕ × Bytes32)
    (batch : DomainId × List (Coordinate × ℤ × PoolId)) : Oscillator platform × ℕ × Bytes32 :=
  let (oscillator, applied, _) := progress
  match oscillator.waveField.synthesizeCommutativeBatch (order.pools batch.1) batch.2 with
  | (waveField, .ok _) =>
    ({ oscillator with waveField }, applied + batch.2.length,
      commutativeRoot platform.primitives tick batch.2)
  | (waveField, .error _) =>
    ({ oscillator with
        waveField
        pendingCommutative := oscillator.pendingCommutative ++
          batch.2.map fun delta ↦ (batch.1, delta) }, applied, 0)

/-- Synthesize the pending commutative deltas, one batch per domain. The results are the number of
deltas applied and the root. -/
def commutativePhase (oscillator : Oscillator platform) (order : SynthesisOrder) (tick : ℕ) :
    Oscillator platform × ℕ × Bytes32 :=
  (order.domains.visit
    (byDomain oscillator.domainRegistry oscillator.pendingCommutative).toList).foldl
      (commutativeBatch order tick) ({ oscillator with pendingCommutative := [] }, 0, 0)

/-! ### The loop over the stateful shifts -/

/-- What the loop finds at a hash, given the balances at its turn. -/
def attempt (oscillator : Oscillator platform) (keys : KeyRegistry) (order : SynthesisOrder)
    (balances : ExtTreeMap AccountId ℕ) (node : DagNode) : Attempt :=
  if node.status.isRejected || node.applied then .settled
  else
    match keys[node.shift.sender]? with
    | none => .invalidSignature
    | some publicKey =>
      if !node.shift.verifySignature platform.primitives publicKey then .invalidSignature
      else
        match oscillator.domainRegistry.get? node.shift.domain with
        | none => .unknownDomain
        | some policy =>
          if policy.ordering = .strict ∧
              oscillator.checkQuorum (order.views node.insertedAtTick) node.insertedAtTick = none
          then .awaitingQuorum
          else
            match computeSignalFee oscillator.domainRegistry node.shift with
            | .error _ => .feeUncovered
            | .ok (fee, net) =>
              if balances.getD node.shift.sender 0 < node.shift.amount then .insufficientBalance
              else .transfer node.shift fee net

/-- The accounts that a transfer makes active: both parties, unless they are the same. -/
def markActive (active : ExtTreeSet AccountId) (shift : StatefulShift) : ExtTreeSet AccountId :=
  if shift.sender ≠ shift.recipient then (active.insert shift.sender).insert shift.recipient
  else active

/-- Move an amount from the sender to the recipient, less the fee. -/
def transferBalances (balances : ExtTreeMap AccountId ℕ) (shift : StatefulShift) (net : ℕ) :
    Option (ExtTreeMap AccountId ℕ) := do
  let held ← balances[shift.sender]?
  let debited := balances.insert shift.sender (wrappingSub 128 held shift.amount)
  return debited.insert shift.recipient (wrappingAdd 128 (debited.getD shift.recipient 0) net)

/-- Enter the outcome of an attempt into the accumulators. -/
def enter (ledger : Ledger) (hash : TxHash) : Attempt → Option Ledger
  | .settled => some ledger
  | .invalidSignature =>
    some { ledger with rejected := ledger.rejected ++ [.invalidSignature hash] }
  | .unknownDomain => some ledger
  | .awaitingQuorum => some ledger
  | .feeUncovered => some { ledger with rejected := ledger.rejected ++ [.insufficientBalance hash] }
  | .insufficientBalance =>
    some { ledger with rejected := ledger.rejected ++ [.insufficientBalance hash] }
  | .transfer shift fee net => do
    let balances ← transferBalances ledger.balances shift net
    return { ledger with
      balances
      hashes := ledger.hashes ++ [hash]
      activeAccounts := markActive ledger.activeAccounts shift
      totalFees := saturatingAdd 128 ledger.totalFees fee }

/-- One round of the loop. -/
def applyShift (oscillator : Oscillator platform) (keys : KeyRegistry) (order : SynthesisOrder)
    (ledger : Ledger) (hash : TxHash) : Option Ledger := do
  let node ← oscillator.dag.nodes[hash]?
  enter ledger hash (oscillator.attempt keys order ledger.balances node)

/-- The accumulators at the start of the loop. -/
def openLedger (oscillator : Oscillator platform) : Ledger :=
  ⟨oscillator.dag.balances, [], ∅, 0, []⟩

/-! ### Fees, commit and copy back -/

/-- The fees each sender owes for the shifts applied in a tick. -/
def feeDebt (oscillator : Oscillator platform) (hashes : List TxHash) : ExtTreeMap AccountId ℕ :=
  hashes.foldl
    (fun debt hash ↦
      match oscillator.dag.nodes[hash]? with
      | some node =>
        let fee := match computeSignalFee oscillator.domainRegistry node.shift with
          | .ok (fee, _) => fee
          | .error _ => 0
        debt.insert node.shift.sender (wrappingAdd 128 (debt.getD node.shift.sender 0) fee)
      | none => debt) ∅

/-- Take the fees of a tick from the wave-field and distribute them. -/
def chargeFees (oscillator : Oscillator platform) (hashes : List TxHash) (totalFees : ℕ) :
    Oscillator platform :=
  if totalFees = 0 then oscillator
  else
    { oscillator with
      waveField := (oscillator.feeDebt hashes).toList.foldl
        (fun field debt ↦
          (field.debitAccount debt.1 (min debt.2 (field.accountBalance debt.1).units)).1)
        oscillator.waveField
      rewardPool := oscillator.rewardPool.distributeFees totalFees oscillator.stakeTable }

/-- Mark the applied shifts and keep the balances of the loop. -/
def commit (oscillator : Oscillator platform) (hashes : List TxHash)
    (balances : ExtTreeMap AccountId ℕ) : Oscillator platform :=
  { oscillator with
    dag := { oscillator.dag with
      nodes := hashes.foldl
        (fun nodes hash ↦ nodes.modify hash fun node ↦ { node with applied := true })
        oscillator.dag.nodes
      balances } }

/-- Copy the balances of the loop into the wave-field. -/
def syncDagIntoField (oscillator : Oscillator platform) (tick : ℕ)
    (active : ExtTreeSet AccountId) (balances : ExtTreeMap AccountId ℕ) : Oscillator platform :=
  { oscillator with
    waveField := balances.toList.foldl
      (fun field entry ↦
        { field with
          accounts := (field.ensureAccount entry.1).accounts.modify entry.1 fun balance ↦
            { balance with
              units := entry.2
              lastActiveTick := if active.contains entry.1 then tick
                else balance.lastActiveTick } })
      oscillator.waveField }

/-! ### The certificate -/

/-- Sign a certificate of the tick and count it, when the operator is staked. -/
def certify (oscillator : Oscillator platform) (keys : KeyRegistry) (tick timestampNs : ℕ)
    (result : SynthesisResult) (root : Bytes32) (hashes : List TxHash) (evmHashes : List H256) :
    Oscillator platform :=
  match oscillator.operatorKeypair with
  | none => oscillator
  | some keypair =>
    if !oscillator.stakeTable.isStaked (keypair.accountId platform.primitives) then oscillator
    else
      let cert := SynthesisCertificate.sign platform.primitives keypair
        { operator := keypair.accountId platform.primitives
          tick
          commutativeApplied := result.commutativeApplied
          statefulApplied := result.statefulApplied
          evmApplied := result.evmApplied
          commutativeRoot := root
          statefulRoot := statefulRoot platform.primitives tick hashes
          balancesRoot := balancesRoot platform.primitives result.finalBalances
          stakeRoot := oscillator.stakeTable.root platform.primitives
          rewardRoot := oscillator.rewardPool.root platform.primitives
          evmRoot := evmRoot platform.primitives tick evmHashes
          metabolicBurned := result.metabolicBurned
          timestampNs
          signature := [] }
      let (oscillator, _) := oscillator.ingestCertificate cert keys
      { oscillator with certificates := oscillator.certificates.insert tick cert }

/-! ### The whole -/

/-- The sections up to the topological order. The results are the node, the deltas applied, the
commutative root, the value decayed and the rejections so far. -/
def prepare (oscillator : Oscillator platform) (keys : KeyRegistry) (order : SynthesisOrder) :
    Oscillator platform × ℕ × Bytes32 × ℕ × List DagError :=
  let tick := oscillator.synthesisTick
  let oscillator := { oscillator with synthesisTick := wrappingAdd 64 tick 1 }
  let (oscillator, decayed) := oscillator.decayPhase tick
  let oscillator := oscillator.syncFieldIntoDag
  let (oscillator, rejected) := oscillator.admitPhase keys order.toDagOrder tick
  let (oscillator, applied, root) := oscillator.commutativePhase order tick
  (oscillator, applied, root, decayed, rejected)

/-- The sections after the loop. -/
def finish (oscillator : Oscillator platform) (keys : KeyRegistry) (order : SynthesisOrder)
    (tick timestampNs : ℕ) (applied : ℕ) (root : Bytes32) (decayed : ℕ)
    (rejected : List DagError) (ledger : Ledger) :
    Option (Oscillator platform × SynthesisResult × List TxHash) := do
  let (evmPool, balances, evmHashes) ←
    oscillator.evmPool.synthesize platform.primitives order.addresses ledger.balances tick
  let oscillator := ({ oscillator with evmPool }.chargeFees ledger.hashes ledger.totalFees).commit
    ledger.hashes balances
  let oscillator := oscillator.syncDagIntoField tick ledger.activeAccounts balances
  let result : SynthesisResult :=
    { commutativeApplied := applied
      statefulApplied := ledger.hashes.length
      evmApplied := evmHashes.length
      statefulRejected := rejected ++ ledger.rejected
      finalBalances := balances
      metabolicBurned := decayed }
  return (oscillator.certify keys tick timestampNs result root ledger.hashes evmHashes, result,
    ledger.hashes)

/-- One synthesis: the node, the result and the hashes of the stateful shifts applied. -/
def synthesize (oscillator : Oscillator platform) (keys : KeyRegistry) (order : SynthesisOrder)
    (timestampNs : ℕ) : Option (Oscillator platform × SynthesisResult × List TxHash) := do
  let tick := oscillator.synthesisTick
  let (oscillator, applied, root, decayed, rejected) := oscillator.prepare keys order
  match ← oscillator.dag.topologicalOrder order.toDagOrder with
  | .error error =>
    return (oscillator,
      { commutativeApplied := applied, statefulApplied := 0, evmApplied := 0
        statefulRejected := rejected ++ [error], finalBalances := ∅
        metabolicBurned := decayed }, [])
  | .ok placed =>
    let ledger ← placed.foldlM (oscillator.applyShift keys order) oscillator.openLedger
    oscillator.finish keys order tick timestampNs applied root decayed rejected ledger

end Oscillator

/-! ### Runs -/

/-- One request to a node. -/
inductive Request
  | seedAccount (account : AccountId) (amount : ℕ)
  | markNonDecaying (account : AccountId)
  | registerDomain (policy : DomainPolicy) (registrant : AccountId)
  | ingest (signal : Signal) (nowNs : ℕ)
  | applyStake (stake : StakeShift)
  | stake (operator : AccountId) (amount : ℕ)
  | applyRegistration (reg : RegistrationShift)
  | ingestCertificate (cert : SynthesisCertificate) (keys : KeyRegistry)
  | submitEvm (tx : EvmTransaction) (nowNs : ℕ)
  | synthesize (keys : KeyRegistry) (order : SynthesisOrder) (timestampNs : ℕ)

/-- Whether a request is a synthesis. -/
def Request.isSynthesis : Request → Bool
  | .synthesize _ _ _ => true
  | _ => false

/-- What a request returns. -/
inductive Response
  | done
  | flag (accepted : Bool)
  | outcome (result : Except String Unit)
  | certificate (result : Except SlashingReason Unit)
  | synthesis (result : SynthesisResult) (hashes : List TxHash)

/-- Serve one request. -/
def step (platform : Platform) (oscillator : Oscillator platform) :
    Request → Option (Oscillator platform × Response)
  | .seedAccount account amount => some (oscillator.seedAccount account amount, .done)
  | .markNonDecaying account => some (oscillator.markNonDecaying account, .done)
  | .registerDomain policy registrant =>
    let (oscillator, result) := oscillator.registerDomain policy registrant
    some (oscillator, .outcome result)
  | .ingest signal nowNs =>
    let (oscillator, result) := oscillator.ingest signal nowNs
    some (oscillator, .outcome result)
  | .applyStake stake =>
    let (oscillator, accepted) := oscillator.applyStake stake
    some (oscillator, .flag accepted)
  | .stake operator amount =>
    some ({ oscillator with
      stakeTable := (oscillator.stakeTable.stake operator amount).1 }, .done)
  | .applyRegistration reg => some (oscillator.applyRegistration reg, .done)
  | .ingestCertificate cert keys =>
    let (oscillator, result) := oscillator.ingestCertificate cert keys
    some (oscillator, .certificate result)
  | .submitEvm tx nowNs =>
    some ({ oscillator with evmPool := oscillator.evmPool.submit tx nowNs }, .done)
  | .synthesize keys order timestampNs =>
    (oscillator.synthesize keys order timestampNs).map fun (oscillator, result, hashes) ↦
      (oscillator, .synthesis result hashes)

/-! ### Sample requests -/

/-- The account of a small seed under the stand-in primitives. -/
def sampleAccount (seed : ℕ) : AccountId :=
  KeyPair.accountId .sample ⟨BitVec.ofNat 256 seed⟩

/-- The keys of the first three seeds. -/
def sampleKeys : KeyRegistry :=
  ExtTreeMap.ofList ([1, 2, 3].map fun seed ↦ (sampleAccount seed, BitVec.ofNat 256 seed))

/-- A synthesis with these keys. -/
def Request.sample : Request := .synthesize sampleKeys .forward 0

end Fluidic.Consensus
