import Fluidic.Consensus.Dag
import Fluidic.Consensus.Certificate
import Fluidic.Consensus.Domain
import Fluidic.Operator.Rewards
import Fluidic.Field.WaveField
import Fluidic.Evm.Pool
import Mathlib.Data.Finset.Insert

/-!
# The oscillator and its requests

The state of a node and the requests of `src/consensus/oscillator.rs` other than synthesis: seeding,
domain registration, ingestion, staking, registration and certificates. Each request is one function
from the state to the state and what the source returns, with its error texts. The wall-clock time
that a request reads is an argument.

The identity, the gossip keypair and the vector clock of the node take part in no request and are
left out.
-/

set_option autoImplicit false
set_option relaxedAutoImplicit false

namespace Fluidic.Consensus

open Library Crypto Fluidic.Field Value Operator Evm
open Std (ExtTreeMap ExtTreeSet TransOrd)

/-- The third-party packages a node runs on. -/
structure Platform where
  primitives : Primitives
  revm : Revm

/-- Packages with which runs on concrete inputs can be evaluated. -/
def Platform.sample : Platform := ⟨Primitives.sample, Revm.sample⟩

/-- A signal of the gossip network. The payloads of probes and handshakes are not read by a node. -/
inductive Signal
  | commutative (shift : CommutativeShift)
  | stateful (shift : StatefulShift)
  | registration (shift : RegistrationShift)
  | stake (shift : StakeShift)
  | ping
  | pong
  | certificate (cert : SynthesisCertificate)
  | auth

/-- Nonces are kept per account and domain. -/
instance : TransOrd (AccountId × DomainId) :=
  inferInstanceAs (TransOrd (AccountId × Bytes32))

/-- The state of a node. -/
structure Oscillator (platform : Platform) where
  waveField : WaveField
  dag : VectorClockDag
  pendingCommutative : List (DomainId × Coordinate × ℤ × PoolId)
  pendingStateful : List StatefulShift
  seenSignatures : Finset (List UInt8)
  seenNonces : ExtTreeMap (AccountId × DomainId) ℕ
  metabolicEngine : MetabolicDecayEngine
  synthesisTick : ℕ
  domainRegistry : DomainRegistry
  operatorKeypair : Option KeyPair
  certificates : ExtTreeMap ℕ SynthesisCertificate
  stakeTable : StakeTable
  certificateTracker : CertificateTracker
  rewardPool : RewardPool
  evmPool : EvmPool platform.revm
  supplyTracker : SupplyTracker

namespace Oscillator

variable {platform : Platform}

/-! ### Creation -/

/-- A new node with the given transform size, operator keypair and stake table. -/
def create (nttSize : ℕ) (operatorKeypair : Option KeyPair) (stakeTable : StakeTable) :
    Oscillator platform :=
  { waveField := WaveField.new nttSize
    dag := VectorClockDag.new
    pendingCommutative := []
    pendingStateful := []
    seenSignatures := ∅
    seenNonces := ∅
    metabolicEngine := MetabolicDecayEngine.new
    synthesisTick := 0
    domainRegistry := DomainRegistry.new
    operatorKeypair
    certificates := ∅
    stakeTable
    certificateTracker := CertificateTracker.new
    rewardPool := RewardPool.new
    evmPool := EvmPool.new
    supplyTracker := SupplyTracker.new }

/-- A node without an operator keypair, with an empty stake table. -/
def newWithKeypair (nttSize : ℕ) : Oscillator platform :=
  create nttSize none (StakeTable.new StakingConfig.default)

/-- An operator node with a stake table. -/
def newWithStake (nttSize : ℕ) (keypair : KeyPair) (stakeTable : StakeTable) :
    Oscillator platform :=
  create nttSize (some keypair) stakeTable

/-! ### Replay protection -/

/-- Check a nonce against the highest one seen for the account and domain, and record it. -/
def checkAndRecordNonce (oscillator : Oscillator platform) (account : AccountId)
    (domain : DomainId) (nonce : ℕ) : Except String (Oscillator platform) :=
  let recorded := { oscillator with
    seenNonces := oscillator.seenNonces.insert (account, domain) nonce }
  match oscillator.seenNonces[(account, domain)]? with
  | some highest =>
    if nonce ≤ highest then
      .error (s!"replay: nonce {nonce} is not greater than highest seen {highest} " ++
        s!"for account {account.display} in domain {hexEncode domain.toBytes}")
    else .ok recorded
  | none => .ok recorded

/-! ### Certificates -/

/-- Slash an operator and burn its stake. -/
def slashOperator (operator : AccountId) (ledgers : StakeTable × SupplyTracker) :
    StakeTable × SupplyTracker :=
  let (stakeTable, _, burned) := ledgers.1.slash operator
  (stakeTable, ledgers.2.burn burned)

/-- Ingest a certificate. A conflicting one slashes its operator. -/
def ingestCertificate (oscillator : Oscillator platform) (cert : SynthesisCertificate)
    (registry : KeyRegistry) : Oscillator platform × Except SlashingReason Unit :=
  let (certificateTracker, (stakeTable, supplyTracker), outcome) :=
    oscillator.certificateTracker.apply platform.primitives cert registry
      oscillator.stakeTable.isStaked oscillator.stakeTable.getStake slashOperator
      (oscillator.stakeTable, oscillator.supplyTracker)
  ({ oscillator with certificateTracker, stakeTable, supplyTracker }, outcome)

/-- The view of a tick whose certificates make a quorum. -/
def checkQuorum (oscillator : Oscillator platform) (order : IterationOrder (QuorumView × ℕ))
    (tick : ℕ) : Option (QuorumView × ℕ) :=
  oscillator.certificateTracker.checkQuorum order tick oscillator.stakeTable.quorumThreshold

/-! ### Accounts and domains -/

/-- Mint an amount into an account, unless the supply cap forbids it. -/
def seedAccount (oscillator : Oscillator platform) (account : AccountId) (amount : ℕ) :
    Oscillator platform :=
  match oscillator.supplyTracker.mint amount with
  | (_, false) => oscillator
  | (supplyTracker, true) =>
    { oscillator with
      supplyTracker
      dag := oscillator.dag.seedBalance account amount
      waveField := oscillator.waveField.creditAccount account amount }

/-- Seeding credits the account when the mint succeeds. -/
theorem seedAccount_eq (oscillator : Oscillator platform) (account : AccountId) (amount : ℕ) :
    oscillator.seedAccount account amount =
      if (oscillator.supplyTracker.mint amount).2 then
        { oscillator with
          supplyTracker := (oscillator.supplyTracker.mint amount).1
          dag := oscillator.dag.seedBalance account amount
          waveField := oscillator.waveField.creditAccount account amount }
      else oscillator := by
  unfold seedAccount
  cases hmint : oscillator.supplyTracker.mint amount with
  | mk supplyTracker minted =>
    cases minted with
    | false => rfl
    | true => rfl

/-- Exempt an account from decay. -/
def markNonDecaying (oscillator : Oscillator platform) (account : AccountId) :
    Oscillator platform :=
  { oscillator with waveField := oscillator.waveField.setNonDecaying account }

/-- Register a domain. The registrant pays the reservation fee, which goes to the reward pool. -/
def registerDomain (oscillator : Oscillator platform) (policy : DomainPolicy)
    (registrant : AccountId) : Oscillator platform × Except String Unit :=
  match DomainPolicy.new policy with
  | .error text => (oscillator, .error text)
  | .ok policy =>
    let fee := domainReservationFeeUnits
    let held := (oscillator.waveField.accountBalance registrant).units
    if (oscillator.domainRegistry.get? policy.domain).isSome then
      (oscillator, .error s!"domain {hexEncode policy.domain.toBytes} is already registered")
    else if held < fee then
      (oscillator, .error (s!"insufficient balance to reserve domain " ++
        s!"{hexEncode policy.domain.toBytes}: need {fee}, have {held}"))
    else
      match oscillator.waveField.debitAccount registrant fee with
      | (waveField, false) =>
        ({ oscillator with waveField }, .error "failed to debit domain reservation fee")
      | (waveField, true) =>
        ({ oscillator with
            waveField
            rewardPool := oscillator.rewardPool.distributeFees fee oscillator.stakeTable
            domainRegistry := oscillator.domainRegistry.register policy }, .ok ())

/-! ### Ingestion -/

/-- The text for a domain that is not registered. -/
def unknownDomain (domain : DomainId) : String := s!"unknown domain {hexEncode domain.toBytes}"

/-- Queue a commutative shift whose signature was not seen before. -/
def ingestCommutative (oscillator : Oscillator platform) (shift : CommutativeShift) :
    Oscillator platform × Except String Unit :=
  match oscillator.domainRegistry.get? shift.domain with
  | none => (oscillator, .error (unknownDomain shift.domain))
  | some policy =>
    if !policy.commutative then
      (oscillator, .error
        s!"domain {hexEncode shift.domain.toBytes} does not allow commutative signals")
    else if shift.signature ∈ oscillator.seenSignatures then (oscillator, .ok ())
    else
      ({ oscillator with
          seenSignatures := insert shift.signature oscillator.seenSignatures
          pendingCommutative := oscillator.pendingCommutative ++
            [(shift.domain, shift.coordinate, shift.delta, shift.poolId)] }, .ok ())

/-- Queue a stateful shift whose nonce is above all earlier ones of its sender and domain and whose
signature was not seen before. The nonce is recorded before the amount is checked. -/
def ingestStateful (oscillator : Oscillator platform) (shift : StatefulShift) (nowNs : ℕ) :
    Oscillator platform × Except String Unit :=
  match oscillator.domainRegistry.get? shift.domain with
  | none => (oscillator, .error (unknownDomain shift.domain))
  | some policy =>
    if !policy.stateful then
      (oscillator,
        .error s!"domain {hexEncode shift.domain.toBytes} does not allow stateful signals")
    else if policy.ordering = .commutative ∧ shift.predecessors ≠ [] then
      (oscillator, .error "commutative domain does not accept predecessor edges")
    else
      match oscillator.checkAndRecordNonce shift.sender shift.domain shift.nonce with
      | .error text => (oscillator, .error text)
      | .ok recorded =>
        if shift.signature ∈ recorded.seenSignatures then (recorded, .ok ())
        else if shift.amount = 0 then (recorded, .error "stateful shift with zero amount")
        else
          let shift := if shift.firstSeenAtNs = 0 then { shift with firstSeenAtNs := nowNs }
            else shift
          ({ recorded with
              seenSignatures := insert shift.signature recorded.seenSignatures
              pendingStateful := recorded.pendingStateful ++ [shift] }, .ok ())

/-- Ingest a signal. -/
def ingest (oscillator : Oscillator platform) (signal : Signal) (nowNs : ℕ) :
    Oscillator platform × Except String Unit :=
  match signal with
  | .commutative shift => oscillator.ingestCommutative shift
  | .stateful shift => oscillator.ingestStateful shift nowNs
  | .registration _ => (oscillator, .ok ())
  | .stake _ => (oscillator, .error "stake signals must be applied via apply_stake")
  | .ping => (oscillator, .ok ())
  | .pong => (oscillator, .ok ())
  | .certificate _ => (oscillator, .ok ())
  | .auth => (oscillator, .ok ())

/-! ### Stakes and registrations -/

/-- Move the difference between the announced and the locked stake of an operator between its
balances and the stake table. -/
def moveStake (oscillator : Oscillator platform) (operator : AccountId) (amount : ℕ) :
    Oscillator platform × Bool :=
  let locked := oscillator.stakeTable.getStake operator
  let liquid := oscillator.dag.balances.getD operator 0
  if locked < amount then
    let additional := amount - locked
    if (oscillator.waveField.accountBalance operator).units < additional then (oscillator, false)
    else
      match oscillator.waveField.debitAccount operator additional with
      | (waveField, false) => ({ oscillator with waveField }, false)
      | (waveField, true) =>
        ({ oscillator with
            waveField
            dag := { oscillator.dag with
              balances := oscillator.dag.balances.insert operator (liquid - additional) }
            stakeTable := (oscillator.stakeTable.stake operator amount).1 }, true)
  else
    let refund := locked - amount
    ({ oscillator with
        waveField := oscillator.waveField.creditAccount operator refund
        dag := { oscillator.dag with
          balances := oscillator.dag.balances.insert operator (wrappingAdd 128 liquid refund) }
        stakeTable := (oscillator.stakeTable.stake operator amount).1 }, true)

/-- Apply a stake announcement. The nonce is recorded before the balance is checked. -/
def applyStake (oscillator : Oscillator platform) (stake : StakeShift) :
    Oscillator platform × Bool :=
  if !stake.verify platform.primitives then (oscillator, false)
  else
    match oscillator.checkAndRecordNonce stake.operator 0 stake.nonce with
    | .error _ => (oscillator, false)
    | .ok recorded =>
      if stake.amount = recorded.stakeTable.getStake stake.operator then (recorded, true)
      else recorded.moveStake stake.operator stake.amount

/-- The sub-units that a registration seeds each of its two token accounts with. -/
def registrationGrant : ℕ := 10000000000000

/-- Credit a registered token account that holds nothing. -/
def creditIfEmpty (field : WaveField) (account : AccountId) : WaveField :=
  if (field.accountBalance account).units = 0 then field.creditAccount account registrationGrant
  else field

/-- Apply a registration. -/
def applyRegistration (oscillator : Oscillator platform) (reg : RegistrationShift) :
    Oscillator platform :=
  match oscillator.checkAndRecordNonce reg.account 0 reg.nonce with
  | .error _ => oscillator
  | .ok recorded =>
    let field := (((recorded.waveField.ensureAccount reg.account).ensureAccount
      reg.waveAccount).ensureAccount reg.usdcAccount).setNonDecaying reg.usdcAccount
    { recorded with
      dag := (recorded.dag.seedBalance reg.waveAccount registrationGrant).seedBalance
        reg.usdcAccount registrationGrant
      waveField := creditIfEmpty (creditIfEmpty field reg.waveAccount) reg.usdcAccount }

/-! ### Fees -/

/-- The fee of a shift under the policy of its domain, and the amount that remains. -/
def computeSignalFee (registry : DomainRegistry) (shift : StatefulShift) : Except String (ℕ × ℕ) :=
  match registry.get? shift.domain with
  | none => .error (unknownDomain shift.domain)
  | some policy =>
    match policy.feePolicy with
    | .flat fee =>
      if shift.amount < fee then .error "transfer amount does not cover flat fee"
      else .ok (fee, shift.amount - fee)
    | .percentage basisPoints =>
      let fee := saturatingMul 128 shift.amount basisPoints / 10000
      .ok (fee, wrappingSub 128 shift.amount fee)
    | .metabolicOnly => .ok (0, shift.amount)

end Oscillator

end Fluidic.Consensus
