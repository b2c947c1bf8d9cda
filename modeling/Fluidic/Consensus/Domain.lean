import Fluidic.Crypto.Keys
import Fluidic.Value.Supply
import Fluidic.Value.Metabolic

/-!
# Concurrency domains

`src/consensus/domain.rs`: the policy of a domain, its validation and the registry of domains. The
built-in DEX domain is registered from the start.
-/

set_option autoImplicit false
set_option relaxedAutoImplicit false

namespace Fluidic.Consensus

open Crypto Value
open Std (ExtTreeMap)

/-- The fee for registering a domain, in sub-units: 100 WAVE. -/
def domainReservationFeeUnits : ℕ := 100 * wavePrecision

/-- How the stateful signals of a domain are ordered. -/
inductive OrderingMode
  | causal
  | commutative
  | strict
  deriving DecidableEq, Repr

/-- How a domain charges for execution. -/
inductive FeePolicy
  | flat (fee : ℕ)
  | percentage (basisPoints : ℕ)
  | metabolicOnly
  deriving DecidableEq, Repr

/-- The policy of one domain. -/
structure DomainPolicy where
  domain : DomainId
  commutative : Bool
  stateful : Bool
  ordering : OrderingMode
  finalizationDepth : ℕ
  metabolicLambdaPpm : ℕ
  feePolicy : FeePolicy
  deriving DecidableEq, Repr

namespace DomainPolicy

/-- The built-in DEX domain. -/
def dexDefault : DomainPolicy :=
  { domain := defaultDexDomain
    commutative := true
    stateful := true
    ordering := .causal
    finalizationDepth := 3
    metabolicLambdaPpm := defaultDexLambdaPpm
    feePolicy := .metabolicOnly }

/-- Validate a policy: the decay constant is below one and the finalization depth is positive. -/
def new (policy : DomainPolicy) : Except String DomainPolicy :=
  if decayDenominator ≤ policy.metabolicLambdaPpm then
    .error (s!"metabolic_lambda_ppm {policy.metabolicLambdaPpm} must be strictly less than " ++
      s!"{decayDenominator}")
  else if policy.finalizationDepth = 0 then .error "finalization_depth must be > 0"
  else .ok policy

/-- An accepted policy is kept as it is. Assumes: the policy is accepted. -/
theorem eq_of_new {policy accepted : DomainPolicy} (hnew : DomainPolicy.new policy = .ok accepted) :
    accepted = policy := by
  unfold DomainPolicy.new at hnew
  split_ifs at hnew
  exact (Except.ok.inj hnew).symm

end DomainPolicy

/-- The registered domains. -/
structure DomainRegistry where
  domains : ExtTreeMap DomainId DomainPolicy
  deriving DecidableEq

namespace DomainRegistry

/-- Register a policy under its domain. -/
def register (registry : DomainRegistry) (policy : DomainPolicy) : DomainRegistry :=
  ⟨registry.domains.insert policy.domain policy⟩

/-- The registry of a new node. -/
def new : DomainRegistry := (⟨∅⟩ : DomainRegistry).register DomainPolicy.dexDefault

/-- The policy of a domain. -/
def get? (registry : DomainRegistry) (domain : DomainId) : Option DomainPolicy :=
  registry.domains[domain]?

end DomainRegistry

end Fluidic.Consensus
