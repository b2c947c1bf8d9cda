import Fluidic.Consensus.SupplyCap

/-!
# Fees and what is left of a transfer

A registration checks the decay constant and the finalization depth of a policy, but not the
percentage of its fee. A percentage above the whole can make the fee larger than the amount, and the
rest of the amount then wraps. `Covers` says for which amounts it does not, and
`fee_add_net_eq_iff` that these are exactly the amounts that fee and rest add up to, in every state
that a node reaches after it accepted the policy.
-/

set_option autoImplicit false
set_option relaxedAutoImplicit false

namespace Fluidic.Consensus

open Library Crypto Operator
open Std (ExtTreeMap LawfulEqCmp)

/-- When an amount covers its fee: a percentage charges at most a part below one sub-unit more than
the whole, or the product with the percentage stops short of it. -/
def FeePolicy.Covers (amount : ℕ) : FeePolicy → Prop
  | .flat _ => True
  | .percentage basisPoints =>
    amount * (basisPoints - 10000) < 10000 ∨ (2 ^ 128 - 1) / 10000 ≤ amount
  | .metabolicOnly => True

/-- A share in basis points is at most the amount if and only if the amount covers it. -/
theorem percentage_le_iff (amount basisPoints : ℕ) :
    saturatingMul 128 amount basisPoints / 10000 ≤ amount ↔
      (FeePolicy.percentage basisPoints).Covers amount := by
  have hshare : amount * basisPoints / 10000 ≤ amount ↔ amount * (basisPoints - 10000) < 10000 := by
    rw [← Nat.lt_succ_iff, Nat.div_lt_iff_lt_mul (by decide)]
    obtain hpart | hmore := Nat.le_total basisPoints 10000
    · have hproduct : amount * basisPoints ≤ amount * 10000 := Nat.mul_le_mul_left amount hpart
      rw [Nat.sub_eq_zero_of_le hpart]
      omega
    · obtain ⟨excess, rfl⟩ := Nat.exists_eq_add_of_le hmore
      rw [Nat.add_sub_cancel_left, Nat.mul_add]
      omega
  unfold FeePolicy.Covers saturatingMul
  dsimp only
  obtain hsmall | hlarge := Nat.le_total (amount * basisPoints) (2 ^ 128 - 1)
  · have hbeyond (hcapped : (2 ^ 128 - 1) / 10000 ≤ amount) :
        amount * basisPoints / 10000 ≤ amount := (Nat.div_le_div_right hsmall).trans hcapped
    rw [Nat.min_eq_left hsmall, ← hshare]
    exact ⟨.inl, fun hcovers ↦ hcovers.elim id hbeyond⟩
  · have hpart (hwhole : amount * basisPoints / 10000 ≤ amount) :
        (2 ^ 128 - 1) / 10000 ≤ amount := (Nat.div_le_div_right hlarge).trans hwhole
    rw [Nat.min_eq_right hlarge, ← hshare]
    exact ⟨.inr, fun hcovers ↦ hcovers.elim hpart id⟩

namespace Oscillator

variable {platform : Platform}

/-- Under a policy, fee and rest add up to the amount if and only if the amount covers its fee.
Assumes: the domain of the shift has the policy, and the amount fits. -/
theorem fee_add_net_iff_covers {registry : DomainRegistry} {policy : DomainPolicy}
    {shift : StatefulShift} (hpolicy : registry.get? shift.domain = some policy)
    (hamount : shift.amount < 2 ^ 128) :
    (∀ fee net, computeSignalFee registry shift = .ok (fee, net) → fee + net = shift.amount) ↔
      policy.feePolicy.Covers shift.amount := by
  unfold computeSignalFee
  rw [hpolicy]
  dsimp only
  cases hfee : policy.feePolicy with
  | metabolicOnly =>
    refine iff_of_true (fun fee net hcomputed ↦ ?_) trivial
    obtain ⟨rfl, rfl⟩ := Prod.mk.inj (Except.ok.inj hcomputed)
    exact Nat.zero_add _
  | flat flatFee =>
    refine iff_of_true (fun fee net hcomputed ↦ ?_) trivial
    dsimp only at hcomputed
    split_ifs at hcomputed with hshort
    obtain ⟨rfl, rfl⟩ := Prod.mk.inj (Except.ok.inj hcomputed)
    exact Nat.add_sub_cancel' (Nat.le_of_not_lt hshort)
  | percentage basisPoints =>
    dsimp only
    rw [← percentage_le_iff]
    have hfits : saturatingMul 128 shift.amount basisPoints / 10000 ≤ 2 ^ 128 - 1 :=
      (Nat.div_le_self _ _).trans (min_le_right _ _)
    constructor
    · intro hsum
      by_contra hexceeds
      have hwrapped : wrappingSub 128 shift.amount
          (saturatingMul 128 shift.amount basisPoints / 10000) =
          shift.amount + 2 ^ 128 - saturatingMul 128 shift.amount basisPoints / 10000 :=
        Nat.mod_eq_of_lt (by omega)
      have hwhole := hsum _ _ rfl
      omega
    · intro hle fee net hcomputed
      obtain ⟨rfl, rfl⟩ := Prod.mk.inj (Except.ok.inj hcomputed)
      rw [wrappingSub_of_le hamount hle]
      exact Nat.add_sub_cancel' hle

/-! ### The policy of a domain stays -/

/-- A request keeps the policy of a registered domain. Assumes: the request is served, and the
domain has the policy. -/
theorem step_policy {oscillator next : Oscillator platform} {request : Request}
    {response : Response} {domain : DomainId} {policy : DomainPolicy}
    (hpolicy : oscillator.domainRegistry.get? domain = some policy)
    (hstep : Consensus.step platform oscillator request = some (next, response)) :
    next.domainRegistry.get? domain = some policy := by
  by_cases hregister : ∃ added registrant, request = .registerDomain added registrant
  · obtain ⟨added, registrant, rfl⟩ := hregister
    obtain ⟨rfl, -⟩ := Prod.mk.inj (Option.some.inj hstep)
    show (oscillator.registerDomain added registrant).1.domainRegistry.get? domain = some policy
    have houtcome := oscillator.registerDomain_outcome added registrant
    generalize oscillator.registerDomain added registrant = result at houtcome ⊢
    cases houtcome with
    | refused => exact hpolicy
    | registered hfree =>
      have hne : added.domain ≠ domain := by
        rintro rfl
        cases hfree.symm.trans hpolicy
      show (oscillator.domainRegistry.register added).get? domain = some policy
      unfold DomainRegistry.register DomainRegistry.get?
      rw [getElem?_insert_of_ne _ hne]
      exact hpolicy
  · have hkept := (step_domainRegistry
      (fun added registrant hrequest ↦ hregister ⟨added, registrant, hrequest⟩) hstep).1
    rw [hkept]
    exact hpolicy

/-- A registration that is accepted gives the domain its policy. Assumes: the registration is
accepted. -/
theorem registerDomain_policy {oscillator next : Oscillator platform} {policy : DomainPolicy}
    {registrant : AccountId}
    (hregister : oscillator.registerDomain policy registrant = (next, .ok ())) :
    next.domainRegistry.get? policy.domain = some policy := by
  have houtcome := oscillator.registerDomain_outcome policy registrant
  rw [hregister] at houtcome
  cases houtcome with
  | registered => exact ExtTreeMap.getElem?_insert_self

/-- After a policy was accepted, fee and rest of a shift in its domain add up to the amount, in
whatever state, if and only if the amount covers its fee. Assumes: the registration is accepted, a
run leads from it to the state, and the shift is in the domain with an amount that fits. -/
theorem fee_add_net_eq_iff {oscillator next later : Oscillator platform} {policy : DomainPolicy}
    {registrant : AccountId} {history : List (Oscillator platform × Request)}
    (hregister : oscillator.registerDomain policy registrant = (next, .ok ()))
    (hreaches : Reaches (step platform) anyStep next history later) {shift : StatefulShift}
    (hdomain : shift.domain = policy.domain) (hamount : shift.amount < 2 ^ 128) :
    (∀ fee net, computeSignalFee later.domainRegistry shift = .ok (fee, net) →
      fee + net = shift.amount) ↔ policy.feePolicy.Covers shift.amount := by
  have hpolicy : later.domainRegistry.get? policy.domain = some policy :=
    @Reaches.invariant _ _ _ _ _ _
      (fun oscillator ↦ oscillator.domainRegistry.get? policy.domain = some policy)
      (registerDomain_policy hregister) (fun _ _ _ _ _ hkept hstep ↦ step_policy hkept hstep) _ _
      hreaches
  rw [← hdomain] at hpolicy
  exact fee_add_net_iff_covers hpolicy hamount

/-! ### Samples -/

/-- A policy of a second domain with a fee. -/
def chargingPolicy (feePolicy : FeePolicy) : DomainPolicy :=
  { DomainPolicy.dexDefault with domain := 7, feePolicy }

/-- A new node with an account that can pay for a registration. -/
def registrarOscillator : Oscillator Platform.sample :=
  (create 8 none (StakeTable.new StakingConfig.default)).seedAccount (sampleAccount 1)
    domainReservationFeeUnits

/-- The node after the registration of this policy. -/
def chargingOscillator (feePolicy : FeePolicy) : Oscillator Platform.sample :=
  (registrarOscillator.registerDomain (chargingPolicy feePolicy) (sampleAccount 1)).1

/-- A shift in this domain. -/
def chargedShift (amount : ℕ) : StatefulShift :=
  { StatefulShift.sample 1 amount [] [] 1 0 with domain := 7 }

/-- A registration of three basis points, and the fee of 20000 sub-units after it. -/
theorem fee_add_net_eq_iff_threeBasisPoints :
    registrarOscillator.registerDomain (chargingPolicy (.percentage 3)) (sampleAccount 1) =
      (chargingOscillator (.percentage 3), .ok ()) ∧
    computeSignalFee (chargingOscillator (.percentage 3)).domainRegistry (chargedShift 20000) =
      .ok (6, 19994) ∧
    ((∀ fee net, computeSignalFee (chargingOscillator (.percentage 3)).domainRegistry
        (chargedShift 20000) = .ok (fee, net) → fee + net = (chargedShift 20000).amount) ↔
      (FeePolicy.percentage 3).Covers 20000) := by
  have haccepted : (registrarOscillator.registerDomain (chargingPolicy (.percentage 3))
      (sampleAccount 1)).2 = .ok () := by
    decide +kernel
  have hregister : registrarOscillator.registerDomain (chargingPolicy (.percentage 3))
      (sampleAccount 1) = (chargingOscillator (.percentage 3), .ok ()) := by
    rw [← haccepted, chargingOscillator]
  exact ⟨hregister, by decide +kernel, fee_add_net_eq_iff hregister .start rfl
    (by decide +kernel)⟩

/-- A shift of one sub-unit in a domain that charges twice the amount: the rest of it wraps. -/
theorem double_fee_wraps :
    registrarOscillator.registerDomain (chargingPolicy (.percentage 20000)) (sampleAccount 1) =
      (chargingOscillator (.percentage 20000), .ok ()) ∧
    computeSignalFee (chargingOscillator (.percentage 20000)).domainRegistry (chargedShift 1) =
      .ok (2, 2 ^ 128 - 1) ∧
    ¬ ∀ fee net, computeSignalFee (chargingOscillator (.percentage 20000)).domainRegistry
        (chargedShift 1) = .ok (fee, net) → fee + net = (chargedShift 1).amount := by
  have haccepted : (registrarOscillator.registerDomain (chargingPolicy (.percentage 20000))
      (sampleAccount 1)).2 = .ok () := by
    decide +kernel
  have hfee : computeSignalFee (chargingOscillator (.percentage 20000)).domainRegistry
      (chargedShift 1) = .ok (2, 2 ^ 128 - 1) := by
    decide +kernel
  refine ⟨?_, hfee, fun hclaim ↦ absurd (hclaim _ _ hfee) (by decide +kernel)⟩
  rw [← haccepted, chargingOscillator]

end Oscillator

end Fluidic.Consensus
