import Fluidic.Consensus.Ingestion

/-!
# What requests lead to

The requests that move balances behind gates, each with its outcomes. A stake announcement passes
its signature and its nonce and then compares the announced stake with the locked one
(`StakeOutcome`). The registration of a domain passes the checks of its policy and pays the fee
(`RegisterOutcome`). The registration of an account passes its nonce (`applyRegistration_eq`). Later
proofs go by these outcomes and not by the branches of the source.
-/

set_option autoImplicit false
set_option relaxedAutoImplicit false

namespace Fluidic.Consensus.Oscillator

open Library Crypto Fluidic.Field Operator
open Std (ExtTreeMap LawfulEqCmp)

variable {platform : Platform}

/-! ### Stake announcements -/

/-- Whether an announcement passes the gates: its signature is valid and its nonce fresh. -/
def admitsStake (oscillator : Oscillator platform) (stake : StakeShift) : Bool :=
  stake.verify platform.primitives && oscillator.isFresh stake.operator 0 stake.nonce

theorem isFresh_of_admitsStake {oscillator : Oscillator platform} {stake : StakeShift}
    (hadmits : oscillator.admitsStake stake = true) :
    oscillator.isFresh stake.operator 0 stake.nonce = true := by
  unfold admitsStake at hadmits
  exact (Bool.and_eq_true _ _ ▸ hadmits).2

/-- The node after the nonce of an announcement was recorded. -/
def noted (oscillator : Oscillator platform) (stake : StakeShift) : Oscillator platform :=
  { oscillator with
    seenNonces := oscillator.seenNonces.insert (stake.operator, 0) stake.nonce }

/-- The node after an announcement: the operator has a balance in the field and one in the DAG, and
the stake is locked. -/
def moved (oscillator : Oscillator platform) (stake : StakeShift) (balance : Balance)
    (liquid : ℕ) : Oscillator platform :=
  { oscillator.noted stake with
    waveField := { oscillator.waveField with
      accounts := oscillator.waveField.accounts.insert stake.operator balance }
    dag := { oscillator.dag with
      balances := oscillator.dag.balances.insert stake.operator liquid }
    stakeTable := (oscillator.stakeTable.stake stake.operator stake.amount).1 }

/-- The balance of the operator of an announcement. -/
def operatorBalance (oscillator : Oscillator platform) (stake : StakeShift) : Balance :=
  oscillator.waveField.accountBalance stake.operator

/-- The stake that the operator of an announcement has locked. -/
def lockedBy (oscillator : Oscillator platform) (stake : StakeShift) : ℕ :=
  oscillator.stakeTable.getStake stake.operator

/-- What an announcement does to the node. -/
inductive StakeOutcome (oscillator : Oscillator platform) (stake : StakeShift) :
    Oscillator platform × Bool → Prop
  | refused : oscillator.admitsStake stake = false →
      StakeOutcome oscillator stake (oscillator, false)
  | repeated : oscillator.admitsStake stake = true → stake.amount = oscillator.lockedBy stake →
      StakeOutcome oscillator stake (oscillator.noted stake, true)
  | short : oscillator.admitsStake stake = true → oscillator.lockedBy stake < stake.amount →
      (oscillator.operatorBalance stake).units < stake.amount - oscillator.lockedBy stake →
      StakeOutcome oscillator stake (oscillator.noted stake, false)
  | raised (liquid : ℕ) : oscillator.admitsStake stake = true →
      oscillator.lockedBy stake < stake.amount →
      stake.amount - oscillator.lockedBy stake ≤ (oscillator.operatorBalance stake).units →
      StakeOutcome oscillator stake
        (oscillator.moved stake ((oscillator.operatorBalance stake).saturatingSub
          (stake.amount - oscillator.lockedBy stake)) liquid, true)
  | lowered (liquid : ℕ) : oscillator.admitsStake stake = true →
      stake.amount < oscillator.lockedBy stake →
      StakeOutcome oscillator stake
        (oscillator.moved stake ((oscillator.operatorBalance stake).saturatingAdd
          (oscillator.lockedBy stake - stake.amount)) liquid, true)

/-- Moving a stake has one of the last three outcomes. Assumes: the announcement passes the gates,
and does not repeat the locked stake. -/
theorem moveStake_outcome {oscillator : Oscillator platform} {stake : StakeShift}
    (hadmits : oscillator.admitsStake stake = true)
    (hsame : stake.amount ≠ oscillator.lockedBy stake) :
    StakeOutcome oscillator stake
      ((oscillator.noted stake).moveStake stake.operator stake.amount) := by
  have hlocked : (oscillator.noted stake).stakeTable.getStake stake.operator =
      oscillator.lockedBy stake := rfl
  have hbalance : (oscillator.noted stake).waveField.accountBalance stake.operator =
      oscillator.operatorBalance stake := rfl
  unfold moveStake
  dsimp only
  rw [hlocked, hbalance]
  by_cases hraises : oscillator.lockedBy stake < stake.amount
  · rw [if_pos hraises]
    by_cases hshort : (oscillator.operatorBalance stake).units <
        stake.amount - oscillator.lockedBy stake
    · rw [if_pos hshort]
      exact .short hadmits hraises hshort
    · have hcovered := Nat.le_of_not_lt hshort
      rw [if_neg hshort, WaveField.debitAccount_of_le (by rw [hbalance]; exact hcovered), hbalance]
      exact .raised _ hadmits hraises hcovered
  · rw [if_neg hraises, WaveField.creditAccount_eq, hbalance]
    exact .lowered _ hadmits (by omega)

/-- Every announcement has one of the outcomes. -/
theorem applyStake_outcome (oscillator : Oscillator platform) (stake : StakeShift) :
    StakeOutcome oscillator stake (oscillator.applyStake stake) := by
  unfold applyStake
  cases hverify : stake.verify platform.primitives with
  | false => exact .refused (by rw [admitsStake, hverify, Bool.false_and])
  | true =>
    rw [if_neg (by decide)]
    cases hfresh : oscillator.isFresh stake.operator 0 stake.nonce with
    | false =>
      obtain ⟨text, hrefused⟩ := checkAndRecordNonce_of_not_isFresh hfresh
      rw [hrefused]
      exact .refused (by rw [admitsStake, hverify, hfresh, Bool.true_and])
    | true =>
      have hadmits : oscillator.admitsStake stake = true := by
        rw [admitsStake, hverify, hfresh, Bool.true_and]
      rw [checkAndRecordNonce_of_isFresh hfresh]
      show StakeOutcome oscillator stake
        (if stake.amount = oscillator.lockedBy stake then (oscillator.noted stake, true)
        else (oscillator.noted stake).moveStake stake.operator stake.amount)
      split_ifs with hsame
      · exact .repeated hadmits hsame
      · exact moveStake_outcome hadmits hsame

/-! ### Registrations of domains -/

/-- The node after a domain was registered. The fee went from the registrant to the rewards. -/
def withDomain (oscillator : Oscillator platform) (policy : DomainPolicy)
    (registrant : AccountId) : Oscillator platform :=
  { oscillator with
    waveField := { oscillator.waveField with
      accounts := oscillator.waveField.accounts.insert registrant
        ((oscillator.waveField.accountBalance registrant).saturatingSub
          domainReservationFeeUnits) }
    rewardPool := oscillator.rewardPool.distributeFees domainReservationFeeUnits
      oscillator.stakeTable
    domainRegistry := oscillator.domainRegistry.register policy }

/-- What the registration of a domain does to the node. -/
inductive RegisterOutcome (oscillator : Oscillator platform) (policy : DomainPolicy)
    (registrant : AccountId) : Oscillator platform × Except String Unit → Prop
  | refused (text : String) :
    RegisterOutcome oscillator policy registrant (oscillator, .error text)
  | registered : oscillator.domainRegistry.get? policy.domain = none →
      domainReservationFeeUnits ≤ (oscillator.waveField.accountBalance registrant).units →
      RegisterOutcome oscillator policy registrant
        (oscillator.withDomain policy registrant, .ok ())

/-- Every registration has one of the outcomes. -/
theorem registerDomain_outcome (oscillator : Oscillator platform) (policy : DomainPolicy)
    (registrant : AccountId) :
    RegisterOutcome oscillator policy registrant
      (oscillator.registerDomain policy registrant) := by
  unfold registerDomain
  cases hnew : DomainPolicy.new policy with
  | error text => exact .refused text
  | ok checked =>
    obtain rfl := DomainPolicy.eq_of_new hnew
    dsimp only
    split_ifs with hpresent hshort
    · exact .refused _
    · exact .refused _
    · have hcovered := Nat.le_of_not_lt hshort
      rw [WaveField.debitAccount_of_le hcovered]
      exact .registered (Option.not_isSome_iff_eq_none.mp hpresent) hcovered

/-! ### Registrations of accounts -/

/-- The node after an account was registered: the nonce is recorded, and the DAG and the wave-field
have the accounts for trading with what they are granted. -/
def withAccounts (oscillator : Oscillator platform) (reg : RegistrationShift) :
    Oscillator platform :=
  let field := (((oscillator.waveField.ensureAccount reg.account).ensureAccount
    reg.waveAccount).ensureAccount reg.usdcAccount).setNonDecaying reg.usdcAccount
  { oscillator with
    seenNonces := oscillator.seenNonces.insert (reg.account, 0) reg.nonce
    dag := (oscillator.dag.seedBalance reg.waveAccount registrationGrant).seedBalance
      reg.usdcAccount registrationGrant
    waveField := creditIfEmpty (creditIfEmpty field reg.waveAccount) reg.usdcAccount }

/-- A registration whose nonce is fresh creates the accounts, and another one does nothing. -/
theorem applyRegistration_eq (oscillator : Oscillator platform) (reg : RegistrationShift) :
    oscillator.applyRegistration reg =
      if oscillator.isFresh reg.account 0 reg.nonce then oscillator.withAccounts reg
      else oscillator := by
  unfold applyRegistration
  cases hfresh : oscillator.isFresh reg.account 0 reg.nonce with
  | false =>
    obtain ⟨text, hrefused⟩ := checkAndRecordNonce_of_not_isFresh hfresh
    rw [hrefused]
    rfl
  | true =>
    rw [checkAndRecordNonce_of_isFresh hfresh]
    rfl

end Fluidic.Consensus.Oscillator
