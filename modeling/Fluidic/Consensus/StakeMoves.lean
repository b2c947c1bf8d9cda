import Fluidic.Consensus.RequestOutcomes

/-!
# What a stake announcement moves

An announcement is compared with the locked stake of the operator, which is zero after a slash. One
that is accepted moves the difference between the liquid balance of the operator and its entry in
the stake table, and touches nothing else (`applyStake_moves`).
-/

set_option autoImplicit false
set_option relaxedAutoImplicit false

namespace Fluidic.Consensus.Oscillator

open Library Crypto Fluidic.Field Operator
open Std (ExtTreeMap LawfulEqCmp)

variable {platform : Platform}

/-! ### What moves -/

/-- What an accepted announcement does: the operator has what it had, in balance and stake together,
its stake is the announced one, and nothing else changes. -/
structure StakeMoved (oscillator : Oscillator platform) (stake : StakeShift)
    (next : Oscillator platform) : Prop where
  conserved : (next.operatorBalance stake).units + next.lockedBy stake =
    (oscillator.operatorBalance stake).units + oscillator.lockedBy stake
  requested : next.lockedBy stake = stake.amount
  accounts : ∀ other, other ≠ stake.operator →
    next.waveField.accounts[other]? = oscillator.waveField.accounts[other]?
  pools : next.waveField.pools = oscillator.waveField.pools
  liquid : ∀ other, other ≠ stake.operator →
    next.dag.balances[other]? = oscillator.dag.balances[other]?
  operators : ∀ other, other ≠ stake.operator →
    next.stakeTable.operators[other]? = oscillator.stakeTable.operators[other]?
  slashed : ∀ other, next.stakeTable.isSlashed other = oscillator.stakeTable.isSlashed other

/-- Recording a nonce moves nothing. Assumes: the announced stake is the locked one. -/
theorem stakeMoved_noted {oscillator : Oscillator platform} {stake : StakeShift}
    (hsame : stake.amount = oscillator.lockedBy stake) :
    StakeMoved oscillator stake (oscillator.noted stake) where
  conserved := rfl
  requested := hsame.symm
  accounts _ _ := rfl
  pools := rfl
  liquid _ _ := rfl
  operators _ _ := rfl
  slashed _ := rfl

/-- A stake keeps the slash of every operator. -/
theorem isSlashed_stake (table : StakeTable) (operator : AccountId) (amount : ℕ)
    (other : AccountId) :
    (table.stake operator amount).1.isSlashed other = table.isSlashed other := by
  show (OperatorEntry.slashNonce ((table.operators.insert operator _).getD other _)).isSome = _
  rw [ExtTreeMap.getD_insert]
  split_ifs with hsame
  · rw [LawfulEqCmp.compare_eq_iff_eq.mp hsame]
    rfl
  · rfl

/-- A balance that makes up for the change of the stake. Assumes: balance and stake come to the
same as before. -/
theorem stakeMoved_moved {oscillator : Oscillator platform} {stake : StakeShift} {balance : Balance}
    (liquid : ℕ) (hsum : balance.units + stake.amount =
      (oscillator.operatorBalance stake).units + oscillator.lockedBy stake) :
    StakeMoved oscillator stake (oscillator.moved stake balance liquid) where
  conserved := by
    have hbalance : (oscillator.moved stake balance liquid).operatorBalance stake = balance :=
      ExtTreeMap.getD_insert_self
    have hlocked : (oscillator.moved stake balance liquid).lockedBy stake = stake.amount :=
      congrArg OperatorEntry.stake ExtTreeMap.getD_insert_self
    rw [hbalance, hlocked, hsum]
  requested := congrArg OperatorEntry.stake ExtTreeMap.getD_insert_self
  accounts _ hne := getElem?_insert_of_ne _ hne.symm _
  pools := rfl
  liquid _ hne := getElem?_insert_of_ne _ hne.symm _
  operators _ hne := getElem?_insert_of_ne _ hne.symm _
  slashed := isSlashed_stake oscillator.stakeTable stake.operator stake.amount

/-- An accepted announcement only moves value. Assumes: the announcement is accepted, and a stake
that is given back fits the balance. -/
theorem applyStake_moves {oscillator : Oscillator platform} {stake : StakeShift}
    (haccepted : (oscillator.applyStake stake).2 = true)
    (hfits : (oscillator.operatorBalance stake).units +
      (oscillator.lockedBy stake - stake.amount) < 2 ^ 128) :
    StakeMoved oscillator stake (oscillator.applyStake stake).1 := by
  have houtcome := oscillator.applyStake_outcome stake
  generalize oscillator.applyStake stake = result at haccepted houtcome
  cases houtcome with
  | refused => cases haccepted
  | repeated _ hsame => exact stakeMoved_noted hsame
  | short => cases haccepted
  | raised liquid _ hraises hcovered =>
    refine stakeMoved_moved liquid ?_
    show (oscillator.operatorBalance stake).units - _ + stake.amount = _
    omega
  | lowered liquid _ hlowers =>
    refine stakeMoved_moved liquid ?_
    have hexact : ((oscillator.operatorBalance stake).saturatingAdd
        (oscillator.lockedBy stake - stake.amount)).units =
          (oscillator.operatorBalance stake).units + (oscillator.lockedBy stake - stake.amount) :=
      Nat.min_eq_left (by omega)
    rw [hexact]
    omega

/-- A node on which the operator of seed 1 has a balance of ten and is slashed with a stake of
four. -/
def slashedStaker : Oscillator Platform.sample :=
  let staked := (((newWithKeypair 8).seedAccount (KeyPair.accountId .sample ⟨1⟩) 14).applyStake
    (StakeShift.sign .sample ⟨1⟩ 4 1 0)).1
  { staked with stakeTable := (staked.stakeTable.slash (KeyPair.accountId .sample ⟨1⟩)).1 }

/-- The operator stakes seven again: its balance pays all of it, as the slash burned the first
stake. -/
theorem applyStake_moves_afterSlash :
    (slashedStaker.applyStake (StakeShift.sign .sample ⟨1⟩ 7 2 0)).2 = true ∧
      StakeMoved slashedStaker (StakeShift.sign .sample ⟨1⟩ 7 2 0)
        (slashedStaker.applyStake (StakeShift.sign .sample ⟨1⟩ 7 2 0)).1 ∧
      ((slashedStaker.applyStake (StakeShift.sign .sample ⟨1⟩ 7 2 0)).1.operatorBalance
        (StakeShift.sign .sample ⟨1⟩ 7 2 0)).units = 3 := by
  have haccepted : (slashedStaker.applyStake (StakeShift.sign .sample ⟨1⟩ 7 2 0)).2 = true := by
    decide +kernel
  exact ⟨haccepted, applyStake_moves haccepted (by decide +kernel), by decide +kernel⟩

end Fluidic.Consensus.Oscillator
