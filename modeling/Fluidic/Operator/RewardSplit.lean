import Fluidic.Operator.Rewards

/-!
# What a distribution adds to the rewards

A distribution adds one share to the reward of each eligible operator and one to that of the DEX
pool (`distribute_eq`). The shares together never exceed the amount, although each of their products
saturates on its own (`shares_le`). The rewards themselves are added without a check, so that a
reward near the end of its range wraps. `distribute_sound_iff` says that this is the only way in
which a distribution can take value away.
-/

set_option autoImplicit false
set_option relaxedAutoImplicit false

namespace Fluidic.Operator

open Library Crypto State
open Std (ExtTreeMap TransOrd LawfulEqOrd LawfulEqCmp)

/-! ### One reward -/

section Accrue

variable {κ : Type} [Ord κ] [TransOrd κ]

/-- Add a share to a reward. A share of zero creates no entry. -/
def accrue (rewards : ExtTreeMap κ ℕ) (key : κ) (share : ℕ) : ExtTreeMap κ ℕ :=
  if share = 0 then rewards
  else rewards.insert key (wrappingAdd 128 (rewards.getD key 0) share)

/-- The rewards of a table are `u128` values. -/
def InRange (rewards : ExtTreeMap κ ℕ) : Prop := ∀ key, rewards.getD key 0 < 2 ^ 128

@[simp] theorem accrue_zero (rewards : ExtTreeMap κ ℕ) (key : κ) : accrue rewards key 0 = rewards :=
  if_pos rfl

/-- The rewards after a share was added. Assumes: the reward is in range. -/
theorem getD_accrue_self {rewards : ExtTreeMap κ ℕ} {key : κ} (share : ℕ)
    (hrange : rewards.getD key 0 < 2 ^ 128) :
    (accrue rewards key share).getD key 0 = wrappingAdd 128 (rewards.getD key 0) share := by
  unfold accrue
  split_ifs with hzero
  · rw [hzero, wrappingAdd_of_lt (by omega), Nat.add_zero]
  · rw [ExtTreeMap.getD_insert_self]

variable [LawfulEqOrd κ]

theorem getD_accrue_of_ne {rewards : ExtTreeMap κ ℕ} {key other : κ} (share : ℕ)
    (hne : key ≠ other) : (accrue rewards key share).getD other 0 = rewards.getD other 0 := by
  unfold accrue
  split_ifs
  · rfl
  · rw [ExtTreeMap.getD_insert, if_neg (by rwa [LawfulEqCmp.compare_eq_iff_eq])]

theorem InRange.accrue {rewards : ExtTreeMap κ ℕ} (hrange : InRange rewards) (key : κ)
    (share : ℕ) : InRange (accrue rewards key share) := by
  classical
  intro other
  by_cases hsame : key = other
  · rw [← hsame, getD_accrue_self share (hrange key)]
    exact Nat.mod_lt _ (Nat.two_pow_pos 128)
  · rw [getD_accrue_of_ne share hsame]
    exact hrange other

/-- A share adds at most itself to the sum of the rewards. -/
theorem sumBy_accrue_le (rewards : ExtTreeMap κ ℕ) (key : κ) (share : ℕ) :
    sumBy (fun _ reward ↦ reward) (accrue rewards key share) ≤
      sumBy (fun _ reward ↦ reward) rewards + share := by
  unfold Operator.accrue
  split_ifs
  · exact Nat.le_add_right _ _
  · have hinsert := sumBy_insert (fun _ reward ↦ reward) rewards key
      (wrappingAdd 128 (rewards.getD key 0) share)
    have hwrapped : wrappingAdd 128 (rewards.getD key 0) share ≤ rewards.getD key 0 + share :=
      Nat.mod_le _ _
    have hheld : rewards[key]?.elim 0 (fun reward ↦ reward) = rewards.getD key 0 := by
      rw [ExtTreeMap.getD_eq_getD_getElem?]
      cases rewards[key]? <;> rfl
    omega

/-! ### Many rewards -/

variable {entries : List (κ × ℕ)} {rewards : ExtTreeMap κ ℕ} (shareOf : ℕ → ℕ)

/-- Rewards outside of the credited ones stay. -/
theorem getD_foldl_accrue_of_notMem {key : κ} (habsent : ∀ entry ∈ entries, entry.1 ≠ key) :
    (entries.foldl (fun rewards entry ↦ accrue rewards entry.1 (shareOf entry.2)) rewards).getD
      key 0 = rewards.getD key 0 := by
  induction entries generalizing rewards with
  | nil => rfl
  | cons entry entries ih =>
    rw [List.forall_mem_cons] at habsent
    rw [List.foldl_cons, ih habsent.2, getD_accrue_of_ne _ habsent.1]

/-- Every credited reward grows by its share. Assumes: the keys are distinct, and the rewards are in
range. -/
theorem getD_foldl_accrue (hnodup : (entries.map Prod.fst).Nodup) (hrange : InRange rewards)
    {entry : κ × ℕ} (hentry : entry ∈ entries) :
    (entries.foldl (fun rewards entry ↦ accrue rewards entry.1 (shareOf entry.2)) rewards).getD
      entry.1 0 = wrappingAdd 128 (rewards.getD entry.1 0) (shareOf entry.2) := by
  induction entries generalizing rewards with
  | nil => exact absurd hentry List.not_mem_nil
  | cons first entries ih =>
    rw [List.map_cons, List.nodup_cons] at hnodup
    have hother : ∀ other ∈ entries, other.1 ≠ first.1 := by
      intro other hmem hsame
      exact hnodup.1 (hsame ▸ List.mem_map_of_mem hmem)
    rw [List.foldl_cons]
    rcases List.mem_cons.mp hentry with rfl | hlater
    · rw [getD_foldl_accrue_of_notMem shareOf hother, getD_accrue_self _ (hrange _)]
    · rw [ih hnodup.2 (hrange.accrue _ _) hlater,
        getD_accrue_of_ne _ (hother entry hlater).symm]

theorem sumBy_foldl_accrue_le :
    sumBy (fun _ reward ↦ reward)
        (entries.foldl (fun rewards entry ↦ accrue rewards entry.1 (shareOf entry.2)) rewards) ≤
      sumBy (fun _ reward ↦ reward) rewards + (entries.map fun entry ↦ shareOf entry.2).sum := by
  induction entries generalizing rewards with
  | nil => exact Nat.le_add_right _ _
  | cons entry entries ih =>
    have hfirst := sumBy_accrue_le rewards entry.1 (shareOf entry.2)
    rw [List.foldl_cons, List.map_cons, List.sum_cons]
    exact ih.trans (by omega)

end Accrue

/-! ### The shares -/

/-- The share of the liquidity providers. -/
def lpShare (burned : ℕ) : ℕ := saturatingMul 128 burned lpRewardBasisPoints / 10000

/-- The share of all eligible operators together. -/
def operatorsShare (burned : ℕ) : ℕ := saturatingMul 128 burned operatorRewardBasisPoints / 10000

/-- The stake of all eligible operators together. -/
def eligibleStake (table : StakeTable) : ℕ := (table.stakedOperators.map Prod.snd).sum

/-- The share of an eligible operator with a stake. -/
def shareOf (table : StakeTable) (burned stake : ℕ) : ℕ :=
  saturatingMul 128 (operatorsShare burned) stake / eligibleStake table

/-- All shares together are at most the amount. -/
theorem shares_le (table : StakeTable) (burned : ℕ) :
    lpShare burned + (table.stakedOperators.map fun entry ↦ shareOf table burned entry.2).sum ≤
      burned := by
  have hshares : ((table.stakedOperators.map Prod.snd).map (shareOf table burned)).sum ≤
      operatorsShare burned := sum_saturatingMul_div_le le_rfl
  have hlp : lpShare burned ≤ burned * 5000 / 10000 := Nat.div_le_div_right (min_le_left _ _)
  have hoperators : operatorsShare burned ≤ burned * 5000 / 10000 :=
    Nat.div_le_div_right (min_le_left _ _)
  rw [List.map_map] at hshares
  have hsame : (table.stakedOperators.map fun entry ↦ shareOf table burned entry.2).sum ≤
      operatorsShare burned := hshares
  omega

theorem lpShare_lt (burned : ℕ) : lpShare burned < 2 ^ 128 := by
  have hproduct : lpShare burned ≤ 2 ^ 128 - 1 := (Nat.div_le_self _ _).trans (min_le_right _ _)
  omega

theorem shareOf_lt (table : StakeTable) (burned stake : ℕ) :
    shareOf table burned stake < 2 ^ 128 := by
  have hproduct : shareOf table burned stake ≤ 2 ^ 128 - 1 :=
    (Nat.div_le_self _ _).trans (min_le_right _ _)
  omega

/-! ### The distribution -/

namespace RewardPool

theorem creditOperator_eq (pool : RewardPool) (operator : AccountId) (share : ℕ) :
    pool.creditOperator operator share =
      { pool with rewards := accrue pool.rewards operator share } := by
  unfold creditOperator accrue
  split_ifs <;> rfl

theorem creditLp_eq (pool : RewardPool) (amount : ℕ) :
    pool.creditLp amount =
      { pool with lpRewards := accrue pool.lpRewards defaultDexDomain amount } := by
  unfold creditLp accrue
  split_ifs <;> rfl

theorem foldl_creditOperator (shareOf : ℕ → ℕ) (entries : List (AccountId × ℕ))
    (pool : RewardPool) :
    entries.foldl (fun pool entry ↦ pool.creditOperator entry.1 (shareOf entry.2)) pool =
      { pool with
        rewards := entries.foldl
          (fun rewards entry ↦ accrue rewards entry.1 (shareOf entry.2)) pool.rewards } := by
  induction entries generalizing pool with
  | nil => rfl
  | cons entry entries ih => rw [List.foldl_cons, ih, creditOperator_eq, List.foldl_cons]

/-- A distribution adds the shares, also where it returns early. Assumes: the eligible stakes fit
together. -/
theorem distribute_eq (pool : RewardPool) (burned : ℕ) {table : StakeTable}
    (hstakes : eligibleStake table < 2 ^ 128) :
    pool.distribute burned table =
      { rewards := table.stakedOperators.foldl
          (fun rewards entry ↦ accrue rewards entry.1 (shareOf table burned entry.2)) pool.rewards
        lpRewards := accrue pool.lpRewards defaultDexDomain (lpShare burned) } := by
  have hnone (hzero : operatorsShare burned = 0 ∨ eligibleStake table = 0) :
      table.stakedOperators.foldl
        (fun rewards entry ↦ accrue rewards entry.1 (shareOf table burned entry.2)) pool.rewards =
          pool.rewards := by
    have hshare (stake : ℕ) : shareOf table burned stake = 0 := by
      unfold shareOf
      rcases hzero with hamount | htotal
      · rw [hamount, saturatingMul, Nat.zero_mul, Nat.zero_min, Nat.zero_div]
      · rw [htotal, Nat.div_zero]
    simp only [hshare, accrue_zero, List.foldl_fixed]
  unfold distribute
  by_cases hidle : burned = 0
  · have hlp : lpShare 0 = 0 := by decide
    have hoperators : operatorsShare 0 = 0 := by decide
    subst hidle
    rw [if_pos rfl, hlp, accrue_zero, hnone (.inl hoperators)]
  rw [if_neg hidle]
  dsimp only
  rw [creditLp_eq]
  have htotal : (table.stakedOperators.map Prod.snd).sum % 2 ^ 128 = eligibleStake table :=
    Nat.mod_eq_of_lt hstakes
  rw [htotal]
  by_cases hzero : operatorsShare burned = 0 ∨ eligibleStake table = 0
  · rw [if_pos (show saturatingMul 128 burned operatorRewardBasisPoints / 10000 = 0 ∨ _ from hzero),
      hnone hzero]
    rfl
  · rw [if_neg (show ¬(saturatingMul 128 burned operatorRewardBasisPoints / 10000 = 0 ∨ _) from
      hzero)]
    exact foldl_creditOperator (shareOf table burned) _ _

/-- What a distribution must do: the rewards together grow by at most the amount, a reward changes
only where its operator is eligible, and no reward decreases. -/
structure Sound (burned : ℕ) (table : StakeTable) (pool next : RewardPool) : Prop where
  sum_le : sumBy (fun _ reward ↦ reward) next.rewards +
      sumBy (fun _ reward ↦ reward) next.lpRewards ≤
    sumBy (fun _ reward ↦ reward) pool.rewards +
      sumBy (fun _ reward ↦ reward) pool.lpRewards + burned
  credited : ∀ operator, next.rewards.getD operator 0 ≠ pool.rewards.getD operator 0 →
    table.isStaked operator = true ∧ table.isSlashed operator = false
  rewards_le : ∀ operator, pool.rewards.getD operator 0 ≤ next.rewards.getD operator 0
  lpRewards_le : ∀ lp, pool.lpRewards.getD lp 0 ≤ next.lpRewards.getD lp 0

/-- An operator with an eligible stake is staked and was not slashed. -/
theorem eligible_of_mem {table : StakeTable} {entry : AccountId × ℕ}
    (hentry : entry ∈ table.stakedOperators) :
    table.isStaked entry.1 = true ∧ table.isSlashed entry.1 = false := by
  obtain ⟨⟨operator, held⟩, hmem, rfl⟩ := List.mem_map.mp hentry
  rw [List.mem_filter, ExtTreeMap.mem_toList_iff_getElem?_eq_some] at hmem
  obtain ⟨hlookup, heligible⟩ := hmem
  dsimp only at hlookup heligible ⊢
  unfold StakeTable.isStaked StakeTable.isSlashed StakeTable.entry
  rw [ExtTreeMap.getD_eq_getD_getElem?, hlookup]
  refine ⟨heligible, ?_⟩
  unfold StakeTable.isStakedInner at heligible
  rw [Bool.and_eq_true, Option.isNone_iff_eq_none] at heligible
  rw [Option.getD_some, heligible.2]
  rfl

theorem nodup_stakedOperators (table : StakeTable) :
    (table.stakedOperators.map Prod.fst).Nodup := by
  have hkeys := nodup_keys table.operators
  unfold StakeTable.stakedOperators
  rw [List.map_map]
  exact (List.filter_sublist.map Prod.fst).nodup hkeys

/-- A distribution is sound if and only if no reward that it credits wraps. Assumes: the eligible
stakes fit together, and the rewards are in range. -/
theorem distribute_sound_iff {pool : RewardPool} {burned : ℕ} {table : StakeTable}
    (hstakes : eligibleStake table < 2 ^ 128) (hrewards : InRange pool.rewards)
    (hlp : InRange pool.lpRewards) :
    Sound burned table pool (pool.distribute burned table) ↔
      pool.lpRewards.getD defaultDexDomain 0 + lpShare burned < 2 ^ 128 ∧
        ∀ entry ∈ table.stakedOperators,
          pool.rewards.getD entry.1 0 + shareOf table burned entry.2 < 2 ^ 128 := by
  have hnodup := nodup_stakedOperators table
  have hcredited {entry : AccountId × ℕ} (hentry : entry ∈ table.stakedOperators) :=
    getD_foldl_accrue (shareOf table burned) hnodup hrewards hentry
  rw [distribute_eq pool burned hstakes]
  constructor
  · intro hsound
    constructor
    · have hle := hsound.lpRewards_le defaultDexDomain
      rw [getD_accrue_self _ (hlp _)] at hle
      exact (le_wrappingAdd_iff (hlp _) (lpShare_lt burned)).mp hle
    · intro entry hentry
      have hle := hsound.rewards_le entry.1
      rw [hcredited hentry] at hle
      exact (le_wrappingAdd_iff (hrewards _) (shareOf_lt table burned entry.2)).mp hle
  · rintro ⟨hlpFits, hfits⟩
    refine ⟨?_, fun operator hchanged ↦ ?_, fun operator ↦ ?_, fun lp ↦ ?_⟩
    · have hoperators := @sumBy_foldl_accrue_le _ _ _ _ table.stakedOperators pool.rewards
        (shareOf table burned)
      have hproviders := sumBy_accrue_le pool.lpRewards defaultDexDomain (lpShare burned)
      have hshares := shares_le table burned
      dsimp only
      omega
    · by_contra hineligible
      refine hchanged (getD_foldl_accrue_of_notMem _ fun entry hentry hsame ↦ hineligible ?_)
      exact hsame ▸ eligible_of_mem hentry
    · by_cases hmem : ∃ entry ∈ table.stakedOperators, entry.1 = operator
      · obtain ⟨entry, hentry, rfl⟩ := hmem
        rw [hcredited hentry, wrappingAdd_of_lt (hfits entry hentry)]
        exact Nat.le_add_right _ _
      · refine le_of_eq (getD_foldl_accrue_of_notMem _ fun entry hentry hsame ↦ ?_).symm
        exact hmem ⟨entry, hentry, hsame⟩
    · by_cases hsame : defaultDexDomain = lp
      · rw [← hsame, getD_accrue_self _ (hlp _), wrappingAdd_of_lt hlpFits]
        exact Nat.le_add_right _ _
      · rw [getD_accrue_of_ne _ hsame]

/-- Two operators with three and one quarter of the stake. -/
def unequalStakes : StakeTable :=
  (((StakeTable.new ⟨1⟩).stake ⟨1⟩ 75).1.stake ⟨2⟩ 25).1

theorem inRange_empty {κ : Type} [Ord κ] [TransOrd κ] : InRange (∅ : ExtTreeMap κ ℕ) := by
  intro key
  rw [ExtTreeMap.getD_empty]
  exact Nat.two_pow_pos 128

/-- Half of an amount of 10000 goes to two operators, in proportion to their stakes. -/
theorem distribute_sound_iff_unequalStakes :
    eligibleStake unequalStakes < 2 ^ 128 ∧ InRange new.rewards ∧ InRange new.lpRewards ∧
      Sound 10000 unequalStakes new (new.distribute 10000 unequalStakes) ∧
      ((new.distribute 10000 unequalStakes).rewards.getD ⟨1⟩ 0,
        (new.distribute 10000 unequalStakes).rewards.getD ⟨2⟩ 0,
        (new.distribute 10000 unequalStakes).lpRewards.getD defaultDexDomain 0) =
          (3750, 1250, 5000) := by
  have hstakes : eligibleStake unequalStakes < 2 ^ 128 := by decide +kernel
  exact ⟨hstakes, inRange_empty, inRange_empty,
    (distribute_sound_iff hstakes inRange_empty inRange_empty).mpr (by decide +kernel),
    by decide +kernel⟩

/-- Rewards of the DEX pool at the end of their range. -/
def fullPool : RewardPool := ⟨∅, accrue ∅ defaultDexDomain (2 ^ 128 - 1)⟩

/-- One more sub-unit for the DEX pool takes away all that it has. -/
theorem full_reward_wraps : ¬ ∀ (pool : RewardPool) (burned : ℕ) (table : StakeTable),
    burned < 2 ^ 128 → eligibleStake table < 2 ^ 128 → InRange pool.rewards →
      InRange pool.lpRewards → Sound burned table pool (pool.distribute burned table) := by
  intro hclaim
  have hsound := hclaim fullPool 2 (StakeTable.new ⟨1⟩) (by decide) (by decide +kernel)
    inRange_empty (inRange_empty.accrue _ _)
  have hle := hsound.lpRewards_le defaultDexDomain
  revert hle
  decide +kernel

end RewardPool

end Fluidic.Operator
