import Fluidic.Operator.RewardSplit
import Fluidic.Value.Supply

/-!
# Proportional rewards and their dust

The share of an operator is the operators' half of the amount times its stake over the eligible
stake, rounded down. The product is taken first and saturates at `2 ^ 128 - 1`. Amounts and stakes
of up to the whole supply lead far beyond that, and a share that is cut off falls short of its
proportion (`shareOf_eq_iff`). `distribute_proportional_iff` says when a distribution is the
proportional one up to dust.
-/

set_option autoImplicit false
set_option relaxedAutoImplicit false

namespace Fluidic.Operator

open Library Crypto Value
open Std (ExtTreeMap)

/-- The share in proportion to the stake, rounded down. -/
def proportionalShare (table : StakeTable) (burned stake : ℕ) : ℕ :=
  burned / 2 * stake / eligibleStake table

/-- The shares of both sides are half of the amount. Assumes: the amount is at most the whole
supply. -/
theorem halves {burned : ℕ} (hburned : burned ≤ totalWaveSupply) :
    lpShare burned = burned / 2 ∧ operatorsShare burned = burned / 2 := by
  have hsupply : totalWaveSupply = 1000000000000000000000 := by decide
  have hproduct : saturatingMul 128 burned 5000 / 10000 = burned / 2 := by
    have hfits : burned * 5000 ≤ 2 ^ 128 - 1 := by omega
    rw [saturatingMul, Nat.min_eq_left hfits]
    omega
  exact ⟨hproduct, hproduct⟩

/-- The share of an operator is the proportional one if and only if its product is cut off by less
than a whole eligible stake. Assumes: the amount is at most the whole supply, and the eligible stake
is positive. -/
theorem shareOf_eq_iff {table : StakeTable} {burned : ℕ} (hburned : burned ≤ totalWaveSupply)
    (hpositive : 0 < eligibleStake table) (stake : ℕ) :
    shareOf table burned stake = proportionalShare table burned stake ↔
      burned / 2 * stake < ((2 ^ 128 - 1) / eligibleStake table + 1) * eligibleStake table := by
  unfold shareOf proportionalShare
  rw [(halves hburned).2]
  exact min_div_eq_iff hpositive

theorem shareOf_le {table : StakeTable} {burned : ℕ} (hburned : burned ≤ totalWaveSupply)
    (stake : ℕ) : shareOf table burned stake ≤ proportionalShare table burned stake := by
  unfold shareOf proportionalShare
  rw [(halves hburned).2]
  exact Nat.div_le_div_right (min_le_left _ _)

/-- A reward that wraps, or to which less is added, is not the sum. Assumes: no more than the share
is added. -/
theorem wrappingAdd_eq_add_iff {reward added share : ℕ} (hle : added ≤ share) :
    wrappingAdd 128 reward added = reward + share ↔ added = share ∧ reward + share < 2 ^ 128 := by
  constructor
  · intro heq
    have hmod : wrappingAdd 128 reward added < 2 ^ 128 := Nat.mod_lt _ (Nat.two_pow_pos 128)
    have hfits : reward + added < 2 ^ 128 := by omega
    rw [wrappingAdd_of_lt hfits] at heq
    omega
  · rintro ⟨rfl, hfits⟩
    exact wrappingAdd_of_lt hfits

/-- With no eligible stake every share is zero. -/
theorem proportionalShare_of_idle {table : StakeTable} (hnone : eligibleStake table = 0)
    (burned stake : ℕ) : proportionalShare table burned stake = 0 := by
  unfold proportionalShare
  rw [hnone, Nat.div_zero]

namespace RewardPool

/-- What a distribution should do: every eligible operator gets its proportional share, the DEX pool
gets half, and at most one sub-unit for each of them and one more stays unallocated. -/
structure Proportional (burned : ℕ) (table : StakeTable) (pool next : RewardPool) : Prop where
  operators : ∀ entry ∈ table.stakedOperators, next.rewards.getD entry.1 0 =
    pool.rewards.getD entry.1 0 + proportionalShare table burned entry.2
  lp : next.lpRewards.getD defaultDexDomain 0 =
    pool.lpRewards.getD defaultDexDomain 0 + burned / 2
  dust : burned ≤ (next.lpRewards.getD defaultDexDomain 0 -
      pool.lpRewards.getD defaultDexDomain 0) +
    (table.stakedOperators.map fun entry ↦
      next.rewards.getD entry.1 0 - pool.rewards.getD entry.1 0).sum +
    table.stakedOperators.length + 1

/-- The rewards that a distribution leaves, by what it adds. Assumes: the eligible stakes fit
together, and the rewards are in range. -/
theorem getD_distribute {pool : RewardPool} {table : StakeTable} (burned : ℕ)
    (hstakes : eligibleStake table < 2 ^ 128) (hrewards : InRange pool.rewards)
    (hlp : InRange pool.lpRewards) :
    (pool.distribute burned table).lpRewards.getD defaultDexDomain 0 =
        wrappingAdd 128 (pool.lpRewards.getD defaultDexDomain 0) (lpShare burned) ∧
      ∀ entry ∈ table.stakedOperators,
        (pool.distribute burned table).rewards.getD entry.1 0 =
          wrappingAdd 128 (pool.rewards.getD entry.1 0) (shareOf table burned entry.2) := by
  rw [distribute_eq pool burned hstakes]
  exact ⟨getD_accrue_self _ (hlp _), fun entry hentry ↦
    getD_foldl_accrue (shareOf table burned) (nodup_stakedOperators table) hrewards hentry⟩

/-- The allocated amount of a distribution that credits the proportional shares. Assumes: the
distribution credits the operators and the default pool with their shares. -/
theorem allocated_eq {burned : ℕ} {table : StakeTable} {pool next : RewardPool}
    (hoperators : ∀ entry ∈ table.stakedOperators, next.rewards.getD entry.1 0 =
      pool.rewards.getD entry.1 0 + proportionalShare table burned entry.2)
    (hlp : next.lpRewards.getD defaultDexDomain 0 =
      pool.lpRewards.getD defaultDexDomain 0 + burned / 2) :
    (next.lpRewards.getD defaultDexDomain 0 - pool.lpRewards.getD defaultDexDomain 0) +
      (table.stakedOperators.map fun entry ↦
        next.rewards.getD entry.1 0 - pool.rewards.getD entry.1 0).sum =
    burned / 2 + ((table.stakedOperators.map Prod.snd).map
      (proportionalShare table burned)).sum := by
  have hshares : (table.stakedOperators.map fun entry ↦
      next.rewards.getD entry.1 0 - pool.rewards.getD entry.1 0) =
        (table.stakedOperators.map Prod.snd).map (proportionalShare table burned) := by
    rw [List.map_map]
    refine List.map_congr_left fun entry hentry ↦ ?_
    rw [hoperators entry hentry]
    exact Nat.add_sub_cancel_left _ _
  rw [hshares, hlp, Nat.add_sub_cancel_left]

/-- Exact credits leave dust only. Assumes: the credits are exact, and the eligible stake is
positive. -/
theorem Proportional.of_staked {burned : ℕ} {table : StakeTable} {pool next : RewardPool}
    (hpositive : 0 < eligibleStake table)
    (hoperators : ∀ entry ∈ table.stakedOperators, next.rewards.getD entry.1 0 =
      pool.rewards.getD entry.1 0 + proportionalShare table burned entry.2)
    (hlp : next.lpRewards.getD defaultDexDomain 0 =
      pool.lpRewards.getD defaultDexDomain 0 + burned / 2) :
    Proportional burned table pool next := by
  refine ⟨hoperators, hlp, ?_⟩
  have hshares := @le_sum_mul_div (burned / 2) (eligibleStake table)
    (table.stakedOperators.map Prod.snd) rfl hpositive
  have hlength : (table.stakedOperators.map Prod.snd).length =
      table.stakedOperators.length := List.length_map _
  have hsame : ((table.stakedOperators.map Prod.snd).map fun stake ↦
      burned / 2 * stake / eligibleStake table) =
    (table.stakedOperators.map Prod.snd).map (proportionalShare table burned) := rfl
  rw [hlength, hsame] at hshares
  rw [allocated_eq hoperators hlp]
  omega

/-- With no eligible stake the operators' half stays unallocated, and must itself be dust. Assumes:
no stake is eligible, and the operators keep their rewards. -/
theorem proportional_iff_of_idle {burned : ℕ} {table : StakeTable} {pool next : RewardPool}
    (hnone : eligibleStake table = 0)
    (hkept : ∀ entry ∈ table.stakedOperators, next.rewards.getD entry.1 0 =
      pool.rewards.getD entry.1 0) :
    Proportional burned table pool next ↔
      next.lpRewards.getD defaultDexDomain 0 =
          pool.lpRewards.getD defaultDexDomain 0 + burned / 2 ∧
        burned - burned / 2 ≤ table.stakedOperators.length + 1 := by
  have hoperators : ∀ entry ∈ table.stakedOperators, next.rewards.getD entry.1 0 =
      pool.rewards.getD entry.1 0 + proportionalShare table burned entry.2 := by
    intro entry hentry
    rw [hkept entry hentry, proportionalShare_of_idle hnone, Nat.add_zero]
  have hsum : ((table.stakedOperators.map Prod.snd).map
      (proportionalShare table burned)).sum = 0 := by
    refine List.sum_eq_zero fun share hmem ↦ ?_
    obtain ⟨stake, -, rfl⟩ := List.mem_map.mp hmem
    exact proportionalShare_of_idle hnone burned stake
  constructor
  · intro hproportional
    have hdust := hproportional.dust
    rw [allocated_eq hoperators hproportional.lp, hsum] at hdust
    exact ⟨hproportional.lp, by omega⟩
  · rintro ⟨hlp, hdust⟩
    refine ⟨hoperators, hlp, ?_⟩
    rw [allocated_eq hoperators hlp, hsum]
    omega

/-- A distribution is proportional up to dust if and only if every reward that it credits fits its
range and no product is cut off by a whole eligible stake; where all eligible stakes are zero, there
is nobody to pay, and half of the amount must itself be dust. Assumes: the amount and the eligible
stakes are at most the whole supply, and the rewards are in range. -/
theorem distribute_proportional_iff {pool : RewardPool} {burned : ℕ} {table : StakeTable}
    (hburned : burned ≤ totalWaveSupply) (hstakes : eligibleStake table ≤ totalWaveSupply)
    (hrewards : InRange pool.rewards) (hlp : InRange pool.lpRewards) :
    Proportional burned table pool (pool.distribute burned table) ↔
      pool.lpRewards.getD defaultDexDomain 0 + burned / 2 < 2 ^ 128 ∧
      (if eligibleStake table = 0 then burned - burned / 2 ≤ table.stakedOperators.length + 1
      else ∀ entry ∈ table.stakedOperators,
        burned / 2 * entry.2 <
          ((2 ^ 128 - 1) / eligibleStake table + 1) * eligibleStake table ∧
        pool.rewards.getD entry.1 0 + proportionalShare table burned entry.2 < 2 ^ 128) := by
  have hwidth : totalWaveSupply < 2 ^ 128 := by decide
  obtain ⟨hlpNext, hnext⟩ := getD_distribute burned (hstakes.trans_lt hwidth) hrewards hlp
  rw [(halves hburned).1] at hlpNext
  have hlpFits : (pool.distribute burned table).lpRewards.getD defaultDexDomain 0 =
      pool.lpRewards.getD defaultDexDomain 0 + burned / 2 ↔
        pool.lpRewards.getD defaultDexDomain 0 + burned / 2 < 2 ^ 128 := by
    rw [hlpNext, wrappingAdd_eq_add_iff le_rfl]
    exact and_iff_right rfl
  by_cases hnone : eligibleStake table = 0
  · have hkept : ∀ entry ∈ table.stakedOperators,
        (pool.distribute burned table).rewards.getD entry.1 0 =
          pool.rewards.getD entry.1 0 := by
      intro entry hentry
      have hzero : shareOf table burned entry.2 = 0 := by
        unfold shareOf
        rw [hnone, Nat.div_zero]
      rw [hnext entry hentry, hzero]
      exact wrappingAdd_of_lt (hrewards entry.1)
    rw [if_pos hnone, ← hlpFits]
    exact proportional_iff_of_idle hnone hkept
  · have hpositive : 0 < eligibleStake table := Nat.pos_of_ne_zero hnone
    have hoperators : (∀ entry ∈ table.stakedOperators,
        (pool.distribute burned table).rewards.getD entry.1 0 =
          pool.rewards.getD entry.1 0 + proportionalShare table burned entry.2) ↔
        ∀ entry ∈ table.stakedOperators,
          burned / 2 * entry.2 <
            ((2 ^ 128 - 1) / eligibleStake table + 1) * eligibleStake table ∧
          pool.rewards.getD entry.1 0 + proportionalShare table burned entry.2 < 2 ^ 128 := by
      refine forall₂_congr fun entry hentry ↦ ?_
      rw [hnext entry hentry, wrappingAdd_eq_add_iff (shareOf_le hburned _),
        shareOf_eq_iff hburned hpositive]
    rw [if_neg hnone, ← hlpFits, ← hoperators]
    constructor
    · exact fun hproportional ↦ ⟨hproportional.lp, hproportional.operators⟩
    · rintro ⟨hlpExact, hexact⟩
      exact .of_staked hpositive hexact hlpExact

/-- Seven sub-units are split between two operators with three and one quarter of the stake; the
dust is one sub-unit and a share that rounds to zero. -/
theorem distribute_proportional_iff_unequalStakes :
    7 ≤ totalWaveSupply ∧ eligibleStake unequalStakes ≤ totalWaveSupply ∧
      InRange new.rewards ∧ InRange new.lpRewards ∧
      Proportional 7 unequalStakes new (new.distribute 7 unequalStakes) ∧
      ((new.distribute 7 unequalStakes).rewards.getD ⟨1⟩ 0,
        (new.distribute 7 unequalStakes).rewards.getD ⟨2⟩ 0,
        (new.distribute 7 unequalStakes).lpRewards.getD defaultDexDomain 0) = (2, 0, 3) := by
  have hburned : 7 ≤ totalWaveSupply := by decide
  have hstakes : eligibleStake unequalStakes ≤ totalWaveSupply := by decide +kernel
  exact ⟨hburned, hstakes, inRange_empty, inRange_empty,
    (distribute_proportional_iff hburned hstakes inRange_empty inRange_empty).mpr
      (by decide +kernel),
    by decide +kernel⟩

/-- One operator that staked the whole supply. -/
def wholeStake : StakeTable := ((StakeTable.new .default).stake ⟨1⟩ totalWaveSupply).1

/-- The operator should get half of the supply, and gets less than a thousandth of that. -/
theorem whole_supply_cut_off : ¬ ∀ (pool : RewardPool) (burned : ℕ) (table : StakeTable),
    burned ≤ totalWaveSupply → eligibleStake table ≤ totalWaveSupply →
      1 ≤ table.stakedOperators.length → InRange pool.rewards → InRange pool.lpRewards →
        Proportional burned table pool (pool.distribute burned table) := by
  intro hclaim
  have hproportional := hclaim new totalWaveSupply wholeStake le_rfl (by decide +kernel)
    (by decide +kernel) inRange_empty inRange_empty
  have hshare := hproportional.operators (⟨1⟩, totalWaveSupply) (by decide +kernel)
  revert hshare
  decide +kernel

end RewardPool

end Fluidic.Operator
