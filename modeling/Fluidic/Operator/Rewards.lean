import Fluidic.Operator.Stake

/-!
# The reward pool

`src/operator/rewards.rs`: metabolic value and fees are split in half between the eligible
operators, in proportion to their stakes, and the liquidity providers of the DEX pool. The shares
go to distinct operators, so the order in which they are visited does not matter.
-/

set_option autoImplicit false
set_option relaxedAutoImplicit false

namespace Fluidic.Operator

open Library Crypto State
open Std (ExtTreeMap)

/-- The operators' share, in basis points. -/
def operatorRewardBasisPoints : ℕ := 5000

/-- The liquidity providers' share, in basis points. -/
def lpRewardBasisPoints : ℕ := 5000

/-- Accrued rewards of operators and of pools. -/
structure RewardPool where
  rewards : ExtTreeMap AccountId ℕ
  lpRewards : ExtTreeMap PoolId ℕ
  deriving DecidableEq

namespace RewardPool

/-- No rewards. -/
def new : RewardPool := ⟨∅, ∅⟩

/-- Add to the reward of an operator. -/
def creditOperator (pool : RewardPool) (operator : AccountId) (share : ℕ) : RewardPool :=
  if share = 0 then pool
  else
    { pool with
      rewards := pool.rewards.insert operator
        (wrappingAdd 128 (pool.rewards.getD operator 0) share) }

/-- Add to the liquidity-provider reward of the DEX pool. -/
def creditLp (pool : RewardPool) (amount : ℕ) : RewardPool :=
  if amount = 0 then pool
  else
    { pool with
      lpRewards := pool.lpRewards.insert defaultDexDomain
        (wrappingAdd 128 (pool.lpRewards.getD defaultDexDomain 0) amount) }

/-- Distribute an amount: half to the DEX pool, half to the eligible operators in proportion to
their stakes. -/
def distribute (pool : RewardPool) (burned : ℕ) (stakeTable : StakeTable) : RewardPool :=
  if burned = 0 then pool
  else
    let pool := pool.creditLp (saturatingMul 128 burned lpRewardBasisPoints / 10000)
    let rewardAmount := saturatingMul 128 burned operatorRewardBasisPoints / 10000
    let staked := stakeTable.stakedOperators
    let totalStake := (staked.map Prod.snd).sum % 2 ^ 128
    if rewardAmount = 0 ∨ totalStake = 0 then pool
    else
      staked.foldl
        (fun pool entry ↦
          pool.creditOperator entry.1 (saturatingMul 128 rewardAmount entry.2 / totalStake)) pool

/-- Distribute fee revenue as metabolic value is distributed. -/
def distributeFees (pool : RewardPool) (fees : ℕ) (stakeTable : StakeTable) : RewardPool :=
  pool.distribute fees stakeTable

/-- The reward that an operator has accrued. -/
def balance (pool : RewardPool) (operator : AccountId) : ℕ := pool.rewards.getD operator 0

/-- Take the reward of an operator out of the pool. -/
def claim (pool : RewardPool) (operator : AccountId) : RewardPool × ℕ :=
  ({ pool with rewards := pool.rewards.erase operator }, pool.rewards.getD operator 0)

/-- The liquidity-provider reward that a pool has accrued. -/
def lpRewardBalance (pool : RewardPool) (poolId : PoolId) : ℕ := pool.lpRewards.getD poolId 0

/-- Take the liquidity-provider reward of a pool out of the pool of rewards. -/
def claimLpReward (pool : RewardPool) (poolId : PoolId) : RewardPool × ℕ :=
  ({ pool with lpRewards := pool.lpRewards.erase poolId }, pool.lpRewards.getD poolId 0)

/-- The commitment over the rewards. The keys of pools carry a marker, so that they differ from the
keys of accounts. -/
def root (prim : Primitives) (pool : RewardPool) : Bytes32 :=
  merkleRoot prim
    ((pool.rewards.toList.map fun entry ↦ (entry.1.bytes.toBytes, beBytes 16 entry.2)) ++
      pool.lpRewards.toList.map fun entry ↦
        (asciiBytes "lp:" ++ entry.1.toBytes, beBytes 16 entry.2))

end RewardPool

end Fluidic.Operator
