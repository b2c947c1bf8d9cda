import Fluidic.Api.Routes
import Fluidic.Consensus.SupplyCap

/-!
# Claiming a reward

`claim_operator_rewards` and `claim_lp_rewards` of `src/api/routes.rs`. A claim takes the reward out
of the reward pool and mints it, to the operator or in two halves to the accounts of the liquidity
pool. Minting refuses silently what goes beyond the maximum supply, and a refused reward is lost. A
distribution of decayed value leaves most of it in circulation, so that a node whose supply is
minted to the maximum has rewards that cannot be claimed.

`kept_iff_covered` is about one claim: it loses nothing if and only if the supply and the credited
balances have room for the reward. `claims_lose_nothing` says the same of every state of every
run.
-/

set_option autoImplicit false
set_option relaxedAutoImplicit false

namespace Fluidic.Api

open Library Crypto Fluidic.Field Value Operator Consensus
open Std (ExtTreeMap)

variable {platform : Platform}

/-! ### The routes -/

/-- The state behind the API of an operator, with the keypair that claims rewards. -/
structure OperatorApiState (platform : Platform) extends ApiState platform where
  operatorKeypair : Option KeyPair

namespace OperatorApiState

/-- Claim the reward of the operator. The answer is its account and the amount. -/
def claimOperatorRewards (state : OperatorApiState platform) :
    OperatorApiState platform × Except StatusCode (String × String) :=
  match state.operatorKeypair with
  | none => (state, .error .serviceUnavailable)
  | some keypair =>
    let account := keypair.accountId platform.primitives
    let (rewardPool, claimed) := state.oscillator.rewardPool.claim account
    let oscillator := { state.oscillator with rewardPool }
    let oscillator :=
      if 0 < claimed then oscillator.seedAccount account claimed else oscillator
    ({ state with oscillator }, .ok (account.display, s!"{claimed}"))

/-- Claim the liquidity-provider reward of a pool, given in hexadecimal. It goes in halves to the
accounts of the liquidity pool. The answer is the pool and the amount. -/
def claimLpRewards (state : OperatorApiState platform) (poolId : String) :
    OperatorApiState platform × Except StatusCode (String × String) :=
  match parseHash poolId with
  | .error status => (state, .error status)
  | .ok pool =>
    let (rewardPool, claimed) := state.oscillator.rewardPool.claimLpReward pool
    let oscillator := { state.oscillator with rewardPool }
    let half := claimed / 2
    let oscillator :=
      if 0 < claimed then
        (oscillator.seedAccount state.poolWaveAccount half).seedAccount state.poolUsdcAccount
          (claimed - half)
      else oscillator
    ({ state with oscillator }, .ok (poolId, s!"{claimed}"))

/-- The reward that an operator has accrued. -/
def rewardOf (state : OperatorApiState platform) (account : AccountId) : ℕ :=
  state.oscillator.rewardPool.balance account

/-- The liquidity-provider reward that a pool has accrued. -/
def lpRewardOf (state : OperatorApiState platform) (pool : PoolId) : ℕ :=
  state.oscillator.rewardPool.lpRewardBalance pool

/-- What the accounts of the liquidity pool hold together. -/
def poolUnits (state : OperatorApiState platform) : ℕ :=
  if state.poolWaveAccount = state.poolUsdcAccount then state.unitsOf state.poolWaveAccount
  else state.unitsOf state.poolWaveAccount + state.unitsOf state.poolUsdcAccount

end OperatorApiState

/-- A step of a run: a request to the node, or a claim. -/
inductive ClaimInput
  | serve (request : Request)
  | claimOperator
  | claimLp (poolId : String)

/-- What a step of a run returns. -/
inductive ClaimOutput
  | served (response : Response)
  | claimed (answer : Except StatusCode (String × String))

/-- Take one step. -/
def claimStep (state : OperatorApiState platform) :
    ClaimInput → Option (OperatorApiState platform × ClaimOutput)
  | .serve request =>
    (step platform state.oscillator request).map fun (oscillator, response) ↦
      ({ state with oscillator }, .served response)
  | .claimOperator =>
    let (state, answer) := state.claimOperatorRewards
    some (state, .claimed answer)
  | .claimLp poolId =>
    let (state, answer) := state.claimLpRewards poolId
    some (state, .claimed answer)

/-! ### What a claim should do -/

/-- A claim moved a reward: what is held grew by exactly what the reward lost, and a reward that the
supply cap keeps from being minted is still there. -/
structure RewardMoved (supply : SupplyTracker) (accrued held accrued' held' : ℕ) : Prop where
  decreased : accrued' ≤ accrued
  credited : held' = held + (accrued - accrued')
  claimable : (supply.mint accrued).2 = false → accrued' = accrued

namespace OperatorApiState

/-- The claim of an operator moved its reward to its balance. -/
def OperatorKept (before after : OperatorApiState platform) (account : AccountId) : Prop :=
  RewardMoved before.oscillator.supplyTracker (before.rewardOf account) (before.unitsOf account)
    (after.rewardOf account) (after.unitsOf account)

/-- The claim for a pool moved its reward to the accounts of the liquidity pool. -/
def PoolKept (before after : OperatorApiState platform) (pool : PoolId) : Prop :=
  RewardMoved before.oscillator.supplyTracker (before.lpRewardOf pool) before.poolUnits
    (after.lpRewardOf pool) after.poolUnits

/-- The supply has room for the reward of an operator, and so has its balance. -/
def OperatorCovered (state : OperatorApiState platform) (account : AccountId) : Prop :=
  state.rewardOf account = 0 ∨
    state.oscillator.supplyTracker.circulating + state.rewardOf account ≤ totalWaveSupply ∧
      state.unitsOf account + state.rewardOf account < 2 ^ 128

/-- The supply has room for the reward of a pool, and so have the balances of its accounts. -/
def PoolCovered (state : OperatorApiState platform) (pool : PoolId) : Prop :=
  state.lpRewardOf pool = 0 ∨
    state.oscillator.supplyTracker.circulating + state.lpRewardOf pool ≤ totalWaveSupply ∧
      if state.poolWaveAccount = state.poolUsdcAccount then
        state.unitsOf state.poolWaveAccount + state.lpRewardOf pool < 2 ^ 128
      else
        state.unitsOf state.poolWaveAccount + state.lpRewardOf pool / 2 < 2 ^ 128 ∧
          state.unitsOf state.poolUsdcAccount +
            (state.lpRewardOf pool - state.lpRewardOf pool / 2) < 2 ^ 128

instance (state : OperatorApiState platform) (account : AccountId) :
    Decidable (state.OperatorCovered account) :=
  inferInstanceAs (Decidable (_ ∨ _ ∧ _))

instance (state : OperatorApiState platform) (pool : PoolId) :
    Decidable (state.PoolCovered pool) :=
  inferInstanceAs (Decidable (_ ∨ _ ∧ ite _ _ _))

end OperatorApiState

/-- A step lost nothing. A claim that is answered with an error claims nothing. -/
def Kept (before after : OperatorApiState platform) : ClaimInput → Prop
  | .serve _ => True
  | .claimOperator => ∀ keypair ∈ before.operatorKeypair,
      before.OperatorKept after (keypair.accountId platform.primitives)
  | .claimLp poolId => ∀ pool ∈ (parseHash poolId).toOption, before.PoolKept after pool

/-- There is room for what a step claims. -/
def Covered (state : OperatorApiState platform) : ClaimInput → Prop
  | .serve _ => True
  | .claimOperator => ∀ keypair ∈ state.operatorKeypair,
      state.OperatorCovered (keypair.accountId platform.primitives)
  | .claimLp poolId => ∀ pool ∈ (parseHash poolId).toOption, state.PoolCovered pool

instance : DecidableRel (Covered : OperatorApiState platform → ClaimInput → Prop) :=
  fun state input ↦ match input with
    | .serve _ => isTrue trivial
    | .claimOperator => Option.decidableForallMem state.operatorKeypair
    | .claimLp poolId => Option.decidableForallMem (parseHash poolId).toOption

/-! ### Seeding -/

/-- The balances after an account was seeded. Assumes: the mint succeeds. -/
theorem units_seedAccount {oscillator : Oscillator platform} {account : AccountId} {amount : ℕ}
    (hminted : (oscillator.supplyTracker.mint amount).2 = true) (other : AccountId) :
    ((oscillator.seedAccount account amount).waveField.accountBalance other).units =
      if account = other then
        min ((oscillator.waveField.accountBalance account).units + amount) (2 ^ 128 - 1)
      else (oscillator.waveField.accountBalance other).units := by
  rw [Oscillator.seedAccount_eq, if_pos hminted]
  show ((oscillator.waveField.creditAccount account amount).accountBalance other).units = _
  unfold WaveField.creditAccount
  rw [WaveField.accountBalance_modify]
  split_ifs <;> rfl

/-- An amount can be minted in two parts. Assumes: both parts fit below the total supply. -/
theorem mint_two_parts {oscillator : Oscillator platform} {account : AccountId} {amount rest : ℕ}
    (hroom : oscillator.supplyTracker.circulating + (amount + rest) ≤ totalWaveSupply) :
    (oscillator.supplyTracker.mint amount).2 = true ∧
      ((oscillator.seedAccount account amount).supplyTracker.mint rest).2 = true := by
  have hfirst : (oscillator.supplyTracker.mint amount).2 = true :=
    (SupplyTracker.mint_eq_true_iff _ _).mpr (.inr (by omega))
  refine ⟨hfirst, (SupplyTracker.mint_eq_true_iff _ _).mpr (.inr ?_)⟩
  rw [Oscillator.seedAccount_eq, if_pos hfirst]
  dsimp only
  rw [SupplyTracker.circulating_mint hfirst]
  omega

theorem rewardPool_seedAccount (oscillator : Oscillator platform) (account : AccountId)
    (amount : ℕ) :
    (oscillator.seedAccount account amount).rewardPool = oscillator.rewardPool := by
  rw [Oscillator.seedAccount_eq]
  split_ifs <;> rfl

/-- A reward that is taken out of the pool is moved exactly when the supply has room for it and it
is added to what is held. -/
theorem rewardMoved_zero_iff (supply : SupplyTracker) (accrued held held' : ℕ) :
    RewardMoved supply accrued held 0 held' ↔
      (accrued = 0 ∨ supply.circulating + accrued ≤ totalWaveSupply) ∧ held' = held + accrued := by
  rw [← supply.mint_eq_true_iff]
  constructor
  · intro hmoved
    refine ⟨?_, hmoved.credited⟩
    by_contra hrefused
    have hzero : accrued = 0 := (hmoved.claimable (Bool.eq_false_iff.mpr hrefused)).symm
    exact hrefused ((supply.mint_eq_true_iff accrued).mpr (.inl hzero))
  · rintro ⟨hminted, hcredited⟩
    exact ⟨Nat.zero_le _, hcredited, fun hrefused ↦ by rw [hminted] at hrefused; cases hrefused⟩

/-! ### One claim -/

namespace OperatorApiState

/-- The claim of the operator loses nothing exactly when there is room. Assumes: the keypair is
configured. -/
theorem operatorKept_iff {state : OperatorApiState platform} {keypair : KeyPair}
    (hkeypair : state.operatorKeypair = some keypair) :
    state.OperatorKept state.claimOperatorRewards.1 (keypair.accountId platform.primitives) ↔
      state.OperatorCovered (keypair.accountId platform.primitives) := by
  set account := keypair.accountId platform.primitives
  set claimed := state.rewardOf account with hclaimed
  set emptied : Oscillator platform := { state.oscillator with
    rewardPool := (state.oscillator.rewardPool.claim account).1 } with hemptied
  have hafter : state.claimOperatorRewards.1 = { state with
      oscillator := if 0 < claimed then emptied.seedAccount account claimed else emptied } := by
    unfold claimOperatorRewards
    rw [hkeypair]
    rfl
  have hrest : emptied.rewardPool.balance account = 0 := ExtTreeMap.getD_erase_self
  have hleft : state.claimOperatorRewards.1.rewardOf account = 0 := by
    unfold rewardOf
    rw [hafter]
    dsimp only
    split_ifs
    · rw [rewardPool_seedAccount, hrest]
    · exact hrest
  unfold OperatorKept OperatorCovered
  rw [← hclaimed, hleft, rewardMoved_zero_iff]
  obtain hzero | hpos := Nat.eq_zero_or_pos claimed
  · have hsame : state.claimOperatorRewards.1.unitsOf account = state.unitsOf account := by
      rw [hafter, if_neg (by omega)]
      rfl
    rw [hsame, hzero]
    exact iff_of_true ⟨.inl rfl, rfl⟩ (.inl rfl)
  · rw [or_iff_right hpos.ne', or_iff_right hpos.ne']
    refine and_congr_right fun hroom ↦ ?_
    have hminted : (emptied.supplyTracker.mint claimed).2 = true :=
      (SupplyTracker.mint_eq_true_iff _ _).mpr (.inr hroom)
    have hunits : state.claimOperatorRewards.1.unitsOf account =
        min (state.unitsOf account + claimed) (2 ^ 128 - 1) := by
      rw [hafter, if_pos hpos]
      exact (units_seedAccount hminted account).trans (if_pos rfl)
    rw [hunits]
    omega

/-- The claim for a pool loses nothing exactly when there is room. Assumes: the text of the pool
parses to a hash. -/
theorem poolKept_iff {state : OperatorApiState platform} {poolId : String} {pool : PoolId}
    (hpool : parseHash poolId = .ok pool) :
    state.PoolKept (state.claimLpRewards poolId).1 pool ↔ state.PoolCovered pool := by
  set claimed := state.lpRewardOf pool with hclaimed
  set emptied : Oscillator platform := { state.oscillator with
    rewardPool := (state.oscillator.rewardPool.claimLpReward pool).1 } with hemptied
  have hafter : (state.claimLpRewards poolId).1 = { state with
      oscillator :=
        if 0 < claimed then
          (emptied.seedAccount state.poolWaveAccount (claimed / 2)).seedAccount
            state.poolUsdcAccount (claimed - claimed / 2)
        else emptied } := by
    unfold claimLpRewards
    rw [hpool]
    rfl
  have hrest : emptied.rewardPool.lpRewardBalance pool = 0 := ExtTreeMap.getD_erase_self
  have hleft : (state.claimLpRewards poolId).1.lpRewardOf pool = 0 := by
    unfold lpRewardOf
    rw [hafter]
    dsimp only
    split_ifs
    · rw [rewardPool_seedAccount, rewardPool_seedAccount, hrest]
    · exact hrest
  unfold PoolKept PoolCovered
  rw [← hclaimed, hleft, rewardMoved_zero_iff]
  obtain hzero | hpos := Nat.eq_zero_or_pos claimed
  · have hsame : (state.claimLpRewards poolId).1.poolUnits = state.poolUnits := by
      rw [hafter, if_neg (by omega)]
      rfl
    rw [hsame, hzero]
    exact iff_of_true ⟨.inl rfl, rfl⟩ (.inl rfl)
  · rw [or_iff_right hpos.ne', or_iff_right hpos.ne']
    refine and_congr_right fun hroom ↦ ?_
    have hparts : claimed / 2 + (claimed - claimed / 2) = claimed :=
      Nat.add_sub_of_le (Nat.div_le_self claimed 2)
    have hwhole : emptied.supplyTracker.circulating + (claimed / 2 + (claimed - claimed / 2)) ≤
        totalWaveSupply := by
      rw [hparts]
      exact hroom
    obtain ⟨hfirst, hsecond⟩ := @mint_two_parts _ emptied state.poolWaveAccount _ _ hwhole
    have hunits : ∀ account, (state.claimLpRewards poolId).1.unitsOf account =
        if state.poolUsdcAccount = account then
          min ((if state.poolWaveAccount = state.poolUsdcAccount then
              min (state.unitsOf state.poolWaveAccount + claimed / 2) (2 ^ 128 - 1)
            else state.unitsOf state.poolUsdcAccount) + (claimed - claimed / 2)) (2 ^ 128 - 1)
        else if state.poolWaveAccount = account then
          min (state.unitsOf state.poolWaveAccount + claimed / 2) (2 ^ 128 - 1)
        else state.unitsOf account := by
      intro account
      rw [hafter, if_pos hpos]
      refine (units_seedAccount hsecond account).trans ?_
      rw [units_seedAccount hfirst, units_seedAccount hfirst]
      rfl
    have haccounts : (state.claimLpRewards poolId).1.poolWaveAccount = state.poolWaveAccount ∧
        (state.claimLpRewards poolId).1.poolUsdcAccount = state.poolUsdcAccount := by
      rw [hafter]
      exact ⟨rfl, rfl⟩
    unfold poolUnits
    rw [haccounts.1, haccounts.2, hunits, hunits]
    by_cases hsame : state.poolWaveAccount = state.poolUsdcAccount
    · simp only [hsame, if_true]
      omega
    · simp only [hsame, Ne.symm hsame, if_true, if_false]
      omega

end OperatorApiState

/-- A step loses nothing exactly when there is room for the reward that it claims. Assumes: the step
is taken. -/
theorem kept_iff_covered {state next : OperatorApiState platform} {input : ClaimInput}
    {output : ClaimOutput} (hstep : claimStep state input = some (next, output)) :
    Kept state next input ↔ Covered state input := by
  cases input with
  | serve request => exact iff_of_true trivial trivial
  | claimOperator =>
    obtain ⟨rfl, -⟩ := Prod.mk.inj (Option.some.inj hstep)
    exact forall₂_congr fun keypair hkeypair ↦ OperatorApiState.operatorKept_iff hkeypair
  | claimLp poolId =>
    obtain ⟨rfl, -⟩ := Prod.mk.inj (Option.some.inj hstep)
    refine forall₂_congr fun pool hpool ↦ OperatorApiState.poolKept_iff ?_
    cases hparsed : parseHash poolId with
    | error status =>
      rw [hparsed] at hpool
      cases hpool
    | ok parsed =>
      rw [hparsed] at hpool
      rw [Option.some.inj hpool]

/-! ### Runs -/

/-- Claims lose nothing as long as there is room. In every state that a run reaches, a claim loses
nothing exactly when there is room for its reward, and in a run in which there is room for every
claimed reward no claim loses anything. -/
theorem claims_lose_nothing (initial : OperatorApiState platform) :
    (∀ history state, Reaches claimStep anyStep initial history state →
      ∀ input next output, claimStep state input = some (next, output) →
        (Kept state next input ↔ Covered state input)) ∧
    ∀ history state, Reaches claimStep Covered initial history state →
      ∀ entry ∈ history, ∃ next output, claimStep entry.1 entry.2 = some (next, output) ∧
        Kept entry.1 next entry.2 := by
  refine ⟨fun _ _ _ _ _ _ hstep ↦ kept_iff_covered hstep, fun history state hreaches ↦ ?_⟩
  induction hreaches with
  | start => exact fun _ hmem ↦ absurd hmem List.not_mem_nil
  | next _ hcovered hstep ih =>
    intro entry hmem
    rw [List.mem_append, List.mem_singleton] at hmem
    obtain hearlier | rfl := hmem
    · exact ih entry hearlier
    · exact ⟨_, _, hstep, (kept_iff_covered hstep).mpr hcovered⟩

/-- The API of an operator on a new node. -/
def operatorNode : OperatorApiState Platform.sample :=
  { ApiState.new (Oscillator.newWithStake 8 ⟨1⟩ (StakeTable.new StakingConfig.default)) with
    operatorKeypair := some ⟨1⟩ }

/-- The operator stakes a million of its two million WAVE, another account holds the given units,
and after two ticks decayed value was distributed. -/
def decayingInputs (held : ℕ) : List ClaimInput :=
  [.serve (.seedAccount (sampleAccount 1) 2000000000000000000),
    .serve (.seedAccount (sampleAccount 5) held),
    .serve (.applyStake (.sign .sample ⟨1⟩ 1000000000000000000 0 0)),
    .serve .sample, .serve .sample]

/-- The pool that liquidity providers have their rewards in, in hexadecimal. -/
def dexPoolId : String := hexEncode defaultDexDomain.toBytes

/-- Far below the maximum supply both rewards are claimed in full. -/
theorem claims_lose_nothing_belowCap :
    (run claimStep Covered operatorNode (decayingInputs 1000000000000000)).map
        (fun state ↦ (state.rewardOf (sampleAccount 1), state.lpRewardOf defaultDexDomain)) =
      some (757500000000, 757500000000) ∧
    ∃ history state, history.map Prod.snd =
        decayingInputs 1000000000000000 ++ [.claimOperator, .claimLp dexPoolId] ∧
      Reaches claimStep Covered operatorNode history state ∧
      ∀ entry ∈ history, ∃ next output, claimStep entry.1 entry.2 = some (next, output) ∧
        Kept entry.1 next entry.2 := by
  refine ⟨by decide +kernel, ?_⟩
  have hsome : (run claimStep Covered operatorNode
      (decayingInputs 1000000000000000 ++ [.claimOperator, .claimLp dexPoolId])).isSome = true := by
    decide +kernel
  obtain ⟨state, hrun⟩ := Option.isSome_iff_exists.mp hsome
  obtain ⟨history, hinputs, hreaches⟩ := reaches_of_run hrun
  exact ⟨history, state, hinputs, hreaches,
    (claims_lose_nothing operatorNode).2 history state hreaches⟩

/-- All WAVE is minted. A quarter of what decays is burned and the rest distributed, so that neither
reward can be minted: the claim of the operator takes all of its reward and credits nothing. -/
theorem refused_claim_loses_reward :
    ∃ history state, Reaches claimStep anyStep operatorNode history state ∧
      history.map Prod.snd = decayingInputs 997800000000000000000 ∧
      state.rewardOf (sampleAccount 1) = 7484250000000000 ∧
      state.claimOperatorRewards.1.rewardOf (sampleAccount 1) = 0 ∧
      state.claimOperatorRewards.1.unitsOf (sampleAccount 1) = state.unitsOf (sampleAccount 1) ∧
      ¬Kept state state.claimOperatorRewards.1 .claimOperator := by
  have hsome : ((run claimStep anyStep operatorNode (decayingInputs 997800000000000000000)).map
      fun state ↦ (state.rewardOf (sampleAccount 1),
        state.claimOperatorRewards.1.rewardOf (sampleAccount 1),
        decide (state.claimOperatorRewards.1.unitsOf (sampleAccount 1) =
          state.unitsOf (sampleAccount 1)),
        decide (Covered state .claimOperator))) = some (7484250000000000, 0, true, false) := by
    decide +kernel
  obtain ⟨state, hrun, hvalues⟩ := Option.map_eq_some_iff.mp hsome
  simp only [Prod.mk.injEq, decide_eq_true_eq, decide_eq_false_iff_not] at hvalues
  obtain ⟨hreward, hleft, hunits, hcovered⟩ := hvalues
  obtain ⟨history, hinputs, hreaches⟩ := reaches_of_run hrun
  exact ⟨history, state, hreaches, hinputs, hreward, hleft, hunits,
    fun hkept ↦ hcovered ((kept_iff_covered rfl).mp hkept)⟩

end Fluidic.Api
