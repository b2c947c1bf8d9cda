import Fluidic.Consensus.SpendBounds
import Fluidic.Consensus.SupplyCap
import Fluidic.Operator.RewardSplit

/-!
# The counters of a synthesis within their ranges

A synthesis adds to counters that nothing bounds: the decay of the tick to the running total of the
engine, its burned share to the burned supply, the rest to the rewards of the liquidity providers
and the operators. Where it asks for a quorum it sums the stakes, and with its own certificate it
adds a stake to a tally or, when the certificate contradicts an earlier one, burns that stake. Each
of these has a version here that traps where a result leaves its 128 bits.

The decay runs through exactly when each counter has room for what it takes up
(`decayPhaseChecked_eq_some_iff`), and so does the sum of the stakes
(`quorumThresholdChecked_eq_some_iff`). For the certificate, room in every tally of its tick and in
the burned supply is enough (`ingestCertificateChecked_eq`).
-/

set_option autoImplicit false
set_option relaxedAutoImplicit false

namespace Fluidic.Consensus

open Library Crypto Fluidic.Field Value Operator
open Std (ExtTreeMap TransOrd LawfulEqOrd)

/-! ### Decay and supply -/

/-- Record burn computed elsewhere, which traps where the total leaves its 128 bits. -/
def recordBurnChecked (engine : MetabolicDecayEngine) (amount : ℕ) :
    Option MetabolicDecayEngine :=
  (checkedAdd 128 engine.totalBurned amount).map MetabolicDecayEngine.mk

theorem recordBurnChecked_eq_some_iff (engine : MetabolicDecayEngine) (amount : ℕ) :
    recordBurnChecked engine amount = some (engine.recordBurn amount) ↔
      engine.totalBurned + amount < 2 ^ 128 := by
  unfold recordBurnChecked checkedAdd MetabolicDecayEngine.recordBurn
  split_ifs with hfits
  · rw [wrappingAdd_of_lt hfits]
    exact iff_of_true rfl hfits
  · exact iff_of_false (by simp) hfits

/-- Burn an amount, which traps where the burned supply leaves its 128 bits. -/
def burnChecked (supply : SupplyTracker) (amount : ℕ) : Option SupplyTracker :=
  if amount = 0 then some supply
  else (checkedAdd 128 supply.burned amount).map fun burned ↦
    ⟨supply.circulating - amount, burned⟩

theorem burnChecked_eq_some_iff (supply : SupplyTracker) (amount : ℕ) :
    burnChecked supply amount = some (supply.burn amount) ↔
      (0 < amount → supply.burned + amount < 2 ^ 128) := by
  unfold burnChecked checkedAdd SupplyTracker.burn
  by_cases hzero : amount = 0
  · rw [if_pos hzero, if_pos hzero]
    exact iff_of_true rfl fun hpositive ↦ absurd hzero hpositive.ne'
  · rw [if_neg hzero, if_neg hzero]
    split_ifs with hfits
    · rw [wrappingAdd_of_lt hfits]
      exact iff_of_true rfl fun _ ↦ hfits
    · exact iff_of_false (by simp) fun hroom ↦ hfits (hroom (Nat.pos_of_ne_zero hzero))

/-! ### Rewards -/

section Accrue

variable {κ : Type} [Ord κ] [TransOrd κ]

/-- Add a share to a reward, which traps where the reward leaves its 128 bits. -/
def accrueChecked (rewards : ExtTreeMap κ ℕ) (key : κ) (share : ℕ) : Option (ExtTreeMap κ ℕ) :=
  if share = 0 then some rewards
  else (checkedAdd 128 (rewards.getD key 0) share).map fun reward ↦ rewards.insert key reward

theorem accrueChecked_eq_some_iff (rewards : ExtTreeMap κ ℕ) (key : κ) (share : ℕ)
    (next : ExtTreeMap κ ℕ) :
    accrueChecked rewards key share = some next ↔
      (0 < share → rewards.getD key 0 + share < 2 ^ 128) ∧ next = accrue rewards key share := by
  unfold accrueChecked checkedAdd accrue
  by_cases hzero : share = 0
  · rw [if_pos hzero, if_pos hzero, Option.some.injEq, eq_comm]
    exact (and_iff_right fun hpositive ↦ absurd hzero hpositive.ne').symm
  · rw [if_neg hzero, if_neg hzero]
    split_ifs with hfits
    · rw [wrappingAdd_of_lt hfits, Option.map_some, Option.some.injEq, eq_comm]
      exact (and_iff_right fun _ ↦ hfits).symm
    · exact iff_of_false (by simp) fun hboth ↦ hfits (hboth.1 (Nat.pos_of_ne_zero hzero))

variable [LawfulEqOrd κ]

/-- Shares of distinct keys are added exactly when each reward has room for its share. Assumes: the
keys are distinct. -/
theorem foldlM_accrueChecked (shareOf : ℕ → ℕ) {entries : List (κ × ℕ)}
    (hdistinct : (entries.map Prod.fst).Nodup) (rewards next : ExtTreeMap κ ℕ) :
    entries.foldlM (fun rewards entry ↦ accrueChecked rewards entry.1 (shareOf entry.2)) rewards =
        some next ↔
      (∀ entry ∈ entries, 0 < shareOf entry.2 →
        rewards.getD entry.1 0 + shareOf entry.2 < 2 ^ 128) ∧
      next = entries.foldl (fun rewards entry ↦ accrue rewards entry.1 (shareOf entry.2))
        rewards := by
  induction entries generalizing rewards with
  | nil => simp [eq_comm]
  | cons entry entries ih =>
    obtain ⟨hfirst, hrest⟩ := List.nodup_cons.mp hdistinct
    have hkept : ∀ other ∈ entries,
        (accrue rewards entry.1 (shareOf entry.2)).getD other.1 0 = rewards.getD other.1 0 := by
      intro other hother
      refine getD_accrue_of_ne _ fun hsame ↦ hfirst ?_
      rw [hsame]
      exact List.mem_map_of_mem hother
    rw [List.foldlM_cons, Option.bind_eq_bind, Option.bind_eq_some_iff, List.forall_mem_cons,
      List.foldl_cons]
    simp only [accrueChecked_eq_some_iff, ih hrest]
    constructor
    · rintro ⟨_, ⟨hroom, rfl⟩, hlater, rfl⟩
      exact ⟨⟨hroom, fun other hother ↦ hkept other hother ▸ hlater other hother⟩, rfl⟩
    · rintro ⟨⟨hroom, hlater⟩, rfl⟩
      exact ⟨_, ⟨hroom, rfl⟩, fun other hother ↦ (hkept other hother).symm ▸ hlater other hother,
        rfl⟩

end Accrue

/-- Add the operators' shares of an amount, which traps where the sum of the stakes or a reward
leaves its 128 bits. -/
def creditOperatorsChecked (rewards : ExtTreeMap AccountId ℕ) (burned : ℕ) (table : StakeTable) :
    Option (ExtTreeMap AccountId ℕ) :=
  if operatorsShare burned = 0 then some rewards
  else (checkedSum 128 (table.stakedOperators.map Prod.snd)).bind fun totalStake ↦
    if totalStake = 0 then some rewards
    else table.stakedOperators.foldlM
      (fun rewards entry ↦ accrueChecked rewards entry.1
        (saturatingMul 128 (operatorsShare burned) entry.2 / totalStake)) rewards

/-- Distribute an amount, which traps where the sum of the stakes or a reward leaves its 128 bits.
-/
def distributeChecked (pool : RewardPool) (burned : ℕ) (table : StakeTable) :
    Option RewardPool :=
  if burned = 0 then some pool
  else do
    let lpRewards ← accrueChecked pool.lpRewards defaultDexDomain (lpShare burned)
    let rewards ← creditOperatorsChecked pool.rewards burned table
    return { rewards, lpRewards }

/-- The rewards have room for an amount that is distributed: that of the liquidity providers for
their half, the sum of the eligible stakes, and each operator for its share of the other half. -/
structure DistributionFits (pool : RewardPool) (burned : ℕ) (table : StakeTable) : Prop where
  liquidity : 0 < lpShare burned →
    pool.lpRewards.getD defaultDexDomain 0 + lpShare burned < 2 ^ 128
  stakes : 0 < operatorsShare burned → eligibleStake table < 2 ^ 128
  shares : ∀ entry ∈ table.stakedOperators, 0 < shareOf table burned entry.2 →
    pool.rewards.getD entry.1 0 + shareOf table burned entry.2 < 2 ^ 128

instance (pool : RewardPool) (burned : ℕ) (table : StakeTable) :
    Decidable (DistributionFits pool burned table) :=
  decidable_of_iff
    ((0 < lpShare burned → pool.lpRewards.getD defaultDexDomain 0 + lpShare burned < 2 ^ 128) ∧
      (0 < operatorsShare burned → eligibleStake table < 2 ^ 128) ∧
      ∀ entry ∈ table.stakedOperators, 0 < shareOf table burned entry.2 →
        pool.rewards.getD entry.1 0 + shareOf table burned entry.2 < 2 ^ 128)
    ⟨fun ⟨hliquidity, hstakes, hshares⟩ ↦ ⟨hliquidity, hstakes, hshares⟩,
    fun ⟨hliquidity, hstakes, hshares⟩ ↦ ⟨hliquidity, hstakes, hshares⟩⟩

/-- No operator has a share where nothing is distributed or nobody is eligible. -/
theorem shareOf_eq_zero {table : StakeTable} {burned : ℕ}
    (hidle : operatorsShare burned = 0 ∨ eligibleStake table = 0) (stake : ℕ) :
    shareOf table burned stake = 0 := by
  unfold shareOf
  rcases hidle with hnothing | hnobody
  · rw [hnothing, saturatingMul, Nat.zero_mul, Nat.zero_min, Nat.zero_div]
  · rw [hnobody, Nat.div_zero]

/-- The operators' shares are added exactly when the sum of the stakes fits and each reward has room
for its share. -/
theorem creditOperatorsChecked_eq_some_iff (rewards : ExtTreeMap AccountId ℕ) (burned : ℕ)
    (table : StakeTable) (next : ExtTreeMap AccountId ℕ) :
    creditOperatorsChecked rewards burned table = some next ↔
      (0 < operatorsShare burned → eligibleStake table < 2 ^ 128) ∧
      (∀ entry ∈ table.stakedOperators, 0 < shareOf table burned entry.2 →
        rewards.getD entry.1 0 + shareOf table burned entry.2 < 2 ^ 128) ∧
      next = table.stakedOperators.foldl
        (fun rewards entry ↦ accrue rewards entry.1 (shareOf table burned entry.2)) rewards := by
  have hnone (hidle : operatorsShare burned = 0 ∨ eligibleStake table = 0) :
      some rewards = some next ↔
        (∀ entry ∈ table.stakedOperators, 0 < shareOf table burned entry.2 →
          rewards.getD entry.1 0 + shareOf table burned entry.2 < 2 ^ 128) ∧
        next = table.stakedOperators.foldl
          (fun rewards entry ↦ accrue rewards entry.1 (shareOf table burned entry.2)) rewards := by
    simp only [shareOf_eq_zero hidle, accrue_zero, List.foldl_fixed, lt_irrefl, false_implies,
      implies_true, true_and, Option.some.injEq, eq_comm]
  unfold creditOperatorsChecked
  by_cases hnothing : operatorsShare burned = 0
  · rw [if_pos hnothing, hnone (.inl hnothing)]
    exact (and_iff_right fun hpositive ↦ absurd hnothing hpositive.ne').symm
  have htotal : checkedSum 128 (table.stakedOperators.map Prod.snd) =
      if eligibleStake table < 2 ^ 128 then some (eligibleStake table) else none :=
    checkedSum_eq _ _
  rw [if_neg hnothing, htotal]
  by_cases hstakes : eligibleStake table < 2 ^ 128
  · rw [if_pos hstakes, Option.bind_some, and_iff_right fun _ ↦ hstakes]
    by_cases hnobody : eligibleStake table = 0
    · rw [if_pos hnobody]
      exact hnone (.inr hnobody)
    · rw [if_neg hnobody]
      exact foldlM_accrueChecked (shareOf table burned) (RewardPool.nodup_stakedOperators table)
        rewards next
  · rw [if_neg hstakes, Option.bind_none]
    exact iff_of_false (by simp) fun hfits ↦ hstakes (hfits.1 (Nat.pos_of_ne_zero hnothing))

/-- A distribution adds the shares, also where it returns early. Assumes: the eligible stakes fit
together where they are summed. -/
theorem distribute_eq_of_stakes (pool : RewardPool) {burned : ℕ} {table : StakeTable}
    (hstakes : 0 < operatorsShare burned → eligibleStake table < 2 ^ 128) :
    pool.distribute burned table =
      { rewards := table.stakedOperators.foldl
          (fun rewards entry ↦ accrue rewards entry.1 (shareOf table burned entry.2)) pool.rewards
        lpRewards := accrue pool.lpRewards defaultDexDomain (lpShare burned) } := by
  by_cases hnothing : operatorsShare burned = 0
  · simp only [shareOf_eq_zero (.inl hnothing), accrue_zero, List.foldl_fixed]
    unfold RewardPool.distribute
    by_cases hburned : burned = 0
    · have hlp : lpShare 0 = 0 := by decide
      rw [if_pos hburned, hburned, hlp, accrue_zero]
    · rw [if_neg hburned]
      dsimp only
      rw [if_pos (.inl hnothing), RewardPool.creditLp_eq]
      rfl
  · exact pool.distribute_eq burned (hstakes (Nat.pos_of_ne_zero hnothing))

/-- A distribution runs through exactly when the rewards have room for it. -/
theorem distributeChecked_eq_some_iff (pool : RewardPool) (burned : ℕ) (table : StakeTable) :
    distributeChecked pool burned table = some (pool.distribute burned table) ↔
      DistributionFits pool burned table := by
  by_cases hburned : burned = 0
  · have hlp : lpShare 0 = 0 := by decide
    have hoperators : operatorsShare 0 = 0 := by decide
    subst hburned
    refine iff_of_true rfl ⟨?_, ?_, fun entry _ ↦ ?_⟩
    · rw [hlp]
      exact fun hpositive ↦ absurd hpositive (lt_irrefl 0)
    · rw [hoperators]
      exact fun hpositive ↦ absurd hpositive (lt_irrefl 0)
    · rw [shareOf_eq_zero (.inl hoperators)]
      exact fun hpositive ↦ absurd hpositive (lt_irrefl 0)
  unfold distributeChecked
  simp only [if_neg hburned, Option.bind_eq_bind, Option.bind_eq_some_iff,
    accrueChecked_eq_some_iff, creditOperatorsChecked_eq_some_iff, Option.pure_def,
    Option.some.injEq]
  constructor
  · rintro ⟨_, ⟨hliquidity, -⟩, _, ⟨hstakes, hshares, -⟩, -⟩
    exact ⟨hliquidity, hstakes, hshares⟩
  · intro hfits
    exact ⟨_, ⟨hfits.liquidity, rfl⟩, _, ⟨hfits.stakes, hfits.shares, rfl⟩,
      (distribute_eq_of_stakes pool hfits.stakes).symm⟩

/-! ### Stakes and tallies -/

/-- The stakes of all operators that are not slashed. -/
def liveStakes (table : StakeTable) : ℕ :=
  sumBy (fun _ entry ↦ StakeTable.liveStake entry) table.operators

/-- The stake that makes a quorum, which traps where a sum leaves its 128 bits. -/
def quorumThresholdChecked (table : StakeTable) : Option ℕ := do
  let total ← checkedSum 128 (table.operators.toList.map fun entry ↦ StakeTable.liveStake entry.2)
  if total = 0 then some 0 else checkedAdd 128 (total / 3 * 2) 1

/-- The threshold is computed exactly when the stakes fit together. -/
theorem quorumThresholdChecked_eq_some_iff (table : StakeTable) :
    quorumThresholdChecked table = some table.quorumThreshold ↔ liveStakes table < 2 ^ 128 := by
  have htotal : checkedSum 128 (table.operators.toList.map fun entry ↦
      StakeTable.liveStake entry.2) =
        if liveStakes table < 2 ^ 128 then some (liveStakes table) else none :=
    checkedSum_eq _ _
  unfold quorumThresholdChecked
  rw [htotal]
  split_ifs with hfits
  · have hsame : table.totalStake = liveStakes table := Nat.mod_eq_of_lt hfits
    rw [Option.bind_eq_bind, Option.bind_some, StakeTable.quorumThreshold, hsame, checkedAdd]
    refine iff_of_true ?_ hfits
    split_ifs with hzero hroom
    · rfl
    · rfl
    · omega
  · exact iff_of_false (by simp) hfits

/-- Keep a first certificate and add the operator's stake to the tally of its view, which traps
where the tally leaves its 128 bits. -/
def recordChecked (tracker : CertificateTracker) (cert : SynthesisCertificate) (stake : ℕ) :
    Option CertificateTracker :=
  let groups := tracker.byTick.getD cert.tick ∅
  let view := QuorumView.ofCertificate cert
  let tally := match groups[view]? with
    | some tallied => checkedAdd 128 tallied stake
    | none => some stake
  tally.map fun tally ↦
    { byOperatorTick := tracker.byOperatorTick.insert (cert.operator, cert.tick) cert
      byTick := tracker.byTick.insert cert.tick (groups.insert view tally) }

/-- Every tally of a tick has room for a stake. -/
def TalliesFit (tracker : CertificateTracker) (tick stake : ℕ) : Prop :=
  ∀ entry ∈ (tracker.byTick.getD tick ∅).toList, entry.2 + stake < 2 ^ 128

instance (tracker : CertificateTracker) (tick stake : ℕ) :
    Decidable (TalliesFit tracker tick stake) :=
  inferInstanceAs (Decidable (∀ entry ∈ (tracker.byTick.getD tick ∅).toList,
    entry.2 + stake < 2 ^ 128))

/-- A certificate is recorded without a trap. Assumes: the tallies of its tick have room. -/
theorem recordChecked_eq {tracker : CertificateTracker} {cert : SynthesisCertificate} {stake : ℕ}
    (htallies : TalliesFit tracker cert.tick stake) :
    recordChecked tracker cert stake = some (tracker.record cert stake) := by
  unfold recordChecked CertificateTracker.record
  dsimp only
  cases hgroup : (tracker.byTick.getD cert.tick ∅)[QuorumView.ofCertificate cert]? with
  | none => rfl
  | some tallied =>
    have hroom : tallied + stake < 2 ^ 128 :=
      htallies (_, tallied) (ExtTreeMap.mem_toList_iff_getElem?_eq_some.mpr hgroup)
    dsimp only
    rw [checkedAdd, if_pos hroom, wrappingAdd_of_lt hroom]
    rfl

namespace Oscillator

variable {platform : Platform}

/-- Ingest a certificate, which traps where a tally or the burned supply leaves its 128 bits. -/
def ingestCertificateChecked (oscillator : Oscillator platform) (cert : SynthesisCertificate)
    (registry : KeyRegistry) : Option (Oscillator platform × Except SlashingReason Unit) :=
  match registry[cert.operator]? with
  | none => some (oscillator, .error .invalidSignature)
  | some publicKey =>
    if !cert.verify platform.primitives publicKey then some (oscillator, .error .invalidSignature)
    else if !oscillator.stakeTable.isStaked cert.operator then
      some (oscillator, .error .unstakedOperator)
    else
      match oscillator.certificateTracker.byOperatorTick[(cert.operator, cert.tick)]? with
      | some kept =>
        if kept.signingBytes ≠ cert.signingBytes then
          let (stakeTable, _, burned) := oscillator.stakeTable.slash cert.operator
          (burnChecked oscillator.supplyTracker burned).map fun supplyTracker ↦
            ({ oscillator with stakeTable, supplyTracker }, .error .conflictingCertificate)
        else some (oscillator, .ok ())
      | none =>
        (recordChecked oscillator.certificateTracker cert
          (oscillator.stakeTable.getStake cert.operator)).map fun certificateTracker ↦
            ({ oscillator with certificateTracker }, .ok ())

/-- A certificate is ingested without a trap. Assumes: the tallies of its tick have room for the
stake of its operator, and so has the burned supply, when a certificate of the operator is kept for
the tick. -/
theorem ingestCertificateChecked_eq {oscillator : Oscillator platform} {cert : SynthesisCertificate}
    (registry : KeyRegistry)
    (htallies : TalliesFit oscillator.certificateTracker cert.tick
      (oscillator.stakeTable.getStake cert.operator))
    (hburned : (cert.operator, cert.tick) ∈ oscillator.certificateTracker.byOperatorTick →
      oscillator.supplyTracker.burned + oscillator.stakeTable.getStake cert.operator < 2 ^ 128) :
    oscillator.ingestCertificateChecked cert registry =
      some (oscillator.ingestCertificate cert registry) := by
  unfold ingestCertificateChecked ingestCertificate CertificateTracker.apply
  cases hkey : registry[cert.operator]? with
  | none => rfl
  | some publicKey =>
    dsimp only
    split_ifs with hverified hstaked
    · rfl
    · rfl
    cases hkept : oscillator.certificateTracker.byOperatorTick[(cert.operator, cert.tick)]? with
    | none =>
      dsimp only
      rw [recordChecked_eq htallies]
      rfl
    | some kept =>
      dsimp only
      split_ifs with hconflict
      · have hroom := hburned (mem_iff_exists_getElem?.mpr ⟨kept, hkept⟩)
        have hburn : burnChecked oscillator.supplyTracker
            (oscillator.stakeTable.slash cert.operator).2.2 = some (oscillator.supplyTracker.burn
              (oscillator.stakeTable.slash cert.operator).2.2) :=
          (burnChecked_eq_some_iff _ _).mpr fun _ ↦ hroom
        rw [hburn]
        rfl
      · rfl

/-! ### The decay -/

/-- The decay of a synthesis, which traps where a counter leaves its 128 bits. -/
def decayPhaseChecked (oscillator : Oscillator platform) (tick : ℕ) :
    Option (Oscillator platform × ℕ) := do
  let immune := fun account ↦
    (oscillator.stakeTable.stakedOperators.map Prod.fst).contains account
  let (waveField, decayed) := oscillator.waveField.applyMetabolicDecay tick
    (dexLambda oscillator.domainRegistry) immune
  let metabolicEngine ← recordBurnChecked oscillator.metabolicEngine decayed
  let burnShare := saturatingMul 128 decayed metabolicBurnBp / basisPointsDenominator
  let rewardShare ← checkedSub decayed burnShare
  let supplyTracker ← (if 0 < burnShare then burnChecked oscillator.supplyTracker burnShare
    else some oscillator.supplyTracker)
  let rewardPool ← (if 0 < rewardShare then
      distributeChecked oscillator.rewardPool rewardShare oscillator.stakeTable
    else some oscillator.rewardPool)
  return ({ oscillator with waveField, metabolicEngine, supplyTracker, rewardPool }, decayed)

/-- What the decay to the present tick takes: what each account and each pool loses, added up, but
not more than the largest `u128`. -/
def decayTotal (oscillator : Oscillator platform) : ℕ :=
  min
    (sumBy (fun account balance ↦
        balance.units - (oscillator.decayedAccount account balance).units)
      oscillator.waveField.accounts +
    sumBy (fun _ balance ↦ balance.units - (balance.decayInPlace oscillator.synthesisTick
        (dexLambda oscillator.domainRegistry)).1.units)
      oscillator.waveField.pools)
    (2 ^ 128 - 1)

/-- The share of it that is burned. -/
def decayBurn (oscillator : Oscillator platform) : ℕ :=
  saturatingMul 128 (decayTotal oscillator) metabolicBurnBp / basisPointsDenominator

/-- The total that the decay returns is what the balances lose. -/
theorem decayPhase_snd (oscillator : Oscillator platform) :
    (oscillator.decayPhase oscillator.synthesisTick).2 = decayTotal oscillator := by
  have haccount (account : AccountId) (balance : Balance) :
      (WaveField.decayAccount
        (fun account ↦ (oscillator.stakeTable.stakedOperators.map Prod.fst).contains account)
        oscillator.synthesisTick (dexLambda oscillator.domainRegistry) account balance).2 =
      balance.units - (oscillator.decayedAccount account balance).units := by
    have hunits := WaveField.units_decayAccount
      (fun account ↦ (oscillator.stakeTable.stakedOperators.map Prod.fst).contains account)
      oscillator.synthesisTick (dexLambda oscillator.domainRegistry) account balance
    unfold decayedAccount
    omega
  have hpool (balance : Balance) :
      (balance.decayInPlace oscillator.synthesisTick (dexLambda oscillator.domainRegistry)).2 =
      balance.units - (balance.decayInPlace oscillator.synthesisTick
        (dexLambda oscillator.domainRegistry)).1.units := by
    have hunits := balance.units_decayInPlace oscillator.synthesisTick
      (dexLambda oscillator.domainRegistry)
    omega
  unfold decayPhase decayTotal sumBy WaveField.applyMetabolicDecay
  dsimp only
  rw [foldl_saturatingAdd 128 _ (Nat.two_pow_pos 128), foldl_saturatingAdd 128 _ (by omega)]
  simp only [haccount, hpool]
  omega

/-- The share of the decay that a synthesis burns. -/
theorem burnShare_eq (oscillator : Oscillator platform) :
    burnShare oscillator = decayBurn oscillator := by
  unfold burnShare decayBurn
  rw [decayPhase_snd]

/-- The counters have room for what the decay of the present tick takes: the running total for all
of it, the burned supply for the share that is burned, and the rewards for the rest. -/
structure DecayFits (oscillator : Oscillator platform) : Prop where
  total : oscillator.metabolicEngine.totalBurned + decayTotal oscillator < 2 ^ 128
  burned : 0 < decayBurn oscillator →
    oscillator.supplyTracker.burned + decayBurn oscillator < 2 ^ 128
  rewards : DistributionFits oscillator.rewardPool (decayTotal oscillator - decayBurn oscillator)
    oscillator.stakeTable

instance (oscillator : Oscillator platform) : Decidable (DecayFits oscillator) :=
  decidable_of_iff
    (oscillator.metabolicEngine.totalBurned + decayTotal oscillator < 2 ^ 128 ∧
      (0 < decayBurn oscillator →
        oscillator.supplyTracker.burned + decayBurn oscillator < 2 ^ 128) ∧
      DistributionFits oscillator.rewardPool (decayTotal oscillator - decayBurn oscillator)
        oscillator.stakeTable)
    ⟨fun ⟨htotal, hburned, hrewards⟩ ↦ ⟨htotal, hburned, hrewards⟩,
    fun ⟨htotal, hburned, hrewards⟩ ↦ ⟨htotal, hburned, hrewards⟩⟩

/-- A call that is skipped for an amount of zero does what it would do there. Assumes: the call does
nothing for an amount of zero. -/
theorem skip_zero {α : Type} {call : ℕ → α} {idle : α} (hidle : call 0 = idle) (amount : ℕ) :
    (if 0 < amount then call amount else idle) = call amount := by
  split_ifs with hpositive
  · rfl
  · rw [Nat.eq_zero_of_not_pos hpositive, hidle]

/-- The decay runs through exactly when the counters have room for what it takes. -/
theorem decayPhaseChecked_eq_some_iff (oscillator : Oscillator platform) :
    oscillator.decayPhaseChecked oscillator.synthesisTick =
        some (oscillator.decayPhase oscillator.synthesisTick) ↔ DecayFits oscillator := by
  have htotal := decayPhase_snd oscillator
  have hshare : decayBurn oscillator ≤ decayTotal oscillator := saturatingMul_div_le (by decide)
  have hsplit : checkedSub (decayTotal oscillator) (decayBurn oscillator) =
      some (decayTotal oscillator - decayBurn oscillator) := if_pos hshare
  have hphase : oscillator.decayPhaseChecked oscillator.synthesisTick =
      (recordBurnChecked oscillator.metabolicEngine (decayTotal oscillator)).bind
        fun metabolicEngine ↦
      (checkedSub (decayTotal oscillator) (decayBurn oscillator)).bind fun rewardShare ↦
      (if 0 < decayBurn oscillator then burnChecked oscillator.supplyTracker (decayBurn oscillator)
        else some oscillator.supplyTracker).bind fun supplyTracker ↦
      (if 0 < rewardShare then
          distributeChecked oscillator.rewardPool rewardShare oscillator.stakeTable
        else some oscillator.rewardPool).bind fun rewardPool ↦
      some ({ (oscillator.decayPhase oscillator.synthesisTick).1 with
        metabolicEngine, supplyTracker, rewardPool }, decayTotal oscillator) := by
    unfold decayBurn
    rw [← htotal]
    rfl
  have hburns : (if 0 < decayBurn oscillator then
      burnChecked oscillator.supplyTracker (decayBurn oscillator)
    else some oscillator.supplyTracker) =
      burnChecked oscillator.supplyTracker (decayBurn oscillator) :=
    @skip_zero _ (burnChecked oscillator.supplyTracker) _ rfl _
  have hrewards : (if 0 < decayTotal oscillator - decayBurn oscillator then
      distributeChecked oscillator.rewardPool (decayTotal oscillator - decayBurn oscillator)
        oscillator.stakeTable
    else some oscillator.rewardPool) = distributeChecked oscillator.rewardPool
      (decayTotal oscillator - decayBurn oscillator) oscillator.stakeTable :=
    @skip_zero _ (distributeChecked oscillator.rewardPool · oscillator.stakeTable) _ rfl _
  have hengine : (oscillator.decayPhase oscillator.synthesisTick).1.metabolicEngine =
      oscillator.metabolicEngine.recordBurn (decayTotal oscillator) := by
    rw [← htotal]
    rfl
  have hsupply : (oscillator.decayPhase oscillator.synthesisTick).1.supplyTracker =
      oscillator.supplyTracker.burn (decayBurn oscillator) := by
    rw [← burnShare_eq]
    exact @skip_zero _ oscillator.supplyTracker.burn _ rfl _
  have hpool : (oscillator.decayPhase oscillator.synthesisTick).1.rewardPool =
      oscillator.rewardPool.distribute (decayTotal oscillator - decayBurn oscillator)
        oscillator.stakeTable := by
    rw [← burnShare_eq, ← htotal]
    exact @skip_zero _ (oscillator.rewardPool.distribute · oscillator.stakeTable) _ rfl _
  rw [hphase, hsplit]
  simp only [Option.bind_eq_some_iff, Option.bind_some, Option.some.injEq, hburns, hrewards]
  constructor
  · rintro ⟨engine, hrecorded, supply, hburned, pool, hdistributed, hsame⟩
    have hfirst := (congrArg (fun result ↦ result.1.metabolicEngine) hsame).trans hengine
    have hsecond := (congrArg (fun result ↦ result.1.supplyTracker) hsame).trans hsupply
    have hthird := (congrArg (fun result ↦ result.1.rewardPool) hsame).trans hpool
    dsimp only at hfirst hsecond hthird
    subst hfirst hsecond hthird
    exact ⟨(recordBurnChecked_eq_some_iff _ _).mp hrecorded,
      (burnChecked_eq_some_iff _ _).mp hburned,
      (distributeChecked_eq_some_iff _ _ _).mp hdistributed⟩
  · intro hfits
    refine ⟨_, (recordBurnChecked_eq_some_iff _ _).mpr hfits.total, _,
      (burnChecked_eq_some_iff _ _).mpr hfits.burned, _,
      (distributeChecked_eq_some_iff _ _ _).mpr hfits.rewards, ?_⟩
    rw [← hengine, ← hsupply, ← hpool, ← htotal]

end Oscillator

end Fluidic.Consensus
