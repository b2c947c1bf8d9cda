import Fluidic.Consensus.ActivityGrace
import Fluidic.Value.DecayCurve

/-!
# The first decay of a new account

A new account enters the wave-field with the decay clock at zero, whatever the tick. The first
synthesis after it decays the account for every tick since the start of the node
(`units_of_bystander`). The account keeps what one tick of decay would leave if and only if its
operator is staked, or the decay of all these ticks is mild (`keeps_one_tick_iff`); from the seventh
tick on it is not, beyond one sub-unit.
-/

set_option autoImplicit false
set_option relaxedAutoImplicit false

namespace Fluidic.Consensus.Oscillator

open Library Crypto Fluidic.Field Value Operator Evm
open Std (ExtTreeMap ExtTreeSet LawfulEqCmp)

variable {platform : Platform}

/-! ### The entry of a new account -/

/-- The entry that seeding makes for a new account. Assumes: the account is absent, the amount is at
most the whole supply, and the supply cap allows it. -/
theorem getElem?_seedAccount {oscillator : Oscillator platform} {account : AccountId} {amount : ℕ}
    (habsent : oscillator.waveField.accounts[account]? = none)
    (hsupply : amount ≤ totalWaveSupply)
    (hminted : (oscillator.supplyTracker.mint amount).2 = true) :
    (oscillator.seedAccount account amount).waveField.accounts[account]? =
      some ⟨amount, 0, true, 0⟩ := by
  have hfits : amount ≤ 2 ^ 128 - 1 := hsupply.trans (by decide)
  have hcredited : (oscillator.waveField.creditAccount account amount).accounts[account]? =
      some ⟨amount, 0, true, 0⟩ := by
    show ((oscillator.waveField.ensureAccount account).accounts.modify account
      fun balance ↦ balance.saturatingAdd amount)[account]? = _
    rw [WaveField.ensureAccount_modify, ExtTreeMap.getElem?_insert_self]
    unfold WaveField.accountBalance Balance.saturatingAdd
    rw [ExtTreeMap.getD_eq_getD_getElem?, habsent, Option.getD_none]
    show some (⟨saturatingAdd 128 0 amount, 0, true, 0⟩ : Balance) = _
    unfold saturatingAdd
    rw [Nat.zero_add, Nat.min_eq_left hfits]
  rw [seedAccount_eq, if_pos hminted]
  exact hcredited

/-- Seeding keeps the tick. -/
theorem synthesisTick_seedAccount (oscillator : Oscillator platform) (account : AccountId)
    (amount : ℕ) :
    (oscillator.seedAccount account amount).synthesisTick = oscillator.synthesisTick := by
  rw [seedAccount_eq]
  split_ifs <;> rfl

/-- The request is no synthesis and does not concern the account. -/
def Passes (account : AccountId) (_ : Oscillator platform) (request : Request) : Prop :=
  request.isSynthesis = false ∧ ¬request.Concerns account

/-- The requests that pass an account by keep the tick and its entry. Assumes: every request of the
run passes the account by. -/
theorem passes_clock {initial oscillator : Oscillator platform} {account : AccountId}
    {history : List (Oscillator platform × Request)}
    (hreaches : Reaches (step platform) (Passes account) initial history oscillator) :
    oscillator.synthesisTick = initial.synthesisTick ∧
      oscillator.waveField.accounts[account]? = initial.waveField.accounts[account]? := by
  induction hreaches with
  | start => exact ⟨rfl, rfl⟩
  | next _ hpasses hstep ih =>
    have hclock := step_clock hpasses.1 hstep
    exact ⟨hclock.tick.trans ih.1, (hclock.field.other account hpasses.2).trans ih.2⟩

/-- The tick is that of a 64-bit counter. Assumes: the run starts on a new node. -/
theorem synthesisTick_lt {nttSize : ℕ} {operatorKeypair : Option KeyPair} {stakeTable : StakeTable}
    {history : List (Oscillator platform × Request)} {oscillator : Oscillator platform}
    (hreaches : Reaches (step platform) anyStep (create nttSize operatorKeypair stakeTable) history
      oscillator) :
    oscillator.synthesisTick < 2 ^ 64 := by
  refine @Reaches.invariant _ _ _ _ _ _ (fun state ↦ state.synthesisTick < 2 ^ 64)
    (Nat.two_pow_pos 64) (fun state request state' response _ htick hstep ↦ ?_) _ _ hreaches
  cases hkind : request.isSynthesis with
  | true =>
    obtain ⟨keys, order, timestampNs, result, hashes, rfl, hsynthesize⟩ :=
      exists_synthesis hkind hstep
    rw [(synthesize_clock hsynthesize).1]
    exact Nat.mod_lt _ (Nat.two_pow_pos 64)
  | false =>
    rw [(step_clock hkind hstep).tick]
    exact htick

/-! ### An account that no shift moves -/

/-- The account is no party of the shifts of these hashes. -/
def Bystander (dag : VectorClockDag) (hashes : List TxHash) (account : AccountId) : Prop :=
  ∀ hash ∈ hashes, ∀ node : DagNode, dag.nodes[hash]? = some node →
    account ≠ node.shift.sender ∧ account ≠ node.shift.recipient

/-- A transfer leaves the other accounts. Assumes: the account is no party of the shift. -/
theorem getElem?_transferBalances {balances next : ExtTreeMap AccountId ℕ} {shift : StatefulShift}
    {net : ℕ} (htransfer : transferBalances balances shift net = some next) {account : AccountId}
    (hsender : account ≠ shift.sender) (hrecipient : account ≠ shift.recipient) :
    next[account]? = balances[account]? := by
  unfold transferBalances at htransfer
  simp only [bind, Option.bind_eq_some_iff, pure, Option.some.injEq] at htransfer
  obtain ⟨held, -, rfl⟩ := htransfer
  rw [getElem?_insert_of_ne _ hrecipient.symm, getElem?_insert_of_ne _ hsender.symm]

/-- The loop leaves the accounts that its shifts do not move. Assumes: the loop returns, and the
account is a party of none of the shifts that it applies. -/
theorem loop_bystander {oscillator : Oscillator platform} {keys : KeyRegistry}
    {order : SynthesisOrder} {placed : List TxHash} {initial ledger : Ledger} {account : AccountId}
    (hloop : placed.foldlM ((oscillator.prepared keys order).applyShift keys order) initial =
      some ledger)
    (hbystander : Bystander (oscillator.preparedDag keys order) ledger.hashes account) :
    ledger.balances[account]? = initial.balances[account]? := by
  induction placed generalizing initial with
  | nil =>
    rw [List.foldlM_nil] at hloop
    rw [← Option.some.inj hloop]
  | cons first placed ih =>
    rw [List.foldlM_cons, Option.bind_eq_bind, Option.bind_eq_some_iff] at hloop
    obtain ⟨next, hround, hrest⟩ := hloop
    obtain ⟨applied, hhashes, -⟩ := loop_hashes_sublist hrest
    obtain ⟨node, hnode, henter⟩ := applyShift_eq_some hround
    rw [ih hrest]
    rcases enter_hashes henter with ⟨shift, fee, net, houtcome, hnext, htransfer, -⟩ |
      ⟨-, -, hsame, -⟩
    · have hmem : first ∈ ledger.hashes := by
        rw [hhashes, hnext]
        simp
      obtain ⟨hsender, hrecipient⟩ := hbystander first hmem node hnode
      rw [← (attempt_transfer houtcome).1] at hsender hrecipient
      exact getElem?_transferBalances htransfer hsender hrecipient
    · rw [hsame]

/-- A synthesis leaves an account that nothing moves with its decayed balance. Assumes: the
synthesis returns, the account is a party of none of the shifts that it applies, and no pending EVM
transaction names the account. -/
theorem units_of_bystander {oscillator final : Oscillator platform} {keys : KeyRegistry}
    {order : SynthesisOrder} {timestampNs : ℕ} {result : SynthesisResult} {hashes : List TxHash}
    (hsynthesize : oscillator.synthesize keys order timestampNs = some (final, result, hashes))
    {account : AccountId} {balance : Balance}
    (hentry : oscillator.waveField.accounts[account]? = some balance)
    (hbystander : Bystander final.dag hashes account)
    (hevm : ∀ address ∈ EvmPool.parties oscillator.evmPool.pending,
      evmAddressToFluidic platform.primitives address ≠ account) :
    final.waveField.unitsAt account = some (oscillator.decayedAccount account balance).units := by
  obtain ⟨waveField, _, _, _, _, haccounts, hprepared⟩ := oscillator.prepared_eq keys order
  rcases synthesize_cases hsynthesize with ⟨error, -, rfl, rfl⟩ |
    ⟨placed, ledger, applied, root, decayed, rejected, -, hloop, hfinish⟩
  · rw [hprepared]
    show waveField.accounts[account]?.map Balance.units = _
    rw [haccounts, ExtTreeMap.getElem?_map, hentry]
    rfl
  · obtain ⟨⟨evmPool, evmHashes, hpool⟩, hhashes, -, hunits⟩ := finish_ledgers hfinish
    have hmoved : Bystander (oscillator.preparedDag keys order) ledger.hashes account := by
      intro hash hmem node hnode
      rw [← hhashes] at hmem
      refine hbystander hash hmem { node with applied := node.applied || decide (hash ∈ hashes) } ?_
      rw [(synthesize_effect hsynthesize).nodes, getElem?_markApplied, hnode]
      rfl
    have hopened : (oscillator.prepared keys order).openLedger.balances[account]? =
        some (oscillator.decayedAccount account balance).units := by
      show (oscillator.prepared keys order).dag.balances[account]? = _
      rw [prepared_dag, preparedDag_balances, getElem?_syncedDag_balances, hentry]
      rfl
    have hpending : (oscillator.prepared keys order).evmPool = oscillator.evmPool := by
      rw [hprepared]
    rw [hpending] at hpool
    rw [hunits, EvmPool.getElem?_synthesize_of_not_party hevm hpool, loop_bystander hloop hmoved,
      hopened]
    rfl

/-! ### The first decay -/

/-- The first decay of a new account is that of all the ticks since the start of the node, unless
its operator is staked. -/
theorem units_decayedAccount (oscillator : Oscillator platform) (account : AccountId)
    (amount : ℕ) :
    (oscillator.decayedAccount account ⟨amount, 0, true, 0⟩).units =
      if oscillator.immuneIn account then amount
      else decayedBalance amount (dexLambda oscillator.domainRegistry)
        oscillator.synthesisTick := by
  show (WaveField.decayAccount oscillator.immuneIn oscillator.synthesisTick
    (dexLambda oscillator.domainRegistry) account ⟨amount, 0, true, 0⟩).1.units = _
  unfold WaveField.decayAccount
  by_cases himmune : oscillator.immuneIn account = true
  · rw [if_pos himmune, if_pos himmune]
  · rw [if_neg himmune, if_neg himmune]
    unfold Balance.decayInPlace
    have hunmarked : ¬((0 : ℕ) ≠ 0 ∧
        oscillator.synthesisTick - 0 ≤ metabolicIdleGraceTicks) := fun hboth ↦ hboth.1 rfl
    dsimp only
    rw [if_neg (by decide), if_neg hunmarked, Nat.sub_zero]
    by_cases hidle : oscillator.synthesisTick = 0 ∨ amount = 0
    · rw [if_pos hidle]
      exact (if_pos hidle.symm).symm
    · rw [if_neg hidle]

/-- A new account keeps what one tick of decay would leave if and only if its operator is staked, or
the decay of all the ticks since the start of the node is mild. Assumes: the account is absent in a
state of a run from a new node, it is seeded with an amount of at most the supply that the cap
allows, no request concerns it until the next synthesis, which returns, and neither a shift that
this one applies nor a pending EVM transaction names it. -/
theorem keeps_one_tick_iff {nttSize : ℕ} {operatorKeypair : Option KeyPair}
    {stakeTable : StakeTable} {earlier later : List (Oscillator platform × Request)}
    {before oscillator final : Oscillator platform} {account : AccountId} {amount : ℕ}
    {keys : KeyRegistry} {order : SynthesisOrder} {timestampNs : ℕ} {result : SynthesisResult}
    {hashes : List TxHash}
    (hearlier : Reaches (step platform) anyStep (create nttSize operatorKeypair stakeTable) earlier
      before)
    (habsent : before.waveField.accounts[account]? = none)
    (hsupply : amount ≤ totalWaveSupply)
    (hminted : (before.supplyTracker.mint amount).2 = true)
    (hlater : Reaches (step platform) (Passes account) (before.seedAccount account amount) later
      oscillator)
    (hsynthesize : oscillator.synthesize keys order timestampNs = some (final, result, hashes))
    (hbystander : Bystander final.dag hashes account)
    (hevm : ∀ address ∈ EvmPool.parties oscillator.evmPool.pending,
      evmAddressToFluidic platform.primitives address ≠ account) :
    keptByOneTick amount (dexLambda oscillator.domainRegistry) ≤
        (final.waveField.accountBalance account).units ↔
      oscillator.immuneIn account = true ∨
        Mild amount (dexLambda oscillator.domainRegistry) oscillator.synthesisTick := by
  obtain ⟨htick, hkept⟩ := passes_clock hlater
  rw [getElem?_seedAccount habsent hsupply hminted] at hkept
  have hfits : oscillator.synthesisTick < 2 ^ 64 := by
    rw [htick, synthesisTick_seedAccount]
    exact synthesisTick_lt hearlier
  have hunits := units_of_bystander hsynthesize hkept hbystander hevm
  rw [units_decayedAccount] at hunits
  have hfinal : (final.waveField.accountBalance account).units =
      if oscillator.immuneIn account then amount
      else decayedBalance amount (dexLambda oscillator.domainRegistry)
        oscillator.synthesisTick := by
    obtain ⟨balance, hbalance, hsame⟩ := Option.map_eq_some_iff.mp hunits
    unfold WaveField.accountBalance
    rw [ExtTreeMap.getD_eq_getD_getElem?, hbalance, Option.getD_some, hsame]
  rw [hfinal]
  by_cases himmune : oscillator.immuneIn account = true
  · rw [if_pos himmune]
    exact iff_of_true (keptByOneTick_le _ _) (.inl himmune)
  · rw [if_neg himmune, keptByOneTick_le_decayedBalance_iff _ hsupply hfits]
    exact (or_iff_right himmune).symm

/-- Another account is seeded after an account. -/
def seededPair (before : Oscillator Platform.sample) : Oscillator Platform.sample :=
  (before.seedAccount (sampleAccount 1) 1000000).seedAccount (sampleAccount 2) 5

/-- Another account is seeded between the seeding of an account in tick two and its first decay. -/
theorem keeps_one_tick_iff_seededPair :
    ∃ (earlier later : List (Oscillator Platform.sample × Request))
      (before oscillator final : Oscillator Platform.sample) (result : SynthesisResult)
      (hashes : List TxHash),
      Reaches (step Platform.sample) anyStep (newWithKeypair 8) earlier before ∧
      Reaches (step Platform.sample) (Passes (sampleAccount 1))
        (before.seedAccount (sampleAccount 1) 1000000) later oscillator ∧
      later.length = 1 ∧
      oscillator.synthesize sampleKeys .forward 0 = some (final, result, hashes) ∧
      (keptByOneTick 1000000 (dexLambda oscillator.domainRegistry) ≤
          (final.waveField.accountBalance (sampleAccount 1)).units ↔
        oscillator.immuneIn (sampleAccount 1) = true ∨
          Mild 1000000 (dexLambda oscillator.domainRegistry) oscillator.synthesisTick) ∧
      ¬(oscillator.immuneIn (sampleAccount 1) = true ∨
        Mild 1000000 (dexLambda oscillator.domainRegistry) oscillator.synthesisTick) := by
  have hruns : ((run (step Platform.sample) anyStep (newWithKeypair 8) [.sample, .sample]).bind
      fun before ↦ ((seededPair before).synthesize sampleKeys .forward 0).map fun (_, _, hashes) ↦
        decide (before.waveField.accounts[sampleAccount 1]? = none ∧
          (before.supplyTracker.mint 1000000).2 = true ∧ hashes = [] ∧
          (seededPair before).evmPool.pending = [] ∧
          ¬((seededPair before).immuneIn (sampleAccount 1) = true ∨
            Mild 1000000 (dexLambda (seededPair before).domainRegistry)
              (seededPair before).synthesisTick))) = some true := by
    decide +kernel
  obtain ⟨before, hrun, hbefore⟩ := Option.bind_eq_some_iff.mp hruns
  obtain ⟨⟨final, result, hashes⟩, hsynthesize, hholds⟩ := Option.map_eq_some_iff.mp hbefore
  obtain ⟨habsent, hminted, rfl, hpending, hsevere⟩ := of_decide_eq_true hholds
  obtain ⟨earlier, -, hreaches⟩ := reaches_of_run hrun
  have hpasses : Passes (sampleAccount 1) (before.seedAccount (sampleAccount 1) 1000000)
      (.seedAccount (sampleAccount 2) 5) := by
    refine ⟨rfl, ?_⟩
    show ¬sampleAccount 2 = sampleAccount 1
    decide +kernel
  have hstep : step Platform.sample (before.seedAccount (sampleAccount 1) 1000000)
      (.seedAccount (sampleAccount 2) 5) = some (seededPair before, .done) := rfl
  have hlater := Reaches.start.next hpasses hstep
  have hevm : ∀ address ∈ EvmPool.parties (seededPair before).evmPool.pending,
      evmAddressToFluidic Platform.sample.primitives address ≠ sampleAccount 1 := by
    rw [hpending]
    exact fun address hmem ↦ (List.not_mem_nil hmem).elim
  have hsupply : 1000000 ≤ totalWaveSupply := by decide +kernel
  have hbystander : Bystander final.dag [] (sampleAccount 1) :=
    fun hash hmem ↦ (List.not_mem_nil hmem).elim
  have hiff := keeps_one_tick_iff hreaches habsent hsupply hminted hlater hsynthesize hbystander
    hevm
  exact ⟨earlier, _, before, seededPair before, final, result, [], hreaches, hlater, rfl,
    hsynthesize, hiff, hsevere⟩

/-- An account that is seeded in tick two keeps less than one tick of decay would leave. -/
theorem keeps_less_than_one_tick :
    ∃ (earlier : List (Oscillator Platform.sample × Request))
      (before final : Oscillator Platform.sample) (result : SynthesisResult)
      (hashes : List TxHash),
      Reaches (step Platform.sample) anyStep (newWithKeypair 8) earlier before ∧
      before.synthesisTick = 2 ∧
      before.waveField.accounts[sampleAccount 1]? = none ∧
      (before.supplyTracker.mint 1000000).2 = true ∧
      (before.seedAccount (sampleAccount 1) 1000000).synthesize sampleKeys .forward 0 =
        some (final, result, hashes) ∧
      hashes = [] ∧ before.evmPool.pending = [] ∧
      dexLambda before.domainRegistry = 20 ∧
      (final.waveField.accountBalance (sampleAccount 1)).units = 999960 ∧
      keptByOneTick 1000000 20 = 999980 := by
  have hruns : ((run (step Platform.sample) anyStep (newWithKeypair 8) [.sample, .sample]).bind
      fun before ↦ ((before.seedAccount (sampleAccount 1) 1000000).synthesize sampleKeys .forward
        0).map fun (final, _, hashes) ↦
          decide (before.synthesisTick = 2 ∧
            before.waveField.accounts[sampleAccount 1]? = none ∧
            (before.supplyTracker.mint 1000000).2 = true ∧ hashes = [] ∧
            before.evmPool.pending = [] ∧ dexLambda before.domainRegistry = 20 ∧
            (final.waveField.accountBalance (sampleAccount 1)).units = 999960)) = some true := by
    decide +kernel
  obtain ⟨before, hrun, hbefore⟩ := Option.bind_eq_some_iff.mp hruns
  obtain ⟨⟨final, result, hashes⟩, hsynthesize, hholds⟩ := Option.map_eq_some_iff.mp hbefore
  obtain ⟨htick, habsent, hminted, hnone, hpending, hlambda, hunits⟩ := of_decide_eq_true hholds
  obtain ⟨earlier, -, hreaches⟩ := reaches_of_run hrun
  exact ⟨earlier, before, final, result, hashes, hreaches, htick, habsent, hminted, hsynthesize,
    hnone, hpending, hlambda, hunits, by decide⟩

end Fluidic.Consensus.Oscillator
