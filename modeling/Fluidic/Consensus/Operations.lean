import Fluidic.Consensus.AccountClock
import Fluidic.Evm.Blocks

/-!
# Operations on a node, and its EVM chain

What reaches the state of a node from outside: the requests of `step`, and the withdrawals from the
reward pool that the claim routes of `src/api/routes.rs` make. `Reaches (operate platform)` is the
relation of all runs of such operations; the events of a mesh node are sequences of them.

`EvmChange` says what an operation does to the EVM pool and to the tick counter. From it follows
that in every run in which the 64-bit counter does not wrap the receipts form the blocks below the
tick (`EvmSound`), and that these blocks are final (`Extends`).
-/

set_option autoImplicit false
set_option relaxedAutoImplicit false

namespace Fluidic.Consensus

open Library Crypto Operator Evm
open Std (ExtTreeMap)

variable {platform : Platform}

/-! ### Operations -/

/-- An operation on a node. -/
inductive Operation
  | request (request : Request)
  | claim (operator : AccountId)
  | claimLp (pool : PoolId)

/-- What an operation returns. -/
inductive OperationOutput
  | response (response : Response)
  | claimed (amount : ℕ)

/-- Perform an operation. -/
def operate (platform : Platform) (oscillator : Oscillator platform) :
    Operation → Option (Oscillator platform × OperationOutput)
  | .request request => (step platform oscillator request).map fun (oscillator, response) ↦
      (oscillator, .response response)
  | .claim operator =>
    let (rewardPool, claimed) := oscillator.rewardPool.claim operator
    some ({ oscillator with rewardPool }, .claimed claimed)
  | .claimLp pool =>
    let (rewardPool, claimed) := oscillator.rewardPool.claimLpReward pool
    some ({ oscillator with rewardPool }, .claimed claimed)

/-- An operation is a request, or replaces the reward pool. -/
theorem operate_cases {oscillator next : Oscillator platform} {operation : Operation}
    {output : OperationOutput} (hoperate : operate platform oscillator operation =
      some (next, output)) :
    (∃ request response, operation = .request request ∧ output = .response response ∧
      step platform oscillator request = some (next, response)) ∨
    (∀ request, operation ≠ .request request) ∧
      ∃ rewardPool, next = { oscillator with rewardPool } := by
  cases operation with
  | request request =>
    obtain ⟨⟨final, response⟩, hstep, hresult⟩ := Option.map_eq_some_iff.mp hoperate
    obtain ⟨rfl, rfl⟩ := Prod.mk.inj hresult
    exact .inl ⟨request, response, rfl, rfl, hstep⟩
  | claim operator =>
    obtain ⟨rfl, -⟩ := Prod.mk.inj (Option.some.inj hoperate)
    exact .inr ⟨fun _ ↦ Operation.noConfusion, _, rfl⟩
  | claimLp pool =>
    obtain ⟨rfl, -⟩ := Prod.mk.inj (Option.some.inj hoperate)
    exact .inr ⟨fun _ ↦ Operation.noConfusion, _, rfl⟩

/-- Every operation keeps the oscillator sound. Assumes: the oscillator is sound, and performs the
operation. -/
theorem Oscillator.Sound.operate {oscillator next : Oscillator platform} {operation : Operation}
    {output : OperationOutput} (hsound : oscillator.Sound)
    (hoperate : Consensus.operate platform oscillator operation = some (next, output)) :
    next.Sound := by
  rcases operate_cases hoperate with ⟨request, response, -, -, hstep⟩ | ⟨-, rewardPool, rfl⟩
  · exact hsound.step hstep
  · exact ⟨hsound.dag, hsound.node_amount, hsound.pending_amount⟩

/-- The tick counter of a node is below its last value. -/
def TickFits (oscillator : Oscillator platform) (_ : Operation) : Prop :=
  oscillator.synthesisTick + 1 < 2 ^ 64

instance : DecidableRel (TickFits : Oscillator platform → Operation → Prop) :=
  fun oscillator _ ↦ inferInstanceAs (Decidable (oscillator.synthesisTick + 1 < 2 ^ 64))

/-- An operation that neither synthesizes nor delivers a certificate, and that brings no signal but
one of some signals. -/
def Operation.IsPlain (signals : Set Signal) : Operation → Prop
  | .request (.synthesize _ _ _) => False
  | .request (.ingestCertificate _ _) => False
  | .request (.stake _ _) => False
  | .request (.applyStake stake) => .stake stake ∈ signals
  | .request (.ingest signal _) => signal ∈ signals
  | _ => True

/-- The operation is plain. -/
def Plain (signals : Set Signal) (_ : Oscillator platform) (operation : Operation) : Prop :=
  operation.IsPlain signals

/-! ### The EVM pool under an operation -/

/-- What an operation does to the EVM pool and to the tick. -/
inductive EvmChange (oscillator next : Oscillator platform) : Prop
  | idle (hpool : next.evmPool = oscillator.evmPool)
      (htick : next.synthesisTick = oscillator.synthesisTick)
  | submitted (tx : EvmTransaction) (nowNs : ℕ)
      (hpool : next.evmPool = oscillator.evmPool.submit tx nowNs)
      (htick : next.synthesisTick = oscillator.synthesisTick)
  | stopped (hpool : next.evmPool = oscillator.evmPool)
      (htick : next.synthesisTick = wrappingAdd 64 oscillator.synthesisTick 1)
  | synthesized (order : IterationOrder EvmAddress) (balances written : ExtTreeMap AccountId ℕ)
      (applied : List H256)
      (hsynthesize : oscillator.evmPool.synthesize platform.primitives order balances
        oscillator.synthesisTick = some (next.evmPool, written, applied))
      (htick : next.synthesisTick = wrappingAdd 64 oscillator.synthesisTick 1)

namespace Oscillator

/-- The EVM pool after a synthesis. Either the topological order failed, and the pool is as it was,
or the pool was synthesized into the tick; the result counts the transactions applied. Assumes: the
synthesis returns. -/
theorem evmPool_synthesize {oscillator final : Oscillator platform} {keys : KeyRegistry}
    {order : SynthesisOrder} {timestampNs : ℕ} {result : SynthesisResult} {hashes : List TxHash}
    (hsynthesize : oscillator.synthesize keys order timestampNs = some (final, result, hashes)) :
    (∃ error, (oscillator.preparedDag keys order).topologicalOrder order.toDagOrder =
        some (.error error) ∧ final.evmPool = oscillator.evmPool) ∨
    ∃ balances written applied,
      oscillator.evmPool.synthesize platform.primitives order.addresses balances
        oscillator.synthesisTick = some (final.evmPool, written, applied) ∧
      result.evmApplied = applied.length := by
  obtain ⟨_, _, _, _, _, -, hprepared⟩ := oscillator.prepared_eq keys order
  rcases synthesize_cases hsynthesize with ⟨error, horder, rfl, -⟩ |
    ⟨placed, ledger, applied, root, decayed, rejected, -, -, hfinish⟩
  · exact .inl ⟨error, horder, by rw [hprepared]⟩
  · right
    have hresult := hfinish
    unfold finish at hresult
    simp only [bind, Option.bind_eq_some_iff, pure, Option.some.injEq, Prod.mk.injEq] at hresult
    obtain ⟨⟨evmPool', balances', evmHashes'⟩, hevm', -, rfl, -⟩ := hresult
    obtain ⟨evmPool, balances, evmHashes, waveField, rewardPool, hevm, -, -, -, hfinal⟩ :=
      finish_cases hfinish
    rw [hevm] at hevm'
    obtain ⟨rfl, rfl, rfl⟩ := Prod.mk.injEq .. ▸ Prod.mk.injEq .. ▸ Option.some.inj hevm'
    have hpool : final.evmPool = evmPool := by
      rw [hfinal]
      rcases certify_cases _ keys oscillator.synthesisTick timestampNs _ root hashes evmHashes with
        hnone | ⟨_, _, _, -, -, -, hsome⟩
      · rw [hnone]
      · rw [hsome]
        rfl
    rw [hprepared] at hevm
    exact ⟨ledger.balances, balances, evmHashes, hpool ▸ hevm, rfl⟩

/-- A request other than a synthesis leaves the EVM pool alone, or submits a transaction to it.
Assumes: the request is not a synthesis, and is served. -/
theorem evmPool_request {oscillator next : Oscillator platform} {request : Request}
    {response : Response} (hkind : request.isSynthesis = false)
    (hstep : step platform oscillator request = some (next, response)) :
    next.evmPool = oscillator.evmPool ∨
      ∃ tx nowNs, next.evmPool = oscillator.evmPool.submit tx nowNs := by
  by_cases hsubmits : ∃ tx nowNs, request = .submitEvm tx nowNs
  · obtain ⟨tx, nowNs, rfl⟩ := hsubmits
    obtain ⟨rfl, -⟩ := Prod.mk.inj (Option.some.inj hstep)
    exact .inr ⟨tx, nowNs, rfl⟩
  · exact .inl ((step_frame hkind hstep).evmPool fun tx nowNs heq ↦ hsubmits ⟨tx, nowNs, heq⟩)

/-- Every operation changes the EVM pool and the tick in one of these ways. Assumes: the oscillator
performs the operation. -/
theorem evmChange_of_operate {oscillator next : Oscillator platform} {operation : Operation}
    {output : OperationOutput} (hoperate : operate platform oscillator operation =
      some (next, output)) : EvmChange oscillator next := by
  rcases operate_cases hoperate with ⟨request, response, -, -, hstep⟩ | ⟨-, rewardPool, rfl⟩
  · cases hkind : request.isSynthesis with
    | true =>
      obtain ⟨keys, order, timestampNs, result, hashes, rfl, hsynthesize⟩ :=
        exists_synthesis hkind hstep
      have htick := (synthesize_clock hsynthesize).1
      rcases evmPool_synthesize hsynthesize with ⟨_, -, hpool⟩ |
        ⟨balances, written, applied, hevm, -⟩
      · exact .stopped hpool htick
      · exact .synthesized _ balances written applied hevm htick
    | false =>
      have htick := (step_clock hkind hstep).tick
      rcases evmPool_request hkind hstep with hpool | ⟨tx, nowNs, hpool⟩
      · exact .idle hpool htick
      · exact .submitted tx nowNs hpool htick
  · exact .idle rfl rfl

/-! ### The chain -/

/-- The EVM pool of a node is a chain: the receipts form the blocks below the tick, which is a
64-bit number, the queue, the statuses and the receipts belong together, and every transaction has a
status. -/
structure EvmSound (oscillator : Oscillator platform) : Prop where
  fits : oscillator.synthesisTick < 2 ^ 64
  blocks : Blocks platform.primitives oscillator.synthesisTick oscillator.evmPool
  booked : ∃ appliedHashes, Consistent oscillator.evmPool.pending
    (⟨oscillator.evmPool, appliedHashes⟩ : PoolRun platform.revm)
  known : ∀ hash ∈ oscillator.evmPool.transactions, hash ∈ oscillator.evmPool.statuses

/-- What later states keep of the chain of an earlier one: the tick does not fall, and the blocks
below it and the transactions that are resolved are final. -/
structure Extends (earlier later : Oscillator platform) : Prop where
  tick : earlier.synthesisTick ≤ later.synthesisTick
  grows : Grows earlier.synthesisTick earlier.evmPool later.evmPool

/-- A chain extends itself as far as the pool is the same. Assumes: the pool is the same, and the
tick does not fall. -/
theorem Extends.of_eq {earlier later : Oscillator platform}
    (htick : earlier.synthesisTick ≤ later.synthesisTick)
    (hpool : later.evmPool = earlier.evmPool) : Extends earlier later where
  tick := htick
  grows := by
    rw [hpool]
    exact .of_receipts_eq (.refl _) rfl

theorem Extends.trans {first second third : Oscillator platform} (hfirst : Extends first second)
    (hsecond : Extends second third) : Extends first third where
  tick := hfirst.tick.trans hsecond.tick
  grows := hfirst.grows.trans hsecond.grows hfirst.tick

/-- A new node has an empty chain. -/
theorem evmSound_create (nttSize : ℕ) (operatorKeypair : Option KeyPair)
    (stakeTable : StakeTable) :
    EvmSound (create nttSize operatorKeypair stakeTable : Oscillator platform) :=
  ⟨Nat.two_pow_pos 64, Blocks.new _ _, ⟨[], consistent_start⟩,
    fun _ hknown ↦ absurd hknown ExtTreeMap.not_mem_empty⟩

/-- A submission gives its transaction a status. Assumes: the transactions before it have one. -/
theorem known_submit {pool : EvmPool platform.revm}
    (hknown : ∀ hash ∈ pool.transactions, hash ∈ pool.statuses) (tx : EvmTransaction) (nowNs : ℕ) :
    ∀ hash ∈ (pool.submit tx nowNs).transactions, hash ∈ (pool.submit tx nowNs).statuses := by
  rcases submit_cases pool tx nowNs with ⟨_, heq⟩ | ⟨_, stamped, _, heq⟩
  · rwa [heq]
  · rw [heq]
    intro hash hmem
    rw [ExtTreeMap.mem_insert] at hmem ⊢
    exact hmem.imp_right (hknown hash)

/-- A synthesis keeps the statuses of the transactions. Assumes: the transactions have statuses, and
the synthesis returns. -/
theorem known_synthesize {pool pool' : EvmPool platform.revm} {order : IterationOrder EvmAddress}
    {balances written : ExtTreeMap AccountId ℕ} {applied : List H256} {tick : ℕ}
    (hknown : ∀ hash ∈ pool.transactions, hash ∈ pool.statuses)
    (hsynthesize : pool.synthesize platform.primitives order balances tick =
      some (pool', written, applied)) :
    ∀ hash ∈ pool'.transactions, hash ∈ pool'.statuses := by
  obtain ⟨final, db, hfinal, rfl⟩ := @synthesize_invariant _ _ _ _
    (fun _ state ↦ ∀ hash ∈ state.pool.transactions, hash ∈ state.pool.statuses) [] _ _ _ _ _
    (fun _ _ ↦ hknown) (fun _ _ _ _ hbefore houtcome hash hmem ↦ by
      obtain ⟨_, _, hstatuses, htransactions, _⟩ := houtcome.resolves
      rw [htransactions] at hmem
      rw [hstatuses, ExtTreeMap.mem_insert]
      exact .inr (hbefore hash hmem)) hsynthesize
  exact hfinal

/-- An operation keeps the chain and extends it. Assumes: the oscillator has a chain, the tick does
not wrap, and the operation changes the pool in one of the ways. -/
theorem EvmSound.change {oscillator next : Oscillator platform} (hsound : EvmSound oscillator)
    (hfits : oscillator.synthesisTick + 1 < 2 ^ 64) (hchange : EvmChange oscillator next) :
    EvmSound next ∧ Extends oscillator next := by
  obtain ⟨appliedHashes, hbooked⟩ := hsound.booked
  have hnext : wrappingAdd 64 oscillator.synthesisTick 1 = oscillator.synthesisTick + 1 :=
    wrappingAdd_of_lt hfits
  cases hchange with
  | idle hpool htick =>
    refine ⟨⟨?_, ?_, ?_, ?_⟩, .of_eq htick.ge hpool⟩
    · rw [htick]
      exact hsound.fits
    · rw [hpool, htick]
      exact hsound.blocks
    · rw [hpool]
      exact hsound.booked
    · rw [hpool]
      exact hsound.known
  | submitted tx nowNs hpool htick =>
    refine ⟨⟨?_, ?_, ?_, ?_⟩, htick.ge, ?_⟩
    · rw [htick]
      exact hsound.fits
    · rw [hpool, htick]
      exact hsound.blocks.submit tx nowNs
    · rw [hpool]
      exact ⟨appliedHashes, @Consistent.submit _ ⟨oscillator.evmPool, appliedHashes⟩ hbooked tx
        nowNs⟩
    · rw [hpool]
      exact known_submit hsound.known tx nowNs
    · rw [hpool]
      exact Grows.of_submit _ _ _ _
  | stopped hpool htick =>
    rw [hnext] at htick
    refine ⟨⟨by omega, ?_, ?_, ?_⟩, .of_eq (by omega) hpool⟩
    · rw [hpool, htick]
      exact hsound.blocks.mono (by omega)
    · rw [hpool]
      exact hsound.booked
    · rw [hpool]
      exact hsound.known
  | synthesized order balances written applied hsynthesize htick =>
    rw [hnext] at htick
    obtain ⟨hblocks, hgrows⟩ := hsound.blocks.synthesize hbooked.toQueued hsynthesize
    obtain ⟨hempty, -, -⟩ := hbooked.toQueued.synthesize hsynthesize
    refine ⟨⟨by omega, by rwa [htick], ⟨appliedHashes ++ applied, ?_⟩,
      known_synthesize hsound.known hsynthesize⟩, by omega, hgrows⟩
    rw [hempty]
    exact @Consistent.synthesize _ _ ⟨oscillator.evmPool, appliedHashes⟩ _ _ _ _ _ _ hbooked
      hsynthesize

/-- Every state of a run has a chain that extends the one at its start. Assumes: the run starts in a
state with a chain, and the tick does not wrap in it. -/
theorem EvmSound.of_reaches {first last : Oscillator platform}
    {history : List (Oscillator platform × Operation)} (hsound : EvmSound first)
    (hreaches : Reaches (operate platform) TickFits first history last) :
    EvmSound last ∧ Extends first last := by
  refine @Reaches.invariant _ _ _ _ _ _ (fun state : Oscillator platform ↦ EvmSound state ∧
    Extends first state) ⟨hsound, .of_eq le_rfl rfl⟩
    (fun state operation next output hfits hbefore hoperate ↦ ?_) _ _ hreaches
  obtain ⟨hafter, hextends⟩ := hbefore.1.change hfits (evmChange_of_operate hoperate)
  exact ⟨hafter, hbefore.2.trans hextends⟩

end Oscillator

end Fluidic.Consensus
