import Fluidic.Consensus.PlainOperations
import Fluidic.Node.RunningNode

/-!
# A running node performs operations

Whatever a node serves, it changes its oscillator by operations only (`serveNode_cases`): a round of
the synthesis loop performs one synthesis under the registered keys, a gossiped certificate is
delivered, and every other event performs plain operations, one after the other.
`operations_of_reaches` says so for whole runs, with the syntheses in the order, in the states and
under the keys of the run.
-/

set_option autoImplicit false
set_option relaxedAutoImplicit false

namespace Fluidic.Node

open Library Crypto Consensus Api Evm
open Std (ExtTreeMap)

variable {platform : Platform}

/-! ### Plain operations -/

/-- The state, the keys, the order and the time of an entry that is a synthesis. -/
abbrev SynthesisEntry (platform : Platform) :=
  Oscillator platform × KeyRegistry × SynthesisOrder × ℕ

/-- The synthesis of an entry of a run of operations, when it is one. -/
def synthesisOfOperation : Oscillator platform × Operation → Option (SynthesisEntry platform)
  | (oscillator, .request (.synthesize keys order timestampNs)) =>
    some (oscillator, keys, order, timestampNs)
  | _ => none

/-- The second oscillator is reached from the first by plain operations. -/
def Performs (signals : Set Signal) (oscillator next : Oscillator platform) : Prop :=
  ∃ history, Reaches (operate platform) (Plain signals) oscillator history next

variable {signals : Set Signal}

/-- A run of plain operations has no syntheses. Assumes: every operation of the run is plain. -/
theorem syntheses_of_plain {oscillator next : Oscillator platform}
    {history : List (Oscillator platform × Operation)}
    (hreaches : Reaches (operate platform) (Plain signals) oscillator history next) :
    history.filterMap synthesisOfOperation = [] := by
  refine List.filterMap_eq_nil_iff.mpr fun ⟨state, operation⟩ hentry ↦ ?_
  have hplain := hreaches.allowed_of_mem hentry
  cases operation with
  | request request =>
    cases request with
    | synthesize keys order timestampNs => cases hplain
    | _ => rfl
  | _ => rfl

/-- Plain operations keep an oscillator sound. Assumes: the oscillator is sound, and performs the
operations. -/
theorem sound_performs {oscillator next : Oscillator platform} (hsound : oscillator.Sound)
    (hperforms : Performs signals oscillator next) : next.Sound := by
  obtain ⟨history, hreaches⟩ := hperforms
  exact hreaches.invariant hsound fun _ _ _ _ _ hbefore hoperate ↦ hbefore.operate hoperate

namespace Performs

theorem refl (oscillator : Oscillator platform) : Performs signals oscillator oscillator :=
  ⟨[], .start⟩

theorem trans {first second third : Oscillator platform} (hfirst : Performs signals first second)
    (hsecond : Performs signals second third) : Performs signals first third := by
  obtain ⟨earlier, hearlier⟩ := hfirst
  obtain ⟨later, hlater⟩ := hsecond
  exact ⟨earlier ++ later, hearlier.trans hlater⟩

/-- A plain request. Assumes: the request is plain and is served. -/
theorem of_request {oscillator next : Oscillator platform} (request : Request)
    {response : Response} (hplain : (Operation.request request).IsPlain signals)
    (hstep : step platform oscillator request = some (next, response)) :
    Performs signals oscillator next := by
  have hperform : operate platform oscillator (.request request) =
      some (next, .response response) := by
    show (step platform oscillator request).map _ = _
    rw [hstep]
    rfl
  exact ⟨[(oscillator, .request request)], .of_step hplain hperform⟩

/-- A withdrawal from the reward pool. -/
theorem of_claim (oscillator : Oscillator platform) (operator : AccountId) :
    Performs signals oscillator
      { oscillator with rewardPool := (oscillator.rewardPool.claim operator).1 } :=
  ⟨[(oscillator, .claim operator)], @Reaches.of_step _ _ _ _ (Plain signals) _ _ _ _ trivial rfl⟩

/-- A withdrawal of the reward of the liquidity providers. -/
theorem of_claimLp (oscillator : Oscillator platform) (pool : PoolId) :
    Performs signals oscillator
      { oscillator with rewardPool := (oscillator.rewardPool.claimLpReward pool).1 } :=
  ⟨[(oscillator, .claimLp pool)], @Reaches.of_step _ _ _ _ (Plain signals) _ _ _ _ trivial rfl⟩

theorem seedAccount (oscillator : Oscillator platform) (account : AccountId) (amount : ℕ) :
    Performs signals oscillator (oscillator.seedAccount account amount) :=
  of_request (.seedAccount account amount) trivial rfl

theorem markNonDecaying (oscillator : Oscillator platform) (account : AccountId) :
    Performs signals oscillator (oscillator.markNonDecaying account) :=
  of_request (.markNonDecaying account) trivial rfl

/-- A stake announcement. Assumes: the announcement is one of the signals. -/
theorem applyStake (oscillator : Oscillator platform) {stake : StakeShift}
    (hbrought : .stake stake ∈ signals) :
    Performs signals oscillator (oscillator.applyStake stake).1 :=
  of_request (.applyStake stake) hbrought rfl

/-- An ingested signal. Assumes: the signal is one of the signals. -/
theorem ingest (oscillator : Oscillator platform) (signal : Signal) (nowNs : ℕ)
    (hbrought : signal ∈ signals) :
    Performs signals oscillator (oscillator.ingest signal nowNs).1 :=
  of_request (.ingest signal nowNs) hbrought rfl

end Performs

/-! ### Routes and signals -/

/-- What the ingest loop does with a signal is a request. Assumes: the signal is no certificate. -/
theorem performs_handleSignal (state : ApiState platform) {signal : Signal} (nowNs : ℕ)
    (hother : ∀ cert, signal ≠ .certificate cert) :
    Performs {signal} state.oscillator (handleSignal state signal nowNs).oscillator := by
  cases signal with
  | registration reg =>
    unfold handleSignal
    dsimp only
    split_ifs
    · exact .of_request (.applyRegistration reg) trivial rfl
    · exact .refl _
  | stake stake =>
    unfold handleSignal
    dsimp only
    split_ifs
    · exact .applyStake _ rfl
    · exact .applyStake _ rfl
  | ping => exact .refl _
  | pong => exact .refl _
  | certificate cert => exact absurd rfl (hother cert)
  | auth => exact .refl _
  | commutative shift => exact .ingest _ (.commutative shift) nowNs rfl
  | stateful shift => exact .ingest _ (.stateful shift) nowNs rfl

theorem performs_registerAccount (state : ApiState platform) (publicKeyHex : String) :
    Performs signals state.oscillator (state.registerAccount publicKeyHex).1.oscillator := by
  unfold ApiState.registerAccount
  cases parseHash publicKeyHex with
  | error status => exact .refl _
  | ok key =>
    dsimp only
    split_ifs
    · exact .refl _
    · exact ((Performs.seedAccount _ _ _).trans (.seedAccount _ _ _)).trans (.markNonDecaying _ _)

/-- A submission ingests the payout and the shift, or stops before. -/
theorem performs_submitStateful (state : ApiState platform) (request : StatefulShiftRequest)
    (nowNs : ℕ) :
    Performs (Set.range Signal.stateful) state.oscillator
      (state.submitStateful request nowNs).1.oscillator := by
  have hingest (state : ApiState platform) (shift : StatefulShift) (context : String) :
      Performs (Set.range Signal.stateful) state.oscillator
        (state.ingestShift shift nowNs context).1.oscillator :=
    .ingest _ (.stateful shift) nowNs ⟨shift, rfl⟩
  unfold ApiState.submitStateful
  cases parseStatefulShift request with
  | error error => exact .refl _
  | ok shift =>
    dsimp only
    cases state.checkSubmitted shift with
    | error error => exact .refl _
    | ok _ =>
      dsimp only
      split_ifs
      · cases state.payoutFor shift with
        | error error => exact .refl _
        | ok payout =>
          dsimp only
          have hpayout := hingest state payout "payout ingest failed: "
          cases (state.ingestShift payout nowNs "payout ingest failed: ").2 with
          | error error => exact hpayout
          | ok _ => exact hpayout.trans (hingest _ shift "shift ingest failed: ")
      · exact hingest state shift "shift ingest failed: "

theorem performs_registerDomain (state : ApiState platform) (request : RegisterDomainRequest) :
    Performs signals state.oscillator (state.registerDomain request).1.oscillator := by
  unfold ApiState.registerDomain
  cases parseRegistration request with
  | error error => exact .refl _
  | ok parsed =>
    obtain ⟨policy, registrant, signature⟩ := parsed
    dsimp only
    cases state.checkRegistration policy registrant signature with
    | error error => exact .refl _
    | ok _ => exact .of_request (.registerDomain policy registrant) trivial rfl

/-- A claim withdraws the reward and mints it. -/
theorem performs_claimOperatorRewards (state : OperatorApiState platform) :
    Performs signals state.oscillator state.claimOperatorRewards.1.oscillator := by
  unfold OperatorApiState.claimOperatorRewards
  cases state.operatorKeypair with
  | none => exact .refl _
  | some keypair =>
    dsimp only
    split_ifs
    · exact (Performs.of_claim _ _).trans (.seedAccount _ _ _)
    · exact .of_claim _ _

theorem performs_claimLpRewards (state : OperatorApiState platform) (poolId : String) :
    Performs signals state.oscillator (state.claimLpRewards poolId).1.oscillator := by
  unfold OperatorApiState.claimLpRewards
  cases parseHash poolId with
  | error status => exact .refl _
  | ok pool =>
    dsimp only
    split_ifs
    · exact ((Performs.of_claimLp _ _).trans (.seedAccount _ _ _)).trans (.seedAccount _ _ _)
    · exact .of_claimLp _ _

/-- A request to the gateway submits a transaction or changes nothing. -/
theorem performs_dispatch (state : ApiState platform) (packages : RpcPackages platform)
    (order : IterationOrder (H256 × EvmReceipt)) (nowNs nowSecs : ℕ) (request : RpcRequest) :
    Performs signals state.oscillator
      (state.dispatch packages order nowNs nowSecs request).1.oscillator := by
  unfold ApiState.dispatch
  split_ifs
  · unfold ApiState.sendRawTransaction
    cases firstText request.params "missing raw transaction" with
    | error error => exact .refl _
    | ok rawHex =>
      dsimp only
      cases hexDecode (String.ofList (Persistence.trimHexMarks rawHex.toList)) with
      | none => exact .refl _
      | some raw =>
        dsimp only
        cases decodeRaw packages.ethers raw with
        | none => exact .refl _
        | some decoded =>
          cases decoded with
          | error text => exact .refl _
          | ok tx => exact .of_request (.submitEvm tx nowNs) trivial rfl
  · exact .refl _

namespace RunningNode

theorem performs_submitCommutative (node : RunningNode platform)
    (request : CommutativeShiftRequest) :
    Performs (Set.range Signal.commutative) node.oscillator
      (node.submitCommutative request).1.oscillator := by
  unfold submitCommutative
  cases parseCommutativeShift request with
  | error status => exact .refl _
  | ok shift => exact .ingest _ (.commutative shift) 0 ⟨shift, rfl⟩

/-- The signals that an event may bring to the oscillator. -/
def brings (node : RunningNode platform) : NodeEvent → Set Signal
  | .gossip signal _ => {signal}
  | .submitStateful _ _ => Set.range Signal.stateful
  | .submitCommutative _ => Set.range Signal.commutative
  | .submitOperatorStake amount timestampNs =>
    match parseU128 amount, node.operatorKeypair with
    | .ok amount, some keypair =>
      {.stake (.sign platform.primitives keypair amount 0 timestampNs)}
    | _, _ => ∅
  | .generate => {.commutative node.generatedShift}
  | _ => ∅

theorem performs_submitOperatorStake (node : RunningNode platform) (amount : String)
    (timestampNs : ℕ) :
    Performs (node.brings (.submitOperatorStake amount timestampNs)) node.oscillator
      (node.submitOperatorStake amount timestampNs).1.oscillator := by
  unfold submitOperatorStake
  cases hamount : parseU128 amount with
  | error status => exact .refl _
  | ok amount =>
    dsimp only
    cases hkeypair : node.operatorKeypair with
    | none => exact .refl _
    | some keypair =>
      refine .applyStake _ ?_
      simp only [brings, hamount, hkeypair, Set.mem_singleton_iff]

theorem performs_evmFaucet (node : RunningNode platform) (address : String) :
    Performs signals node.oscillator (node.evmFaucet address).1.oscillator := by
  unfold evmFaucet
  cases hexDecode (String.ofList (Persistence.trimHexMarks address.toList)) with
  | none => exact .refl _
  | some bytes =>
    dsimp only
    split_ifs
    · exact .refl _
    · dsimp only
      exact .seedAccount _ _ _

end RunningNode

/-! ### The start -/

/-- A node that starts performs plain operations on the state that it loaded, with its own keypair;
then it announces its stake, and performs others. -/
theorem exists_performs_boot (loaded : Oscillator platform) (localKeypair : KeyPair)
    (timestampNs : ℕ) :
    ∃ seeded, Performs signals { loaded with operatorKeypair := some localKeypair } seeded ∧
      Performs signals (seeded.applyStake (StakeShift.sign platform.primitives localKeypair
        genesisBalance 0 timestampNs)).1
        (RunningNode.boot loaded localKeypair timestampNs).oscillator := by
  unfold RunningNode.boot start ApiState.new
  dsimp only
  have hpools (oscillator : Oscillator platform) (wave usdc : AccountId) :
      Performs signals oscillator (((oscillator.seedAccount wave poolSeed).seedAccount usdc
        poolSeed).markNonDecaying usdc) :=
    ((Performs.seedAccount _ _ _).trans (.seedAccount _ _ _)).trans (.markNonDecaying _ _)
  split_ifs
  · exact ⟨_, .seedAccount _ _ _, hpools _ _ _⟩
  · exact ⟨_, .refl _, hpools _ _ _⟩

/-- A node that starts performs plain operations on the state that it loaded, with its own keypair,
and announces its stake. -/
theorem performs_boot (loaded : Oscillator platform) (localKeypair : KeyPair) (timestampNs : ℕ) :
    Performs {.stake (.sign platform.primitives localKeypair genesisBalance 0 timestampNs)}
      { loaded with operatorKeypair := some localKeypair }
      (RunningNode.boot loaded localKeypair timestampNs).oscillator := by
  obtain ⟨seeded, hbefore, hafter⟩ := exists_performs_boot loaded localKeypair timestampNs
  exact (hbefore.trans (.applyStake _ (Set.mem_singleton _))).trans hafter

/-- A node that starts is sound. Assumes: the state that it loads is sound. -/
theorem sound_boot {loaded : Oscillator platform} (hsound : loaded.Sound)
    (localKeypair : KeyPair) (timestampNs : ℕ) :
    (RunningNode.boot loaded localKeypair timestampNs).oscillator.Sound := by
  have hkeyed : ({ loaded with operatorKeypair := some localKeypair } :
      Oscillator platform).Sound :=
    ⟨hsound.dag, hsound.node_amount, hsound.pending_amount⟩
  exact sound_performs hkeyed (performs_boot loaded localKeypair timestampNs)

/-! ### Events -/

/-- An event is a round of the synthesis loop, which synthesizes under the registered keys, or a
gossiped certificate, which is delivered, or performs plain operations. Assumes: the event is
served. -/
theorem serveNode_cases {packages : RpcPackages platform} {node next : RunningNode platform}
    {event : NodeEvent} {output : NodeOutput × List Signal}
    (hserve : serveNode packages node event = some (next, output)) :
    (∃ order timestampNs result hashes, event = .synthesize order timestampNs ∧
      node.oscillator.synthesize node.registry order timestampNs =
        some (next.oscillator, result, hashes) ∧
      next = { node with
        oscillator := next.oscillator, stats := node.stats.record result } ∧
      output = (.synthesized result hashes,
        next.latestCertificate.toList.map Signal.certificate)) ∨
    (∃ cert nowNs, event = .gossip (.certificate cert) nowNs ∧
      next = { node with
        oscillator := (node.oscillator.ingestCertificate cert node.registry).1 } ∧
      output = (.done, [])) ∨
    (∀ order timestampNs, event ≠ .synthesize order timestampNs) ∧
      (∀ cert, .certificate cert ∉ output.2) ∧
      Performs (node.brings event) node.oscillator next.oscillator := by
  have hnone : ∀ cert, Signal.certificate cert ∉ ([] : List Signal) := fun _ ↦ List.not_mem_nil
  cases event with
  | synthesize order timestampNs =>
    obtain ⟨⟨node', result, hashes⟩, hsynthesize, hresult⟩ := Option.map_eq_some_iff.mp hserve
    obtain ⟨rfl, rfl⟩ := Prod.mk.inj hresult
    obtain ⟨⟨oscillator, result', hashes'⟩, hreturns, hnode⟩ :=
      Option.map_eq_some_iff.mp hsynthesize
    obtain ⟨rfl, hrest⟩ := Prod.mk.inj hnode
    obtain ⟨rfl, rfl⟩ := Prod.mk.inj hrest
    exact .inl ⟨order, timestampNs, result', hashes', rfl, hreturns, rfl, rfl⟩
  | gossip signal nowNs =>
    obtain ⟨rfl, rfl⟩ := Prod.mk.inj (Option.some.inj hserve)
    by_cases hcertificate : ∃ cert, signal = .certificate cert
    · obtain ⟨cert, rfl⟩ := hcertificate
      exact .inr (.inl ⟨cert, nowNs, rfl, rfl, rfl⟩)
    · exact .inr (.inr ⟨fun _ _ ↦ NodeEvent.noConfusion, hnone,
        performs_handleSignal _ nowNs fun cert heq ↦ hcertificate ⟨cert, heq⟩⟩)
  | registerAccount publicKeyHex =>
    obtain ⟨rfl, rfl⟩ := Prod.mk.inj (Option.some.inj hserve)
    refine .inr (.inr ⟨fun _ _ ↦ NodeEvent.noConfusion, fun cert hmem ↦ ?_,
      performs_registerAccount _ publicKeyHex⟩)
    obtain ⟨reg, -, heq⟩ := List.mem_map.mp hmem
    cases heq
  | submitStateful request nowNs =>
    obtain ⟨rfl, rfl⟩ := Prod.mk.inj (Option.some.inj hserve)
    exact .inr (.inr ⟨fun _ _ ↦ NodeEvent.noConfusion, hnone,
      performs_submitStateful _ request nowNs⟩)
  | submitCommutative request =>
    obtain ⟨rfl, rfl⟩ := Prod.mk.inj (Option.some.inj hserve)
    exact .inr (.inr ⟨fun _ _ ↦ NodeEvent.noConfusion, hnone,
      node.performs_submitCommutative request⟩)
  | submitOperatorStake amount timestampNs =>
    obtain ⟨rfl, rfl⟩ := Prod.mk.inj (Option.some.inj hserve)
    refine .inr (.inr ⟨fun _ _ ↦ NodeEvent.noConfusion, fun cert hmem ↦ ?_,
      node.performs_submitOperatorStake amount timestampNs⟩)
    obtain ⟨stake, -, heq⟩ := List.mem_map.mp hmem
    cases heq
  | registerDomain request =>
    obtain ⟨rfl, rfl⟩ := Prod.mk.inj (Option.some.inj hserve)
    exact .inr (.inr ⟨fun _ _ ↦ NodeEvent.noConfusion, hnone, performs_registerDomain _ request⟩)
  | claimOperatorRewards =>
    obtain ⟨rfl, rfl⟩ := Prod.mk.inj (Option.some.inj hserve)
    exact .inr (.inr ⟨fun _ _ ↦ NodeEvent.noConfusion, hnone, performs_claimOperatorRewards _⟩)
  | claimLpRewards poolId =>
    obtain ⟨rfl, rfl⟩ := Prod.mk.inj (Option.some.inj hserve)
    exact .inr (.inr ⟨fun _ _ ↦ NodeEvent.noConfusion, hnone, performs_claimLpRewards _ poolId⟩)
  | evmFaucet address =>
    obtain ⟨rfl, rfl⟩ := Prod.mk.inj (Option.some.inj hserve)
    exact .inr (.inr ⟨fun _ _ ↦ NodeEvent.noConfusion, hnone, node.performs_evmFaucet address⟩)
  | rpc request order nowNs nowSecs =>
    obtain ⟨rfl, rfl⟩ := Prod.mk.inj (Option.some.inj hserve)
    exact .inr (.inr ⟨fun _ _ ↦ NodeEvent.noConfusion, hnone,
      performs_dispatch _ packages order nowNs nowSecs request⟩)
  | generate =>
    obtain ⟨rfl, rfl⟩ := Prod.mk.inj (Option.some.inj hserve)
    refine .inr (.inr ⟨fun _ _ ↦ NodeEvent.noConfusion, fun cert hmem ↦ ?_,
      .ingest _ (.commutative node.generatedShift) 0 rfl⟩)
    cases List.mem_singleton.mp hmem

/-- The tick counter of a running node is below its last value. -/
def NodeTickFits (node : RunningNode platform) (_ : NodeEvent) : Prop :=
  node.oscillator.synthesisTick + 1 < 2 ^ 64

instance : DecidableRel (NodeTickFits : RunningNode platform → NodeEvent → Prop) :=
  fun node _ ↦ inferInstanceAs (Decidable (node.oscillator.synthesisTick + 1 < 2 ^ 64))

/-- The synthesis of an entry of a run of a node, when it is one. -/
def synthesisOfEvent : RunningNode platform × NodeEvent → Option (SynthesisEntry platform)
  | (node, .synthesize order timestampNs) =>
    some (node.oscillator, node.registry, order, timestampNs)
  | _ => none

/-- One event is a run of operations with the synthesis of the event, if it is one. Assumes: the
event is served, and the tick counter is below its last value. -/
theorem operations_of_serveNode {packages : RpcPackages platform}
    {node next : RunningNode platform} {event : NodeEvent} {output : NodeOutput × List Signal}
    (hfits : NodeTickFits node event)
    (hserve : serveNode packages node event = some (next, output)) :
    ∃ history, Reaches (operate platform) TickFits node.oscillator history next.oscillator ∧
      history.filterMap synthesisOfOperation = [(node, event)].filterMap synthesisOfEvent := by
  rcases serveNode_cases hserve with
    ⟨order, timestampNs, result, hashes, rfl, hsynthesize, -, -⟩ |
    ⟨cert, nowNs, rfl, rfl, -⟩ | ⟨hother, -, hperforms⟩
  · have hperform : operate platform node.oscillator
        (.request (.synthesize node.registry order timestampNs)) =
          some (next.oscillator, .response (.synthesis result hashes)) := by
      show ((node.oscillator.synthesize node.registry order timestampNs).map _).map _ = _
      rw [hsynthesize]
      rfl
    exact ⟨[(node.oscillator, .request (.synthesize node.registry order timestampNs))],
      .of_step hfits hperform, rfl⟩
  · exact ⟨[(node.oscillator, .request (.ingestCertificate cert node.registry))],
      @Reaches.of_step _ _ _ _ TickFits _ _ _ _ hfits rfl, rfl⟩
  · obtain ⟨history, hreaches⟩ := hperforms
    refine ⟨history, tickFits_of_plain hreaches hfits, (syntheses_of_plain hreaches).trans ?_⟩
    cases event with
    | synthesize order timestampNs => exact absurd rfl (hother order timestampNs)
    | _ => rfl

/-! ### Runs -/

/-- On its oscillator a run of a node is a run of operations. Assumes: the tick counter does not
wrap in the run of the node. -/
theorem exists_operations {packages : RpcPackages platform} {first last : RunningNode platform}
    {history : List (RunningNode platform × NodeEvent)}
    (hreaches : Reaches (serveNode packages) NodeTickFits first history last) :
    ∃ operations, Reaches (operate platform) TickFits first.oscillator operations
      last.oscillator :=
  hreaches.refines fun _ _ _ _ hfits hserve ↦
    (operations_of_serveNode hfits hserve).imp fun _ hboth ↦ hboth.1

/-- Every run of a node keeps its oscillator sound. Assumes: the oscillator is sound where the run
starts, and the tick counter does not wrap in the run. -/
theorem sound_of_reaches {packages : RpcPackages platform} {first last : RunningNode platform}
    {history : List (RunningNode platform × NodeEvent)} (hsound : first.oscillator.Sound)
    (hreaches : Reaches (serveNode packages) NodeTickFits first history last) :
    last.oscillator.Sound := by
  obtain ⟨operations, hoperations⟩ := exists_operations hreaches
  exact hoperations.invariant hsound fun _ _ _ _ _ hbefore hoperate ↦ hbefore.operate hoperate

/-- On its oscillator a run of a node is a run of operations with the same syntheses: in the same
states, under the keys registered then, and in the same orders. Assumes: the tick counter does not
wrap in the run of the node. -/
theorem operations_of_reaches {packages : RpcPackages platform}
    {first last : RunningNode platform} {history : List (RunningNode platform × NodeEvent)}
    (hreaches : Reaches (serveNode packages) NodeTickFits first history last) :
    ∃ operations, Reaches (operate platform) TickFits first.oscillator operations last.oscillator ∧
      operations.filterMap synthesisOfOperation = history.filterMap synthesisOfEvent := by
  induction hreaches with
  | start => exact ⟨[], .start, rfl⟩
  | next _ hfits hserve ih =>
    obtain ⟨earlier, hearlier, hsame⟩ := ih
    obtain ⟨later, hlater, hsame'⟩ := operations_of_serveNode hfits hserve
    refine ⟨earlier ++ later, hearlier.trans hlater, ?_⟩
    rw [List.filterMap_append, List.filterMap_append, hsame, hsame']

/-- A shift of the generator is synthesized. -/
theorem operations_of_generator :
    ∃ (history : List (RunningNode Platform.sample × NodeEvent))
      (first last : RunningNode Platform.sample)
      (operations : List (Oscillator Platform.sample × Operation)),
      history.map Prod.snd = [.generate, .synthesize .forward 0] ∧
      Reaches (serveNode (.sample _)) NodeTickFits first history last ∧
      Reaches (operate Platform.sample) TickFits first.oscillator operations last.oscillator ∧
      operations.filterMap synthesisOfOperation = history.filterMap synthesisOfEvent ∧
      last.stats.commutativeApplied = 1 := by
  have hruns : (run (serveNode (.sample _)) NodeTickFits
      (.boot (.newWithKeypair 8) ⟨3⟩ 0 : RunningNode Platform.sample)
      [.generate, .synthesize .forward 0]).map (fun last ↦ last.stats.commutativeApplied) =
        some 1 := by
    decide +kernel
  obtain ⟨last, hrun, hcount⟩ := Option.map_eq_some_iff.mp hruns
  obtain ⟨history, hevents, hreaches⟩ := reaches_of_run hrun
  obtain ⟨operations, hoperations, hsame⟩ := operations_of_reaches hreaches
  exact ⟨history, _, last, operations, hevents, hreaches, hoperations, hsame, hcount⟩

end Fluidic.Node
