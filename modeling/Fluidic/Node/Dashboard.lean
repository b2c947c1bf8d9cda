import Fluidic.Consensus.CommutativeSettlement
import Fluidic.Consensus.Replay
import Fluidic.Node.ChainView
import Fluidic.Node.KeyAuthenticity
import Fluidic.Node.SwapAtomicity

/-!
# The counters of the dashboard

A node adds what each synthesis applied to three counters, which are 64-bit numbers. On a new node
the counters are exact (`counters_exact`): no stateful shift and no transaction is counted twice or
missed, and a commutative shift that the node accepted is counted once or still pending.
-/

set_option autoImplicit false
set_option relaxedAutoImplicit false

namespace Fluidic.Node

open Library Crypto Consensus Operator Api Evm
open Std (ExtTreeMap)

variable {platform : Platform}

/-! ### A synthesis -/

/-- A synthesis reports how many stateful and commutative shifts it applied, and leaves the deltas
of the refused batches pending. Assumes: the synthesis returns. -/
theorem synthesize_counts {oscillator final : Oscillator platform} {keys : KeyRegistry}
    {order : SynthesisOrder} {timestampNs : ℕ} {result : SynthesisResult} {hashes : List TxHash}
    (hsynthesize : oscillator.synthesize keys order timestampNs = some (final, result, hashes)) :
    result.statefulApplied = hashes.length ∧
    result.commutativeApplied =
      (Oscillator.settledDeltas (oscillator.tickVerdicts order)).length ∧
    final.pendingCommutative = Oscillator.requeued (oscillator.tickVerdicts order) ∧
    final.domainRegistry = oscillator.domainRegistry := by
  obtain ⟨hpending, hsettled, -⟩ := oscillator.prepare_eq_verdicts keys order
  obtain ⟨_, _, _, _, _, -, hprepared⟩ := oscillator.prepared_eq keys order
  have hdomains : (oscillator.prepared keys order).domainRegistry = oscillator.domainRegistry := by
    rw [hprepared]
  rw [Oscillator.synthesize_eq, Option.bind_eq_some_iff] at hsynthesize
  obtain ⟨outcome, -, hrest⟩ := hsynthesize
  cases outcome with
  | error error =>
    obtain ⟨rfl, hresult⟩ := Prod.mk.inj (Option.some.inj hrest)
    obtain ⟨rfl, rfl⟩ := Prod.mk.inj hresult
    exact ⟨rfl, hsettled, hpending, hdomains⟩
  | ok placed =>
    simp only [Option.bind_eq_some_iff] at hrest
    obtain ⟨ledger, -, hfinish⟩ := hrest
    obtain ⟨_, _, evmHashes, _, _, -, rfl, -, -, hfinal⟩ := Oscillator.finish_cases hfinish
    have hreported := hfinish
    unfold Oscillator.finish at hreported
    simp only [bind, Option.bind_eq_some_iff, pure, Option.some.injEq, Prod.mk.injEq] at hreported
    obtain ⟨_, -, -, hresult, -⟩ := hreported
    rw [← hpending, ← hdomains, ← hsettled]
    refine ⟨by rw [← hresult], by rw [← hresult], ?_⟩
    rcases Oscillator.certify_cases _ keys oscillator.synthesisTick timestampNs result
      (oscillator.prepare keys order).2.2.1 ledger.hashes evmHashes with
      hnone | ⟨_, _, _, -, -, -, hsome⟩
    · rw [hfinal, hnone]
      exact ⟨rfl, rfl⟩
    · rw [hfinal, hsome]
      exact ⟨rfl, rfl⟩

/-- The batches of a tick hold the pending deltas: each is settled or pending again. Assumes: the
domains of the deltas take commutative shifts. -/
theorem deltas_of_tickVerdicts {oscillator : Oscillator platform}
    (hregistered : ∀ delta ∈ oscillator.pendingCommutative,
      oscillator.domainRegistry.isCommutative delta.1 = true) (order : SynthesisOrder) :
    oscillator.pendingCommutative.Perm (Oscillator.settledOf (oscillator.tickVerdicts order) ++
      Oscillator.requeued (oscillator.tickVerdicts order)) := by
  have hdecided := Oscillator.settledOf_requeued_perm (oscillator.tickVerdicts order)
  have hbatches := Oscillator.byDomain_perm hregistered order.domains
  unfold Oscillator.tickVerdicts at hdecided ⊢
  rw [Oscillator.verdicts_map_fst] at hdecided
  exact hbatches.symm.trans hdecided

/-- A shift is applied when its node has the flag. -/
theorem isApplied_iff (oscillator : Oscillator platform) (hash : TxHash) :
    isApplied oscillator hash = true ↔
      ∃ node : DagNode, oscillator.dag.nodes[hash]? = some node ∧ node.applied = true :=
  (Option.any_eq_true _ _).trans (by simp)

/-- The nodes with the applied flag after a synthesis: those that had it, and those of the hashes
that it applies. Assumes: the synthesis returns. -/
theorem applied_after_synthesize {oscillator final : Oscillator platform} {keys : KeyRegistry}
    {order : SynthesisOrder} {timestampNs : ℕ} {result : SynthesisResult} {hashes : List TxHash}
    (hsynthesize : oscillator.synthesize keys order timestampNs = some (final, result, hashes))
    (hash : TxHash) :
    (∃ node : DagNode, final.dag.nodes[hash]? = some node ∧ node.applied = true) ↔
      (∃ node : DagNode, oscillator.dag.nodes[hash]? = some node ∧ node.applied = true) ∨
        hash ∈ hashes := by
  rw [← isApplied_iff, ← isApplied_iff]
  exact isApplied_synthesize hsynthesize hash

/-! ### Exact counters -/

/-- Counters that are exact for a state of the oscillator. The deltas applied and those pending make
up a number of accepted ones, and every other synthesis can only add to them. -/
structure Counted (stats : SynthesisStats) (accepted : ℕ) (oscillator : Oscillator platform) :
    Prop where
  sound : oscillator.Sound
  registered : ∀ delta ∈ oscillator.pendingCommutative,
    oscillator.domainRegistry.isCommutative delta.1 = true
  shifts : ∃ hashes : List TxHash, hashes.Nodup ∧
    (∀ hash, hash ∈ hashes ↔ ∃ node : DagNode, oscillator.dag.nodes[hash]? = some node ∧
      node.applied = true) ∧ stats.statefulApplied = hashes.length % 2 ^ 64
  transactions : ∃ hashes : List H256,
    Consistent oscillator.evmPool.pending (⟨oscillator.evmPool, hashes⟩ : PoolRun platform.revm) ∧
      stats.evmApplied = hashes.length % 2 ^ 64
  deltas : (stats.commutativeApplied + oscillator.pendingCommutative.length) % 2 ^ 64 =
    accepted % 2 ^ 64

namespace Counted

variable {stats : SynthesisStats} {accepted : ℕ} {oscillator next : Oscillator platform}
  {signals : Set Signal}

/-- The counters of a new node are zero. -/
theorem create (nttSize : ℕ) (operatorKeypair : Option KeyPair) (stakeTable : StakeTable) :
    Counted ⟨0, 0, 0⟩ 0
      (Oscillator.create nttSize operatorKeypair stakeTable : Oscillator platform) where
  sound := Oscillator.sound_create nttSize operatorKeypair stakeTable
  registered delta hdelta := absurd hdelta List.not_mem_nil
  shifts := ⟨[], List.nodup_nil, fun hash ↦ by simp [Oscillator.create, VectorClockDag.new], rfl⟩
  transactions := ⟨[], consistent_start, rfl⟩
  deltas := rfl

/-- A plain operation keeps the counters exact. Assumes: the counters are exact, and the operation
brings no commutative shift. -/
theorem of_operate (hcounted : Counted stats accepted oscillator) {operation : Operation}
    {output : OperationOutput} (hplain : operation.IsPlain signals)
    (hnone : ∀ shift, .commutative shift ∉ signals)
    (hoperate : operate platform oscillator operation = some (next, output)) :
    Counted stats accepted next := by
  have hsound := hcounted.sound.operate hoperate
  rcases operate_cases hoperate with ⟨request, response, rfl, -, hstep⟩ | ⟨-, rewardPool, rfl⟩
  · have hframe := ShiftFrame.of_step hplain hstep
    have hkind : request.isSynthesis = false := by
      cases request with
      | synthesize keys order timestampNs => cases hplain
      | _ => rfl
    refine ⟨hsound, ?_, ?_, ?_, ?_⟩
    · rw [hframe.commutative hnone]
      exact fun delta hdelta ↦ hframe.domains _ (hcounted.registered delta hdelta)
    · rw [hframe.nodes]
      exact hcounted.shifts
    · obtain ⟨hashes, hconsistent, hcount⟩ := hcounted.transactions
      rcases Oscillator.evmPool_request hkind hstep with hpool | ⟨tx, nowNs, hpool⟩
      · rw [hpool]
        exact ⟨hashes, hconsistent, hcount⟩
      · rw [hpool]
        exact ⟨hashes, @Consistent.submit _ ⟨oscillator.evmPool, hashes⟩ hconsistent tx nowNs,
          hcount⟩
    · rw [hframe.commutative hnone]
      exact hcounted.deltas
  · exact ⟨hsound, hcounted.registered, hcounted.shifts, hcounted.transactions, hcounted.deltas⟩

/-- Plain operations keep the counters exact. Assumes: the counters are exact, and the operations
bring no commutative shift. -/
theorem of_performs (hcounted : Counted stats accepted oscillator)
    (hnone : ∀ shift, .commutative shift ∉ signals) (hperforms : Performs signals oscillator next) :
    Counted stats accepted next := by
  obtain ⟨history, hreaches⟩ := hperforms
  exact hreaches.invariant hcounted fun _ _ _ _ hplain hbefore hoperate ↦
    hbefore.of_operate hplain hnone hoperate

/-- A delivered certificate keeps the counters exact. Assumes: the counters are exact. -/
theorem of_ingestCertificate (hcounted : Counted stats accepted oscillator)
    (cert : SynthesisCertificate) (keys : KeyRegistry) :
    Counted stats accepted (oscillator.ingestCertificate cert keys).1 :=
  ⟨⟨hcounted.sound.dag, hcounted.sound.node_amount, hcounted.sound.pending_amount⟩,
    hcounted.registered, hcounted.shifts, hcounted.transactions, hcounted.deltas⟩

/-- A commutative shift is accepted and pending, or changes nothing. Assumes: the counters are
exact. -/
theorem of_ingestCommutative (hcounted : Counted stats accepted oscillator)
    (shift : CommutativeShift) :
    Counted stats (accepted + if oscillator.queuesCommutative shift then 1 else 0)
      (oscillator.ingestCommutative shift).1 := by
  rw [Oscillator.ingestCommutative_eq]
  by_cases hqueues : oscillator.queuesCommutative shift = true
  · simp only [if_pos hqueues]
    refine ⟨⟨hcounted.sound.dag, hcounted.sound.node_amount, hcounted.sound.pending_amount⟩, ?_,
      hcounted.shifts, hcounted.transactions, ?_⟩
    · intro delta hdelta
      rcases List.mem_append.mp hdelta with hold | hnew
      · exact hcounted.registered delta hold
      · obtain rfl := List.mem_singleton.mp hnew
        unfold Oscillator.queuesCommutative at hqueues
        exact (Bool.and_eq_true _ _ ▸ hqueues).1
    · rw [List.length_append, List.length_singleton, ← Nat.add_assoc, Nat.add_mod,
        hcounted.deltas, ← Nat.add_mod]
  · simp only [if_neg hqueues]
    exact ⟨⟨hcounted.sound.dag, hcounted.sound.node_amount, hcounted.sound.pending_amount⟩,
      hcounted.registered, hcounted.shifts, hcounted.transactions, hcounted.deltas⟩

/-- A synthesis keeps the counters exact. Assumes: the counters are exact, and the synthesis
returns. -/
theorem of_synthesize (hcounted : Counted stats accepted oscillator) {keys : KeyRegistry}
    {order : SynthesisOrder} {timestampNs : ℕ} {result : SynthesisResult} {hashes : List TxHash}
    (hsynthesize : oscillator.synthesize keys order timestampNs = some (next, result, hashes)) :
    Counted (stats.record result) accepted next := by
  obtain ⟨hstateful, hcommutative, hpending, hdomains⟩ := synthesize_counts hsynthesize
  have hstep : step platform oscillator (.synthesize keys order timestampNs) =
      some (next, .synthesis result hashes) := by
    show (oscillator.synthesize keys order timestampNs).map _ = _
    rw [hsynthesize]
    rfl
  have hdeltas := deltas_of_tickVerdicts hcounted.registered order
  refine ⟨hcounted.sound.step hstep, ?_, ?_, ?_, ?_⟩
  · rw [hpending, hdomains]
    exact fun delta hdelta ↦ hcounted.registered delta
      (hdeltas.mem_iff.mpr (List.mem_append_right _ hdelta))
  · obtain ⟨before, hdistinct, hbefore, hcount⟩ := hcounted.shifts
    refine ⟨before ++ hashes, ?_, fun hash ↦ ?_, ?_⟩
    · refine List.nodup_append.mpr ⟨hdistinct, hcounted.sound.nodup_hashes hsynthesize, ?_⟩
      rintro hash hold _ hmem rfl
      obtain ⟨node, hnode, hset⟩ := (hbefore hash).mp hold
      rw [Oscillator.not_applied_of_mem hsynthesize hmem hnode] at hset
      cases hset
    · rw [List.mem_append, hbefore, applied_after_synthesize hsynthesize]
    · show wrappingAdd 64 stats.statefulApplied result.statefulApplied = _
      rw [hstateful, List.length_append, hcount]
      exact Nat.mod_add_mod _ _ _
  · obtain ⟨before, hconsistent, hcount⟩ := hcounted.transactions
    rcases Oscillator.evmPool_synthesize hsynthesize with ⟨error, herror, -⟩ |
      ⟨_, _, applied, hevm, happlied⟩
    · obtain ⟨_, horder, -⟩ := (hcounted.sound.preparedDag_wellFormed keys
        order).topologicalOrder_eq_ok order.toDagOrder
      rw [horder] at herror
      cases herror
    · obtain ⟨hempty, -, -⟩ := hconsistent.toQueued.synthesize hevm
      refine ⟨before ++ applied, ?_, ?_⟩
      · rw [hempty]
        exact @Consistent.synthesize _ _ ⟨oscillator.evmPool, before⟩ _ _ _ _ _ _ hconsistent hevm
      · show wrappingAdd 64 stats.evmApplied result.evmApplied = _
        rw [happlied, List.length_append, hcount]
        exact Nat.mod_add_mod _ _ _
  · have hsplit := hdeltas.length_eq
    rw [List.length_append, ← @List.length_map _ _ (Oscillator.settledOf _) Prod.snd,
      Oscillator.settledOf_map_snd] at hsplit
    show (wrappingAdd 64 stats.commutativeApplied result.commutativeApplied + _) % 2 ^ 64 = _
    have hbefore := hcounted.deltas
    rw [hcommutative, hpending]
    rw [hsplit] at hbefore
    unfold wrappingAdd
    rw [Nat.mod_add_mod]
    omega

end Counted

/-! ### Runs -/

/-- The commutative shift that an event brings to a node, if it does. -/
def arriving (node : RunningNode platform) : NodeEvent → Option CommutativeShift
  | .gossip (.commutative shift) _ => some shift
  | .submitCommutative request => (parseCommutativeShift request).toOption
  | .generate => some node.generatedShift
  | _ => none

/-- The commutative shifts that a node accepts from an event. -/
def acceptedBy (entry : RunningNode platform × NodeEvent) : List CommutativeShift :=
  (arriving entry.1 entry.2).toList.filter entry.1.oscillator.queuesCommutative

/-- The commutative shifts that a node accepted in a run. -/
def acceptedShifts (history : List (RunningNode platform × NodeEvent)) : List CommutativeShift :=
  history.flatMap acceptedBy

/-- Only a synthesis changes the counters. Assumes: the event is not a synthesis, and is served. -/
theorem stats_serveNode {packages : RpcPackages platform} {node next : RunningNode platform}
    {event : NodeEvent} {output : NodeOutput × List Signal}
    (hother : ∀ order timestampNs, event ≠ .synthesize order timestampNs)
    (hserve : serveNode packages node event = some (next, output)) : next.stats = node.stats := by
  cases event with
  | synthesize order timestampNs => exact absurd rfl (hother order timestampNs)
  | submitCommutative request =>
    obtain ⟨rfl, -⟩ := Prod.mk.inj (Option.some.inj hserve)
    show (node.submitCommutative request).1.stats = node.stats
    unfold RunningNode.submitCommutative
    cases parseCommutativeShift request <;> rfl
  | submitOperatorStake amount timestampNs =>
    obtain ⟨rfl, -⟩ := Prod.mk.inj (Option.some.inj hserve)
    show (node.submitOperatorStake amount timestampNs).1.stats = node.stats
    unfold RunningNode.submitOperatorStake
    cases parseU128 amount with
    | error status => rfl
    | ok amount =>
      dsimp only
      cases node.operatorKeypair <;> rfl
  | evmFaucet address =>
    obtain ⟨rfl, -⟩ := Prod.mk.inj (Option.some.inj hserve)
    show (node.evmFaucet address).1.stats = node.stats
    unfold RunningNode.evmFaucet
    cases hexDecode (String.ofList (Persistence.trimHexMarks address.toList)) with
    | none => rfl
    | some bytes =>
      by_cases hlength : bytes.length ≠ 20
      · simp only [if_pos hlength]
      · simp only [if_neg hlength]
  | _ =>
    obtain ⟨rfl, -⟩ := Prod.mk.inj (Option.some.inj hserve)
    rfl

/-- What a node accepts from an event adds to its oscillator as an ingested commutative shift does,
or the event brings none. Assumes: the event is served. -/
theorem arriving_cases {packages : RpcPackages platform} {node next : RunningNode platform}
    {event : NodeEvent} {output : NodeOutput × List Signal}
    (hserve : serveNode packages node event = some (next, output)) :
    (∃ shift, arriving node event = some shift ∧
      next.oscillator = (node.oscillator.ingestCommutative shift).1) ∨
    arriving node event = none ∧
      (next.oscillator = node.oscillator ∨ ∀ shift, .commutative shift ∉ node.brings event) := by
  cases event with
  | gossip signal nowNs =>
    obtain ⟨rfl, -⟩ := Prod.mk.inj (Option.some.inj hserve)
    cases signal with
    | commutative shift => exact .inl ⟨shift, rfl, rfl⟩
    | _ => exact .inr ⟨rfl, .inr fun shift hmem ↦ by cases Set.mem_singleton_iff.mp hmem⟩
  | submitStateful request nowNs =>
    refine .inr ⟨rfl, .inr fun shift hmem ↦ ?_⟩
    obtain ⟨other, hother⟩ := hmem
    cases hother
  | submitCommutative request =>
    obtain ⟨rfl, -⟩ := Prod.mk.inj (Option.some.inj hserve)
    show (∃ shift, (parseCommutativeShift request).toOption = some shift ∧
      (node.submitCommutative request).1.oscillator = _) ∨
      (parseCommutativeShift request).toOption = none ∧
        ((node.submitCommutative request).1.oscillator = _ ∨ _)
    unfold RunningNode.submitCommutative
    cases parseCommutativeShift request with
    | error status => exact .inr ⟨rfl, .inl rfl⟩
    | ok shift => exact .inl ⟨shift, rfl, rfl⟩
  | submitOperatorStake amount timestampNs =>
    refine .inr ⟨rfl, .inr fun shift hmem ↦ ?_⟩
    unfold RunningNode.brings at hmem
    dsimp only at hmem
    split at hmem
    · cases Set.mem_singleton_iff.mp hmem
    · exact hmem.elim
  | generate =>
    obtain ⟨rfl, -⟩ := Prod.mk.inj (Option.some.inj hserve)
    exact .inl ⟨node.generatedShift, rfl, rfl⟩
  | _ => exact .inr ⟨rfl, .inr fun shift hmem ↦ hmem.elim⟩

/-- An event keeps the counters exact. Assumes: the counters are exact, and the event is served. -/
theorem counted_serveNode {packages : RpcPackages platform} {node next : RunningNode platform}
    {event : NodeEvent} {output : NodeOutput × List Signal} {accepted : ℕ}
    (hcounted : Counted node.stats accepted node.oscillator)
    (hserve : serveNode packages node event = some (next, output)) :
    Counted next.stats (accepted + (acceptedBy (node, event)).length) next.oscillator := by
  rcases serveNode_cases hserve with
    ⟨order, timestampNs, result, hashes, rfl, hsynthesize, hnext, -⟩ |
    ⟨cert, nowNs, rfl, hnext, -⟩ | ⟨hother, -, hperforms⟩
  · have hstats : next.stats = node.stats.record result := by rw [hnext]
    rw [hstats]
    exact hcounted.of_synthesize hsynthesize
  · rw [hnext]
    exact hcounted.of_ingestCertificate cert node.registry
  · rw [stats_serveNode hother hserve]
    unfold acceptedBy
    rcases arriving_cases hserve with ⟨shift, harrives, hnext⟩ | ⟨harrives, hsame | hnone⟩
    · have hlength : ((some shift).toList.filter node.oscillator.queuesCommutative).length =
          if node.oscillator.queuesCommutative shift then 1 else 0 := by
        rw [Option.toList_some, List.filter_singleton]
        cases node.oscillator.queuesCommutative shift <;> rfl
      dsimp only
      rw [harrives, hlength, hnext]
      exact hcounted.of_ingestCommutative shift
    · dsimp only
      rw [harrives, hsame]
      exact hcounted
    · dsimp only
      rw [harrives]
      exact hcounted.of_performs hnone hperforms

/-- The counters of a new node that has started are exact. -/
theorem counted_newNode (nttSize : ℕ) (localKeypair : KeyPair) (timestampNs : ℕ) :
    Counted (newNode platform nttSize localKeypair timestampNs).stats 0
      (newNode platform nttSize localKeypair timestampNs).oscillator := by
  have hcounted : Counted ⟨0, 0, 0⟩ 0 { (.newWithKeypair nttSize : Oscillator platform) with
      operatorKeypair := some localKeypair } := Counted.create nttSize (some localKeypair) _
  refine hcounted.of_performs (fun shift hmem ↦ ?_) (performs_boot _ localKeypair timestampNs)
  cases Set.mem_singleton_iff.mp hmem

/-- The counters of the dashboard are exact. After any run of a new node the stateful counter is the
number of shifts of the DAG that are applied, the EVM counter is the number of transactions that
succeeded, and the commutative counter and the pending deltas make up the number of commutative
shifts that the run accepted, all modulo 2 ^ 64. Assumes: the run starts at a new node and reaches
the state. -/
theorem counters_exact {packages : RpcPackages platform} {nttSize timestampNs : ℕ}
    {localKeypair : KeyPair} {history : List (RunningNode platform × NodeEvent)}
    {node : RunningNode platform} {allowed : RunningNode platform → NodeEvent → Prop}
    (hreaches : Reaches (serveNode packages) allowed
      (newNode platform nttSize localKeypair timestampNs) history node) :
    node.stats.statefulApplied =
      countBy DagNode.applied node.oscillator.dag.nodes % 2 ^ 64 ∧
    node.stats.evmApplied =
      countBy (fun status ↦ decide (status = .success)) node.oscillator.evmPool.statuses %
        2 ^ 64 ∧
    (node.stats.commutativeApplied + node.oscillator.pendingCommutative.length) % 2 ^ 64 =
      (acceptedShifts history).length % 2 ^ 64 := by
  have hcounted : Counted node.stats (acceptedShifts history).length node.oscillator := by
    induction hreaches with
    | start => exact counted_newNode nttSize localKeypair timestampNs
    | next _ _ hserve ih =>
      unfold acceptedShifts at ih ⊢
      rw [List.flatMap_append, List.length_append, List.flatMap_singleton]
      exact counted_serveNode ih hserve
  obtain ⟨hashes, hdistinct, happlied, hstateful⟩ := hcounted.shifts
  obtain ⟨succeeded, hconsistent, hevm⟩ := hcounted.transactions
  refine ⟨?_, ?_, hcounted.deltas⟩
  · rw [hstateful, length_eq_countBy hdistinct happlied]
  · rw [hevm, length_eq_countBy hconsistent.once fun hash ↦ ?_]
    refine (hconsistent.applied hash).trans ⟨fun hstatus ↦ ⟨_, hstatus, decide_eq_true rfl⟩, ?_⟩
    rintro ⟨status, hstatus, hsuccess⟩
    rw [hstatus, of_decide_eq_true hsuccess]

/-- A gossiped transfer, a generated shift and a raw transaction are synthesized, and another shift
is generated. -/
def busyTick : List NodeEvent :=
  [.gossip (.registration (registrationOf 1)) 0, .gossip (.stateful (transferSignedBy 1)) 0,
    .generate, .evmFaucet "0x0000000000000000000000000000000000000001", sendRaw "0x01020500",
    .synthesize .forward 0, .generate]

/-- Each counter of that run is one, and one of the two shifts accepted is pending. -/
theorem counters_exact_busyTick :
    ∃ (history : List (RunningNode walletPlatform × NodeEvent))
      (node : RunningNode walletPlatform),
      history.map Prod.snd = busyTick ∧
      Reaches (serveNode (.sample walletPlatform)) anyStep walletNode history node ∧
      node.stats = ⟨1, 1, 1⟩ ∧ node.oscillator.pendingCommutative.length = 1 ∧
      countBy DagNode.applied node.oscillator.dag.nodes % 2 ^ 64 = 1 ∧
      countBy (fun status ↦ decide (status = .success)) node.oscillator.evmPool.statuses %
        2 ^ 64 = 1 ∧
      (acceptedShifts history).length % 2 ^ 64 = 2 := by
  have hruns : (run (serveNode (.sample walletPlatform)) anyStep walletNode busyTick).map
      (fun node ↦ (node.stats, node.oscillator.pendingCommutative.length)) =
        some (⟨1, 1, 1⟩, 1) := by
    decide +kernel
  obtain ⟨node, hrun, hfacts⟩ := Option.map_eq_some_iff.mp hruns
  obtain ⟨hstats, hpending⟩ := Prod.mk.inj hfacts
  obtain ⟨history, hevents, hreaches⟩ := reaches_of_run hrun
  obtain ⟨hstateful, hevm, hcommutative⟩ := counters_exact hreaches
  rw [hstats] at hstateful hevm hcommutative
  rw [hpending] at hcommutative
  exact ⟨history, node, hevents, hreaches, hstats, hpending, hstateful.symm, hevm.symm,
    hcommutative.symm⟩

end Fluidic.Node
