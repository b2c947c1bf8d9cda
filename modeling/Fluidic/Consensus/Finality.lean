import Fluidic.Consensus.SpendBounds

/-!
# Finality and rejection over whole runs

The status of a node and its applied flag are written by different sections of a synthesis. The
double-spend check looks at neither: it counts shifts that were applied long ago against the balance
they already reduced, and overwrites whatever status a node has. So a later tick can reject a node
that was finalized or applied (`finalized_then_rejected`, `rejected_and_applied`), and this happens
only to nodes that the check finds overspent. It finds no node overspent whose sender keeps enough
for all that competes with it, which is known before the synthesis (`KeepsCovered`), and all others
as long as no sum of amounts leaves its 128 bits (`rejected_synthesize_iff`). Where the senders of
the finalized nodes keep enough, finality is irrevocable (`finalized_of_reaches`), and where those
of the applied ones do, rejected shifts have no effect (`not_applied_of_rejected`).
-/

set_option autoImplicit false
set_option relaxedAutoImplicit false

namespace Fluidic.Consensus.Oscillator

open Library Crypto Fluidic.Field Value Operator Evm
open Std (ExtTreeMap ExtTreeSet LawfulEqCmp)

variable {platform : Platform}

/-! ### Statuses over a synthesis -/

/-- Before a synthesis, the sender of each selected node of the DAG keeps enough for it. -/
def KeepsCovered (selected : DagNode → Bool) (oscillator : Oscillator platform) :
    Request → Prop
  | .synthesize keys _ _ => ∀ entry ∈ oscillator.dag.nodes.toList,
      selected entry.2 = true → oscillator.Covers keys (spendOf entry)
  | _ => True

instance (selected : DagNode → Bool) :
    DecidableRel (KeepsCovered selected : Oscillator platform → Request → Prop) :=
  fun oscillator request ↦ match request with
    | .synthesize keys _ _ => inferInstanceAs (Decidable (∀ entry ∈ oscillator.dag.nodes.toList,
        selected entry.2 = true → oscillator.Covers keys (spendOf entry)))
    | .seedAccount _ _ => isTrue trivial
    | .markNonDecaying _ => isTrue trivial
    | .registerDomain _ _ => isTrue trivial
    | .ingest _ _ => isTrue trivial
    | .applyStake _ => isTrue trivial
    | .stake _ _ => isTrue trivial
    | .applyRegistration _ => isTrue trivial
    | .ingestCertificate _ _ => isTrue trivial
    | .submitEvm _ _ => isTrue trivial

/-- The check does not find a selected node overspent. Assumes: the selected nodes are covered
before the synthesis, and this one is stored and selected. -/
theorem KeepsCovered.not_isOverspent {selected : DagNode → Bool} {oscillator : Oscillator platform}
    {keys : KeyRegistry} {order : SynthesisOrder} {timestampNs : ℕ}
    (hallowed : KeepsCovered selected oscillator (.synthesize keys order timestampNs))
    {hash : TxHash} {node checked : DagNode} (hnode : oscillator.dag.nodes[hash]? = some node)
    (hselected : selected node = true) (hcore : checked.core = node.core) :
    (oscillator.checkedDag keys).isOverspent (hash, checked) = false := by
  refine Oscillator.not_isOverspent keys ?_
  rw [show spendOf (hash, checked) = spendOf (hash, node) from
    (spendOf_core hash hcore).trans (spendOf_core hash rfl).symm]
  exact hallowed (hash, node) (ExtTreeMap.mem_toList_iff_getElem?_eq_some.mpr hnode) hselected

/-- A stored node that is not rejected is so after a synthesis exactly when its sender does not keep
enough for it. Assumes: the accounts are mirrored, the amounts fit together, the synthesis returns,
and the node is stored and not rejected. -/
theorem rejected_synthesize_iff {oscillator final : Oscillator platform} {keys : KeyRegistry}
    {order : SynthesisOrder} {timestampNs : ℕ} {result : SynthesisResult} {hashes : List TxHash}
    (hmirrored : Mirrored oscillator) (hfits : Spend.WithinRange (oscillator.visibleSpends keys))
    (hsynthesize : oscillator.synthesize keys order timestampNs = some (final, result, hashes))
    {hash : TxHash} {node : DagNode} (hnode : oscillator.dag.nodes[hash]? = some node)
    (hstatus : node.status.isRejected = false) :
    ∃ node', final.dag.nodes[hash]? = some node' ∧
      (node'.status.isRejected = true ↔ ¬ oscillator.Covers keys (spendOf (hash, node))) := by
  have heffect := synthesize_effect hsynthesize
  obtain ⟨checked, hchecked, hcore⟩ := checkedDag_of_mem keys hnode
  have hspend : spendOf (hash, checked) = spendOf (hash, node) :=
    (spendOf_core hash hcore).trans (spendOf_core hash rfl).symm
  have hsame : checked.status = node.status := by
    rw [← DagNode.core_status, hcore, DagNode.core_status]
  obtain ⟨node', hnode'⟩ := heffect.exists_node hchecked
  obtain ⟨checked', hchecked', -, -, hnodeStatus, -⟩ := heffect.node hnode'
  rw [hchecked, Option.some.injEq] at hchecked'
  subst hchecked'
  refine ⟨node', hnode', ?_⟩
  rw [hnodeStatus, ← hspend, ← isOverspent_iff hmirrored hfits hchecked]
  cases hover : (oscillator.checkedDag keys).isOverspent (hash, checked) with
  | true =>
    rw [prepareNode_status_of_overspent oscillator.synthesisTick hover]
    exact iff_of_true rfl rfl
  | false =>
    refine iff_of_false (Bool.eq_false_iff.mp ?_) Bool.false_ne_true
    rcases prepareNode_status_of_covered oscillator.synthesisTick hover with hkept |
      ⟨-, hpromoted⟩
    · rw [hkept, hsame, hstatus]
    · rw [hpromoted]
      rfl

/-- A node has the finalized status. -/
def isFinalized (node : DagNode) : Bool := decide (node.status = .finalized)

/-! ### Finality is irrevocable where what is finalized is covered -/

/-- A synthesis keeps a finalized node finalized exactly when its check does not find the node
overspent. Assumes: the synthesis returns, and the node that it checks is finalized. -/
theorem finalized_synthesize_iff {oscillator final : Oscillator platform} {keys : KeyRegistry}
    {order : SynthesisOrder} {timestampNs : ℕ} {result : SynthesisResult} {hashes : List TxHash}
    (hsynthesize : oscillator.synthesize keys order timestampNs = some (final, result, hashes))
    {hash : TxHash} {checked : DagNode}
    (hchecked : (oscillator.checkedDag keys).nodes[hash]? = some checked)
    (hstatus : checked.status = .finalized) :
    (∃ node, final.dag.nodes[hash]? = some node ∧ node.status = .finalized) ↔
      (oscillator.checkedDag keys).isOverspent (hash, checked) = false := by
  have heffect := synthesize_effect hsynthesize
  obtain ⟨node, hnode⟩ := heffect.exists_node hchecked
  obtain ⟨checked', hchecked', -, -, hnodeStatus, -⟩ := heffect.node hnode
  rw [hchecked, Option.some.injEq] at hchecked'
  subst hchecked'
  constructor
  · rintro ⟨node', hnode', hfinalized⟩
    rw [hnode, Option.some.injEq] at hnode'
    subst hnode'
    by_contra hoverspent
    rw [Bool.not_eq_false] at hoverspent
    rw [hnodeStatus, prepareNode_status_of_overspent oscillator.synthesisTick hoverspent]
      at hfinalized
    cases hfinalized
  · intro hcovered
    refine ⟨node, hnode, ?_⟩
    rcases prepareNode_status_of_covered oscillator.synthesisTick hcovered with hkept |
      ⟨haccepted, -⟩
    · rw [hnodeStatus, hkept, hstatus]
    · rw [hstatus] at haccepted
      cases haccepted

/-- One request keeps a finalized node finalized. Assumes: the finalized nodes are covered before
it. -/
theorem finalized_step {oscillator next : Oscillator platform} {request : Request}
    {response : Response} (hallowed : KeepsCovered isFinalized oscillator request)
    (hstep : step platform oscillator request = some (next, response)) {hash : TxHash}
    (hfinalized : ∃ node, oscillator.dag.nodes[hash]? = some node ∧ node.status = .finalized) :
    ∃ node, next.dag.nodes[hash]? = some node ∧ node.status = .finalized := by
  obtain ⟨node, hnode, hstatus⟩ := hfinalized
  rcases step_cases hstep with ⟨keys, order, timestampNs, result, hashes, rfl, hsynthesize⟩ |
    ⟨-, heffect⟩
  · obtain ⟨checked, hchecked, hcore⟩ := checkedDag_of_mem keys hnode
    have hcheckedStatus : checked.status = .finalized := by
      rw [← DagNode.core_status, hcore, DagNode.core_status, hstatus]
    exact (finalized_synthesize_iff hsynthesize hchecked hcheckedStatus).mpr
      (hallowed.not_isOverspent hnode (decide_eq_true hstatus) hcore)
  · exact ⟨node, by rw [heffect.nodes, hnode], hstatus⟩

/-- A finalized node stays finalized in every run whose syntheses find each finalized node covered.
Assumes: the syntheses of the run find each finalized node covered, and the node is finalized where
the run starts. -/
theorem finalized_of_reaches {start final : Oscillator platform}
    {history : List (Oscillator platform × Request)}
    (hreaches : Reaches (step platform) (KeepsCovered isFinalized) start history final)
    {hash : TxHash} {node : DagNode} (hnode : start.dag.nodes[hash]? = some node)
    (hstatus : node.status = .finalized) :
    ∃ node', final.dag.nodes[hash]? = some node' ∧ node'.status = .finalized :=
  hreaches.invariant ⟨node, hnode, hstatus⟩ fun _ _ _ _ hallowed hfinalized hstep ↦
    finalized_step hallowed hstep hfinalized

/-- Two concurrent shifts of one sender, both covered when they are applied and finalized. -/
def concurrentPair : List Request :=
  [.seedAccount (sampleAccount 1) 10000,
    .ingest (.stateful (StatefulShift.sample 1 400 [(1, 1)] [] 1 0)) 1,
    .ingest (.stateful (StatefulShift.sample 1 400 [(2, 1)] [] 2 0)) 1,
    .sample, .sample, .sample, .sample]

/-- The hash of the second shift of the pair. -/
def secondOfPair : TxHash := (StatefulShift.sample 1 400 [(2, 1)] [] 2 0).hash .sample

/-- A third shift of the sender, causally after the pair, that leaves less than the pair spent. -/
def laterSpend : List Request :=
  [.ingest (.stateful (StatefulShift.sample 1 9000 [(1, 1), (2, 1), (3, 1)] [] 3 0)) 1,
    .sample, .sample]

/-- A run in which a finalized node survives a further synthesis. -/
theorem finalized_of_reaches_concurrentPair :
    ∃ (start final : Oscillator Platform.sample)
      (history : List (Oscillator Platform.sample × Request)) (node : DagNode),
      Reaches (step Platform.sample) (KeepsCovered isFinalized) start history final ∧
      history.length = 1 ∧ start.dag.nodes[secondOfPair]? = some node ∧
      node.status = .finalized ∧
      ∃ node', final.dag.nodes[secondOfPair]? = some node' ∧ node'.status = .finalized := by
  have hruns : ((run (step Platform.sample) anyStep (newWithKeypair 8) concurrentPair).bind
      fun start ↦ (run (step Platform.sample) (KeepsCovered isFinalized) start [.sample]).map
        fun _ ↦ start.dag.nodes[secondOfPair]?.map DagNode.status) = some (some .finalized) := by
    decide +kernel
  obtain ⟨start, -, hrun⟩ := Option.bind_eq_some_iff.mp hruns
  obtain ⟨final, hfinal, hstart⟩ := Option.map_eq_some_iff.mp hrun
  obtain ⟨node, hnode, hstatus⟩ := Option.map_eq_some_iff.mp hstart
  obtain ⟨history, hinputs, hreaches⟩ := reaches_of_run hfinal
  refine ⟨start, final, history, node, hreaches, ?_, hnode, hstatus,
    finalized_of_reaches hreaches hnode hstatus⟩
  rw [← List.length_map, hinputs]
  rfl

/-- A finalized shift is rejected two ticks later, because the sender has meanwhile spent its
balance on a causally later shift. -/
theorem finalized_then_rejected :
    ∃ middle final : Oscillator Platform.sample,
      run (step Platform.sample) anyStep (newWithKeypair 8) concurrentPair = some middle ∧
      run (step Platform.sample) anyStep middle laterSpend = some final ∧
      middle.dag.shiftStatus secondOfPair = some .finalized ∧
      final.dag.shiftStatus secondOfPair = some (.rejected (.doubleSpend secondOfPair)) := by
  have hruns : ((run (step Platform.sample) anyStep (newWithKeypair 8) concurrentPair).bind
      fun middle ↦ (run (step Platform.sample) anyStep middle laterSpend).map
        fun final ↦ (middle.dag.shiftStatus secondOfPair, final.dag.shiftStatus secondOfPair)) =
      some (some .finalized, some (.rejected (.doubleSpend secondOfPair))) := by
    decide +kernel
  obtain ⟨middle, hmiddle, hrun⟩ := Option.bind_eq_some_iff.mp hruns
  obtain ⟨final, hfinal, hstatuses⟩ := Option.map_eq_some_iff.mp hrun
  obtain ⟨hbefore, hafter⟩ := Prod.mk.inj hstatuses
  exact ⟨middle, final, hmiddle, hfinal, hbefore, hafter⟩

/-! ### Rejected shifts have no effect where what is applied is covered -/

/-- No applied node is rejected. -/
def AppliedAccepted (oscillator : Oscillator platform) : Prop :=
  ∀ (hash : TxHash) (node : DagNode), oscillator.dag.nodes[hash]? = some node →
    node.applied = true → node.status.isRejected = false

/-- A shift that a synthesis applies is not rejected when the loop sees it. Assumes: the synthesis
applies the shift, and the loop sees the node. -/
theorem status_of_mem_applied {oscillator final : Oscillator platform} {keys : KeyRegistry}
    {order : SynthesisOrder} {timestampNs : ℕ} {result : SynthesisResult} {hashes : List TxHash}
    (hsynthesize : oscillator.synthesize keys order timestampNs = some (final, result, hashes))
    {hash : TxHash} (hmem : hash ∈ hashes) {node : DagNode}
    (hnode : (oscillator.preparedDag keys order).nodes[hash]? = some node) :
    node.status.isRejected = false := by
  obtain ⟨before, ledger, node', fee, net, hturn, houtcome⟩ :=
    (mem_applied_iff hsynthesize hash).mp hmem
  have hnode' := hturn.node_eq
  rw [hnode, Option.some.injEq] at hnode'
  subst hnode'
  exact (attempt_transfer houtcome).2.status

/-- One request keeps applied nodes accepted. Assumes: applied nodes are accepted and covered before
the request. -/
theorem AppliedAccepted.step {oscillator next : Oscillator platform} {request : Request}
    {response : Response} (haccepted : AppliedAccepted oscillator)
    (hallowed : KeepsCovered DagNode.applied oscillator request)
    (hstep : Consensus.step platform oscillator request = some (next, response)) :
    AppliedAccepted next := by
  intro hash node hnode happlied
  rcases step_cases hstep with ⟨keys, order, timestampNs, result, hashes, rfl, hsynthesize⟩ |
    ⟨-, heffect⟩
  · obtain ⟨checked, hchecked, hprepared, -, hstatus, hflag⟩ :=
      (synthesize_effect hsynthesize).node hnode
    rw [hstatus]
    rw [hflag, Bool.or_eq_true, decide_eq_true_eq] at happlied
    rcases happlied with hearlier | hmem
    · obtain ⟨old, hold, hcore, hflagged⟩ : ∃ old, oscillator.dag.nodes[hash]? = some old ∧
          checked.core = old.core ∧ old.applied = true := by
        rcases checkedDag_cases hchecked with ⟨old, hold, hcore⟩ | ⟨shift, -, depth, -, hcore⟩
        · rw [← DagNode.core_applied, hcore, DagNode.core_applied] at hearlier
          exact ⟨old, hold, hcore, hearlier⟩
        · rw [← DagNode.core_applied, hcore] at hearlier
          cases hearlier
      have hcovered := hallowed.not_isOverspent hold hflagged hcore
      have hchecked' : checked.status.isRejected = false := by
        rw [← DagNode.core_status, hcore, DagNode.core_status]
        exact haccepted hash old hold hflagged
      rcases prepareNode_status_of_covered oscillator.synthesisTick hcovered with hkept |
        ⟨-, hpromoted⟩
      · rw [hkept, hchecked']
      · rw [hpromoted]
        rfl
    · exact status_of_mem_applied hsynthesize hmem hprepared
  · rw [heffect.nodes] at hnode
    exact haccepted hash node hnode happlied

/-- No node is rejected and applied at once, in every run of a new node whose syntheses find each
applied node covered. Assumes: the syntheses of the run find each applied node covered, and the node
is in the DAG where the run ends. -/
theorem not_applied_of_rejected {nttSize : ℕ} {operatorKeypair : Option KeyPair}
    {stakeTable : StakeTable} {history : List (Oscillator platform × Request)}
    {oscillator : Oscillator platform}
    (hreaches : Reaches (Consensus.step platform) (KeepsCovered DagNode.applied)
      (create nttSize operatorKeypair stakeTable) history oscillator)
    {hash : TxHash} {node : DagNode} (hnode : oscillator.dag.nodes[hash]? = some node) :
    ¬ (node.status.isRejected = true ∧ node.applied = true) := by
  have hinitial : AppliedAccepted (create nttSize operatorKeypair stakeTable :
      Oscillator platform) := by
    intro hash node hnode
    simp [create, VectorClockDag.new] at hnode
  have haccepted : AppliedAccepted oscillator :=
    hreaches.invariant hinitial fun _ _ _ _ hallowed haccepted hstep ↦
      haccepted.step hallowed hstep
  rintro ⟨hrejected, happlied⟩
  rw [haccepted hash node hnode happlied] at hrejected
  cases hrejected

/-- A pair of concurrent shifts of one sender, both covered by its balance, and one synthesis. -/
def coveredPair (balance : ℕ) : List Request :=
  [.seedAccount (sampleAccount 1) balance,
    .ingest (.stateful (StatefulShift.sample 1 400 [(1, 1)] [] 1 0)) 1,
    .ingest (.stateful (StatefulShift.sample 1 400 [(2, 1)] [] 2 0)) 1,
    .sample, .sample]

/-- A run of two ticks in which a shift is applied and the check leaves it alone. -/
theorem not_applied_of_rejected_coveredPair :
    ∃ (oscillator : Oscillator Platform.sample)
      (history : List (Oscillator Platform.sample × Request)) (node : DagNode),
      Reaches (step Platform.sample) (KeepsCovered DagNode.applied) (newWithKeypair 8) history
        oscillator ∧
      history.length = 5 ∧ oscillator.dag.nodes[secondOfPair]? = some node ∧
      node.applied = true ∧ ¬ (node.status.isRejected = true ∧ node.applied = true) := by
  have hruns : ((run (step Platform.sample) (KeepsCovered DagNode.applied) (newWithKeypair 8)
      (coveredPair 10000)).bind fun oscillator ↦
        oscillator.dag.nodes[secondOfPair]?.map DagNode.applied) = some true := by
    decide +kernel
  obtain ⟨oscillator, hrun, happlied⟩ := Option.bind_eq_some_iff.mp hruns
  obtain ⟨node, hnode, happlied⟩ := Option.map_eq_some_iff.mp happlied
  obtain ⟨history, hinputs, hreaches⟩ := reaches_of_run hrun
  refine ⟨oscillator, history, node, hreaches, ?_, hnode, happlied,
    not_applied_of_rejected hreaches hnode⟩
  rw [← List.length_map, hinputs]
  rfl

/-- A shift that was applied in the first tick is rejected in the second one, because the balance
that it reduced no longer covers the pair it belongs to. -/
theorem rejected_and_applied :
    ∃ (oscillator : Oscillator Platform.sample) (node : DagNode),
      run (step Platform.sample) anyStep (newWithKeypair 8) (coveredPair 1000) =
        some oscillator ∧
      oscillator.dag.nodes[secondOfPair]? = some node ∧
      node.status = .rejected (.doubleSpend secondOfPair) ∧ node.applied = true := by
  have hruns : ((run (step Platform.sample) anyStep (newWithKeypair 8) (coveredPair 1000)).bind
      fun oscillator ↦ oscillator.dag.nodes[secondOfPair]?.map
        fun node : DagNode ↦ (node.status, node.applied)) =
      some (.rejected (.doubleSpend secondOfPair), true) := by
    decide +kernel
  obtain ⟨oscillator, hrun, hvalues⟩ := Option.bind_eq_some_iff.mp hruns
  obtain ⟨node, hnode, hpair⟩ := Option.map_eq_some_iff.mp hvalues
  obtain ⟨hstatus, happlied⟩ := Prod.mk.inj hpair
  exact ⟨oscillator, node, hrun, hnode, hstatus, happlied⟩

end Fluidic.Consensus.Oscillator
