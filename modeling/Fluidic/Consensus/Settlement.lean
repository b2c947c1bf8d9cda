import Fluidic.Consensus.Finality

/-!
# Settlement and causal order over whole runs

The promotion looks at age and status only, and the loop orders attempts but does not let a failed
attempt block its successors. So a node can be finalized without ever having been applied
(`finalized_not_applied`), and a shift can be applied although its predecessor was not
(`applied_after_refused`). What holds is that every finalized node was settled by a transfer in some
tick or is refused in the latest one (`finalized_settled_or_refused`), and that the predecessors of
an applied shift had their turns before it (`predecessors_visited`).
-/

set_option autoImplicit false
set_option relaxedAutoImplicit false

namespace Fluidic.Consensus.Oscillator

open Library Crypto Fluidic.Field Value Operator Evm
open Std (ExtTreeMap ExtTreeSet LawfulEqCmp)

variable {platform : Platform}

/-! ### Transfers and refusals in a history -/

/-- The request is a synthesis in which a shift is transferred at its turn: the amount is debited
from the sender and what remains after the fee is credited to the recipient. -/
def Settles (oscillator : Oscillator platform) (request : Request) (hash : TxHash) : Prop :=
  ∃ keys order timestampNs before ledger node fee net balances,
    request = .synthesize keys order timestampNs ∧
    Turn oscillator keys order before hash ledger node ∧
    oscillator.outcomeAt keys order ledger node = .transfer node.shift fee net ∧
    transferBalances ledger.balances node.shift net = some balances

/-- The request is a synthesis in which a shift is refused at its turn. -/
def Refuses (oscillator : Oscillator platform) (request : Request) (hash : TxHash) : Prop :=
  ∃ keys order timestampNs before ledger node,
    request = .synthesize keys order timestampNs ∧
    Turn oscillator keys order before hash ledger node ∧
    (oscillator.outcomeAt keys order ledger node).isRefusal = true

/-- The latest synthesis of a history refuses a shift. -/
def RefusedLast (history : List (Oscillator platform × Request)) (hash : TxHash) : Prop :=
  ∃ earlier oscillator request later, history = earlier ++ (oscillator, request) :: later ∧
    (∀ entry ∈ later, entry.2.isSynthesis = false) ∧ Refuses oscillator request hash

/-- A request that is not a synthesis leaves the latest refusal in place. Assumes: the shift was
last refused, and the request is not a synthesis. -/
theorem RefusedLast.concat {history : List (Oscillator platform × Request)} {hash : TxHash}
    (hrefused : RefusedLast history hash) (oscillator : Oscillator platform) {request : Request}
    (hother : request.isSynthesis = false) :
    RefusedLast (history ++ [(oscillator, request)]) hash := by
  obtain ⟨earlier, before, refusing, later, rfl, hlater, hrefuses⟩ := hrefused
  refine ⟨earlier, before, refusing, later ++ [(oscillator, request)], by simp, ?_, hrefuses⟩
  intro entry hentry
  rw [List.mem_append, List.mem_singleton] at hentry
  rcases hentry with hentry | rfl
  · exact hlater entry hentry
  · exact hother

/-- The outcomes that neither transfer nor find the shift settled are refusals. Assumes: the outcome
is not a transfer and not that of a settled shift. -/
theorem Attempt.isRefusal_of_ne {attempt : Attempt} (hsettled : attempt ≠ .settled)
    (htransfer : ∀ shift fee net, attempt ≠ .transfer shift fee net) :
    attempt.isRefusal = true := by
  cases attempt with
  | settled => exact absurd rfl hsettled
  | transfer shift fee net => exact absurd rfl (htransfer shift fee net)
  | invalidSignature => rfl
  | unknownDomain => rfl
  | awaitingQuorum => rfl
  | feeUncovered => rfl
  | insufficientBalance => rfl

/-- What a turn of a synthesis comes to: the shift is settled already, is transferred and listed as
applied, or is refused. Assumes: the synthesis returns. -/
theorem Turn.outcome_cases {oscillator final : Oscillator platform} {keys : KeyRegistry}
    {order : SynthesisOrder} {timestampNs : ℕ} {result : SynthesisResult} {hashes : List TxHash}
    (hsynthesize : oscillator.synthesize keys order timestampNs = some (final, result, hashes))
    {before : List TxHash} {hash : TxHash} {ledger : Ledger} {node : DagNode}
    (hturn : Turn oscillator keys order before hash ledger node) :
    (node.status.isRejected = true ∨ node.applied = true) ∨
    (hash ∈ hashes ∧ Settles oscillator (.synthesize keys order timestampNs) hash) ∨
    (oscillator.outcomeAt keys order ledger node).isRefusal = true := by
  by_cases hsettled : oscillator.outcomeAt keys order ledger node = .settled
  · exact .inl ((attempt_settled_iff _ keys order ledger.balances node).mp hsettled)
  by_cases htransfer : ∃ shift fee net,
      oscillator.outcomeAt keys order ledger node = .transfer shift fee net
  · obtain ⟨shift, fee, net, houtcome⟩ := htransfer
    obtain rfl := (attempt_transfer houtcome).1
    obtain ⟨next, hnext⟩ := hturn.exists_next hsynthesize
    refine .inr (.inl ⟨(mem_applied_iff hsynthesize hash).mpr
      ⟨before, ledger, node, fee, net, hturn, houtcome⟩, ?_⟩)
    rw [houtcome] at hnext
    rcases enter_hashes hnext with ⟨_, _, _, hsame, -, hbalances, -⟩ | ⟨hnot, -⟩
    · obtain ⟨rfl, rfl, rfl⟩ := Attempt.transfer.inj hsame
      exact ⟨keys, order, timestampNs, before, ledger, node, fee, net, next.balances, rfl, hturn,
        houtcome, hbalances⟩
    · exact absurd rfl (hnot _ _ _)
  · refine .inr (.inr (Attempt.isRefusal_of_ne hsettled fun shift fee net houtcome ↦ ?_))
    exact htransfer ⟨shift, fee, net, houtcome⟩

/-- A shift that a synthesis lists as applied is transferred at its turn. Assumes: the synthesis
lists it. -/
theorem settles_of_mem_applied {oscillator final : Oscillator platform} {keys : KeyRegistry}
    {order : SynthesisOrder} {timestampNs : ℕ} {result : SynthesisResult} {hashes : List TxHash}
    (hsynthesize : oscillator.synthesize keys order timestampNs = some (final, result, hashes))
    {hash : TxHash} (hmem : hash ∈ hashes) :
    Settles oscillator (.synthesize keys order timestampNs) hash := by
  obtain ⟨before, ledger, node, fee, net, hturn, houtcome⟩ :=
    (mem_applied_iff hsynthesize hash).mp hmem
  have htransfers := (attempt_transfer houtcome).2
  rcases hturn.outcome_cases hsynthesize with (hrejected | happlied) | ⟨-, hsettles⟩ | hrefusal
  · rw [htransfers.status] at hrejected
    cases hrejected
  · rw [htransfers.fresh] at happlied
    cases happlied
  · exact hsettles
  · rw [houtcome] at hrefusal
    cases hrefusal

/-! ### Finalized nodes -/

/-- Every applied node of a run of a new node was transferred in some synthesis of its history.
Assumes: the node is there where the run ends, and is applied. -/
theorem settled_of_applied {nttSize : ℕ} {operatorKeypair : Option KeyPair}
    {stakeTable : StakeTable} {allowed : Oscillator platform → Request → Prop}
    {history : List (Oscillator platform × Request)} {oscillator : Oscillator platform}
    (hreaches : Reaches (step platform) allowed (create nttSize operatorKeypair stakeTable)
      history oscillator)
    {hash : TxHash} {node : DagNode} (hnode : oscillator.dag.nodes[hash]? = some node)
    (happlied : node.applied = true) :
    ∃ entry ∈ history, Settles entry.1 entry.2 hash := by
  induction hreaches generalizing node with
  | start => simp [create, VectorClockDag.new] at hnode
  | @next history previous _ request _ hbefore hallowed hstep ih =>
    have hearlier : (∃ entry ∈ history, Settles entry.1 entry.2 hash) →
        ∃ entry ∈ history ++ [(previous, request)], Settles entry.1 entry.2 hash := by
      rintro ⟨entry, hentry, hsettles⟩
      exact ⟨entry, List.mem_append_left _ hentry, hsettles⟩
    rcases step_cases hstep with ⟨keys, order, timestampNs, result, hashes, rfl, hsynthesize⟩ |
      ⟨-, heffect⟩
    · obtain ⟨checked, hchecked, -, -, -, hflag⟩ := (synthesize_effect hsynthesize).node hnode
      rw [hflag, Bool.or_eq_true, decide_eq_true_eq] at happlied
      rcases happlied with hbefore | hmem
      · rcases checkedDag_cases hchecked with ⟨old, hold, hcore⟩ | ⟨shift, -, depth, -, hcore⟩
        · rw [← DagNode.core_applied, hcore] at hbefore
          exact hearlier (ih hold hbefore)
        · rw [← DagNode.core_applied, hcore] at hbefore
          cases hbefore
      · exact ⟨(previous, _), List.mem_append_right _ (List.mem_singleton.mpr rfl),
          settles_of_mem_applied hsynthesize hmem⟩
    · rw [heffect.nodes] at hnode
      exact hearlier (ih hnode happlied)

/-- Every finalized node of a run of a new node that is not applied was refused at its turn in the
latest synthesis. Assumes: the node is there where the run ends, finalized and not applied. -/
theorem refusedLast_of_not_applied {nttSize : ℕ} {operatorKeypair : Option KeyPair}
    {stakeTable : StakeTable} {allowed : Oscillator platform → Request → Prop}
    {history : List (Oscillator platform × Request)} {oscillator : Oscillator platform}
    (hreaches : Reaches (step platform) allowed (create nttSize operatorKeypair stakeTable)
      history oscillator)
    {hash : TxHash} {node : DagNode} (hnode : oscillator.dag.nodes[hash]? = some node)
    (hstatus : node.status = .finalized) (happlied : node.applied = false) :
    RefusedLast history hash := by
  induction hreaches generalizing node with
  | start => simp [create, VectorClockDag.new] at hnode
  | @next history previous _ request _ hbefore hallowed hstep ih =>
    rcases step_cases hstep with ⟨keys, order, timestampNs, result, hashes, rfl, hsynthesize⟩ |
      ⟨hother, heffect⟩
    · obtain ⟨checked, hchecked, hprepared, -, hkept, hflag⟩ :=
        (synthesize_effect hsynthesize).node hnode
      rw [hflag, Bool.or_eq_false_iff, decide_eq_false_iff_not] at happlied
      obtain ⟨before, ledger, hturn⟩ :=
        (sound_of_reaches hbefore).exists_turn hsynthesize hprepared
      refine ⟨history, previous, _, [], rfl, fun entry hentry ↦ absurd hentry List.not_mem_nil,
        keys, order, timestampNs, before, ledger, _, rfl, hturn, ?_⟩
      rcases hturn.outcome_cases hsynthesize with (hrejected | hflagged) | ⟨hmem, -⟩ | hrefusal
      · rw [← hkept, hstatus] at hrejected
        cases hrejected
      · rw [prepareNode_eq, happlied.1] at hflagged
        cases hflagged
      · exact absurd hmem happlied.2
      · exact hrefusal
    · rw [heffect.nodes] at hnode
      refine (ih hnode hstatus happlied).concat previous ?_
      cases request with
      | synthesize keys order timestampNs => exact absurd rfl (hother keys order timestampNs)
      | _ => rfl

/-- Every finalized node was settled by a transfer in some tick, or is not applied and was refused
at its turn in the latest synthesis. Assumes: the node is there where a run of a new node ends, and
is finalized. -/
theorem finalized_settled_or_refused {nttSize : ℕ} {operatorKeypair : Option KeyPair}
    {stakeTable : StakeTable} {history : List (Oscillator platform × Request)}
    {oscillator : Oscillator platform}
    (hreaches : Reaches (step platform) anyStep (create nttSize operatorKeypair stakeTable)
      history oscillator)
    {hash : TxHash} {node : DagNode} (hnode : oscillator.dag.nodes[hash]? = some node)
    (hstatus : node.status = .finalized) :
    (node.applied = true ∧ ∃ entry ∈ history, Settles entry.1 entry.2 hash) ∨
    (node.applied = false ∧ RefusedLast history hash) := by
  cases happlied : node.applied with
  | true => exact .inl ⟨rfl, settled_of_applied hreaches hnode happlied⟩
  | false => exact .inr ⟨rfl, refusedLast_of_not_applied hreaches hnode hstatus happlied⟩

/-- A shift whose sender holds nothing. -/
def overdrawnShift : StatefulShift := StatefulShift.sample 1 400 [(1, 1)] [] 1 0

/-- The overdrawn shift and the four syntheses after which it is finalized. -/
def overdrawnRun : List Request :=
  [.ingest (.stateful overdrawnShift) 1, .sample, .sample, .sample, .sample]

/-- A finalized node at the end of a run of four ticks. -/
theorem finalized_settled_or_refused_overdrawnRun :
    ∃ (oscillator : Oscillator Platform.sample)
      (history : List (Oscillator Platform.sample × Request)) (node : DagNode),
      Reaches (step Platform.sample) anyStep (newWithKeypair 8) history oscillator ∧
      history.length = 5 ∧
      oscillator.dag.nodes[overdrawnShift.hash .sample]? = some node ∧ node.status = .finalized ∧
      ((node.applied = true ∧
          ∃ entry ∈ history, Settles entry.1 entry.2 (overdrawnShift.hash .sample)) ∨
        (node.applied = false ∧ RefusedLast history (overdrawnShift.hash .sample))) := by
  have hruns : ((run (step Platform.sample) anyStep (newWithKeypair 8) overdrawnRun).bind
      fun oscillator ↦ oscillator.dag.nodes[overdrawnShift.hash .sample]?.map DagNode.status) =
      some .finalized := by
    decide +kernel
  obtain ⟨oscillator, hrun, hvalue⟩ := Option.bind_eq_some_iff.mp hruns
  obtain ⟨node, hnode, hstatus⟩ := Option.map_eq_some_iff.mp hvalue
  obtain ⟨history, hinputs, hreaches⟩ := reaches_of_run hrun
  refine ⟨oscillator, history, node, hreaches, ?_, hnode, hstatus,
    finalized_settled_or_refused hreaches hnode hstatus⟩
  rw [← List.length_map, hinputs]
  rfl

/-- The overdrawn shift is finalized and not applied: its age is all that the promotion looks at. -/
theorem finalized_not_applied :
    ∃ (oscillator : Oscillator Platform.sample) (node : DagNode),
      run (step Platform.sample) anyStep (newWithKeypair 8) overdrawnRun = some oscillator ∧
      oscillator.dag.nodes[overdrawnShift.hash .sample]? = some node ∧
      node.status = .finalized ∧ node.applied = false := by
  have hruns : ((run (step Platform.sample) anyStep (newWithKeypair 8) overdrawnRun).bind
      fun oscillator ↦ oscillator.dag.nodes[overdrawnShift.hash .sample]?.map
        fun node : DagNode ↦ (node.status, node.applied)) = some (.finalized, false) := by
    decide +kernel
  obtain ⟨oscillator, hrun, hvalues⟩ := Option.bind_eq_some_iff.mp hruns
  obtain ⟨node, hnode, hpair⟩ := Option.map_eq_some_iff.mp hvalues
  obtain ⟨hstatus, happlied⟩ := Prod.mk.inj hpair
  exact ⟨oscillator, node, hrun, hnode, hstatus, happlied⟩

/-! ### Predecessors of applied shifts -/

/-- In a sound state the predecessors of a shift have their turns before it. Assumes: the loop is at
the turn of the shift. -/
theorem Turn.predecessor {oscillator : Oscillator platform} (hsound : Sound oscillator)
    {keys : KeyRegistry} {order : SynthesisOrder} {before : List TxHash} {hash : TxHash}
    {ledger : Ledger} {node : DagNode}
    (hturn : Turn oscillator keys order before hash ledger node) {predecessor : TxHash}
    (hpredecessor : predecessor ∈ node.shift.predecessors) :
    ∃ earlier between ledger' node', before = earlier ++ predecessor :: between ∧
      Turn oscillator keys order earlier predecessor ledger' node' := by
  have hdag := hsound.preparedDag_wellFormed keys order
  obtain ⟨placed, horder, -, hprecedes⟩ := hdag.topologicalOrder_eq_ok order.toDagOrder
  obtain ⟨after, hplaced⟩ := hturn.placed
  rw [horder, Option.some.injEq, Except.ok.injEq] at hplaced
  have hedge : (oscillator.preparedDag keys order).Edge predecessor hash :=
    ⟨node, hturn.node_eq, hpredecessor⟩
  obtain ⟨earlier, between, rfl⟩ :=
    List.append_of_mem (hprecedes before hash after hplaced predecessor hedge)
  obtain ⟨node', hnode'⟩ := mem_iff_exists_getElem?.mp (hdag.edge_mem predecessor hash hedge)
  obtain ⟨ledger', hearlier⟩ := hturn.earlier hnode'
  exact ⟨earlier, between, ledger', node', rfl, hearlier⟩

/-- A node that the loop sees applied was transferred in an earlier synthesis. Assumes: a run of a
new node leads to the state, and the loop sees the node applied. -/
theorem settled_of_prepared_applied {nttSize : ℕ} {operatorKeypair : Option KeyPair}
    {stakeTable : StakeTable} {allowed : Oscillator platform → Request → Prop}
    {history : List (Oscillator platform × Request)} {oscillator : Oscillator platform}
    (hreaches : Reaches (step platform) allowed (create nttSize operatorKeypair stakeTable)
      history oscillator)
    {keys : KeyRegistry} {order : SynthesisOrder} {hash : TxHash} {node : DagNode}
    (hnode : (oscillator.preparedDag keys order).nodes[hash]? = some node)
    (happlied : node.applied = true) :
    ∃ entry ∈ history, Settles entry.1 entry.2 hash := by
  rw [getElem?_preparedDag, Option.map_eq_some_iff] at hnode
  obtain ⟨checked, hchecked, rfl⟩ := hnode
  rw [prepareNode_eq] at happlied
  have hflag : checked.core.applied = true := happlied
  rcases checkedDag_cases hchecked with ⟨old, hold, hcore⟩ | ⟨shift, -, depth, -, hcore⟩
  · rw [hcore] at hflag
    exact settled_of_applied hreaches hold hflag
  · rw [hcore] at hflag
    cases hflag

/-- When a synthesis applies a shift, each of its predecessors had its turn before it in the same
tick: it was transferred in an earlier tick, is transferred in this one, is rejected, or is refused.
Assumes: a run of a new node leads to the state, and the synthesis lists the shift as applied. -/
theorem predecessors_visited {nttSize : ℕ} {operatorKeypair : Option KeyPair}
    {stakeTable : StakeTable} {history : List (Oscillator platform × Request)}
    {oscillator : Oscillator platform}
    (hreaches : Reaches (step platform) anyStep (create nttSize operatorKeypair stakeTable)
      history oscillator)
    {keys : KeyRegistry} {order : SynthesisOrder} {timestampNs : ℕ}
    {final : Oscillator platform} {result : SynthesisResult} {hashes : List TxHash}
    (hsynthesize : oscillator.synthesize keys order timestampNs = some (final, result, hashes))
    {hash : TxHash} (hmem : hash ∈ hashes) :
    ∃ before ledger node, Turn oscillator keys order before hash ledger node ∧
      ∀ predecessor ∈ node.shift.predecessors, ∃ earlier between ledger' node',
        before = earlier ++ predecessor :: between ∧
        Turn oscillator keys order earlier predecessor ledger' node' ∧
        ((∃ entry ∈ history, Settles entry.1 entry.2 predecessor) ∨
          (predecessor ∈ hashes ∧
            Settles oscillator (.synthesize keys order timestampNs) predecessor) ∨
          node'.status.isRejected = true ∨
          (oscillator.outcomeAt keys order ledger' node').isRefusal = true) := by
  have hsound := sound_of_reaches hreaches
  obtain ⟨before, ledger, node, fee, net, hturn, -⟩ := (mem_applied_iff hsynthesize hash).mp hmem
  refine ⟨before, ledger, node, hturn, fun predecessor hpredecessor ↦ ?_⟩
  obtain ⟨earlier, between, ledger', node', hsplit, hearlier⟩ :=
    hturn.predecessor hsound hpredecessor
  refine ⟨earlier, between, ledger', node', hsplit, hearlier, ?_⟩
  rcases hearlier.outcome_cases hsynthesize with (hrejected | happlied) | hsettles | hrefusal
  · exact .inr (.inr (.inl hrejected))
  · exact .inl (settled_of_prepared_applied hreaches hearlier.node_eq happlied)
  · exact .inr (.inl hsettles)
  · exact .inr (.inr (.inr hrefusal))

/-- A shift of a second, funded sender that names the overdrawn shift as its predecessor. -/
def successorShift : StatefulShift :=
  StatefulShift.sample 2 300 [(2, 1)] [overdrawnShift.hash .sample] 1 0

/-- The requests that queue the overdrawn shift and its successor. -/
def successorQueue : List Request :=
  [.seedAccount (sampleAccount 2) 1000,
    .ingest (.stateful overdrawnShift) 1, .ingest (.stateful successorShift) 1]

/-- A synthesis that applies a shift with a predecessor. -/
theorem predecessors_visited_successorQueue :
    ∃ (history : List (Oscillator Platform.sample × Request))
      (oscillator final : Oscillator Platform.sample) (result : SynthesisResult)
      (hashes : List TxHash),
      Reaches (step Platform.sample) anyStep (newWithKeypair 8) history oscillator ∧
      oscillator.synthesize sampleKeys .forward 0 = some (final, result, hashes) ∧
      successorShift.hash .sample ∈ hashes ∧
      ∃ before ledger node,
        Turn oscillator sampleKeys .forward before (successorShift.hash .sample) ledger node ∧
        ∀ predecessor ∈ node.shift.predecessors, ∃ earlier between ledger' node',
          before = earlier ++ predecessor :: between ∧
          Turn oscillator sampleKeys .forward earlier predecessor ledger' node' ∧
          ((∃ entry ∈ history, Settles entry.1 entry.2 predecessor) ∨
            (predecessor ∈ hashes ∧
              Settles oscillator (.synthesize sampleKeys .forward 0) predecessor) ∨
            node'.status.isRejected = true ∨
            (oscillator.outcomeAt sampleKeys .forward ledger' node').isRefusal = true) := by
  have hruns : ((run (step Platform.sample) anyStep (newWithKeypair 8) successorQueue).bind
      fun oscillator ↦ (oscillator.synthesize sampleKeys .forward 0).map
        fun outcome ↦ outcome.2.2) = some [successorShift.hash .sample] := by
    decide +kernel
  obtain ⟨oscillator, hrun, hvalue⟩ := Option.bind_eq_some_iff.mp hruns
  obtain ⟨⟨final, result, hashes⟩, hsynthesize, hhashes⟩ := Option.map_eq_some_iff.mp hvalue
  obtain ⟨history, -, hreaches⟩ := reaches_of_run hrun
  have hmem : successorShift.hash .sample ∈ hashes := by
    rw [show hashes = [successorShift.hash .sample] from hhashes]
    exact List.mem_singleton.mpr rfl
  exact ⟨history, oscillator, final, result, hashes, hreaches, hsynthesize, hmem,
    predecessors_visited hreaches hsynthesize hmem⟩

/-- The successor is applied in a tick in which its predecessor is a node that is not applied, then
or before. -/
theorem applied_after_refused :
    ∃ (oscillator final : Oscillator Platform.sample) (result : SynthesisResult) (node : DagNode),
      run (step Platform.sample) anyStep (newWithKeypair 8) successorQueue = some oscillator ∧
      oscillator.synthesize sampleKeys .forward 0 =
        some (final, result, [successorShift.hash .sample]) ∧
      overdrawnShift.hash .sample ∈ successorShift.predecessors ∧
      overdrawnShift.hash .sample ≠ successorShift.hash .sample ∧
      final.dag.nodes[overdrawnShift.hash .sample]? = some node ∧ node.applied = false := by
  have hruns : ((run (step Platform.sample) anyStep (newWithKeypair 8) successorQueue).bind
      fun oscillator ↦ (oscillator.synthesize sampleKeys .forward 0).map
        fun outcome ↦ (outcome.2.2,
          outcome.1.dag.nodes[overdrawnShift.hash .sample]?.map DagNode.applied)) =
      some ([successorShift.hash .sample], some false) := by
    decide +kernel
  obtain ⟨oscillator, hrun, hvalue⟩ := Option.bind_eq_some_iff.mp hruns
  obtain ⟨⟨final, result, hashes⟩, hsynthesize, hvalues⟩ := Option.map_eq_some_iff.mp hvalue
  obtain ⟨hhashes, hflag⟩ := Prod.mk.inj hvalues
  obtain ⟨node, hnode, happlied⟩ := Option.map_eq_some_iff.mp hflag
  refine ⟨oscillator, final, result, node, hrun, ?_, ?_, ?_, hnode, happlied⟩
  · rw [hsynthesize]
    exact congrArg (fun hashes ↦ some (final, result, hashes)) hhashes
  · exact List.mem_singleton.mpr rfl
  · decide +kernel

end Fluidic.Consensus.Oscillator
