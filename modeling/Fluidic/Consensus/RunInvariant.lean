import Fluidic.Consensus.SynthesisSpec
import Fluidic.Consensus.RequestOutcomes

/-!
# Invariants of runs

What every run of a node keeps about its DAG. Requests other than a synthesis leave the nodes alone
(`step_cases`). A synthesis admits the pending shifts, rejects the overspent ones, promotes the deep
ones and sets the flags of the applied ones; `getElem?_preparedDag` says what each node looks like
when the loop sees it.

`Sound` is the invariant: the DAG is well formed and no node and no pending shift has amount zero.
From it follow that a synthesis always has a topological order in which every node has its turn.
-/

set_option autoImplicit false
set_option relaxedAutoImplicit false

namespace Fluidic.Consensus

open Library Crypto Fluidic.Field Value Operator Evm
open Std (ExtTreeMap ExtTreeSet LawfulEqCmp)

/-- A node without its children. -/
def DagNode.core (node : DagNode) : DagNode := { node with children := ∅ }

@[simp] theorem DagNode.core_shift (node : DagNode) : node.core.shift = node.shift := rfl

@[simp] theorem DagNode.core_status (node : DagNode) : node.core.status = node.status := rfl

@[simp] theorem DagNode.core_applied (node : DagNode) : node.core.applied = node.applied := rfl

namespace Oscillator

variable {platform : Platform}

/-! ### Admission -/

/-- An insertion keeps every node up to its children, and may add the node of its shift. -/
theorem insert_core (prim : Primitives) (dag : VectorClockDag) (shift : StatefulShift)
    (publicKey : VerifyingKey) (tick depth : ℕ) (hash : TxHash) :
    (dag.insert prim shift publicKey tick depth).1.nodes[hash]?.map DagNode.core =
      dag.nodes[hash]?.map DagNode.core ∨
    dag.nodes[hash]? = none ∧ shift.hash prim = hash ∧
      (dag.insert prim shift publicKey tick depth).1.nodes[hash]?.map DagNode.core =
        some (VectorClockDag.freshNode shift hash tick depth) := by
  rcases VectorClockDag.insert_cases prim dag shift publicKey tick depth with ⟨-, hinsert⟩ |
    ⟨-, -, hinsert⟩ | ⟨-, -, missing, -, -, hinsert⟩ | ⟨-, hfresh, -, hinsert⟩
  · rw [hinsert]
    exact .inl rfl
  · rw [hinsert]
    exact .inl rfl
  · rw [hinsert]
    exact .inl rfl
  · rw [hinsert, VectorClockDag.getElem?_link]
    split_ifs with hself
    · subst hself
      exact .inr ⟨ExtTreeMap.getElem?_eq_none hfresh, rfl, rfl⟩
    · refine .inl ?_
      rw [Option.map_map]
      refine congrFun (congrArg Option.map (funext fun node ↦ ?_)) _
      simp only [Function.comp_apply, VectorClockDag.linked]
      split_ifs <;> rfl

/-- Moving one pending shift leaves the DAG alone or inserts the shift. -/
theorem admitShift_cases (prim : Primitives) (registry : DomainRegistry) (keys : KeyRegistry)
    (tick : ℕ) (progress : VectorClockDag × List DagError) (shift : StatefulShift) :
    (admitShift prim registry keys tick progress shift).1 = progress.1 ∨
    ∃ publicKey depth, (admitShift prim registry keys tick progress shift).1 =
      (progress.1.insert prim shift publicKey tick depth).1 := by
  unfold admitShift
  cases keys[shift.sender]? with
  | none => exact .inl rfl
  | some publicKey =>
    refine .inr ⟨publicKey, depthOf registry shift.domain, ?_⟩
    dsimp only
    split
    · rename_i hinsert
      rw [hinsert]
    · rename_i hinsert
      rw [hinsert]

/-- Moving pending shifts into the DAG keeps every node up to its children and adds nodes of pending
shifts only. -/
theorem admitted_core (prim : Primitives) (registry : DomainRegistry) (keys : KeyRegistry)
    (tick : ℕ) (shifts : List StatefulShift) (progress : VectorClockDag × List DagError)
    (hash : TxHash) :
    (shifts.foldl (admitShift prim registry keys tick) progress).1.nodes[hash]?.map DagNode.core =
      progress.1.nodes[hash]?.map DagNode.core ∨
    progress.1.nodes[hash]? = none ∧ ∃ shift ∈ shifts, ∃ depth, shift.hash prim = hash ∧
      (shifts.foldl (admitShift prim registry keys tick) progress).1.nodes[hash]?.map
        DagNode.core = some (VectorClockDag.freshNode shift hash tick depth) := by
  induction shifts generalizing progress with
  | nil => exact .inl rfl
  | cons shift shifts ih =>
    rw [List.foldl_cons]
    have hstep : (admitShift prim registry keys tick progress shift).1.nodes[hash]?.map
          DagNode.core = progress.1.nodes[hash]?.map DagNode.core ∨
        progress.1.nodes[hash]? = none ∧ ∃ depth, shift.hash prim = hash ∧
          (admitShift prim registry keys tick progress shift).1.nodes[hash]?.map DagNode.core =
            some (VectorClockDag.freshNode shift hash tick depth) := by
      rcases admitShift_cases prim registry keys tick progress shift with hsame |
        ⟨publicKey, depth, hinsert⟩
      · rw [hsame]
        exact .inl rfl
      · rw [hinsert]
        rcases insert_core prim progress.1 shift publicKey tick depth hash with hsame |
          ⟨hnone, hhash, hnew⟩
        · exact .inl hsame
        · exact .inr ⟨hnone, depth, hhash, hnew⟩
    rcases ih (admitShift prim registry keys tick progress shift) with hsame | ⟨hnone, hnew⟩
    · rcases hstep with hstep | ⟨hnone, depth, hhash, hstep⟩
      · exact .inl (hsame.trans hstep)
      · exact .inr ⟨hnone, shift, List.mem_cons_self, depth, hhash, hsame.trans hstep⟩
    · obtain ⟨later, hlater, depth, hhash, hvalue⟩ := hnew
      refine .inr ⟨?_, later, List.mem_cons_of_mem _ hlater, depth, hhash, hvalue⟩
      rcases hstep with hstep | ⟨hnone', -⟩
      · rw [hnone, Option.map_none, eq_comm, Option.map_eq_none_iff] at hstep
        exact hstep
      · exact hnone'

/-- Moving pending shifts into the DAG keeps it well formed. -/
theorem admitted_wellFormed {prim : Primitives} (registry : DomainRegistry) (keys : KeyRegistry)
    (tick : ℕ) (shifts : List StatefulShift) {progress : VectorClockDag × List DagError}
    (hdag : VectorClockDag.WellFormed prim progress.1) :
    VectorClockDag.WellFormed prim
      (shifts.foldl (admitShift prim registry keys tick) progress).1 := by
  induction shifts generalizing progress with
  | nil => exact hdag
  | cons shift shifts ih =>
    refine ih ?_
    rcases admitShift_cases prim registry keys tick progress shift with hsame |
      ⟨publicKey, depth, hinsert⟩
    · rw [hsame]
      exact hdag
    · rw [hinsert]
      exact hdag.insert shift publicKey tick depth

/-- The nodes the double-spend check sees: those of the DAG, up to their children, and nodes of
pending shifts. -/
theorem checkedDag_core (oscillator : Oscillator platform) (keys : KeyRegistry) (hash : TxHash) :
    (oscillator.checkedDag keys).nodes[hash]?.map DagNode.core =
      oscillator.dag.nodes[hash]?.map DagNode.core ∨
    oscillator.dag.nodes[hash]? = none ∧ ∃ shift ∈ oscillator.pendingStateful, ∃ depth,
      shift.hash platform.primitives = hash ∧
      (oscillator.checkedDag keys).nodes[hash]?.map DagNode.core =
        some (VectorClockDag.freshNode shift hash oscillator.synthesisTick depth) := by
  obtain ⟨balances, hsynced⟩ := oscillator.syncedDag_eq
  have hcore := admitted_core platform.primitives oscillator.domainRegistry keys
    oscillator.synthesisTick oscillator.pendingStateful (oscillator.syncedDag, []) hash
  simp only [hsynced] at hcore
  unfold checkedDag
  rw [hsynced]
  exact hcore

/-- A node of the DAG is seen by the double-spend check, up to its children. Assumes: the DAG has
the node. -/
theorem checkedDag_of_mem {oscillator : Oscillator platform} (keys : KeyRegistry) {hash : TxHash}
    {node : DagNode} (hnode : oscillator.dag.nodes[hash]? = some node) :
    ∃ node', (oscillator.checkedDag keys).nodes[hash]? = some node' ∧ node'.core = node.core := by
  rcases oscillator.checkedDag_core keys hash with hsame | ⟨hnone, -⟩
  · rw [hnode, Option.map_some, Option.map_eq_some_iff] at hsame
    exact hsame
  · rw [hnode] at hnone
    cases hnone

/-- A node that the double-spend check sees is one of the DAG, up to its children, or the fresh node
of a pending shift. Assumes: the check sees the node. -/
theorem checkedDag_cases {oscillator : Oscillator platform} {keys : KeyRegistry} {hash : TxHash}
    {node : DagNode} (hnode : (oscillator.checkedDag keys).nodes[hash]? = some node) :
    (∃ old, oscillator.dag.nodes[hash]? = some old ∧ node.core = old.core) ∨
    ∃ shift ∈ oscillator.pendingStateful, ∃ depth, shift.hash platform.primitives = hash ∧
      node.core = VectorClockDag.freshNode shift hash oscillator.synthesisTick depth := by
  rcases oscillator.checkedDag_core keys hash with hsame | ⟨-, shift, hshift, depth, hhash, hnew⟩
  · rw [hnode, Option.map_some, eq_comm, Option.map_eq_some_iff] at hsame
    obtain ⟨old, hold, hcore⟩ := hsame
    exact .inl ⟨old, hold, hcore.symm⟩
  · rw [hnode, Option.map_some, Option.some.injEq] at hnew
    exact .inr ⟨shift, hshift, depth, hhash, hnew⟩

/-! ### The prepared DAG -/

/-- A node after the double-spend check and the promotion of a tick. -/
def prepareNode (dag : VectorClockDag) (tick : ℕ) (hash : TxHash) (node : DagNode) : DagNode :=
  VectorClockDag.promoteNode tick
    (if dag.isOverspent (hash, node) then { node with status := .rejected (.doubleSpend hash) }
      else node)

/-- The nodes that the loop sees: those that the check saw, rejected where they are overspent and
promoted where they are deep enough. -/
theorem getElem?_preparedDag (oscillator : Oscillator platform) (keys : KeyRegistry)
    (order : SynthesisOrder) (hash : TxHash) :
    (oscillator.preparedDag keys order).nodes[hash]? =
      (oscillator.checkedDag keys).nodes[hash]?.map
        (prepareNode (oscillator.checkedDag keys) oscillator.synthesisTick hash) := by
  have hpromote : (oscillator.preparedDag keys order).nodes[hash]? =
      (oscillator.markedDag keys order).nodes[hash]?.map
        (VectorClockDag.promoteNode oscillator.synthesisTick) := ExtTreeMap.getElem?_map
  have hmark := VectorClockDag.getElem?_markDoubleSpends (oscillator.checkedDag keys)
    ((oscillator.checkedDag keys).detectDoubleSpends order.toDagOrder) hash
  rw [hpromote, markedDag, hmark]
  cases hnode : (oscillator.checkedDag keys).nodes[hash]? with
  | none => rfl
  | some node =>
    have hreport : .doubleSpend hash ∈
        (oscillator.checkedDag keys).detectDoubleSpends order.toDagOrder ↔
        (oscillator.checkedDag keys).isOverspent (hash, node) = true := by
      rw [VectorClockDag.mem_detectDoubleSpends_iff, hnode]
      simp
    simp only [Option.map_some, prepareNode, hreport]

/-- What the check and the promotion keep of a node: everything but the status and the tick of
promotion. -/
theorem prepareNode_eq (dag : VectorClockDag) (tick : ℕ) (hash : TxHash) (node : DagNode) :
    prepareNode dag tick hash node =
      { node with
        status := (prepareNode dag tick hash node).status
        finalizedAtTick := (prepareNode dag tick hash node).finalizedAtTick } := by
  unfold prepareNode VectorClockDag.promoteNode
  split_ifs <;> rfl

/-- A node that is not overspent keeps its status or is promoted. Assumes: the node is not
overspent. -/
theorem prepareNode_status_of_covered {dag : VectorClockDag} {hash : TxHash} {node : DagNode}
    (tick : ℕ) (hcovered : dag.isOverspent (hash, node) = false) :
    (prepareNode dag tick hash node).status = node.status ∨
      node.status = .accepted ∧ (prepareNode dag tick hash node).status = .finalized := by
  unfold prepareNode
  simp only [hcovered, Bool.false_eq_true, if_false]
  unfold VectorClockDag.promoteNode
  split_ifs with hdeep
  · exact .inr ⟨hdeep.1, rfl⟩
  · exact .inl rfl

/-- An overspent node is rejected, whatever its status was. Assumes: the node is overspent. -/
theorem prepareNode_status_of_overspent {dag : VectorClockDag} {hash : TxHash} {node : DagNode}
    (tick : ℕ) (hoverspent : dag.isOverspent (hash, node) = true) :
    (prepareNode dag tick hash node).status = .rejected (.doubleSpend hash) := by
  unfold prepareNode
  simp only [hoverspent, if_true]
  unfold VectorClockDag.promoteNode
  rw [if_neg fun hdeep ↦ ShiftStatus.noConfusion hdeep.1]

/-- The check and the promotion keep the shape of the DAG. -/
theorem sameShape_preparedDag (oscillator : Oscillator platform) (keys : KeyRegistry)
    (order : SynthesisOrder) :
    VectorClockDag.SameShape (oscillator.checkedDag keys) (oscillator.preparedDag keys order) where
  roots := rfl
  nodes hash := by
    rw [getElem?_preparedDag, Option.map_map]
    refine congrFun (congrArg Option.map (funext fun node ↦ ?_)) _
    simp only [Function.comp_apply]
    rw [prepareNode_eq]
    rfl

/-- The applied flags keep the shape of the DAG. Assumes: the synthesis returns. -/
theorem SynthesisEffect.sameShape {oscillator final : Oscillator platform} {keys : KeyRegistry}
    {order : SynthesisOrder} {hashes : List TxHash}
    (heffect : SynthesisEffect oscillator final keys order hashes) :
    VectorClockDag.SameShape (oscillator.preparedDag keys order) final.dag where
  roots := heffect.roots
  nodes hash := by
    rw [heffect.nodes, getElem?_markApplied, Option.map_map]
    rfl

/-- A node after a synthesis: the node as the check saw it, with its status prepared and its flag
set when it was applied. -/
theorem SynthesisEffect.node {oscillator final : Oscillator platform} {keys : KeyRegistry}
    {order : SynthesisOrder} {hashes : List TxHash}
    (heffect : SynthesisEffect oscillator final keys order hashes) {hash : TxHash}
    {node : DagNode} (hnode : final.dag.nodes[hash]? = some node) :
    ∃ checked, (oscillator.checkedDag keys).nodes[hash]? = some checked ∧
      (oscillator.preparedDag keys order).nodes[hash]? =
        some (prepareNode (oscillator.checkedDag keys) oscillator.synthesisTick hash checked) ∧
      node.shift = checked.shift ∧
      node.status = (prepareNode (oscillator.checkedDag keys) oscillator.synthesisTick hash
        checked).status ∧
      node.applied = (checked.applied || decide (hash ∈ hashes)) := by
  rw [heffect.nodes, getElem?_markApplied, Option.map_eq_some_iff] at hnode
  obtain ⟨prepared, hprepared, rfl⟩ := hnode
  have hlookup := hprepared
  rw [getElem?_preparedDag, Option.map_eq_some_iff] at hlookup
  obtain ⟨checked, hchecked, rfl⟩ := hlookup
  refine ⟨checked, hchecked, hprepared, ?_, rfl, ?_⟩
  · rw [prepareNode_eq]
  · rw [prepareNode_eq]

/-- A node that the check sees is there after the synthesis. -/
theorem SynthesisEffect.exists_node {oscillator final : Oscillator platform}
    {keys : KeyRegistry} {order : SynthesisOrder} {hashes : List TxHash}
    (heffect : SynthesisEffect oscillator final keys order hashes) {hash : TxHash}
    {checked : DagNode} (hchecked : (oscillator.checkedDag keys).nodes[hash]? = some checked) :
    ∃ node, final.dag.nodes[hash]? = some node := by
  have hfinal : (final.dag.nodes[hash]?).isSome = true := by
    rw [heffect.nodes, getElem?_markApplied, getElem?_preparedDag, hchecked]
    rfl
  exact Option.isSome_iff_exists.mp hfinal

/-! ### Requests other than a synthesis -/

/-- No highest nonce falls. -/
def NoncesRise (oscillator next : Oscillator platform) : Prop :=
  ∀ (key : AccountId × DomainId) highest, oscillator.seenNonces[key]? = some highest →
    ∃ highest', next.seenNonces[key]? = some highest' ∧ highest ≤ highest'

/-- A shift is pushed to the queue: its amount is positive, its nonce is above the highest one of
its sender and domain, and becomes the highest one. -/
structure Pushes (oscillator next : Oscillator platform) (shift : StatefulShift) : Prop where
  queue : next.pendingStateful = oscillator.pendingStateful ++ [shift]
  amount_pos : 0 < shift.amount
  nonce_gt : ∀ highest, oscillator.seenNonces[(shift.sender, shift.domain)]? = some highest →
    highest < shift.nonce
  nonces : next.seenNonces =
    oscillator.seenNonces.insert (shift.sender, shift.domain) shift.nonce

/-- What a request other than a synthesis does to the nodes and the queue: it leaves the nodes
alone, and either leaves the queue alone or pushes one shift to it. -/
structure RequestEffect (oscillator next : Oscillator platform) : Prop where
  nodes : next.dag.nodes = oscillator.dag.nodes
  roots : next.dag.roots = oscillator.dag.roots
  queue : (next.pendingStateful = oscillator.pendingStateful ∧ NoncesRise oscillator next) ∨
    ∃ shift, Pushes oscillator next shift

theorem NoncesRise.refl {oscillator next : Oscillator platform}
    (hsame : next.seenNonces = oscillator.seenNonces) : NoncesRise oscillator next :=
  fun _ highest hhighest ↦ ⟨highest, by rw [hsame, hhighest], le_refl _⟩

/-- A request that leaves the nodes, the queue and the nonces alone. Assumes: the two states have
the same nodes, roots, queue and nonces. -/
theorem RequestEffect.of_eq {oscillator next : Oscillator platform}
    (hnodes : next.dag.nodes = oscillator.dag.nodes)
    (hroots : next.dag.roots = oscillator.dag.roots)
    (hqueue : next.pendingStateful = oscillator.pendingStateful)
    (hnonces : next.seenNonces = oscillator.seenNonces) : RequestEffect oscillator next :=
  ⟨hnodes, hroots, .inl ⟨hqueue, .refl hnonces⟩⟩

/-- A nonce that passes the check is above the highest one and is recorded. Assumes: the nonce
passes the check. -/
theorem checkAndRecordNonce_eq_ok {oscillator recorded : Oscillator platform}
    {account : AccountId} {domain : DomainId} {nonce : ℕ}
    (hcheck : oscillator.checkAndRecordNonce account domain nonce = .ok recorded) :
    recorded = { oscillator with
      seenNonces := oscillator.seenNonces.insert (account, domain) nonce } ∧
    ∀ highest, oscillator.seenNonces[(account, domain)]? = some highest → highest < nonce := by
  unfold checkAndRecordNonce at hcheck
  cases hlookup : oscillator.seenNonces[(account, domain)]? with
  | none =>
    simp only [hlookup, Except.ok.injEq] at hcheck
    exact ⟨hcheck.symm, fun highest hhighest ↦ by cases hhighest⟩
  | some seen =>
    simp only [hlookup] at hcheck
    split_ifs at hcheck with hreplay
    refine ⟨(Except.ok.inj hcheck).symm, fun highest hhighest ↦ ?_⟩
    rw [← Option.some.inj hhighest]
    exact Nat.lt_of_not_le hreplay

/-- Recording a nonce that passes the check raises the nonces. Assumes: the nonce passes the check.
-/
theorem NoncesRise.of_check {oscillator recorded : Oscillator platform}
    {account : AccountId} {domain : DomainId} {nonce : ℕ}
    (hcheck : oscillator.checkAndRecordNonce account domain nonce = .ok recorded) :
    NoncesRise oscillator recorded := by
  obtain ⟨rfl, hgt⟩ := checkAndRecordNonce_eq_ok hcheck
  intro key highest hhighest
  simp only [ExtTreeMap.getElem?_insert, LawfulEqCmp.compare_eq_iff_eq]
  split_ifs with hself
  · subst hself
    exact ⟨nonce, rfl, Nat.le_of_lt (hgt highest hhighest)⟩
  · exact ⟨highest, hhighest, le_refl _⟩

theorem seedAccount_effect (oscillator : Oscillator platform) (account : AccountId)
    (amount : ℕ) : RequestEffect oscillator (oscillator.seedAccount account amount) := by
  rw [seedAccount_eq]
  split_ifs <;> exact .of_eq rfl rfl rfl rfl

theorem registerDomain_effect (oscillator : Oscillator platform) (policy : DomainPolicy)
    (registrant : AccountId) :
    RequestEffect oscillator (oscillator.registerDomain policy registrant).1 := by
  have houtcome := oscillator.registerDomain_outcome policy registrant
  generalize oscillator.registerDomain policy registrant = result at houtcome ⊢
  cases houtcome with
  | refused => exact .of_eq rfl rfl rfl rfl
  | registered => exact .of_eq rfl rfl rfl rfl

theorem ingestStateful_effect (oscillator : Oscillator platform) (shift : StatefulShift)
    (nowNs : ℕ) : RequestEffect oscillator (oscillator.ingestStateful shift nowNs).1 := by
  rw [ingestStateful_eq]
  refine ⟨rfl, rfl, ?_⟩
  by_cases hqueues : oscillator.queues shift = true
  · have hgates := hqueues
    unfold queues records at hgates
    simp only [Bool.and_eq_true, decide_eq_true_eq] at hgates
    obtain ⟨⟨⟨hpermits, hfresh⟩, -⟩, hamount⟩ := hgates
    have hrecords : oscillator.records shift = true := by
      rw [records, hpermits, hfresh, Bool.and_self]
    refine .inr ⟨stamped shift nowNs, if_pos hqueues, ?_, fun highest hhighest ↦ ?_, ?_⟩
    · rw [stamped_amount]
      exact Nat.pos_of_ne_zero hamount
    · rw [stamped_sender, stamped_domain] at hhighest
      rw [stamped_nonce]
      unfold isFresh at hfresh
      rw [hhighest] at hfresh
      exact of_decide_eq_true hfresh
    · rw [stamped_sender, stamped_domain, stamped_nonce]
      exact if_pos hrecords
  · refine .inl ⟨if_neg hqueues, ?_⟩
    by_cases hrecords : oscillator.records shift = true
    · have hfresh : oscillator.isFresh shift.sender shift.domain shift.nonce = true := by
        unfold records at hrecords
        exact (Bool.and_eq_true _ _ ▸ hrecords).2
      have hrise := NoncesRise.of_check (checkAndRecordNonce_of_isFresh hfresh)
      intro key highest hhighest
      rw [if_pos hrecords]
      exact hrise key highest hhighest
    · exact .refl (if_neg hrecords)

theorem ingest_effect (oscillator : Oscillator platform) (signal : Signal) (nowNs : ℕ) :
    RequestEffect oscillator (oscillator.ingest signal nowNs).1 := by
  cases signal with
  | commutative shift =>
    have heffect : RequestEffect oscillator (oscillator.ingestCommutative shift).1 := by
      rw [ingestCommutative_eq]
      exact .of_eq rfl rfl rfl rfl
    exact heffect
  | stateful shift => exact oscillator.ingestStateful_effect shift nowNs
  | registration shift => exact .of_eq rfl rfl rfl rfl
  | stake shift => exact .of_eq rfl rfl rfl rfl
  | ping => exact .of_eq rfl rfl rfl rfl
  | pong => exact .of_eq rfl rfl rfl rfl
  | certificate cert => exact .of_eq rfl rfl rfl rfl
  | auth => exact .of_eq rfl rfl rfl rfl

theorem applyStake_effect (oscillator : Oscillator platform) (stake : StakeShift) :
    RequestEffect oscillator (oscillator.applyStake stake).1 := by
  have hnoted (hadmits : oscillator.admitsStake stake = true) :
      NoncesRise oscillator (oscillator.noted stake) :=
    .of_check (checkAndRecordNonce_of_isFresh (isFresh_of_admitsStake hadmits))
  have houtcome := oscillator.applyStake_outcome stake
  generalize oscillator.applyStake stake = result at houtcome ⊢
  cases houtcome with
  | refused => exact .of_eq rfl rfl rfl rfl
  | repeated hadmits => exact ⟨rfl, rfl, .inl ⟨rfl, hnoted hadmits⟩⟩
  | short hadmits => exact ⟨rfl, rfl, .inl ⟨rfl, hnoted hadmits⟩⟩
  | raised _ hadmits => exact ⟨rfl, rfl, .inl ⟨rfl, hnoted hadmits⟩⟩
  | lowered _ hadmits => exact ⟨rfl, rfl, .inl ⟨rfl, hnoted hadmits⟩⟩

theorem applyRegistration_effect (oscillator : Oscillator platform) (reg : RegistrationShift) :
    RequestEffect oscillator (oscillator.applyRegistration reg) := by
  rw [applyRegistration_eq]
  split_ifs with hfresh
  · have hrise := NoncesRise.of_check (checkAndRecordNonce_of_isFresh hfresh)
    exact ⟨rfl, rfl, .inl ⟨rfl, hrise⟩⟩
  · exact .of_eq rfl rfl rfl rfl

/-- A synthesis that is served returns. Assumes: the request is a synthesis and is served. -/
theorem exists_synthesis {oscillator next : Oscillator platform} {request : Request}
    {response : Response} (hkind : request.isSynthesis = true)
    (hstep : step platform oscillator request = some (next, response)) :
    ∃ keys order timestampNs result hashes, request = .synthesize keys order timestampNs ∧
      oscillator.synthesize keys order timestampNs = some (next, result, hashes) := by
  cases request with
  | synthesize keys order timestampNs =>
    simp only [step, Option.map_eq_some_iff, Prod.mk.injEq] at hstep
    obtain ⟨⟨final, result, hashes⟩, hsynthesize, rfl, -⟩ := hstep
    exact ⟨keys, order, timestampNs, result, hashes, rfl, hsynthesize⟩
  | _ => cases hkind

/-- A request is a synthesis, or leaves the nodes alone and touches the queue as described. -/
theorem step_cases {oscillator next : Oscillator platform} {request : Request}
    {response : Response} (hstep : step platform oscillator request = some (next, response)) :
    (∃ keys order timestampNs result hashes, request = .synthesize keys order timestampNs ∧
      oscillator.synthesize keys order timestampNs = some (next, result, hashes)) ∨
    (∀ keys order timestampNs, request ≠ .synthesize keys order timestampNs) ∧
      RequestEffect oscillator next := by
  cases request with
  | synthesize keys order timestampNs => exact .inl (exists_synthesis rfl hstep)
  | seedAccount account amount =>
    obtain ⟨rfl, -⟩ := Prod.mk.inj (Option.some.inj hstep)
    exact .inr ⟨fun _ _ _ ↦ Request.noConfusion, oscillator.seedAccount_effect account amount⟩
  | markNonDecaying account =>
    obtain ⟨rfl, -⟩ := Prod.mk.inj (Option.some.inj hstep)
    exact .inr ⟨fun _ _ _ ↦ Request.noConfusion, .of_eq rfl rfl rfl rfl⟩
  | registerDomain policy registrant =>
    obtain ⟨rfl, -⟩ := Prod.mk.inj (Option.some.inj hstep)
    exact .inr ⟨fun _ _ _ ↦ Request.noConfusion,
      oscillator.registerDomain_effect policy registrant⟩
  | ingest signal nowNs =>
    obtain ⟨rfl, -⟩ := Prod.mk.inj (Option.some.inj hstep)
    exact .inr ⟨fun _ _ _ ↦ Request.noConfusion, oscillator.ingest_effect signal nowNs⟩
  | applyStake stake =>
    obtain ⟨rfl, -⟩ := Prod.mk.inj (Option.some.inj hstep)
    exact .inr ⟨fun _ _ _ ↦ Request.noConfusion, oscillator.applyStake_effect stake⟩
  | stake operator amount =>
    obtain ⟨rfl, -⟩ := Prod.mk.inj (Option.some.inj hstep)
    exact .inr ⟨fun _ _ _ ↦ Request.noConfusion, .of_eq rfl rfl rfl rfl⟩
  | applyRegistration reg =>
    obtain ⟨rfl, -⟩ := Prod.mk.inj (Option.some.inj hstep)
    exact .inr ⟨fun _ _ _ ↦ Request.noConfusion, oscillator.applyRegistration_effect reg⟩
  | ingestCertificate cert keys =>
    obtain ⟨rfl, -⟩ := Prod.mk.inj (Option.some.inj hstep)
    exact .inr ⟨fun _ _ _ ↦ Request.noConfusion, .of_eq rfl rfl rfl rfl⟩
  | submitEvm tx nowNs =>
    obtain ⟨rfl, -⟩ := Prod.mk.inj (Option.some.inj hstep)
    exact .inr ⟨fun _ _ _ ↦ Request.noConfusion, .of_eq rfl rfl rfl rfl⟩

/-- What a request other than a synthesis leaves alone: the certificates of the node, the domains
unless it registers one, and the EVM pool unless it submits to it. -/
structure StepFrame (request : Request) (oscillator next : Oscillator platform) : Prop where
  certificates : next.certificates = oscillator.certificates
  domainRegistry : (∀ policy registrant, request ≠ .registerDomain policy registrant) →
    next.domainRegistry = oscillator.domainRegistry
  evmPool : (∀ tx nowNs, request ≠ .submitEvm tx nowNs) → next.evmPool = oscillator.evmPool

/-- A request that leaves all of it alone. Assumes: the two states have the same certificates,
domains and EVM pool. -/
theorem StepFrame.of_eq {request : Request} {oscillator next : Oscillator platform}
    (hcertificates : next.certificates = oscillator.certificates)
    (hdomains : next.domainRegistry = oscillator.domainRegistry)
    (hpool : next.evmPool = oscillator.evmPool) : StepFrame request oscillator next :=
  ⟨hcertificates, fun _ ↦ hdomains, fun _ ↦ hpool⟩

/-- Every request other than a synthesis leaves that alone. Assumes: the request is served, and is
not a synthesis. -/
theorem step_frame {oscillator next : Oscillator platform} {request : Request}
    {response : Response} (hkind : request.isSynthesis = false)
    (hstep : step platform oscillator request = some (next, response)) :
    StepFrame request oscillator next := by
  cases request with
  | synthesize keys order timestampNs => cases hkind
  | seedAccount account amount =>
    obtain ⟨rfl, -⟩ := Prod.mk.inj (Option.some.inj hstep)
    rw [seedAccount_eq]
    split_ifs <;> exact .of_eq rfl rfl rfl
  | markNonDecaying account =>
    obtain ⟨rfl, -⟩ := Prod.mk.inj (Option.some.inj hstep)
    exact .of_eq rfl rfl rfl
  | registerDomain policy registrant =>
    obtain ⟨rfl, -⟩ := Prod.mk.inj (Option.some.inj hstep)
    show StepFrame _ oscillator (oscillator.registerDomain policy registrant).1
    have houtcome := oscillator.registerDomain_outcome policy registrant
    generalize oscillator.registerDomain policy registrant = result at houtcome ⊢
    cases houtcome with
    | refused => exact .of_eq rfl rfl rfl
    | registered => exact ⟨rfl, fun hother ↦ absurd rfl (hother policy registrant), fun _ ↦ rfl⟩
  | ingest signal nowNs =>
    obtain ⟨rfl, -⟩ := Prod.mk.inj (Option.some.inj hstep)
    obtain ⟨_, _, _, _, hingest⟩ := oscillator.ingest_frame signal nowNs
    show StepFrame _ oscillator (oscillator.ingest signal nowNs).1
    rw [hingest]
    exact .of_eq rfl rfl rfl
  | applyStake stake =>
    obtain ⟨rfl, -⟩ := Prod.mk.inj (Option.some.inj hstep)
    show StepFrame _ oscillator (oscillator.applyStake stake).1
    have houtcome := oscillator.applyStake_outcome stake
    generalize oscillator.applyStake stake = result at houtcome ⊢
    cases houtcome with
    | refused => exact .of_eq rfl rfl rfl
    | repeated => exact .of_eq rfl rfl rfl
    | short => exact .of_eq rfl rfl rfl
    | raised => exact .of_eq rfl rfl rfl
    | lowered => exact .of_eq rfl rfl rfl
  | stake operator amount =>
    obtain ⟨rfl, -⟩ := Prod.mk.inj (Option.some.inj hstep)
    exact .of_eq rfl rfl rfl
  | applyRegistration reg =>
    obtain ⟨rfl, -⟩ := Prod.mk.inj (Option.some.inj hstep)
    rw [applyRegistration_eq]
    split_ifs <;> exact .of_eq rfl rfl rfl
  | ingestCertificate cert keys =>
    obtain ⟨rfl, -⟩ := Prod.mk.inj (Option.some.inj hstep)
    exact .of_eq rfl rfl rfl
  | submitEvm tx nowNs =>
    obtain ⟨rfl, -⟩ := Prod.mk.inj (Option.some.inj hstep)
    exact ⟨rfl, fun _ ↦ rfl, fun hother ↦ absurd rfl (hother tx nowNs)⟩

/-! ### Soundness of reachable states -/

/-- The invariant of runs: the DAG is well formed, and no node and no pending shift has amount
zero. -/
structure Sound (oscillator : Oscillator platform) : Prop where
  dag : VectorClockDag.WellFormed platform.primitives oscillator.dag
  node_amount : ∀ (hash : TxHash) (node : DagNode), oscillator.dag.nodes[hash]? = some node →
    0 < node.shift.amount
  pending_amount : ∀ shift ∈ oscillator.pendingStateful, 0 < shift.amount

/-- A new node is sound. -/
theorem sound_create (nttSize : ℕ) (operatorKeypair : Option KeyPair) (stakeTable : StakeTable) :
    Sound (create nttSize operatorKeypair stakeTable : Oscillator platform) where
  dag := VectorClockDag.wellFormed_new platform.primitives
  node_amount hash node hnode := by simp [create, VectorClockDag.new] at hnode
  pending_amount shift hshift := by simp [create] at hshift

/-- The DAG that the double-spend check sees is well formed. Assumes: the DAG of the oscillator is
well formed. -/
theorem wellFormed_checkedDag {oscillator : Oscillator platform}
    (hdag : VectorClockDag.WellFormed platform.primitives oscillator.dag) (keys : KeyRegistry) :
    VectorClockDag.WellFormed platform.primitives (oscillator.checkedDag keys) := by
  refine admitted_wellFormed _ _ _ _ (hdag.of_sameShape ?_)
  obtain ⟨balances, hsynced⟩ := oscillator.syncedDag_eq
  rw [hsynced]
  exact ⟨rfl, fun _ ↦ rfl⟩

/-- The DAG that the loop sees is well formed. Assumes: the DAG of the oscillator is well formed. -/
theorem wellFormed_preparedDag {oscillator : Oscillator platform}
    (hdag : VectorClockDag.WellFormed platform.primitives oscillator.dag) (keys : KeyRegistry)
    (order : SynthesisOrder) :
    VectorClockDag.WellFormed platform.primitives (oscillator.preparedDag keys order) :=
  (wellFormed_checkedDag hdag keys).of_sameShape (oscillator.sameShape_preparedDag keys order)

/-- Every request keeps the DAG well formed. Assumes: the DAG is well formed before, and the request
is served. -/
theorem wellFormed_step {oscillator next : Oscillator platform} {request : Request}
    {response : Response} (hdag : VectorClockDag.WellFormed platform.primitives oscillator.dag)
    (hstep : Consensus.step platform oscillator request = some (next, response)) :
    VectorClockDag.WellFormed platform.primitives next.dag := by
  rcases step_cases hstep with ⟨keys, order, timestampNs, result, hashes, -, hsynthesize⟩ |
    ⟨-, heffect⟩
  · exact (wellFormed_preparedDag hdag keys order).of_sameShape
      (synthesize_effect hsynthesize).sameShape
  · exact hdag.of_sameShape ⟨heffect.roots, fun hash ↦ by rw [heffect.nodes]⟩

namespace Sound

variable {oscillator : Oscillator platform} (hsound : Sound oscillator)

include hsound in
/-- The DAG that the loop of a sound state sees is well formed. -/
theorem preparedDag_wellFormed (keys : KeyRegistry) (order : SynthesisOrder) :
    VectorClockDag.WellFormed platform.primitives (oscillator.preparedDag keys order) :=
  wellFormed_preparedDag hsound.dag keys order

include hsound in
/-- The shift of a node that the loop sees has a positive amount. -/
theorem preparedDag_amount {keys : KeyRegistry} {order : SynthesisOrder} {hash : TxHash}
    {node : DagNode} (hnode : (oscillator.preparedDag keys order).nodes[hash]? = some node) :
    0 < node.shift.amount := by
  rw [getElem?_preparedDag, Option.map_eq_some_iff] at hnode
  obtain ⟨checked, hchecked, rfl⟩ := hnode
  rw [prepareNode_eq]
  rcases checkedDag_cases hchecked with ⟨old, hold, hcore⟩ | ⟨shift, hshift, depth, -, hcore⟩
  · show 0 < checked.shift.amount
    rw [← DagNode.core_shift, hcore]
    exact hsound.node_amount hash old hold
  · show 0 < checked.shift.amount
    rw [← DagNode.core_shift, hcore]
    exact hsound.pending_amount shift hshift

end Sound

/-- Every request keeps a node sound. -/
theorem Sound.step {oscillator next : Oscillator platform} {request : Request}
    {response : Response} (hsound : Sound oscillator)
    (hstep : Consensus.step platform oscillator request = some (next, response)) : Sound next := by
  have hdag := wellFormed_step hsound.dag hstep
  rcases step_cases hstep with ⟨keys, order, timestampNs, result, hashes, -, hsynthesize⟩ |
    ⟨-, heffect⟩
  · have heffect := synthesize_effect hsynthesize
    refine ⟨hdag, fun hash node hnode ↦ ?_, fun shift hshift ↦ ?_⟩
    · rw [heffect.nodes, getElem?_markApplied, Option.map_eq_some_iff] at hnode
      obtain ⟨before, hbefore, rfl⟩ := hnode
      have hamount := hsound.preparedDag_amount hbefore
      exact hamount
    · rw [heffect.pendingStateful] at hshift
      exact absurd hshift List.not_mem_nil
  · refine ⟨hdag, fun hash node hnode ↦ ?_, fun shift hshift ↦ ?_⟩
    · rw [heffect.nodes] at hnode
      exact hsound.node_amount hash node hnode
    · rcases heffect.queue with ⟨hqueue, -⟩ | ⟨pushed, hpushes⟩
      · rw [hqueue] at hshift
        exact hsound.pending_amount shift hshift
      · rw [hpushes.queue, List.mem_append, List.mem_singleton] at hshift
        rcases hshift with hold | rfl
        · exact hsound.pending_amount shift hold
        · exact hpushes.amount_pos

/-- Every state of every run of a new node is sound. -/
theorem sound_of_reaches {nttSize : ℕ} {operatorKeypair : Option KeyPair}
    {stakeTable : StakeTable} {allowed : Oscillator platform → Request → Prop}
    {history : List (Oscillator platform × Request)} {oscillator : Oscillator platform}
    (hreaches : Reaches (Consensus.step platform) allowed
      (create nttSize operatorKeypair stakeTable) history oscillator) : Sound oscillator :=
  hreaches.invariant (sound_create nttSize operatorKeypair stakeTable)
    fun _ _ _ _ _ hsound hstep ↦ hsound.step hstep

/-- In a sound state every node that the loop sees has its turn. Assumes: the synthesis returns. -/
theorem Sound.exists_turn {oscillator final : Oscillator platform} (hsound : Sound oscillator)
    {keys : KeyRegistry} {order : SynthesisOrder} {timestampNs : ℕ} {result : SynthesisResult}
    {hashes : List TxHash}
    (hsynthesize : oscillator.synthesize keys order timestampNs = some (final, result, hashes))
    {hash : TxHash} {node : DagNode}
    (hnode : (oscillator.preparedDag keys order).nodes[hash]? = some node) :
    ∃ before ledger, Turn oscillator keys order before hash ledger node := by
  obtain ⟨placed, horder, hperm, -⟩ :=
    (hsound.preparedDag_wellFormed keys order).topologicalOrder_eq_ok order.toDagOrder
  have hmem : hash ∈ placed := by
    rw [hperm.mem_iff, VectorClockDag.mem_hashes]
    exact mem_iff_exists_getElem?.mpr ⟨node, hnode⟩
  obtain ⟨before, after, hsplit⟩ := List.append_of_mem hmem
  rcases synthesize_cases hsynthesize with ⟨error, herror, -, -⟩ |
    ⟨placed', ledger, applied, root, decayed, rejected, horder', hloop, -⟩
  · rw [horder] at herror
    cases herror
  · rw [horder, Option.some.injEq, Except.ok.injEq] at horder'
    rw [← horder', hsplit, List.foldlM_append, Option.bind_eq_bind, Option.bind_eq_some_iff]
      at hloop
    obtain ⟨current, hcurrent, -⟩ := hloop
    exact ⟨before, current, ⟨after, by rw [horder, hsplit]⟩, hcurrent, hnode⟩

end Oscillator

/-! ### The topological order is total -/

/-- A list has every node of a DAG once, each one after all of its predecessors. -/
def VectorClockDag.Places (dag : VectorClockDag) (placed : List TxHash) : Prop :=
  placed.Nodup ∧ (∀ hash, hash ∈ placed ↔ hash ∈ dag.nodes) ∧
    ∀ before hash after, placed = before ++ hash :: after →
      ∀ predecessor, dag.Edge predecessor hash → predecessor ∈ before

/-- On a well-formed DAG the order places its nodes. Assumes: the DAG is well formed. -/
theorem VectorClockDag.WellFormed.exists_places {prim : Primitives} {dag : VectorClockDag}
    (hdag : WellFormed prim dag) (order : DagOrder) :
    ∃ placed, dag.topologicalOrder order = some (.ok placed) ∧ dag.Places placed := by
  obtain ⟨placed, horder, hperm, hsorted⟩ := hdag.topologicalOrder_eq_ok order
  refine ⟨placed, horder, hperm.nodup_iff.mpr dag.nodup_hashes, fun hash ↦ ?_, hsorted⟩
  rw [hperm.mem_iff, mem_hashes]

namespace Oscillator

variable {platform : Platform}

/-- After any insertions, and in every synthesis of every run of a new node, the order places every
node of the DAG, whatever the order of the hash tables. A synthesis of a run goes on to the loop
over this order. Assumes, of the synthesis: the node is reached by a run. -/
theorem topologicalOrder_total :
    (∀ (prim : Primitives) (calls : List VectorClockDag.InsertCall) (order : DagOrder),
      ∃ placed, (VectorClockDag.insertAll prim calls).topologicalOrder order =
        some (.ok placed) ∧ (VectorClockDag.insertAll prim calls).Places placed) ∧
    ∀ (nttSize : ℕ) (operatorKeypair : Option KeyPair) (stakeTable : StakeTable)
      (history : List (Oscillator platform × Request)) (oscillator : Oscillator platform),
      Reaches (Consensus.step platform) anyStep (create nttSize operatorKeypair stakeTable)
          history oscillator →
        ∀ (keys : KeyRegistry) (order : SynthesisOrder) (timestampNs : ℕ),
          ∃ placed, (oscillator.preparedDag keys order).topologicalOrder order.toDagOrder =
              some (.ok placed) ∧
            (oscillator.preparedDag keys order).Places placed ∧
            oscillator.synthesize keys order timestampNs =
              (placed.foldlM ((oscillator.prepared keys order).applyShift keys order)
                (oscillator.prepared keys order).openLedger).bind fun ledger ↦
                  (oscillator.prepared keys order).finish keys order oscillator.synthesisTick
                    timestampNs (oscillator.prepare keys order).2.1
                    (oscillator.prepare keys order).2.2.1 (oscillator.prepare keys order).2.2.2.1
                    (oscillator.prepare keys order).2.2.2.2 ledger := by
  constructor
  · exact fun prim calls order ↦
      (VectorClockDag.wellFormed_insertAll prim calls).exists_places order
  · intro nttSize operatorKeypair stakeTable history oscillator hreaches keys order timestampNs
    have hsound := sound_of_reaches hreaches
    obtain ⟨placed, horder, hplaces⟩ :=
      (hsound.preparedDag_wellFormed keys order).exists_places order.toDagOrder
    refine ⟨placed, horder, hplaces, ?_⟩
    rw [synthesize_eq, horder, Option.bind_some]

/-- A funded account whose second shift names the first one as its predecessor twice. -/
def linkedRun : List Request :=
  let first := StatefulShift.sample 1 400 [(1, 1)] [] 1 0
  [.seedAccount (sampleAccount 1) 1000,
    .ingest (.stateful first) 1, .sample,
    .ingest (.stateful (StatefulShift.sample 1 300 [(1, 2)]
      [first.hash .sample, first.hash .sample] 2 0)) 1]

/-- The synthesis after this run places two nodes. -/
theorem topologicalOrder_total_linkedRun :
    ∃ oscillator, run (Consensus.step Platform.sample) anyStep (newWithKeypair 8) linkedRun =
        some oscillator ∧
      (oscillator.preparedDag sampleKeys .forward).nodes.size = 2 ∧
      ∃ placed, (oscillator.preparedDag sampleKeys .forward).topologicalOrder
          SynthesisOrder.forward.toDagOrder = some (.ok placed) ∧
        (oscillator.preparedDag sampleKeys .forward).Places placed := by
  have hruns : ((run (Consensus.step Platform.sample) anyStep (newWithKeypair 8) linkedRun).map
      fun oscillator ↦ (oscillator.preparedDag sampleKeys .forward).nodes.size) = some 2 := by
    decide +kernel
  obtain ⟨oscillator, hrun, hsize⟩ := Option.map_eq_some_iff.mp hruns
  obtain ⟨history, -, hreaches⟩ := reaches_of_run hrun
  obtain ⟨placed, horder, hplaces, -⟩ :=
    (@topologicalOrder_total Platform.sample).2 _ _ _ _ _ hreaches sampleKeys .forward 0
  exact ⟨oscillator, hrun, hsize, placed, horder, hplaces⟩

end Oscillator

end Fluidic.Consensus
