import Fluidic.Library.CausalFold
import Fluidic.Consensus.Interference
import Fluidic.Consensus.RunInvariant

/-!
# Admission in another order

A synthesis moves the queued shifts into the DAG one by one, and a shift whose predecessors are not
in the DAG at its turn is refused. Two queues with the same shifts, in neither of which a shift
comes before one of its predecessors, give the DAG the same nodes (`alike_admitted`): neighbours
that are not predecessor and successor of each other can be exchanged.

The node stamps a shift with the time at which it first saw it, so the nodes of two DAGs are
compared up to these times: `Alike`. The double-spend check, the promotion and the arrangements that
are dominated read no such time.
-/

set_option autoImplicit false
set_option relaxedAutoImplicit false

namespace Fluidic.Consensus

open Library Crypto Fluidic.Field Value Operator
open Std (ExtTreeMap ExtTreeSet LawfulEqCmp)

/-! ### Nodes without local times -/

/-- A shift without the time at which a node first saw it. -/
def timelessShift (shift : StatefulShift) : StatefulShift := { shift with firstSeenAtNs := 0 }

/-- Shifts that are equal up to local times agree on everything that reads no such time. Assumes:
the view reads no local time, and the shifts are equal up to local times. -/
theorem congr_timelessShift {α : Type} (view : StatefulShift → α)
    (hview : ∀ shift, view (timelessShift shift) = view shift) {shift shift' : StatefulShift}
    (heq : timelessShift shift = timelessShift shift') : view shift = view shift' := by
  rw [← hview shift, heq, hview]

/-- A node of the DAG without the times at which its shift was first seen. -/
def DagNode.timeless (node : DagNode) : DagNode :=
  { node with shift := timelessShift node.shift, firstSeenAtNs := 0 }

/-- A node of the DAG without its applied flag. -/
def DagNode.unapplied (node : DagNode) : DagNode := { node with applied := false }

/-- Nodes that are equal up to local times agree on everything that reads no such time. Assumes: the
view reads no local time, and the nodes are equal up to local times. -/
theorem DagNode.congr_timeless {α : Type} (view : DagNode → α)
    (hview : ∀ node : DagNode, view node.timeless = view node) {node node' : DagNode}
    (heq : node'.timeless = node.timeless) : view node' = view node := by
  rw [← hview node', heq, hview]

/-- The node under a hash, without local times. -/
def VectorClockDag.timelessAt (dag : VectorClockDag) (hash : TxHash) : Option DagNode :=
  dag.nodes[hash]?.map DagNode.timeless

/-- Two DAGs have the same nodes up to local times. -/
def Alike (first second : VectorClockDag) : Prop :=
  ∀ hash, first.timelessAt hash = second.timelessAt hash

namespace Alike

variable {first second : VectorClockDag} (halike : Alike first second)

theorem equivalence : Equivalence Alike where
  refl _ _ := rfl
  symm halike hash := (halike hash).symm
  trans hfirst hsecond hash := (hfirst hash).trans (hsecond hash)

include halike in
/-- A node of the first DAG has a counterpart in the second. -/
theorem node {hash : TxHash} {node : DagNode} (hnode : first.nodes[hash]? = some node) :
    ∃ node', second.nodes[hash]? = some node' ∧ node'.timeless = node.timeless := by
  have hsame := halike hash
  unfold VectorClockDag.timelessAt at hsame
  rw [hnode, Option.map_some, eq_comm, Option.map_eq_some_iff] at hsame
  exact hsame

include halike in
theorem mem_iff (hash : TxHash) : hash ∈ second.nodes ↔ hash ∈ first.nodes := by
  have hsame := congrArg Option.isSome (halike hash)
  unfold VectorClockDag.timelessAt at hsame
  rw [Option.isSome_map, Option.isSome_map] at hsame
  rw [← ExtTreeMap.isSome_getElem?_iff_mem, ← ExtTreeMap.isSome_getElem?_iff_mem, hsame]

include halike in
theorem edge_iff (predecessor hash : TxHash) :
    second.Edge predecessor hash ↔ first.Edge predecessor hash := by
  constructor
  · rintro ⟨node, hnode, hmem⟩
    obtain ⟨node', hnode', heq⟩ := (equivalence.symm halike).node hnode
    have hpredecessors : node'.shift.predecessors = node.shift.predecessors :=
      DagNode.congr_timeless (fun node ↦ node.shift.predecessors) (fun _ ↦ rfl) heq
    exact ⟨node', hnode', by rwa [hpredecessors]⟩
  · rintro ⟨node, hnode, hmem⟩
    obtain ⟨node', hnode', heq⟩ := halike.node hnode
    have hpredecessors : node'.shift.predecessors = node.shift.predecessors :=
      DagNode.congr_timeless (fun node ↦ node.shift.predecessors) (fun _ ↦ rfl) heq
    exact ⟨node', hnode', by rwa [hpredecessors]⟩

include halike in
theorem clockOf_eq (hash : TxHash) : second.clockOf hash = first.clockOf hash := by
  unfold VectorClockDag.clockOf
  cases hfirst : first.nodes[hash]? with
  | none =>
    have hnone := halike hash
    unfold VectorClockDag.timelessAt at hnone
    rw [hfirst, Option.map_none, eq_comm, Option.map_eq_none_iff] at hnone
    rw [hnone]
  | some node =>
    obtain ⟨node', hsecond, heq⟩ := halike.node hfirst
    rw [hsecond]
    exact DagNode.congr_timeless (fun node ↦ node.shift.vectorClock) (fun _ ↦ rfl) heq

include halike in
/-- An arrangement dominated in one DAG is dominated in the other. -/
theorem dominated {arrangement : List TxHash} (hdominated : first.Dominated arrangement) :
    second.Dominated arrangement := by
  refine hdominated.congr halike.mem_iff halike.edge_iff fun one other ↦ ?_
  unfold VectorClockDag.precedes
  rw [halike.clockOf_eq, halike.clockOf_eq]

end Alike

/-! ### One admission -/

/-- Whether a shift of the queue becomes a new node. -/
def admits (prim : Primitives) (keys : KeyRegistry) (dag : VectorClockDag)
    (shift : StatefulShift) : Bool :=
  !isForged prim keys shift && !dag.nodes.contains (shift.hash prim) &&
    shift.predecessors.all fun predecessor ↦ dag.nodes.contains predecessor

/-- A shift has to come after another one, or has the same hash. -/
def Needs (prim : Primitives) (shift other : StatefulShift) : Prop :=
  other.hash prim ∈ shift.predecessors ∨ other.hash prim = shift.hash prim

/-- Two shifts become children of a node in either order. -/
theorem linked_comm (predecessors predecessors' : List TxHash) (hash hash' other : TxHash)
    (node : DagNode) :
    VectorClockDag.linked predecessors' hash' other
        (VectorClockDag.linked predecessors hash other node) =
      VectorClockDag.linked predecessors hash other
        (VectorClockDag.linked predecessors' hash' other node) := by
  unfold VectorClockDag.linked
  split_ifs
  · unfold DagNode.addChild
    congr 1
    ext child
    simp only [ExtTreeSet.mem_insert]
    tauto
  · rfl
  · rfl
  · rfl

/-- Linking a child reads no local time. -/
theorem timeless_comp_linked (predecessors : List TxHash) (hash other : TxHash) :
    DagNode.timeless ∘ VectorClockDag.linked predecessors hash other =
      VectorClockDag.linked predecessors hash other ∘ DagNode.timeless := by
  funext node
  show (VectorClockDag.linked predecessors hash other node).timeless =
    VectorClockDag.linked predecessors hash other node.timeless
  unfold VectorClockDag.linked
  split_ifs <;> rfl

namespace Oscillator

section Admission

variable (prim : Primitives) (registry : DomainRegistry) (keys : KeyRegistry) (tick : ℕ)

/-- What is under a hash after an admission. -/
theorem getElem?_admitShift (progress : VectorClockDag × List DagError) (shift : StatefulShift)
    (other : TxHash) :
    (admitShift prim registry keys tick progress shift).1.nodes[other]? =
      if admits prim keys progress.1 shift = true then
        if shift.hash prim = other then
          some (VectorClockDag.freshNode shift (shift.hash prim) tick
            (depthOf registry shift.domain))
        else progress.1.nodes[other]?.map
          (VectorClockDag.linked shift.predecessors (shift.hash prim) other)
      else progress.1.nodes[other]? := by
  unfold admitShift admits isForged
  cases keys[shift.sender]? with
  | none => simp
  | some publicKey =>
    dsimp only
    rcases VectorClockDag.insert_cases prim progress.1 shift publicKey tick
        (depthOf registry shift.domain) with ⟨hverify, hinsert⟩ | ⟨hverify, hmem, hinsert⟩ |
      ⟨hverify, hfresh, missing, hmissing, hgone, hinsert⟩ | ⟨hverify, hfresh, hall, hinsert⟩
    · rw [hinsert]
      simp [hverify, VectorClockDag.reject]
    · rw [hinsert]
      simp [hmem]
    · have hnot : ¬∀ predecessor ∈ shift.predecessors, predecessor ∈ progress.1.nodes :=
        fun hall ↦ hgone (hall missing hmissing)
      rw [hinsert]
      simp [hverify, VectorClockDag.reject, hnot]
    · rw [hinsert]
      have hunplaced : progress.1.nodes.contains (shift.hash prim) = false :=
        Bool.eq_false_iff.mpr fun hcontains ↦ hfresh (ExtTreeMap.mem_iff_contains.mpr hcontains)
      rw [if_pos (by simpa [hverify, hunplaced] using hall)]
      exact VectorClockDag.getElem?_link progress.1 shift (shift.hash prim) other tick _

/-- Whether another hash has a node after an admission. Assumes: the other hash is not that of the
shift. -/
theorem contains_admitShift (progress : VectorClockDag × List DagError) {shift : StatefulShift}
    {other : TxHash} (hne : shift.hash prim ≠ other) :
    (admitShift prim registry keys tick progress shift).1.nodes.contains other =
      progress.1.nodes.contains other := by
  rw [ExtTreeMap.contains_eq_isSome_getElem?, ExtTreeMap.contains_eq_isSome_getElem?,
    getElem?_admitShift, if_neg hne]
  split_ifs
  · exact Option.isSome_map
  · rfl

/-- Whether a shift becomes a node is not changed by an admission that it does not need. Assumes:
the shift does not need the other one. -/
theorem admits_admitShift (progress : VectorClockDag × List DagError)
    {shift other : StatefulShift} (hneeds : ¬Needs prim shift other) :
    admits prim keys (admitShift prim registry keys tick progress other).1 shift =
      admits prim keys progress.1 shift := by
  obtain ⟨hpredecessor, hhash⟩ := not_or.mp hneeds
  unfold admits
  rw [contains_admitShift prim registry keys tick progress hhash]
  congr 1
  refine Bool.eq_iff_iff.mpr ?_
  rw [List.all_eq_true, List.all_eq_true]
  refine forall₂_congr fun predecessor hmem ↦ ?_
  rw [contains_admitShift prim registry keys tick progress
    fun heq ↦ hpredecessor (heq ▸ hmem)]

/-- Two admissions commute. Assumes: neither shift needs the other. -/
theorem alike_admitShift_comm (progress : VectorClockDag × List DagError)
    {first second : StatefulShift} (hfirst : ¬Needs prim first second)
    (hsecond : ¬Needs prim second first) :
    Alike
      (admitShift prim registry keys tick
        (admitShift prim registry keys tick progress first) second).1
      (admitShift prim registry keys tick
        (admitShift prim registry keys tick progress second) first).1 := by
  obtain ⟨hpredecessor, hhash⟩ := not_or.mp hfirst
  obtain ⟨hpredecessor', hhash'⟩ := not_or.mp hsecond
  intro hash
  unfold VectorClockDag.timelessAt
  congr 1
  rw [getElem?_admitShift, getElem?_admitShift, getElem?_admitShift, getElem?_admitShift,
    admits_admitShift prim registry keys tick progress hfirst,
    admits_admitShift prim registry keys tick progress hsecond]
  by_cases hone : admits prim keys progress.1 first = true
  · by_cases htwo : admits prim keys progress.1 second = true
    · rw [if_pos hone, if_pos htwo, if_pos hone, if_pos htwo]
      by_cases hat : first.hash prim = hash
      · have hne : second.hash prim ≠ hash := fun heq ↦ hhash (heq.trans hat.symm)
        subst hat
        rw [if_neg hne, if_pos rfl, if_pos rfl, Option.map_some]
        unfold VectorClockDag.linked
        rw [if_neg hpredecessor']
      · by_cases hat' : second.hash prim = hash
        · subst hat'
          rw [if_pos rfl, if_neg hat, if_pos rfl, Option.map_some]
          unfold VectorClockDag.linked
          rw [if_neg hpredecessor]
        · rw [if_neg hat', if_neg hat, if_neg hat, if_neg hat', Option.map_map, Option.map_map]
          congr 1
          funext node
          exact linked_comm _ _ _ _ hash node
    · rw [if_neg htwo, if_neg htwo]
  · rw [if_neg hone, if_neg hone]

/-- Two DAGs that are alike stay so when shifts that are equal up to local times are admitted.
Assumes: the two DAGs are alike, and the two shifts differ in local times only. -/
theorem alike_admitShift {progress progress' : VectorClockDag × List DagError}
    (halike : Alike progress.1 progress'.1) {shift shift' : StatefulShift}
    (heq : timelessShift shift = timelessShift shift') :
    Alike (admitShift prim registry keys tick progress shift).1
      (admitShift prim registry keys tick progress' shift').1 := by
  have hhash : shift.hash prim = shift'.hash prim :=
    congr_timelessShift (StatefulShift.hash prim) (fun _ ↦ rfl) heq
  have hpredecessors : shift.predecessors = shift'.predecessors :=
    congr_timelessShift StatefulShift.predecessors (fun _ ↦ rfl) heq
  have hdomain : shift.domain = shift'.domain :=
    congr_timelessShift StatefulShift.domain (fun _ ↦ rfl) heq
  have hforged : isForged prim keys shift = isForged prim keys shift' :=
    congr_timelessShift (isForged prim keys) (fun _ ↦ rfl) heq
  have hcontains (hash : TxHash) :
      progress.1.nodes.contains hash = progress'.1.nodes.contains hash := by
    rw [Bool.eq_iff_iff]
    exact (halike.mem_iff hash).symm
  have hadmits : admits prim keys progress.1 shift = admits prim keys progress'.1 shift' := by
    unfold admits
    rw [hhash, hpredecessors, hforged, hcontains]
    simp only [hcontains]
  intro hash
  unfold VectorClockDag.timelessAt
  rw [getElem?_admitShift, getElem?_admitShift, hadmits, hhash, hpredecessors, hdomain]
  split_ifs with hadmitted hat
  · have hnode : (VectorClockDag.freshNode shift (shift'.hash prim) tick
        (depthOf registry shift'.domain)).timeless =
      VectorClockDag.freshNode (timelessShift shift) (shift'.hash prim) tick
        (depthOf registry shift'.domain) := rfl
    rw [Option.map_some, Option.map_some, hnode, heq]
    rfl
  · rw [Option.map_map, Option.map_map, timeless_comp_linked, ← Option.map_map, ← Option.map_map]
    exact congrArg _ (halike hash)
  · exact halike hash

/-- The local times of a queue do not matter to the nodes it gives. -/
theorem alike_timeless (queue : List StatefulShift) (progress : VectorClockDag × List DagError) :
    Alike (queue.foldl (admitShift prim registry keys tick) progress).1
      ((queue.map timelessShift).foldl (admitShift prim registry keys tick) progress).1 := by
  have hagree (progress progress' : VectorClockDag × List DagError)
      (halike : Alike progress.1 progress'.1) :
      Alike (queue.foldl (admitShift prim registry keys tick) progress).1
        ((queue.map timelessShift).foldl (admitShift prim registry keys tick) progress').1 := by
    induction queue generalizing progress progress' with
    | nil => exact halike
    | cons shift queue ih =>
      exact ih _ _ (alike_admitShift prim registry keys tick halike rfl)
  exact hagree progress progress (Alike.equivalence.refl _)

/-- Two queues with the same shifts up to local times give the DAG the same nodes. Assumes: in
neither queue a shift comes before one that it needs. -/
theorem alike_admitted {queue queue' : List StatefulShift}
    (hperm : (queue.map timelessShift).Perm (queue'.map timelessShift))
    (hqueue : queue.Pairwise fun earlier later ↦ ¬Needs prim earlier later)
    (hqueue' : queue'.Pairwise fun earlier later ↦ ¬Needs prim earlier later)
    (progress : VectorClockDag × List DagError) :
    Alike (queue.foldl (admitShift prim registry keys tick) progress).1
      (queue'.foldl (admitShift prim registry keys tick) progress).1 := by
  have hordered := @foldl_agree_of_perm StatefulShift (VectorClockDag × List DagError)
    (fun progress progress' ↦ Alike progress.1 progress'.1)
    (admitShift prim registry keys tick) (Needs prim)
    ⟨fun _ ↦ Alike.equivalence.refl _, Alike.equivalence.symm, Alike.equivalence.trans⟩
    (fun shift halike ↦ alike_admitShift prim registry keys tick halike rfl)
    (fun progress _ _ ↦ alike_admitShift_comm prim registry keys tick progress)
    _ _ hperm (List.pairwise_map.mpr hqueue) (List.pairwise_map.mpr hqueue') progress
  exact Alike.equivalence.trans (alike_timeless prim registry keys tick queue progress)
    (Alike.equivalence.trans hordered
      (Alike.equivalence.symm (alike_timeless prim registry keys tick queue' progress)))

end Admission

/-! ### The double-spend check and the promotion -/

/-- An entry of the DAG without local times. -/
def timelessEntry (entry : TxHash × DagNode) : TxHash × DagNode := (entry.1, entry.2.timeless)

/-- The DAG without local times. -/
def timelessDag (dag : VectorClockDag) : VectorClockDag :=
  { dag with nodes := dag.nodes.map fun _ node ↦ node.timeless }

theorem toList_timelessDag (dag : VectorClockDag) :
    (timelessDag dag).nodes.toList = dag.nodes.toList.map timelessEntry := by
  show (dag.nodes.map fun _ node ↦ node.timeless).toList = _
  rw [ExtTreeMap.toList_map]
  rfl

/-- The sum of concurrent amounts reads no local time. -/
theorem concurrentSum_timeless (first : DagNode) (entries : List (TxHash × DagNode)) :
    VectorClockDag.concurrentSum first.timeless (entries.map timelessEntry) =
      VectorClockDag.concurrentSum first entries := by
  unfold VectorClockDag.concurrentSum
  rw [List.filter_map, List.map_map]
  rfl

/-- What a sender has spent through a node reads no local time. -/
theorem spentThrough_timeless (dag : VectorClockDag) (first second : TxHash × DagNode) :
    (timelessDag dag).spentThrough (timelessEntry first) (timelessEntry second) =
      dag.spentThrough first second := by
  have hspends : (timelessDag dag).spendsOf first.2.shift.sender =
      (dag.spendsOf first.2.shift.sender).map timelessEntry := by
    unfold VectorClockDag.spendsOf
    rw [toList_timelessDag, List.filter_map]
    rfl
  have hbetween : ((timelessDag dag).spendsOf first.2.shift.sender).filter
      (VectorClockDag.between (timelessEntry first) (timelessEntry second)) =
        ((dag.spendsOf first.2.shift.sender).filter
          (VectorClockDag.between first second)).map timelessEntry := by
    rw [hspends, List.filter_map]
    rfl
  have hsum := concurrentSum_timeless first.2
    ((dag.spendsOf first.2.shift.sender).filter (VectorClockDag.between first second))
  rw [← hbetween] at hsum
  unfold VectorClockDag.spentThrough
  rw [← hsum]
  rfl

/-- The double-spend check reads no local time. -/
theorem isOverspent_timeless (dag : VectorClockDag) (second : TxHash × DagNode) :
    (timelessDag dag).isOverspent (timelessEntry second) = dag.isOverspent second := by
  unfold VectorClockDag.isOverspent
  rw [toList_timelessDag, List.any_map]
  congr 1
  funext first
  show (timelessDag dag).overspendsWith (timelessEntry second) (timelessEntry first) =
    dag.overspendsWith second first
  unfold VectorClockDag.overspendsWith
  rw [spentThrough_timeless]
  rfl

/-- Preparing a node reads no local time. -/
theorem prepareNode_timeless (dag : VectorClockDag) (tick : ℕ) (hash : TxHash) (node : DagNode) :
    (prepareNode dag tick hash node).timeless =
      prepareNode (timelessDag dag) tick hash node.timeless := by
  have hoverspent : (timelessDag dag).isOverspent (hash, node.timeless) =
      dag.isOverspent (hash, node) := isOverspent_timeless dag (hash, node)
  unfold prepareNode VectorClockDag.promoteNode
  rw [hoverspent]
  cases dag.isOverspent (hash, node) with
  | true => rfl
  | false =>
    simp only [Bool.false_eq_true, if_false]
    split_ifs <;> first | rfl | contradiction

/-- Preparing a node reads the nodes and the balances of the DAG. Assumes: the nodes and the
balances are the same. -/
theorem prepareNode_congr {first second : VectorClockDag} (hnodes : first.nodes = second.nodes)
    (hbalances : first.balances = second.balances) (tick : ℕ) (hash : TxHash) (node : DagNode) :
    prepareNode first tick hash node = prepareNode second tick hash node := by
  have hoverspent : first.isOverspent (hash, node) = second.isOverspent (hash, node) := by
    unfold VectorClockDag.isOverspent VectorClockDag.overspendsWith VectorClockDag.spentThrough
      VectorClockDag.spendsOf
    rw [hnodes, hbalances]
  unfold prepareNode
  rw [hoverspent]

/-- Preparing the nodes of two DAGs that are alike gives nodes that are alike. Assumes: the DAGs
have the same balances. -/
theorem prepare_alike {first second : VectorClockDag} (halike : Alike first second)
    (hbalances : first.balances = second.balances) (tick : ℕ) (hash : TxHash) :
    (first.nodes[hash]?.map (prepareNode first tick hash)).map DagNode.timeless =
      (second.nodes[hash]?.map (prepareNode second tick hash)).map DagNode.timeless := by
  have htimeless : (timelessDag first).nodes = (timelessDag second).nodes := by
    refine ExtTreeMap.ext_getElem? fun hash ↦ ?_
    have hsame := halike hash
    unfold VectorClockDag.timelessAt at hsame
    unfold timelessDag
    dsimp only
    rw [ExtTreeMap.getElem?_map, ExtTreeMap.getElem?_map]
    exact hsame
  have hprepare (dag : VectorClockDag) :
      DagNode.timeless ∘ prepareNode dag tick hash =
        prepareNode (timelessDag dag) tick hash ∘ DagNode.timeless :=
    funext fun node ↦ prepareNode_timeless dag tick hash node
  have hnode : prepareNode (timelessDag first) tick hash =
      prepareNode (timelessDag second) tick hash :=
    funext fun node ↦ prepareNode_congr htimeless hbalances tick hash node
  rw [Option.map_map, Option.map_map, hprepare, hprepare, hnode, ← Option.map_map,
    ← Option.map_map]
  exact congrArg _ (halike hash)

/-- The prepared DAGs of two nodes are alike. Assumes: their DAGs are alike after admission, with
the same balances, at the same tick. -/
theorem alike_preparedDag {platform : Platform} {oscillator oscillator' : Oscillator platform}
    {keys : KeyRegistry} (halike : Alike (oscillator.checkedDag keys) (oscillator'.checkedDag keys))
    (hbalances : (oscillator.checkedDag keys).balances = (oscillator'.checkedDag keys).balances)
    (htick : oscillator.synthesisTick = oscillator'.synthesisTick)
    (order order' : SynthesisOrder) :
    Alike (oscillator.preparedDag keys order) (oscillator'.preparedDag keys order') := by
  intro hash
  unfold VectorClockDag.timelessAt
  rw [getElem?_preparedDag, getElem?_preparedDag, htick]
  exact prepare_alike halike hbalances _ hash

end Oscillator

end Fluidic.Consensus
