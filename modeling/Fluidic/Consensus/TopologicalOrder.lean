import Fluidic.Consensus.DagInvariant

/-!
# The topological order of the DAG

Two questions about `topologicalOrder`. On a well-formed DAG it always returns every node once and
after all of its predecessors, whatever the order in which the hash tables are visited
(`topologicalOrder_eq_ok`). Whether it returns the same list for every such order is another matter:
`pickMinimalReady` compares a new node with the current one by `precedes`, causal precedence with
the hash as a tie-break between concurrent clocks, and that relation is not transitive. Where `a`
happened before `b`, `c` is concurrent with both and the hashes are ordered `b < c < a`, each of the
three precedes another one, and the pick depends on the order of the list.

`Dominated` is the condition under which this does not matter: the nodes can be arranged so that
each one precedes every other node that is ready with it. Where no arrangement is dominated, every
run of the loop passes over a node that precedes the one it takes (`PassesOver`).
-/

set_option autoImplicit false
set_option relaxedAutoImplicit false

namespace Fluidic.Consensus.VectorClockDag

open Library Crypto
open Std (ExtTreeMap ExtTreeSet LawfulEqCmp)

/-! ### The pick -/

/-- The clock of a node. -/
def clockOf (dag : VectorClockDag) (hash : TxHash) : VectorClock :=
  match dag.nodes[hash]? with
  | some node => node.shift.vectorClock
  | none => VectorClock.new

/-- The comparison of the pick: a node comes first when it happened before the other one, or when
the two are concurrent and it has the smaller hash. -/
def precedes (dag : VectorClockDag) (first second : TxHash) : Bool :=
  (dag.clockOf first).happenedBefore (dag.clockOf second) ||
    (dag.clockOf first).concurrentWith (dag.clockOf second) && decide (first < second)

/-- Two nodes do not precede each other. Assumes: the first precedes the second. -/
theorem precedes_asymm (dag : VectorClockDag) (first second : TxHash)
    (hfirst : dag.precedes first second = true) : dag.precedes second first = false := by
  rw [Bool.eq_false_iff]
  intro hsecond
  simp only [precedes, Bool.or_eq_true, Bool.and_eq_true, decide_eq_true_eq,
    VectorClock.concurrentWith, Bool.not_eq_true'] at hfirst hsecond
  rcases hfirst with hbefore | ⟨⟨hnot, hnot'⟩, hless⟩
  · rcases hsecond with hafter | ⟨⟨-, hnot⟩, -⟩
    · rw [VectorClock.happenedBefore_asymm hbefore] at hafter
      exact Bool.false_ne_true hafter
    · rw [hbefore] at hnot
      exact Bool.false_ne_true hnot.symm
  · rcases hsecond with hafter | ⟨-, hless'⟩
    · rw [hafter] at hnot'
      exact Bool.false_ne_true hnot'.symm
    · exact Nat.lt_asymm (BitVec.lt_def.mp hless) (BitVec.lt_def.mp hless')

/-- Of two different nodes one precedes the other. Assumes: the two nodes differ. -/
theorem precedes_total (dag : VectorClockDag) {first second : TxHash} (hne : first ≠ second) :
    dag.precedes first second = true ∨ dag.precedes second first = true := by
  simp only [precedes, Bool.or_eq_true, Bool.and_eq_true, decide_eq_true_eq,
    VectorClock.concurrentWith, Bool.not_eq_true']
  cases hforth : (dag.clockOf first).happenedBefore (dag.clockOf second) with
  | true => exact .inl (.inl rfl)
  | false =>
    cases hback : (dag.clockOf second).happenedBefore (dag.clockOf first) with
    | true => exact .inr (.inl rfl)
    | false =>
      rcases Nat.lt_or_gt_of_ne fun heq ↦ hne (BitVec.eq_of_toNat_eq heq) with hless | hless
      · exact .inl (.inr ⟨⟨rfl, rfl⟩, BitVec.lt_def.mpr hless⟩)
      · exact .inr (.inr ⟨⟨rfl, rfl⟩, BitVec.lt_def.mpr hless⟩)

/-- A hash of the DAG has a node, with the clock that it reads. Assumes: the hash is in the DAG. -/
theorem exists_node_clockOf {dag : VectorClockDag} {hash : TxHash} (hmem : hash ∈ dag.nodes) :
    ∃ node, dag.nodes[hash]? = some node ∧ node.shift.vectorClock = dag.clockOf hash := by
  obtain ⟨node, hnode⟩ := mem_iff_exists_getElem?.mp hmem
  refine ⟨node, hnode, ?_⟩
  rw [clockOf, hnode]

/-- What the pick does with one more node. -/
def pickStep (dag : VectorClockDag) (best : ℕ × TxHash × VectorClock) (entry : TxHash × ℕ) :
    Option (ℕ × TxHash × VectorClock) := do
  let node ← dag.nodes[entry.1]?
  let clock := node.shift.vectorClock
  if clock.happenedBefore best.2.2 then some (entry.2, entry.1, clock)
  else if clock.concurrentWith best.2.2 then
    if entry.1 < best.2.1 then some (entry.2, entry.1, clock) else some best
  else some best

/-- The pick goes on to a node that precedes the best one so far. Assumes: the node is in the DAG.
-/
theorem pickStep_eq {dag : VectorClockDag} {entry : TxHash × ℕ} (hmem : entry.1 ∈ dag.nodes)
    (best : TxHash × ℕ) :
    let next := if dag.precedes entry.1 best.1 then entry else best
    dag.pickStep (best.2, best.1, dag.clockOf best.1) entry =
      some (next.2, next.1, dag.clockOf next.1) := by
  obtain ⟨node, hnode, hclock⟩ := exists_node_clockOf hmem
  simp only [pickStep, hnode, bind, Option.bind_some, hclock]
  cases hbefore : (dag.clockOf entry.1).happenedBefore (dag.clockOf best.1) with
  | true =>
    have hprecedes : dag.precedes entry.1 best.1 = true := by
      rw [precedes, hbefore, Bool.true_or]
    simp only [hprecedes, if_true]
  | false =>
    have hprecedes : dag.precedes entry.1 best.1 =
        ((dag.clockOf entry.1).concurrentWith (dag.clockOf best.1) &&
          decide (entry.1 < best.1)) := by
      rw [precedes, hbefore, Bool.false_or]
    rw [hprecedes]
    cases hconcurrent : (dag.clockOf entry.1).concurrentWith (dag.clockOf best.1) with
    | false => simp only [Bool.false_eq_true, if_false, Bool.false_and]
    | true =>
      by_cases hless : entry.1 < best.1
      · simp only [Bool.false_eq_true, if_false, if_true, hless, decide_true, Bool.and_true]
      · simp only [Bool.false_eq_true, if_false, if_true, hless, decide_false, Bool.and_false]

/-- The loop of the pick keeps the best node of a scan. Assumes: the scanned elements are nodes. -/
theorem foldlM_pickStep {dag : VectorClockDag} {entries : List (TxHash × ℕ)}
    (hentries : ∀ entry ∈ entries, entry.1 ∈ dag.nodes) (best : TxHash × ℕ) :
    let last := entries.foldl
      (fun best entry ↦ if dag.precedes entry.1 best.1 then entry else best) best
    entries.foldlM dag.pickStep (best.2, best.1, dag.clockOf best.1) =
      some (last.2, last.1, dag.clockOf last.1) := by
  induction entries generalizing best with
  | nil => rfl
  | cons entry entries ih =>
    obtain ⟨hentry, hrest⟩ := List.forall_mem_cons.mp hentries
    rw [List.foldlM_cons, pickStep_eq hentry best, List.foldl_cons]
    exact ih hrest _

/-- On a list of nodes the pick is one scan for the node that precedes the others. Assumes: every
element of the list is a node. -/
theorem pickMinimalReady_eq_scan {dag : VectorClockDag} {first : TxHash} {rest : List TxHash}
    (hnodes : ∀ hash ∈ first :: rest, hash ∈ dag.nodes) :
    dag.pickMinimalReady (first :: rest) = some (scan dag.precedes first rest).2 := by
  obtain ⟨node, hnode, hclock⟩ := exists_node_clockOf (hnodes first List.mem_cons_self)
  have hrest : ∀ entry ∈ rest.zipIdx 1, entry.1 ∈ dag.nodes := fun entry hentry ↦ by
    refine hnodes _ (List.mem_cons_of_mem _ ?_)
    rw [← List.zipIdx_map_fst 1 rest]
    exact List.mem_map_of_mem hentry
  have hscan := foldlM_pickStep hrest (first, 0)
  have hpick : dag.pickMinimalReady (first :: rest) =
      (dag.nodes[first]?).bind fun node ↦
        ((rest.zipIdx 1).foldlM dag.pickStep (0, first, node.shift.vectorClock)).bind
          fun best ↦ some best.1 := rfl
  rw [hpick, hnode, Option.bind_some, hclock, hscan]
  rfl

/-- The pick finds an index of any nonempty list of nodes. Assumes: the list is not empty and its
elements are nodes. -/
theorem pickMinimalReady_eq_some {dag : VectorClockDag} {ready : List TxHash} (hne : ready ≠ [])
    (hnodes : ∀ hash ∈ ready, hash ∈ dag.nodes) :
    ∃ index hash, dag.pickMinimalReady ready = some index ∧ ready[index]? = some hash := by
  cases ready with
  | nil => exact absurd rfl hne
  | cons first rest =>
    exact ⟨_, _, pickMinimalReady_eq_scan hnodes, getElem?_scan dag.precedes first rest⟩

/-- The pick finds a node that precedes all the others. Assumes: the elements of the list are nodes,
and the winner is one of them and precedes the rest. -/
theorem pickMinimalReady_eq_winner {dag : VectorClockDag} {ready : List TxHash} {winner : TxHash}
    (hnodes : ∀ hash ∈ ready, hash ∈ dag.nodes) (hmem : winner ∈ ready)
    (hwins : ∀ other ∈ ready, other ≠ winner → dag.precedes winner other = true) :
    ∃ index, dag.pickMinimalReady ready = some index ∧ ready[index]? = some winner := by
  cases ready with
  | nil => exact absurd hmem List.not_mem_nil
  | cons first rest =>
    refine ⟨_, pickMinimalReady_eq_scan hnodes, ?_⟩
    rw [getElem?_scan, scan_eq_winner dag.precedes_asymm hmem hwins]

/-! ### The graph of a well-formed DAG -/

/-- The hashes of the DAG. -/
def hashes (dag : VectorClockDag) : List TxHash := dag.nodes.toList.map Prod.fst

@[simp] theorem mem_hashes (dag : VectorClockDag) (hash : TxHash) :
    hash ∈ dag.hashes ↔ hash ∈ dag.nodes := by
  rw [hashes, ExtTreeMap.map_fst_toList_eq_keys, ExtTreeMap.mem_keys]

theorem nodup_hashes (dag : VectorClockDag) : dag.hashes.Nodup := nodup_keys dag.nodes

theorem length_hashes (dag : VectorClockDag) : dag.hashes.length = dag.nodes.size := by
  rw [hashes, List.length_map, ExtTreeMap.length_toList]

/-- A child set is listed without repetitions. -/
theorem nodup_toList_children (children : ExtTreeSet TxHash) : children.toList.Nodup :=
  ExtTreeSet.distinct_toList.imp fun hne heq ↦ hne (LawfulEqCmp.compare_eq_iff_eq.mpr heq)

/-- The children of a node, in whatever order, are the hashes it is a predecessor of. Assumes: the
DAG is well formed. -/
theorem WellFormed.mem_childrenOf {prim : Primitives} {dag : VectorClockDag}
    (hdag : WellFormed prim dag) (order : DagOrder) {predecessor : TxHash}
    (hnode : predecessor ∈ dag.nodes) (hash : TxHash) :
    hash ∈ dag.childrenOf order predecessor ↔ dag.Edge predecessor hash := by
  obtain ⟨node, hlookup⟩ := mem_iff_exists_getElem?.mp hnode
  rw [childrenOf, hlookup]
  simp only [IterationOrder.mem_visit, ExtTreeSet.mem_toList]
  exact hdag.children_iff predecessor node hlookup hash

/-- The graph that the worklist runs on. -/
def WellFormed.graph {prim : Primitives} {dag : VectorClockDag} (hdag : WellFormed prim dag)
    (order : DagOrder) : Graph TxHash where
  nodes := dag.hashes
  children := dag.childrenOf order
  nodes_nodup := dag.nodup_hashes
  children_nodup hash hmem := by
    unfold childrenOf
    cases dag.nodes[hash]? with
    | none => exact List.nodup_nil
    | some node => exact (order.children hash).nodup_visit (nodup_toList_children node.children)
  children_mem hash hmem child hchild := by
    rw [mem_hashes] at hmem ⊢
    obtain ⟨node, hnode, -⟩ := (hdag.mem_childrenOf order hmem child).mp hchild
    exact mem_iff_exists_getElem?.mpr ⟨node, hnode⟩

section Graph

variable {prim : Primitives} {dag : VectorClockDag} (hdag : WellFormed prim dag) (order : DagOrder)

/-- The parents a node waits for are its predecessors that are not placed. -/
theorem WellFormed.waiting_eq_nil_iff (placed : List TxHash) (hash : TxHash) :
    (hdag.graph order).waiting placed hash = [] ↔
      ∀ predecessor, dag.Edge predecessor hash → predecessor ∈ placed := by
  rw [Graph.waiting_eq_nil_iff]
  constructor
  · intro hwaiting predecessor hedge
    have hmem := hdag.edge_mem predecessor hash hedge
    exact hwaiting predecessor ((mem_hashes dag predecessor).mpr hmem)
      ((hdag.mem_childrenOf order hmem hash).mpr hedge)
  · intro hplaced predecessor hmem hchild
    exact hplaced predecessor
      ((hdag.mem_childrenOf order ((mem_hashes dag predecessor).mp hmem) hash).mp hchild)

include hdag in
/-- A node has no predecessors exactly when it is a root. -/
theorem WellFormed.mem_roots_iff (hash : TxHash) :
    hash ∈ dag.roots ↔ hash ∈ dag.nodes ∧ ∀ predecessor, ¬ dag.Edge predecessor hash := by
  rw [hdag.roots_iff]
  constructor
  · rintro ⟨node, hnode, hroot⟩
    refine ⟨mem_iff_exists_getElem?.mpr ⟨node, hnode⟩, ?_⟩
    rintro predecessor ⟨node', hnode', hmem⟩
    rw [hnode] at hnode'
    rw [← Option.some.inj hnode', hroot] at hmem
    exact List.not_mem_nil hmem
  · rintro ⟨hmem, hnone⟩
    obtain ⟨node, hnode⟩ := mem_iff_exists_getElem?.mp hmem
    refine ⟨node, hnode, List.eq_nil_iff_forall_not_mem.mpr fun predecessor hpredecessor ↦ ?_⟩
    exact hnone predecessor ⟨node, hnode, hpredecessor⟩

/-- The counters at the start are the numbers of predecessors. -/
theorem WellFormed.inDegrees_eq : ∀ hash ∈ (hdag.graph order).nodes,
    dag.inDegrees[hash]? = some ((hdag.graph order).waiting [] hash).length := by
  refine Progress.inDegree_eq_waiting ?_ ?_
  · rw [List.map_map]
    rfl
  · intro entry hentry
    obtain ⟨⟨hash, node⟩, hnode, rfl⟩ := List.mem_map.mp hentry
    have hlookup : dag.nodes[hash]? = some node :=
      ExtTreeMap.mem_toList_iff_getElem?_eq_some.mp hnode
    have hchildren : (hdag.graph order).children hash =
        (order.children hash).visit node.children.toList := by
      show dag.childrenOf order hash = _
      rw [childrenOf, hlookup]
    rw [hchildren]
    exact ((order.children hash).visit_perm _).symm

/-- The worklist at the start satisfies the invariant of the loop. -/
theorem WellFormed.progress_initialQueue :
    Progress (hdag.graph order) (dag.initialQueue order) := by
  refine Progress.initial (hdag.inDegrees_eq order) ?_ fun hash ↦ ?_
  · exact (order.roots.nodup_visit (nodup_toList_children dag.roots)).filter _
  · have hnodes : hash ∈ (hdag.graph order).nodes ↔ hash ∈ dag.nodes := mem_hashes dag hash
    rw [List.mem_filter, IterationOrder.mem_visit, ExtTreeSet.mem_toList, hdag.mem_roots_iff,
      hnodes, hdag.waiting_eq_nil_iff order]
    simp only [List.not_mem_nil, imp_false, decide_eq_true_eq, and_iff_left_iff_imp, and_imp]
    intro hmem hnone
    have hdegree := hdag.inDegrees_eq order hash (hnodes.mpr hmem)
    rw [(hdag.waiting_eq_nil_iff order [] hash).mpr fun predecessor hedge ↦
      absurd hedge (hnone predecessor)] at hdegree
    rw [ExtTreeMap.getD_eq_getD_getElem?, hdegree]
    rfl

include hdag in
/-- On a well-formed DAG the order exists, has every node once, and has every node after its
predecessors. -/
theorem WellFormed.topologicalOrder_eq_ok :
    ∃ placed, dag.topologicalOrder order = some (.ok placed) ∧ placed.Perm dag.hashes ∧
      ∀ before hash after, placed = before ++ hash :: after →
        ∀ predecessor, dag.Edge predecessor hash → predecessor ∈ before := by
  obtain ⟨rank, hrank⟩ := hdag.ranked
  have hranked : ∀ hash ∈ (hdag.graph order).nodes, ∀ child ∈ (hdag.graph order).children hash,
      rank hash < rank child := fun hash hmem child hchild ↦
    hrank hash child ((hdag.mem_childrenOf order ((mem_hashes dag hash).mp hmem) child).mp hchild)
  have hpick : ∀ ready, ready ≠ [] → (∀ hash ∈ ready, hash ∈ (hdag.graph order).nodes) →
      ∃ index hash, dag.pickMinimalReady ready = some index ∧ ready[index]? = some hash :=
    fun ready hne hnodes ↦ pickMinimalReady_eq_some hne fun hash hmem ↦
      (mem_hashes dag hash).mp (hnodes hash hmem)
  have hfuel : (hdag.graph order).nodes.length ≤
      (dag.initialQueue order).order.length + dag.nodes.size :=
    le_of_le_of_eq (le_of_eq dag.length_hashes) (Nat.zero_add _).symm
  obtain ⟨placed, hdrain, hperm, hsorted⟩ :=
    Progress.drain_eq_some hranked hpick (hdag.progress_initialQueue order) hfuel
  refine ⟨placed, ?_, hperm, fun before hash after hsplit predecessor hedge ↦ ?_⟩
  · have hlength : placed.length = dag.nodes.size := by
      rw [hperm.length_eq]
      exact dag.length_hashes
    have hdrain' : drain dag.pickMinimalReady (dag.childrenOf order) dag.nodes.size
        (dag.initialQueue order) = some placed := hdrain
    rw [topologicalOrder, hdrain', Option.map_some, hlength]
    simp
  · have hmem := hdag.edge_mem predecessor hash hedge
    exact hsorted before hash after hsplit predecessor ((mem_hashes dag predecessor).mpr hmem)
      ((hdag.mem_childrenOf order hmem hash).mpr hedge)

end Graph

/-! ### When the order does not depend on the hash tables -/

/-- Two DAGs hold the same shifts under the same hashes. -/
def SameShifts (first second : VectorClockDag) : Prop :=
  ∀ hash : TxHash, first.nodes[hash]?.map DagNode.shift = second.nodes[hash]?.map DagNode.shift

/-- An arrangement of the nodes in which each node comes after its predecessors and precedes every
other node whose predecessors have all come before it as well. -/
def Dominated (dag : VectorClockDag) (arrangement : List TxHash) : Prop :=
  arrangement.Nodup ∧ (∀ hash, hash ∈ arrangement ↔ hash ∈ dag.nodes) ∧
  ∀ before hash after, arrangement = before ++ hash :: after →
    (∀ predecessor, dag.Edge predecessor hash → predecessor ∈ before) ∧
    ∀ other ∈ dag.nodes, other ∉ before → other ≠ hash →
      (∀ predecessor, dag.Edge predecessor other → predecessor ∈ before) →
      dag.precedes hash other = true

/-- An arrangement that takes a node although another node whose predecessors have all come before
precedes it. -/
def PassesOver (dag : VectorClockDag) (arrangement : List TxHash) : Prop :=
  ∃ before hash after other, arrangement = before ++ hash :: after ∧ other ∈ dag.nodes ∧
    other ∉ before ∧ (∀ predecessor, dag.Edge predecessor other → predecessor ∈ before) ∧
    dag.precedes other hash = true

/-- Every DAG built by insertions that holds the same shifts gives the same order, for all orders in
which the hash tables of the two may be visited. -/
def OrderIndependent (prim : Primitives) (dag : VectorClockDag) : Prop :=
  ∀ (calls : List InsertCall) (order order' : DagOrder), SameShifts dag (insertAll prim calls) →
    dag.topologicalOrder order = (insertAll prim calls).topologicalOrder order'

/-- An arrangement is dominated in a DAG with the same nodes, edges and causal precedence. Assumes:
the two DAGs have the same nodes, edges and causal precedence. -/
theorem Dominated.congr {first second : VectorClockDag}
    (hmem : ∀ hash, hash ∈ second.nodes ↔ hash ∈ first.nodes)
    (hedge : ∀ predecessor hash, second.Edge predecessor hash ↔ first.Edge predecessor hash)
    (hprecedes : ∀ one other, second.precedes one other = first.precedes one other)
    {arrangement : List TxHash} (hdominated : first.Dominated arrangement) :
    second.Dominated arrangement := by
  obtain ⟨hnodup, hplaced, hturn⟩ := hdominated
  refine ⟨hnodup, fun hash ↦ (hplaced hash).trans (hmem hash).symm,
    fun before hash after hsplit ↦ ?_⟩
  obtain ⟨hready, hbeats⟩ := hturn before hash after hsplit
  refine ⟨fun predecessor hparent ↦ hready predecessor ((hedge _ _).mp hparent),
    fun other hother hfresh hne hparents ↦ ?_⟩
  rw [hprecedes]
  exact hbeats other ((hmem other).mp hother) hfresh hne
    fun predecessor hparent ↦ hparents predecessor ((hedge _ _).mpr hparent)

namespace SameShifts

variable {first second : VectorClockDag} (hsame : SameShifts first second)

include hsame in
theorem symm : SameShifts second first := fun hash ↦ (hsame hash).symm

include hsame in
theorem mem_iff (hash : TxHash) : hash ∈ second.nodes ↔ hash ∈ first.nodes := by
  have hsome := congrArg Option.isSome (hsame hash)
  simp only [Option.isSome_map] at hsome
  rw [← ExtTreeMap.isSome_getElem?_iff_mem, ← ExtTreeMap.isSome_getElem?_iff_mem, hsome]

include hsame in
theorem edge_iff (predecessor hash : TxHash) :
    second.Edge predecessor hash ↔ first.Edge predecessor hash := by
  have hshift := hsame hash
  unfold Edge
  cases hfirst : first.nodes[hash]? with
  | none =>
    rw [hfirst, Option.map_none, eq_comm, Option.map_eq_none_iff] at hshift
    simp [hshift]
  | some node =>
    rw [hfirst, Option.map_some, eq_comm, Option.map_eq_some_iff] at hshift
    obtain ⟨node', hsecond, hshift⟩ := hshift
    simp [hsecond, hshift]

include hsame in
theorem clockOf_eq (hash : TxHash) : second.clockOf hash = first.clockOf hash := by
  have hshift := hsame hash
  unfold clockOf
  cases hfirst : first.nodes[hash]? with
  | none =>
    rw [hfirst, Option.map_none, eq_comm, Option.map_eq_none_iff] at hshift
    simp [hshift]
  | some node =>
    rw [hfirst, Option.map_some, eq_comm, Option.map_eq_some_iff] at hshift
    obtain ⟨node', hsecond, hshift⟩ := hshift
    simp [hsecond, hshift]

include hsame in
theorem precedes_eq (one other : TxHash) :
    second.precedes one other = first.precedes one other := by
  simp only [precedes, hsame.clockOf_eq]

include hsame in
/-- A dominated arrangement of one DAG is one of the other. -/
theorem dominated {arrangement : List TxHash} (hdominated : first.Dominated arrangement) :
    second.Dominated arrangement :=
  hdominated.congr hsame.mem_iff hsame.edge_iff hsame.precedes_eq

end SameShifts

/-- A dominated arrangement is the topological order, for every order in which the hash tables are
visited. Assumes: the DAG is well formed and the arrangement is dominated. -/
theorem WellFormed.topologicalOrder_of_dominated {prim : Primitives} {dag : VectorClockDag}
    (hdag : WellFormed prim dag) (order : DagOrder) {arrangement : List TxHash}
    (hdominated : dag.Dominated arrangement) :
    dag.topologicalOrder order = some (.ok arrangement) := by
  obtain ⟨hnodup, hmem, hturn⟩ := hdominated
  have hlength : arrangement.length = dag.nodes.size := by
    rw [← dag.length_hashes]
    refine ((List.perm_ext_iff_of_nodup hnodup dag.nodup_hashes).mpr fun hash ↦ ?_).length_eq
    rw [hmem, mem_hashes]
  have hpick : ∀ ready winner, ready.Nodup →
      (∀ hash ∈ ready, hash ∈ (hdag.graph order).nodes) → winner ∈ ready →
      (∀ other ∈ ready, other ≠ winner → dag.precedes winner other = true) →
      ∃ index, dag.pickMinimalReady ready = some index ∧ ready[index]? = some winner :=
    fun ready winner _ hnodes hwinner hwins ↦ pickMinimalReady_eq_winner
      (fun hash hhash ↦ (mem_hashes dag hash).mp (hnodes hash hhash)) hwinner hwins
  have hdominant : ∀ before hash after, arrangement = before ++ hash :: after →
      hash ∈ (hdag.graph order).nodes ∧ hash ∉ before ∧
      (hdag.graph order).waiting before hash = [] ∧
      ∀ other ∈ (hdag.graph order).nodes, other ∉ before → other ≠ hash →
        (hdag.graph order).waiting before other = [] → dag.precedes hash other = true := by
    intro before hash after hsplit
    obtain ⟨hready, hbeats⟩ := hturn before hash after hsplit
    have hin : hash ∈ arrangement := by
      rw [hsplit]
      exact List.mem_append_right _ List.mem_cons_self
    refine ⟨(mem_hashes dag hash).mpr ((hmem hash).mp hin), fun hbefore ↦ ?_,
      (hdag.waiting_eq_nil_iff order before hash).mpr hready, ?_⟩
    · rw [hsplit] at hnodup
      exact (List.nodup_append.mp hnodup).2.2 hash hbefore hash List.mem_cons_self rfl
    · intro other hother hfresh hne hwaiting
      exact hbeats other ((mem_hashes dag other).mp hother) hfresh hne
        ((hdag.waiting_eq_nil_iff order before other).mp hwaiting)
  have hdrain : drain dag.pickMinimalReady (dag.childrenOf order) dag.nodes.size
      (dag.initialQueue order) = some arrangement :=
    Progress.drain_eq_of_dominant hpick hdominant
      (fun hash hhash ↦ (hmem hash).mpr ((mem_hashes dag hash).mp hhash))
      (hdag.progress_initialQueue order) (List.nil_append arrangement).symm (le_of_eq hlength)
  rw [topologicalOrder, hdrain, Option.map_some, hlength]
  simp

/-- A topological order that passes no node over is a dominated arrangement. Assumes: the DAG is
well formed, the list is its order for some order of the hash tables, and it passes no node over. -/
theorem WellFormed.dominated_of_not_passesOver {prim : Primitives} {dag : VectorClockDag}
    (hdag : WellFormed prim dag) {order : DagOrder} {placed : List TxHash}
    (hplaced : dag.topologicalOrder order = some (.ok placed)) (hnone : ¬ dag.PassesOver placed) :
    dag.Dominated placed := by
  obtain ⟨placed', hplaced', hperm, hsorted⟩ := hdag.topologicalOrder_eq_ok order
  rw [hplaced, Option.some.injEq] at hplaced'
  rw [← Except.ok.inj hplaced'] at hperm hsorted
  refine ⟨hperm.nodup_iff.mpr dag.nodup_hashes, fun hash ↦ by rw [hperm.mem_iff, mem_hashes],
    fun before hash after hsplit ↦ ⟨hsorted before hash after hsplit,
      fun other hother hfresh hne hready ↦ ?_⟩⟩
  refine (dag.precedes_total hne).resolve_left fun hprecedes ↦ ?_
  exact hnone ⟨before, hash, after, other, hsplit, hother, hfresh, hready, hprecedes⟩

/-! ### DAGs without edges -/

/-- Without edges, an arrangement sorted by precedence is dominated. Assumes: there are no edges,
and the arrangement has the nodes and is sorted. -/
theorem dominated_of_sorted {dag : VectorClockDag}
    (hedges : ∀ predecessor hash, ¬ dag.Edge predecessor hash) {arrangement : List TxHash}
    (hperm : arrangement.Perm dag.hashes)
    (hsorted : arrangement.Pairwise fun earlier later ↦ dag.precedes earlier later = true) :
    dag.Dominated arrangement := by
  have hmem (hash : TxHash) : hash ∈ arrangement ↔ hash ∈ dag.nodes :=
    hperm.mem_iff.trans (dag.mem_hashes hash)
  refine ⟨hperm.nodup_iff.mpr dag.nodup_hashes, hmem, fun before hash after hsplit ↦
    ⟨fun predecessor hedge ↦ absurd hedge (hedges predecessor hash),
      fun other hother hfresh hne _ ↦ ?_⟩⟩
  rw [hsplit] at hsorted
  have hplaced := (hmem other).mpr hother
  rw [hsplit, List.mem_append, List.mem_cons] at hplaced
  have hafter := (hplaced.resolve_left hfresh).resolve_left hne
  exact (List.pairwise_cons.mp (List.pairwise_append.mp hsorted).2.1).1 other hafter

/-- In a DAG without edges no node has children. Assumes: the DAG is well formed and has no edges.
-/
theorem WellFormed.childrenOf_eq_nil {prim : Primitives} {dag : VectorClockDag}
    (hdag : WellFormed prim dag) (hedges : ∀ predecessor hash, ¬ dag.Edge predecessor hash)
    (order : DagOrder) : dag.childrenOf order = fun _ ↦ [] := by
  funext hash
  by_cases hmem : hash ∈ dag.nodes
  · refine List.eq_nil_iff_forall_not_mem.mpr fun child hchild ↦ ?_
    exact hedges hash child ((hdag.mem_childrenOf order hmem child).mp hchild)
  · rw [childrenOf, ExtTreeMap.getElem?_eq_none hmem]

/-- In a DAG without edges the worklist starts with all nodes, in the order in which the roots are
visited. Assumes: the DAG is well formed and has no edges. -/
theorem WellFormed.initialQueue_ready {prim : Primitives} {dag : VectorClockDag}
    (hdag : WellFormed prim dag) (hedges : ∀ predecessor hash, ¬ dag.Edge predecessor hash)
    (order : DagOrder) :
    (dag.initialQueue order).ready = order.roots.visit dag.roots.toList := by
  refine List.filter_eq_self.mpr fun hash hmem ↦ ?_
  rw [IterationOrder.mem_visit, ExtTreeSet.mem_toList] at hmem
  have hnode := ((hdag.mem_roots_iff hash).mp hmem).1
  have hdegree := hdag.inDegrees_eq order hash ((mem_hashes dag hash).mpr hnode)
  rw [(hdag.waiting_eq_nil_iff order [] hash).mpr fun predecessor hedge ↦
    absurd hedge (hedges predecessor hash)] at hdegree
  rw [decide_eq_true_eq, ExtTreeMap.getD_eq_getD_getElem?, hdegree]
  rfl

/-- In a DAG without edges, a node that another one precedes comes after it in the order that visits
the two first. Assumes: the DAG is well formed and has no edges, and the second node precedes the
first. -/
theorem WellFormed.exists_order_precedes {prim : Primitives} {dag : VectorClockDag}
    (hdag : WellFormed prim dag) (hedges : ∀ predecessor hash, ¬ dag.Edge predecessor hash)
    {first second : TxHash} (hfirst : first ∈ dag.nodes) (hsecond : second ∈ dag.nodes)
    (hne : first ≠ second) (hprecedes : dag.precedes second first = true) :
    ∃ order before after, dag.topologicalOrder order = some (.ok (before ++ second :: after)) ∧
      first ∉ before := by
  have hroot : ∀ hash, hash ∈ dag.roots.toList ↔ hash ∈ dag.nodes := fun hash ↦ by
    rw [ExtTreeSet.mem_toList, hdag.mem_roots_iff]
    exact and_iff_left fun predecessor ↦ hedges predecessor hash
  have hrootsNodup := nodup_toList_children dag.roots
  set others := dag.roots.toList.filter fun hash ↦ decide (hash ≠ first ∧ hash ≠ second)
    with hothers
  have harranged : (first :: second :: others).Perm dag.roots.toList := by
    refine (List.perm_ext_iff_of_nodup ?_ hrootsNodup).mpr fun hash ↦ ?_
    · simp [hothers, hne, hrootsNodup.filter]
    · simp only [List.mem_cons, hothers, List.mem_filter, decide_eq_true_eq, hroot]
      constructor
      · rintro (rfl | rfl | ⟨hmem, -⟩)
        · exact hfirst
        · exact hsecond
        · exact hmem
      · intro hmem
        by_cases hisFirst : hash = first
        · exact .inl hisFirst
        · by_cases hisSecond : hash = second
          · exact .inr (.inl hisSecond)
          · exact .inr (.inr ⟨hmem, hisFirst, hisSecond⟩)
  set order : DagOrder :=
    ⟨IterationOrder.arranging (first :: second :: others), fun _ ↦ default, default⟩ with horder
  have hready : (dag.initialQueue order).ready = first :: second :: others := by
    rw [hdag.initialQueue_ready hedges order]
    exact IterationOrder.visit_arranging harranged
  have hnodes : ∀ hash ∈ (dag.initialQueue order).ready, hash ∈ dag.nodes := by
    intro hash hmem
    rw [hready, harranged.mem_iff] at hmem
    exact (hroot hash).mp hmem
  have hpick : ∀ rest index, (∀ hash ∈ first :: second :: rest, hash ∈ dag.nodes) →
      dag.pickMinimalReady (first :: second :: rest) = some index → index ≠ 0 := by
    intro rest index hrest hindex
    rw [pickMinimalReady_eq_scan hrest, Option.some.injEq] at hindex
    rw [← hindex]
    exact scan_index_ne_zero hprecedes
  obtain ⟨placed, hplaced, -, -⟩ := hdag.topologicalOrder_eq_ok order
  have hdrain := hplaced
  rw [topologicalOrder, hdag.childrenOf_eq_nil hedges order, Option.map_eq_some_iff] at hdrain
  obtain ⟨placed', hdrain, hresult⟩ := hdrain
  obtain ⟨before, after, hsplit, hbefore⟩ := drain_precedes hpick hready
    (hready ▸ harranged.nodup_iff.mpr hrootsNodup) hnodes hdrain
  refine ⟨order, before, after, ?_, hbefore⟩
  have hqueue : (dag.initialQueue order).order = [] := rfl
  rw [hqueue, List.nil_append] at hsplit
  split_ifs at hresult with hlength
  rw [hplaced, ← Except.ok.inj hresult, hsplit]

/-- In a DAG without edges, an order that does not depend on the hash tables is a dominated
arrangement. Assumes: the DAG is built by insertions, has no edges and has such an order. -/
theorem exists_dominated_of_orderIndependent {prim : Primitives} {calls : List InsertCall}
    (hedges : ∀ predecessor hash, ¬ (insertAll prim calls).Edge predecessor hash)
    (hindependent : OrderIndependent prim (insertAll prim calls)) :
    ∃ arrangement, (insertAll prim calls).Dominated arrangement := by
  have hdag := wellFormed_insertAll prim calls
  set dag := insertAll prim calls with hdagEq
  obtain ⟨placed, hplaced, hperm, -⟩ :=
    hdag.topologicalOrder_eq_ok ⟨default, fun _ ↦ default, default⟩
  refine ⟨placed, hdag.dominated_of_not_passesOver hplaced ?_⟩
  rintro ⟨before, hash, after, other, hsplit, hother, hfresh, -, hprecedes⟩
  have hhash : hash ∈ dag.nodes := by
    rw [← mem_hashes, ← hperm.mem_iff, hsplit]
    exact List.mem_append_right _ List.mem_cons_self
  have hne : other ≠ hash := by
    rintro rfl
    exact Bool.false_ne_true ((dag.precedes_asymm other other hprecedes).symm.trans hprecedes)
  obtain ⟨order, before', after', horder, hwaits⟩ :=
    hdag.exists_order_precedes hedges hhash hother (Ne.symm hne) hprecedes
  have hequal := hindependent calls ⟨default, fun _ ↦ default, default⟩ order fun _ ↦ rfl
  rw [hplaced, horder, Option.some.injEq] at hequal
  have hlists : before ++ hash :: after = before' ++ other :: after' := by
    rw [← hsplit]
    exact Except.ok.inj hequal
  rcases List.append_eq_append_iff.mp hlists with ⟨middle, hbefore, hrest⟩ |
    ⟨middle, hbefore, hrest⟩
  · cases middle with
    | nil => exact hne (List.cons.inj hrest).1.symm
    | cons head middle =>
      refine hwaits ?_
      rw [hbefore, (List.cons.inj hrest).1]
      exact List.mem_append_right _ List.mem_cons_self
  · cases middle with
    | nil => exact hne (List.cons.inj hrest).1
    | cons head middle =>
      refine hfresh ?_
      rw [hbefore, (List.cons.inj hrest).1]
      exact List.mem_append_right _ List.mem_cons_self

/-- When the execution order does not depend on the hash tables: a dominated arrangement of the
nodes is enough, and for shifts without predecessor edges it is exactly what is needed. Where there
is none, every order of the hash tables makes the loop pass a node over. -/
theorem orderIndependent_of_dominated (prim : Primitives) (calls : List InsertCall) :
    ((∃ arrangement, (insertAll prim calls).Dominated arrangement) →
      OrderIndependent prim (insertAll prim calls)) ∧
    ((∀ predecessor hash, ¬ (insertAll prim calls).Edge predecessor hash) →
      (OrderIndependent prim (insertAll prim calls) ↔
        ∃ arrangement, (insertAll prim calls).Dominated arrangement)) ∧
    ((¬ ∃ arrangement, (insertAll prim calls).Dominated arrangement) → ∀ order, ∃ placed,
      (insertAll prim calls).topologicalOrder order = some (.ok placed) ∧
      (insertAll prim calls).PassesOver placed) := by
  have hdag := wellFormed_insertAll prim calls
  have hsufficient : (∃ arrangement, (insertAll prim calls).Dominated arrangement) →
      OrderIndependent prim (insertAll prim calls) := by
    rintro ⟨arrangement, hdominated⟩ calls' order order' hsame
    rw [hdag.topologicalOrder_of_dominated order hdominated,
      (wellFormed_insertAll prim calls').topologicalOrder_of_dominated order'
        (hsame.dominated hdominated)]
  refine ⟨hsufficient, fun hedges ↦ ⟨fun hindependent ↦ ?_, hsufficient⟩, fun hnone order ↦ ?_⟩
  · exact exists_dominated_of_orderIndependent hedges hindependent
  · obtain ⟨placed, hplaced, -, -⟩ := hdag.topologicalOrder_eq_ok order
    refine ⟨placed, hplaced, ?_⟩
    by_contra hpassed
    exact hnone ⟨placed, hdag.dominated_of_not_passesOver hplaced hpassed⟩

/-- Three signed shifts without predecessors: the first happened before the second, the third is
concurrent with both, and the hash of the third lies between those of the second and the first. -/
def racingCalls : List InsertCall :=
  [([(1, 1)], 1), ([(1, 1), (2, 1)], 2), ([(3, 1)], 3)].map fun (times, seed) ↦
    { shift := StatefulShift.sample seed 1 times [] 1 2
      publicKey := BitVec.ofNat 256 seed
      tick := 0
      depth := 3 }

/-- Three racing shifts are ordered in two ways, by two orders of the same hash set of roots. -/
theorem racingCalls_not_orderIndependent :
    ¬ OrderIndependent Primitives.sample (insertAll Primitives.sample racingCalls) := by
  intro hindependent
  have hequal := hindependent racingCalls ⟨.forward, fun _ ↦ .forward, .forward⟩
    ⟨.backward, fun _ ↦ .forward, .forward⟩ fun _ ↦ rfl
  revert hequal
  decide +kernel

end Fluidic.Consensus.VectorClockDag
