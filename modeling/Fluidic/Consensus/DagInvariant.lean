import Fluidic.Consensus.Dag
import Mathlib.Logic.Relation
import Mathlib.Algebra.Order.BigOperators.Group.List

/-!
# The representation invariant of the DAG

An insertion updates the nodes, the children of the predecessors and the roots together, and has
three exits. `WellFormed` says how these structures fit together after any number of insertions:
nodes are stored under their own hashes, predecessors are nodes, children are the converse of
predecessors, roots are the nodes without predecessors, and edges raise a rank. Nothing is assumed
about the hash function: two shifts may collide.

`insert_cases` says once what an insertion can do, and `WellFormed.insert` is the step of the
invariant. The other operations on the DAG change statuses, flags and balances only;
`WellFormed.of_sameShape` carries the invariant over them.
-/

set_option autoImplicit false
set_option relaxedAutoImplicit false

namespace Fluidic.Consensus.VectorClockDag

open Library Crypto
open Std (ExtTreeMap ExtTreeSet LawfulEqCmp)

/-! ### Edges and the invariant -/

/-- A hash is a declared predecessor of a node. -/
def Edge (dag : VectorClockDag) (predecessor hash : TxHash) : Prop :=
  ∃ node : DagNode, dag.nodes[hash]? = some node ∧ predecessor ∈ node.shift.predecessors

/-- How the nodes, children and roots of a DAG fit together. -/
structure WellFormed (prim : Primitives) (dag : VectorClockDag) : Prop where
  stored_hash : ∀ hash (node : DagNode), dag.nodes[hash]? = some node →
    node.hash = hash ∧ node.shift.hash prim = hash
  edge_mem : ∀ predecessor hash, dag.Edge predecessor hash → predecessor ∈ dag.nodes
  children_iff : ∀ predecessor (node : DagNode), dag.nodes[predecessor]? = some node →
    ∀ hash, hash ∈ node.children ↔ dag.Edge predecessor hash
  roots_iff : ∀ hash, hash ∈ dag.roots ↔
    ∃ node : DagNode, dag.nodes[hash]? = some node ∧ node.shift.predecessors = []
  ranked : ∃ rank : TxHash → ℕ, ∀ predecessor hash, dag.Edge predecessor hash →
    rank predecessor < rank hash

/-- The empty DAG is well formed. -/
theorem wellFormed_new (prim : Primitives) : WellFormed prim new where
  stored_hash hash node hnode := by simp [new] at hnode
  edge_mem predecessor hash hedge := by
    obtain ⟨node, hnode, -⟩ := hedge
    simp [new] at hnode
  children_iff predecessor node hnode := by simp [new] at hnode
  roots_iff hash := by simp [new]
  ranked := ⟨fun _ ↦ 0, fun predecessor hash hedge ↦ by
    obtain ⟨node, hnode, -⟩ := hedge
    simp [new] at hnode⟩

/-- No node of a well-formed DAG precedes itself, however long the path. Assumes: the DAG is well
formed. -/
theorem WellFormed.acyclic {prim : Primitives} {dag : VectorClockDag} (hdag : WellFormed prim dag)
    (hash : TxHash) : ¬ Relation.TransGen dag.Edge hash hash := by
  obtain ⟨rank, hrank⟩ := hdag.ranked
  have hpath : ∀ first last, Relation.TransGen dag.Edge first last → rank first < rank last := by
    intro first last hpath
    induction hpath with
    | single hedge => exact hrank _ _ hedge
    | tail _ hedge ih => exact lt_trans ih (hrank _ _ hedge)
  exact fun hcycle ↦ lt_irrefl _ (hpath hash hash hcycle)

/-! ### Operations that keep the shape -/

/-- What the shape of the DAG depends on in a node: its hash, its shift and its children. -/
def shape (node : DagNode) : TxHash × StatefulShift × ExtTreeSet TxHash :=
  (node.hash, node.shift, node.children)

/-- Two DAGs have the same roots and, under each hash, nodes of the same shape. -/
structure SameShape (first second : VectorClockDag) : Prop where
  roots : second.roots = first.roots
  nodes : ∀ hash : TxHash, second.nodes[hash]?.map shape = first.nodes[hash]?.map shape

namespace SameShape

theorem refl (dag : VectorClockDag) : SameShape dag dag := ⟨rfl, fun _ ↦ rfl⟩

theorem trans {first second third : VectorClockDag} (hfirst : SameShape first second)
    (hsecond : SameShape second third) : SameShape first third :=
  ⟨hsecond.roots.trans hfirst.roots, fun hash ↦ (hsecond.nodes hash).trans (hfirst.nodes hash)⟩

theorem symm {first second : VectorClockDag} (hshape : SameShape first second) :
    SameShape second first :=
  ⟨hshape.roots.symm, fun hash ↦ (hshape.nodes hash).symm⟩

/-- A node of the first DAG has a counterpart in the second. Assumes: the DAGs have the same
shape. -/
theorem node {first second : VectorClockDag} (hshape : SameShape first second) {hash : TxHash}
    {node : DagNode} (hnode : first.nodes[hash]? = some node) :
    ∃ node', second.nodes[hash]? = some node' ∧ node'.hash = node.hash ∧
      node'.shift = node.shift ∧ node'.children = node.children := by
  have hsame := hshape.nodes hash
  rw [hnode, Option.map_some, Option.map_eq_some_iff] at hsame
  obtain ⟨node', hnode', heq⟩ := hsame
  simp only [shape, Prod.mk.injEq] at heq
  exact ⟨node', hnode', heq.1, heq.2.1, heq.2.2⟩

/-- The edges of the two DAGs are the same. Assumes: the DAGs have the same shape. -/
theorem edge_iff {first second : VectorClockDag} (hshape : SameShape first second)
    (predecessor hash : TxHash) : second.Edge predecessor hash ↔ first.Edge predecessor hash := by
  constructor
  · rintro ⟨node, hnode, hmem⟩
    obtain ⟨node', hnode', -, hshift, -⟩ := hshape.symm.node hnode
    exact ⟨node', hnode', hshift ▸ hmem⟩
  · rintro ⟨node, hnode, hmem⟩
    obtain ⟨node', hnode', -, hshift, -⟩ := hshape.node hnode
    exact ⟨node', hnode', hshift ▸ hmem⟩

/-- The two DAGs have the same hashes. Assumes: the DAGs have the same shape. -/
theorem mem_iff {first second : VectorClockDag} (hshape : SameShape first second)
    (hash : TxHash) : hash ∈ second.nodes ↔ hash ∈ first.nodes := by
  have hsome := congrArg Option.isSome (hshape.nodes hash)
  simp only [Option.isSome_map] at hsome
  rw [← ExtTreeMap.isSome_getElem?_iff_mem, ← ExtTreeMap.isSome_getElem?_iff_mem, hsome]

end SameShape

/-- The invariant depends on the shape only. Assumes: the DAGs have the same shape, and the first is
well formed. -/
theorem WellFormed.of_sameShape {prim : Primitives} {first second : VectorClockDag}
    (hdag : WellFormed prim first) (hshape : SameShape first second) : WellFormed prim second where
  stored_hash hash node hnode := by
    obtain ⟨node', hnode', hhash, hshift, -⟩ := hshape.symm.node hnode
    rw [← hhash, ← hshift]
    exact hdag.stored_hash hash node' hnode'
  edge_mem predecessor hash hedge := by
    rw [hshape.mem_iff]
    exact hdag.edge_mem predecessor hash ((hshape.edge_iff predecessor hash).mp hedge)
  children_iff predecessor node hnode hash := by
    obtain ⟨node', hnode', -, -, hchildren⟩ := hshape.symm.node hnode
    rw [← hchildren, hshape.edge_iff]
    exact hdag.children_iff predecessor node' hnode' hash
  roots_iff hash := by
    rw [hshape.roots, hdag.roots_iff]
    constructor
    · rintro ⟨node, hnode, hroot⟩
      obtain ⟨node', hnode', -, hshift, -⟩ := hshape.node hnode
      exact ⟨node', hnode', by rw [hshift, hroot]⟩
    · rintro ⟨node, hnode, hroot⟩
      obtain ⟨node', hnode', -, hshift, -⟩ := hshape.symm.node hnode
      exact ⟨node', hnode', by rw [hshift, hroot]⟩
  ranked := by
    obtain ⟨rank, hrank⟩ := hdag.ranked
    exact ⟨rank, fun predecessor hash hedge ↦
      hrank predecessor hash ((hshape.edge_iff predecessor hash).mp hedge)⟩

/-! ### What an insertion does -/

/-- A node after a hash was linked under a list of predecessors. -/
def linked (predecessors : List TxHash) (hash other : TxHash) (node : DagNode) : DagNode :=
  if other ∈ predecessors then node.addChild hash else node

@[simp] theorem linked_hash (predecessors : List TxHash) (hash other : TxHash) (node : DagNode) :
    (linked predecessors hash other node).hash = node.hash := by
  unfold linked
  split_ifs <;> rfl

@[simp] theorem linked_shift (predecessors : List TxHash) (hash other : TxHash) (node : DagNode) :
    (linked predecessors hash other node).shift = node.shift := by
  unfold linked
  split_ifs <;> rfl

/-- Linking under one more predecessor. -/
theorem linked_cons (predecessor : TxHash) (predecessors : List TxHash) (hash : TxHash)
    (node : DagNode) :
    linked predecessors hash predecessor (node.addChild hash) =
      linked (predecessor :: predecessors) hash predecessor node := by
  have htwice : (node.children.insert hash).insert hash = node.children.insert hash := by
    refine ExtTreeSet.ext_mem fun child ↦ ?_
    simp only [ExtTreeSet.mem_insert, or_self_left]
  have hself : linked (predecessor :: predecessors) hash predecessor node = node.addChild hash :=
    if_pos List.mem_cons_self
  rw [hself]
  unfold linked
  split_ifs
  · simp only [DagNode.addChild, htwice]
  · rfl

/-- Linking a hash under a list of predecessors adds it to the children of each of them, and
repeated predecessors make no difference. -/
theorem getElem?_linkChildren (nodes : ExtTreeMap TxHash DagNode) (predecessors : List TxHash)
    (hash other : TxHash) :
    (linkChildren nodes predecessors hash)[other]? =
      nodes[other]?.map (linked predecessors hash other) := by
  induction predecessors generalizing nodes with
  | nil =>
    have hnil : linked [] hash other = id := funext fun node ↦ if_neg List.not_mem_nil
    rw [hnil, Option.map_id]
    rfl
  | cons predecessor predecessors ih =>
    have hunfold : linkChildren nodes (predecessor :: predecessors) hash =
        linkChildren (nodes.modify predecessor fun node ↦ node.addChild hash) predecessors hash :=
      rfl
    rw [hunfold, ih, ExtTreeMap.getElem?_modify]
    simp only [LawfulEqCmp.compare_eq_iff_eq]
    by_cases hself : predecessor = other
    · subst hself
      rw [if_pos rfl, Option.map_map]
      exact congrFun (congrArg Option.map (funext fun node ↦ linked_cons _ _ _ node)) _
    · have hcons : linked (predecessor :: predecessors) hash other =
          linked predecessors hash other := by
        funext node
        simp only [linked, List.mem_cons, Ne.symm hself, false_or]
      rw [if_neg hself, hcons]

/-- The nodes after a shift was linked: its own node, and the old nodes with the hash added to the
children of its predecessors. -/
theorem getElem?_link (dag : VectorClockDag) (shift : StatefulShift) (hash other : TxHash)
    (tick depth : ℕ) :
    (dag.link shift hash tick depth).nodes[other]? =
      if hash = other then some (freshNode shift hash tick depth)
      else dag.nodes[other]?.map (linked shift.predecessors hash other) := by
  have hnodes : (dag.link shift hash tick depth).nodes =
      (linkChildren dag.nodes shift.predecessors hash).insert hash
        (freshNode shift hash tick depth) := by
    simp only [link]
    split_ifs with hempty
    · rw [hempty]
      rfl
    · rfl
  rw [hnodes, ExtTreeMap.getElem?_insert]
  simp only [LawfulEqCmp.compare_eq_iff_eq, getElem?_linkChildren]

/-- Everything an insertion can do: refuse the signature, find the hash present, miss a predecessor,
or link the shift. -/
theorem insert_cases (prim : Primitives) (dag : VectorClockDag) (shift : StatefulShift)
    (publicKey : VerifyingKey) (tick depth : ℕ) :
    (shift.verifySignature prim publicKey = false ∧
      dag.insert prim shift publicKey tick depth =
        (dag.reject (shift.hash prim) (.invalidSignature (shift.hash prim)),
          .error (.invalidSignature (shift.hash prim)))) ∨
    (shift.verifySignature prim publicKey = true ∧ shift.hash prim ∈ dag.nodes ∧
      dag.insert prim shift publicKey tick depth = (dag, .ok (shift.hash prim))) ∨
    (shift.verifySignature prim publicKey = true ∧ shift.hash prim ∉ dag.nodes ∧
      ∃ missing ∈ shift.predecessors, missing ∉ dag.nodes ∧
        dag.insert prim shift publicKey tick depth =
          (dag.reject (shift.hash prim) (.missingPredecessor missing),
            .error (.missingPredecessor missing))) ∨
    (shift.verifySignature prim publicKey = true ∧ shift.hash prim ∉ dag.nodes ∧
      (∀ predecessor ∈ shift.predecessors, predecessor ∈ dag.nodes) ∧
      dag.insert prim shift publicKey tick depth =
        (dag.link shift (shift.hash prim) tick depth, .ok (shift.hash prim))) := by
  unfold insert
  cases hsignature : shift.verifySignature prim publicKey with
  | false => exact .inl ⟨rfl, rfl⟩
  | true =>
    refine .inr ?_
    by_cases hpresent : shift.hash prim ∈ dag.nodes
    · refine .inl ⟨rfl, hpresent, ?_⟩
      simp [ExtTreeMap.contains_iff_mem, hpresent]
    · refine .inr ?_
      have habsent : dag.nodes.contains (shift.hash prim) = false := by
        rw [Bool.eq_false_iff]
        exact fun hcontains ↦ hpresent (ExtTreeMap.contains_iff_mem.mp hcontains)
      cases hfind : shift.predecessors.find? fun predecessor ↦ !dag.nodes.contains predecessor with
      | some missing =>
        refine .inl ⟨rfl, hpresent, missing, List.mem_of_find?_eq_some hfind, ?_, ?_⟩
        · have hmissing := List.find?_some hfind
          rw [Bool.not_eq_true', Bool.eq_false_iff] at hmissing
          exact fun hmem ↦ hmissing (ExtTreeMap.contains_iff_mem.mpr hmem)
        · simp [habsent]
      | none =>
        refine .inr ⟨rfl, hpresent, fun predecessor hmem ↦ ?_, ?_⟩
        · have hpredecessor := List.find?_eq_none.mp hfind predecessor hmem
          simpa [ExtTreeMap.contains_iff_mem] using hpredecessor
        · simp [habsent]

/-- A refused shift leaves the shape alone. -/
theorem sameShape_reject (dag : VectorClockDag) (hash : TxHash) (error : DagError) :
    SameShape dag (dag.reject hash error) := ⟨rfl, fun _ ↦ rfl⟩

/-! ### The invariant over insertions -/

/-- The edges after a shift was linked. Assumes: its hash is not a node yet. -/
theorem edge_link_iff {dag : VectorClockDag} {shift : StatefulShift} {hash : TxHash}
    (tick depth : ℕ) (hfresh : hash ∉ dag.nodes) (predecessor other : TxHash) :
    (dag.link shift hash tick depth).Edge predecessor other ↔
      (other = hash ∧ predecessor ∈ shift.predecessors) ∨ dag.Edge predecessor other := by
  have hnone : dag.nodes[hash]? = none := ExtTreeMap.getElem?_eq_none hfresh
  unfold Edge
  rw [getElem?_link]
  by_cases hself : hash = other
  · subst hself
    simp [freshNode, hnone]
  · simp only [hself, if_false, Ne.symm hself, false_and, false_or, Option.map_eq_some_iff]
    constructor
    · rintro ⟨_, ⟨node, hnode, rfl⟩, hmem⟩
      exact ⟨node, hnode, linked_shift _ _ _ node ▸ hmem⟩
    · rintro ⟨node, hnode, hmem⟩
      exact ⟨_, ⟨node, hnode, rfl⟩, (linked_shift _ _ _ node).symm ▸ hmem⟩

/-- The nodes stay nodes when a shift is linked. Assumes: the hash is a node. -/
theorem mem_link {dag : VectorClockDag} {other : TxHash} (shift : StatefulShift) (hash : TxHash)
    (tick depth : ℕ) (hother : other ∈ dag.nodes) :
    other ∈ (dag.link shift hash tick depth).nodes := by
  rw [← ExtTreeMap.isSome_getElem?_iff_mem] at hother ⊢
  rw [getElem?_link]
  split_ifs
  · rfl
  · rwa [Option.isSome_map]

/-- The children after a shift was linked: the edges to it are added. Assumes: the DAG is well
formed, the hash is not a node yet, and all predecessors are nodes. -/
theorem WellFormed.children_link {prim : Primitives} {dag : VectorClockDag}
    (hdag : WellFormed prim dag) {shift : StatefulShift} {hash : TxHash} (tick depth : ℕ)
    (hfresh : hash ∉ dag.nodes)
    (hpredecessors : ∀ predecessor ∈ shift.predecessors, predecessor ∈ dag.nodes)
    {predecessor : TxHash} {node : DagNode}
    (hnode : (dag.link shift hash tick depth).nodes[predecessor]? = some node) (other : TxHash) :
    other ∈ node.children ↔ (dag.link shift hash tick depth).Edge predecessor other := by
  rw [edge_link_iff tick depth hfresh]
  rw [getElem?_link] at hnode
  split_ifs at hnode with hself
  · subst hself
    have hnotPredecessor : hash ∉ shift.predecessors := fun hmem ↦
      hfresh (hpredecessors hash hmem)
    have hnoEdge : ¬ dag.Edge hash other := fun hedge ↦ hfresh (hdag.edge_mem hash other hedge)
    rw [← Option.some.inj hnode]
    simp [freshNode, hnotPredecessor, hnoEdge]
  · obtain ⟨node', hnode', rfl⟩ := Option.map_eq_some_iff.mp hnode
    have hchildren := hdag.children_iff predecessor node' hnode' other
    unfold linked
    split_ifs with hmem
    · simp only [DagNode.addChild, ExtTreeSet.mem_insert, LawfulEqCmp.compare_eq_iff_eq,
        hchildren, hmem, and_true]
      rw [eq_comm]
    · simp only [hchildren, hmem, and_false, false_or]

/-- The roots after a shift was linked are the nodes without predecessors. Assumes: the DAG is well
formed, and the hash is not a node yet. -/
theorem WellFormed.roots_link {prim : Primitives} {dag : VectorClockDag}
    (hdag : WellFormed prim dag) (shift : StatefulShift) {hash : TxHash} (tick depth : ℕ)
    (hfresh : hash ∉ dag.nodes) (other : TxHash) :
    other ∈ (dag.link shift hash tick depth).roots ↔
      ∃ node : DagNode, (dag.link shift hash tick depth).nodes[other]? = some node ∧
        node.shift.predecessors = [] := by
  have hroots : (dag.link shift hash tick depth).roots =
      if shift.predecessors = [] then dag.roots.insert hash else dag.roots := rfl
  rw [hroots, getElem?_link]
  by_cases hself : hash = other
  · subst hself
    have hnotRoot : hash ∉ dag.roots := by
      rw [hdag.roots_iff]
      rintro ⟨node, hnode, -⟩
      rw [ExtTreeMap.getElem?_eq_none hfresh] at hnode
      exact Option.some_ne_none node hnode.symm
    rw [if_pos rfl]
    split_ifs with hempty
    · simp [freshNode, hempty]
    · simp [freshNode, hempty, hnotRoot]
  · have hother : other ∈ (if shift.predecessors = [] then dag.roots.insert hash else dag.roots) ↔
        other ∈ dag.roots := by
      split_ifs
      · simp [ExtTreeSet.mem_insert, hself]
      · rfl
    rw [hother, hdag.roots_iff]
    simp only [hself, if_false, Option.map_eq_some_iff]
    constructor
    · rintro ⟨node, hnode, hroot⟩
      exact ⟨_, ⟨node, hnode, rfl⟩, by rw [linked_shift, hroot]⟩
    · rintro ⟨_, ⟨node, hnode, rfl⟩, hroot⟩
      exact ⟨node, hnode, by rw [← hroot, linked_shift]⟩

/-- Edges raise a rank after a shift was linked: it gets one above its predecessors. Assumes: the
DAG is well formed, the hash is not a node yet, and all predecessors are nodes. -/
theorem WellFormed.ranked_link {prim : Primitives} {dag : VectorClockDag}
    (hdag : WellFormed prim dag) {shift : StatefulShift} {hash : TxHash} (tick depth : ℕ)
    (hfresh : hash ∉ dag.nodes)
    (hpredecessors : ∀ predecessor ∈ shift.predecessors, predecessor ∈ dag.nodes) :
    ∃ rank : TxHash → ℕ, ∀ predecessor other,
      (dag.link shift hash tick depth).Edge predecessor other → rank predecessor < rank other := by
  obtain ⟨rank, hrank⟩ := hdag.ranked
  refine ⟨fun other ↦ if other = hash then (shift.predecessors.map rank).sum + 1 else rank other,
    fun predecessor other hedge ↦ ?_⟩
  rw [edge_link_iff tick depth hfresh] at hedge
  rcases hedge with ⟨rfl, hmem⟩ | hedge
  · have hne : predecessor ≠ other := fun heq ↦
      hfresh (heq ▸ hpredecessors predecessor hmem)
    simp only [if_neg hne, if_true, Nat.lt_succ_iff]
    exact List.le_sum_of_mem (List.mem_map_of_mem hmem)
  · have hpredecessor : predecessor ≠ hash := fun heq ↦
      hfresh (heq ▸ hdag.edge_mem predecessor other hedge)
    have hother : other ≠ hash := by
      rintro rfl
      obtain ⟨node, hnode, -⟩ := hedge
      rw [ExtTreeMap.getElem?_eq_none hfresh] at hnode
      exact Option.some_ne_none node hnode.symm
    simp only [if_neg hpredecessor, if_neg hother]
    exact hrank predecessor other hedge

/-- Linking a shift keeps the invariant. Assumes: the DAG is well formed, the hash is the one of the
shift and is not a node yet, and all predecessors are nodes. -/
theorem WellFormed.link {prim : Primitives} {dag : VectorClockDag} (hdag : WellFormed prim dag)
    {shift : StatefulShift} {hash : TxHash} (tick depth : ℕ) (hhash : shift.hash prim = hash)
    (hfresh : hash ∉ dag.nodes)
    (hpredecessors : ∀ predecessor ∈ shift.predecessors, predecessor ∈ dag.nodes) :
    WellFormed prim (dag.link shift hash tick depth) where
  stored_hash := by
    intro other node hnode
    rw [getElem?_link] at hnode
    split_ifs at hnode with hself
    · subst hself
      rw [← Option.some.inj hnode]
      exact ⟨rfl, hhash⟩
    · obtain ⟨node', hnode', rfl⟩ := Option.map_eq_some_iff.mp hnode
      rw [linked_hash, linked_shift]
      exact hdag.stored_hash other node' hnode'
  edge_mem := by
    intro predecessor other hedge
    rw [edge_link_iff tick depth hfresh] at hedge
    rcases hedge with ⟨-, hmem⟩ | hedge
    · exact mem_link shift hash tick depth (hpredecessors predecessor hmem)
    · exact mem_link shift hash tick depth (hdag.edge_mem predecessor other hedge)
  children_iff := fun _ _ hnode ↦ hdag.children_link tick depth hfresh hpredecessors hnode
  roots_iff := hdag.roots_link shift tick depth hfresh
  ranked := hdag.ranked_link tick depth hfresh hpredecessors

/-- An insertion keeps the invariant. Assumes: the DAG is well formed. -/
theorem WellFormed.insert {prim : Primitives} {dag : VectorClockDag} (hdag : WellFormed prim dag)
    (shift : StatefulShift) (publicKey : VerifyingKey) (tick depth : ℕ) :
    WellFormed prim (dag.insert prim shift publicKey tick depth).1 := by
  rcases insert_cases prim dag shift publicKey tick depth with ⟨-, hinsert⟩ | ⟨-, -, hinsert⟩ |
    ⟨-, -, missing, -, -, hinsert⟩ | ⟨-, hfresh, hpredecessors, hinsert⟩
  · rw [hinsert]
    exact hdag.of_sameShape (sameShape_reject _ _ _)
  · rw [hinsert]
    exact hdag
  · rw [hinsert]
    exact hdag.of_sameShape (sameShape_reject _ _ _)
  · rw [hinsert]
    exact hdag.link tick depth rfl hfresh hpredecessors

/-- One call of `insert`. -/
structure InsertCall where
  shift : StatefulShift
  publicKey : VerifyingKey
  tick : ℕ
  depth : ℕ

/-- The DAG after a list of insertions into the empty DAG, whatever each of them returned. -/
def insertAll (prim : Primitives) (calls : List InsertCall) : VectorClockDag :=
  calls.foldl
    (fun dag call ↦ (dag.insert prim call.shift call.publicKey call.tick call.depth).1) new

/-- Any list of insertions leads to a well-formed DAG. -/
theorem wellFormed_insertAll (prim : Primitives) (calls : List InsertCall) :
    WellFormed prim (insertAll prim calls) := by
  have hfold : ∀ dag, WellFormed prim dag → WellFormed prim (calls.foldl
      (fun dag call ↦ (dag.insert prim call.shift call.publicKey call.tick call.depth).1) dag) := by
    induction calls with
    | nil => exact fun dag hdag ↦ hdag
    | cons call calls ih => exact fun dag hdag ↦ ih _ (hdag.insert _ _ _ _)
  exact hfold new (wellFormed_new prim)

/-- The representation invariant after any insertions: well-formedness, no cycles, an insertion
that fails changes the map of rejected shifts only, and a validly signed insertion of a hash that is
present changes nothing. -/
theorem insertAll_representation (prim : Primitives) (calls : List InsertCall) :
    WellFormed prim (insertAll prim calls) ∧
    (∀ hash, ¬ Relation.TransGen (insertAll prim calls).Edge hash hash) ∧
    ∀ call : InsertCall,
      (∀ error, ((insertAll prim calls).insert prim call.shift call.publicKey call.tick
          call.depth).2 = .error error →
        ∃ rejected, ((insertAll prim calls).insert prim call.shift call.publicKey call.tick
          call.depth).1 = { insertAll prim calls with rejected }) ∧
      (call.shift.verifySignature prim call.publicKey = true →
        call.shift.hash prim ∈ (insertAll prim calls).nodes →
        (insertAll prim calls).insert prim call.shift call.publicKey call.tick call.depth =
          (insertAll prim calls, .ok (call.shift.hash prim))) := by
  have hdag := wellFormed_insertAll prim calls
  refine ⟨hdag, hdag.acyclic, fun call ↦ ?_⟩
  rcases insert_cases prim (insertAll prim calls) call.shift call.publicKey call.tick
    call.depth with
    ⟨hsignature, hinsert⟩ | ⟨-, -, hinsert⟩ | ⟨-, habsent, missing, -, -, hinsert⟩ |
    ⟨-, habsent, -, hinsert⟩
  · rw [hinsert]
    refine ⟨fun _ _ ↦ ⟨_, rfl⟩, fun hverified ↦ ?_⟩
    rw [hsignature] at hverified
    exact absurd hverified Bool.false_ne_true
  · rw [hinsert]
    refine ⟨fun error herror ↦ ?_, fun _ _ ↦ rfl⟩
    cases herror
  · rw [hinsert]
    exact ⟨fun _ _ ↦ ⟨_, rfl⟩, fun _ hpresent ↦ absurd hpresent habsent⟩
  · rw [hinsert]
    refine ⟨fun error herror ↦ ?_, fun _ hpresent ↦ absurd hpresent habsent⟩
    cases herror

end Fluidic.Consensus.VectorClockDag
