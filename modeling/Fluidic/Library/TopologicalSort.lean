import Fluidic.Library.FiniteMap
import Mathlib.Data.List.Nodup
import Mathlib.Data.List.Count

/-!
# Topological sorting by counting incoming edges

A worklist algorithm over a finite graph: count the incoming edges of every node, start from nodes
without any, and repeatedly take a ready node, append it to the order and release its children. The
function that picks among the ready nodes is a parameter, and so is the order in which the children
of a node are released. A missing counter, a counter that would fall below zero and a pick outside
the worklist are failures, `none`.

`Progress` is the invariant of the worklist. `Progress.drain_eq_some` is totality and correctness on
acyclic graphs: the loop ends within as many rounds as there are nodes left, having placed every
node once and after all of its parents. `Progress.drain_eq_of_dominant` says when the pick cannot
change the result: when a linear arrangement of the nodes is such that each of them beats every
other node that is ready with it. `drain_precedes` is the opposite fact on graphs without edges,
where a node that stands right before one that beats it has to wait for it.
-/

set_option autoImplicit false
set_option relaxedAutoImplicit false

namespace Fluidic.Library

open Std (ExtTreeMap TransOrd LawfulEqOrd LawfulEqCmp)

/-! ### Selecting an element by one scan -/

section Scan

variable {α : Type}

/-- One pass over a list that keeps the current best element and its index, and replaces it by each
later element that beats it. -/
def scan (beats : α → α → Bool) (first : α) (rest : List α) : α × ℕ :=
  (rest.zipIdx 1).foldl (fun best entry ↦ if beats entry.1 best.1 then entry else best) (first, 0)

/-- The element kept by a scan is the initial one or one of those scanned. -/
theorem foldl_beats_mem (beats : α → α → Bool) (entries : List (α × ℕ)) (best : α × ℕ) :
    entries.foldl (fun best entry ↦ if beats entry.1 best.1 then entry else best) best ∈
      best :: entries := by
  induction entries generalizing best with
  | nil => exact List.mem_singleton.mpr rfl
  | cons entry entries ih =>
    have htail := ih (if beats entry.1 best.1 then entry else best)
    rw [List.foldl_cons]
    split_ifs at htail ⊢
    · exact List.mem_cons_of_mem _ htail
    · rcases List.mem_cons.mp htail with hbest | hentries
      · rw [hbest]
        exact List.mem_cons_self
      · exact List.mem_cons_of_mem _ (List.mem_cons_of_mem _ hentries)

/-- The index a scan returns is the position of the element it returns. -/
theorem getElem?_scan (beats : α → α → Bool) (first : α) (rest : List α) :
    (first :: rest)[(scan beats first rest).2]? = some (scan beats first rest).1 := by
  rcases List.mem_cons.mp (foldl_beats_mem beats (rest.zipIdx 1) (first, 0)) with hfirst | hrest
  · rw [scan, hfirst]
    rfl
  · obtain ⟨hindex, -, hvalue⟩ := List.mem_zipIdx hrest
    rw [scan, hvalue, List.getElem?_cons]
    split_ifs with hzero
    · omega
    · exact List.getElem?_eq_getElem _

/-- The element of a scan does not depend on the indices. -/
theorem fst_scan (beats : α → α → Bool) (first : α) (rest : List α) :
    (scan beats first rest).1 =
      rest.foldl (fun best other ↦ if beats other best then other else best) first := by
  have hfold : ∀ (items : List α) (index : ℕ) (best : α × ℕ),
      ((items.zipIdx index).foldl
        (fun best entry ↦ if beats entry.1 best.1 then entry else best) best).1 =
          items.foldl (fun best other ↦ if beats other best then other else best) best.1 := by
    intro items
    induction items with
    | nil => exact fun _ _ ↦ rfl
    | cons item items ih =>
      intro index best
      rw [List.zipIdx_cons, List.foldl_cons, List.foldl_cons, ih]
      split_ifs <;> rfl
  exact hfold rest 1 (first, 0)

/-- A scan finds an element that beats all the others. Assumes: the relation is asymmetric, and the
winner is one of the elements and beats the different ones. -/
theorem scan_eq_winner {beats : α → α → Bool} {first winner : α} {rest : List α}
    (hasymm : ∀ a b, beats a b = true → beats b a = false) (hmem : winner ∈ first :: rest)
    (hwins : ∀ other ∈ first :: rest, other ≠ winner → beats winner other = true) :
    (scan beats first rest).1 = winner := by
  have hself : beats winner winner = false := by
    rw [Bool.eq_false_iff]
    exact fun hbeats ↦ Bool.false_ne_true ((hasymm _ _ hbeats).symm.trans hbeats)
  rw [fst_scan]
  induction rest generalizing first with
  | nil => exact (List.mem_singleton.mp hmem).symm
  | cons item rest ih =>
    rw [List.foldl_cons]
    have hfirst : first ≠ winner → beats winner first = true :=
      hwins first List.mem_cons_self
    have hitem : item ≠ winner → beats winner item = true :=
      hwins item (List.mem_cons_of_mem _ List.mem_cons_self)
    have hrest : ∀ other ∈ rest, other ≠ winner → beats winner other = true := fun other hother ↦
      hwins other (List.mem_cons_of_mem _ (List.mem_cons_of_mem _ hother))
    split_ifs with hbeats
    · refine ih ?_ (List.forall_mem_cons.mpr ⟨hitem, hrest⟩)
      rcases List.mem_cons.mp hmem with rfl | hlater
      · by_cases hsame : item = winner
        · exact hsame ▸ List.mem_cons_self
        · rw [hasymm _ _ (hitem hsame)] at hbeats
          exact absurd hbeats Bool.false_ne_true
      · exact hlater
    · refine ih ?_ (List.forall_mem_cons.mpr ⟨hfirst, hrest⟩)
      rcases List.mem_cons.mp hmem with rfl | hlater
      · exact List.mem_cons_self
      · rcases List.mem_cons.mp hlater with rfl | hlater
        · by_cases hsame : first = winner
          · exact hsame ▸ List.mem_cons_self
          · exact absurd (hfirst hsame) hbeats
        · exact List.mem_cons_of_mem _ hlater

/-- A scan does not end at an element that the last one beats. Assumes: the last element beats the
element, which does not beat itself. -/
theorem scan_concat_ne {beats : α → α → Bool} {first item last : α} (rest : List α)
    (hirrefl : beats item item = false) (hbeats : beats last item = true) :
    (scan beats first (rest ++ [last])).1 ≠ item := by
  rw [fst_scan, List.foldl_append, List.foldl_cons, List.foldl_nil]
  split_ifs with hlast
  · rintro rfl
    exact Bool.false_ne_true (hirrefl.symm.trans hbeats)
  · rintro heq
    exact hlast (heq ▸ hbeats)

/-- Where the relation leads through a list: from an element to the next one that beats it, and so
on, up to one that no later element beats. -/
inductive LeadsTo (beats : α → α → Bool) : α → List α → α → Prop
  | stays {first : α} {rest : List α} : (∀ other ∈ rest, beats other first = false) →
      LeadsTo beats first rest first
  | beaten {first next last : α} {skipped later : List α} :
      (∀ other ∈ skipped, beats other first = false) → beats next first = true →
      LeadsTo beats next later last → LeadsTo beats first (skipped ++ next :: later) last

/-- One more element that does not beat the first one changes nothing. Assumes: the item does not
beat the first one. -/
theorem LeadsTo.skip {beats : α → α → Bool} {first item last : α} {rest : List α}
    (hlead : LeadsTo beats first rest last) (hitem : beats item first = false) :
    LeadsTo beats first (item :: rest) last := by
  cases hlead with
  | stays hrest => exact .stays (List.forall_mem_cons.mpr ⟨hitem, hrest⟩)
  | @beaten _ next _ skipped later hskipped hnext hlater =>
    exact @LeadsTo.beaten α beats first next last (item :: skipped) later
      (List.forall_mem_cons.mpr ⟨hitem, hskipped⟩) hnext hlater

/-- Elements that do not beat the current one are passed over. Assumes: the skipped elements do not
beat the current one. -/
theorem foldl_skipped {beats : α → α → Bool} {first : α} {skipped : List α}
    (hskipped : ∀ other ∈ skipped, beats other first = false) :
    skipped.foldl (fun best other ↦ if beats other best then other else best) first = first := by
  induction skipped with
  | nil => rfl
  | cons item skipped ih =>
    obtain ⟨hitem, hskipped⟩ := List.forall_mem_cons.mp hskipped
    rw [List.foldl_cons, hitem, if_neg Bool.false_ne_true]
    exact ih hskipped

/-- A scan ends where the relation leads. -/
theorem scan_eq_iff_leadsTo {beats : α → α → Bool} {first last : α} {rest : List α} :
    (scan beats first rest).1 = last ↔ LeadsTo beats first rest last := by
  rw [fst_scan]
  constructor
  · rintro rfl
    induction rest generalizing first with
    | nil => exact .stays fun _ hmem ↦ absurd hmem List.not_mem_nil
    | cons item rest ih =>
      rw [List.foldl_cons]
      split_ifs with hbeats
      · exact @LeadsTo.beaten α beats first item _ [] rest
          (fun _ hmem ↦ absurd hmem List.not_mem_nil) hbeats ih
      · exact ih.skip (Bool.eq_false_iff.mpr hbeats)
  · intro hlead
    induction hlead with
    | stays hrest => exact foldl_skipped hrest
    | beaten hskipped hnext _ ih =>
      rw [List.foldl_append, foldl_skipped hskipped, List.foldl_cons, if_pos hnext]
      exact ih

/-- A scan passes over a first element that the second one beats. Assumes: the second element beats
the first. -/
theorem scan_index_ne_zero {beats : α → α → Bool} {first second : α} {rest : List α}
    (hbeats : beats second first = true) : (scan beats first (second :: rest)).2 ≠ 0 := by
  have hmem := foldl_beats_mem beats (rest.zipIdx 2) (second, 1)
  have hscan : scan beats first (second :: rest) =
      (rest.zipIdx 2).foldl (fun best entry ↦ if beats entry.1 best.1 then entry else best)
        (second, 1) := by
    rw [scan, List.zipIdx_cons, List.foldl_cons]
    simp only [hbeats, if_true]
  rw [hscan]
  rcases List.mem_cons.mp hmem with hsecond | hrest
  · rw [hsecond]
    exact one_ne_zero
  · obtain ⟨hindex, -, -⟩ := List.mem_zipIdx hrest
    omega

end Scan

/-! ### Removing from a worklist -/

section SwapRemove

variable {α : Type}

/-- Remove the element at an index by moving the last element into its place. -/
def swapRemove (items : List α) (index : ℕ) : List α :=
  match items.getLast? with
  | none => []
  | some last => (items.set index last).dropLast

/-- A removal takes out the element at the index and nothing else. Assumes: the index holds the
element. -/
theorem cons_swapRemove_perm {items : List α} {index : ℕ} {item : α}
    (hitem : items[index]? = some item) : (item :: swapRemove items index).Perm items := by
  rcases List.eq_nil_or_concat items with hnil | ⟨init, last, rfl⟩
  · simp [hnil] at hitem
  · have hlast : (init ++ [last]).getLast? = some last := by simp
    simp only [List.concat_eq_append, swapRemove, hlast] at hitem ⊢
    by_cases hindex : index < init.length
    · rw [List.getElem?_append_left hindex, List.getElem?_eq_getElem hindex] at hitem
      rw [List.set_append_left _ _ hindex, List.dropLast_concat,
        List.set_eq_take_append_cons_drop, if_pos hindex]
      have hinit : init = init.take index ++ item :: init.drop (index + 1) := by
        rw [← Option.some.inj hitem, List.getElem_cons_drop, List.take_append_drop]
      have hswap : (item :: (init.take index ++ last :: init.drop (index + 1))).Perm
          (init.take index ++ item :: init.drop (index + 1) ++ [last]) := by
        have hmiddle := (@List.perm_middle _ last (init.take index)
          (init.drop (index + 1))).cons item
        refine hmiddle.trans ((List.Perm.swap last item _).trans ?_)
        refine (List.Perm.cons last List.perm_middle.symm).trans ?_
        exact (List.perm_append_singleton last _).symm
      rwa [← hinit] at hswap
    · have hbound := (List.getElem?_eq_some_iff.mp hitem).1
      have heq : index = init.length := by
        simp only [List.length_append, List.length_cons, List.length_nil] at hbound
        omega
      subst heq
      rw [List.getElem?_concat_length] at hitem
      rw [← Option.some.inj hitem]
      have hset : (init ++ [last]).set init.length last = init ++ [last] := by
        rw [List.set_append_right _ _ (le_refl _)]
        simp
      rw [hset, List.dropLast_concat]
      exact (List.perm_append_singleton last init).symm

/-- A removal behind the first two elements leaves them in place. Assumes: the index is beyond the
second element and inside the list. -/
theorem swapRemove_cons_cons {first second : α} {rest : List α} {index : ℕ}
    (hindex : 2 ≤ index) (hbound : index < (first :: second :: rest).length) :
    ∃ rest', swapRemove (first :: second :: rest) index = first :: second :: rest' := by
  obtain ⟨offset, rfl⟩ : ∃ offset, index = offset + 2 := ⟨index - 2, by omega⟩
  have hrest : rest ≠ [] := by
    rintro rfl
    simp at hbound
  refine ⟨(rest.set offset (rest.getLast hrest)).dropLast, ?_⟩
  have hset : rest.set offset (rest.getLast hrest) ≠ [] := by
    simpa using hrest
  rw [swapRemove, List.getLast?_cons_cons, List.getLast?_cons,
    List.getLast?_eq_getLast_of_ne_nil hrest]
  simp only [Option.getD_some, List.set_cons_succ]
  rw [List.dropLast_cons_of_ne_nil (List.cons_ne_nil _ _), List.dropLast_cons_of_ne_nil hset]

end SwapRemove

/-! ### The worklist -/

section Worklist

variable {α : Type} [Ord α] [TransOrd α] [LawfulEqOrd α] [DecidableEq α]

/-- Count one more edge into a node. -/
def countEdge (degree : ExtTreeMap α ℕ) (child : α) : ExtTreeMap α ℕ :=
  degree.insert child (degree.getD child 0 + 1)

/-- The number of edges into each node of an adjacency list. -/
def inDegree (adjacency : List (α × List α)) : ExtTreeMap α ℕ :=
  adjacency.foldl (fun degree entry ↦ entry.2.foldl countEdge (degree.insertIfNew entry.1 0)) ∅

/-- The state of the loop: the edges left into each node, the nodes that are ready, and the nodes
placed so far. -/
structure Queue (α : Type) [Ord α] where
  degree : ExtTreeMap α ℕ
  ready : List α
  order : List α

/-- Take away one edge into a child, and make the child ready when it was the last. -/
def release (queue : Queue α) (child : α) : Option (Queue α) :=
  match queue.degree[child]? with
  | none => none
  | some 0 => none
  | some (left + 1) =>
    some
      { queue with
        degree := queue.degree.insert child left
        ready := if left = 0 then queue.ready ++ [child] else queue.ready }

/-- One round: pick a ready node, place it and release its children. -/
def pop (pick : List α → Option ℕ) (children : α → List α) (queue : Queue α) :
    Option (Queue α) := do
  let index ← pick queue.ready
  let node ← queue.ready[index]?
  (children node).foldlM release
    { queue with ready := swapRemove queue.ready index, order := queue.order ++ [node] }

/-- Rounds until nothing is ready, or until the fuel runs out. -/
def drain (pick : List α → Option ℕ) (children : α → List α) : ℕ → Queue α → Option (List α)
  | 0, queue => if queue.ready = [] then some queue.order else none
  | fuel + 1, queue =>
    if queue.ready = [] then some queue.order
    else (pop pick children queue).bind (drain pick children fuel)

/-! ### Counting the edges -/

/-- Counting a list of edges adds, at each node, the number of its occurrences. -/
theorem getD_foldl_countEdge (children : List α) (degree : ExtTreeMap α ℕ)
    (node : α) :
    (children.foldl countEdge degree).getD node 0 = degree.getD node 0 + children.count node := by
  induction children generalizing degree with
  | nil => rfl
  | cons child children ih =>
    rw [List.foldl_cons, ih, countEdge, List.count_cons]
    simp only [ExtTreeMap.getD_insert, LawfulEqCmp.compare_eq_iff_eq]
    by_cases hnode : child = node
    · subst hnode
      simp only [if_true, beq_self_eq_true]
      omega
    · simp only [hnode, if_false, beq_eq_false_iff_ne.mpr hnode, Bool.false_eq_true]
      omega

omit [DecidableEq α] [LawfulEqOrd α] in
/-- Counting edges keeps every counter. -/
theorem mem_foldl_countEdge (children : List α) {degree : ExtTreeMap α ℕ} {node : α}
    (hnode : node ∈ degree) : node ∈ children.foldl countEdge degree := by
  induction children generalizing degree with
  | nil => exact hnode
  | cons child children ih => exact ih (ExtTreeMap.mem_insert.mpr (.inr hnode))

/-- Counting the edges of an adjacency list, from any counters. -/
theorem getD_foldl_inDegree (adjacency : List (α × List α)) (degree : ExtTreeMap α ℕ) (node : α) :
    (adjacency.foldl (fun degree entry ↦
      entry.2.foldl countEdge (degree.insertIfNew entry.1 0)) degree).getD node 0 =
      degree.getD node 0 + (adjacency.map fun entry ↦ entry.2.count node).sum := by
  induction adjacency generalizing degree with
  | nil => rfl
  | cons entry adjacency ih =>
    have hnew : (degree.insertIfNew entry.1 0).getD node 0 = degree.getD node 0 := by
      rw [ExtTreeMap.getD_insertIfNew]
      split_ifs with hfresh
      · have habsent : node ∉ degree := by
          rw [← LawfulEqCmp.compare_eq_iff_eq.mp hfresh.1]
          exact hfresh.2
        rw [ExtTreeMap.getD_eq_fallback habsent]
      · rfl
    rw [List.foldl_cons, ih, getD_foldl_countEdge, hnew, List.map_cons, List.sum_cons]
    omega

omit [DecidableEq α] in
/-- Every node of an adjacency list has a counter. -/
theorem mem_foldl_inDegree (adjacency : List (α × List α)) {degree : ExtTreeMap α ℕ} {node : α}
    (hnode : node ∈ degree ∨ node ∈ adjacency.map Prod.fst) :
    node ∈ adjacency.foldl (fun degree entry ↦
      entry.2.foldl countEdge (degree.insertIfNew entry.1 0)) degree := by
  induction adjacency generalizing degree with
  | nil => simpa using hnode
  | cons entry adjacency ih =>
    refine ih ?_
    simp only [List.map_cons, List.mem_cons] at hnode
    rcases hnode with hold | hentry | hlater
    · exact .inl (mem_foldl_countEdge _ (ExtTreeMap.mem_insertIfNew.mpr (.inr hold)))
    · refine .inl (mem_foldl_countEdge _ (ExtTreeMap.mem_insertIfNew.mpr (.inl ?_)))
      exact LawfulEqCmp.compare_eq_iff_eq.mpr hentry.symm
    · exact .inr hlater

/-- The counter of a node of an adjacency list is the number of edges into it. Assumes: the node has
an entry. -/
theorem getElem?_inDegree {adjacency : List (α × List α)} {node : α}
    (hnode : node ∈ adjacency.map Prod.fst) :
    (inDegree adjacency)[node]? = some ((adjacency.map fun entry ↦ entry.2.count node).sum) := by
  have hmem : node ∈ inDegree adjacency := mem_foldl_inDegree adjacency (.inr hnode)
  have hcount := getD_foldl_inDegree adjacency ∅ node
  rw [ExtTreeMap.getD_empty, Nat.zero_add] at hcount
  obtain ⟨left, hleft⟩ := ExtTreeMap.isSome_getElem?_iff_mem.mpr hmem |> Option.isSome_iff_exists.mp
  have hvalue : (inDegree adjacency).getD node 0 = left := by
    rw [ExtTreeMap.getD_eq_getD_getElem?, hleft, Option.getD_some]
  rw [hleft, ← hvalue]
  exact congrArg some hcount

/-! ### Releasing the children of a node -/

/-- What releasing a list of children does: it takes one edge from each, and makes ready those for
which it was the last. Assumes: the children are distinct and each has an edge left. -/
theorem foldlM_release {children : List α} {queue : Queue α} (hnodup : children.Nodup)
    (hleft : ∀ child ∈ children, ∃ left, queue.degree[child]? = some (left + 1)) :
    ∃ queue', children.foldlM release queue = some queue' ∧ queue'.order = queue.order ∧
      queue'.ready = queue.ready ++
        children.filter (fun child ↦ decide (queue.degree[child]? = some 1)) ∧
      ∀ node, queue'.degree[node]? =
        if node ∈ children then queue.degree[node]?.map (· - 1) else queue.degree[node]? := by
  induction children generalizing queue with
  | nil => exact ⟨queue, rfl, rfl, by simp, by simp⟩
  | cons child children ih =>
    obtain ⟨hfresh, hdistinct⟩ := List.nodup_cons.mp hnodup
    obtain ⟨left, hchild⟩ := hleft child List.mem_cons_self
    set next : Queue α :=
      { queue with
        degree := queue.degree.insert child left
        ready := if left = 0 then queue.ready ++ [child] else queue.ready } with hnext
    have hrelease : release queue child = some next := by
      rw [release, hchild]
    have hother : ∀ other ∈ children, next.degree[other]? = queue.degree[other]? := by
      intro other hmem
      have hne : child ≠ other := fun heq ↦ hfresh (heq ▸ hmem)
      simp only [hnext, ExtTreeMap.getElem?_insert, LawfulEqCmp.compare_eq_iff_eq, hne, if_false]
    have hnextLeft : ∀ other ∈ children, ∃ left, next.degree[other]? = some (left + 1) := by
      intro other hmem
      rw [hother other hmem]
      exact hleft other (List.mem_cons_of_mem _ hmem)
    obtain ⟨last, hfold, horder, hready, hdegree⟩ := ih hdistinct hnextLeft
    refine ⟨last, ?_, horder, ?_, fun node ↦ ?_⟩
    · rw [List.foldlM_cons, hrelease]
      exact hfold
    · have hfilter : children.filter (fun other ↦ decide (next.degree[other]? = some 1)) =
          children.filter (fun other ↦ decide (queue.degree[other]? = some 1)) :=
        List.filter_congr fun other hmem ↦ by rw [hother other hmem]
      rw [hready, hfilter, List.filter_cons, hchild]
      by_cases hzero : left = 0
      · simp [hnext, hzero]
      · simp [hnext, hzero]
    · rw [hdegree node]
      by_cases hself : child = node
      · subst hself
        simp [hfresh, hnext, hchild]
      · simp [hnext, ExtTreeMap.getElem?_insert, LawfulEqCmp.compare_eq_iff_eq, hself,
          Ne.symm hself]

/-! ### The invariant of the loop -/

/-- A finite graph: distinct nodes, each with distinct children that are nodes again. -/
structure Graph (α : Type) where
  nodes : List α
  children : α → List α
  nodes_nodup : nodes.Nodup
  children_nodup : ∀ node ∈ nodes, (children node).Nodup
  children_mem : ∀ node ∈ nodes, ∀ child ∈ children node, child ∈ nodes

namespace Graph

/-- The parents of a node that are not placed yet. -/
def waiting (graph : Graph α) (placed : List α) (node : α) : List α :=
  graph.nodes.filter fun parent ↦ decide (node ∈ graph.children parent ∧ parent ∉ placed)

/-- Every node of a list comes after all of its parents. -/
def Sorted (graph : Graph α) (order : List α) : Prop :=
  ∀ before node after, order = before ++ node :: after →
    ∀ parent ∈ graph.nodes, node ∈ graph.children parent → parent ∈ before

omit [Ord α] [TransOrd α] [LawfulEqOrd α] in
theorem waiting_eq_nil_iff (graph : Graph α) (placed : List α) (node : α) :
    graph.waiting placed node = [] ↔
      ∀ parent ∈ graph.nodes, node ∈ graph.children parent → parent ∈ placed := by
  simp only [waiting, List.filter_eq_nil_iff, decide_eq_true_eq, not_and, not_not]

omit [Ord α] [TransOrd α] [LawfulEqOrd α] in
/-- Placing a node takes it from the parents that are waited for. -/
theorem waiting_concat (graph : Graph α) (placed : List α) (node child : α) :
    graph.waiting (placed ++ [node]) child =
      (graph.waiting placed child).filter fun parent ↦ decide (parent ≠ node) := by
  simp only [waiting, List.filter_filter]
  refine List.filter_congr fun parent _ ↦ ?_
  simp only [List.mem_append, List.mem_singleton, not_or, ne_eq]
  by_cases hparent : parent = node <;> simp [hparent]

omit [Ord α] [TransOrd α] [LawfulEqOrd α] in
/-- Placing a node lowers the number of waited-for parents of its children by one, and of no other
node. Assumes: the node is a node of the graph and not placed yet. -/
theorem length_waiting_concat (graph : Graph α) {placed : List α} {node : α} (child : α)
    (hnode : node ∈ graph.nodes) (hfresh : node ∉ placed) :
    (graph.waiting placed child).length = (graph.waiting (placed ++ [node]) child).length +
      if child ∈ graph.children node then 1 else 0 := by
  have hnodup : (graph.waiting placed child).Nodup := graph.nodes_nodup.filter _
  have herase : graph.waiting (placed ++ [node]) child =
      (graph.waiting placed child).erase node := by
    rw [waiting_concat, hnodup.erase_eq_filter]
    exact List.filter_congr fun parent _ ↦ by simp [bne, Bool.beq_eq_decide_eq]
  have hmem : node ∈ graph.waiting placed child ↔ child ∈ graph.children node := by
    simp [waiting, hnode, hfresh]
  rw [herase, List.length_erase]
  split_ifs with hwaiting hedge hedge
  · have hpos := List.length_pos_of_mem hwaiting
    omega
  · exact absurd (hmem.mp hwaiting) hedge
  · exact absurd (hmem.mpr hedge) hwaiting
  · rfl

omit [Ord α] [TransOrd α] [LawfulEqOrd α] in
/-- A node that is no child of the placed one waits for parents as before. Assumes: the placed node
is a node of the graph and not placed yet, and the other one is no child of it. -/
theorem waiting_concat_eq_nil_iff (graph : Graph α) {placed : List α} {node child : α}
    (hnode : node ∈ graph.nodes) (hfresh : node ∉ placed) (hedge : child ∉ graph.children node) :
    graph.waiting (placed ++ [node]) child = [] ↔ graph.waiting placed child = [] := by
  have hlength := graph.length_waiting_concat child hnode hfresh
  rw [if_neg hedge, Nat.add_zero] at hlength
  rw [← List.length_eq_zero_iff, ← List.length_eq_zero_iff, hlength]

omit [Ord α] [TransOrd α] [LawfulEqOrd α] in
/-- A sorted list stays so with one more node. Assumes: all parents of that node are in the list. -/
theorem Sorted.concat {graph : Graph α} {order : List α} (hsorted : graph.Sorted order) {node : α}
    (hnode : graph.waiting order node = []) : graph.Sorted (order ++ [node]) := by
  intro before child after hsplit parent hparent hedge
  rcases List.eq_nil_or_concat after with rfl | ⟨init, last, rfl⟩
  · obtain ⟨rfl, hchild⟩ := List.append_inj' hsplit rfl
    rw [List.singleton_inj] at hchild
    subst hchild
    exact (graph.waiting_eq_nil_iff _ _).mp hnode parent hparent hedge
  · rw [List.concat_eq_append, ← List.cons_append, ← List.append_assoc] at hsplit
    exact hsorted before child init (List.append_inj_left' hsplit rfl) parent hparent hedge

end Graph

/-- The invariant of the worklist: the placed and the ready nodes are distinct nodes of the graph,
the counter of each node is the number of its parents that are not placed, a node is placed or ready
exactly when all of its parents are placed, and the placed nodes are sorted. -/
structure Progress (graph : Graph α) (queue : Queue α) : Prop where
  nodup : (queue.order ++ queue.ready).Nodup
  mem_nodes : ∀ node ∈ queue.order ++ queue.ready, node ∈ graph.nodes
  degree : ∀ node ∈ graph.nodes,
    queue.degree[node]? = some (graph.waiting queue.order node).length
  frontier : ∀ node ∈ graph.nodes,
    node ∈ queue.order ++ queue.ready ↔ graph.waiting queue.order node = []
  sorted : graph.Sorted queue.order

namespace Progress

variable {graph : Graph α}

omit [LawfulEqOrd α] in
/-- The initial worklist: every counter is the number of parents and the ready nodes are those
without any. Assumes: the counters and the ready nodes are as described. -/
theorem initial {degree : ExtTreeMap α ℕ} {ready : List α}
    (hdegree : ∀ node ∈ graph.nodes, degree[node]? = some (graph.waiting [] node).length)
    (hnodup : ready.Nodup)
    (hready : ∀ node, node ∈ ready ↔ node ∈ graph.nodes ∧ graph.waiting [] node = []) :
    Progress graph ⟨degree, ready, []⟩ where
  nodup := hnodup
  mem_nodes node hnode := ((hready node).mp hnode).1
  degree := hdegree
  frontier node hnode := by
    rw [List.nil_append, hready]
    exact ⟨fun h ↦ h.2, fun h ↦ ⟨hnode, h⟩⟩
  sorted before node after hsplit := by simp at hsplit

/-- The counters of an adjacency list that lists the children of each node. Assumes: the list has
the nodes of the graph as keys and, under each of them, a rearrangement of its children. -/
theorem inDegree_eq_waiting {adjacency : List (α × List α)}
    (hkeys : adjacency.map Prod.fst = graph.nodes)
    (hchildren : ∀ entry ∈ adjacency, entry.2.Perm (graph.children entry.1)) :
    ∀ node ∈ graph.nodes, (inDegree adjacency)[node]? = some (graph.waiting [] node).length := by
  intro node hnode
  have hcount : ∀ entry ∈ adjacency, entry.2.count node =
      if node ∈ graph.children entry.1 then 1 else 0 := by
    intro entry hentry
    have hgraph : entry.1 ∈ graph.nodes := hkeys ▸ List.mem_map_of_mem hentry
    rw [(hchildren entry hentry).count_eq, (graph.children_nodup entry.1 hgraph).count]
  have hsum : ∀ entries : List (α × List α), (∀ entry ∈ entries, entry.2.count node =
      if node ∈ graph.children entry.1 then 1 else 0) →
      (entries.map fun entry ↦ entry.2.count node).sum = ((entries.map Prod.fst).filter
        fun parent ↦ decide (node ∈ graph.children parent ∧ parent ∉ [])).length := by
    intro entries
    induction entries with
    | nil => exact fun _ ↦ rfl
    | cons entry entries ih =>
      intro hentries
      have htail := ih fun other hother ↦ hentries other (List.mem_cons_of_mem _ hother)
      rw [List.map_cons, List.sum_cons, htail, hentries entry List.mem_cons_self, List.map_cons,
        List.filter_cons]
      by_cases hedge : node ∈ graph.children entry.1
      · simp [hedge, Nat.add_comm]
      · simp [hedge]
  rw [getElem?_inDegree (hkeys ▸ hnode), hsum adjacency hcount, hkeys, Graph.waiting]

omit [LawfulEqOrd α] in
/-- A ready node is a node of the graph, not placed, with all of its parents placed. -/
theorem of_mem_ready {queue : Queue α} (hprogress : Progress graph queue) {node : α}
    (hready : node ∈ queue.ready) :
    node ∈ graph.nodes ∧ node ∉ queue.order ∧ graph.waiting queue.order node = [] := by
  have hmem : node ∈ queue.order ++ queue.ready := List.mem_append_right _ hready
  have hnode := hprogress.mem_nodes node hmem
  refine ⟨hnode, fun hplaced ↦ ?_, (hprogress.frontier node hnode).mp hmem⟩
  exact (List.nodup_append.mp hprogress.nodup).2.2 _ hplaced _ hready rfl

/-- What a round does: it places a ready node and leaves the others ready, the counters are the
numbers of parents that are not placed, and the children that wait for no more parents get ready. -/
structure Places (graph : Graph α) (queue next : Queue α) (node : α) (others : List α) : Prop where
  perm : (node :: others).Perm queue.ready
  order : next.order = queue.order ++ [node]
  ready : next.ready = others ++ (graph.children node).filter fun child ↦
    decide (graph.waiting (queue.order ++ [node]) child = [])
  degree : ∀ child ∈ graph.nodes,
    next.degree[child]? = some (graph.waiting (queue.order ++ [node]) child).length

/-- A round succeeds and places the node it picks. Assumes: the pick returns the index of that node
in the worklist. -/
theorem exists_places {queue : Queue α} (hprogress : Progress graph queue)
    {pick : List α → Option ℕ} {index : ℕ} {node : α} (hpick : pick queue.ready = some index)
    (hnode : queue.ready[index]? = some node) :
    ∃ next, pop pick graph.children queue = some next ∧
      Places graph queue next node (swapRemove queue.ready index) := by
  obtain ⟨hgraph, hfresh, -⟩ := hprogress.of_mem_ready (List.mem_of_getElem? hnode)
  have hlength := fun child ↦ graph.length_waiting_concat child hgraph hfresh
  have hcounter : ∀ child ∈ graph.children node, queue.degree[child]? =
      some ((graph.waiting (queue.order ++ [node]) child).length + 1) := by
    intro child hchild
    rw [hprogress.degree child (graph.children_mem node hgraph child hchild), hlength child,
      if_pos hchild]
  set placed : Queue α :=
    { queue with ready := swapRemove queue.ready index, order := queue.order ++ [node] }
      with hplaced
  have hleft : ∀ child ∈ graph.children node,
      ∃ left, placed.degree[child]? = some (left + 1) := fun child hchild ↦
    ⟨_, hcounter child hchild⟩
  obtain ⟨next, hfold, horder, hready, hdegree⟩ :=
    foldlM_release (graph.children_nodup node hgraph) hleft
  simp only [hplaced] at horder hready hdegree
  refine ⟨next, ?_, cons_swapRemove_perm hnode, horder, ?_, fun child hchild ↦ ?_⟩
  · rw [pop, hpick]
    simp only [bind, Option.bind, hnode]
    exact hfold
  · rw [hready]
    refine congrArg (swapRemove queue.ready index ++ ·) (List.filter_congr fun child hchild ↦ ?_)
    rw [hcounter child hchild, decide_eq_decide, Option.some.injEq, Nat.add_eq_right,
      List.length_eq_zero_iff]
  · rw [hdegree, hprogress.degree child hchild, hlength child]
    split_ifs with hedge
    · rw [Option.map_some, Nat.add_sub_cancel]
    · rfl

omit [LawfulEqOrd α] in
/-- A round keeps the invariant. Assumes: the round places a node, and the invariant holds before.
-/
theorem of_places {queue next : Queue α} (hprogress : Progress graph queue) {node : α}
    {others : List α} (hplaces : Places graph queue next node others) : Progress graph next := by
  obtain ⟨hperm, horder, hready, hdegree⟩ := hplaces
  obtain ⟨hgraph, hfresh, hparents⟩ :=
    hprogress.of_mem_ready (hperm.mem_iff.mp List.mem_cons_self)
  have hremoved : (queue.order ++ [node] ++ others).Perm (queue.order ++ queue.ready) := by
    rw [List.append_assoc, List.singleton_append]
    exact hperm.append_left _
  have hreleased : ∀ child, child ∈ (graph.children node).filter (fun child ↦
      decide (graph.waiting (queue.order ++ [node]) child = [])) ↔
        child ∈ graph.children node ∧ graph.waiting (queue.order ++ [node]) child = [] := by
    intro child
    rw [List.mem_filter, decide_eq_true_eq]
  have hold : ∀ child ∈ graph.children node, child ∉ queue.order ++ queue.ready := by
    intro child hchild hmem
    have hnone := (hprogress.frontier child
      (graph.children_mem node hgraph child hchild)).mp hmem
    exact hfresh ((graph.waiting_eq_nil_iff _ _).mp hnone node hgraph hchild)
  constructor
  · rw [horder, hready, ← List.append_assoc]
    refine List.nodup_append.mpr ⟨hremoved.nodup_iff.mpr hprogress.nodup,
      (graph.children_nodup node hgraph).filter _, ?_⟩
    rintro other hother child hchild rfl
    exact hold other ((hreleased other).mp hchild).1 (hremoved.mem_iff.mp hother)
  · intro child hchild
    rw [horder, hready, ← List.append_assoc, List.mem_append] at hchild
    rcases hchild with hbefore | hchild
    · exact hprogress.mem_nodes child (hremoved.mem_iff.mp hbefore)
    · exact graph.children_mem node hgraph child ((hreleased child).mp hchild).1
  · rw [horder]
    exact hdegree
  · intro child hchild
    rw [horder, hready, ← List.append_assoc, List.mem_append, hreleased, hremoved.mem_iff,
      hprogress.frontier child hchild]
    by_cases hedge : child ∈ graph.children node
    · have hwaiting : graph.waiting queue.order child ≠ [] := fun hnil ↦
        hold child hedge ((hprogress.frontier child hchild).mpr hnil)
      simp [hwaiting, hedge]
    · simp [hedge, graph.waiting_concat_eq_nil_iff hgraph hfresh hedge]
  · rw [horder]
    exact hprogress.sorted.concat hparents

/-- One round keeps the invariant and places the node it picks. Assumes: the pick returns the index
of that node in the worklist. -/
theorem pop_eq_some {queue : Queue α} (hprogress : Progress graph queue)
    {pick : List α → Option ℕ} {index : ℕ} {node : α} (hpick : pick queue.ready = some index)
    (hnode : queue.ready[index]? = some node) :
    ∃ queue', pop pick graph.children queue = some queue' ∧ Progress graph queue' ∧
      queue'.order = queue.order ++ [node] := by
  obtain ⟨next, hpop, hplaces⟩ := hprogress.exists_places hpick hnode
  exact ⟨next, hpop, hprogress.of_places hplaces, hplaces.order⟩

omit [LawfulEqOrd α] in
/-- When nothing is ready, every node is placed. Assumes: edges raise a rank. -/
theorem order_perm_of_ready_nil {queue : Queue α} (hprogress : Progress graph queue)
    {rank : α → ℕ}
    (hrank : ∀ node ∈ graph.nodes, ∀ child ∈ graph.children node, rank node < rank child)
    (hready : queue.ready = []) : queue.order.Perm graph.nodes := by
  have hplaced : ∀ bound, ∀ node ∈ graph.nodes, rank node < bound → node ∈ queue.order := by
    intro bound
    induction bound with
    | zero => exact fun node _ hlt ↦ absurd hlt (Nat.not_lt_zero _)
    | succ bound ih =>
      intro node hnode hlt
      have hwaiting : graph.waiting queue.order node = [] := by
        rw [graph.waiting_eq_nil_iff]
        intro parent hparent hedge
        have hless := hrank parent hparent node hedge
        exact ih parent hparent (by omega)
      have hmem := (hprogress.frontier node hnode).mpr hwaiting
      rwa [hready, List.append_nil] at hmem
  have hnodup : queue.order.Nodup := (List.nodup_append.mp hprogress.nodup).1
  refine (List.perm_ext_iff_of_nodup hnodup graph.nodes_nodup).mpr fun node ↦ ⟨fun hnode ↦ ?_,
    fun hnode ↦ hplaced (rank node + 1) node hnode (Nat.lt_succ_self _)⟩
  exact hprogress.mem_nodes node (List.mem_append_left _ hnode)

omit [LawfulEqOrd α] in
/-- There are at most as many placed and ready nodes as nodes. -/
theorem length_le {queue : Queue α} (hprogress : Progress graph queue) :
    queue.order.length + queue.ready.length ≤ graph.nodes.length := by
  rw [← List.length_append]
  exact (List.subperm_of_subset hprogress.nodup hprogress.mem_nodes).length_le

/-- On an acyclic graph the loop ends with every node placed once and after its parents. Assumes:
edges raise a rank, the pick returns an index of any nonempty list of nodes, and the fuel covers the
nodes that are not placed. -/
theorem drain_eq_some {pick : List α → Option ℕ} {rank : α → ℕ}
    (hrank : ∀ node ∈ graph.nodes, ∀ child ∈ graph.children node, rank node < rank child)
    (hpick : ∀ ready, ready ≠ [] → (∀ node ∈ ready, node ∈ graph.nodes) →
      ∃ index node, pick ready = some index ∧ ready[index]? = some node)
    {fuel : ℕ} {queue : Queue α} (hprogress : Progress graph queue)
    (hfuel : graph.nodes.length ≤ queue.order.length + fuel) :
    ∃ order, drain pick graph.children fuel queue = some order ∧ order.Perm graph.nodes ∧
      graph.Sorted order := by
  induction fuel generalizing queue with
  | zero =>
    have hready : queue.ready = [] := by
      have hbound := hprogress.length_le
      exact List.length_eq_zero_iff.mp (by omega)
    refine ⟨queue.order, ?_, hprogress.order_perm_of_ready_nil hrank hready, hprogress.sorted⟩
    rw [drain, if_pos hready]
  | succ fuel ih =>
    by_cases hready : queue.ready = []
    · refine ⟨queue.order, ?_, hprogress.order_perm_of_ready_nil hrank hready, hprogress.sorted⟩
      rw [drain, if_pos hready]
    · obtain ⟨index, node, hindex, hnode⟩ := hpick queue.ready hready
        fun other hother ↦ (hprogress.of_mem_ready hother).1
      obtain ⟨next, hpop, hnext, horder⟩ := hprogress.pop_eq_some hindex hnode
      have hplaced : next.order.length = queue.order.length + 1 := by
        rw [horder, List.length_append, List.length_singleton]
      obtain ⟨order, hdrain, hresult⟩ := ih hnext (by omega)
      refine ⟨order, ?_, hresult⟩
      rw [drain, if_neg hready, hpop]
      exact hdrain

/-- The loop follows a linear arrangement of the nodes in which each node is ready at its turn and
beats every other node that is ready then. Assumes: the pick returns a node that beats the rest of
the worklist whenever there is one, the arrangement extends the placed nodes to all nodes, and the
fuel covers the nodes that are not placed. -/
theorem drain_eq_of_dominant {pick : List α → Option ℕ} {beats : α → α → Prop}
    (hpick : ∀ ready winner, ready.Nodup → (∀ node ∈ ready, node ∈ graph.nodes) →
      winner ∈ ready → (∀ other ∈ ready, other ≠ winner → beats winner other) →
      ∃ index, pick ready = some index ∧ ready[index]? = some winner)
    {arrangement : List α}
    (hdominant : ∀ before node after, arrangement = before ++ node :: after →
      node ∈ graph.nodes ∧ node ∉ before ∧ graph.waiting before node = [] ∧
      ∀ other ∈ graph.nodes, other ∉ before → other ≠ node → graph.waiting before other = [] →
        beats node other)
    (hcover : ∀ node ∈ graph.nodes, node ∈ arrangement)
    {fuel : ℕ} {queue : Queue α} (hprogress : Progress graph queue) {rest : List α}
    (hrest : arrangement = queue.order ++ rest) (hfuel : rest.length ≤ fuel) :
    drain pick graph.children fuel queue = some arrangement := by
  induction rest generalizing fuel queue with
  | nil =>
    rw [List.append_nil] at hrest
    have hready : queue.ready = [] := by
      refine List.eq_nil_iff_forall_not_mem.mpr fun node hnode ↦ ?_
      obtain ⟨hgraph, hfresh, -⟩ := hprogress.of_mem_ready hnode
      exact hfresh (hrest ▸ hcover node hgraph)
    cases fuel with
    | zero => rw [drain, if_pos hready, hrest]
    | succ fuel => rw [drain, if_pos hready, hrest]
  | cons node rest ih =>
    obtain ⟨hgraph, hfresh, hwaiting, hbeats⟩ := hdominant queue.order node rest hrest
    have hready : node ∈ queue.ready := by
      have hmem := (hprogress.frontier node hgraph).mpr hwaiting
      exact (List.mem_append.mp hmem).resolve_left hfresh
    have hnodup : queue.ready.Nodup := (List.nodup_append.mp hprogress.nodup).2.1
    obtain ⟨index, hindex, hnode⟩ := hpick queue.ready node hnodup
      (fun other hother ↦ (hprogress.of_mem_ready hother).1) hready fun other hother hne ↦ by
        obtain ⟨hother, hunplaced, hnone⟩ := hprogress.of_mem_ready hother
        exact hbeats other hother hunplaced hne hnone
    obtain ⟨next, hpop, hnext, horder⟩ := hprogress.pop_eq_some hindex hnode
    rw [List.length_cons] at hfuel
    obtain ⟨fuel, rfl⟩ : ∃ left, fuel = left + 1 := ⟨fuel - 1, by omega⟩
    rw [drain, if_neg (List.ne_nil_of_mem hready), hpop]
    refine ih hnext ?_ (by omega)
    rw [hrest, horder, List.append_assoc, List.singleton_append]

end Progress

/-! ### Graphs without edges -/

omit [LawfulEqOrd α] [DecidableEq α] in
/-- On a graph without edges one round takes a node from the worklist and does nothing else.
Assumes: the round succeeds. -/
theorem pop_of_no_children {pick : List α → Option ℕ} {queue next : Queue α}
    (hpop : pop pick (fun _ ↦ []) queue = some next) :
    ∃ index node, pick queue.ready = some index ∧ queue.ready[index]? = some node ∧
      next = { queue with
        ready := swapRemove queue.ready index, order := queue.order ++ [node] } := by
  rw [pop] at hpop
  simp only [bind, Option.bind_eq_some_iff, List.foldlM_nil, pure, Option.some.injEq] at hpop
  obtain ⟨index, hindex, node, hnode, hnext⟩ := hpop
  exact ⟨index, node, hindex, hnode, hnext.symm⟩

omit [LawfulEqOrd α] [DecidableEq α] in
/-- On a graph without edges the loop only appends to the placed nodes. Assumes: the loop returns
an order. -/
theorem drain_of_no_children {pick : List α → Option ℕ} {fuel : ℕ} {queue : Queue α}
    {order : List α} (hdrain : drain pick (fun _ ↦ []) fuel queue = some order) :
    ∃ after, order = queue.order ++ after := by
  induction fuel generalizing queue with
  | zero =>
    rw [drain] at hdrain
    split_ifs at hdrain
    exact ⟨[], by rw [List.append_nil, Option.some.inj hdrain]⟩
  | succ fuel ih =>
    rw [drain] at hdrain
    split_ifs at hdrain
    · exact ⟨[], by rw [List.append_nil, Option.some.inj hdrain]⟩
    · obtain ⟨next, hpop, hnext⟩ := Option.bind_eq_some_iff.mp hdrain
      obtain ⟨index, node, -, -, rfl⟩ := pop_of_no_children hpop
      obtain ⟨after, hafter⟩ := ih hnext
      exact ⟨node :: after, by rw [hafter, List.append_assoc, List.singleton_append]⟩

omit [LawfulEqOrd α] [DecidableEq α] in
/-- On a graph without edges a node at the head of the worklist waits for the node right behind it,
when the pick passes over the head of such a worklist of nodes. Assumes: the pick does so, the
worklist has no repetitions and consists of nodes, and the loop returns an order. -/
theorem drain_precedes {pick : List α → Option ℕ} {isNode : α → Prop} {first second : α}
    (hpick : ∀ rest index, (∀ node ∈ first :: second :: rest, isNode node) →
      pick (first :: second :: rest) = some index → index ≠ 0)
    {fuel : ℕ} {queue : Queue α} {rest order : List α}
    (hready : queue.ready = first :: second :: rest) (hnodup : queue.ready.Nodup)
    (hnodes : ∀ node ∈ queue.ready, isNode node)
    (hdrain : drain pick (fun _ ↦ []) fuel queue = some order) :
    ∃ before after, order = queue.order ++ before ++ second :: after ∧ first ∉ before := by
  have hne : queue.ready ≠ [] := by
    rw [hready]
    exact List.cons_ne_nil _ _
  induction fuel generalizing queue rest with
  | zero =>
    rw [drain, if_neg hne] at hdrain
    exact absurd hdrain (Option.some_ne_none order).symm
  | succ fuel ih =>
    rw [drain, if_neg hne] at hdrain
    obtain ⟨next, hpop, hnext⟩ := Option.bind_eq_some_iff.mp hdrain
    obtain ⟨index, node, hindex, hnode, rfl⟩ := pop_of_no_children hpop
    have hzero := hpick rest index (hready ▸ hnodes) (hready ▸ hindex)
    have hperm := cons_swapRemove_perm hnode
    have hdistinct := hperm.nodup_iff.mpr hnodup
    rw [hready] at hnode
    by_cases hone : index = 1
    · subst hone
      obtain rfl : second = node := by simpa using hnode
      obtain ⟨after, hafter⟩ := drain_of_no_children hnext
      refine ⟨[], after, ?_, List.not_mem_nil⟩
      rw [hafter, List.append_nil, List.append_assoc, List.singleton_append]
    · have hbound := (List.getElem?_eq_some_iff.mp hnode).1
      have htwo : 2 ≤ index := by omega
      obtain ⟨rest', hrest'⟩ := swapRemove_cons_cons htwo hbound
      rw [← hready] at hrest'
      have hnodes' : ∀ other ∈ swapRemove queue.ready index, isNode other := fun other hother ↦
        hnodes other (hperm.mem_iff.mp (List.mem_cons_of_mem _ hother))
      have hne' : swapRemove queue.ready index ≠ [] := by
        rw [hrest']
        exact List.cons_ne_nil _ _
      obtain ⟨before, after, horder, hfirst⟩ :=
        ih hrest' (List.nodup_cons.mp hdistinct).2 hnodes' hnext hne'
      refine ⟨node :: before, after, ?_, ?_⟩
      · rw [horder]
        simp only [List.append_assoc, List.cons_append, List.nil_append]
      · rw [List.mem_cons, not_or]
        refine ⟨?_, hfirst⟩
        rintro rfl
        refine (List.nodup_cons.mp hdistinct).1 ?_
        rw [hrest']
        exact List.mem_cons_self

end Worklist

end Fluidic.Library
