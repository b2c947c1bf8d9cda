import Fluidic.Consensus.DagInvariant

/-!
# What the double-spend check reports

`detectDoubleSpends` groups the nodes by sender, sorts each group by tick and hash, and runs two
nested loops over it with a running sum. `mem_detectDoubleSpends_iff` replaces the loops by a
condition on the entries of the DAG: a node is reported when some earlier concurrent node of the
same sender, together with the nodes between the two that are concurrent with the earlier one,
spends more than the balance of the sender. The check looks at no status and at no flag.

`markDoubleSpends` then rejects the reported nodes and touches nothing else
(`getElem?_markDoubleSpends`).
-/

set_option autoImplicit false
set_option relaxedAutoImplicit false

namespace Fluidic.Consensus.VectorClockDag

open Library Crypto
open Std (ExtTreeMap ExtTreeSet LawfulEqCmp)

/-! ### The order of the check -/

/-- The order of the check, in terms of ticks and hashes. -/
theorem spendsBefore_iff (first second : TxHash × DagNode) :
    spendsBefore first second = true ↔
      first.2.insertedAtTick < second.2.insertedAtTick ∨
      first.2.insertedAtTick = second.2.insertedAtTick ∧ first.1.toNat ≤ second.1.toNat := by
  have hhash : (compare first.1 second.1).isLE = true ↔ first.1.toNat ≤ second.1.toNat :=
    (isLE_compareOfLessAndEq BitVec.le_antisymm BitVec.not_le BitVec.le_total).trans BitVec.le_def
  unfold spendsBefore
  rcases Nat.lt_trichotomy first.2.insertedAtTick second.2.insertedAtTick with hlt | heq | hgt
  · rw [Nat.compare_eq_lt.mpr hlt]
    simp [hlt]
  · rw [Nat.compare_eq_eq.mpr heq]
    simp [heq, hhash]
  · rw [Nat.compare_eq_gt.mpr hgt]
    rw [Ordering.gt_then]
    simp [Nat.not_lt.mpr (Nat.le_of_lt hgt), Nat.ne_of_gt hgt]

/-- Entries that come before each other have the same hash. Assumes: each entry comes before the
other. -/
theorem hash_eq_of_spendsBefore {first second : TxHash × DagNode}
    (hforth : spendsBefore first second = true) (hback : spendsBefore second first = true) :
    first.1 = second.1 := by
  rw [spendsBefore_iff] at hforth hback
  refine BitVec.eq_of_toNat_eq ?_
  omega

instance : Std.Total fun first second : TxHash × DagNode ↦ spendsBefore first second = true where
  total first second := by
    rw [spendsBefore_iff, spendsBefore_iff]
    omega

instance : IsTrans (TxHash × DagNode) fun first second ↦ spendsBefore first second = true where
  trans first second third hfirst hsecond := by
    rw [spendsBefore_iff] at hfirst hsecond ⊢
    omega

/-! ### The nested loops -/

/-- The amounts of the entries of a list that are concurrent with a node. -/
def concurrentSum (first : DagNode) (entries : List (TxHash × DagNode)) : ℕ :=
  ((entries.filter fun entry ↦
    first.shift.vectorClock.concurrentWith entry.2.shift.vectorClock).map
      fun entry ↦ entry.2.shift.amount).sum

/-- What one more entry adds to the sum. -/
theorem concurrentSum_cons (first : DagNode) (entry : TxHash × DagNode)
    (entries : List (TxHash × DagNode)) :
    concurrentSum first (entry :: entries) =
      (if first.shift.vectorClock.concurrentWith entry.2.shift.vectorClock
        then entry.2.shift.amount else 0) + concurrentSum first entries := by
  unfold concurrentSum
  rw [List.filter_cons]
  split_ifs
  · rw [List.map_cons, List.sum_cons]
  · rw [Nat.zero_add]

/-- The inner loop reports an entry exactly when it is concurrent with the first node and the
running sum up to it, in `u128` arithmetic, exceeds the balance. -/
theorem mem_spendViolations_iff (balance : ℕ) (first : DagNode) (spent : ℕ)
    (rest : List (TxHash × DagNode)) (hash : TxHash) :
    .doubleSpend hash ∈ spendViolations balance first spent rest ↔
      ∃ before second after, rest = before ++ (hash, second) :: after ∧
        first.shift.vectorClock.concurrentWith second.shift.vectorClock = true ∧
        balance < (spent + concurrentSum first (before ++ [(hash, second)])) % 2 ^ 128 := by
  induction rest generalizing spent with
  | nil => simp [spendViolations]
  | cons entry rest ih =>
    obtain ⟨other, node⟩ := entry
    have hhead : (∃ before second after,
        (other, node) :: rest = before ++ (hash, second) :: after ∧
        first.shift.vectorClock.concurrentWith second.shift.vectorClock = true ∧
        balance < (spent + concurrentSum first (before ++ [(hash, second)])) % 2 ^ 128) ↔
        (other = hash ∧ first.shift.vectorClock.concurrentWith node.shift.vectorClock = true ∧
          balance < (spent + node.shift.amount) % 2 ^ 128) ∨
        ∃ before second after, rest = before ++ (hash, second) :: after ∧
          first.shift.vectorClock.concurrentWith second.shift.vectorClock = true ∧
          balance < (spent +
            ((if first.shift.vectorClock.concurrentWith node.shift.vectorClock
              then node.shift.amount else 0) +
              concurrentSum first (before ++ [(hash, second)]))) % 2 ^ 128 := by
      constructor
      · rintro ⟨before, second, after, hsplit, hconcurrent, hsum⟩
        cases before with
        | nil =>
          rw [List.nil_append, List.cons.injEq, Prod.mk.injEq] at hsplit
          obtain ⟨⟨rfl, rfl⟩, -⟩ := hsplit
          refine .inl ⟨rfl, hconcurrent, ?_⟩
          rw [List.nil_append, concurrentSum_cons, if_pos hconcurrent] at hsum
          exact hsum
        | cons head before =>
          rw [List.cons_append, List.cons.injEq] at hsplit
          obtain ⟨rfl, hrest⟩ := hsplit
          rw [List.cons_append, concurrentSum_cons] at hsum
          exact .inr ⟨before, second, after, hrest, hconcurrent, hsum⟩
      · rintro (⟨rfl, hconcurrent, hsum⟩ | ⟨before, second, after, hrest, hconcurrent, hsum⟩)
        · refine ⟨[], node, rest, rfl, hconcurrent, ?_⟩
          rw [List.nil_append, concurrentSum_cons, if_pos hconcurrent]
          exact hsum
        · refine ⟨(other, node) :: before, second, after, by rw [hrest]; rfl, hconcurrent, ?_⟩
          rw [List.cons_append, concurrentSum_cons]
          exact hsum
    rw [hhead]
    unfold spendViolations
    cases hconcurrent : first.shift.vectorClock.concurrentWith node.shift.vectorClock with
    | false =>
      simp only [Bool.false_eq_true, if_false, false_and, and_false, false_or, Nat.zero_add]
      exact ih spent
    | true =>
      have hwrap : ∀ rest, (wrappingAdd 128 spent node.shift.amount + rest) % 2 ^ 128 =
          (spent + (node.shift.amount + rest)) % 2 ^ 128 := by
        intro rest
        rw [wrappingAdd, Nat.mod_add_mod, Nat.add_assoc]
      simp only [if_true, true_and]
      split_ifs with hover
      · rw [List.mem_cons, ih]
        simp only [hwrap, DagError.doubleSpend.injEq]
        refine or_congr ⟨fun heq ↦ ⟨heq.symm, hover⟩, fun h ↦ h.1.symm⟩ Iff.rfl
      · rw [ih]
        simp only [hwrap]
        refine ⟨.inr, fun h ↦ h.resolve_left ?_⟩
        exact fun h ↦ hover h.2

/-- The outer loop reports an entry exactly when the inner loop does for some earlier entry. -/
theorem mem_senderViolations_iff (balance : ℕ) (entries : List (TxHash × DagNode))
    (hash : TxHash) :
    .doubleSpend hash ∈ senderViolations balance entries ↔
      ∃ before first middle second after,
        entries = before ++ first :: (middle ++ (hash, second) :: after) ∧
        first.2.shift.vectorClock.concurrentWith second.shift.vectorClock = true ∧
        balance < (first.2.shift.amount +
          concurrentSum first.2 (middle ++ [(hash, second)])) % 2 ^ 128 := by
  induction entries with
  | nil => simp [senderViolations]
  | cons entry entries ih =>
    obtain ⟨other, node⟩ := entry
    rw [senderViolations, List.mem_append, mem_spendViolations_iff, ih]
    constructor
    · rintro (⟨middle, second, after, hsplit, hreport⟩ |
        ⟨before, first, middle, second, after, hsplit, hreport⟩)
      · exact ⟨[], (other, node), middle, second, after, by rw [hsplit]; rfl, hreport⟩
      · exact ⟨(other, node) :: before, first, middle, second, after, by rw [hsplit]; rfl, hreport⟩
    · rintro ⟨before, first, middle, second, after, hsplit, hreport⟩
      cases before with
      | nil =>
        rw [List.nil_append, List.cons.injEq] at hsplit
        obtain ⟨rfl, hrest⟩ := hsplit
        exact .inl ⟨middle, second, after, hrest, hreport⟩
      | cons head before =>
        rw [List.cons_append, List.cons.injEq] at hsplit
        exact .inr ⟨before, first, middle, second, after, hsplit.2, hreport⟩

/-! ### Overspent nodes -/

/-- An entry strictly after a first one and not after a second one, in the order of the check. -/
def between (first second entry : TxHash × DagNode) : Bool :=
  spendsBefore first entry && decide (entry.1 ≠ first.1) && spendsBefore entry second

/-- In a list sorted by the check, the entries between two of its entries are those that stand
between them, and the second. Assumes: the list is sorted and its hashes are distinct. -/
theorem filter_between {before middle after : List (TxHash × DagNode)}
    {first second : TxHash × DagNode}
    (hsorted : (before ++ first :: (middle ++ second :: after)).Pairwise
      fun one other ↦ spendsBefore one other = true ∧ one.1 ≠ other.1) :
    (before ++ first :: (middle ++ second :: after)).filter (between first second) =
      middle ++ [second] := by
  rw [List.pairwise_append, List.pairwise_cons, List.pairwise_append, List.pairwise_cons]
    at hsorted
  obtain ⟨-, ⟨hfirst, -, ⟨hsecond, -⟩, hmiddle⟩, hbefore⟩ := hsorted
  have hreflexive : spendsBefore second second = true :=
    (spendsBefore_iff second second).mpr (.inr ⟨rfl, le_refl _⟩)
  have hout : ∀ entry ∈ before, between first second entry = false := by
    intro entry hentry
    obtain ⟨hle, hne⟩ := hbefore entry hentry first List.mem_cons_self
    have hnot : spendsBefore first entry = false := by
      rw [Bool.eq_false_iff]
      exact fun hback ↦ hne (hash_eq_of_spendsBefore hle hback)
    simp [between, hnot]
  have hself : between first second first = false := by simp [between]
  have hin : ∀ entry ∈ middle, between first second entry = true := by
    intro entry hentry
    obtain ⟨hle, hne⟩ := hfirst entry (List.mem_append_left _ hentry)
    have hnext := (hmiddle entry hentry second List.mem_cons_self).1
    simp [between, hle, Ne.symm hne, hnext]
  have hend : between first second second = true := by
    obtain ⟨hle, hne⟩ := hfirst second (List.mem_append_right _ List.mem_cons_self)
    simp [between, hle, Ne.symm hne, hreflexive]
  have hbeyond : ∀ entry ∈ after, between first second entry = false := by
    intro entry hentry
    obtain ⟨hle, hne⟩ := hsecond entry hentry
    have hnot : spendsBefore entry second = false := by
      rw [Bool.eq_false_iff]
      exact fun hback ↦ hne (hash_eq_of_spendsBefore hle hback)
    simp [between, hnot]
  rw [List.filter_append, List.filter_eq_nil_iff.mpr fun entry hentry ↦ by
      simp [hout entry hentry], List.nil_append, List.filter_cons_of_neg (by simp [hself]),
    List.filter_append, List.filter_eq_self.mpr hin, List.filter_cons_of_pos hend,
    List.filter_eq_nil_iff.mpr fun entry hentry ↦ by simp [hbeyond entry hentry]]

/-- The nodes of one sender. -/
def spendsOf (dag : VectorClockDag) (account : AccountId) : List (TxHash × DagNode) :=
  dag.nodes.toList.filter fun entry ↦ decide (entry.2.shift.sender = account)

/-- What a node, together with the concurrent nodes of its sender after it up to a second one,
spends in `u128` arithmetic. -/
def spentThrough (dag : VectorClockDag) (first second : TxHash × DagNode) : ℕ :=
  (first.2.shift.amount + concurrentSum first.2
    ((dag.spendsOf first.2.shift.sender).filter (between first second))) % 2 ^ 128

/-- A node overspends with an earlier one: they have the same sender, are concurrent, and what is
spent through the two exceeds the balance of the sender. -/
def overspendsWith (dag : VectorClockDag) (second first : TxHash × DagNode) : Bool :=
  decide (second.2.shift.sender = first.2.shift.sender) && decide (second.1 ≠ first.1) &&
    spendsBefore first second &&
    first.2.shift.vectorClock.concurrentWith second.2.shift.vectorClock &&
    decide (dag.balances.getD first.2.shift.sender 0 < dag.spentThrough first second)

/-- A node overspends with some earlier node. -/
def isOverspent (dag : VectorClockDag) (second : TxHash × DagNode) : Bool :=
  dag.nodes.toList.any (dag.overspendsWith second)

/-- The group of a sender has its nodes. -/
theorem getD_bySender (dag : VectorClockDag) (account : AccountId) :
    dag.bySender.getD account [] = dag.spendsOf account := by
  have hfold : ∀ (entries : List (TxHash × DagNode))
      (groups : ExtTreeMap AccountId (List (TxHash × DagNode))),
      (entries.foldl (fun groups entry ↦ groups.insert entry.2.shift.sender
        (groups.getD entry.2.shift.sender [] ++ [entry])) groups).getD account [] =
      groups.getD account [] ++
        entries.filter fun entry ↦ decide (entry.2.shift.sender = account) := by
    intro entries
    induction entries with
    | nil => simp
    | cons entry entries ih =>
      intro groups
      rw [List.foldl_cons, ih, ExtTreeMap.getD_insert, List.filter_cons]
      simp only [LawfulEqCmp.compare_eq_iff_eq, decide_eq_true_eq]
      by_cases hsender : entry.2.shift.sender = account
      · simp [hsender]
      · simp [hsender]
  unfold bySender
  rw [hfold, ExtTreeMap.getD_empty, List.nil_append]
  rfl

/-- The sorted nodes of a sender are sorted strictly. -/
theorem pairwise_sorted_spendsOf (dag : VectorClockDag) (account : AccountId) :
    ((dag.spendsOf account).insertionSort fun first second ↦ spendsBefore first second).Pairwise
      fun one other ↦ spendsBefore one other = true ∧ one.1 ≠ other.1 := by
  refine List.Pairwise.and (List.pairwise_insertionSort _ _) ?_
  have hdistinct : (dag.spendsOf account).Pairwise fun one other ↦ one.1 ≠ other.1 := by
    exact List.Pairwise.filter _ (List.pairwise_map.mp (nodup_keys dag.nodes))
  exact (List.perm_insertionSort _ _).symm.pairwise hdistinct fun hne ↦ Ne.symm hne

/-- The check over the nodes of one sender reports the nodes that overspend with an earlier one. -/
theorem mem_senderViolations_spendsOf (dag : VectorClockDag) (account : AccountId)
    (hash : TxHash) :
    .doubleSpend hash ∈ senderViolations (dag.balances.getD account 0)
        ((dag.spendsOf account).insertionSort fun first second ↦ spendsBefore first second) ↔
      ∃ second, (hash, second) ∈ dag.nodes.toList ∧ second.shift.sender = account ∧
        dag.isOverspent (hash, second) = true := by
  set sorted := (dag.spendsOf account).insertionSort fun first second ↦ spendsBefore first second
    with hsorted
  have hpairwise := dag.pairwise_sorted_spendsOf account
  have hperm : sorted.Perm (dag.spendsOf account) := List.perm_insertionSort _ _
  have hmem : ∀ entry, entry ∈ sorted ↔
      entry ∈ dag.nodes.toList ∧ entry.2.shift.sender = account := by
    intro entry
    rw [hperm.mem_iff, spendsOf, List.mem_filter, decide_eq_true_eq]
  have hsum : ∀ first second, first.2.shift.sender = account →
      concurrentSum first.2 (sorted.filter (between first second)) =
      concurrentSum first.2
        ((dag.spendsOf first.2.shift.sender).filter (between first second)) := by
    intro first second hsender
    rw [hsender]
    exact (((hperm.filter _).filter _).map _).sum_eq
  rw [mem_senderViolations_iff]
  constructor
  · rintro ⟨before, first, middle, second, after, hsplit, hconcurrent, hover⟩
    rw [← hsorted, hsplit] at hpairwise
    have hfilter := filter_between hpairwise
    rw [← hsplit] at hfilter
    have hfirst := (hmem first).mp (by rw [hsplit]; simp)
    have hsecond := (hmem (hash, second)).mp (by rw [hsplit]; simp)
    refine ⟨second, hsecond.1, hsecond.2, List.any_eq_true.mpr ⟨first, hfirst.1, ?_⟩⟩
    have horder := (List.pairwise_cons.mp (List.pairwise_append.mp hpairwise).2.1).1 (hash, second)
      (List.mem_append_right _ List.mem_cons_self)
    rw [← hfilter, hsum first _ hfirst.2] at hover
    simp only [overspendsWith, Bool.and_eq_true, decide_eq_true_eq]
    refine ⟨⟨⟨⟨?_, Ne.symm horder.2⟩, horder.1⟩, hconcurrent⟩, ?_⟩
    · rw [hfirst.2]
      exact hsecond.2
    · rw [hfirst.2]
      rw [spentThrough]
      exact hover
  · rintro ⟨second, hsecond, hsender, hoverspent⟩
    obtain ⟨first, hfirst, hover⟩ := List.any_eq_true.mp hoverspent
    simp only [overspendsWith, Bool.and_eq_true, decide_eq_true_eq] at hover
    obtain ⟨⟨⟨⟨hsame, hne⟩, hbefore⟩, hconcurrent⟩, hover⟩ := hover
    have haccount : first.2.shift.sender = account := by
      rw [← hsame]
      exact hsender
    obtain ⟨before, rest, hsplit⟩ := List.append_of_mem ((hmem first).mpr ⟨hfirst, haccount⟩)
    have hin : (hash, second) ∈ sorted := (hmem _).mpr ⟨hsecond, hsender⟩
    rw [← hsorted, hsplit] at hpairwise
    rw [hsplit, List.mem_append, List.mem_cons] at hin
    rcases hin with hearly | hself | hlate
    · have hback := (List.pairwise_append.mp hpairwise).2.2 _ hearly first List.mem_cons_self
      exact absurd (hash_eq_of_spendsBefore hback.1 hbefore) hne
    · exact absurd (congrArg Prod.fst hself) hne
    · obtain ⟨middle, after, hrest⟩ := List.append_of_mem hlate
      rw [hrest] at hsplit hpairwise
      have hfilter := filter_between hpairwise
      rw [← hsplit] at hfilter
      refine ⟨before, first, middle, second, after, hsplit, hconcurrent, ?_⟩
      rw [← hfilter, hsum first _ haccount]
      rw [spentThrough, haccount] at hover
      rw [haccount]
      exact hover

/-- The check reports exactly the overspent nodes, in whatever order it visits the senders. -/
theorem mem_detectDoubleSpends_iff (dag : VectorClockDag) (order : DagOrder) (hash : TxHash) :
    .doubleSpend hash ∈ dag.detectDoubleSpends order ↔
      ∃ node, dag.nodes[hash]? = some node ∧ dag.isOverspent (hash, node) = true := by
  have hgroup : ∀ account group, dag.bySender[account]? = some group →
      group = dag.spendsOf account := by
    intro account group hlookup
    rw [← getD_bySender, ExtTreeMap.getD_eq_getD_getElem?, hlookup, Option.getD_some]
  simp only [detectDoubleSpends, List.mem_flatMap, IterationOrder.mem_visit, Prod.exists,
    ExtTreeMap.mem_toList_iff_getElem?_eq_some]
  constructor
  · rintro ⟨account, group, hlookup, hreport⟩
    rw [hgroup account group hlookup, mem_senderViolations_spendsOf] at hreport
    obtain ⟨second, hmem, -, hover⟩ := hreport
    exact ⟨second, ExtTreeMap.mem_toList_iff_getElem?_eq_some.mp hmem, hover⟩
  · rintro ⟨node, hnode, hover⟩
    have hreport := (mem_senderViolations_spendsOf dag node.shift.sender hash).mpr
      ⟨node, ExtTreeMap.mem_toList_iff_getElem?_eq_some.mpr hnode, rfl, hover⟩
    refine ⟨node.shift.sender, dag.spendsOf node.shift.sender, ?_, hreport⟩
    have hmem : (hash, node) ∈ dag.bySender.getD node.shift.sender [] := by
      rw [getD_bySender, spendsOf, List.mem_filter]
      exact ⟨ExtTreeMap.mem_toList_iff_getElem?_eq_some.mpr hnode, by simp⟩
    cases hlookup : dag.bySender[node.shift.sender]? with
    | none => simp [ExtTreeMap.getD_eq_getD_getElem?, hlookup] at hmem
    | some group => rw [hgroup _ group hlookup]

/-! ### Marking -/

/-- Marking rejects the nodes that the violations name and leaves the others as they are. -/
theorem getElem?_markDoubleSpends (dag : VectorClockDag) (violations : List DagError)
    (hash : TxHash) :
    (dag.markDoubleSpends violations).nodes[hash]? =
      dag.nodes[hash]?.map fun node ↦
        if .doubleSpend hash ∈ violations
        then { node with status := .rejected (.doubleSpend hash) } else node := by
  unfold markDoubleSpends
  simp only
  generalize dag.nodes = nodes
  induction violations generalizing nodes with
  | nil => simp
  | cons violation violations ih =>
    rw [List.foldl_cons, ih]
    cases violation with
    | doubleSpend other =>
      rw [ExtTreeMap.getElem?_modify]
      simp only [LawfulEqCmp.compare_eq_iff_eq, List.mem_cons, DagError.doubleSpend.injEq]
      by_cases hother : other = hash
      · subst hother
        cases nodes[other]? with
        | none => simp
        | some node => simp
      · simp [hother, Ne.symm hother]
    | missingPredecessor other => simp
    | invalidSignature other => simp
    | insufficientBalance other => simp
    | causalCycle other => simp

end Fluidic.Consensus.VectorClockDag
