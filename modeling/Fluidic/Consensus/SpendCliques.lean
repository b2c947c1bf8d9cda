import Fluidic.Consensus.RunInvariant
import Mathlib.Algebra.Order.BigOperators.Group.List

/-!
# Sets of concurrent spends

The double-spend check keeps one running sum for each node, over the nodes behind it that are
concurrent with this one node. Concurrency is not transitive, so the sum may count nodes that are
not concurrent with each other. In a set of pairwise concurrent nodes the sum of the first one
counts at least the whole set, and when the set spends more than the balance the check reports at
the latest its last node (`Clique.exists_overspent`).

So of every such set a synthesis leaves either at most one node unrejected, or nodes that the
balance covers (`Oscillator.double_spends_complete`). A single node it leaves may still spend more
than the balance, which the application of the shifts finds out.
-/

set_option autoImplicit false
set_option relaxedAutoImplicit false

namespace Fluidic.Consensus

open Library Crypto Operator
open Std (ExtTreeMap LawfulEqCmp)

namespace VectorClockDag

/-! ### Amounts -/

/-- What a list of nodes spends. -/
def amountOf (spends : List (TxHash × DagNode)) : ℕ :=
  (spends.map fun entry ↦ entry.2.shift.amount).sum

/-- Distinct nodes of a list do not spend more than the list. Assumes: the nodes are distinct and
all in the list. -/
theorem amountOf_le_of_subset {part whole : List (TxHash × DagNode)} (hnodup : part.Nodup)
    (hsubset : part ⊆ whole) : amountOf part ≤ amountOf whole := by
  obtain ⟨arranged, hperm, hsublist⟩ := List.subperm_of_subset hnodup hsubset
  unfold amountOf
  rw [← (hperm.map _).sum_eq]
  exact (hsublist.map _).sum_le_sum fun _ _ ↦ Nat.zero_le _

/-- A sender does not spend more than all senders together. -/
theorem amountOf_spendsOf_le (dag : VectorClockDag) (account : AccountId) :
    amountOf (dag.spendsOf account) ≤ amountOf dag.nodes.toList :=
  amountOf_le_of_subset ((nodup_toList dag.nodes).filter _) (List.filter_subset_self _)

/-! ### Cliques -/

/-- At least two nodes of one sender, pairwise concurrent. -/
structure Clique (dag : VectorClockDag) (sender : AccountId) (spends : List (TxHash × DagNode)) :
    Prop where
  two_le : 2 ≤ spends.length
  nodup : (spends.map Prod.fst).Nodup
  node : ∀ entry ∈ spends, dag.nodes[entry.1]? = some entry.2
  sender_eq : ∀ entry ∈ spends, entry.2.shift.sender = sender
  concurrent : ∀ first ∈ spends, ∀ second ∈ spends, first.1 ≠ second.1 →
    first.2.shift.vectorClock.concurrentWith second.2.shift.vectorClock = true

/-- The first and the last of at least two nodes in the order of the check. Assumes: the hashes of
the nodes are distinct, and there are two of them. -/
theorem exists_ends {spends : List (TxHash × DagNode)} (hnodup : (spends.map Prod.fst).Nodup)
    (htwo : 2 ≤ spends.length) :
    ∃ first ∈ spends, ∃ last ∈ spends, first.1 ≠ last.1 ∧
      ∀ entry ∈ spends, spendsBefore first entry = true ∧ spendsBefore entry last = true := by
  have hreflexive (entry : TxHash × DagNode) : spendsBefore entry entry = true :=
    (spendsBefore_iff entry entry).mpr (.inr ⟨rfl, le_refl _⟩)
  have hperm := List.perm_insertionSort
    (fun first second : TxHash × DagNode ↦ spendsBefore first second = true) spends
  have hsorted := List.pairwise_insertionSort
    (fun first second : TxHash × DagNode ↦ spendsBefore first second = true) spends
  set sorted := spends.insertionSort fun first second ↦ spendsBefore first second = true
  have hlength : 2 ≤ sorted.length := by rwa [hperm.length_eq]
  obtain ⟨first, rest, hfirst⟩ := List.exists_cons_of_length_pos (by omega : 0 < sorted.length)
  rw [hfirst, List.length_cons] at hlength
  obtain ⟨init, last, hlast⟩ : ∃ init last, rest = init ++ [last] := by
    rcases List.eq_nil_or_concat rest with hnil | ⟨init, last, hlast⟩
    · rw [hnil, List.length_nil] at hlength
      omega
    · exact ⟨init, last, by rw [hlast, List.concat_eq_append]⟩
  rw [hfirst, List.pairwise_cons] at hsorted
  obtain ⟨hahead, hrest⟩ := hsorted
  rw [hlast, List.pairwise_append] at hrest
  have hdistinct : (sorted.map Prod.fst).Nodup := (hperm.map Prod.fst).nodup_iff.mpr hnodup
  rw [hfirst, hlast, List.map_cons, List.nodup_cons] at hdistinct
  have hmem (entry : TxHash × DagNode) : entry ∈ spends ↔ entry = first ∨ entry ∈ rest := by
    rw [← hperm.mem_iff, hfirst, List.mem_cons]
  have hlastMem : last ∈ rest := by
    rw [hlast]
    exact List.mem_append_right _ (List.mem_singleton_self last)
  refine ⟨first, (hmem first).mpr (.inl rfl), last, (hmem last).mpr (.inr hlastMem), ?_,
    fun entry hentry ↦ ⟨?_, ?_⟩⟩
  · intro hsame
    exact hdistinct.1 (hsame ▸ List.mem_map_of_mem (List.mem_append_right _
      (List.mem_singleton_self last)))
  · rcases (hmem entry).mp hentry with rfl | hlater
    · exact hreflexive entry
    · exact hahead entry hlater
  · rcases (hmem entry).mp hentry with rfl | hlater
    · exact hahead last hlastMem
    · rw [hlast, List.mem_append, List.mem_singleton] at hlater
      rcases hlater with hinner | rfl
      · exact hrest.2.2 entry hinner last (List.mem_singleton_self last)
      · exact hreflexive entry

theorem nodup_spendsOf (dag : VectorClockDag) (account : AccountId) :
    (dag.spendsOf account).Nodup :=
  (nodup_toList dag.nodes).filter _

/-- The nodes of a sender are a clique. Assumes: there are two, and any two are concurrent. -/
theorem clique_spendsOf {dag : VectorClockDag} {sender : AccountId}
    (htwo : 2 ≤ (dag.spendsOf sender).length)
    (hconcurrent : ∀ first ∈ dag.spendsOf sender, ∀ second ∈ dag.spendsOf sender,
      first.1 ≠ second.1 →
        first.2.shift.vectorClock.concurrentWith second.2.shift.vectorClock = true) :
    Clique dag sender (dag.spendsOf sender) where
  two_le := htwo
  nodup := (List.filter_sublist.map Prod.fst).nodup (nodup_keys dag.nodes)
  node entry hentry := by
    exact ExtTreeMap.mem_toList_iff_getElem?_eq_some.mp (List.mem_of_mem_filter hentry)
  sender_eq entry hentry := of_decide_eq_true (List.mem_filter.mp hentry).2
  concurrent := hconcurrent

theorem Clique.mem_spendsOf {dag : VectorClockDag} {sender : AccountId}
    {spends : List (TxHash × DagNode)} (hclique : Clique dag sender spends)
    {entry : TxHash × DagNode} (hentry : entry ∈ spends) : entry ∈ dag.spendsOf sender := by
  rw [spendsOf, List.mem_filter]
  exact ⟨ExtTreeMap.mem_toList_iff_getElem?_eq_some.mpr (hclique.node entry hentry),
    decide_eq_true (hclique.sender_eq entry hentry)⟩

/-- The nodes that the running sum of a node counts up to another one, besides the node itself. -/
def countedWith (dag : VectorClockDag) (first last : TxHash × DagNode) :
    List (TxHash × DagNode) :=
  ((dag.spendsOf first.2.shift.sender).filter (between first last)).filter fun entry ↦
    first.2.shift.vectorClock.concurrentWith entry.2.shift.vectorClock

/-- The running sum of a node counts no node twice, so that it does not wrap. Assumes: the node is
one of its sender, and what the sender spends fits. -/
theorem spentThrough_eq {dag : VectorClockDag} {first : TxHash × DagNode}
    (hfirst : first ∈ dag.spendsOf first.2.shift.sender)
    (hfits : amountOf (dag.spendsOf first.2.shift.sender) < 2 ^ 128)
    (last : TxHash × DagNode) :
    dag.spentThrough first last =
      first.2.shift.amount + amountOf (dag.countedWith first last) := by
  have habsent : first ∉ dag.countedWith first last := by
    intro hself
    have hbetween := (List.mem_filter.mp (List.mem_filter.mp hself).1).2
    simp [between] at hbetween
  have hnodup : (first :: dag.countedWith first last).Nodup :=
    List.nodup_cons.mpr ⟨habsent, ((dag.nodup_spendsOf _).filter _).filter _⟩
  have hsubset : first :: dag.countedWith first last ⊆ dag.spendsOf first.2.shift.sender := by
    intro entry hentry
    rcases List.mem_cons.mp hentry with rfl | hlater
    · exact hfirst
    · exact (List.mem_filter.mp (List.mem_filter.mp hlater).1).1
  exact Nat.mod_eq_of_lt (lt_of_le_of_lt (amountOf_le_of_subset hnodup hsubset) hfits)

/-- The running sum of the first node of a clique, up to the last one, counts the whole clique.
Assumes: the two nodes are the first and the last one of the clique. -/
theorem Clique.amountOf_le {dag : VectorClockDag} {sender : AccountId}
    {spends : List (TxHash × DagNode)} (hclique : Clique dag sender spends)
    {first last : TxHash × DagNode} (hfirst : first ∈ spends)
    (hends : ∀ entry ∈ spends, spendsBefore first entry = true ∧ spendsBefore entry last = true) :
    amountOf spends ≤ first.2.shift.amount + amountOf (dag.countedWith first last) := by
  have hsubset : spends ⊆ first :: dag.countedWith first last := by
    intro entry hentry
    by_cases hsame : entry.1 = first.1
    · have hnode := hclique.node entry hentry
      rw [hsame, hclique.node first hfirst, Option.some.injEq] at hnode
      rw [show entry = first from Prod.ext hsame hnode.symm]
      exact List.mem_cons_self
    · have hsender := hclique.mem_spendsOf hentry
      rw [← hclique.sender_eq first hfirst] at hsender
      refine List.mem_cons_of_mem _ (List.mem_filter.mpr ⟨List.mem_filter.mpr ⟨hsender, ?_⟩,
        hclique.concurrent first hfirst entry hentry (Ne.symm hsame)⟩)
      simp [between, hends entry hentry, hsame]
  exact amountOf_le_of_subset (List.Nodup.of_map Prod.fst hclique.nodup) hsubset

/-- A clique that spends more than the balance has an overspent node. Assumes: what the sender
spends fits, and the clique spends more than the balance. -/
theorem Clique.exists_overspent {dag : VectorClockDag} {sender : AccountId}
    {spends : List (TxHash × DagNode)} (hclique : Clique dag sender spends)
    (hfits : amountOf (dag.spendsOf sender) < 2 ^ 128)
    (hover : dag.balances.getD sender 0 < amountOf spends) :
    ∃ entry ∈ spends, dag.isOverspent entry = true := by
  -- the last node in the order of the check, with the first one as the earlier node
  obtain ⟨first, hfirst, last, hlast, hne, hends⟩ := exists_ends hclique.nodup hclique.two_le
  have hsender := hclique.sender_eq first hfirst
  have hspent : dag.spentThrough first last =
      first.2.shift.amount + amountOf (dag.countedWith first last) :=
    spentThrough_eq (hsender.symm ▸ hclique.mem_spendsOf hfirst) (hsender.symm ▸ hfits) last
  refine ⟨last, hlast, List.any_eq_true.mpr ⟨first, ?_, ?_⟩⟩
  · exact ExtTreeMap.mem_toList_iff_getElem?_eq_some.mpr (hclique.node first hfirst)
  · simp only [overspendsWith, Bool.and_eq_true, decide_eq_true_eq]
    refine ⟨⟨⟨⟨?_, hne.symm⟩, (hends last hlast).1⟩,
      hclique.concurrent first hfirst last hlast hne⟩, ?_⟩
    · rw [hclique.sender_eq last hlast, hsender]
    · rw [hspent, hsender]
      exact lt_of_lt_of_le hover (hclique.amountOf_le hfirst hends)

/-- Some nodes of a clique are a clique. Assumes: there are at least two of them. -/
theorem Clique.filter {dag : VectorClockDag} {sender : AccountId}
    {spends : List (TxHash × DagNode)} (hclique : Clique dag sender spends)
    {keep : TxHash × DagNode → Bool} (htwo : 2 ≤ (spends.filter keep).length) :
    Clique dag sender (spends.filter keep) where
  two_le := htwo
  nodup := (List.filter_sublist.map Prod.fst).nodup hclique.nodup
  node entry hentry := hclique.node entry (List.mem_of_mem_filter hentry)
  sender_eq entry hentry := hclique.sender_eq entry (List.mem_of_mem_filter hentry)
  concurrent first hfirst second hsecond :=
    hclique.concurrent first (List.mem_of_mem_filter hfirst) second (List.mem_of_mem_filter hsecond)

/-- Whether a DAG has an entry's node with a status other than rejected. -/
def isUnrejected (dag : VectorClockDag) (entry : TxHash × DagNode) : Bool :=
  match dag.nodes[entry.1]? with
  | some node => !node.status.isRejected
  | none => false

end VectorClockDag

namespace Oscillator

open VectorClockDag

variable {platform : Platform}

/-- In a synthesis an overspent node is rejected. Assumes: the check sees the node, overspent. -/
theorem isUnrejected_of_overspent {oscillator : Oscillator platform} {keys : KeyRegistry}
    (order : SynthesisOrder) {entry : TxHash × DagNode}
    (hnode : (oscillator.checkedDag keys).nodes[entry.1]? = some entry.2)
    (hoverspent : (oscillator.checkedDag keys).isOverspent entry = true) :
    (oscillator.preparedDag keys order).isUnrejected entry = false := by
  unfold isUnrejected
  rw [getElem?_preparedDag, hnode, Option.map_some]
  dsimp only
  rw [prepareNode_status_of_overspent oscillator.synthesisTick hoverspent]
  rfl

/-- The check reports a node of every clique that spends more than the balance. Of the nodes of a
clique that a synthesis does not reject, two or more do not spend more than the balance. Assumes:
what each sender spends fits. -/
theorem double_spends_complete :
    (∀ (dag : VectorClockDag) (order : DagOrder) (sender : AccountId)
      (spends : List (TxHash × DagNode)),
      (∀ account, amountOf (dag.spendsOf account) < 2 ^ 128) → Clique dag sender spends →
        dag.balances.getD sender 0 < amountOf spends →
          ∃ entry ∈ spends, .doubleSpend entry.1 ∈ dag.detectDoubleSpends order) ∧
    ∀ (oscillator : Oscillator platform) (keys : KeyRegistry) (order : SynthesisOrder)
      (sender : AccountId) (spends : List (TxHash × DagNode)),
      (∀ account, amountOf ((oscillator.checkedDag keys).spendsOf account) < 2 ^ 128) →
        Clique (oscillator.checkedDag keys) sender spends →
        2 ≤ (spends.filter (oscillator.preparedDag keys order).isUnrejected).length →
          amountOf (spends.filter (oscillator.preparedDag keys order).isUnrejected) ≤
            (oscillator.checkedDag keys).balances.getD sender 0 := by
  constructor
  · intro dag order sender spends hfits hclique hover
    obtain ⟨entry, hentry, hoverspent⟩ := hclique.exists_overspent (hfits sender) hover
    exact ⟨entry, hentry, (dag.mem_detectDoubleSpends_iff order entry.1).mpr
      ⟨entry.2, hclique.node entry hentry, hoverspent⟩⟩
  · intro oscillator keys order sender spends hfits hclique htwo
    by_contra hover
    obtain ⟨entry, hentry, hoverspent⟩ :=
      (hclique.filter htwo).exists_overspent (hfits sender) (Nat.lt_of_not_le hover)
    obtain ⟨hmem, hkept⟩ := List.mem_filter.mp hentry
    rw [isUnrejected_of_overspent order (hclique.node entry hmem) hoverspent] at hkept
    exact Bool.false_ne_true hkept

/-! ### Samples -/

/-- A funded account and three concurrent shifts of it, of one amount. -/
def concurrentQueue (balance amount : ℕ) : List Request :=
  [.seedAccount (sampleAccount 1) balance,
    .ingest (.stateful (StatefulShift.sample 1 amount [(1, 1)] [] 1 0)) 1,
    .ingest (.stateful (StatefulShift.sample 1 amount [(2, 1)] [] 2 0)) 1,
    .ingest (.stateful (StatefulShift.sample 1 amount [(3, 1)] [] 3 0)) 1]

/-- The node that received them. -/
def concurrentOscillator (balance amount : ℕ) : Option (Oscillator Platform.sample) :=
  run (step Platform.sample) anyStep (create 8 none (StakeTable.new StakingConfig.default))
    (concurrentQueue balance amount)

/-- The nodes of the account in the DAG that the check sees are concurrent, and what all senders
spend fits. -/
def isConcurrent (dag : VectorClockDag) : Bool :=
  decide (2 ≤ (dag.spendsOf (sampleAccount 1)).length) &&
    ((dag.spendsOf (sampleAccount 1)).all fun first ↦
      (dag.spendsOf (sampleAccount 1)).all fun second ↦ decide (first.1 = second.1) ||
        first.2.shift.vectorClock.concurrentWith second.2.shift.vectorClock) &&
    decide (amountOf dag.nodes.toList < 2 ^ 128)

theorem clique_of_isConcurrent {dag : VectorClockDag} (hconcurrent : isConcurrent dag = true) :
    (∀ account, amountOf (dag.spendsOf account) < 2 ^ 128) ∧
      Clique dag (sampleAccount 1) (dag.spendsOf (sampleAccount 1)) := by
  simp only [isConcurrent, Bool.and_eq_true, decide_eq_true_eq, List.all_eq_true,
    Bool.or_eq_true] at hconcurrent
  obtain ⟨⟨htwo, hall⟩, hfits⟩ := hconcurrent
  exact ⟨fun account ↦ lt_of_le_of_lt (dag.amountOf_spendsOf_le account) hfits,
    clique_spendsOf htwo fun first hfirst second hsecond hne ↦
      (hall first hfirst second hsecond).resolve_left hne⟩

/-- Of three concurrent shifts of 200 sub-units two are left, which the balance of 500 covers. -/
theorem double_spends_complete_concurrentQueue :
    ∃ oscillator, concurrentOscillator 500 200 = some oscillator ∧
      (∃ entry ∈ (oscillator.checkedDag sampleKeys).spendsOf (sampleAccount 1),
        .doubleSpend entry.1 ∈ (oscillator.checkedDag sampleKeys).detectDoubleSpends
          SynthesisOrder.forward.toDagOrder) ∧
      (((oscillator.checkedDag sampleKeys).spendsOf (sampleAccount 1)).filter
        (oscillator.preparedDag sampleKeys .forward).isUnrejected).length = 2 ∧
      amountOf (((oscillator.checkedDag sampleKeys).spendsOf (sampleAccount 1)).filter
        (oscillator.preparedDag sampleKeys .forward).isUnrejected) ≤
          (oscillator.checkedDag sampleKeys).balances.getD (sampleAccount 1) 0 := by
  have hruns : (concurrentOscillator 500 200).map (fun oscillator ↦
      isConcurrent (oscillator.checkedDag sampleKeys) &&
        decide ((oscillator.checkedDag sampleKeys).balances.getD (sampleAccount 1) 0 <
          amountOf ((oscillator.checkedDag sampleKeys).spendsOf (sampleAccount 1))) &&
        decide ((((oscillator.checkedDag sampleKeys).spendsOf (sampleAccount 1)).filter
          (oscillator.preparedDag sampleKeys .forward).isUnrejected).length = 2)) =
      some true := by
    decide +kernel
  obtain ⟨oscillator, hrun, hchecked⟩ := Option.map_eq_some_iff.mp hruns
  simp only [Bool.and_eq_true, decide_eq_true_eq] at hchecked
  obtain ⟨⟨hconcurrent, hover⟩, htwo⟩ := hchecked
  obtain ⟨hfits, hclique⟩ := clique_of_isConcurrent hconcurrent
  exact ⟨oscillator, hrun,
    (@double_spends_complete Platform.sample).1 _ _ _ _ hfits hclique hover, htwo,
    double_spends_complete.2 _ _ _ _ _ hfits hclique htwo.ge⟩

/-- Of three concurrent shifts of 600 sub-units one is left, which the balance of 500 does not
cover. -/
theorem lone_spend_exceeds :
    ∃ oscillator, concurrentOscillator 500 600 = some oscillator ∧
      (∀ account, amountOf ((oscillator.checkedDag sampleKeys).spendsOf account) < 2 ^ 128) ∧
      Clique (oscillator.checkedDag sampleKeys) (sampleAccount 1)
        ((oscillator.checkedDag sampleKeys).spendsOf (sampleAccount 1)) ∧
      (oscillator.checkedDag sampleKeys).balances.getD (sampleAccount 1) 0 <
        amountOf (((oscillator.checkedDag sampleKeys).spendsOf (sampleAccount 1)).filter
          (oscillator.preparedDag sampleKeys .forward).isUnrejected) := by
  have hruns : (concurrentOscillator 500 600).map (fun oscillator ↦
      isConcurrent (oscillator.checkedDag sampleKeys) &&
        decide ((oscillator.checkedDag sampleKeys).balances.getD (sampleAccount 1) 0 <
          amountOf (((oscillator.checkedDag sampleKeys).spendsOf (sampleAccount 1)).filter
            (oscillator.preparedDag sampleKeys .forward).isUnrejected))) = some true := by
    decide +kernel
  obtain ⟨oscillator, hrun, hchecked⟩ := Option.map_eq_some_iff.mp hruns
  rw [Bool.and_eq_true, decide_eq_true_eq] at hchecked
  obtain ⟨hfits, hclique⟩ := clique_of_isConcurrent hchecked.1
  exact ⟨oscillator, hrun, hfits, hclique, hchecked.2⟩

end Oscillator

end Fluidic.Consensus
