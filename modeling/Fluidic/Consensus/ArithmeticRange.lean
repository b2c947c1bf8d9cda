import Fluidic.Consensus.CounterRange
import Fluidic.Consensus.CommutativeSettlement
import Fluidic.Library.PairUpdate

/-!
# The arithmetic of a synthesis within its ranges

A synthesis adds and subtracts without a guard at its counters, which are in
`Fluidic.Consensus.CounterRange`, and in three more places: the running sum of the double-spend
check, the sums of a commutative batch per pool, and the update of the balances. Each of the three
has a version here that traps where a result leaves the range of its type, and that agrees with the
wrapping one where it does not (`detectDoubleSpendsChecked_eq`, `poolAggregatesChecked_eq`,
`transferBalancesChecked_eq`). The balances never trap. The other two take amounts and deltas as the
signals carry them.

`ArithmeticFits` says that no such operation of a synthesis traps. It asks that the amounts, the
deltas and the counters of the decay fit (`AmountsFit`), and holds when the stakes and the tallies
behind a quorum fit as well (`QuorumFits`): `arithmetic_fits`.
-/

set_option autoImplicit false
set_option relaxedAutoImplicit false

namespace Fluidic.Consensus

open Library Crypto Fluidic.Field Value Operator Evm
open Std (ExtTreeMap ExtTreeSet LawfulEqCmp)

namespace VectorClockDag

/-! ### The double-spend check -/

/-- The inner loop of the check, which traps where the running sum leaves its 128 bits. -/
def spendViolationsChecked (balance : ℕ) (first : DagNode) :
    ℕ → List (TxHash × DagNode) → Option (List DagError)
  | _, [] => some []
  | spent, (hash, second) :: rest =>
    if first.shift.vectorClock.concurrentWith second.shift.vectorClock then do
      let total ← checkedAdd 128 spent second.shift.amount
      let violations ← spendViolationsChecked balance first total rest
      return if balance < total then .doubleSpend hash :: violations else violations
    else spendViolationsChecked balance first spent rest

/-- The outer loop of the check over the ordered nodes of one sender. -/
def senderViolationsChecked (balance : ℕ) : List (TxHash × DagNode) → Option (List DagError)
  | [] => some []
  | (_, first) :: rest => do
    let violations ← spendViolationsChecked balance first first.shift.amount rest
    let later ← senderViolationsChecked balance rest
    return violations ++ later

/-- The check, which traps where a running sum leaves its 128 bits. -/
def detectDoubleSpendsChecked (dag : VectorClockDag) (order : DagOrder) :
    Option (List DagError) :=
  ((order.senders.visit dag.bySender.toList).mapM fun group ↦
    senderViolationsChecked (dag.balances.getD group.1 0)
      (group.2.insertionSort fun first second ↦ spendsBefore first second)).map List.flatten

/-- The amount of every node and those of the concurrent nodes behind it fit together. -/
def SumsFit : List (TxHash × DagNode) → Prop
  | [] => True
  | first :: rest =>
    first.2.shift.amount + concurrentSum first.2 rest < 2 ^ 128 ∧ SumsFit rest

/-- The inner loop traps unless the sum over the concurrent nodes fits. Assumes: what is spent
before it fits. -/
theorem spendViolationsChecked_eq {balance : ℕ} {first : DagNode} {spent : ℕ}
    (hspent : spent < 2 ^ 128) (rest : List (TxHash × DagNode)) :
    spendViolationsChecked balance first spent rest =
      if spent + concurrentSum first rest < 2 ^ 128 then
        some (spendViolations balance first spent rest)
      else none := by
  induction rest generalizing spent with
  | nil =>
    have hsum : spent + concurrentSum first [] < 2 ^ 128 := hspent
    rw [if_pos hsum]
    rfl
  | cons entry rest ih =>
    obtain ⟨hash, second⟩ := entry
    rw [concurrentSum_cons]
    unfold spendViolationsChecked spendViolations
    by_cases hconcurrent : first.shift.vectorClock.concurrentWith second.shift.vectorClock = true
    · rw [if_pos hconcurrent, if_pos hconcurrent, if_pos hconcurrent, ← Nat.add_assoc]
      by_cases htotal : spent + second.shift.amount < 2 ^ 128
      · have hchecked : checkedAdd 128 spent second.shift.amount =
            some (spent + second.shift.amount) := if_pos htotal
        dsimp only
        rw [hchecked, Option.bind_eq_bind, Option.bind_some, ih htotal, wrappingAdd_of_lt htotal]
        by_cases hfits : spent + second.shift.amount + concurrentSum first rest < 2 ^ 128
        · rw [if_pos hfits, if_pos hfits]
          by_cases hover : balance < spent + second.shift.amount
          · rw [if_pos hover]
            simp [hover]
          · rw [if_neg hover]
            simp [hover]
        · rw [if_neg hfits, if_neg hfits]
          rfl
      · have hchecked : checkedAdd 128 spent second.shift.amount = none := if_neg htotal
        dsimp only
        rw [hchecked, if_neg (by omega)]
        rfl
    · rw [if_neg hconcurrent, if_neg hconcurrent, if_neg hconcurrent, Nat.zero_add]
      exact ih hspent

/-- The outer loop runs through exactly when all sums fit, and then finds what the wrapping one
does. Assumes: the amounts are below 2^128. -/
theorem senderViolationsChecked_eq_some_iff {balance : ℕ} {entries : List (TxHash × DagNode)}
    (hamounts : ∀ entry ∈ entries, entry.2.shift.amount < 2 ^ 128)
    (violations : List DagError) :
    senderViolationsChecked balance entries = some violations ↔
      SumsFit entries ∧ violations = senderViolations balance entries := by
  induction entries generalizing violations with
  | nil =>
    unfold senderViolationsChecked senderViolations SumsFit
    rw [Option.some.injEq, true_and, eq_comm]
  | cons entry entries ih =>
    obtain ⟨hash, first⟩ := entry
    have hfirst : first.shift.amount < 2 ^ 128 := hamounts _ List.mem_cons_self
    have hrest := ih fun other hother ↦ hamounts other (List.mem_cons_of_mem _ hother)
    unfold senderViolationsChecked senderViolations SumsFit
    rw [spendViolationsChecked_eq hfirst]
    by_cases hfits : first.shift.amount + concurrentSum first entries < 2 ^ 128
    · rw [if_pos hfits]
      simp only [Option.bind_eq_bind, Option.bind_some, Option.bind_eq_some_iff, hrest,
        Option.pure_def, Option.some.injEq]
      constructor
      · rintro ⟨later, ⟨hlater, rfl⟩, rfl⟩
        exact ⟨⟨hfits, hlater⟩, rfl⟩
      · rintro ⟨⟨-, hlater⟩, rfl⟩
        exact ⟨_, ⟨hlater, rfl⟩, rfl⟩
    · rw [if_neg hfits]
      exact iff_of_false (by simp) fun hboth ↦ hfits hboth.1.1

/-- An entry strictly after a first one in the order of the check. -/
def spendsAfter (first entry : TxHash × DagNode) : Bool :=
  spendsBefore first entry && decide (entry.1 ≠ first.1)

/-- The sums of an ordered list are those over the entries after each. Assumes: the list is sorted,
and its hashes are distinct. -/
theorem sumsFit_iff {entries : List (TxHash × DagNode)}
    (hsorted : entries.Pairwise fun one other ↦ spendsBefore one other = true ∧ one.1 ≠ other.1) :
    SumsFit entries ↔ ∀ entry ∈ entries, entry.2.shift.amount +
      concurrentSum entry.2 (entries.filter (spendsAfter entry)) < 2 ^ 128 := by
  induction entries with
  | nil => simp [SumsFit]
  | cons first rest ih =>
    obtain ⟨hfirst, hrest⟩ := List.pairwise_cons.mp hsorted
    have hself : spendsAfter first first = false := by simp [spendsAfter]
    have hafter : rest.filter (spendsAfter first) = rest := by
      rw [List.filter_eq_self]
      intro entry hentry
      obtain ⟨hle, hne⟩ := hfirst entry hentry
      simp [spendsAfter, hle, hne.symm]
    have hearlier (entry : TxHash × DagNode) (hentry : entry ∈ rest) :
        spendsAfter entry first = false := by
      obtain ⟨hle, hne⟩ := hfirst entry hentry
      have hnot : spendsBefore entry first = false := by
        rw [Bool.eq_false_iff]
        exact fun hback ↦ hne (hash_eq_of_spendsBefore hle hback)
      simp [spendsAfter, hnot]
    rw [SumsFit, ih hrest, List.forall_mem_cons, List.filter_cons_of_neg (by simp [hself]), hafter]
    refine and_congr_right fun _ ↦ forall₂_congr fun entry hentry ↦ ?_
    rw [List.filter_cons_of_neg (by simp [hearlier entry hentry])]

/-- The amount of every node and those of the concurrent nodes of its sender after it fit together.
-/
def SpendsFit (dag : VectorClockDag) : Prop :=
  ∀ entry ∈ dag.nodes.toList, entry.2.shift.amount + concurrentSum entry.2
    ((dag.spendsOf entry.2.shift.sender).filter (spendsAfter entry)) < 2 ^ 128

/-- They fit exactly when the spends of the nodes do. -/
theorem spendsFit_iff (dag : VectorClockDag) :
    dag.SpendsFit ↔ Spend.WithinRange (dag.nodes.toList.map spendOf) := by
  unfold SpendsFit Spend.WithinRange
  rw [List.forall_mem_map]
  refine forall₂_congr fun entry hentry ↦ ?_
  have hlater : ∀ other ∈ dag.nodes.toList,
      (entry.2.shift.vectorClock.concurrentWith other.2.shift.vectorClock &&
        spendsAfter entry other && decide (other.2.shift.sender = entry.2.shift.sender)) =
      (spendOf entry).rivals (spendOf other) := by
    intro other hother
    rw [Spend.rivals_spendOf hentry hother]
    unfold spendsAfter
    simp only [Bool.and_assoc, Bool.and_comm]
  have hsum : concurrentSum entry.2 ((dag.spendsOf entry.2.shift.sender).filter
      (spendsAfter entry)) =
        Spend.total ((dag.nodes.toList.map spendOf).filter (spendOf entry).rivals) := by
    unfold concurrentSum spendsOf Spend.total
    rw [List.filter_filter, List.filter_filter, List.filter_map, List.map_map]
    exact congrArg List.sum (congrArg (List.map _) (List.filter_congr hlater))
  rw [hsum]
  rfl

/-- The groups of the check are the senders with their nodes. -/
theorem mem_bySender (dag : VectorClockDag) (group : AccountId × List (TxHash × DagNode)) :
    group ∈ dag.bySender.toList ↔
      (∃ entry ∈ dag.nodes.toList, entry.2.shift.sender = group.1) ∧
        group.2 = dag.spendsOf group.1 := by
  have hgather : ∀ entries group : List (TxHash × DagNode),
      entries.foldl (fun group entry ↦ group ++ [entry]) group = group ++ entries := by
    intro entries
    induction entries with
    | nil => simp
    | cons entry entries ih => simp [ih]
  have hmem := mem_toList_accumulate (fun entry : TxHash × DagNode ↦ entry.2.shift.sender)
    (fun group entry ↦ group ++ [entry]) [] dag.nodes.toList group
  rw [hgather, List.nil_append] at hmem
  exact hmem

/-- The sums of the sorted nodes of a sender are those over its nodes after each. -/
theorem sumsFit_spendsOf_iff (dag : VectorClockDag) (account : AccountId) :
    SumsFit ((dag.spendsOf account).insertionSort fun first second ↦ spendsBefore first second) ↔
      ∀ entry ∈ dag.spendsOf account, entry.2.shift.amount +
        concurrentSum entry.2 ((dag.spendsOf account).filter (spendsAfter entry)) < 2 ^ 128 := by
  have hperm := List.perm_insertionSort (fun first second ↦ spendsBefore first second = true)
    (dag.spendsOf account)
  rw [sumsFit_iff (dag.pairwise_sorted_spendsOf account)]
  simp only [hperm.mem_iff]
  refine forall₂_congr fun entry _ ↦ ?_
  have hsum : concurrentSum entry.2 (((dag.spendsOf account).insertionSort fun first second ↦
      spendsBefore first second).filter (spendsAfter entry)) =
      concurrentSum entry.2 ((dag.spendsOf account).filter (spendsAfter entry)) :=
    (((hperm.filter _).filter _).map _).sum_eq
  rw [hsum]

/-- The check runs through exactly when the amounts of its DAG fit, and then finds what the wrapping
one does. Assumes: the amount of each node is below 2^128. -/
theorem detectDoubleSpendsChecked_eq {dag : VectorClockDag}
    (hamounts : ∀ entry ∈ dag.nodes.toList, entry.2.shift.amount < 2 ^ 128) (order : DagOrder)
    (violations : List DagError) :
    dag.detectDoubleSpendsChecked order = some violations ↔
      dag.SpendsFit ∧ violations = dag.detectDoubleSpends order := by
  have hgroups (group : AccountId × List (TxHash × DagNode))
      (hgroup : group ∈ order.senders.visit dag.bySender.toList) (found : List DagError) :
      senderViolationsChecked (dag.balances.getD group.1 0)
          (group.2.insertionSort fun first second ↦ spendsBefore first second) = some found ↔
        SumsFit (group.2.insertionSort fun first second ↦ spendsBefore first second) ∧
          found = senderViolations (dag.balances.getD group.1 0)
            (group.2.insertionSort fun first second ↦ spendsBefore first second) := by
    apply senderViolationsChecked_eq_some_iff
    intro entry hentry
    obtain ⟨-, hspends⟩ := (dag.mem_bySender group).mp ((IterationOrder.mem_visit ..).mp hgroup)
    rw [List.mem_insertionSort, hspends] at hentry
    exact hamounts entry (List.mem_filter.mp hentry).1
  have hfits : (∀ group ∈ order.senders.visit dag.bySender.toList,
      SumsFit (group.2.insertionSort fun first second ↦ spendsBefore first second)) ↔
        dag.SpendsFit := by
    simp only [IterationOrder.mem_visit, mem_bySender]
    constructor
    · intro hall entry hentry
      have hgroup := hall (entry.2.shift.sender, dag.spendsOf entry.2.shift.sender)
        ⟨⟨entry, hentry, rfl⟩, rfl⟩
      exact (dag.sumsFit_spendsOf_iff _).mp hgroup entry
        (List.mem_filter.mpr ⟨hentry, decide_eq_true rfl⟩)
    · rintro hall group ⟨-, hgroup⟩
      rw [hgroup, sumsFit_spendsOf_iff]
      intro entry hentry
      obtain ⟨hnode, hsender⟩ := List.mem_filter.mp hentry
      have hsum := hall entry hnode
      rwa [of_decide_eq_true hsender] at hsum
  unfold detectDoubleSpendsChecked detectDoubleSpends
  rw [Option.map_eq_some_iff]
  simp only [mapM_eq_some_iff hgroups, hfits]
  constructor
  · rintro ⟨_, ⟨hall, rfl⟩, rfl⟩
    exact ⟨hall, List.flatMap_def.symm⟩
  · rintro ⟨hall, rfl⟩
    exact ⟨_, ⟨hall, rfl⟩, List.flatMap_def.symm⟩

end VectorClockDag

namespace Oscillator

variable {platform : Platform}

/-! ### Pool sums -/

/-- The deltas of a batch summed per pool, which traps where a sum leaves its 128 bits. -/
def poolAggregatesChecked (deltas : List (Coordinate × ℤ × PoolId)) :
    Option (ExtTreeMap PoolId ℤ) :=
  deltas.foldlM
    (fun totals delta ↦ do
      let total ← checkedAddSigned 128 (totals.getD delta.2.2 0) delta.2.1
      return totals.insert delta.2.2 total) ∅

/-- A signed integer of 128 bits. -/
def IsI128 (value : ℤ) : Prop := -2 ^ 127 ≤ value ∧ value < 2 ^ 127

/-- The deltas up to each one have a sum for its pool that fits. -/
def DeltasFit (deltas : List (Coordinate × ℤ × PoolId)) : Prop :=
  ∀ before delta after, deltas = before ++ delta :: after →
    IsI128 (poolSum (before ++ [delta]) delta.2.2)

theorem poolSum_concat (deltas : List (Coordinate × ℤ × PoolId)) (delta : Coordinate × ℤ × PoolId)
    (pool : PoolId) :
    poolSum (deltas ++ [delta]) pool =
      if delta.2.2 = pool then poolSum deltas pool + delta.2.1 else poolSum deltas pool := by
  rw [poolSum_append]
  by_cases hpool : delta.2.2 = pool
  · simp [poolSum, hpool]
  · simp [poolSum, hpool]

/-- A batch with one more delta fits when the batch does and the sum for the pool of the delta. -/
theorem deltasFit_append (deltas : List (Coordinate × ℤ × PoolId))
    (delta : Coordinate × ℤ × PoolId) :
    DeltasFit (deltas ++ [delta]) ↔
      DeltasFit deltas ∧ IsI128 (poolSum (deltas ++ [delta]) delta.2.2) := by
  constructor
  · intro hfits
    refine ⟨fun before other after hsplit ↦ ?_, hfits deltas delta [] rfl⟩
    apply hfits before other (after ++ [delta])
    rw [hsplit, List.append_assoc, List.cons_append]
  · rintro ⟨hfits, hlast⟩ before other after hsplit
    obtain rfl | ⟨rest, final, rfl⟩ := List.eq_nil_or_concat' after
    · obtain ⟨rfl, hsame⟩ := List.append_inj' hsplit rfl
      rw [← (List.cons.inj hsame).1]
      exact hlast
    · rw [← List.cons_append, ← List.append_assoc] at hsplit
      exact hfits before other rest (List.append_inj' hsplit rfl).1

theorem i128WrappingAdd_eq {a b : ℤ} (hsum : IsI128 (a + b)) : i128WrappingAdd a b = a + b := by
  obtain ⟨hlow, hhigh⟩ := hsum
  unfold i128WrappingAdd
  apply Int.bmod_eq_of_le
  · norm_num
    omega
  · norm_num
    omega

theorem poolAggregates_append (deltas : List (Coordinate × ℤ × PoolId))
    (delta : Coordinate × ℤ × PoolId) :
    WaveField.poolAggregates (deltas ++ [delta]) = (WaveField.poolAggregates deltas).insert
      delta.2.2 (i128WrappingAdd ((WaveField.poolAggregates deltas).getD delta.2.2 0)
        delta.2.1) := by
  unfold WaveField.poolAggregates
  rw [List.foldl_append]
  rfl

theorem poolAggregatesChecked_append (deltas : List (Coordinate × ℤ × PoolId))
    (delta : Coordinate × ℤ × PoolId) :
    poolAggregatesChecked (deltas ++ [delta]) = (poolAggregatesChecked deltas).bind fun totals ↦
      (checkedAddSigned 128 (totals.getD delta.2.2 0) delta.2.1).map fun total ↦
        totals.insert delta.2.2 total := by
  unfold poolAggregatesChecked
  rw [List.foldlM_append, Option.bind_eq_bind]
  refine congrArg (Option.bind _) (funext fun totals ↦ ?_)
  rw [List.foldlM_cons, Option.map_eq_bind]
  cases checkedAddSigned 128 (totals.getD delta.2.2 0) delta.2.1 <;> rfl

/-- The aggregation runs through exactly when the sums of the batch fit, and then finds what the
wrapping one does, which are the sums. -/
theorem poolAggregatesChecked_eq (deltas : List (Coordinate × ℤ × PoolId)) :
    (DeltasFit deltas → poolAggregatesChecked deltas = some (WaveField.poolAggregates deltas) ∧
      ∀ pool, (WaveField.poolAggregates deltas).getD pool 0 = poolSum deltas pool) ∧
    (¬DeltasFit deltas → poolAggregatesChecked deltas = none) := by
  induction deltas using List.reverseRecOn with
  | nil =>
    refine ⟨fun _ ↦ ⟨rfl, fun pool ↦ ExtTreeMap.getD_empty⟩, fun hfits ↦ (hfits ?_).elim⟩
    intro before delta after hsplit
    cases before <;> cases hsplit
  | append_singleton deltas delta ih =>
    obtain ⟨hsome, hnone⟩ := ih
    have hnext : poolSum (deltas ++ [delta]) delta.2.2 = poolSum deltas delta.2.2 + delta.2.1 :=
      (poolSum_concat deltas delta delta.2.2).trans (if_pos rfl)
    rw [deltasFit_append, poolAggregatesChecked_append, poolAggregates_append]
    by_cases hearlier : DeltasFit deltas
    · obtain ⟨hchecked, hsums⟩ := hsome hearlier
      rw [hchecked, Option.bind_some, hsums, hnext]
      by_cases hfits : IsI128 (poolSum deltas delta.2.2 + delta.2.1)
      · refine ⟨fun _ ↦ ?_, fun hnot ↦ (hnot ⟨hearlier, hfits⟩).elim⟩
        have hadd : checkedAddSigned 128 (poolSum deltas delta.2.2) delta.2.1 =
            some (poolSum deltas delta.2.2 + delta.2.1) := if_pos hfits
        rw [hadd, i128WrappingAdd_eq hfits]
        refine ⟨rfl, fun pool ↦ ?_⟩
        rw [ExtTreeMap.getD_insert, hsums, poolSum_concat]
        by_cases hpool : delta.2.2 = pool
        · simp [hpool]
        · simp [hpool]
      · refine ⟨fun hboth ↦ (hfits hboth.2).elim, fun _ ↦ ?_⟩
        have hadd : checkedAddSigned 128 (poolSum deltas delta.2.2) delta.2.1 = none := if_neg hfits
        rw [hadd]
        rfl
    · rw [hnone hearlier]
      exact ⟨fun hboth ↦ (hearlier hboth.1).elim, fun _ ↦ rfl⟩

/-! ### Balances -/

/-- The update of the balances, which traps where a difference or a sum leaves its 128 bits. -/
def transferBalancesChecked (balances : ExtTreeMap AccountId ℕ) (shift : StatefulShift)
    (net : ℕ) : Option (ExtTreeMap AccountId ℕ) := do
  let held ← balances[shift.sender]?
  let rest ← checkedSub held shift.amount
  let debited := balances.insert shift.sender rest
  let credited ← checkedAdd 128 (debited.getD shift.recipient 0) net
  return debited.insert shift.recipient credited

/-- The update of the balances traps neither where it debits nor where it credits. Assumes: the
sender covers the amount, the net amount is at most it, and the balances sum to less than half the
range. -/
theorem transferBalancesChecked_eq {balances : ExtTreeMap AccountId ℕ} {shift : StatefulShift}
    {held net : ℕ} (hheld : balances[shift.sender]? = some held) (hcovered : shift.amount ≤ held)
    (hnet : net ≤ shift.amount) (htotal : totalUnits balances < 2 ^ 127) :
    ∃ next, transferBalances balances shift net = some next ∧
      transferBalancesChecked balances shift net = some next := by
  have hbound (account : AccountId) : balances.getD account 0 < 2 ^ 127 :=
    (getD_le_totalUnits balances account).trans_lt htotal
  have hsender := hbound shift.sender
  rw [ExtTreeMap.getD_eq_getD_getElem?, hheld, Option.getD_some] at hsender
  have hcredit : (balances.insert shift.sender (held - shift.amount)).getD shift.recipient 0 + net <
      2 ^ 128 := by
    have hrecipient := hbound shift.recipient
    rw [ExtTreeMap.getD_insert]
    split_ifs <;> omega
  have hsub : checkedSub held shift.amount = some (held - shift.amount) := if_pos hcovered
  have hadd : checkedAdd 128 ((balances.insert shift.sender (held - shift.amount)).getD
      shift.recipient 0) net = some ((balances.insert shift.sender (held - shift.amount)).getD
        shift.recipient 0 + net) := if_pos hcredit
  refine ⟨_, transferBalances_eq hheld hcovered hnet
    (htotal.trans (Nat.pow_lt_pow_right (by omega) (by omega))), ?_⟩
  unfold transferBalancesChecked
  simp only [hheld, hsub, Option.bind_eq_bind, Option.bind_some]
  rw [hadd]
  rfl

/-! ### A synthesis -/

/-- No unguarded operation of a synthesis leaves its range: neither in the decay, nor in the
double-spend check, nor in the batches of the domains, nor where a turn of the loop asks for the
quorum of a strict domain or transfers, nor with the certificate of the node. No fee is charged, so
that the fees are neither summed nor distributed. -/
structure ArithmeticFits (oscillator : Oscillator platform) (keys : KeyRegistry)
    (order : SynthesisOrder) (timestampNs : ℕ) : Prop where
  decay : oscillator.decayPhaseChecked oscillator.synthesisTick =
    some (oscillator.decayPhase oscillator.synthesisTick)
  spends : (oscillator.checkedDag keys).detectDoubleSpendsChecked order.toDagOrder =
    some ((oscillator.checkedDag keys).detectDoubleSpends order.toDagOrder)
  pools : ∀ batch ∈ (byDomain oscillator.domainRegistry oscillator.pendingCommutative).toList,
    poolAggregatesChecked batch.2 = some (WaveField.poolAggregates batch.2)
  quorums : ∀ before hash ledger node policy, Turn oscillator keys order before hash ledger node →
    node.status.isRejected = false → node.applied = false →
    (keys[node.shift.sender]?.any fun publicKey ↦
      node.shift.verifySignature platform.primitives publicKey) = true →
    oscillator.domainRegistry.get? node.shift.domain = some policy → policy.ordering = .strict →
    quorumThresholdChecked oscillator.stakeTable = some oscillator.stakeTable.quorumThreshold
  balances : ∀ before hash ledger node fee net, Turn oscillator keys order before hash ledger node →
    oscillator.outcomeAt keys order ledger node = .transfer node.shift fee net →
    ∃ next, transferBalances ledger.balances node.shift net = some next ∧
      transferBalancesChecked ledger.balances node.shift net = some next
  fees : ∀ (placed : List TxHash) (ledger : Ledger),
    placed.foldlM ((oscillator.prepared keys order).applyShift keys order)
      (oscillator.prepared keys order).openLedger = some ledger → ledger.totalFees = 0
  certificate : ∀ keypair final result hashes cert, oscillator.operatorKeypair = some keypair →
    oscillator.synthesize keys order timestampNs = some (final, result, hashes) →
    final.certificates[oscillator.synthesisTick]? = some cert →
    cert.operator = keypair.accountId platform.primitives → cert.tick = oscillator.synthesisTick →
    (oscillator.prepared keys order).ingestCertificateChecked cert keys =
      some ((oscillator.prepared keys order).ingestCertificate cert keys)

/-- The counters have room for the decay of the tick. The amounts of the stored shifts and of the
queued ones that are inserted, with those of the concurrent ones of their senders after them, and
the deltas of each domain that takes them, up to each one for its pool, add up within their ranges.
-/
structure AmountsFit (oscillator : Oscillator platform) (keys : KeyRegistry) : Prop where
  decay : oscillator.DecayFits
  shifts : Spend.WithinRange (oscillator.visibleSpends keys)
  deltas : ∀ domain, oscillator.domainRegistry.isCommutative domain = true →
    DeltasFit (groupOf oscillator.domainRegistry oscillator.pendingCommutative domain)

/-- The domain of a spend needs a quorum. -/
def isStrict (oscillator : Oscillator platform) (spend : Spend) : Bool :=
  (oscillator.domainRegistry.get? spend.shift.domain).any fun policy ↦
    decide (policy.ordering = .strict)

/-- The stakes fit together when an open shift needs a quorum. The stake of the node's own operator
has room in every tally of the tick and, when a certificate of the operator is kept for the tick, in
the burned supply. -/
structure QuorumFits (oscillator : Oscillator platform) : Prop where
  stakes : (∃ spend ∈ oscillator.openSpends, oscillator.isStrict spend = true) →
    liveStakes oscillator.stakeTable < 2 ^ 128
  tallies : ∀ keypair ∈ oscillator.operatorKeypair,
    TalliesFit oscillator.certificateTracker oscillator.synthesisTick
      (oscillator.stakeTable.getStake (keypair.accountId platform.primitives))
  burned : ∀ keypair ∈ oscillator.operatorKeypair,
    (keypair.accountId platform.primitives, oscillator.synthesisTick) ∈
      oscillator.certificateTracker.byOperatorTick →
    oscillator.supplyTracker.burned + decayBurn oscillator +
      oscillator.stakeTable.getStake (keypair.accountId platform.primitives) < 2 ^ 128

/-- The registered domains take no fee. -/
def MetabolicOnly (registry : DomainRegistry) : Prop :=
  ∀ domain policy, registry.get? domain = some policy → policy.feePolicy = .metabolicOnly

instance (registry : DomainRegistry) : Decidable (MetabolicOnly registry) :=
  decidable_of_iff (∀ entry ∈ registry.domains.toList, entry.2.feePolicy = .metabolicOnly)
    ⟨fun hall domain policy hpolicy ↦ hall (domain, policy)
      (ExtTreeMap.mem_toList_iff_getElem?_eq_some.mpr hpolicy),
    fun hmetabolic entry hentry ↦ hmetabolic entry.1 entry.2
      (ExtTreeMap.mem_toList_iff_getElem?_eq_some.mp hentry)⟩

theorem MetabolicOnly.boundedFees {registry : DomainRegistry}
    (hmetabolic : MetabolicOnly registry) :
    BoundedFees registry := by
  intro domain policy hpolicy
  rw [hmetabolic domain policy hpolicy]
  rfl

/-- The amounts of the checked DAG are those of shifts of the DAG before and of queued shifts.
Assumes: the amounts of both are below 2^128. -/
theorem checkedDag_amount {oscillator : Oscillator platform}
    (hnodes : ∀ (hash : TxHash) (node : DagNode), oscillator.dag.nodes[hash]? = some node →
      node.shift.amount < 2 ^ 128)
    (hqueued : ∀ shift ∈ oscillator.pendingStateful, shift.amount < 2 ^ 128) (keys : KeyRegistry) :
    ∀ entry ∈ (oscillator.checkedDag keys).nodes.toList, entry.2.shift.amount < 2 ^ 128 := by
  rintro ⟨hash, node⟩ hentry
  rcases checkedDag_cases (ExtTreeMap.mem_toList_iff_getElem?_eq_some.mp hentry) with
    ⟨old, hold, hcore⟩ | ⟨shift, hshift, depth, -, hcore⟩
  · have hsame : node.core.shift = old.core.shift := congrArg DagNode.shift hcore
    rw [DagNode.core_shift, DagNode.core_shift] at hsame
    rw [hsame]
    exact hnodes hash old hold
  · have hsame : node.core.shift = shift := congrArg DagNode.shift hcore
    rw [DagNode.core_shift] at hsame
    rw [hsame]
    exact hqueued shift hshift

/-- The amounts that the check adds up fit exactly when those of the stored shifts and of the queued
ones that are inserted do. -/
theorem spendsFit_checkedDag_iff (oscillator : Oscillator platform) (keys : KeyRegistry) :
    (oscillator.checkedDag keys).SpendsFit ↔
      Spend.WithinRange (oscillator.visibleSpends keys) :=
  (VectorClockDag.spendsFit_iff _).trans
    (Spend.withinRange_of_perm (oscillator.perm_visibleSpends keys))

/-- A domain that takes no fee charges nothing. Assumes: the domains take no fee, and one is
computed. -/
theorem MetabolicOnly.fee_eq_zero {registry : DomainRegistry} (hmetabolic : MetabolicOnly registry)
    {shift : StatefulShift} {fee net : ℕ}
    (hfee : computeSignalFee registry shift = .ok (fee, net)) : fee = 0 := by
  unfold computeSignalFee at hfee
  cases hpolicy : registry.get? shift.domain with
  | none =>
    rw [hpolicy] at hfee
    cases hfee
  | some policy =>
    rw [hpolicy] at hfee
    dsimp only at hfee
    rw [hmetabolic shift.domain policy hpolicy] at hfee
    exact (Prod.mk.inj (Except.ok.inj hfee)).1.symm

/-- The loop charges nothing. Assumes: the domains take no fee, and the loop came this far. -/
theorem MetabolicOnly.totalFees_eq_zero {oscillator : Oscillator platform}
    (hmetabolic : MetabolicOnly oscillator.domainRegistry) {keys : KeyRegistry}
    {order : SynthesisOrder} {placed : List TxHash} {ledger : Ledger}
    (hloop : placed.foldlM ((oscillator.prepared keys order).applyShift keys order)
      (oscillator.prepared keys order).openLedger = some ledger) : ledger.totalFees = 0 := by
  induction placed using List.reverseRecOn generalizing ledger with
  | nil =>
    obtain rfl := Option.some.inj hloop
    rfl
  | append_singleton placed last ih =>
    rw [List.foldlM_append, Option.bind_eq_bind, Option.bind_eq_some_iff] at hloop
    obtain ⟨current, hcurrent, hround⟩ := hloop
    rw [List.foldlM_cons, Option.bind_eq_bind, Option.bind_eq_some_iff] at hround
    obtain ⟨next, hround, hlast⟩ := hround
    obtain rfl : next = ledger := Option.some.inj hlast
    have hbefore := ih hcurrent
    obtain ⟨node, -, henter⟩ := applyShift_eq_some hround
    cases houtcome : oscillator.outcomeAt keys order current node with
    | transfer shift fee net =>
      have hfee := (attempt_transfer houtcome).2.fees
      rw [prepared_domainRegistry] at hfee
      rw [houtcome] at henter
      simp only [enter, Option.bind_eq_bind, Option.bind_eq_some_iff, Option.pure_def,
        Option.some.injEq] at henter
      obtain ⟨balances, -, rfl⟩ := henter
      show saturatingAdd 128 current.totalFees fee = 0
      rw [hbefore, hmetabolic.fee_eq_zero hfee]
      rfl
    | _ =>
      rw [houtcome] at henter
      obtain rfl := Option.some.inj henter
      exact hbefore

/-- The certificate of a node is ingested without a trap. Assumes: the stakes and the tallies fit,
and the certificate is one of the node's operator for the tick. -/
theorem QuorumFits.ingestCertificateChecked_eq {oscillator : Oscillator platform}
    (hquorum : QuorumFits oscillator) (keys : KeyRegistry) (order : SynthesisOrder)
    {keypair : KeyPair} (hkeypair : oscillator.operatorKeypair = some keypair)
    {cert : SynthesisCertificate}
    (hoperator : cert.operator = keypair.accountId platform.primitives)
    (htick : cert.tick = oscillator.synthesisTick) :
    (oscillator.prepared keys order).ingestCertificateChecked cert keys =
      some ((oscillator.prepared keys order).ingestCertificate cert keys) := by
  have hsupply := oscillator.prepared_supplyTracker keys order
  obtain ⟨_, _, _, _, _, -, hprepared⟩ := oscillator.prepared_eq keys order
  have htracker : (oscillator.prepared keys order).certificateTracker =
      oscillator.certificateTracker := by rw [hprepared]
  have hstakes : (oscillator.prepared keys order).stakeTable = oscillator.stakeTable := by
    rw [hprepared]
  have hburned : (oscillator.prepared keys order).supplyTracker.burned ≤
      oscillator.supplyTracker.burned + decayBurn oscillator := by
    rw [hsupply, burnShare_eq, SupplyTracker.burn]
    split_ifs
    · exact Nat.le_add_right _ _
    · exact Nat.mod_le _ _
    · exact Nat.le_add_right _ _
  refine Oscillator.ingestCertificateChecked_eq keys ?_ ?_
  · rw [htracker, hstakes, hoperator, htick]
    exact hquorum.tallies keypair hkeypair
  · rw [htracker, hstakes, hoperator, htick]
    intro hkept
    have hroom := hquorum.burned keypair hkeypair hkept
    omega

/-- Two concurrent shifts of one sender, of the given amounts. -/
def spendingPair (first second : ℕ) : List Request :=
  [.seedAccount (sampleAccount 1) 500,
    .ingest (.stateful (StatefulShift.sample 1 first [(1, 1)] [] 1 0)) 1,
    .ingest (.stateful (StatefulShift.sample 1 second [(2, 1)] [] 2 0)) 1]

end Oscillator

end Fluidic.Consensus
