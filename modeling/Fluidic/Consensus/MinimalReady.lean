import Fluidic.Consensus.TopologicalOrder
import Mathlib.Order.Preorder.Finite

/-!
# The pick among the ready nodes

A node of a list is causally minimal when no node of the list happened before it. The comment of
`pick_minimal_ready` promises a minimal node and, among several, the one with the smallest hash.
Every nonempty list of nodes has exactly one such node (`LeastMinimal`), whatever its arrangement.

The pass over the list keeps one candidate and compares each later node with it alone, so it ends
where `precedes` leads. Concurrency is not transitive. A node that is not minimal, but concurrent
with the right one and of a smaller hash, is a rival: it replaces the right one when it comes later
in the list. Without rivals the pass finds the right node in every arrangement, and with one it
misses the node in some arrangement (`picksLeastMinimal_iff`).
-/

set_option autoImplicit false
set_option relaxedAutoImplicit false

namespace Fluidic.Consensus.VectorClockDag

open Library Crypto
open Std (ExtTreeMap)

variable {dag : VectorClockDag} {ready : List TxHash}

/-! ### The node to pick -/

/-- No node of the list happened before this one. -/
def IsMinimal (dag : VectorClockDag) (ready : List TxHash) (hash : TxHash) : Prop :=
  ∀ other ∈ ready, (dag.clockOf other).happenedBefore (dag.clockOf hash) = false

/-- The causally minimal node of a list with the smallest hash. -/
structure LeastMinimal (dag : VectorClockDag) (ready : List TxHash) (hash : TxHash) : Prop where
  mem : hash ∈ ready
  minimal : dag.IsMinimal ready hash
  least : ∀ other ∈ ready, dag.IsMinimal ready other → hash ≤ other

/-- The pick returns the index of the causally minimal node with the smallest hash. -/
def PicksLeastMinimal (dag : VectorClockDag) (ready : List TxHash) : Prop :=
  ∃ index hash, dag.pickMinimalReady ready = some index ∧ ready[index]? = some hash ∧
    dag.LeastMinimal ready hash

/-- No node that is concurrent with the least minimal one has a smaller hash. -/
def Unrivalled (dag : VectorClockDag) (ready : List TxHash) : Prop :=
  ∀ hash, dag.LeastMinimal ready hash → ∀ other ∈ ready,
    (dag.clockOf other).concurrentWith (dag.clockOf hash) = true → hash ≤ other

instance (dag : VectorClockDag) (ready : List TxHash) (hash : TxHash) :
    Decidable (dag.IsMinimal ready hash) :=
  List.decidableBAll (fun other ↦
    (dag.clockOf other).happenedBefore (dag.clockOf hash) = false) ready

/-- A nonempty list has a causally minimal node. Assumes: the list is not empty. -/
theorem exists_isMinimal (dag : VectorClockDag) (hne : ready ≠ []) :
    ∃ hash ∈ ready, dag.IsMinimal ready hash := by
  obtain ⟨start, hstart⟩ := List.exists_mem_of_ne_nil ready hne
  obtain ⟨hash, hmem, hminimal⟩ := Set.Finite.exists_minimalFor dag.clockOf
    {hash | hash ∈ ready} ready.finite_toSet ⟨start, hstart⟩
  refine ⟨hash, hmem, fun other hother ↦ ?_⟩
  rw [Bool.eq_false_iff, ne_eq, ← VectorClock.lt_iff_happenedBefore]
  exact fun hless ↦ hless.not_ge (hminimal hother hless.le)

/-- A nonempty list has a node to pick. Assumes: the list is not empty. -/
theorem exists_leastMinimal (dag : VectorClockDag) (hne : ready ≠ []) :
    ∃ hash, dag.LeastMinimal ready hash := by
  obtain ⟨start, hstart, hminimal⟩ := dag.exists_isMinimal hne
  obtain ⟨hash, ⟨hmem, hhash⟩, hleast⟩ := Set.Finite.exists_minimalFor BitVec.toNat
    {hash | hash ∈ ready ∧ dag.IsMinimal ready hash}
    (ready.finite_toSet.subset fun _ hmember ↦ hmember.1) ⟨start, hstart, hminimal⟩
  refine ⟨hash, hmem, hhash, fun other hother hotherMinimal ↦ BitVec.le_def.mpr ?_⟩
  rcases le_total hash.toNat other.toNat with hle | hge
  · exact hle
  · exact hleast ⟨hother, hotherMinimal⟩ hge

/-- A list has one node to pick at most. Assumes: both nodes are to be picked. -/
theorem LeastMinimal.unique {first second : TxHash} (hfirst : dag.LeastMinimal ready first)
    (hsecond : dag.LeastMinimal ready second) : first = second :=
  BitVec.le_antisymm (hfirst.least second hsecond.mem hsecond.minimal)
    (hsecond.least first hfirst.mem hfirst.minimal)

/-- The node to pick does not depend on the arrangement of the list. Assumes: the two lists have the
same nodes. -/
theorem LeastMinimal.perm {arrangement : List TxHash} {hash : TxHash}
    (hleast : dag.LeastMinimal ready hash) (hperm : arrangement.Perm ready) :
    dag.LeastMinimal arrangement hash where
  mem := hperm.mem_iff.mpr hleast.mem
  minimal := fun other hother ↦ hleast.minimal other (hperm.mem_iff.mp hother)
  least := fun other hother hminimal ↦ hleast.least other (hperm.mem_iff.mp hother)
    fun third hthird ↦ hminimal third (hperm.mem_iff.mpr hthird)

/-! ### Where the pass ends -/

/-- The pass picks the right node if and only if it ends there. Assumes: the elements of the list
are nodes. -/
theorem picksLeastMinimal_iff_scan {first : TxHash} {rest : List TxHash}
    (hnodes : ∀ hash ∈ first :: rest, hash ∈ dag.nodes) :
    dag.PicksLeastMinimal (first :: rest) ↔
      dag.LeastMinimal (first :: rest) (scan dag.precedes first rest).1 := by
  constructor
  · rintro ⟨index, hash, hpick, hget, hleast⟩
    rw [pickMinimalReady_eq_scan hnodes, Option.some.injEq] at hpick
    rw [← hpick, getElem?_scan, Option.some.injEq] at hget
    exact hget ▸ hleast
  · intro hleast
    exact ⟨_, _, pickMinimalReady_eq_scan hnodes, getElem?_scan dag.precedes first rest, hleast⟩

/-- A node precedes another one that did not happen before it when the two are not the same, and the
other one is no rival. Assumes: the two nodes differ, the other one did not happen before the node,
and a concurrent one has no smaller hash. -/
theorem precedes_of_unrivalled {hash other : TxHash} (hne : other ≠ hash)
    (hminimal : (dag.clockOf other).happenedBefore (dag.clockOf hash) = false)
    (hrival : (dag.clockOf other).concurrentWith (dag.clockOf hash) = true → hash ≤ other) :
    dag.precedes hash other = true := by
  refine (dag.precedes_total hne).resolve_left fun hprecedes ↦ ?_
  rw [precedes, hminimal, Bool.false_or, Bool.and_eq_true, decide_eq_true_eq] at hprecedes
  exact absurd (hrival hprecedes.1) (BitVec.not_le.mpr hprecedes.2)

/-- Without rivals the pass picks the right node. Assumes: the list is not empty, its elements are
nodes, and there are no rivals. -/
theorem picksLeastMinimal_of_unrivalled (hne : ready ≠ [])
    (hnodes : ∀ hash ∈ ready, hash ∈ dag.nodes) (hunrivalled : dag.Unrivalled ready) :
    dag.PicksLeastMinimal ready := by
  obtain ⟨hash, hleast⟩ := dag.exists_leastMinimal hne
  obtain ⟨index, hpick, hget⟩ := pickMinimalReady_eq_winner hnodes hleast.mem
    fun other hother hdiffer ↦ precedes_of_unrivalled hdiffer (hleast.minimal other hother)
      (hunrivalled hash hleast other hother)
  exact ⟨index, hash, hpick, hget, hleast⟩

/-- With a rival at the end of the list the pass misses the right node. Assumes: the rival is
concurrent with the right node and has a smaller hash, and the elements of the list are nodes. -/
theorem not_picksLeastMinimal_concat {hash rival first : TxHash} {rest : List TxHash}
    (hnodes : ∀ hash ∈ first :: (rest ++ [rival]), hash ∈ dag.nodes)
    (hleast : dag.LeastMinimal (first :: (rest ++ [rival])) hash)
    (hconcurrent : (dag.clockOf rival).concurrentWith (dag.clockOf hash) = true)
    (hless : rival < hash) : ¬dag.PicksLeastMinimal (first :: (rest ++ [rival])) := by
  rw [picksLeastMinimal_iff_scan hnodes]
  intro hpicked
  have hprecedes : dag.precedes rival hash = true := by
    rw [precedes, hconcurrent, Bool.true_and, decide_eq_true hless, Bool.or_true]
  have hself : dag.precedes hash hash = false := by
    rw [Bool.eq_false_iff]
    intro hbeats
    exact Bool.false_ne_true ((dag.precedes_asymm hash hash hbeats).symm.trans hbeats)
  exact scan_concat_ne rest hself hprecedes (hpicked.unique hleast)

/-- When the pick is the causally minimal node with the smallest hash: for one arrangement of the
list, if and only if `precedes` leads from its first node to that one; for all arrangements, if and
only if no node is concurrent with it and has a smaller hash. Assumes: the elements of the list are
nodes. -/
theorem picksLeastMinimal_iff {first : TxHash} {rest : List TxHash}
    (hnodes : ∀ hash ∈ first :: rest, hash ∈ dag.nodes) :
    (dag.PicksLeastMinimal (first :: rest) ↔
      ∃ hash, dag.LeastMinimal (first :: rest) hash ∧ LeadsTo dag.precedes first rest hash) ∧
    ((∀ arrangement, arrangement.Perm (first :: rest) → dag.PicksLeastMinimal arrangement) ↔
      dag.Unrivalled (first :: rest)) := by
  refine ⟨?_, fun hpicks hash hleast rival hmem hconcurrent ↦ ?_, fun hunrivalled arrangement hperm
    ↦ ?_⟩
  · rw [picksLeastMinimal_iff_scan hnodes]
    constructor
    · exact fun hleast ↦ ⟨_, hleast, scan_eq_iff_leadsTo.mp rfl⟩
    · rintro ⟨hash, hleast, hleads⟩
      exact scan_eq_iff_leadsTo.mpr hleads ▸ hleast
  · by_contra hnot
    have hless : rival < hash := BitVec.not_le.mp hnot
    have hdiffer : hash ≠ rival := fun heq ↦ BitVec.lt_irrefl _ (heq ▸ hless)
    have hothers : hash ∈ (first :: rest).erase rival :=
      (List.mem_erase_of_ne hdiffer).mpr hleast.mem
    have hperm : ((first :: rest).erase rival ++ [rival]).Perm (first :: rest) :=
      List.perm_append_comm.trans (List.perm_cons_erase hmem).symm
    have hpicked := hpicks _ hperm
    have hmoved := hleast.perm hperm
    have hmovedNodes : ∀ hash ∈ (first :: rest).erase rival ++ [rival], hash ∈ dag.nodes :=
      fun other hother ↦ hnodes other (hperm.mem_iff.mp hother)
    cases herase : (first :: rest).erase rival with
    | nil =>
      rw [herase] at hothers
      exact List.not_mem_nil hothers
    | cons other others =>
      rw [herase] at hpicked hmoved hmovedNodes
      exact not_picksLeastMinimal_concat hmovedNodes hmoved hconcurrent hless hpicked
  · have hne : arrangement ≠ [] := by
      rintro rfl
      exact List.not_mem_nil (hperm.mem_iff.mpr List.mem_cons_self)
    refine picksLeastMinimal_of_unrivalled hne
      (fun hash hhash ↦ hnodes hash (hperm.mem_iff.mp hhash)) fun hash hleast other hother ↦ ?_
    exact hunrivalled hash (hleast.perm hperm.symm) other (hperm.mem_iff.mp hother)

/-- The DAG of the three racing shifts. -/
def racingDag : VectorClockDag := insertAll Primitives.sample racingCalls

/-- The hashes of the three racing shifts. -/
def racingHash (index : ℕ) : TxHash :=
  (racingCalls.map fun call ↦ call.shift.hash Primitives.sample).getD index 0

/-- The nodes of the three racing shifts. -/
theorem racingHash_mem : ∀ hash ∈ [racingHash 0, racingHash 1, racingHash 2],
    hash ∈ racingDag.nodes := by
  simp only [List.forall_mem_cons, List.not_mem_nil, false_imp_iff, implies_true, and_true]
  decide +kernel

theorem racingHash_lt : racingHash 1 < racingHash 2 ∧ racingHash 2 < racingHash 0 := by
  decide +kernel

/-- The first racing shift happened before the second. -/
theorem happenedBefore_racingHash :
    (racingDag.clockOf (racingHash 0)).happenedBefore (racingDag.clockOf (racingHash 1)) =
      true := by
  decide +kernel

/-- The third racing shift is to be picked. -/
theorem leastMinimal_racingHash :
    racingDag.LeastMinimal [racingHash 0, racingHash 1, racingHash 2] (racingHash 2) where
  mem := List.mem_cons_of_mem _ (List.mem_cons_of_mem _ List.mem_cons_self)
  minimal := by decide +kernel
  least := by
    simp only [List.forall_mem_cons, List.not_mem_nil, false_imp_iff, implies_true, and_true]
    refine ⟨fun _ ↦ BitVec.le_of_lt racingHash_lt.2, fun hminimal ↦ ?_, fun _ ↦ BitVec.le_refl _⟩
    have hnot := hminimal (racingHash 0) List.mem_cons_self
    rw [happenedBefore_racingHash] at hnot
    exact absurd hnot.symm Bool.false_ne_true

/-- Of the racing shifts the third is picked where it comes last, but not in every arrangement,
because the second is a rival. -/
theorem picksLeastMinimal_iff_racingDag :
    (∀ hash ∈ [racingHash 0, racingHash 1, racingHash 2], hash ∈ racingDag.nodes) ∧
      racingDag.PicksLeastMinimal [racingHash 0, racingHash 1, racingHash 2] ∧
      ¬∀ arrangement, arrangement.Perm [racingHash 0, racingHash 1, racingHash 2] →
        racingDag.PicksLeastMinimal arrangement := by
  refine ⟨racingHash_mem, (picksLeastMinimal_iff racingHash_mem).1.mpr
    ⟨racingHash 2, leastMinimal_racingHash, ?_⟩, ?_⟩
  · exact scan_eq_iff_leadsTo.mp (by decide +kernel)
  · rw [(picksLeastMinimal_iff racingHash_mem).2]
    intro hunrivalled
    have hle := hunrivalled _ leastMinimal_racingHash (racingHash 1)
      (List.mem_cons_of_mem _ List.mem_cons_self) (by decide +kernel)
    exact absurd hle (BitVec.not_le.mpr racingHash_lt.1)

/-- With the third racing shift in the middle of the list the pick is the second one, which the
first one happened before. -/
theorem pick_is_not_minimal : ¬∀ (dag : VectorClockDag) (ready : List TxHash), ready ≠ [] →
    (∀ hash ∈ ready, hash ∈ dag.nodes) → dag.PicksLeastMinimal ready := by
  intro hclaim
  have hperm : [racingHash 0, racingHash 2, racingHash 1].Perm
      [racingHash 0, racingHash 1, racingHash 2] := .cons _ (.swap _ _ _)
  obtain ⟨index, hash, hpick, hget, hleast⟩ := hclaim racingDag
    [racingHash 0, racingHash 2, racingHash 1] (List.cons_ne_nil _ _)
    fun hash hmem ↦ racingHash_mem hash (hperm.mem_iff.mp hmem)
  have hindex : racingDag.pickMinimalReady [racingHash 0, racingHash 2, racingHash 1] = some 2 := by
    decide +kernel
  rw [hindex, Option.some.injEq] at hpick
  subst hpick
  have hsecond : racingHash 1 = hash := Option.some.inj hget
  have hnot := hleast.minimal (racingHash 0) List.mem_cons_self
  rw [← hsecond, happenedBefore_racingHash] at hnot
  exact absurd hnot.symm Bool.false_ne_true

end Fluidic.Consensus.VectorClockDag
