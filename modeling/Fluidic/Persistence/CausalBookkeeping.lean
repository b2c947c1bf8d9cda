import Fluidic.Consensus.DerivedClocks
import Fluidic.Consensus.Synthesis
import Fluidic.Persistence.Snapshot

/-!
# Causal bookkeeping after a restart

A DAG summarises the clocks of its shifts in the tips of the accounts and in the latest time
observed of each node. A DAG that insertions built has summaries without entries as long as all of
its clocks have none, and these are the DAGs of which there are snapshots. A snapshot has no
summaries, and a load leaves those of the node that loads: a new node has none. `Unobserved` says
when the summaries of any DAG tell a sender no more than those of a new node.
-/

set_option autoImplicit false
set_option relaxedAutoImplicit false

namespace Fluidic.Consensus.VectorClockDag

open Library Crypto
open Std (ExtTreeMap LawfulEqCmp ReflCmp)

/-- The DAG has observed no own time of a sender, no other entry in the clocks of the sender, and no
time of any other node. -/
def Unobserved (dag : VectorClockDag) (sender : AccountId) : Prop :=
  (dag.accountTip sender).get sender.bytes % 2 ^ 64 = 0 ∧
  (∀ node ∈ (dag.accountTip sender).times, node = sender.bytes) ∧
  ∀ node ≠ sender.bytes, dag.maxClock.get node = 0

/-- Two DAGs give the same verdict on every submitted clock exactly when they find the same clocks
acceptable. -/
theorem validateOrDerive_some_congr (first second : VectorClockDag) (sender : AccountId)
    (clock : VectorClock) :
    (first.validateOrDerive sender (some clock)).toOption =
        (second.validateOrDerive sender (some clock)).toOption ↔
      (first.Acceptable sender clock ↔ second.Acceptable sender clock) := by
  rcases validateOrDerive_some first sender clock with ⟨hfirst, hyes⟩ | ⟨hfirst, hno⟩ <;>
    rcases validateOrDerive_some second sender clock with ⟨hsecond, hyes'⟩ | ⟨hsecond, hno'⟩ <;>
    simp [*]

/-! ### Next to a DAG without bookkeeping -/

variable {dag bare : VectorClockDag} {sender : AccountId}

/-- The derived clocks agree exactly when the tip of the sender has nothing but a zero own time.
Assumes: the second DAG has no tips. -/
theorem derive_eq_bare_iff (htips : bare.accountTips = ∅) :
    (dag.accountTip sender).tick sender.bytes = (bare.accountTip sender).tick sender.bytes ↔
      (dag.accountTip sender).get sender.bytes % 2 ^ 64 = 0 ∧
        ∀ node ∈ (dag.accountTip sender).times, node = sender.bytes := by
  have hbare : bare.accountTip sender = VectorClock.new := by
    unfold accountTip
    rw [htips, ExtTreeMap.getD_empty]
  have hnone : VectorClock.new.get sender.bytes = 0 := ExtTreeMap.getD_empty
  rw [hbare]
  unfold VectorClock.tick
  rw [hnone, VectorClock.mk.injEq]
  constructor
  · intro hsame
    have hown := congrArg (fun times : ExtTreeMap OscillatorId ℕ ↦ times[sender.bytes]?) hsame
    rw [ExtTreeMap.getElem?_insert_self, ExtTreeMap.getElem?_insert_self, Option.some.injEq,
      wrappingAdd, wrappingAdd] at hown
    refine ⟨by omega, fun node hnode ↦ ?_⟩
    have hmem : node ∈ VectorClock.new.times.insert sender.bytes (wrappingAdd 64 0 1) := by
      rw [← hsame, ExtTreeMap.mem_insert]
      exact .inr hnode
    rw [ExtTreeMap.mem_insert, LawfulEqCmp.compare_eq_iff_eq] at hmem
    exact hmem.elim Eq.symm fun hempty ↦ absurd hempty ExtTreeMap.not_mem_empty
  · rintro ⟨hown, honly⟩
    refine ExtTreeMap.ext_getElem? fun node ↦ ?_
    rw [ExtTreeMap.getElem?_insert, ExtTreeMap.getElem?_insert]
    split_ifs with hsame
    · refine congrArg some ?_
      unfold wrappingAdd
      omega
    · rw [LawfulEqCmp.compare_eq_iff_eq] at hsame
      have habsent : node ∉ (dag.accountTip sender).times := fun hmem ↦ hsame (honly node hmem).symm
      rw [ExtTreeMap.getElem?_eq_none habsent]
      exact ExtTreeMap.getElem?_empty.symm

/-- A DAG gives a sender the verdicts and the clocks of a DAG without bookkeeping exactly when it
has observed nothing that concerns the sender. Assumes: the second DAG has no tips and no times. -/
theorem validateOrDerive_eq_bare_iff (htips : bare.accountTips = ∅)
    (hclock : bare.maxClock = VectorClock.new) :
    (∀ provided, (dag.validateOrDerive sender provided).toOption =
      (bare.validateOrDerive sender provided).toOption) ↔ dag.Unobserved sender := by
  have hbare : (bare.accountTip sender).get sender.bytes = 0 := by
    unfold accountTip
    rw [htips, ExtTreeMap.getD_empty]
    exact ExtTreeMap.getD_empty
  have hnone (node : OscillatorId) : bare.maxClock.get node = 0 := by
    rw [hclock]
    exact ExtTreeMap.getD_empty
  constructor
  · intro hsame
    obtain ⟨hown, honly⟩ :=
      (derive_eq_bare_iff htips).mp (Option.some.inj (hsame none))
    refine ⟨hown, honly, fun node hnode ↦ ?_⟩
    have hcompare : compare node sender.bytes ≠ .eq := mt LawfulEqCmp.compare_eq_iff_eq.mp hnode
    set clock : VectorClock := ⟨((∅ : ExtTreeMap OscillatorId ℕ).insert sender.bytes 1).insert node
      (dag.maxClock.get node)⟩ with hclock
    have hentry : ∀ entry ∈ clock.times.toList,
        entry = (node, dag.maxClock.get node) ∨ entry = (sender.bytes, 1) := by
      rintro ⟨key, time⟩ hmem
      rw [ExtTreeMap.mem_toList_iff_getElem?_eq_some, ExtTreeMap.getElem?_insert,
        ExtTreeMap.getElem?_insert, ExtTreeMap.getElem?_empty] at hmem
      simp only [LawfulEqCmp.compare_eq_iff_eq] at hmem
      split_ifs at hmem with hlast hfirst
      · exact .inl (Prod.ext hlast.symm (Option.some.inj hmem).symm)
      · exact .inr (Prod.ext hfirst.symm (Option.some.inj hmem).symm)
    have hacceptable : dag.Acceptable sender clock := by
      refine ⟨fun entry hmem ↦ ?_, ?_⟩
      · rcases hentry entry hmem with rfl | rfl
        · exact ⟨fun heq ↦ absurd heq hnode, fun _ ↦ le_rfl⟩
        · refine ⟨fun _ ↦ ?_, fun hne ↦ absurd rfl hne⟩
          unfold wrappingAdd
          omega
      · rw [ExtTreeMap.mem_insert, ExtTreeMap.mem_insert]
        exact .inr (.inl ReflCmp.compare_self)
    have hzero := (((validateOrDerive_some_congr dag bare sender clock).mp
      (hsame (some clock))).mp hacceptable).1 (node, dag.maxClock.get node)
      (ExtTreeMap.mem_toList_iff_getElem?_eq_some.mpr ExtTreeMap.getElem?_insert_self)
    rw [hnone] at hzero
    exact Nat.le_zero.mp (hzero.2 hnode)
  · rintro ⟨hown, honly, hothers⟩ provided
    cases provided with
    | none => exact congrArg some ((derive_eq_bare_iff htips).mpr ⟨hown, honly⟩)
    | some clock =>
      rw [validateOrDerive_some_congr]
      unfold Acceptable
      refine and_congr_left fun _ ↦ forall₂_congr fun entry _ ↦ and_congr ?_ ?_
      · rw [hbare]
        unfold wrappingAdd
        refine imp_congr_right fun _ ↦ ?_
        omega
      · refine imp_congr_right fun hnode ↦ ?_
        rw [hothers entry.1 hnode, hnone]

end Fluidic.Consensus.VectorClockDag

namespace Fluidic.Persistence

open Library Crypto Consensus Operator
open Std (ExtTreeMap)

/-! ### DAGs whose clocks are empty -/

/-- The summaries of a DAG have no entries. -/
structure Bare (dag : VectorClockDag) : Prop where
  tip : ∀ sender, dag.accountTip sender = VectorClock.new
  clock : dag.maxClock = VectorClock.new

/-- A clock without entries merges into nothing. -/
theorem merge_new : VectorClock.new.merge VectorClock.new = VectorClock.new := by
  have hnone : (∅ : ExtTreeMap OscillatorId ℕ).toList = [] := rfl
  unfold VectorClock.merge VectorClock.new
  rw [hnone, List.foldl_nil]

/-- Linking a shift leaves the summaries without entries when the clocks are empty afterwards.
Assumes: the summaries had none if the clocks were empty before, and the hash is new. -/
theorem bare_link {dag : VectorClockDag} (hbare : ClocksEmpty dag → Bare dag)
    {shift : StatefulShift} {hash : TxHash} (hfresh : hash ∉ dag.nodes) {tick depth : ℕ}
    (hempty : ClocksEmpty (dag.link shift hash tick depth)) :
    Bare (dag.link shift hash tick depth) := by
  have hclock : shift.vectorClock = VectorClock.new := by
    refine hempty hash (VectorClockDag.freshNode shift hash tick depth) ?_
    rw [VectorClockDag.getElem?_link, if_pos rfl]
  have hbefore : Bare dag := by
    refine hbare fun other node hnode ↦ ?_
    have hne : hash ≠ other := by
      rintro rfl
      rw [ExtTreeMap.getElem?_eq_none hfresh] at hnode
      cases hnode
    have hlinked : (dag.link shift hash tick depth).nodes[other]? =
        some (VectorClockDag.linked shift.predecessors hash other node) := by
      rw [VectorClockDag.getElem?_link, if_neg hne, hnode, Option.map_some]
    rw [← hempty other _ hlinked, VectorClockDag.linked_shift]
  constructor
  · intro sender
    have htip := hbefore.tip sender
    unfold VectorClockDag.accountTip at htip ⊢
    unfold VectorClockDag.link
    dsimp only
    rw [ExtTreeMap.getD_insert]
    split_ifs with hsender
    · have hsame := Std.LawfulEqCmp.compare_eq_iff_eq.mp hsender
      rw [ExtTreeMap.getD_eq_getD_getElem?, ← hsame] at htip
      cases hstored : dag.accountTips[shift.sender]? with
      | none => exact hclock
      | some tip =>
        rw [hstored, Option.getD_some] at htip
        show tip.merge shift.vectorClock = VectorClock.new
        rw [htip, hclock, merge_new]
    · exact htip
  · show dag.maxClock.merge shift.vectorClock = VectorClock.new
    rw [hbefore.clock, hclock, merge_new]

/-- An insertion leaves the summaries without entries when the clocks are empty afterwards. Assumes:
the summaries had none if the clocks were empty before. -/
theorem bare_insert {dag : VectorClockDag} (hbare : ClocksEmpty dag → Bare dag) (prim : Primitives)
    (call : VectorClockDag.InsertCall)
    (hempty : ClocksEmpty
      (dag.insert prim call.shift call.publicKey call.tick call.depth).1) :
    Bare (dag.insert prim call.shift call.publicKey call.tick call.depth).1 := by
  rcases VectorClockDag.insert_cases prim dag call.shift call.publicKey call.tick call.depth
    with ⟨-, hinsert⟩ | ⟨-, -, hinsert⟩ | ⟨-, -, missing, -, -, hinsert⟩ |
    ⟨-, hfresh, -, hinsert⟩
  · rw [hinsert] at hempty ⊢
    exact ⟨(hbare hempty).tip, (hbare hempty).clock⟩
  · rw [hinsert] at hempty ⊢
    exact hbare hempty
  · rw [hinsert] at hempty ⊢
    exact ⟨(hbare hempty).tip, (hbare hempty).clock⟩
  · rw [hinsert] at hempty ⊢
    exact bare_link hbare hfresh hempty

/-- The summaries of a DAG that insertions built have no entries when every stored clock is
empty. -/
theorem bare_insertAll (prim : Primitives) (calls : List VectorClockDag.InsertCall) :
    ClocksEmpty (VectorClockDag.insertAll prim calls) →
      Bare (VectorClockDag.insertAll prim calls) := by
  have hfold : ∀ dag, (ClocksEmpty dag → Bare dag) →
      ClocksEmpty (calls.foldl
        (fun dag call ↦ (dag.insert prim call.shift call.publicKey call.tick call.depth).1) dag) →
      Bare (calls.foldl
        (fun dag call ↦ (dag.insert prim call.shift call.publicKey call.tick call.depth).1)
          dag) := by
    induction calls with
    | nil => exact fun dag hbare ↦ hbare
    | cons call calls ih => exact fun dag hbare ↦ ih _ (bare_insert hbare prim call)
  exact hfold VectorClockDag.new fun _ ↦ ⟨fun _ ↦ ExtTreeMap.getD_empty, rfl⟩

/-- Two DAGs whose summaries have no entries give the same answer to every query. Assumes: the
summaries of both DAGs have no entries. -/
theorem validateOrDerive_of_bare {first second : VectorClockDag} (hfirst : Bare first)
    (hsecond : Bare second) (sender : AccountId) (provided : Option VectorClock) :
    first.validateOrDerive sender provided = second.validateOrDerive sender provided := by
  unfold VectorClockDag.validateOrDerive VectorClockDag.clockError
  rw [hfirst.tip, hfirst.clock, hsecond.tip, hsecond.clock]

/-! ### Saving and loading -/

variable {platform : Platform}

/-- A node with the DAG that some insertions build. -/
def withInserted (oscillator : Oscillator platform) (calls : List VectorClockDag.InsertCall) :
    Oscillator platform :=
  { oscillator with dag := VectorClockDag.insertAll platform.primitives calls }

/-- A node whose DAG insertions built is saved, and loaded into a new one that gives a sender the
same verdict and the same clock, exactly when every stored clock is empty. When a save that fails
leaves no file, the node that finds none gives a sender the same verdicts and clocks exactly when
the DAG has observed nothing that concerns the sender. -/
theorem bookkeeping_survives_iff (oscillator : Oscillator platform)
    (calls : List VectorClockDag.InsertCall) (order : SaveOrder) (nttSize : ℕ)
    (operatorKeypair : Option KeyPair) (stakeTable : StakeTable) (sender : AccountId) :
    (∀ provided, (∃ snapshot loaded, save (withInserted oscillator calls) order = .ok snapshot ∧
        load (Oscillator.create nttSize operatorKeypair stakeTable) (some snapshot) = .ok loaded ∧
        ((withInserted oscillator calls).dag.validateOrDerive sender provided).toOption =
          (loaded.dag.validateOrDerive sender provided).toOption) ↔
      ClocksEmpty (VectorClockDag.insertAll platform.primitives calls)) ∧
    ∃ loaded, load (Oscillator.create nttSize operatorKeypair stakeTable)
        (fileAfter none (save (withInserted oscillator calls) order)) = .ok loaded ∧
      ((∀ provided,
          ((withInserted oscillator calls).dag.validateOrDerive sender provided).toOption =
            (loaded.dag.validateOrDerive sender provided).toOption) ↔
        (VectorClockDag.insertAll platform.primitives calls).Unobserved sender) := by
  constructor
  · refine fun provided ↦ ⟨?_, fun hempty ↦ ?_⟩
    · rintro ⟨snapshot, -, hsave, -⟩
      exact (save_eq_ok_iff.mp hsave).1
    · have hloaded : Bare (readSnapshot (Oscillator.create nttSize operatorKeypair stakeTable)
          (snapshotOf (withInserted oscillator calls) order)).dag :=
        ⟨fun _ ↦ ExtTreeMap.getD_empty, rfl⟩
      refine ⟨_, _, save_eq_ok_iff.mpr ⟨hempty, rfl⟩, rfl, congrArg Except.toOption ?_⟩
      exact validateOrDerive_of_bare (bare_insertAll platform.primitives calls hempty) hloaded
        sender provided
  · rw [save_eq]
    split_ifs
    · exact ⟨_, rfl, VectorClockDag.validateOrDerive_eq_bare_iff rfl rfl⟩
    · exact ⟨_, rfl, VectorClockDag.validateOrDerive_eq_bare_iff rfl rfl⟩

/-- The call that inserts the first shift of a sender, with the clock that a new node derives. -/
def firstShift : VectorClockDag.InsertCall :=
  ⟨StatefulShift.sample 1 400 [((sampleAccount 1).bytes.toNat, 1)] [] 1 0, 1, 0, 3⟩

/-- The save of a node that inserted it fails. The node derives the second clock of the sender, and
the node that finds no file derives the first one again. -/
theorem firstShift_forgotten :
    ∃ oscillator : Oscillator Platform.sample,
      oscillator = withInserted (Oscillator.newWithKeypair 8) [firstShift] ∧
      save oscillator .forward = .error "key must be a string" ∧
      ∃ loaded, load (Oscillator.newWithKeypair 8) (fileAfter none (save oscillator .forward)) =
          .ok loaded ∧
        ((oscillator.dag.validateOrDerive (sampleAccount 1) none).toOption.map fun clock ↦
          clock.get (sampleAccount 1).bytes) = some 2 ∧
        ((loaded.dag.validateOrDerive (sampleAccount 1) none).toOption.map fun clock ↦
          clock.get (sampleAccount 1).bytes) = some 1 ∧
        (oscillator.dag.validateOrDerive (sampleAccount 1) none).toOption ≠
          (loaded.dag.validateOrDerive (sampleAccount 1) none).toOption := by
  set oscillator : Oscillator Platform.sample :=
    withInserted (Oscillator.newWithKeypair 8) [firstShift] with hnode
  have hclocked : ¬ ClocksEmpty oscillator.dag := by
    decide +kernel
  have hbefore : ((oscillator.dag.validateOrDerive (sampleAccount 1) none).toOption.map
      fun clock ↦ clock.get (sampleAccount 1).bytes) = some 2 := by
    decide +kernel
  have hafter : (((Oscillator.newWithKeypair 8 : Oscillator Platform.sample).dag.validateOrDerive
      (sampleAccount 1) none).toOption.map fun clock ↦ clock.get (sampleAccount 1).bytes) =
        some 1 := by
    decide +kernel
  have herror : save oscillator .forward = .error "key must be a string" := by
    rw [save_eq, if_neg hclocked]
  refine ⟨oscillator, rfl, herror, Oscillator.newWithKeypair 8, ?_, hbefore, hafter, fun hsame ↦ ?_⟩
  · rw [herror]
    rfl
  · rw [hsame, hafter] at hbefore
    exact absurd hbefore (by decide)

end Fluidic.Persistence
