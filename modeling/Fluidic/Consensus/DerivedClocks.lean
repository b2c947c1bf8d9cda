import Fluidic.Consensus.DagInvariant

/-!
# Derived clocks

An insertion merges the clock of its shift into the tip of the sender and into the latest times
observed, whether or not the clock was ever validated. So the tip of a sender is above the clocks of
all its shifts and below the latest times (`Joined`), and the clock that the DAG derives for the
sender, its tip with the next own time, is one that it accepts and that all earlier shifts of the
sender happened before (`derived_clock_valid`).
-/

set_option autoImplicit false
set_option relaxedAutoImplicit false

namespace Fluidic.Consensus.VectorClockDag

open Library Crypto
open Std (ExtTreeMap LawfulEqCmp)

/-! ### Submitted clocks -/

/-- A submitted clock has the next own time and no time that was not observed. -/
def Acceptable (dag : VectorClockDag) (sender : AccountId) (clock : VectorClock) : Prop :=
  (∀ entry ∈ clock.times.toList,
    (entry.1 = sender.bytes →
      entry.2 = wrappingAdd 64 ((dag.accountTip sender).get sender.bytes) 1) ∧
    (entry.1 ≠ sender.bytes → entry.2 ≤ dag.maxClock.get entry.1)) ∧
  sender.bytes ∈ clock.times

/-- A submitted clock has no error exactly when each of its entries is right. -/
theorem clockError_eq_none_iff (dag : VectorClockDag) (sender : OscillatorId) (expectedOwn : ℕ)
    (clock : VectorClock) :
    dag.clockError sender expectedOwn clock = none ↔
      ∀ entry ∈ clock.times.toList, (entry.1 = sender → entry.2 = expectedOwn) ∧
        (entry.1 ≠ sender → entry.2 ≤ dag.maxClock.get entry.1) := by
  unfold clockError
  rw [List.findSome?_eq_none_iff]
  refine forall₂_congr fun entry _ ↦ ?_
  by_cases hown : entry.1 = sender
  · rw [if_pos hown]
    by_cases htime : entry.2 = expectedOwn
    · simp [hown, htime]
    · simp [hown, htime]
  · rw [if_neg hown]
    by_cases htime : dag.maxClock.get entry.1 < entry.2
    · simp [hown, htime]
    · simp [hown, htime, Nat.le_of_not_lt htime]

/-- A submitted clock is returned when it is acceptable, and refused otherwise. -/
theorem validateOrDerive_some (dag : VectorClockDag) (sender : AccountId) (clock : VectorClock) :
    (dag.validateOrDerive sender (some clock)).toOption = some clock ∧ dag.Acceptable sender clock ∨
      (dag.validateOrDerive sender (some clock)).toOption = none ∧
        ¬ dag.Acceptable sender clock := by
  unfold validateOrDerive Acceptable
  dsimp only
  rw [← clockError_eq_none_iff]
  cases herror : dag.clockError sender.bytes
      (wrappingAdd 64 ((dag.accountTip sender).get sender.bytes) 1) clock with
  | some text => exact .inr ⟨rfl, fun hacceptable ↦ by cases hacceptable.1⟩
  | none =>
    by_cases hmem : sender.bytes ∈ clock.times
    · exact .inl ⟨by rw [if_pos hmem]; rfl, rfl, hmem⟩
    · exact .inr ⟨by rw [if_neg hmem]; rfl, fun hacceptable ↦ hmem hacceptable.2⟩

/-- A submitted clock is accepted exactly when it is acceptable. -/
theorem validateVectorClock_eq_ok_iff (dag : VectorClockDag) (sender : AccountId)
    (clock : VectorClock) :
    dag.validateVectorClock sender clock = .ok () ↔ dag.Acceptable sender clock := by
  unfold validateVectorClock
  rcases dag.validateOrDerive_some sender clock with ⟨hreturned, hyes⟩ | ⟨hreturned, hno⟩
  · refine iff_of_true ?_ hyes
    cases hverdict : dag.validateOrDerive sender (some clock) with
    | error text =>
      rw [hverdict] at hreturned
      cases hreturned
    | ok returned => rfl
  · refine iff_of_false (fun haccepted ↦ ?_) hno
    cases hverdict : dag.validateOrDerive sender (some clock) with
    | error text =>
      rw [hverdict] at haccepted
      cases haccepted
    | ok returned =>
      rw [hverdict] at hreturned
      cases hreturned

/-! ### The bookkeeping of insertions -/

/-- The tips are above the clocks of the shifts and below the latest times observed. -/
structure Joined (dag : VectorClockDag) : Prop where
  shift_le : ∀ (hash : TxHash) (node : DagNode), dag.nodes[hash]? = some node →
    ∀ oscillator, node.shift.vectorClock.get oscillator ≤
      (dag.accountTip node.shift.sender).get oscillator
  tip_le : ∀ account oscillator,
    (dag.accountTip account).get oscillator ≤ dag.maxClock.get oscillator

theorem joined_new : Joined new where
  shift_le hash node hnode := by simp [new] at hnode
  tip_le account oscillator := by
    have htip : new.accountTip account = VectorClock.new := ExtTreeMap.getD_empty
    rw [htip]
    exact le_rfl

/-- The tips after a shift was linked: that of its sender is raised to its clock. -/
theorem get_accountTip_link (dag : VectorClockDag) (shift : StatefulShift) (hash : TxHash)
    (tick depth : ℕ) (account : AccountId) (oscillator : OscillatorId) :
    ((dag.link shift hash tick depth).accountTip account).get oscillator =
      if shift.sender = account then
        max ((dag.accountTip account).get oscillator) (shift.vectorClock.get oscillator)
      else (dag.accountTip account).get oscillator := by
  unfold accountTip link
  dsimp only
  rw [ExtTreeMap.getD_insert]
  simp only [LawfulEqCmp.compare_eq_iff_eq]
  split_ifs with hsender
  · rw [ExtTreeMap.getD_eq_getD_getElem?, ← hsender]
    cases dag.accountTips[shift.sender]? with
    | some tip => exact VectorClock.get_merge tip shift.vectorClock oscillator
    | none =>
      have hnone : VectorClock.new.get oscillator = 0 := ExtTreeMap.getD_empty
      rw [Option.getD_none, hnone, Nat.zero_max]
  · rfl

/-- Linking a shift keeps the bookkeeping. Assumes: the DAG has the bookkeeping. -/
theorem Joined.link {dag : VectorClockDag} (hjoined : Joined dag) (shift : StatefulShift)
    {hash : TxHash} (tick depth : ℕ) : Joined (dag.link shift hash tick depth) where
  shift_le other node hnode oscillator := by
    rw [getElem?_link] at hnode
    rw [get_accountTip_link]
    split_ifs at hnode with hself
    · obtain rfl := Option.some.inj hnode
      rw [if_pos (show shift.sender = (freshNode shift hash tick depth).shift.sender from rfl)]
      exact le_max_right _ _
    · obtain ⟨earlier, hearlier, rfl⟩ := Option.map_eq_some_iff.mp hnode
      have hle := hjoined.shift_le other earlier hearlier oscillator
      rw [linked_shift]
      split_ifs
      · exact le_max_of_le_left hle
      · exact hle
  tip_le account oscillator := by
    have hmax : (dag.link shift hash tick depth).maxClock.get oscillator =
        max (dag.maxClock.get oscillator) (shift.vectorClock.get oscillator) :=
      VectorClock.get_merge dag.maxClock shift.vectorClock oscillator
    have hle := hjoined.tip_le account oscillator
    rw [hmax, get_accountTip_link]
    split_ifs
    · exact max_le_max_right _ hle
    · exact le_max_of_le_left hle

/-- An insertion keeps the bookkeeping, whatever it returns. Assumes: the DAG has the bookkeeping.
-/
theorem Joined.insert {dag : VectorClockDag} (hjoined : Joined dag) (prim : Primitives)
    (call : InsertCall) :
    Joined (dag.insert prim call.shift call.publicKey call.tick call.depth).1 := by
  rcases insert_cases prim dag call.shift call.publicKey call.tick call.depth with
    ⟨-, hinsert⟩ | ⟨-, -, hinsert⟩ | ⟨-, -, missing, -, -, hinsert⟩ | ⟨-, -, -, hinsert⟩
  · rw [hinsert]
    exact ⟨hjoined.shift_le, hjoined.tip_le⟩
  · rw [hinsert]
    exact hjoined
  · rw [hinsert]
    exact ⟨hjoined.shift_le, hjoined.tip_le⟩
  · rw [hinsert]
    exact hjoined.link call.shift call.tick call.depth

/-- Any list of insertions keeps the books. -/
theorem joined_insertAll (prim : Primitives) (calls : List InsertCall) :
    Joined (insertAll prim calls) := by
  have hfold : ∀ dag, Joined dag → Joined (calls.foldl
      (fun dag call ↦ (dag.insert prim call.shift call.publicKey call.tick call.depth).1) dag) := by
    induction calls with
    | nil => exact fun dag hjoined ↦ hjoined
    | cons call calls ih => exact fun dag hjoined ↦ ih _ (hjoined.insert prim call)
  exact hfold new joined_new

/-! ### The derived clock -/

/-- The next clock of a sender is acceptable. Assumes: the tips of the DAG are
above its shifts and below the latest times. -/
theorem Joined.acceptable_tick {dag : VectorClockDag} (hjoined : Joined dag) (sender : AccountId) :
    dag.Acceptable sender ((dag.accountTip sender).tick sender.bytes) := by
  refine ⟨fun entry hentry ↦ ⟨fun hown ↦ ?_, fun hother ↦ ?_⟩, ExtTreeMap.mem_insert_self⟩
  · rw [← VectorClock.get_of_mem hentry, hown, VectorClock.get_tick_self]
  · rw [← VectorClock.get_of_mem hentry, VectorClock.get_tick_of_ne _ (Ne.symm hother)]
    exact hjoined.tip_le sender entry.1

/-- Every shift of a sender happened before its next clock. Assumes: the bookkeeping holds, the own
time of the sender can advance, and the shift is in the DAG. -/
theorem Joined.happenedBefore_tick {dag : VectorClockDag} (hjoined : Joined dag)
    {sender : AccountId} (hbound : (dag.accountTip sender).get sender.bytes < 2 ^ 64 - 1)
    {hash : TxHash} {node : DagNode} (hnode : dag.nodes[hash]? = some node)
    (hsender : node.shift.sender = sender) :
    node.shift.vectorClock.happenedBefore ((dag.accountTip sender).tick sender.bytes) = true := by
  have hle := hjoined.shift_le hash node hnode
  rw [hsender] at hle
  have hown : ((dag.accountTip sender).tick sender.bytes).get sender.bytes =
      (dag.accountTip sender).get sender.bytes + 1 := by
    rw [VectorClock.get_tick_self, wrappingAdd_of_lt (by omega)]
  have hself := hle sender.bytes
  rw [VectorClock.happenedBefore_iff]
  refine ⟨fun oscillator ↦ ?_, sender.bytes, by omega⟩
  by_cases hsame : sender.bytes = oscillator
  · rw [← hsame]
    omega
  · rw [VectorClock.get_tick_of_ne _ hsame]
    exact hle oscillator

/-- After any insertions the clock derived for a sender is accepted, and every shift of the sender
happened before it. Assumes: the own time of the sender can advance. -/
theorem derived_clock_valid (prim : Primitives) (calls : List InsertCall) (sender : AccountId)
    (hbound : ((insertAll prim calls).accountTip sender).get sender.bytes < 2 ^ 64 - 1) :
    ∃ clock, (insertAll prim calls).validateOrDerive sender none = .ok clock ∧
      (insertAll prim calls).validateVectorClock sender clock = .ok () ∧
      ∀ (hash : TxHash) (node : DagNode), (insertAll prim calls).nodes[hash]? = some node →
        node.shift.sender = sender → node.shift.vectorClock.happenedBefore clock = true := by
  have hjoined := joined_insertAll prim calls
  refine ⟨_, rfl, ?_, fun hash node hnode hsender ↦ ?_⟩
  · exact (validateVectorClock_eq_ok_iff _ sender _).mpr (hjoined.acceptable_tick sender)
  · exact hjoined.happenedBefore_tick hbound hnode hsender

/-- Two signed shifts of one sender whose clocks are concurrent, the second of them ahead of what
was observed. -/
def unvalidatedCalls : List InsertCall :=
  [[(1, 1)], [(2, 7)]].map fun times ↦
    { shift := StatefulShift.sample 1 1 times [] 1 2
      publicKey := 1
      tick := 0
      depth := 3 }

/-- The clock derived after these two shifts is ahead of both. -/
theorem derived_clock_valid_unvalidatedCalls :
    ((insertAll .sample unvalidatedCalls).accountTip (KeyPair.accountId .sample ⟨1⟩)).get
        (KeyPair.accountId .sample ⟨1⟩).bytes < 2 ^ 64 - 1 ∧
    (insertAll .sample unvalidatedCalls).nodes.size = 2 ∧
    ∃ clock, (insertAll .sample unvalidatedCalls).validateOrDerive
        (KeyPair.accountId .sample ⟨1⟩) none = .ok clock ∧
      (insertAll .sample unvalidatedCalls).validateVectorClock
        (KeyPair.accountId .sample ⟨1⟩) clock = .ok () ∧
      ∀ (hash : TxHash) (node : DagNode),
        (insertAll .sample unvalidatedCalls).nodes[hash]? = some node →
          node.shift.sender = KeyPair.accountId .sample ⟨1⟩ →
            node.shift.vectorClock.happenedBefore clock = true := by
  have hbound : ((insertAll .sample unvalidatedCalls).accountTip
      (KeyPair.accountId .sample ⟨1⟩)).get (KeyPair.accountId .sample ⟨1⟩).bytes < 2 ^ 64 - 1 := by
    decide +kernel
  exact ⟨hbound, by decide +kernel, derived_clock_valid .sample unvalidatedCalls _ hbound⟩

end Fluidic.Consensus.VectorClockDag
