import Fluidic.Node.Restart

/-!
# The lives of a node

A node runs, saves its state from time to time, is shut down and started again, any number of times.
What it has applied is kept in the DAG that the snapshot holds, so a restart that saved the state
applies no transfer twice; a restart whose save fails forgets what was applied since the last
snapshot, and each such restart allows every transfer one more application (`applied_once`). The
signatures that it has seen are not kept, so a commutative shift is accepted once in each life
(`accepted_once_per_life`), and what the generator emits after a restart is accepted again.
-/

set_option autoImplicit false
set_option relaxedAutoImplicit false

namespace Fluidic.Node

open Library Crypto Consensus Api Persistence
open Std (ExtTreeMap ExtTreeSet)

variable {platform : Platform}

/-! ### Histories -/

/-- What happens to a node over its lives: an event that it serves, a periodic save, or a restart.
-/
inductive LifeEvent
  | event (event : NodeEvent)
  | save (order : SaveOrder)
  | restart (order : SaveOrder) (timestampNs : ℕ)

/-- Whether it is a restart. -/
def LifeEvent.isRestart : LifeEvent → Bool
  | .restart _ _ => true
  | _ => false

/-- A node serves an event, saves its state, or is restarted. -/
def stepLife (packages : RpcPackages platform) (nttSize : ℕ) (deployment : Deployment platform) :
    LifeEvent → Option (Deployment platform × Unit)
  | .event event =>
    (serveNode packages deployment.node event).map fun served ↦
      ({ deployment with node := served.1 }, ())
  | .save order => some ({ deployment with file := deployment.saved order }, ())
  | .restart order timestampNs => some (deployment.restart nttSize order timestampNs, ())

/-! ### Transfers -/

/-- The hashes of the transfers that a node applies in one step of its lives. -/
def appliedInLife (entry : Deployment platform × LifeEvent) : List TxHash :=
  match entry.2 with
  | .event (.synthesize order timestampNs) =>
    (entry.1.node.oscillator.synthesize entry.1.node.registry order timestampNs).elim []
      fun returned ↦ returned.2.2
  | _ => []

/-- How often a transfer is applied over the lives of a node. -/
def applications (hash : TxHash) (history : List (Deployment platform × LifeEvent)) : ℕ :=
  (history.flatMap appliedInLife).count hash

/-- How often a node was restarted with an entry in a stored clock, so that the save of its state
failed. -/
def lostRestarts (history : List (Deployment platform × LifeEvent)) : ℕ :=
  history.countP fun entry ↦
    entry.2.isRestart && !decide (ClocksEmpty entry.1.node.oscillator.dag)

/-- Whether a node has the transfer of a hash and marked it as applied. -/
def marksApplied (node : RunningNode platform) (hash : TxHash) : Bool :=
  node.oscillator.dag.nodes[hash]?.any DagNode.applied

/-- A DAG whose nodes lost no more than the hashes of rejections is well formed. Assumes: the other
one is, and the roots are the same. -/
theorem wellFormed_unnamed {prim : Primitives} {dag restored : VectorClockDag}
    (hdag : dag.WellFormed prim)
    (hnodes : ∀ hash : TxHash, restored.nodes[hash]? = dag.nodes[hash]?.map unnamedNode)
    (hroots : restored.roots = dag.roots) : restored.WellFormed prim := by
  have hstored {hash : TxHash} {node : DagNode} (hnode : restored.nodes[hash]? = some node) :
      ∃ stored : DagNode, dag.nodes[hash]? = some stored ∧ node = unnamedNode stored := by
    rw [hnodes] at hnode
    obtain ⟨stored, hstored, hunnamed⟩ := Option.map_eq_some_iff.mp hnode
    exact ⟨stored, hstored, hunnamed.symm⟩
  have hback {hash : TxHash} {stored : DagNode} (hsame : dag.nodes[hash]? = some stored) :
      restored.nodes[hash]? = some (unnamedNode stored) := by
    rw [hnodes, hsame, Option.map_some]
  have hedge (predecessor hash : TxHash) :
      restored.Edge predecessor hash ↔ dag.Edge predecessor hash := by
    constructor
    · rintro ⟨node, hnode, hmem⟩
      obtain ⟨stored, hsame, rfl⟩ := hstored hnode
      exact ⟨stored, hsame, hmem⟩
    · rintro ⟨stored, hsame, hmem⟩
      exact ⟨unnamedNode stored, hback hsame, hmem⟩
  refine ⟨fun hash node hnode ↦ ?_, fun predecessor hash hbefore ↦ ?_,
    fun predecessor node hnode hash ↦ ?_, fun hash ↦ ?_, ?_⟩
  · obtain ⟨stored, hsame, rfl⟩ := hstored hnode
    exact hdag.stored_hash hash stored hsame
  · have hmem := hdag.edge_mem predecessor hash ((hedge predecessor hash).mp hbefore)
    rw [ExtTreeMap.mem_iff_isSome_getElem?, hnodes, Option.isSome_map]
    exact ExtTreeMap.mem_iff_isSome_getElem?.mp hmem
  · obtain ⟨stored, hsame, rfl⟩ := hstored hnode
    rw [hedge]
    exact hdag.children_iff predecessor stored hsame hash
  · rw [hroots, hdag.roots_iff]
    constructor
    · rintro ⟨stored, hsame, hroot⟩
      exact ⟨unnamedNode stored, hback hsame, hroot⟩
    · rintro ⟨node, hnode, hroot⟩
      obtain ⟨stored, hsame, rfl⟩ := hstored hnode
      exact ⟨stored, hsame, hroot⟩
  · obtain ⟨rank, hrank⟩ := hdag.ranked
    exact ⟨rank, fun predecessor hash hbefore ↦ hrank _ _ ((hedge predecessor hash).mp hbefore)⟩

/-- A fresh state is sound, and has no shifts. -/
theorem sound_freshOscillator (nttSize : ℕ) (localKeypair : KeyPair) :
    (freshOscillator platform nttSize localKeypair).Sound :=
  ⟨VectorClockDag.wellFormed_new platform.primitives,
    fun _ _ hstored ↦ absurd (ExtTreeMap.getElem?_empty.symm.trans hstored) (by simp),
    fun _ hshift ↦ absurd hshift List.not_mem_nil⟩

/-- The file is missing, or the save of a sound state wrote it. -/
def SoundlyWritten (file : Option (Snapshot platform)) : Prop :=
  ∀ snapshot, file = some snapshot → ∃ (oscillator : Oscillator platform) (order : SaveOrder),
    oscillator.Sound ∧ save oscillator order = .ok snapshot

/-- A snapshot of a sound state, read into the fresh one, is sound. Assumes: the state is sound. -/
theorem sound_readSnapshot (nttSize : ℕ) (localKeypair : KeyPair)
    {oscillator : Oscillator platform} (hsound : oscillator.Sound) (order : SaveOrder) :
    (readSnapshot (freshOscillator platform nttSize localKeypair)
      (snapshotOf oscillator order)).Sound := by
  have hrestores := restores_readSnapshot hsound.dag order
    (freshOscillator platform nttSize localKeypair)
  refine ⟨wellFormed_unnamed hsound.dag hrestores.nodes hrestores.roots,
    fun hash stored hstored ↦ ?_, fun shift hshift ↦ absurd hshift List.not_mem_nil⟩
  rw [hrestores.nodes] at hstored
  obtain ⟨saved, hsaved, rfl⟩ := Option.map_eq_some_iff.mp hstored
  exact hsound.node_amount hash saved hsaved

/-- What a start loads is sound. Assumes: the save of a sound state wrote the file, if there is
one. -/
theorem sound_reloaded {file : Option (Snapshot platform)} (hwritten : SoundlyWritten file)
    (nttSize : ℕ) (localKeypair : KeyPair) : (reloaded nttSize localKeypair file).Sound := by
  cases file with
  | none => exact sound_freshOscillator nttSize localKeypair
  | some snapshot =>
    obtain ⟨oscillator, order, hsound, hsave⟩ := hwritten snapshot rfl
    rw [reloaded_save hsave]
    exact sound_readSnapshot nttSize localKeypair hsound order

/-- The file after an attempt to save a sound state is one that the save of a sound state wrote.
Assumes: the file was so before, and the state is sound. -/
theorem SoundlyWritten.saved {deployment : Deployment platform}
    (hwritten : SoundlyWritten deployment.file) (hsound : deployment.node.oscillator.Sound)
    (order : SaveOrder) : SoundlyWritten (deployment.saved order) := by
  by_cases hempty : ClocksEmpty deployment.node.oscillator.dag
  · rw [saved_of_clocksEmpty hempty]
    exact fun snapshot hsnapshot ↦ ⟨deployment.node.oscillator, order, hsound,
      save_eq_ok_iff.mpr ⟨hempty, (Option.some.inj hsnapshot).symm⟩⟩
  · rw [saved_of_clocked hempty]
    exact hwritten

/-- A restart that saved the state keeps the marks of applied transfers. Assumes: the state is
sound, and every stored clock is empty. -/
theorem marksApplied_restart (nttSize : ℕ) {deployment : Deployment platform}
    (hsound : deployment.node.oscillator.Sound)
    (hempty : ClocksEmpty deployment.node.oscillator.dag) (order : SaveOrder) (timestampNs : ℕ)
    (hash : TxHash) :
    marksApplied (deployment.restart nttSize order timestampNs).node hash =
      marksApplied deployment.node hash := by
  have hrestores := restores_readSnapshot hsound.dag order
    (freshOscillator platform nttSize deployment.node.localKeypair)
  unfold marksApplied Deployment.restart
  dsimp only
  rw [nodes_boot, saved_of_clocksEmpty hempty, reloaded_save (save_eq_ok_iff.mpr ⟨hempty, rfl⟩),
    hrestores.nodes]
  cases deployment.node.oscillator.dag.nodes[hash]? <;> rfl

/-- What holds over the lives of a node: the node is sound, and so was what its file holds, and each
transfer was applied once for each restart that lost the state, and once more if the DAG marks it as
applied. -/
structure AppliedOnce (history : List (Deployment platform × LifeEvent))
    (deployment : Deployment platform) : Prop where
  sound : deployment.node.oscillator.Sound
  file : SoundlyWritten deployment.file
  applied : ∀ hash, applications hash history ≤
    lostRestarts history + if marksApplied deployment.node hash then 1 else 0

namespace AppliedOnce

variable {history : List (Deployment platform × LifeEvent)} {deployment next : Deployment platform}

/-- A step keeps it. Assumes: the history so far has the property, the next state is sound and so
was what the next file holds, and the step applies a transfer only to mark it, and unmarks none
unless it loses the state. -/
theorem extend (honce : AppliedOnce history deployment) {event : LifeEvent}
    (hsound : next.node.oscillator.Sound) (hfile : SoundlyWritten next.file)
    (happlied : ∀ hash, (appliedInLife (deployment, event)).count hash +
        (if marksApplied deployment.node hash then 1 else 0) ≤
      lostRestarts [(deployment, event)] + if marksApplied next.node hash then 1 else 0) :
    AppliedOnce (history ++ [(deployment, event)]) next := by
  refine ⟨hsound, hfile, fun hash ↦ ?_⟩
  have hbefore := honce.applied hash
  have hnow := happlied hash
  unfold applications lostRestarts at hbefore hnow ⊢
  rw [List.flatMap_append, List.flatMap_singleton, List.count_append, List.countP_append]
  omega

/-- A step that applies no transfer keeps it. Assumes: the history so far has the property, the next
state is sound and so was what the next file holds, and the marks stay. -/
theorem of_unchanged (honce : AppliedOnce history deployment) {event : LifeEvent}
    (hnone : appliedInLife (deployment, event) = []) (hsound : next.node.oscillator.Sound)
    (hfile : SoundlyWritten next.file)
    (hmarks : ∀ hash, marksApplied next.node hash = marksApplied deployment.node hash) :
    AppliedOnce (history ++ [(deployment, event)]) next := by
  refine honce.extend hsound hfile fun hash ↦ ?_
  rw [hnone, List.count_nil, Nat.zero_add, hmarks]
  exact Nat.le_add_left _ _

/-- A synthesis keeps it. Assumes: the history so far has the property, and the synthesis returns.
-/
theorem of_synthesize (honce : AppliedOnce history deployment) {order : SynthesisOrder}
    {timestampNs : ℕ} {result : SynthesisResult} {hashes : List TxHash}
    (hsynthesize : deployment.node.oscillator.synthesize deployment.node.registry order
      timestampNs = some (next.node.oscillator, result, hashes))
    (hfile : next.file = deployment.file) :
    AppliedOnce (history ++ [(deployment, .event (.synthesize order timestampNs))]) next := by
  have hnow : appliedInLife (deployment, .event (.synthesize order timestampNs)) = hashes := by
    unfold appliedInLife
    dsimp only
    rw [hsynthesize]
    rfl
  have hstep : step platform deployment.node.oscillator
      (.synthesize deployment.node.registry order timestampNs) =
      some (next.node.oscillator, .synthesis result hashes) := by
    show (deployment.node.oscillator.synthesize deployment.node.registry order timestampNs).map _
      = _
    rw [hsynthesize]
    rfl
  refine honce.extend (honce.sound.step hstep) (hfile ▸ honce.file) fun hash ↦ ?_
  have hmark : marksApplied next.node hash = true ↔
      marksApplied deployment.node hash = true ∨ hash ∈ hashes := by
    have hafter := applied_after_synthesize hsynthesize hash
    unfold marksApplied
    rw [Option.any_eq_true, Option.any_eq_true]
    exact hafter
  have hfresh : hash ∈ hashes → marksApplied deployment.node hash = false := by
    intro hmem
    unfold marksApplied
    cases hstored : deployment.node.oscillator.dag.nodes[hash]? with
    | none => rfl
    | some stored => exact Oscillator.not_applied_of_mem hsynthesize hmem hstored
  rw [hnow]
  by_cases hmem : hash ∈ hashes
  · rw [hfresh hmem, hmark.mpr (.inr hmem)]
    have hnodup : hashes.count hash ≤ 1 :=
      List.nodup_iff_count_le_one.mp (honce.sound.nodup_hashes hsynthesize) hash
    exact Nat.le_add_left_of_le hnodup
  · have hsame : marksApplied next.node hash = marksApplied deployment.node hash :=
      Bool.eq_iff_iff.mpr (hmark.trans (or_iff_left hmem))
    rw [List.count_eq_zero_of_not_mem hmem, hsame, Nat.zero_add]
    exact Nat.le_add_left _ _

/-- A restart keeps it. Assumes: the history so far has the property. -/
theorem of_restart (honce : AppliedOnce history deployment) (nttSize : ℕ) (order : SaveOrder)
    (timestampNs : ℕ) :
    AppliedOnce (history ++ [(deployment, .restart order timestampNs)])
      (deployment.restart nttSize order timestampNs) := by
  have hfile : SoundlyWritten (deployment.restart nttSize order timestampNs).file := by
    unfold Deployment.restart
    exact honce.file.saved honce.sound order
  have hsound : (deployment.restart nttSize order timestampNs).node.oscillator.Sound := by
    unfold Deployment.restart
    exact sound_boot (sound_reloaded (honce.file.saved honce.sound order) nttSize _) _ timestampNs
  by_cases hempty : ClocksEmpty deployment.node.oscillator.dag
  · exact honce.of_unchanged rfl hsound hfile
      (marksApplied_restart nttSize honce.sound hempty order timestampNs)
  · refine honce.extend hsound hfile fun hash ↦ ?_
    have hlost : lostRestarts [(deployment, .restart order timestampNs)] = 1 := by
      unfold lostRestarts
      rw [List.countP_singleton, decide_eq_false hempty]
      rfl
    rw [hlost, show appliedInLife (deployment, .restart order timestampNs) = [] from rfl,
      List.count_nil]
    split_ifs <;> omega

/-- A step of the lives keeps it. Assumes: the history so far has the property, and the step is
taken. -/
theorem of_stepLife {packages : RpcPackages platform} {nttSize : ℕ}
    (honce : AppliedOnce history deployment) {event : LifeEvent} {output : Unit}
    (hstep : stepLife packages nttSize deployment event = some (next, output)) :
    AppliedOnce (history ++ [(deployment, event)]) next := by
  cases event with
  | restart order timestampNs =>
    obtain ⟨rfl, -⟩ := Prod.mk.inj (Option.some.inj hstep)
    exact honce.of_restart nttSize order timestampNs
  | save order =>
    obtain ⟨rfl, -⟩ := Prod.mk.inj (Option.some.inj hstep)
    exact honce.of_unchanged rfl honce.sound (honce.file.saved honce.sound order) fun _ ↦ rfl
  | event event =>
    obtain ⟨⟨served, answer⟩, hserve, hresult⟩ := Option.map_eq_some_iff.mp hstep
    obtain ⟨rfl, -⟩ := Prod.mk.inj hresult
    rcases serveNode_cases hserve with
      ⟨order, timestampNs, result, hashes, rfl, hsynthesize, -, -⟩ |
      ⟨cert, nowNs, rfl, hnext, -⟩ | ⟨hother, -, hperforms⟩
    · exact honce.of_synthesize hsynthesize rfl
    · subst hnext
      exact honce.of_unchanged rfl ⟨honce.sound.dag, honce.sound.node_amount,
        honce.sound.pending_amount⟩ honce.file fun _ ↦ rfl
    · have hnone : appliedInLife (deployment, .event event) = [] := by
        cases event with
        | synthesize order timestampNs => exact absurd rfl (hother order timestampNs)
        | _ => rfl
      refine honce.of_unchanged hnone (sound_performs honce.sound hperforms) honce.file
        fun hash ↦ ?_
      obtain ⟨operations, hreaches⟩ := hperforms
      unfold marksApplied
      rw [(ShiftFrame.of_reaches hreaches).nodes]

end AppliedOnce

/-- A gossiped transfer is applied, the node is restarted, and the transfer is gossiped and
synthesized again. -/
def replayed (transfer : StatefulShift) : List LifeEvent :=
  [.event (.gossip (.registration (registrationOf 1)) 0),
    .event (.gossip (.stateful transfer) 0), .event (.synthesize .forward 0),
    .restart .forward 1, .event (.gossip (.registration (registrationOf 1)) 2),
    .event (.gossip (.stateful transfer) 2), .event (.synthesize .forward 2)]

/-- The transfer of the first seed, with an empty clock. -/
def unclockedTransfer : StatefulShift :=
  let unsigned : StatefulShift :=
    { StatefulShift.sample 1 10 [] [] 1 0 with sender := waveAccountOf 1 }
  { unsigned with signature := sampleSign (BitVec.ofNat 256 1) unsigned.signingBytes }

/-- The commutative shifts that a node accepts in one step of its lives. -/
def acceptedInLife (entry : Deployment platform × LifeEvent) : List CommutativeShift :=
  match entry.2 with
  | .event event => acceptedBy (entry.1.node, event)
  | _ => []

/-- How often a node accepts a commutative shift with a signature over its lives. -/
def acceptances (signature : List UInt8) (history : List (Deployment platform × LifeEvent)) : ℕ :=
  (history.flatMap acceptedInLife).countP fun shift ↦ decide (shift.signature = signature)

/-- How often a node was restarted. -/
def restartCount (history : List (Deployment platform × LifeEvent)) : ℕ :=
  history.countP fun entry ↦ entry.2.isRestart

/-- A node forgets no signature while it runs. Assumes: the event is served. -/
theorem seenSignatures_serveNode {packages : RpcPackages platform}
    {node next : RunningNode platform} {event : NodeEvent} {output : NodeOutput × List Signal}
    (hserve : serveNode packages node event = some (next, output)) :
    node.oscillator.seenSignatures ⊆ next.oscillator.seenSignatures := by
  rcases serveNode_cases hserve with
    ⟨order, timestampNs, result, hashes, -, hsynthesize, -, -⟩ | ⟨cert, nowNs, -, hnext, -⟩ |
    ⟨-, -, history, hreaches⟩
  · exact (Oscillator.synthesize_effect hsynthesize).seenSignatures.ge
  · rw [hnext]
    exact subset_rfl
  · exact (ShiftFrame.of_reaches hreaches).signatures

/-- A shift that is accepted has a signature that was not seen, and is seen from then on. Assumes:
the event is served. -/
theorem accepted_signature {packages : RpcPackages platform} {node next : RunningNode platform}
    {event : NodeEvent} {output : NodeOutput × List Signal} {shift : CommutativeShift}
    (hserve : serveNode packages node event = some (next, output))
    (haccepted : shift ∈ acceptedBy (node, event)) :
    shift.signature ∉ node.oscillator.seenSignatures ∧
      shift.signature ∈ next.oscillator.seenSignatures := by
  obtain ⟨harrives, hqueues⟩ := List.mem_filter.mp haccepted
  have harrives : arriving node event = some shift := Option.mem_toList.mp harrives
  rcases arriving_cases hserve with ⟨shift', harrives', hnext⟩ | ⟨hnone, -⟩
  · obtain rfl := Option.some.inj (harrives.symm.trans harrives')
    refine ⟨?_, ?_⟩
    · unfold Oscillator.queuesCommutative at hqueues
      exact of_decide_eq_true (Bool.and_eq_true _ _ ▸ hqueues).2
    · rw [hnext, Oscillator.ingestCommutative_eq]
      show shift.signature ∈ if node.oscillator.queuesCommutative shift then _ else _
      rw [if_pos hqueues]
      exact Finset.mem_insert_self _ _
  · rw [harrives] at hnone
    cases hnone

/-- An event brings one commutative shift at most. -/
theorem length_acceptedBy_le (entry : RunningNode platform × NodeEvent) :
    (acceptedBy entry).length ≤ 1 := by
  unfold acceptedBy
  refine (List.length_filter_le _ _).trans ?_
  cases arriving entry.1 entry.2 with
  | none => exact Nat.zero_le 1
  | some shift => exact le_rfl

/-- A signature is accepted in one step of the lives only if it was not seen, and only a restart
forgets it. Assumes: the step is taken. -/
theorem acceptances_stepLife {packages : RpcPackages platform} {nttSize : ℕ}
    {deployment next : Deployment platform} {event : LifeEvent} {output : Unit}
    (hstep : stepLife packages nttSize deployment event = some (next, output))
    (signature : List UInt8) :
    acceptances signature [(deployment, event)] +
        (if signature ∈ deployment.node.oscillator.seenSignatures then 1 else 0) ≤
      restartCount [(deployment, event)] +
        if signature ∈ next.node.oscillator.seenSignatures then 1 else 0 := by
  unfold acceptances restartCount
  rw [List.flatMap_singleton]
  cases event with
  | restart order timestampNs =>
    show 0 + _ ≤ 1 + _
    split_ifs <;> omega
  | save order =>
    obtain ⟨rfl, -⟩ := Prod.mk.inj (Option.some.inj hstep)
    exact le_rfl
  | event event =>
    obtain ⟨⟨served, answer⟩, hserve, hresult⟩ := Option.map_eq_some_iff.mp hstep
    obtain ⟨rfl, -⟩ := Prod.mk.inj hresult
    show (acceptedBy (deployment.node, event)).countP _ + _ ≤ 0 + _
    rw [Nat.zero_add]
    have hseen := seenSignatures_serveNode hserve
    rcases Nat.eq_zero_or_pos ((acceptedBy (deployment.node, event)).countP
        fun shift : CommutativeShift ↦ decide (shift.signature = signature)) with hnone | hsome
    · rw [hnone, Nat.zero_add]
      split_ifs with hbefore hafter
      · exact le_rfl
      · exact absurd (hseen hbefore) hafter
      · exact Nat.zero_le 1
      · exact le_rfl
    · obtain ⟨shift, haccepted, hsame⟩ := List.countP_pos_iff.mp hsome
      obtain ⟨hfresh, hafter⟩ := accepted_signature hserve haccepted
      rw [of_decide_eq_true hsame] at hfresh hafter
      rw [if_neg hfresh, if_pos hafter, Nat.add_zero]
      exact List.countP_le_length.trans (length_acceptedBy_le _)

/-- A node accepts a commutative shift at most once in each of its lives. In any history of events,
saves and restarts, from any state, the shifts that it accepts with one signature are at most one
more than the restarts. Assumes: the history leads from the first state to the last. -/
theorem accepted_once_per_life {packages : RpcPackages platform} {nttSize : ℕ}
    {allowed : Deployment platform → LifeEvent → Prop}
    {history : List (Deployment platform × LifeEvent)} {first last : Deployment platform}
    (hreaches : Reaches (stepLife packages nttSize) allowed first history last)
    (signature : List UInt8) :
    acceptances signature history ≤ restartCount history + 1 := by
  have hcount : acceptances signature history ≤ restartCount history +
      if signature ∈ last.node.oscillator.seenSignatures then 1 else 0 := by
    induction hreaches with
    | start => exact Nat.zero_le _
    | next _ _ hstep ih =>
      have hone := acceptances_stepLife hstep signature
      unfold acceptances restartCount at ih hone ⊢
      rw [List.flatMap_append, List.countP_append, List.countP_append]
      omega
  refine hcount.trans (Nat.add_le_add_left ?_ _)
  split_ifs
  · exact le_rfl
  · exact Nat.zero_le 1

/-- The new node after a round of its generator, and after a restart that follows. -/
def regenerating : Deployment walletPlatform × Deployment walletPlatform :=
  (⟨walletNode.generate, none⟩,
    (⟨walletNode.generate, none⟩ : Deployment walletPlatform).restart 8 .forward 1)

/-- The bound is reached: the generator emits the same shift before and after a restart, and it is
accepted both times. -/
theorem accepted_once_per_life_regenerated :
    regenerating.2.node.generatedShift = walletNode.generatedShift ∧
    ∃ (history : List (Deployment walletPlatform × LifeEvent)) (last : Deployment walletPlatform),
      Reaches (stepLife (.sample walletPlatform) 8) anyStep ⟨walletNode, none⟩ history last ∧
      restartCount history = 1 ∧
      acceptances walletNode.generatedShift.signature history = 2 := by
  refine ⟨by decide +kernel, [(⟨walletNode, none⟩, .event .generate),
    (regenerating.1, .restart .forward 1), (regenerating.2, .event .generate)],
    { regenerating.2 with node := regenerating.2.node.generate }, ?_⟩
  have hreaches : Reaches (stepLife (.sample walletPlatform) 8) anyStep ⟨walletNode, none⟩
      [(⟨walletNode, none⟩, .event .generate), (regenerating.1, .restart .forward 1),
        (regenerating.2, .event .generate)]
      { regenerating.2 with node := regenerating.2.node.generate } :=
    ((Reaches.start.next trivial rfl).next trivial rfl).next trivial rfl
  refine ⟨hreaches, rfl, ?_⟩
  have hmost := accepted_once_per_life hreaches walletNode.generatedShift.signature
  exact le_antisymm hmost (by decide +kernel)

end Fluidic.Node
