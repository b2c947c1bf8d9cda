import Fluidic.Node.MeshStakes
import Fluidic.Node.SwapAtomicity

/-!
# Shifts in a mesh

No node gossips a stateful shift: the route that takes one from a client ingests it and tells
nobody, and the ingest loop passes nothing on. So in a network that carries only what the nodes of
the mesh gossiped a shift stays at the node that it was submitted to. A node at which no client
submitted one has an empty queue and an empty DAG in every state of every run (`shifts_stay_local`),
whatever the other nodes apply.
-/

set_option autoImplicit false
set_option relaxedAutoImplicit false

namespace Fluidic.Node

open Library Crypto Consensus Api
open Std (ExtTreeMap)

variable {platform : Platform} {ι : Type}

/-! ### Routing -/

/-- The signal that an event delivers, if it does. -/
def deliveredSignal : NodeEvent → Option Signal
  | .gossip signal _ => some signal
  | _ => none

/-- A signal arrives at a node only after a node of the mesh gossiped it. -/
def Routed (mesh : Mesh platform ι) : MeshEvent ι → Prop
  | .serve _ event => ∀ signal ∈ deliveredSignal event, signal ∈ mesh.sent
  | .announce _ _ => True

/-- A client submits a stateful shift to a node. -/
def submitsStateful [DecidableEq ι] (node : ι) : MeshEvent ι → Bool
  | .serve receiver (.submitStateful _ _) => decide (receiver = node)
  | _ => false

/-- The step is routed, and submits no stateful shift to a node. -/
def RoutedPast [DecidableEq ι] (node : ι) (mesh : Mesh platform ι) (event : MeshEvent ι) : Prop :=
  Routed mesh event ∧ submitsStateful node event = false

/-- No node gossips a stateful shift. Assumes: the event is served. -/
theorem stateful_not_gossiped {packages : RpcPackages platform} {node next : RunningNode platform}
    {event : NodeEvent} {output : NodeOutput × List Signal}
    (hserve : serveNode packages node event = some (next, output)) (shift : StatefulShift) :
    .stateful shift ∉ output.2 := by
  intro hmem
  rcases gossiped_cases hserve hmem with ⟨_, heq⟩ | ⟨_, heq, -⟩ | ⟨_, heq⟩ | heq <;> cases heq

/-! ### Nodes without shifts -/

/-- A node has neither queued nor placed a stateful shift. -/
structure Untouched (oscillator : Oscillator platform) : Prop where
  queue : oscillator.pendingStateful = []
  nodes : oscillator.dag.nodes = ∅

namespace Untouched

variable {oscillator next : Oscillator platform} {signals : Set Signal}

/-- Plain operations that bring no stateful shift leave a node without shifts. Assumes: the node has
no shifts, and the operations bring none. -/
theorem of_performs (huntouched : Untouched oscillator)
    (hnone : ∀ shift, .stateful shift ∉ signals) (hperforms : Performs signals oscillator next) :
    Untouched next := by
  obtain ⟨history, hreaches⟩ := hperforms
  have hframe := ShiftFrame.of_reaches hreaches
  exact ⟨(hframe.stateful hnone).trans huntouched.queue, hframe.nodes.trans huntouched.nodes⟩

/-- A synthesis leaves a node without shifts. Assumes: the node has no shifts, and the synthesis
returns. -/
theorem of_synthesize (huntouched : Untouched oscillator) {keys : KeyRegistry}
    {order : SynthesisOrder} {timestampNs : ℕ} {result : SynthesisResult} {hashes : List TxHash}
    (hsynthesize : oscillator.synthesize keys order timestampNs = some (next, result, hashes)) :
    Untouched next := by
  have heffect := Oscillator.synthesize_effect hsynthesize
  refine ⟨heffect.pendingStateful, ExtTreeMap.ext_getElem? fun hash ↦ ?_⟩
  rw [ExtTreeMap.getElem?_empty, Option.eq_none_iff_forall_ne_some]
  intro node hnode
  obtain ⟨checked, hchecked, -⟩ := heffect.node hnode
  rcases Oscillator.checkedDag_cases hchecked with ⟨old, hold, -⟩ | ⟨shift, hshift, -⟩
  · rw [huntouched.nodes, ExtTreeMap.getElem?_empty] at hold
    cases hold
  · rw [huntouched.queue] at hshift
    cases hshift

/-- An event leaves a node without shifts. Assumes: the node has no shifts, and the event is served
and is neither a submission of a stateful shift nor the arrival of one. -/
theorem of_serveNode {packages : RpcPackages platform} {node next : RunningNode platform}
    (huntouched : Untouched node.oscillator) {event : NodeEvent}
    {output : NodeOutput × List Signal}
    (hnone : ∀ shift, .stateful shift ∉ node.brings event)
    (hserve : serveNode packages node event = some (next, output)) : Untouched next.oscillator := by
  rcases serveNode_cases hserve with
    ⟨order, timestampNs, result, hashes, -, hsynthesize, -, -⟩ |
    ⟨cert, nowNs, -, hnext, -⟩ | ⟨-, -, hperforms⟩
  · exact huntouched.of_synthesize hsynthesize
  · rw [hnext]
    exact ⟨huntouched.queue, huntouched.nodes⟩
  · exact huntouched.of_performs hnone hperforms

/-- A new node that has started has no stateful shifts. -/
theorem of_newNode (nttSize : ℕ) (localKeypair : KeyPair) (timestampNs : ℕ) :
    Untouched (newNode platform nttSize localKeypair timestampNs).oscillator := by
  have huntouched : Untouched { (.newWithKeypair nttSize : Oscillator platform) with
      operatorKeypair := some localKeypair } := ⟨rfl, rfl⟩
  refine huntouched.of_performs (fun shift hmem ↦ ?_) (performs_boot _ localKeypair timestampNs)
  cases Set.mem_singleton_iff.mp hmem

end Untouched

/-- A node of a new mesh has no stateful shifts. -/
theorem untouched_newMesh (nttSize : ℕ) (keypairs : ι → KeyPair) (timestampNs : ℕ) (node : ι) :
    Untouched ((Mesh.new platform nttSize keypairs timestampNs).nodes node).oscillator := by
  have hnode : (Mesh.new platform nttSize keypairs timestampNs).nodes node =
      newNode platform nttSize (keypairs node) timestampNs := rfl
  rw [hnode]
  exact .of_newNode nttSize (keypairs node) timestampNs

/-! ### Runs -/

section Runs

variable [DecidableEq ι] {packages : RpcPackages platform}

/-- A routed step that submits nothing to a node leaves it without stateful shifts, and the mesh
gossips none. Assumes: the mesh gossiped no stateful shift and the node has none, and the step is
taken. -/
theorem untouched_stepMesh {mesh after : Mesh platform ι} {node : ι} {event : MeshEvent ι}
    {output : NodeOutput}
    (hsent : ∀ shift, .stateful shift ∉ mesh.sent)
    (huntouched : Untouched (mesh.nodes node).oscillator)
    (hrouted : RoutedPast node mesh event)
    (hstep : stepMesh packages mesh event = some (after, output)) :
    (∀ shift, .stateful shift ∉ after.sent) ∧ Untouched (after.nodes node).oscillator := by
  cases event with
  | announce other timestampNs =>
    obtain ⟨rfl, -⟩ := Prod.mk.inj (Option.some.inj hstep)
    refine ⟨fun shift hmem ↦ ?_, huntouched⟩
    rcases List.mem_append.mp hmem with hearlier | hnew
    · exact hsent shift hearlier
    · cases List.mem_singleton.mp hnew
  | serve other event =>
    obtain ⟨⟨next, output', gossiped⟩, hserve, hresult⟩ := Option.map_eq_some_iff.mp hstep
    obtain ⟨rfl, -⟩ := Prod.mk.inj hresult
    refine ⟨fun shift hmem ↦ ?_, ?_⟩
    · rcases List.mem_append.mp hmem with hearlier | hnew
      · exact hsent shift hearlier
      · exact stateful_not_gossiped hserve shift hnew
    · dsimp only
      by_cases hself : node = other
      · subst hself
        rw [Function.update_self]
        refine huntouched.of_serveNode (fun shift hmem ↦ ?_) hserve
        cases event with
        | gossip signal nowNs =>
          obtain rfl := Set.mem_singleton_iff.mp hmem
          exact hsent shift (hrouted.1 _ rfl)
        | submitStateful request nowNs => exact of_decide_eq_false hrouted.2 rfl
        | submitCommutative request =>
          obtain ⟨other, hother⟩ := hmem
          cases hother
        | submitOperatorStake amount timestampNs =>
          unfold RunningNode.brings at hmem
          dsimp only at hmem
          split at hmem
          · cases Set.mem_singleton_iff.mp hmem
          · exact hmem.elim
        | generate => cases Set.mem_singleton_iff.mp hmem
        | _ => exact hmem.elim
      · rw [Function.update_of_ne hself]
        exact huntouched

/-- A stateful shift stays at the node that it was submitted to. In every run of a mesh in which
signals arrive only after a node gossiped them, a node to which no client submits a stateful shift
never queues one, and its DAG stays empty. Assumes: no client of the run submits a stateful shift to
the node, and signals arrive only after they were gossiped. -/
theorem shifts_stay_local {nttSize : ℕ} {keypairs : ι → KeyPair} {timestampNs : ℕ} {node : ι}
    {history : List (Mesh platform ι × MeshEvent ι)} {mesh : Mesh platform ι}
    (hreaches : Reaches (stepMesh packages) (RoutedPast node)
      (Mesh.new platform nttSize keypairs timestampNs) history mesh) :
    (mesh.nodes node).oscillator.pendingStateful = [] ∧
      (mesh.nodes node).oscillator.dag.nodes = ∅ := by
  have hstart : ∀ shift, .stateful shift ∉
      (Mesh.new platform nttSize keypairs timestampNs : Mesh platform ι).sent :=
    fun _ hmem ↦ absurd hmem List.not_mem_nil
  have huntouched :
      Untouched ((Mesh.new platform nttSize keypairs timestampNs).nodes node).oscillator :=
    untouched_newMesh nttSize keypairs timestampNs node
  generalize Mesh.new platform nttSize keypairs timestampNs = first at hreaches hstart huntouched
  have hkept := @Reaches.invariant _ _ _ _ _ _ (fun mesh : Mesh platform ι ↦
    (∀ shift, .stateful shift ∉ mesh.sent) ∧ Untouched (mesh.nodes node).oscillator)
    ⟨hstart, huntouched⟩
    (fun _ _ _ _ hrouted hbefore hstep ↦ untouched_stepMesh hbefore.1 hbefore.2 hrouted hstep)
    _ _ hreaches
  exact ⟨hkept.2.queue, hkept.2.nodes⟩

end Runs

/-! ### Two nodes -/

instance (mesh : Mesh platform ι) : DecidablePred (Routed mesh)
  | .serve _ event => inferInstanceAs (Decidable (∀ signal ∈ deliveredSignal event,
      signal ∈ mesh.sent))
  | .announce _ _ => isTrue trivial

instance [DecidableEq ι] (node : ι) :
    DecidableRel (RoutedPast node : Mesh platform ι → MeshEvent ι → Prop) :=
  fun mesh event ↦
    inferInstanceAs (Decidable (Routed mesh event ∧ submitsStateful node event = false))

/-- A customer registers at one of two nodes, and swaps there. -/
def swapRound (origin : Fin 2) : List (MeshEvent (Fin 2)) :=
  [.serve origin (.registerAccount (hexEncode (Bytes32.toBytes 1))),
    .serve origin (.submitStateful (depositRequest 100 "100" defaultDexDomain) 1),
    .serve origin (.synthesize .forward 2)]

/-- The registration arrives at a node, which synthesizes too. -/
def spreadRound (receiver : Fin 2) (signal : Signal) : List (MeshEvent (Fin 2)) :=
  [.serve receiver (.gossip signal 3), .serve receiver (.synthesize .forward 4)]

/-- The first node applies both halves of the swap; the second learns of the customer only. -/
theorem shifts_stay_local_twoNodes :
    ∃ (history : List (Mesh Platform.sample (Fin 2) × MeshEvent (Fin 2)))
      (mesh : Mesh Platform.sample (Fin 2)),
      Reaches (stepMesh (.sample _)) (RoutedPast 1) twoNodes history mesh ∧
      countBy DagNode.applied (mesh.nodes 0).oscillator.dag.nodes = 2 ∧
      (mesh.nodes 1).registry.contains customerAccount = true ∧
      (mesh.nodes 1).oscillator.pendingStateful = [] ∧
      (mesh.nodes 1).oscillator.dag.nodes = ∅ := by
  have hruns : ((run (stepMesh (.sample _)) (RoutedPast 1) twoNodes (swapRound 0)).bind
      fun mesh ↦ mesh.sent.head?.bind fun signal ↦
        (run (stepMesh (.sample _)) (RoutedPast 1) mesh (spreadRound 1 signal)).map fun mesh ↦
          (countBy DagNode.applied (mesh.nodes 0).oscillator.dag.nodes,
            (mesh.nodes 1).registry.contains customerAccount)) = some (2, true) := by
    decide +kernel
  obtain ⟨middle, hfirst, hrest⟩ := Option.bind_eq_some_iff.mp hruns
  obtain ⟨signal, -, hrest⟩ := Option.bind_eq_some_iff.mp hrest
  obtain ⟨mesh, hsecond, hfacts⟩ := Option.map_eq_some_iff.mp hrest
  obtain ⟨happlied, hlearned⟩ := Prod.mk.inj hfacts
  obtain ⟨earlier, -, hearlier⟩ := reaches_of_run hfirst
  obtain ⟨later, -, hlater⟩ := reaches_of_run hsecond
  have hreaches := hearlier.trans hlater
  exact ⟨_, mesh, hreaches, happlied, hlearned, shifts_stay_local hreaches⟩

end Fluidic.Node
