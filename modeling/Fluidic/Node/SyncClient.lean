import Fluidic.Consensus.AccountClock
import Fluidic.Node.ChainView
import Fluidic.Node.KeyAuthenticity

/-!
# Following a node

A client follows a node by its synchronisation routes: one tells the tick, the other the finalized
shifts since a tick, up to a limit. The shifts since the tick of an earlier answer are those that
were finalized in between (`sync_follows`), because a node is promoted at most once, with the tick
of the synthesis that does it. A shift that lost its finality since is in neither answer.
-/

set_option autoImplicit false
set_option relaxedAutoImplicit false

namespace Fluidic.Node

open Library Crypto Consensus Api Persistence
open Std (ExtTreeMap)

variable {platform : Platform}

/-! ### The routes -/

/-- Finalized shifts whose `finalizedAtTick` is at least a tick. -/
def finalizedShiftsSince (dag : VectorClockDag) (order : IterationOrder (TxHash × DagNode))
    (fromTick : ℕ) : List DagNode :=
  ((order.visit dag.nodes.toList).map Prod.snd).filter fun node ↦
    decide (node.status = .finalized) &&
      (node.finalizedAtTick.map fun tick ↦ decide (fromTick ≤ tick)).getD false

/-- The shifts that a node answers a client with that follows it. -/
def getSyncShifts (node : RunningNode platform) (order : IterationOrder (TxHash × DagNode))
    (fromTick : ℕ) (limit : Option ℕ) : List DagNode :=
  (finalizedShiftsSince node.oscillator.dag order fromTick).take (min (limit.getD 1000) 10000)

/-- The shift of a hash is finalized. -/
def Final (oscillator : Oscillator platform) (hash : TxHash) : Prop :=
  ∃ node : DagNode, oscillator.dag.nodes[hash]? = some node ∧ node.status = .finalized

/-- A node is among the shifts since a tick when it is stored, finalized, and was promoted since. -/
theorem mem_finalizedShiftsSince (dag : VectorClockDag)
    (order : IterationOrder (TxHash × DagNode)) (fromTick : ℕ) (node : DagNode) :
    node ∈ finalizedShiftsSince dag order fromTick ↔
      ∃ (hash : TxHash) (tick : ℕ), dag.nodes[hash]? = some node ∧ node.status = .finalized ∧
        node.finalizedAtTick = some tick ∧ fromTick ≤ tick := by
  unfold finalizedShiftsSince
  rw [List.mem_filter, List.mem_map, Bool.and_eq_true, decide_eq_true_eq]
  constructor
  · rintro ⟨⟨⟨hash, stored⟩, hmem, rfl⟩, hstatus, hsince⟩
    dsimp only at hsince
    have hstored := ExtTreeMap.mem_toList_iff_getElem?_eq_some.mp ((order.mem_visit _ _).mp hmem)
    cases hstamp : stored.finalizedAtTick with
    | none =>
      rw [hstamp] at hsince
      cases hsince
    | some tick =>
      rw [hstamp] at hsince
      exact ⟨hash, tick, hstored, hstatus, rfl, of_decide_eq_true hsince⟩
  · rintro ⟨hash, tick, hstored, hstatus, hstamp, hsince⟩
    refine ⟨⟨(hash, node), (order.mem_visit _ _).mpr ?_, rfl⟩, hstatus, ?_⟩
    · exact ExtTreeMap.mem_toList_iff_getElem?_eq_some.mpr hstored
    · rw [hstamp]
      exact decide_eq_true hsince

/-- No node is listed twice. Assumes: every node is stored under its own hash. -/
theorem nodup_finalizedShiftsSince {dag : VectorClockDag}
    (hdag : dag.WellFormed platform.primitives) (order : IterationOrder (TxHash × DagNode))
    (fromTick : ℕ) : (finalizedShiftsSince dag order fromTick).Nodup := by
  have hentries : (order.visit dag.nodes.toList).Nodup := order.nodup_visit (nodup_toList _)
  refine ((List.nodup_map_iff_inj_on hentries).mpr ?_).filter _
  rintro ⟨hash, node⟩ hmem ⟨hash', node'⟩ hmem' hsame
  obtain rfl : node = node' := hsame
  rw [order.mem_visit, ExtTreeMap.mem_toList_iff_getElem?_eq_some] at hmem hmem'
  have hhash := (hdag.stored_hash hash node hmem).1
  rw [← hhash, (hdag.stored_hash hash' node hmem').1]

/-! ### Promotions -/

/-- The check and the promotion of a tick keep the tick of promotion, and keep the status or reject
the node, or they promote an accepted node with the tick. -/
theorem prepareNode_cases (dag : VectorClockDag) (tick : ℕ) (hash : TxHash) (node : DagNode) :
    ((Oscillator.prepareNode dag tick hash node).status = node.status ∨
        ∃ error, (Oscillator.prepareNode dag tick hash node).status = .rejected error) ∧
      (Oscillator.prepareNode dag tick hash node).finalizedAtTick = node.finalizedAtTick ∨
    node.status = .accepted ∧
      (Oscillator.prepareNode dag tick hash node).status = .finalized ∧
      (Oscillator.prepareNode dag tick hash node).finalizedAtTick = some tick := by
  cases hoverspent : dag.isOverspent (hash, node) with
  | true =>
    refine .inl ⟨.inr ⟨_, Oscillator.prepareNode_status_of_overspent tick hoverspent⟩, ?_⟩
    unfold Oscillator.prepareNode VectorClockDag.promoteNode
    rw [if_pos hoverspent, if_neg fun hdeep ↦ ShiftStatus.noConfusion hdeep.1]
  | false =>
    unfold Oscillator.prepareNode VectorClockDag.promoteNode
    rw [hoverspent, if_neg Bool.false_ne_true]
    split_ifs with hdeep
    · exact .inr ⟨hdeep.1, rfl, rfl⟩
    · exact .inl ⟨.inl rfl, rfl⟩

/-- A node after a synthesis has the status and the tick of promotion that the check and the
promotion leave it. Assumes: the synthesis returns, and the node is stored. -/
theorem node_synthesize {oscillator final : Oscillator platform} {keys : KeyRegistry}
    {order : SynthesisOrder} {timestampNs : ℕ} {result : SynthesisResult} {hashes : List TxHash}
    (hsynthesize : oscillator.synthesize keys order timestampNs = some (final, result, hashes))
    {hash : TxHash} {node : DagNode} (hnode : final.dag.nodes[hash]? = some node) :
    ∃ checked : DagNode, (oscillator.checkedDag keys).nodes[hash]? = some checked ∧
      node.status = (Oscillator.prepareNode (oscillator.checkedDag keys) oscillator.synthesisTick
        hash checked).status ∧
      node.finalizedAtTick = (Oscillator.prepareNode (oscillator.checkedDag keys)
        oscillator.synthesisTick hash checked).finalizedAtTick := by
  rw [(Oscillator.synthesize_effect hsynthesize).nodes, Oscillator.getElem?_markApplied,
    Option.map_eq_some_iff] at hnode
  obtain ⟨prepared, hprepared, rfl⟩ := hnode
  rw [Oscillator.getElem?_preparedDag, Option.map_eq_some_iff] at hprepared
  obtain ⟨checked, hchecked, rfl⟩ := hprepared
  exact ⟨checked, hchecked, rfl, rfl⟩

/-! ### What a client sees -/

/-- What holds of a state of a run and a later one: a shift that is finalized at the later one was
promoted before its tick, and since the tick of the first exactly if it was not finalized there; a
shift that was finalized at the first is not accepted again. -/
structure Synced (first current : Oscillator platform) : Prop where
  tick : first.synthesisTick ≤ current.synthesisTick
  stamped : ∀ (hash : TxHash) (node : DagNode), current.dag.nodes[hash]? = some node →
    node.status = .finalized → ∃ tick, node.finalizedAtTick = some tick ∧
      tick < current.synthesisTick ∧ (first.synthesisTick ≤ tick ↔ ¬ Final first hash)
  settled : ∀ hash, Final first hash → ∃ node : DagNode,
    current.dag.nodes[hash]? = some node ∧ node.status ≠ .accepted

namespace Synced

variable {first current next : Oscillator platform}

/-- A step that leaves the nodes and the tick alone keeps two states synced. Assumes: the two states
are synced, and the step leaves the nodes and the tick alone. -/
theorem of_eq (hsynced : Synced first current) (hnodes : next.dag.nodes = current.dag.nodes)
    (htick : next.synthesisTick = current.synthesisTick) : Synced first next where
  tick := hsynced.tick.trans_eq htick.symm
  stamped hash node hnode hstatus := by
    rw [htick]
    exact hsynced.stamped hash node (hnodes ▸ hnode) hstatus
  settled hash hfinal := by
    rw [hnodes]
    exact hsynced.settled hash hfinal

/-- A synthesis keeps two states synced. Assumes: the two states are synced, the tick counter does
not wrap, and the synthesis returns. -/
theorem of_synthesize (hsynced : Synced first current)
    (hfits : current.synthesisTick + 1 < 2 ^ 64) {keys : KeyRegistry} {order : SynthesisOrder}
    {timestampNs : ℕ} {result : SynthesisResult} {hashes : List TxHash}
    (hsynthesize : current.synthesize keys order timestampNs = some (next, result, hashes)) :
    Synced first next := by
  have htick : next.synthesisTick = current.synthesisTick + 1 :=
    (Oscillator.synthesize_clock hsynthesize).1.trans (Nat.mod_eq_of_lt hfits)
  refine ⟨hsynced.tick.trans (htick ▸ Nat.le_succ _), fun hash node hnode hstatus ↦ ?_,
    fun hash hfinal ↦ ?_⟩
  · rw [htick]
    obtain ⟨checked, hchecked, hstatus', hstamp'⟩ := node_synthesize hsynthesize hnode
    rw [hstatus'] at hstatus
    rw [hstamp']
    rcases prepareNode_cases (current.checkedDag keys) current.synthesisTick hash checked with
      ⟨hkept | ⟨error, hrejected⟩, hstamp⟩ | ⟨haccepted, -, hstamp⟩
    · rw [hkept] at hstatus
      rcases Oscillator.checkedDag_cases hchecked with ⟨old, hold, hcore⟩ | ⟨_, -, _, -, hcore⟩
      · have hsame : checked.finalizedAtTick = old.finalizedAtTick :=
          show checked.core.finalizedAtTick = old.core.finalizedAtTick by rw [hcore]
        rw [← DagNode.core_status, hcore, DagNode.core_status] at hstatus
        obtain ⟨tick, hold', hlt, hsince⟩ := hsynced.stamped hash old hold hstatus
        exact ⟨tick, hstamp.trans (hsame.trans hold'), hlt.trans (Nat.lt_succ_self _), hsince⟩
      · rw [← DagNode.core_status, hcore] at hstatus
        cases hstatus
    · rw [hrejected] at hstatus
      cases hstatus
    · refine ⟨_, hstamp, Nat.lt_succ_self _, fun _ hfinal ↦ ?_, fun _ ↦ hsynced.tick⟩
      obtain ⟨old, hold, hnot⟩ := hsynced.settled hash hfinal
      obtain ⟨checked', hchecked', hcore⟩ := Oscillator.checkedDag_of_mem keys hold
      obtain rfl := Option.some.inj (hchecked.symm.trans hchecked')
      rw [← DagNode.core_status, hcore, DagNode.core_status] at haccepted
      exact hnot haccepted
  · obtain ⟨old, hold, hnot⟩ := hsynced.settled hash hfinal
    obtain ⟨checked, hchecked, hcore⟩ := Oscillator.checkedDag_of_mem keys hold
    obtain ⟨node, hnode⟩ := (Oscillator.synthesize_effect hsynthesize).exists_node hchecked
    refine ⟨node, hnode, fun haccepted ↦ ?_⟩
    obtain ⟨checked', hchecked', hstatus, -⟩ := node_synthesize hsynthesize hnode
    obtain rfl := Option.some.inj (hchecked.symm.trans hchecked')
    rw [hstatus] at haccepted
    rcases prepareNode_cases (current.checkedDag keys) current.synthesisTick hash checked with
      ⟨hkept | ⟨error, hrejected⟩, -⟩ | ⟨-, hpromoted, -⟩
    · rw [hkept, ← DagNode.core_status, hcore, DagNode.core_status] at haccepted
      exact hnot haccepted
    · rw [hrejected] at haccepted
      cases haccepted
    · rw [hpromoted] at haccepted
      cases haccepted

/-- Every run of a node keeps two states synced. Assumes: the two states are synced where the run
starts, and the run reaches the last state. -/
theorem of_reaches {packages : RpcPackages platform} {node last : RunningNode platform}
    {history : List (RunningNode platform × NodeEvent)} (hsynced : Synced first node.oscillator)
    (hreaches : Reaches (serveNode packages) NodeTickFits node history last) :
    Synced first last.oscillator := by
  refine @Reaches.invariant _ _ _ _ _ _
    (fun state : RunningNode platform ↦ Synced first state.oscillator) hsynced
    (fun state event after output hfits hbefore hserve ↦ ?_) _ _ hreaches
  rcases serveNode_cases hserve with
    ⟨order, timestampNs, result, hashes, -, hsynthesize, -, -⟩ | ⟨cert, nowNs, -, hnext, -⟩ |
    ⟨-, -, operations, hoperations⟩
  · exact hbefore.of_synthesize hfits hsynthesize
  · rw [hnext]
    exact hbefore.of_eq rfl rfl
  · exact hbefore.of_eq (ShiftFrame.of_reaches hoperations).nodes
      (PlainFrame.of_reaches hoperations).tick

end Synced

/-- A new node that has started has an empty DAG. -/
theorem nodes_newNode (nttSize : ℕ) (localKeypair : KeyPair) (timestampNs : ℕ) :
    (newNode platform nttSize localKeypair timestampNs).oscillator.dag.nodes = ∅ := by
  obtain ⟨operations, hoperations⟩ := performs_boot (.newWithKeypair nttSize : Oscillator platform)
    localKeypair timestampNs
  exact (ShiftFrame.of_reaches hoperations).nodes

/-- A client that follows a node misses no finalized shift and gets none in two answers. On a node
that started anew, for any two states of a run, the shifts since the tick of the first one that the
node answers with in the second one are exactly those that are finalized there and were not in the
first, each once, if the limit leaves room for them; otherwise they are as many of them as the limit
says. Assumes: the tick counter does not wrap in the run. -/
theorem sync_follows {packages : RpcPackages platform} {nttSize timestampNs : ℕ}
    {localKeypair : KeyPair} {earlier later : List (RunningNode platform × NodeEvent)}
    {first last : RunningNode platform}
    (hearlier : Reaches (serveNode packages) NodeTickFits
      (newNode platform nttSize localKeypair timestampNs) earlier first)
    (hlater : Reaches (serveNode packages) NodeTickFits first later last)
    (order : IterationOrder (TxHash × DagNode)) (limit : Option ℕ) :
    ∃ news : List DagNode, news.Nodup ∧
      (∀ node, node ∈ news ↔ ∃ hash : TxHash, last.oscillator.dag.nodes[hash]? = some node ∧
        node.status = .finalized ∧ ¬ Final first.oscillator hash) ∧
      getSyncShifts last order first.oscillator.synthesisTick limit =
        news.take (min (limit.getD 1000) 10000) := by
  have hstart : Synced (newNode platform nttSize localKeypair timestampNs).oscillator
      (newNode platform nttSize localKeypair timestampNs).oscillator := by
    have hempty := @nodes_newNode platform nttSize localKeypair timestampNs
    generalize (newNode platform nttSize localKeypair timestampNs).oscillator = start at hempty ⊢
    refine ⟨le_rfl, fun hash node hnode _ ↦ ?_, ?_⟩
    · rw [hempty] at hnode
      simp at hnode
    · rintro hash ⟨node, hnode, -⟩
      rw [hempty] at hnode
      simp at hnode
  have hfirst := hstart.of_reaches hearlier
  have hself : Synced first.oscillator first.oscillator := by
    refine ⟨le_rfl, fun hash node hnode hstatus ↦ ?_, fun hash ⟨node, hnode, hstatus⟩ ↦ ?_⟩
    · obtain ⟨tick, hstamp, hlt, -⟩ := hfirst.stamped hash node hnode hstatus
      refine ⟨tick, hstamp, hlt, fun hle ↦ absurd hle (Nat.not_le.mpr hlt), fun hnot ↦ ?_⟩
      exact absurd ⟨node, hnode, hstatus⟩ hnot
    · refine ⟨node, hnode, fun haccepted ↦ ?_⟩
      rw [hstatus] at haccepted
      cases haccepted
  have hsynced := hself.of_reaches hlater
  have hcreated : (Oscillator.newWithKeypair nttSize : Oscillator platform).Sound :=
    Oscillator.sound_create nttSize _ _
  have hsound := sound_of_reaches (sound_of_reaches (sound_boot hcreated localKeypair timestampNs)
    hearlier) hlater
  refine ⟨finalizedShiftsSince last.oscillator.dag order first.oscillator.synthesisTick,
    nodup_finalizedShiftsSince hsound.dag order _, fun node ↦ ?_, rfl⟩
  rw [mem_finalizedShiftsSince]
  constructor
  · rintro ⟨hash, tick, hnode, hstatus, hstamp, hsince⟩
    obtain ⟨tick', hstamp', -, hiff⟩ := hsynced.stamped hash node hnode hstatus
    obtain rfl := Option.some.inj (hstamp.symm.trans hstamp')
    exact ⟨hash, hnode, hstatus, hiff.mp hsince⟩
  · rintro ⟨hash, hnode, hstatus, hnew⟩
    obtain ⟨tick, hstamp, -, hiff⟩ := hsynced.stamped hash node hnode hstatus
    exact ⟨hash, tick, hnode, hstatus, hstamp, hiff.mpr hnew⟩

/-- A transfer is gossiped and synthesized. -/
def beforePoll : List NodeEvent :=
  [.gossip (.registration (registrationOf 1)) 0, .gossip (.stateful (transferSignedBy 1)) 0,
    .synthesize .forward 0]

/-- Three more ticks pass. -/
def afterPoll : List NodeEvent :=
  [.synthesize .forward 0, .synthesize .forward 0, .synthesize .forward 0]

/-- The transfer is finalized after the first poll, and the second poll brings it. -/
theorem sync_follows_polls :
    ∃ (first last : RunningNode walletPlatform),
      run (serveNode (.sample walletPlatform)) NodeTickFits walletNode beforePoll = some first ∧
      run (serveNode (.sample walletPlatform)) NodeTickFits first afterPoll = some last ∧
      (getSyncShifts first .forward 0 none).length = 0 ∧
      ∃ news : List DagNode, news.Nodup ∧ getSyncShifts last .forward 1 none = news.take 1000 ∧
        (getSyncShifts last .forward 1 none).length = 1 ∧
        ∀ node ∈ news, node.status = .finalized := by
  have hruns : ((run (serveNode (.sample walletPlatform)) NodeTickFits walletNode beforePoll).bind
      fun first ↦ (run (serveNode (.sample walletPlatform)) NodeTickFits first afterPoll).map
        fun last ↦ (first.oscillator.synthesisTick, (getSyncShifts first .forward 0 none).length,
          (getSyncShifts last .forward 1 none).length)) = some (1, 0, 1) := by
    decide +kernel
  obtain ⟨first, hfirst, hrest⟩ := Option.bind_eq_some_iff.mp hruns
  obtain ⟨last, hlast, hfacts⟩ := Option.map_eq_some_iff.mp hrest
  obtain ⟨htick, hrest⟩ := Prod.mk.inj hfacts
  obtain ⟨hnone, hone⟩ := Prod.mk.inj hrest
  obtain ⟨earlier, -, hearlier⟩ := reaches_of_run hfirst
  obtain ⟨later, -, hlater⟩ := reaches_of_run hlast
  obtain ⟨news, hnodup, hnews, hanswer⟩ := sync_follows hearlier hlater .forward none
  rw [htick] at hanswer
  refine ⟨first, last, hfirst, hlast, hnone, news, hnodup, hanswer, hone, fun node hmem ↦ ?_⟩
  obtain ⟨_, -, hstatus, -⟩ := (hnews node).mp hmem
  exact hstatus

end Fluidic.Node
