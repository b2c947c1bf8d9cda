import Fluidic.Consensus.AdmissionOrder
import Fluidic.Consensus.Conservation
import Fluidic.Consensus.Replay

/-!
# Convergence

Two nodes in the same state receive the same stateful shifts in two orders and synthesize. They end
with the same DAG, up to the times at which they first saw the shifts, when in both orders the
nonces of each sender and domain rise and no shift comes before one of its predecessors
(`synthesize_converges`). Out of order, the nonce check refuses a shift that another node takes
(`refused_outOfOrder`), and so does the check for predecessors.

The balances agree as well when the DAG has a dominated arrangement: otherwise the order in which
shifts are applied depends on the order in which the node visits its hash tables.
-/

set_option autoImplicit false
set_option relaxedAutoImplicit false

namespace Fluidic.Consensus.Oscillator

open Library Crypto Fluidic.Field Value Operator Evm
open Std (ExtTreeMap LawfulEqCmp)

variable {platform : Platform}

/-! ### Receiving shifts -/

/-- A node that is given stateful shifts, each with the time at which it arrives. -/
def receive (oscillator : Oscillator platform) (arrivals : List (StatefulShift × ℕ)) :
    Oscillator platform :=
  arrivals.foldl
    (fun oscillator arrival ↦ (oscillator.ingestStateful arrival.1 arrival.2).1) oscillator

/-- The nonces of each sender and domain rise, and no shift comes before one of its
predecessors. -/
structure InOrder (prim : Primitives) (shifts : List StatefulShift) : Prop where
  rising : shifts.Pairwise NonceBefore
  causal : shifts.Pairwise fun earlier later ↦ later.hash prim ∉ earlier.predecessors

/-- The shifts have distinct hashes and distinct signatures. -/
structure Distinct (prim : Primitives) (shifts : List StatefulShift) : Prop where
  hashes : (shifts.map (StatefulShift.hash prim)).Nodup
  signatures : (shifts.map StatefulShift.signature).Nodup

theorem Distinct.perm {prim : Primitives} {first second : List StatefulShift}
    (hdistinct : Distinct prim first) (hperm : first.Perm second) : Distinct prim second where
  hashes := (hperm.map _).nodup_iff.mp hdistinct.hashes
  signatures := (hperm.map _).nodup_iff.mp hdistinct.signatures

/-- Whether a node queues a shift is not changed by an earlier one. Assumes: the nonce of the
earlier one is smaller if they have the same sender and domain, and its signature is another one. -/
theorem queues_ingestStateful (oscillator : Oscillator platform) {earlier later : StatefulShift}
    (hnonce : NonceBefore earlier later) (hsignature : earlier.signature ≠ later.signature)
    (nowNs : ℕ) :
    (oscillator.ingestStateful earlier nowNs).1.queues later = oscillator.queues later := by
  have hfresh : (oscillator.ingestStateful earlier nowNs).1.isFresh later.sender later.domain
      later.nonce = oscillator.isFresh later.sender later.domain later.nonce := by
    rw [isFresh_ingestStateful]
    split_ifs with hsame
    · obtain ⟨hrecords, hsender, hdomain⟩ := hsame
      have hbefore := hnonce hsender hdomain
      have hearlier := isFresh_of_records hrecords
      rw [hsender, hdomain] at hearlier
      rw [isFresh_mono hearlier (le_of_lt hbefore)]
      exact decide_eq_true hbefore
    · rfl
  have hregistry : (oscillator.ingestStateful earlier nowNs).1.domainRegistry =
      oscillator.domainRegistry := by
    rw [ingestStateful_eq]
  have hseen : later.signature ∈ (oscillator.ingestStateful earlier nowNs).1.seenSignatures ↔
      later.signature ∈ oscillator.seenSignatures := by
    rw [ingestStateful_eq]
    dsimp only
    split_ifs
    · rw [Finset.mem_insert, or_iff_right (Ne.symm hsignature)]
    · rfl
  unfold queues records
  rw [hfresh, hregistry, decide_eq_decide.mpr (not_congr hseen)]

/-- What receiving shifts does to a node: those that it would queue at once are queued. Assumes:
nonces rise, and the signatures are distinct. -/
theorem receive_eq (oscillator : Oscillator platform) {arrivals : List (StatefulShift × ℕ)}
    (hrising : (arrivals.map Prod.fst).Pairwise NonceBefore)
    (hsignatures : ((arrivals.map Prod.fst).map StatefulShift.signature).Nodup) :
    ∃ seenNonces seenSignatures, oscillator.receive arrivals = { oscillator with
      pendingStateful := oscillator.pendingStateful ++
        (arrivals.filter fun arrival ↦ oscillator.queues arrival.1).map
          fun arrival ↦ stamped arrival.1 arrival.2
      seenNonces, seenSignatures } := by
  induction arrivals generalizing oscillator with
  | nil => exact ⟨_, _, by rw [List.filter_nil, List.map_nil, List.append_nil]; rfl⟩
  | cons arrival rest ih =>
    rw [List.map_cons, List.pairwise_cons] at hrising
    rw [List.map_cons, List.map_cons, List.nodup_cons] at hsignatures
    obtain ⟨hnonces, hrising⟩ := hrising
    obtain ⟨hsignature, hsignatures⟩ := hsignatures
    have hqueues : rest.filter (fun later ↦
        (oscillator.ingestStateful arrival.1 arrival.2).1.queues later.1) =
          rest.filter fun later ↦ oscillator.queues later.1 := by
      refine List.filter_congr fun later hlater ↦ ?_
      have hmem : later.1 ∈ rest.map Prod.fst := List.mem_map_of_mem hlater
      refine queues_ingestStateful oscillator (hnonces later.1 hmem) (fun heq ↦ ?_) arrival.2
      exact hsignature (heq ▸ List.mem_map_of_mem hmem)
    obtain ⟨seenNonces, seenSignatures, hrest⟩ :=
      ih (oscillator.ingestStateful arrival.1 arrival.2).1 hrising hsignatures
    refine ⟨seenNonces, seenSignatures, ?_⟩
    show (oscillator.ingestStateful arrival.1 arrival.2).1.receive rest = _
    rw [hrest, hqueues, ingestStateful_eq]
    cases hqueued : oscillator.queues arrival.1 with
    | true => simp [hqueued]
    | false => simp [hqueued]

/-- Shifts in order and distinct are admitted without waiting for each other. Assumes: the shifts
are in order and distinct. -/
theorem InOrder.not_needs {prim : Primitives} {shifts : List StatefulShift}
    (hinOrder : InOrder prim shifts) (hdistinct : Distinct prim shifts) :
    shifts.Pairwise fun earlier later ↦ ¬Needs prim earlier later := by
  have hhashes : shifts.Pairwise fun earlier later ↦ earlier.hash prim ≠ later.hash prim :=
    List.pairwise_map.mp hdistinct.hashes
  refine (hinOrder.causal.and hhashes).imp fun hboth ↦ ?_
  rintro (hpredecessor | hhash)
  · exact hboth.1 hpredecessor
  · exact hboth.2 hhash.symm

/-- The stamp of a shift is a local time. -/
theorem timelessShift_stamped (shift : StatefulShift) (nowNs : ℕ) :
    timelessShift (stamped shift nowNs) = timelessShift shift := by
  unfold stamped
  split_ifs <;> rfl

/-- The shifts that a node queues are admitted without waiting for each other. Assumes: no
arrival waits for an earlier one. -/
theorem queued_not_needs {prim : Primitives} (oscillator : Oscillator platform)
    {arrivals : List (StatefulShift × ℕ)}
    (hneeds : (arrivals.map Prod.fst).Pairwise fun earlier later ↦ ¬Needs prim earlier later) :
    ((arrivals.filter fun arrival ↦ oscillator.queues arrival.1).map
      fun arrival ↦ stamped arrival.1 arrival.2).Pairwise
        fun earlier later ↦ ¬Needs prim earlier later := by
  refine List.pairwise_map.mpr (((List.pairwise_map.mp hneeds).filter _).imp fun hnot ↦ ?_)
  rename_i earlier later
  have hpredecessors : (stamped earlier.1 earlier.2).predecessors = earlier.1.predecessors :=
    congr_timelessShift StatefulShift.predecessors (fun _ ↦ rfl)
      (timelessShift_stamped earlier.1 earlier.2)
  unfold Needs at hnot ⊢
  rw [hash_stamped, hash_stamped, hpredecessors]
  exact hnot

/-- Up to local times, the shifts that a node queues are those it would queue at once. -/
theorem queued_timeless (oscillator : Oscillator platform)
    (arrivals : List (StatefulShift × ℕ)) :
    ((arrivals.filter fun arrival ↦ oscillator.queues arrival.1).map
      fun arrival ↦ stamped arrival.1 arrival.2).map timelessShift =
        ((arrivals.map Prod.fst).filter oscillator.queues).map timelessShift := by
  rw [List.map_map, List.filter_map, List.map_map]
  exact List.map_congr_left fun arrival _ ↦ timelessShift_stamped arrival.1 arrival.2

/-- The DAGs of a node that received shifts in two orders are alike after admission. Assumes: both
orders have the same shifts, both are in order, and the shifts are distinct. -/
theorem alike_received (oscillator : Oscillator platform) (keys : KeyRegistry)
    {first second : List (StatefulShift × ℕ)}
    (hperm : (first.map Prod.fst).Perm (second.map Prod.fst))
    (hfirst : InOrder platform.primitives (first.map Prod.fst))
    (hsecond : InOrder platform.primitives (second.map Prod.fst))
    (hdistinct : Distinct platform.primitives (first.map Prod.fst)) :
    Alike ((oscillator.receive first).checkedDag keys)
      ((oscillator.receive second).checkedDag keys) := by
  have hdistinct' := hdistinct.perm hperm
  obtain ⟨nonces, signatures, hreceived⟩ :=
    oscillator.receive_eq hfirst.rising hdistinct.signatures
  obtain ⟨nonces', signatures', hreceived'⟩ :=
    oscillator.receive_eq hsecond.rising hdistinct'.signatures
  have hqueued := oscillator.queued_not_needs (hfirst.not_needs hdistinct)
  have hqueued' := oscillator.queued_not_needs (hsecond.not_needs hdistinct')
  set queue := (first.filter fun arrival ↦ oscillator.queues arrival.1).map
    fun arrival ↦ stamped arrival.1 arrival.2 with hqueue
  set queue' := (second.filter fun arrival ↦ oscillator.queues arrival.1).map
    fun arrival ↦ stamped arrival.1 arrival.2 with hqueue'
  have hsame : (queue.map timelessShift).Perm (queue'.map timelessShift) := by
    rw [hqueue, hqueue', queued_timeless, queued_timeless]
    exact (hperm.filter _).map _
  have hadmitted := alike_admitted platform.primitives oscillator.domainRegistry keys
    oscillator.synthesisTick hsame hqueued hqueued'
    (oscillator.pendingStateful.foldl (admitShift platform.primitives oscillator.domainRegistry keys
      oscillator.synthesisTick) (oscillator.syncedDag, []))
  rw [← List.foldl_append, ← List.foldl_append] at hadmitted
  rw [hreceived, hreceived']
  exact hadmitted

/-! ### The loop -/

/-- An attempt without local times. -/
def timelessAttempt : Attempt → Attempt
  | .transfer shift fee net => .transfer (timelessShift shift) fee net
  | attempt => attempt

/-- Entering an attempt into the accumulators reads no local time. -/
theorem enter_timelessAttempt (ledger : Ledger) (hash : TxHash) (attempt : Attempt) :
    enter ledger hash (timelessAttempt attempt) = enter ledger hash attempt := by
  cases attempt <;> rfl

/-- An attempt reads no local time. -/
theorem attempt_timeless (oscillator : Oscillator platform) (keys : KeyRegistry)
    (order : SynthesisOrder) (balances : ExtTreeMap AccountId ℕ) (node : DagNode) :
    oscillator.attempt keys order balances node.timeless =
      timelessAttempt (oscillator.attempt keys order balances node) := by
  have hfee : computeSignalFee oscillator.domainRegistry node.timeless.shift =
      computeSignalFee oscillator.domainRegistry node.shift := rfl
  have hverify (publicKey : VerifyingKey) :
      node.timeless.shift.verifySignature platform.primitives publicKey =
        node.shift.verifySignature platform.primitives publicKey := rfl
  have hsender : node.timeless.shift.sender = node.shift.sender := rfl
  have hdomain : node.timeless.shift.domain = node.shift.domain := rfl
  have hamount : node.timeless.shift.amount = node.shift.amount := rfl
  have hstatus : node.timeless.status = node.status := rfl
  have happlied : node.timeless.applied = node.applied := rfl
  have htick : node.timeless.insertedAtTick = node.insertedAtTick := rfl
  unfold attempt
  simp only [hfee, hverify, hsender, hdomain, hamount, hstatus, happlied, htick]
  cases keys[node.shift.sender]? with
  | none =>
    dsimp only
    split_ifs <;> rfl
  | some publicKey =>
    cases oscillator.domainRegistry.get? node.shift.domain with
    | none =>
      dsimp only
      split_ifs <;> rfl
    | some policy =>
      cases computeSignalFee oscillator.domainRegistry node.shift with
      | error text =>
        dsimp only
        split_ifs <;> rfl
      | ok fees =>
        dsimp only
        split_ifs <;> rfl

/-- Whether a tick has a quorum does not depend on the order of the views. -/
theorem checkQuorum_eq_none_iff (tracker : CertificateTracker)
    (order order' : IterationOrder (QuorumView × ℕ)) (tick threshold : ℕ) :
    tracker.checkQuorum order tick threshold = none ↔
      tracker.checkQuorum order' tick threshold = none := by
  unfold CertificateTracker.checkQuorum
  cases tracker.byTick[tick]? with
  | none => rfl
  | some groups =>
    dsimp only
    rw [List.find?_eq_none, List.find?_eq_none]
    simp only [IterationOrder.mem_visit]

/-- The sections after the loop return when the EVM transactions do. Assumes: the EVM transactions
return. -/
theorem finish_eq_some {oscillator : Oscillator platform} {keys : KeyRegistry}
    {order : SynthesisOrder} {tick timestampNs applied : ℕ} {root : Bytes32} {decayed : ℕ}
    {rejected : List DagError} {ledger : Ledger} {evmPool : EvmPool platform.revm}
    {balances : ExtTreeMap AccountId ℕ} {evmHashes : List H256}
    (hevm : oscillator.evmPool.synthesize platform.primitives order.addresses ledger.balances tick =
      some (evmPool, balances, evmHashes)) :
    ∃ final result, oscillator.finish keys order tick timestampNs applied root decayed rejected
      ledger = some (final, result, ledger.hashes) ∧ result.finalBalances = balances := by
  unfold finish
  rw [hevm]
  exact ⟨_, _, rfl, rfl⟩

/-! ### Two nodes after admission -/

/-- Two nodes that differ in the queue and the replay records only, and whose DAGs are alike after
admission. -/
structure Peers (keys : KeyRegistry) (first second : Oscillator platform) : Prop where
  frame : ∃ pendingStateful seenNonces seenSignatures,
    second = { first with pendingStateful, seenNonces, seenSignatures }
  checkedDag : Alike (first.checkedDag keys) (second.checkedDag keys)

namespace Peers

variable {keys : KeyRegistry} {first second : Oscillator platform}
  (hpeers : Peers keys first second) (order order' : SynthesisOrder)

include hpeers in
/-- The prepared DAGs are alike. -/
theorem preparedDag :
    Alike (first.preparedDag keys order) (second.preparedDag keys order') := by
  obtain ⟨⟨pendingStateful, nonces, signatures, rfl⟩, halike⟩ := hpeers
  have hbalances (oscillator : Oscillator platform) :
      (oscillator.checkedDag keys).balances = oscillator.syncedDag.balances :=
    admitted_balances platform.primitives oscillator.domainRegistry keys oscillator.synthesisTick
      oscillator.pendingStateful (oscillator.syncedDag, [])
  have hsame := (hbalances first).trans (hbalances { first with
    pendingStateful, seenNonces := nonces, seenSignatures := signatures }).symm
  exact alike_preparedDag halike hsame rfl order order'

include hpeers in
/-- The loops start from the same accumulators. -/
theorem openLedger :
    (second.prepared keys order').openLedger = (first.prepared keys order).openLedger := by
  unfold Oscillator.openLedger
  rw [prepared_dag, prepared_dag, preparedDag_balances, preparedDag_balances]
  obtain ⟨⟨pendingStateful, nonces, signatures, rfl⟩, -⟩ := hpeers
  rfl

include hpeers in
/-- What a round of the loop reads of the nodes is the same. -/
theorem attempt (balances : ExtTreeMap AccountId ℕ) (node : DagNode) :
    (second.prepared keys order').attempt keys order' balances node =
      (first.prepared keys order).attempt keys order balances node := by
  obtain ⟨waveField, pendingCommutative, metabolicEngine, supplyTracker, rewardPool, -,
    hprepared⟩ :=
    first.prepared_eq keys order
  obtain ⟨waveField', pendingCommutative', metabolicEngine', supplyTracker', rewardPool', -,
    hprepared'⟩ := second.prepared_eq keys order'
  obtain ⟨⟨pendingStateful, nonces, signatures, rfl⟩, -⟩ := hpeers
  have hquorum := checkQuorum_eq_none_iff first.certificateTracker
    (order'.views node.insertedAtTick)
    (order.views node.insertedAtTick) node.insertedAtTick first.stakeTable.quorumThreshold
  rw [hprepared, hprepared']
  unfold Oscillator.attempt checkQuorum
  simp only [hquorum]

include hpeers in
/-- A round of the loop does the same in both nodes. -/
theorem applyShift :
    (second.prepared keys order').applyShift keys order' =
      (first.prepared keys order).applyShift keys order := by
  have halike := hpeers.preparedDag order order'
  funext ledger hash
  unfold Oscillator.applyShift
  rw [prepared_dag, prepared_dag]
  cases hnode : (first.preparedDag keys order).nodes[hash]? with
  | none =>
    have hnone := halike hash
    unfold VectorClockDag.timelessAt at hnone
    rw [hnode, Option.map_none, eq_comm, Option.map_eq_none_iff] at hnone
    rw [hnone]
    rfl
  | some node =>
    obtain ⟨node', hnode', heq⟩ := halike.node hnode
    rw [hnode']
    simp only [bind, Option.bind_some]
    rw [← enter_timelessAttempt, ← attempt_timeless, heq, hpeers.attempt order order',
      attempt_timeless, enter_timelessAttempt]

include hpeers in
/-- After a synthesis of each node the DAGs are alike up to the applied flags. Assumes: the
synthesis of each node returns. -/
theorem unapplied {timestampNs timestampNs' : ℕ} {final final' : Oscillator platform}
    {result result' : SynthesisResult} {hashes hashes' : List TxHash}
    (hsynthesize : first.synthesize keys order timestampNs = some (final, result, hashes))
    (hsynthesize' : second.synthesize keys order' timestampNs' = some (final', result', hashes'))
    (hash : TxHash) :
    (final'.dag.timelessAt hash).map DagNode.unapplied =
      (final.dag.timelessAt hash).map DagNode.unapplied := by
  have hcleared (nodes : ExtTreeMap TxHash DagNode) (hashes : List TxHash) :
      ((markApplied nodes hashes)[hash]?.map DagNode.timeless).map DagNode.unapplied =
        (nodes[hash]?.map DagNode.timeless).map DagNode.unapplied := by
    rw [getElem?_markApplied, Option.map_map, Option.map_map, Option.map_map]
    rfl
  have halike := hpeers.preparedDag order order' hash
  unfold VectorClockDag.timelessAt at halike ⊢
  rw [(synthesize_effect hsynthesize).nodes, (synthesize_effect hsynthesize').nodes, hcleared,
    hcleared, halike]

include hpeers in
/-- When one node synthesizes, so does the other; both apply the same shifts, and the DAGs and the
balances agree. Assumes: an arrangement of the DAG is dominated, the parties of pending EVM
transactions have distinct accounts, and both nodes have sound states. -/
theorem synthesize (hsound : Sound first) (hsound' : Sound second) {arrangement : List TxHash}
    (hdominated : (first.checkedDag keys).Dominated arrangement)
    (hparties : ∀ one ∈ EvmPool.parties first.evmPool.pending,
      ∀ other ∈ EvmPool.parties first.evmPool.pending,
        evmAddressToFluidic platform.primitives one =
          evmAddressToFluidic platform.primitives other → one = other)
    {timestampNs : ℕ} (timestampNs' : ℕ) {final : Oscillator platform} {result : SynthesisResult}
    {hashes : List TxHash}
    (hsynthesize : first.synthesize keys order timestampNs = some (final, result, hashes)) :
    ∃ final' result', second.synthesize keys order' timestampNs' = some (final', result', hashes) ∧
      result'.finalBalances = result.finalBalances ∧ Alike final.dag final'.dag := by
  have halike := hpeers.preparedDag order order'
  have hshifts : VectorClockDag.SameShifts (first.checkedDag keys)
      (first.preparedDag keys order) := fun hash ↦ by
    have hshape := (first.sameShape_preparedDag keys order).nodes hash
    have hshift := congrArg (Option.map fun shape : TxHash × StatefulShift × _ ↦ shape.2.1) hshape
    rw [Option.map_map, Option.map_map] at hshift
    exact hshift.symm
  have hprepared := hshifts.dominated hdominated
  have hplaced := (hsound.preparedDag_wellFormed keys order).topologicalOrder_of_dominated
    order.toDagOrder hprepared
  have hplaced' := (hsound'.preparedDag_wellFormed keys order').topologicalOrder_of_dominated
    order'.toDagOrder (halike.dominated hprepared)
  have heffect := synthesize_effect hsynthesize
  rw [synthesize_eq, hplaced, Option.bind_some] at hsynthesize
  obtain ⟨ledger, hloop, hfinish⟩ := Option.bind_eq_some_iff.mp hsynthesize
  obtain ⟨evmPool, balances, evmHashes, -, -, hevm, rfl, hbalances, -, -⟩ := finish_cases hfinish
  have hevm' : (second.prepared keys order').evmPool.synthesize platform.primitives order'.addresses
      ledger.balances second.synthesisTick = some (evmPool, balances, evmHashes) := by
    obtain ⟨_, _, _, _, _, -, hfirst⟩ := first.prepared_eq keys order
    obtain ⟨_, _, _, _, _, -, hsecond⟩ := second.prepared_eq keys order'
    obtain ⟨⟨pendingStateful, nonces, signatures, rfl⟩, -⟩ := hpeers
    rw [hfirst] at hevm
    rw [hsecond, ← hevm]
    exact EvmPool.synthesize_order platform.primitives hparties _ _ _ _
  have hloop' : arrangement.foldlM ((second.prepared keys order').applyShift keys order')
      (second.prepared keys order').openLedger = some ledger := by
    rw [hpeers.applyShift order order', hpeers.openLedger order order']
    exact hloop
  obtain ⟨final', result', hfinish', hbalances'⟩ := finish_eq_some hevm'
  have hsynthesize' : second.synthesize keys order' timestampNs' =
      some (final', result', ledger.hashes) := by
    rw [synthesize_eq, hplaced', Option.bind_some]
    exact Option.bind_eq_some_iff.mpr ⟨ledger, hloop', hfinish'⟩
  refine ⟨final', result', hsynthesize', hbalances'.trans hbalances.symm, fun hash ↦ ?_⟩
  have hmarked (nodes : ExtTreeMap TxHash DagNode) :
      (markApplied nodes ledger.hashes)[hash]?.map DagNode.timeless =
        (nodes[hash]?.map DagNode.timeless).map fun node ↦
          { node with applied := node.applied || decide (hash ∈ ledger.hashes) } := by
    rw [getElem?_markApplied, Option.map_map, Option.map_map]
    rfl
  have hsame := halike hash
  unfold VectorClockDag.timelessAt at hsame ⊢
  rw [heffect.nodes, (synthesize_effect hsynthesize').nodes, hmarked, hmarked, hsame]

end Peers

/-! ### Two orders -/

/-- A sound node stays sound when it receives shifts. Assumes: the node is sound. -/
theorem Sound.receive {oscillator : Oscillator platform} (hsound : Sound oscillator)
    (arrivals : List (StatefulShift × ℕ)) : Sound (oscillator.receive arrivals) := by
  induction arrivals generalizing oscillator with
  | nil => exact hsound
  | cons arrival rest ih =>
    have hstep : Consensus.step platform oscillator
        (.ingest (.stateful arrival.1) arrival.2) =
      some ((oscillator.ingestStateful arrival.1 arrival.2).1,
        .outcome (oscillator.ingestStateful arrival.1 arrival.2).2) := rfl
    exact ih (hsound.step hstep)

/-- A node that received shifts in two orders is two peers. Assumes: both orders have the same
shifts, both are in order, and the shifts are distinct. -/
theorem peers_receive (oscillator : Oscillator platform) (keys : KeyRegistry)
    {first second : List (StatefulShift × ℕ)}
    (hperm : (first.map Prod.fst).Perm (second.map Prod.fst))
    (hfirst : InOrder platform.primitives (first.map Prod.fst))
    (hsecond : InOrder platform.primitives (second.map Prod.fst))
    (hdistinct : Distinct platform.primitives (first.map Prod.fst)) :
    Peers keys (oscillator.receive first) (oscillator.receive second) := by
  refine ⟨?_, oscillator.alike_received keys hperm hfirst hsecond hdistinct⟩
  obtain ⟨nonces, signatures, hreceived⟩ :=
    oscillator.receive_eq hfirst.rising hdistinct.signatures
  obtain ⟨nonces', signatures', hreceived'⟩ :=
    oscillator.receive_eq hsecond.rising (hdistinct.perm hperm).signatures
  rw [hreceived, hreceived']
  exact ⟨_, _, _, rfl⟩

/-- Two nodes in one reachable state receive the same stateful shifts in two orders and synthesize.
Their DAGs agree up to local times and applied flags; and when an arrangement of the DAG is
dominated, they apply the same shifts, the flags agree, and so do the final balances. Assumes: in
both orders nonces rise and no shift comes before its predecessors, the shifts are distinct, the
synthesis of the first node returns, and for the balances that the parties of pending EVM
transactions have distinct accounts. -/
theorem synthesize_converges {nttSize : ℕ} {operatorKeypair : Option KeyPair}
    {stakeTable : StakeTable} {allowed : Oscillator platform → Request → Prop}
    {history : List (Oscillator platform × Request)} {oscillator : Oscillator platform}
    (hreaches : Reaches (Consensus.step platform) allowed
      (create nttSize operatorKeypair stakeTable) history oscillator)
    {keys : KeyRegistry} {first second : List (StatefulShift × ℕ)}
    (hperm : (first.map Prod.fst).Perm (second.map Prod.fst))
    (hfirst : InOrder platform.primitives (first.map Prod.fst))
    (hsecond : InOrder platform.primitives (second.map Prod.fst))
    (hdistinct : Distinct platform.primitives (first.map Prod.fst))
    {order order' : SynthesisOrder} {timestampNs timestampNs' : ℕ} {final : Oscillator platform}
    {result : SynthesisResult} {hashes : List TxHash}
    (hsynthesize : (oscillator.receive first).synthesize keys order timestampNs =
      some (final, result, hashes)) :
    (∀ final' result' hashes',
      (oscillator.receive second).synthesize keys order' timestampNs' =
        some (final', result', hashes') →
      ∀ hash, (final'.dag.timelessAt hash).map DagNode.unapplied =
        (final.dag.timelessAt hash).map DagNode.unapplied) ∧
    ((∃ arrangement, ((oscillator.receive first).checkedDag keys).Dominated arrangement) →
      (∀ one ∈ EvmPool.parties oscillator.evmPool.pending,
        ∀ other ∈ EvmPool.parties oscillator.evmPool.pending,
          evmAddressToFluidic platform.primitives one =
            evmAddressToFluidic platform.primitives other → one = other) →
      ∃ final' result', (oscillator.receive second).synthesize keys order' timestampNs' =
          some (final', result', hashes) ∧
        result'.finalBalances = result.finalBalances ∧ Alike final.dag final'.dag) := by
  have hsound := sound_of_reaches hreaches
  have hpeers := oscillator.peers_receive keys hperm hfirst hsecond hdistinct
  have hpool : (oscillator.receive first).evmPool = oscillator.evmPool := by
    obtain ⟨nonces, signatures, hreceived⟩ :=
      oscillator.receive_eq hfirst.rising hdistinct.signatures
    rw [hreceived]
  refine ⟨fun final' result' hashes' hsynthesize' ↦
    hpeers.unapplied order order' hsynthesize hsynthesize', ?_⟩
  rintro ⟨arrangement, hdominated⟩ hparties
  rw [← hpool] at hparties
  exact hpeers.synthesize order order' (hsound.receive first) (hsound.receive second) hdominated
    hparties timestampNs' hsynthesize

/-! ### Sample orders -/

/-- A transfer of the account of the first seed. -/
def earlyTransfer : StatefulShift := .sample 1 10 [(1, 1)] [] 1 0

/-- The next transfer of that account. -/
def lateTransfer : StatefulShift := .sample 1 10 [(1, 2)] [] 2 0

/-- A transfer of the account of the second seed. -/
def otherTransfer : StatefulShift := .sample 2 10 [(2, 1)] [] 1 0

/-- A transfer of the second account that names the first transfer as its predecessor. -/
def followingTransfer : StatefulShift :=
  .sample 2 10 [(1, 1), (2, 1)] [earlyTransfer.hash .sample] 1 0

/-- Two transfers of different senders, received in either order at other times and with the hash
tables visited in other orders. -/
theorem synthesize_converges_twoSenders :
    ∃ final result hashes final' result',
      (fundedVictim.receive [(earlyTransfer, 5), (otherTransfer, 6)]).synthesize sampleKeys .forward
        0 = some (final, result, hashes) ∧
      result.finalBalances.getD ⟨9⟩ 0 = 10 ∧
      (fundedVictim.receive [(otherTransfer, 7), (earlyTransfer, 8)]).synthesize sampleKeys
        { SynthesisOrder.forward with roots := .backward } 9 = some (final', result', hashes) ∧
      result'.finalBalances = result.finalBalances ∧ Alike final.dag final'.dag := by
  set first := [(earlyTransfer, 5), (otherTransfer, 6)] with hfirst
  have hsynthesize : ((fundedVictim.receive first).synthesize sampleKeys .forward 0).map
      (fun outcome ↦ outcome.2.1.finalBalances.getD ⟨9⟩ 0) = some 10 := by
    decide +kernel
  obtain ⟨⟨final, result, hashes⟩, hreturns, hreceived⟩ := Option.map_eq_some_iff.mp hsynthesize
  have hreaches : Reaches (Consensus.step Platform.sample) anyStep
      (create 8 none (StakeTable.new StakingConfig.default))
      [(newWithKeypair 8, .seedAccount (sampleAccount 1) 100)] fundedVictim :=
    Reaches.start.next trivial rfl
  have hnodes : ((fundedVictim.receive first).checkedDag sampleKeys).hashes =
      [earlyTransfer.hash .sample, otherTransfer.hash .sample] := by
    decide +kernel
  have hpredecessors : ((fundedVictim.receive first).checkedDag sampleKeys).nodes.toList.all
      (fun entry ↦ entry.2.shift.predecessors.isEmpty) = true := by
    decide +kernel
  have hprecedes : ((fundedVictim.receive first).checkedDag sampleKeys).precedes
      (earlyTransfer.hash .sample) (otherTransfer.hash .sample) = true := by
    decide +kernel
  have hdominated : ((fundedVictim.receive first).checkedDag sampleKeys).Dominated
      [earlyTransfer.hash .sample, otherTransfer.hash .sample] := by
    refine VectorClockDag.dominated_of_sorted (fun predecessor hash ⟨node, hnode, hmem⟩ ↦ ?_)
      (hnodes ▸ List.Perm.refl _) (List.pairwise_pair.mpr hprecedes)
    have hempty := List.all_eq_true.mp hpredecessors (hash, node)
      (ExtTreeMap.mem_toList_iff_getElem?_eq_some.mpr hnode)
    rw [List.isEmpty_iff.mp hempty] at hmem
    exact List.not_mem_nil hmem
  have hperm : (first.map Prod.fst).Perm
      ([(otherTransfer, 7), (earlyTransfer, 8)].map Prod.fst) :=
    List.Perm.swap otherTransfer earlyTransfer []
  have hrising : (first.map Prod.fst).Pairwise NonceBefore := by
    unfold NonceBefore
    decide +kernel
  have hrising' : ([(otherTransfer, 7), (earlyTransfer, 8)].map Prod.fst).Pairwise
      NonceBefore := by
    unfold NonceBefore
    decide +kernel
  obtain ⟨final', result', hreturns', hbalances, halike⟩ :=
    (synthesize_converges hreaches hperm ⟨hrising, by decide +kernel⟩
      ⟨hrising', by decide +kernel⟩ ⟨by decide +kernel, by decide +kernel⟩ hreturns).2
      ⟨_, hdominated⟩ fun one hone ↦ absurd hone List.not_mem_nil
  exact ⟨final, result, hashes, final', result', hreturns, hreceived, hreturns', hbalances, halike⟩

/-- A node that receives the later of two transfers first refuses the earlier one, and a node that
receives a transfer before its predecessor refuses it. All of them are signed with the keys of their
senders and belong to one domain. -/
theorem refused_outOfOrder :
    (∀ shift ∈ [earlyTransfer, lateTransfer, followingTransfer],
      isForged .sample sampleKeys shift = false ∧ shift.domain = earlyTransfer.domain) ∧
    (∃ final result hashes final' result' hashes',
      (fundedVictim.receive [(earlyTransfer, 5), (lateTransfer, 6)]).synthesize sampleKeys .forward
        0 = some (final, result, hashes) ∧
      (fundedVictim.receive [(lateTransfer, 5), (earlyTransfer, 6)]).synthesize sampleKeys .forward
        0 = some (final', result', hashes') ∧
      final.dag.nodes.contains (earlyTransfer.hash .sample) = true ∧
      final'.dag.nodes.contains (earlyTransfer.hash .sample) = false ∧
      result.finalBalances.getD ⟨9⟩ 0 = 20 ∧ result'.finalBalances.getD ⟨9⟩ 0 = 10) ∧
    ∃ final result hashes final' result' hashes',
      (fundedVictim.receive [(earlyTransfer, 5), (followingTransfer, 6)]).synthesize sampleKeys
        .forward 0 = some (final, result, hashes) ∧
      (fundedVictim.receive [(followingTransfer, 5), (earlyTransfer, 6)]).synthesize sampleKeys
        .forward 0 = some (final', result', hashes') ∧
      final.dag.nodes.contains (followingTransfer.hash .sample) = true ∧
      final'.dag.nodes.contains (followingTransfer.hash .sample) = false := by
  have hearly : ((fundedVictim.receive [(earlyTransfer, 5), (lateTransfer, 6)]).synthesize
      sampleKeys .forward 0).map (fun outcome ↦
        (outcome.1.dag.nodes.contains (earlyTransfer.hash .sample),
          outcome.2.1.finalBalances.getD ⟨9⟩ 0)) = some (true, 20) := by
    decide +kernel
  have hlate : ((fundedVictim.receive [(lateTransfer, 5), (earlyTransfer, 6)]).synthesize
      sampleKeys .forward 0).map (fun outcome ↦
        (outcome.1.dag.nodes.contains (earlyTransfer.hash .sample),
          outcome.2.1.finalBalances.getD ⟨9⟩ 0)) = some (false, 10) := by
    decide +kernel
  have hafter : ((fundedVictim.receive [(earlyTransfer, 5), (followingTransfer, 6)]).synthesize
      sampleKeys .forward 0).map (fun outcome ↦
        outcome.1.dag.nodes.contains (followingTransfer.hash .sample)) = some true := by
    decide +kernel
  have hbefore : ((fundedVictim.receive [(followingTransfer, 5), (earlyTransfer, 6)]).synthesize
      sampleKeys .forward 0).map (fun outcome ↦
        outcome.1.dag.nodes.contains (followingTransfer.hash .sample)) = some false := by
    decide +kernel
  obtain ⟨⟨final, result, hashes⟩, hreturns, hstate⟩ := Option.map_eq_some_iff.mp hearly
  obtain ⟨⟨final', result', hashes'⟩, hreturns', hstate'⟩ := Option.map_eq_some_iff.mp hlate
  obtain ⟨⟨after, resultAfter, hashesAfter⟩, hafter, hplaced⟩ := Option.map_eq_some_iff.mp hafter
  obtain ⟨⟨before, resultBefore, hashesBefore⟩, hbefore, hmissing⟩ :=
    Option.map_eq_some_iff.mp hbefore
  obtain ⟨hkept, hbalance⟩ := Prod.mk.inj hstate
  obtain ⟨hrefused, hbalance'⟩ := Prod.mk.inj hstate'
  exact ⟨by decide +kernel,
    ⟨final, result, hashes, final', result', hashes', hreturns, hreturns', hkept, hrefused,
      hbalance, hbalance'⟩,
    ⟨after, resultAfter, hashesAfter, before, resultBefore, hashesBefore, hafter, hbefore, hplaced,
      hmissing⟩⟩

end Fluidic.Consensus.Oscillator
