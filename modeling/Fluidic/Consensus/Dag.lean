import Fluidic.Library.TopologicalSort
import Fluidic.Crypto.PhaseShift
import Mathlib.Data.List.Sort

/-!
# The vector-clock DAG

`src/consensus/dag.rs`: the causal DAG of stateful shifts, its insertion, the promotion to
finality, the double-spend check and the topological order. The sets and maps of the DAG are hash
tables; `DagOrder` holds the orders in which a run visits those whose order can be seen in a result.

The topological order is the worklist of `Fluidic.Library.TopologicalSort` with `pickMinimalReady`
as its pick. It is `none` where the source panics. Each node is ready at most once, so the number of
nodes is enough fuel for the loop. The amounts of the double-spend check are added in `u128`
arithmetic, which wraps. The latency that the promotion reports is a floating-point metric and is
left out.
-/

set_option autoImplicit false
set_option relaxedAutoImplicit false

namespace Fluidic.Consensus

open Library Crypto
open Std (ExtTreeMap ExtTreeSet)

/-- Why the DAG refuses a shift. -/
inductive DagError
  | missingPredecessor (hash : TxHash)
  | invalidSignature (hash : TxHash)
  | insufficientBalance (hash : TxHash)
  | doubleSpend (hash : TxHash)
  | causalCycle (hash : TxHash)
  deriving DecidableEq, Repr

/-- Lifecycle status of a stateful shift in the DAG. -/
inductive ShiftStatus
  | accepted
  | rejected (error : DagError)
  | finalized
  deriving DecidableEq, Repr

/-- Whether a status is a rejection. -/
def ShiftStatus.isRejected : ShiftStatus → Bool
  | .rejected _ => true
  | _ => false

/-- A node of the causal DAG. -/
structure DagNode where
  hash : TxHash
  shift : StatefulShift
  children : ExtTreeSet TxHash
  insertedAtTick : ℕ
  status : ShiftStatus
  finalizationDepth : ℕ
  firstSeenAtNs : ℕ
  finalizedAtTick : Option ℕ
  applied : Bool
  deriving DecidableEq

/-- Add a child to a node. -/
def DagNode.addChild (node : DagNode) (child : TxHash) : DagNode :=
  { node with children := node.children.insert child }

/-- The vector-clock DAG with the balances its shifts draw on. -/
structure VectorClockDag where
  nodes : ExtTreeMap TxHash DagNode
  roots : ExtTreeSet TxHash
  tips : ExtTreeMap AccountId TxHash
  balances : ExtTreeMap AccountId ℕ
  rejected : ExtTreeMap TxHash DagError
  maxClock : VectorClock
  accountTips : ExtTreeMap AccountId VectorClock
  deriving DecidableEq

/-- The orders in which a run visits the hash tables of the DAG. -/
structure DagOrder where
  roots : IterationOrder TxHash
  children : TxHash → IterationOrder TxHash
  senders : IterationOrder (AccountId × List (TxHash × DagNode))

namespace VectorClockDag

/-- The empty DAG. -/
def new : VectorClockDag := ⟨∅, ∅, ∅, ∅, ∅, VectorClock.new, ∅⟩

/-- Add an amount to the balance of an account. -/
def seedBalance (dag : VectorClockDag) (account : AccountId) (amount : ℕ) : VectorClockDag :=
  { dag with
    balances := dag.balances.insert account
      (wrappingAdd 128 (dag.balances.getD account 0) amount) }

/-- The finalization depth of a shift whose domain is unknown. -/
def finalizationDepth : ℕ := 3

/-! ### Insertion -/

/-- Remember a shift that failed insertion. -/
def reject (dag : VectorClockDag) (hash : TxHash) (error : DagError) : VectorClockDag :=
  { dag with rejected := dag.rejected.insert hash error }

/-- Make a hash a child of each of its predecessors. -/
def linkChildren (nodes : ExtTreeMap TxHash DagNode) (predecessors : List TxHash) (hash : TxHash) :
    ExtTreeMap TxHash DagNode :=
  predecessors.foldl
    (fun nodes predecessor ↦ nodes.modify predecessor fun node ↦ node.addChild hash) nodes

/-- The tip of a sender after a shift of it was inserted: the tip advances when the shift is
causally after the present one. -/
def advanceTip (nodes : ExtTreeMap TxHash DagNode) (tip hash : TxHash) (shift : StatefulShift) :
    TxHash :=
  match nodes[tip]? with
  | some existing =>
    if existing.shift.vectorClock.happenedBefore shift.vectorClock then hash else tip
  | none => hash

/-- The node of a shift that was just inserted. -/
def freshNode (shift : StatefulShift) (hash : TxHash) (tick depth : ℕ) : DagNode :=
  { hash, shift, children := ∅, insertedAtTick := tick, status := .accepted
    finalizationDepth := depth, firstSeenAtNs := shift.firstSeenAtNs, finalizedAtTick := none
    applied := false }

/-- Link a new shift into the DAG and update the causal bookkeeping. -/
def link (dag : VectorClockDag) (shift : StatefulShift) (hash : TxHash) (tick depth : ℕ) :
    VectorClockDag :=
  let nodes := (if shift.predecessors = [] then dag.nodes
    else linkChildren dag.nodes shift.predecessors hash).insert hash
      (freshNode shift hash tick depth)
  { dag with
    nodes
    roots := if shift.predecessors = [] then dag.roots.insert hash else dag.roots
    tips := dag.tips.insert shift.sender
      (advanceTip nodes (dag.tips.getD shift.sender hash) hash shift)
    maxClock := dag.maxClock.merge shift.vectorClock
    accountTips := dag.accountTips.insert shift.sender
      (match dag.accountTips[shift.sender]? with
        | some clock => clock.merge shift.vectorClock
        | none => shift.vectorClock) }

/-- Insert a stateful shift after validating its signature and its ancestry. -/
def insert (prim : Primitives) (dag : VectorClockDag) (shift : StatefulShift)
    (publicKey : VerifyingKey) (tick depth : ℕ) : VectorClockDag × Except DagError TxHash :=
  let hash := shift.hash prim
  if !shift.verifySignature prim publicKey then
    (dag.reject hash (.invalidSignature hash), .error (.invalidSignature hash))
  else if dag.nodes.contains hash then (dag, .ok hash)
  else
    match shift.predecessors.find? fun predecessor ↦ !dag.nodes.contains predecessor with
    | some missing =>
      (dag.reject hash (.missingPredecessor missing), .error (.missingPredecessor missing))
    | none => (dag.link shift hash tick depth, .ok hash)

/-! ### Statuses -/

/-- Promote a node that was accepted and is deep enough. -/
def promoteNode (currentTick : ℕ) (node : DagNode) : DagNode :=
  if node.status = .accepted ∧ node.finalizationDepth ≤ currentTick - node.insertedAtTick then
    { node with status := .finalized, finalizedAtTick := some currentTick }
  else node

/-- Promote the accepted nodes that survived as many ticks as their domain asks for. The second
component is their number. -/
def promoteToFinalized (dag : VectorClockDag) (currentTick : ℕ) : VectorClockDag × ℕ :=
  ({ dag with nodes := dag.nodes.map fun _ node ↦ promoteNode currentTick node },
    dag.nodes.toList.countP fun entry ↦
      decide (entry.2.status = .accepted ∧
        entry.2.finalizationDepth ≤ currentTick - entry.2.insertedAtTick))

/-- The status of a shift: that of its node, or the reason its insertion failed. -/
def shiftStatus (dag : VectorClockDag) (hash : TxHash) : Option ShiftStatus :=
  match dag.nodes[hash]? with
  | some node => some node.status
  | none => dag.rejected[hash]?.map ShiftStatus.rejected

/-! ### Submitted clocks -/

/-- The latest clock observed for an account. -/
def accountTip (dag : VectorClockDag) (account : AccountId) : VectorClock :=
  dag.accountTips.getD account VectorClock.new

/-- The first entry of a submitted clock that is wrong: the own time is the next one, and every
other time was observed. -/
def clockError (dag : VectorClockDag) (sender : OscillatorId) (expectedOwn : ℕ)
    (clock : VectorClock) : Option String :=
  clock.times.toList.findSome? fun entry ↦
    if entry.1 = sender then
      if entry.2 ≠ expectedOwn then
        some s!"invalid own vector-clock time: expected {expectedOwn}, got {entry.2}"
      else none
    else if dag.maxClock.get entry.1 < entry.2 then
      some (s!"vector-clock references unseen node {hexEncode entry.1.toBytes} " ++
        s!"with time {entry.2}")
    else none

/-- Check a submitted clock against the observed causal history, or derive the next clock of the
sender. -/
def validateOrDerive (dag : VectorClockDag) (sender : AccountId) (provided : Option VectorClock) :
    Except String VectorClock :=
  let expectedOwn := wrappingAdd 64 ((dag.accountTip sender).get sender.bytes) 1
  match provided with
  | some clock =>
    match dag.clockError sender.bytes expectedOwn clock with
    | some text => .error text
    | none =>
      if sender.bytes ∈ clock.times then .ok clock
      else .error "vector-clock missing sender's own entry"
  | none => .ok ((dag.accountTip sender).tick sender.bytes)

/-- Check a submitted clock. -/
def validateVectorClock (dag : VectorClockDag) (sender : AccountId) (clock : VectorClock) :
    Except String Unit :=
  (dag.validateOrDerive sender (some clock)).map fun _ ↦ ()

/-! ### The topological order -/

/-- From a list of ready hashes, the index at which one left-to-right pass ends: a later node
replaces the current one when it happened before it, or when it is concurrent and has the smaller
hash. -/
def pickMinimalReady (dag : VectorClockDag) (ready : List TxHash) : Option ℕ := do
  let first ← ready.head?
  let firstNode ← dag.nodes[first]?
  let best ← (ready.tail.zipIdx 1).foldlM
    (fun (best : ℕ × TxHash × VectorClock) entry ↦ do
      let node ← dag.nodes[entry.1]?
      let clock := node.shift.vectorClock
      if clock.happenedBefore best.2.2 then some (entry.2, entry.1, clock)
      else if clock.concurrentWith best.2.2 then
        if entry.1 < best.2.1 then some (entry.2, entry.1, clock) else some best
      else some best)
    (0, first, firstNode.shift.vectorClock)
  return best.1

/-- The children of a node, in the order of its hash set. -/
def childrenOf (dag : VectorClockDag) (order : DagOrder) (hash : TxHash) : List TxHash :=
  match dag.nodes[hash]? with
  | some node => (order.children hash).visit node.children.toList
  | none => []

/-- The counters of incoming edges. -/
def inDegrees (dag : VectorClockDag) : ExtTreeMap TxHash ℕ :=
  inDegree (dag.nodes.toList.map fun entry ↦ (entry.1, entry.2.children.toList))

/-- The worklist at the start: the roots without incoming edges. -/
def initialQueue (dag : VectorClockDag) (order : DagOrder) : Queue TxHash :=
  { degree := dag.inDegrees
    ready := (order.roots.visit dag.roots.toList).filter fun hash ↦ dag.inDegrees.getD hash 0 = 0
    order := [] }

/-- A topological order of all nodes, from the roots on. -/
def topologicalOrder (dag : VectorClockDag) (order : DagOrder) :
    Option (Except DagError (List TxHash)) :=
  (drain dag.pickMinimalReady (dag.childrenOf order) dag.nodes.size (dag.initialQueue order)).map
    fun placed ↦
      if placed.length ≠ dag.nodes.size then .error (.causalCycle 0) else .ok placed

/-! ### Double spends -/

/-- The nodes of each sender. -/
def bySender (dag : VectorClockDag) : ExtTreeMap AccountId (List (TxHash × DagNode)) :=
  dag.nodes.toList.foldl
    (fun groups entry ↦ groups.insert entry.2.shift.sender
      (groups.getD entry.2.shift.sender [] ++ [entry])) ∅

/-- Whether one node comes before another in the double-spend check: by the tick of insertion, then
by hash. -/
def spendsBefore (first second : TxHash × DagNode) : Bool :=
  ((compare first.2.insertedAtTick second.2.insertedAtTick).then
    (compare first.1 second.1)).isLE

/-- The nodes behind a first one that overspend together with it: each concurrent node adds its
amount to the running sum. -/
def spendViolations (balance : ℕ) (first : DagNode) :
    ℕ → List (TxHash × DagNode) → List DagError
  | _, [] => []
  | spent, (hash, second) :: rest =>
    if first.shift.vectorClock.concurrentWith second.shift.vectorClock then
      let total := wrappingAdd 128 spent second.shift.amount
      if balance < total then .doubleSpend hash :: spendViolations balance first total rest
      else spendViolations balance first total rest
    else spendViolations balance first spent rest

/-- The violations among the ordered nodes of one sender. -/
def senderViolations (balance : ℕ) : List (TxHash × DagNode) → List DagError
  | [] => []
  | (_, first) :: rest =>
    spendViolations balance first first.shift.amount rest ++ senderViolations balance rest

/-- The double-spend attempts: concurrent shifts of one sender whose amounts together exceed its
balance. -/
def detectDoubleSpends (dag : VectorClockDag) (order : DagOrder) : List DagError :=
  (order.senders.visit dag.bySender.toList).flatMap fun group ↦
    senderViolations (dag.balances.getD group.1 0)
      (group.2.insertionSort fun first second ↦ spendsBefore first second)

/-- Mark the nodes that a list of violations names. -/
def markDoubleSpends (dag : VectorClockDag) (violations : List DagError) : VectorClockDag :=
  { dag with
    nodes := violations.foldl
      (fun nodes violation ↦
        match violation with
        | .doubleSpend hash =>
          nodes.modify hash fun node ↦ { node with status := .rejected (.doubleSpend hash) }
        | _ => nodes)
      dag.nodes }

end VectorClockDag

end Fluidic.Consensus
