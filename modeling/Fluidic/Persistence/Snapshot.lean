import Fluidic.Consensus.Oscillator

/-!
# Snapshots

`src/persistence/mod.rs`: the snapshot of a node that is written to disk, and the node that a
snapshot restores. Keys are written as hexadecimal text, statuses as a text with the code of an
error, and the roots and tips of the DAG are not written but computed from the nodes.

A file is a snapshot, or is missing: the file system gives back what was written, and so does JSON
for the snapshots that it writes. It writes no clock that has an entry, because the keys of a clock
are bytes and those of a JSON object are texts, so a save of a node that stores such a clock fails
and leaves the file as it was (`save_eq_ok_iff`). A save visits hash tables; the order of each visit
is part of a `SaveOrder`.
-/

set_option autoImplicit false
set_option relaxedAutoImplicit false

namespace Fluidic.Persistence

open Library Crypto Consensus Fluidic.Field Value Operator Evm
open Std (ExtTreeMap ExtTreeSet)

/-! ### What is written -/

/-- An account as it is written. -/
structure AccountStateSer where
  units : ℕ
  decays : Bool
  lastActiveTick : ℕ

/-- A node of the DAG as it is written. -/
structure DagNodeSer where
  hash : String
  shift : StatefulShift
  children : List String
  insertedAtTick : ℕ
  finalizationDepth : ℕ
  firstSeenAtNs : ℕ
  finalizedAtTick : Option ℕ
  applied : Bool
  status : String
  error : Option String

/-- The snapshot of a node. -/
structure Snapshot (platform : Platform) where
  version : ℕ
  accounts : List (String × AccountStateSer)
  pools : List (String × ℕ)
  dagNodes : List DagNodeSer
  dagBalances : List (String × ℕ)
  totalBurned : ℕ
  evmDb : Option platform.revm.Db
  evmNonces : List (String × ℕ)
  evmStatuses : List (String × EvmTxStatus)
  stakeConfig : Option StakingConfig
  stakeTable : ExtTreeMap String OperatorEntry

/-- The orders in which a save visits the hash tables of a node. -/
structure SaveOrder where
  accounts : IterationOrder (AccountId × Balance)
  pools : IterationOrder (PoolId × Balance)
  nodes : IterationOrder (TxHash × DagNode)
  children : TxHash → IterationOrder TxHash
  balances : IterationOrder (AccountId × ℕ)
  statuses : IterationOrder (H256 × EvmTxStatus)
  operators : IterationOrder (AccountId × OperatorEntry)

/-- The save that visits every table forward. -/
def SaveOrder.forward : SaveOrder :=
  ⟨.forward, .forward, .forward, fun _ ↦ .forward, .forward, .forward, .forward⟩

/-! ### Keys as text -/

/-- The text of a hash. -/
def hashToHex (hash : TxHash) : String := hexEncode hash.toBytes

/-- The hash of a text. -/
def hashFromHex (text : String) : Option TxHash := (hexDecode text).bind Bytes32.ofBytes

/-- The text of an account. -/
def accountToHex (account : AccountId) : String := hexEncode account.bytes.toBytes

/-- The account of a text. -/
def accountFromHex (text : String) : Option AccountId :=
  ((hexDecode text).bind Bytes32.ofBytes).map AccountId.mk

/-- The text of a pool. -/
def poolToHex (pool : PoolId) : String := hexEncode pool.toBytes

/-- The pool of a text. -/
def poolFromHex (text : String) : Option PoolId := (hexDecode text).bind Bytes32.ofBytes

/-- The text without a leading part, when it has that part. -/
def stripPrefix (lead text : String) : Option String :=
  if lead.toList.isPrefixOf text.toList then some (String.ofList (text.toList.drop lead.length))
  else none

/-- The text of an EVM address. -/
def addressToHex (address : EvmAddress) : String := "0x" ++ hexEncode (beBytes 20 address.toNat)

/-- The EVM address of a text, with or without the mark of a hexadecimal number. -/
def addressFromHex (text : String) : Option EvmAddress := do
  let bytes ← hexDecode ((stripPrefix "0x" text).getD text)
  if bytes.length = 20 then some (BitVec.ofNat 160 (beValue bytes)) else none

/-- The text of an EVM hash. -/
def evmHashToHex (hash : H256) : String := "0x" ++ hexEncode hash.toBytes

/-- The letters behind all leading marks of a hexadecimal number. -/
def trimHexMarks : List Char → List Char
  | '0' :: 'x' :: rest => trimHexMarks rest
  | letters => letters

/-- The EVM hash of a text. -/
def evmHashFromHex (text : String) : Option H256 :=
  (hexDecode (String.ofList (trimHexMarks text.toList))).bind Bytes32.ofBytes

/-! ### Statuses as text -/

/-- The code of an error. -/
def dagErrorCode : DagError → String
  | .missingPredecessor _ => "missing_predecessor"
  | .invalidSignature _ => "invalid_signature"
  | .insufficientBalance _ => "insufficient_balance"
  | .doubleSpend _ => "double_spend"
  | .causalCycle _ => "causal_cycle"

/-- The error of a code, without the hash it was about. -/
def parseDagError (code : String) : DagError :=
  if code = "invalid_signature" then .invalidSignature 0
  else if code = "insufficient_balance" then .insufficientBalance 0
  else if code = "double_spend" then .doubleSpend 0
  else if code = "causal_cycle" then .causalCycle 0
  else .missingPredecessor 0

/-- The text of a status. -/
def statusText : ShiftStatus → String
  | .accepted => "accepted"
  | .finalized => "finalized"
  | .rejected error => "rejected:" ++ dagErrorCode error

/-- The code that is written next to the text of a status. -/
def statusError : ShiftStatus → Option String
  | .rejected error => some (dagErrorCode error)
  | _ => none

/-- The status of a text and a code. -/
def parseStatus (status : String) (error : Option String) : ShiftStatus :=
  match error with
  | some code => .rejected (parseDagError code)
  | none =>
    match stripPrefix "rejected:" status with
    | some code => .rejected (parseDagError code)
    | none => if status = "finalized" then .finalized else .accepted

/-! ### Saving -/

/-- A node of the DAG as text. -/
def writeNode (order : SaveOrder) (node : DagNode) : DagNodeSer :=
  { hash := hashToHex node.hash
    shift := node.shift
    children := ((order.children node.hash).visit node.children.toList).map hashToHex
    insertedAtTick := node.insertedAtTick
    finalizationDepth := node.finalizationDepth
    firstSeenAtNs := node.firstSeenAtNs
    finalizedAtTick := node.finalizedAtTick
    applied := node.applied
    status := statusText node.status
    error := statusError node.status }

variable {platform : Platform}

/-- The snapshot of a node. -/
def snapshotOf (oscillator : Oscillator platform) (order : SaveOrder) : Snapshot platform :=
  { version := 1
    accounts := (order.accounts.visit oscillator.waveField.accounts.toList).map fun entry ↦
      (accountToHex entry.1, ⟨entry.2.units, entry.2.decays, entry.2.lastActiveTick⟩)
    pools := (order.pools.visit oscillator.waveField.pools.toList).map fun entry ↦
      (poolToHex entry.1, entry.2.units)
    dagNodes := (order.nodes.visit oscillator.dag.nodes.toList).map fun entry ↦
      writeNode order entry.2
    dagBalances := (order.balances.visit oscillator.dag.balances.toList).map fun entry ↦
      (accountToHex entry.1, entry.2)
    totalBurned := oscillator.metabolicEngine.totalBurned
    evmDb := some oscillator.evmPool.db
    evmNonces := oscillator.evmPool.nonces.toList.map fun entry ↦ (addressToHex entry.1, entry.2)
    evmStatuses := (order.statuses.visit oscillator.evmPool.statuses.toList).map fun entry ↦
      (evmHashToHex entry.1, entry.2)
    stakeConfig := some oscillator.stakeTable.config
    stakeTable := oscillator.stakeTable.toSnapshot order.operators }

/-- The JSON text of a snapshot, as the snapshot that it is read back as. The entries of a clock are
keyed by the bytes of their nodes, and a key that is no string is an error. -/
def toStringPretty (snapshot : Snapshot platform) : Except String (Snapshot platform) :=
  if snapshot.dagNodes.all fun node ↦ node.shift.vectorClock.times.isEmpty then .ok snapshot
  else .error "key must be a string"

/-- What a save writes. -/
def save (oscillator : Oscillator platform) (order : SaveOrder) :
    Except String (Snapshot platform) :=
  toStringPretty (snapshotOf oscillator order)

/-- The file after a save. A save that fails does not replace it. -/
def fileAfter (file : Option (Snapshot platform)) (saved : Except String (Snapshot platform)) :
    Option (Snapshot platform) :=
  match saved with
  | .ok snapshot => some snapshot
  | .error _ => file

/-- Every stored shift has a clock without entries. -/
def ClocksEmpty (dag : VectorClockDag) : Prop :=
  ∀ (hash : TxHash) (node : DagNode), dag.nodes[hash]? = some node →
    node.shift.vectorClock = VectorClock.new

/-- The nodes that a save visits are the stored ones. -/
theorem clocksEmpty_iff_all (dag : VectorClockDag) (order : IterationOrder (TxHash × DagNode)) :
    ClocksEmpty dag ↔ ((order.visit dag.nodes.toList).all fun entry ↦
      entry.2.shift.vectorClock.times.isEmpty) = true := by
  rw [List.all_eq_true]
  constructor
  · intro hempty entry hentry
    have hstored := ExtTreeMap.mem_toList_iff_getElem?_eq_some.mp ((order.mem_visit _ _).mp hentry)
    rw [hempty entry.1 entry.2 hstored]
    exact ExtTreeMap.isEmpty_empty
  · intro hall hash node hnode
    have hvisited := (order.mem_visit _ _).mpr
      (ExtTreeMap.mem_toList_iff_getElem?_eq_some.mpr hnode)
    have htimes := ExtTreeMap.isEmpty_iff.mp (hall (hash, node) hvisited)
    exact congrArg VectorClock.mk htimes

instance (dag : VectorClockDag) : Decidable (ClocksEmpty dag) :=
  decidable_of_iff _ (clocksEmpty_iff_all dag .forward).symm

/-- A save writes the snapshot when every stored clock is empty, and is an error otherwise. -/
theorem save_eq (oscillator : Oscillator platform) (order : SaveOrder) :
    save oscillator order = if ClocksEmpty oscillator.dag then .ok (snapshotOf oscillator order)
      else .error "key must be a string" := by
  have hwritten : ((snapshotOf oscillator order).dagNodes.all fun node ↦
      node.shift.vectorClock.times.isEmpty) = true ↔ ClocksEmpty oscillator.dag := by
    rw [clocksEmpty_iff_all oscillator.dag order.nodes]
    unfold snapshotOf
    rw [List.all_map]
    rfl
  unfold save toStringPretty
  simp only [hwritten]

/-- A save succeeds exactly when every stored clock is empty, and writes the snapshot then. -/
theorem save_eq_ok_iff {oscillator : Oscillator platform} {order : SaveOrder}
    {snapshot : Snapshot platform} :
    save oscillator order = .ok snapshot ↔
      ClocksEmpty oscillator.dag ∧ snapshot = snapshotOf oscillator order := by
  rw [save_eq]
  split_ifs with hempty
  · rw [Except.ok.injEq, eq_comm]
    exact (and_iff_right hempty).symm
  · simp [hempty]

/-- A result with a value is that value. -/
theorem eq_ok_of_toOption {error result : Type} {outcome : Except error result} {value : result}
    (hvalue : outcome.toOption = some value) : outcome = .ok value := by
  cases outcome with
  | error => cases hvalue
  | ok value' => exact congrArg Except.ok (Option.some.inj hvalue)

/-! ### Loading -/

/-- An account that is read. -/
def readAccount (state : AccountStateSer) : Balance :=
  { Balance.zero with
    units := state.units, decays := state.decays, lastActiveTick := state.lastActiveTick }

/-- A pool that is read. -/
def readPool (units : ℕ) : Balance := { Balance.zero with units }

/-- A node of the DAG that is read. -/
def readNode (hash : TxHash) (node : DagNodeSer) : DagNode :=
  { hash
    shift := node.shift
    children := (node.children.filterMap hashFromHex).foldl
      (fun children child ↦ children.insert child) ∅
    insertedAtTick := node.insertedAtTick
    finalizationDepth := node.finalizationDepth
    firstSeenAtNs := node.firstSeenAtNs
    finalizedAtTick := node.finalizedAtTick
    applied := node.applied
    status := parseStatus node.status node.error }

/-- The nodes without predecessors. -/
def rebuildRoots (nodes : ExtTreeMap TxHash DagNode) : ExtTreeSet TxHash :=
  (nodes.toList.filter fun entry ↦ entry.2.shift.predecessors.isEmpty).foldl
    (fun roots entry ↦ roots.insert entry.1) ∅

/-- For each sender, the last of its nodes in the list. -/
def rebuildTips (nodes : ExtTreeMap TxHash DagNode) (written : List DagNodeSer) :
    ExtTreeMap AccountId TxHash :=
  written.foldl
    (fun tips node ↦
      match hashFromHex node.hash with
      | some hash =>
        match nodes[hash]? with
        | some stored => tips.insert stored.shift.sender hash
        | none => tips
      | none => tips) ∅

/-- The node with the contents of a snapshot in place of its own. -/
def readSnapshot (oscillator : Oscillator platform) (snapshot : Snapshot platform) :
    Oscillator platform :=
  let nodes := restore hashFromHex readNode (snapshot.dagNodes.map fun node ↦ (node.hash, node))
  { oscillator with
    waveField := { oscillator.waveField with
      accounts := restore accountFromHex (fun _ state ↦ readAccount state) snapshot.accounts
      pools := restore poolFromHex (fun _ units ↦ readPool units) snapshot.pools }
    dag := { oscillator.dag with
      nodes
      roots := rebuildRoots nodes
      tips := rebuildTips nodes snapshot.dagNodes
      balances := restore accountFromHex (fun _ units ↦ units) snapshot.dagBalances
      rejected := ∅ }
    metabolicEngine := ⟨snapshot.totalBurned⟩
    evmPool := { oscillator.evmPool with
      db := snapshot.evmDb.getD platform.revm.emptyDb
      nonces := restore addressFromHex (fun _ nonce ↦ nonce) snapshot.evmNonces
      statuses := restore evmHashFromHex (fun _ status ↦ status) snapshot.evmStatuses }
    stakeTable := StakeTable.fromSnapshot (snapshot.stakeConfig.getD .default)
      snapshot.stakeTable }

/-- Load a snapshot into a node. A missing file leaves the node alone. -/
def load (oscillator : Oscillator platform) (file : Option (Snapshot platform)) :
    Except String (Oscillator platform) :=
  match file with
  | none => .ok oscillator
  | some snapshot =>
    if snapshot.version ≠ 1 then .error s!"unsupported snapshot version {snapshot.version}"
    else .ok (readSnapshot oscillator snapshot)

end Fluidic.Persistence
