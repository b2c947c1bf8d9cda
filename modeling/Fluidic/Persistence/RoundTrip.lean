import Fluidic.Consensus.RunInvariant
import Fluidic.Persistence.Snapshot

/-!
# A snapshot restores what it was taken of

Each text that a save writes is read back by the load, and a map that is written in any order is
restored entry by entry. What a load computes, the roots, agrees with the stored roots because of
the invariant of the DAG. `Restores` lists what a loaded node has in common with the saved one; of a
rejection only the hash that it was about is lost. Whatever a snapshot has, it is restored
(`restores_readSnapshot`), but a save writes one only if every stored clock is empty
(`load_save_iff`).
-/

set_option autoImplicit false
set_option relaxedAutoImplicit false

namespace Fluidic.Persistence

open Library Crypto Consensus Fluidic.Field Value Operator Evm
open Std (ExtTreeMap ExtTreeSet LawfulEqCmp)

/-! ### Keys -/

/-- A hash is read back. -/
theorem hashFromHex_hashToHex (hash : TxHash) : hashFromHex (hashToHex hash) = some hash := by
  unfold hashFromHex hashToHex
  rw [hexDecode_hexEncode, Option.bind_some, Bytes32.ofBytes_toBytes]

/-- An account is read back. -/
theorem accountFromHex_accountToHex (account : AccountId) :
    accountFromHex (accountToHex account) = some account :=
  congrArg (Option.map AccountId.mk) (hashFromHex_hashToHex account.bytes)

/-- An EVM address is read back. -/
theorem addressFromHex_addressToHex (address : EvmAddress) :
    addressFromHex (addressToHex address) = some address := by
  have hstrip : stripPrefix "0x" (addressToHex address) =
      some (hexEncode (beBytes 20 address.toNat)) := by
    unfold stripPrefix addressToHex
    rw [String.toList_append]
    exact congrArg some String.ofList_toList
  unfold addressFromHex
  rw [hstrip, Option.getD_some, hexDecode_hexEncode]
  show (if (beBytes 20 address.toNat).length = 20 then
    some (BitVec.ofNat 160 (beValue (beBytes 20 address.toNat))) else none) = _
  rw [if_pos (length_beBytes 20 address.toNat),
    beValue_beBytes (lt_of_lt_of_eq address.isLt (by norm_num)), BitVec.ofNat_toNat,
    BitVec.setWidth_eq]

/-- Printed bytes do not start with the mark of a hexadecimal number. -/
theorem trimHexMarks_hexEncode (bytes : List UInt8) :
    trimHexMarks (hexEncode bytes).toList = (hexEncode bytes).toList := by
  have hmark := @not_mem_hexEncode 'x' (by decide) bytes
  unfold trimHexMarks
  split
  · next rest hletters =>
    rw [hletters] at hmark
    exact absurd (List.mem_cons_of_mem _ List.mem_cons_self) hmark
  · rfl

/-- An EVM hash is read back. -/
theorem evmHashFromHex_evmHashToHex (hash : H256) :
    evmHashFromHex (evmHashToHex hash) = some hash := by
  have hmark : "0x".toList = ['0', 'x'] := by decide
  unfold evmHashFromHex evmHashToHex
  rw [String.toList_append, hmark, List.cons_append, List.cons_append, List.nil_append,
    trimHexMarks, trimHexMarks_hexEncode, String.ofList_toList]
  exact hashFromHex_hashToHex hash

/-! ### Statuses and nodes -/

/-- The same error about the zero hash. -/
def unnamedError : DagError → DagError
  | .missingPredecessor _ => .missingPredecessor 0
  | .invalidSignature _ => .invalidSignature 0
  | .insufficientBalance _ => .insufficientBalance 0
  | .doubleSpend _ => .doubleSpend 0
  | .causalCycle _ => .causalCycle 0

/-- A status without the hash that a rejection is about. -/
def unnamedStatus : ShiftStatus → ShiftStatus
  | .rejected error => .rejected (unnamedError error)
  | status => status

/-- A node without the hash that a rejection is about. -/
def unnamedNode (node : DagNode) : DagNode := { node with status := unnamedStatus node.status }

/-- The variant of an error is read back. -/
theorem parseDagError_dagErrorCode (error : DagError) :
    parseDagError (dagErrorCode error) = unnamedError error := by
  cases error <;> simp [parseDagError, dagErrorCode, unnamedError]

/-- A status is read back, without the hash of a rejection. -/
theorem parseStatus_statusText (status : ShiftStatus) :
    parseStatus (statusText status) (statusError status) = unnamedStatus status := by
  cases status with
  | accepted => decide
  | finalized => decide
  | rejected error => exact congrArg ShiftStatus.rejected (parseDagError_dagErrorCode error)

/-- The hashes of a set that is written out, in any order, are restored. -/
theorem foldl_filterMap_hashFromHex (order : IterationOrder TxHash) (hashes : ExtTreeSet TxHash) :
    (((order.visit hashes.toList).map hashToHex).filterMap hashFromHex).foldl
      (fun children child ↦ children.insert child) ∅ = hashes := by
  refine ExtTreeSet.ext_mem fun hash ↦ ?_
  have hread : hashFromHex ∘ hashToHex = some := by
    ext1 written
    rw [Function.comp_apply, hashFromHex_hashToHex]
  rw [List.filterMap_map, hread, List.filterMap_some]
  refine (mem_foldl_insert id _ _ _).trans ?_
  simp

/-- A node is read back, without the hash of a rejection. Assumes: the node is stored under its own
hash. -/
theorem readNode_writeNode (order : SaveOrder) {hash : TxHash} {node : DagNode}
    (hhash : node.hash = hash) : readNode hash (writeNode order node) = unnamedNode node := by
  subst hhash
  unfold readNode writeNode unnamedNode
  dsimp only
  rw [parseStatus_statusText, foldl_filterMap_hashFromHex]

/-! ### DAGs that insertions and syntheses build -/

/-- The DAGs that come from the empty one by insertions and by the requests that a node serves. -/
inductive Built (platform : Platform) : VectorClockDag → Prop
  | new : Built platform VectorClockDag.new
  | insert {dag : VectorClockDag} (hbuilt : Built platform dag) (shift : StatefulShift)
      (publicKey : VerifyingKey) (tick depth : ℕ) :
      Built platform (dag.insert platform.primitives shift publicKey tick depth).1
  | step {oscillator next : Oscillator platform} {request : Request} {response : Response}
      (hbuilt : Built platform oscillator.dag)
      (hstep : Consensus.step platform oscillator request = some (next, response)) :
      Built platform next.dag

/-- A DAG that was built is well formed. Assumes: the DAG was built. -/
theorem Built.wellFormed {platform : Platform} {dag : VectorClockDag}
    (hbuilt : Built platform dag) : dag.WellFormed platform.primitives := by
  induction hbuilt with
  | new => exact VectorClockDag.wellFormed_new platform.primitives
  | insert _ shift publicKey tick depth ih => exact ih.insert shift publicKey tick depth
  | step _ hstep ih => exact Oscillator.wellFormed_step ih hstep

/-- The nodes of a snapshot restore the nodes, but for the hashes of rejections. Assumes: every node
is stored under its own hash. -/
theorem restore_nodes (order : SaveOrder) {nodes : ExtTreeMap TxHash DagNode}
    (hhash : ∀ hash (node : DagNode), nodes[hash]? = some node → node.hash = hash) :
    restore hashFromHex readNode (((order.nodes.visit nodes.toList).map fun entry ↦
        writeNode order entry.2).map fun node ↦ (node.hash, node)) =
      nodes.map fun _ node ↦ unnamedNode node := by
  have hentries : (((order.nodes.visit nodes.toList).map fun entry ↦ writeNode order entry.2).map
      fun node ↦ (node.hash, node)) =
      (order.nodes.visit nodes.toList).map fun entry ↦
        (hashToHex entry.1, writeNode order entry.2) := by
    rw [List.map_map]
    refine List.map_congr_left fun entry hentry ↦ ?_
    have hstored := hhash entry.1 entry.2
      (ExtTreeMap.mem_toList_iff_getElem?_eq_some.mp ((order.nodes.mem_visit _ _).mp hentry))
    rw [← hstored]
    rfl
  rw [hentries]
  refine (restore_visit hashFromHex_hashToHex order.nodes nodes (fun _ node ↦ writeNode order node)
    readNode).trans (ExtTreeMap.ext_getElem? fun hash ↦ ?_)
  rw [ExtTreeMap.getElem?_map, ExtTreeMap.getElem?_map]
  cases hnode : nodes[hash]? with
  | none => rfl
  | some node => exact congrArg some (readNode_writeNode order (hhash hash node hnode))

/-- The roots that are computed are the nodes without predecessors. -/
theorem mem_rebuildRoots (nodes : ExtTreeMap TxHash DagNode) (hash : TxHash) :
    hash ∈ rebuildRoots nodes ↔
      ∃ node : DagNode, nodes[hash]? = some node ∧ node.shift.predecessors = [] := by
  unfold rebuildRoots
  rw [mem_foldl_insert Prod.fst]
  simp only [ExtTreeSet.not_mem_empty, or_false, List.mem_filter, List.isEmpty_iff]
  constructor
  · rintro ⟨⟨_, node⟩, ⟨hnode, hroot⟩, rfl⟩
    exact ⟨node, ExtTreeMap.mem_toList_iff_getElem?_eq_some.mp hnode, hroot⟩
  · rintro ⟨node, hnode, hroot⟩
    exact ⟨(hash, node), ⟨ExtTreeMap.mem_toList_iff_getElem?_eq_some.mpr hnode, hroot⟩, rfl⟩

/-! ### The stake table -/

/-- The operators of a snapshot are restored with their entries, and the configuration with them. -/
theorem fromSnapshot_toSnapshot (table : StakeTable)
    (order : IterationOrder (AccountId × OperatorEntry)) :
    (StakeTable.fromSnapshot table.config (table.toSnapshot order)).config = table.config ∧
      (StakeTable.fromSnapshot table.config (table.toSnapshot order)).operators =
        table.operators := by
  refine ⟨rfl, ?_⟩
  unfold StakeTable.fromSnapshot StakeTable.toSnapshot
  exact restore_rekey accountFromHex_accountToHex order table.operators

/-! ### The whole snapshot -/

/-- What a node that was loaded has in common with the node that was saved. -/
structure Restores {platform : Platform} (saved loaded : Oscillator platform) : Prop where
  accounts : ∀ account : AccountId,
    loaded.waveField.accounts[account]?.map (fun balance ↦
      (balance.units, balance.decays, balance.lastActiveTick)) =
    saved.waveField.accounts[account]?.map fun balance ↦
      (balance.units, balance.decays, balance.lastActiveTick)
  pools : ∀ pool : PoolId, loaded.waveField.pools[pool]?.map Balance.units =
    saved.waveField.pools[pool]?.map Balance.units
  nodes : ∀ hash : TxHash, loaded.dag.nodes[hash]? = saved.dag.nodes[hash]?.map unnamedNode
  roots : loaded.dag.roots = saved.dag.roots
  balances : loaded.dag.balances = saved.dag.balances
  totalBurned : loaded.metabolicEngine.totalBurned = saved.metabolicEngine.totalBurned
  evmNonces : loaded.evmPool.nonces = saved.evmPool.nonces
  evmStatuses : loaded.evmPool.statuses = saved.evmPool.statuses
  stakeConfig : loaded.stakeTable.config = saved.stakeTable.config
  operators : loaded.stakeTable.operators = saved.stakeTable.operators

/-- The statuses of the EVM transactions are restored. -/
theorem evmStatuses_readSnapshot {platform : Platform} (oscillator target : Oscillator platform)
    (order : SaveOrder) :
    (readSnapshot target (snapshotOf oscillator order)).evmPool.statuses =
      oscillator.evmPool.statuses :=
  (restore_visit evmHashFromHex_evmHashToHex order.statuses oscillator.evmPool.statuses
    (fun _ status ↦ status) fun _ status ↦ status).trans (map_self _)

/-- A snapshot of a node, read into any other one, restores it. Assumes: the DAG of the node is well
formed. -/
theorem restores_readSnapshot {platform : Platform} {oscillator : Oscillator platform}
    (hdag : oscillator.dag.WellFormed platform.primitives) (order : SaveOrder)
    (target : Oscillator platform) :
    Restores oscillator (readSnapshot target (snapshotOf oscillator order)) := by
  have hnodes : (readSnapshot target (snapshotOf oscillator order)).dag.nodes =
      oscillator.dag.nodes.map fun _ node ↦ unnamedNode node :=
    restore_nodes order fun hash node hnode ↦ (hdag.stored_hash hash node hnode).1
  refine ⟨fun account ↦ ?_, fun pool ↦ ?_, fun hash ↦ ?_, ?_, ?_, rfl, ?_, ?_, rfl, ?_⟩
  · have haccounts : (readSnapshot target (snapshotOf oscillator order)).waveField.accounts = _ :=
      restore_visit accountFromHex_accountToHex order.accounts oscillator.waveField.accounts
        (fun _ balance ↦ AccountStateSer.mk balance.units balance.decays balance.lastActiveTick)
        fun _ state ↦ readAccount state
    rw [haccounts, ExtTreeMap.getElem?_map, Option.map_map]
    rfl
  · have hpools : (readSnapshot target (snapshotOf oscillator order)).waveField.pools = _ :=
      restore_visit hashFromHex_hashToHex order.pools oscillator.waveField.pools
        (fun _ balance ↦ balance.units) fun _ units ↦ readPool units
    rw [hpools, ExtTreeMap.getElem?_map, Option.map_map]
    rfl
  · rw [hnodes, ExtTreeMap.getElem?_map]
  · refine ExtTreeSet.ext_mem fun hash ↦ ?_
    have hroots : hash ∈ (readSnapshot target (snapshotOf oscillator order)).dag.roots ↔ _ :=
      mem_rebuildRoots (readSnapshot target (snapshotOf oscillator order)).dag.nodes hash
    rw [hroots, hnodes, ExtTreeMap.getElem?_map, hdag.roots_iff]
    simp only [Option.map_eq_some_iff]
    constructor
    · rintro ⟨_, ⟨node, hnode, rfl⟩, hroot⟩
      exact ⟨node, hnode, hroot⟩
    · rintro ⟨node, hnode, hroot⟩
      exact ⟨_, ⟨node, hnode, rfl⟩, hroot⟩
  · exact (restore_visit accountFromHex_accountToHex order.balances oscillator.dag.balances
      (fun _ units ↦ units) fun _ units ↦ units).trans (map_self _)
  · exact (restore_visit addressFromHex_addressToHex .forward oscillator.evmPool.nonces
      (fun _ nonce ↦ nonce) fun _ nonce ↦ nonce).trans (map_self _)
  · exact evmStatuses_readSnapshot oscillator target order
  · exact (fromSnapshot_toSnapshot oscillator.stakeTable order.operators).2

/-- A node that is saved, and loaded into any other one, is restored exactly when every stored clock
is empty. Assumes: insertions and syntheses built the DAG of the node. -/
theorem load_save_iff {platform : Platform} {oscillator : Oscillator platform}
    (hbuilt : Built platform oscillator.dag) (order : SaveOrder) (target : Oscillator platform) :
    (∃ snapshot loaded, save oscillator order = .ok snapshot ∧
      load target (some snapshot) = .ok loaded ∧ Restores oscillator loaded) ↔
      ClocksEmpty oscillator.dag := by
  constructor
  · rintro ⟨snapshot, -, hsave, -⟩
    exact (save_eq_ok_iff.mp hsave).1
  · intro hempty
    exact ⟨snapshotOf oscillator order, readSnapshot target (snapshotOf oscillator order),
      save_eq_ok_iff.mpr ⟨hempty, rfl⟩, rfl, restores_readSnapshot hbuilt.wellFormed order target⟩

/-- Every run from a node whose DAG was built leads to another one. Assumes: the DAG of the first
node was built, and the run reaches the last node from it. -/
theorem built_of_reaches {platform : Platform} {allowed : Oscillator platform → Request → Prop}
    {history : List (Oscillator platform × Request)} {first final : Oscillator platform}
    (hbuilt : Built platform first.dag)
    (hreaches : Reaches (Consensus.step platform) allowed first history final) :
    Built platform final.dag :=
  @Reaches.invariant _ _ _ _ _ _ (fun oscillator : Oscillator platform ↦
    Built platform oscillator.dag) hbuilt (fun _ _ _ _ _ hbefore hstep ↦ hbefore.step hstep) _ _
    hreaches

/-- Two concurrent shifts of one sender that cannot pay for both, and a third shift of another
sender, all without a clock, in two ticks. -/
def overspentPair : List Request :=
  [.seedAccount (sampleAccount 1) 500, .seedAccount (sampleAccount 2) 500,
    .ingest (.stateful (StatefulShift.sample 1 400 [] [] 1 0)) 1,
    .ingest (.stateful (StatefulShift.sample 1 400 [] [] 2 0)) 1,
    .ingest (.stateful (StatefulShift.sample 2 300 [] [] 1 0)) 1,
    .sample, .sample]

/-- A node with accepted and rejected shifts is restored into a new node. -/
theorem load_save_iff_overspentPair :
    ∃ oscillator : Oscillator Platform.sample,
      run (step Platform.sample) anyStep (Oscillator.newWithKeypair 8) overspentPair =
        some oscillator ∧
      (oscillator.dag.nodes.toList.map fun entry ↦ entry.2.status.isRejected) =
        [false, false, true] ∧
      ∃ snapshot loaded, save oscillator .forward = .ok snapshot ∧
        load (Oscillator.newWithKeypair 8) (some snapshot) = .ok loaded ∧
        Restores oscillator loaded := by
  have hruns : ((run (step Platform.sample) anyStep (Oscillator.newWithKeypair 8)
      overspentPair).map fun oscillator ↦
        (oscillator.dag.nodes.toList.map fun entry ↦ entry.2.status.isRejected,
          decide (ClocksEmpty oscillator.dag))) =
      some ([false, false, true], true) := by
    decide +kernel
  obtain ⟨oscillator, hrun, hfacts⟩ := Option.map_eq_some_iff.mp hruns
  obtain ⟨hstatuses, hempty⟩ := Prod.mk.inj hfacts
  have hbuilt : Built Platform.sample
      (Oscillator.newWithKeypair 8 : Oscillator Platform.sample).dag := Built.new
  obtain ⟨_, _, hreaches⟩ := reaches_of_run hrun
  exact ⟨oscillator, hrun, hstatuses,
    (load_save_iff (built_of_reaches hbuilt hreaches) .forward (Oscillator.newWithKeypair 8)).mpr
      (of_decide_eq_true hempty)⟩

/-- A node that applied one shift, with the clock that the first shift of its sender has. Every save
of it fails, and a new node that loads the file, which is still missing, restores nothing. -/
theorem clockedShift_unsaved :
    ∃ oscillator : Oscillator Platform.sample,
      run (step Platform.sample) anyStep (Oscillator.newWithKeypair 8)
        [.seedAccount (sampleAccount 1) 500,
          .ingest (.stateful (StatefulShift.sample 1 400
            [((sampleAccount 1).bytes.toNat, 1)] [] 1 0)) 1, .sample] = some oscillator ∧
      Built Platform.sample oscillator.dag ∧
      ∀ order, save oscillator order = .error "key must be a string" ∧
        load (Oscillator.newWithKeypair 8) (fileAfter none (save oscillator order)) =
          .ok (Oscillator.newWithKeypair 8) ∧
        ¬ Restores oscillator (Oscillator.newWithKeypair 8) := by
  have hruns : ((run (step Platform.sample) anyStep (Oscillator.newWithKeypair 8)
      [.seedAccount (sampleAccount 1) 500,
        .ingest (.stateful (StatefulShift.sample 1 400
          [((sampleAccount 1).bytes.toNat, 1)] [] 1 0)) 1, .sample]).map fun oscillator ↦
        (decide (ClocksEmpty oscillator.dag),
          oscillator.dag.balances[sampleAccount 1]?)) =
      some (false, some 100) := by
    decide +kernel
  obtain ⟨oscillator, hrun, hfacts⟩ := Option.map_eq_some_iff.mp hruns
  obtain ⟨hclocked, hbalance⟩ := Prod.mk.inj hfacts
  have hbuilt : Built Platform.sample
      (Oscillator.newWithKeypair 8 : Oscillator Platform.sample).dag := Built.new
  obtain ⟨_, _, hreaches⟩ := reaches_of_run hrun
  refine ⟨oscillator, hrun, built_of_reaches hbuilt hreaches, fun order ↦ ?_⟩
  have herror : save oscillator order = .error "key must be a string" := by
    rw [save_eq, if_neg (of_decide_eq_false hclocked)]
  refine ⟨herror, ?_, fun hrestores ↦ ?_⟩
  · rw [herror]
    rfl
  · have hsame := hrestores.balances
    rw [← hsame] at hbalance
    exact absurd hbalance (by decide +kernel)

end Fluidic.Persistence
