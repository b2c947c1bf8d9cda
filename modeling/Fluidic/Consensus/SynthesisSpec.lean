import Fluidic.Consensus.Synthesis
import Fluidic.Consensus.DoubleSpend
import Fluidic.Consensus.TopologicalOrder

/-!
# What one synthesis does

The sections of a synthesis, cut to what the later results need. `syncedDag`, `checkedDag` and
`preparedDag` are the DAG after the copy of the decayed balances, as the double-spend check sees it,
and as the loop sees it. `prepared_eq` and `synthesize_cases` say which fields of the node a
synthesis touches and what it writes there; every invariant of runs is derived from them, and none
of the later proofs unfolds a section again.
-/

set_option autoImplicit false
set_option relaxedAutoImplicit false

namespace Fluidic.Consensus.Oscillator

open Library Crypto Fluidic.Field Value Operator Evm
open Std (ExtTreeMap ExtTreeSet LawfulEqCmp)

variable {platform : Platform}

/-! ### The DAG through the sections -/

/-- The DAG with the decayed balances of the wave-field. -/
def syncedDag (oscillator : Oscillator platform) : VectorClockDag :=
  ({ oscillator with synthesisTick := wrappingAdd 64 oscillator.synthesisTick 1 }.decayPhase
    oscillator.synthesisTick).1.syncFieldIntoDag.dag

/-- The DAG as the double-spend check sees it: with the decayed balances and the pending shifts. -/
def checkedDag (oscillator : Oscillator platform) (keys : KeyRegistry) : VectorClockDag :=
  (oscillator.pendingStateful.foldl
    (admitShift platform.primitives oscillator.domainRegistry keys oscillator.synthesisTick)
    (oscillator.syncedDag, [])).1

/-- The DAG after the double spends were marked. -/
def markedDag (oscillator : Oscillator platform) (keys : KeyRegistry) (order : SynthesisOrder) :
    VectorClockDag :=
  (oscillator.checkedDag keys).markDoubleSpends
    ((oscillator.checkedDag keys).detectDoubleSpends order.toDagOrder)

/-- The DAG as the loop over the stateful shifts sees it. -/
def preparedDag (oscillator : Oscillator platform) (keys : KeyRegistry) (order : SynthesisOrder) :
    VectorClockDag :=
  ((oscillator.markedDag keys order).promoteToFinalized oscillator.synthesisTick).1

/-- The node as the loop sees it. -/
def prepared (oscillator : Oscillator platform) (keys : KeyRegistry) (order : SynthesisOrder) :
    Oscillator platform :=
  (oscillator.prepare keys order).1

/-- The balance of an account after the decay of a synthesis. -/
def decayedAccount (oscillator : Oscillator platform) (account : AccountId) (balance : Balance) :
    Balance :=
  (WaveField.decayAccount
    (fun account ↦ (oscillator.stakeTable.stakedOperators.map Prod.fst).contains account)
    oscillator.synthesisTick (dexLambda oscillator.domainRegistry) account balance).1

/-- The copy of the decayed balances changes nothing else in the DAG. -/
theorem syncedDag_eq (oscillator : Oscillator platform) :
    ∃ balances, oscillator.syncedDag = { oscillator.dag with balances } :=
  ⟨_, rfl⟩

/-- The balances after the copy: decayed ones for the accounts of the wave-field, and those of the
DAG for other accounts. -/
theorem getElem?_syncedDag_balances (oscillator : Oscillator platform) (account : AccountId) :
    oscillator.syncedDag.balances[account]? =
      (oscillator.waveField.accounts[account]?.map fun balance : Balance ↦
        (oscillator.decayedAccount account balance).units).or
          oscillator.dag.balances[account]? := by
  have hcopy := getElem?_copy (oscillator.waveField.accounts.map oscillator.decayedAccount)
    Balance.units oscillator.dag.balances account
  rw [ExtTreeMap.getElem?_map, Option.map_map] at hcopy
  exact hcopy

/-- A commutative batch leaves the accounts alone. -/
theorem synthesizeCommutativeBatch_accounts (field : WaveField)
    (order : IterationOrder (PoolId × ℤ)) (deltas : List (Coordinate × ℤ × PoolId)) :
    (field.synthesizeCommutativeBatch order deltas).1.accounts = field.accounts := by
  unfold WaveField.synthesizeCommutativeBatch
  dsimp only
  split <;> rfl

/-- One commutative batch touches the pools and the queue of commutative deltas only. -/
theorem commutativeBatch_eq (order : SynthesisOrder) (tick : ℕ)
    (progress : Oscillator platform × ℕ × Bytes32)
    (batch : DomainId × List (Coordinate × ℤ × PoolId)) :
    ∃ waveField pendingCommutative, waveField.accounts = progress.1.waveField.accounts ∧
      (commutativeBatch order tick progress batch).1 =
        { progress.1 with waveField, pendingCommutative } := by
  obtain ⟨current, applied, root⟩ := progress
  have haccounts := synthesizeCommutativeBatch_accounts current.waveField (order.pools batch.1)
    batch.2
  unfold commutativeBatch
  dsimp only
  split
  · rename_i hbatch
    rw [hbatch] at haccounts
    exact ⟨_, _, haccounts, rfl⟩
  · rename_i hbatch
    rw [hbatch] at haccounts
    exact ⟨_, _, haccounts, rfl⟩

/-- The commutative batches touch the pools and the queue of commutative deltas only. -/
theorem commutativePhase_eq (oscillator : Oscillator platform) (order : SynthesisOrder)
    (tick : ℕ) :
    ∃ waveField pendingCommutative, waveField.accounts = oscillator.waveField.accounts ∧
      (oscillator.commutativePhase order tick).1 =
        { oscillator with waveField, pendingCommutative } := by
  have hfold : ∀ (batches : List (DomainId × List (Coordinate × ℤ × PoolId)))
      (progress : Oscillator platform × ℕ × Bytes32),
      ∃ waveField pendingCommutative, waveField.accounts = progress.1.waveField.accounts ∧
        (batches.foldl (commutativeBatch order tick) progress).1 =
          { progress.1 with waveField, pendingCommutative } := by
    intro batches
    induction batches with
    | nil => exact fun progress ↦ ⟨_, _, rfl, rfl⟩
    | cons batch batches ih =>
      intro progress
      obtain ⟨waveField, pendingCommutative, haccounts, heq⟩ :=
        ih (commutativeBatch order tick progress batch)
      obtain ⟨waveField', pendingCommutative', haccounts', hbatch⟩ :=
        commutativeBatch_eq order tick progress batch
      rw [hbatch] at haccounts heq
      exact ⟨waveField, pendingCommutative, haccounts.trans haccounts',
        by rw [List.foldl_cons, heq]⟩
  exact hfold _ ({ oscillator with pendingCommutative := [] }, 0, 0)

/-- The sections before the loop decay the accounts, replace the DAG by the prepared one, empty the
queue of stateful shifts and advance the tick; they leave the keys, the domains, the stakes, the
certificates, the replay protection and the EVM pool alone. -/
theorem prepared_eq (oscillator : Oscillator platform) (keys : KeyRegistry)
    (order : SynthesisOrder) :
    ∃ waveField pendingCommutative metabolicEngine supplyTracker rewardPool,
      waveField.accounts = oscillator.waveField.accounts.map oscillator.decayedAccount ∧
      oscillator.prepared keys order =
        { oscillator with
          waveField, pendingCommutative, metabolicEngine, supplyTracker, rewardPool
          dag := oscillator.preparedDag keys order
          pendingStateful := []
          synthesisTick := wrappingAdd 64 oscillator.synthesisTick 1 } := by
  set admitted := ((({ oscillator with
    synthesisTick := wrappingAdd 64 oscillator.synthesisTick 1 }.decayPhase
      oscillator.synthesisTick).1.syncFieldIntoDag).admitPhase keys order.toDagOrder
        oscillator.synthesisTick).1 with hadmitted
  have hprepared : oscillator.prepared keys order =
      (admitted.commutativePhase order oscillator.synthesisTick).1 := rfl
  obtain ⟨waveField, pendingCommutative, haccounts, heq⟩ :=
    commutativePhase_eq admitted order oscillator.synthesisTick
  rw [hprepared, heq]
  exact ⟨waveField, pendingCommutative, admitted.metabolicEngine, admitted.supplyTracker,
    admitted.rewardPool, haccounts, rfl⟩

theorem prepared_dag (oscillator : Oscillator platform) (keys : KeyRegistry)
    (order : SynthesisOrder) :
    (oscillator.prepared keys order).dag = oscillator.preparedDag keys order := by
  obtain ⟨_, _, _, _, _, -, heq⟩ := oscillator.prepared_eq keys order
  rw [heq]

/-! ### After the loop -/

/-- Set the applied flags of a list of hashes. -/
def markApplied (nodes : ExtTreeMap TxHash DagNode) (hashes : List TxHash) :
    ExtTreeMap TxHash DagNode :=
  hashes.foldl (fun nodes hash ↦ nodes.modify hash fun node ↦ { node with applied := true }) nodes

/-- Setting the applied flags changes the flag of the listed nodes and nothing else. -/
theorem getElem?_markApplied (nodes : ExtTreeMap TxHash DagNode) (hashes : List TxHash)
    (hash : TxHash) :
    (markApplied nodes hashes)[hash]? = nodes[hash]?.map fun node : DagNode ↦
      { node with applied := node.applied || decide (hash ∈ hashes) } := by
  unfold markApplied
  induction hashes generalizing nodes with
  | nil => simp
  | cons head hashes ih =>
    rw [List.foldl_cons, ih, ExtTreeMap.getElem?_modify]
    simp only [LawfulEqCmp.compare_eq_iff_eq, List.mem_cons]
    by_cases hself : head = hash
    · subst hself
      cases nodes[head]? with
      | none => simp
      | some node => simp
    · simp [hself, Ne.symm hself]

/-- What the certificate section does: nothing, or the ingestion of one certificate of the operator
for the tick. -/
theorem certify_cases (oscillator : Oscillator platform) (keys : KeyRegistry)
    (tick timestampNs : ℕ) (result : SynthesisResult) (root : Bytes32) (hashes : List TxHash)
    (evmHashes : List H256) :
    oscillator.certify keys tick timestampNs result root hashes evmHashes = oscillator ∨
    ∃ cert certificates keypair, oscillator.operatorKeypair = some keypair ∧
      cert.operator = keypair.accountId platform.primitives ∧ cert.tick = tick ∧
      oscillator.certify keys tick timestampNs result root hashes evmHashes =
        { (oscillator.ingestCertificate cert keys).1 with certificates } := by
  unfold certify
  cases hkeypair : oscillator.operatorKeypair with
  | none => exact .inl rfl
  | some keypair =>
    dsimp only
    split_ifs
    · exact .inl rfl
    · exact .inr ⟨_, _, keypair, rfl, rfl, rfl, rfl⟩

/-- After the copy back every account of the balances has their units, and the others have what they
had. -/
theorem unitsAt_syncDagIntoField (oscillator : Oscillator platform) (tick : ℕ)
    (active : ExtTreeSet AccountId) (balances : ExtTreeMap AccountId ℕ) (account : AccountId) :
    (oscillator.syncDagIntoField tick active balances).waveField.unitsAt account =
      balances[account]?.or (oscillator.waveField.unitsAt account) := by
  have hlook : ∀ (field : WaveField) (entry : AccountId × ℕ) (other : AccountId),
      WaveField.unitsAt { field with
          accounts := (field.ensureAccount entry.1).accounts.modify entry.1 fun balance ↦
            { balance with
              units := entry.2
              lastActiveTick := if active.contains entry.1 then tick
                else balance.lastActiveTick } } other =
        if entry.1 = other then some entry.2 else field.unitsAt other := by
    intro field entry other
    unfold WaveField.unitsAt
    dsimp only
    rw [ExtTreeMap.getElem?_modify]
    simp only [LawfulEqCmp.compare_eq_iff_eq]
    by_cases hself : entry.1 = other
    · subst hself
      obtain ⟨balance, hbalance⟩ := mem_iff_exists_getElem?.mp (field.mem_ensureAccount entry.1)
      rw [if_pos rfl, if_pos rfl, hbalance]
      rfl
    · have hensured : (field.ensureAccount entry.1).accounts[other]? = field.accounts[other]? := by
        unfold WaveField.ensureAccount
        dsimp only
        rw [ExtTreeMap.getElem?_insertIfNew, if_neg fun hboth ↦
          hself (LawfulEqCmp.compare_eq_iff_eq.mp hboth.1)]
      rw [if_neg hself, if_neg hself, hensured]
  have hwritten := @look_foldl_toList AccountId ℕ ℕ WaveField _ _ _ WaveField.unitsAt
    (fun field entry ↦ { field with
      accounts := (field.ensureAccount entry.1).accounts.modify entry.1 fun balance ↦
        { balance with
          units := entry.2
          lastActiveTick := if active.contains entry.1 then tick else balance.lastActiveTick } })
    id (fun field entry ↦ by rw [hlook, if_pos rfl]; rfl)
    (fun field entry other hne ↦ by rw [hlook, if_neg hne]) balances oscillator.waveField account
  rw [Option.map_id_fun, id_eq] at hwritten
  exact hwritten

/-- The sections after the loop write the balances and the applied flags into the DAG, copy the
balances into the wave-field, and touch neither the queue, the replay protection nor the domains. -/
theorem finish_cases {oscillator final : Oscillator platform} {keys : KeyRegistry}
    {order : SynthesisOrder} {tick timestampNs applied : ℕ} {root : Bytes32} {decayed : ℕ}
    {rejected : List DagError} {ledger : Ledger} {result : SynthesisResult} {hashes : List TxHash}
    (hfinish : oscillator.finish keys order tick timestampNs applied root decayed rejected ledger =
      some (final, result, hashes)) :
    ∃ evmPool balances evmHashes waveField rewardPool,
      oscillator.evmPool.synthesize platform.primitives order.addresses ledger.balances tick =
        some (evmPool, balances, evmHashes) ∧
      hashes = ledger.hashes ∧ result.finalBalances = balances ∧
      (∀ account, waveField.unitsAt account = balances[account]?.or
        ((oscillator.chargeFees ledger.hashes ledger.totalFees).waveField.unitsAt account)) ∧
      final = { oscillator with
        evmPool, waveField, rewardPool
        dag := { oscillator.dag with
          nodes := markApplied oscillator.dag.nodes ledger.hashes, balances } }.certify keys tick
            timestampNs result root hashes evmHashes := by
  unfold finish at hfinish
  simp only [bind, Option.bind_eq_some_iff, pure, Option.some.injEq, Prod.mk.injEq] at hfinish
  obtain ⟨⟨evmPool, balances, evmHashes⟩, hevm, hfinal, hresult, hhashes⟩ := hfinish
  have hcharge : ∃ waveField rewardPool,
      { oscillator with evmPool }.chargeFees ledger.hashes ledger.totalFees =
        { oscillator with evmPool, waveField, rewardPool } ∧
      waveField = (oscillator.chargeFees ledger.hashes ledger.totalFees).waveField := by
    unfold chargeFees
    split_ifs
    · exact ⟨_, _, rfl, rfl⟩
    · exact ⟨_, _, rfl, rfl⟩
  obtain ⟨waveField, rewardPool, hcharge, hcharged⟩ := hcharge
  set synced := ({ oscillator with evmPool, waveField, rewardPool }.syncDagIntoField tick
    ledger.activeAccounts balances).waveField with hsynced
  refine ⟨evmPool, balances, evmHashes, synced, rewardPool, hevm, hhashes.symm,
    by rw [← hresult], fun account ↦ ?_, ?_⟩
  · rw [hsynced, unitsAt_syncDagIntoField, hcharged]
  · rw [← hfinal, ← hresult, ← hhashes, hcharge]
    rfl

/-- A synthesis in terms of its sections. -/
theorem synthesize_eq (oscillator : Oscillator platform) (keys : KeyRegistry)
    (order : SynthesisOrder) (timestampNs : ℕ) :
    oscillator.synthesize keys order timestampNs =
      ((oscillator.preparedDag keys order).topologicalOrder order.toDagOrder).bind fun outcome ↦
        match outcome with
        | .error error =>
          some (oscillator.prepared keys order,
            { commutativeApplied := (oscillator.prepare keys order).2.1
              statefulApplied := 0, evmApplied := 0
              statefulRejected := (oscillator.prepare keys order).2.2.2.2 ++ [error]
              finalBalances := ∅
              metabolicBurned := (oscillator.prepare keys order).2.2.2.1 }, [])
        | .ok placed =>
          (placed.foldlM ((oscillator.prepared keys order).applyShift keys order)
            (oscillator.prepared keys order).openLedger).bind fun ledger ↦
              (oscillator.prepared keys order).finish keys order oscillator.synthesisTick
                timestampNs (oscillator.prepare keys order).2.1
                (oscillator.prepare keys order).2.2.1 (oscillator.prepare keys order).2.2.2.1
                (oscillator.prepare keys order).2.2.2.2 ledger := by
  rw [← prepared_dag]
  rfl

/-- The two ways a synthesis ends: without a topological order, or after the loop and the sections
behind it. -/
theorem synthesize_cases {oscillator final : Oscillator platform} {keys : KeyRegistry}
    {order : SynthesisOrder} {timestampNs : ℕ} {result : SynthesisResult} {hashes : List TxHash}
    (hsynthesize : oscillator.synthesize keys order timestampNs = some (final, result, hashes)) :
    (∃ error, (oscillator.preparedDag keys order).topologicalOrder order.toDagOrder =
        some (.error error) ∧ final = oscillator.prepared keys order ∧ hashes = []) ∨
    ∃ placed ledger applied root decayed rejected,
      (oscillator.preparedDag keys order).topologicalOrder order.toDagOrder = some (.ok placed) ∧
      placed.foldlM ((oscillator.prepared keys order).applyShift keys order)
        (oscillator.prepared keys order).openLedger = some ledger ∧
      (oscillator.prepared keys order).finish keys order oscillator.synthesisTick timestampNs
        applied root decayed rejected ledger = some (final, result, hashes) := by
  rw [synthesize_eq, Option.bind_eq_some_iff] at hsynthesize
  obtain ⟨outcome, horder, hrest⟩ := hsynthesize
  cases outcome with
  | error error =>
    simp only [Option.some.injEq, Prod.mk.injEq] at hrest
    exact .inl ⟨error, horder, hrest.1.symm, hrest.2.2.symm⟩
  | ok placed =>
    simp only [Option.bind_eq_some_iff] at hrest
    obtain ⟨ledger, hloop, hfinish⟩ := hrest
    exact .inr ⟨placed, ledger, _, _, _, _, horder, hloop, hfinish⟩

/-- What a synthesis leaves behind: the prepared DAG with the flags of the applied shifts set, an
empty queue, and the replay protection and the domains as they were. -/
structure SynthesisEffect (oscillator final : Oscillator platform) (keys : KeyRegistry)
    (order : SynthesisOrder) (hashes : List TxHash) : Prop where
  nodes : final.dag.nodes = markApplied (oscillator.preparedDag keys order).nodes hashes
  roots : final.dag.roots = (oscillator.preparedDag keys order).roots
  pendingStateful : final.pendingStateful = []
  seenNonces : final.seenNonces = oscillator.seenNonces
  seenSignatures : final.seenSignatures = oscillator.seenSignatures

/-- Every synthesis has that effect. -/
theorem synthesize_effect {oscillator final : Oscillator platform} {keys : KeyRegistry}
    {order : SynthesisOrder} {timestampNs : ℕ} {result : SynthesisResult} {hashes : List TxHash}
    (hsynthesize : oscillator.synthesize keys order timestampNs = some (final, result, hashes)) :
    SynthesisEffect oscillator final keys order hashes := by
  obtain ⟨_, _, _, _, _, -, hprepared⟩ := oscillator.prepared_eq keys order
  rcases synthesize_cases hsynthesize with ⟨error, -, rfl, rfl⟩ |
    ⟨placed, ledger, applied, root, decayed, rejected, -, -, hfinish⟩
  · rw [hprepared]
    exact ⟨rfl, rfl, rfl, rfl, rfl⟩
  · obtain ⟨evmPool, balances, evmHashes, waveField, rewardPool, -, rfl, -, -, hfinal⟩ :=
      finish_cases hfinish
    rw [hprepared] at hfinal
    rcases certify_cases _ keys oscillator.synthesisTick timestampNs result root ledger.hashes
      evmHashes with hnone | ⟨cert, certificates, -, -, -, -, hsome⟩
    · rw [hnone] at hfinal
      rw [hfinal]
      exact ⟨rfl, rfl, rfl, rfl, rfl⟩
    · rw [hsome] at hfinal
      rw [hfinal]
      exact ⟨rfl, rfl, rfl, rfl, rfl⟩

/-! ### Turns of the loop -/

/-- The loop reaches a hash: it stands in the topological order behind the hashes that led to the
ledger. -/
structure Turn (oscillator : Oscillator platform) (keys : KeyRegistry) (order : SynthesisOrder)
    (before : List TxHash) (hash : TxHash) (ledger : Ledger) (node : DagNode) : Prop where
  placed : ∃ after, (oscillator.preparedDag keys order).topologicalOrder order.toDagOrder =
    some (.ok (before ++ hash :: after))
  ledger_eq : before.foldlM ((oscillator.prepared keys order).applyShift keys order)
    (oscillator.prepared keys order).openLedger = some ledger
  node_eq : (oscillator.preparedDag keys order).nodes[hash]? = some node

/-- What the loop finds at a turn. -/
def outcomeAt (oscillator : Oscillator platform) (keys : KeyRegistry) (order : SynthesisOrder)
    (ledger : Ledger) (node : DagNode) : Attempt :=
  (oscillator.prepared keys order).attempt keys order ledger.balances node

/-- One round enters what it finds at the node of its hash. -/
theorem applyShift_eq_some {oscillator : Oscillator platform} {keys : KeyRegistry}
    {order : SynthesisOrder} {ledger next : Ledger} {hash : TxHash}
    (hround : (oscillator.prepared keys order).applyShift keys order ledger hash = some next) :
    ∃ node, (oscillator.preparedDag keys order).nodes[hash]? = some node ∧
      enter ledger hash (oscillator.outcomeAt keys order ledger node) = some next := by
  unfold applyShift at hround
  rw [prepared_dag] at hround
  simp only [bind, Option.bind_eq_some_iff] at hround
  obtain ⟨node, hnode, henter⟩ := hround
  exact ⟨node, hnode, henter⟩

/-- A round appends its hash to the applied ones, moves the balances and marks the parties as active
exactly when it finds a transfer. -/
theorem enter_hashes {ledger next : Ledger} {hash : TxHash} {attempt : Attempt}
    (henter : enter ledger hash attempt = some next) :
    (∃ shift fee net, attempt = .transfer shift fee net ∧ next.hashes = ledger.hashes ++ [hash] ∧
      transferBalances ledger.balances shift net = some next.balances ∧
      next.activeAccounts = markActive ledger.activeAccounts shift) ∨
    ((∀ shift fee net, attempt ≠ .transfer shift fee net) ∧ next.hashes = ledger.hashes ∧
      next.balances = ledger.balances ∧ next.activeAccounts = ledger.activeAccounts) := by
  cases attempt with
  | transfer shift fee net =>
    simp only [enter, bind, Option.bind_eq_some_iff, pure, Option.some.injEq] at henter
    obtain ⟨balances, hbalances, rfl⟩ := henter
    exact .inl ⟨shift, fee, net, rfl, rfl, hbalances, rfl⟩
  | _ =>
    obtain rfl := Option.some.inj henter
    exact .inr ⟨fun _ _ _ ↦ Attempt.noConfusion, rfl, rfl, rfl⟩

/-- Everything that makes an attempt a transfer: the shift is neither rejected nor applied, its key
verifies it, its domain is known and has its quorum where it needs one, the fee is covered, and the
sender holds the amount. -/
structure Transfers (oscillator : Oscillator platform) (keys : KeyRegistry)
    (order : SynthesisOrder) (balances : ExtTreeMap AccountId ℕ) (node : DagNode)
    (fee net : ℕ) : Prop where
  status : node.status.isRejected = false
  fresh : node.applied = false
  verified : ∃ publicKey, keys[node.shift.sender]? = some publicKey ∧
    node.shift.verifySignature platform.primitives publicKey = true
  quorum : ∃ policy, oscillator.domainRegistry.get? node.shift.domain = some policy ∧
    (policy.ordering = .strict →
      oscillator.checkQuorum (order.views node.insertedAtTick) node.insertedAtTick ≠ none)
  fees : computeSignalFee oscillator.domainRegistry node.shift = .ok (fee, net)
  covered : node.shift.amount ≤ balances.getD node.shift.sender 0

/-- An attempt that is a transfer moves the shift of its node, under these conditions. -/
theorem attempt_transfer {oscillator : Oscillator platform} {keys : KeyRegistry}
    {order : SynthesisOrder} {balances : ExtTreeMap AccountId ℕ} {node : DagNode}
    {shift : StatefulShift} {fee net : ℕ}
    (hattempt : oscillator.attempt keys order balances node = .transfer shift fee net) :
    shift = node.shift ∧ Transfers oscillator keys order balances node fee net := by
  unfold attempt at hattempt
  by_cases hsettled : (node.status.isRejected || node.applied) = true
  · rw [if_pos hsettled] at hattempt
    cases hattempt
  rw [if_neg hsettled] at hattempt
  cases hkey : keys[node.shift.sender]? with
  | none => simp [hkey] at hattempt
  | some publicKey =>
    cases hverified : node.shift.verifySignature platform.primitives publicKey with
    | false => simp [hkey, hverified] at hattempt
    | true =>
      cases hpolicy : oscillator.domainRegistry.get? node.shift.domain with
      | none => simp [hkey, hverified, hpolicy] at hattempt
      | some policy =>
        by_cases hquorum : policy.ordering = .strict ∧
            oscillator.checkQuorum (order.views node.insertedAtTick) node.insertedAtTick = none
        · simp [hkey, hverified, hpolicy, hquorum] at hattempt
        · cases hfee : computeSignalFee oscillator.domainRegistry node.shift with
          | error text => simp [hkey, hverified, hpolicy, hquorum, hfee] at hattempt
          | ok amounts =>
            obtain ⟨fee', net'⟩ := amounts
            by_cases hcovered : balances.getD node.shift.sender 0 < node.shift.amount
            · simp [hkey, hverified, hpolicy, hquorum, hfee, hcovered] at hattempt
            · simp only [hkey, hverified, hpolicy, hquorum, hfee, hcovered, Bool.not_true,
                Bool.false_eq_true, if_false, Attempt.transfer.injEq] at hattempt
              obtain ⟨rfl, rfl, rfl⟩ := hattempt
              simp only [Bool.or_eq_true, not_or, Bool.not_eq_true] at hsettled
              refine ⟨rfl, hsettled.1, hsettled.2, ⟨publicKey, hkey, hverified⟩,
                ⟨policy, hpolicy, fun hstrict hnone ↦ hquorum ⟨hstrict, hnone⟩⟩, hfee, ?_⟩
              exact Nat.le_of_not_lt hcovered

/-- Under these conditions an attempt is a transfer. Assumes: the conditions of a transfer hold. -/
theorem Transfers.attempt_eq {oscillator : Oscillator platform} {keys : KeyRegistry}
    {order : SynthesisOrder} {balances : ExtTreeMap AccountId ℕ} {node : DagNode} {fee net : ℕ}
    (htransfers : Transfers oscillator keys order balances node fee net) :
    oscillator.attempt keys order balances node = .transfer node.shift fee net := by
  obtain ⟨publicKey, hkey, hverified⟩ := htransfers.verified
  obtain ⟨policy, hpolicy, hquorum⟩ := htransfers.quorum
  have hawaits : ¬(policy.ordering = .strict ∧
      oscillator.checkQuorum (order.views node.insertedAtTick) node.insertedAtTick = none) :=
    fun hboth ↦ hquorum hboth.1 hboth.2
  unfold attempt
  simp only [htransfers.status, htransfers.fresh, Bool.or_self, Bool.false_eq_true, if_false, hkey,
    hverified, Bool.not_true, hpolicy, hawaits, htransfers.fees,
    Nat.not_lt.mpr htransfers.covered]

/-- An attempt finds a shift settled exactly when it is rejected or applied. -/
theorem attempt_settled_iff (oscillator : Oscillator platform) (keys : KeyRegistry)
    (order : SynthesisOrder) (balances : ExtTreeMap AccountId ℕ) (node : DagNode) :
    oscillator.attempt keys order balances node = .settled ↔
      node.status.isRejected = true ∨ node.applied = true := by
  unfold attempt
  by_cases hsettled : (node.status.isRejected || node.applied) = true
  · rw [if_pos hsettled]
    simpa using hsettled
  · rw [if_neg hsettled]
    simp only [Bool.or_eq_true, not_or, Bool.not_eq_true] at hsettled
    simp only [hsettled.1, hsettled.2, Bool.false_eq_true, or_self, iff_false]
    repeat' split
    all_goals exact Attempt.noConfusion

/-- The hashes a loop applies: those at whose turn it finds a transfer. -/
theorem mem_loop_hashes_iff {oscillator : Oscillator platform} {keys : KeyRegistry}
    {order : SynthesisOrder} {placed : List TxHash} {ledger : Ledger}
    (hloop : placed.foldlM ((oscillator.prepared keys order).applyShift keys order)
      (oscillator.prepared keys order).openLedger = some ledger) (hash : TxHash) :
    hash ∈ ledger.hashes ↔ ∃ before after current node fee net,
      placed = before ++ hash :: after ∧
      before.foldlM ((oscillator.prepared keys order).applyShift keys order)
        (oscillator.prepared keys order).openLedger = some current ∧
      (oscillator.preparedDag keys order).nodes[hash]? = some node ∧
      oscillator.outcomeAt keys order current node = .transfer node.shift fee net := by
  induction placed using List.reverseRecOn generalizing ledger with
  | nil =>
    obtain rfl := Option.some.inj hloop
    simp [openLedger]
  | append_singleton placed last ih =>
    rw [List.foldlM_append, Option.bind_eq_bind, Option.bind_eq_some_iff] at hloop
    obtain ⟨current, hcurrent, hround⟩ := hloop
    rw [List.foldlM_cons, Option.bind_eq_bind, Option.bind_eq_some_iff] at hround
    obtain ⟨next, hround, hlast⟩ := hround
    obtain rfl : next = ledger := Option.some.inj hlast
    obtain ⟨node, hnode, henter⟩ := applyShift_eq_some hround
    have hsplit : ∀ before after, placed ++ [last] = before ++ hash :: after →
        (after = [] ∧ before = placed ∧ hash = last) ∨
        ∃ init, after = init ++ [last] ∧ placed = before ++ hash :: init := by
      intro before after heq
      rcases List.eq_nil_or_concat after with rfl | ⟨init, final, rfl⟩
      · obtain ⟨hbefore, hhash⟩ := List.append_inj' heq rfl
        exact .inl ⟨rfl, hbefore.symm, (List.singleton_inj.mp hhash).symm⟩
      · rw [List.concat_eq_append, ← List.cons_append, ← List.append_assoc] at heq
        obtain ⟨hplaced, hfinal⟩ := List.append_inj' heq rfl
        rw [List.singleton_inj] at hfinal
        exact .inr ⟨init, by rw [List.concat_eq_append, hfinal], hplaced⟩
    constructor
    · intro hmem
      rcases enter_hashes henter with ⟨shift, fee, net, hattempt, hhashes, -⟩ | ⟨-, hhashes, -⟩
      · rw [hhashes, List.mem_append, List.mem_singleton] at hmem
        rcases hmem with hearlier | rfl
        · obtain ⟨before, after, current', node', fee', net', rfl, hturn⟩ :=
            (ih hcurrent).mp hearlier
          exact ⟨before, after ++ [last], current', node', fee', net', by simp, hturn⟩
        · refine ⟨placed, [], current, node, fee, net, rfl, hcurrent, hnode, ?_⟩
          rw [hattempt, (attempt_transfer hattempt).1]
      · rw [hhashes] at hmem
        obtain ⟨before, after, current', node', fee', net', rfl, hturn⟩ := (ih hcurrent).mp hmem
        exact ⟨before, after ++ [last], current', node', fee', net', by simp, hturn⟩
    · rintro ⟨before, after, current', node', fee, net, heq, hbefore, hnode', hattempt⟩
      rcases hsplit before after heq with ⟨rfl, rfl, rfl⟩ | ⟨init, rfl, rfl⟩
      · rw [hcurrent, Option.some.injEq] at hbefore
        rw [hnode, Option.some.injEq] at hnode'
        subst hbefore hnode'
        rw [hattempt] at henter
        rcases enter_hashes henter with ⟨_, _, _, -, hhashes, -⟩ | ⟨hnot, -, -⟩
        · rw [hhashes]
          exact List.mem_append_right _ (List.mem_singleton.mpr rfl)
        · exact absurd rfl (hnot _ _ _)
      · have hearlier := (ih hcurrent).mpr
          ⟨before, init, current', node', fee, net, rfl, hbefore, hnode', hattempt⟩
        rcases enter_hashes henter with ⟨_, _, _, -, hhashes, -⟩ | ⟨-, hhashes, -⟩
        · rw [hhashes]
          exact List.mem_append_left _ hearlier
        · rw [hhashes]
          exact hearlier

/-- The hashes a loop applies are a sublist of those it visits. -/
theorem loop_hashes_sublist {oscillator : Oscillator platform} {keys : KeyRegistry}
    {order : SynthesisOrder} {placed : List TxHash} {initial ledger : Ledger}
    (hloop : placed.foldlM ((oscillator.prepared keys order).applyShift keys order) initial =
      some ledger) :
    ∃ applied, ledger.hashes = initial.hashes ++ applied ∧ applied.Sublist placed := by
  induction placed generalizing initial with
  | nil =>
    obtain rfl := Option.some.inj hloop
    exact ⟨[], (List.append_nil _).symm, List.Sublist.refl []⟩
  | cons hash placed ih =>
    rw [List.foldlM_cons, Option.bind_eq_bind, Option.bind_eq_some_iff] at hloop
    obtain ⟨next, hround, hrest⟩ := hloop
    obtain ⟨node, -, henter⟩ := applyShift_eq_some hround
    obtain ⟨applied, happlied, hsublist⟩ := ih hrest
    rcases enter_hashes henter with ⟨_, _, _, -, hhashes, -⟩ | ⟨-, hhashes, -⟩
    · refine ⟨hash :: applied, ?_, hsublist.cons_cons hash⟩
      rw [happlied, hhashes, List.append_assoc, List.singleton_append]
    · refine ⟨applied, ?_, hsublist.cons hash⟩
      rw [happlied, hhashes]

/-- A synthesis applies exactly the shifts at whose turn it finds a transfer. -/
theorem mem_applied_iff {oscillator final : Oscillator platform} {keys : KeyRegistry}
    {order : SynthesisOrder} {timestampNs : ℕ} {result : SynthesisResult} {hashes : List TxHash}
    (hsynthesize : oscillator.synthesize keys order timestampNs = some (final, result, hashes))
    (hash : TxHash) :
    hash ∈ hashes ↔ ∃ before ledger node fee net,
      Turn oscillator keys order before hash ledger node ∧
      oscillator.outcomeAt keys order ledger node = .transfer node.shift fee net := by
  rcases synthesize_cases hsynthesize with ⟨error, herror, -, rfl⟩ |
    ⟨placed, ledger, applied, root, decayed, rejected, horder, hloop, hfinish⟩
  · refine ⟨fun hmem ↦ absurd hmem List.not_mem_nil, ?_⟩
    rintro ⟨before, ledger, node, fee, net, hturn, -⟩
    obtain ⟨after, hplaced⟩ := hturn.placed
    rw [herror, Option.some.injEq] at hplaced
    cases hplaced
  · obtain ⟨_, _, _, _, _, -, rfl, -, -⟩ := finish_cases hfinish
    rw [mem_loop_hashes_iff hloop]
    constructor
    · rintro ⟨before, after, current, node, fee, net, rfl, hbefore, hnode, hattempt⟩
      exact ⟨before, current, node, fee, net, ⟨⟨after, horder⟩, hbefore, hnode⟩, hattempt⟩
    · rintro ⟨before, current, node, fee, net, hturn, hattempt⟩
      obtain ⟨after, hplaced⟩ := hturn.placed
      rw [horder, Option.some.injEq] at hplaced
      exact ⟨before, after, current, node, fee, net, Except.ok.inj hplaced, hturn.ledger_eq,
        hturn.node_eq, hattempt⟩

/-- The round at a turn succeeds, and leads to the ledger of the next turn. Assumes: the synthesis
returns. -/
theorem Turn.exists_next {oscillator final : Oscillator platform} {keys : KeyRegistry}
    {order : SynthesisOrder} {timestampNs : ℕ} {result : SynthesisResult} {hashes : List TxHash}
    (hsynthesize : oscillator.synthesize keys order timestampNs = some (final, result, hashes))
    {before : List TxHash} {hash : TxHash} {ledger : Ledger} {node : DagNode}
    (hturn : Turn oscillator keys order before hash ledger node) :
    ∃ next, enter ledger hash (oscillator.outcomeAt keys order ledger node) = some next := by
  obtain ⟨after, hplaced⟩ := hturn.placed
  rcases synthesize_cases hsynthesize with ⟨error, herror, -, -⟩ |
    ⟨placed, last, _, _, _, _, horder, hloop, -⟩
  · rw [hplaced] at herror
    cases herror
  · rw [hplaced, Option.some.injEq, Except.ok.injEq] at horder
    rw [← horder, List.foldlM_append, hturn.ledger_eq, Option.bind_eq_bind, Option.bind_some,
      List.foldlM_cons, Option.bind_eq_bind, Option.bind_eq_some_iff] at hloop
    obtain ⟨next, hround, -⟩ := hloop
    obtain ⟨node', hnode', henter⟩ := applyShift_eq_some hround
    rw [hturn.node_eq, Option.some.injEq] at hnode'
    exact ⟨next, hnode' ▸ henter⟩

/-- A turn before a turn: a hash placed earlier has its own turn, at an earlier ledger. Assumes: the
hash stands before the one at whose turn the loop is, and is a node. -/
theorem Turn.earlier {oscillator : Oscillator platform} {keys : KeyRegistry}
    {order : SynthesisOrder} {earlier between : List TxHash} {other hash : TxHash}
    {ledger : Ledger} {node other' : DagNode}
    (hturn : Turn oscillator keys order (earlier ++ other :: between) hash ledger node)
    (hother : (oscillator.preparedDag keys order).nodes[other]? = some other') :
    ∃ ledger', Turn oscillator keys order earlier other ledger' other' := by
  obtain ⟨after, hplaced⟩ := hturn.placed
  have hledger := hturn.ledger_eq
  rw [List.foldlM_append, Option.bind_eq_bind, Option.bind_eq_some_iff] at hledger
  obtain ⟨ledger', hledger', -⟩ := hledger
  refine ⟨ledger', ⟨between ++ hash :: after, ?_⟩, hledger', hother⟩
  rw [hplaced, List.append_assoc, List.cons_append]

end Fluidic.Consensus.Oscillator
