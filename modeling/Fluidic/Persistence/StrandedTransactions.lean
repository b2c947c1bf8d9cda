import Fluidic.Evm.Lifecycle
import Fluidic.Persistence.RoundTrip

/-!
# EVM transactions across a restart

A snapshot has the statuses of the EVM transactions and not the queue. A transaction that was
pending when the snapshot was taken is pending in the node that loads it, but in no queue, and a
submission ignores it because its hash has a status. `Unstranded` says that the statuses and the
queue agree; submissions and syntheses keep it, and a restart keeps it exactly when the queue was
empty. None of these events stores a shift, so every save succeeds (`exists_restart`).
-/

set_option autoImplicit false
set_option relaxedAutoImplicit false

namespace Fluidic.Persistence

open Library Crypto Consensus Operator Evm
open Std (ExtTreeMap)

variable {platform : Platform}

/-! ### Runs with restarts -/

/-- What happens to the pool of a node. A restart saves the node and loads the snapshot into a new
one. -/
inductive PoolEvent
  | submit (tx : EvmTransaction) (nowNs : ℕ)
  | synthesize (order : IterationOrder EvmAddress) (balances : ExtTreeMap AccountId ℕ) (tick : ℕ)
  | restart (order : SaveOrder) (nttSize : ℕ) (operatorKeypair : Option KeyPair)
      (stakeTable : StakeTable)

/-- The node after an event. -/
def servePool (oscillator : Oscillator platform) :
    PoolEvent → Option (Oscillator platform × ExtTreeMap AccountId ℕ)
  | .submit tx nowNs =>
    some ({ oscillator with evmPool := oscillator.evmPool.submit tx nowNs }, ∅)
  | .synthesize order balances tick =>
    (oscillator.evmPool.synthesize platform.primitives order balances tick).map
      fun (evmPool, balances, _) ↦ ({ oscillator with evmPool }, balances)
  | .restart order nttSize operatorKeypair stakeTable =>
    ((save oscillator order).bind fun snapshot ↦
      load (Oscillator.create nttSize operatorKeypair stakeTable) (some snapshot)).toOption.map
        fun loaded ↦ (loaded, ∅)

/-- A restart finds an empty queue. -/
def RestartsEmpty (oscillator : Oscillator platform) : PoolEvent → Prop
  | .restart _ _ _ _ => oscillator.evmPool.pending = []
  | _ => True

instance (oscillator : Oscillator platform) :
    (event : PoolEvent) → Decidable (RestartsEmpty oscillator event)
  | .restart _ _ _ _ => inferInstanceAs (Decidable (oscillator.evmPool.pending = []))
  | .submit _ _ => isTrue trivial
  | .synthesize _ _ _ => isTrue trivial

/-- The pending transactions are the queued ones. -/
def Unstranded (pool : EvmPool platform.revm) : Prop :=
  ∀ hash : H256, pool.statuses[hash]? = some .pending ↔ ∃ tx ∈ pool.pending, tx.hash = hash

/-! ### One event -/

/-- A restart empties the queue and keeps the statuses. Assumes: the restart succeeds. -/
theorem restart_eq {oscillator next : Oscillator platform} {order : SaveOrder} {nttSize : ℕ}
    {operatorKeypair : Option KeyPair} {stakeTable : StakeTable}
    {written : ExtTreeMap AccountId ℕ}
    (hserve : servePool oscillator (.restart order nttSize operatorKeypair stakeTable) =
      some (next, written)) :
    next.evmPool.pending = [] ∧ next.evmPool.statuses = oscillator.evmPool.statuses := by
  obtain ⟨loaded, hloaded, hresult⟩ := Option.map_eq_some_iff.mp hserve
  obtain ⟨rfl, _⟩ := Prod.mk.inj hresult
  cases hsave : save oscillator order with
  | error text =>
    rw [hsave] at hloaded
    cases hloaded
  | ok snapshot =>
    obtain ⟨-, rfl⟩ := save_eq_ok_iff.mp hsave
    rw [hsave] at hloaded
    obtain rfl := Option.some.inj hloaded
    exact ⟨rfl, evmStatuses_readSnapshot oscillator _ order⟩

/-- A node that stores no shift can be restarted, and stores none afterwards. Assumes: the node
stores no shift. -/
theorem exists_restart {oscillator : Oscillator platform} (hnone : oscillator.dag.nodes = ∅)
    (order : SaveOrder) (nttSize : ℕ) (operatorKeypair : Option KeyPair)
    (stakeTable : StakeTable) :
    ∃ next, servePool oscillator (.restart order nttSize operatorKeypair stakeTable) =
      some (next, ∅) ∧ next.dag.nodes = ∅ := by
  have habsent {hash : TxHash} {node : DagNode} (hnode : oscillator.dag.nodes[hash]? = some node) :
      False := by
    rw [hnone, ExtTreeMap.getElem?_empty] at hnode
    cases hnode
  have hsave : save oscillator order = .ok (snapshotOf oscillator order) :=
    save_eq_ok_iff.mpr ⟨fun _ _ hnode ↦ (habsent hnode).elim, rfl⟩
  refine ⟨readSnapshot (Oscillator.create nttSize operatorKeypair stakeTable)
    (snapshotOf oscillator order), ?_, ?_⟩
  · show Option.map _ ((save oscillator order).bind _).toOption = _
    rw [hsave]
    rfl
  · refine (restore_nodes order fun _ _ hnode ↦ (habsent hnode).elim).trans ?_
    rw [hnone]
    refine ExtTreeMap.ext_getElem? fun hash ↦ ?_
    rw [ExtTreeMap.getElem?_map, ExtTreeMap.getElem?_empty]
    rfl

/-- No event stores a shift. Assumes: the node stored none, and serves the event. -/
theorem nodes_servePool {oscillator next : Oscillator platform} {event : PoolEvent}
    {written : ExtTreeMap AccountId ℕ} (hnone : oscillator.dag.nodes = ∅)
    (hserve : servePool oscillator event = some (next, written)) : next.dag.nodes = ∅ := by
  cases event with
  | submit tx nowNs =>
    obtain ⟨rfl, _⟩ := Prod.mk.inj (Option.some.inj hserve)
    exact hnone
  | synthesize order balances tick =>
    obtain ⟨_, _, hresult⟩ := Option.map_eq_some_iff.mp hserve
    obtain ⟨rfl, _⟩ := Prod.mk.inj hresult
    exact hnone
  | restart order nttSize operatorKeypair stakeTable =>
    obtain ⟨next', hserve', hnone'⟩ :=
      exists_restart hnone order nttSize operatorKeypair stakeTable
    obtain ⟨rfl, _⟩ := Prod.mk.inj (Option.some.inj (hserve'.symm.trans hserve))
    exact hnone'

/-- After a restart the statuses and the queue agree exactly when the queue was empty before.
Assumes: the statuses and the queue agreed before, and the restart succeeds. -/
theorem unstranded_restart_iff {oscillator next : Oscillator platform} {order : SaveOrder}
    {nttSize : ℕ} {operatorKeypair : Option KeyPair} {stakeTable : StakeTable}
    {written : ExtTreeMap AccountId ℕ} (hunstranded : Unstranded oscillator.evmPool)
    (hserve : servePool oscillator (.restart order nttSize operatorKeypair stakeTable) =
      some (next, written)) :
    Unstranded next.evmPool ↔ oscillator.evmPool.pending = [] := by
  obtain ⟨hempty, hstatuses⟩ := restart_eq hserve
  unfold Unstranded
  rw [hempty, hstatuses]
  constructor
  · intro hafter
    refine List.eq_nil_iff_forall_not_mem.mpr fun tx htx ↦ ?_
    obtain ⟨_, hmem, _⟩ := (hafter tx.hash).mp ((hunstranded tx.hash).mpr ⟨tx, htx, rfl⟩)
    exact List.not_mem_nil hmem
  · intro hbefore hash
    rw [hunstranded hash, hbefore]

/-- Every event keeps the queue and the statuses together. Assumes: the queue and the statuses were
together, and a restart finds an empty queue. -/
theorem queued_servePool {oscillator next : Oscillator platform} {event : PoolEvent}
    {written : ExtTreeMap AccountId ℕ} (hallowed : RestartsEmpty oscillator event)
    (hqueued : Queued oscillator.evmPool.pending oscillator.evmPool)
    (hserve : servePool oscillator event = some (next, written)) :
    Queued next.evmPool.pending next.evmPool := by
  cases event with
  | submit tx nowNs =>
    obtain ⟨rfl, _⟩ := Prod.mk.inj (Option.some.inj hserve)
    exact hqueued.submit tx nowNs
  | synthesize order balances tick =>
    obtain ⟨⟨pool, balances', applied⟩, hsynthesize, hresult⟩ := Option.map_eq_some_iff.mp hserve
    obtain ⟨rfl, _⟩ := Prod.mk.inj hresult
    obtain ⟨hempty, hnone, _⟩ := hqueued.synthesize hsynthesize
    show Queued pool.pending pool
    rwa [hempty]
  | restart order nttSize operatorKeypair stakeTable =>
    have hafter := (unstranded_restart_iff hqueued.pending hserve).mpr hallowed
    obtain ⟨hempty, _⟩ := restart_eq hserve
    refine ⟨?_, ?_, hafter⟩
    · rw [hempty]
      exact List.nodup_nil
    · rw [hempty]
      exact fun tx htx ↦ absurd htx List.not_mem_nil

/-- A transaction that is neither queued nor resolved is queued when it is submitted. Assumes: the
statuses and the queue agree, and the transaction. -/
theorem submit_queues {pool : EvmPool platform.revm} (hunstranded : Unstranded pool)
    (tx : EvmTransaction) (nowNs : ℕ) (hunqueued : ∀ queued ∈ pool.pending, queued.hash ≠ tx.hash)
    (hunresolved : ∀ status, pool.statuses[tx.hash]? = some status → status = .pending) :
    ∃ queued ∈ (pool.submit tx nowNs).pending, queued.hash = tx.hash := by
  have hunknown : tx.hash ∉ pool.statuses := by
    intro hknown
    obtain ⟨status, hstatus⟩ :=
      mem_iff_exists_getElem?.mp hknown
    obtain rfl := hunresolved status hstatus
    obtain ⟨queued, hmem, hsame⟩ := (hunstranded tx.hash).mp hstatus
    exact hunqueued queued hmem hsame
  rcases submit_cases pool tx nowNs with ⟨hknown, _⟩ | ⟨_, stamped, hhash, heq⟩
  · exact absurd hknown hunknown
  · rw [heq]
    exact ⟨stamped, List.mem_append_right _ List.mem_cons_self, hhash⟩

/-! ### Runs -/

/-- In every run whose restarts find an empty queue, the pending transactions are the queued ones,
the next synthesis resolves them, and a transaction that is neither queued nor resolved is queued
when it is submitted. A restart from a state of such a run is possible, and keeps the first exactly
when it finds an empty queue. Assumes: every restart of the run finds an empty queue. -/
theorem unstranded_of_reaches {nttSize : ℕ} {operatorKeypair : Option KeyPair}
    {stakeTable : StakeTable} {history : List (Oscillator platform × PoolEvent)}
    {oscillator : Oscillator platform}
    (hreaches : Reaches servePool RestartsEmpty
      (Oscillator.create nttSize operatorKeypair stakeTable) history oscillator) :
    Unstranded oscillator.evmPool ∧
    (∀ order balances tick next written,
      servePool oscillator (.synthesize order balances tick) = some (next, written) →
      ∀ tx ∈ oscillator.evmPool.pending, ∃ status, status ≠ .pending ∧
        next.evmPool.statuses[tx.hash]? = some status) ∧
    (∀ (tx : EvmTransaction) (nowNs : ℕ),
      (∀ queued ∈ oscillator.evmPool.pending, queued.hash ≠ tx.hash) →
      (∀ status, oscillator.evmPool.statuses[tx.hash]? = some status → status = .pending) →
      ∃ queued ∈ (oscillator.evmPool.submit tx nowNs).pending, queued.hash = tx.hash) ∧
    ∀ order nttSize operatorKeypair stakeTable, ∃ next,
      servePool oscillator (.restart order nttSize operatorKeypair stakeTable) = some (next, ∅) ∧
      (Unstranded next.evmPool ↔ oscillator.evmPool.pending = []) := by
  have hstart : Queued (Oscillator.create nttSize operatorKeypair stakeTable :
      Oscillator platform).evmPool.pending
      (Oscillator.create nttSize operatorKeypair stakeTable : Oscillator platform).evmPool :=
    consistent_start.toQueued
  have hqueued : Queued oscillator.evmPool.pending oscillator.evmPool :=
    @Reaches.invariant _ _ _ _ _ _ (fun state : Oscillator platform ↦
      Queued state.evmPool.pending state.evmPool) hstart
      (fun _ _ _ _ hallowed hbefore hserve ↦ queued_servePool hallowed hbefore hserve) _ _ hreaches
  have hnone : oscillator.dag.nodes = ∅ :=
    @Reaches.invariant _ _ _ _ _ _ (fun state : Oscillator platform ↦ state.dag.nodes = ∅) rfl
      (fun _ _ _ _ _ hbefore hserve ↦ nodes_servePool hbefore hserve) _ _ hreaches
  refine ⟨hqueued.pending, fun order balances tick next written hserve ↦ ?_,
    submit_queues hqueued.pending, fun order nttSize operatorKeypair stakeTable ↦ ?_⟩
  · obtain ⟨⟨pool, balances', applied⟩, hsynthesize, hresult⟩ := Option.map_eq_some_iff.mp hserve
    obtain ⟨rfl, _⟩ := Prod.mk.inj hresult
    exact hqueued.resolved_of_synthesize hsynthesize
  · obtain ⟨next, hserve, -⟩ := exists_restart hnone order nttSize operatorKeypair stakeTable
    exact ⟨next, hserve, unstranded_restart_iff hqueued.pending hserve⟩

/-- A restart of a node into a new one of the same size, without an operator. -/
def PoolEvent.sampleRestart : PoolEvent := .restart .forward 8 none (.new .default)

/-- A transaction that is synthesized before a restart, and one that is submitted after it. -/
def quietRestart : List PoolEvent :=
  [.submit (.sample 1 1 (some 2) 3 0) 5, .synthesize .forward ∅ 0, .sampleRestart,
    .submit (.sample 2 1 (some 2) 4 0) 6]

/-- A run with a restart that finds an empty queue. -/
theorem unstranded_of_reaches_quietRestart :
    ∃ (history : List (Oscillator Platform.sample × PoolEvent))
      (oscillator : Oscillator Platform.sample),
      Reaches servePool RestartsEmpty (Oscillator.newWithKeypair 8) history oscillator ∧
      history.map Prod.snd = quietRestart ∧ oscillator.evmPool.pending.length = 1 ∧
      Unstranded oscillator.evmPool := by
  have hruns : ((run servePool RestartsEmpty
      (Oscillator.newWithKeypair 8 : Oscillator Platform.sample) quietRestart).map
        fun oscillator ↦ oscillator.evmPool.pending.length) = some 1 := by
    decide +kernel
  obtain ⟨oscillator, hrun, hpending⟩ := Option.map_eq_some_iff.mp hruns
  obtain ⟨history, hinputs, hreaches⟩ := reaches_of_run hrun
  exact ⟨history, oscillator, hreaches, hinputs, hpending, (unstranded_of_reaches hreaches).1⟩

/-- A transaction that is pending when the node is saved has status pending after the restart, is in
no queue, and is not queued when it is submitted again. -/
theorem strandedTransaction :
    ∃ oscillator : Oscillator Platform.sample,
      run servePool anyStep (Oscillator.newWithKeypair 8)
        [.submit (.sample 1 1 (some 2) 3 0) 5, .sampleRestart] = some oscillator ∧
      oscillator.evmPool.statuses[(EvmTransaction.sample 1 1 (some 2) 3 0).hash]? =
        some .pending ∧
      oscillator.evmPool.pending = [] ∧
      (oscillator.evmPool.submit (.sample 1 1 (some 2) 3 0) 6).pending = [] ∧
      ¬ Unstranded oscillator.evmPool := by
  have hruns : ((run servePool anyStep (Oscillator.newWithKeypair 8 : Oscillator Platform.sample)
      [.submit (.sample 1 1 (some 2) 3 0) 5, .sampleRestart]).map fun oscillator ↦
        (oscillator.evmPool.statuses[(EvmTransaction.sample 1 1 (some 2) 3 0).hash]?,
          oscillator.evmPool.pending,
          (oscillator.evmPool.submit (.sample 1 1 (some 2) 3 0) 6).pending)) =
      some (some .pending, [], []) := by
    decide +kernel
  obtain ⟨oscillator, hrun, hresult⟩ := Option.map_eq_some_iff.mp hruns
  obtain ⟨hstatus, hrest⟩ := Prod.mk.inj hresult
  obtain ⟨hpending, hresubmitted⟩ := Prod.mk.inj hrest
  refine ⟨oscillator, hrun, hstatus, hpending, hresubmitted, fun hunstranded ↦ ?_⟩
  obtain ⟨_, hmem, _⟩ := (hunstranded _).mp hstatus
  rw [hpending] at hmem
  exact List.not_mem_nil hmem

end Fluidic.Persistence
