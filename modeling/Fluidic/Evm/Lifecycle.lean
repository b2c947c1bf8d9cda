import Fluidic.Evm.Pool
import Fluidic.Library.LabelledRun

/-!
# The life of an EVM transaction

A pool receives transactions and is synthesized into ticks. `PoolRun` carries, next to the pool, the
hashes that the syntheses of the run reported as applied, in order. `Consistent` says how the queue,
the three maps and these hashes belong together; it holds before and after every request, and in
the middle of a synthesis of the transactions that are still to run.

The interpreter is a field of a state that it may keep at will, so what it answers to one call can
depend on everything before: it is any oracle. Nonces are 64-bit counters.
-/

set_option autoImplicit false
set_option relaxedAutoImplicit false

namespace Fluidic.Evm

open Library Crypto
open Std (ExtTreeMap LawfulEqCmp)

variable {revm : Revm}

/-! ### Runs of a pool -/

/-- A pool and the hashes applied since the run began. -/
structure PoolRun (revm : Revm) where
  pool : EvmPool revm
  appliedHashes : List H256

/-- A request to a pool. A synthesis is given the balances it starts from. -/
inductive PoolRequest
  | submit (tx : EvmTransaction) (nowNs : ℕ)
  | synthesize (order : IterationOrder EvmAddress) (balances : ExtTreeMap AccountId ℕ) (tick : ℕ)

namespace PoolRun

/-- The run that has not begun. -/
def start : PoolRun revm := ⟨EvmPool.new, []⟩

/-- Serve a request. -/
def serve (prim : Primitives) (state : PoolRun revm) :
    PoolRequest → Option (PoolRun revm × ExtTreeMap AccountId ℕ)
  | .submit tx nowNs => some (⟨state.pool.submit tx nowNs, state.appliedHashes⟩, ∅)
  | .synthesize order balances tick =>
    (state.pool.synthesize prim order balances tick).map fun (pool, balances, applied) ↦
      (⟨pool, state.appliedHashes ++ applied⟩, balances)

/-- The transactions of a sender that were applied, in order. -/
def successes (state : PoolRun revm) (sender : EvmAddress) : List EvmTransaction :=
  (state.appliedHashes.filterMap fun hash ↦ state.pool.transactions[hash]?).filter
    fun tx ↦ tx.sender = sender

end PoolRun

/-! ### One transaction -/

/-- What running a transaction does to the pool and to the hashes applied. The three cases are a
wrong nonce, a run that did not succeed and one that did. -/
inductive Outcome (tx : EvmTransaction) (state : PoolRun revm) : PoolRun revm → Prop
  | invalidNonce (reason : String) :
      Outcome tx state
        { state with pool := { state.pool with
            statuses := state.pool.statuses.insert tx.hash (.failed reason) } }
  | failed (reason : String) (receipt : EvmReceipt) (hstatus : receipt.status = 0) :
      Outcome tx state
        { state with pool := { state.pool with
            statuses := state.pool.statuses.insert tx.hash (.failed reason)
            receipts := state.pool.receipts.insert tx.hash receipt } }
  | success (receipt : EvmReceipt) (hstatus : receipt.status = 1)
      (hnonce : tx.nonce = state.pool.nonces.getD tx.sender 0) :
      Outcome tx state
        { pool := { state.pool with
            nonces := state.pool.nonces.insert tx.sender (wrappingAdd 64 tx.nonce 1)
            statuses := state.pool.statuses.insert tx.hash .success
            receipts := state.pool.receipts.insert tx.hash receipt }
          appliedHashes := state.appliedHashes ++ [tx.hash] }

/-- A synthesis under way, as a run that had applied some hashes before it. -/
def EvmProgress.toRun (before : List H256) (progress : EvmProgress revm) : PoolRun revm :=
  ⟨progress.pool, before ++ progress.appliedHashes⟩

/-- Running a transaction has one of the outcomes. -/
theorem outcome_applyTransaction (prim : Primitives) (tick : ℕ) (before : List H256)
    (progress : EvmProgress revm) (entry : EvmTransaction × ℕ) :
    Outcome entry.1 (progress.toRun before)
      ((EvmPool.applyTransaction prim tick progress entry).toRun before) := by
  obtain ⟨tx, index⟩ := entry
  unfold EvmPool.applyTransaction
  dsimp only
  by_cases hnonce : tx.nonce ≠ progress.pool.nonces.getD tx.sender 0
  · rw [if_pos hnonce]
    exact .invalidNonce _
  · rw [if_neg hnonce]
    rw [not_not] at hnonce
    cases houtcome : EvmPool.failure (progress.executor.execute tx).2 with
    | some reason => exact .failed reason _ rfl
    | none =>
      dsimp only [EvmProgress.toRun]
      rw [← List.append_assoc, ← hnonce]
      exact .success _ rfl hnonce

/-- Whatever the outcome, the transaction is resolved, and the index of transactions and the queue
stay as they were. -/
theorem Outcome.resolves {tx : EvmTransaction} {state state' : PoolRun revm}
    (houtcome : Outcome tx state state') :
    ∃ status, status ≠ .pending ∧
      state'.pool.statuses = state.pool.statuses.insert tx.hash status ∧
      state'.pool.transactions = state.pool.transactions ∧
      state'.pool.pending = state.pool.pending := by
  cases houtcome with
  | invalidNonce reason => exact ⟨.failed reason, by simp, rfl, rfl, rfl⟩
  | failed reason receipt hstatus => exact ⟨.failed reason, by simp, rfl, rfl, rfl⟩
  | success receipt hstatus hnonce => exact ⟨.success, by simp, rfl, rfl, rfl⟩

/-! ### The queue and the statuses -/

/-- A queue of distinct transactions that are indexed, and these are the ones with status pending.
-/
structure Queued (queue : List EvmTransaction) (pool : EvmPool revm) : Prop where
  distinct : (queue.map EvmTransaction.hash).Nodup
  indexed : ∀ tx ∈ queue, pool.transactions[tx.hash]? = some tx
  pending : ∀ hash, pool.statuses[hash]? = some .pending ↔ ∃ tx ∈ queue, tx.hash = hash

/-- A later pool knows every transaction of an earlier one and has not changed the status of a
resolved one. -/
structure Settles (pool pool' : EvmPool revm) : Prop where
  known : ∀ hash ∈ pool.statuses, hash ∈ pool'.statuses
  resolved : ∀ (hash : H256) (status : EvmTxStatus), status ≠ .pending →
    pool.statuses[hash]? = some status → pool'.statuses[hash]? = some status

/-- Nothing has happened. -/
theorem Settles.refl (pool : EvmPool revm) : Settles pool pool :=
  ⟨fun _ hmem ↦ hmem, fun _ _ _ hstatus ↦ hstatus⟩

/-- What is settled stays settled. Assumes: three pools, one after the other. -/
theorem Settles.trans {first second third : EvmPool revm} (hfirst : Settles first second)
    (hsecond : Settles second third) : Settles first third :=
  ⟨fun hash hmem ↦ hsecond.known hash (hfirst.known hash hmem), fun hash status hresolved hstatus ↦
    hsecond.resolved hash status hresolved (hfirst.resolved hash status hresolved hstatus)⟩

/-- Recording a status for a hash that had none, or a pending one, settles. Assumes: the hash had no
status or a pending one, and the later pool records the status. -/
theorem settles_of_insert {pool pool' : EvmPool revm} (hash : H256) (status : EvmTxStatus)
    (hstatuses : pool'.statuses = pool.statuses.insert hash status)
    (hopen : ∀ earlier, pool.statuses[hash]? = some earlier → earlier = .pending) :
    Settles pool pool' := by
  refine ⟨fun other hmem ↦ ?_, fun other earlier hresolved hearlier ↦ ?_⟩
  · rw [hstatuses, ExtTreeMap.mem_insert]
    exact .inr hmem
  · have hne : hash ≠ other := by
      rintro rfl
      exact hresolved (hopen earlier hearlier)
    rwa [hstatuses, getElem?_insert_of_ne _ hne]

/-- A submission leaves the pool alone when the hash of the transaction has a status, and otherwise
queues it, stamped with the time. -/
theorem submit_cases (pool : EvmPool revm) (tx : EvmTransaction) (nowNs : ℕ) :
    (tx.hash ∈ pool.statuses ∧ pool.submit tx nowNs = pool) ∨
      (tx.hash ∉ pool.statuses ∧ ∃ stamped : EvmTransaction, stamped.hash = tx.hash ∧
        pool.submit tx nowNs = { pool with
          statuses := pool.statuses.insert stamped.hash .pending
          transactions := pool.transactions.insert stamped.hash stamped
          pending := pool.pending ++ [stamped] }) := by
  unfold EvmPool.submit
  by_cases hknown : tx.hash ∈ pool.statuses
  · exact .inl ⟨hknown, if_pos (ExtTreeMap.contains_iff_mem.mpr hknown)⟩
  · have hhash : (if tx.firstSeenAtNs = 0 then { tx with firstSeenAtNs := nowNs } else tx).hash =
        tx.hash := by
      split_ifs <;> rfl
    exact .inr ⟨hknown, _, hhash, if_neg (mt ExtTreeMap.contains_iff_mem.mp hknown)⟩

namespace Queued

/-- A queue that is rearranged is still queued. Assumes: the queue was queued before it was
rearranged. -/
theorem perm {queue queue' : List EvmTransaction} {pool : EvmPool revm}
    (hqueued : Queued queue pool) (hperm : queue'.Perm queue) : Queued queue' pool where
  distinct := (hperm.map EvmTransaction.hash).nodup_iff.mpr hqueued.distinct
  indexed tx htx := hqueued.indexed tx (hperm.mem_iff.mp htx)
  pending hash := by
    simp only [hqueued.pending hash, hperm.mem_iff]

/-- Resolving the first transaction leaves the others queued. Assumes: the transactions were queued,
and the pool changed no more than the status of the first one. -/
theorem resolve {tx : EvmTransaction} {rest : List EvmTransaction} {pool pool' : EvmPool revm}
    {status : EvmTxStatus} (hqueued : Queued (tx :: rest) pool) (hresolved : status ≠ .pending)
    (hstatuses : pool'.statuses = pool.statuses.insert tx.hash status)
    (htransactions : pool'.transactions = pool.transactions) : Queued rest pool' where
  distinct := (List.nodup_cons.mp hqueued.distinct).2
  indexed other hother := by
    rw [htransactions]
    exact hqueued.indexed other (List.mem_cons_of_mem _ hother)
  pending hash := by
    have hfirst : tx.hash ∉ rest.map EvmTransaction.hash :=
      (List.nodup_cons.mp hqueued.distinct).1
    rw [hstatuses, ExtTreeMap.getElem?_insert]
    split_ifs with heq
    · rw [LawfulEqCmp.compare_eq_iff_eq] at heq
      refine ⟨fun hpending ↦ absurd (Option.some.inj hpending) hresolved, ?_⟩
      rintro ⟨other, hother, hsame⟩
      exact absurd (List.mem_map.mpr ⟨other, hother, hsame.trans heq.symm⟩) hfirst
    · rw [LawfulEqCmp.compare_eq_iff_eq] at heq
      rw [hqueued.pending hash]
      constructor
      · rintro ⟨other, hother, hsame⟩
        rcases List.mem_cons.mp hother with rfl | hrest
        · exact absurd hsame heq
        · exact ⟨other, hrest, hsame⟩
      · rintro ⟨other, hother, hsame⟩
        exact ⟨other, List.mem_cons_of_mem _ hother, hsame⟩

/-- A queued transaction has a pending status. Assumes: the transaction is in the queue. -/
theorem status_of_mem {queue : List EvmTransaction} {pool : EvmPool revm} {tx : EvmTransaction}
    (hqueued : Queued queue pool) (htx : tx ∈ queue) : pool.statuses[tx.hash]? = some .pending :=
  (hqueued.pending tx.hash).mpr ⟨tx, htx, rfl⟩

/-- Submitting a transaction queues it, unless its hash has a status. Assumes: the
pending transactions of the pool are queued. -/
theorem submit {pool : EvmPool revm} (hqueued : Queued pool.pending pool) (tx : EvmTransaction)
    (nowNs : ℕ) : Queued (pool.submit tx nowNs).pending (pool.submit tx nowNs) := by
  rcases submit_cases pool tx nowNs with ⟨_, heq⟩ | ⟨hunknown, stamped, hhash, heq⟩
  · rwa [heq]
  have hnew : ∀ other ∈ pool.pending, other.hash ≠ stamped.hash := by
    intro other hother hsame
    rw [← hhash, ← hsame] at hunknown
    exact hunknown (ExtTreeMap.isSome_getElem?_iff_mem.mp
      (Option.isSome_of_eq_some (hqueued.status_of_mem hother)))
  rw [heq]
  refine ⟨?_, fun other hother ↦ ?_, fun hash ↦ ?_⟩
  · dsimp only
    rw [List.map_append, List.nodup_append]
    refine ⟨hqueued.distinct, List.nodup_singleton _, fun first hfirst second hsecond ↦ ?_⟩
    obtain ⟨other, hother, rfl⟩ := List.mem_map.mp hfirst
    obtain rfl := List.mem_singleton.mp hsecond
    exact hnew other hother
  · dsimp only
    rw [ExtTreeMap.getElem?_insert]
    rcases List.mem_append.mp hother with hearlier | hlast
    · rw [if_neg (mt LawfulEqCmp.compare_eq_iff_eq.mp (hnew other hearlier).symm)]
      exact hqueued.indexed other hearlier
    · obtain rfl := List.mem_singleton.mp hlast
      exact if_pos (LawfulEqCmp.compare_eq_iff_eq.mpr rfl)
  · dsimp only
    rw [ExtTreeMap.getElem?_insert]
    simp only [LawfulEqCmp.compare_eq_iff_eq, List.mem_append, List.mem_singleton, or_and_right,
      exists_or, exists_eq_left]
    split_ifs with hsame
    · exact iff_of_true rfl (.inr hsame)
    · rw [hqueued.pending hash]
      exact (or_iff_left hsame).symm

end Queued

/-! ### The whole bookkeeping -/

/-- A run, with the transactions it still has to run: the queue, the nonces, the receipts and the
hashes applied agree with the statuses. -/
structure Consistent (queue : List EvmTransaction) (state : PoolRun revm) : Prop
    extends Queued queue state.pool where
  transactions : ∀ hash ∈ state.pool.statuses, ∃ tx : EvmTransaction,
    state.pool.transactions[hash]? = some tx ∧ tx.hash = hash
  applied : ∀ hash : H256, hash ∈ state.appliedHashes ↔
    state.pool.statuses[hash]? = some .success
  once : state.appliedHashes.Nodup
  numbered : ∀ sender, (state.successes sender).map EvmTransaction.nonce =
    (List.range (state.successes sender).length).map (· % 2 ^ 64)
  counted : ∀ sender, state.pool.nonces.getD sender 0 =
    (state.successes sender).length % 2 ^ 64
  receipts : ∀ hash : H256, (∃ receipt : EvmReceipt, state.pool.receipts[hash]? = some receipt ∧
    receipt.status = 1) ↔ state.pool.statuses[hash]? = some .success

/-- Nothing has been submitted. -/
theorem consistent_start : Consistent [] (PoolRun.start : PoolRun revm) where
  distinct := List.nodup_nil
  indexed tx htx := absurd htx List.not_mem_nil
  pending hash := by simp [PoolRun.start, EvmPool.new]
  transactions hash hmem := absurd hmem ExtTreeMap.not_mem_empty
  applied hash := by simp [PoolRun.start, EvmPool.new]
  once := List.nodup_nil
  numbered sender := rfl
  counted sender := by simp [PoolRun.start, EvmPool.new, PoolRun.successes]
  receipts hash := by simp [PoolRun.start, EvmPool.new]

namespace Consistent

variable {tx : EvmTransaction} {queue rest : List EvmTransaction} {state state' : PoolRun revm}

/-- The successes of a sender do not change while no transaction is applied. -/
theorem successes_congr (hhashes : state'.appliedHashes = state.appliedHashes)
    (htransactions : ∀ hash ∈ state.appliedHashes,
      state'.pool.transactions[hash]? = state.pool.transactions[hash]?) (sender : EvmAddress) :
    state'.successes sender = state.successes sender := by
  unfold PoolRun.successes
  rw [hhashes]
  congr 1
  exact List.filterMap_congr htransactions

/-- A failed transaction leaves the bookkeeping consistent. Assumes: the transaction was the first
of the queue, it got a reason, and no receipt that reports a success. -/
theorem fail (hconsistent : Consistent (tx :: rest) state) {reason : String}
    (hstatuses : state'.pool.statuses = state.pool.statuses.insert tx.hash (.failed reason))
    (htransactions : state'.pool.transactions = state.pool.transactions)
    (hnonces : state'.pool.nonces = state.pool.nonces)
    (hreceipts : ∀ hash : H256, hash ≠ tx.hash →
      state'.pool.receipts[hash]? = state.pool.receipts[hash]?)
    (hfailed : ∀ receipt : EvmReceipt, state'.pool.receipts[tx.hash]? = some receipt →
      receipt.status ≠ 1)
    (hhashes : state'.appliedHashes = state.appliedHashes) : Consistent rest state' := by
  have hpending := hconsistent.status_of_mem List.mem_cons_self
  have hsuccess (hash : H256) : state'.pool.statuses[hash]? = some .success ↔
      state.pool.statuses[hash]? = some .success := by
    rw [hstatuses, ExtTreeMap.getElem?_insert]
    split_ifs with hsame
    · obtain rfl := LawfulEqCmp.compare_eq_iff_eq.mp hsame
      simp [hpending]
    · rfl
  have hsuccesses := successes_congr hhashes fun hash _ ↦
    congrArg (fun index : ExtTreeMap H256 EvmTransaction ↦ index[hash]?) htransactions
  refine ⟨hconsistent.toQueued.resolve (by simp) hstatuses htransactions, ?_, ?_, ?_, ?_, ?_, ?_⟩
  · intro hash hmem
    rw [hstatuses, ExtTreeMap.mem_insert, LawfulEqCmp.compare_eq_iff_eq] at hmem
    rw [htransactions]
    rcases hmem with rfl | hmem
    · exact ⟨tx, hconsistent.indexed tx List.mem_cons_self, rfl⟩
    · exact hconsistent.transactions hash hmem
  · intro hash
    rw [hhashes, hconsistent.applied, hsuccess]
  · rw [hhashes]
    exact hconsistent.once
  · intro sender
    rw [hsuccesses]
    exact hconsistent.numbered sender
  · intro sender
    rw [hsuccesses, hnonces]
    exact hconsistent.counted sender
  · intro hash
    rw [hsuccess, ← hconsistent.receipts]
    by_cases hsame : hash = tx.hash
    · subst hsame
      refine iff_of_false (fun ⟨receipt, hreceipt, hone⟩ ↦ hfailed receipt hreceipt hone) ?_
      rw [hconsistent.receipts, hpending]
      simp
    · rw [hreceipts hash hsame]

/-- Applying the first transaction of the queue adds it to the successes of its sender. Assumes: the
bookkeeping is consistent, and the first transaction of the queue is applied. -/
theorem successes_apply (hconsistent : Consistent (tx :: rest) state)
    (htransactions : state'.pool.transactions = state.pool.transactions)
    (hhashes : state'.appliedHashes = state.appliedHashes ++ [tx.hash]) (sender : EvmAddress) :
    state'.successes sender =
      state.successes sender ++ if tx.sender = sender then [tx] else [] := by
  unfold PoolRun.successes
  rw [hhashes, htransactions, List.filterMap_append, List.filter_append]
  congr 1
  rw [List.filterMap_cons, hconsistent.indexed tx List.mem_cons_self, List.filterMap_nil]
  simp [List.filter_cons]

/-- A transaction that succeeds leaves the bookkeeping consistent. Assumes: the transaction was the
first of the queue, it carried the number of its sender's successes, and its receipt reports the
success. -/
theorem succeed (hconsistent : Consistent (tx :: rest) state) {receipt : EvmReceipt}
    (hstatuses : state'.pool.statuses = state.pool.statuses.insert tx.hash .success)
    (htransactions : state'.pool.transactions = state.pool.transactions)
    (hnonce : tx.nonce = state.pool.nonces.getD tx.sender 0)
    (hnonces : state'.pool.nonces =
      state.pool.nonces.insert tx.sender (wrappingAdd 64 tx.nonce 1))
    (hreceipts : state'.pool.receipts = state.pool.receipts.insert tx.hash receipt)
    (hstatus : receipt.status = 1)
    (hhashes : state'.appliedHashes = state.appliedHashes ++ [tx.hash]) :
    Consistent rest state' := by
  have hpending := hconsistent.status_of_mem List.mem_cons_self
  have hsuccess (hash : H256) : state'.pool.statuses[hash]? = some .success ↔
      hash = tx.hash ∨ state.pool.statuses[hash]? = some .success := by
    rw [hstatuses, ExtTreeMap.getElem?_insert]
    split_ifs with hsame
    · exact iff_of_true rfl (.inl (LawfulEqCmp.compare_eq_iff_eq.mp hsame).symm)
    · rw [LawfulEqCmp.compare_eq_iff_eq] at hsame
      exact (or_iff_right (Ne.symm hsame)).symm
  have hsuccesses := hconsistent.successes_apply htransactions hhashes
  refine ⟨hconsistent.toQueued.resolve (by simp) hstatuses htransactions, ?_, ?_, ?_, ?_, ?_, ?_⟩
  · intro hash hmem
    rw [hstatuses, ExtTreeMap.mem_insert, LawfulEqCmp.compare_eq_iff_eq] at hmem
    rw [htransactions]
    rcases hmem with rfl | hmem
    · exact ⟨tx, hconsistent.indexed tx List.mem_cons_self, rfl⟩
    · exact hconsistent.transactions hash hmem
  · intro hash
    rw [hhashes, List.mem_append, List.mem_singleton, hconsistent.applied, hsuccess, or_comm]
  · rw [hhashes, List.nodup_append]
    refine ⟨hconsistent.once, List.nodup_singleton _, fun first hfirst second hsecond hsame ↦ ?_⟩
    rw [List.mem_singleton] at hsecond
    rw [hsame, hsecond, hconsistent.applied, hpending] at hfirst
    simp at hfirst
  · intro sender
    rw [hsuccesses]
    split_ifs with hsender
    · subst hsender
      rw [List.map_append, hconsistent.numbered, List.length_append, List.length_singleton,
        List.range_succ, List.map_append, List.map_singleton, List.map_singleton, hnonce,
        hconsistent.counted]
    · rw [List.append_nil]
      exact hconsistent.numbered sender
  · intro sender
    rw [hsuccesses, hnonces, ExtTreeMap.getD_insert]
    simp only [LawfulEqCmp.compare_eq_iff_eq]
    split_ifs with hsender
    · subst hsender
      rw [hnonce, hconsistent.counted, wrappingAdd, Nat.mod_add_mod, List.length_append,
        List.length_singleton]
    · rw [List.append_nil]
      exact hconsistent.counted sender
  · intro hash
    rw [hsuccess, ← hconsistent.receipts, hreceipts, ExtTreeMap.getElem?_insert]
    split_ifs with hsame
    · exact iff_of_true ⟨receipt, rfl, hstatus⟩ (.inl (LawfulEqCmp.compare_eq_iff_eq.mp hsame).symm)
    · rw [LawfulEqCmp.compare_eq_iff_eq] at hsame
      exact (or_iff_right (Ne.symm hsame)).symm

/-- Running the first transaction of the queue leaves the bookkeeping consistent, whatever the
outcome. Assumes: the bookkeeping is consistent, and the first transaction has the outcome. -/
theorem outcome (hconsistent : Consistent (tx :: rest) state)
    (houtcome : Outcome tx state state') : Consistent rest state' := by
  have hunreceipted : ∀ receipt : EvmReceipt, state.pool.receipts[tx.hash]? = some receipt →
      receipt.status ≠ 1 := by
    intro receipt hreceipt hone
    have hsuccess := (hconsistent.receipts tx.hash).mp ⟨receipt, hreceipt, hone⟩
    rw [hconsistent.status_of_mem List.mem_cons_self] at hsuccess
    simp at hsuccess
  cases houtcome with
  | invalidNonce reason =>
    exact hconsistent.fail rfl rfl rfl (fun _ _ ↦ rfl) hunreceipted rfl
  | failed reason receipt hstatus =>
    refine hconsistent.fail rfl rfl rfl (fun hash hne ↦ ?_) (fun other hother ↦ ?_) rfl
    · rw [getElem?_insert_of_ne _ hne.symm]
    · rw [ExtTreeMap.getElem?_insert_self] at hother
      obtain rfl := Option.some.inj hother
      rw [hstatus]
      exact Nat.zero_ne_one
  | success receipt hstatus hnonce =>
    exact hconsistent.succeed rfl rfl hnonce rfl rfl hstatus rfl

end Consistent

/-! ### A synthesis -/

/-- What every outcome keeps of the first transaction of a queue holds, after a synthesis, of the
empty queue. Assumes: the property holds of the sorted queue before, each outcome keeps it, and the
synthesis succeeds. -/
theorem synthesize_invariant {prim : Primitives} {pool pool' : EvmPool revm}
    {property : List EvmTransaction → PoolRun revm → Prop} {before applied : List H256}
    {order : IterationOrder EvmAddress} {balances balances' : ExtTreeMap AccountId ℕ} {tick : ℕ}
    (hstart : ∀ queue : List EvmTransaction, queue.Perm pool.pending →
      property queue ⟨{ pool with pending := [] }, before⟩)
    (houtcome : ∀ tx rest state state', property (tx :: rest) state → Outcome tx state state' →
      property rest state')
    (hsynthesize : pool.synthesize prim order balances tick = some (pool', balances', applied)) :
    ∃ (final : EvmPool revm) (db : revm.Db), property [] ⟨final, before ++ applied⟩ ∧
      pool' = { final with db } := by
  have hfold (entries : List (EvmTransaction × ℕ)) (progress : EvmProgress revm)
      (hproperty : property (entries.map Prod.fst) (progress.toRun before)) :
      property [] ((entries.foldl (EvmPool.applyTransaction prim tick) progress).toRun before) := by
    induction entries generalizing progress with
    | nil => exact hproperty
    | cons entry rest ih =>
      exact ih _ (houtcome entry.1 _ _ _ hproperty
        (outcome_applyTransaction prim tick before progress entry))
  unfold EvmPool.synthesize at hsynthesize
  obtain ⟨written, _, hresult⟩ := Option.bind_eq_some_iff.mp hsynthesize
  obtain ⟨rfl, _, rfl⟩ := Prod.mk.injEq .. ▸ Option.some.inj hresult
  refine ⟨_, _, hfold _ _ ?_, rfl⟩
  rw [List.zipIdx_map_fst]
  unfold EvmProgress.toRun
  rw [List.append_nil]
  exact hstart _ (List.perm_insertionSort _ _)

/-- A synthesis empties the queue. Assumes: the synthesis succeeds. -/
theorem pending_synthesize {prim : Primitives} {pool pool' : EvmPool revm} {applied : List H256}
    {order : IterationOrder EvmAddress} {balances balances' : ExtTreeMap AccountId ℕ} {tick : ℕ}
    (hsynthesize : pool.synthesize prim order balances tick = some (pool', balances', applied)) :
    pool'.pending = [] := by
  obtain ⟨final, db, hempty, rfl⟩ := @synthesize_invariant _ _ _ _
    (fun _ state ↦ state.pool.pending = []) [] _ _ _ _ _ (fun _ _ ↦ rfl)
    (fun _ _ _ _ hbefore houtcome ↦ by
      obtain ⟨_, _, _, _, hpending⟩ := houtcome.resolves
      exact hpending.trans hbefore) hsynthesize
  exact hempty

/-- A queue of which the transactions are resolved one after the other, since a given pool: what
remains is queued, and the statuses of that pool were settled. -/
structure Draining (pool : EvmPool revm) (queue : List EvmTransaction) (state : PoolRun revm) :
    Prop where
  queued : Queued queue state.pool
  settles : Settles pool state.pool

/-- Running the first transaction drains the queue by it. Assumes: the state drains the queue. -/
theorem Draining.outcome {pool : EvmPool revm} {tx : EvmTransaction} {rest : List EvmTransaction}
    {state state' : PoolRun revm} (hdraining : Draining pool (tx :: rest) state)
    (houtcome : Outcome tx state state') : Draining pool rest state' := by
  obtain ⟨status, hresolved, hstatuses, htransactions, _⟩ := houtcome.resolves
  have hopen : ∀ earlier, state.pool.statuses[tx.hash]? = some earlier → earlier = .pending := by
    intro earlier hearlier
    rw [hdraining.queued.status_of_mem List.mem_cons_self] at hearlier
    exact (Option.some.inj hearlier).symm
  exact ⟨hdraining.queued.resolve hresolved hstatuses htransactions,
    hdraining.settles.trans (settles_of_insert _ _ hstatuses hopen)⟩

/-- A synthesis empties the queue and settles the statuses. Assumes: the pool has the transactions
of its queue indexed and pending, and the synthesis succeeds. -/
theorem Queued.synthesize {prim : Primitives} {pool pool' : EvmPool revm} {applied : List H256}
    {order : IterationOrder EvmAddress} {balances balances' : ExtTreeMap AccountId ℕ} {tick : ℕ}
    (hqueued : Queued pool.pending pool)
    (hsynthesize : pool.synthesize prim order balances tick = some (pool', balances', applied)) :
    pool'.pending = [] ∧ Queued [] pool' ∧ Settles pool pool' := by
  have hstart : ∀ queue : List EvmTransaction, queue.Perm pool.pending →
      Draining pool queue ⟨{ pool with pending := [] }, []⟩ := by
    intro queue hperm
    have hsorted := hqueued.perm hperm
    exact ⟨⟨hsorted.distinct, hsorted.indexed, hsorted.pending⟩,
      ⟨fun _ hmem ↦ hmem, fun _ _ _ hstatus ↦ hstatus⟩⟩
  have hempty := pending_synthesize hsynthesize
  obtain ⟨final, db, hfinal, rfl⟩ :=
    synthesize_invariant hstart (fun _ _ _ _ ↦ Draining.outcome) hsynthesize
  exact ⟨hempty, ⟨List.nodup_nil, hfinal.queued.indexed, hfinal.queued.pending⟩,
    hfinal.settles.known, hfinal.settles.resolved⟩

/-- A synthesis resolves every transaction of the queue. Assumes: the pool has the transactions of
its queue indexed and pending, and the synthesis succeeds. -/
theorem Queued.resolved_of_synthesize {prim : Primitives} {pool pool' : EvmPool revm}
    {applied : List H256} {order : IterationOrder EvmAddress}
    {balances balances' : ExtTreeMap AccountId ℕ} {tick : ℕ} (hqueued : Queued pool.pending pool)
    (hsynthesize : pool.synthesize prim order balances tick = some (pool', balances', applied)) :
    ∀ tx ∈ pool.pending, ∃ status, status ≠ .pending ∧
      pool'.statuses[tx.hash]? = some status := by
  intro tx htx
  obtain ⟨_, hnone, hsettles⟩ := hqueued.synthesize hsynthesize
  have hknown : tx.hash ∈ pool'.statuses :=
    hsettles.known tx.hash (ExtTreeMap.isSome_getElem?_iff_mem.mp
      (Option.isSome_of_eq_some (hqueued.status_of_mem htx)))
  obtain ⟨status, hstatus⟩ :=
    mem_iff_exists_getElem?.mp hknown
  refine ⟨status, ?_, hstatus⟩
  rintro rfl
  obtain ⟨_, hmem, _⟩ := (hnone.pending tx.hash).mp hstatus
  exact List.not_mem_nil hmem

/-- A synthesis leaves the bookkeeping consistent. Assumes: the bookkeeping is consistent before,
and the synthesis succeeds. -/
theorem Consistent.synthesize {prim : Primitives} {state : PoolRun revm} {pool' : EvmPool revm}
    {applied : List H256} {order : IterationOrder EvmAddress}
    {balances balances' : ExtTreeMap AccountId ℕ} {tick : ℕ}
    (hconsistent : Consistent state.pool.pending state)
    (hsynthesize : state.pool.synthesize prim order balances tick =
      some (pool', balances', applied)) :
    Consistent [] ⟨pool', state.appliedHashes ++ applied⟩ := by
  have hstart : ∀ queue : List EvmTransaction, queue.Perm state.pool.pending →
      Consistent queue ⟨{ state.pool with pending := [] }, state.appliedHashes⟩ := by
    intro queue hperm
    have hsorted := hconsistent.toQueued.perm hperm
    exact ⟨⟨hsorted.distinct, hsorted.indexed, hsorted.pending⟩, hconsistent.transactions,
      hconsistent.applied, hconsistent.once, hconsistent.numbered, hconsistent.counted,
      hconsistent.receipts⟩
  obtain ⟨final, db, hfinal, rfl⟩ :=
    synthesize_invariant hstart (fun _ _ _ _ ↦ Consistent.outcome) hsynthesize
  exact ⟨⟨hfinal.distinct, hfinal.indexed, hfinal.pending⟩, hfinal.transactions, hfinal.applied,
    hfinal.once, hfinal.numbered, hfinal.counted, hfinal.receipts⟩

/-! ### Runs -/

/-- Submitting a transaction settles what the pool knew. -/
theorem settles_submit (pool : EvmPool revm) (tx : EvmTransaction) (nowNs : ℕ) :
    Settles pool (pool.submit tx nowNs) := by
  rcases submit_cases pool tx nowNs with ⟨_, heq⟩ | ⟨hunknown, stamped, hhash, heq⟩
  · rw [heq]
    exact Settles.refl pool
  · rw [heq]
    refine settles_of_insert stamped.hash .pending rfl fun earlier hearlier ↦ absurd ?_ hunknown
    rw [hhash] at hearlier
    exact mem_iff_exists_getElem?.mpr ⟨_, hearlier⟩

/-- Submitting a transaction leaves the bookkeeping consistent. Assumes: the bookkeeping is
consistent before. -/
theorem Consistent.submit {state : PoolRun revm} (hconsistent : Consistent state.pool.pending state)
    (tx : EvmTransaction) (nowNs : ℕ) :
    Consistent (state.pool.submit tx nowNs).pending
      ⟨state.pool.submit tx nowNs, state.appliedHashes⟩ := by
  have hqueued := hconsistent.toQueued.submit tx nowNs
  rcases submit_cases state.pool tx nowNs with ⟨_, heq⟩ | ⟨hunknown, stamped, hhash, heq⟩
  · rwa [heq]
  rw [heq] at hqueued ⊢
  have hnew : ∀ hash ∈ state.appliedHashes, stamped.hash ≠ hash := by
    rintro hash happlied rfl
    rw [hconsistent.applied, hhash] at happlied
    exact hunknown (mem_iff_exists_getElem?.mpr ⟨_, happlied⟩)
  have hsuccess (hash : H256) :
      (state.pool.statuses.insert stamped.hash .pending)[hash]? = some .success ↔
        state.pool.statuses[hash]? = some .success := by
    rw [ExtTreeMap.getElem?_insert]
    split_ifs with hsame
    · rw [LawfulEqCmp.compare_eq_iff_eq] at hsame
      refine iff_of_false (by simp) fun hsuccess ↦ ?_
      exact hnew hash ((hconsistent.applied hash).mpr hsuccess) hsame
    · rfl
  have hindex : ∀ hash ∈ state.appliedHashes,
      (state.pool.transactions.insert stamped.hash stamped)[hash]? =
        state.pool.transactions[hash]? := by
    intro hash happlied
    rw [ExtTreeMap.getElem?_insert,
      if_neg (mt LawfulEqCmp.compare_eq_iff_eq.mp (hnew hash happlied))]
  have hsuccesses := @Consistent.successes_congr _ state ⟨{ state.pool with
    statuses := state.pool.statuses.insert stamped.hash .pending
    transactions := state.pool.transactions.insert stamped.hash stamped
    pending := state.pool.pending ++ [stamped] }, state.appliedHashes⟩ rfl hindex
  refine ⟨hqueued, ?_, ?_, hconsistent.once, ?_, ?_, ?_⟩
  · intro hash hmem
    rw [ExtTreeMap.mem_insert, LawfulEqCmp.compare_eq_iff_eq] at hmem
    dsimp only
    rw [ExtTreeMap.getElem?_insert]
    split_ifs with hsame
    · exact ⟨stamped, rfl, LawfulEqCmp.compare_eq_iff_eq.mp hsame⟩
    · rw [LawfulEqCmp.compare_eq_iff_eq] at hsame
      exact hconsistent.transactions hash (hmem.resolve_left hsame)
  · intro hash
    rw [hsuccess]
    exact hconsistent.applied hash
  · intro sender
    rw [hsuccesses]
    exact hconsistent.numbered sender
  · intro sender
    rw [hsuccesses]
    exact hconsistent.counted sender
  · intro hash
    rw [hsuccess]
    exact hconsistent.receipts hash

namespace PoolRun

/-- Serving a request leaves the bookkeeping consistent and settles what was known. Assumes: the
bookkeeping was consistent, and the request is served. -/
theorem consistent_serve {prim : Primitives} {state state' : PoolRun revm} {request : PoolRequest}
    {written : ExtTreeMap AccountId ℕ} (hconsistent : Consistent state.pool.pending state)
    (hserve : state.serve prim request = some (state', written)) :
    Consistent state'.pool.pending state' ∧ Settles state.pool state'.pool := by
  cases request with
  | submit tx nowNs =>
    obtain ⟨rfl, _⟩ := Prod.mk.injEq .. ▸ Option.some.inj hserve
    exact ⟨hconsistent.submit tx nowNs, settles_submit state.pool tx nowNs⟩
  | synthesize order balances tick =>
    obtain ⟨⟨pool, balances', applied⟩, hsynthesize, hresult⟩ := Option.map_eq_some_iff.mp hserve
    obtain ⟨rfl, rfl⟩ := Prod.mk.injEq .. ▸ hresult
    obtain ⟨hempty, _, hsettles⟩ := hconsistent.toQueued.synthesize hsynthesize
    have hfinal := hconsistent.synthesize hsynthesize
    rw [← hempty] at hfinal
    exact ⟨hfinal, hsettles⟩

/-- Every run keeps the bookkeeping consistent and settles what its first pool knew. Assumes: the
bookkeeping is consistent where the run starts. -/
theorem consistent_of_reaches {prim : Primitives} {first state : PoolRun revm}
    (hconsistent : Consistent first.pool.pending first)
    {history : List (PoolRun revm × PoolRequest)}
    (hreaches : Reaches (serve prim) anyStep first history state) :
    Consistent state.pool.pending state ∧ Settles first.pool state.pool := by
  refine @Reaches.invariant _ _ _ _ _ _ (fun state : PoolRun revm ↦
    Consistent state.pool.pending state ∧ Settles first.pool state.pool)
    ⟨hconsistent, Settles.refl _⟩ (fun _ _ _ _ _ hbefore hserve ↦ ?_) _ _ hreaches
  have hafter := consistent_serve hbefore.1 hserve
  exact ⟨hafter.1, hbefore.2.trans hafter.2⟩

/-- The life of an EVM transaction, in every state that a run reaches and for every interpreter. The
transactions applied of each sender carry the nonces 0, 1, 2 and so on, in order, and the nonce of
the sender is their number. No hash is applied twice, and those applied are the ones with status
success, each of an indexed transaction. A receipt reports a success exactly when the status does.
What the next synthesis drains gets a final status, which no later request changes. Assumes: the run
starts with an empty pool and reaches the state. -/
theorem lifecycle (prim : Primitives) {history : List (PoolRun revm × PoolRequest)}
    {state : PoolRun revm} (hreaches : Reaches (serve prim) anyStep start history state) :
    (∀ sender,
      (state.successes sender).map EvmTransaction.nonce =
        (List.range (state.successes sender).length).map (· % 2 ^ 64) ∧
      state.pool.nonces.getD sender 0 = (state.successes sender).length % 2 ^ 64) ∧
    (state.appliedHashes.Nodup ∧ ∀ hash : H256,
      (hash ∈ state.appliedHashes ↔ state.pool.statuses[hash]? = some .success) ∧
      (hash ∈ state.appliedHashes →
        ∃ tx, state.pool.transactions[hash]? = some tx ∧ tx.hash = hash)) ∧
    (∀ hash : H256, (∃ receipt, state.pool.receipts[hash]? = some receipt ∧ receipt.status = 1) ↔
      state.pool.statuses[hash]? = some .success) ∧
    ∀ order balances tick drained written,
      state.serve prim (.synthesize order balances tick) = some (drained, written) →
      ∀ tx ∈ state.pool.pending, ∃ status, status ≠ .pending ∧ ∀ later final,
        Reaches (serve prim) anyStep drained later final →
        final.pool.statuses[tx.hash]? = some status := by
  obtain ⟨hconsistent, _⟩ := consistent_of_reaches consistent_start hreaches
  refine ⟨fun sender ↦ ⟨hconsistent.numbered sender, hconsistent.counted sender⟩,
    ⟨hconsistent.once, fun hash ↦ ⟨hconsistent.applied hash, fun happlied ↦ ?_⟩⟩,
    hconsistent.receipts, ?_⟩
  · rw [hconsistent.applied] at happlied
    exact hconsistent.transactions hash
      (mem_iff_exists_getElem?.mpr ⟨_, happlied⟩)
  · intro order balances tick drained written hserve tx htx
    obtain ⟨hdrained, hsettles⟩ := consistent_serve hconsistent hserve
    obtain ⟨⟨pool, balances', applied⟩, hsynthesize, hresult⟩ := Option.map_eq_some_iff.mp hserve
    obtain ⟨rfl, rfl⟩ := Prod.mk.injEq .. ▸ hresult
    obtain ⟨status, hresolved, hstatus⟩ :=
      hconsistent.toQueued.resolved_of_synthesize hsynthesize tx htx
    exact ⟨status, hresolved, fun later final hlater ↦
      (consistent_of_reaches hdrained hlater).2.resolved tx.hash status hresolved hstatus⟩

/-- Two transfers of a sender, out of order, one of them twice, and a third one with a gap in the
nonces, with two syntheses. -/
def gappedQueue : List PoolRequest :=
  [.submit (.sample 1 1 (some 2) 3 1) 5, .submit (.sample 2 1 (some 2) 4 0) 5,
    .submit (.sample 2 1 (some 2) 4 0) 6,
    .synthesize .forward (ExtTreeMap.ofList [(evmAddressToFluidic Primitives.sample 1, 10)]) 0,
    .submit (.sample 3 1 (some 2) 1 3) 7, .submit (.sample 2 1 (some 2) 4 0) 8,
    .synthesize .forward (ExtTreeMap.ofList [(evmAddressToFluidic Primitives.sample 1, 3)]) 1]

/-- A run in which two transactions are applied and one fails. -/
theorem lifecycle_gappedQueue :
    ∃ (history : List (PoolRun Revm.ledger × PoolRequest)) (state : PoolRun Revm.ledger),
      Reaches (serve Primitives.sample) anyStep start history state ∧
      history.map Prod.snd = gappedQueue ∧
      (state.successes 1).map EvmTransaction.nonce = [0, 1] ∧
      state.pool.nonces.getD 1 0 = 2 ∧ state.appliedHashes.Nodup ∧
      ∀ hash : H256, (∃ receipt, state.pool.receipts[hash]? = some receipt ∧ receipt.status = 1) ↔
        state.pool.statuses[hash]? = some .success := by
  have hruns : ((run (serve Primitives.sample) anyStep (@start Revm.ledger)
      gappedQueue).map fun state ↦ (state.successes 1).map EvmTransaction.nonce) =
      some [0, 1] := by
    decide +kernel
  obtain ⟨state, hrun, hnonces⟩ := Option.map_eq_some_iff.mp hruns
  obtain ⟨history, hinputs, hreaches⟩ := reaches_of_run hrun
  obtain ⟨hnumbered, ⟨honce, _⟩, hreceipts, _⟩ := lifecycle Primitives.sample hreaches
  refine ⟨history, state, hreaches, hinputs, hnonces, ?_, honce, hreceipts⟩
  rw [(hnumbered 1).2, ← List.length_map EvmTransaction.nonce, hnonces]
  rfl

end PoolRun

end Fluidic.Evm
