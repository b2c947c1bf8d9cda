import Fluidic.Evm.Lifecycle
import Mathlib.Algebra.BigOperators.Group.Finset.Piecewise
import Mathlib.Data.Fintype.EquivFin

/-!
# Fluidic value and the EVM

A tick seeds the addresses that its transactions name with their Fluidic balances, runs the
transactions, and writes the balances of the same addresses back. The interpreter keeps the total of
its database. The Fluidic total is kept when no transaction moves value between the named addresses
and the others, and no named address with a balance is stored as one that does not exist
(`Confined`). Value that a contract forwards to an address that is not named, or that a creation
puts into a new contract, leaves the Fluidic balances, and so does the balance of a named address
that the interpreter has stored as not existing.
-/

set_option autoImplicit false
set_option relaxedAutoImplicit false

namespace Fluidic.Evm

open Library Crypto
open Std (ExtTreeMap ExtTreeSet LawfulEqCmp ReflCmp)

/-- There are finitely many addresses. -/
instance : Fintype EvmAddress :=
  Fintype.ofEquiv (Fin (2 ^ 160)) ⟨BitVec.ofFin, BitVec.toFin, fun _ ↦ rfl, fun _ ↦ rfl⟩

variable {revm : Revm}

/-! ### What the interpreter is assumed to do -/

/-- What a set of addresses holds in a database. -/
def held (addresses : Finset EvmAddress) (db : revm.Db) : ℕ :=
  ∑ address ∈ addresses, revm.basicBalance db address

/-- What is assumed of the interpreter. An account that is inserted where none is stored is stored
with its balance, and exists; a lookup finds the stored accounts that exist; and a transaction
without a gas price keeps the total of all balances. -/
structure Conserving (revm : Revm) : Prop where
  insert : ∀ (db : revm.Db) (address : EvmAddress) (info : AccountInfo),
    db.accounts[address]? = none → ∃ account : DbAccount, account.info.balance = info.balance ∧
      account.accountState ≠ .notExisting ∧
      (revm.insertAccountInfo db address info).accounts = db.accounts.insert address account
  basic : ∀ (db : revm.Db) (address : EvmAddress),
    revm.basic db address = db.accounts[address]?.bind fun account ↦
      if account.accountState = .notExisting then none else some account.info
  transact : ∀ (db : revm.Db) (tx : EvmTransaction), tx.gasPrice = 0 →
    held Finset.univ (revm.transactCommit db tx).1 = held Finset.univ db

/-- The database after the transactions of a list have run, one after the other, those with a wrong
nonce left out. -/
def executed (nonces : ExtTreeMap EvmAddress ℕ) (db : revm.Db) : List EvmTransaction → revm.Db
  | [] => db
  | tx :: rest =>
    if tx.nonce ≠ nonces.getD tx.sender 0 then executed nonces db rest
    else
      match EvmPool.failure (revm.transactCommit db tx).2 with
      | some _ => executed nonces (revm.transactCommit db tx).1 rest
      | none => executed (nonces.insert tx.sender (wrappingAdd 64 tx.nonce 1))
          (revm.transactCommit db tx).1 rest

/-- Running transactions without a gas price keeps the total. Assumes: the interpreter does for
each, and none has a gas price. -/
theorem held_executed (hrevm : Conserving revm) (txs : List EvmTransaction)
    (hfree : ∀ tx ∈ txs, tx.gasPrice = 0) (nonces : ExtTreeMap EvmAddress ℕ) (db : revm.Db) :
    held Finset.univ (executed nonces db txs) = held Finset.univ db := by
  induction txs generalizing nonces db with
  | nil => rfl
  | cons tx rest ih =>
    have hrest := ih fun other hother ↦ hfree other (List.mem_cons_of_mem _ hother)
    have hfirst := hrevm.transact db tx (hfree tx List.mem_cons_self)
    unfold executed
    split
    · exact hrest nonces db
    · split
      · exact (hrest _ _).trans hfirst
      · exact (hrest _ _).trans hfirst

/-- The loop of a synthesis leaves the database in which its transactions ran. -/
theorem db_foldl_applyTransaction (prim : Primitives) (tick : ℕ)
    (entries : List (EvmTransaction × ℕ)) (progress : EvmProgress revm) :
    (entries.foldl (EvmPool.applyTransaction prim tick) progress).executor.db =
      executed progress.pool.nonces progress.executor.db (entries.map Prod.fst) := by
  induction entries generalizing progress with
  | nil => rfl
  | cons entry rest ih =>
    obtain ⟨tx, index⟩ := entry
    rw [List.foldl_cons, ih, List.map_cons, executed]
    unfold EvmPool.applyTransaction
    dsimp only
    by_cases hnonce : tx.nonce ≠ progress.pool.nonces.getD tx.sender 0
    · rw [if_pos hnonce, if_pos hnonce]
    · rw [if_neg hnonce, if_neg hnonce]
      rw [not_not] at hnonce
      have houtcome : (progress.executor.execute tx).2 =
        (revm.transactCommit progress.executor.db tx).2 := rfl
      rw [← houtcome]
      cases EvmPool.failure (progress.executor.execute tx).2 with
      | some reason => rfl
      | none =>
        rw [hnonce]
        rfl

/-! ### The addresses of a tick -/

/-- The addresses that the pending transactions name. -/
def named (txs : List EvmTransaction) : Finset EvmAddress := (EvmPool.parties txs).toFinset

/-- Whether an address is stored as one that does not exist. -/
def InMemoryDb.missing {Rest : Type} (db : InMemoryDb Rest) (address : EvmAddress) : Bool :=
  db.accounts[address]?.any fun account ↦ decide (account.accountState = .notExisting)

/-- The balance that a lookup finds is that of the stored account, if it exists. Assumes: the
interpreter looks up what is stored. -/
theorem basicBalance_eq (hrevm : Conserving revm) (db : revm.Db) (address : EvmAddress) :
    revm.basicBalance db address = if db.missing address then 0
      else db.accounts[address]?.elim 0 fun account ↦ account.info.balance := by
  unfold Revm.basicBalance InMemoryDb.missing
  rw [hrevm.basic]
  cases db.accounts[address]? with
  | none => rfl
  | some account =>
    by_cases hmissing : account.accountState = .notExisting
    · simp [hmissing]
    · simp [hmissing]

/-- The account that seeding stores: one with the balance, which exists unless it was stored as one
that does not. Assumes: the interpreter inserts accounts. -/
theorem seedBalanceNonce_accounts (hrevm : Conserving revm) (executor : EvmExecutor revm)
    (address : EvmAddress) (balance nonce : ℕ) :
    ∃ account : DbAccount, account.info.balance = balance ∧
      (account.accountState = .notExisting ↔ executor.db.missing address = true) ∧
      (executor.seedBalanceNonce address balance nonce).db.accounts =
        executor.db.accounts.insert address account := by
  unfold EvmExecutor.seedBalanceNonce InMemoryDb.missing
  dsimp only
  cases hstored : executor.db.accounts[address]? with
  | none =>
    obtain ⟨account, hbalance, hexists, hinsert⟩ :=
      hrevm.insert executor.db address ⟨balance, nonce, 0, none⟩ hstored
    exact ⟨account, hbalance, iff_of_false hexists Bool.false_ne_true, hinsert⟩
  | some account =>
    exact ⟨{ account with info := { account.info with balance, nonce } }, rfl,
      decide_eq_true_iff.symm, rfl⟩

/-- Seeding makes no stored address one that exists, and none one that does not. Assumes: the
interpreter inserts accounts. -/
theorem missing_seedBalanceNonce (hrevm : Conserving revm) (executor : EvmExecutor revm)
    (address : EvmAddress) (balance nonce : ℕ) (other : EvmAddress) :
    (executor.seedBalanceNonce address balance nonce).db.missing other =
      executor.db.missing other := by
  obtain ⟨account, -, hstate, haccounts⟩ :=
    seedBalanceNonce_accounts hrevm executor address balance nonce
  unfold InMemoryDb.missing
  rw [haccounts, ExtTreeMap.getElem?_insert]
  split_ifs with hsame
  · obtain rfl := LawfulEqCmp.compare_eq_iff_eq.mp hsame
    exact Bool.eq_iff_iff.mpr (decide_eq_true_iff.trans hstate)
  · rfl

/-- Seeding gives an address its balance, if it is not stored as one that does not exist, and leaves
the others alone. Assumes: the interpreter inserts accounts and looks them up. -/
theorem basicBalance_seedBalanceNonce (hrevm : Conserving revm) (executor : EvmExecutor revm)
    (address : EvmAddress) (balance nonce : ℕ) (other : EvmAddress) :
    revm.basicBalance (executor.seedBalanceNonce address balance nonce).db other =
      if other = address then (if executor.db.missing address then 0 else balance)
      else revm.basicBalance executor.db other := by
  obtain ⟨account, hbalance, -, haccounts⟩ :=
    seedBalanceNonce_accounts hrevm executor address balance nonce
  rw [basicBalance_eq hrevm, missing_seedBalanceNonce hrevm, basicBalance_eq hrevm, haccounts,
    ExtTreeMap.getElem?_insert]
  by_cases hsame : other = address
  · subst hsame
    rw [if_pos rfl, if_pos ReflCmp.compare_self, ← hbalance]
    rfl
  · rw [if_neg hsame, if_neg fun heq ↦ hsame (LawfulEqCmp.compare_eq_iff_eq.mp heq).symm]

/-- After the seeding the named addresses hold their Fluidic balances, but for those that are stored
as not existing, and the others what they held. Assumes: the interpreter inserts accounts and looks
them up. -/
theorem basicBalance_prepare (hrevm : Conserving revm) (prim : Primitives)
    (executor : EvmExecutor revm) (txs : List EvmTransaction) (balances : ExtTreeMap AccountId ℕ)
    (nonces : ExtTreeMap EvmAddress ℕ) (other : EvmAddress) :
    revm.basicBalance (executor.prepare prim txs balances nonces).db other =
      if other ∈ EvmPool.parties txs then
        (if executor.db.missing other then 0
          else balances.getD (evmAddressToFluidic prim other) 0)
      else revm.basicBalance executor.db other := by
  unfold EvmExecutor.prepare EvmPool.parties
  induction txs.flatMap fun tx ↦ tx.sender :: tx.recipient.toList generalizing executor with
  | nil => rfl
  | cons address rest ih =>
    rw [List.foldl_cons, ih, missing_seedBalanceNonce hrevm]
    by_cases hrest : other ∈ rest
    · rw [if_pos hrest, if_pos (List.mem_cons_of_mem _ hrest)]
    · rw [if_neg hrest, basicBalance_seedBalanceNonce hrevm]
      by_cases hsame : other = address
      · subst hsame
        rw [if_pos rfl, if_pos (List.mem_cons_self : other ∈ other :: rest)]
      · rw [if_neg hsame, if_neg (List.not_mem_cons_of_ne_of_not_mem hsame hrest)]

/-- The seeding touches every named address. -/
theorem touched_prepare_of_mem (prim : Primitives) (executor : EvmExecutor revm)
    (txs : List EvmTransaction) (balances : ExtTreeMap AccountId ℕ)
    (nonces : ExtTreeMap EvmAddress ℕ) {address : EvmAddress}
    (hnamed : address ∈ EvmPool.parties txs) :
    address ∈ (executor.prepare prim txs balances nonces).touched := by
  have hseeded (addresses : List EvmAddress) (executor : EvmExecutor revm)
      (hmem : address ∈ addresses ∨ address ∈ executor.touched) :
      address ∈ (addresses.foldl (fun executor address ↦ executor.seedBalanceNonce address
        (balances.getD (evmAddressToFluidic prim address) 0) (nonces.getD address 0))
        executor).touched := by
    induction addresses generalizing executor with
    | nil => exact hmem.resolve_left List.not_mem_nil
    | cons first rest ih =>
      refine ih _ ?_
      show address ∈ rest ∨ address ∈ executor.touched.insert first
      rw [ExtTreeSet.mem_insert, LawfulEqCmp.compare_eq_iff_eq, @eq_comm _ first]
      rw [List.mem_cons] at hmem
      tauto
  exact hseeded _ executor (.inl hnamed)

/-- What was touched stays touched. -/
theorem touched_foldl_of_mem (prim : Primitives) (tick : ℕ)
    (entries : List (EvmTransaction × ℕ)) (progress : EvmProgress revm) {address : EvmAddress}
    (htouched : address ∈ progress.executor.touched) :
    address ∈ (entries.foldl (EvmPool.applyTransaction prim tick) progress).executor.touched := by
  induction entries generalizing progress with
  | nil => exact htouched
  | cons entry rest ih =>
    refine ih _ ?_
    have hexecuted : address ∈ (progress.executor.execute entry.1).1.touched := by
      unfold EvmExecutor.execute
      dsimp only
      refine (mem_foldl_insert id _ _ _).mpr (.inr ?_)
      exact ExtTreeSet.mem_insert.mpr (.inr htouched)
    unfold EvmPool.applyTransaction
    dsimp only
    by_cases hnonce : entry.1.nonce ≠ progress.pool.nonces.getD entry.1.sender 0
    · rwa [if_pos hnonce]
    · rw [if_neg hnonce]
      cases EvmPool.failure (progress.executor.execute entry.1).2 with
      | some reason => exact hexecuted
      | none => exact hexecuted

/-! ### The write-back -/

/-- What a write-back does to the Fluidic total: it adds what the touched addresses hold and takes
away what their accounts held. Assumes: different addresses have different accounts, and no balance
is too large. -/
theorem sumBy_syncBalancesBack {prim : Primitives}
    (hinjective : Function.Injective (evmAddressToFluidic prim)) {executor : EvmExecutor revm}
    {order : IterationOrder EvmAddress} {balances written : ExtTreeMap AccountId ℕ}
    (hwritten : executor.syncBalancesBack prim order balances = some written) :
    sumBy (fun _ units ↦ units) written +
        ∑ address ∈ executor.touched.toList.toFinset,
          balances.getD (evmAddressToFluidic prim address) 0 =
      sumBy (fun _ units ↦ units) balances + held executor.touched.toList.toFinset executor.db := by
  have hfold (entries : List EvmAddress) (table : ExtTreeMap AccountId ℕ)
      (hsome : entries.foldlM (fun balances address ↦
        let balance := revm.basicBalance executor.db address
        if balance < 2 ^ 128 then
          some (balances.insert (evmAddressToFluidic prim address) balance)
        else none) table = some written) :
      written = entries.foldl (fun table address ↦ table.insert
        (evmAddressToFluidic prim address) (revm.basicBalance executor.db address)) table := by
    induction entries generalizing table with
    | nil => exact (Option.some.inj hsome).symm
    | cons address rest ih =>
      rw [List.foldlM_cons] at hsome
      obtain ⟨next, hfirst, hrest⟩ := Option.bind_eq_some_iff.mp hsome
      dsimp only at hfirst
      split_ifs at hfirst
      rw [List.foldl_cons, Option.some.inj hfirst]
      exact ih next hrest
  have hnodup : executor.touched.toList.Nodup :=
    ExtTreeSet.distinct_toList.imp fun hne heq ↦ hne (by rw [heq]; exact ReflCmp.compare_self)
  have hkeys : ((order.visit executor.touched.toList).map (evmAddressToFluidic prim)).Nodup :=
    (order.nodup_visit hnodup).map hinjective
  have hsum := sumBy_foldl_insert id (evmAddressToFluidic prim) (revm.basicBalance executor.db)
    hkeys balances
  have hperm := order.visit_perm executor.touched.toList
  rw [hfold _ balances hwritten, held, List.sum_toFinset _ hnodup, List.sum_toFinset _ hnodup,
    ← (hperm.map _).sum_eq, ← (hperm.map _).sum_eq]
  have hget (account : AccountId) : balances[account]?.elim 0 id = balances.getD account 0 := by
    rw [ExtTreeMap.getD_eq_getD_getElem?]
    cases balances[account]? <;> rfl
  simp only [hget] at hsum
  exact hsum

/-! ### A tick -/

/-- The pending transactions of a pool in the order in which a tick runs them. -/
def sorted (pool : EvmPool revm) : List EvmTransaction :=
  pool.pending.insertionSort fun first second ↦ EvmPool.runsBefore first second

/-- The databases that seeding the named addresses and running pending transactions make of that of
the pool, with any balances and in any order. -/
inductive Arises (pool : EvmPool revm) : revm.Db → Prop
  | start : Arises pool pool.db
  | seed {executor : EvmExecutor revm} {address : EvmAddress} (balance nonce : ℕ)
      (hnamed : address ∈ EvmPool.parties pool.pending) (hbefore : Arises pool executor.db) :
      Arises pool (executor.seedBalanceNonce address balance nonce).db
  | transact {db : revm.Db} {tx : EvmTransaction} (hpending : tx ∈ pool.pending)
      (hbefore : Arises pool db) : Arises pool (revm.transactCommit db tx).1

/-- No value can leave the named addresses or come to them. A named address that is stored as one
that does not exist has no Fluidic balance, and in no database that can arise from that of the pool
does a pending transaction change what the addresses hold in total that none of them names. -/
structure Confined (prim : Primitives) (pool : EvmPool revm) (balances : ExtTreeMap AccountId ℕ) :
    Prop where
  stored : ∀ address ∈ EvmPool.parties pool.pending, pool.db.missing address = true →
    balances.getD (evmAddressToFluidic prim address) 0 = 0
  pays : ∀ db, Arises pool db → ∀ tx ∈ pool.pending,
    held (named pool.pending)ᶜ (revm.transactCommit db tx).1 = held (named pool.pending)ᶜ db

/-- The seeding makes a database that can arise. Assumes: the seeding starts from a database that
can arise, and the transactions name no others than the pending ones. -/
theorem arises_prepare (prim : Primitives) {pool : EvmPool revm} {executor : EvmExecutor revm}
    (harises : Arises pool executor.db) {txs : List EvmTransaction}
    (hnamed : ∀ address ∈ EvmPool.parties txs, address ∈ EvmPool.parties pool.pending)
    (balances : ExtTreeMap AccountId ℕ) (nonces : ExtTreeMap EvmAddress ℕ) :
    Arises pool (executor.prepare prim txs balances nonces).db := by
  have hseeded (addresses : List EvmAddress) (executor : EvmExecutor revm)
      (hmem : ∀ address ∈ addresses, address ∈ EvmPool.parties pool.pending)
      (harises : Arises pool executor.db) :
      Arises pool (addresses.foldl (fun executor address ↦ executor.seedBalanceNonce address
        (balances.getD (evmAddressToFluidic prim address) 0) (nonces.getD address 0))
        executor).db := by
    induction addresses generalizing executor with
    | nil => exact harises
    | cons address rest ih =>
      rw [List.foldl_cons]
      exact ih _ (fun other hother ↦ hmem other (List.mem_cons_of_mem _ hother))
        (.seed _ _ (hmem address List.mem_cons_self) harises)
  exact hseeded _ executor hnamed harises

/-- Running transactions changes nothing of what the addresses hold in total that none names.
Assumes: the transactions are pending, the database can arise, and the condition holds. -/
theorem held_executed_compl {prim : Primitives} {pool : EvmPool revm}
    {balances : ExtTreeMap AccountId ℕ} (hconfined : Confined prim pool balances)
    {txs : List EvmTransaction} (hpending : ∀ tx ∈ txs, tx ∈ pool.pending)
    (nonces : ExtTreeMap EvmAddress ℕ) {db : revm.Db} (harises : Arises pool db) :
    held (named pool.pending)ᶜ (executed nonces db txs) = held (named pool.pending)ᶜ db := by
  induction txs generalizing nonces db with
  | nil => rfl
  | cons tx rest ih =>
    have hrest := @ih fun other hother ↦ hpending other (List.mem_cons_of_mem _ hother)
    have hnow := hpending tx List.mem_cons_self
    have hfirst := hconfined.pays db harises tx hnow
    unfold executed
    split
    · exact hrest nonces harises
    · split
      · exact (hrest _ (.transact hnow harises)).trans hfirst
      · exact (hrest _ (.transact hnow harises)).trans hfirst

/-- A tick keeps the Fluidic total. Assumes: the interpreter keeps the total of its database,
different addresses have different accounts, no pending transaction has a gas price, no value can
leave the named addresses or come to them, and the tick returns. -/
theorem sumBy_synthesize {prim : Primitives} (hrevm : Conserving revm)
    (hinjective : Function.Injective (evmAddressToFluidic prim)) {pool pool' : EvmPool revm}
    (hfree : ∀ tx ∈ pool.pending, tx.gasPrice = 0) {order : IterationOrder EvmAddress}
    {balances written : ExtTreeMap AccountId ℕ} {tick : ℕ} {applied : List H256}
    (hconfined : Confined prim pool balances)
    (hsynthesize : pool.synthesize prim order balances tick = some (pool', written, applied)) :
    sumBy (fun _ units ↦ units) written = sumBy (fun _ units ↦ units) balances := by
  have hsorted : ∀ tx, tx ∈ sorted pool ↔ tx ∈ pool.pending :=
    fun tx ↦ (List.perm_insertionSort _ pool.pending).mem_iff
  have hparties : ∀ address,
      address ∈ EvmPool.parties (sorted pool) ↔ address ∈ EvmPool.parties pool.pending := by
    intro address
    simp only [EvmPool.parties, List.mem_flatMap, hsorted]
  unfold EvmPool.synthesize at hsynthesize
  obtain ⟨_, hwritten, hresult⟩ := Option.bind_eq_some_iff.mp hsynthesize
  obtain ⟨-, rfl, -⟩ := Prod.mk.injEq .. ▸ Prod.mk.injEq .. ▸ Option.some.inj hresult
  set prepared := (⟨pool.db, ∅⟩ : EvmExecutor revm).prepare prim (sorted pool) balances pool.nonces
    with hprepared
  set progress := (sorted pool).zipIdx.foldl (EvmPool.applyTransaction prim tick)
    { pool := { pool with pending := [] }, executor := prepared, appliedHashes := []
      cumulativeGas := 0 } with hprogress
  have hdb : progress.executor.db = executed pool.nonces prepared.db (sorted pool) := by
    rw [hprogress, db_foldl_applyTransaction, List.zipIdx_map_fst]
  have htouched : progress.executor.touched.toList.toFinset = named pool.pending := by
    ext address
    unfold named
    rw [List.mem_toFinset, ExtTreeSet.mem_toList, List.mem_toFinset]
    constructor
    · intro hmem
      rcases EvmPool.touched_foldl prim tick _ _ hmem with hparty | hseeded
      · rw [List.zipIdx_map_fst] at hparty
        exact (hparties address).mp hparty
      · rcases EvmPool.touched_prepare prim _ _ _ _ hseeded with hparty | hnone
        · exact (hparties address).mp hparty
        · exact absurd hnone ExtTreeSet.not_mem_empty
    · exact fun hmem ↦ touched_foldl_of_mem prim tick _ _
        (touched_prepare_of_mem prim _ _ _ _ ((hparties address).mpr hmem))
  have hback := @sumBy_syncBalancesBack _ _ hinjective progress.executor _ _ _ hwritten
  rw [htouched, hdb] at hback
  have hseeded : ∑ address ∈ named pool.pending,
      balances.getD (evmAddressToFluidic prim address) 0 =
        held (named pool.pending) prepared.db := by
    refine Finset.sum_congr rfl fun address hmem ↦ ?_
    have hparty := List.mem_toFinset.mp hmem
    rw [hprepared, basicBalance_prepare hrevm, if_pos ((hparties address).mpr hparty)]
    dsimp only
    split_ifs with hmissing
    · exact hconfined.stored address hparty hmissing
    · rfl
  have harises : Arises pool prepared.db :=
    arises_prepare prim .start (fun address ↦ (hparties address).mp) balances pool.nonces
  have houtside := held_executed_compl hconfined (fun tx ↦ (hsorted tx).mp) pool.nonces harises
  have htotal := held_executed hrevm (sorted pool) (fun tx htx ↦ hfree tx ((hsorted tx).mp htx))
    pool.nonces prepared.db
  have hsplit (db : revm.Db) : held (named pool.pending) db + held (named pool.pending)ᶜ db =
      held Finset.univ db :=
    Finset.sum_add_sum_compl (named pool.pending) (revm.basicBalance db)
  rw [← hsplit, ← hsplit] at htotal
  rw [hseeded] at hback
  omega

/-! ### Runs -/

namespace PoolRun

/-- No transaction with a gas price is submitted. -/
def GasFree (_ : PoolRun revm) : PoolRequest → Prop
  | .submit tx _ => tx.gasPrice = 0
  | .synthesize _ _ _ => True

instance (state : PoolRun revm) : (request : PoolRequest) → Decidable (GasFree state request)
  | .submit tx _ => inferInstanceAs (Decidable (tx.gasPrice = 0))
  | .synthesize _ _ _ => isTrue trivial

/-- Requests without gas prices leave a queue without gas prices. Assumes: the request and the queue
before have no gas prices, and the request is served. -/
theorem gasFree_serve {prim : Primitives} {state state' : PoolRun revm} {request : PoolRequest}
    {written : ExtTreeMap AccountId ℕ} (hallowed : GasFree state request)
    (hfree : ∀ tx ∈ state.pool.pending, tx.gasPrice = 0)
    (hserve : state.serve prim request = some (state', written)) :
    ∀ tx ∈ state'.pool.pending, tx.gasPrice = 0 := by
  cases request with
  | submit tx nowNs =>
    obtain ⟨rfl, _⟩ := Prod.mk.inj (Option.some.inj hserve)
    intro other hother
    dsimp only at hother
    unfold EvmPool.submit at hother
    split_ifs at hother
    · exact hfree other hother
    all_goals
      rcases List.mem_append.mp hother with hold | hnew
      · exact hfree other hold
      · obtain rfl := List.mem_singleton.mp hnew
        exact hallowed
  | synthesize order balances tick =>
    obtain ⟨⟨pool, balances', applied⟩, hsynthesize, hresult⟩ := Option.map_eq_some_iff.mp hserve
    obtain ⟨rfl, _⟩ := Prod.mk.inj hresult
    intro tx htx
    rw [pending_synthesize hsynthesize] at htx
    exact absurd htx List.not_mem_nil

/-- In every run without gas prices, a tick keeps the Fluidic total if no value can leave the
addresses that its transactions name or come to them. Assumes: the interpreter keeps the total of
its database, different addresses have different accounts, the run reaches the state, the condition
holds there, and the tick returns. -/
theorem sumBy_serve {prim : Primitives} (hrevm : Conserving revm)
    (hinjective : Function.Injective (evmAddressToFluidic prim))
    {history : List (PoolRun revm × PoolRequest)} {state next : PoolRun revm}
    (hreaches : Reaches (serve prim) GasFree start history state)
    {order : IterationOrder EvmAddress} {balances written : ExtTreeMap AccountId ℕ} {tick : ℕ}
    (hconfined : Confined prim state.pool balances)
    (hserve : state.serve prim (.synthesize order balances tick) = some (next, written)) :
    sumBy (fun _ units ↦ units) written = sumBy (fun _ units ↦ units) balances := by
  have hfree : ∀ tx ∈ state.pool.pending, tx.gasPrice = 0 :=
    @Reaches.invariant _ _ _ _ _ _ (fun state : PoolRun revm ↦
      ∀ tx ∈ state.pool.pending, tx.gasPrice = 0) (fun _ htx ↦ absurd htx List.not_mem_nil)
      (fun _ _ _ _ hallowed hbefore hnext ↦ gasFree_serve hallowed hbefore hnext) _ _ hreaches
  obtain ⟨⟨pool, balances', applied⟩, hsynthesize, hresult⟩ := Option.map_eq_some_iff.mp hserve
  obtain ⟨_, rfl⟩ := Prod.mk.inj hresult
  exact sumBy_synthesize hrevm hinjective hfree hconfined hsynthesize

end PoolRun

/-! ### An interpreter of transfers -/

/-- An account that was stored with a balance has it, and the others have what they had. -/
theorem basicBalance_withBalance (db : Revm.ledger.Db) (address : EvmAddress) (units : ℕ)
    (other : EvmAddress) :
    Revm.ledger.basicBalance (db.withBalance address units) other =
      if other = address then units else Revm.ledger.basicBalance db other := by
  unfold Revm.basicBalance Revm.ledger Revm.sample InMemoryDb.withBalance
  dsimp only
  rw [ExtTreeMap.getElem?_insert]
  by_cases hsame : other = address
  · subst hsame
    rw [if_pos rfl, if_pos ReflCmp.compare_self]
    rfl
  · rw [if_neg hsame, if_neg fun heq ↦ hsame (LawfulEqCmp.compare_eq_iff_eq.mp heq).symm]

/-- The total after an account was stored with a balance. -/
theorem held_withBalance (db : Revm.ledger.Db) (address : EvmAddress) (units : ℕ) :
    held Finset.univ (db.withBalance address units : Revm.ledger.Db) +
        Revm.ledger.basicBalance db address =
      held Finset.univ db + units := by
  have hrest : ∑ other ∈ {address}ᶜ, Revm.ledger.basicBalance (db.withBalance address units) other =
      ∑ other ∈ {address}ᶜ, Revm.ledger.basicBalance db other := by
    refine Finset.sum_congr rfl fun other hother ↦ ?_
    rw [Finset.mem_compl, Finset.mem_singleton] at hother
    rw [basicBalance_withBalance, if_neg hother]
  unfold held
  rw [Fintype.sum_eq_add_sum_compl address, Fintype.sum_eq_add_sum_compl address, hrest,
    basicBalance_withBalance, if_pos rfl]
  omega

/-- What a transaction of the interpreter of transfers does: it is refused, or moves its value from
the sender to the recipient. -/
theorem transactCommit_ledger (db : Revm.ledger.Db) (tx : EvmTransaction) :
    (Revm.ledger.transactCommit db tx).1 = db ∨
    tx.value ≤ Revm.ledger.basicBalance db tx.sender ∧
    ∃ recipient, (∀ address, tx.recipient = some address → recipient = address) ∧
      ∃ paid : Revm.ledger.Db,
        paid = db.withBalance tx.sender (Revm.ledger.basicBalance db tx.sender - tx.value) ∧
        (Revm.ledger.transactCommit db tx).1 =
          paid.withBalance recipient (Revm.ledger.basicBalance paid recipient + tx.value) := by
  by_cases hshort : Revm.ledger.basicBalance db tx.sender < tx.value
  · exact .inl (congrArg Prod.fst (if_pos hshort))
  · refine .inr ⟨Nat.le_of_not_lt hshort,
      tx.recipient.getD (tx.sender + BitVec.ofNat 160 (2 ^ 64 * (tx.nonce + 1))),
      fun address haddress ↦ by rw [haddress]; rfl, _, rfl, congrArg Prod.fst (if_neg hshort)⟩

/-- The interpreter of transfers keeps the total of its database. -/
theorem conserving_ledger : Conserving Revm.ledger where
  insert db address info _ := ⟨⟨info, .none, ∅⟩, rfl, AccountState.noConfusion, rfl⟩
  basic db address := rfl
  transact db tx _ := by
    rcases transactCommit_ledger db tx with hrefused | ⟨henough, recipient, -, paid, rfl, hmoved⟩
    · rw [hrefused]
    · rw [hmoved]
      have hpaid := held_withBalance db tx.sender
        (Revm.ledger.basicBalance db tx.sender - tx.value)
      have hreceived := held_withBalance
        (db.withBalance tx.sender (Revm.ledger.basicBalance db tx.sender - tx.value)) recipient
        (Revm.ledger.basicBalance
          (db.withBalance tx.sender (Revm.ledger.basicBalance db tx.sender - tx.value)) recipient +
            tx.value)
      omega

/-- With the interpreter of transfers, transactions that all have a recipient move no value between
the addresses that they name and the others. Assumes: every pending one has a recipient. -/
theorem held_compl_ledger {pool : EvmPool Revm.ledger}
    (hrecipient : ∀ tx ∈ pool.pending, tx.recipient.isSome = true) (db : Revm.ledger.Db)
    {tx : EvmTransaction} (hpending : tx ∈ pool.pending) :
    held (named pool.pending)ᶜ (Revm.ledger.transactCommit db tx).1 =
      held (named pool.pending)ᶜ db := by
  have hnamed {address : EvmAddress} (hparty : address = tx.sender ∨ tx.recipient = some address) :
      address ∈ named pool.pending := by
    unfold named EvmPool.parties
    rw [List.mem_toFinset, List.mem_flatMap]
    exact ⟨tx, hpending, List.mem_cons.mpr (hparty.imp_right Option.mem_toList.mpr)⟩
  obtain ⟨address, haddress⟩ := Option.isSome_iff_exists.mp (hrecipient tx hpending)
  refine Finset.sum_congr rfl fun other hother ↦ ?_
  have hother {party : EvmAddress} (hparty : party ∈ named pool.pending) : other ≠ party :=
    fun heq ↦ Finset.mem_compl.mp hother (heq ▸ hparty)
  rcases transactCommit_ledger db tx with hrefused | ⟨-, recipient, hsame, paid, rfl, hmoved⟩
  · rw [hrefused]
  · obtain rfl := hsame address haddress
    rw [hmoved, basicBalance_withBalance, if_neg (hother (hnamed (.inr haddress))),
      basicBalance_withBalance, if_neg (hother (hnamed (.inl rfl)))]

/-- Primitives whose digest is the number that the last 32 bytes spell. -/
def lastBytes : Primitives :=
  { Primitives.sample with blake3 := fun bytes ↦ BitVec.ofNat 256 (beValue bytes) }

/-- Under these primitives different addresses have different accounts. -/
theorem injective_lastBytes : Function.Injective (evmAddressToFluidic lastBytes) := by
  intro first second hsame
  have hbits := congrArg (fun account : AccountId ↦ account.bytes.toNat % 2 ^ 160) hsame
  have hlow (address : EvmAddress) :
      (evmAddressToFluidic lastBytes address).bytes.toNat % 2 ^ 160 = address.toNat := by
    show (BitVec.ofNat 256 (beValue (asciiBytes "fluidic:evm-account:v1" ++
      beBytes 20 address.toNat))).toNat % 2 ^ 160 = address.toNat
    have hpower : 256 ^ 20 = 2 ^ 160 := by norm_num
    rw [beValue_append, length_beBytes, hpower, BitVec.toNat_ofNat,
      Nat.mod_mod_of_dvd _ (Nat.pow_dvd_pow 2 (by decide : 160 ≤ 256)), Nat.mul_add_mod,
      beValue_beBytes (hpower ▸ address.isLt), Nat.mod_eq_of_lt address.isLt]
  rw [hlow, hlow] at hbits
  exact BitVec.eq_of_toNat_eq hbits

namespace PoolRun

/-- What a pool does with one transaction: the Fluidic total before the tick and after it. -/
def totals (tx : EvmTransaction) (balances : ExtTreeMap AccountId ℕ) :
    Option (ℕ × ℕ) :=
  ((start : PoolRun Revm.ledger).serve lastBytes (.submit tx 5)).bind fun submitted ↦
    (submitted.1.serve lastBytes (.synthesize .forward balances 0)).map fun served ↦
      (sumBy (fun _ units ↦ units) balances, sumBy (fun _ units ↦ units) served.2)

/-- The balances of a sender that holds ten units. -/
def tenUnits : ExtTreeMap AccountId ℕ :=
  ExtTreeMap.ofList [(evmAddressToFluidic lastBytes 1, 10)]

/-- A transfer between two named addresses keeps the Fluidic total. -/
theorem sumBy_serve_transfer :
    ∃ (state next : PoolRun Revm.ledger) (written : ExtTreeMap AccountId ℕ),
      Reaches (serve lastBytes) GasFree start
        [((start : PoolRun Revm.ledger), .submit (.sample 1 1 (some 2) 3 0) 5)] state ∧
      Confined lastBytes state.pool tenUnits ∧
      state.serve lastBytes (.synthesize .forward tenUnits 0) = some (next, written) ∧
      written.getD (evmAddressToFluidic lastBytes 2) 0 = 3 ∧
      sumBy (fun _ units ↦ units) written = 10 := by
  have hserves : ((start : PoolRun Revm.ledger).serve lastBytes
      (.submit (.sample 1 1 (some 2) 3 0) 5)).bind (fun submitted ↦
        (submitted.1.serve lastBytes (.synthesize .forward tenUnits 0)).map fun served ↦
          (submitted.1.pool.pending.map (·.recipient), submitted.1.pool.db.accounts.toList.length,
            served.2.getD (evmAddressToFluidic lastBytes 2) 0)) =
      some ([some 2], 0, 3) := by
    decide +kernel
  obtain ⟨⟨state, answer⟩, hsubmitted, hrest⟩ := Option.bind_eq_some_iff.mp hserves
  obtain ⟨⟨next, written⟩, hserved, hfacts⟩ := Option.map_eq_some_iff.mp hrest
  obtain ⟨hrecipients, hfacts⟩ := Prod.mk.inj hfacts
  obtain ⟨hnone, hpaid⟩ := Prod.mk.inj hfacts
  have hreaches : Reaches (serve lastBytes) GasFree start
      [((start : PoolRun Revm.ledger), .submit (.sample 1 1 (some 2) 3 0) 5)] state :=
    Reaches.start.next rfl hsubmitted
  have hrecipient : ∀ tx ∈ state.pool.pending, tx.recipient.isSome = true := by
    intro tx htx
    have hmem : tx.recipient ∈ [some (2 : EvmAddress)] :=
      hrecipients ▸ List.mem_map.mpr ⟨tx, htx, rfl⟩
    rw [List.mem_singleton.mp hmem]
    rfl
  have hempty : state.pool.db.accounts = ∅ :=
    ExtTreeMap.toList_eq_nil_iff.mp (List.length_eq_zero_iff.mp hnone)
  have hconfined : Confined lastBytes state.pool tenUnits := by
    refine ⟨fun address _ hmissing ↦ ?_, fun db _ tx ↦ held_compl_ledger hrecipient db⟩
    unfold InMemoryDb.missing at hmissing
    rw [hempty, ExtTreeMap.getElem?_empty] at hmissing
    cases hmissing
  have hkept := sumBy_serve conserving_ledger injective_lastBytes hreaches hconfined hserved
  have hten : sumBy (fun _ units ↦ units) tenUnits = 10 := by decide +kernel
  exact ⟨state, next, written, hreaches, hconfined, hserved, hpaid, hkept.trans hten⟩

/-- The value that a transaction puts into the contract it creates leaves the Fluidic total, with an
interpreter that keeps its own total and accounts that differ. -/
theorem creation_losesValue :
    Conserving Revm.ledger ∧ Function.Injective (evmAddressToFluidic lastBytes) ∧
    (EvmTransaction.sample 1 1 none 5 0).gasPrice = 0 ∧
    totals (.sample 1 1 none 5 0) tenUnits = some (10, 5) :=
  ⟨conserving_ledger, injective_lastBytes, rfl, by decide +kernel⟩

end PoolRun

end Fluidic.Evm
