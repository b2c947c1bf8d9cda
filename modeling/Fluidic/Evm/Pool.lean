import Fluidic.Library.CausalFold
import Fluidic.Crypto.Keys
import Mathlib.Data.List.Sort

/-!
# The EVM transaction pool

`src/evm/mod.rs` and `src/evm/executor.rs`. The interpreter itself, `revm`, is a third-party package
and enters as the fields of `Revm`, about which nothing is assumed; its table of accounts is public,
and the executor writes to it. The pool sorts its pending
transactions by sender and nonce, seeds the addresses they name with their Fluidic balances, runs
them, and writes the balances of all touched addresses back.

A balance that does not fit a `u128` makes the write-back panic, which is the value `none`. The
latencies that the source reports are floating-point metrics and are left out.
-/

set_option autoImplicit false
set_option relaxedAutoImplicit false

namespace Fluidic.Evm

open Library Crypto
open Std (ExtTreeMap ExtTreeSet TransOrd LawfulEqCmp)

/-- A 20-byte EVM address. -/
abbrev EvmAddress := BitVec 160

instance : TransOrd EvmAddress := inferInstanceAs (TransOrd (BitVec 160))

/-- A 32-byte EVM hash. -/
abbrev H256 := Bytes32

/-- The status of a transaction. -/
inductive EvmTxStatus
  | pending
  | success
  | failed (reason : String)
  deriving DecidableEq

/-- A log entry. -/
structure EvmLog where
  address : EvmAddress
  topics : List H256
  data : List UInt8
  deriving DecidableEq

/-- The receipt of a transaction. -/
structure EvmReceipt where
  transactionHash : H256
  transactionIndex : ℕ
  blockNumber : ℕ
  blockHash : H256
  sender : EvmAddress
  recipient : Option EvmAddress
  contractAddress : Option EvmAddress
  gasUsed : ℕ
  cumulativeGasUsed : ℕ
  effectiveGasPrice : ℕ
  status : ℕ
  logs : List EvmLog
  deriving DecidableEq

/-- A decoded, verified transaction. -/
structure EvmTransaction where
  hash : H256
  sender : EvmAddress
  recipient : Option EvmAddress
  value : ℕ
  gasPrice : ℕ
  gasLimit : ℕ
  data : List UInt8
  nonce : ℕ
  raw : List UInt8
  firstSeenAtNs : ℕ
  deriving DecidableEq

/-- The outcome of running a transaction. -/
inductive ExecutionResult
  | success (gasUsed : ℕ) (logs : List EvmLog)
  | revert (gasUsed : ℕ) (output : List UInt8)
  | halt (gasUsed : ℕ) (reason : String)
  deriving DecidableEq

/-- The gas an outcome used. -/
def ExecutionResult.gasUsed : ExecutionResult → ℕ
  | .success gasUsed _ => gasUsed
  | .revert gasUsed _ => gasUsed
  | .halt gasUsed _ => gasUsed

/-- What the interpreter knows of an account. -/
structure AccountInfo where
  balance : ℕ
  nonce : ℕ
  codeHash : H256
  code : Option (List UInt8)

/-- The state of an account that the interpreter has stored. An account that it looked up and did
not find is stored as one that does not exist. -/
inductive AccountState
  | notExisting
  | touched
  | storageCleared
  | none
  deriving DecidableEq

/-- An account that the interpreter has stored. -/
structure DbAccount where
  info : AccountInfo
  accountState : AccountState
  storage : ExtTreeMap ℕ ℕ

/-- The database of the interpreter: its accounts, and the rest. -/
structure InMemoryDb (Rest : Type) where
  accounts : ExtTreeMap EvmAddress DbAccount
  rest : Rest

/-- The third-party interpreter: what its database holds besides the accounts, the insertion of an
account, the lookup of one, the run of one transaction, and the address of a created contract. -/
structure Revm where
  Rest : Type
  emptyRest : Rest
  insertAccountInfo : InMemoryDb Rest → EvmAddress → AccountInfo → InMemoryDb Rest
  basic : InMemoryDb Rest → EvmAddress → Option AccountInfo
  transactCommit : InMemoryDb Rest → EvmTransaction →
    InMemoryDb Rest × Except String ExecutionResult
  contractAddress : EvmAddress → ℕ → EvmAddress

namespace Revm

/-- The database of an interpreter. -/
abbrev Db (revm : Revm) : Type := InMemoryDb revm.Rest

/-- The database without accounts. -/
def emptyDb (revm : Revm) : revm.Db := ⟨∅, revm.emptyRest⟩

/-- The balance of an address, zero when no account is found. -/
def basicBalance (revm : Revm) (db : revm.Db) (address : EvmAddress) : ℕ :=
  ((revm.basic db address).map AccountInfo.balance).getD 0

end Revm

/-- The Fluidic account of an EVM address. -/
def evmAddressToFluidic (prim : Primitives) (address : EvmAddress) : AccountId :=
  ⟨prim.blake3 (asciiBytes "fluidic:evm-account:v1" ++ beBytes 20 address.toNat)⟩

/-- The block hash of a tick. -/
def blockHashFor (prim : Primitives) (tick : ℕ) : H256 :=
  prim.blake3 (asciiBytes "fluidic:block:" ++ leBytes 8 tick)

/-! ### The executor -/

/-- The interpreter's database and the addresses touched in a tick. -/
structure EvmExecutor (revm : Revm) where
  db : revm.Db
  touched : ExtTreeSet EvmAddress

namespace EvmExecutor

variable {revm : Revm}

/-- Seed an address with a balance and a nonce. An account that is stored keeps all else that it
has, its state among it. -/
def seedBalanceNonce (executor : EvmExecutor revm) (address : EvmAddress) (balance nonce : ℕ) :
    EvmExecutor revm :=
  let db : revm.Db :=
    match executor.db.accounts[address]? with
    | some account =>
      { executor.db with
        accounts := executor.db.accounts.insert address
          { account with info := { account.info with balance, nonce } } }
    | none => revm.insertAccountInfo executor.db address ⟨balance, nonce, 0, none⟩
  ⟨db, executor.touched.insert address⟩

/-- Seed the sender and the recipient of every transaction with their Fluidic balances. -/
def prepare (prim : Primitives) (executor : EvmExecutor revm) (txs : List EvmTransaction)
    (balances : ExtTreeMap AccountId ℕ) (nonces : ExtTreeMap EvmAddress ℕ) : EvmExecutor revm :=
  (txs.flatMap fun tx ↦ tx.sender :: tx.recipient.toList).foldl
    (fun executor address ↦ executor.seedBalanceNonce address
      (balances.getD (evmAddressToFluidic prim address) 0) (nonces.getD address 0)) executor

/-- Run one transaction and commit its state. -/
def execute (executor : EvmExecutor revm) (tx : EvmTransaction) :
    EvmExecutor revm × Except String ExecutionResult :=
  let touched := tx.recipient.toList.foldl (fun touched address ↦ touched.insert address)
    (executor.touched.insert tx.sender)
  let (db, outcome) := revm.transactCommit executor.db tx
  (⟨db, touched⟩, outcome)

/-- Write the balances of the touched addresses back, in the given order. -/
def syncBalancesBack (prim : Primitives) (executor : EvmExecutor revm)
    (order : IterationOrder EvmAddress) (balances : ExtTreeMap AccountId ℕ) :
    Option (ExtTreeMap AccountId ℕ) :=
  (order.visit executor.touched.toList).foldlM
    (fun balances address ↦
      let balance := revm.basicBalance executor.db address
      if balance < 2 ^ 128 then
        some (balances.insert (evmAddressToFluidic prim address) balance)
      else none) balances

end EvmExecutor

/-! ### The pool -/

/-- The pool of EVM transactions. -/
structure EvmPool (revm : Revm) where
  pending : List EvmTransaction
  statuses : ExtTreeMap H256 EvmTxStatus
  nonces : ExtTreeMap EvmAddress ℕ
  db : revm.Db
  receipts : ExtTreeMap H256 EvmReceipt
  transactions : ExtTreeMap H256 EvmTransaction

/-- What one synthesis has done so far: the pool, the executor, the hashes applied and the gas
used. -/
structure EvmProgress (revm : Revm) where
  pool : EvmPool revm
  executor : EvmExecutor revm
  appliedHashes : List H256
  cumulativeGas : ℕ

namespace EvmPool

variable {revm : Revm}

/-- An empty pool. -/
def new : EvmPool revm := ⟨[], ∅, ∅, revm.emptyDb, ∅, ∅⟩

/-- Queue a transaction that has no status yet. -/
def submit (pool : EvmPool revm) (tx : EvmTransaction) (nowNs : ℕ) : EvmPool revm :=
  if pool.statuses.contains tx.hash then pool
  else
    let tx := if tx.firstSeenAtNs = 0 then { tx with firstSeenAtNs := nowNs } else tx
    { pool with
      statuses := pool.statuses.insert tx.hash .pending
      transactions := pool.transactions.insert tx.hash tx
      pending := pool.pending ++ [tx] }

/-- Whether one transaction is run before another: by sender, then nonce. -/
def runsBefore (first second : EvmTransaction) : Bool :=
  ((compare first.sender second.sender).then (compare first.nonce second.nonce)).isLE

/-- The text of a run that did not succeed. -/
def failure : Except String ExecutionResult → Option String
  | .ok (.success _ _) => none
  | .ok (.revert _ output) => some s!"evm execution reverted: 0x{hexEncode output}"
  | .ok (.halt _ reason) => some s!"evm execution halted: {reason}"
  | .error reason => some s!"Revm({reason.quote})"

/-- The logs of a run, empty unless it succeeded. -/
def resultLogs : Except String ExecutionResult → List EvmLog
  | .ok (.success _ logs) => logs
  | _ => []

/-- The gas of a run, zero when the interpreter refused it. -/
def resultGas : Except String ExecutionResult → ℕ
  | .ok result => result.gasUsed
  | .error _ => 0

/-- Run one transaction of the queue. A transaction with a wrong nonce fails without a receipt. -/
def applyTransaction (prim : Primitives) (tick : ℕ) (progress : EvmProgress revm)
    (entry : EvmTransaction × ℕ) : EvmProgress revm :=
  let (tx, index) := entry
  let pool := progress.pool
  let expected := pool.nonces.getD tx.sender 0
  if tx.nonce ≠ expected then
    { progress with
      pool := { pool with
        statuses := pool.statuses.insert tx.hash
          (.failed s!"invalid nonce: expected {expected}") } }
  else
    let (executor, outcome) := progress.executor.execute tx
    let cumulativeGas := wrappingAdd 64 progress.cumulativeGas (resultGas outcome)
    let receipt : EvmReceipt :=
      { transactionHash := tx.hash
        transactionIndex := index
        blockNumber := tick
        blockHash := blockHashFor prim tick
        sender := tx.sender
        recipient := tx.recipient
        contractAddress :=
          if (failure outcome).isNone && tx.recipient.isNone then
            some (revm.contractAddress tx.sender tx.nonce)
          else none
        gasUsed := resultGas outcome
        cumulativeGasUsed := cumulativeGas
        effectiveGasPrice := tx.gasPrice
        status := if (failure outcome).isNone then 1 else 0
        logs := resultLogs outcome }
    match failure outcome with
    | some reason =>
      { progress with
        pool := { pool with
          statuses := pool.statuses.insert tx.hash (.failed reason)
          receipts := pool.receipts.insert tx.hash receipt }
        executor, cumulativeGas }
    | none =>
      { pool := { pool with
          nonces := pool.nonces.insert tx.sender (wrappingAdd 64 expected 1)
          statuses := pool.statuses.insert tx.hash .success
          receipts := pool.receipts.insert tx.hash receipt }
        executor, cumulativeGas
        appliedHashes := progress.appliedHashes ++ [tx.hash] }

/-- Drain the pending transactions into a tick. The results are the pool, the balances and the
hashes of the transactions applied. -/
def synthesize (prim : Primitives) (pool : EvmPool revm) (order : IterationOrder EvmAddress)
    (balances : ExtTreeMap AccountId ℕ) (tick : ℕ) :
    Option (EvmPool revm × ExtTreeMap AccountId ℕ × List H256) := do
  let pending := pool.pending.insertionSort fun first second ↦ runsBefore first second
  let executor := (⟨pool.db, ∅⟩ : EvmExecutor revm).prepare prim pending balances pool.nonces
  let progress := pending.zipIdx.foldl (applyTransaction prim tick)
    { pool := { pool with pending := [] }, executor, appliedHashes := [], cumulativeGas := 0 }
  let balances ← progress.executor.syncBalancesBack prim order balances
  return ({ progress.pool with db := progress.executor.db }, balances, progress.appliedHashes)

/-! ### The order of the write-back -/

/-- The addresses that a list of transactions names. -/
def parties (txs : List EvmTransaction) : List EvmAddress :=
  txs.flatMap fun tx ↦ tx.sender :: tx.recipient.toList

/-- Seeding touches the addresses named and no other. -/
theorem touched_prepare (prim : Primitives) (executor : EvmExecutor revm)
    (txs : List EvmTransaction) (balances : ExtTreeMap AccountId ℕ)
    (nonces : ExtTreeMap EvmAddress ℕ) {address : EvmAddress}
    (htouched : address ∈ (executor.prepare prim txs balances nonces).touched) :
    address ∈ parties txs ∨ address ∈ executor.touched := by
  have hseeded (addresses : List EvmAddress) (executor : EvmExecutor revm)
      (htouched : address ∈ (addresses.foldl
        (fun executor address ↦ executor.seedBalanceNonce address
          (balances.getD (evmAddressToFluidic prim address) 0) (nonces.getD address 0))
        executor).touched) : address ∈ addresses ∨ address ∈ executor.touched := by
    induction addresses generalizing executor with
    | nil => exact .inr htouched
    | cons first rest ih =>
      rcases ih _ htouched with hrest | hfirst
      · exact .inl (List.mem_cons_of_mem _ hrest)
      · rcases ExtTreeSet.mem_insert.mp hfirst with heq | hbefore
        · exact .inl (LawfulEqCmp.compare_eq_iff_eq.mp heq ▸ List.mem_cons_self)
        · exact .inr hbefore
  exact hseeded _ executor htouched

/-- Running a transaction touches its parties and no other address. -/
theorem touched_applyTransaction (prim : Primitives) (tick : ℕ) (progress : EvmProgress revm)
    (entry : EvmTransaction × ℕ) {address : EvmAddress}
    (htouched : address ∈ (applyTransaction prim tick progress entry).executor.touched) :
    address ∈ parties [entry.1] ∨ address ∈ progress.executor.touched := by
  have hexecuted (hmem : address ∈ (progress.executor.execute entry.1).1.touched) :
      address ∈ parties [entry.1] ∨ address ∈ progress.executor.touched := by
    have hparties : parties [entry.1] = entry.1.sender :: entry.1.recipient.toList :=
      List.append_nil _
    rw [hparties]
    unfold EvmExecutor.execute at hmem
    revert hmem
    cases entry.1.recipient with
    | none =>
      simp only [Option.toList_none, List.foldl_nil, ExtTreeSet.mem_insert,
        LawfulEqCmp.compare_eq_iff_eq, List.mem_cons, List.not_mem_nil, or_false,
        @eq_comm _ entry.1.sender]
      exact id
    | some recipient =>
      simp only [Option.toList_some, List.foldl_cons, List.foldl_nil, ExtTreeSet.mem_insert,
        LawfulEqCmp.compare_eq_iff_eq, List.mem_cons, List.not_mem_nil, or_false,
        @eq_comm _ entry.1.sender, @eq_comm _ recipient]
      tauto
  unfold applyTransaction at htouched
  dsimp only at htouched
  by_cases hnonce : entry.1.nonce ≠ progress.pool.nonces.getD entry.1.sender 0
  · rw [if_pos hnonce] at htouched
    exact .inr htouched
  · rw [if_neg hnonce] at htouched
    revert htouched
    cases failure (progress.executor.execute entry.1).2 with
    | none => exact hexecuted
    | some reason => exact hexecuted

/-- Running transactions touches their parties and no other address. -/
theorem touched_foldl (prim : Primitives) (tick : ℕ) (entries : List (EvmTransaction × ℕ))
    (progress : EvmProgress revm) {address : EvmAddress}
    (htouched : address ∈ (entries.foldl (applyTransaction prim tick) progress).executor.touched) :
    address ∈ parties (entries.map Prod.fst) ∨ address ∈ progress.executor.touched := by
  induction entries generalizing progress with
  | nil => exact .inr htouched
  | cons entry rest ih =>
    unfold parties at ih ⊢
    rw [List.map_cons, List.flatMap_cons, List.mem_append]
    rcases ih _ htouched with hrest | hbefore
    · exact .inl (.inr hrest)
    · rcases touched_applyTransaction prim tick progress entry hbefore with hparty | hbefore
      · unfold parties at hparty
        rw [List.flatMap_cons, List.flatMap_nil, List.append_nil] at hparty
        exact .inl (.inl hparty)
      · exact .inr hbefore

/-- The balances written back do not depend on the order of the addresses. Assumes: no two touched
addresses have the same account. -/
theorem syncBalancesBack_order (prim : Primitives) {executor : EvmExecutor revm}
    (hdistinct : ∀ first ∈ executor.touched, ∀ second ∈ executor.touched,
      evmAddressToFluidic prim first = evmAddressToFluidic prim second → first = second)
    (order order' : IterationOrder EvmAddress) (balances : ExtTreeMap AccountId ℕ) :
    executor.syncBalancesBack prim order balances =
      executor.syncBalancesBack prim order' balances := by
  refine foldlM_eq_of_perm ((order.visit_perm _).trans (order'.visit_perm _).symm)
    (fun first hfirst second hsecond balances ↦ ?_) balances
  rw [IterationOrder.mem_visit, ExtTreeSet.mem_toList] at hfirst hsecond
  dsimp only
  split_ifs
  · rw [Option.bind_some, Option.bind_some]
    by_cases heq : first = second
    · rw [heq]
    · have hne : evmAddressToFluidic prim first ≠ evmAddressToFluidic prim second :=
        fun haccount ↦ heq (hdistinct first hfirst second hsecond haccount)
      congr 1
      refine ExtTreeMap.ext_getElem? fun account ↦ ?_
      simp only [ExtTreeMap.getElem?_insert, LawfulEqCmp.compare_eq_iff_eq]
      split_ifs with hsecond hfirst
      · exact absurd (hfirst.trans hsecond.symm) hne
      · rfl
      · rfl
      · rfl
  · rfl
  · rfl
  · rfl

/-- What the transactions of a tick do before the balances are written back. -/
def tickProgress (prim : Primitives) (pool : EvmPool revm) (balances : ExtTreeMap AccountId ℕ)
    (tick : ℕ) : EvmProgress revm :=
  let pending := pool.pending.insertionSort fun first second ↦ runsBefore first second
  let executor := (⟨pool.db, ∅⟩ : EvmExecutor revm).prepare prim pending balances pool.nonces
  pending.zipIdx.foldl (applyTransaction prim tick)
    { pool := { pool with pending := [] }, executor, appliedHashes := [], cumulativeGas := 0 }

/-- A tick touches the parties of its transactions and no other address. -/
theorem touched_tickProgress (prim : Primitives) (pool : EvmPool revm)
    (balances : ExtTreeMap AccountId ℕ) (tick : ℕ) {address : EvmAddress}
    (htouched : address ∈ (pool.tickProgress prim balances tick).executor.touched) :
    address ∈ parties pool.pending := by
  have hsorted (hparty : address ∈ parties (pool.pending.insertionSort
      fun first second ↦ runsBefore first second)) : address ∈ parties pool.pending := by
    unfold parties at hparty ⊢
    rw [List.mem_flatMap] at hparty ⊢
    obtain ⟨tx, htx, hmem⟩ := hparty
    exact ⟨tx, (List.perm_insertionSort _ pool.pending).mem_iff.mp htx, hmem⟩
  rcases touched_foldl prim tick _ _ htouched with hrun | hseeded
  · rw [List.zipIdx_map_fst] at hrun
    exact hsorted hrun
  · rcases touched_prepare prim _ _ balances pool.nonces hseeded with hparty | hnone
    · exact hsorted hparty
    · exact absurd hnone ExtTreeSet.not_mem_empty

/-- A synthesis of the pool does not depend on the order of the addresses. Assumes: no two addresses
that its transactions name have the same account. -/
theorem synthesize_order (prim : Primitives) {pool : EvmPool revm}
    (hdistinct : ∀ first ∈ parties pool.pending, ∀ second ∈ parties pool.pending,
      evmAddressToFluidic prim first = evmAddressToFluidic prim second → first = second)
    (order order' : IterationOrder EvmAddress) (balances : ExtTreeMap AccountId ℕ) (tick : ℕ) :
    pool.synthesize prim order balances tick = pool.synthesize prim order' balances tick := by
  have hback := syncBalancesBack_order prim (fun first hfirst second hsecond ↦
    hdistinct first (touched_tickProgress prim pool balances tick hfirst) second
      (touched_tickProgress prim pool balances tick hsecond)) order order' balances
  exact congrArg (fun written : Option (ExtTreeMap AccountId ℕ) ↦ written.bind fun balances' ↦
    some ({ (pool.tickProgress prim balances tick).pool with
        db := (pool.tickProgress prim balances tick).executor.db }, balances',
      (pool.tickProgress prim balances tick).appliedHashes)) hback

/-- The write-back leaves the balance of an account that no touched address has. Assumes: no touched
address has the account, and the write-back returns. -/
theorem getElem?_syncBalancesBack {prim : Primitives} {executor : EvmExecutor revm}
    {order : IterationOrder EvmAddress} {balances written : ExtTreeMap AccountId ℕ}
    {account : AccountId}
    (hother : ∀ address ∈ executor.touched, evmAddressToFluidic prim address ≠ account)
    (hback : executor.syncBalancesBack prim order balances = some written) :
    written[account]? = balances[account]? := by
  have hvisited : ∀ address ∈ order.visit executor.touched.toList,
      evmAddressToFluidic prim address ≠ account := by
    intro address haddress
    rw [IterationOrder.mem_visit, ExtTreeSet.mem_toList] at haddress
    exact hother address haddress
  unfold EvmExecutor.syncBalancesBack at hback
  generalize order.visit executor.touched.toList = addresses at hback hvisited
  induction addresses generalizing balances with
  | nil =>
    rw [List.foldlM_nil] at hback
    rw [Option.some.inj hback]
  | cons address addresses ih =>
    rw [List.foldlM_cons, Option.bind_eq_bind, Option.bind_eq_some_iff] at hback
    obtain ⟨next, hnext, hrest⟩ := hback
    dsimp only at hnext
    split_ifs at hnext
    have hkept := ih hrest fun other hmem ↦ hvisited other (List.mem_cons_of_mem _ hmem)
    rw [hkept, ← Option.some.inj hnext]
    exact getElem?_insert_of_ne _ (hvisited address List.mem_cons_self) _

/-- A synthesis of the pool leaves the balance of an account that is not a party's. Assumes: no
party of a pending transaction has the account, and the synthesis returns. -/
theorem getElem?_synthesize_of_not_party {prim : Primitives} {pool pool' : EvmPool revm}
    {order : IterationOrder EvmAddress} {balances written : ExtTreeMap AccountId ℕ} {tick : ℕ}
    {hashes : List H256} {account : AccountId}
    (hparties : ∀ address ∈ parties pool.pending, evmAddressToFluidic prim address ≠ account)
    (hsynthesize : pool.synthesize prim order balances tick = some (pool', written, hashes)) :
    written[account]? = balances[account]? := by
  obtain ⟨synced, hback, hresult⟩ := Option.bind_eq_some_iff.mp hsynthesize
  obtain ⟨-, rfl, -⟩ := Prod.mk.injEq .. ▸ Prod.mk.injEq .. ▸ Option.some.inj hresult
  exact getElem?_syncBalancesBack (fun address htouched ↦
    hparties address (touched_tickProgress prim pool balances tick htouched)) hback

/-- A pool without pending transactions leaves the balances alone and has none afterwards. Assumes:
nothing is pending. -/
theorem synthesize_of_pending_nil (prim : Primitives) {pool : EvmPool revm}
    (hpending : pool.pending = []) (order : IterationOrder EvmAddress)
    (balances : ExtTreeMap AccountId ℕ) (tick : ℕ) :
    ∃ pool' : EvmPool revm, pool'.pending = [] ∧
      pool.synthesize prim order balances tick = some (pool', balances, []) := by
  have hvisit : order.visit (∅ : ExtTreeSet EvmAddress).toList = [] := by
    have hperm := order.visit_perm (∅ : ExtTreeSet EvmAddress).toList
    rw [ExtTreeSet.toList_eq_nil_iff.mpr rfl] at hperm ⊢
    exact hperm.eq_nil
  have hback : (⟨pool.db, ∅⟩ : EvmExecutor revm).syncBalancesBack prim order balances =
      some balances := by
    unfold EvmExecutor.syncBalancesBack
    dsimp only
    rw [hvisit]
    rfl
  refine ⟨{ pool with pending := [] }, rfl, ?_⟩
  unfold synthesize
  rw [hpending]
  show ((⟨pool.db, ∅⟩ : EvmExecutor revm).syncBalancesBack prim order balances).bind _ = _
  rw [hback]
  rfl

end EvmPool

/-- The database after an account was stored with a balance. What else is stored of it stays. -/
def InMemoryDb.withBalance {Rest : Type} (db : InMemoryDb Rest) (address : EvmAddress)
    (balance : ℕ) : InMemoryDb Rest :=
  let account := db.accounts.getD address ⟨⟨0, 0, 0, none⟩, .none, ∅⟩
  { db with
    accounts := db.accounts.insert address
      { account with info := { account.info with balance }, accountState := .touched } }

/-- An interpreter with which runs without EVM transactions can be evaluated: it keeps the accounts
it is seeded with and refuses every transaction. -/
def Revm.sample : Revm where
  Rest := Unit
  emptyRest := ()
  insertAccountInfo db address info :=
    { db with accounts := db.accounts.insert address ⟨info, .none, ∅⟩ }
  basic db address := db.accounts[address]?.bind fun account ↦
    if account.accountState = .notExisting then none else some account.info
  transactCommit db _ := (db, .error "unsupported")
  contractAddress address _ := address

/-- An interpreter of plain transfers, and of creations of empty contracts, without gas. -/
def Revm.ledger : Revm :=
  { Revm.sample with
    transactCommit := fun db tx ↦
      let recipient := tx.recipient.getD (tx.sender + BitVec.ofNat 160 (2 ^ 64 * (tx.nonce + 1)))
      let held := Revm.sample.basicBalance db tx.sender
      if held < tx.value then (db, .error "LackOfFundForMaxFee")
      else
        let paid := db.withBalance tx.sender (held - tx.value)
        (paid.withBalance recipient (Revm.sample.basicBalance paid recipient + tx.value),
          .ok (.success 21000 []))
    contractAddress := fun sender nonce ↦ sender + BitVec.ofNat 160 (2 ^ 64 * (nonce + 1)) }

/-- A transaction of a sender, without gas price, with its value, nonce and hash given. -/
def EvmTransaction.sample (hash : ℕ) (sender : EvmAddress) (recipient : Option EvmAddress)
    (value nonce : ℕ) : EvmTransaction :=
  { hash := BitVec.ofNat 256 hash, sender, recipient, value, gasPrice := 0, gasLimit := 100000
    data := [], nonce, raw := [], firstSeenAtNs := 1 }

end Fluidic.Evm
