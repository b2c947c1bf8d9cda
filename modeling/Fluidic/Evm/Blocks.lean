import Fluidic.Evm.Lifecycle

/-!
# Receipts as blocks

The gateway of `src/api/evm_rpc.rs` shows the ticks of a node as blocks: the block of a tick is the
receipts that carry its number. `Blocks` says what makes the receipts of a pool a chain of blocks:
the block of a receipt is below the tick, its hash is that of its tick, no two receipts share a
place in a block, and the cumulative gas of a receipt is the gas of its block up to its place.

`Filling` is the same in the middle of a synthesis, with the block of the tick filled up to the next
place. `Grows` says that a later pool has the receipts of an earlier one, and that its new ones are
in blocks from a tick on and of transactions that were open, so that the blocks below the tick and
the resolved transactions are final.
-/

set_option autoImplicit false
set_option relaxedAutoImplicit false

namespace Fluidic.Evm

open Library Crypto
open Std (ExtTreeMap LawfulEqCmp)

variable {revm : Revm}

/-! ### The receipt and the status of a run -/

/-- The status that a run leaves: a final one, and not that of a wrong nonce, which was not run. -/
structure RunStatus (status : EvmTxStatus) : Prop where
  final : status ≠ .pending
  ran (expected : ℕ) : status ≠ .failed s!"invalid nonce: expected {expected}"

/-- No text of a run names an expected nonce. Assumes: the outcome has the text. -/
theorem runStatus_failed {outcome : Except String ExecutionResult} {reason : String}
    (hfailure : EvmPool.failure outcome = some reason) : RunStatus (.failed reason) := by
  refine ⟨EvmTxStatus.noConfusion, fun expected hsame ↦ ?_⟩
  have htext : reason.toList.head? = some 'i' := by
    rw [EvmTxStatus.failed.inj hsame]
    simp [String.toList_append, toString]
  -- The texts of a run start with their own words: reverted, halted, or the error of the library.
  cases outcome with
  | error error =>
    obtain rfl := Option.some.inj hfailure
    simp [String.toList_append, toString] at htext
  | ok result =>
    cases result with
    | success gasUsed logs => cases hfailure
    | revert gasUsed output =>
      obtain rfl := Option.some.inj hfailure
      simp [String.toList_append, toString] at htext
    | halt gasUsed halted =>
      obtain rfl := Option.some.inj hfailure
      simp [String.toList_append, toString] at htext

/-- The receipt that running a transaction with the expected nonce leaves. -/
def receiptOf (prim : Primitives) (tick : ℕ) (progress : EvmProgress revm)
    (entry : EvmTransaction × ℕ) : EvmReceipt :=
  let (tx, index) := entry
  let outcome := (progress.executor.execute tx).2
  { transactionHash := tx.hash
    transactionIndex := index
    blockNumber := tick
    blockHash := blockHashFor prim tick
    sender := tx.sender
    recipient := tx.recipient
    contractAddress :=
      if (EvmPool.failure outcome).isNone && tx.recipient.isNone then
        some (revm.contractAddress tx.sender tx.nonce)
      else none
    gasUsed := EvmPool.resultGas outcome
    cumulativeGasUsed := wrappingAdd 64 progress.cumulativeGas (EvmPool.resultGas outcome)
    effectiveGasPrice := tx.gasPrice
    status := if (EvmPool.failure outcome).isNone then 1 else 0
    logs := EvmPool.resultLogs outcome }

/-- Running a transaction resolves it. With the wrong nonce it gets no receipt, and the text names
the nonce that was expected; otherwise it gets one, and the gas counter follows it. -/
theorem applyTransaction_cases (prim : Primitives) (tick : ℕ) (progress : EvmProgress revm)
    (entry : EvmTransaction × ℕ) :
    (EvmPool.applyTransaction prim tick progress entry = { progress with
      pool := { progress.pool with
        statuses := progress.pool.statuses.insert entry.1.hash
          (.failed s!"invalid nonce: expected {progress.pool.nonces.getD entry.1.sender 0}") } }) ∨
    ∃ nonces status executor appliedHashes, RunStatus status ∧
      EvmPool.applyTransaction prim tick progress entry =
        { pool := { progress.pool with
            nonces
            statuses := progress.pool.statuses.insert entry.1.hash status
            receipts := progress.pool.receipts.insert entry.1.hash
              (receiptOf prim tick progress entry) }
          executor, appliedHashes
          cumulativeGas := (receiptOf prim tick progress entry).cumulativeGasUsed } := by
  obtain ⟨tx, index⟩ := entry
  unfold EvmPool.applyTransaction
  dsimp only
  by_cases hnonce : tx.nonce ≠ progress.pool.nonces.getD tx.sender 0
  · exact .inl (if_pos hnonce)
  · rw [if_neg hnonce]
    right
    unfold receiptOf
    dsimp only
    cases hfailure : EvmPool.failure (progress.executor.execute tx).2 with
    | some reason =>
      exact ⟨progress.pool.nonces, .failed reason, (progress.executor.execute tx).1,
        progress.appliedHashes, runStatus_failed hfailure, rfl⟩
    | none =>
      exact ⟨progress.pool.nonces.insert tx.sender
          (wrappingAdd 64 (progress.pool.nonces.getD tx.sender 0) 1), .success,
        (progress.executor.execute tx).1, progress.appliedHashes ++ [tx.hash],
        ⟨EvmTxStatus.noConfusion, fun _ ↦ EvmTxStatus.noConfusion⟩, rfl⟩

/-- A run that did not succeed leaves no logs and creates no contract. -/
theorem outcome_receiptOf (prim : Primitives) (tick : ℕ) (progress : EvmProgress revm)
    (entry : EvmTransaction × ℕ) :
    (receiptOf prim tick progress entry).status = 1 ∨
      (receiptOf prim tick progress entry).status = 0 ∧
        (receiptOf prim tick progress entry).logs = [] ∧
        (receiptOf prim tick progress entry).contractAddress = none := by
  unfold receiptOf
  dsimp only
  cases (progress.executor.execute entry.1).2 with
  | error reason => exact .inr ⟨rfl, rfl, rfl⟩
  | ok result =>
    cases result with
    | success gasUsed logs => exact .inl rfl
    | revert gasUsed output => exact .inr ⟨rfl, rfl, rfl⟩
    | halt gasUsed reason => exact .inr ⟨rfl, rfl, rfl⟩

/-! ### The gas of a block -/

/-- The gas that the receipts of a block used up to a place in it. -/
def gasThrough (receipts : ExtTreeMap H256 EvmReceipt) (block index : ℕ) : ℕ :=
  sumBy (fun _ receipt ↦
    if receipt.blockNumber = block ∧ receipt.transactionIndex ≤ index then receipt.gasUsed else 0)
    receipts

/-- The gas that the receipts of a block used. -/
def blockGas (receipts : ExtTreeMap H256 EvmReceipt) (block : ℕ) : ℕ :=
  sumBy (fun _ receipt ↦ if receipt.blockNumber = block then receipt.gasUsed else 0) receipts

/-- A receipt of another block, or later in the block, adds no gas up to a place. Assumes: the hash
has no receipt, and the place of the new one is not among those counted. -/
theorem gasThrough_insert_of_later {receipts : ExtTreeMap H256 EvmReceipt} {hash : H256}
    {receipt : EvmReceipt} {block index : ℕ} (hnew : receipts[hash]? = none)
    (hlater : ¬(receipt.blockNumber = block ∧ receipt.transactionIndex ≤ index)) :
    gasThrough (receipts.insert hash receipt) block index = gasThrough receipts block index := by
  have hinsert := sumBy_insert (fun (_ : H256) (receipt : EvmReceipt) ↦
    if receipt.blockNumber = block ∧ receipt.transactionIndex ≤ index then receipt.gasUsed else 0)
    receipts hash receipt
  rw [hnew, Option.elim_none, Nat.add_zero] at hinsert
  unfold gasThrough
  rw [hinsert, if_neg hlater, Nat.add_zero]

/-- A receipt adds its gas to its block and to no other. Assumes: the hash has no receipt. -/
theorem blockGas_insert {receipts : ExtTreeMap H256 EvmReceipt} {hash : H256}
    {receipt : EvmReceipt} (hnew : receipts[hash]? = none) (block : ℕ) :
    blockGas (receipts.insert hash receipt) block =
      blockGas receipts block + if receipt.blockNumber = block then receipt.gasUsed else 0 := by
  have hinsert := sumBy_insert (fun (_ : H256) (receipt : EvmReceipt) ↦
    if receipt.blockNumber = block then receipt.gasUsed else 0) receipts hash receipt
  rw [hnew, Option.elim_none, Nat.add_zero] at hinsert
  exact hinsert

/-- Up to a place that no receipt of a block is beyond, the gas is that of the block. Assumes: the
receipts of the block are at places up to it. -/
theorem gasThrough_eq_blockGas {receipts : ExtTreeMap H256 EvmReceipt} {block index : ℕ}
    (hplaces : ∀ (hash : H256) (receipt : EvmReceipt), receipts[hash]? = some receipt →
      receipt.blockNumber = block → receipt.transactionIndex ≤ index) :
    gasThrough receipts block index = blockGas receipts block :=
  sumBy_congr fun hash receipt hreceipt ↦ by
    by_cases hblock : receipt.blockNumber = block
    · rw [if_pos hblock, if_pos ⟨hblock, hplaces hash receipt hreceipt hblock⟩]
    · rw [if_neg hblock, if_neg fun hboth ↦ hblock hboth.1]

/-! ### Blocks -/

/-- What a receipt says of itself and of its transaction. -/
structure Describes (prim : Primitives) (pool : EvmPool revm) (hash : H256)
    (receipt : EvmReceipt) : Prop where
  hash_eq : receipt.transactionHash = hash
  blockHash_eq : receipt.blockHash = blockHashFor prim receipt.blockNumber
  transaction : ∃ tx, pool.transactions[hash]? = some tx ∧ receipt.sender = tx.sender ∧
    receipt.recipient = tx.recipient ∧ receipt.effectiveGasPrice = tx.gasPrice
  resolved : ∃ status, RunStatus status ∧ pool.statuses[hash]? = some status
  outcome : receipt.status = 1 ∨
    receipt.status = 0 ∧ receipt.logs = [] ∧ receipt.contractAddress = none

/-- The status of a transaction without a receipt: there is none, it is pending, or the transaction
had the wrong nonce. -/
inductive Unplaced : Option EvmTxStatus → Prop
  | unknown : Unplaced none
  | pending : Unplaced (some .pending)
  | wrongNonce (expected : ℕ) :
      Unplaced (some (.failed s!"invalid nonce: expected {expected}"))

/-- The receipts of a pool as blocks, below a limit for each receipt. -/
structure Placed (prim : Primitives) (below : EvmReceipt → Prop) (pool : EvmPool revm) :
    Prop where
  describes : ∀ (hash : H256) (receipt : EvmReceipt), pool.receipts[hash]? = some receipt →
    Describes prim pool hash receipt
  below : ∀ (hash : H256) (receipt : EvmReceipt), pool.receipts[hash]? = some receipt →
    below receipt
  apart : ∀ (first second : H256) (receipt other : EvmReceipt),
    pool.receipts[first]? = some receipt → pool.receipts[second]? = some other →
    receipt.blockNumber = other.blockNumber →
    receipt.transactionIndex = other.transactionIndex → first = second
  cumulative : ∀ (hash : H256) (receipt : EvmReceipt), pool.receipts[hash]? = some receipt →
    receipt.cumulativeGasUsed =
      gasThrough pool.receipts receipt.blockNumber receipt.transactionIndex % 2 ^ 64
  unplaced : ∀ hash : H256, pool.receipts[hash]? = none → Unplaced pool.statuses[hash]?

/-- The receipts of a pool form the blocks below a tick. -/
def Blocks (prim : Primitives) (tick : ℕ) (pool : EvmPool revm) : Prop :=
  Placed prim (fun receipt ↦ receipt.blockNumber < tick) pool

/-- A receipt is in a block below the tick, or in the block of the tick below a place. -/
def BelowPlace (tick next : ℕ) (receipt : EvmReceipt) : Prop :=
  receipt.blockNumber < tick ∨ receipt.blockNumber = tick ∧ receipt.transactionIndex < next

/-- A synthesis that has filled the block of its tick up to a place, with the transactions it still
has to run. -/
structure Filling (prim : Primitives) (tick next : ℕ) (rest : List EvmTransaction)
    (progress : EvmProgress revm) : Prop where
  placed : Placed prim (BelowPlace tick next) progress.pool
  queued : Queued rest progress.pool
  gas : progress.cumulativeGas = blockGas progress.pool.receipts tick % 2 ^ 64

/-- A later pool has settled and has the receipts of an earlier one; the new ones are in blocks from
a tick on, and of transactions that were not resolved. -/
structure Grows (tick : ℕ) (earlier later : EvmPool revm) : Prop extends Settles earlier later where
  kept : ∀ (hash : H256) (receipt : EvmReceipt), earlier.receipts[hash]? = some receipt →
    later.receipts[hash]? = some receipt
  fresh : ∀ (hash : H256) (receipt : EvmReceipt), later.receipts[hash]? = some receipt →
    earlier.receipts[hash]? = some receipt ∨
      tick ≤ receipt.blockNumber ∧
        ∀ status, earlier.statuses[hash]? = some status → status = .pending

/-! ### One transaction -/

/-- What a receipt says stays true while the statuses of other transactions change. Assumes: the
receipt is described, and the pool changed no more than the status of another hash. -/
theorem Describes.of_resolve {prim : Primitives} {pool pool' : EvmPool revm} {hash resolved : H256}
    {receipt : EvmReceipt} {status : EvmTxStatus} (hdescribes : Describes prim pool hash receipt)
    (hother : resolved ≠ hash)
    (hstatuses : pool'.statuses = pool.statuses.insert resolved status)
    (htransactions : pool'.transactions = pool.transactions) :
    Describes prim pool' hash receipt where
  hash_eq := hdescribes.hash_eq
  blockHash_eq := hdescribes.blockHash_eq
  transaction := by
    rw [htransactions]
    exact hdescribes.transaction
  resolved := by
    rw [hstatuses, getElem?_insert_of_ne _ hother]
    exact hdescribes.resolved
  outcome := hdescribes.outcome

namespace Filling

variable {prim : Primitives} {tick next : ℕ} {tx : EvmTransaction} {rest : List EvmTransaction}
  {progress : EvmProgress revm}

/-- A transaction that is still to run has no receipt. Assumes: the synthesis has filled the block
up to the place, and has the transaction still to run. -/
theorem receipts_of_mem (hfilling : Filling prim tick next rest progress) (htx : tx ∈ rest) :
    progress.pool.receipts[tx.hash]? = none := by
  by_contra hsome
  obtain ⟨receipt, hreceipt⟩ := Option.ne_none_iff_exists'.mp hsome
  obtain ⟨status, hran, hstatus⟩ :=
    (hfilling.placed.describes tx.hash receipt hreceipt).resolved
  rw [hfilling.queued.status_of_mem htx] at hstatus
  exact hran.final (Option.some.inj hstatus).symm

/-- A block that is filled up to a place is filled up to the next. Assumes: the receipt is below the
place. -/
theorem below_succ {receipt : EvmReceipt} (hbelow : BelowPlace tick next receipt) :
    BelowPlace tick (next + 1) receipt := by
  rcases hbelow with hearlier | ⟨hblock, hplace⟩
  · exact .inl hearlier
  · exact .inr ⟨hblock, by omega⟩

/-- The receipt of the next place joins the blocks. Assumes: the synthesis has filled the block up
to the place, the receipt is at that place and is described by the new pool, and the new pool has
it, the old receipts and the old statuses of other hashes. -/
theorem place (hfilling : Filling prim tick next (tx :: rest) progress) {pool' : EvmPool revm}
    {receipt : EvmReceipt} (hblock : receipt.blockNumber = tick)
    (hplace : receipt.transactionIndex = next)
    (hgas : receipt.cumulativeGasUsed =
      wrappingAdd 64 progress.cumulativeGas receipt.gasUsed)
    (hreceipts : pool'.receipts = progress.pool.receipts.insert tx.hash receipt)
    (hdescribes : ∀ (hash : H256) (other : EvmReceipt), pool'.receipts[hash]? = some other →
      Describes prim pool' hash other)
    (hstatuses : ∀ hash : H256, tx.hash ≠ hash →
      pool'.statuses[hash]? = progress.pool.statuses[hash]?) :
    Placed prim (BelowPlace tick (next + 1)) pool' ∧
      receipt.cumulativeGasUsed = blockGas pool'.receipts tick % 2 ^ 64 := by
  have hnew := hfilling.receipts_of_mem List.mem_cons_self
  have hcases : ∀ (hash : H256) (other : EvmReceipt), pool'.receipts[hash]? = some other →
      tx.hash = hash ∧ receipt = other ∨
        tx.hash ≠ hash ∧ progress.pool.receipts[hash]? = some other := by
    intro hash other hother
    rw [hreceipts, ExtTreeMap.getElem?_insert] at hother
    split_ifs at hother with hsame
    · exact .inl ⟨LawfulEqCmp.compare_eq_iff_eq.mp hsame, Option.some.inj hother⟩
    · exact .inr ⟨mt LawfulEqCmp.compare_eq_iff_eq.mpr hsame, hother⟩
  have hbefore : ∀ (hash : H256) (other : EvmReceipt),
      progress.pool.receipts[hash]? = some other → other.blockNumber = tick →
      other.transactionIndex < next := by
    intro hash other hother htick
    rcases hfilling.placed.below hash other hother with hearlier | ⟨-, hlower⟩
    · omega
    · exact hlower
  have htotal : blockGas pool'.receipts tick =
      blockGas progress.pool.receipts tick + receipt.gasUsed := by
    rw [hreceipts, blockGas_insert hnew, if_pos hblock]
  have hcumulative : receipt.cumulativeGasUsed = blockGas pool'.receipts tick % 2 ^ 64 := by
    rw [hgas, hfilling.gas, htotal, wrappingAdd, Nat.mod_add_mod]
  refine ⟨⟨hdescribes, ?_, ?_, ?_, ?_⟩, hcumulative⟩
  · intro hash other hother
    rcases hcases hash other hother with ⟨-, rfl⟩ | ⟨-, hold⟩
    · exact .inr ⟨hblock, by omega⟩
    · exact below_succ (hfilling.placed.below hash other hold)
  · intro first second one other hfirst hsecond hsame hindex
    rcases hcases first one hfirst with ⟨hone, rfl⟩ | ⟨-, hfirst⟩
    · rcases hcases second other hsecond with ⟨hother, -⟩ | ⟨-, hsecond⟩
      · exact hone.symm.trans hother
      · have hlower := hbefore second other hsecond (by omega)
        omega
    · rcases hcases second other hsecond with ⟨-, rfl⟩ | ⟨-, hsecond⟩
      · have hlower := hbefore first one hfirst (by omega)
        omega
      · exact hfilling.placed.apart first second one other hfirst hsecond hsame hindex
  · intro hash other hother
    rcases hcases hash other hother with ⟨-, rfl⟩ | ⟨-, hold⟩
    · rw [hcumulative, hblock, hplace, gasThrough_eq_blockGas]
      intro hash' other' hother' htick
      rcases hcases hash' other' hother' with ⟨-, rfl⟩ | ⟨-, hold'⟩
      · exact hplace.le
      · exact (hbefore hash' other' hold' htick).le
    · rw [hfilling.placed.cumulative hash other hold, hreceipts, gasThrough_insert_of_later hnew]
      rintro ⟨hsame, hlower⟩
      have hlast := hbefore hash other hold (by omega)
      omega
  · intro hash hnone
    rw [hreceipts, ExtTreeMap.getElem?_insert] at hnone
    split_ifs at hnone with hsame
    rw [hstatuses hash (mt LawfulEqCmp.compare_eq_iff_eq.mpr hsame)]
    exact hfilling.placed.unplaced hash hnone

/-- Running the next transaction fills the next place, or leaves it empty. Assumes: the synthesis
has filled the block up to the place. -/
theorem applyTransaction (hfilling : Filling prim tick next (tx :: rest) progress) :
    Filling prim tick (next + 1) rest
      (EvmPool.applyTransaction prim tick progress (tx, next)) := by
  have hnew := hfilling.receipts_of_mem List.mem_cons_self
  rcases applyTransaction_cases prim tick progress (tx, next) with hrefused |
    ⟨nonces, status, executor, appliedHashes, hran, hrun⟩
  · rw [hrefused]
    have hplaced := hfilling.placed
    refine ⟨⟨fun hash receipt hreceipt ↦ ?_, fun hash receipt hreceipt ↦ ?_, hplaced.apart,
      hplaced.cumulative, fun hash hnone ↦ ?_⟩,
      hfilling.queued.resolve EvmTxStatus.noConfusion rfl rfl, hfilling.gas⟩
    · have hother : tx.hash ≠ hash := by
        rintro rfl
        cases hnew.symm.trans hreceipt
      exact (hplaced.describes hash receipt hreceipt).of_resolve hother rfl rfl
    · exact below_succ (hplaced.below hash receipt hreceipt)
    · dsimp only
      rw [ExtTreeMap.getElem?_insert]
      split_ifs
      · exact .wrongNonce _
      · exact hplaced.unplaced hash hnone
  · rw [hrun]
    obtain ⟨hplaced, hgas⟩ := @place _ _ _ _ _ _ _ hfilling { progress.pool with
      nonces
      statuses := progress.pool.statuses.insert tx.hash status
      receipts := progress.pool.receipts.insert tx.hash
        (receiptOf prim tick progress (tx, next)) } _ rfl rfl rfl rfl (by
        intro hash other hother
        dsimp only at hother
        rw [ExtTreeMap.getElem?_insert] at hother
        split_ifs at hother with hsame
        · obtain rfl := LawfulEqCmp.compare_eq_iff_eq.mp hsame
          obtain rfl := Option.some.inj hother
          exact ⟨rfl, rfl, ⟨tx, hfilling.queued.indexed tx List.mem_cons_self, rfl, rfl, rfl⟩,
            ⟨status, hran, ExtTreeMap.getElem?_insert_self⟩,
            outcome_receiptOf prim tick progress (tx, next)⟩
        · exact (hfilling.placed.describes hash other hother).of_resolve
            (mt LawfulEqCmp.compare_eq_iff_eq.mpr hsame) rfl rfl)
      fun hash hne ↦ getElem?_insert_of_ne _ hne _
    exact ⟨hplaced, hfilling.queued.resolve hran.final rfl rfl, hgas⟩

/-- Running the rest of the queue fills the block. Assumes: the synthesis has filled the block up to
the place. -/
theorem applyAll (hfilling : Filling prim tick next rest progress) :
    Filling prim tick (next + rest.length) []
      ((rest.zipIdx next).foldl (EvmPool.applyTransaction prim tick) progress) := by
  induction rest generalizing next progress with
  | nil => exact hfilling
  | cons tx rest ih =>
    rw [List.zipIdx_cons, List.foldl_cons, List.length_cons, Nat.add_comm rest.length,
      ← Nat.add_assoc]
    exact ih hfilling.applyTransaction

/-- Running the next transaction only adds a receipt of the block of the tick. Assumes: the
synthesis has filled the block up to the place, and the pool has grown since an earlier one. -/
theorem grows_applyTransaction {earlier : EvmPool revm}
    (hfilling : Filling prim tick next (tx :: rest) progress)
    (hgrows : Grows tick earlier progress.pool) :
    Grows tick earlier (EvmPool.applyTransaction prim tick progress (tx, next)).pool := by
  have hopen : progress.pool.statuses[tx.hash]? = some .pending :=
    hfilling.queued.status_of_mem List.mem_cons_self
  have hsettles {pool' : EvmPool revm} {status : EvmTxStatus}
      (hstatuses : pool'.statuses = progress.pool.statuses.insert tx.hash status) :
      Settles earlier pool' :=
    hgrows.toSettles.trans (settles_of_insert tx.hash status hstatuses fun other hother ↦ by
      rw [hopen] at hother
      exact (Option.some.inj hother).symm)
  rcases applyTransaction_cases prim tick progress (tx, next) with hrefused |
    ⟨nonces, status, executor, appliedHashes, -, hrun⟩
  · rw [hrefused]
    exact ⟨hsettles rfl, hgrows.kept, hgrows.fresh⟩
  · rw [hrun]
    have hnew := hfilling.receipts_of_mem List.mem_cons_self
    refine ⟨hsettles rfl, fun hash receipt hreceipt ↦ ?_, fun hash receipt hreceipt ↦ ?_⟩
    · have hkept := hgrows.kept hash receipt hreceipt
      have hne : tx.hash ≠ hash := by
        rintro rfl
        rw [hnew] at hkept
        cases hkept
      dsimp only
      rwa [getElem?_insert_of_ne _ hne]
    · dsimp only at hreceipt
      rw [ExtTreeMap.getElem?_insert] at hreceipt
      split_ifs at hreceipt with hsame
      · obtain rfl := Option.some.inj hreceipt
        obtain rfl := LawfulEqCmp.compare_eq_iff_eq.mp hsame
        refine .inr ⟨le_rfl, fun status hstatus ↦ ?_⟩
        by_contra hfinal
        have hkept := hgrows.resolved tx.hash status hfinal hstatus
        rw [hopen] at hkept
        exact hfinal (Option.some.inj hkept).symm
      · exact hgrows.fresh hash receipt hreceipt

/-- Running the rest of the queue only adds receipts of the block of the tick. Assumes: the
synthesis has filled the block up to the place, and the pool has grown since an earlier one. -/
theorem grows_applyAll {earlier : EvmPool revm}
    (hfilling : Filling prim tick next rest progress)
    (hgrows : Grows tick earlier progress.pool) :
    Grows tick earlier
      ((rest.zipIdx next).foldl (EvmPool.applyTransaction prim tick) progress).pool := by
  induction rest generalizing next progress with
  | nil => exact hgrows
  | cons tx rest ih =>
    rw [List.zipIdx_cons, List.foldl_cons]
    exact ih hfilling.applyTransaction (hfilling.grows_applyTransaction hgrows)

end Filling

/-! ### A pool -/

namespace Grows

/-- A pool that settled and has the same receipts has grown. Assumes: the later pool has settled and
has the same receipts. -/
theorem of_receipts_eq {tick : ℕ} {earlier later : EvmPool revm} (hsettles : Settles earlier later)
    (hreceipts : later.receipts = earlier.receipts) : Grows tick earlier later where
  toSettles := hsettles
  kept hash receipt hreceipt := by rwa [hreceipts]
  fresh hash receipt hreceipt := .inl (by rwa [hreceipts] at hreceipt)

/-- A pool that grew twice has grown from the first tick. Assumes: the pool grew from a tick and
then from one that is not earlier. -/
theorem trans {tick tick' : ℕ} {first second third : EvmPool revm}
    (hfirst : Grows tick first second) (hsecond : Grows tick' second third) (hle : tick ≤ tick') :
    Grows tick first third where
  toSettles := hfirst.toSettles.trans hsecond.toSettles
  kept hash receipt hreceipt := hsecond.kept hash receipt (hfirst.kept hash receipt hreceipt)
  fresh hash receipt hreceipt := by
    rcases hsecond.fresh hash receipt hreceipt with hold | ⟨hlater, hopen⟩
    · exact hfirst.fresh hash receipt hold
    · refine .inr ⟨hle.trans hlater, fun status hstatus ↦ ?_⟩
      by_contra hfinal
      exact hfinal (hopen status (hfirst.resolved hash status hfinal hstatus))

/-- Submitting a transaction leaves the receipts alone. -/
theorem of_submit (tick : ℕ) (pool : EvmPool revm) (tx : EvmTransaction) (nowNs : ℕ) :
    Grows tick pool (pool.submit tx nowNs) := by
  refine of_receipts_eq (settles_submit pool tx nowNs) ?_
  rcases submit_cases pool tx nowNs with ⟨_, heq⟩ | ⟨_, stamped, _, heq⟩
  · rw [heq]
  · rw [heq]

end Grows

namespace Blocks

variable {prim : Primitives} {tick : ℕ} {pool pool' : EvmPool revm}

/-- An empty pool has no blocks. -/
theorem new (prim : Primitives) (tick : ℕ) : Blocks prim tick (EvmPool.new : EvmPool revm) := by
  have hnone : ∀ (hash : H256) (receipt : EvmReceipt),
      (EvmPool.new : EvmPool revm).receipts[hash]? ≠ some receipt := by
    intro hash receipt hreceipt
    exact absurd (mem_iff_exists_getElem?.mpr ⟨receipt, hreceipt⟩) ExtTreeMap.not_mem_empty
  exact ⟨fun hash receipt hreceipt ↦ absurd hreceipt (hnone hash receipt),
    fun hash receipt hreceipt ↦ absurd hreceipt (hnone hash receipt),
    fun first _ receipt _ hreceipt ↦ absurd hreceipt (hnone first receipt),
    fun hash receipt hreceipt ↦ absurd hreceipt (hnone hash receipt), fun hash _ ↦ .unknown⟩

/-- The blocks below a tick are below every later one. Assumes: the tick is not later. -/
theorem mono {tick' : ℕ} (hblocks : Blocks prim tick pool) (hle : tick ≤ tick') :
    Blocks prim tick' pool :=
  ⟨hblocks.describes, fun hash receipt hreceipt ↦
    (hblocks.below hash receipt hreceipt).trans_le hle, hblocks.apart, hblocks.cumulative,
    hblocks.unplaced⟩

/-- Submitting a transaction leaves the blocks alone. Assumes: the receipts of the pool form blocks
below the tick. -/
theorem submit (hblocks : Blocks prim tick pool) (tx : EvmTransaction) (nowNs : ℕ) :
    Blocks prim tick (pool.submit tx nowNs) := by
  rcases submit_cases pool tx nowNs with ⟨_, heq⟩ | ⟨hunknown, stamped, hhash, heq⟩
  · rwa [heq]
  rw [heq]
  refine ⟨fun hash receipt hreceipt ↦ ?_, hblocks.below, hblocks.apart, hblocks.cumulative,
    fun hash hnone ↦ ?_⟩
  · have hdescribes := hblocks.describes hash receipt hreceipt
    obtain ⟨status, hran, hstatus⟩ := hdescribes.resolved
    have hne : stamped.hash ≠ hash := by
      rintro rfl
      rw [← hhash] at hunknown
      exact hunknown (mem_iff_exists_getElem?.mpr ⟨status, hstatus⟩)
    exact ⟨hdescribes.hash_eq, hdescribes.blockHash_eq,
      by dsimp only; rw [getElem?_insert_of_ne _ hne]; exact hdescribes.transaction,
      ⟨status, hran, by dsimp only; rwa [getElem?_insert_of_ne _ hne]⟩, hdescribes.outcome⟩
  · dsimp only
    rw [ExtTreeMap.getElem?_insert]
    split_ifs
    · exact .pending
    · exact hblocks.unplaced hash hnone

/-- A synthesis adds the block of its tick and no other. Assumes: the receipts of the pool form
blocks below the tick, its queue is indexed and pending, and the synthesis returns. -/
theorem synthesize {order : IterationOrder EvmAddress} {balances written : ExtTreeMap AccountId ℕ}
    {applied : List H256} (hblocks : Blocks prim tick pool) (hqueued : Queued pool.pending pool)
    (hsynthesize : pool.synthesize prim order balances tick = some (pool', written, applied)) :
    Blocks prim (tick + 1) pool' ∧ Grows tick pool pool' := by
  obtain ⟨synced, -, hresult⟩ := Option.bind_eq_some_iff.mp hsynthesize
  obtain ⟨rfl, -⟩ := Prod.mk.injEq .. ▸ Option.some.inj hresult
  set queue := pool.pending.insertionSort fun first second ↦ EvmPool.runsBefore first second
    with hqueue
  have hsorted : Queued queue pool := hqueued.perm (List.perm_insertionSort _ _)
  have hstart : Filling prim tick 0 queue
      { pool := { pool with pending := [] }
        executor := (⟨pool.db, ∅⟩ : EvmExecutor revm).prepare prim queue balances pool.nonces
        appliedHashes := [], cumulativeGas := 0 } := by
    refine ⟨⟨fun hash receipt hreceipt ↦ ?_, fun hash receipt hreceipt ↦
      .inl (hblocks.below hash receipt hreceipt), hblocks.apart, hblocks.cumulative,
      hblocks.unplaced⟩, ⟨hsorted.distinct, hsorted.indexed, hsorted.pending⟩, ?_⟩
    · have hdescribes := hblocks.describes hash receipt hreceipt
      exact ⟨hdescribes.hash_eq, hdescribes.blockHash_eq, hdescribes.transaction,
        hdescribes.resolved, hdescribes.outcome⟩
    · have hnone : blockGas pool.receipts tick = 0 := by
        refine List.sum_eq_zero fun gas hgas ↦ ?_
        obtain ⟨⟨hash, receipt⟩, hentry, rfl⟩ := List.mem_map.mp hgas
        have hbelow := hblocks.below hash receipt
          (ExtTreeMap.mem_toList_iff_getElem?_eq_some.mp hentry)
        exact if_neg hbelow.ne
      dsimp only
      rw [hnone]
      rfl
  have hfinal := hstart.applyAll
  have hgrows := hstart.grows_applyAll (@Grows.of_receipts_eq _ tick pool
    { pool with pending := [] } ⟨fun _ hmem ↦ hmem, fun _ _ _ hstatus ↦ hstatus⟩ rfl)
  refine ⟨⟨fun hash receipt hreceipt ↦ ?_, fun hash receipt hreceipt ↦ ?_, hfinal.placed.apart,
    hfinal.placed.cumulative, hfinal.placed.unplaced⟩,
    ⟨⟨hgrows.known, hgrows.resolved⟩, hgrows.kept, hgrows.fresh⟩⟩
  · have hdescribes := hfinal.placed.describes hash receipt hreceipt
    exact ⟨hdescribes.hash_eq, hdescribes.blockHash_eq, hdescribes.transaction,
      hdescribes.resolved, hdescribes.outcome⟩
  · rcases hfinal.placed.below hash receipt hreceipt with hearlier | ⟨hblock, -⟩
    · omega
    · omega

end Blocks

end Fluidic.Evm
