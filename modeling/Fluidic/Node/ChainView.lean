import Fluidic.Node.Refinement
import Mathlib.Data.List.Flatten

/-!
# The chain that the gateway shows

A wallet sees the ticks of a node as blocks. On a node that started without a snapshot the blocks
below the tick are final: whatever is submitted or synthesized later, a block keeps its transactions
and its gas (`blocks_final`). The tags `latest`, `safe`, `pending` and `finalized` name the block of
the tick that is not synthesized yet, which is always empty. A block is found by its hash as by its
number (`getBlockByHash_agrees`), the receipt of a transaction agrees with its status, its block and
the transaction itself (`receipts_agree`), the cumulative gas of a receipt is that of its block up
to its place (`receipts_placed`), and logs only ever accumulate (`logs_accumulate`).
-/

set_option autoImplicit false
set_option relaxedAutoImplicit false

namespace Fluidic.Node

open Library Crypto Consensus Operator Api Evm
open Std (ExtTreeMap LawfulEqCmp)

variable {platform : Platform}

/-! ### The contents of a block -/

section Contents

variable {revm : Revm}

/-- A wrapping sum of a list is the sum modulo the width. Assumes: the start is within the width. -/
theorem foldl_wrappingAdd {α : Type} (width : ℕ) (weight : α → ℕ) (entries : List α) {start : ℕ}
    (hstart : start < 2 ^ width) :
    entries.foldl (fun total entry ↦ wrappingAdd width total (weight entry)) start =
      (start + (entries.map weight).sum) % 2 ^ width := by
  induction entries generalizing start with
  | nil => exact (Nat.mod_eq_of_lt hstart).symm
  | cons entry entries ih =>
    have hnext : wrappingAdd width start (weight entry) < 2 ^ width :=
      Nat.mod_lt _ (Nat.two_pow_pos width)
    rw [List.foldl_cons, ih hnext, wrappingAdd, Nat.mod_add_mod, List.map_cons, List.sum_cons,
      Nat.add_assoc]

/-- The receipts of a block with their keys. -/
def blockEntries (receipts : ExtTreeMap H256 EvmReceipt) (block : ℕ) : List (H256 × EvmReceipt) :=
  receipts.toList.filter fun entry ↦ entry.2.blockNumber = block

theorem mem_blockEntries {receipts : ExtTreeMap H256 EvmReceipt} {block : ℕ} {hash : H256}
    {receipt : EvmReceipt} :
    (hash, receipt) ∈ blockEntries receipts block ↔
      receipts[hash]? = some receipt ∧ receipt.blockNumber = block := by
  unfold blockEntries
  rw [List.mem_filter, ExtTreeMap.mem_toList_iff_getElem?_eq_some, decide_eq_true_eq]

/-- The transactions of a block are listed in some order, and the gas is their sum. -/
theorem blockContents_eq (pool : EvmPool revm) (order : IterationOrder (H256 × EvmReceipt))
    (block : ℕ) :
    (blockContents pool order block).1.Perm
        ((blockEntries pool.receipts block).map fun entry ↦ entry.2.transactionHash) ∧
      (blockContents pool order block).2 =
        ((blockEntries pool.receipts block).map fun entry ↦ entry.2.gasUsed).sum % 2 ^ 64 := by
  have hperm : ((order.visit pool.receipts.toList).filter
      fun entry ↦ entry.2.blockNumber = block).Perm (blockEntries pool.receipts block) :=
    (order.visit_perm _).filter _
  refine ⟨hperm.map _, ?_⟩
  unfold blockContents
  dsimp only
  rw [foldl_wrappingAdd 64 (fun entry : H256 × EvmReceipt ↦ entry.2.gasUsed) _
    (Nat.two_pow_pos 64), Nat.zero_add, (hperm.map _).sum_eq]

/-- The gas of a block is that of its receipts. -/
theorem sum_blockEntries (receipts : ExtTreeMap H256 EvmReceipt) (block : ℕ) :
    ((blockEntries receipts block).map fun entry ↦ entry.2.gasUsed).sum =
      blockGas receipts block := by
  unfold blockEntries blockGas sumBy
  induction receipts.toList with
  | nil => rfl
  | cons entry entries ih =>
    rw [List.map_cons, List.sum_cons, ← ih, List.filter_cons]
    dsimp only
    by_cases hblock : entry.2.blockNumber = block
    · rw [if_pos (decide_eq_true hblock), if_pos hblock, List.map_cons, List.sum_cons]
    · rw [if_neg (by simpa using hblock), if_neg hblock, Nat.zero_add]

/-- Two pools with the same receipts of a block show the same block, up to the order of its
transactions. Assumes: the receipts of the block are the same. -/
theorem blockContents_congr {pool pool' : EvmPool revm} {block : ℕ}
    (hsame : ∀ (hash : H256) (receipt : EvmReceipt), receipt.blockNumber = block →
      (pool.receipts[hash]? = some receipt ↔ pool'.receipts[hash]? = some receipt))
    (order order' : IterationOrder (H256 × EvmReceipt)) :
    (blockContents pool' order' block).1.Perm (blockContents pool order block).1 ∧
      (blockContents pool' order' block).2 = (blockContents pool order block).2 := by
  have hentries : (blockEntries pool'.receipts block).Perm (blockEntries pool.receipts block) := by
    refine (List.perm_ext_iff_of_nodup ((nodup_toList _).filter _)
      ((nodup_toList _).filter _)).mpr fun ⟨hash, receipt⟩ ↦ ?_
    exact mem_blockEntries.trans ((and_congr_left fun hblock ↦
      (hsame hash receipt hblock).symm).trans mem_blockEntries.symm)
  obtain ⟨htxs, hgas⟩ := blockContents_eq pool order block
  obtain ⟨htxs', hgas'⟩ := blockContents_eq pool' order' block
  refine ⟨htxs'.trans ((hentries.map _).trans htxs.symm), ?_⟩
  rw [hgas, hgas', (hentries.map _).sum_eq]

/-- A block without receipts is empty. Assumes: no receipt names the block. -/
theorem blockContents_of_none {pool : EvmPool revm} {block : ℕ}
    (hnone : ∀ (hash : H256) (receipt : EvmReceipt), pool.receipts[hash]? = some receipt →
      receipt.blockNumber ≠ block) (order : IterationOrder (H256 × EvmReceipt)) :
    blockContents pool order block = ([], 0) := by
  have hentries : blockEntries pool.receipts block = [] := by
    refine List.eq_nil_iff_forall_not_mem.mpr fun ⟨hash, receipt⟩ hmem ↦ ?_
    obtain ⟨hreceipt, hblock⟩ := mem_blockEntries.mp hmem
    exact hnone hash receipt hreceipt hblock
  obtain ⟨htxs, hgas⟩ := blockContents_eq pool order block
  rw [hentries] at htxs hgas
  exact Prod.ext htxs.eq_nil hgas

end Contents

/-! ### The methods on the texts of numbers and hashes -/

/-- The text of a number is none of the tags. -/
theorem quantityHex_not_tag (number : ℕ) :
    quantityHex number ∉ ["latest", "pending", "safe", "finalized"] := by
  have hletters : (quantityHex number).toList = '0' :: 'x' :: Nat.toDigits 16 number :=
    String.toList_ofList
  have hother : ∀ tag ∈ ["latest", "pending", "safe", "finalized"],
      tag.toList.head? ≠ some '0' := by
    decide
  intro hmem
  exact hother _ hmem (by rw [hletters, List.head?_cons])

/-- The block of a number. Assumes: the number fits 64 bits. -/
theorem getBlockByNumber_quantity (state : ApiState platform)
    (order : IterationOrder (H256 × EvmReceipt)) (nowSecs : ℕ) {number : ℕ}
    (hfits : number < 2 ^ 64) :
    state.getBlockByNumber order nowSecs [.string (quantityHex number)] =
      .ok (if state.oscillator.synthesisTick < number then .null
        else blockJson platform.primitives number
          (blockContents state.oscillator.evmPool order number) nowSecs) := by
  have hread : requestedBlock state.oscillator.synthesisTick (quantityHex number) = .ok number := by
    rw [requestedBlock, if_neg (quantityHex_not_tag number), parseQuantity_quantityHex hfits]
    rfl
  unfold ApiState.getBlockByNumber
  simp only [firstText, List.head?_cons, Option.bind_some, Json.asStr, Option.elim_some, bind,
    Except.bind, hread]
  split_ifs <;> rfl

/-- The block of a tag is that of the tick. Assumes: the text is a tag. -/
theorem getBlockByNumber_tag (state : ApiState platform)
    (order : IterationOrder (H256 × EvmReceipt)) (nowSecs : ℕ) {tag : String}
    (htag : tag ∈ ["latest", "pending", "safe", "finalized"]) :
    state.getBlockByNumber order nowSecs [.string tag] =
      .ok (blockJson platform.primitives state.oscillator.synthesisTick
        (blockContents state.oscillator.evmPool order state.oscillator.synthesisTick) nowSecs) := by
  have hread : requestedBlock state.oscillator.synthesisTick tag =
      .ok state.oscillator.synthesisTick := if_pos htag
  unfold ApiState.getBlockByNumber
  simp only [firstText, List.head?_cons, Option.bind_some, Json.asStr, Option.elim_some, bind,
    Except.bind, hread]
  exact if_neg (lt_irrefl _)

/-! ### Runs from a new node -/

/-- A new node that has started. -/
def newNode (platform : Platform) (nttSize : ℕ) (localKeypair : KeyPair) (timestampNs : ℕ) :
    RunningNode platform :=
  .boot (.newWithKeypair nttSize) localKeypair timestampNs

/-- A new node that has started is at tick zero and has an empty chain. -/
theorem evmSound_newNode (nttSize : ℕ) (localKeypair : KeyPair) (timestampNs : ℕ) :
    (newNode platform nttSize localKeypair timestampNs).oscillator.EvmSound := by
  have hperforms := performs_boot (.newWithKeypair nttSize : Oscillator platform) localKeypair
    timestampNs
  have hsound : Oscillator.EvmSound { (.newWithKeypair nttSize : Oscillator platform) with
      operatorKeypair := some localKeypair } :=
    Oscillator.evmSound_create nttSize (some localKeypair) _
  obtain ⟨history, hreaches⟩ := hperforms
  exact (hsound.of_reaches (tickFits_of_plain hreaches (show 0 + 1 < 2 ^ 64 by decide))).1

variable {packages : RpcPackages platform} {nttSize timestampNs : ℕ} {localKeypair : KeyPair}

/-- What a run of a node keeps of its chain. Assumes: the run starts at a node with a chain, and the
tick counter does not wrap in it. -/
theorem evmSound_of_reaches {first last : RunningNode platform}
    {history : List (RunningNode platform × NodeEvent)} (hsound : first.oscillator.EvmSound)
    (hreaches : Reaches (serveNode packages) NodeTickFits first history last) :
    last.oscillator.EvmSound ∧ first.oscillator.Extends last.oscillator := by
  obtain ⟨operations, hoperations⟩ := exists_operations hreaches
  exact hsound.of_reaches hoperations

/-! ### A node with transfers -/

/-- The interpreter of plain transfers, which also logs each transfer that succeeds. -/
def Revm.logging : Revm :=
  { Revm.ledger with
    transactCommit := fun db tx ↦
      match Revm.ledger.transactCommit db tx with
      | (db, .ok (.success gasUsed _)) =>
        (db, .ok (.success gasUsed [{ address := tx.sender, topics := [], data := tx.raw }]))
      | outcome => outcome }

/-- Packages with which transfers can be evaluated. -/
def walletPlatform : Platform := ⟨Primitives.sample, Revm.logging⟩

/-- A new node that runs transfers. -/
def walletNode : RunningNode walletPlatform := newNode walletPlatform 8 ⟨3⟩ 0

/-- A raw transaction is submitted. -/
def sendRaw (rawHex : String) : NodeEvent :=
  .rpc ⟨"eth_sendRawTransaction", [.string rawHex], .null⟩ .forward 1 0

/-- An account is funded, one of its transfers is applied and another one, with the wrong nonce, is
refused. -/
def firstTransfers : List NodeEvent :=
  [.evmFaucet "0x0000000000000000000000000000000000000001", sendRaw "0x01020500",
    sendRaw "0x01020709", .synthesize .forward 0]

/-- A second transfer is applied. -/
def secondTransfer : List NodeEvent := [sendRaw "0x01020601", .synthesize .forward 1]

/-- The hash of the transfer that is applied first. -/
def appliedTransfer : H256 :=
  13274840096134909862921543566302993458142142580295337334280166910007049026808#256

/-- The hash of the transfer that is applied second. -/
def laterTransfer : H256 :=
  13276632592504456368995533040391206385368137558158876528475997985468667110006#256

/-- The hash of the transfer that is refused. -/
def refusedTransfer : H256 :=
  13278425088874002875069522514479419312594169127384233617433976464667614487597#256

/-- Two states of the node that runs transfers, one after the other. -/
theorem exists_transfers :
    ∃ (history later : List (RunningNode walletPlatform × NodeEvent))
      (first last : RunningNode walletPlatform),
      Reaches (serveNode (.sample walletPlatform)) NodeTickFits walletNode history first ∧
      Reaches (serveNode (.sample walletPlatform)) NodeTickFits first later last ∧
      first.oscillator.synthesisTick = 1 ∧
      blockContents first.oscillator.evmPool .forward 0 = ([appliedTransfer], 21000) ∧
      (first.oscillator.evmPool.receipts[appliedTransfer]?).isSome ∧
      (first.oscillator.evmPool.receipts[refusedTransfer]?).isNone ∧
      first.oscillator.evmPool.statuses[refusedTransfer]? =
        some (.failed "invalid nonce: expected 1") ∧
      (poolLogs first.oscillator.evmPool .forward none []).length = 1 ∧
      (poolLogs last.oscillator.evmPool .forward none []).length = 2 := by
  have hruns : ((run (serveNode (.sample walletPlatform)) NodeTickFits walletNode
      firstTransfers).bind fun first ↦
        (run (serveNode (.sample walletPlatform)) NodeTickFits first secondTransfer).map
          fun last ↦ decide (first.oscillator.synthesisTick = 1 ∧
            blockContents first.oscillator.evmPool .forward 0 = ([appliedTransfer], 21000) ∧
            (first.oscillator.evmPool.receipts[appliedTransfer]?).isSome ∧
            (first.oscillator.evmPool.receipts[refusedTransfer]?).isNone ∧
            first.oscillator.evmPool.statuses[refusedTransfer]? =
              some (.failed "invalid nonce: expected 1") ∧
            (poolLogs first.oscillator.evmPool .forward none []).length = 1 ∧
            (poolLogs last.oscillator.evmPool .forward none []).length = 2)) = some true := by
    decide +kernel
  obtain ⟨first, hfirst, hlater⟩ := Option.bind_eq_some_iff.mp hruns
  obtain ⟨last, hlast, hfacts⟩ := Option.map_eq_some_iff.mp hlater
  obtain ⟨history, -, hhistory⟩ := reaches_of_run hfirst
  obtain ⟨later, -, hlaterRun⟩ := reaches_of_run hlast
  exact ⟨history, later, first, last, hhistory, hlaterRun, of_decide_eq_true hfacts⟩

/-! ### Blocks -/

/-- The blocks below the tick are final. Take two states of a run of a new node, one after the
other. The gateway shows each block below the first tick in both, with the same transactions, in
some order, and the same gas. In each state the tags name the block of the tick, which is empty, and
a number beyond the tick names no block. Assumes: the tick counter does not wrap in the run. -/
theorem blocks_final {first last : RunningNode platform}
    {history later : List (RunningNode platform × NodeEvent)}
    (hfirst : Reaches (serveNode packages) NodeTickFits (newNode platform nttSize localKeypair
      timestampNs) history first)
    (hlast : Reaches (serveNode packages) NodeTickFits first later last)
    (order order' : IterationOrder (H256 × EvmReceipt)) (nowSecs : ℕ) :
    (∀ number < first.oscillator.synthesisTick, ∃ txs txs' gas, txs'.Perm txs ∧
      first.getBlockByNumber order nowSecs [.string (quantityHex number)] =
        .ok (blockJson platform.primitives number (txs, gas) nowSecs) ∧
      last.getBlockByNumber order' nowSecs [.string (quantityHex number)] =
        .ok (blockJson platform.primitives number (txs', gas) nowSecs)) ∧
    (∀ tag ∈ ["latest", "pending", "safe", "finalized"],
      first.getBlockByNumber order nowSecs [.string tag] =
        .ok (blockJson platform.primitives first.oscillator.synthesisTick ([], 0) nowSecs)) ∧
    ∀ number < 2 ^ 64, first.oscillator.synthesisTick < number →
      first.getBlockByNumber order nowSecs [.string (quantityHex number)] = .ok .null := by
  have hsound := (evmSound_of_reaches (evmSound_newNode _ _ _) hfirst).1
  have hextends := (evmSound_of_reaches hsound hlast).2
  refine ⟨fun number hbelow ↦ ?_, fun tag htag ↦ ?_, fun number hfits hbeyond ↦ ?_⟩
  · have hfits : number < 2 ^ 64 := hbelow.trans hsound.fits
    have hsame : ∀ (hash : H256) (receipt : EvmReceipt), receipt.blockNumber = number →
        (first.oscillator.evmPool.receipts[hash]? = some receipt ↔
          last.oscillator.evmPool.receipts[hash]? = some receipt) := by
      intro hash receipt hblock
      refine ⟨hextends.grows.kept hash receipt, fun hreceipt ↦ ?_⟩
      rcases hextends.grows.fresh hash receipt hreceipt with hold | hlater
      · exact hold
      · omega
    obtain ⟨hperm, hgas⟩ := blockContents_congr hsame order order'
    have hafter := hextends.tick
    refine ⟨_, _, (blockContents first.oscillator.evmPool order number).2, hperm, ?_, ?_⟩
    · rw [getBlockByNumber_quantity _ _ _ hfits, if_neg (by omega)]
    · rw [getBlockByNumber_quantity _ _ _ hfits, if_neg (by omega), ← hgas]
  · rw [getBlockByNumber_tag _ _ _ htag, blockContents_of_none fun hash receipt hreceipt ↦
      (hsound.blocks.below hash receipt hreceipt).ne]
  · rw [getBlockByNumber_quantity _ _ _ hfits, if_pos hbeyond]

/-- The block of the first transfer, before and after the second one. -/
theorem blocks_final_transfers :
    ∃ (history later : List (RunningNode walletPlatform × NodeEvent))
      (first last : RunningNode walletPlatform) (txs txs' : List H256) (gas : ℕ),
      Reaches (serveNode (.sample walletPlatform)) NodeTickFits walletNode history first ∧
      Reaches (serveNode (.sample walletPlatform)) NodeTickFits first later last ∧
      first.oscillator.synthesisTick = 1 ∧
      blockContents first.oscillator.evmPool .forward 0 = ([appliedTransfer], 21000) ∧
      txs'.Perm txs ∧
      first.getBlockByNumber .forward 0 [.string (quantityHex 0)] =
        .ok (blockJson Primitives.sample 0 (txs, gas) 0) ∧
      last.getBlockByNumber .forward 0 [.string (quantityHex 0)] =
        .ok (blockJson Primitives.sample 0 (txs', gas) 0) := by
  obtain ⟨history, later, first, last, hhistory, hlater, htick, hblock, -⟩ := exists_transfers
  obtain ⟨txs, txs', gas, hperm, hfirst, hlast⟩ :=
    (blocks_final hhistory hlater .forward .forward 0).1 0 (by rw [htick]; decide)
  exact ⟨history, later, first, last, txs, txs', gas, hhistory, hlater, htick, hblock, hperm,
    hfirst, hlast⟩

/-! ### Blocks by their hash -/

/-- The bytes that the hash of a block covers determine its number. Assumes: the numbers fit 64
bits. -/
theorem blockBytes_inj {first second : ℕ} (hfirst : first < 2 ^ 64) (hsecond : second < 2 ^ 64)
    (hbytes : asciiBytes "fluidic:block:" ++ leBytes 8 first =
      asciiBytes "fluidic:block:" ++ leBytes 8 second) : first = second :=
  u64_eq_of_leBytes hfirst hsecond (List.append_cancel_left hbytes)

/-- The block of a hash is the last one up to the tick that has it. -/
theorem getBlockByHash_eq (state : ApiState platform) (hexError : String → String)
    (order : IterationOrder (H256 × EvmReceipt)) (nowSecs : ℕ) (hash : H256) :
    state.getBlockByHash hexError order nowSecs [.string (h256ToHex hash)] =
      match (List.range (state.oscillator.synthesisTick + 1)).reverse.find? fun number ↦
        blockHashFor platform.primitives number = hash with
      | none => .ok .null
      | some requested => .ok (blockJson platform.primitives requested
          (blockContents state.oscillator.evmPool order requested) nowSecs) := by
  unfold ApiState.getBlockByHash
  simp only [firstText, List.head?_cons, Option.bind_some, Json.asStr, Option.elim_some, bind,
    Except.bind, parseHexHash_h256ToHex]
  rfl

/-- A block is found by its hash as by its number, unless BLAKE3 maps two byte strings to that hash.
A hash that no block up to the tick has names no block. Assumes: the tick fits 64 bits. -/
theorem getBlockByHash_agrees {state : ApiState platform}
    (hfits : state.oscillator.synthesisTick < 2 ^ 64) (hexError : String → String)
    (order : IterationOrder (H256 × EvmReceipt)) (nowSecs : ℕ) :
    (∀ number ≤ state.oscillator.synthesisTick,
      state.getBlockByHash hexError order nowSecs
          [.string (h256ToHex (blockHashFor platform.primitives number))] =
        state.getBlockByNumber order nowSecs [.string (quantityHex number)] ∨
      ∃ first second : List UInt8, first ≠ second ∧
        platform.primitives.blake3 first = blockHashFor platform.primitives number ∧
        platform.primitives.blake3 second = blockHashFor platform.primitives number) ∧
    ∀ hash : H256, (∀ number ≤ state.oscillator.synthesisTick,
        blockHashFor platform.primitives number ≠ hash) →
      state.getBlockByHash hexError order nowSecs [.string (h256ToHex hash)] = .ok .null := by
  refine ⟨fun number hle ↦ ?_, fun hash hnone ↦ ?_⟩
  · rw [getBlockByHash_eq, getBlockByNumber_quantity _ _ _ (by omega), if_neg (by omega)]
    cases hfind : (List.range (state.oscillator.synthesisTick + 1)).reverse.find? fun other ↦
        blockHashFor platform.primitives other = blockHashFor platform.primitives number with
    | none =>
      have hmissing := List.find?_eq_none.mp hfind number
        (List.mem_reverse.mpr (List.mem_range.mpr (by omega)))
      simp at hmissing
    | some found =>
      have hhash : blockHashFor platform.primitives found =
          blockHashFor platform.primitives number := by simpa using List.find?_some hfind
      have hfound := List.mem_range.mp (List.mem_reverse.mp (List.mem_of_find?_eq_some hfind))
      by_cases hsame : found = number
      · rw [hsame]
        exact .inl rfl
      · exact .inr ⟨_, _, fun hbytes ↦ hsame (blockBytes_inj (by omega) (by omega) hbytes), hhash,
          rfl⟩
  · rw [getBlockByHash_eq, List.find?_eq_none.mpr fun number hmem ↦ ?_]
    have hle := List.mem_range.mp (List.mem_reverse.mp hmem)
    simpa using hnone number (by omega)

/-- The blocks of the node that ran the first transfers, by their hash. -/
theorem getBlockByHash_agrees_transfers :
    ∃ (history : List (RunningNode walletPlatform × NodeEvent))
      (first : RunningNode walletPlatform),
      Reaches (serveNode (.sample walletPlatform)) NodeTickFits walletNode history first ∧
      blockContents first.oscillator.evmPool .forward 0 = ([appliedTransfer], 21000) ∧
      (∀ number ≤ 1,
        first.getBlockByHash id .forward 0
            [.string (h256ToHex (blockHashFor Primitives.sample number))] =
          first.getBlockByNumber .forward 0 [.string (quantityHex number)] ∨
        ∃ one other : List UInt8, one ≠ other ∧
          Primitives.sample.blake3 one = blockHashFor Primitives.sample number ∧
          Primitives.sample.blake3 other = blockHashFor Primitives.sample number) ∧
      ∀ hash : H256, (∀ number ≤ 1, blockHashFor Primitives.sample number ≠ hash) →
        first.getBlockByHash id .forward 0 [.string (h256ToHex hash)] = .ok .null := by
  obtain ⟨history, -, first, -, hhistory, -, htick, hblock, -⟩ := exists_transfers
  have hagrees := @getBlockByHash_agrees _ first.toApiState (by rw [htick]; decide) id .forward 0
  rw [htick] at hagrees
  exact ⟨history, first, hhistory, hblock, hagrees⟩

/-! ### Receipts -/

/-- The receipt of a hash. -/
theorem getTransactionReceipt_eq (state : ApiState platform) (hexError : String → String)
    (hash : H256) :
    state.getTransactionReceipt hexError [.string (h256ToHex hash)] =
      match state.oscillator.evmPool.receipts[hash]? with
      | some receipt => .ok (receiptToJson receipt)
      | none =>
        match state.oscillator.evmPool.statuses[hash]? with
        | some (.failed reason) => .ok (failureToJson (h256ToHex hash) reason)
        | _ => .ok .null := by
  unfold ApiState.getTransactionReceipt
  simp only [firstText, List.head?_cons, Option.bind_some, Json.asStr, Option.elim_some, bind,
    Except.bind, parseHexHash_h256ToHex]
  rfl

/-- The transaction of a hash. -/
theorem getTransactionByHash_eq (state : ApiState platform) (hexError : String → String)
    (hash : H256) :
    state.getTransactionByHash hexError [.string (h256ToHex hash)] =
      match state.oscillator.evmPool.transactions[hash]? with
      | none => .ok .null
      | some tx => .ok (transactionToJson platform.primitives tx
          (state.oscillator.evmPool.receipts[hash]?.map EvmReceipt.blockNumber)) := by
  unfold ApiState.getTransactionByHash
  simp only [firstText, List.head?_cons, Option.bind_some, Json.asStr, Option.elim_some, bind,
    Except.bind, parseHexHash_h256ToHex]
  rfl

/-- What the gateway answers about a hash: of its receipt, and of its transaction. -/
structure Answers (state : ApiState platform) (hexError : String → String) (hash : H256)
    (receipt transaction : Json) : Prop where
  receipt : state.getTransactionReceipt hexError [.string (h256ToHex hash)] = .ok receipt
  transaction : state.getTransactionByHash hexError [.string (h256ToHex hash)] = .ok transaction

/-- What the gateway should answer about a hash, given its status: nothing of an unknown
transaction, no receipt of a pending one and of one with the wrong nonce, whose failure says which
nonce was expected, and of one that was run a receipt that describes it and says whether it
succeeded, in a block below the tick that lists it. -/
inductive ReceiptView (state : ApiState platform) (hexError : String → String) (hash : H256) :
    Option EvmTxStatus → Prop
  | unknown (hanswers : Answers state hexError hash .null .null) :
      ReceiptView state hexError hash none
  | pending (tx : EvmTransaction) (hhash : tx.hash = hash)
      (hanswers : Answers state hexError hash .null
        (transactionToJson platform.primitives tx none)) :
      ReceiptView state hexError hash (some .pending)
  | wrongNonce (tx : EvmTransaction) (expected : ℕ) (hhash : tx.hash = hash)
      (hanswers : Answers state hexError hash
        (failureToJson (h256ToHex hash) s!"invalid nonce: expected {expected}")
        (transactionToJson platform.primitives tx none)) :
      ReceiptView state hexError hash (some (.failed s!"invalid nonce: expected {expected}"))
  | placed (tx : EvmTransaction) (receipt : EvmReceipt) (status : EvmTxStatus)
      (hran : RunStatus status) (hhash : tx.hash = hash)
      (hreceiptHash : receipt.transactionHash = hash)
      (hsender : receipt.sender = tx.sender) (hrecipient : receipt.recipient = tx.recipient)
      (hprice : receipt.effectiveGasPrice = tx.gasPrice)
      (hsuccess : status = .success ↔ receipt.status = 1)
      (hfailure : status ≠ .success ↔ receipt.status = 0)
      (hblockHash : receipt.blockHash = blockHashFor platform.primitives receipt.blockNumber)
      (hbelow : receipt.blockNumber < state.oscillator.synthesisTick)
      (hlisted : ∀ order : IterationOrder (H256 × EvmReceipt),
        hash ∈ (blockContents state.oscillator.evmPool order receipt.blockNumber).1)
      (hanswers : Answers state hexError hash (receiptToJson receipt)
        (transactionToJson platform.primitives tx (some receipt.blockNumber))) :
      ReceiptView state hexError hash (some status)

/-- The gateway answers about a hash what its status asks for. Assumes: the receipts of the node
form blocks. -/
theorem receiptView_of_evmSound {state : ApiState platform} (hsound : state.oscillator.EvmSound)
    (hexError : String → String) (hash : H256) :
    ReceiptView state hexError hash state.oscillator.evmPool.statuses[hash]? := by
  obtain ⟨appliedHashes, hbooked⟩ := hsound.booked
  have hreceiptAnswer := getTransactionReceipt_eq state hexError hash
  have htxAnswer := getTransactionByHash_eq state hexError hash
  cases hreceipt : state.oscillator.evmPool.receipts[hash]? with
  | some receipt =>
    have hdescribes := hsound.blocks.describes hash receipt hreceipt
    obtain ⟨tx, htx, hsender, hrecipient, hprice⟩ := hdescribes.transaction
    obtain ⟨status, hran, hstatus⟩ := hdescribes.resolved
    obtain ⟨tx', htx', hhash⟩ := hbooked.transactions hash
      (mem_iff_exists_getElem?.mpr ⟨status, hstatus⟩)
    obtain rfl : tx = tx' := Option.some.inj (htx.symm.trans htx')
    have hsuccess : status = .success ↔ receipt.status = 1 := by
      have hagrees := hbooked.receipts hash
      rw [hstatus, Option.some.injEq] at hagrees
      rw [← hagrees]
      refine ⟨fun ⟨other, hother, hone⟩ ↦ ?_, fun hone ↦ ⟨receipt, hreceipt, hone⟩⟩
      rwa [Option.some.inj (hreceipt.symm.trans hother)]
    have hfailure : status ≠ .success ↔ receipt.status = 0 := by
      rw [ne_eq, hsuccess]
      rcases hdescribes.outcome with hone | ⟨hzero, -, -⟩ <;> omega
    rw [hreceipt] at hreceiptAnswer htxAnswer
    rw [htx] at htxAnswer
    rw [hstatus]
    refine .placed tx receipt status hran hhash hdescribes.hash_eq hsender hrecipient hprice
      hsuccess hfailure hdescribes.blockHash_eq (hsound.blocks.below hash receipt hreceipt)
      (fun order ↦ ?_) ⟨hreceiptAnswer, htxAnswer⟩
    rw [(blockContents_eq state.oscillator.evmPool order _).1.mem_iff]
    exact List.mem_map.mpr ⟨(hash, receipt), mem_blockEntries.mpr ⟨hreceipt, rfl⟩,
      hdescribes.hash_eq⟩
  | none =>
    rw [hreceipt] at hreceiptAnswer htxAnswer
    have hunplaced := hsound.blocks.unplaced hash hreceipt
    have hexists (hknown : hash ∈ state.oscillator.evmPool.statuses) :
        ∃ tx : EvmTransaction, tx.hash = hash ∧
          state.getTransactionByHash hexError [.string (h256ToHex hash)] =
            .ok (transactionToJson platform.primitives tx none) := by
      obtain ⟨tx, htx, hhash⟩ := hbooked.transactions hash hknown
      rw [htx] at htxAnswer
      exact ⟨tx, hhash, htxAnswer⟩
    have hmem {status : EvmTxStatus}
        (hstatus : state.oscillator.evmPool.statuses[hash]? = some status) :
        hash ∈ state.oscillator.evmPool.statuses := mem_iff_exists_getElem?.mpr ⟨status, hstatus⟩
    cases hstatus : state.oscillator.evmPool.statuses[hash]? with
    | none =>
      have hmissing : state.oscillator.evmPool.transactions[hash]? = none := by
        refine ExtTreeMap.getElem?_eq_none fun hindexed ↦ ?_
        obtain ⟨status, hsome⟩ := mem_iff_exists_getElem?.mp (hsound.known hash hindexed)
        rw [hstatus] at hsome
        cases hsome
      rw [hstatus] at hreceiptAnswer
      rw [hmissing] at htxAnswer
      exact .unknown ⟨hreceiptAnswer, htxAnswer⟩
    | some status =>
      obtain ⟨tx, hhash, htx⟩ := hexists (hmem hstatus)
      rw [hstatus] at hreceiptAnswer hunplaced
      generalize hwhole : some status = entry at hunplaced
      cases hunplaced with
      | unknown => cases hwhole
      | pending =>
        obtain rfl := Option.some.inj hwhole
        exact .pending tx hhash ⟨hreceiptAnswer, htx⟩
      | wrongNonce expected =>
        obtain rfl := Option.some.inj hwhole
        exact .wrongNonce tx expected hhash ⟨hreceiptAnswer, htx⟩

/-- The receipt of a transaction agrees with its status, its block and the transaction, in every
state that a run of a new node reaches, and an answer that is not null never changes. Assumes: the
tick counter does not wrap in the run. -/
theorem receipts_agree {first last : RunningNode platform}
    {history later : List (RunningNode platform × NodeEvent)}
    (hfirst : Reaches (serveNode packages) NodeTickFits (newNode platform nttSize localKeypair
      timestampNs) history first)
    (hlast : Reaches (serveNode packages) NodeTickFits first later last) (hash : H256) :
    ReceiptView first.toApiState packages.hexError hash
      first.oscillator.evmPool.statuses[hash]? ∧
    (first.getTransactionReceipt packages.hexError [.string (h256ToHex hash)] ≠ .ok .null →
      last.getTransactionReceipt packages.hexError [.string (h256ToHex hash)] =
        first.getTransactionReceipt packages.hexError [.string (h256ToHex hash)]) := by
  have hsound := (evmSound_of_reaches (evmSound_newNode _ _ _) hfirst).1
  obtain ⟨hsound', hextends⟩ := evmSound_of_reaches hsound hlast
  refine ⟨receiptView_of_evmSound hsound packages.hexError hash, fun hanswer ↦ ?_⟩
  rw [getTransactionReceipt_eq] at hanswer ⊢
  rw [getTransactionReceipt_eq]
  cases hreceipt : first.oscillator.evmPool.receipts[hash]? with
  | some receipt => rw [hextends.grows.kept hash receipt hreceipt]
  | none =>
    rw [hreceipt] at hanswer
    cases hstatus : first.oscillator.evmPool.statuses[hash]? with
    | none =>
      rw [hstatus] at hanswer
      exact absurd rfl hanswer
    | some status =>
      cases status with
      | pending =>
        rw [hstatus] at hanswer
        exact absurd rfl hanswer
      | success =>
        rw [hstatus] at hanswer
        exact absurd rfl hanswer
      | failed reason =>
        have hkept := hextends.grows.resolved hash _ EvmTxStatus.noConfusion hstatus
        have hmissing : last.oscillator.evmPool.receipts[hash]? = none := by
          by_contra hsome
          obtain ⟨receipt, hlater⟩ := Option.ne_none_iff_exists'.mp hsome
          rcases hextends.grows.fresh hash receipt hlater with hold | ⟨-, hopen⟩
          · rw [hreceipt] at hold
            cases hold
          · cases hopen _ hstatus
        rw [hmissing, hkept]

/-- The refused transfer, before and after the second one. -/
theorem receipts_agree_transfers :
    ∃ (history later : List (RunningNode walletPlatform × NodeEvent))
      (first last : RunningNode walletPlatform),
      Reaches (serveNode (.sample walletPlatform)) NodeTickFits walletNode history first ∧
      Reaches (serveNode (.sample walletPlatform)) NodeTickFits first later last ∧
      first.oscillator.evmPool.statuses[refusedTransfer]? =
        some (.failed "invalid nonce: expected 1") ∧
      ReceiptView first.toApiState id refusedTransfer
        first.oscillator.evmPool.statuses[refusedTransfer]? ∧
      last.getTransactionReceipt id [.string (h256ToHex refusedTransfer)] =
        first.getTransactionReceipt id [.string (h256ToHex refusedTransfer)] := by
  obtain ⟨history, later, first, last, hhistory, hlater, -, -, -, hnone, hstatus, -⟩ :=
    exists_transfers
  obtain ⟨hview, hkept⟩ := receipts_agree hhistory hlater refusedTransfer
  refine ⟨history, later, first, last, hhistory, hlater, hstatus, hview, hkept fun hnull ↦ ?_⟩
  rw [getTransactionReceipt_eq, Option.isNone_iff_eq_none.mp hnone, hstatus] at hnull
  cases Except.ok.inj hnull

/-! ### Places and logs -/

/-- The receipts of a block stand at different places of it, and the cumulative gas of a receipt is,
modulo 2^64, the gas of its block up to its place, in every state that a run of a new node reaches.
So the last receipt of a block has the gas that the gateway shows for the block. Assumes: the tick
counter does not wrap in the run, and the receipt is one of the state. -/
theorem receipts_placed {last : RunningNode platform}
    {history : List (RunningNode platform × NodeEvent)}
    (hreaches : Reaches (serveNode packages) NodeTickFits (newNode platform nttSize localKeypair
      timestampNs) history last) {hash : H256} {receipt : EvmReceipt}
    (hreceipt : last.oscillator.evmPool.receipts[hash]? = some receipt) :
    (∀ (hash' : H256) (other : EvmReceipt),
      last.oscillator.evmPool.receipts[hash']? = some other →
      receipt.blockNumber = other.blockNumber →
      receipt.transactionIndex = other.transactionIndex → hash = hash') ∧
    receipt.cumulativeGasUsed = gasThrough last.oscillator.evmPool.receipts receipt.blockNumber
      receipt.transactionIndex % 2 ^ 64 ∧
    ((∀ (hash' : H256) (other : EvmReceipt),
      last.oscillator.evmPool.receipts[hash']? = some other →
      other.blockNumber = receipt.blockNumber →
      other.transactionIndex ≤ receipt.transactionIndex) →
      ∀ order : IterationOrder (H256 × EvmReceipt),
        (blockContents last.oscillator.evmPool order receipt.blockNumber).2 =
          receipt.cumulativeGasUsed) := by
  have hblocks := (evmSound_of_reaches (evmSound_newNode _ _ _) hreaches).1.blocks
  have hcumulative := hblocks.cumulative hash receipt hreceipt
  refine ⟨fun hash' other hother ↦ hblocks.apart hash hash' receipt other hreceipt hother,
    hcumulative, fun hlast order ↦ ?_⟩
  rw [(blockContents_eq _ order _).2, sum_blockEntries, hcumulative, gasThrough_eq_blockGas hlast]

/-- An account is funded, and two of its transfers are applied in one tick. -/
def bothTransfers : List NodeEvent :=
  [.evmFaucet "0x0000000000000000000000000000000000000001", sendRaw "0x01020500",
    sendRaw "0x01020601", .synthesize .forward 0]

/-- The receipts of two transfers in one block: the second one has the gas of both. -/
theorem receipts_placed_transfers :
    ∃ (history : List (RunningNode walletPlatform × NodeEvent))
      (last : RunningNode walletPlatform) (one other : EvmReceipt),
      Reaches (serveNode (.sample walletPlatform)) NodeTickFits walletNode history last ∧
      last.oscillator.evmPool.receipts[appliedTransfer]? = some one ∧
      last.oscillator.evmPool.receipts[laterTransfer]? = some other ∧
      one.blockNumber = other.blockNumber ∧ one.transactionIndex ≠ other.transactionIndex ∧
      one.gasUsed = 21000 ∧ other.gasUsed = 21000 ∧ other.cumulativeGasUsed = 42000 ∧
      other.cumulativeGasUsed = gasThrough last.oscillator.evmPool.receipts other.blockNumber
        other.transactionIndex % 2 ^ 64 := by
  have hruns : ((run (serveNode (.sample walletPlatform)) NodeTickFits walletNode
      bothTransfers).bind fun last ↦
        (last.oscillator.evmPool.receipts[appliedTransfer]?).bind fun one ↦
          (last.oscillator.evmPool.receipts[laterTransfer]?).map fun other ↦
            decide (one.blockNumber = other.blockNumber ∧
              one.transactionIndex ≠ other.transactionIndex ∧ one.gasUsed = 21000 ∧
              other.gasUsed = 21000 ∧ other.cumulativeGasUsed = 42000)) = some true := by
    decide +kernel
  obtain ⟨last, hlast, hreceipts⟩ := Option.bind_eq_some_iff.mp hruns
  obtain ⟨one, hone, hsecond⟩ := Option.bind_eq_some_iff.mp hreceipts
  obtain ⟨other, hother, hfacts⟩ := Option.map_eq_some_iff.mp hsecond
  obtain ⟨hblock, hapart, hgas, hgas', hcumulative⟩ := of_decide_eq_true hfacts
  obtain ⟨history, -, hhistory⟩ := reaches_of_run hlast
  exact ⟨history, last, one, other, hhistory, hone, hother, hblock, hapart, hgas, hgas',
    hcumulative, (receipts_placed hhistory hother).2.1⟩

/-- The logs of a pool that grew are among those of the later one. Assumes: the later pool kept the
receipts. -/
theorem poolLogs_subperm {revm : Revm} {pool pool' : EvmPool revm}
    (hkept : ∀ (hash : H256) (receipt : EvmReceipt), pool.receipts[hash]? = some receipt →
      pool'.receipts[hash]? = some receipt)
    (order order' : IterationOrder (H256 × EvmReceipt)) (address : Option EvmAddress)
    (topics : List (Option H256)) :
    (poolLogs pool order address topics).Subperm (poolLogs pool' order' address topics) := by
  have hentries : (order.visit pool.receipts.toList).Subperm
      (order'.visit pool'.receipts.toList) := by
    refine List.subperm_of_subset (order.nodup_visit (nodup_toList _)) fun ⟨hash, receipt⟩ hmem ↦ ?_
    rw [order.mem_visit, ExtTreeMap.mem_toList_iff_getElem?_eq_some] at hmem
    rw [order'.mem_visit, ExtTreeMap.mem_toList_iff_getElem?_eq_some]
    exact hkept hash receipt hmem
  obtain ⟨entries, hperm, hsublist⟩ := hentries
  exact List.Subperm.filter _ ⟨_, hperm.flatMap_right _, hsublist.flatMap _⟩

/-- Whether a filter is read, and as what, does not depend on the node. -/
theorem getLogs_cases (platform : Platform) (hexError : String → String) (params : List Json) :
    (∃ error, ∀ (state : ApiState platform) (order : IterationOrder (H256 × EvmReceipt)),
      state.getLogs hexError order params = .error error) ∨
    ∃ (address : Option EvmAddress) (topics : List (Option H256)), ∀ (state : ApiState platform)
      (order : IterationOrder (H256 × EvmReceipt)), state.getLogs hexError order params =
        .ok (.array ((poolLogs state.oscillator.evmPool order address topics).map logToJson)) := by
  unfold ApiState.getLogs
  simp only [bind, Except.bind, pure, Except.pure]
  cases (params.head?.bind Json.asObject).elim
      (.error (-32602, "missing filter object")) Except.ok with
  | error error => exact .inl ⟨error, fun _ _ ↦ rfl⟩
  | ok filter =>
    dsimp only
    cases (filter.lookup "address").bind Json.asStr with
    | none =>
      cases parseTopics hexError (((filter.lookup "topics").bind Json.asArray).getD []) with
      | error error => exact .inl ⟨error, fun _ _ ↦ rfl⟩
      | ok topics => exact .inr ⟨none, topics, fun _ _ ↦ rfl⟩
    | some text =>
      dsimp only
      cases parseHexAddress hexError text with
      | error error => exact .inl ⟨error, fun _ _ ↦ rfl⟩
      | ok address =>
        cases parseTopics hexError (((filter.lookup "topics").bind Json.asArray).getD []) with
        | error error => exact .inl ⟨error, fun _ _ ↦ rfl⟩
        | ok topics => exact .inr ⟨some address, topics, fun _ _ ↦ rfl⟩

/-- Logs only accumulate. For a filter that is read, the gateway answers at a later state all the
logs it answered before, as often, in some order; every log is that of a transaction that succeeded.
A filter that is refused is refused in the same words. Assumes: the tick counter does not wrap in
the runs. -/
theorem logs_accumulate {first last : RunningNode platform}
    {history later : List (RunningNode platform × NodeEvent)}
    (hfirst : Reaches (serveNode packages) NodeTickFits (newNode platform nttSize localKeypair
      timestampNs) history first)
    (hlast : Reaches (serveNode packages) NodeTickFits first later last)
    (order order' : IterationOrder (H256 × EvmReceipt)) (params : List Json) :
    (∃ error, first.getLogs packages.hexError order params = .error error ∧
      last.getLogs packages.hexError order' params = .error error) ∨
    ∃ logs logs' : List EvmLog, logs.Subperm logs' ∧
      first.getLogs packages.hexError order params = .ok (.array (logs.map logToJson)) ∧
      last.getLogs packages.hexError order' params = .ok (.array (logs'.map logToJson)) ∧
      ∀ log ∈ logs, ∃ (hash : H256) (receipt : EvmReceipt),
        first.oscillator.evmPool.receipts[hash]? = some receipt ∧
        first.oscillator.evmPool.statuses[hash]? = some .success ∧ log ∈ receipt.logs := by
  have hsound := (evmSound_of_reaches (evmSound_newNode _ _ _) hfirst).1
  have hextends := (evmSound_of_reaches hsound hlast).2
  rcases getLogs_cases platform packages.hexError params with ⟨error, hrefused⟩ |
    ⟨address, topics, hread⟩
  · exact .inl ⟨error, hrefused _ _, hrefused _ _⟩
  · refine .inr ⟨_, _, poolLogs_subperm hextends.grows.kept order order' address topics,
      hread _ _, hread _ _, fun log hlog ↦ ?_⟩
    obtain ⟨⟨hash, receipt⟩, hentry, hlog⟩ := List.mem_flatMap.mp (List.mem_of_mem_filter hlog)
    rw [order.mem_visit, ExtTreeMap.mem_toList_iff_getElem?_eq_some] at hentry
    refine ⟨hash, receipt, hentry, ?_, hlog⟩
    have hone : receipt.status = 1 := by
      rcases (hsound.blocks.describes hash receipt hentry).outcome with hone | ⟨-, hnone, -⟩
      · exact hone
      · dsimp only at hlog
        rw [hnone] at hlog
        cases hlog
    obtain ⟨appliedHashes, hbooked⟩ := hsound.booked
    exact (hbooked.receipts hash).mp ⟨receipt, hentry, hone⟩

/-- The logs before and after the second transfer, without a filter. -/
theorem logs_accumulate_transfers :
    ∃ (history later : List (RunningNode walletPlatform × NodeEvent))
      (first last : RunningNode walletPlatform) (logs logs' : List EvmLog),
      Reaches (serveNode (.sample walletPlatform)) NodeTickFits walletNode history first ∧
      Reaches (serveNode (.sample walletPlatform)) NodeTickFits first later last ∧
      (poolLogs first.oscillator.evmPool .forward none []).length = 1 ∧
      (poolLogs last.oscillator.evmPool .forward none []).length = 2 ∧
      logs.Subperm logs' ∧
      first.getLogs id .forward [.object []] = .ok (.array (logs.map logToJson)) ∧
      last.getLogs id .forward [.object []] = .ok (.array (logs'.map logToJson)) := by
  obtain ⟨history, later, first, last, hhistory, hlater, -, -, -, -, -, hone, htwo⟩ :=
    exists_transfers
  rcases logs_accumulate hhistory hlater .forward .forward [.object []] with
    ⟨error, hrefused, -⟩ | ⟨logs, logs', hsubperm, hfirst, hlast, -⟩
  · cases hrefused
  · exact ⟨history, later, first, last, logs, logs', hhistory, hlater, hone, htwo, hsubperm, hfirst,
      hlast⟩

end Fluidic.Node
