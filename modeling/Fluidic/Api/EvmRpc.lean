import Fluidic.Api.Json
import Fluidic.Api.State

/-!
# The JSON-RPC gateway

`src/api/evm_rpc.rs`: the methods by which wallets submit EVM transactions and read blocks,
transactions, receipts and logs. The block of a tick is the receipts with its number; a method that
lists them visits the hash table of the receipts, in an order that is given to it.

The packages outside the repository enter as the fields of `RpcPackages`: the decoder of signed
transactions, the text of a hexadecimal error, the parsers of the numbers in a call and the
interpreter run on a copy of its database. Waiting for a minimal tick and the list of recent shifts
are left out. A handler that panics answers nothing, which is the value `none`.
-/

set_option autoImplicit false
set_option relaxedAutoImplicit false

namespace Fluidic.Api

open Library Crypto Consensus Evm Persistence
open Std (ExtTreeMap)

/-! ### Raw transactions -/

/-- A signed transaction as the decoder of the third-party package returns it. -/
structure RawTransaction where
  chainId : Option ℕ
  recipient : Option EvmAddress
  value : ℕ
  gasPrice : Option ℕ
  gas : ℕ
  input : List UInt8
  nonce : ℕ
  deriving DecidableEq

/-- The third-party package for signed transactions: the decoder, the recovery of the sender and the
hash. -/
structure Ethers where
  decode : List UInt8 → Except String RawTransaction
  recoverFrom : RawTransaction → Except String EvmAddress
  hash : RawTransaction → H256

/-- Chain ID used by the gateway. -/
def fluidicEvmChainId : ℕ := 0xF1D1C

/-- A 256-bit number as a 64-bit one. One that does not fit makes the source panic. -/
def asU64 (value : ℕ) : Option ℕ := if value < 2 ^ 64 then some value else none

/-- The chain ID of a transaction, zero when it has none. -/
def RawTransaction.chain (tx : RawTransaction) : Option ℕ :=
  match tx.chainId with
  | none => some 0
  | some chainId => asU64 chainId

/-- Decode a signed transaction and recover its sender. -/
def decodeRaw (ethers : Ethers) (raw : List UInt8) : Option (Except String EvmTransaction) := do
  match ethers.decode raw with
  | .error text => return .error s!"invalid RLP transaction: {text}"
  | .ok tx =>
    let chainId ← tx.chain
    if chainId ≠ 0 ∧ chainId ≠ fluidicEvmChainId then
      return .error s!"wrong chain id: expected {fluidicEvmChainId} got {chainId}"
    match ethers.recoverFrom tx with
    | .error text => return .error s!"failed to recover sender: {text}"
    | .ok sender =>
      let gasLimit ← if tx.gas = 0 then some 1000000 else asU64 tx.gas
      let nonce ← asU64 tx.nonce
      return .ok
        { hash := ethers.hash tx
          sender
          recipient := tx.recipient
          value := tx.value
          gasPrice := tx.gasPrice.getD 0
          gasLimit
          data := tx.input
          nonce
          raw
          firstSeenAtNs := 0 }

/-! ### Blocks -/

section Blocks

variable {revm : Revm}

/-- The transactions of a block, in the order in which its receipts are visited, and their gas. -/
def blockContents (pool : EvmPool revm) (order : IterationOrder (H256 × EvmReceipt))
    (requested : ℕ) : List H256 × ℕ :=
  let receipts := (order.visit pool.receipts.toList).filter
    fun entry ↦ entry.2.blockNumber = requested
  (receipts.map fun entry ↦ entry.2.transactionHash,
    receipts.foldl (fun gas entry ↦ wrappingAdd 64 gas entry.2.gasUsed) 0)

/-- A block as JSON, at a time. -/
def blockJson (prim : Primitives) (requested : ℕ) (contents : List H256 × ℕ) (nowSecs : ℕ) : Json :=
  let hash := blockHashFor prim requested
  let parentHash := if requested = 0 then 0 else blockHashFor prim (requested - 1)
  let emptyHash := "0x0000000000000000000000000000000000000000000000000000000000000000"
  .object
    [("number", .string (quantityHex requested)),
      ("hash", .string (h256ToHex hash)),
      ("parentHash", .string (h256ToHex parentHash)),
      ("sha3Uncles", .string emptyHash),
      ("miner", .string "0x0000000000000000000000000000000000000000"),
      ("stateRoot", .string emptyHash),
      ("transactionsRoot", .string emptyHash),
      ("receiptsRoot", .string emptyHash),
      ("logsBloom", .string (marked (List.replicate 512 '0'))),
      ("difficulty", .string "0x0"),
      ("totalDifficulty", .string "0x0"),
      ("extraData", .string "0x"),
      ("size", .string "0x0"),
      ("gasLimit", .string "0x1c9c380"),
      ("gasUsed", .string (quantityHex contents.2)),
      ("timestamp", .string (quantityHex nowSecs)),
      ("mixHash", .string emptyHash),
      ("nonce", .string "0x0000000000000000"),
      ("transactions", .array (contents.1.map fun hash ↦ .string (h256ToHex hash)))]

end Blocks

/-! ### Transactions, receipts and logs as JSON -/

/-- A transaction as JSON, with the number of its block when it has one. -/
def transactionToJson (prim : Primitives) (tx : EvmTransaction) (blockNumber : Option ℕ) : Json :=
  .object
    [("hash", .string (h256ToHex tx.hash)),
      ("from", .string (evmAddressHex tx.sender)),
      ("to", .ofOption (fun address ↦ .string (evmAddressHex address)) tx.recipient),
      ("value", .string (u256ToHex tx.value)),
      ("gas", .string (quantityHex tx.gasLimit)),
      ("gasPrice", .string (u256ToHex tx.gasPrice)),
      ("nonce", .string (quantityHex tx.nonce)),
      ("input", .string (bytesHex tx.data)),
      ("v", .string "0x0"),
      ("r", .string "0x0"),
      ("s", .string "0x0"),
      ("chainId", .string (quantityHex fluidicEvmChainId)),
      ("blockNumber", .ofOption (fun number ↦ .string (quantityHex number)) blockNumber),
      ("blockHash", .ofOption (fun number ↦ .string (h256ToHex (blockHashFor prim number)))
        blockNumber),
      ("transactionIndex", .string "0x0")]

/-- The topics of a log entry as JSON. -/
def topicsJson (log : EvmLog) : Json :=
  .array (log.topics.map fun topic ↦ .string (h256ToHex topic))

/-- A log entry of a receipt as JSON, with its index in the receipt. -/
def receiptLogJson (receipt : EvmReceipt) (entry : EvmLog × ℕ) : Json :=
  .object
    [("logIndex", .string (quantityHex entry.2)),
      ("transactionIndex", .string (quantityHex receipt.transactionIndex)),
      ("transactionHash", .string (h256ToHex receipt.transactionHash)),
      ("blockHash", .string (h256ToHex receipt.blockHash)),
      ("blockNumber", .string (quantityHex receipt.blockNumber)),
      ("address", .string (evmAddressHex entry.1.address)),
      ("topics", topicsJson entry.1),
      ("data", .string (bytesHex entry.1.data)),
      ("removed", .bool false)]

/-- A receipt as JSON. -/
def receiptToJson (receipt : EvmReceipt) : Json :=
  .object
    [("transactionHash", .string (h256ToHex receipt.transactionHash)),
      ("transactionIndex", .string (quantityHex receipt.transactionIndex)),
      ("blockHash", .string (h256ToHex receipt.blockHash)),
      ("blockNumber", .string (quantityHex receipt.blockNumber)),
      ("from", .string (evmAddressHex receipt.sender)),
      ("to", .ofOption (fun address ↦ .string (evmAddressHex address)) receipt.recipient),
      ("contractAddress", .ofOption (fun address ↦ .string (evmAddressHex address))
        receipt.contractAddress),
      ("cumulativeGasUsed", .string (quantityHex receipt.cumulativeGasUsed)),
      ("gasUsed", .string (quantityHex receipt.gasUsed)),
      ("effectiveGasPrice", .string (u256ToHex receipt.effectiveGasPrice)),
      ("status", .string (quantityHex receipt.status)),
      ("logs", .array (receipt.logs.zipIdx.map (receiptLogJson receipt))),
      ("logsBloom", .string (marked (List.replicate 512 '0')))]

/-- A transaction that failed without a receipt as JSON, under the hash as it was requested. -/
def failureToJson (hashHex reason : String) : Json :=
  .object
    [("transactionHash", .string hashHex),
      ("status", .string "0x0"),
      ("gasUsed", .string "0x0"),
      ("revertReason", .string reason)]

/-- A log entry as JSON. -/
def logToJson (log : EvmLog) : Json :=
  .object
    [("address", .string (evmAddressHex log.address)),
      ("topics", topicsJson log),
      ("data", .string (bytesHex log.data))]

/-- Whether a log entry passes a filter: the address, and the topics at their positions. -/
def logMatches (address : Option EvmAddress) (topics : List (Option H256)) (log : EvmLog) : Bool :=
  (address.elim true fun expected ↦ log.address = expected) &&
    topics.zipIdx.all fun (topic, position) ↦
      topic.elim true fun expected ↦ log.topics[position]? = some expected

/-- The log entries of all receipts that pass a filter. -/
def poolLogs {revm : Revm} (pool : EvmPool revm) (order : IterationOrder (H256 × EvmReceipt))
    (address : Option EvmAddress) (topics : List (Option H256)) : List EvmLog :=
  ((order.visit pool.receipts.toList).flatMap fun entry ↦ entry.2.logs).filter
    (logMatches address topics)

/-! ### The methods -/

/-- The outcome of a call that is not committed. -/
inductive CallResult
  | success (gasUsed : ℕ) (output : List UInt8)
  | revert (gasUsed : ℕ) (output : List UInt8)
  | halt (gasUsed : ℕ) (reason : String)

/-- The gas a call used. -/
def CallResult.gasUsed : CallResult → ℕ
  | .success gasUsed _ => gasUsed
  | .revert gasUsed _ => gasUsed
  | .halt gasUsed _ => gasUsed

/-- The packages outside the repository that the gateway uses. -/
structure RpcPackages (platform : Platform) where
  ethers : Ethers
  hexError : String → String
  parseAddress : String → Option EvmAddress
  parseValue : String → Option ℕ
  transact : platform.revm.Db → EvmAddress → Option EvmAddress → ℕ → List UInt8 →
    Except String CallResult
  codeAt : platform.revm.Db → EvmAddress → Option (List UInt8)

/-- A request: the method, its parameters and the identifier that the answer repeats. -/
structure RpcRequest where
  method : String
  params : List Json
  id : Json

/-- The first parameter, which has to be a text. -/
def firstText (params : List Json) (missing : String) : Except RpcError String :=
  (params.head?.bind Json.asStr).elim (.error (-32602, missing)) .ok

/-- The topics of a filter. A null matches every topic; an entry that is neither null nor a text is
skipped, so that the ones behind it move forward. -/
def parseTopics (hexError : String → String) : List Json → Except RpcError (List (Option H256))
  | [] => .ok []
  | topic :: rest =>
    if topic.isNull then (parseTopics hexError rest).map (none :: ·)
    else
      match topic.asStr with
      | some text => do
        let hash ← parseHexHash hexError text
        let topics ← parseTopics hexError rest
        return some hash :: topics
      | none => parseTopics hexError rest

/-- The number of a block that is requested at a tick, by a tag or in hexadecimal. -/
def requestedBlock (tick : ℕ) (tag : String) : Except RpcError ℕ :=
  if tag ∈ ["latest", "pending", "safe", "finalized"] then .ok tick
  else (parseQuantity tag).mapError fun error ↦ (-32602, s!"invalid block number: {error.display}")

namespace ApiState

variable {platform : Platform}

/-- The block of a number, or of the tick for a tag. -/
def getBlockByNumber (state : ApiState platform) (order : IterationOrder (H256 × EvmReceipt))
    (nowSecs : ℕ) (params : List Json) : Except RpcError Json := do
  let tag ← firstText params "missing block number"
  let requested ← requestedBlock state.oscillator.synthesisTick tag
  if state.oscillator.synthesisTick < requested then return .null
  return blockJson platform.primitives requested
    (blockContents state.oscillator.evmPool order requested) nowSecs

/-- The block of a hash: the last number, from the tick downwards, that has this hash. -/
def getBlockByHash (state : ApiState platform) (hexError : String → String)
    (order : IterationOrder (H256 × EvmReceipt)) (nowSecs : ℕ) (params : List Json) :
    Except RpcError Json := do
  let hashHex ← firstText params "missing block hash"
  let requestedHash ← parseHexHash hexError hashHex
  match (List.range (state.oscillator.synthesisTick + 1)).reverse.find? fun number ↦
      blockHashFor platform.primitives number = requestedHash with
  | none => return .null
  | some requested =>
    return blockJson platform.primitives requested
      (blockContents state.oscillator.evmPool order requested) nowSecs

/-- The Fluidic balance of an address. -/
def getEvmBalance (state : ApiState platform) (hexError : String → String) (params : List Json) :
    Except RpcError Json := do
  let address ← firstText params "missing address parameter"
  let address ← parseHexAddress hexError address
  return .string (quantityHex
    (state.unitsOf (evmAddressToFluidic platform.primitives address)))

/-- A transaction of a hash. -/
def getTransactionByHash (state : ApiState platform) (hexError : String → String)
    (params : List Json) : Except RpcError Json := do
  let hashHex ← firstText params "missing transaction hash"
  let hash ← parseHexHash hexError hashHex
  match state.oscillator.evmPool.transactions[hash]? with
  | none => return .null
  | some tx =>
    return transactionToJson platform.primitives tx
      (state.oscillator.evmPool.receipts[hash]?.map EvmReceipt.blockNumber)

/-- The receipt of a hash. -/
def getTransactionReceipt (state : ApiState platform) (hexError : String → String)
    (params : List Json) : Except RpcError Json := do
  let hashHex ← firstText params "missing transaction hash"
  let hash ← parseHexHash hexError hashHex
  match state.oscillator.evmPool.receipts[hash]? with
  | some receipt => return receiptToJson receipt
  | none =>
    match state.oscillator.evmPool.statuses[hash]? with
    | some (.failed reason) => return failureToJson hashHex reason
    | _ => return .null

/-- The next nonce of an address. -/
def getTransactionCount (state : ApiState platform) (hexError : String → String)
    (params : List Json) : Except RpcError Json := do
  let address ← firstText params "missing address"
  let address ← parseHexAddress hexError address
  return .string (quantityHex (state.oscillator.evmPool.nonces.getD address 0))

/-- The log entries that pass a filter. -/
def getLogs (state : ApiState platform) (hexError : String → String)
    (order : IterationOrder (H256 × EvmReceipt)) (params : List Json) : Except RpcError Json := do
  let filter ← (params.head?.bind Json.asObject).elim (.error (-32602, "missing filter object")) .ok
  let address ← match (filter.lookup "address").bind Json.asStr with
    | none => .ok none
    | some text => (parseHexAddress hexError text).map some
  let topics ← parseTopics hexError (((filter.lookup "topics").bind Json.asArray).getD [])
  return .array ((poolLogs state.oscillator.evmPool order address topics).map logToJson)

/-- The code at an address, empty when there is none. -/
def getCode (state : ApiState platform) (packages : RpcPackages platform) (params : List Json) :
    Except RpcError Json := do
  let address ← firstText params "missing address"
  let address ← parseHexAddress packages.hexError address
  return .string (bytesHex
    ((packages.codeAt state.oscillator.evmPool.db address).getD []))

/-- Run a call on a copy of the database, in which the caller and the target are seeded with their
Fluidic balances. What the call object leaves out, or has in a form that is not read, is the zero
address, no target, no data or no value. -/
def runCall (state : ApiState platform) (packages : RpcPackages platform) (params : List Json) :
    Except RpcError CallResult := do
  let call ← (params.head?.bind Json.asObject).elim (.error (-32602, "missing call object")) .ok
  let text (field : String) : Option String := (call.lookup field).bind Json.asStr
  let sender := ((text "from").bind packages.parseAddress).getD 0
  let recipient := (text "to").bind packages.parseAddress
  let data := ((text "data").bind fun hex ↦
    hexDecode (String.ofList (trimHexMarks hex.toList))).getD []
  let value := ((text "value").bind packages.parseValue).getD 0
  let pool := state.oscillator.evmPool
  let executor := (sender :: recipient.toList).foldl
    (fun executor address ↦ executor.seedBalanceNonce address
      (state.unitsOf (evmAddressToFluidic platform.primitives address))
      (pool.nonces.getD address 0)) (⟨pool.db, ∅⟩ : EvmExecutor platform.revm)
  (packages.transact executor.db sender recipient value data).mapError fun reason ↦
    (-32000, s!"execution failed: Revm({reason.quote})")

/-- The output of a call. -/
def ethCall (state : ApiState platform) (packages : RpcPackages platform) (params : List Json) :
    Except RpcError Json := do
  match ← state.runCall packages params with
  | .success _ output => return .string (bytesHex output)
  | .revert _ output => .error (-32000, s!"execution reverted: 0x{hexEncode output}")
  | .halt _ reason => .error (-32000, s!"execution halted: {reason}")

/-- The gas of a call. -/
def estimateGas (state : ApiState platform) (packages : RpcPackages platform)
    (params : List Json) : Except RpcError Json := do
  let result ← state.runCall packages params
  return .string (quantityHex result.gasUsed)

/-- Submit a raw transaction. The answer is its hash. -/
def sendRawTransaction (state : ApiState platform) (packages : RpcPackages platform) (nowNs : ℕ)
    (params : List Json) : ApiState platform × Option (Except RpcError Json) :=
  match firstText params "missing raw transaction" with
  | .error error => (state, some (.error error))
  | .ok rawHex =>
    let digits := String.ofList (trimHexMarks rawHex.toList)
    match hexDecode digits with
    | none => (state, some (.error (-32602, s!"invalid hex: {packages.hexError digits}")))
    | some raw =>
      match decodeRaw packages.ethers raw with
      | none => (state, none)
      | some (.error text) => (state, some (.error (-32000, s!"transaction rejected: {text}")))
      | some (.ok tx) =>
        ({ state with oscillator := { state.oscillator with
            evmPool := state.oscillator.evmPool.submit tx nowNs } },
          some (.ok (.string (h256ToHex tx.hash))))

/-- A fee history, in which all fees are zero. -/
def feeHistory (params : List Json) : Json :=
  let blockCount := (((params.head?.bind Json.asStr).map parseQuantity).bind Except.toOption).getD 1
  .object
    [("oldestBlock", .string "0x0"),
      ("baseFeePerGas", .array (List.replicate (blockCount + 1) (.string "0x0"))),
      ("gasUsedRatio", .array (List.replicate blockCount (.number "0.0"))),
      ("reward", .array (List.replicate blockCount (.array [.string "0x0"])))]

/-- Answer a request that does not submit a transaction. -/
def queryRpc (state : ApiState platform) (packages : RpcPackages platform)
    (order : IterationOrder (H256 × EvmReceipt)) (nowSecs : ℕ) (method : String)
    (params : List Json) : Except RpcError Json :=
  match method with
  | "eth_blockNumber" => .ok (.string (quantityHex state.oscillator.synthesisTick))
  | "eth_getBlockByNumber" => state.getBlockByNumber order nowSecs params
  | "eth_getBlockByHash" => state.getBlockByHash packages.hexError order nowSecs params
  | "eth_chainId" => .ok (.string (quantityHex fluidicEvmChainId))
  | "net_version" => .ok (.string (quantityHex fluidicEvmChainId))
  | "eth_gasPrice" => .ok (.string "0x0")
  | "eth_getBalance" => state.getEvmBalance packages.hexError params
  | "eth_getCode" => state.getCode packages params
  | "eth_call" => state.ethCall packages params
  | "eth_getTransactionByHash" => state.getTransactionByHash packages.hexError params
  | "eth_getTransactionReceipt" => state.getTransactionReceipt packages.hexError params
  | "eth_getTransactionCount" => state.getTransactionCount packages.hexError params
  | "eth_estimateGas" => state.estimateGas packages params
  | "eth_getLogs" => state.getLogs packages.hexError order params
  | "eth_feeHistory" => .ok (feeHistory params)
  | "eth_maxPriorityFeePerGas" => .ok (.string "0x0")
  | "eth_syncing" => .ok (.bool false)
  | "eth_mining" => .ok (.bool false)
  | "net_listening" => .ok (.bool true)
  | "web3_clientVersion" => .ok (.string "fluidic/0.1.0")
  | _ => .error (-32601, s!"Method not found: {method}")

/-- Answer a request. -/
def dispatch (state : ApiState platform) (packages : RpcPackages platform)
    (order : IterationOrder (H256 × EvmReceipt)) (nowNs nowSecs : ℕ) (request : RpcRequest) :
    ApiState platform × Option (Except RpcError Json) :=
  if request.method = "eth_sendRawTransaction" then
    state.sendRawTransaction packages nowNs request.params
  else (state, some (state.queryRpc packages order nowSecs request.method request.params))

end ApiState

/-! ### Packages that can be evaluated -/

/-- A decoder in place of the one of signed transactions: the sender, the recipient, the value and
the nonce are one byte each. -/
def Ethers.sample : Ethers where
  decode
    | [sender, recipient, value, nonce] =>
      .ok
        { chainId := some fluidicEvmChainId
          recipient := some (BitVec.ofNat 160 recipient.toNat)
          value := value.toNat
          gasPrice := none
          gas := 21000
          input := [sender]
          nonce := nonce.toNat }
    | _ => .error "not a transaction"
  recoverFrom tx := .ok (BitVec.ofNat 160 (beValue tx.input))
  hash tx := sampleDigest (tx.input ++ leBytes 8 tx.value ++ leBytes 8 tx.nonce)

/-- Packages with which runs of the gateway can be evaluated. -/
def RpcPackages.sample (platform : Platform) : RpcPackages platform where
  ethers := .sample
  hexError text := text
  parseAddress _ := none
  parseValue _ := none
  transact _ _ _ _ _ := .error "unsupported"
  codeAt _ _ := none

end Fluidic.Api
