import Fluidic.Crypto.Keys
import Fluidic.State.Merkle

/-!
# The stake table

`src/operator/stake.rs`: the stake of each operator, the quorum threshold and slashing. A slashed
operator keeps an entry with stake zero and a slash nonce. `totalStake` adds the stakes of the
operators that are not slashed in `u128` arithmetic.
-/

set_option autoImplicit false
set_option relaxedAutoImplicit false

namespace Fluidic.Operator

open Library Crypto State
open Std (ExtTreeMap)

/-- The minimum stake that makes an operator eligible to sign certificates. -/
structure StakingConfig where
  minStake : ℕ
  deriving DecidableEq

/-- The default minimum, one million WAVE. -/
def StakingConfig.default : StakingConfig := ⟨1000000000000000000⟩

/-- The entry of an operator. A slash nonce means that it was slashed. -/
structure OperatorEntry where
  stake : ℕ
  slashNonce : Option ℕ
  deriving DecidableEq

/-- The stake table. -/
structure StakeTable where
  config : StakingConfig
  operators : ExtTreeMap AccountId OperatorEntry
  slashCounter : ℕ
  deriving DecidableEq

namespace StakeTable

/-- A table without operators. -/
def new (config : StakingConfig) : StakeTable := ⟨config, ∅, 0⟩

/-- The entry of an operator, the default one when it has none. -/
def entry (table : StakeTable) (operator : AccountId) : OperatorEntry :=
  table.operators.getD operator ⟨0, none⟩

/-- Lock stake for an operator. The second component is the stake locked before. -/
def stake (table : StakeTable) (operator : AccountId) (amount : ℕ) : StakeTable × ℕ :=
  ({ table with
      operators := table.operators.insert operator { table.entry operator with stake := amount } },
    (table.entry operator).stake)

/-- The stake of an operator. -/
def getStake (table : StakeTable) (operator : AccountId) : ℕ := (table.entry operator).stake

/-- An entry is eligible when it holds the minimum and was not slashed. -/
def isStakedInner (table : StakeTable) (entry : OperatorEntry) : Bool :=
  decide (table.config.minStake ≤ entry.stake) && entry.slashNonce.isNone

/-- The eligible operators with their stakes. -/
def stakedOperators (table : StakeTable) : List (AccountId × ℕ) :=
  (table.operators.toList.filter fun entry ↦ table.isStakedInner entry.2).map
    fun entry ↦ (entry.1, entry.2.stake)

/-- What an entry adds to the total: its stake, unless it was slashed. -/
def liveStake (entry : OperatorEntry) : ℕ := if entry.slashNonce.isNone then entry.stake else 0

/-- The total stake of the operators that are not slashed. -/
def totalStake (table : StakeTable) : ℕ :=
  sumBy (fun _ entry ↦ liveStake entry) table.operators % 2 ^ 128

/-- The stake that makes a quorum. -/
def quorumThreshold (table : StakeTable) : ℕ :=
  if table.totalStake = 0 then 0 else table.totalStake / 3 * 2 + 1

/-- Whether an operator is eligible to sign certificates. -/
def isStaked (table : StakeTable) (operator : AccountId) : Bool :=
  match table.operators[operator]? with
  | some entry => table.isStakedInner entry
  | none => false

/-- Slash an operator: burn its stake and give it the next slash nonce. The second component is the
nonce and the amount burned. -/
def slash (table : StakeTable) (operator : AccountId) : StakeTable × ℕ × ℕ :=
  ({ table with
      operators := table.operators.insert operator ⟨0, some table.slashCounter⟩
      slashCounter := wrappingAdd 64 table.slashCounter 1 },
    table.slashCounter, (table.entry operator).stake)

/-- Whether an operator was slashed. -/
def isSlashed (table : StakeTable) (operator : AccountId) : Bool :=
  (table.entry operator).slashNonce.isSome

/-- The commitment over the stake table. -/
def root (prim : Primitives) (table : StakeTable) : Bytes32 :=
  merkleRoot prim (table.operators.toList.map fun entry ↦
    (entry.1.bytes.toBytes,
      beBytes 16 entry.2.stake ++ [if entry.2.slashNonce.isSome then 1 else 0]))

/-! ### Persistence -/

/-- The table as it is written to disk, under the hexadecimal text of each operator. -/
def toSnapshot (table : StakeTable) (order : IterationOrder (AccountId × OperatorEntry)) :
    ExtTreeMap String OperatorEntry :=
  (order.visit table.operators.toList).foldl
    (fun snapshot entry ↦ snapshot.insert (hexEncode entry.1.bytes.toBytes) entry.2) ∅

/-- The operator of a hexadecimal text of 32 bytes. -/
def operatorFromHex (text : String) : Option AccountId :=
  ((hexDecode text).bind Bytes32.ofBytes).map AccountId.mk

/-- The table that a snapshot restores. Slash nonces go on after the highest one. -/
def fromSnapshot (config : StakingConfig) (snapshot : ExtTreeMap String OperatorEntry) :
    StakeTable :=
  let maxSlashNonce := snapshot.toList.foldl
    (fun highest entry ↦
      match operatorFromHex entry.1, entry.2.slashNonce with
      | some _, some nonce => max highest nonce
      | _, _ => highest) 0
  { config
    operators := restore operatorFromHex (fun _ entry ↦ entry) snapshot.toList
    slashCounter := wrappingAdd 64 maxSlashNonce 1 }

end StakeTable

end Fluidic.Operator
