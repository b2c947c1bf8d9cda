import Fluidic.Crypto.Keys
import Mathlib.Data.List.Sort
import Mathlib.Data.Nat.Log

/-!
# The Merkle accumulator

`src/state/merkle.rs`: a root over key/value pairs sorted by key. The leaves are padded to a power
of two with copies of the last one, and a level is folded in pairs until one node is left.
-/

set_option autoImplicit false
set_option relaxedAutoImplicit false

namespace Fluidic.State

open Library Crypto

variable (prim : Primitives)

/-- The hash of a leaf. -/
def merkleLeaf (item : List UInt8 × List UInt8) : Bytes32 :=
  prim.blake3 (asciiBytes "fluidic:leaf:v1" ++ item.1 ++ item.2)

/-- The hash of an inner node. -/
def merkleNode (left right : Bytes32) : Bytes32 :=
  prim.blake3 (asciiBytes "fluidic:node:v1" ++ left.toBytes ++ right.toBytes)

/-- The root of no items. -/
def emptyRoot : Bytes32 := prim.blake3 (asciiBytes "fluidic:empty:root")

/-- The level above a level of even length. -/
def nextLevel : List Bytes32 → List Bytes32
  | left :: right :: rest => merkleNode prim left right :: nextLevel rest
  | _ => []

/-- Fold a level until one node is left, one level for each unit of `levels`. -/
def foldLevels : ℕ → List Bytes32 → List Bytes32
  | 0, level => level
  | levels + 1, level =>
    if level.length ≤ 1 then level else foldLevels levels (nextLevel prim level)

/-- Pad a level to the next power of two with copies of its last entry. -/
def padLeaves (leaves : List Bytes32) : List Bytes32 :=
  leaves ++ List.replicate (2 ^ Nat.clog 2 leaves.length - leaves.length)
    (leaves.getLastD (emptyRoot prim))

/-- The Merkle root of a list of key/value pairs. -/
def merkleRoot (items : List (List UInt8 × List UInt8)) : Bytes32 :=
  let sorted := items.insertionSort fun first second ↦ (compare first.1 second.1).isLE
  let leaves := sorted.map (merkleLeaf prim)
  if leaves.isEmpty then emptyRoot prim
  else (foldLevels prim leaves.length (padLeaves prim leaves)).headD (emptyRoot prim)

end Fluidic.State
