import Fluidic.Crypto.VectorClock
import Fluidic.Field.Coordinates

/-!
# Signed phase-shifts

The payloads of `src/crypto/phase_shift.rs`: commutative and stateful shifts, registrations and
stake announcements, with the byte strings their signatures and hashes cover. Only the hash of a
stateful shift is used by the consensus code; the hash of an enclosing signal belongs to the gossip
layer and is left out here.
-/

set_option autoImplicit false
set_option relaxedAutoImplicit false

namespace Fluidic.Crypto

open Library Fluidic.Field
open Std (ExtTreeMap)

/-- A state-independent delta to a pool, aggregated by the transform. -/
structure CommutativeShift where
  domain : DomainId
  coordinate : Coordinate
  delta : ℤ
  poolId : PoolId
  nonce : ℕ
  timestampNs : ℕ
  firstSeenAtNs : ℕ
  signature : List UInt8
  deriving DecidableEq

/-- The sixteen little-endian bytes of an `i128` in two's complement. -/
def i128LeBytes (value : ℤ) : List UInt8 := leBytes 16 (value % 2 ^ 128).toNat

/-- A signed number within its range is determined by its bytes. Assumes: both numbers are within
the range, and their bytes are the same. -/
theorem i128LeBytes_inj {first second : ℤ} (hfirst : -2 ^ 127 ≤ first ∧ first < 2 ^ 127)
    (hsecond : -2 ^ 127 ≤ second ∧ second < 2 ^ 127)
    (hbytes : i128LeBytes first = i128LeBytes second) : first = second := by
  have hresidue := leBytes_inj (by omega) (by omega) hbytes
  omega

/-- The bytes a commutative signature covers. -/
def CommutativeShift.signingBytes (shift : CommutativeShift) : List UInt8 :=
  asciiBytes "FLUIDIC:COMMUTATIVE:v2" ++ shift.domain.toBytes ++ shift.coordinate.toBytes ++
    i128LeBytes shift.delta ++ shift.poolId.toBytes ++ leBytes 8 shift.nonce ++
    leBytes 8 shift.timestampNs

/-- A transfer that the vector-clock DAG orders before it is applied. -/
structure StatefulShift where
  domain : DomainId
  sender : AccountId
  recipient : AccountId
  amount : ℕ
  vectorClock : VectorClock
  predecessors : List TxHash
  nonce : ℕ
  timestampNs : ℕ
  firstSeenAtNs : ℕ
  signature : List UInt8
  deriving DecidableEq

namespace StatefulShift

/-- The bytes a stateful signature covers. The clock is visited in the order of its keys. -/
def signingBytes (shift : StatefulShift) : List UInt8 :=
  asciiBytes "FLUIDIC:STATEFUL:v2" ++ shift.domain.toBytes ++ shift.sender.bytes.toBytes ++
    shift.recipient.bytes.toBytes ++ leBytes 16 shift.amount ++
    (shift.vectorClock.times.toList.flatMap fun entry ↦ entry.1.toBytes ++ leBytes 8 entry.2) ++
    shift.predecessors.flatMap Bytes32.toBytes ++ leBytes 8 shift.nonce ++
    leBytes 8 shift.timestampNs

/-- The hash that identifies a stateful shift. -/
def hash (prim : Primitives) (shift : StatefulShift) : TxHash :=
  prim.blake3 (shift.signingBytes ++ shift.signature)

/-- Verify the signature under a key, without checking that the key belongs to the sender. -/
def verifySignature (prim : Primitives) (shift : StatefulShift) (publicKey : VerifyingKey) : Bool :=
  verifySlice prim publicKey shift.signingBytes shift.signature

/-- Build a shift and sign it. -/
def new (prim : Primitives) (keypair : KeyPair) (domain : DomainId) (recipient : AccountId)
    (amount : ℕ) (vectorClock : VectorClock) (predecessors : List TxHash) (nonce timestampNs : ℕ) :
    StatefulShift :=
  let unsigned : StatefulShift :=
    { domain, sender := keypair.accountId prim, recipient, amount, vectorClock, predecessors, nonce,
      timestampNs, firstSeenAtNs := 0, signature := [] }
  { unsigned with signature := keypair.sign prim unsigned.signingBytes }

/-- A shift signed with the stand-in primitives, from small numbers. -/
def sample (seed amount : ℕ) (times : List (ℕ × ℕ)) (predecessors : List TxHash)
    (nonce timestampNs : ℕ) : StatefulShift :=
  new .sample ⟨BitVec.ofNat 256 seed⟩ defaultDexDomain ⟨9⟩ amount
    ⟨ExtTreeMap.ofList (times.map fun entry ↦ (BitVec.ofNat 256 entry.1, entry.2))⟩ predecessors
    nonce timestampNs

end StatefulShift

/-- A registration gossiped so that every node learns an account and its token accounts. -/
structure RegistrationShift where
  account : AccountId
  publicKey : Bytes32
  waveAccount : AccountId
  usdcAccount : AccountId
  nonce : ℕ
  timestampNs : ℕ
  deriving DecidableEq

/-- A stake announcement gossiped so that every node learns the operators' collateral. -/
structure StakeShift where
  operator : AccountId
  publicKey : Bytes32
  amount : ℕ
  nonce : ℕ
  timestampNs : ℕ
  signature : List UInt8
  deriving DecidableEq

namespace StakeShift

/-- The bytes a stake signature covers. -/
def signingBytes (stake : StakeShift) : List UInt8 :=
  asciiBytes "FLUIDIC:STAKE:v1" ++ stake.operator.bytes.toBytes ++ stake.publicKey.toBytes ++
    leBytes 16 stake.amount ++ leBytes 8 stake.nonce ++ leBytes 8 stake.timestampNs

/-- Build a stake announcement and sign it. -/
def sign (prim : Primitives) (keypair : KeyPair) (amount nonce timestampNs : ℕ) : StakeShift :=
  let unsigned : StakeShift :=
    { operator := keypair.accountId prim, publicKey := keypair.publicKey prim, amount, nonce
      timestampNs, signature := [] }
  { unsigned with signature := keypair.sign prim unsigned.signingBytes }

/-- A stake announcement is valid when its key is a point of the curve, verifies the signature and
is the key of the operator. -/
def verify (prim : Primitives) (stake : StakeShift) : Bool :=
  prim.isValidKey stake.publicKey &&
    verifySlice prim stake.publicKey stake.signingBytes stake.signature &&
    AccountId.fromPublicKey prim stake.publicKey == stake.operator

end StakeShift

end Fluidic.Crypto
