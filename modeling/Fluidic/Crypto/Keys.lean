import Fluidic.Library.FixedWidth
import Fluidic.Library.FiniteMap

/-!
# Identifiers, keys and the cryptographic primitives

`src/crypto/keys.rs` and the type aliases of `src/crypto/phase_shift.rs`. A 32-byte identifier is
the number its bytes spell, most significant byte first, so that the byte order of the source is
the order of the numbers.

BLAKE3 and Ed25519 are third-party packages. They enter as the fields of `Primitives`, about which
nothing is assumed: a theorem that needs a property of one of them states it.
-/

set_option autoImplicit false
set_option relaxedAutoImplicit false

namespace Fluidic.Crypto

open Library
open Std (ExtTreeMap ExtTreeSet TransOrd TransCmp LawfulEqOrd LawfulEqCmp)

/-- A 32-byte array, `[u8; 32]`. -/
abbrev Bytes32 := BitVec 256

instance : TransOrd Bytes32 := inferInstanceAs (TransOrd (BitVec 256))

instance : LawfulEqOrd Bytes32 := inferInstanceAs (LawfulEqOrd (BitVec 256))

instance : LawfulBEq Bytes32 := inferInstanceAs (LawfulBEq (BitVec 256))

/-- The bytes of a 32-byte array, first byte first. -/
def Bytes32.toBytes (value : Bytes32) : List UInt8 := beBytes 32 value.toNat

@[simp] theorem Bytes32.length_toBytes (value : Bytes32) : value.toBytes.length = 32 :=
  length_beBytes 32 value.toNat

/-- The 32-byte array of a list of as many bytes. -/
def Bytes32.ofBytes (bytes : List UInt8) : Option Bytes32 :=
  if bytes.length = 32 then
    some (BitVec.ofNat 256 (bytes.foldl (fun value byte ↦ 256 * value + byte.toNat) 0))
  else none

/-- A 32-byte array is determined by its bytes. Assumes: the bytes are the same. -/
theorem Bytes32.toBytes_inj {first second : Bytes32} (hbytes : first.toBytes = second.toBytes) :
    first = second :=
  BitVec.eq_of_toNat_eq (beBytes_inj first.isLt second.isLt hbytes)

/-- A 32-byte array is read back from its bytes. -/
theorem Bytes32.ofBytes_toBytes (value : Bytes32) : Bytes32.ofBytes value.toBytes = some value := by
  unfold Bytes32.ofBytes
  rw [if_pos value.length_toBytes]
  refine congrArg some (BitVec.eq_of_toNat_eq ?_)
  have hvalue : beValue value.toBytes = value.toNat := beValue_beBytes value.isLt
  unfold beValue at hvalue
  rw [hvalue, BitVec.toNat_ofNat, Nat.mod_eq_of_lt value.isLt]

/-- 32-byte identifier of a concurrency domain. -/
abbrev DomainId := Bytes32

/-- 32-byte identifier of a liquidity pool or throughput channel. -/
abbrev PoolId := Bytes32

/-- 32-byte BLAKE3 hash identifying a signal. -/
abbrev TxHash := Bytes32

/-- 32-byte identifier of an oscillator node. -/
abbrev OscillatorId := Bytes32

/-- The default domain, `DEX_WAVE_USDC` padded with zero bytes. -/
def defaultDexDomain : DomainId :=
  0x4445585f574156455f5553444300000000000000000000000000000000000000#256

/-- 32-byte account identifier. -/
structure AccountId where
  bytes : Bytes32
  deriving DecidableEq, Repr

namespace AccountId

/-- Accounts are ordered by their bytes. -/
instance : Ord AccountId := ⟨compareOn AccountId.bytes⟩

instance : TransOrd AccountId := inferInstanceAs (TransCmp (compareOn AccountId.bytes))

instance : LawfulEqOrd AccountId where
  eq_of_compare {first second} hcompare := by
    obtain ⟨bytes⟩ := first
    exact congrArg AccountId.mk (@LawfulEqOrd.eq_of_compare Bytes32 _ _ _ _ hcompare)

/-- The hexadecimal text of an account. -/
def display (account : AccountId) : String := hexEncode account.bytes.toBytes

end AccountId

/-- A compressed Ed25519 verifying key. -/
abbrev VerifyingKey := Bytes32

/-- The keys under which a node verifies signatures. -/
abbrev KeyRegistry := ExtTreeMap AccountId VerifyingKey

/-- The third-party primitives: the BLAKE3 hash of a byte string, and Ed25519 key derivation,
signing and verification. -/
structure Primitives where
  blake3 : List UInt8 → Bytes32
  verifyingKey : Bytes32 → VerifyingKey
  sign : Bytes32 → List UInt8 → List UInt8
  verify : VerifyingKey → List UInt8 → List UInt8 → Bool
  isValidKey : VerifyingKey → Bool

/-- The account of a public key is the hash of the key. -/
def AccountId.fromPublicKey (prim : Primitives) (publicKey : VerifyingKey) : AccountId :=
  ⟨prim.blake3 publicKey.toBytes⟩

/-- An Ed25519 keypair, given by its seed. -/
structure KeyPair where
  seed : Bytes32
  deriving DecidableEq, Repr

namespace KeyPair

variable (prim : Primitives)

/-- The public half of a keypair. -/
def publicKey (keypair : KeyPair) : VerifyingKey := prim.verifyingKey keypair.seed

/-- The account of a keypair. -/
def accountId (keypair : KeyPair) : AccountId :=
  AccountId.fromPublicKey prim (keypair.publicKey prim)

/-- Sign a message. -/
def sign (keypair : KeyPair) (message : List UInt8) : List UInt8 :=
  prim.sign keypair.seed message

end KeyPair

/-- Verify a signature kept as a byte vector: `Signature::from_slice` refuses every length other
than 64. -/
def verifySlice (prim : Primitives) (publicKey : VerifyingKey) (message signature : List UInt8) :
    Bool :=
  signature.length == 64 && prim.verify publicKey message signature

/-! ### A stand-in that can be evaluated -/

/-- A polynomial digest of a byte string, in place of BLAKE3. -/
def sampleDigest (bytes : List UInt8) : Bytes32 :=
  BitVec.ofNat 256
    (bytes.foldl (fun digest byte ↦ (digest * 65599 + byte.toNat + 1) % 2 ^ 256) 5381)

/-- A keyed digest, padded to 64 bytes, in place of an Ed25519 signature. -/
def sampleSign (seed : Bytes32) (message : List UInt8) : List UInt8 :=
  (sampleDigest (seed.toBytes ++ message)).toBytes ++ seed.toBytes

/-- Primitives with which runs on concrete inputs can be evaluated. A key verifies exactly the
signatures made with it. -/
def Primitives.sample : Primitives where
  blake3 := sampleDigest
  verifyingKey seed := seed
  sign := sampleSign
  verify key message signature := signature == sampleSign key message
  isValidKey _ := true

end Fluidic.Crypto
