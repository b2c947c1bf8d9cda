import Fluidic.Operator.Stake
import Fluidic.Crypto.PhaseShift

/-!
# Synthesis certificates and the certificate tracker

`src/consensus/certificate.rs`. A certificate is an operator's signed attestation of the roots of
one tick. The tracker keeps the first certificate of each operator and tick, adds the operator's
stake to the tally of the certificate's view, and calls back to slash an operator whose later
certificate for the same tick has other signing bytes.

`apply` takes the state of the slash callback explicitly, so that the full node and the light client
share it as they do in the source. `checkQuorum` returns the first view, in hash order, whose tally
reaches the threshold.
-/

set_option autoImplicit false
set_option relaxedAutoImplicit false

namespace Fluidic.Consensus

open Library Crypto Fluidic.Field
open Std (ExtTreeMap TransOrd TransCmp LawfulEqOrd)

/-- A signed attestation of the result of one tick. -/
structure SynthesisCertificate where
  operator : AccountId
  tick : ℕ
  commutativeApplied : ℕ
  statefulApplied : ℕ
  evmApplied : ℕ
  commutativeRoot : Bytes32
  statefulRoot : Bytes32
  balancesRoot : Bytes32
  stakeRoot : Bytes32
  rewardRoot : Bytes32
  evmRoot : Bytes32
  metabolicBurned : ℕ
  timestampNs : ℕ
  signature : List UInt8
  deriving DecidableEq

namespace SynthesisCertificate

/-- The bytes a certificate signature covers. -/
def signingBytes (cert : SynthesisCertificate) : List UInt8 :=
  asciiBytes "FLUIDIC:SYNTHESIS:v3" ++ cert.operator.bytes.toBytes ++ leBytes 8 cert.tick ++
    leBytes 8 cert.commutativeApplied ++ leBytes 8 cert.statefulApplied ++
    leBytes 8 cert.evmApplied ++ cert.commutativeRoot.toBytes ++ cert.statefulRoot.toBytes ++
    cert.balancesRoot.toBytes ++ cert.stakeRoot.toBytes ++ cert.rewardRoot.toBytes ++
    cert.evmRoot.toBytes ++ leBytes 16 cert.metabolicBurned ++ leBytes 8 cert.timestampNs

/-- Sign a certificate, given with an empty signature, in the name of the keypair. -/
def sign (prim : Primitives) (keypair : KeyPair) (unsigned : SynthesisCertificate) :
    SynthesisCertificate :=
  let named := { unsigned with operator := keypair.accountId prim, signature := [] }
  { named with signature := keypair.sign prim named.signingBytes }

/-- Verify the operator signature. -/
def verify (prim : Primitives) (cert : SynthesisCertificate) (publicKey : VerifyingKey) : Bool :=
  verifySlice prim publicKey cert.signingBytes cert.signature

end SynthesisCertificate

/-! ### Roots -/

/-- Whether one delta is hashed before another: by pool, then coordinate bytes, then delta. -/
def deltaLe (first second : Coordinate × ℤ × PoolId) : Bool :=
  ((compare first.2.2 second.2.2).then
    ((compare first.1.toBytes second.1.toBytes).then (compare first.2.1 second.2.1))).isLE

/-- The root over the commutative deltas of a batch, in canonical order. -/
def commutativeRoot (prim : Primitives) (tick : ℕ) (deltas : List (Coordinate × ℤ × PoolId)) :
    Bytes32 :=
  prim.blake3
    (asciiBytes "fluidic:commutative-root:v2" ++ leBytes 8 tick ++ leBytes 8 deltas.length ++
      (deltas.insertionSort fun first second ↦ deltaLe first second).flatMap
        fun delta ↦ delta.1.toBytes ++ i128LeBytes delta.2.1 ++ delta.2.2.toBytes)

/-- The root over the hashes of the stateful shifts applied in a tick, in the order applied. -/
def statefulRoot (prim : Primitives) (tick : ℕ) (hashes : List TxHash) : Bytes32 :=
  prim.blake3
    (asciiBytes "fluidic:stateful-root:v1" ++ leBytes 8 tick ++ leBytes 8 hashes.length ++
      hashes.flatMap Bytes32.toBytes)

/-- The root over the hashes of the EVM transactions applied in a tick. -/
def evmRoot (prim : Primitives) (tick : ℕ) (hashes : List Bytes32) : Bytes32 :=
  prim.blake3
    (asciiBytes "fluidic:evm-root:v1" ++ leBytes 8 tick ++ leBytes 8 hashes.length ++
      hashes.flatMap Bytes32.toBytes)

/-- The root over a balance map, in the order of its accounts. -/
def balancesRoot (prim : Primitives) (balances : ExtTreeMap AccountId ℕ) : Bytes32 :=
  prim.blake3
    (asciiBytes "fluidic:balances-root:v1" ++
      balances.toList.flatMap fun entry ↦ entry.1.bytes.toBytes ++ leBytes 16 entry.2)

/-! ### Views -/

/-- The result roots on which operators must agree to form a quorum. -/
@[ext] structure QuorumView where
  commutativeRoot : Bytes32
  statefulRoot : Bytes32
  evmRoot : Bytes32
  balancesRoot : Bytes32
  stakeRoot : Bytes32
  rewardRoot : Bytes32
  deriving DecidableEq

namespace QuorumView

/-- The view of a certificate. -/
def ofCertificate (cert : SynthesisCertificate) : QuorumView :=
  { commutativeRoot := cert.commutativeRoot
    statefulRoot := cert.statefulRoot
    evmRoot := cert.evmRoot
    balancesRoot := cert.balancesRoot
    stakeRoot := cert.stakeRoot
    rewardRoot := cert.rewardRoot }

/-- The six roots of a view as a tuple. -/
def key (view : QuorumView) : Bytes32 × Bytes32 × Bytes32 × Bytes32 × Bytes32 × Bytes32 :=
  (view.commutativeRoot, view.statefulRoot, view.evmRoot, view.balancesRoot, view.stakeRoot,
    view.rewardRoot)

instance : Ord QuorumView := ⟨compareOn key⟩

instance : TransOrd QuorumView := inferInstanceAs (TransCmp (compareOn key))

instance : LawfulEqOrd QuorumView where
  eq_of_compare {first second} hcompare := by
    have hkey : first.key = second.key := LawfulEqOrd.eq_of_compare hcompare
    obtain ⟨a, b, c, d, e, f⟩ := first
    simpa [key, QuorumView.ext_iff] using hkey

end QuorumView

/-! ### The tracker -/

/-- Why a certificate was refused. -/
inductive SlashingReason
  | invalidSignature
  | unstakedOperator
  | conflictingCertificate
  deriving DecidableEq, Repr

/-- Certificates are kept per operator and tick. -/
instance : TransOrd (AccountId × ℕ) := inferInstance

/-- The certificates observed so far, by operator and tick, and the stake tallied for each view of
each tick. -/
structure CertificateTracker where
  byOperatorTick : ExtTreeMap (AccountId × ℕ) SynthesisCertificate
  byTick : ExtTreeMap ℕ (ExtTreeMap QuorumView ℕ)

namespace CertificateTracker

/-- No certificates. -/
def new : CertificateTracker := ⟨∅, ∅⟩

/-- Keep a first certificate and add the operator's stake to the tally of its view. -/
def record (tracker : CertificateTracker) (cert : SynthesisCertificate) (stake : ℕ) :
    CertificateTracker :=
  let groups := tracker.byTick.getD cert.tick ∅
  let view := QuorumView.ofCertificate cert
  { byOperatorTick := tracker.byOperatorTick.insert (cert.operator, cert.tick) cert
    byTick := tracker.byTick.insert cert.tick
      (groups.insert view
        (match groups[view]? with
          | some tallied => wrappingAdd 128 tallied stake
          | none => stake)) }

/-- Validate a certificate and register it. A certificate that conflicts with the one kept for its
operator and tick runs the slash callback. -/
def apply {σ : Type} (prim : Primitives) (tracker : CertificateTracker)
    (cert : SynthesisCertificate) (registry : KeyRegistry) (stakeChecker : AccountId → Bool)
    (stakeAmount : AccountId → ℕ) (slash : AccountId → σ → σ) (state : σ) :
    CertificateTracker × σ × Except SlashingReason Unit :=
  match registry[cert.operator]? with
  | none => (tracker, state, .error .invalidSignature)
  | some publicKey =>
    if !cert.verify prim publicKey then (tracker, state, .error .invalidSignature)
    else if !stakeChecker cert.operator then (tracker, state, .error .unstakedOperator)
    else
      match tracker.byOperatorTick[(cert.operator, cert.tick)]? with
      | some kept =>
        if kept.signingBytes ≠ cert.signingBytes then
          (tracker, slash cert.operator state, .error .conflictingCertificate)
        else (tracker, state, .ok ())
      | none => (tracker.record cert (stakeAmount cert.operator), state, .ok ())

/-- The first view of a tick, in the given order, whose tally reaches the threshold. -/
def checkQuorum (tracker : CertificateTracker) (order : IterationOrder (QuorumView × ℕ))
    (tick threshold : ℕ) : Option (QuorumView × ℕ) :=
  match tracker.byTick[tick]? with
  | none => none
  | some groups => (order.visit groups.toList).find? fun entry ↦ decide (threshold ≤ entry.2)

end CertificateTracker

end Fluidic.Consensus
