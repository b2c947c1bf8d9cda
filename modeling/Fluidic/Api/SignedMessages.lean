import Fluidic.Api.DomainRoutes
import Fluidic.Crypto.TransferBinding

/-!
# Signed messages of different kinds

Five kinds of messages are signed: the three shifts of `src/crypto/phase_shift.rs`, the certificates
of `src/consensus/certificate.rs` and the domain registrations of `src/api/routes.rs`. Each kind
starts its signed bytes with a text of its own, and none of these texts starts another one, so no
byte string is signed as two kinds of message (`kind_eq_of_signingBytes`). Behind its text, each of
the layouts of fixed length determines its fields.
-/

set_option autoImplicit false
set_option relaxedAutoImplicit false

namespace Fluidic.Api

open Library Crypto Consensus

/-! ### Kinds -/

/-- The kinds of signed messages. -/
inductive MessageKind
  | commutative
  | stateful
  | stake
  | certificate
  | registration
  deriving DecidableEq

/-- The text with which the signed bytes of a kind start. -/
def MessageKind.tag : MessageKind → List UInt8
  | .commutative => asciiBytes "FLUIDIC:COMMUTATIVE:v2"
  | .stateful => asciiBytes "FLUIDIC:STATEFUL:v2"
  | .stake => asciiBytes "FLUIDIC:STAKE:v1"
  | .certificate => asciiBytes "FLUIDIC:SYNTHESIS:v3"
  | .registration => asciiBytes "FLUIDIC:REGISTER_DOMAIN:v1"

/-- A message that is signed. A registration is a policy and the fee that its signature covers. -/
inductive SignedMessage
  | commutative (shift : CommutativeShift)
  | stateful (shift : StatefulShift)
  | stake (announced : StakeShift)
  | certificate (cert : SynthesisCertificate)
  | registration (policy : DomainPolicy) (fee : ℕ)

namespace SignedMessage

/-- The kind of a message. -/
def kind : SignedMessage → MessageKind
  | commutative _ => .commutative
  | stateful _ => .stateful
  | stake _ => .stake
  | certificate _ => .certificate
  | registration _ _ => .registration

/-- The bytes that the signature of a message covers. -/
def signingBytes : SignedMessage → List UInt8
  | commutative shift => shift.signingBytes
  | stateful shift => shift.signingBytes
  | stake announced => announced.signingBytes
  | certificate cert => cert.signingBytes
  | registration policy fee => domainRegistrationSigningBytes policy fee

end SignedMessage

/-- No text of a kind starts the text of another one. -/
theorem MessageKind.eq_of_tag_isPrefix {first second : MessageKind}
    (hstarts : first.tag.IsPrefix second.tag) : first = second := by
  cases first <;> cases second <;> first | rfl | exact absurd hstarts (by decide)

/-- The signed bytes of a message start with the text of its kind. -/
theorem SignedMessage.tag_isPrefix (message : SignedMessage) :
    message.kind.tag.IsPrefix message.signingBytes := by
  cases message with
  | commutative shift =>
    show (asciiBytes "FLUIDIC:COMMUTATIVE:v2").IsPrefix shift.signingBytes
    unfold CommutativeShift.signingBytes
    simp only [List.append_assoc]
    exact List.prefix_append _ _
  | stateful shift =>
    show (asciiBytes "FLUIDIC:STATEFUL:v2").IsPrefix shift.signingBytes
    unfold StatefulShift.signingBytes
    simp only [List.append_assoc]
    exact List.prefix_append _ _
  | stake announced =>
    show (asciiBytes "FLUIDIC:STAKE:v1").IsPrefix announced.signingBytes
    unfold StakeShift.signingBytes
    simp only [List.append_assoc]
    exact List.prefix_append _ _
  | certificate cert =>
    show (asciiBytes "FLUIDIC:SYNTHESIS:v3").IsPrefix cert.signingBytes
    unfold SynthesisCertificate.signingBytes
    simp only [List.append_assoc]
    exact List.prefix_append _ _
  | registration policy fee =>
    show (asciiBytes "FLUIDIC:REGISTER_DOMAIN:v1").IsPrefix
      (domainRegistrationSigningBytes policy fee)
    unfold domainRegistrationSigningBytes
    simp only [List.append_assoc]
    exact List.prefix_append _ _

/-- Messages with the same signed bytes are of one kind. Assumes: the bytes are the same. -/
theorem SignedMessage.kind_eq_of_signingBytes {first second : SignedMessage}
    (hbytes : first.signingBytes = second.signingBytes) : first.kind = second.kind := by
  have hfirst := first.tag_isPrefix
  have hsecond := second.tag_isPrefix
  rw [hbytes] at hfirst
  rcases List.prefix_or_prefix_of_prefix hfirst hsecond with hstarts | hstarts
  · exact MessageKind.eq_of_tag_isPrefix hstarts
  · exact (MessageKind.eq_of_tag_isPrefix hstarts).symm

/-! ### Fields -/

/-- The fields of a commutative shift are within the ranges of their machine integers. -/
structure CommutativeFits (shift : CommutativeShift) : Prop where
  coordinate : ∀ component ∈ shift.coordinate.components.toList, component < 2 ^ 64
  delta : -2 ^ 127 ≤ shift.delta ∧ shift.delta < 2 ^ 127
  nonce : shift.nonce < 2 ^ 64
  timestampNs : shift.timestampNs < 2 ^ 64

/-- The fields of a stake announcement are within the ranges of their machine integers. -/
structure StakeFits (stake : StakeShift) : Prop where
  amount : stake.amount < 2 ^ 128
  nonce : stake.nonce < 2 ^ 64
  timestampNs : stake.timestampNs < 2 ^ 64

/-- The fields of a certificate are within the ranges of their machine integers. -/
structure CertificateFits (cert : SynthesisCertificate) : Prop where
  tick : cert.tick < 2 ^ 64
  commutativeApplied : cert.commutativeApplied < 2 ^ 64
  statefulApplied : cert.statefulApplied < 2 ^ 64
  evmApplied : cert.evmApplied < 2 ^ 64
  metabolicBurned : cert.metabolicBurned < 2 ^ 128
  timestampNs : cert.timestampNs < 2 ^ 64

/-- The signed bytes of a commutative shift determine what is signed. Assumes: the fields fit, and
the bytes are the same. -/
theorem commutative_eq_of_signingBytes {first second : CommutativeShift}
    (hfirst : CommutativeFits first) (hsecond : CommutativeFits second)
    (hbytes : first.signingBytes = second.signingBytes) :
    first = { second with
      firstSeenAtNs := first.firstSeenAtNs, signature := first.signature } := by
  unfold CommutativeShift.signingBytes at hbytes
  obtain ⟨hbytes, htimes⟩ := List.append_inj' hbytes (by simp)
  obtain ⟨hbytes, hnonces⟩ := List.append_inj' hbytes (by simp)
  obtain ⟨hbytes, hpools⟩ := List.append_inj' hbytes (by simp)
  obtain ⟨hbytes, hdeltas⟩ := List.append_inj' hbytes (by simp [i128LeBytes])
  obtain ⟨hbytes, hcoordinates⟩ := List.append_inj' hbytes (by simp)
  obtain ⟨-, hdomains⟩ := List.append_inj' hbytes (by simp)
  have htime := u64_eq_of_leBytes hfirst.timestampNs hsecond.timestampNs htimes
  have hnonce := u64_eq_of_leBytes hfirst.nonce hsecond.nonce hnonces
  have hpool := Bytes32.toBytes_inj hpools
  have hdelta := i128LeBytes_inj hfirst.delta hsecond.delta hdeltas
  have hcoordinate := Field.Coordinate.toBytes_inj hfirst.coordinate hsecond.coordinate hcoordinates
  have hdomain := Bytes32.toBytes_inj hdomains
  obtain ⟨domain, coordinate, delta, poolId, nonce, timestampNs, firstSeenAtNs, signature⟩ := first
  dsimp only at htime hnonce hpool hdelta hcoordinate hdomain
  rw [htime, hnonce, hpool, hdelta, hcoordinate, hdomain]

/-- The signed bytes of a stake announcement determine what is signed. Assumes: the fields fit, and
the bytes are the same. -/
theorem stake_eq_of_signingBytes {first second : StakeShift} (hfirst : StakeFits first)
    (hsecond : StakeFits second) (hbytes : first.signingBytes = second.signingBytes) :
    first = { second with signature := first.signature } := by
  unfold StakeShift.signingBytes at hbytes
  obtain ⟨hbytes, htimes⟩ := List.append_inj' hbytes (by simp)
  obtain ⟨hbytes, hnonces⟩ := List.append_inj' hbytes (by simp)
  obtain ⟨hbytes, hamounts⟩ := List.append_inj' hbytes (by simp)
  obtain ⟨hbytes, hkeys⟩ := List.append_inj' hbytes (by simp)
  obtain ⟨-, hoperators⟩ := List.append_inj' hbytes (by simp)
  have htime := u64_eq_of_leBytes hfirst.timestampNs hsecond.timestampNs htimes
  have hnonce := u64_eq_of_leBytes hfirst.nonce hsecond.nonce hnonces
  have hamount := u128_eq_of_leBytes hfirst.amount hsecond.amount hamounts
  have hkey := Bytes32.toBytes_inj hkeys
  have hoperator := congrArg AccountId.mk (Bytes32.toBytes_inj hoperators)
  obtain ⟨⟨operator⟩, publicKey, amount, nonce, timestampNs, signature⟩ := first
  dsimp only at htime hnonce hamount hkey hoperator
  rw [htime, hnonce, hamount, hkey, hoperator]

/-- The signed bytes of a certificate determine what is signed. Assumes: the fields fit, and the
bytes are the same. -/
theorem certificate_eq_of_signingBytes {first second : SynthesisCertificate}
    (hfirst : CertificateFits first) (hsecond : CertificateFits second)
    (hbytes : first.signingBytes = second.signingBytes) :
    first = { second with signature := first.signature } := by
  unfold SynthesisCertificate.signingBytes at hbytes
  obtain ⟨hbytes, htimes⟩ := List.append_inj' hbytes (by simp)
  obtain ⟨hbytes, hburned⟩ := List.append_inj' hbytes (by simp)
  obtain ⟨hbytes, hevms⟩ := List.append_inj' hbytes (by simp)
  obtain ⟨hbytes, hrewards⟩ := List.append_inj' hbytes (by simp)
  obtain ⟨hbytes, hstakes⟩ := List.append_inj' hbytes (by simp)
  obtain ⟨hbytes, hbalances⟩ := List.append_inj' hbytes (by simp)
  obtain ⟨hbytes, hstatefuls⟩ := List.append_inj' hbytes (by simp)
  obtain ⟨hbytes, hcommutatives⟩ := List.append_inj' hbytes (by simp)
  obtain ⟨hbytes, hevmCounts⟩ := List.append_inj' hbytes (by simp)
  obtain ⟨hbytes, hstatefulCounts⟩ := List.append_inj' hbytes (by simp)
  obtain ⟨hbytes, hcommutativeCounts⟩ := List.append_inj' hbytes (by simp)
  obtain ⟨hbytes, hticks⟩ := List.append_inj' hbytes (by simp)
  obtain ⟨-, hoperators⟩ := List.append_inj' hbytes (by simp)
  have hoperator := congrArg AccountId.mk (Bytes32.toBytes_inj hoperators)
  have htick := u64_eq_of_leBytes hfirst.tick hsecond.tick hticks
  have hcommutativeCount := u64_eq_of_leBytes hfirst.commutativeApplied
    hsecond.commutativeApplied hcommutativeCounts
  have hstatefulCount := u64_eq_of_leBytes hfirst.statefulApplied hsecond.statefulApplied
    hstatefulCounts
  have hevmCount := u64_eq_of_leBytes hfirst.evmApplied hsecond.evmApplied hevmCounts
  have hcommutative := Bytes32.toBytes_inj hcommutatives
  have hstateful := Bytes32.toBytes_inj hstatefuls
  have hbalance := Bytes32.toBytes_inj hbalances
  have hstake := Bytes32.toBytes_inj hstakes
  have hreward := Bytes32.toBytes_inj hrewards
  have hevm := Bytes32.toBytes_inj hevms
  have hburn := u128_eq_of_leBytes hfirst.metabolicBurned hsecond.metabolicBurned hburned
  have htime := u64_eq_of_leBytes hfirst.timestampNs hsecond.timestampNs htimes
  obtain ⟨⟨operator⟩, tick, commutativeApplied, statefulApplied, evmApplied, commutativeRoot,
    statefulRoot, balancesRoot, stakeRoot, rewardRoot, evmRoot, metabolicBurned, timestampNs,
    signature⟩ := first
  dsimp only at hoperator htick hcommutativeCount hstatefulCount hevmCount hcommutative
  dsimp only at hstateful hbalance hstake hreward hevm hburn htime
  rw [hoperator, htick, hcommutativeCount, hstatefulCount, hevmCount, hcommutative, hstateful,
    hbalance, hstake, hreward, hevm, hburn, htime]

/-- The signed bytes of commutative shifts, stake announcements and certificates each determine
every signed field, and no byte string is signed as two kinds of message. -/
theorem signingBytes_separate :
    (∀ first second : CommutativeShift, CommutativeFits first → CommutativeFits second →
      first.signingBytes = second.signingBytes →
        first = { second with
          firstSeenAtNs := first.firstSeenAtNs, signature := first.signature }) ∧
    (∀ first second : StakeShift, StakeFits first → StakeFits second →
      first.signingBytes = second.signingBytes →
        first = { second with signature := first.signature }) ∧
    (∀ first second : SynthesisCertificate, CertificateFits first → CertificateFits second →
      first.signingBytes = second.signingBytes →
        first = { second with signature := first.signature }) ∧
    ∀ first second : SignedMessage, first.kind ≠ second.kind →
      first.signingBytes ≠ second.signingBytes :=
  ⟨fun _ _ ↦ commutative_eq_of_signingBytes, fun _ _ ↦ stake_eq_of_signingBytes,
    fun _ _ ↦ certificate_eq_of_signingBytes,
    fun _ _ hkinds hbytes ↦ hkinds (SignedMessage.kind_eq_of_signingBytes hbytes)⟩

/-- A commutative shift of an amount. -/
def shiftOfDelta (delta : ℤ) : CommutativeShift :=
  { domain := ⟨1⟩, coordinate := ⟨Vector.replicate Field.coordDim 7⟩, delta, poolId := 2, nonce := 3
    timestampNs := 4, firstSeenAtNs := 5, signature := [] }

/-- A certificate of a tick. -/
def certificateOfTick (tick : ℕ) : SynthesisCertificate :=
  { operator := ⟨1⟩, tick, commutativeApplied := 1, statefulApplied := 0, evmApplied := 0
    commutativeRoot := 2, statefulRoot := 3, balancesRoot := 4, stakeRoot := 5, rewardRoot := 6
    evmRoot := 7, metabolicBurned := 8, timestampNs := 9, signature := [] }

/-- Amounts of opposite sign, stakes of two amounts and certificates of two ticks have different
signed bytes, and so have a stake and a certificate. -/
theorem signingBytes_separate_amounts :
    (shiftOfDelta 1).signingBytes ≠ (shiftOfDelta (-1)).signingBytes ∧
      (StakeShift.sign .sample ⟨3⟩ 5 1 0).signingBytes ≠
        (StakeShift.sign .sample ⟨3⟩ 6 1 0).signingBytes ∧
      (certificateOfTick 1).signingBytes ≠ (certificateOfTick 2).signingBytes ∧
      (SignedMessage.stake (.sign .sample ⟨3⟩ 5 1 0)).signingBytes ≠
        (SignedMessage.certificate (certificateOfTick 1)).signingBytes := by
  obtain ⟨hcommutative, hstake, hcertificate, hkinds⟩ := signingBytes_separate
  refine ⟨fun hbytes ↦ ?_, fun hbytes ↦ ?_, fun hbytes ↦ ?_, hkinds _ _ (by decide)⟩
  · have hsame := hcommutative (shiftOfDelta 1) (shiftOfDelta (-1))
      ⟨by decide, by decide, by decide, by decide⟩ ⟨by decide, by decide, by decide, by decide⟩
      hbytes
    cases congrArg CommutativeShift.delta hsame
  · have hsame := hstake (.sign .sample ⟨3⟩ 5 1 0) (.sign .sample ⟨3⟩ 6 1 0)
      ⟨by decide, by decide, by decide⟩ ⟨by decide, by decide, by decide⟩ hbytes
    cases congrArg StakeShift.amount hsame
  · have hsame := hcertificate (certificateOfTick 1) (certificateOfTick 2)
      ⟨by decide, by decide, by decide, by decide, by decide, by decide⟩
      ⟨by decide, by decide, by decide, by decide, by decide, by decide⟩ hbytes
    cases congrArg SynthesisCertificate.tick hsame

end Fluidic.Api
