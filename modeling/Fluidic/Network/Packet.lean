import Fluidic.Consensus.Oscillator

/-!
# Packets of the gossip network

`Signal` of `src/crypto/phase_shift.rs` as it crosses the network, with the payloads of probes and
handshakes, and `encode_packet` of `src/network/node.rs`.

The serializer is a third-party package and enters as the two functions of `Bincode`. What the code
relies on is stated where it is used: a signal is read back from its encoding (`RoundTrips`), no
shorter byte string decodes to it (`Covers`), and an encoding starts with the index of the variant
in four bytes (`Tagged`).
-/

set_option autoImplicit false
set_option relaxedAutoImplicit false

namespace Fluidic.Network

open Library Crypto Consensus

/-- A signal with everything that is serialized. -/
inductive WireSignal
  | commutative (shift : CommutativeShift)
  | stateful (shift : StatefulShift)
  | registration (shift : RegistrationShift)
  | stake (shift : StakeShift)
  | ping (timestampNs nonce : ℕ)
  | pong (timestampNs nonce : ℕ)
  | certificate (cert : SynthesisCertificate)
  | auth (proof : Bytes32)

namespace WireSignal

/-- The position of a variant in its declaration. -/
def variant : WireSignal → ℕ
  | .commutative _ => 0
  | .stateful _ => 1
  | .registration _ => 2
  | .stake _ => 3
  | .ping _ _ => 4
  | .pong _ _ => 5
  | .certificate _ => 6
  | .auth _ => 7

theorem variant_le (signal : WireSignal) : signal.variant ≤ 7 := by
  cases signal <;> simp [variant]

end WireSignal

/-! ### The serializer -/

/-- The serializer. -/
structure Bincode where
  serialize : WireSignal → Except String (List UInt8)
  deserialize : List UInt8 → Except String WireSignal

namespace Bincode

/-- A signal is read back from its encoding. -/
def RoundTrips (bincode : Bincode) : Prop :=
  ∀ (signal : WireSignal) (body : List UInt8), bincode.serialize signal = .ok body →
    bincode.deserialize body = .ok signal

/-- A byte string that decodes to a signal is no shorter than the encoding of the signal. -/
def Covers (bincode : Bincode) : Prop :=
  ∀ (body : List UInt8) (signal : WireSignal), bincode.deserialize body = .ok signal →
    ∃ encoded, bincode.serialize signal = .ok encoded ∧ encoded.length ≤ body.length

/-- An encoding starts with the index of the variant, and a payload of at least two machine words
follows. -/
def Tagged (bincode : Bincode) : Prop :=
  ∀ (signal : WireSignal) (body : List UInt8), bincode.serialize signal = .ok body →
    ∃ payload, body = leBytes 4 signal.variant ++ payload ∧ 16 ≤ payload.length

end Bincode

/-! ### Packets -/

/-- A body behind its length. The cast to `u32` keeps the low bytes of the length. -/
def frame (body : List UInt8) : List UInt8 := leBytes 4 body.length ++ body

/-- A signal behind the length of its encoding. -/
def encodePacket (bincode : Bincode) (shift : WireSignal) : Except String (List UInt8) := do
  let body ← bincode.serialize shift
  return frame body

/-- A packet is the frame of an encoding. Assumes: the signal was encoded. -/
theorem exists_body_of_encodePacket {bincode : Bincode} {shift : WireSignal} {packet : List UInt8}
    (hpacket : encodePacket bincode shift = .ok packet) :
    ∃ body, bincode.serialize shift = .ok body ∧ packet = frame body := by
  unfold encodePacket at hpacket
  cases hbody : bincode.serialize shift with
  | error message =>
    rw [hbody] at hpacket
    cases hpacket
  | ok body =>
    rw [hbody] at hpacket
    exact ⟨body, rfl, (Except.ok.inj hpacket).symm⟩

/-! ### A stand-in that can be evaluated -/

/-- Encodes probes and handshakes as the serializer does, and nothing else. -/
def Bincode.sampleSerialize (signal : WireSignal) : Except String (List UInt8) :=
  match signal with
  | .ping timestampNs nonce =>
    if timestampNs < 2 ^ 64 ∧ nonce < 2 ^ 64 then
      .ok (leBytes 4 4 ++ (leBytes 8 timestampNs ++ leBytes 8 nonce))
    else .error "out of range"
  | .pong timestampNs nonce =>
    if timestampNs < 2 ^ 64 ∧ nonce < 2 ^ 64 then
      .ok (leBytes 4 5 ++ (leBytes 8 timestampNs ++ leBytes 8 nonce))
    else .error "out of range"
  | .auth proof => .ok (leBytes 4 7 ++ proof.toBytes)
  | _ => .error "not encoded"

/-- Decodes probes and handshakes, and ignores what follows them. -/
def Bincode.sampleDeserialize (body : List UInt8) : Except String WireSignal :=
  let payload := body.drop 4
  if body.length < 20 then .error "unexpected end of input"
  else if body.take 4 = leBytes 4 4 then
    .ok (.ping (leValue (payload.take 8)) (leValue ((payload.drop 8).take 8)))
  else if body.take 4 = leBytes 4 5 then
    .ok (.pong (leValue (payload.take 8)) (leValue ((payload.drop 8).take 8)))
  else if body.take 4 = leBytes 4 7 then
    match Bytes32.ofBytes (payload.take 32) with
    | some proof => .ok (.auth proof)
    | none => .error "unexpected end of input"
  else .error "unknown variant"

/-- A serializer with which runs on concrete inputs can be evaluated. -/
def Bincode.sample : Bincode := ⟨sampleSerialize, sampleDeserialize⟩

namespace Bincode

/-- What the stand-in encodes. Assumes: the signal was encoded. -/
theorem sample_cases {signal : WireSignal} {body : List UInt8}
    (hbody : sample.serialize signal = .ok body) :
    (∃ timestampNs < 2 ^ 64, ∃ nonce < 2 ^ 64, signal = .ping timestampNs nonce ∧
      body = leBytes 4 4 ++ (leBytes 8 timestampNs ++ leBytes 8 nonce)) ∨
    (∃ timestampNs < 2 ^ 64, ∃ nonce < 2 ^ 64, signal = .pong timestampNs nonce ∧
      body = leBytes 4 5 ++ (leBytes 8 timestampNs ++ leBytes 8 nonce)) ∨
    ∃ proof, signal = .auth proof ∧ body = leBytes 4 7 ++ proof.toBytes := by
  simp only [sample, sampleSerialize] at hbody
  split at hbody
  next timestampNs nonce =>
    split at hbody
    next hrange =>
      exact .inl ⟨timestampNs, hrange.1, nonce, hrange.2, rfl, (Except.ok.inj hbody).symm⟩
    next => cases hbody
  next timestampNs nonce =>
    split at hbody
    next hrange =>
      exact .inr (.inl ⟨timestampNs, hrange.1, nonce, hrange.2, rfl, (Except.ok.inj hbody).symm⟩)
    next => cases hbody
  next proof => exact .inr (.inr ⟨proof, rfl, (Except.ok.inj hbody).symm⟩)
  next => cases hbody

theorem roundTrips_sample : RoundTrips sample := by
  intro signal body hbody
  have hword {value : ℕ} (hvalue : value < 2 ^ 64) : leValue (leBytes 8 value) = value :=
    leValue_leBytes (lt_of_lt_of_eq hvalue (by norm_num))
  have hwhole (value : ℕ) : (leBytes 8 value).take 8 = leBytes 8 value :=
    List.take_of_length_le (length_leBytes 8 value).le
  have hproof (proof : Bytes32) : proof.toBytes.take 32 = proof.toBytes :=
    List.take_of_length_le proof.length_toBytes.le
  have hpong : leBytes 4 5 ≠ leBytes 4 4 := by decide
  have hauth : leBytes 4 7 ≠ leBytes 4 4 ∧ leBytes 4 7 ≠ leBytes 4 5 := by decide
  obtain ⟨timestampNs, htimestamp, nonce, hnonce, rfl, rfl⟩ |
    ⟨timestampNs, htimestamp, nonce, hnonce, rfl, rfl⟩ | ⟨proof, rfl, rfl⟩ := sample_cases hbody
  · simp [sample, sampleDeserialize, hwhole, hword htimestamp, hword hnonce]
  · simp [sample, sampleDeserialize, hpong, hwhole, hword htimestamp, hword hnonce]
  · simp [sample, sampleDeserialize, hauth, hproof, Bytes32.ofBytes_toBytes]

theorem covers_sample : Covers sample := by
  intro body signal hdecode
  have hword (bytes : List UInt8) : leValue (bytes.take 8) < 2 ^ 64 := by
    apply lt_of_lt_of_le (beValue_lt _)
    rw [List.length_reverse, List.length_take]
    exact Nat.pow_le_pow_right (by norm_num) (min_le_left 8 bytes.length)
  simp only [sample, sampleDeserialize] at hdecode
  split_ifs at hdecode with hlength
  · cases hdecode
    refine ⟨_, if_pos ⟨hword _, hword _⟩, ?_⟩
    simp only [List.length_append, length_leBytes]
    omega
  · cases hdecode
    refine ⟨_, if_pos ⟨hword _, hword _⟩, ?_⟩
    simp only [List.length_append, length_leBytes]
    omega
  · split at hdecode
    next proof hproof =>
      cases hdecode
      refine ⟨_, rfl, ?_⟩
      unfold Bytes32.ofBytes at hproof
      split at hproof
      next htake =>
        rw [List.length_take, List.length_drop] at htake
        rw [List.length_append, length_leBytes, Bytes32.length_toBytes]
        omega
      next => cases hproof
    next => cases hdecode

theorem tagged_sample : Tagged sample := by
  intro signal body hbody
  obtain ⟨timestampNs, -, nonce, -, rfl, rfl⟩ | ⟨timestampNs, -, nonce, -, rfl, rfl⟩ |
    ⟨proof, rfl, rfl⟩ := sample_cases hbody
  · exact ⟨_, rfl, by simp⟩
  · exact ⟨_, rfl, by simp⟩
  · exact ⟨_, rfl, by simp⟩

end Bincode

end Fluidic.Network
