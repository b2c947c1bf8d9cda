import Fluidic.Network.TcpGossip

/-!
# Signals behind the handshake

`read_one_signal` has a buffer of its own, and what it has read behind the first packet is lost with
that buffer. `handshakeInbound_forwards_iff` says that this is the whole effect: an authenticated
connection forwards its signals if and only if some read ends with the handshake packet.
-/

set_option autoImplicit false
set_option relaxedAutoImplicit false

namespace Fluidic.Network

open Library Crypto

/-- Some read ends where a part of the stream ends. -/
def CutAt (part : List UInt8) (chunks : List (List UInt8)) : Prop :=
  ∃ count, (chunks.take count).flatten = part

/-! ### Forwarded signals take their bytes -/

/-- The bytes that the packet of a signal takes. -/
def packetSize (bincode : Bincode) (signal : WireSignal) : ℕ :=
  match bincode.serialize signal with
  | .ok body => 4 + body.length
  | .error _ => 0

/-- The bytes that the packets of signals take. -/
def packetSizes (bincode : Bincode) (signals : List WireSignal) : ℕ :=
  (signals.map (packetSize bincode)).sum

theorem packetSizes_concat (bincode : Bincode) (signals : List WireSignal) (signal : WireSignal) :
    packetSizes bincode (signals ++ [signal]) =
      packetSizes bincode signals + packetSize bincode signal := by
  unfold packetSizes
  rw [List.map_append, List.sum_append, List.map_singleton, List.sum_singleton]

/-- The signals that the loop forwards are no larger than what it read. Assumes: what decodes to a
signal is no shorter than its encoding. -/
theorem packetSizes_readLoop_le {bincode : Bincode} (hcovers : bincode.Covers)
    (isOpen : List WireSignal → Bool) (forwarded : List WireSignal) (buffer : List UInt8)
    (reads : List (List UInt8)) :
    packetSizes bincode (readLoop bincode isOpen forwarded buffer reads).1 ≤
      packetSizes bincode forwarded + (buffer ++ reads.flatten).length := by
  fun_induction readLoop bincode isOpen forwarded buffer reads with
  | case1 forwarded buffer reads reason hread => exact Nat.le_add_right _ _
  | case2 forwarded buffer reads payload buffer' reads' hread shift hdecode hopen ih =>
    have hlength := length_lt_of_readPacket hread
    obtain ⟨encoded, hencoded, hle⟩ := hcovers payload shift hdecode
    have hsize : packetSize bincode shift = 4 + encoded.length := by
      unfold packetSize
      rw [hencoded]
    rw [packetSizes_concat, hsize] at ih
    omega
  | case3 forwarded buffer reads payload buffer' reads' hread shift hdecode hopen =>
    exact Nat.le_add_right _ _
  | case4 forwarded buffer reads payload buffer' reads' hread message hdecode ih =>
    have hlength := length_lt_of_readPacket hread
    omega

/-- Packets are as large as their signals. Assumes: the signals were encoded. -/
theorem length_packets {bincode : Bincode} {signals : List WireSignal}
    {packets : List (List UInt8)} (hpackets : signals.mapM (encodePacket bincode) = .ok packets) :
    packets.flatten.length = packetSizes bincode signals := by
  induction signals generalizing packets with
  | nil =>
    cases hpackets
    rfl
  | cons signal signals ih =>
    obtain ⟨packet, rest, hpacket, hrest, rfl⟩ := mapM_cons_ok hpackets
    obtain ⟨body, hbody, rfl⟩ := exists_body_of_encodePacket hpacket
    have hsize : packetSize bincode signal = 4 + body.length := by
      unfold packetSize
      rw [hbody]
    rw [List.flatten_cons, List.length_append, length_frame, ih hrest, ← hsize]
    rfl

/-! ### The handshake -/

section Authenticated

variable {bincode : Bincode} {expectedProof : Bytes32} {signals : List WireSignal}
  {authPacket : List UInt8} {packets chunks : List (List UInt8)}

/-- After the right proof the read loop starts with an empty buffer where the handshake stopped
reading. Assumes: the packet that was read decodes to the proof. -/
theorem handshakeInbound_of_packet {body buffer : List UInt8} {reads reads' : List (List UInt8)}
    (hdecode : bincode.deserialize body = .ok (.auth expectedProof))
    (hread : readPacket [] reads = .packet body buffer reads') :
    (handshakeInbound bincode alwaysOpen expectedProof reads).forwarded =
      (readLoop bincode alwaysOpen [] [] reads').1 := by
  have hsignal : readOneSignal bincode reads = .ok (.auth expectedProof, reads') := by
    unfold readOneSignal
    simp only [hread, hdecode]
  unfold handshakeInbound
  simp only [hsignal, ne_eq, not_true_eq_false, if_false]

/-- The signals are forwarded when some read ends with the handshake packet. Assumes: the serializer
round-trips, the signals were encoded and fit their packets, the chunks are nonempty, and the stream
is the handshake packet and the packets of the signals. -/
theorem forwarded_of_cutAt (hround : bincode.RoundTrips)
    (hauth : encodePacket bincode (.auth expectedProof) = .ok authPacket)
    (hpackets : signals.mapM (encodePacket bincode) = .ok packets)
    (hfit : FitPackets bincode (.auth expectedProof :: signals)) (hchunks : AllNonempty chunks)
    (hstream : chunks.flatten = authPacket ++ packets.flatten) (hcut : CutAt authPacket chunks) :
    (handshakeInbound bincode alwaysOpen expectedProof (chunks ++ [[]])).forwarded = signals := by
  obtain ⟨count, hcount⟩ := hcut
  obtain ⟨body, hbody, rfl⟩ := exists_body_of_encodePacket hauth
  have hsplit := List.take_append_drop count chunks
  have htake : AllNonempty (chunks.take count) := fun chunk hchunk ↦
    hchunks chunk (List.mem_of_mem_take hchunk)
  have hdrop : AllNonempty (chunks.drop count) := fun chunk hchunk ↦
    hchunks chunk (List.mem_of_mem_drop hchunk)
  have hlater : (chunks.drop count).flatten = packets.flatten := by
    rw [← hsplit, List.flatten_append, hcount] at hstream
    exact List.append_cancel_left hstream
  have hfirst : [] ++ (chunks.take count).flatten = frame body ++ [] := by
    rw [hcount, List.append_nil, List.nil_append]
  obtain ⟨buffer, rest, hread, hrest, hnothing⟩ := readPacket_frame (chunks.drop count ++ [[]])
    (hfit _ List.mem_cons_self body hbody) htake hfirst
  rw [← List.append_assoc, hsplit, hrest.eq_nil (List.append_eq_nil_iff.mp hnothing).2,
    List.nil_append] at hread
  obtain ⟨bodies, hflatten, hsizes, hdecoded⟩ := exists_bodies hround hpackets
    fun signal hsignal ↦ hfit signal (List.mem_cons_of_mem _ hsignal)
  rw [handshakeInbound_of_packet (hround _ body hbody) hread,
    readLoop_disconnected hsizes hdrop (hlater.trans hflatten), hdecoded]

/-- Some read ends with the handshake packet when the signals are forwarded. Assumes: the serializer
round-trips and covers its encodings, the signals were encoded, the handshake fits its packet, the
chunks are nonempty, the stream is the handshake packet and the packets of the signals, and the
signals are forwarded. -/
theorem cutAt_of_forwarded (hround : bincode.RoundTrips) (hcovers : bincode.Covers)
    (hauth : encodePacket bincode (.auth expectedProof) = .ok authPacket)
    (hpackets : signals.mapM (encodePacket bincode) = .ok packets)
    (hfit : FitPackets bincode (.auth expectedProof :: signals)) (hchunks : AllNonempty chunks)
    (hstream : chunks.flatten = authPacket ++ packets.flatten)
    (hforwarded : (handshakeInbound bincode alwaysOpen expectedProof (chunks ++ [[]])).forwarded =
      signals) :
    CutAt authPacket chunks := by
  obtain ⟨body, hbody, rfl⟩ := exists_body_of_encodePacket hauth
  obtain ⟨buffer, rest, hread, -, hbehind⟩ := readPacket_frame [[]]
    (hfit _ List.mem_cons_self body hbody) hchunks ((List.nil_append _).trans hstream)
  rw [handshakeInbound_of_packet (hround _ body hbody) hread] at hforwarded
  have hsizes := packetSizes_readLoop_le hcovers alwaysOpen [] [] (rest ++ [[]])
  have hempty : buffer = [] := by
    have htotal := congrArg List.length hbehind
    have hnone : packetSizes bincode [] = 0 := rfl
    rw [hforwarded, ← length_packets hpackets, hnone] at hsizes
    simp only [List.flatten_append, List.flatten_cons, List.flatten_nil, List.append_nil,
      List.nil_append, List.length_append] at hsizes htotal
    exact List.length_eq_zero_iff.mp (by omega)
  obtain ⟨header, -, ⟨first, hfirst⟩, -⟩ := spec_of_readPacket hread
  have hsplit : first ++ rest = chunks := by
    rw [← List.append_assoc] at hfirst
    exact List.append_cancel_right hfirst
  refine ⟨first.length, ?_⟩
  rw [← hsplit, List.take_left' rfl]
  rw [← hsplit, List.flatten_append, ← hbehind, hempty, List.nil_append] at hstream
  exact List.append_cancel_right hstream

/-- An authenticated connection forwards exactly its signals, in order, if and only if some read
ends with the handshake packet. Assumes: the serializer round-trips and covers its encodings, the
handshake and the signals were encoded and fit their packets, the chunks are nonempty, and the
stream is the handshake packet and the packets of the signals. -/
theorem handshakeInbound_forwards_iff (hround : bincode.RoundTrips) (hcovers : bincode.Covers)
    (hauth : encodePacket bincode (.auth expectedProof) = .ok authPacket)
    (hpackets : signals.mapM (encodePacket bincode) = .ok packets)
    (hfit : FitPackets bincode (.auth expectedProof :: signals)) (hchunks : AllNonempty chunks)
    (hstream : chunks.flatten = authPacket ++ packets.flatten) :
    (handshakeInbound bincode alwaysOpen expectedProof (chunks ++ [[]])).forwarded = signals ↔
      CutAt authPacket chunks :=
  ⟨cutAt_of_forwarded hround hcovers hauth hpackets hfit hchunks hstream,
    forwarded_of_cutAt hround hauth hpackets hfit hchunks hstream⟩

end Authenticated

/-! ### One probe behind the handshake -/

/-- A handshake packet. -/
def sampleAuth : List UInt8 := frame (leBytes 4 7 ++ Bytes32.toBytes 9)

/-- The packet of a probe. -/
def sampleProbe : List UInt8 := frame (leBytes 4 4 ++ (leBytes 8 1 ++ leBytes 8 2))

theorem fitPackets_sample : FitPackets .sample [.auth 9, .ping 1 2] := by
  intro signal hsignal body hbody
  obtain rfl | hsignal := List.mem_cons.mp hsignal
  · cases hbody
    decide
  · obtain rfl := List.mem_singleton.mp hsignal
    cases hbody
    decide

theorem handshakeInbound_forwards_iff_probe :
    (handshakeInbound .sample alwaysOpen 9 ([sampleAuth.take 3, sampleAuth.drop 3, sampleProbe] ++
      [[]])).forwarded = [.ping 1 2] ↔
      CutAt sampleAuth [sampleAuth.take 3, sampleAuth.drop 3, sampleProbe] := by
  apply @handshakeInbound_forwards_iff .sample 9 [.ping 1 2] sampleAuth [sampleProbe]
  · exact Bincode.roundTrips_sample
  · exact Bincode.covers_sample
  · rfl
  · rfl
  · exact fitPackets_sample
  · decide
  · decide

/-- A probe that is read together with the handshake is lost. -/
theorem coalesced_probe_lost :
    ¬∀ (bincode : Bincode) (expectedProof : Bytes32) (signals : List WireSignal)
      (authPacket : List UInt8) (packets chunks : List (List UInt8)), bincode.RoundTrips →
        encodePacket bincode (.auth expectedProof) = .ok authPacket →
        signals.mapM (encodePacket bincode) = .ok packets →
        FitPackets bincode (.auth expectedProof :: signals) → AllNonempty chunks →
        chunks.flatten = authPacket ++ packets.flatten →
          (handshakeInbound bincode alwaysOpen expectedProof (chunks ++ [[]])).forwarded =
            signals := by
  intro hclaim
  have hforwarded := hclaim .sample 9 [.ping 1 2] sampleAuth [sampleProbe]
    [sampleAuth ++ sampleProbe] Bincode.roundTrips_sample rfl rfl fitPackets_sample (by decide)
    (by decide)
  have hdecode : Bincode.sample.deserialize (leBytes 4 7 ++ Bytes32.toBytes 9) = .ok (.auth 9) :=
    rfl
  have hread : readPacket [] ([sampleAuth ++ sampleProbe] ++ [[]]) =
      .packet (leBytes 4 7 ++ Bytes32.toBytes 9) sampleProbe [[]] := rfl
  rw [handshakeInbound_of_packet hdecode hread, readLoop_of_stopped rfl] at hforwarded
  cases hforwarded

end Fluidic.Network
