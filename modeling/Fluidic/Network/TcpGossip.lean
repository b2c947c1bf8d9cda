import Fluidic.Network.Packet
import Fluidic.Library.ChunkedStream

/-!
# Reading signals from a TCP connection

`src/network/tcp_gossip.rs`: how a peer's signals are read from a connection, with and without the
handshake. A connection is the list of what its reads have yielded so far; a read that yields
nothing is the end of the stream or an error, which the source treats alike. A result with the
reason `awaiting` is that of a reader that has not returned. What is only logged is left out.

`readLoop_frames` says that only the concatenation of the chunks matters to `read_loop`. A receiver
of the signals may be dropped: `isOpen` says whether it is there for the next signal, given those
that were sent to it.
-/

set_option autoImplicit false
set_option relaxedAutoImplicit false

namespace Fluidic.Network

open Library Crypto

/-- Maximum serialized phase-shift size. -/
def maxPacketSize : ℕ := 64 * 1024

/-- Why a reader stopped. -/
inductive Stop
  | awaiting
  | disconnected
  | oversized (length : ℕ)
  | truncated
  | malformed (message : String)
  | refused
  | closed
  deriving DecidableEq

/-- What one attempt to read a packet yields. -/
inductive PacketRead
  | packet (payload buffer : List UInt8) (reads : List (List UInt8))
  | stopped (reason : Stop)

/-- Reads one length-prefixed packet into a buffer. -/
def readPacket (buffer : List UInt8) (reads : List (List UInt8)) : PacketRead :=
  match readUntil 4 buffer reads with
  | .awaiting _ => .stopped .awaiting
  | .ended _ => .stopped .disconnected
  | .filled buffer reads =>
    let length := leValue (buffer.take 4)
    if maxPacketSize < length then .stopped (.oversized length)
    else
      match readUntil length (buffer.drop 4) reads with
      | .awaiting _ => .stopped .awaiting
      | .ended _ => .stopped .truncated
      | .filled buffer reads => .packet (buffer.take length) (buffer.drop length) reads

/-- A packet is taken from the front of the stream, behind its length. Assumes: a packet was read.
-/
theorem spec_of_readPacket {buffer payload buffer' : List UInt8} {reads reads' : List (List UInt8)}
    (hread : readPacket buffer reads = .packet payload buffer' reads') :
    ∃ header : List UInt8, header.length = 4 ∧ reads' <:+ reads ∧
      buffer ++ reads.flatten = header ++ (payload ++ (buffer' ++ reads'.flatten)) := by
  unfold readPacket at hread
  split at hread
  next => cases hread
  next => cases hread
  next filled rest hheader =>
    obtain ⟨hlength, hsame, hsuffix⟩ := spec_of_readUntil hheader
    dsimp only at hread
    split at hread
    next => cases hread
    next =>
      split at hread
      next => cases hread
      next => cases hread
      next body rest' hbody =>
        obtain ⟨-, hsame', hsuffix'⟩ := spec_of_readUntil hbody
        cases hread
        refine ⟨filled.take 4, ?_, hsuffix'.trans hsuffix, ?_⟩
        · rw [List.length_take]
          omega
        · rw [← List.append_assoc _ (body.drop _), List.take_append_drop, hsame',
            ← List.append_assoc, List.take_append_drop, hsame]

/-- Reading a packet leaves fewer bytes to read. Assumes: a packet was read. -/
theorem length_lt_of_readPacket {buffer payload buffer' : List UInt8}
    {reads reads' : List (List UInt8)}
    (hread : readPacket buffer reads = .packet payload buffer' reads') :
    4 + payload.length + (buffer' ++ reads'.flatten).length = (buffer ++ reads.flatten).length := by
  obtain ⟨header, hheader, -, hsame⟩ := spec_of_readPacket hread
  simp only [hsame, List.length_append, hheader]
  omega

/-- Reads a single length-prefixed signal, with a buffer of its own. -/
def readOneSignal (bincode : Bincode) (reads : List (List UInt8)) :
    Except Stop (WireSignal × List (List UInt8)) :=
  match readPacket [] reads with
  | .packet payload _ reads =>
    match bincode.deserialize payload with
    | .ok signal => .ok (signal, reads)
    | .error message => .error (.malformed message)
  | .stopped reason => .error reason

/-- Reads length-prefixed signals and forwards them. -/
def readLoop (bincode : Bincode) (isOpen : List WireSignal → Bool) (forwarded : List WireSignal)
    (buffer : List UInt8) (reads : List (List UInt8)) : List WireSignal × Stop :=
  match _hread : readPacket buffer reads with
  | .stopped reason => (forwarded, reason)
  | .packet payload buffer reads =>
    match bincode.deserialize payload with
    | .ok shift =>
      if isOpen forwarded then readLoop bincode isOpen (forwarded ++ [shift]) buffer reads
      else (forwarded, .closed)
    | .error _ => readLoop bincode isOpen forwarded buffer reads
termination_by (buffer ++ reads.flatten).length
decreasing_by
  all_goals
    have hlength := length_lt_of_readPacket _hread
    omega

/-- What a connection comes to: whether its writer was registered, the signals forwarded, and the
reason for which the reader stopped. -/
structure Session where
  registered : Bool
  forwarded : List WireSignal
  stop : Stop

/-- Reads the handshake of an inbound peer, and then its signals. -/
def handshakeInbound (bincode : Bincode) (isOpen : List WireSignal → Bool) (expectedProof : Bytes32)
    (reads : List (List UInt8)) : Session :=
  match readOneSignal bincode reads with
  | .ok (.auth proof, reads) =>
    if proof ≠ expectedProof then ⟨false, [], .refused⟩
    else
      let (forwarded, stop) := readLoop bincode isOpen [] [] reads
      ⟨true, forwarded, stop⟩
  | .ok _ => ⟨false, [], .refused⟩
  | .error reason => ⟨false, [], reason⟩

/-! ### Frames -/

/-- The length in front of a body is read back. Assumes: the body fits a packet. -/
theorem leValue_header {body : List UInt8} (hsize : body.length ≤ maxPacketSize) :
    leValue (leBytes 4 body.length) = body.length := by
  apply leValue_leBytes
  unfold maxPacketSize at hsize
  omega

theorem length_frame (body : List UInt8) : (frame body).length = 4 + body.length := by
  unfold frame
  rw [List.length_append, length_leBytes]

/-- A stream that starts with the length of a body is read up to the body. Assumes: the body fits a
packet, the chunks are nonempty, and the stream starts with the length of the body. -/
theorem readPacket_header {body tail buffer : List UInt8} {chunks : List (List UInt8)}
    (later : List (List UInt8)) (hsize : body.length ≤ maxPacketSize) (hchunks : AllNonempty chunks)
    (hstream : buffer ++ chunks.flatten = leBytes 4 body.length ++ tail) :
    ∃ (buffer' : List UInt8) (rest : List (List UInt8)),
      AllNonempty rest ∧ buffer' ++ rest.flatten = tail ∧
        readPacket buffer (chunks ++ later) =
          match readUntil body.length buffer' (rest ++ later) with
          | .awaiting _ => .stopped .awaiting
          | .ended _ => .stopped .truncated
          | .filled buffer reads =>
            .packet (buffer.take body.length) (buffer.drop body.length) reads := by
  have henough : 4 ≤ (buffer ++ chunks.flatten).length := by
    rw [hstream, List.length_append, length_leBytes]
    omega
  obtain ⟨filled, rest, hread, hrest, hfilled, hsame⟩ := readUntil_of_le later hchunks henough
  rw [hstream] at hsame
  obtain ⟨hheader, hrest'⟩ := split_of_append (by rwa [length_leBytes]) hsame
  rw [length_leBytes] at hheader hrest'
  refine ⟨filled.drop 4, rest, hrest, hrest', ?_⟩
  unfold readPacket
  simp only [hread, hheader, leValue_header hsize, if_neg (Nat.not_lt.mpr hsize)]

/-- A frame at the front of the stream is read as a packet, however it was cut. Assumes: the body
fits a packet, the chunks are nonempty, and the stream starts with the frame. -/
theorem readPacket_frame {body tail buffer : List UInt8} {chunks : List (List UInt8)}
    (later : List (List UInt8)) (hsize : body.length ≤ maxPacketSize) (hchunks : AllNonempty chunks)
    (hstream : buffer ++ chunks.flatten = frame body ++ tail) :
    ∃ (buffer' : List UInt8) (rest : List (List UInt8)),
      readPacket buffer (chunks ++ later) = .packet body buffer' (rest ++ later) ∧
        AllNonempty rest ∧ buffer' ++ rest.flatten = tail := by
  rw [frame, List.append_assoc] at hstream
  obtain ⟨buffer', rest, hrest, htail, hpacket⟩ := readPacket_header later hsize hchunks hstream
  have henough : body.length ≤ (buffer' ++ rest.flatten).length := by
    rw [htail, List.length_append]
    omega
  obtain ⟨filled, rest', hread, hrest', hfilled, hsame⟩ := readUntil_of_le later hrest henough
  rw [htail] at hsame
  obtain ⟨hbody, htail'⟩ := split_of_append hfilled hsame
  refine ⟨filled.drop body.length, rest', ?_, hrest', htail'⟩
  simp only [hpacket, hread, hbody]

/-- A reader waits while the stream is a proper part of a frame. Assumes: the body fits a packet,
the chunks are nonempty, and the stream is a proper part of the frame of the body. -/
theorem readPacket_awaiting {body missing buffer : List UInt8} {chunks : List (List UInt8)}
    (hsize : body.length ≤ maxPacketSize) (hchunks : AllNonempty chunks) (hmissing : missing ≠ [])
    (hstream : (buffer ++ chunks.flatten) ++ missing = frame body) :
    readPacket buffer chunks = .stopped .awaiting := by
  have hpositive := List.length_pos_iff.mpr hmissing
  by_cases hheader : (buffer ++ chunks.flatten).length < 4
  · have hread := readUntil_of_lt [] hchunks hheader
    rw [List.append_nil] at hread
    unfold readPacket
    simp only [hread, readUntil, if_pos hheader]
  · obtain ⟨hlength, hbody⟩ := split_of_append (by
      rw [length_leBytes]
      omega) (hstream.trans rfl)
    rw [length_leBytes] at hlength hbody
    have hsplit : buffer ++ chunks.flatten =
        leBytes 4 body.length ++ (buffer ++ chunks.flatten).drop 4 := by
      rw [← hlength, List.take_append_drop]
    obtain ⟨buffer', rest, hrest, htail, hpacket⟩ := readPacket_header [] hsize hchunks hsplit
    have hshort : (buffer' ++ rest.flatten).length < body.length := by
      have htotal := congrArg List.length hbody
      rw [List.length_append] at htotal
      rw [htail]
      omega
    have hread := readUntil_of_lt [] hrest hshort
    rw [List.append_nil] at hpacket hread
    rw [hpacket, List.append_nil, hread]
    simp only [readUntil, if_pos hshort]

/-! ### The read loop -/

/-- The signals of the bodies that decode. -/
def decoded (bincode : Bincode) (bodies : List (List UInt8)) : List WireSignal :=
  bodies.filterMap fun body ↦ (bincode.deserialize body).toOption

section Loop

variable {bincode : Bincode} {forwarded : List WireSignal} {buffer : List UInt8}

/-- A receiver that is always there. -/
def alwaysOpen (_ : List WireSignal) : Bool := true

/-- The loop stops where no packet can be read. Assumes: the reader stopped. -/
theorem readLoop_of_stopped {isOpen : List WireSignal → Bool} {reads : List (List UInt8)}
    {reason : Stop} (hread : readPacket buffer reads = .stopped reason) :
    readLoop bincode isOpen forwarded buffer reads = (forwarded, reason) := by
  rw [readLoop]
  split
  next reason' hread' =>
    rw [hread] at hread'
    rw [PacketRead.stopped.inj hread']
  next hread' =>
    rw [hread] at hread'
    cases hread'

/-- The loop forwards the signal of a packet that decodes, skips one that does not, and goes on
behind the packet. Assumes: a packet was read. -/
theorem readLoop_of_packet {payload buffer' : List UInt8} {reads reads' : List (List UInt8)}
    (hread : readPacket buffer reads = .packet payload buffer' reads') :
    readLoop bincode alwaysOpen forwarded buffer reads =
      readLoop bincode alwaysOpen (forwarded ++ decoded bincode [payload]) buffer' reads' := by
  rw [readLoop]
  split
  next hread' =>
    rw [hread] at hread'
    cases hread'
  next hread' =>
    rw [hread] at hread'
    cases hread'
    unfold decoded
    cases hdecode : bincode.deserialize payload with
    | ok shift =>
      simp only [alwaysOpen, if_true, List.filterMap_cons, List.filterMap_nil, hdecode,
        Except.toOption]
    | error message =>
      simp only [List.filterMap_cons, List.filterMap_nil, hdecode, Except.toOption, List.append_nil]

/-- The loop reads the frames at the front of the stream, however they were cut. Assumes: the bodies
fit their packets, the chunks are nonempty, and the stream starts with the frames. -/
theorem readLoop_frames_append {bodies : List (List UInt8)} {tail : List UInt8}
    {chunks : List (List UInt8)} (later : List (List UInt8))
    (hsizes : ∀ body ∈ bodies, body.length ≤ maxPacketSize) (hchunks : AllNonempty chunks)
    (hstream : buffer ++ chunks.flatten = bodies.flatMap frame ++ tail) :
    ∃ (buffer' : List UInt8) (rest : List (List UInt8)),
      readLoop bincode alwaysOpen forwarded buffer (chunks ++ later) =
        readLoop bincode alwaysOpen (forwarded ++ decoded bincode bodies) buffer' (rest ++ later) ∧
      AllNonempty rest ∧ buffer' ++ rest.flatten = tail := by
  induction bodies generalizing forwarded buffer chunks with
  | nil =>
    refine ⟨buffer, chunks, ?_, hchunks, hstream⟩
    unfold decoded
    rw [List.filterMap_nil, List.append_nil]
  | cons body bodies ih =>
    rw [List.flatMap_cons, List.append_assoc] at hstream
    obtain ⟨buffer', rest, hread, hrest, hbehind⟩ :=
      readPacket_frame later (hsizes body List.mem_cons_self) hchunks hstream
    obtain ⟨buffer'', rest', hloop, hrest', htail⟩ :=
      @ih (forwarded ++ decoded bincode [body]) buffer' rest
        (fun other hother ↦ hsizes other (List.mem_cons_of_mem _ hother)) hrest hbehind
    refine ⟨buffer'', rest', ?_, hrest', htail⟩
    have hdecoded : decoded bincode (body :: bodies) =
        decoded bincode [body] ++ decoded bincode bodies := by
      unfold decoded
      rw [← List.filterMap_append, List.singleton_append]
    rw [readLoop_of_packet hread, hloop, hdecoded, List.append_assoc]

/-- Frames that end with the stream are forwarded, and the loop returns at the end of the stream.
Assumes: the bodies fit their packets, the chunks are nonempty, and the stream is the frames. -/
theorem readLoop_disconnected {bodies chunks : List (List UInt8)}
    (hsizes : ∀ body ∈ bodies, body.length ≤ maxPacketSize) (hchunks : AllNonempty chunks)
    (hstream : chunks.flatten = bodies.flatMap frame) :
    readLoop bincode alwaysOpen [] [] (chunks ++ [[]]) =
      (decoded bincode bodies, .disconnected) := by
  have hsplit : [] ++ chunks.flatten = bodies.flatMap frame ++ [] := by
    rw [hstream, List.append_nil, List.nil_append]
  obtain ⟨buffer', rest, hloop, hrest, htail⟩ := readLoop_frames_append [[]] hsizes hchunks hsplit
  obtain ⟨hbuffer, hflatten⟩ := List.append_eq_nil_iff.mp htail
  rw [hloop, hbuffer, hrest.eq_nil hflatten, List.nil_append]
  exact readLoop_of_stopped rfl

/-- A part of a stream of frames is some of the frames and a proper part of the next. Assumes: the
part and what is missing make up the stream. -/
theorem exists_frames_of_part {bodies : List (List UInt8)} {part missing : List UInt8}
    (hstream : part ++ missing = bodies.flatMap frame) :
    part = bodies.flatMap frame ∨
      ∃ (before : List (List UInt8)) (body : List UInt8) (after : List (List UInt8))
        (started rest : List UInt8), bodies = before ++ body :: after ∧
          part = before.flatMap frame ++ started ∧ rest ≠ [] ∧ started ++ rest = frame body := by
  induction bodies generalizing part with
  | nil =>
    rw [List.flatMap_nil] at hstream ⊢
    exact .inl (List.append_eq_nil_iff.mp hstream).1
  | cons body bodies ih =>
    rw [List.flatMap_cons] at hstream ⊢
    have hbeyond (middle : List UInt8) (hpart : part = frame body ++ middle)
        (hbehind : middle ++ missing = bodies.flatMap frame) :
        part = frame body ++ bodies.flatMap frame ∨
          ∃ (before : List (List UInt8)) (next : List UInt8) (after : List (List UInt8))
            (started rest : List UInt8), body :: bodies = before ++ next :: after ∧
              part = before.flatMap frame ++ started ∧ rest ≠ [] ∧
                started ++ rest = frame next := by
      obtain hwhole | ⟨before, next, after, started, rest, hbodies, hmiddle, hrest, hnext⟩ :=
        ih hbehind
      · exact .inl (by rw [hpart, hwhole])
      · refine .inr ⟨body :: before, next, after, started, rest, ?_, ?_, hrest, hnext⟩
        · rw [hbodies, List.cons_append]
        · rw [hpart, hmiddle, List.flatMap_cons, List.append_assoc]
    obtain ⟨middle, hframe, hmissing⟩ | ⟨middle, hpart, hbehind⟩ :=
      List.append_eq_append_iff.mp hstream
    · by_cases hmiddle : middle = []
      · rw [hmiddle, List.append_nil] at hframe
        rw [hmiddle, List.nil_append] at hmissing
        apply hbeyond []
        · rw [hframe, List.append_nil]
        · rw [hmissing, List.nil_append]
      · exact .inr ⟨[], body, bodies, part, middle, rfl, rfl, hmiddle, hframe.symm⟩
    · exact hbeyond middle hpart hbehind.symm

/-- The loop has not returned while frames are missing or the stream is open. Assumes: the bodies
fit their packets, the chunks are nonempty, and they are a part of the stream of the frames. -/
theorem readLoop_awaiting {bodies chunks : List (List UInt8)} {missing : List UInt8}
    (hsizes : ∀ body ∈ bodies, body.length ≤ maxPacketSize) (hchunks : AllNonempty chunks)
    (hstream : chunks.flatten ++ missing = bodies.flatMap frame) :
    (readLoop bincode alwaysOpen [] [] chunks).2 = .awaiting := by
  obtain hwhole | ⟨before, body, after, started, rest, hbodies, hpart, hrest, hbody⟩ :=
    exists_frames_of_part hstream
  · have hsplit : [] ++ chunks.flatten = bodies.flatMap frame ++ [] := by
      rw [hwhole, List.append_nil, List.nil_append]
    obtain ⟨buffer', rest, hloop, hrest, htail⟩ := readLoop_frames_append [] hsizes hchunks hsplit
    obtain ⟨hbuffer, hflatten⟩ := List.append_eq_nil_iff.mp htail
    rw [List.append_nil] at hloop
    rw [hloop, hbuffer, hrest.eq_nil hflatten]
    exact congrArg Prod.snd (readLoop_of_stopped rfl)
  · have hbefore : ∀ other ∈ before, other.length ≤ maxPacketSize := fun other hother ↦
      hsizes other (by
        rw [hbodies]
        exact List.mem_append_left _ hother)
    have hsize := hsizes body (by
      rw [hbodies]
      exact List.mem_append_right _ List.mem_cons_self)
    have hsplit : [] ++ chunks.flatten = before.flatMap frame ++ started := by
      rw [hpart, List.nil_append]
    obtain ⟨buffer', unread, hloop, hunread, htail⟩ :=
      readLoop_frames_append [] hbefore hchunks hsplit
    rw [List.append_nil] at hloop
    rw [hloop, List.append_nil]
    rw [← htail] at hbody
    exact congrArg Prod.snd (readLoop_of_stopped (readPacket_awaiting hsize hunread hrest hbody))

end Loop

/-! ### Packets of signals -/

/-- The bodies of signals fit their packets. -/
def FitPackets (bincode : Bincode) (signals : List WireSignal) : Prop :=
  ∀ signal ∈ signals, ∀ body, bincode.serialize signal = .ok body → body.length ≤ maxPacketSize

/-- The packets of several signals are those of the first and of the others. Assumes: the signals
were encoded. -/
theorem mapM_cons_ok {bincode : Bincode} {signal : WireSignal} {signals : List WireSignal}
    {packets : List (List UInt8)}
    (hpackets : (signal :: signals).mapM (encodePacket bincode) = .ok packets) :
    ∃ (packet : List UInt8) (rest : List (List UInt8)), encodePacket bincode signal = .ok packet ∧
      signals.mapM (encodePacket bincode) = .ok rest ∧ packets = packet :: rest := by
  rw [List.mapM_cons] at hpackets
  cases hpacket : encodePacket bincode signal with
  | error message =>
    rw [hpacket] at hpackets
    cases hpackets
  | ok packet =>
    cases hrest : signals.mapM (encodePacket bincode) with
    | error message =>
      rw [hpacket, hrest] at hpackets
      cases hpackets
    | ok rest =>
      rw [hpacket, hrest] at hpackets
      cases hpackets
      exact ⟨packet, rest, rfl, rfl, rfl⟩

/-- Packets are the frames of bodies that fit and that decode to the signals. Assumes: the
serializer round-trips, the signals were encoded, and their bodies fit. -/
theorem exists_bodies {bincode : Bincode} {signals : List WireSignal} {packets : List (List UInt8)}
    (hround : bincode.RoundTrips) (hpackets : signals.mapM (encodePacket bincode) = .ok packets)
    (hfit : FitPackets bincode signals) :
    ∃ bodies : List (List UInt8), packets.flatten = bodies.flatMap frame ∧
      (∀ body ∈ bodies, body.length ≤ maxPacketSize) ∧ decoded bincode bodies = signals := by
  induction signals generalizing packets with
  | nil =>
    cases hpackets
    exact ⟨[], rfl, fun _ hbody ↦ (List.not_mem_nil hbody).elim, rfl⟩
  | cons signal signals ih =>
    obtain ⟨packet, rest, hpacket, hrest, rfl⟩ := mapM_cons_ok hpackets
    obtain ⟨body, hbody, rfl⟩ := exists_body_of_encodePacket hpacket
    obtain ⟨bodies, hflatten, hsizes, hdecoded⟩ := ih hrest fun other hother ↦
      hfit other (List.mem_cons_of_mem _ hother)
    refine ⟨body :: bodies, ?_, ?_, ?_⟩
    · rw [List.flatten_cons, List.flatMap_cons, hflatten]
    · intro other hother
      obtain rfl | hother := List.mem_cons.mp hother
      · exact hfit signal List.mem_cons_self _ hbody
      · exact hsizes other hother
    · unfold decoded at hdecoded ⊢
      rw [List.filterMap_cons, hround signal body hbody, hdecoded]
      rfl

/-- The read loop depends on the stream and not on how it is cut. On frames it forwards the signals
of the bodies that decode, in order, and returns at the end of the stream and not before. On encoded
signals it forwards the signals. Assumes: the serializer round-trips. -/
theorem readLoop_frames (bincode : Bincode) (hround : bincode.RoundTrips) :
    (∀ bodies chunks : List (List UInt8), (∀ body ∈ bodies, body.length ≤ maxPacketSize) →
      AllNonempty chunks → chunks.flatten = bodies.flatMap frame →
        readLoop bincode alwaysOpen [] [] (chunks ++ [[]]) =
          (bodies.filterMap fun body ↦ (bincode.deserialize body).toOption, .disconnected) ∧
        ∀ count, (readLoop bincode alwaysOpen [] [] (chunks.take count)).2 = .awaiting) ∧
    ∀ (signals : List WireSignal) (packets chunks : List (List UInt8)),
      signals.mapM (encodePacket bincode) = .ok packets → FitPackets bincode signals →
      AllNonempty chunks → chunks.flatten = packets.flatten →
        readLoop bincode alwaysOpen [] [] (chunks ++ [[]]) = (signals, .disconnected) := by
  constructor
  · intro bodies chunks hsizes hchunks hstream
    refine ⟨readLoop_disconnected hsizes hchunks hstream, fun count ↦ ?_⟩
    have hpart : (chunks.take count).flatten ++ (chunks.drop count).flatten =
        bodies.flatMap frame := by
      rw [← List.flatten_append, List.take_append_drop, hstream]
    exact readLoop_awaiting hsizes (fun chunk hchunk ↦ hchunks chunk (List.mem_of_mem_take hchunk))
      hpart
  · intro signals packets chunks hpackets hfit hchunks hstream
    obtain ⟨bodies, hflatten, hsizes, hdecoded⟩ := exists_bodies hround hpackets hfit
    rw [readLoop_disconnected hsizes hchunks (hstream.trans hflatten), hdecoded]

/-- A probe, a body that does not decode, and an answer to a probe. -/
def sampleBodies : List (List UInt8) :=
  [leBytes 4 4 ++ (leBytes 8 1 ++ leBytes 8 2), [1, 2, 3],
    leBytes 4 5 ++ (leBytes 8 3 ++ leBytes 8 4)]

/-- A stream cut within a header, and within a later header. -/
def cutTwice (stream : List UInt8) : List (List UInt8) :=
  [stream.take 2, (stream.drop 2).take 23, stream.drop 25]

theorem readLoop_frames_probes :
    (readLoop .sample alwaysOpen [] [] (cutTwice (sampleBodies.flatMap frame) ++ [[]]) =
        ([.ping 1 2, .pong 3 4], .disconnected) ∧
      ∀ count, (readLoop .sample alwaysOpen [] []
        ((cutTwice (sampleBodies.flatMap frame)).take count)).2 = .awaiting) ∧
    readLoop .sample alwaysOpen [] []
        (cutTwice ((sampleBodies.take 1 ++ sampleBodies.drop 2).flatMap frame) ++ [[]]) =
      ([.ping 1 2, .pong 3 4], .disconnected) := by
  have hframes := readLoop_frames .sample Bincode.roundTrips_sample
  have hcut :
      AllNonempty (cutTwice ((sampleBodies.take 1 ++ sampleBodies.drop 2).flatMap frame)) := by
    decide
  have hfit : FitPackets .sample [.ping 1 2, .pong 3 4] := by
    intro signal hsignal body hbody
    obtain rfl | hsignal := List.mem_cons.mp hsignal
    · cases hbody
      decide
    · obtain rfl := List.mem_singleton.mp hsignal
      cases hbody
      decide
  refine ⟨hframes.1 sampleBodies _ (by decide) (by decide) (by decide), ?_⟩
  exact hframes.2 [.ping 1 2, .pong 3 4]
    ((sampleBodies.take 1 ++ sampleBodies.drop 2).map frame) _ rfl hfit hcut (by decide)

end Fluidic.Network
