import Fluidic.Network.Packet
import Fluidic.Network.Buffer

/-!
# In-process gossip

`NetworkNode` of `src/network/node.rs`: a broadcast puts the encoding of a signal into the channel
of each peer, the receive loop of a peer writes what it takes from its channel into the ring buffer,
and `next_shift` decodes the next signal from the buffer. A peer is modelled by its channel and its
buffer; peers behind a UDP transport receive nothing.

The broadcast sends the bare encoding, and `next_shift` expects a length in front of it. The receive
loop ignores how much of a payload was written. `delivers_iff` says when a run is nevertheless
right.
-/

set_option autoImplicit false
set_option relaxedAutoImplicit false

namespace Fluidic.Network

open Library

/-- The maximum serialized phase-shift size. -/
def maxShiftSize : ℕ := 8 * 1024

/-- The capacity of the ingress buffer. -/
def ingressCapacity : ℕ := 256 * 1024

instance : NeZero ingressCapacity := ⟨by unfold ingressCapacity; omega⟩

/-- A node as its peers reach it. -/
structure NetworkNode where
  rx : List (List UInt8)
  ingressBuffer : RingBuffer ingressCapacity

namespace NetworkNode

/-- A new in-process node. -/
def newInProcess : NetworkNode := ⟨[], .new ingressCapacity⟩

/-- What a broadcast does to a peer behind a channel. -/
def broadcast (bincode : Bincode) (peer : NetworkNode) (shift : WireSignal) :
    NetworkNode × Except String Unit :=
  match bincode.serialize shift with
  | .error message => (peer, .error message)
  | .ok encoded =>
    if maxShiftSize < encoded.length then (peer, .error "phase-shift exceeds maximum packet size")
    else ({ peer with rx := peer.rx ++ [encoded] }, .ok ())

/-- One turn of the receive loop, which waits while the channel is empty. -/
def receive (node : NetworkNode) : NetworkNode :=
  match node.rx with
  | [] => node
  | payload :: rx => ⟨rx, (node.ingressBuffer.write payload).1⟩

/-- Decodes the next signal from the ingress buffer. -/
def nextShift (bincode : Bincode) (node : NetworkNode) :
    NetworkNode × Except String (Option WireSignal) :=
  let buf := node.ingressBuffer
  if buf.len < 4 then (node, .ok none)
  else
    let length := leValue (buf.peek 4)
    if maxShiftSize < length then (node, .error s!"oversized packet length {length}")
    else if buf.len < 4 + length then (node, .ok none)
    else
      let (rest, payload) := (buf.consume 4).readChunk length
      match bincode.deserialize payload with
      | .error message => ({ node with ingressBuffer := rest }, .error message)
      | .ok shift => ({ node with ingressBuffer := rest }, .ok (some shift))

end NetworkNode

/-! ### Runs -/

/-- What happens at a peer. -/
inductive GossipEvent
  | broadcast (shift : WireSignal)
  | receive
  | nextShift

/-- A peer with its history: the signals broadcast to it, the payloads its receive loop has taken,
and what `next_shift` has returned. -/
structure GossipRun where
  node : NetworkNode
  broadcasts : List WireSignal
  received : List (List UInt8)
  results : List (Except String (Option WireSignal))

namespace GossipRun

/-- A new peer. -/
def start : GossipRun := ⟨.newInProcess, [], [], []⟩

/-- A run and one more event. -/
def perform (bincode : Bincode) (run : GossipRun) : GossipEvent → GossipRun
  | .broadcast shift =>
    { run with
      node := (run.node.broadcast bincode shift).1
      broadcasts := run.broadcasts ++ [shift] }
  | .receive =>
    { run with
      node := run.node.receive
      received := run.received ++ run.node.rx.head?.toList }
  | .nextShift =>
    { run with
      node := (run.node.nextShift bincode).1
      results := run.results ++ [(run.node.nextShift bincode).2] }

/-- The run of a list of events on a new peer. -/
def of (bincode : Bincode) (events : List GossipEvent) : GossipRun :=
  events.foldl (perform bincode) start

theorem of_concat (bincode : Bincode) (events : List GossipEvent) (event : GossipEvent) :
    of bincode (events ++ [event]) = (of bincode events).perform bincode event :=
  List.foldl_append ..

/-- The signals that `next_shift` returned. -/
def returned (run : GossipRun) : List WireSignal :=
  run.results.filterMap fun result ↦ result.toOption.join

end GossipRun

/-- Whole messages are delivered in a run: the returned signals are some of the broadcast ones, in
order, no call returns an error, and a payload is written whole or not at all. -/
structure Delivers (bincode : Bincode) (events : List GossipEvent) : Prop where
  returned_sublist : (GossipRun.of bincode events).returned.Sublist
    (GossipRun.of bincode events).broadcasts
  no_error : ∀ result ∈ (GossipRun.of bincode events).results, ∃ shift, result = .ok shift
  whole : ∀ before after, events = before ++ .receive :: after →
    ∀ payload rx, (GossipRun.of bincode before).node.rx = payload :: rx →
      ((GossipRun.of bincode before).node.ingressBuffer.write payload).2 = payload.length ∨
        ((GossipRun.of bincode before).node.ingressBuffer.write payload).2 = 0

/-- Nothing has been received before a call of `next_shift`, and the received payloads fill the
buffer up to its capacity without one that crosses it. -/
structure Unread (bincode : Bincode) (events : List GossipEvent) : Prop where
  before_nextShift : ∀ before after, events = before ++ .nextShift :: after →
    (GossipRun.of bincode before).received = []
  within_capacity : ∀ first payload rest,
    (GossipRun.of bincode events).received = first ++ payload :: rest →
      first.flatten.length + payload.length ≤ ingressCapacity ∨
        ingressCapacity ≤ first.flatten.length

/-! ### One call of the decoder -/

section Decoder

variable {bincode : Bincode}

/-- Nothing is decoded from an empty buffer. Assumes: the buffer is empty. -/
theorem nextShift_of_empty {node : NetworkNode} (hempty : node.ingressBuffer.contents = []) :
    node.nextShift bincode = (node, .ok none) := by
  have hlength := node.ingressBuffer.length_contents
  rw [hempty, List.length_nil] at hlength
  unfold NetworkNode.nextShift
  rw [if_pos (by omega)]

/-- No byte string of a length that is the index of a variant decodes. Assumes: the serializer
covers its encodings and tags them, and the byte string is that short. -/
theorem error_of_short (hcovers : bincode.Covers) (htagged : bincode.Tagged) {body : List UInt8}
    (hshort : body.length ≤ 7) : ∃ message, bincode.deserialize body = .error message := by
  cases hdecode : bincode.deserialize body with
  | error message => exact ⟨message, rfl⟩
  | ok shift =>
    obtain ⟨encoded, hencoded, hle⟩ := hcovers body shift hdecode
    obtain ⟨payload, rfl, hpayload⟩ := htagged shift encoded hencoded
    rw [List.length_append, length_leBytes] at hle
    omega

/-- The decoder fails on a bare encoding: it takes the index of the variant for a length. Assumes:
the serializer covers its encodings and tags them, and the buffer starts with an encoding. -/
theorem nextShift_of_encoding (hcovers : bincode.Covers) (htagged : bincode.Tagged)
    {node : NetworkNode} {signal : WireSignal} {body rest : List UInt8}
    (hbody : bincode.serialize signal = .ok body)
    (hcontents : node.ingressBuffer.contents = (body ++ rest).take ingressCapacity) :
    ∃ message, (node.nextShift bincode).2 = .error message := by
  obtain ⟨payload, rfl, hpayload⟩ := htagged signal body hbody
  have hvariant := signal.variant_le
  have hlength : node.ingressBuffer.len = min 262144 (4 + payload.length + rest.length) := by
    rw [← RingBuffer.length_contents, hcontents, List.length_take, List.length_append,
      List.length_append, length_leBytes]
    rfl
  have hheader : node.ingressBuffer.peek 4 = leBytes 4 signal.variant := by
    rw [RingBuffer.peek_eq, hcontents, List.take_take, List.append_assoc,
      Nat.min_eq_left (by decide), List.take_left' (length_leBytes _ _)]
  have htag : leValue (leBytes 4 signal.variant) = signal.variant :=
    leValue_leBytes (by omega)
  have hshort : ((node.ingressBuffer.consume 4).readChunk signal.variant).2.length ≤ 7 := by
    rw [(RingBuffer.readChunk_eq _ _).1, List.length_take]
    omega
  have hsize : ¬maxShiftSize < signal.variant := by
    unfold maxShiftSize
    omega
  obtain ⟨message, hmessage⟩ := error_of_short hcovers htagged hshort
  refine ⟨message, ?_⟩
  unfold NetworkNode.nextShift
  dsimp only
  rw [if_neg (by omega), hheader, htag, if_neg hsize, if_neg (by omega), hmessage]

end Decoder

/-! ### Whole runs -/

section Runs

variable {bincode : Bincode}

/-- Every payload that was received or is in the channel is the encoding of a signal. -/
theorem encoding_of_mem (events : List GossipEvent) {payload : List UInt8}
    (hpayload : payload ∈ (GossipRun.of bincode events).received ∨
      payload ∈ (GossipRun.of bincode events).node.rx) :
    ∃ signal, bincode.serialize signal = .ok payload := by
  induction events using List.reverseRecOn with
  | nil =>
    obtain hpayload | hpayload := hpayload
    · exact (List.not_mem_nil hpayload).elim
    · exact (List.not_mem_nil hpayload).elim
  | append_singleton events event ih =>
    rw [GossipRun.of_concat] at hpayload
    cases event with
    | broadcast shift =>
      simp only [GossipRun.perform, NetworkNode.broadcast] at hpayload
      cases hbody : bincode.serialize shift with
      | error message =>
        rw [hbody] at hpayload
        exact ih hpayload
      | ok encoded =>
        rw [hbody] at hpayload
        dsimp only at hpayload
        split_ifs at hpayload with hsize
        · exact ih hpayload
        · obtain hreceived | hrx := hpayload
          · exact ih (.inl hreceived)
          · obtain hrx | hnew := List.mem_append.mp hrx
            · exact ih (.inr hrx)
            · exact ⟨shift, by rw [hbody, List.mem_singleton.mp hnew]⟩
    | receive =>
      simp only [GossipRun.perform, NetworkNode.receive] at hpayload
      cases hrx : (GossipRun.of bincode events).node.rx with
      | nil =>
        rw [hrx] at hpayload
        simp only [List.head?_nil, Option.toList_none, List.append_nil] at hpayload
        exact ih hpayload
      | cons front rx =>
        rw [hrx] at hpayload
        simp only [List.head?_cons, Option.toList_some, List.mem_append, List.mem_singleton]
          at hpayload
        apply ih
        rw [hrx, List.mem_cons]
        obtain (hold | hfront) | hbehind := hpayload
        · exact .inl hold
        · exact .inr (.inl hfront)
        · exact .inr (.inr hbehind)
    | nextShift =>
      have hrx : ((GossipRun.of bincode events).node.nextShift bincode).1.rx =
          (GossipRun.of bincode events).node.rx := by
        unfold NetworkNode.nextShift
        dsimp only
        split_ifs
        · rfl
        · rfl
        · rfl
        · split
          · rfl
          · rfl
      simp only [GossipRun.perform, hrx] at hpayload
      exact ih hpayload

/-- Until a call of the decoder has failed the buffer holds what was received, up to its capacity.
Assumes: the serializer covers its encodings and tags them. -/
theorem contents_or_error (hcovers : bincode.Covers) (htagged : bincode.Tagged)
    (events : List GossipEvent) :
    (∃ message, .error message ∈ (GossipRun.of bincode events).results) ∨
      (GossipRun.of bincode events).node.ingressBuffer.contents =
        (GossipRun.of bincode events).received.flatten.take ingressCapacity := by
  induction events using List.reverseRecOn with
  | nil => exact .inr rfl
  | append_singleton events event ih =>
    rw [GossipRun.of_concat]
    obtain ⟨message, hmessage⟩ | hcontents := ih
    · refine .inl ⟨message, ?_⟩
      cases event with
      | broadcast shift => exact hmessage
      | receive => exact hmessage
      | nextShift => exact List.mem_append_left _ hmessage
    · cases event with
      | broadcast shift =>
        refine .inr ?_
        simp only [GossipRun.perform, NetworkNode.broadcast]
        split
        · exact hcontents
        · split_ifs
          · exact hcontents
          · exact hcontents
      | receive =>
        refine .inr ?_
        simp only [GossipRun.perform, NetworkNode.receive]
        cases hrx : (GossipRun.of bincode events).node.rx with
        | nil =>
          simp only [List.head?_nil, Option.toList_none, List.append_nil]
          exact hcontents
        | cons payload rx =>
          simp only [List.head?_cons, Option.toList_some]
          have hfree : ingressCapacity - (GossipRun.of bincode events).node.ingressBuffer.len =
              ingressCapacity - (GossipRun.of bincode events).received.flatten.length := by
            rw [← RingBuffer.length_contents, hcontents, List.length_take]
            omega
          rw [RingBuffer.contents_write, hcontents, hfree, List.flatten_append,
            List.flatten_singleton, List.take_append]
      | nextShift =>
        cases hreceived : (GossipRun.of bincode events).received with
        | nil =>
          have hempty : (GossipRun.of bincode events).node.ingressBuffer.contents = [] := by
            rw [hcontents, hreceived]
            rfl
          refine .inr ?_
          simp only [GossipRun.perform, nextShift_of_empty hempty]
          exact hcontents
        | cons payload rest =>
          obtain ⟨signal, hbody⟩ := @encoding_of_mem bincode events payload (by
            rw [hreceived]
            exact .inl List.mem_cons_self)
          rw [hreceived, List.flatten_cons] at hcontents
          obtain ⟨message, hmessage⟩ := nextShift_of_encoding hcovers htagged hbody hcontents
          refine .inl ⟨message, List.mem_append_right _ ?_⟩
          exact List.mem_singleton.mpr hmessage.symm

/-- The history of a run grows. -/
theorem history_grows (bincode : Bincode) (before after : List GossipEvent) :
    (∀ result ∈ (GossipRun.of bincode before).results,
      result ∈ (GossipRun.of bincode (before ++ after)).results) ∧
    ∃ later, (GossipRun.of bincode (before ++ after)).received =
      (GossipRun.of bincode before).received ++ later := by
  induction after using List.reverseRecOn with
  | nil =>
    rw [List.append_nil]
    exact ⟨fun _ hresult ↦ hresult, [], (List.append_nil _).symm⟩
  | append_singleton after event ih =>
    obtain ⟨hresults, later, hreceived⟩ := ih
    rw [← List.append_assoc, GossipRun.of_concat]
    cases event with
    | broadcast shift => exact ⟨hresults, later, hreceived⟩
    | receive =>
      refine ⟨hresults, later ++ (GossipRun.of bincode (before ++ after)).node.rx.head?.toList, ?_⟩
      simp only [GossipRun.perform]
      rw [hreceived, List.append_assoc]
    | nextShift =>
      exact ⟨fun result hresult ↦ List.mem_append_left _ (hresults result hresult), later,
        hreceived⟩

/-- A payload was received by a turn of the receive loop. Assumes: the payload is among the received
ones. -/
theorem exists_receive {events : List GossipEvent} {first rest : List (List UInt8)}
    {payload : List UInt8}
    (hreceived : (GossipRun.of bincode events).received = first ++ payload :: rest) :
    ∃ (before after : List GossipEvent) (rx : List (List UInt8)),
      events = before ++ .receive :: after ∧ (GossipRun.of bincode before).received = first ∧
        (GossipRun.of bincode before).node.rx = payload :: rx := by
  induction events using List.reverseRecOn generalizing rest with
  | nil => exact (List.append_ne_nil_of_right_ne_nil first (List.cons_ne_nil payload rest)
      hreceived.symm).elim
  | append_singleton events event ih =>
    have hextend {rest : List (List UInt8)}
        (hold : (GossipRun.of bincode events).received = first ++ payload :: rest) :
        ∃ (before after : List GossipEvent) (rx : List (List UInt8)),
          events ++ [event] = before ++ .receive :: after ∧
            (GossipRun.of bincode before).received = first ∧
            (GossipRun.of bincode before).node.rx = payload :: rx := by
      obtain ⟨before, after, rx, hevents, hfirst, hrx⟩ := ih hold
      refine ⟨before, after ++ [event], rx, ?_, hfirst, hrx⟩
      rw [hevents, List.append_assoc, List.cons_append]
    rw [GossipRun.of_concat] at hreceived
    cases event with
    | broadcast shift => exact hextend hreceived
    | nextShift => exact hextend hreceived
    | receive =>
      simp only [GossipRun.perform] at hreceived
      cases hrx : (GossipRun.of bincode events).node.rx with
      | nil =>
        rw [hrx, List.head?_nil, Option.toList_none, List.append_nil] at hreceived
        exact hextend hreceived
      | cons front rx =>
        rw [hrx, List.head?_cons, Option.toList_some] at hreceived
        obtain hnil | ⟨earlier, last, hlast⟩ := List.eq_nil_or_concat rest
        · subst hnil
          obtain ⟨hfirst, hpayload⟩ := List.append_inj' hreceived rfl
          obtain ⟨rfl, -⟩ := List.cons.inj hpayload
          exact ⟨events, [], rx, rfl, hfirst, hrx⟩
        · rw [hlast, List.concat_eq_append, ← List.cons_append, ← List.append_assoc] at hreceived
          exact hextend (List.append_inj' hreceived rfl).1

/-- The free space of a buffer that holds what was received. Assumes: the serializer covers its
encodings and tags them, and no call of the decoder has failed. -/
theorem len_of_no_error (hcovers : bincode.Covers) (htagged : bincode.Tagged)
    {events : List GossipEvent}
    (hresults : ∀ message, .error message ∉ (GossipRun.of bincode events).results) :
    (GossipRun.of bincode events).node.ingressBuffer.len =
      min ingressCapacity (GossipRun.of bincode events).received.flatten.length := by
  obtain ⟨message, hmessage⟩ | hcontents := contents_or_error hcovers htagged events
  · exact (hresults message hmessage).elim
  · rw [← RingBuffer.length_contents, hcontents, List.length_take]

/-- In a run without an error nothing is received before a call of the decoder, and no payload
crosses the capacity. Assumes: the serializer covers its encodings and tags them, and the run
delivers whole messages. -/
theorem unread_of_delivers (hcovers : bincode.Covers) (htagged : bincode.Tagged)
    {events : List GossipEvent} (hdelivers : Delivers bincode events) : Unread bincode events := by
  have hno (before after : List GossipEvent) (hevents : events = before ++ after)
      (message : String) :
      .error message ∉ (GossipRun.of bincode before).results := by
    intro hmessage
    have hlater := (history_grows bincode before after).1 _ hmessage
    rw [← hevents] at hlater
    obtain ⟨shift, hshift⟩ := hdelivers.no_error _ hlater
    cases hshift
  constructor
  · intro before after hevents
    cases hreceived : (GossipRun.of bincode before).received with
    | nil => rfl
    | cons payload rest =>
      obtain ⟨message, hmessage⟩ | hcontents := contents_or_error hcovers htagged before
      · exact (hno before _ hevents message hmessage).elim
      · obtain ⟨signal, hbody⟩ := @encoding_of_mem bincode before payload (by
          rw [hreceived]
          exact .inl List.mem_cons_self)
        rw [hreceived, List.flatten_cons] at hcontents
        obtain ⟨message, hmessage⟩ := nextShift_of_encoding hcovers htagged hbody hcontents
        refine (hno (before ++ [.nextShift]) after ?_ message ?_).elim
        · rw [hevents, List.append_assoc, List.singleton_append]
        · rw [GossipRun.of_concat]
          exact List.mem_append_right _ (List.mem_singleton.mpr hmessage.symm)
  · intro first payload rest hreceived
    obtain ⟨before, after, rx, hevents, rfl, hrx⟩ := exists_receive hreceived
    obtain ⟨signal, hbody⟩ := @encoding_of_mem bincode before payload (by
      rw [hrx]
      exact .inr List.mem_cons_self)
    obtain ⟨encoded, hencoded, hpayload⟩ := htagged signal payload hbody
    have hlength := congrArg List.length hencoded
    rw [List.length_append, length_leBytes] at hlength
    have hlen := len_of_no_error hcovers htagged (hno before _ hevents)
    have hwhole := hdelivers.whole before after hevents payload rx hrx
    rw [RingBuffer.snd_write, hlen] at hwhole
    omega

/-- A run delivers whole messages where nothing is received before a call of the decoder and no
payload crosses the capacity. Assumes: the serializer covers its encodings and tags them, and the
run is such. -/
theorem delivers_of_unread (hcovers : bincode.Covers) (htagged : bincode.Tagged)
    {events : List GossipEvent} (hunread : Unread bincode events) : Delivers bincode events := by
  have hnothing (before : List GossipEvent) :
      ∀ after, events = before ++ after →
        ∀ result ∈ (GossipRun.of bincode before).results, result = .ok none := by
    induction before using List.reverseRecOn with
    | nil => exact fun _ _ result hresult ↦ (List.not_mem_nil hresult).elim
    | append_singleton before event ih =>
      intro after hevents result hresult
      rw [List.append_assoc, List.singleton_append] at hevents
      rw [GossipRun.of_concat] at hresult
      cases event with
      | broadcast shift => exact ih _ hevents result hresult
      | receive => exact ih _ hevents result hresult
      | nextShift =>
        obtain hold | hnew := List.mem_append.mp hresult
        · exact ih _ hevents result hold
        · have hempty := hunread.before_nextShift before after hevents
          obtain ⟨message, hmessage⟩ | hcontents := contents_or_error hcovers htagged before
          · cases ih _ hevents _ hmessage
          · rw [hempty] at hcontents
            rw [List.mem_singleton.mp hnew, nextShift_of_empty hcontents]
  have hresults := hnothing events [] (List.append_nil events).symm
  have hreturned : (GossipRun.of bincode events).returned = [] := by
    apply List.filterMap_eq_nil_iff.mpr
    intro result hresult
    rw [hresults result hresult]
    rfl
  refine ⟨?_, fun result hresult ↦ ⟨none, hresults result hresult⟩, ?_⟩
  · rw [hreturned]
    exact List.nil_sublist _
  · intro before after hevents payload rx hrx
    have hlen := @len_of_no_error bincode hcovers htagged before fun message hmessage ↦ by
      cases hnothing before _ hevents _ hmessage
    obtain ⟨-, later, hlater⟩ := history_grows bincode (before ++ [.receive]) after
    have hreceived : (GossipRun.of bincode events).received =
        (GossipRun.of bincode before).received ++ payload :: later := by
      rw [hevents, ← List.singleton_append, ← List.append_assoc, hlater, GossipRun.of_concat]
      simp only [GossipRun.perform, hrx, List.head?_cons, Option.toList_some, List.append_assoc,
        List.singleton_append]
    rw [RingBuffer.snd_write, hlen]
    obtain hfits | hfull := hunread.within_capacity _ payload later hreceived
    · omega
    · omega

/-- A run delivers whole messages if and only if nothing is received before a call of the decoder
and no payload crosses the capacity. Assumes: the serializer covers its encodings and tags them. -/
theorem delivers_iff (hcovers : bincode.Covers) (htagged : bincode.Tagged)
    (events : List GossipEvent) : Delivers bincode events ↔ Unread bincode events :=
  ⟨unread_of_delivers hcovers htagged, delivers_of_unread hcovers htagged⟩

theorem delivers_iff_probe :
    Delivers .sample [.nextShift, .broadcast (.ping 1 2), .receive] ↔
      Unread .sample [.nextShift, .broadcast (.ping 1 2), .receive] :=
  delivers_iff Bincode.covers_sample Bincode.tagged_sample _

end Runs

/-- A probe that is received is not decoded. -/
theorem broadcast_probe_undecodable :
    ¬∀ bincode : Bincode, bincode.RoundTrips → bincode.Covers → bincode.Tagged →
      ∀ events : List GossipEvent, (∀ shift, .broadcast shift ∈ events →
        ∃ body, bincode.serialize shift = .ok body ∧ body.length ≤ maxShiftSize) →
          Delivers bincode events := by
  intro hclaim
  have hdelivers := hclaim .sample Bincode.roundTrips_sample Bincode.covers_sample
    Bincode.tagged_sample [.broadcast (.ping 1 2), .receive, .nextShift] (by
      intro shift hshift
      rw [List.mem_cons, List.mem_cons, List.mem_singleton] at hshift
      obtain hshift | hshift | hshift := hshift
      · cases hshift
        exact ⟨_, rfl, by decide⟩
      · cases hshift
      · cases hshift)
  have hunread := unread_of_delivers Bincode.covers_sample Bincode.tagged_sample hdelivers
  have hreceived := hunread.before_nextShift [.broadcast (.ping 1 2), .receive] [] rfl
  cases hreceived

end Fluidic.Network
