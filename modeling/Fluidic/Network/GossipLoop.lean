import Fluidic.Library.LabelledRun
import Fluidic.Network.TcpGossip
import Mathlib.Data.Finset.Basic

/-!
# The gossip loop

`run_gossip` and `try_connect` of `src/network/tcp_gossip.rs`: the task that dials peers, the one
that accepts connections and the one that hands signals out to all writers, in any interleaving. A
writer passes a channel before it takes part. A connection has the number under which it came up.
The capacities of the channels are left out.

The connections do not disturb each other: each one carries its opening, and then every signal that
is broadcast while its writer takes part, whole and in order, until a write fails
(`gossip_delivers`). The active peers are those with a dialled connection that is read, and each of
them has one.
-/

set_option autoImplicit false
set_option relaxedAutoImplicit false

namespace Fluidic.Network

open Library Crypto

variable {Peer : Type} [DecidableEq Peer]

/-! ### The loop -/

/-- How an attempt to connect to a peer ends. -/
inductive DialOutcome
  | skipped
  | unreachable
  | unauthenticated
  | connected (id : ℕ)

/-- What happens in the gossip loop. A write that fails is given with its connection and the number
of bytes that were written before. -/
inductive LoopEvent (Peer : Type)
  | addPeer (peer : Peer) (outcome : DialOutcome)
  | retry (peer : Peer) (outcome : DialOutcome)
  | accept (id : ℕ)
  | authenticate (id : ℕ)
  | join (id : ℕ)
  | broadcast (shift : WireSignal) (failing : List (ℕ × ℕ))
  | disconnect (id : ℕ)

/-- The state of the gossip loop: the peers to dial and the connected ones, the dialled connections
that are read, the inbound ones that have not authenticated, the writers in the channel and those
that take part, and what was written to each connection. -/
structure GossipLoop (Peer : Type) where
  dialPeers : Finset Peer
  activePeers : Finset Peer
  connections : ℕ
  dialled : List (ℕ × Peer)
  handshaking : List ℕ
  queue : List ℕ
  writers : List ℕ
  stream : ℕ → List UInt8

/-- The loop before any event. -/
def GossipLoop.new : GossipLoop Peer := ⟨∅, ∅, 0, [], [], [], [], fun _ ↦ []⟩

/-- What a dialler writes first. -/
def opening (bincode : Bincode) (authProof : Option Bytes32) : Option (List UInt8) :=
  match authProof with
  | none => some []
  | some proof => (encodePacket bincode (.auth proof)).toOption

/-- Connect to a peer that is not connected. -/
def tryConnect (bincode : Bincode) (authProof : Option Bytes32) (loop : GossipLoop Peer)
    (peer : Peer) (outcome : DialOutcome) : Option (GossipLoop Peer) :=
  if peer ∈ loop.activePeers then
    match outcome with
    | .skipped => some loop
    | _ => none
  else
    match outcome with
    | .skipped => none
    | .unreachable => some loop
    | .unauthenticated => if authProof.isSome then some loop else none
    | .connected id =>
      if id = loop.connections then
        (opening bincode authProof).map fun bytes ↦ { loop with
          activePeers := insert peer loop.activePeers
          connections := id + 1
          dialled := loop.dialled ++ [(id, peer)]
          queue := loop.queue ++ [id]
          stream := Function.update loop.stream id bytes }
      else none

/-- The bytes of a packet that a connection gets. -/
def written (failing : List (ℕ × ℕ)) (packet : List UInt8) (id : ℕ) : List UInt8 :=
  match failing.lookup id with
  | none => packet
  | some count => packet.take count

/-- One event of the gossip loop. -/
def stepGossip (bincode : Bincode) (authProof : Option Bytes32) (loop : GossipLoop Peer) :
    LoopEvent Peer → Option (GossipLoop Peer × Unit)
  | .addPeer peer outcome =>
    (tryConnect bincode authProof { loop with dialPeers := insert peer loop.dialPeers } peer
      outcome).map fun loop ↦ (loop, ())
  | .retry peer outcome =>
    if peer ∈ loop.dialPeers then
      (tryConnect bincode authProof loop peer outcome).map fun loop ↦ (loop, ())
    else none
  | .accept id =>
    if id = loop.connections then
      match authProof with
      | none => some ({ loop with connections := id + 1, queue := loop.queue ++ [id] }, ())
      | some _ =>
        some ({ loop with connections := id + 1, handshaking := loop.handshaking ++ [id] }, ())
    else none
  | .authenticate id =>
    if id ∈ loop.handshaking then
      some ({ loop with
        handshaking := loop.handshaking.erase id, queue := loop.queue ++ [id] }, ())
    else none
  | .join id =>
    if loop.queue.head? = some id then
      some ({ loop with queue := loop.queue.tail, writers := loop.writers ++ [id] }, ())
    else none
  | .broadcast shift failing =>
    match encodePacket bincode shift with
    | .error _ => some (loop, ())
    | .ok packet =>
      some ({ loop with
        writers := loop.writers.filter fun id ↦ (failing.lookup id).isNone
        stream := fun id ↦ if id ∈ loop.writers then loop.stream id ++ written failing packet id
          else loop.stream id }, ())
  | .disconnect id =>
    match loop.dialled.find? fun entry ↦ entry.1 = id with
    | some (_, peer) =>
      some ({ loop with
        activePeers := loop.activePeers.erase peer
        dialled := loop.dialled.filter fun entry ↦ entry.1 ≠ id }, ())
    | none => some ({ loop with handshaking := loop.handshaking.erase id }, ())

/-! ### One connection -/

/-- What one connection carries: whether its writer takes part, its opening, the signals that were
written whole, and the bytes of a write that failed. -/
structure Line where
  joined : Bool
  opening : List UInt8
  sent : List WireSignal
  started : List UInt8

/-- A connection that has not come up. -/
def Line.new : Line := ⟨false, [], [], []⟩

/-- What an event does to one connection, whatever the others do. -/
def Line.follow (bincode : Bincode) (authProof : Option Bytes32) (id : ℕ) (line : Line) :
    LoopEvent Peer → Line
  | .addPeer _ (.connected other) | .retry _ (.connected other) =>
    if other = id then
      { line with opening := (Network.opening bincode authProof).getD [] }
    else line
  | .join other => if other = id then { line with joined := true } else line
  | .broadcast shift failing =>
    match line.joined, encodePacket bincode shift, failing.lookup id with
    | true, .ok _, none => { line with sent := line.sent ++ [shift] }
    | true, .ok packet, some count =>
      { line with joined := false, started := packet.take count }
    | _, _, _ => line
  | _ => line

/-- What a connection carries after a run. -/
def lineOf (bincode : Bincode) (authProof : Option Bytes32) (id : ℕ)
    (history : List (GossipLoop Peer × LoopEvent Peer)) : Line :=
  (history.map Prod.snd).foldl (Line.follow bincode authProof id) .new

section Steps

variable {bincode : Bincode} {authProof : Option Bytes32} {loop next : GossipLoop Peer}

/-- The loop with a new connection to a peer. -/
def GossipLoop.connect (loop : GossipLoop Peer) (peer : Peer) (bytes : List UInt8) :
    GossipLoop Peer :=
  { loop with
    activePeers := insert peer loop.activePeers
    connections := loop.connections + 1
    dialled := loop.dialled ++ [(loop.connections, peer)]
    queue := loop.queue ++ [loop.connections]
    stream := Function.update loop.stream loop.connections bytes }

/-- An attempt to connect changes nothing, or brings a connection up to a peer that had none.
Assumes: the attempt returns. -/
theorem tryConnect_cases {peer : Peer} {outcome : DialOutcome}
    (hconnect : tryConnect bincode authProof loop peer outcome = some next) :
    (∀ id, outcome ≠ .connected id) ∧ next = loop ∨
    ∃ bytes, outcome = .connected loop.connections ∧ peer ∉ loop.activePeers ∧
      opening bincode authProof = some bytes ∧ next = loop.connect peer bytes := by
  unfold tryConnect at hconnect
  by_cases hactive : peer ∈ loop.activePeers
  · rw [if_pos hactive] at hconnect
    cases outcome with
    | skipped => exact .inl ⟨fun _ hsame ↦ (by cases hsame), (Option.some.inj hconnect).symm⟩
    | _ => cases hconnect
  · rw [if_neg hactive] at hconnect
    cases outcome with
    | skipped => cases hconnect
    | unreachable => exact .inl ⟨fun _ hsame ↦ (by cases hsame), (Option.some.inj hconnect).symm⟩
    | unauthenticated =>
      dsimp only at hconnect
      split_ifs at hconnect
      exact .inl ⟨fun _ hsame ↦ (by cases hsame), (Option.some.inj hconnect).symm⟩
    | connected id =>
      dsimp only at hconnect
      split_ifs at hconnect with hid
      obtain ⟨bytes, hopening, rfl⟩ := Option.map_eq_some_iff.mp hconnect
      subst hid
      exact .inr ⟨bytes, rfl, hactive, hopening, rfl⟩

/-- What an event does to the loop, with the conditions under which it happens. -/
inductive GossipStep (bincode : Bincode) (authProof : Option Bytes32) (loop : GossipLoop Peer) :
    LoopEvent Peer → GossipLoop Peer → Prop
  | addPeer {peer : Peer} {outcome : DialOutcome} {next : GossipLoop Peer}
      (hconnect : tryConnect bincode authProof
        { loop with dialPeers := insert peer loop.dialPeers } peer outcome = some next) :
      GossipStep bincode authProof loop (.addPeer peer outcome) next
  | retry {peer : Peer} {outcome : DialOutcome} {next : GossipLoop Peer}
      (hdial : peer ∈ loop.dialPeers)
      (hconnect : tryConnect bincode authProof loop peer outcome = some next) :
      GossipStep bincode authProof loop (.retry peer outcome) next
  | accept :
      GossipStep bincode authProof loop (.accept loop.connections) { loop with
        connections := loop.connections + 1, queue := loop.queue ++ [loop.connections] }
  | handshake :
      GossipStep bincode authProof loop (.accept loop.connections) { loop with
        connections := loop.connections + 1
        handshaking := loop.handshaking ++ [loop.connections] }
  | authenticate {id : ℕ} (hmem : id ∈ loop.handshaking) :
      GossipStep bincode authProof loop (.authenticate id) { loop with
        handshaking := loop.handshaking.erase id, queue := loop.queue ++ [id] }
  | join {id : ℕ} {rest : List ℕ} (hqueue : loop.queue = id :: rest) :
      GossipStep bincode authProof loop (.join id) { loop with
        queue := rest, writers := loop.writers ++ [id] }
  | unencoded {shift : WireSignal} {message : String} (failing : List (ℕ × ℕ))
      (hpacket : encodePacket bincode shift = .error message) :
      GossipStep bincode authProof loop (.broadcast shift failing) loop
  | broadcast {shift : WireSignal} {packet : List UInt8} (failing : List (ℕ × ℕ))
      (hpacket : encodePacket bincode shift = .ok packet) :
      GossipStep bincode authProof loop (.broadcast shift failing) { loop with
        writers := loop.writers.filter fun id ↦ (failing.lookup id).isNone
        stream := fun id ↦ if id ∈ loop.writers then loop.stream id ++ written failing packet id
          else loop.stream id }
  | ended {id : ℕ} {peer : Peer} (hdialled : (id, peer) ∈ loop.dialled) :
      GossipStep bincode authProof loop (.disconnect id) { loop with
        activePeers := loop.activePeers.erase peer
        dialled := loop.dialled.filter fun entry ↦ entry.1 ≠ id }
  | closed (id : ℕ) :
      GossipStep bincode authProof loop (.disconnect id) { loop with
        handshaking := loop.handshaking.erase id }

/-- An event does that. Assumes: the loop takes the step. -/
theorem gossipStep_of_step {event : LoopEvent Peer} {output : Unit}
    (hstep : stepGossip bincode authProof loop event = some (next, output)) :
    GossipStep bincode authProof loop event next := by
  cases event with
  | addPeer peer outcome =>
    obtain ⟨after, hconnect, hresult⟩ := Option.map_eq_some_iff.mp hstep
    obtain ⟨rfl, -⟩ := Prod.mk.inj hresult
    exact .addPeer hconnect
  | retry peer outcome =>
    simp only [stepGossip] at hstep
    split_ifs at hstep with hdial
    obtain ⟨after, hconnect, hresult⟩ := Option.map_eq_some_iff.mp hstep
    obtain ⟨rfl, -⟩ := Prod.mk.inj hresult
    exact .retry hdial hconnect
  | accept id =>
    simp only [stepGossip] at hstep
    split_ifs at hstep with hid
    subst hid
    cases authProof with
    | none =>
      obtain ⟨rfl, -⟩ := Prod.mk.inj (Option.some.inj hstep)
      exact .accept
    | some proof =>
      obtain ⟨rfl, -⟩ := Prod.mk.inj (Option.some.inj hstep)
      exact .handshake
  | authenticate id =>
    simp only [stepGossip] at hstep
    split_ifs at hstep with hmem
    obtain ⟨rfl, -⟩ := Prod.mk.inj (Option.some.inj hstep)
    exact .authenticate hmem
  | join id =>
    simp only [stepGossip] at hstep
    split_ifs at hstep with hhead
    obtain ⟨rfl, -⟩ := Prod.mk.inj (Option.some.inj hstep)
    exact .join (List.eq_cons_of_mem_head? hhead)
  | broadcast shift failing =>
    simp only [stepGossip] at hstep
    cases hpacket : encodePacket bincode shift with
    | error message =>
      rw [hpacket] at hstep
      obtain ⟨rfl, -⟩ := Prod.mk.inj (Option.some.inj hstep)
      exact .unencoded failing hpacket
    | ok packet =>
      rw [hpacket] at hstep
      obtain ⟨rfl, -⟩ := Prod.mk.inj (Option.some.inj hstep)
      exact .broadcast failing hpacket
  | disconnect id =>
    simp only [stepGossip] at hstep
    cases hfound : loop.dialled.find? fun entry ↦ entry.1 = id with
    | none =>
      rw [hfound] at hstep
      obtain ⟨rfl, -⟩ := Prod.mk.inj (Option.some.inj hstep)
      exact .closed id
    | some entry =>
      rw [hfound] at hstep
      obtain ⟨rfl, -⟩ := Prod.mk.inj (Option.some.inj hstep)
      have hid : entry.1 = id := of_decide_eq_true (List.find?_some hfound :)
      refine .ended ?_
      rw [← hid]
      exact List.mem_of_find?_eq_some hfound

/-! ### Peers -/

/-- The active peers are those with a dialled connection that is read, one for each of them, and are
among the peers to dial. -/
structure Paired (loop : GossipLoop Peer) : Prop where
  ids : (loop.dialled.map Prod.fst).Nodup
  peers : (loop.dialled.map Prod.snd).Nodup
  active : ∀ peer, peer ∈ loop.activePeers ↔ peer ∈ loop.dialled.map Prod.snd
  below : ∀ entry ∈ loop.dialled, entry.1 < loop.connections
  known : loop.activePeers ⊆ loop.dialPeers

/-- An attempt to connect keeps that. Assumes: the dialled connections are paired, the peer is one
to dial, and the attempt returns. -/
theorem Paired.tryConnect (hpaired : Paired loop) {peer : Peer} (hdial : peer ∈ loop.dialPeers)
    {outcome : DialOutcome}
    (hconnect : Network.tryConnect bincode authProof loop peer outcome = some next) :
    Paired next := by
  rcases tryConnect_cases hconnect with ⟨-, rfl⟩ | ⟨bytes, -, hidle, -, rfl⟩
  · exact hpaired
  · unfold GossipLoop.connect
    refine ⟨?_, ?_, fun other ↦ ?_, fun entry hentry ↦ ?_, ?_⟩
    · rw [List.map_append, List.map_singleton]
      refine hpaired.ids.append (List.nodup_singleton _) ?_
      rw [List.disjoint_singleton]
      intro hold
      obtain ⟨entry, hentry, hsame⟩ := List.mem_map.mp hold
      exact absurd hsame (Nat.ne_of_lt (hpaired.below entry hentry))
    · rw [List.map_append, List.map_singleton]
      refine hpaired.peers.append (List.nodup_singleton _) ?_
      rw [List.disjoint_singleton]
      exact fun hold ↦ hidle ((hpaired.active peer).mpr hold)
    · rw [Finset.mem_insert, List.map_append, List.mem_append, hpaired.active other, or_comm]
      simp
    · rcases List.mem_append.mp hentry with hold | hnew
      · exact (hpaired.below entry hold).trans (Nat.lt_succ_self _)
      · rw [List.mem_singleton.mp hnew]
        exact Nat.lt_succ_self _
    · exact Finset.insert_subset hdial hpaired.known

/-- The end of a dialled connection keeps that. Assumes: the dialled connections are paired, and
this one is among them. -/
theorem Paired.disconnect (hpaired : Paired loop) {id : ℕ} {peer : Peer}
    (hdialled : (id, peer) ∈ loop.dialled) :
    Paired { loop with
      activePeers := loop.activePeers.erase peer
      dialled := loop.dialled.filter fun entry ↦ entry.1 ≠ id } := by
  have hsublist : (loop.dialled.filter fun entry ↦ entry.1 ≠ id).Sublist loop.dialled :=
    List.filter_sublist
  refine ⟨hpaired.ids.sublist (hsublist.map _), hpaired.peers.sublist (hsublist.map _),
    fun other ↦ ?_, fun entry hentry ↦ hpaired.below entry (hsublist.subset hentry),
    (Finset.erase_subset _ _).trans hpaired.known⟩
  rw [Finset.mem_erase, hpaired.active other]
  constructor
  · rintro ⟨hne, hold⟩
    obtain ⟨entry, hentry, rfl⟩ := List.mem_map.mp hold
    refine List.mem_map.mpr ⟨entry, List.mem_filter.mpr ⟨hentry, decide_eq_true ?_⟩, rfl⟩
    rintro rfl
    exact hne (congrArg Prod.snd (List.inj_on_of_nodup_map hpaired.ids hentry hdialled rfl))
  · intro hkept
    obtain ⟨entry, hentry, rfl⟩ := List.mem_map.mp hkept
    obtain ⟨hold, hid⟩ := List.mem_filter.mp hentry
    refine ⟨fun hsame ↦ of_decide_eq_true hid ?_, List.mem_map.mpr ⟨entry, hold, rfl⟩⟩
    exact congrArg Prod.fst (List.inj_on_of_nodup_map hpaired.peers hold hdialled hsame)

omit [DecidableEq Peer] in
/-- A change that concerns no dialled connection keeps that. Assumes: the dialled connections are
paired, and connections only come up. -/
theorem Paired.grow (hpaired : Paired loop) (hdial : next.dialPeers = loop.dialPeers)
    (hactive : next.activePeers = loop.activePeers) (hdialled : next.dialled = loop.dialled)
    (hcount : loop.connections ≤ next.connections) : Paired next where
  ids := hdialled ▸ hpaired.ids
  peers := hdialled ▸ hpaired.peers
  active peer := by
    rw [hactive, hdialled]
    exact hpaired.active peer
  below entry hentry := (hpaired.below entry (hdialled ▸ hentry)).trans_le hcount
  known := by
    rw [hactive, hdial]
    exact hpaired.known

/-- An event keeps that. Assumes: the dialled connections are paired, and the event happens. -/
theorem Paired.step (hpaired : Paired loop) {event : LoopEvent Peer}
    (hstep : GossipStep bincode authProof loop event next) : Paired next := by
  cases hstep with
  | @addPeer peer outcome _ hconnect =>
    have hdialling : Paired { loop with dialPeers := insert peer loop.dialPeers } :=
      ⟨hpaired.ids, hpaired.peers, hpaired.active, hpaired.below,
        hpaired.known.trans (Finset.subset_insert _ _)⟩
    exact hdialling.tryConnect (Finset.mem_insert_self _ _) hconnect
  | retry hdial hconnect => exact hpaired.tryConnect hdial hconnect
  | accept => exact hpaired.grow rfl rfl rfl (Nat.le_succ _)
  | handshake => exact hpaired.grow rfl rfl rfl (Nat.le_succ _)
  | authenticate => exact hpaired.grow rfl rfl rfl le_rfl
  | join => exact hpaired.grow rfl rfl rfl le_rfl
  | unencoded => exact hpaired
  | broadcast => exact hpaired.grow rfl rfl rfl le_rfl
  | ended hdialled => exact hpaired.disconnect hdialled
  | closed => exact hpaired.grow rfl rfl rfl le_rfl

/-! ### Streams -/

/-- The inbound connections that have not authenticated and the writers in the channel and at work
are distinct, and came up. -/
structure Numbered (loop : GossipLoop Peer) : Prop where
  once : (loop.handshaking ++ loop.queue ++ loop.writers).Nodup
  below : ∀ id ∈ loop.handshaking ++ loop.queue ++ loop.writers, id < loop.connections

/-- The writer of a connection has not taken part yet. -/
def Waiting (loop : GossipLoop Peer) (id : ℕ) : Prop :=
  loop.connections ≤ id ∨ id ∈ loop.handshaking ∨ id ∈ loop.queue

omit [DecidableEq Peer] in
/-- A writer at work does not wait. Assumes: the connections are numbered. -/
theorem Numbered.not_waiting (hnumbered : Numbered loop) {id : ℕ} (hmem : id ∈ loop.writers) :
    ¬ Waiting loop id := by
  rintro (hnew | hwaiting)
  · exact absurd (hnumbered.below id (List.mem_append_right _ hmem)) (Nat.not_lt.mpr hnew)
  · exact (List.nodup_append.mp hnumbered.once).2.2 id (List.mem_append.mpr hwaiting) id hmem rfl

omit [DecidableEq Peer] in
/-- The same connections or fewer, in any order, keep that. Assumes: the connections are numbered,
and connections only come up. -/
theorem Numbered.of_subperm (hnumbered : Numbered loop)
    (hsub : (next.handshaking ++ next.queue ++ next.writers).Subperm
      (loop.handshaking ++ loop.queue ++ loop.writers))
    (hcount : loop.connections ≤ next.connections) : Numbered next where
  once := by
    obtain ⟨kept, hperm, hsublist⟩ := hsub
    exact hperm.nodup_iff.mp (hnumbered.once.sublist hsublist)
  below id hmem := (hnumbered.below id (hsub.subset hmem)).trans_le hcount

omit [DecidableEq Peer] in
/-- A connection that comes up keeps that. Assumes: the connections are numbered, and the one that
comes up waits. -/
theorem Numbered.of_perm_cons (hnumbered : Numbered loop)
    (hperm : (next.handshaking ++ next.queue ++ next.writers).Perm
      (loop.connections :: (loop.handshaking ++ loop.queue ++ loop.writers)))
    (hcount : next.connections = loop.connections + 1) : Numbered next where
  once := by
    refine hperm.nodup_iff.mpr (List.nodup_cons.mpr ⟨fun hmem ↦ ?_, hnumbered.once⟩)
    exact absurd (hnumbered.below _ hmem) (Nat.lt_irrefl _)
  below id hmem := by
    rw [hcount]
    rcases List.mem_cons.mp (hperm.subset hmem) with rfl | hold
    · exact Nat.lt_succ_self _
    · exact (hnumbered.below id hold).trans (Nat.lt_succ_self _)

/-- An event keeps that. Assumes: the connections are numbered, and the event happens. -/
theorem Numbered.step (hnumbered : Numbered loop) {event : LoopEvent Peer}
    (hstep : GossipStep bincode authProof loop event next) : Numbered next := by
  have hqueued (handshaking queue writers : List ℕ) (id : ℕ) :
      (handshaking ++ (queue ++ [id]) ++ writers).Perm
        (id :: (handshaking ++ queue ++ writers)) := by
    rw [← List.append_assoc handshaking, List.append_assoc _ [id]]
    exact List.perm_middle
  have hconnect {before : GossipLoop Peer} (hbefore : Numbered before) {peer : Peer}
      {outcome : DialOutcome}
      (hconnect : Network.tryConnect bincode authProof before peer outcome = some next) :
      Numbered next := by
    rcases tryConnect_cases hconnect with ⟨-, rfl⟩ | ⟨bytes, -, -, -, rfl⟩
    · exact hbefore
    · exact hbefore.of_perm_cons (hqueued _ _ _ _) rfl
  cases hstep with
  | @addPeer peer outcome _ hconnected =>
    have hdialling : Numbered { loop with dialPeers := insert peer loop.dialPeers } :=
      ⟨hnumbered.once, hnumbered.below⟩
    exact hconnect hdialling hconnected
  | retry _ hconnected => exact hconnect hnumbered hconnected
  | accept => exact hnumbered.of_perm_cons (hqueued _ _ _ _) rfl
  | handshake =>
    refine hnumbered.of_perm_cons ?_ rfl
    rw [List.append_assoc, List.append_assoc, List.append_assoc]
    exact List.perm_middle
  | authenticate hmem =>
    refine hnumbered.of_subperm (List.Perm.subperm ?_) le_rfl
    refine (hqueued _ _ _ _).trans ?_
    exact ((List.perm_cons_erase hmem).symm.append_right _).append_right _
  | join hqueue =>
    refine hnumbered.of_subperm (List.Perm.subperm ?_) le_rfl
    rw [hqueue, ← List.append_assoc]
    exact (List.perm_append_singleton _ _).trans (List.perm_middle.symm.append_right _)
  | unencoded => exact hnumbered
  | broadcast => exact hnumbered.of_subperm (List.filter_sublist.append_left _).subperm le_rfl
  | ended => exact ⟨hnumbered.once, hnumbered.below⟩
  | closed =>
    exact hnumbered.of_subperm ((List.erase_sublist.append_right _).append_right _).subperm le_rfl

/-- A connection carries what its line says. -/
structure Follows (bincode : Bincode) (loop : GossipLoop Peer) (id : ℕ) (line : Line) : Prop where
  joined : id ∈ loop.writers ↔ line.joined = true
  fresh : Waiting loop id → line.sent = [] ∧ line.started = []
  unused : loop.connections ≤ id → line.opening = [] ∧ loop.stream id = []
  whole : line.joined = true → line.started = []
  stream : ∃ packets, line.sent.mapM (encodePacket bincode) = .ok packets ∧
    loop.stream id = line.opening ++ packets.flatten ++ line.started

namespace Follows

variable {id : ℕ} {line : Line}

omit [DecidableEq Peer] in
/-- Nothing that concerns the connection changes. Assumes: the connection carries what the line
says. -/
theorem keep (hfollows : Follows bincode loop id line)
    (hwriters : id ∈ next.writers ↔ id ∈ loop.writers) (hstream : next.stream id = loop.stream id)
    (hwaiting : Waiting next id → Waiting loop id)
    (hcount : loop.connections ≤ next.connections) : Follows bincode next id line where
  joined := hwriters.trans hfollows.joined
  fresh hnext := hfollows.fresh (hwaiting hnext)
  unused hnew := by
    rw [hstream]
    exact hfollows.unused (hcount.trans hnew)
  whole := hfollows.whole
  stream := by
    rw [hstream]
    exact hfollows.stream

/-- An attempt to connect keeps that, for the line that the outcome leads to. Assumes: the loop
follows the line, and the attempt returns. -/
theorem tryConnect (hfollows : Follows bincode loop id line) {peer : Peer} {outcome : DialOutcome}
    (hconnect : Network.tryConnect bincode authProof loop peer outcome = some next) :
    Follows bincode next id (line.follow bincode authProof id (.retry peer outcome)) := by
  rcases tryConnect_cases hconnect with ⟨hnone, rfl⟩ | ⟨bytes, rfl, -, hopening, rfl⟩
  · cases outcome with
    | connected other => exact absurd rfl (hnone other)
    | _ => exact hfollows
  · show Follows bincode (loop.connect peer bytes) id
      (if loop.connections = id then { line with opening := (opening bincode authProof).getD [] }
        else line)
    by_cases hid : loop.connections = id
    · rw [if_pos hid, hopening, Option.getD_some]
      obtain ⟨hsent, hstarted⟩ := hfollows.fresh (.inl hid.le)
      refine ⟨hfollows.joined, fun _ ↦ ⟨hsent, hstarted⟩, fun hnew ↦ ?_, hfollows.whole, [], ?_, ?_⟩
      · exact absurd (hid ▸ hnew) (Nat.not_succ_le_self _)
      · rw [hsent]
        rfl
      · rw [hstarted, List.flatten_nil, List.append_nil, List.append_nil, ← hid]
        exact Function.update_self _ _ _
    · rw [if_neg hid]
      refine hfollows.keep Iff.rfl (Function.update_of_ne (Ne.symm hid) _ _) ?_ (Nat.le_succ _)
      rintro (hnew | hmem | hmem)
      · exact .inl (Nat.le_of_succ_le hnew)
      · exact .inr (.inl hmem)
      · rcases List.mem_append.mp hmem with hold | hlast
        · exact .inr (.inr hold)
        · exact absurd (List.mem_singleton.mp hlast).symm hid

omit [DecidableEq Peer] in
/-- A broadcast that is encoded is written to the connections whose writers take part. Assumes: the
connection carries what its line says, and the connections are numbered. -/
theorem broadcast (hfollows : Follows bincode loop id line) (hnumbered : Numbered loop)
    {shift : WireSignal} {packet : List UInt8} (hpacket : encodePacket bincode shift = .ok packet)
    (failing : List (ℕ × ℕ)) :
    Follows bincode { loop with
      writers := loop.writers.filter fun id ↦ (failing.lookup id).isNone
      stream := fun id ↦ if id ∈ loop.writers then loop.stream id ++ written failing packet id
        else loop.stream id } id
      (line.follow bincode authProof id (.broadcast shift failing : LoopEvent Peer)) := by
  unfold Line.follow
  dsimp only
  rw [hpacket]
  cases hjoined : line.joined with
  | false =>
    have habsent : id ∉ loop.writers := by
      rw [hfollows.joined, hjoined]
      exact Bool.false_ne_true
    refine hfollows.keep ?_ (if_neg habsent) (fun hwaiting ↦ hwaiting) le_rfl
    exact ⟨fun hmem ↦ (List.mem_filter.mp hmem).1, fun hmem ↦ absurd hmem habsent⟩
  | true =>
    have hmem : id ∈ loop.writers := hfollows.joined.mpr hjoined
    have hbusy := hnumbered.not_waiting hmem
    obtain ⟨packets, hpackets, hstream⟩ := hfollows.stream
    rw [hfollows.whole hjoined, List.append_nil] at hstream
    have hfull {tail : List UInt8} (htail : written failing packet id = tail) :
        (if id ∈ loop.writers then loop.stream id ++ written failing packet id
          else loop.stream id) = line.opening ++ packets.flatten ++ tail := by
      rw [if_pos hmem, hstream, htail]
    cases hfails : failing.lookup id with
    | none =>
      refine ⟨⟨fun _ ↦ rfl, fun _ ↦ List.mem_filter.mpr ⟨hmem, by rw [hfails]; rfl⟩⟩,
        fun hwaiting ↦ absurd hwaiting hbusy,
        fun hnew ↦ absurd (.inl hnew) hbusy, fun _ ↦ hfollows.whole hjoined,
        packets ++ [packet], ?_, ?_⟩
      · rw [List.mapM_append, hpackets, List.mapM_cons, hpacket]
        rfl
      · refine (hfull (by unfold written; rw [hfails])).trans ?_
        rw [List.flatten_append, List.flatten_singleton, ← List.append_assoc,
          hfollows.whole hjoined, List.append_nil]
    | some count =>
      refine ⟨⟨fun hkept ↦ ?_, fun hfalse ↦ absurd hfalse Bool.false_ne_true⟩,
        fun hwaiting ↦ absurd hwaiting hbusy, fun hnew ↦ absurd (.inl hnew) hbusy,
        fun hfalse ↦ absurd hfalse Bool.false_ne_true, packets, hpackets,
        hfull (by unfold written; rw [hfails])⟩
      have hnone := (List.mem_filter.mp hkept).2
      rw [hfails] at hnone
      cases hnone

/-- An event keeps what a connection carries, for the line that the event leads to. Assumes: the
connection carries what its line says, the connections are numbered, and the event happens. -/
theorem step (hfollows : Follows bincode loop id line) (hnumbered : Numbered loop)
    {event : LoopEvent Peer} (hstep : GossipStep bincode authProof loop event next) :
    Follows bincode next id (line.follow bincode authProof id event) := by
  cases hstep with
  | @addPeer peer outcome _ hconnect =>
    have hdialling : Follows bincode { loop with dialPeers := insert peer loop.dialPeers } id
        line := ⟨hfollows.joined, hfollows.fresh, hfollows.unused, hfollows.whole, hfollows.stream⟩
    have hsame : line.follow bincode authProof id (.addPeer peer outcome) =
        line.follow bincode authProof id (.retry peer outcome) := by
      cases outcome <;> rfl
    rw [hsame]
    exact hdialling.tryConnect hconnect
  | retry _ hconnect => exact hfollows.tryConnect hconnect
  | accept =>
    refine hfollows.keep Iff.rfl rfl ?_ (Nat.le_succ _)
    rintro (hnew | hmem | hmem)
    · exact .inl (Nat.le_of_succ_le hnew)
    · exact .inr (.inl hmem)
    · rcases List.mem_append.mp hmem with hold | hlast
      · exact .inr (.inr hold)
      · exact .inl (List.mem_singleton.mp hlast).ge
  | handshake =>
    refine hfollows.keep Iff.rfl rfl ?_ (Nat.le_succ _)
    rintro (hnew | hmem | hmem)
    · exact .inl (Nat.le_of_succ_le hnew)
    · rcases List.mem_append.mp hmem with hold | hlast
      · exact .inr (.inl hold)
      · exact .inl (List.mem_singleton.mp hlast).ge
    · exact .inr (.inr hmem)
  | authenticate hshaking =>
    refine hfollows.keep Iff.rfl rfl ?_ le_rfl
    rintro (hnew | hmem | hmem)
    · exact .inl hnew
    · exact .inr (.inl (List.mem_of_mem_erase hmem))
    · rcases List.mem_append.mp hmem with hold | hlast
      · exact .inr (.inr hold)
      · exact .inr (.inl (List.mem_singleton.mp hlast ▸ hshaking))
  | @join other rest hqueue =>
    have hrest {id : ℕ} (hmem : id ∈ rest) : id ∈ loop.queue := hqueue ▸ List.mem_cons_of_mem _ hmem
    show Follows bincode _ id (if other = id then { line with joined := true } else line)
    by_cases hid : other = id
    · rw [if_pos hid]
      have hhead : id ∈ loop.queue := by
        rw [hqueue, hid]
        exact List.mem_cons_self
      obtain ⟨hsent, hstarted⟩ := hfollows.fresh (.inr (.inr hhead))
      refine ⟨⟨fun _ ↦ rfl, fun _ ↦ ?_⟩, fun _ ↦ ⟨hsent, hstarted⟩, hfollows.unused,
        fun _ ↦ hstarted, hfollows.stream⟩
      rw [hid]
      exact List.mem_append_right _ List.mem_cons_self
    · rw [if_neg hid]
      refine hfollows.keep ⟨fun hmem ↦ ?_, List.mem_append_left _⟩ rfl ?_ le_rfl
      · rcases List.mem_append.mp hmem with hold | hlast
        · exact hold
        · exact absurd (List.mem_singleton.mp hlast).symm hid
      · rintro (hnew | hmem | hmem)
        · exact .inl hnew
        · exact .inr (.inl hmem)
        · exact .inr (.inr (hrest hmem))
  | @unencoded shift message failing hpacket =>
    have hsame : line.follow bincode authProof id (.broadcast shift failing : LoopEvent Peer) =
        line := by
      unfold Line.follow
      dsimp only
      rw [hpacket]
      cases line.joined <;> rfl
    rw [hsame]
    exact hfollows
  | broadcast failing hpacket => exact hfollows.broadcast hnumbered hpacket failing
  | ended => exact hfollows.keep Iff.rfl rfl (fun hwaiting ↦ hwaiting) le_rfl
  | closed =>
    refine hfollows.keep Iff.rfl rfl ?_ le_rfl
    rintro (hnew | hmem | hmem)
    · exact .inl hnew
    · exact .inr (.inl (List.mem_of_mem_erase hmem))
    · exact .inr (.inr hmem)

end Follows

/-! ### Runs -/

/-- What holds in every state of a run. -/
structure LoopInvariant (bincode : Bincode) (authProof : Option Bytes32)
    (history : List (GossipLoop Peer × LoopEvent Peer)) (loop : GossipLoop Peer) : Prop where
  paired : Paired loop
  numbered : Numbered loop
  follows : ∀ id, Follows bincode loop id (lineOf bincode authProof id history)

/-- Every run of the gossip loop comes to such states. Assumes: the run starts at a new loop and
reaches the state. -/
theorem invariant_of_reaches {allowed : GossipLoop Peer → LoopEvent Peer → Prop}
    {history : List (GossipLoop Peer × LoopEvent Peer)}
    (hreaches : Reaches (stepGossip bincode authProof) allowed .new history loop) :
    LoopInvariant bincode authProof history loop := by
  induction hreaches with
  | start =>
    refine ⟨⟨List.nodup_nil, List.nodup_nil, fun peer ↦ ?_, fun entry hentry ↦ ?_,
      Finset.Subset.refl _⟩, ⟨List.nodup_nil, fun id hmem ↦ absurd hmem List.not_mem_nil⟩,
      fun id ↦ ?_⟩
    · exact ⟨fun hmem ↦ absurd hmem (Finset.notMem_empty _),
        fun hmem ↦ absurd hmem List.not_mem_nil⟩
    · exact absurd hentry List.not_mem_nil
    · refine ⟨⟨fun hmem ↦ absurd hmem List.not_mem_nil, fun hfalse ↦ ?_⟩, fun _ ↦ ⟨rfl, rfl⟩,
        fun _ ↦ ⟨rfl, rfl⟩, fun _ ↦ rfl, [], rfl, rfl⟩
      exact absurd hfalse Bool.false_ne_true
  | next _ _ hstep ih =>
    have hevent := gossipStep_of_step hstep
    refine ⟨ih.paired.step hevent, ih.numbered.step hevent, fun id ↦ ?_⟩
    unfold lineOf
    rw [List.map_append, List.foldl_append]
    exact (ih.follows id).step ih.numbered hevent

/-- Broadcast signals reach the peers whole and in order. In every state of every run of the gossip
loop each connection carries its opening, the signals that were broadcast and encoded while its
writer took part, and the beginning of a write that failed; the writer takes part until then. A peer
that reads the stream of a connection without an opening and without a failed write, in whatever
chunks, forwards exactly these signals. The active peers are those with a dialled connection that is
read, and each has one. Assumes: the encoding round-trips, and the run starts at a new loop and
reaches the state. -/
theorem gossip_delivers (hround : bincode.RoundTrips)
    {allowed : GossipLoop Peer → LoopEvent Peer → Prop}
    {history : List (GossipLoop Peer × LoopEvent Peer)}
    (hreaches : Reaches (stepGossip bincode authProof) allowed .new history loop) :
    (∀ peer, peer ∈ loop.activePeers ↔ peer ∈ loop.dialled.map Prod.snd) ∧
    (loop.dialled.map Prod.snd).Nodup ∧
    ∀ id, (id ∈ loop.writers ↔ (lineOf bincode authProof id history).joined = true) ∧
      (∃ packets, (lineOf bincode authProof id history).sent.mapM (encodePacket bincode) =
          .ok packets ∧
        loop.stream id = (lineOf bincode authProof id history).opening ++ packets.flatten ++
          (lineOf bincode authProof id history).started) ∧
      ((lineOf bincode authProof id history).opening = [] →
        (lineOf bincode authProof id history).started = [] →
        FitPackets bincode (lineOf bincode authProof id history).sent →
        ∀ chunks, AllNonempty chunks → chunks.flatten = loop.stream id →
          readLoop bincode alwaysOpen [] [] (chunks ++ [[]]) =
            ((lineOf bincode authProof id history).sent, .disconnected)) := by
  have hinvariant := invariant_of_reaches hreaches
  refine ⟨hinvariant.paired.active, hinvariant.paired.peers, fun id ↦ ?_⟩
  have hfollows := hinvariant.follows id
  refine ⟨hfollows.joined, hfollows.stream, fun hopening hstarted hfit chunks hchunks hstream ↦ ?_⟩
  obtain ⟨packets, hpackets, hcarried⟩ := hfollows.stream
  obtain ⟨bodies, hframes, hsizes, hdecoded⟩ := exists_bodies hround hpackets hfit
  have hwhole : chunks.flatten = bodies.flatMap frame := by
    rw [hstream, hcarried, hopening, hstarted, List.nil_append, List.append_nil, hframes]
  rw [readLoop_disconnected hsizes hchunks hwhole, hdecoded]

/-- A peer is dialled and another one connects. The first connection fails during a broadcast, and
the peer is dialled again. -/
def redialledPeer : List (LoopEvent ℕ) :=
  [.addPeer 7 (.connected 0), .accept 1, .join 0, .broadcast (.ping 1 2) [], .join 1,
    .broadcast (.pong 3 4) [(0, 5)], .retry 7 .skipped, .disconnect 0, .retry 7 (.connected 2),
    .join 2, .broadcast (.ping 5 6) []]

/-- The connection that was accepted carries the last two signals, in whatever chunks it is read. -/
theorem gossip_delivers_redialledPeer :
    ∃ (history : List (GossipLoop ℕ × LoopEvent ℕ)) (loop : GossipLoop ℕ),
      history.map Prod.snd = redialledPeer ∧
      Reaches (stepGossip .sample none) anyStep .new history loop ∧
      (7 ∈ loop.activePeers ∧ loop.dialled = [(2, 7)] ∧ loop.writers = [1, 2]) ∧
      ∀ chunks, AllNonempty chunks → chunks.flatten = loop.stream 1 →
        readLoop .sample alwaysOpen [] [] (chunks ++ [[]]) =
          ([.pong 3 4, .ping 5 6], .disconnected) := by
  have hruns : (run (stepGossip .sample none) anyStep GossipLoop.new redialledPeer).map
      (fun loop ↦ (decide (7 ∈ loop.activePeers), loop.dialled, loop.writers)) =
        some (true, [(2, 7)], [1, 2]) := by
    decide +kernel
  obtain ⟨loop, hrun, hfacts⟩ := Option.map_eq_some_iff.mp hruns
  obtain ⟨hactive, hrest⟩ := Prod.mk.inj hfacts
  obtain ⟨hdialled, hwriters⟩ := Prod.mk.inj hrest
  obtain ⟨history, hevents, hreaches⟩ := reaches_of_run hrun
  obtain ⟨-, -, hlines⟩ := gossip_delivers Bincode.roundTrips_sample hreaches
  have hline : lineOf .sample none 1 history = ⟨true, [], [.pong 3 4, .ping 5 6], []⟩ := by
    unfold lineOf
    rw [hevents]
    rfl
  have hread := (hlines 1).2.2
  rw [hline] at hread
  refine ⟨history, loop, hevents, hreaches, ⟨of_decide_eq_true hactive, hdialled, hwriters⟩,
    hread rfl rfl fun signal hmem body hbody ↦ ?_⟩
  have hlength : (Bincode.sample.serialize signal).toOption.map List.length = some 20 := by
    rcases List.mem_cons.mp hmem with rfl | hlast
    · decide +kernel
    · rw [List.mem_singleton.mp hlast]
      decide +kernel
  rw [hbody] at hlength
  exact (Option.some.inj hlength).le.trans (by decide)

end Steps

end Fluidic.Network
