import Fluidic.Library.FixedWidth
import Fluidic.Library.PairUpdate
import Fluidic.Network.Buffer

/-!
# The ring buffer over its store

`RingBuffer` of `src/network/buffer.rs` with the store as the source has it: a byte string that is
empty until the first write and has the size of the capacity from then on. Every operation fails
where the source panics: an index outside of the store, a counter that overflows or goes below zero,
a remainder by a capacity of zero, and a capacity that no allocation can have.

`BackedRing.Backs` relates such a buffer to the `RingBuffer` whose invariant is part of its type.
Every operation on a related pair succeeds and keeps the relation, so that no index is ever out of
range, and a buffer answers every list of calls as a queue of bytes does
(`replies_eq_queueReplies`).
-/

set_option autoImplicit false
set_option relaxedAutoImplicit false

namespace Fluidic.Network

open Library Library.Circular

/-- The size of the largest allocation. -/
def isizeMax : ℕ := 2 ^ 63 - 1

/-- A call of a byte buffer. -/
inductive BufferCall where
  | write (data : List UInt8)
  | peek (max : ℕ)
  | consume (n : ℕ)
  | readChunk (max : ℕ)
  deriving DecidableEq

/-- The reply to a call: the number of bytes written, the bytes read, or nothing. -/
inductive BufferReply where
  | written (count : ℕ)
  | bytes (data : List UInt8)
  | consumed
  deriving DecidableEq

/-! ### The queue of bytes -/

/-- What a queue of at most `capacity` bytes does on a call, and its reply. A write appends the
longest prefix that fits. -/
def queueStep (capacity : ℕ) (queue : List UInt8) : BufferCall → List UInt8 × BufferReply
  | .write data =>
    (queue ++ data.take (capacity - queue.length),
      .written (data.take (capacity - queue.length)).length)
  | .peek max => (queue, .bytes (queue.take max))
  | .consume n => (queue.drop n, .consumed)
  | .readChunk max => (queue.drop max, .bytes (queue.take max))

/-- The queue after a list of calls. -/
def queueAfter (capacity : ℕ) (queue : List UInt8) (calls : List BufferCall) : List UInt8 :=
  calls.foldl (fun queue call ↦ (queueStep capacity queue call).1) queue

/-- The replies of a queue to a list of calls. -/
def queueReplies (capacity : ℕ) : List UInt8 → List BufferCall → List BufferReply
  | _, [] => []
  | queue, call :: calls =>
    (queueStep capacity queue call).2 ::
      queueReplies capacity (queueStep capacity queue call).1 calls

/-- A queue stays within its capacity. Assumes: the queue is within the capacity. -/
theorem length_queueStep_le {capacity : ℕ} {queue : List UInt8} (hlength : queue.length ≤ capacity)
    (call : BufferCall) : (queueStep capacity queue call).1.length ≤ capacity := by
  cases call with
  | write data =>
    show (queue ++ data.take (capacity - queue.length)).length ≤ capacity
    rw [List.length_append, List.length_take]
    omega
  | peek max => exact hlength
  | consume n => exact (List.drop_sublist n queue).length_le.trans hlength
  | readChunk max => exact (List.drop_sublist max queue).length_le.trans hlength

theorem length_queueAfter_le {capacity : ℕ} {queue : List UInt8} (hlength : queue.length ≤ capacity)
    (calls : List BufferCall) : (queueAfter capacity queue calls).length ≤ capacity := by
  induction calls generalizing queue with
  | nil => exact hlength
  | cons call calls ih => exact ih (length_queueStep_le hlength call)

/-! ### The buffer -/

/-- A ring buffer with its store. -/
structure BackedRing where
  buf : List UInt8
  capacity : ℕ
  head : ℕ
  tail : ℕ
  len : ℕ
  deriving DecidableEq

/-- Bring a byte string to a size: cut it off or fill it up with a byte. -/
def resize (buf : List UInt8) (size : ℕ) (byte : UInt8) : List UInt8 :=
  buf.take size ++ List.replicate (size - buf.length) byte

/-- Store a byte. -/
def storeByte (buf : List UInt8) (index : ℕ) (byte : UInt8) : Option (List UInt8) :=
  if index < buf.length then some (buf.set index byte) else none

namespace BackedRing

/-- An empty buffer. The store is allocated, but it has no bytes yet. -/
def new (capacity : ℕ) : Option BackedRing :=
  if capacity ≤ isizeMax then some ⟨[], capacity, 0, 0, 0⟩ else none

/-- The index of an offset from a position. -/
def index (ring : BackedRing) (position offset : ℕ) : Option ℕ := do
  let sum ← checkedAdd 64 position offset
  if ring.capacity = 0 then none else some (sum % ring.capacity)

/-- Write data into the buffer, as much as fits. The second component is the number of bytes
written. -/
def write (ring : BackedRing) (data : List UInt8) : Option (BackedRing × ℕ) := do
  let room ← checkedSub ring.capacity ring.len
  let toWrite := min data.length room
  let buf ← ((data.take toWrite).zipIdx).foldlM
    (fun buf entry ↦ do
      let idx ← ring.index ring.tail entry.2
      storeByte buf idx entry.1)
    (resize ring.buf ring.capacity 0)
  let tail ← ring.index ring.tail toWrite
  let len ← checkedAdd 64 ring.len toWrite
  return ({ ring with buf := buf, tail := tail, len := len }, toWrite)

/-- Read bytes without consuming them. -/
def peek (ring : BackedRing) (max : ℕ) : Option (List UInt8) :=
  (List.range (min max ring.len)).mapM fun i ↦ do
    let idx ← ring.index ring.head i
    ring.buf[idx]?

/-- Consume bytes from the front of the buffer. -/
def consume (ring : BackedRing) (n : ℕ) : Option BackedRing := do
  let consumed := min n ring.len
  let head ← ring.index ring.head consumed
  let len ← checkedSub ring.len consumed
  return { ring with head := head, len := len }

/-- Take bytes from the front of the buffer. -/
def readChunk (ring : BackedRing) (max : ℕ) : Option (BackedRing × List UInt8) := do
  let data ← ring.peek max
  let ring ← ring.consume data.length
  return (ring, data)

/-- The buffer after a call, with the reply. -/
def serve (ring : BackedRing) : BufferCall → Option (BackedRing × BufferReply)
  | .write data => (ring.write data).map fun result ↦ (result.1, .written result.2)
  | .peek max => (ring.peek max).map fun data ↦ (ring, .bytes data)
  | .consume n => (ring.consume n).map fun ring ↦ (ring, .consumed)
  | .readChunk max => (ring.readChunk max).map fun result ↦ (result.1, .bytes result.2)

/-- The replies to a list of calls, when none of them fails. -/
def replies : BackedRing → List BufferCall → Option (List BufferReply)
  | _, [] => some []
  | ring, call :: calls => do
    let (ring, reply) ← ring.serve call
    let later ← replies ring calls
    return reply :: later

/-! ### The relation to the ring buffer -/

variable {capacity : ℕ} [NeZero capacity]

/-- A buffer with its store is a ring buffer: the counters are the same, and so is the store, unless
nothing was written yet. -/
structure Backs (backed : BackedRing) (ring : RingBuffer capacity) : Prop where
  capacity_eq : backed.capacity = capacity
  capacity_le : capacity ≤ isizeMax
  head_eq : backed.head = ring.head
  head_lt : backed.head < capacity
  tail_eq : backed.tail = ring.tail
  len_eq : backed.len = ring.len
  length_buf : backed.buf.length = capacity ∨ backed.buf = [] ∧ backed.len = 0
  resize_buf : resize backed.buf capacity 0 = ring.buf.toList

/-- A new buffer is a new ring buffer. Assumes: the store can be allocated. -/
theorem backs_new {backed : BackedRing} (hnew : new capacity = some backed) :
    Backs backed (RingBuffer.new capacity) := by
  unfold new at hnew
  split_ifs at hnew with hfits
  obtain rfl := Option.some.inj hnew
  exact
    { capacity_eq := rfl
      capacity_le := hfits
      head_eq := rfl
      head_lt := Nat.pos_of_neZero capacity
      tail_eq := rfl
      len_eq := rfl
      length_buf := .inr ⟨rfl, rfl⟩
      resize_buf := by
        show [].take capacity ++ List.replicate (capacity - 0) 0 =
          (Vector.replicate capacity 0).toList
        rw [List.take_nil, List.nil_append, Nat.sub_zero, Vector.toList_replicate] }

/-- The index of an offset of at most the capacity does not overflow. Assumes: the position is an
index, and the capacity can be allocated. -/
theorem index_eq {backed : BackedRing} (hcapacity : backed.capacity = capacity)
    (hle : capacity ≤ isizeMax) {position offset : ℕ} (hposition : position < capacity)
    (hoffset : offset ≤ capacity) :
    backed.index position offset = some ((position + offset) % capacity) := by
  have hsum : position + offset < 2 ^ 64 := by
    unfold isizeMax at hle
    omega
  have hpositive : capacity ≠ 0 := NeZero.ne capacity
  unfold index checkedAdd
  rw [if_pos hsum, Option.bind_eq_bind, Option.bind_some, hcapacity, if_neg hpositive]

omit [NeZero capacity] in
/-- A store of the full size is not resized. Assumes: the store has the size. -/
theorem resize_eq_self {buf : List UInt8} (hlength : buf.length = capacity) :
    resize buf capacity 0 = buf := by
  unfold resize
  rw [hlength, Nat.sub_self, List.replicate_zero, List.append_nil, ← hlength, List.take_length]

/-- The loop of a write stores the bytes from a position on, and no index is out of range. Assumes:
the bytes from the offset on fit the capacity. -/
theorem foldlM_storeByte {backed : BackedRing} (hcapacity : backed.capacity = capacity)
    (hle : capacity ≤ isizeMax) {position : ℕ} (hposition : position < capacity)
    (bytes : List UInt8) {offset : ℕ} (hfits : offset + bytes.length ≤ capacity)
    (cells : Vector UInt8 capacity) :
    (bytes.zipIdx offset).foldlM
        (fun buf entry ↦ do
          let idx ← backed.index position entry.2
          storeByte buf idx entry.1) cells.toList =
      some (store cells (position + offset) bytes).toList := by
  induction bytes generalizing offset cells with
  | nil => rfl
  | cons byte bytes ih =>
    rw [List.length_cons] at hfits
    have hindex := @index_eq capacity _ backed hcapacity hle position offset hposition (by omega)
    have hrange : (position + offset) % capacity < cells.toList.length := by
      rw [Vector.length_toList]
      exact Nat.mod_lt _ (Nat.pos_of_neZero capacity)
    have hset : cells.toList.set ((position + offset) % capacity) byte =
        (cells.set (Circular.index (position + offset) : Fin capacity) byte).toList :=
      (Vector.toList_set ..).symm
    have hfirst : (backed.index position offset).bind
        (fun idx ↦ storeByte cells.toList idx byte) =
          some (cells.set (Circular.index (position + offset) : Fin capacity) byte).toList := by
      rw [hindex, Option.bind_some, storeByte, if_pos hrange, hset]
    rw [List.zipIdx_cons, List.foldlM_cons]
    show Option.bind (Option.bind _ _) _ = _
    rw [hfirst, Option.bind_some, ih (by omega)]
    rfl

/-- A buffer that holds bytes has its full store. Assumes: the store backs the ring buffer, and
holds bytes. -/
theorem Backs.buf_eq {backed : BackedRing} {ring : RingBuffer capacity} (hbacks : Backs backed ring)
    (hlen : backed.len ≠ 0) : backed.buf = ring.buf.toList := by
  rcases hbacks.length_buf with hfull | ⟨-, hempty⟩
  · rw [← hbacks.resize_buf, resize_eq_self hfull]
  · exact absurd hempty hlen

/-- The tail of a ring buffer is an index. -/
theorem tail_lt (ring : RingBuffer capacity) : ring.tail < capacity := by
  rw [ring.tail_eq]
  exact Nat.mod_lt _ (Nat.pos_of_neZero capacity)

/-- A write succeeds and keeps the relation. Assumes: the store backs the ring buffer. -/
theorem Backs.write {backed : BackedRing} {ring : RingBuffer capacity} (hbacks : Backs backed ring)
    (data : List UInt8) :
    ∃ next, backed.write data = some (next, (ring.write data).2) ∧
      Backs next (ring.write data).1 := by
  have hcapacity := hbacks.capacity_eq
  have hle := hbacks.capacity_le
  have hheld := ring.len_le
  set toWrite := min data.length (capacity - ring.len) with htoWrite
  have hroom : checkedSub backed.capacity backed.len = some (capacity - ring.len) := by
    rw [checkedSub, hcapacity, hbacks.len_eq, if_pos hheld]
  have hloop : ((data.take toWrite).zipIdx).foldlM
      (fun buf entry ↦ do
        let idx ← backed.index backed.tail entry.2
        storeByte buf idx entry.1) (resize backed.buf backed.capacity 0) =
      some (store ring.buf ring.tail (data.take toWrite)).toList := by
    rw [hcapacity, hbacks.resize_buf, hbacks.tail_eq]
    refine foldlM_storeByte hcapacity hle (tail_lt ring) (data.take toWrite) ?_ ring.buf
    rw [List.length_take]
    omega
  have htail : backed.index backed.tail toWrite = some ((ring.tail + toWrite) % capacity) := by
    rw [hbacks.tail_eq]
    exact index_eq hcapacity hle (tail_lt ring) (by omega)
  have hlen : checkedAdd 64 backed.len toWrite = some (ring.len + toWrite) := by
    rw [hbacks.len_eq]
    refine if_pos ?_
    unfold isizeMax at hle
    omega
  refine ⟨{ backed with
    buf := (store ring.buf ring.tail (data.take toWrite)).toList
    tail := (ring.tail + toWrite) % capacity
    len := ring.len + toWrite }, ?_, ?_⟩
  · refine Option.bind_eq_some_iff.mpr ⟨_, hroom, ?_⟩
    refine Option.bind_eq_some_iff.mpr ⟨_, hloop, ?_⟩
    refine Option.bind_eq_some_iff.mpr ⟨_, htail, ?_⟩
    exact Option.bind_eq_some_iff.mpr ⟨_, hlen, rfl⟩
  · exact
      { capacity_eq := hcapacity
        capacity_le := hle
        head_eq := hbacks.head_eq
        head_lt := hbacks.head_lt
        tail_eq := rfl
        len_eq := rfl
        length_buf := .inl Vector.length_toList
        resize_buf := resize_eq_self Vector.length_toList }

/-- A peek succeeds and reads the same. Assumes: the store backs the ring buffer. -/
theorem Backs.peek {backed : BackedRing} {ring : RingBuffer capacity} (hbacks : Backs backed ring)
    (max : ℕ) : backed.peek max = some (ring.peek max) := by
  have hheld := ring.len_le
  unfold BackedRing.peek
  rw [hbacks.len_eq]
  refine (@mapM_eq_some_iff _ _ _ (fun _ ↦ True)
    (fun i ↦ ring.buf.get (Circular.index (ring.head + i))) _ (fun i hi byte ↦ ?_) _).mpr
      ⟨fun _ _ ↦ trivial, rfl⟩
  have hless : i < min max ring.len := List.mem_range.mp hi
  have hindex := index_eq hbacks.capacity_eq hbacks.capacity_le hbacks.head_lt
    (show i ≤ capacity by omega)
  have hbuf := hbacks.buf_eq (by rw [hbacks.len_eq]; omega)
  have hread : ring.buf.toList[(ring.head + i) % capacity]? =
      some (ring.buf.get (Circular.index (ring.head + i))) := by
    rw [Vector.getElem?_toList]
    exact Vector.getElem?_eq_getElem _
  show (backed.index backed.head i).bind (fun idx ↦ backed.buf[idx]?) = some byte ↔ _
  rw [hindex, Option.bind_some, hbuf, hbacks.head_eq, hread, Option.some.injEq, true_and, eq_comm]

/-- Consuming succeeds and keeps the relation. Assumes: the store backs the ring buffer. -/
theorem Backs.consume {backed : BackedRing} {ring : RingBuffer capacity}
    (hbacks : Backs backed ring) (n : ℕ) :
    ∃ next, backed.consume n = some next ∧ Backs next (ring.consume n) := by
  have hheld := ring.len_le
  set consumed := min n ring.len with hconsumed
  have hhead : backed.index backed.head (min n backed.len) =
      some ((ring.head + consumed) % capacity) := by
    rw [hbacks.len_eq, ← hbacks.head_eq]
    exact index_eq hbacks.capacity_eq hbacks.capacity_le hbacks.head_lt (by omega)
  have hlen : checkedSub backed.len (min n backed.len) = some (ring.len - consumed) := by
    rw [hbacks.len_eq]
    exact if_pos (Nat.min_le_right _ _)
  refine ⟨{ backed with
    head := (ring.head + consumed) % capacity
    len := ring.len - consumed }, ?_, ?_⟩
  · refine Option.bind_eq_some_iff.mpr ⟨_, hhead, ?_⟩
    exact Option.bind_eq_some_iff.mpr ⟨_, hlen, rfl⟩
  · exact
      { capacity_eq := hbacks.capacity_eq
        capacity_le := hbacks.capacity_le
        head_eq := rfl
        head_lt := Nat.mod_lt _ (Nat.pos_of_neZero capacity)
        tail_eq := hbacks.tail_eq
        len_eq := rfl
        length_buf := by
          rcases hbacks.length_buf with hfull | ⟨hunwritten, hempty⟩
          · exact .inl hfull
          · rw [hbacks.len_eq] at hempty
            refine .inr ⟨hunwritten, ?_⟩
            show ring.len - consumed = 0
            omega
        resize_buf := hbacks.resize_buf }

/-- Taking a chunk succeeds and keeps the relation. Assumes: the store backs the ring buffer. -/
theorem Backs.readChunk {backed : BackedRing} {ring : RingBuffer capacity}
    (hbacks : Backs backed ring) (max : ℕ) :
    ∃ next, backed.readChunk max = some (next, (ring.readChunk max).2) ∧
      Backs next (ring.readChunk max).1 := by
  obtain ⟨next, hconsume, hnext⟩ := hbacks.consume (ring.peek max).length
  refine ⟨next, ?_, hnext⟩
  refine Option.bind_eq_some_iff.mpr ⟨_, hbacks.peek max, ?_⟩
  exact Option.bind_eq_some_iff.mpr ⟨_, hconsume, rfl⟩

/-! ### The buffer is the queue -/

/-- Every call is answered as a queue answers it, and leaves the buffer with what the queue holds
then. Assumes: the store backs the ring buffer. -/
theorem Backs.serve {backed : BackedRing} {ring : RingBuffer capacity} (hbacks : Backs backed ring)
    (call : BufferCall) :
    ∃ (next : BackedRing) (nextRing : RingBuffer capacity),
      backed.serve call = some (next, (queueStep capacity ring.contents call).2) ∧
        Backs next nextRing ∧ nextRing.contents = (queueStep capacity ring.contents call).1 := by
  cases call with
  | write data =>
    obtain ⟨next, hwrite, hnext⟩ := hbacks.write data
    refine ⟨next, (ring.write data).1, ?_, hnext, ?_⟩
    · refine Option.map_eq_some_iff.mpr ⟨_, hwrite, ?_⟩
      show (next, BufferReply.written (ring.write data).2) =
        (next, BufferReply.written (data.take (capacity - ring.contents.length)).length)
      rw [RingBuffer.snd_write, RingBuffer.length_contents, List.length_take, Nat.min_comm]
    · rw [RingBuffer.contents_write, queueStep, RingBuffer.length_contents]
  | peek max =>
    refine ⟨backed, ring, Option.map_eq_some_iff.mpr ⟨_, hbacks.peek max, ?_⟩, hbacks, rfl⟩
    rw [RingBuffer.peek_eq]
    rfl
  | consume n =>
    obtain ⟨next, hconsume, hnext⟩ := hbacks.consume n
    exact ⟨next, ring.consume n, Option.map_eq_some_iff.mpr ⟨_, hconsume, rfl⟩, hnext,
      ring.contents_consume n⟩
  | readChunk max =>
    obtain ⟨next, hchunk, hnext⟩ := hbacks.readChunk max
    obtain ⟨hdata, hrest⟩ := ring.readChunk_eq max
    refine ⟨next, (ring.readChunk max).1, Option.map_eq_some_iff.mpr ⟨_, hchunk, ?_⟩, hnext, hrest⟩
    rw [hdata]
    rfl

/-- Every list of calls is answered as a queue answers it. Assumes: the store backs the ring buffer.
-/
theorem Backs.replies {backed : BackedRing} {ring : RingBuffer capacity}
    (hbacks : Backs backed ring) (calls : List BufferCall) :
    backed.replies calls = some (queueReplies capacity ring.contents calls) := by
  induction calls generalizing backed ring with
  | nil => rfl
  | cons call calls ih =>
    obtain ⟨next, nextRing, hserve, hnext, hcontents⟩ := hbacks.serve call
    refine Option.bind_eq_some_iff.mpr ⟨_, hserve, ?_⟩
    refine Option.bind_eq_some_iff.mpr ⟨_, ih hnext, ?_⟩
    rw [hcontents]
    rfl

end BackedRing

open BackedRing in
/-- A new buffer answers every list of calls as an empty queue does, without an index out of range,
and the queue never holds more than the capacity. Assumes: the capacity is positive, and the store
can be allocated. -/
theorem replies_eq_queueReplies {capacity : ℕ} (hpositive : 1 ≤ capacity) {backed : BackedRing}
    (hnew : BackedRing.new capacity = some backed) (calls : List BufferCall) :
    backed.replies calls = some (queueReplies capacity [] calls) ∧
      (queueAfter capacity [] calls).length ≤ capacity := by
  have : NeZero capacity := ⟨Nat.one_le_iff_ne_zero.mp hpositive⟩
  have hreplies := (backs_new hnew).replies calls
  rw [RingBuffer.contents_new] at hreplies
  exact ⟨hreplies, length_queueAfter_le (Nat.zero_le capacity) calls⟩

/-- Eight bytes of which the last three wrap around. -/
theorem replies_eq_queueReplies_wraps : ∃ backed, BackedRing.new 5 = some backed ∧
    backed.replies [.peek 3, .write [1, 2, 3, 4], .readChunk 3, .write [5, 6, 7, 8, 9], .consume 1,
      .readChunk 9] =
      some [.bytes [], .written 4, .bytes [1, 2, 3], .written 4, .consumed, .bytes [5, 6, 7, 8]] :=
  ⟨_, rfl, (@replies_eq_queueReplies 5 (by decide) _ rfl _).1⟩

end Fluidic.Network
