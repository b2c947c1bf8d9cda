import Fluidic.Library.CircularBuffer

/-!
# The ingress ring buffer

`RingBuffer` of `src/network/buffer.rs`. The capacity is positive: the source divides by it. The
invariant that ties the three counters together is part of the type. The source grows the backing
store on the first write, and until then nothing is read from it; here it has its size from the
start.

`contents` are the bytes in the buffer, in order. Each operation is described by what it does to
them: the buffer is a queue of bytes that takes what fits (`contents_write`).
-/

set_option autoImplicit false
set_option relaxedAutoImplicit false

namespace Fluidic.Network

open Library Library.Circular

/-- A fixed-capacity ring buffer. -/
structure RingBuffer (capacity : ℕ) [NeZero capacity] where
  buf : Vector UInt8 capacity
  head : ℕ
  tail : ℕ
  len : ℕ
  len_le : len ≤ capacity
  tail_eq : tail = (head + len) % capacity

namespace RingBuffer

variable {capacity : ℕ} [NeZero capacity]

/-- An empty ring buffer. -/
def new (capacity : ℕ) [NeZero capacity] : RingBuffer capacity where
  buf := Vector.replicate capacity 0
  head := 0
  tail := 0
  len := 0
  len_le := Nat.zero_le capacity
  tail_eq := (Nat.zero_mod capacity).symm

/-- Whether the buffer holds nothing. -/
def isEmpty (ring : RingBuffer capacity) : Bool := ring.len == 0

/-- Writes data into the buffer, as much as fits, and returns the number of bytes written. -/
def write (ring : RingBuffer capacity) (data : List UInt8) : RingBuffer capacity × ℕ :=
  let toWrite := min data.length (capacity - ring.len)
  ({ buf := store ring.buf ring.tail (data.take toWrite)
     head := ring.head
     tail := (ring.tail + toWrite) % capacity
     len := ring.len + toWrite
     len_le := by
       have hlen := ring.len_le
       omega
     tail_eq := by rw [ring.tail_eq, Nat.mod_add_mod, Nat.add_assoc] }, toWrite)

/-- Reads bytes without consuming them. -/
def peek (ring : RingBuffer capacity) (max : ℕ) : List UInt8 :=
  window ring.buf ring.head (min max ring.len)

/-- Consumes bytes from the front of the buffer. -/
def consume (ring : RingBuffer capacity) (n : ℕ) : RingBuffer capacity :=
  let consumed := min n ring.len
  { ring with
    head := (ring.head + consumed) % capacity
    len := ring.len - consumed
    len_le := (Nat.sub_le _ _).trans ring.len_le
    tail_eq := by
      rw [ring.tail_eq, Nat.mod_add_mod]
      congr 1
      omega }

/-- Takes bytes from the front of the buffer. -/
def readChunk (ring : RingBuffer capacity) (max : ℕ) : RingBuffer capacity × List UInt8 :=
  let data := ring.peek max
  (ring.consume data.length, data)

/-! ### The queue of bytes -/

/-- The bytes in the buffer, in order. -/
def contents (ring : RingBuffer capacity) : List UInt8 := window ring.buf ring.head ring.len

@[simp] theorem length_contents (ring : RingBuffer capacity) : ring.contents.length = ring.len :=
  length_window _ _ _

@[simp] theorem contents_new : (new capacity).contents = [] := rfl

/-- A write appends what fits. -/
theorem contents_write (ring : RingBuffer capacity) (data : List UInt8) :
    (ring.write data).1.contents = ring.contents ++ data.take (capacity - ring.len) := by
  have hlen := ring.len_le
  have hfits : ring.len + (data.take (capacity - ring.len)).length ≤ capacity := by
    rw [List.length_take]
    omega
  have htake : data.take (min data.length (capacity - ring.len)) =
      data.take (capacity - ring.len) := by
    rw [Nat.min_comm, ← List.take_eq_take_min]
  have hcount : ring.len + min data.length (capacity - ring.len) =
      ring.len + (data.take (capacity - ring.len)).length := by
    rw [List.length_take, Nat.min_comm]
  have htail : ring.tail % capacity = (ring.head + ring.len) % capacity := by
    rw [ring.tail_eq, Nat.mod_mod]
  show window (store ring.buf ring.tail _) ring.head (ring.len + _) = _
  rw [hcount, htake, store_congr ring.buf _ htail, window_add, window_store_of_le hfits,
    window_store (le_trans (Nat.le_add_left _ _) hfits)]
  rfl

/-- A write returns how much fitted. -/
theorem snd_write (ring : RingBuffer capacity) (data : List UInt8) :
    (ring.write data).2 = min data.length (capacity - ring.len) := rfl

/-- Peeking reads the front of the contents. -/
theorem peek_eq (ring : RingBuffer capacity) (max : ℕ) :
    ring.peek max = ring.contents.take max := by
  rw [List.take_eq_take_min, length_contents]
  exact (window_take _ _ (Nat.min_le_right _ _)).symm

/-- Dropping more than the contents drops the contents. -/
theorem drop_contents (ring : RingBuffer capacity) (n : ℕ) :
    ring.contents.drop (min n ring.len) = ring.contents.drop n := by
  obtain hle | hlt := Nat.le_total n ring.len
  · rw [Nat.min_eq_left hle]
  · rw [Nat.min_eq_right hlt, List.drop_of_length_le (by rw [length_contents]),
      List.drop_of_length_le (by rwa [length_contents])]

/-- Consuming drops the front of the contents. -/
theorem contents_consume (ring : RingBuffer capacity) (n : ℕ) :
    (ring.consume n).contents = ring.contents.drop n := by
  rw [← drop_contents]
  unfold contents
  rw [window_drop _ _ (Nat.min_le_right _ _)]
  exact window_congr _ _ (Nat.mod_mod _ _)

/-- A chunk is the front of the contents, and the rest stays. -/
theorem readChunk_eq (ring : RingBuffer capacity) (max : ℕ) :
    (ring.readChunk max).2 = ring.contents.take max ∧
      (ring.readChunk max).1.contents = ring.contents.drop max := by
  refine ⟨ring.peek_eq max, ?_⟩
  show (ring.consume (ring.peek max).length).contents = _
  rw [contents_consume, peek_eq, List.length_take, length_contents, drop_contents]

end RingBuffer

end Fluidic.Network
