import Mathlib.Data.List.Basic

/-!
# Reading a stream that arrives in chunks

A reader keeps a buffer and appends to it what each read yields. The reads that have been answered
are a list: a read that yields nothing says that the stream is at its end, and where the list ends
the reader is still waiting. `readUntil` reads until the buffer holds a number of elements.

The two rules say that only the concatenation of the chunks matters: `readUntil_of_le` when the
chunks hold enough, `readUntil_of_lt` when they do not.
-/

set_option autoImplicit false
set_option relaxedAutoImplicit false

namespace Fluidic.Library

variable {α : Type}

/-- How a sequence of reads ends. -/
inductive ReadOutcome (α : Type)
  | filled (buffer : List α) (reads : List (List α))
  | ended (buffer : List α)
  | awaiting (buffer : List α)

/-- Reads until the buffer holds a number of elements. -/
def readUntil (needed : ℕ) (buffer : List α) : List (List α) → ReadOutcome α
  | [] => if buffer.length < needed then .awaiting buffer else .filled buffer []
  | chunk :: reads =>
    if buffer.length < needed then
      if chunk.isEmpty then .ended buffer else readUntil needed (buffer ++ chunk) reads
    else .filled buffer (chunk :: reads)

/-- Every chunk holds an element. -/
def AllNonempty (chunks : List (List α)) : Prop := ∀ chunk ∈ chunks, chunk ≠ []

instance [DecidableEq α] (chunks : List (List α)) : Decidable (AllNonempty chunks) :=
  inferInstanceAs (Decidable (∀ chunk ∈ chunks, chunk ≠ []))

/-- Nonempty chunks of nothing are no chunks. Assumes: the chunks are nonempty and hold nothing. -/
theorem AllNonempty.eq_nil {chunks : List (List α)} (hchunks : AllNonempty chunks)
    (hflatten : chunks.flatten = []) : chunks = [] :=
  List.eq_nil_iff_forall_not_mem.mpr fun chunk hchunk ↦
    hchunks chunk hchunk (List.flatten_eq_nil_iff.mp hflatten chunk hchunk)

/-- A buffer that holds enough is returned without a read. Assumes: the buffer holds enough. -/
theorem readUntil_of_length {needed : ℕ} {buffer : List α} (reads : List (List α))
    (henough : needed ≤ buffer.length) : readUntil needed buffer reads = .filled buffer reads := by
  cases reads with
  | nil => simp only [readUntil, if_neg (Nat.not_lt.mpr henough)]
  | cons chunk reads => simp only [readUntil, if_neg (Nat.not_lt.mpr henough)]

/-- A chunk is appended to a buffer that holds too little. Assumes: the buffer holds too little, and
the chunk is nonempty. -/
theorem readUntil_cons {needed : ℕ} {buffer chunk : List α} (reads : List (List α))
    (hshort : buffer.length < needed) (hchunk : chunk ≠ []) :
    readUntil needed buffer (chunk :: reads) = readUntil needed (buffer ++ chunk) reads := by
  have hempty : chunk.isEmpty = false := List.isEmpty_eq_false_iff.mpr hchunk
  simp only [readUntil, if_pos hshort, hempty, Bool.false_eq_true, if_false]

/-- Chunks that hold enough fill the buffer, and what is in the buffer and not yet read is what it
was. Assumes: the chunks are nonempty, and buffer and chunks hold enough. -/
theorem readUntil_of_le {needed : ℕ} {buffer : List α} {chunks : List (List α)}
    (later : List (List α)) (hchunks : AllNonempty chunks)
    (henough : needed ≤ (buffer ++ chunks.flatten).length) :
    ∃ (filled : List α) (rest : List (List α)),
      readUntil needed buffer (chunks ++ later) = .filled filled (rest ++ later) ∧
        AllNonempty rest ∧ needed ≤ filled.length ∧
        filled ++ rest.flatten = buffer ++ chunks.flatten := by
  induction chunks generalizing buffer with
  | nil =>
    rw [List.flatten_nil, List.append_nil] at henough
    exact ⟨buffer, [], readUntil_of_length _ henough, hchunks, henough, rfl⟩
  | cons chunk chunks ih =>
    by_cases hshort : buffer.length < needed
    · have hchunk := hchunks chunk List.mem_cons_self
      have hrest : AllNonempty chunks := fun other hother ↦
        hchunks other (List.mem_cons_of_mem _ hother)
      rw [List.flatten_cons, ← List.append_assoc] at henough
      obtain ⟨filled, rest, hread, hnonempty, hlength, hsame⟩ := ih hrest henough
      refine ⟨filled, rest, ?_, hnonempty, hlength, ?_⟩
      · rw [List.cons_append, readUntil_cons _ hshort hchunk, hread]
      · rw [hsame, List.flatten_cons, List.append_assoc]
    · have hlength := Nat.not_lt.mp hshort
      exact ⟨buffer, chunk :: chunks, readUntil_of_length _ hlength, hchunks, hlength, rfl⟩

/-- Chunks that hold too little are all appended to the buffer. Assumes: the chunks are nonempty,
and buffer and chunks hold too little. -/
theorem readUntil_of_lt {needed : ℕ} {buffer : List α} {chunks : List (List α)}
    (later : List (List α)) (hchunks : AllNonempty chunks)
    (hshort : (buffer ++ chunks.flatten).length < needed) :
    readUntil needed buffer (chunks ++ later) =
      readUntil needed (buffer ++ chunks.flatten) later := by
  induction chunks generalizing buffer with
  | nil => rw [List.flatten_nil, List.append_nil, List.nil_append]
  | cons chunk chunks ih =>
    rw [List.flatten_cons, ← List.append_assoc] at hshort ⊢
    have hbuffer : buffer.length < needed := by
      rw [List.length_append, List.length_append] at hshort
      omega
    rw [List.cons_append, readUntil_cons _ hbuffer (hchunks chunk List.mem_cons_self)]
    exact ih (fun other hother ↦ hchunks other (List.mem_cons_of_mem _ hother)) hshort

/-- A filled buffer holds enough, the reads that were made come first, and nothing was lost or
added. Assumes: the reads filled the buffer. -/
theorem spec_of_readUntil {needed : ℕ} {buffer filled : List α} {reads rest : List (List α)}
    (hread : readUntil needed buffer reads = .filled filled rest) :
    needed ≤ filled.length ∧ filled ++ rest.flatten = buffer ++ reads.flatten ∧ rest <:+ reads := by
  induction reads generalizing buffer with
  | nil =>
    simp only [readUntil] at hread
    split at hread
    next => cases hread
    next hlength =>
      cases hread
      exact ⟨Nat.not_lt.mp hlength, rfl, List.suffix_rfl⟩
  | cons chunk reads ih =>
    simp only [readUntil] at hread
    split at hread
    next =>
      split at hread
      next => cases hread
      next =>
        obtain ⟨hlength, hsame, hsuffix⟩ := ih hread
        refine ⟨hlength, ?_, hsuffix.trans (List.suffix_cons _ _)⟩
        rw [hsame, List.flatten_cons, List.append_assoc]
    next hlength =>
      cases hread
      exact ⟨Nat.not_lt.mp hlength, rfl, List.suffix_rfl⟩

/-- A list that starts two concatenations is split off both. Assumes: the two are the same, and the
list is within the first part of one of them. -/
theorem split_of_append {first second front back : List α} (hlength : front.length ≤ first.length)
    (hsame : first ++ second = front ++ back) :
    first.take front.length = front ∧ first.drop front.length ++ second = back := by
  constructor
  · have htake := congrArg (List.take front.length) hsame
    rwa [List.take_append_of_le_length hlength, List.take_left' rfl] at htake
  · have hdrop := congrArg (List.drop front.length) hsame
    rwa [List.drop_append_of_le_length hlength, List.drop_left' rfl] at hdrop

end Fluidic.Library
