import Fluidic.Crypto.PhaseShift

/-!
# What a stateful signature binds

The bytes that a stateful signature covers put the entries of the vector clock, of 40 bytes each,
and the predecessors, of 32 bytes each, one after the other without their numbers. Four entries are
as long as five predecessors. So the bytes of a shift with four or more entries are also those of a
shift that has five more predecessors in place of its last four entries, and the bytes of a shift
whose first five predecessors happen to spell four further entries are those of a shift that has
these entries instead. `binds_iff` shows that there is no other ambiguity.
-/

set_option autoImplicit false
set_option relaxedAutoImplicit false

namespace Fluidic.Crypto

open Library
open Std (ExtTreeMap TransOrd LawfulEqOrd OrientedOrd ReflCmp)

/-! ### Blocks -/

/-- The bytes of an entry of a vector clock. -/
def timeBytes (entry : OscillatorId × ℕ) : List UInt8 := entry.1.toBytes ++ leBytes 8 entry.2

@[simp] theorem length_timeBytes (entry : OscillatorId × ℕ) : (timeBytes entry).length = 40 := by
  unfold timeBytes
  rw [List.length_append, Bytes32.length_toBytes, length_leBytes]

/-- An entry of a clock is determined by its bytes. Assumes: the times are 64-bit numbers. -/
theorem timeBytes_inj {first second : OscillatorId × ℕ} (hfirst : first.2 < 2 ^ 64)
    (hsecond : second.2 < 2 ^ 64) (hbytes : timeBytes first = timeBytes second) :
    first = second := by
  obtain ⟨hnode, htime⟩ := List.append_inj hbytes (by simp)
  exact Prod.ext (Bytes32.toBytes_inj hnode) (leBytes_inj (by omega) (by omega) htime)

/-- Every block of 32 bytes is a 32-byte array. Assumes: the block has 32 bytes. -/
theorem Bytes32.exists_toBytes {block : List UInt8} (hblock : block.length = 32) :
    ∃ value : Bytes32, value.toBytes = block := by
  have hfits : beValue block < 2 ^ 256 := by
    have hlt := beValue_lt block
    rw [hblock] at hlt
    exact lt_of_lt_of_eq hlt (by norm_num)
  refine ⟨BitVec.ofNat 256 (beValue block), ?_⟩
  unfold Bytes32.toBytes
  rw [BitVec.toNat_ofNat, Nat.mod_eq_of_lt hfits, ← hblock, beBytes_beValue]

/-! ### The condition -/

namespace StatefulShift

/-- The numbers of a shift fit the fields they are stored in. -/
structure Fits (shift : StatefulShift) : Prop where
  amount : shift.amount < 2 ^ 128
  times : ∀ entry ∈ shift.vectorClock.times.toList, entry.2 < 2 ^ 64
  nonce : shift.nonce < 2 ^ 64
  timestampNs : shift.timestampNs < 2 ^ 64

/-- Two shifts order the same transfer: they agree in every signed field. -/
structure SameTransfer (first second : StatefulShift) : Prop where
  domain : first.domain = second.domain
  sender : first.sender = second.sender
  recipient : first.recipient = second.recipient
  amount : first.amount = second.amount
  vectorClock : first.vectorClock = second.vectorClock
  predecessors : first.predecessors = second.predecessors
  nonce : first.nonce = second.nonce
  timestampNs : first.timestampNs = second.timestampNs

/-- The keys of a list of clock entries rise, as those of a clock do. -/
def Ascending (entries : List (OscillatorId × ℕ)) : Prop :=
  entries.Pairwise fun earlier later ↦ compare earlier.1 later.1 = .lt

/-- The first five predecessors spell four entries that continue the clock. -/
def ContinuesClock (shift : StatefulShift) : Prop :=
  ∃ entries : List (OscillatorId × ℕ), entries.length = 4 ∧ (∀ entry ∈ entries, entry.2 < 2 ^ 64) ∧
    Ascending (shift.vectorClock.times.toList ++ entries) ∧
    entries.flatMap timeBytes = (shift.predecessors.take 5).flatMap Bytes32.toBytes

/-- The clock has fewer than four entries, and the predecessors do not continue it. -/
def Unambiguous (shift : StatefulShift) : Prop :=
  shift.vectorClock.times.toList.length < 4 ∧ ¬shift.ContinuesClock

/-! ### The parts of the signed bytes -/

/-- The bytes of the entries of the clock and of the predecessors. -/
def causalBytes (shift : StatefulShift) : List UInt8 :=
  shift.vectorClock.times.toList.flatMap timeBytes ++ shift.predecessors.flatMap Bytes32.toBytes

/-- The bytes before the clock have one length. -/
theorem length_header (shift : StatefulShift) :
    (asciiBytes "FLUIDIC:STATEFUL:v2" ++ shift.domain.toBytes ++ shift.sender.bytes.toBytes ++
      shift.recipient.bytes.toBytes ++ leBytes 16 shift.amount).length =
        (asciiBytes "FLUIDIC:STATEFUL:v2").length + 112 := by
  simp only [List.length_append, Bytes32.length_toBytes, length_leBytes]

theorem signingBytes_eq (shift : StatefulShift) :
    shift.signingBytes = asciiBytes "FLUIDIC:STATEFUL:v2" ++ shift.domain.toBytes ++
      shift.sender.bytes.toBytes ++ shift.recipient.bytes.toBytes ++ leBytes 16 shift.amount ++
        shift.causalBytes ++ leBytes 8 shift.nonce ++ leBytes 8 shift.timestampNs := by
  unfold signingBytes causalBytes
  rw [← List.append_assoc]
  rfl

/-- Shifts with the same signed bytes agree in every field of fixed length and in the bytes between
them. Assumes: the bytes are the same, and the numbers fit. -/
theorem fields_of_signingBytes {first second : StatefulShift} (hfirst : first.Fits)
    (hsecond : second.Fits) (hbytes : first.signingBytes = second.signingBytes) :
    first.domain = second.domain ∧ first.sender = second.sender ∧
      first.recipient = second.recipient ∧ first.amount = second.amount ∧
      first.causalBytes = second.causalBytes ∧ first.nonce = second.nonce ∧
      first.timestampNs = second.timestampNs := by
  rw [signingBytes_eq, signingBytes_eq] at hbytes
  obtain ⟨hbytes, htimestamp⟩ := List.append_inj' hbytes (by simp)
  obtain ⟨hbytes, hnonce⟩ := List.append_inj' hbytes (by simp)
  obtain ⟨hbytes, hcausal⟩ := List.append_inj hbytes (by rw [length_header, length_header])
  obtain ⟨hbytes, hamount⟩ := List.append_inj' hbytes (by simp)
  obtain ⟨hbytes, hrecipient⟩ := List.append_inj' hbytes (by simp)
  obtain ⟨hbytes, hsender⟩ := List.append_inj' hbytes (by simp)
  obtain ⟨-, hdomain⟩ := List.append_inj' hbytes (by simp)
  have hamounts := u128_eq_of_leBytes hfirst.amount hsecond.amount hamount
  have hnonces := u64_eq_of_leBytes hfirst.nonce hsecond.nonce hnonce
  have htimestamps := u64_eq_of_leBytes hfirst.timestampNs hsecond.timestampNs htimestamp
  refine ⟨Bytes32.toBytes_inj hdomain, ?_, ?_, hamounts, hcausal, hnonces, htimestamps⟩
  · exact congrArg AccountId.mk (Bytes32.toBytes_inj hsender)
  · exact congrArg AccountId.mk (Bytes32.toBytes_inj hrecipient)

/-- A shift with other clock entries and predecessors but the same bytes for them has the same
signed bytes. Assumes: the bytes are the same. -/
theorem signingBytes_of_causalBytes {shift : StatefulShift} {vectorClock : VectorClock}
    {predecessors : List TxHash}
    (hcausal : ({ shift with vectorClock, predecessors } : StatefulShift).causalBytes =
      shift.causalBytes) :
    ({ shift with vectorClock, predecessors } : StatefulShift).signingBytes =
      shift.signingBytes := by
  rw [signingBytes_eq, signingBytes_eq, hcausal]

/-! ### Reading the bytes in another way -/

/-- A clock with the given entries. Assumes: the keys of the entries rise. -/
theorem exists_clock {entries : List (OscillatorId × ℕ)} (hascending : Ascending entries) :
    ∃ clock : VectorClock, clock.times.toList = entries :=
  ⟨⟨ExtTreeMap.ofList entries⟩, toList_ofList_of_sorted hascending⟩

theorem ascending_clock (clock : VectorClock) : Ascending clock.times.toList :=
  ExtTreeMap.ordered_keys_toList

/-- A clock is determined by its entries. Assumes: the two clocks have the same entries. -/
theorem clock_eq_of_toList {first second : VectorClock}
    (hentries : first.times.toList = second.times.toList) : first = second := by
  obtain ⟨times⟩ := first
  exact congrArg VectorClock.mk (ExtTreeMap.toList_inj.mp hentries)

/-- The last four of four or more entries can be read as five predecessors. Assumes: there are as
many, and the numbers fit. -/
theorem exists_other_of_longClock {shift : StatefulShift} (hfits : shift.Fits)
    (hlong : 4 ≤ shift.vectorClock.times.toList.length) :
    ∃ other : StatefulShift, other.Fits ∧ other.signature = shift.signature ∧
      other.signingBytes = shift.signingBytes ∧ other.vectorClock ≠ shift.vectorClock := by
  set entries := shift.vectorClock.times.toList with hentries
  set kept := entries.take (entries.length - 4) with hkept
  set read := entries.drop (entries.length - 4) with hread
  have hsplit : kept ++ read = entries := List.take_append_drop _ _
  have hascending := ascending_clock shift.vectorClock
  rw [← hentries, ← hsplit] at hascending
  obtain ⟨vectorClock, hclock⟩ := exists_clock (List.pairwise_append.mp hascending).1
  have hblocks : (read.flatMap timeBytes).length = 5 * 32 := by
    rw [length_flatMap_of_length length_timeBytes, hread, List.length_drop]
    omega
  obtain ⟨hashes, -, hhashes⟩ := exists_flatMap_eq (fun _ ↦ Bytes32.exists_toBytes) hblocks
  refine ⟨{ shift with vectorClock, predecessors := hashes ++ shift.predecessors },
    ⟨hfits.amount, fun entry hentry ↦ ?_, hfits.nonce, hfits.timestampNs⟩, rfl,
    signingBytes_of_causalBytes ?_, fun hsame ↦ ?_⟩
  · refine hfits.times entry ?_
    rw [hclock] at hentry
    exact List.mem_of_mem_take hentry
  · unfold causalBytes
    dsimp only
    rw [hclock, List.flatMap_append, hhashes, ← List.append_assoc, ← List.flatMap_append, hsplit]
  · have hlength : kept.length = entries.length := by
      rw [← hclock, hentries]
      exact congrArg (fun clock : VectorClock ↦ clock.times.toList.length) hsame
    rw [hkept, List.length_take] at hlength
    omega

/-- The first five predecessors that continue the clock can be read as four entries. Assumes: the
predecessors continue the clock, and the numbers fit. -/
theorem exists_other_of_continuesClock {shift : StatefulShift} (hfits : shift.Fits)
    (hcontinues : shift.ContinuesClock) :
    ∃ other : StatefulShift, other.Fits ∧ other.signature = shift.signature ∧
      other.signingBytes = shift.signingBytes ∧ other.vectorClock ≠ shift.vectorClock := by
  obtain ⟨entries, hcount, hsmall, hascending, hspelled⟩ := hcontinues
  obtain ⟨vectorClock, hclock⟩ := exists_clock hascending
  refine ⟨{ shift with vectorClock, predecessors := shift.predecessors.drop 5 },
    ⟨hfits.amount, fun entry hentry ↦ ?_, hfits.nonce, hfits.timestampNs⟩, rfl,
    signingBytes_of_causalBytes ?_, fun hsame ↦ ?_⟩
  · rw [hclock, List.mem_append] at hentry
    rcases hentry with hold | hnew
    · exact hfits.times entry hold
    · exact hsmall entry hnew
  · unfold causalBytes
    dsimp only
    rw [hclock, List.flatMap_append, hspelled, List.append_assoc, ← List.flatMap_append,
      List.take_append_drop]
  · have hlength := congrArg (fun clock : VectorClock ↦ clock.times.toList.length) hsame
    dsimp only at hlength
    rw [hclock, List.length_append] at hlength
    omega

/-- A clock with more entries for the same bytes continues the other one. Assumes: the bytes are the
same, the second clock has more entries, and the numbers fit. -/
theorem continuesClock_of_longer {first second : StatefulShift} (hfirst : first.Fits)
    (hsecond : second.Fits) (hcausal : first.causalBytes = second.causalBytes)
    (hlonger : first.vectorClock.times.toList.length < second.vectorClock.times.toList.length) :
    first.ContinuesClock := by
  have hlengths := congrArg List.length hcausal
  unfold causalBytes at hlengths hcausal
  rw [List.length_append, List.length_append, length_flatMap_of_length length_timeBytes,
    length_flatMap_of_length length_timeBytes,
    length_flatMap_of_length Bytes32.length_toBytes,
    length_flatMap_of_length Bytes32.length_toBytes] at hlengths
  set short := first.vectorClock.times.toList with hshort
  set long := second.vectorClock.times.toList with hlong
  set rest := long.drop short.length with hrest
  have hsplit : long.take short.length ++ rest = long := List.take_append_drop _ _
  rw [← hsplit, List.flatMap_append, List.append_assoc] at hcausal
  obtain ⟨hclock, hpredecessors⟩ := List.append_inj hcausal (by
    rw [length_flatMap_of_length length_timeBytes, length_flatMap_of_length length_timeBytes,
      List.length_take]
    congr 1
    omega)
  have hsame : short = long.take short.length := by
    refine flatMap_inj (by decide) length_timeBytes (fun one hone other hother heq ↦ ?_) hclock
    exact timeBytes_inj (hfirst.times one hone)
      (hsecond.times other (List.mem_of_mem_take hother)) heq
  refine ⟨rest.take 4, ?_, fun entry hentry ↦ ?_, ?_, ?_⟩
  · rw [List.length_take, hrest, List.length_drop]
    omega
  · exact hsecond.times entry (List.mem_of_mem_drop (List.mem_of_mem_take hentry))
  · have hascending := ascending_clock second.vectorClock
    rw [← hlong, ← hsplit, ← hsame] at hascending
    exact hascending.sublist (List.Sublist.append_left (List.take_sublist 4 rest) short)
  · rw [← List.take_append_drop 4 rest, ← List.take_append_drop 5 first.predecessors,
      List.flatMap_append, List.flatMap_append, List.append_assoc] at hpredecessors
    refine ((List.append_inj hpredecessors ?_).1).symm
    rw [length_flatMap_of_length Bytes32.length_toBytes,
      length_flatMap_of_length length_timeBytes, List.length_take, List.length_take, hrest,
      List.length_drop]
    omega

/-- The signed bytes of a shift, or its hash preimage beside an equal signature, determine every
signed field exactly when the clock has fewer than four entries and the predecessors do not continue
it. Assumes: the numbers of the shift fit their fields. -/
theorem binds_iff {shift : StatefulShift} (hfits : shift.Fits) :
    (∀ other : StatefulShift, other.Fits →
      (shift.signingBytes = other.signingBytes → SameTransfer shift other) ∧
      (shift.signature = other.signature →
        shift.signingBytes ++ shift.signature = other.signingBytes ++ other.signature →
          SameTransfer shift other)) ↔ shift.Unambiguous := by
  constructor
  · intro hbinds
    refine ⟨Nat.lt_of_not_le fun hlong ↦ ?_, fun hcontinues ↦ ?_⟩
    · obtain ⟨other, hother, -, hbytes, hclock⟩ := exists_other_of_longClock hfits hlong
      exact hclock ((hbinds other hother).1 hbytes.symm).vectorClock.symm
    · obtain ⟨other, hother, -, hbytes, hclock⟩ := exists_other_of_continuesClock hfits hcontinues
      exact hclock ((hbinds other hother).1 hbytes.symm).vectorClock.symm
  · rintro ⟨hshort, hnot⟩ other hother
    have hbinds (hbytes : shift.signingBytes = other.signingBytes) : SameTransfer shift other := by
      obtain ⟨hdomain, hsender, hrecipient, hamount, hcausal, hnonce, htimestamp⟩ :=
        fields_of_signingBytes hfits hother hbytes
      have hlengths := congrArg List.length hcausal
      unfold causalBytes at hlengths hcausal
      rw [List.length_append, List.length_append, length_flatMap_of_length length_timeBytes,
        length_flatMap_of_length length_timeBytes,
        length_flatMap_of_length Bytes32.length_toBytes,
        length_flatMap_of_length Bytes32.length_toBytes] at hlengths
      have hnotLonger : ¬shift.vectorClock.times.toList.length <
          other.vectorClock.times.toList.length := fun hlonger ↦
        hnot (continuesClock_of_longer hfits hother hcausal hlonger)
      have hcount : shift.vectorClock.times.toList.length =
          other.vectorClock.times.toList.length := by
        omega
      obtain ⟨hclock, hpredecessors⟩ := List.append_inj hcausal (by
        rw [length_flatMap_of_length length_timeBytes, length_flatMap_of_length length_timeBytes,
          hcount])
      refine ⟨hdomain, hsender, hrecipient, hamount, clock_eq_of_toList ?_, ?_, hnonce, htimestamp⟩
      · exact flatMap_inj (by decide) length_timeBytes (fun one hone another hanother ↦
          timeBytes_inj (hfits.times one hone) (hother.times another hanother)) hclock
      · exact flatMap_inj (by decide) Bytes32.length_toBytes
          (fun one _ another _ ↦ Bytes32.toBytes_inj) hpredecessors
    refine ⟨hbinds, fun hsignature hpreimage ↦ hbinds ?_⟩
    rw [hsignature] at hpreimage
    exact List.append_cancel_right hpreimage

/-- A transfer with one clock entry and no predecessors. -/
def plainShift : StatefulShift := .sample 1 10 [(1, 1)] [] 1 0

/-- Its signature binds the transfer. -/
theorem binds_iff_plainShift :
    (∀ other : StatefulShift, other.Fits →
      (plainShift.signingBytes = other.signingBytes → SameTransfer plainShift other) ∧
      (plainShift.signature = other.signature →
        plainShift.signingBytes ++ plainShift.signature =
          other.signingBytes ++ other.signature → SameTransfer plainShift other)) ∧
    plainShift.Unambiguous := by
  have hfits : plainShift.Fits :=
    ⟨by decide +kernel, by decide +kernel, by decide +kernel, by decide +kernel⟩
  have hunambiguous : plainShift.Unambiguous := by
    refine ⟨by decide +kernel, ?_⟩
    rintro ⟨entries, hcount, -, -, hspelled⟩
    have hlength := congrArg List.length hspelled
    have hempty : plainShift.predecessors = [] := rfl
    rw [length_flatMap_of_length length_timeBytes, hcount, hempty] at hlength
    cases hlength
  exact ⟨(binds_iff hfits).mpr hunambiguous, hunambiguous⟩

/-- A transfer whose clock has four entries. -/
def longShift : StatefulShift := .sample 1 10 [(1, 1), (2, 1), (3, 1), (4, 1)] [] 1 0

/-- The same bytes read as a transfer without a clock and with five predecessors. -/
def respelledShift : StatefulShift :=
  { longShift with
    vectorClock := VectorClock.new
    predecessors := (List.range 5).map fun index ↦ BitVec.ofNat 256 (beValue
      ((longShift.causalBytes.drop (32 * index)).take 32)) }

/-- Two transfers with different clocks and predecessors have the same signed bytes and the same
hash, and the signature of one verifies for the other. -/
theorem respelledShift_same :
    longShift.Fits ∧ respelledShift.Fits ∧
    longShift.signingBytes = respelledShift.signingBytes ∧
    longShift.hash .sample = respelledShift.hash .sample ∧
    longShift.verifySignature .sample (KeyPair.publicKey .sample ⟨1⟩) = true ∧
    respelledShift.verifySignature .sample (KeyPair.publicKey .sample ⟨1⟩) = true ∧
    ¬SameTransfer longShift respelledShift := by
  have hbytes : longShift.signingBytes = respelledShift.signingBytes := by
    decide +kernel
  refine ⟨⟨by decide +kernel, by decide +kernel, by decide +kernel, by decide +kernel⟩,
    ⟨by decide +kernel, by decide +kernel, by decide +kernel, by decide +kernel⟩, hbytes,
    by decide +kernel, by decide +kernel, by decide +kernel, fun hsame ↦ ?_⟩
  have hpredecessors := congrArg List.length hsame.predecessors
  revert hpredecessors
  decide +kernel

end StatefulShift

end Fluidic.Crypto
