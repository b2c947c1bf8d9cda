import Fluidic.Crypto.Keys
import Mathlib.Order.Bounds.Basic

/-!
# Vector clocks

The `VectorClock` of `src/crypto/phase_shift.rs`. A clock maps oscillator ids to times, and an
absent id reads as zero. `happenedBefore` and `concurrentWith` are the tests of the source, each of
which walks over the keys of one operand only. `happenedBefore_iff` shows that together they decide
the strict pointwise order, so `happenedBefore` is a strict partial order and `concurrentWith` is
its incomparability relation, equal clocks included.

The pointwise order makes the clocks a preorder, and not a partial order, because an entry of zero
reads like no entry. `merge` is its join.
-/

set_option autoImplicit false
set_option relaxedAutoImplicit false

namespace Fluidic.Crypto

open Library
open Std (ExtTreeMap ExtTreeSet TransOrd TransCmp LawfulEqOrd LawfulEqCmp)

/-- A vector clock: a time for each oscillator node that has one. -/
structure VectorClock where
  times : ExtTreeMap OscillatorId ℕ
  deriving DecidableEq

namespace VectorClock

/-- The clock without entries. -/
def new : VectorClock := ⟨∅⟩

instance : Inhabited VectorClock := ⟨new⟩

/-- The time of a node, zero when the clock has no entry for it. -/
def get (clock : VectorClock) (node : OscillatorId) : ℕ := clock.times.getD node 0

/-- Advance the time of a node by one. -/
def tick (clock : VectorClock) (node : OscillatorId) : VectorClock :=
  ⟨clock.times.insert node (wrappingAdd 64 (clock.get node) 1)⟩

/-- Raise every time to the one of the other clock, where that is larger. -/
def merge (clock other : VectorClock) : VectorClock :=
  other.times.toList.foldl
    (fun merged entry ↦ ⟨merged.times.insert entry.1 (max (merged.get entry.1) entry.2)⟩) clock

/-- Strict causal precedence, as the source tests it. -/
def happenedBefore (clock other : VectorClock) : Bool :=
  (clock.times.toList.all fun entry ↦ decide (entry.2 ≤ other.get entry.1)) &&
    other.times.toList.any fun entry ↦ decide (clock.get entry.1 < entry.2)

/-- Neither clock causally precedes the other. -/
def concurrentWith (clock other : VectorClock) : Bool :=
  !clock.happenedBefore other && !other.happenedBefore clock

/-! ### The pointwise order -/

/-- An entry of a clock is the time the clock reads there. Assumes: the entry is in the clock. -/
theorem get_of_mem {clock : VectorClock} {entry : OscillatorId × ℕ}
    (hentry : entry ∈ clock.times.toList) : clock.get entry.1 = entry.2 := by
  have hlookup : clock.times[entry.1]? = some entry.2 :=
    ExtTreeMap.mem_toList_iff_getElem?_eq_some.mp hentry
  rw [get, ExtTreeMap.getD_eq_getD_getElem?, hlookup, Option.getD_some]

/-- A clock reads a nonzero time only where it has an entry. Assumes: the time is nonzero. -/
theorem mem_of_get_pos {clock : VectorClock} {node : OscillatorId} (hpos : 0 < clock.get node) :
    (node, clock.get node) ∈ clock.times.toList := by
  rw [ExtTreeMap.mem_toList_iff_getElem?_eq_some]
  rw [get, ExtTreeMap.getD_eq_getD_getElem?] at hpos ⊢
  cases hlookup : clock.times[node]? with
  | none => simp [hlookup] at hpos
  | some time => rfl

/-- The test of the source is the strict pointwise order of the times. -/
theorem happenedBefore_iff (clock other : VectorClock) :
    clock.happenedBefore other = true ↔
      (∀ node, clock.get node ≤ other.get node) ∧ ∃ node, clock.get node < other.get node := by
  simp only [happenedBefore, Bool.and_eq_true, List.all_eq_true, List.any_eq_true,
    decide_eq_true_eq]
  constructor
  · rintro ⟨hle, entry, hentry, hlt⟩
    refine ⟨fun node ↦ ?_, entry.1, by rwa [get_of_mem hentry]⟩
    rcases Nat.eq_zero_or_pos (clock.get node) with hzero | hpos
    · omega
    · exact hle _ (mem_of_get_pos hpos)
  · rintro ⟨hle, node, hlt⟩
    refine ⟨fun entry hentry ↦ ?_, (node, other.get node), mem_of_get_pos (by omega), hlt⟩
    rw [← get_of_mem hentry]
    exact hle entry.1

/-- Clocks are ordered by the times that they read. -/
instance : Preorder VectorClock := Preorder.lift get

theorem le_iff (first second : VectorClock) :
    first ≤ second ↔ ∀ node, first.get node ≤ second.get node := Iff.rfl

/-- Causal precedence is the strict part of the order. -/
theorem lt_iff_happenedBefore (first second : VectorClock) :
    first < second ↔ first.happenedBefore second = true := by
  rw [happenedBefore_iff]
  exact Pi.lt_def

/-- No clock precedes itself. -/
theorem happenedBefore_irrefl (clock : VectorClock) : clock.happenedBefore clock = false := by
  rw [Bool.eq_false_iff, ne_eq, ← lt_iff_happenedBefore]
  exact lt_irrefl clock

/-- Causal precedence is transitive. Assumes: the first clock precedes the second, and the second
the third. -/
theorem happenedBefore_trans {first second third : VectorClock}
    (hfirst : first.happenedBefore second = true) (hsecond : second.happenedBefore third = true) :
    first.happenedBefore third = true := by
  rw [← lt_iff_happenedBefore] at hfirst hsecond ⊢
  exact hfirst.trans hsecond

/-- Two clocks do not precede each other. Assumes: the first precedes the second. -/
theorem happenedBefore_asymm {first second : VectorClock}
    (hfirst : first.happenedBefore second = true) : second.happenedBefore first = false := by
  rw [Bool.eq_false_iff, ne_eq, ← lt_iff_happenedBefore]
  rw [← lt_iff_happenedBefore] at hfirst
  exact hfirst.not_gt

/-! ### What ticks and merges read -/

/-- The own time after a tick. -/
theorem get_tick_self (clock : VectorClock) (node : OscillatorId) :
    (clock.tick node).get node = wrappingAdd 64 (clock.get node) 1 :=
  ExtTreeMap.getD_insert_self

/-- A tick leaves the other times alone. -/
theorem get_tick_of_ne (clock : VectorClock) {node other : OscillatorId} (hne : node ≠ other) :
    (clock.tick node).get other = clock.get other := by
  unfold tick get
  rw [ExtTreeMap.getD_insert, if_neg (by rwa [LawfulEqCmp.compare_eq_iff_eq])]

/-- A running maximum of one value, repeated. Assumes: every entry has the time. -/
theorem foldl_max_eq {entries : List (OscillatorId × ℕ)} {time : ℕ}
    (hsame : ∀ entry ∈ entries, entry.2 = time) (start : ℕ) :
    entries.foldl (fun latest entry ↦ max latest entry.2) start =
      if entries = [] then start else max start time := by
  induction entries generalizing start with
  | nil => rfl
  | cons entry entries ih =>
    rw [List.forall_mem_cons] at hsame
    rw [List.foldl_cons, ih hsame.2, hsame.1, if_neg (List.cons_ne_nil _ _)]
    split_ifs
    · rfl
    · rw [max_assoc, max_self]

/-- A merge reads the larger of the two times. -/
theorem get_merge (clock other : VectorClock) (node : OscillatorId) :
    (clock.merge other).get node = max (clock.get node) (other.get node) := by
  have hfold (entries : List (OscillatorId × ℕ)) (start : VectorClock) :
      (entries.foldl (fun merged entry ↦
        (⟨merged.times.insert entry.1 (max (merged.get entry.1) entry.2)⟩ : VectorClock))
          start).times =
        entries.foldl (accumulate Prod.fst (fun latest entry ↦ max latest entry.2) 0)
          start.times := by
    induction entries generalizing start with
    | nil => rfl
    | cons entry entries ih => exact ih _
  have hentries : ∀ entry ∈ other.times.toList.filter (fun entry ↦ entry.1 = node),
      entry.2 = other.get node := by
    intro entry hentry
    obtain ⟨hmem, hkey⟩ := List.mem_filter.mp hentry
    rw [← of_decide_eq_true hkey, get_of_mem hmem]
  have hread : (clock.merge other).get node =
      (other.times.toList.filter fun entry ↦ entry.1 = node).foldl
        (fun latest entry ↦ max latest entry.2) (clock.get node) := by
    show (clock.merge other).times.getD node 0 = _
    rw [merge, hfold, getD_accumulate]
    rfl
  rw [hread, foldl_max_eq hentries]
  split_ifs with hnone
  · obtain hzero | hpositive := Nat.eq_zero_or_pos (other.get node)
    · rw [hzero, Nat.max_zero]
    · have hmem : (node, other.get node) ∈ other.times.toList.filter (fun entry ↦ entry.1 = node) :=
        List.mem_filter.mpr ⟨mem_of_get_pos hpositive, decide_eq_true rfl⟩
      rw [hnone] at hmem
      exact absurd hmem List.not_mem_nil
  · rfl

/-! ### Concurrency and joins -/

/-- Concurrent clocks are those that neither precede nor follow each other. -/
theorem concurrentWith_iff (first second : VectorClock) :
    first.concurrentWith second = true ↔ ¬first < second ∧ ¬second < first := by
  simp only [concurrentWith, lt_iff_happenedBefore, Bool.and_eq_true, Bool.not_eq_true',
    Bool.not_eq_true]

theorem concurrentWith_comm (first second : VectorClock) :
    first.concurrentWith second = second.concurrentWith first := Bool.and_comm _ _

/-- Clocks are concurrent when they read the same times, or when each of them reads a smaller time
somewhere. -/
theorem concurrentWith_iff_get (first second : VectorClock) :
    first.concurrentWith second = true ↔
      (∀ node, first.get node = second.get node) ∨
        (∃ node, first.get node < second.get node) ∧
          ∃ node, second.get node < first.get node := by
  have hnotLe (clock other : VectorClock) :
      ¬clock ≤ other ↔ ∃ node, other.get node < clock.get node := by
    simp only [le_iff, not_forall, not_le]
  rw [concurrentWith_iff, lt_iff_le_not_ge, lt_iff_le_not_ge, ← hnotLe first, ← hnotLe second]
  constructor
  · rintro ⟨hforth, hback⟩
    by_cases hle : first ≤ second
    · have hge : second ≤ first := by_contra fun hnot ↦ hforth ⟨hle, hnot⟩
      exact .inl fun node ↦ le_antisymm (hle node) (hge node)
    · exact .inr ⟨fun hge ↦ hback ⟨hge, hle⟩, hle⟩
  · rintro (hsame | ⟨hnotGe, hnotLe⟩)
    · exact ⟨fun hless ↦ hless.2 fun node ↦ (hsame node).ge,
        fun hless ↦ hless.2 fun node ↦ (hsame node).le⟩
    · exact ⟨fun hless ↦ hnotLe hless.1, fun hless ↦ hnotGe hless.1⟩

/-- A merge is the pointwise join of the times. -/
theorem get_merge_eq_sup (first second : VectorClock) :
    (first.merge second).get = first.get ⊔ second.get :=
  funext fun node ↦ get_merge first second node

/-- A merge is the least clock above both. -/
theorem isLUB_merge (first second : VectorClock) : IsLUB {first, second} (first.merge second) := by
  constructor
  · rintro clock (rfl | rfl)
    · exact le_sup_left.trans_eq (get_merge_eq_sup clock second).symm
    · exact le_sup_right.trans_eq (get_merge_eq_sup first clock).symm
  · intro bound hbound
    have hfirst : first.get ≤ bound.get := hbound (Set.mem_insert _ _)
    have hsecond : second.get ≤ bound.get := hbound (Set.mem_insert_of_mem _ rfl)
    exact (get_merge_eq_sup first second).trans_le (sup_le hfirst hsecond)

/-- The two tests of the source decide the pointwise order and its incomparability, and a merge is
its join. The order is one of the times that the clocks read, whatever entries they have. -/
theorem clocks_ordered :
    (∀ first second : VectorClock, first.happenedBefore second = true ↔
      (∀ node, first.get node ≤ second.get node) ∧
        ∃ node, first.get node < second.get node) ∧
    IsStrictOrder VectorClock (fun first second ↦ first.happenedBefore second = true) ∧
    (∀ first second : VectorClock, first.concurrentWith second = true ↔
      first.happenedBefore second = false ∧ second.happenedBefore first = false) ∧
    (∀ first second : VectorClock, first.concurrentWith second = second.concurrentWith first) ∧
    (∀ first second : VectorClock, first.concurrentWith second = true ↔
      (∀ node, first.get node = second.get node) ∨
        (∃ node, first.get node < second.get node) ∧
          ∃ node, second.get node < first.get node) ∧
    (∀ (first second : VectorClock) (node : OscillatorId),
      (first.merge second).get node = max (first.get node) (second.get node)) ∧
    (∀ first second : VectorClock, IsLUB {first, second} (first.merge second)) ∧
    (∀ (first second : VectorClock) (node : OscillatorId),
      (first.merge second).get node = (second.merge first).get node) ∧
    (∀ (first second third : VectorClock) (node : OscillatorId),
      ((first.merge second).merge third).get node =
        (first.merge (second.merge third)).get node) ∧
    ∀ (clock : VectorClock) (node : OscillatorId),
      (clock.merge clock).get node = clock.get node := by
  refine ⟨happenedBefore_iff, ?_, fun first second ↦ ?_, concurrentWith_comm,
    concurrentWith_iff_get, get_merge, isLUB_merge, fun first second node ↦ ?_,
    fun first second third node ↦ ?_, fun clock node ↦ ?_⟩
  · exact
      { irrefl := fun clock ↦ Bool.eq_false_iff.mp (happenedBefore_irrefl clock)
        trans := fun _ _ _ hfirst hsecond ↦ happenedBefore_trans hfirst hsecond }
  · rw [concurrentWith, Bool.and_eq_true, Bool.not_eq_true', Bool.not_eq_true']
  · rw [get_merge, get_merge, max_comm]
  · rw [get_merge, get_merge, get_merge, get_merge, max_assoc]
  · rw [get_merge, max_self]

/-- A clock with an entry of zero is not the empty clock, but reads like it. -/
example : let zero : VectorClock := ⟨(∅ : ExtTreeMap OscillatorId ℕ).insert 1 0⟩
    zero ≠ new ∧ zero.concurrentWith new = true := by decide +kernel

end VectorClock

end Fluidic.Crypto
