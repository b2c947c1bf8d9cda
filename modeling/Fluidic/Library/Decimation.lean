import Mathlib.Algebra.BigOperators.Ring.Finset
import Mathlib.Algebra.BigOperators.Intervals
import Mathlib.Tactic.Ring

/-!
# Decimation in time

The discrete Fourier transform of a sequence over a commutative ring, and how it comes about in
place over a sequence in the order of reversed digits. A slice of a sequence is every so manieth
entry from some index on. The transform of a slice is made of those of its entries at even and at
odd places (`sliceTransform_add`, `sliceTransform_high`), and in the reversed order these two slices
stand side by side, so that a round of butterflies brings every block from one stage to the next
(`HoldsStage.next`).
-/

set_option autoImplicit false
set_option relaxedAutoImplicit false

namespace Fluidic.Library

open Finset

/-! ### Reversed digits -/

/-- The number whose lowest binary digits are those of the index in reverse. -/
def reverseDigits : ℕ → ℕ → ℕ
  | 0, _ => 0
  | digits + 1, index => index % 2 * 2 ^ digits + reverseDigits digits (index / 2)

theorem reverseDigits_lt (digits index : ℕ) : reverseDigits digits index < 2 ^ digits := by
  induction digits generalizing index with
  | zero => simp [reverseDigits]
  | succ digits ih =>
    have hrest := ih (index / 2)
    have hdigit : index % 2 * 2 ^ digits ≤ 1 * 2 ^ digits := Nat.mul_le_mul_right _ (by omega)
    rw [reverseDigits, Nat.pow_succ]
    omega

theorem reverseDigits_even (digits index : ℕ) :
    reverseDigits (digits + 1) (2 * index) = reverseDigits digits index := by
  have hdigit : 2 * index % 2 = 0 := by omega
  have hrest : 2 * index / 2 = index := by omega
  rw [reverseDigits, hdigit, hrest, Nat.zero_mul, Nat.zero_add]

theorem reverseDigits_odd (digits index : ℕ) :
    reverseDigits (digits + 1) (2 * index + 1) = 2 ^ digits + reverseDigits digits index := by
  have hdigit : (2 * index + 1) % 2 = 1 := by omega
  have hrest : (2 * index + 1) / 2 = index := by omega
  rw [reverseDigits, hdigit, hrest, Nat.one_mul]

/-- A digit of the reversed number is the one at the mirrored place. -/
theorem testBit_reverseDigits (digits index place : ℕ) :
    (reverseDigits digits index).testBit place =
      (decide (place < digits) && index.testBit (digits - 1 - place)) := by
  induction digits generalizing index place with
  | zero => simp [reverseDigits]
  | succ digits ih =>
    have hlow := reverseDigits_lt digits (index / 2)
    have hmirror (hplace : place < digits) :
        digits + 1 - 1 - place = digits - 1 - place + 1 := by omega
    rw [reverseDigits, Nat.mul_comm, Nat.testBit_two_pow_mul_add _ hlow]
    by_cases hplace : place < digits
    · rw [if_pos hplace, ih, hmirror hplace, Nat.testBit_add_one]
      simp [hplace, Nat.lt_succ_of_lt hplace]
    · rw [if_neg hplace]
      obtain rfl | hbeyond := Nat.eq_or_lt_of_le (Nat.le_of_not_lt hplace)
      · simp [Nat.testBit_zero]
      · have hzero : (index % 2).testBit (place - digits) = false :=
          Nat.testBit_lt_two_pow (lt_of_lt_of_le (Nat.mod_lt _ Nat.two_pos)
            (Nat.pow_le_pow_right Nat.two_pos (by omega : 1 ≤ place - digits)))
        rw [hzero]
        simp only [Bool.false_eq, Bool.and_eq_false_iff, decide_eq_false_iff_not]
        exact .inl (by omega)

/-- Reversing twice gives the index back. Assumes: the index has at most so many digits. -/
theorem reverseDigits_reverseDigits {digits index : ℕ} (hindex : index < 2 ^ digits) :
    reverseDigits digits (reverseDigits digits index) = index := by
  apply Nat.eq_of_testBit_eq
  intro place
  rw [testBit_reverseDigits, testBit_reverseDigits]
  by_cases hplace : place < digits
  · have hmirror : digits - 1 - (digits - 1 - place) = place := by omega
    have hbound : digits - 1 - place < digits := by omega
    simp [hplace, hmirror, hbound]
  · have hzero : index.testBit place = false := Nat.testBit_lt_two_pow
      (lt_of_lt_of_le hindex (Nat.pow_le_pow_right Nat.two_pos (Nat.le_of_not_lt hplace)))
    simp [hplace, hzero]

/-! ### Slices -/

section Transform

variable {R : Type} [CommRing R] {root : R}

/-- The transform of the slice of `count` entries at distance `stride` from `start` on. -/
def sliceTransform (root : R) (stride count : ℕ) (x : ℕ → R) (start frequency : ℕ) : R :=
  ∑ i ∈ range count, x (start + stride * i) * root ^ (stride * i * frequency)

/-- A slice splits into its entries at even and at odd places. -/
theorem sliceTransform_split (root : R) (stride count : ℕ) (x : ℕ → R) (start frequency : ℕ) :
    sliceTransform root stride (2 * count) x start frequency =
      sliceTransform root (2 * stride) count x start frequency +
        root ^ (stride * frequency) *
          sliceTransform root (2 * stride) count x (start + stride) frequency := by
  unfold sliceTransform
  induction count with
  | zero => simp
  | succ count ih =>
    have hdouble : 2 * (count + 1) = 2 * count + 1 + 1 := by ring
    have heven : start + stride * (2 * count) = start + 2 * stride * count := by ring
    have hodd : start + stride * (2 * count + 1) = start + stride + 2 * stride * count := by ring
    rw [hdouble, sum_range_succ, sum_range_succ, ih, sum_range_succ, sum_range_succ, heven, hodd]
    ring

/-- The transform of a slice repeats. Assumes: the power of the root after which it does is one. -/
theorem sliceTransform_add {stride count : ℕ} (hroot : root ^ (stride * count) = 1) (x : ℕ → R)
    (start frequency : ℕ) :
    sliceTransform root stride count x start (frequency + count) =
      sliceTransform root stride count x start frequency := by
  unfold sliceTransform
  apply sum_congr rfl
  intro i _
  have hexponent : stride * i * (frequency + count) =
      stride * i * frequency + stride * count * i := by ring
  rw [hexponent, pow_add, pow_mul root (stride * count), hroot, one_pow, mul_one]

/-- A frequency in the upper half takes the difference. Assumes: half a turn of the root is minus
one. -/
theorem sliceTransform_high {stride count : ℕ} (hroot : root ^ (stride * count) = -1) (x : ℕ → R)
    (start frequency : ℕ) :
    sliceTransform root stride (2 * count) x start (frequency + count) =
      sliceTransform root (2 * stride) count x start frequency -
        root ^ (stride * frequency) *
          sliceTransform root (2 * stride) count x (start + stride) frequency := by
  have hturn : root ^ (2 * stride * count) = 1 := by
    rw [mul_assoc, mul_comm 2, pow_mul, hroot]
    ring
  rw [sliceTransform_split, sliceTransform_add hturn, sliceTransform_add hturn, mul_add stride,
    pow_add, hroot]
  ring

/-! ### Stages -/

/-- Every block of a stage holds the transform of the slice whose start is the reversed number of
the block. -/
def HoldsStage (root : R) (stage remaining : ℕ) (x y : ℕ → R) : Prop :=
  ∀ block < 2 ^ remaining, ∀ offset < 2 ^ stage, y (2 ^ stage * block + offset) =
    sliceTransform root (2 ^ remaining) (2 ^ stage) x (reverseDigits remaining block) offset

/-- The sequence in the order of reversed digits is at the first stage. Assumes: the sequence is in
the order of reversed digits. -/
theorem holdsStage_zero {digits : ℕ} {x y : ℕ → R}
    (hreversed : ∀ index < 2 ^ digits, y index = x (reverseDigits digits index)) :
    HoldsStage root 0 digits x y := by
  intro block hblock offset hoffset
  have hfirst : offset = 0 := by simpa using hoffset
  subst hfirst
  simp [sliceTransform, hreversed block hblock]

/-- A round of butterflies brings a sequence to the next stage. Assumes: half a turn of the root is
minus one, and the round takes the sums and the differences. -/
theorem HoldsStage.next {stage remaining : ℕ} {x y z : ℕ → R}
    (hstage : HoldsStage root stage (remaining + 1) x y)
    (hroot : root ^ (2 ^ remaining * 2 ^ stage) = -1)
    (hlow : ∀ block < 2 ^ remaining, ∀ offset < 2 ^ stage,
      z (2 ^ (stage + 1) * block + offset) = y (2 ^ (stage + 1) * block + offset) +
        root ^ (2 ^ remaining * offset) * y (2 ^ (stage + 1) * block + offset + 2 ^ stage))
    (hhigh : ∀ block < 2 ^ remaining, ∀ offset < 2 ^ stage,
      z (2 ^ (stage + 1) * block + offset + 2 ^ stage) = y (2 ^ (stage + 1) * block + offset) -
        root ^ (2 ^ remaining * offset) * y (2 ^ (stage + 1) * block + offset + 2 ^ stage)) :
    HoldsStage root (stage + 1) remaining x z := by
  intro block hblock offset hoffset
  have heven (offset : ℕ) (hoffset : offset < 2 ^ stage) :
      y (2 ^ (stage + 1) * block + offset) = sliceTransform root (2 * 2 ^ remaining) (2 ^ stage) x
        (reverseDigits remaining block) offset := by
    have hplace : 2 ^ (stage + 1) * block + offset = 2 ^ stage * (2 * block) + offset := by ring
    rw [hplace, hstage (2 * block) (by rw [pow_succ]; omega) offset hoffset, reverseDigits_even,
      pow_succ, mul_comm (2 ^ remaining)]
  have hodd (offset : ℕ) (hoffset : offset < 2 ^ stage) :
      y (2 ^ (stage + 1) * block + offset + 2 ^ stage) =
        sliceTransform root (2 * 2 ^ remaining) (2 ^ stage) x
          (reverseDigits remaining block + 2 ^ remaining) offset := by
    have hplace : 2 ^ (stage + 1) * block + offset + 2 ^ stage =
        2 ^ stage * (2 * block + 1) + offset := by ring
    rw [hplace, hstage (2 * block + 1) (by rw [pow_succ]; omega) offset hoffset,
      reverseDigits_odd, pow_succ, mul_comm (2 ^ remaining) 2, add_comm (2 ^ remaining)]
  have hlength : (2 : ℕ) ^ (stage + 1) = 2 * 2 ^ stage := by ring
  by_cases hhalf : offset < 2 ^ stage
  · rw [hlow block hblock offset hhalf, heven offset hhalf, hodd offset hhalf]
    exact (congrArg (fun count ↦ sliceTransform root (2 ^ remaining) count x
      (reverseDigits remaining block) offset) hlength).trans (sliceTransform_split _ _ _ _ _ _)
        |>.symm
  · obtain ⟨lower, rfl⟩ := Nat.exists_eq_add_of_le (Nat.le_of_not_lt hhalf)
    rw [hlength] at hoffset
    have hlower : lower < 2 ^ stage := by omega
    rw [Nat.add_comm (2 ^ stage) lower, ← Nat.add_assoc, hhigh block hblock lower hlower,
      heven lower hlower, hodd lower hlower]
    exact (congrArg (fun count ↦ sliceTransform root (2 ^ remaining) count x
      (reverseDigits remaining block) (lower + 2 ^ stage)) hlength).trans
        (sliceTransform_high hroot _ _ _) |>.symm

/-- At the last stage the sequence is the transform. -/
theorem HoldsStage.transform {digits : ℕ} {x y : ℕ → R} (hstage : HoldsStage root digits 0 x y)
    {frequency : ℕ} (hfrequency : frequency < 2 ^ digits) :
    y frequency = ∑ i ∈ range (2 ^ digits), x i * root ^ (i * frequency) := by
  have hwhole := hstage 0 Nat.one_pos frequency hfrequency
  simpa [sliceTransform, reverseDigits] using hwhole

end Transform

end Fluidic.Library
