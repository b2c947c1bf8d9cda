import Mathlib.RingTheory.RootsOfUnity.PrimitiveRoots

/-!
# Inversion of the discrete Fourier transform

Over a field, the transform with a primitive root of unity followed by the transform with its
inverse multiplies every entry by their number (`transform_transform`): the powers of a root of
unity other than one cancel each other (`sum_pow_eq_zero`), so that of the double sum only the
entry itself is left.
-/

set_option autoImplicit false
set_option relaxedAutoImplicit false

namespace Fluidic.Library

open Finset

/-- The discrete Fourier transform of the first entries of a sequence. -/
def transform {R : Type} [CommRing R] (root : R) (count : ℕ) (x : ℕ → R) (frequency : ℕ) : R :=
  ∑ i ∈ range count, x i * root ^ (i * frequency)

variable {R : Type} [Field R] {root : R} {count : ℕ}

theorem transform_congr {x y : ℕ → R} (hsame : ∀ i < count, x i = y i) (frequency : ℕ) :
    transform root count x frequency = transform root count y frequency :=
  sum_congr rfl fun i hi ↦ by rw [hsame i (mem_range.mp hi)]

theorem transform_mul (root : R) (count : ℕ) (x : ℕ → R) (factor : R) (frequency : ℕ) :
    transform root count (fun i ↦ x i * factor) frequency =
      transform root count x frequency * factor := by
  unfold transform
  rw [sum_mul]
  exact sum_congr rfl fun i _ ↦ mul_right_comm _ _ _

/-- The powers of a root of unity other than one sum to zero. Assumes: the power is a root of unity
and is not one. -/
theorem sum_pow_eq_zero {power : R} (hroot : power ^ count = 1) (hne : power ≠ 1) :
    ∑ i ∈ range count, power ^ i = 0 := by
  have hclosed : (∑ i ∈ range count, power ^ i) * (power - 1) = 0 := by
    rw [geom_sum_mul, hroot, sub_self]
  exact (mul_eq_zero.mp hclosed).resolve_right (sub_ne_zero_of_ne hne)

/-- The product of a power of the root and a power of its inverse, summed over the frequencies.
Assumes: the root is primitive, and the exponents are below its order. -/
theorem sum_pow_mul_inv_pow (hroot : IsPrimitiveRoot root count) {i j : ℕ} (hi : i < count)
    (hj : j < count) :
    ∑ frequency ∈ range count, root ^ (i * frequency) * root⁻¹ ^ (frequency * j) =
      if i = j then (count : R) else 0 := by
  have hnonzero : root ≠ 0 := hroot.ne_zero (by omega)
  have hsum : ∑ frequency ∈ range count, root ^ (i * frequency) * root⁻¹ ^ (frequency * j) =
      ∑ frequency ∈ range count, (root ^ i * root⁻¹ ^ j) ^ frequency := by
    refine sum_congr rfl fun frequency _ ↦ ?_
    rw [mul_pow, ← pow_mul, ← pow_mul, mul_comm frequency j]
  rw [hsum]
  split_ifs with hsame
  · rw [hsame, ← mul_pow, mul_inv_cancel₀ hnonzero, one_pow]
    simp
  · apply sum_pow_eq_zero
    · rw [mul_pow, ← pow_mul, ← pow_mul, mul_comm i, mul_comm j, pow_mul, pow_mul, inv_pow,
        hroot.pow_eq_one, inv_one, one_pow, one_pow, mul_one]
    · intro hone
      rw [inv_pow, mul_inv_eq_one₀ (pow_ne_zero j hnonzero)] at hone
      exact hsame (hroot.pow_inj hi hj hone)

/-- The transform with a root and then with its inverse gives every entry times their number.
Assumes: the root is primitive, and the index is within the entries. -/
theorem transform_transform (hroot : IsPrimitiveRoot root count) (x : ℕ → R) {index : ℕ}
    (hindex : index < count) :
    transform root⁻¹ count (transform root count x) index = x index * count := by
  calc transform root⁻¹ count (transform root count x) index
    _ = ∑ frequency ∈ range count, ∑ i ∈ range count,
        x i * (root ^ (i * frequency) * root⁻¹ ^ (frequency * index)) := by
      refine sum_congr rfl fun frequency _ ↦ ?_
      rw [transform, sum_mul]
      exact sum_congr rfl fun i _ ↦ mul_assoc _ _ _
    _ = ∑ i ∈ range count, x i *
        ∑ frequency ∈ range count, root ^ (i * frequency) * root⁻¹ ^ (frequency * index) := by
      rw [sum_comm]
      exact sum_congr rfl fun i _ ↦ (mul_sum _ _ _).symm
    _ = ∑ i ∈ range count, x i * if i = index then (count : R) else 0 := by
      refine sum_congr rfl fun i hi ↦ ?_
      rw [sum_pow_mul_inv_pow hroot (mem_range.mp hi) hindex]
    _ = x index * count := by
      simp [mem_range.mpr hindex]

end Fluidic.Library
