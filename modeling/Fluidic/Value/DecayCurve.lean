import Fluidic.Value.Metabolic
import Fluidic.Value.Supply

/-!
# The decay curve in closed form

The loop of `pow` computes the power, saturated at `2 ^ 128 - 1` (`pow_eq`). With it the balance
after any number of ticks is one quotient of saturated products (`decayedBalance_eq`). From the
seventh tick on the denominator saturates, and what remains of a balance of at most the whole supply
is one sub-unit or nothing.

`Mild` says, in numbers, when the decay of several ticks leaves as much as that of one.
-/

set_option autoImplicit false
set_option relaxedAutoImplicit false

namespace Fluidic.Value

open Library

/-- The largest value of a `u128`. -/
def maxUnits : ℕ := 2 ^ 128 - 1

/-- The loop of `pow` multiplies the accumulator by the power. Assumes: base and accumulator are
positive, and the exponent has at most the given number of digits. -/
theorem powLoop_eq {digits base exponent acc : ℕ} (hbase : 0 < base) (hacc : 0 < acc)
    (hexponent : exponent < 2 ^ digits) :
    powLoop digits (min base maxUnits) exponent (min acc maxUnits) =
      min (acc * base ^ exponent) maxUnits := by
  induction digits generalizing base exponent acc with
  | zero =>
    have hzero : exponent = 0 := by omega
    rw [hzero, pow_zero, Nat.mul_one]
    rfl
  | succ digits ih =>
    unfold powLoop
    by_cases hdone : exponent = 0
    · rw [if_pos hdone, hdone, pow_zero, Nat.mul_one]
    · rw [if_neg hdone]
      have hhalf : exponent / 2 < 2 ^ digits := by
        rw [Nat.pow_succ] at hexponent
        omega
      have hsplit : base ^ exponent = base ^ (exponent % 2) * (base * base) ^ (exponent / 2) := by
        rw [← Nat.pow_two, ← Nat.pow_mul, ← Nat.pow_add, Nat.mod_add_div]
      have hsquare : (if exponent / 2 = 0 then min base maxUnits
          else saturatingMul 128 (min base maxUnits) (min base maxUnits)) =
          min (if exponent / 2 = 0 then base else base * base) maxUnits := by
        by_cases hlast : exponent / 2 = 0
        · rw [if_pos hlast, if_pos hlast]
        · rw [if_neg hlast, if_neg hlast]
          exact saturatingMul_min hbase hbase
      have hfactor : (if exponent % 2 = 1 then
          saturatingMul 128 (min acc maxUnits) (min base maxUnits) else min acc maxUnits) =
          min (acc * base ^ (exponent % 2)) maxUnits := by
        by_cases hodd : exponent % 2 = 1
        · rw [if_pos hodd, hodd, Nat.pow_one]
          exact saturatingMul_min hacc hbase
        · have heven : exponent % 2 = 0 := by omega
          rw [if_neg hodd, heven, Nat.pow_zero, Nat.mul_one]
      rw [hsquare, hfactor, ih ?_ (Nat.mul_pos hacc (Nat.pow_pos hbase)) hhalf, hsplit,
        Nat.mul_assoc]
      · by_cases hlast : exponent / 2 = 0
        · rw [hlast, Nat.pow_zero, Nat.pow_zero]
        · rw [if_neg hlast]
      · by_cases hlast : exponent / 2 = 0
        · rw [if_pos hlast]
          exact hbase
        · rw [if_neg hlast]
          exact Nat.mul_pos hbase hbase

/-- Exponentiation is the power, saturated. Assumes: the base is positive and fits, and the exponent
fits. -/
theorem pow_eq {base exponent : ℕ} (hbase : 0 < base) (hfits : base ≤ maxUnits)
    (hexponent : exponent < 2 ^ 64) : pow base exponent = min (base ^ exponent) maxUnits := by
  have hloop := powLoop_eq hbase Nat.one_pos hexponent
  rwa [Nat.min_eq_left hfits, Nat.min_eq_left (by decide), Nat.one_mul] at hloop

/-- The parts per million that remain after a tick. -/
def retained (ratePpm : ℕ) : ℕ := decayDenominator - min ratePpm (decayDenominator - 1)

theorem retained_pos (ratePpm : ℕ) : 0 < retained ratePpm := by
  unfold retained decayDenominator
  omega

/-- A decayed balance is a quotient of saturated products. Assumes: balance and number of ticks are
positive, and the number of ticks fits. -/
theorem decayedBalance_eq {balance elapsed : ℕ} (ratePpm : ℕ) (hbalance : 0 < balance)
    (helapsed : 0 < elapsed) (hfits : elapsed < 2 ^ 64) :
    decayedBalance balance ratePpm elapsed =
      min (balance * retained ratePpm ^ elapsed) maxUnits /
        min (decayDenominator ^ elapsed) maxUnits := by
  have hretained := retained_pos ratePpm
  have hle : retained ratePpm ≤ maxUnits :=
    (Nat.sub_le _ _).trans (by decide : decayDenominator ≤ maxUnits)
  have hdenominator := pow_eq (by decide : 0 < decayDenominator) (by decide) hfits
  have hnumerator := pow_eq hretained hle hfits
  unfold retained at hnumerator
  unfold decayedBalance
  rw [if_neg (by omega)]
  dsimp only
  rw [hdenominator, hnumerator]
  obtain hsmall | hlarge := Nat.le_total (retained ratePpm ^ elapsed) maxUnits
  · unfold retained at hsmall ⊢
    rw [Nat.min_eq_left hsmall]
    rfl
  · have hsaturated : maxUnits ≤ balance * maxUnits := Nat.le_mul_of_pos_left _ hbalance
    have hproduct : maxUnits ≤ balance * retained ratePpm ^ elapsed :=
      hlarge.trans (Nat.le_mul_of_pos_left _ hbalance)
    rw [Nat.min_eq_right hproduct]
    unfold retained at hlarge
    rw [Nat.min_eq_right hlarge]
    exact congrArg (· / min (decayDenominator ^ elapsed) maxUnits) (Nat.min_eq_right hsaturated)

/-! ### Several ticks at once -/

/-- What one tick leaves of a balance, in whole sub-units. -/
def keptByOneTick (balance ratePpm : ℕ) : ℕ :=
  balance * (decayDenominator - ratePpm) / decayDenominator

/-- When the decay of several ticks leaves as much as that of one tick: there is at most one, or at
most six and the quotient is large enough, or the one tick leaves at most what the saturated
quotient does. -/
def Mild (balance ratePpm elapsed : ℕ) : Prop :=
  elapsed ≤ 1 ∨
  elapsed ≤ 6 ∧ keptByOneTick balance ratePpm ≤
    min (balance * retained ratePpm ^ elapsed) maxUnits / decayDenominator ^ elapsed ∨
  6 < elapsed ∧ (keptByOneTick balance ratePpm = 0 ∨
    keptByOneTick balance ratePpm = 1 ∧ maxUnits ≤ balance * retained ratePpm ^ elapsed)

instance (balance ratePpm elapsed : ℕ) : Decidable (Mild balance ratePpm elapsed) :=
  inferInstanceAs (Decidable (_ ∨ _ ∧ _ ∨ _ ∧ (_ ∨ _ ∧ _)))

theorem keptByOneTick_le (balance ratePpm : ℕ) : keptByOneTick balance ratePpm ≤ balance := by
  apply Nat.div_le_of_le_mul
  rw [Nat.mul_comm]
  exact Nat.mul_le_mul_right _ (Nat.sub_le _ _)

/-- The decay of several ticks leaves as much as that of one tick if and only if it is mild.
Assumes: the balance is at most the whole supply, and the number of ticks fits. -/
theorem keptByOneTick_le_decayedBalance_iff {balance elapsed : ℕ} (ratePpm : ℕ)
    (hsupply : balance ≤ totalWaveSupply) (hfits : elapsed < 2 ^ 64) :
    keptByOneTick balance ratePpm ≤ decayedBalance balance ratePpm elapsed ↔
      Mild balance ratePpm elapsed := by
  have hwhole : totalWaveSupply * decayDenominator ≤ maxUnits := by decide
  obtain hzero | hbalance := Nat.eq_zero_or_pos balance
  · have hkept : keptByOneTick 0 ratePpm = 0 := by
      unfold keptByOneTick
      rw [Nat.zero_mul, Nat.zero_div]
    rw [hzero, hkept]
    refine ⟨fun _ ↦ ?_, fun _ ↦ Nat.zero_le _⟩
    obtain hsix | hsix := Nat.lt_or_ge 6 elapsed
    · exact .inr (.inr ⟨hsix, .inl hkept⟩)
    · exact .inr (.inl ⟨hsix, hkept.le.trans (Nat.zero_le _)⟩)
  obtain hnone | helapsed := Nat.eq_zero_or_pos elapsed
  · have hidle : decayedBalance balance ratePpm elapsed = balance := if_pos (.inr hnone)
    rw [hidle]
    exact ⟨fun _ ↦ .inl (by omega), fun _ ↦ keptByOneTick_le _ _⟩
  rw [decayedBalance_eq ratePpm hbalance helapsed hfits]
  unfold Mild
  by_cases hone : elapsed ≤ 1
  · have helapsed : elapsed = 1 := by omega
    subst helapsed
    refine ⟨fun _ ↦ .inl le_rfl, fun _ ↦ ?_⟩
    rw [Nat.pow_one, Nat.pow_one, Nat.min_eq_left (by decide : decayDenominator ≤ maxUnits)]
    have hfactor : decayDenominator - ratePpm ≤ retained ratePpm := by
      unfold retained
      omega
    have hproduct : balance * retained ratePpm ≤ maxUnits :=
      (Nat.mul_le_mul hsupply (Nat.sub_le _ _)).trans hwhole
    rw [Nat.min_eq_left hproduct]
    exact Nat.div_le_div_right (Nat.mul_le_mul_left _ hfactor)
  by_cases hsix : elapsed ≤ 6
  · have hdenominator : decayDenominator ^ elapsed ≤ maxUnits :=
      (Nat.pow_le_pow_right (by decide) hsix).trans (by decide : decayDenominator ^ 6 ≤ maxUnits)
    rw [Nat.min_eq_left hdenominator]
    omega
  · have hdenominator : maxUnits ≤ decayDenominator ^ elapsed :=
      (by decide : maxUnits ≤ decayDenominator ^ 7).trans
        (Nat.pow_le_pow_right (by decide) (by omega))
    rw [Nat.min_eq_right hdenominator]
    by_cases hfull : maxUnits ≤ balance * retained ratePpm ^ elapsed
    · rw [Nat.min_eq_right hfull, Nat.div_self (by decide)]
      omega
    · rw [Nat.min_eq_left (by omega), Nat.div_eq_of_lt (by omega)]
      omega

/-! ### The closed form -/

/-- What remains of a balance over unbounded integers. -/
def closedForm (balance ratePpm elapsed : ℕ) : ℕ :=
  balance * (decayDenominator - ratePpm) ^ elapsed / decayDenominator ^ elapsed

/-- When the saturated quotient is the closed form. Up to six ticks the scaled balance may exceed
the largest value only by less than one whole sub-unit. From the seventh tick on the quotient is one
or zero, so the scaled balance must stay below the largest value or make exactly one sub-unit. -/
def Exact (balance ratePpm elapsed : ℕ) : Prop :=
  elapsed ≤ 6 ∧ balance * (decayDenominator - ratePpm) ^ elapsed <
    (maxUnits / decayDenominator ^ elapsed + 1) * decayDenominator ^ elapsed ∨
  6 < elapsed ∧ (balance * (decayDenominator - ratePpm) ^ elapsed < maxUnits ∨
    decayDenominator ^ elapsed ≤ balance * (decayDenominator - ratePpm) ^ elapsed ∧
      balance * (decayDenominator - ratePpm) ^ elapsed < 2 * decayDenominator ^ elapsed)

/-- Below a whole the rate is not capped. Assumes: the rate is below a whole. -/
theorem retained_of_lt {ratePpm : ℕ} (hrate : ratePpm < decayDenominator) :
    retained ratePpm = decayDenominator - ratePpm := by
  unfold retained
  omega

/-- Capped at the same value, a quotient by a larger divisor is one or zero, and the quotient itself
if and only if the product is below the cap or makes a whole. Assumes: the cap is positive and at
most the divisor. -/
theorem min_div_cap_eq_iff {product cap divisor : ℕ} (hcap : 0 < cap) (hle : cap ≤ divisor) :
    min product cap / cap = product / divisor ↔
      product < cap ∨ divisor ≤ product ∧ product < 2 * divisor := by
  obtain hsmall | hlarge := Nat.lt_or_ge product cap
  · rw [Nat.min_eq_left hsmall.le, Nat.div_eq_of_lt hsmall, Nat.div_eq_of_lt (by omega)]
    exact ⟨fun _ ↦ .inl hsmall, fun _ ↦ rfl⟩
  · have hwhole : product / divisor = 1 ↔ divisor ≤ product ∧ product < 2 * divisor := by
      rw [Nat.div_eq_iff (by omega)]
      omega
    rw [Nat.min_eq_right hlarge, Nat.div_self hcap, eq_comm, hwhole]
    omega

/-- A decayed balance is the closed form if and only if it is exact. Assumes: the balance is at most
the whole supply, the rate below a whole, and the number of ticks fits. -/
theorem decayedBalance_eq_closedForm_iff {balance ratePpm elapsed : ℕ}
    (hsupply : balance ≤ totalWaveSupply) (hrate : ratePpm < decayDenominator)
    (hfits : elapsed < 2 ^ 64) :
    decayedBalance balance ratePpm elapsed = closedForm balance ratePpm elapsed ↔
      Exact balance ratePpm elapsed := by
  have hbelow : totalWaveSupply < maxUnits := by decide
  unfold closedForm Exact
  obtain hnone | helapsed := Nat.eq_zero_or_pos elapsed
  · have hidle : decayedBalance balance ratePpm elapsed = balance := if_pos (.inr hnone)
    rw [hidle, hnone, pow_zero, pow_zero, Nat.mul_one, Nat.mul_one, Nat.div_one, Nat.div_one]
    exact iff_of_true rfl (.inl ⟨Nat.zero_le 6, by omega⟩)
  obtain hzero | hbalance := Nat.eq_zero_or_pos balance
  · have hidle : decayedBalance balance ratePpm elapsed = balance := if_pos (.inl hzero)
    have hpositive : 0 < (maxUnits / decayDenominator ^ elapsed + 1) * decayDenominator ^ elapsed :=
      Nat.mul_pos (Nat.succ_pos _) (Nat.pow_pos (by decide))
    have hcap : 0 < maxUnits := by decide
    rw [hidle, hzero, Nat.zero_mul, Nat.zero_div]
    omega
  rw [decayedBalance_eq ratePpm hbalance helapsed hfits, retained_of_lt hrate]
  obtain hsix | hseven := Nat.lt_or_ge 6 elapsed
  · have hdenominator : maxUnits ≤ decayDenominator ^ elapsed :=
      (by decide : maxUnits ≤ decayDenominator ^ 7).trans
        (Nat.pow_le_pow_right (by decide) (by omega))
    rw [Nat.min_eq_right hdenominator, min_div_cap_eq_iff (by decide) hdenominator]
    omega
  · have hdenominator : decayDenominator ^ elapsed ≤ maxUnits :=
      (Nat.pow_le_pow_right (by decide) hseven).trans (by decide : decayDenominator ^ 6 ≤ maxUnits)
    rw [Nat.min_eq_left hdenominator, min_div_eq_iff (Nat.pow_pos (by decide))]
    omega

/-- Two ticks of a balance of one million sub-units. -/
theorem decayedBalance_eq_closedForm_twoTicks :
    1000000 ≤ totalWaveSupply ∧ 10000 < decayDenominator ∧ 2 < 2 ^ 64 ∧
      (decayedBalance 1000000 10000 2 = closedForm 1000000 10000 2 ↔ Exact 1000000 10000 2) ∧
      decayedBalance 1000000 10000 2 = 980100 :=
  ⟨by decide, by decide, by decide,
    decayedBalance_eq_closedForm_iff (by decide) (by decide) (by decide), by decide⟩

/-- After seven ticks one sub-unit is left of a whole WAVE. -/
theorem seven_ticks_leave_one : ¬ ∀ balance ratePpm elapsed, balance ≤ totalWaveSupply →
    ratePpm < decayDenominator → elapsed < 2 ^ 64 →
      decayedBalance balance ratePpm elapsed = closedForm balance ratePpm elapsed := by
  intro hclaim
  have hquotient := hclaim wavePrecision defaultDexLambdaPpm 7 (by decide) (by decide) (by decide)
  revert hquotient
  decide +kernel

end Fluidic.Value
