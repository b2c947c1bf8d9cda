import Fluidic.Library.FixedWidth

/-!
# Metabolic decay

The integer decay curve of `src/value/metabolic.rs` and the running total that the decay engine
keeps. Every product saturates at `2 ^ 128 - 1`, in the powers as well as in the scaled balance.
The streams of the engine take no part in a synthesis; they are in `Fluidic.Value.MetabolicStream`.
-/

set_option autoImplicit false
set_option relaxedAutoImplicit false

namespace Fluidic.Value

open Library

/-- Basis points in a whole. -/
def basisPointsDenominator : ℕ := 10000

/-- Parts per million in a whole. -/
def decayDenominator : ℕ := 1000000

/-- The decay constant of the built-in DEX domain, in parts per million per tick. -/
def defaultDexLambdaPpm : ℕ := 20

/-- The ticks of activity grace. -/
def metabolicIdleGraceTicks : ℕ := 4 * 60 * 60

/-- The share of each tick's decay that is burned, in basis points. -/
def metabolicBurnBp : ℕ := 2500

/-- The loop of `pow`. A 64-bit exponent has at most 64 binary digits, one for each unit of
`digits`. -/
def powLoop : ℕ → ℕ → ℕ → ℕ → ℕ
  | 0, _, _, acc => acc
  | digits + 1, base, exponent, acc =>
    if exponent = 0 then acc
    else
      powLoop digits
        (if exponent / 2 = 0 then base else saturatingMul 128 base base) (exponent / 2)
        (if exponent % 2 = 1 then saturatingMul 128 acc base else acc)

/-- Exponentiation by squaring with saturating products, for a 64-bit exponent. -/
def pow (base exponent : ℕ) : ℕ := powLoop 64 base exponent 1

/-- A balance after `elapsed` ticks of decay at `ratePpm` parts per million. -/
def decayedBalance (balance ratePpm elapsed : ℕ) : ℕ :=
  if balance = 0 ∨ elapsed = 0 then balance
  else
    let retain := decayDenominator - min ratePpm (decayDenominator - 1)
    saturatingMul 128 balance (pow retain elapsed) / pow decayDenominator elapsed

/-- The loop of `pow` grows with its base and its accumulator. Assumes: neither the base nor the
accumulator shrinks. -/
theorem powLoop_le_powLoop (digits exponent : ℕ) {base base' acc acc' : ℕ} (hbase : base ≤ base')
    (hacc : acc ≤ acc') :
    powLoop digits base exponent acc ≤ powLoop digits base' exponent acc' := by
  induction digits generalizing base base' exponent acc acc' with
  | zero => exact hacc
  | succ digits ih =>
    unfold powLoop
    by_cases hexponent : exponent = 0
    · rw [if_pos hexponent, if_pos hexponent]
      exact hacc
    · rw [if_neg hexponent, if_neg hexponent]
      apply ih
      · by_cases hlast : exponent / 2 = 0
        · rw [if_pos hlast, if_pos hlast]
          exact hbase
        · rw [if_neg hlast, if_neg hlast]
          exact saturatingMul_le_saturatingMul hbase hbase
      · by_cases hodd : exponent % 2 = 1
        · rw [if_pos hodd, if_pos hodd]
          exact saturatingMul_le_saturatingMul hacc hbase
        · rw [if_neg hodd, if_neg hodd]
          exact hacc

/-- Decay never raises a balance. -/
theorem decayedBalance_le (balance ratePpm elapsed : ℕ) :
    decayedBalance balance ratePpm elapsed ≤ balance := by
  unfold decayedBalance
  by_cases hidle : balance = 0 ∨ elapsed = 0
  · rw [if_pos hidle]
  · rw [if_neg hidle]
    exact saturatingMul_div_le (powLoop_le_powLoop 64 elapsed (Nat.sub_le _ _) le_rfl)

/-- The running total of burned value that the decay engine reports. -/
structure MetabolicDecayEngine where
  totalBurned : ℕ
  deriving DecidableEq

namespace MetabolicDecayEngine

/-- Nothing burned. -/
def new : MetabolicDecayEngine := ⟨0⟩

/-- Record burn computed elsewhere. -/
def recordBurn (engine : MetabolicDecayEngine) (amount : ℕ) : MetabolicDecayEngine :=
  ⟨wrappingAdd 128 engine.totalBurned amount⟩

end MetabolicDecayEngine

end Fluidic.Value
