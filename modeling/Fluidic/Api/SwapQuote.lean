import Fluidic.Api.State

/-!
# The quotes of a swap and of its reverse

Both quotes are the input times the ratio of the reserves, rounded down (`quote`): the price does
not depend on the size of the swap. At one pair of reserves a swap and its reverse return no more
than was put in (`quote_quote_le`). The reserves that the swap leaves have a different ratio, in
favour of whoever swaps back, and nothing keeps the quote below the reserve that it is paid from.
`swap_roundTrip_iff` says for which inputs the two bounds hold nevertheless.
-/

set_option autoImplicit false
set_option relaxedAutoImplicit false

namespace Fluidic.Api

open Library Crypto Consensus
open Std (ExtTreeMap)

/-! ### Proportional quotes -/

/-- The quote for an input, from the reserve that it goes into and the one that it is paid out of.
-/
def quote (input into out : ℕ) : ℕ := if into = 0 then 0 else saturatingMul 128 input out / into

/-- A quote is the proportional share, rounded down. Assumes: the reserve is positive, and the
product fits. -/
theorem quote_eq {input into out : ℕ} (hinto : 0 < into) (hfits : input * out < 2 ^ 128) :
    quote input into out = input * out / into := by
  rw [quote, if_neg hinto.ne', saturatingMul, Nat.min_eq_left (by omega)]

/-- A quote is at most the reserve if and only if the input falls short of making one unit more.
Assumes: the reserve is positive, and the product fits. -/
theorem quote_le_iff {input into out : ℕ} (hinto : 0 < into) (hfits : input * out < 2 ^ 128) :
    quote input into out ≤ out ↔ input * out < (out + 1) * into := by
  rw [quote_eq hinto hfits, ← Nat.lt_succ_iff, Nat.div_lt_iff_lt_mul hinto]

/-- At the same reserves a swap and its reverse return at most the input. Assumes: the reserves are
positive, and the products fit. -/
theorem quote_quote_le {input into out : ℕ} (hinto : 0 < into) (hout : 0 < out)
    (hfits : input * out < 2 ^ 128) (hback : quote input into out * into < 2 ^ 128) :
    quote (quote input into out) out into ≤ input := by
  rw [quote_eq hout hback, quote_eq hinto hfits]
  refine Nat.div_le_of_le_mul ?_
  calc input * out / into * into ≤ input * out := Nat.div_mul_le_self _ _
    _ = out * input := Nat.mul_comm _ _

/-- At the reserves that a swap leaves, its reverse returns at most the input if and only if nothing
is left to pay it from, or the reserves have hardly moved. Assumes: the swap was paid from the
reserve, and the product fits. -/
theorem quote_back_le_iff {input into out paid : ℕ} (hpaid : paid ≤ out)
    (hfits : paid * (into + input) < 2 ^ 128) :
    quote paid (out - paid) (into + input) ≤ input ↔
      paid = out ∨ paid * (into + input) < (input + 1) * (out - paid) := by
  obtain rfl | hless := hpaid.eq_or_lt
  · rw [quote, if_pos (Nat.sub_self paid)]
    exact iff_of_true (Nat.zero_le _) (.inl rfl)
  · rw [quote_eq (Nat.sub_pos_of_lt hless) hfits, ← Nat.lt_succ_iff,
      Nat.div_lt_iff_lt_mul (Nat.sub_pos_of_lt hless)]
    exact (or_iff_right hless.ne).symm

/-! ### The two directions of a pool -/

namespace ApiState

variable {platform : Platform}

/-- The pool holds a reserve of WAVE and one of USDC. -/
structure Holds (state : ApiState platform) (wave usdc : ℕ) : Prop where
  wave_eq : state.unitsOf state.poolWaveAccount = wave
  usdc_eq : state.unitsOf state.poolUsdcAccount = usdc

theorem Holds.waveToUsdcOut {state : ApiState platform} {wave usdc : ℕ}
    (hholds : state.Holds wave usdc) (waveIn : ℕ) :
    state.waveToUsdcOut waveIn = quote waveIn wave usdc := by
  unfold ApiState.waveToUsdcOut quote
  rw [hholds.wave_eq, hholds.usdc_eq]

theorem Holds.usdcToWaveOut {state : ApiState platform} {wave usdc : ℕ}
    (hholds : state.Holds wave usdc) (usdcIn : ℕ) :
    state.usdcToWaveOut usdcIn = quote usdcIn usdc wave := by
  unfold ApiState.usdcToWaveOut quote
  rw [hholds.wave_eq, hholds.usdc_eq]

/-- When a swap and its reverse cannot profit, in either direction. The quote is covered by the
reserve exactly as long as the input falls short of making one unit more than it. Once the swap has
settled, the reverse returns at most the input exactly when the reserve was paid out in full or the
reserves have hardly moved; at the reserves before the settlement it never returns more. Assumes:
the reserves are positive, and the products fit. -/
theorem swap_roundTrip_iff {state : ApiState platform} {wave usdc input : ℕ} (hwave : 0 < wave)
    (husdc : 0 < usdc) (hholds : state.Holds wave usdc) :
    (input * usdc < 2 ^ 128 →
      (state.waveToUsdcOut input ≤ usdc ↔ input * usdc < (usdc + 1) * wave) ∧
      (state.waveToUsdcOut input * wave < 2 ^ 128 →
        state.usdcToWaveOut (state.waveToUsdcOut input) ≤ input) ∧
      ∀ settled : ApiState platform,
        settled.Holds (wave + input) (usdc - state.waveToUsdcOut input) →
        state.waveToUsdcOut input ≤ usdc →
        state.waveToUsdcOut input * (wave + input) < 2 ^ 128 →
          (settled.usdcToWaveOut (state.waveToUsdcOut input) ≤ input ↔
            state.waveToUsdcOut input = usdc ∨
              state.waveToUsdcOut input * (wave + input) <
                (input + 1) * (usdc - state.waveToUsdcOut input))) ∧
    (input * wave < 2 ^ 128 →
      (state.usdcToWaveOut input ≤ wave ↔ input * wave < (wave + 1) * usdc) ∧
      (state.usdcToWaveOut input * usdc < 2 ^ 128 →
        state.waveToUsdcOut (state.usdcToWaveOut input) ≤ input) ∧
      ∀ settled : ApiState platform,
        settled.Holds (wave - state.usdcToWaveOut input) (usdc + input) →
        state.usdcToWaveOut input ≤ wave →
        state.usdcToWaveOut input * (usdc + input) < 2 ^ 128 →
          (settled.waveToUsdcOut (state.usdcToWaveOut input) ≤ input ↔
            state.usdcToWaveOut input = wave ∨
              state.usdcToWaveOut input * (usdc + input) <
                (input + 1) * (wave - state.usdcToWaveOut input))) := by
  have hforth : state.waveToUsdcOut input = quote input wave usdc := hholds.waveToUsdcOut input
  have hback : state.usdcToWaveOut input = quote input usdc wave := hholds.usdcToWaveOut input
  rw [hholds.usdcToWaveOut (state.waveToUsdcOut input),
    hholds.waveToUsdcOut (state.usdcToWaveOut input), hforth, hback]
  constructor
  · refine fun hfits ↦ ⟨quote_le_iff hwave hfits, quote_quote_le hwave husdc hfits,
      fun settled hsettled hpaid hsecond ↦ ?_⟩
    rw [hsettled.usdcToWaveOut]
    exact quote_back_le_iff hpaid hsecond
  · refine fun hfits ↦ ⟨quote_le_iff husdc hfits, quote_quote_le husdc hwave hfits,
      fun settled hsettled hpaid hsecond ↦ ?_⟩
    rw [hsettled.waveToUsdcOut]
    exact quote_back_le_iff hpaid hsecond

/-- A node whose pool holds the given reserves. -/
def poolHolding (wave usdc : ℕ) : ApiState Platform.sample where
  oscillator := ((Oscillator.newWithKeypair 8).seedAccount ⟨1⟩ wave).seedAccount ⟨2⟩ usdc
  registry := ∅
  derivedToMain := ∅
  poolKeypair := ⟨0⟩
  poolWaveAccount := ⟨1⟩
  poolUsdcAccount := ⟨2⟩

/-- One unit of WAVE for one of USDC, and back, in a pool of a hundred of each. -/
theorem swap_roundTrip_iff_hundred :
    (poolHolding 100 100).Holds 100 100 ∧
      ((poolHolding 100 100).waveToUsdcOut 1 ≤ 100 ↔ 1 * 100 < (100 + 1) * 100) ∧
      ((poolHolding 101 99).usdcToWaveOut ((poolHolding 100 100).waveToUsdcOut 1) ≤ 1 ↔
        (poolHolding 100 100).waveToUsdcOut 1 = 100 ∨
          (poolHolding 100 100).waveToUsdcOut 1 * (100 + 1) <
            (1 + 1) * (100 - (poolHolding 100 100).waveToUsdcOut 1)) := by
  have hholds : (poolHolding 100 100).Holds 100 100 := ⟨by decide +kernel, by decide +kernel⟩
  have hsettled : (poolHolding 101 99).Holds (100 + 1)
      (100 - (poolHolding 100 100).waveToUsdcOut 1) := ⟨by decide +kernel, by decide +kernel⟩
  have hfits : 1 * 100 < 2 ^ 128 := by decide
  obtain ⟨hcovered, -, hback⟩ := (swap_roundTrip_iff (by decide) (by decide) hholds).1 hfits
  exact ⟨hholds, hcovered, hback _ hsettled (by decide +kernel) (by decide +kernel)⟩

/-- Half of a pool of a hundred of each is swapped and swapped back, for three times as much. -/
theorem roundTrip_profits : ¬ ∀ (state settled : ApiState Platform.sample) (wave usdc input : ℕ),
    0 < wave → 0 < usdc → state.Holds wave usdc → input * usdc < 2 ^ 128 →
      state.waveToUsdcOut input ≤ usdc ∧
      (settled.Holds (wave + input) (usdc - state.waveToUsdcOut input) →
        state.waveToUsdcOut input * (wave + input) < 2 ^ 128 →
          settled.usdcToWaveOut (state.waveToUsdcOut input) ≤ input) := by
  intro hclaim
  have hback := (hclaim (poolHolding 100 100) (poolHolding 150 50) 100 100 50 (by decide)
    (by decide) ⟨by decide +kernel, by decide +kernel⟩ (by decide)).2
    ⟨by decide +kernel, by decide +kernel⟩ (by decide +kernel)
  revert hback
  decide +kernel

end ApiState

end Fluidic.Api
