import Fluidic.Library.FixedWidth

/-!
# The supply tracker

`src/value/supply.rs`, with the precision constant of `src/field/wave_field.rs`. Minting is refused
beyond the fixed cap. Burning moves value from the circulating counter, where it stops at zero, to
the burned counter.
-/

set_option autoImplicit false
set_option relaxedAutoImplicit false

namespace Fluidic.Value

open Library

/-- Sub-units of one WAVE. -/
def wavePrecision : ℕ := 1000000000000

/-- The fixed maximum supply, in sub-units. -/
def totalWaveSupply : ℕ := 1000000000 * wavePrecision

/-- Circulating and burned supply. -/
structure SupplyTracker where
  circulating : ℕ
  burned : ℕ
  deriving DecidableEq

namespace SupplyTracker

/-- No supply. -/
def new : SupplyTracker := ⟨0, 0⟩

/-- Mint an amount. The flag reports whether the cap allowed it. -/
def mint (supply : SupplyTracker) (amount : ℕ) : SupplyTracker × Bool :=
  if amount = 0 then (supply, true)
  else if totalWaveSupply < saturatingAdd 128 supply.circulating amount then (supply, false)
  else ({ supply with circulating := wrappingAdd 128 supply.circulating amount }, true)

/-- Burn an amount. -/
def burn (supply : SupplyTracker) (amount : ℕ) : SupplyTracker :=
  if amount = 0 then supply
  else ⟨supply.circulating - amount, wrappingAdd 128 supply.burned amount⟩

theorem circulating_burn (supply : SupplyTracker) (amount : ℕ) :
    (supply.burn amount).circulating = supply.circulating - amount := by
  unfold burn
  split_ifs with hzero
  · rw [hzero, Nat.sub_zero]
  · rfl

/-- An amount can be minted exactly when it stays within the maximum. Nothing can always be minted.
-/
theorem mint_eq_true_iff (supply : SupplyTracker) (amount : ℕ) :
    (supply.mint amount).2 = true ↔
      amount = 0 ∨ supply.circulating + amount ≤ totalWaveSupply := by
  have hwidth : totalWaveSupply < 2 ^ 128 - 1 := by decide
  unfold mint saturatingAdd
  split_ifs with hzero hcovered
  · exact iff_of_true rfl (.inl hzero)
  · exact iff_of_false (by decide) fun hfits ↦ by omega
  · exact iff_of_true rfl (.inr (by omega))

/-- What is minted circulates. Assumes: the mint succeeds. -/
theorem circulating_mint {supply : SupplyTracker} {amount : ℕ}
    (hminted : (supply.mint amount).2 = true) :
    (supply.mint amount).1.circulating = supply.circulating + amount := by
  have hwidth : totalWaveSupply < 2 ^ 128 := by decide
  obtain hzero | hfits := (supply.mint_eq_true_iff amount).mp hminted
  · rw [mint, if_pos hzero, hzero, Nat.add_zero]
  · unfold mint at hminted ⊢
    split_ifs at hminted ⊢ with hzero
    · rw [hzero, Nat.add_zero]
    · exact wrappingAdd_of_lt (by omega)

/-- A mint that is refused changes nothing. Assumes: the mint is refused. -/
theorem mint_of_refused {supply : SupplyTracker} {amount : ℕ}
    (hrefused : (supply.mint amount).2 = false) : (supply.mint amount).1 = supply := by
  unfold mint at hrefused ⊢
  split_ifs at hrefused ⊢
  rfl

/-- An amount that can be minted can be minted when less circulates. Assumes: no more circulates
than in the other supply, which mints the amount. -/
theorem mint_of_le {supply supply' : SupplyTracker} {amount : ℕ}
    (hle : supply'.circulating ≤ supply.circulating) (hminted : (supply.mint amount).2 = true) :
    (supply'.mint amount).2 = true := by
  obtain hzero | hfits := (supply.mint_eq_true_iff amount).mp hminted
  · exact (supply'.mint_eq_true_iff amount).mpr (.inl hzero)
  · exact (supply'.mint_eq_true_iff amount).mpr (.inr (by omega))

end SupplyTracker

end Fluidic.Value
