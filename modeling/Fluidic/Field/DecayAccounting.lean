import Fluidic.Field.WaveField
import Fluidic.Value.DecayCurve

/-!
# What the metabolic decay takes

One balance loses what its decay reports (`Balance.units_decayInPlace`), whatever the rate and
however the powers saturate. The running total of a tick saturates as well, but not as long as the
balances of the field fit together (`foldl_saturatingAdd`). So the total that a tick returns is the
difference of the sums before and after it (`applyMetabolicDecay_accounts_for`).
-/

set_option autoImplicit false
set_option relaxedAutoImplicit false

namespace Fluidic.Field

open Library Crypto Value
open Std (ExtTreeMap TransOrd LawfulEqOrd)

/-! ### Sums of balances -/

/-- The units of all balances of a map. -/
def unitsIn {κ : Type} [Ord κ] [TransOrd κ] (balances : ExtTreeMap κ Balance) : ℕ :=
  sumBy (fun _ balance ↦ balance.units) balances

/-! ### One balance -/

/-- A balance after the decay of a tick: it is not larger, an exempt one is as large as before, and
its clock is at the tick. -/
structure DecayedTo (tick : ℕ) (exempt : Prop) (before after : Balance) : Prop where
  units_le : after.units ≤ before.units
  units_eq : exempt → after.units = before.units
  lastDecayTick_eq : after.lastDecayTick = tick

/-- The four exits of the decay of a balance: either nothing is taken, or the balance decays and the
curve leaves what remains. -/
theorem Balance.decayInPlace_cases (balance : Balance) (tick ratePpm : ℕ) :
    balance.decayInPlace tick ratePpm = ({ balance with lastDecayTick := tick }, 0) ∨
    balance.decays = true ∧ ∃ remaining ≤ balance.units,
      balance.decayInPlace tick ratePpm =
        ({ balance with units := remaining, lastDecayTick := tick },
          balance.units - remaining) := by
  unfold Balance.decayInPlace
  dsimp only
  split_ifs with hforeign hgrace hidle
  · exact .inl rfl
  · exact .inl rfl
  · exact .inl rfl
  · refine .inr ⟨by simpa using hforeign, _, ?_, rfl⟩
    exact decayedBalance_le balance.units ratePpm (tick - balance.lastDecayTick)

/-- A balance loses what its decay reports. -/
theorem Balance.units_decayInPlace (balance : Balance) (tick ratePpm : ℕ) :
    (balance.decayInPlace tick ratePpm).1.units + (balance.decayInPlace tick ratePpm).2 =
      balance.units := by
  rcases balance.decayInPlace_cases tick ratePpm with hkept | ⟨-, remaining, hle, hdecayed⟩
  · rw [hkept]
    exact Nat.add_zero _
  · rw [hdecayed]
    exact Nat.add_sub_cancel' hle

theorem Balance.decayedTo_decayInPlace (balance : Balance) (tick ratePpm : ℕ) :
    DecayedTo tick (balance.decays = false) balance (balance.decayInPlace tick ratePpm).1 := by
  rcases balance.decayInPlace_cases tick ratePpm with hkept | ⟨hdecays, remaining, hle, hdecayed⟩
  · rw [hkept]
    exact ⟨le_rfl, fun _ ↦ rfl, rfl⟩
  · rw [hdecayed]
    refine ⟨hle, fun hforeign ↦ ?_, rfl⟩
    rw [hdecays] at hforeign
    exact absurd hforeign.symm Bool.false_ne_true

namespace WaveField

theorem units_decayAccount (immune : AccountId → Bool) (tick ratePpm : ℕ) (account : AccountId)
    (balance : Balance) :
    (decayAccount immune tick ratePpm account balance).1.units +
      (decayAccount immune tick ratePpm account balance).2 = balance.units := by
  unfold decayAccount
  split_ifs
  · exact Nat.add_zero _
  · exact balance.units_decayInPlace tick ratePpm

theorem decayedTo_decayAccount (immune : AccountId → Bool) (tick ratePpm : ℕ) (account : AccountId)
    (balance : Balance) :
    DecayedTo tick (immune account = true ∨ balance.decays = false) balance
      (decayAccount immune tick ratePpm account balance).1 := by
  unfold decayAccount
  split_ifs with himmune
  · exact ⟨le_rfl, fun _ ↦ rfl, rfl⟩
  · have hdecayed := balance.decayedTo_decayInPlace tick ratePpm
    exact ⟨hdecayed.units_le,
      fun hexempt ↦ hdecayed.units_eq (hexempt.resolve_left himmune), hdecayed.lastDecayTick_eq⟩

/-! ### The field -/

/-- What the balances of a map lose is what their decays report. Assumes: each of them loses what it
reports. -/
theorem unitsIn_map {κ : Type} [Ord κ] [TransOrd κ] [LawfulEqOrd κ]
    (balances : ExtTreeMap κ Balance) {decay : κ → Balance → Balance × ℕ}
    (hdecay : ∀ key balance, (decay key balance).1.units + (decay key balance).2 = balance.units) :
    unitsIn (balances.map fun key balance ↦ (decay key balance).1) +
        (balances.toList.map fun entry ↦ (decay entry.1 entry.2).2).sum = unitsIn balances := by
  unfold unitsIn
  rw [sumBy_map]
  show _ + sumBy (fun key balance ↦ (decay key balance).2) balances = _
  rw [sumBy_add]
  exact sumBy_congr fun key balance _ ↦ hdecay key balance

/-- What the accounts keep and what a tick takes come to no more than the field held before it, also
where the running total saturates. -/
theorem applyMetabolicDecay_le (field : WaveField) (tick ratePpm : ℕ) (immune : AccountId → Bool) :
    unitsIn (field.applyMetabolicDecay tick ratePpm immune).1.accounts +
        (field.applyMetabolicDecay tick ratePpm immune).2 ≤
      unitsIn field.accounts + unitsIn field.pools := by
  have haccounts := unitsIn_map field.accounts (units_decayAccount immune tick ratePpm)
  have hpools := unitsIn_map field.pools fun _ balance ↦ balance.units_decayInPlace tick ratePpm
  unfold applyMetabolicDecay
  dsimp only
  rw [foldl_saturatingAdd 128 _ (Nat.two_pow_pos 128), foldl_saturatingAdd 128 _ (by omega)]
  omega

/-- The decay of a tick returns exactly what the balances lose, no balance grows, exempt balances
keep their units, and every clock is at the tick. The curve itself never leaves more than there was,
and never divides by zero. Assumes: the balances of the field fit together. -/
theorem applyMetabolicDecay_accounts_for (field : WaveField) (tick ratePpm : ℕ)
    (immune : AccountId → Bool) (hfits : unitsIn field.accounts + unitsIn field.pools < 2 ^ 128) :
    (unitsIn (field.applyMetabolicDecay tick ratePpm immune).1.accounts +
        unitsIn (field.applyMetabolicDecay tick ratePpm immune).1.pools +
          (field.applyMetabolicDecay tick ratePpm immune).2 =
      unitsIn field.accounts + unitsIn field.pools) ∧
    (∀ account, account ∈ (field.applyMetabolicDecay tick ratePpm immune).1.accounts ↔
      account ∈ field.accounts) ∧
    (∀ account before after, field.accounts[account]? = some before →
      (field.applyMetabolicDecay tick ratePpm immune).1.accounts[account]? = some after →
        DecayedTo tick (immune account = true ∨ before.decays = false) before after) ∧
    (∀ pool : PoolId, pool ∈ (field.applyMetabolicDecay tick ratePpm immune).1.pools ↔
      pool ∈ field.pools) ∧
    (∀ (pool : PoolId) before after, field.pools[pool]? = some before →
      (field.applyMetabolicDecay tick ratePpm immune).1.pools[pool]? = some after →
        DecayedTo tick (before.decays = false) before after) ∧
    ∀ balance rate elapsed, elapsed < 2 ^ 64 →
      decayedBalance balance rate elapsed ≤ balance ∧ 0 < pow decayDenominator elapsed := by
  have haccounts := unitsIn_map field.accounts (units_decayAccount immune tick ratePpm)
  have hpools := unitsIn_map field.pools fun _ balance ↦ balance.units_decayInPlace tick ratePpm
  refine ⟨?_, fun account ↦ ExtTreeMap.mem_map, fun account before after hbefore hafter ↦ ?_,
    fun pool ↦ ExtTreeMap.mem_map, fun pool before after hbefore hafter ↦ ?_,
    fun balance rate elapsed helapsed ↦ ⟨decayedBalance_le balance rate elapsed, ?_⟩⟩
  · unfold applyMetabolicDecay
    dsimp only
    rw [foldl_saturatingAdd 128 _ (Nat.two_pow_pos 128), foldl_saturatingAdd 128 _ (by omega)]
    omega
  · have hlookup : (field.applyMetabolicDecay tick ratePpm immune).1.accounts[account]? =
        some (decayAccount immune tick ratePpm account before).1 := by
      show (field.accounts.map _)[account]? = _
      rw [ExtTreeMap.getElem?_map, hbefore, Option.map_some]
    obtain rfl := Option.some.inj (hafter.symm.trans hlookup)
    exact decayedTo_decayAccount immune tick ratePpm account before
  · have hlookup : (field.applyMetabolicDecay tick ratePpm immune).1.pools[pool]? =
        some (before.decayInPlace tick ratePpm).1 := by
      show (field.pools.map _)[pool]? = _
      rw [ExtTreeMap.getElem?_map, hbefore, Option.map_some]
    obtain rfl := Option.some.inj (hafter.symm.trans hlookup)
    exact before.decayedTo_decayInPlace tick ratePpm
  · rw [pow_eq (by decide) (by decide) helapsed]
    exact Nat.lt_min.mpr ⟨Nat.pow_pos (by decide), by decide⟩

/-- A field with one account that holds one million sub-units. -/
def oneAccount : WaveField := (WaveField.new 2).creditAccount ⟨7⟩ 1000000

/-- Two ticks at one percent take 19900 sub-units of the one account. -/
theorem applyMetabolicDecay_accounts_for_oneAccount :
    unitsIn oneAccount.accounts + unitsIn oneAccount.pools < 2 ^ 128 ∧
    unitsIn (oneAccount.applyMetabolicDecay 2 10000 fun _ ↦ false).1.accounts +
        unitsIn (oneAccount.applyMetabolicDecay 2 10000 fun _ ↦ false).1.pools +
          (oneAccount.applyMetabolicDecay 2 10000 fun _ ↦ false).2 =
      unitsIn oneAccount.accounts + unitsIn oneAccount.pools ∧
    (oneAccount.applyMetabolicDecay 2 10000 fun _ ↦ false).2 = 19900 := by
  have hfits : unitsIn oneAccount.accounts + unitsIn oneAccount.pools < 2 ^ 128 := by
    decide +kernel
  exact ⟨hfits, (oneAccount.applyMetabolicDecay_accounts_for 2 10000 (fun _ ↦ false) hfits).1,
    by decide +kernel⟩

end WaveField

end Fluidic.Field
