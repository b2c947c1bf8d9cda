import Fluidic.Field.Coordinates
import Fluidic.Consensus.Ntt
import Fluidic.Value.Metabolic

/-!
# The wave-field

`src/field/wave_field.rs`: account and pool balances with their decay bookkeeping, the commutative
batch and the metabolic decay of all balances. The `domain` and `rate_ppm` that the source stores in
a balance are never read, nor is the frequency vector of an account; they are left out.

The commutative batch visits its pool totals in hash order and stops at the first pool that would
go negative, so it takes that order as an argument.
-/

set_option autoImplicit false
set_option relaxedAutoImplicit false

namespace Fluidic.Field

open Library Crypto Consensus Value
open Std (ExtTreeMap LawfulEqCmp)

/-- A balance with its decay bookkeeping. -/
structure Balance where
  units : ℕ
  lastDecayTick : ℕ
  decays : Bool
  lastActiveTick : ℕ
  deriving DecidableEq

namespace Balance

/-- The balance of a new account or pool. -/
def zero : Balance := ⟨0, 0, true, 0⟩

/-- Take an amount from a balance, stopping at zero. -/
def saturatingSub (balance : Balance) (amount : ℕ) : Balance :=
  { balance with units := balance.units - amount }

/-- Add an amount to a balance, stopping at the largest value. -/
def saturatingAdd (balance : Balance) (amount : ℕ) : Balance :=
  { balance with units := Library.saturatingAdd 128 balance.units amount }

@[simp] theorem lastActiveTick_saturatingSub (balance : Balance) (amount : ℕ) :
    (balance.saturatingSub amount).lastActiveTick = balance.lastActiveTick := rfl

@[simp] theorem lastActiveTick_saturatingAdd (balance : Balance) (amount : ℕ) :
    (balance.saturatingAdd amount).lastActiveTick = balance.lastActiveTick := rfl

/-- Decay a balance to a tick. The second component is the amount taken. -/
def decayInPlace (balance : Balance) (tick ratePpm : ℕ) : Balance × ℕ :=
  let advanced := { balance with lastDecayTick := tick }
  if !balance.decays then (advanced, 0)
  else if balance.lastActiveTick ≠ 0 ∧ tick - balance.lastActiveTick ≤ metabolicIdleGraceTicks then
    (advanced, 0)
  else if tick - balance.lastDecayTick = 0 ∨ balance.units = 0 then (advanced, 0)
  else
    let remaining := decayedBalance balance.units ratePpm (tick - balance.lastDecayTick)
    ({ advanced with units := remaining }, balance.units - remaining)

end Balance

/-- The global wave-field: account balances, pool balances, the transform and the spectrum of the
latest commutative batch. -/
structure WaveField where
  accounts : ExtTreeMap AccountId Balance
  pools : ExtTreeMap PoolId Balance
  nttEngine : NttEngine
  spectrum : List ℕ
  deriving DecidableEq

/-- The `i128` sum that stops at the ends of the range. -/
def i128SaturatingAdd (a b : ℤ) : ℤ := max (-2 ^ 127) (min (a + b) (2 ^ 127 - 1))

/-- The `i128` sum modulo `2 ^ 128`. -/
def i128WrappingAdd (a b : ℤ) : ℤ := (a + b).bmod (2 ^ 128)

/-- The residue of a signed delta. -/
def signedToField (x : ℤ) : ℕ :=
  let r := x.tmod nttModulus
  (if r < 0 then r + nttModulus else r).toNat

/-- The signed delta of a residue, in the balanced range. -/
def fieldToSigned (x : ℕ) : ℤ :=
  if nttModulus / 2 < x then (x : ℤ) - nttModulus else x

/-- The text of a 32-byte array as the source's debug format prints it. -/
def debugBytes (value : Bytes32) : String :=
  "[" ++ ", ".intercalate (value.toBytes.map fun byte ↦ toString byte.toNat) ++ "]"

namespace WaveField

/-- An empty field with a transform of the given size. -/
def new (nttSize : ℕ) : WaveField :=
  { accounts := ∅, pools := ∅, nttEngine := NttEngine.new nttSize
    spectrum := List.replicate nttSize 0 }

/-- Create an account that is absent. -/
def ensureAccount (field : WaveField) (account : AccountId) : WaveField :=
  { field with accounts := field.accounts.insertIfNew account Balance.zero }

/-- Exempt an account from decay. -/
def setNonDecaying (field : WaveField) (account : AccountId) : WaveField :=
  { field with
    accounts := (field.ensureAccount account).accounts.modify account
      fun balance ↦ { balance with decays := false } }

/-- Credit an account. -/
def creditAccount (field : WaveField) (account : AccountId) (amount : ℕ) : WaveField :=
  { field with
    accounts := (field.ensureAccount account).accounts.modify account
      fun balance ↦ balance.saturatingAdd amount }

/-- The balance of an account, zero when it is absent. -/
def accountBalance (field : WaveField) (account : AccountId) : Balance :=
  field.accounts.getD account Balance.zero

/-- The units of an account, when it exists. -/
def unitsAt (field : WaveField) (account : AccountId) : Option ℕ :=
  field.accounts[account]?.map Balance.units

/-- The balance of a pool, zero when it is absent. -/
def poolBalance (field : WaveField) (pool : PoolId) : Balance :=
  field.pools.getD pool Balance.zero

/-- Debit an account. The flag reports whether the balance covered the amount; the account is
created in either case. -/
def debitAccount (field : WaveField) (account : AccountId) (amount : ℕ) : WaveField × Bool :=
  let ensured := field.ensureAccount account
  if (ensured.accountBalance account).units < amount then (ensured, false)
  else
    ({ ensured with
        accounts := ensured.accounts.modify account fun balance ↦ balance.saturatingSub amount },
      true)

/-! ### The commutative batch -/

/-- The deltas of a batch summed per bin. -/
def binTotals (size : ℕ) (deltas : List (Coordinate × ℤ × PoolId)) : List ℤ :=
  deltas.foldl
    (fun bins delta ↦ bins.modify (delta.1.toNttIndex size) (i128SaturatingAdd · delta.2.1))
    (List.replicate size 0)

/-- The deltas of a batch summed per pool. -/
def poolAggregates (deltas : List (Coordinate × ℤ × PoolId)) : ExtTreeMap PoolId ℤ :=
  deltas.foldl
    (fun totals delta ↦
      totals.insert delta.2.2 (i128WrappingAdd (totals.getD delta.2.2 0) delta.2.1)) ∅

/-- Apply pool totals one after the other, up to the first pool that would go negative. -/
def applyAggregates (pools : ExtTreeMap PoolId Balance) :
    List (PoolId × ℤ) → ExtTreeMap PoolId Balance × Except String Unit
  | [] => (pools, .ok ())
  | (pool, aggregate) :: rest =>
    let pools := pools.insertIfNew pool Balance.zero
    let balance := pools.getD pool Balance.zero
    if 0 ≤ aggregate then
      applyAggregates (pools.insert pool (balance.saturatingAdd aggregate.toNat)) rest
    else if balance.units < aggregate.natAbs then
      (pools, .error s!"Pool {debugBytes pool} would go negative by {aggregate.natAbs}")
    else applyAggregates (pools.insert pool (balance.saturatingSub aggregate.natAbs)) rest

/-- Aggregate a batch of commutative deltas with the transform and apply it to the pools, visiting
the pool totals in the given order. -/
def synthesizeCommutativeBatch (field : WaveField) (order : IterationOrder (PoolId × ℤ))
    (deltas : List (Coordinate × ℤ × PoolId)) : WaveField × Except String Unit :=
  let bins := binTotals field.nttEngine.size deltas
  let spectrum := field.nttEngine.ntt (bins.map signedToField)
  let recovered := (field.nttEngine.intt spectrum).map fieldToSigned
  match (bins.zip recovered).zipIdx.find? fun entry ↦ entry.1.1 ≠ entry.1.2 with
  | some ((expected, actual), bin) =>
    (field, .error
      s!"NTT round-trip mismatch at bin {bin}: expected {expected}, got {actual}")
  | none =>
    let (pools, outcome) := applyAggregates field.pools (order.visit (poolAggregates deltas).toList)
    ({ field with spectrum, pools }, outcome)

/-! ### Decay -/

/-- One account under decay: an immune account only has its clock advanced. -/
def decayAccount (immune : AccountId → Bool) (tick ratePpm : ℕ) (account : AccountId)
    (balance : Balance) : Balance × ℕ :=
  if immune account then ({ balance with lastDecayTick := tick }, 0)
  else balance.decayInPlace tick ratePpm

/-- Decay every account and pool balance to a tick. The second component is the total taken. -/
def applyMetabolicDecay (field : WaveField) (tick ratePpm : ℕ) (immune : AccountId → Bool) :
    WaveField × ℕ :=
  ({ field with
      accounts := field.accounts.map fun account balance ↦
        (decayAccount immune tick ratePpm account balance).1
      pools := field.pools.map fun _ balance ↦ (balance.decayInPlace tick ratePpm).1 },
    (field.pools.toList.map fun entry ↦ (entry.2.decayInPlace tick ratePpm).2).foldl
      (Library.saturatingAdd 128)
      ((field.accounts.toList.map fun entry ↦
        (decayAccount immune tick ratePpm entry.1 entry.2).2).foldl (Library.saturatingAdd 128) 0))

/-- Decay never raises the balance of an account. -/
theorem decayAccount_units_le (immune : AccountId → Bool) (tick ratePpm : ℕ) (account : AccountId)
    (balance : Balance) :
    (decayAccount immune tick ratePpm account balance).1.units ≤ balance.units := by
  unfold decayAccount
  by_cases himmune : immune account = true
  · rw [if_pos himmune]
  rw [if_neg himmune]
  unfold Balance.decayInPlace
  dsimp only
  split_ifs
  · exact le_rfl
  · exact le_rfl
  · exact le_rfl
  · exact decayedBalance_le balance.units ratePpm (tick - balance.lastDecayTick)

/-! ### Accounts are never removed -/

/-- An account has units exactly when it exists. -/
theorem isSome_unitsAt (field : WaveField) (account : AccountId) :
    (field.unitsAt account).isSome = true ↔ account ∈ field.accounts := by
  rw [unitsAt, Option.isSome_map, ExtTreeMap.isSome_getElem?_iff_mem]

/-- Every account of one field is one of the other. -/
def KeepsAccounts (field next : WaveField) : Prop :=
  ∀ account, account ∈ field.accounts → account ∈ next.accounts

theorem KeepsAccounts.trans {first second third : WaveField} (hfirst : KeepsAccounts first second)
    (hsecond : KeepsAccounts second third) : KeepsAccounts first third :=
  fun account hmem ↦ hsecond account (hfirst account hmem)

theorem keepsAccounts_ensureAccount (field : WaveField) (account : AccountId) :
    KeepsAccounts field (field.ensureAccount account) := by
  intro other hmem
  exact ExtTreeMap.mem_insertIfNew.mpr (.inr hmem)

theorem mem_ensureAccount (field : WaveField) (account : AccountId) :
    account ∈ (field.ensureAccount account).accounts :=
  ExtTreeMap.mem_insertIfNew_self

theorem keepsAccounts_modify (field : WaveField) (account : AccountId)
    (update : Balance → Balance) :
    KeepsAccounts field { field with accounts := field.accounts.modify account update } := by
  intro other hmem
  exact ExtTreeMap.mem_modify.mpr hmem

theorem keepsAccounts_setNonDecaying (field : WaveField) (account : AccountId) :
    KeepsAccounts field (field.setNonDecaying account) :=
  (field.keepsAccounts_ensureAccount account).trans (keepsAccounts_modify _ account _)

theorem keepsAccounts_creditAccount (field : WaveField) (account : AccountId) (amount : ℕ) :
    KeepsAccounts field (field.creditAccount account amount) :=
  (field.keepsAccounts_ensureAccount account).trans (keepsAccounts_modify _ account _)

/-- Debiting an account creates no other one. -/
theorem mem_of_mem_debitAccount {field : WaveField} {account other : AccountId} {amount : ℕ}
    (hmem : other ∈ (field.debitAccount account amount).1.accounts) :
    other = account ∨ other ∈ field.accounts := by
  have hensured : other ∈ (field.ensureAccount account).accounts := by
    unfold debitAccount at hmem
    dsimp only at hmem
    split_ifs at hmem
    · exact hmem
    · exact ExtTreeMap.mem_modify.mp hmem
  rcases ExtTreeMap.mem_insertIfNew.mp hensured with hself | hearlier
  · exact .inl (LawfulEqCmp.compare_eq_iff_eq.mp hself).symm
  · exact .inr hearlier

/-! ### One account written -/

/-- An account that is created when it is absent has its balance. -/
theorem getElem?_ensureAccount (field : WaveField) (account other : AccountId) :
    (field.ensureAccount account).accounts[other]? =
      if account = other then some (field.accountBalance account) else field.accounts[other]? := by
  unfold ensureAccount accountBalance
  rw [ExtTreeMap.getElem?_insertIfNew, ExtTreeMap.getD_eq_getD_getElem?]
  by_cases hsame : account = other
  · subst hsame
    cases hlookup : field.accounts[account]? with
    | none => simp [← ExtTreeMap.isSome_getElem?_iff_mem, hlookup]
    | some balance => simp [← ExtTreeMap.isSome_getElem?_iff_mem, hlookup]
  · simp [LawfulEqCmp.compare_eq_iff_eq, hsame]

/-- An account that is created and then updated is an account inserted. -/
theorem ensureAccount_modify (field : WaveField) (account : AccountId)
    (update : Balance → Balance) :
    (field.ensureAccount account).accounts.modify account update =
      field.accounts.insert account (update (field.accountBalance account)) := by
  refine ExtTreeMap.ext_getElem? fun other ↦ ?_
  rw [ExtTreeMap.getElem?_modify, ExtTreeMap.getElem?_insert, getElem?_ensureAccount,
    getElem?_ensureAccount, if_pos rfl]
  by_cases hsame : account = other
  · simp [hsame]
  · simp [LawfulEqCmp.compare_eq_iff_eq, hsame]

/-- A credit writes the balance that it leaves. -/
theorem creditAccount_eq (field : WaveField) (account : AccountId) (amount : ℕ) :
    field.creditAccount account amount =
      { field with
        accounts := field.accounts.insert account
          ((field.accountBalance account).saturatingAdd amount) } := by
  unfold creditAccount
  rw [ensureAccount_modify]

/-- The balances after an account is created and updated. -/
theorem accountBalance_modify (field : WaveField) (account other : AccountId)
    (update : Balance → Balance) :
    ({ field with accounts := (field.ensureAccount account).accounts.modify account update } :
      WaveField).accountBalance other =
        if account = other then update (field.accountBalance account)
        else field.accountBalance other := by
  unfold accountBalance
  rw [ensureAccount_modify, ExtTreeMap.getD_insert]
  by_cases hsame : account = other
  · simp [hsame, accountBalance]
  · simp [LawfulEqCmp.compare_eq_iff_eq, hsame]

/-- Creating an account does not change its balance. -/
theorem accountBalance_ensureAccount (field : WaveField) (account other : AccountId) :
    (field.ensureAccount account).accountBalance other = field.accountBalance other := by
  rw [accountBalance, ExtTreeMap.getD_eq_getD_getElem?, getElem?_ensureAccount]
  by_cases hsame : account = other
  · rw [if_pos hsame, hsame, Option.getD_some]
  · rw [if_neg hsame, ← ExtTreeMap.getD_eq_getD_getElem?, accountBalance]

/-- A debit that is covered writes the balance that it leaves. Assumes: the balance covers the
amount. -/
theorem debitAccount_of_le {field : WaveField} {account : AccountId} {amount : ℕ}
    (hcovered : amount ≤ (field.accountBalance account).units) :
    field.debitAccount account amount =
      ({ field with
          accounts := field.accounts.insert account
            ((field.accountBalance account).saturatingSub amount) }, true) := by
  unfold debitAccount
  dsimp only
  rw [accountBalance_ensureAccount, if_neg (Nat.not_lt_of_le hcovered), ensureAccount_modify]
  rfl

end WaveField

end Fluidic.Field
