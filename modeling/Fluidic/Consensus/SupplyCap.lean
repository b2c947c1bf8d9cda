import Fluidic.Consensus.LedgerAgreement
import Fluidic.Consensus.Slashing
import Fluidic.Field.DecayAccounting

/-!
# The supply cap

What the accounts of the wave-field hold and what the operators have locked is at most the
circulating supply, and that is at most the fixed maximum. Two operations of the source break the
first inequality. A registration credits its token accounts without minting. The burned share of a
tick's decay is computed from the decay of accounts and pools together, but the value of pools was
never minted, so that the circulating supply can shrink by more than the accounts do.

`Backed` is the condition on a request, in the state before it, under which it does neither: what a
registration credits circulates outside of accounts and stakes, and so does, before a synthesis, the
share of the pools that would be burned if they decayed to nothing. `supply_capped` is the cap in
every state of every run of such requests.
-/

set_option autoImplicit false
set_option relaxedAutoImplicit false

namespace Fluidic.Consensus.Oscillator

open Library Crypto Fluidic.Field Value Operator Evm
open Std (ExtTreeMap LawfulEqCmp)

variable {platform : Platform}

/-! ### What the accounts hold -/

/-- What writing one account does to the total. -/
theorem heldUnits_insert (field : WaveField) (account : AccountId) (balance : Balance) :
    heldUnits { field with accounts := field.accounts.insert account balance } +
      (field.accountBalance account).units = heldUnits field + balance.units := by
  have hinsert := sumBy_insert (fun _ (balance : Balance) ↦ balance.units) field.accounts account
    balance
  have hbefore : (field.accounts[account]?.elim 0 fun balance ↦ balance.units) =
      (field.accountBalance account).units := by
    unfold WaveField.accountBalance
    rw [ExtTreeMap.getD_eq_getD_getElem?]
    cases field.accounts[account]? <;> rfl
  rw [hbefore] at hinsert
  exact hinsert

/-- Updating an account without changing its units leaves the total alone. Assumes: the update keeps
the units. -/
theorem heldUnits_modify (field : WaveField) (account : AccountId) (update : Balance → Balance)
    (hkeeps : ∀ balance, (update balance).units = balance.units) :
    heldUnits { field with
      accounts := (field.ensureAccount account).accounts.modify account update } =
        heldUnits field := by
  have hinsert := heldUnits_insert field account (update (field.accountBalance account))
  rw [hkeeps] at hinsert
  rw [WaveField.ensureAccount_modify]
  omega

theorem heldUnits_ensureAccount (field : WaveField) (account : AccountId) :
    heldUnits (field.ensureAccount account) = heldUnits field := by
  have hkept := heldUnits_modify field account id fun _ ↦ rfl
  have hid : (field.ensureAccount account).accounts.modify account id =
      (field.ensureAccount account).accounts := by
    refine ExtTreeMap.ext_getElem? fun other ↦ ?_
    rw [ExtTreeMap.getElem?_modify]
    split_ifs with hsame
    · rw [LawfulEqCmp.compare_eq_iff_eq.mp hsame, Option.map_id_fun, id]
    · rfl
  rw [hid] at hkept
  exact hkept

theorem heldUnits_setNonDecaying (field : WaveField) (account : AccountId) :
    heldUnits (field.setNonDecaying account) = heldUnits field :=
  heldUnits_modify field account _ fun _ ↦ rfl

/-- A credit adds at most its amount to the total. -/
theorem heldUnits_creditAccount_le (field : WaveField) (account : AccountId) (amount : ℕ) :
    heldUnits (field.creditAccount account amount) ≤ heldUnits field + amount := by
  have hinsert := heldUnits_insert field account
    ((field.accountBalance account).saturatingAdd amount)
  have hcredit : ((field.accountBalance account).saturatingAdd amount).units ≤
      (field.accountBalance account).units + amount := min_le_left _ _
  rw [WaveField.creditAccount_eq]
  omega

/-! ### What the operators have locked -/

/-- The total stake in a table. -/
def lockedStake (table : StakeTable) : ℕ := sumBy (fun _ entry ↦ entry.stake) table.operators

/-- What writing one entry does to the total stake. -/
theorem lockedStake_insert (table : StakeTable) (operator : AccountId) (entry : OperatorEntry) :
    sumBy (fun _ entry ↦ entry.stake) (table.operators.insert operator entry) +
      table.getStake operator = lockedStake table + entry.stake := by
  have hinsert := sumBy_insert (fun _ (entry : OperatorEntry) ↦ entry.stake) table.operators
    operator entry
  have hbefore : (table.operators[operator]?.elim 0 fun entry ↦ entry.stake) =
      table.getStake operator := by
    unfold StakeTable.getStake StakeTable.entry
    rw [ExtTreeMap.getD_eq_getD_getElem?]
    cases table.operators[operator]? <;> rfl
  rw [hbefore] at hinsert
  exact hinsert

theorem lockedStake_stake (table : StakeTable) (operator : AccountId) (amount : ℕ) :
    lockedStake (table.stake operator amount).1 + table.getStake operator =
      lockedStake table + amount :=
  lockedStake_insert table operator _

theorem lockedStake_slash (table : StakeTable) (operator : AccountId) :
    lockedStake (table.slash operator).1 + table.getStake operator = lockedStake table :=
  lockedStake_insert table operator _

/-! ### The cap -/

/-- What the accounts hold and the operators have locked. -/
def ownedUnits (oscillator : Oscillator platform) : ℕ :=
  heldUnits oscillator.waveField + lockedStake oscillator.stakeTable

/-- The supply cap: what is owned circulates, and what circulates is within the fixed maximum. -/
structure Capped (oscillator : Oscillator platform) : Prop where
  owned : ownedUnits oscillator ≤ oscillator.supplyTracker.circulating
  circulating : oscillator.supplyTracker.circulating ≤ totalWaveSupply

/-- What a registration credits to its token accounts. -/
def registrationCredit (field : WaveField) (reg : RegistrationShift) : ℕ :=
  (if (field.accountBalance reg.waveAccount).units = 0 then registrationGrant else 0) +
    if reg.usdcAccount ≠ reg.waveAccount ∧ (field.accountBalance reg.usdcAccount).units = 0 then
      registrationGrant else 0

/-- A token account that holds nothing is credited, any other one is left alone. -/
theorem heldUnits_creditIfEmpty_le (field : WaveField) (account : AccountId) :
    heldUnits (creditIfEmpty field account) ≤ heldUnits field +
      if (field.accountBalance account).units = 0 then registrationGrant else 0 := by
  unfold creditIfEmpty
  split_ifs
  · exact heldUnits_creditAccount_le field account registrationGrant
  · exact Nat.le_refl _

/-- After a token account was looked at it holds something, and any other account is as it was. -/
theorem units_creditIfEmpty (field : WaveField) (account other : AccountId) :
    (other ≠ account → (creditIfEmpty field account).accountBalance other =
      field.accountBalance other) ∧
    ((creditIfEmpty field account).accountBalance account).units ≠ 0 := by
  unfold creditIfEmpty WaveField.creditAccount
  split_ifs with hempty
  · refine ⟨fun hother ↦ ?_, ?_⟩
    · rw [WaveField.accountBalance_modify, if_neg (Ne.symm hother)]
    · rw [WaveField.accountBalance_modify, if_pos rfl]
      have hcredit : ((field.accountBalance account).saturatingAdd registrationGrant).units =
          min ((field.accountBalance account).units + registrationGrant) (2 ^ 128 - 1) := rfl
      rw [hcredit, hempty]
      decide
  · exact ⟨fun _ ↦ rfl, hempty⟩

/-- The wave-field that a registration leaves behind holds at most the credit more than before. -/
theorem heldUnits_register_le (field : WaveField) (reg : RegistrationShift) :
    heldUnits (creditIfEmpty (creditIfEmpty ((((field.ensureAccount reg.account).ensureAccount
      reg.waveAccount).ensureAccount reg.usdcAccount).setNonDecaying reg.usdcAccount)
        reg.waveAccount) reg.usdcAccount) ≤ heldUnits field + registrationCredit field reg := by
  set created := (((field.ensureAccount reg.account).ensureAccount reg.waveAccount).ensureAccount
    reg.usdcAccount).setNonDecaying reg.usdcAccount with hcreated
  have hheld : heldUnits created = heldUnits field := by
    rw [hcreated, heldUnits_setNonDecaying, heldUnits_ensureAccount, heldUnits_ensureAccount,
      heldUnits_ensureAccount]
  have hunits : ∀ account, (created.accountBalance account).units =
      (field.accountBalance account).units := by
    intro account
    rw [hcreated, WaveField.setNonDecaying, WaveField.accountBalance_modify]
    split_ifs with hsame
    · simp only [WaveField.accountBalance_ensureAccount, hsame]
    · simp only [WaveField.accountBalance_ensureAccount]
  have hwave := heldUnits_creditIfEmpty_le created reg.waveAccount
  have husdc := heldUnits_creditIfEmpty_le (creditIfEmpty created reg.waveAccount) reg.usdcAccount
  obtain ⟨hother, hself⟩ := units_creditIfEmpty created reg.waveAccount reg.usdcAccount
  rw [hunits, hheld] at hwave
  unfold registrationCredit
  by_cases hsame : reg.usdcAccount = reg.waveAccount
  · rw [hsame, if_neg hself] at husdc
    rw [if_neg (show ¬(reg.usdcAccount ≠ reg.waveAccount ∧ _) from fun hboth ↦ hboth.1 hsame),
      hsame]
    omega
  · rw [hother hsame, hunits] at husdc
    simp only [ne_eq, hsame, not_false_eq_true, true_and]
    omega

/-- What the accounts hold after the decay of the present tick. -/
def decayedUnits (oscillator : Oscillator platform) : ℕ :=
  sumBy (fun account balance ↦ (oscillator.decayedAccount account balance).units)
    oscillator.waveField.accounts

/-- The share of the present tick's decay that is burned. -/
def burnShare (oscillator : Oscillator platform) : ℕ :=
  saturatingMul 128 (oscillator.decayPhase oscillator.synthesisTick).2 metabolicBurnBp /
    basisPointsDenominator

/-- A request in the built-in domain that is backed by circulating supply: outside of accounts and
stakes circulates what a registration credits and, before a synthesis, the burned share of all that
the pools hold. -/
def Backed (oscillator : Oscillator platform) : Request → Prop
  | .applyRegistration reg =>
    (oscillator.checkAndRecordNonce reg.account 0 reg.nonce).isOk = true →
      ownedUnits oscillator + registrationCredit oscillator.waveField reg ≤
        oscillator.supplyTracker.circulating
  | .synthesize _ _ _ =>
    basisPointsDenominator * ownedUnits oscillator +
        metabolicBurnBp * unitsIn oscillator.waveField.pools ≤
      basisPointsDenominator * oscillator.supplyTracker.circulating
  | .seedAccount _ _ => True
  | .markNonDecaying _ => True
  | .ingest _ _ => True
  | .applyStake _ => True
  | .ingestCertificate _ _ => True
  | .registerDomain _ _ => False
  | .stake _ _ => False
  | .submitEvm _ _ => False

instance : DecidableRel (Backed : Oscillator platform → Request → Prop) :=
  fun oscillator request ↦ match request with
    | .applyRegistration reg => inferInstanceAs (Decidable
        ((oscillator.checkAndRecordNonce reg.account 0 reg.nonce).isOk = true →
          ownedUnits oscillator + registrationCredit oscillator.waveField reg ≤
            oscillator.supplyTracker.circulating))
    | .synthesize _ _ _ => inferInstanceAs (Decidable
        (basisPointsDenominator * ownedUnits oscillator +
            metabolicBurnBp * unitsIn oscillator.waveField.pools ≤
          basisPointsDenominator * oscillator.supplyTracker.circulating))
    | .seedAccount _ _ => isTrue trivial
    | .markNonDecaying _ => isTrue trivial
    | .ingest _ _ => isTrue trivial
    | .applyStake _ => isTrue trivial
    | .ingestCertificate _ _ => isTrue trivial
    | .registerDomain _ _ => isFalse not_false
    | .stake _ _ => isFalse not_false
    | .submitEvm _ _ => isFalse not_false

/-- Minting moves the circulating supply up by what it allows, and stays within the maximum. -/
theorem mint_cases (supply : SupplyTracker) (amount : ℕ)
    (hcap : supply.circulating ≤ totalWaveSupply) :
    (supply.mint amount).2 = true ∧
        (supply.mint amount).1.circulating = supply.circulating + amount ∧
        supply.circulating + amount ≤ totalWaveSupply ∨
      (supply.mint amount).2 = false ∧ (supply.mint amount).1 = supply := by
  cases hminted : (supply.mint amount).2 with
  | true =>
    obtain rfl | hfits := (supply.mint_eq_true_iff amount).mp hminted
    · exact .inl ⟨rfl, SupplyTracker.circulating_mint hminted, hcap⟩
    · exact .inl ⟨rfl, SupplyTracker.circulating_mint hminted, hfits⟩
  | false => exact .inr ⟨rfl, SupplyTracker.mint_of_refused hminted⟩

namespace Capped

variable {oscillator : Oscillator platform} (hcapped : Capped oscillator)

include hcapped

theorem seedAccount (account : AccountId) (amount : ℕ) :
    Capped (oscillator.seedAccount account amount) := by
  rw [seedAccount_eq]
  rcases mint_cases oscillator.supplyTracker amount hcapped.circulating with
    ⟨hflag, hminted, hcap⟩ | ⟨hflag, -⟩
  · rw [if_pos hflag]
    have hcredit := heldUnits_creditAccount_le oscillator.waveField account amount
    have howned := hcapped.owned
    refine ⟨?_, ?_⟩
    · unfold ownedUnits at howned ⊢
      dsimp only
      omega
    · exact hminted.trans_le hcap
  · rw [if_neg (Bool.eq_false_iff.mp hflag)]
    exact hcapped

theorem markNonDecaying (account : AccountId) : Capped (oscillator.markNonDecaying account) := by
  refine ⟨?_, hcapped.circulating⟩
  have howned := hcapped.owned
  unfold ownedUnits Oscillator.markNonDecaying at *
  rw [heldUnits_setNonDecaying]
  exact howned

theorem ingest (signal : Signal) (nowNs : ℕ) : Capped (oscillator.ingest signal nowNs).1 := by
  obtain ⟨_, _, _, _, hingest⟩ := oscillator.ingest_frame signal nowNs
  rw [hingest]
  exact ⟨hcapped.owned, hcapped.circulating⟩

/-- A stake that moves keeps the cap. Assumes: the operator has no more than before, in balance and
stake together. -/
theorem moved {stake : StakeShift} {balance : Balance} (liquid : ℕ)
    (hsum : balance.units + stake.amount ≤
      (oscillator.operatorBalance stake).units + oscillator.lockedBy stake) :
    Capped (oscillator.moved stake balance liquid) := by
  have howned := hcapped.owned
  have hheld : heldUnits (oscillator.moved stake balance liquid).waveField +
      (oscillator.operatorBalance stake).units = heldUnits oscillator.waveField + balance.units :=
    heldUnits_insert oscillator.waveField stake.operator balance
  have hlocked : lockedStake (oscillator.moved stake balance liquid).stakeTable +
      oscillator.lockedBy stake = lockedStake oscillator.stakeTable + stake.amount :=
    lockedStake_stake oscillator.stakeTable stake.operator stake.amount
  have hcirculating : (oscillator.moved stake balance liquid).supplyTracker.circulating =
      oscillator.supplyTracker.circulating := rfl
  refine ⟨?_, hcapped.circulating⟩
  unfold ownedUnits at howned ⊢
  omega

theorem applyStake (stake : StakeShift) : Capped (oscillator.applyStake stake).1 := by
  have hnoted : Capped (oscillator.noted stake) := ⟨hcapped.owned, hcapped.circulating⟩
  have houtcome := oscillator.applyStake_outcome stake
  generalize oscillator.applyStake stake = result at houtcome ⊢
  cases houtcome with
  | refused => exact hcapped
  | repeated => exact hnoted
  | short => exact hnoted
  | raised liquid _ hraises hcovered =>
    refine hcapped.moved liquid ?_
    show (oscillator.operatorBalance stake).units - _ + stake.amount ≤ _
    omega
  | lowered liquid _ hlowers =>
    refine hcapped.moved liquid ?_
    have hcredit : ((oscillator.operatorBalance stake).saturatingAdd
        (oscillator.lockedBy stake - stake.amount)).units ≤
          (oscillator.operatorBalance stake).units + (oscillator.lockedBy stake - stake.amount) :=
      min_le_left _ _
    omega

theorem ingestCertificate (cert : SynthesisCertificate) (registry : KeyRegistry) :
    Capped (oscillator.ingestCertificate cert registry).1 := by
  have howned := hcapped.owned
  have hcirculating := hcapped.circulating
  rcases oscillator.ingestCertificate_cases cert registry with ⟨-, hsame⟩ |
    ⟨-, -, ⟨-, -, -, hslashed⟩ | ⟨-, hrecorded⟩⟩
  · rw [hsame]
    exact hcapped
  · rw [hslashed]
    have hlocked := lockedStake_slash oscillator.stakeTable cert.operator
    refine ⟨?_, ?_⟩
    · unfold ownedUnits at howned ⊢
      dsimp only
      rw [SupplyTracker.circulating_burn]
      omega
    · dsimp only
      rw [SupplyTracker.circulating_burn]
      omega
  · rw [hrecorded]
    exact ⟨howned, hcirculating⟩

theorem applyRegistration (reg : RegistrationShift)
    (hbacked : Backed oscillator (.applyRegistration reg)) :
    Capped (oscillator.applyRegistration reg) := by
  rw [applyRegistration_eq]
  split_ifs with hfresh
  · have hcovered := hbacked (by rw [checkAndRecordNonce_of_isFresh hfresh]; rfl)
    refine ⟨?_, hcapped.circulating⟩
    have hcredited := heldUnits_register_le oscillator.waveField reg
    unfold ownedUnits at hcovered ⊢
    dsimp only [withAccounts]
    omega
  · exact hcapped

end Capped

/-! ### A synthesis -/

/-- What the accounts keep and what is burned come to no more than the accounts hold and the burned
share of the pools: each account loses at least what is burned of its decay. -/
theorem decayedUnits_add_burnShare_le (oscillator : Oscillator platform) :
    basisPointsDenominator * (decayedUnits oscillator + burnShare oscillator) ≤
      basisPointsDenominator * heldUnits oscillator.waveField +
        metabolicBurnBp * unitsIn oscillator.waveField.pools := by
  have hkept : decayedUnits oscillator + (oscillator.decayPhase oscillator.synthesisTick).2 ≤
      heldUnits oscillator.waveField + unitsIn oscillator.waveField.pools := by
    have htaken := oscillator.waveField.applyMetabolicDecay_le oscillator.synthesisTick
      (dexLambda oscillator.domainRegistry) fun account ↦
        (oscillator.stakeTable.stakedOperators.map Prod.fst).contains account
    rwa [WaveField.applyMetabolicDecay, unitsIn, sumBy_map] at htaken
  have hheld : decayedUnits oscillator ≤ heldUnits oscillator.waveField :=
    sumBy_le_sumBy (fun account balance ↦ WaveField.decayAccount_units_le _ _ _ account balance)
      oscillator.waveField.accounts
  have hburned : basisPointsDenominator * burnShare oscillator ≤
      (oscillator.decayPhase oscillator.synthesisTick).2 * metabolicBurnBp :=
    (Nat.mul_div_le _ _).trans (min_le_left _ _)
  unfold basisPointsDenominator metabolicBurnBp at *
  omega

/-- The accounts hold in total what their units add up to. -/
theorem heldUnits_eq_totalUnits {field : WaveField} {balances : ExtTreeMap AccountId ℕ}
    (hunits : ∀ account : AccountId, field.unitsAt account = balances[account]?) :
    heldUnits field = totalUnits balances := by
  have hbalances : balances =
      field.accounts.map fun _ (balance : Balance) ↦ balance.units := by
    refine ExtTreeMap.ext_getElem? fun account ↦ ?_
    rw [← hunits account, ExtTreeMap.getElem?_map]
    rfl
  rw [hbalances, totalUnits, sumBy_map, heldUnits]

/-- Of the sections before the loop only the decay touches the supply, from which it burns a share.
-/
theorem prepared_supplyTracker (oscillator : Oscillator platform) (keys : KeyRegistry)
    (order : SynthesisOrder) :
    (oscillator.prepared keys order).supplyTracker =
      if 0 < burnShare oscillator then oscillator.supplyTracker.burn (burnShare oscillator)
      else oscillator.supplyTracker := by
  set admitted := ((({ oscillator with
    synthesisTick := wrappingAdd 64 oscillator.synthesisTick 1 }.decayPhase
      oscillator.synthesisTick).1.syncFieldIntoDag).admitPhase keys order.toDagOrder
        oscillator.synthesisTick).1 with hadmitted
  obtain ⟨_, _, -, hphase⟩ := commutativePhase_eq admitted order oscillator.synthesisTick
  have hprepared : oscillator.prepared keys order =
      (admitted.commutativePhase order oscillator.synthesisTick).1 := rfl
  rw [hprepared, hphase]
  rfl

/-- The decay of a synthesis takes the burned share out of circulation. -/
theorem prepared_circulating (oscillator : Oscillator platform) (keys : KeyRegistry)
    (order : SynthesisOrder) :
    (oscillator.prepared keys order).supplyTracker.circulating =
      oscillator.supplyTracker.circulating - burnShare oscillator := by
  rw [prepared_supplyTracker]
  split_ifs with hburns
  · exact SupplyTracker.circulating_burn _ _
  · rw [Nat.eq_zero_of_not_pos hburns, Nat.sub_zero]

/-- What a synthesis does to the stakes and the circulating supply: it burns the share of the decay,
and when the node's own certificate conflicts with one it kept, it burns the node's stake. It leaves
the domains alone. Assumes: the synthesis returns. -/
theorem synthesize_supply {oscillator final : Oscillator platform} {keys : KeyRegistry}
    {order : SynthesisOrder} {timestampNs : ℕ} {result : SynthesisResult} {hashes : List TxHash}
    (hsynthesize : oscillator.synthesize keys order timestampNs = some (final, result, hashes)) :
    (∃ slashed, lockedStake final.stakeTable + slashed = lockedStake oscillator.stakeTable ∧
      final.supplyTracker.circulating =
        oscillator.supplyTracker.circulating - burnShare oscillator - slashed) ∧
    final.domainRegistry = oscillator.domainRegistry ∧
    (oscillator.evmPool.pending = [] → final.evmPool.pending = []) := by
  have hcirculating := oscillator.prepared_circulating keys order
  obtain ⟨_, _, _, _, _, -, hprepared⟩ := oscillator.prepared_eq keys order
  have hstakes : (oscillator.prepared keys order).stakeTable = oscillator.stakeTable := by
    rw [hprepared]
  have hdomains := oscillator.prepared_domainRegistry keys order
  rcases synthesize_cases hsynthesize with ⟨-, -, rfl, -⟩ |
    ⟨_, ledger, _, root, _, _, -, -, hfinish⟩
  · refine ⟨⟨0, by rw [hstakes, Nat.add_zero], by rw [hcirculating, Nat.sub_zero]⟩, hdomains,
      fun hpending ↦ ?_⟩
    rw [hprepared]
    exact hpending
  · obtain ⟨evmPool, balances, evmHashes, waveField, rewardPool, hevm, -, -, -, hfinal⟩ :=
      finish_cases hfinish
    have hidle : oscillator.evmPool.pending = [] → evmPool.pending = [] := by
      intro hpending
      obtain ⟨idle, hidle, hreturns⟩ := evm_idle hpending keys order ledger
      rw [hreturns, Option.some.injEq, Prod.mk.injEq] at hevm
      rw [← hevm.1]
      exact hidle
    rcases certify_cases _ keys oscillator.synthesisTick timestampNs result root hashes
      evmHashes with hnone | ⟨cert, certificates, -, -, -, -, hsome⟩
    · rw [hfinal, hnone]
      exact ⟨⟨0, by rw [Nat.add_zero, hstakes], by rw [Nat.sub_zero, hcirculating]⟩, hdomains,
        hidle⟩
    · rw [hfinal, hsome]
      rcases ingestCertificate_cases _ cert keys with ⟨-, hsame⟩ |
        ⟨-, -, ⟨-, -, -, hslashed⟩ | ⟨-, hrecorded⟩⟩
      · rw [hsame]
        exact ⟨⟨0, by rw [Nat.add_zero, hstakes], by rw [Nat.sub_zero, hcirculating]⟩, hdomains,
          hidle⟩
      · rw [hslashed]
        dsimp only
        refine ⟨⟨_, lockedStake_slash _ _ |>.trans ?_, ?_⟩, hdomains, hidle⟩
        · rw [hstakes]
        · rw [SupplyTracker.circulating_burn, hcirculating]
      · rw [hrecorded]
        exact ⟨⟨0, by rw [Nat.add_zero, hstakes], by rw [Nat.sub_zero, hcirculating]⟩, hdomains,
          hidle⟩

/-! ### Runs -/

/-- A request leaves the domains alone unless it registers one, and the EVM pool unless it submits
to it or is a synthesis. Assumes: the request is served and registers no domain. -/
theorem step_domainRegistry {oscillator next : Oscillator platform} {request : Request}
    {response : Response}
    (hregister : ∀ policy registrant, request ≠ .registerDomain policy registrant)
    (hstep : Consensus.step platform oscillator request = some (next, response)) :
    next.domainRegistry = oscillator.domainRegistry ∧
      (request.isSynthesis = false → (∀ tx nowNs, request ≠ .submitEvm tx nowNs) →
        next.evmPool = oscillator.evmPool) := by
  cases hkind : request.isSynthesis with
  | true =>
    obtain ⟨keys, order, timestampNs, result, hashes, rfl, hsynthesize⟩ :=
      exists_synthesis hkind hstep
    exact ⟨(synthesize_supply hsynthesize).2.1, fun hother ↦ by cases hother⟩
  | false =>
    have hframe := step_frame hkind hstep
    exact ⟨hframe.domainRegistry hregister, fun _ hsubmit ↦ hframe.evmPool hsubmit⟩

/-- A backed request other than a synthesis leaves the domains and the EVM pool alone. Assumes: the
request is backed, is served and is not a synthesis. -/
theorem step_domains {oscillator next : Oscillator platform} {request : Request}
    {response : Response} (hbacked : Backed oscillator request)
    (hkind : request.isSynthesis = false)
    (hstep : Consensus.step platform oscillator request = some (next, response)) :
    next.domainRegistry = oscillator.domainRegistry ∧ next.evmPool = oscillator.evmPool := by
  obtain ⟨hdomains, hpool⟩ := step_domainRegistry
    (fun policy registrant hrequest ↦ by rw [hrequest] at hbacked; exact hbacked) hstep
  exact ⟨hdomains, hpool hkind fun tx nowNs hrequest ↦ by rw [hrequest] at hbacked; exact hbacked⟩

/-- In a run from a new node in the built-in domain: the invariants of runs, and the cap. -/
structure CappedRun (oscillator : Oscillator platform) : Prop where
  sound : Sound oscillator
  mirrored : Mirrored oscillator
  domains : oscillator.domainRegistry = DomainRegistry.new
  idle : oscillator.evmPool.pending = []
  capped : Capped oscillator

/-- The built-in domain charges no fee. -/
theorem boundedFees_new : BoundedFees DomainRegistry.new := by
  decide +kernel

namespace CappedRun

variable {oscillator : Oscillator platform} (hrun : CappedRun oscillator)

include hrun

/-- A synthesis keeps the cap. Assumes: the synthesis is backed and returns. -/
theorem synthesize {final : Oscillator platform} {keys : KeyRegistry} {order : SynthesisOrder}
    {timestampNs : ℕ} {result : SynthesisResult} {hashes : List TxHash}
    (hbacked : Backed oscillator (.synthesize keys order timestampNs))
    (hsynthesize : oscillator.synthesize keys order timestampNs = some (final, result, hashes)) :
    Capped final := by
  have hdecayed : totalUnits oscillator.syncedDag.balances = decayedUnits oscillator := by
    rw [hrun.mirrored.syncedDag_balances, totalUnits, sumBy_map, decayedUnits]
  have hcirculating := hrun.capped.circulating
  have hwidth : totalWaveSupply < 2 ^ 128 := by decide
  have hcovered : decayedUnits oscillator + lockedStake oscillator.stakeTable +
      burnShare oscillator ≤ oscillator.supplyTracker.circulating := by
    have hslack : basisPointsDenominator * ownedUnits oscillator +
        metabolicBurnBp * unitsIn oscillator.waveField.pools ≤
      basisPointsDenominator * oscillator.supplyTracker.circulating := hbacked
    have hkept := decayedUnits_add_burnShare_le oscillator
    unfold basisPointsDenominator metabolicBurnBp ownedUnits at *
    omega
  have hfees : BoundedFees oscillator.domainRegistry := by
    rw [hrun.domains]
    exact boundedFees_new
  have htotal := totalUnits_synthesize hrun.sound hfees (by omega) hrun.idle hsynthesize
  obtain ⟨hunits, hresult⟩ := hrun.sound.units_synthesize hsynthesize
  obtain ⟨⟨slashed, hlocked, hburned⟩, -, -⟩ := synthesize_supply hsynthesize
  have hheld : heldUnits final.waveField ≤ decayedUnits oscillator := by
    rw [heldUnits_eq_totalUnits hunits, ← hresult]
    omega
  refine ⟨?_, ?_⟩
  · unfold ownedUnits
    omega
  · omega

/-- A backed request keeps the cap and the invariants. Assumes: the request is backed and is served.
-/
theorem step {next : Oscillator platform} {request : Request} {response : Response}
    (hbacked : Backed oscillator request)
    (hstep : Consensus.step platform oscillator request = some (next, response)) :
    CappedRun next := by
  have hsound := hrun.sound.step hstep
  have hmirrored := hrun.mirrored.step hstep
  cases hkind : request.isSynthesis with
  | true =>
    obtain ⟨keys, order, timestampNs, result, hashes, rfl, hsynthesize⟩ :=
      exists_synthesis hkind hstep
    obtain ⟨-, hdomains, hidle⟩ := synthesize_supply hsynthesize
    exact ⟨hsound, hmirrored, hdomains.trans hrun.domains, hidle hrun.idle,
      hrun.synthesize hbacked hsynthesize⟩
  | false =>
    obtain ⟨hdomains, hpool⟩ := step_domains hbacked hkind hstep
    refine ⟨hsound, hmirrored, hdomains.trans hrun.domains,
      (congrArg EvmPool.pending hpool).trans hrun.idle, ?_⟩
    cases request with
    | synthesize keys order timestampNs => cases hkind
    | seedAccount account amount =>
      obtain ⟨rfl, -⟩ := Prod.mk.inj (Option.some.inj hstep)
      exact hrun.capped.seedAccount account amount
    | markNonDecaying account =>
      obtain ⟨rfl, -⟩ := Prod.mk.inj (Option.some.inj hstep)
      exact hrun.capped.markNonDecaying account
    | ingest signal nowNs =>
      obtain ⟨rfl, -⟩ := Prod.mk.inj (Option.some.inj hstep)
      exact hrun.capped.ingest signal nowNs
    | applyStake stake =>
      obtain ⟨rfl, -⟩ := Prod.mk.inj (Option.some.inj hstep)
      exact hrun.capped.applyStake stake
    | applyRegistration reg =>
      obtain ⟨rfl, -⟩ := Prod.mk.inj (Option.some.inj hstep)
      exact hrun.capped.applyRegistration reg hbacked
    | ingestCertificate cert keys =>
      obtain ⟨rfl, -⟩ := Prod.mk.inj (Option.some.inj hstep)
      exact hrun.capped.ingestCertificate cert keys
    | registerDomain policy registrant => exact hbacked.elim
    | stake operator amount => exact hbacked.elim
    | submitEvm tx nowNs => exact hbacked.elim

end CappedRun

/-- In every run of backed requests to a new node without stakes, what the accounts hold and the
operators have locked circulates, and what circulates is within the fixed maximum. Assumes: every
request of the run is backed. -/
theorem supply_capped {nttSize : ℕ} {operatorKeypair : Option KeyPair} {config : StakingConfig}
    {history : List (Oscillator platform × Request)} {oscillator : Oscillator platform}
    (hreaches : Reaches (Consensus.step platform) Backed
      (create nttSize operatorKeypair (StakeTable.new config)) history oscillator) :
    heldUnits oscillator.waveField + lockedStake oscillator.stakeTable ≤
      oscillator.supplyTracker.circulating ∧
    oscillator.supplyTracker.circulating ≤ totalWaveSupply := by
  have hinitial : CappedRun (create nttSize operatorKeypair (StakeTable.new config) :
      Oscillator platform) := by
    refine ⟨sound_create _ _ _, mirrored_create _ _ _, rfl, rfl, ⟨?_, Nat.zero_le _⟩⟩
    have hheld : heldUnits (WaveField.new nttSize) = 0 := rfl
    have hlocked : lockedStake (StakeTable.new config) = 0 := rfl
    show heldUnits (WaveField.new nttSize) + lockedStake (StakeTable.new config) ≤ 0
    rw [hheld, hlocked]
  have hrun : CappedRun oscillator :=
    hreaches.invariant hinitial fun _ _ _ _ hbacked hrun hstep ↦ hrun.step hbacked hstep
  exact ⟨hrun.capped.owned, hrun.capped.circulating⟩

/-- The requests of a faucet, two syntheses in which the seeded account decays, a registration that
the slack covers, and a transfer that a third synthesis applies. -/
def backedQueue : List Request :=
  [.seedAccount (sampleAccount 1) 2000000000000000000, .sample, .sample,
    .applyRegistration ⟨sampleAccount 2, 2, sampleAccount 3, sampleAccount 4, 1, 0⟩,
    .ingest (.stateful (StatefulShift.sample 1 400 [(1, 1)] [] 1 0)) 1, .sample]

/-- A run of these requests, all of which are backed. -/
theorem supply_capped_backedQueue :
    ∃ (history : List (Oscillator Platform.sample × Request))
      (oscillator : Oscillator Platform.sample),
      Reaches (step Platform.sample) Backed
        (create 8 none (StakeTable.new StakingConfig.default)) history oscillator ∧
      (oscillator.waveField.accountBalance ⟨9⟩).units = 400 ∧
      heldUnits oscillator.waveField + lockedStake oscillator.stakeTable ≤
        oscillator.supplyTracker.circulating ∧
      oscillator.supplyTracker.circulating ≤ totalWaveSupply := by
  have hruns : (run (step Platform.sample) Backed
      (create 8 none (StakeTable.new StakingConfig.default)) backedQueue).map
        (fun oscillator ↦ (oscillator.waveField.accountBalance ⟨9⟩).units) =
      some 400 := by
    decide +kernel
  obtain ⟨oscillator, hrun, hreceived⟩ := Option.map_eq_some_iff.mp hruns
  obtain ⟨history, -, hreaches⟩ := reaches_of_run hrun
  exact ⟨history, oscillator, hreaches, hreceived, supply_capped hreaches⟩

/-- A registration on a new node: its token accounts hold value and nothing circulates. -/
theorem uncapped_registration :
    ∃ (history : List (Oscillator Platform.sample × Request))
      (oscillator : Oscillator Platform.sample),
      Reaches (step Platform.sample) anyStep
        (create 8 none (StakeTable.new StakingConfig.default)) history oscillator ∧
      history.map Prod.snd =
        [.applyRegistration ⟨sampleAccount 1, 1, sampleAccount 2, sampleAccount 3, 1, 0⟩] ∧
      oscillator.supplyTracker.circulating <
        heldUnits oscillator.waveField + lockedStake oscillator.stakeTable := by
  have hruns : (run (step Platform.sample) anyStep
      (create 8 none (StakeTable.new StakingConfig.default))
      [.applyRegistration ⟨sampleAccount 1, 1, sampleAccount 2, sampleAccount 3, 1, 0⟩]).map
        (fun oscillator ↦ decide (oscillator.supplyTracker.circulating <
          heldUnits oscillator.waveField + lockedStake oscillator.stakeTable)) =
      some true := by
    decide +kernel
  obtain ⟨oscillator, hrun, huncapped⟩ := Option.map_eq_some_iff.mp hruns
  obtain ⟨history, hinputs, hreaches⟩ := reaches_of_run hrun
  exact ⟨history, oscillator, hreaches, hinputs, of_decide_eq_true huncapped⟩

end Fluidic.Consensus.Oscillator
