import Fluidic.Consensus.SupplyCap

/-!
# The decay clock of an account

Every balance records the tick it was last decayed to and the tick in which its account was last
active. Requests other than a synthesis leave both alone (`step_clock`), and they leave the accounts
that they do not concern as they were. A synthesis writes the tick of activity of the parties of the
shifts that it applies and of no other account, and it advances the tick (`synthesize_clock`).
-/

set_option autoImplicit false
set_option relaxedAutoImplicit false

namespace Fluidic.Consensus

open Library Crypto Fluidic.Field Value Operator Evm
open Std (ExtTreeMap ExtTreeSet LawfulEqCmp)

/-- The accounts whose balance a request other than a synthesis may change. -/
def Request.Concerns (request : Request) (account : AccountId) : Prop :=
  match request with
  | .seedAccount seeded _ => seeded = account
  | .markNonDecaying marked => marked = account
  | .registerDomain _ registrant => registrant = account
  | .applyStake announced => announced.operator = account
  | .applyRegistration reg =>
    reg.account = account ∨ reg.waveAccount = account ∨ reg.usdcAccount = account
  | .synthesize _ _ _ => True
  | _ => False

instance (request : Request) (account : AccountId) : Decidable (request.Concerns account) :=
  match request with
  | .seedAccount seeded _ => inferInstanceAs (Decidable (seeded = account))
  | .markNonDecaying marked => inferInstanceAs (Decidable (marked = account))
  | .registerDomain _ registrant => inferInstanceAs (Decidable (registrant = account))
  | .applyStake announced => inferInstanceAs (Decidable (announced.operator = account))
  | .applyRegistration reg => inferInstanceAs (Decidable
      (reg.account = account ∨ reg.waveAccount = account ∨ reg.usdcAccount = account))
  | .synthesize _ _ _ => isTrue trivial
  | .ingest _ _ | .stake _ _ | .ingestCertificate _ _ | .submitEvm _ _ => isFalse id

namespace Oscillator

variable {platform : Platform}

/-! ### Changes of the wave-field -/

/-- What requests do to the wave-field: every account keeps its tick of activity, and the accounts
that are not concerned keep their balances. -/
structure FieldChange (concerned : AccountId → Prop) (field next : WaveField) : Prop where
  active : ∀ account, (next.accountBalance account).lastActiveTick =
    (field.accountBalance account).lastActiveTick
  other : ∀ account, ¬concerned account → next.accounts[account]? = field.accounts[account]?

namespace FieldChange

variable {concerned : AccountId → Prop} {first second third : WaveField}

theorem refl (field : WaveField) : FieldChange concerned field field :=
  ⟨fun _ ↦ rfl, fun _ _ ↦ rfl⟩

theorem trans (hfirst : FieldChange concerned first second)
    (hsecond : FieldChange concerned second third) : FieldChange concerned first third where
  active account := (hsecond.active account).trans (hfirst.active account)
  other account hother := (hsecond.other account hother).trans (hfirst.other account hother)

/-- Writing a concerned account is such a change. Assumes: the account is concerned, and its tick of
activity is kept. -/
theorem insert (field : WaveField) {account : AccountId} (hconcerned : concerned account)
    {balance : Balance}
    (hactive : balance.lastActiveTick = (field.accountBalance account).lastActiveTick) :
    FieldChange concerned field
      { field with accounts := field.accounts.insert account balance } where
  active other := by
    show ((field.accounts.insert account balance).getD other Balance.zero).lastActiveTick = _
    rw [ExtTreeMap.getD_insert]
    split_ifs with hsame
    · rw [hactive, LawfulEqCmp.compare_eq_iff_eq.mp hsame]
    · rfl
  other other hother := by
    refine getElem?_insert_of_ne _ ?_ _
    rintro rfl
    exact hother hconcerned

/-- Updating a concerned account is such a change. Assumes: the account is concerned, and the update
keeps the tick of activity. -/
theorem modify (field : WaveField) {account : AccountId} (hconcerned : concerned account)
    {update : Balance → Balance}
    (hupdate : ∀ balance, (update balance).lastActiveTick = balance.lastActiveTick) :
    FieldChange concerned field
      { field with accounts := (field.ensureAccount account).accounts.modify account update } := by
  rw [WaveField.ensureAccount_modify]
  exact insert field hconcerned (hupdate _)

theorem ensureAccount (field : WaveField) {account : AccountId} (hconcerned : concerned account) :
    FieldChange concerned field (field.ensureAccount account) where
  active other := by rw [WaveField.accountBalance_ensureAccount]
  other other hother := by
    rw [WaveField.getElem?_ensureAccount, if_neg]
    rintro rfl
    exact hother hconcerned

theorem creditAccount (field : WaveField) {account : AccountId} (hconcerned : concerned account)
    (amount : ℕ) : FieldChange concerned field (field.creditAccount account amount) :=
  modify field hconcerned fun _ ↦ Balance.lastActiveTick_saturatingAdd _ _

theorem setNonDecaying (field : WaveField) {account : AccountId} (hconcerned : concerned account) :
    FieldChange concerned field (field.setNonDecaying account) :=
  modify field hconcerned fun _ ↦ rfl

theorem debitAccount (field : WaveField) {account : AccountId} (hconcerned : concerned account)
    (amount : ℕ) : FieldChange concerned field (field.debitAccount account amount).1 := by
  unfold WaveField.debitAccount
  dsimp only
  split_ifs
  · exact ensureAccount field hconcerned
  · exact modify field hconcerned fun _ ↦ Balance.lastActiveTick_saturatingSub _ _

theorem creditIfEmpty (field : WaveField) {account : AccountId} (hconcerned : concerned account) :
    FieldChange concerned field (Oscillator.creditIfEmpty field account) := by
  unfold Oscillator.creditIfEmpty
  split_ifs
  · exact creditAccount field hconcerned _
  · exact refl field

end FieldChange

/-! ### Requests -/

/-- What a request other than a synthesis does to the clocks. -/
structure ClockStep (request : Request) (oscillator next : Oscillator platform) : Prop where
  tick : next.synthesisTick = oscillator.synthesisTick
  field : FieldChange request.Concerns oscillator.waveField next.waveField

/-- A request other than a synthesis keeps the tick and every tick of activity, and leaves the
accounts that it does not concern. Assumes: the request is served, and is not a synthesis. -/
theorem step_clock {oscillator next : Oscillator platform} {request : Request}
    {response : Response} (hkind : request.isSynthesis = false)
    (hstep : Consensus.step platform oscillator request = some (next, response)) :
    ClockStep request oscillator next := by
  cases request with
  | synthesize keys order timestampNs => cases hkind
  | seedAccount account amount =>
    obtain ⟨rfl, -⟩ := Prod.mk.inj (Option.some.inj hstep)
    rw [seedAccount_eq]
    split_ifs
    · exact ⟨rfl, @FieldChange.creditAccount (account = ·) _ account rfl _⟩
    · exact ⟨rfl, .refl _⟩
  | markNonDecaying account =>
    obtain ⟨rfl, -⟩ := Prod.mk.inj (Option.some.inj hstep)
    exact ⟨rfl, @FieldChange.setNonDecaying (account = ·) _ account rfl⟩
  | registerDomain policy registrant =>
    obtain ⟨rfl, -⟩ := Prod.mk.inj (Option.some.inj hstep)
    show ClockStep _ oscillator (oscillator.registerDomain policy registrant).1
    have houtcome := oscillator.registerDomain_outcome policy registrant
    generalize oscillator.registerDomain policy registrant = result at houtcome ⊢
    cases houtcome with
    | refused => exact ⟨rfl, .refl _⟩
    | registered =>
      exact ⟨rfl, @FieldChange.insert (registrant = ·) _ registrant rfl _
        (Balance.lastActiveTick_saturatingSub _ _)⟩
  | ingest signal nowNs =>
    obtain ⟨rfl, -⟩ := Prod.mk.inj (Option.some.inj hstep)
    obtain ⟨_, _, _, _, hingest⟩ := oscillator.ingest_frame signal nowNs
    show ClockStep _ oscillator (oscillator.ingest signal nowNs).1
    rw [hingest]
    exact ⟨rfl, .refl _⟩
  | applyStake stake =>
    obtain ⟨rfl, -⟩ := Prod.mk.inj (Option.some.inj hstep)
    show ClockStep _ oscillator (oscillator.applyStake stake).1
    have houtcome := oscillator.applyStake_outcome stake
    generalize oscillator.applyStake stake = result at houtcome ⊢
    cases houtcome with
    | refused => exact ⟨rfl, .refl _⟩
    | repeated => exact ⟨rfl, .refl _⟩
    | short => exact ⟨rfl, .refl _⟩
    | raised =>
      exact ⟨rfl, @FieldChange.insert (stake.operator = ·) _ stake.operator rfl _
        (Balance.lastActiveTick_saturatingSub _ _)⟩
    | lowered =>
      exact ⟨rfl, @FieldChange.insert (stake.operator = ·) _ stake.operator rfl _
        (Balance.lastActiveTick_saturatingAdd _ _)⟩
  | stake operator amount =>
    obtain ⟨rfl, -⟩ := Prod.mk.inj (Option.some.inj hstep)
    exact ⟨rfl, .refl _⟩
  | applyRegistration reg =>
    obtain ⟨rfl, -⟩ := Prod.mk.inj (Option.some.inj hstep)
    have hwave : (Request.applyRegistration reg).Concerns reg.waveAccount := .inr (.inl rfl)
    have husdc : (Request.applyRegistration reg).Concerns reg.usdcAccount := .inr (.inr rfl)
    rw [applyRegistration_eq]
    split_ifs
    · refine ⟨rfl, ?_⟩
      apply FieldChange.trans _ (FieldChange.creditIfEmpty _ husdc)
      apply FieldChange.trans _ (FieldChange.creditIfEmpty _ hwave)
      apply FieldChange.trans _ (FieldChange.setNonDecaying _ husdc)
      apply FieldChange.trans _ (FieldChange.ensureAccount _ husdc)
      apply FieldChange.trans _ (FieldChange.ensureAccount _ hwave)
      exact FieldChange.ensureAccount _ (.inl rfl)
    · exact ⟨rfl, .refl _⟩
  | ingestCertificate cert keys =>
    obtain ⟨rfl, -⟩ := Prod.mk.inj (Option.some.inj hstep)
    exact ⟨rfl, .refl _⟩
  | submitEvm tx nowNs =>
    obtain ⟨rfl, -⟩ := Prod.mk.inj (Option.some.inj hstep)
    exact ⟨rfl, .refl _⟩

/-! ### A synthesis -/

/-- The tick of activity of an account, zero when it is absent. -/
def lastActive (field : WaveField) (account : AccountId) : ℕ :=
  (field.accountBalance account).lastActiveTick

/-- Decay keeps the ticks of activity. -/
theorem lastActive_decayAccount (immune : AccountId → Bool) (tick ratePpm : ℕ) (account : AccountId)
    (balance : Balance) :
    (WaveField.decayAccount immune tick ratePpm account balance).1.lastActiveTick =
      balance.lastActiveTick := by
  unfold WaveField.decayAccount Balance.decayInPlace
  dsimp only
  split_ifs <;> rfl

/-- The sections before the loop keep the ticks of activity. -/
theorem lastActive_prepared (oscillator : Oscillator platform) (keys : KeyRegistry)
    (order : SynthesisOrder) (account : AccountId) :
    lastActive (oscillator.prepared keys order).waveField account =
      lastActive oscillator.waveField account := by
  obtain ⟨waveField, _, _, _, _, haccounts, hprepared⟩ := oscillator.prepared_eq keys order
  rw [hprepared]
  show lastActive waveField account = _
  unfold lastActive WaveField.accountBalance
  rw [haccounts, ExtTreeMap.getD_eq_getD_getElem?, ExtTreeMap.getD_eq_getD_getElem?,
    ExtTreeMap.getElem?_map]
  cases oscillator.waveField.accounts[account]? with
  | none => rfl
  | some balance => exact lastActive_decayAccount _ _ _ account balance

/-- Charging fees keeps the ticks of activity. -/
theorem lastActive_chargeFees (oscillator : Oscillator platform) (hashes : List TxHash)
    (totalFees : ℕ) (account : AccountId) :
    lastActive (oscillator.chargeFees hashes totalFees).waveField account =
      lastActive oscillator.waveField account := by
  have hfold : ∀ (debts : List (AccountId × ℕ)) (field : WaveField),
      lastActive (debts.foldl (fun field debt ↦
        (field.debitAccount debt.1 (min debt.2 (field.accountBalance debt.1).units)).1) field)
          account = lastActive field account := by
    intro debts
    induction debts with
    | nil => exact fun _ ↦ rfl
    | cons debt debts ih =>
      intro field
      rw [List.foldl_cons, ih]
      exact (@FieldChange.debitAccount (debt.1 = ·) field debt.1 rfl _).active account
  unfold chargeFees
  split_ifs
  · rfl
  · exact hfold _ _

/-- The copy back writes the tick of activity of the active accounts among the balances, and of no
other. -/
theorem lastActive_syncDagIntoField (oscillator : Oscillator platform) (tick : ℕ)
    (active : ExtTreeSet AccountId) (balances : ExtTreeMap AccountId ℕ) (account : AccountId) :
    lastActive (oscillator.syncDagIntoField tick active balances).waveField account =
      if active.contains account = true ∧ account ∈ balances then tick
      else lastActive oscillator.waveField account := by
  have hfold : ∀ (entries : List (AccountId × ℕ)) (field : WaveField),
      lastActive (entries.foldl (fun field entry ↦ { field with
        accounts := (field.ensureAccount entry.1).accounts.modify entry.1 fun balance ↦
          { balance with
            units := entry.2
            lastActiveTick := if active.contains entry.1 then tick
              else balance.lastActiveTick } }) field) account =
        if active.contains account = true ∧ account ∈ entries.map Prod.fst then tick
        else lastActive field account := by
    intro entries
    induction entries with
    | nil => exact fun _ ↦ by simp
    | cons entry entries ih =>
      intro field
      have hmem : account ∈ (entry :: entries).map Prod.fst ↔
          entry.1 = account ∨ account ∈ entries.map Prod.fst := by
        rw [List.map_cons, List.mem_cons, @eq_comm _ account]
      rw [List.foldl_cons, ih, lastActive, WaveField.accountBalance_modify]
      simp only [hmem]
      by_cases hsame : entry.1 = account
      · subst hsame
        rw [if_pos rfl]
        by_cases hactive : active.contains entry.1 = true
        · simp only [hactive, true_and, true_or, if_true, ite_self]
        · simp only [hactive, false_and, if_false, lastActive, Bool.false_eq_true]
      · simp only [hsame, false_or, if_false]
        rfl
  have hkeys : account ∈ balances.toList.map Prod.fst ↔ account ∈ balances := by
    rw [List.mem_map, ← ExtTreeMap.isSome_getElem?_iff_mem, Option.isSome_iff_exists]
    constructor
    · rintro ⟨⟨key, units⟩, hentry, rfl⟩
      exact ⟨units, ExtTreeMap.mem_toList_iff_getElem?_eq_some.mp hentry⟩
    · rintro ⟨units, hunits⟩
      exact ⟨(account, units), ExtTreeMap.mem_toList_iff_getElem?_eq_some.mpr hunits, rfl⟩
  have hwhole := hfold balances.toList oscillator.waveField
  simp only [hkeys] at hwhole
  exact hwhole

/-- What a synthesis does to the tick and to the ticks of activity, when the topological order
exists: the accounts of the balances that the loop made active have the tick, the others keep
theirs. Assumes: the sections after the loop return. -/
theorem finish_clock {oscillator final : Oscillator platform} {keys : KeyRegistry}
    {order : SynthesisOrder} {tick timestampNs applied : ℕ} {root : Bytes32} {decayed : ℕ}
    {rejected : List DagError} {ledger : Ledger} {result : SynthesisResult} {hashes : List TxHash}
    (hfinish : oscillator.finish keys order tick timestampNs applied root decayed rejected ledger =
      some (final, result, hashes)) :
    final.synthesisTick = oscillator.synthesisTick ∧
    ∀ account, lastActive final.waveField account =
      if ledger.activeAccounts.contains account = true ∧ account ∈ final.dag.balances then tick
      else lastActive oscillator.waveField account := by
  unfold finish at hfinish
  simp only [bind, Option.bind_eq_some_iff, pure, Option.some.injEq, Prod.mk.injEq] at hfinish
  obtain ⟨⟨evmPool, balances, evmHashes⟩, -, hfinal, -, -⟩ := hfinish
  have hcharged (account : AccountId) : lastActive
      ({ oscillator with evmPool }.chargeFees ledger.hashes ledger.totalFees).waveField account =
        lastActive oscillator.waveField account := lastActive_chargeFees _ _ _ account
  have htick : ({ oscillator with evmPool }.chargeFees ledger.hashes
      ledger.totalFees).synthesisTick = oscillator.synthesisTick := by
    unfold chargeFees
    split_ifs <;> rfl
  have hsynced (account : AccountId) := lastActive_syncDagIntoField
    (({ oscillator with evmPool }.chargeFees ledger.hashes ledger.totalFees).commit ledger.hashes
      balances) tick ledger.activeAccounts balances account
  have hcommitted (account : AccountId) : lastActive
      (({ oscillator with evmPool }.chargeFees ledger.hashes ledger.totalFees).commit ledger.hashes
        balances).waveField account = lastActive oscillator.waveField account := hcharged account
  simp only [hcommitted] at hsynced
  rcases certify_cases _ keys tick timestampNs _ root ledger.hashes evmHashes with hnone |
    ⟨cert, certificates, _, -, -, -, hsome⟩
  · rw [hnone] at hfinal
    rw [← hfinal]
    exact ⟨htick, hsynced⟩
  · rw [hsome] at hfinal
    rw [← hfinal]
    exact ⟨htick, hsynced⟩

/-- The account is a party of one of the shifts, and not both parties. -/
def PartyOf (dag : VectorClockDag) (hashes : List TxHash) (account : AccountId) : Prop :=
  ∃ hash ∈ hashes, ∃ node : DagNode, dag.nodes[hash]? = some node ∧
    node.shift.sender ≠ node.shift.recipient ∧
      (account = node.shift.sender ∨ account = node.shift.recipient)

/-- The parties are the same in DAGs with the same shifts. -/
theorem partyOf_congr {dag other : VectorClockDag} (hashes : List TxHash) (account : AccountId)
    (hshifts : ∀ hash : TxHash, dag.nodes[hash]?.map DagNode.shift =
      other.nodes[hash]?.map DagNode.shift) :
    PartyOf dag hashes account ↔ PartyOf other hashes account := by
  have hnodes (dag : VectorClockDag) : PartyOf dag hashes account ↔
      ∃ hash ∈ hashes, ∃ shift : StatefulShift, dag.nodes[hash]?.map DagNode.shift = some shift ∧
        shift.sender ≠ shift.recipient ∧
          (account = shift.sender ∨ account = shift.recipient) := by
    simp only [PartyOf, Option.map_eq_some_iff]
    aesop
  rw [hnodes dag, hnodes other]
  simp only [hshifts]

/-- A transfer makes its parties active, unless they are the same. -/
theorem contains_markActive (active : ExtTreeSet AccountId) (shift : StatefulShift)
    (account : AccountId) :
    (markActive active shift).contains account = true ↔ active.contains account = true ∨
      shift.sender ≠ shift.recipient ∧ (account = shift.sender ∨ account = shift.recipient) := by
  unfold markActive
  by_cases hsame : shift.sender = shift.recipient
  · simp [hsame]
  · rw [if_pos hsame, ExtTreeSet.contains_iff_mem, ExtTreeSet.mem_insert, ExtTreeSet.mem_insert,
      LawfulEqCmp.compare_eq_iff_eq, LawfulEqCmp.compare_eq_iff_eq, ExtTreeSet.contains_iff_mem,
      @eq_comm _ shift.recipient account, @eq_comm _ shift.sender account]
    tauto

/-- The loop makes the parties of the shifts that it applies active. Assumes: the loop returns. -/
theorem loop_active {oscillator : Oscillator platform} {keys : KeyRegistry}
    {order : SynthesisOrder} {placed : List TxHash} {initial ledger : Ledger}
    (hloop : placed.foldlM ((oscillator.prepared keys order).applyShift keys order) initial =
      some ledger) :
    ∃ applied, ledger.hashes = initial.hashes ++ applied ∧
      ∀ account, ledger.activeAccounts.contains account = true ↔
        initial.activeAccounts.contains account = true ∨
          PartyOf (oscillator.preparedDag keys order) applied account := by
  induction placed generalizing initial with
  | nil =>
    rw [List.foldlM_nil] at hloop
    rw [← Option.some.inj hloop]
    refine ⟨[], (List.append_nil _).symm, fun account ↦ ⟨.inl, ?_⟩⟩
    rintro (hactive | ⟨hash, hmem, -⟩)
    · exact hactive
    · exact (List.not_mem_nil hmem).elim
  | cons first placed ih =>
    rw [List.foldlM_cons, Option.bind_eq_bind, Option.bind_eq_some_iff] at hloop
    obtain ⟨next, hround, hrest⟩ := hloop
    obtain ⟨applied, hhashes, hactive⟩ := ih hrest
    obtain ⟨node, hnode, henter⟩ := applyShift_eq_some hround
    rcases enter_hashes henter with ⟨shift, fee, net, houtcome, hnext, -, hmarked⟩ |
      ⟨-, hnext, -, hmarked⟩
    · refine ⟨first :: applied, ?_, fun account ↦ ?_⟩
      · rw [hhashes, hnext, List.append_assoc, List.singleton_append]
      · rw [hactive, hmarked, contains_markActive, (attempt_transfer houtcome).1, or_assoc]
        refine or_congr_right ?_
        constructor
        · rintro (hparty | ⟨hash, hmem, hnodes⟩)
          · exact ⟨first, List.mem_cons_self, node, hnode, hparty⟩
          · exact ⟨hash, List.mem_cons_of_mem _ hmem, hnodes⟩
        · rintro ⟨hash, hmem, other, hother, hparty⟩
          obtain rfl | hmem := List.mem_cons.mp hmem
          · rw [hnode] at hother
            cases hother
            exact .inl hparty
          · exact .inr ⟨hash, hmem, other, hother, hparty⟩
    · refine ⟨applied, ?_, fun account ↦ ?_⟩
      · rw [hhashes, hnext]
      · rw [hactive, hmarked]

/-- What a synthesis does to the clocks: it advances the tick, the parties of the shifts that it
applies get the tick as that of their activity, and the other accounts keep theirs. Assumes: the
synthesis returns. -/
theorem synthesize_clock {oscillator final : Oscillator platform} {keys : KeyRegistry}
    {order : SynthesisOrder} {timestampNs : ℕ} {result : SynthesisResult} {hashes : List TxHash}
    (hsynthesize : oscillator.synthesize keys order timestampNs = some (final, result, hashes)) :
    final.synthesisTick = wrappingAdd 64 oscillator.synthesisTick 1 ∧
    ∀ account,
      (PartyOf final.dag hashes account →
        lastActive final.waveField account = oscillator.synthesisTick) ∧
      (¬PartyOf final.dag hashes account →
        lastActive final.waveField account = lastActive oscillator.waveField account) := by
  have htick : (oscillator.prepared keys order).synthesisTick =
      wrappingAdd 64 oscillator.synthesisTick 1 := by
    obtain ⟨_, _, _, _, _, -, hprepared⟩ := oscillator.prepared_eq keys order
    rw [hprepared]
  have heffect := synthesize_effect hsynthesize
  have hunits := @units_of_applied platform oscillator final keys order timestampNs result hashes
    hsynthesize
  rcases synthesize_cases hsynthesize with ⟨error, -, rfl, rfl⟩ |
    ⟨placed, ledger, applied, root, decayed, rejected, -, hloop, hfinish⟩
  · refine ⟨htick, fun account ↦ ⟨?_, fun _ ↦ lastActive_prepared oscillator keys order account⟩⟩
    rintro ⟨hash, hmem, -⟩
    exact (List.not_mem_nil hmem).elim
  · obtain ⟨hfinalTick, hfinal⟩ := finish_clock hfinish
    obtain ⟨-, hhashes, -, -⟩ := finish_ledgers hfinish
    obtain ⟨applied, happlied, hactive⟩ := loop_active hloop
    have hsame : applied = hashes := by
      rw [hhashes, happlied]
      exact (List.nil_append applied).symm
    have hparty (account : AccountId) : ledger.activeAccounts.contains account = true ↔
        PartyOf final.dag hashes account := by
      have hshifts (hash : TxHash) : final.dag.nodes[hash]?.map DagNode.shift =
          (oscillator.preparedDag keys order).nodes[hash]?.map DagNode.shift := by
        rw [heffect.nodes, getElem?_markApplied, Option.map_map]
        rfl
      rw [hactive, hsame, partyOf_congr hashes account hshifts]
      exact or_iff_right fun hempty ↦
        ExtTreeSet.not_mem_empty (ExtTreeSet.contains_iff_mem.mp hempty)
    refine ⟨hfinalTick.trans htick, fun account ↦ ⟨fun hmem ↦ ?_, fun hmem ↦ ?_⟩⟩
    · obtain ⟨hash, hhash, node, hnode, -, hside⟩ := id hmem
      obtain ⟨units, -, hbalance, -⟩ := hunits hhash hnode hside
      have hkey : account ∈ final.dag.balances := by
        rw [← ExtTreeMap.isSome_getElem?_iff_mem, hbalance, Option.isSome_some]
      rw [hfinal, if_pos ⟨(hparty account).mpr hmem, hkey⟩]
    · rw [hfinal, if_neg fun hboth ↦ hmem ((hparty account).mp hboth.1), lastActive_prepared]

end Oscillator

end Fluidic.Consensus
