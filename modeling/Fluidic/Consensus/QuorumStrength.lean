import Fluidic.Consensus.QuorumAgreement
import Fluidic.Consensus.RunInvariant

/-!
# Strength of quorums

A quorum is meant to be more than two thirds of the stake. Three things stand against that. The
threshold rounds down before it doubles, so that where the total leaves the rest two the threshold
is short of two thirds (`short_quorum`); it is zero where the total is; and the tallies count the
stakes of the moment at which certificates arrived, which stake calls and slashes lower afterwards.

`KeepsVotes` is the condition on a request that it lowers the stake of no operator with a kept
certificate. In runs of such requests a tally is covered by the current stake of its voters, and a
quorum has its strength exactly where the first two do not apply (`quorum_strength`).
-/

set_option autoImplicit false
set_option relaxedAutoImplicit false

namespace Fluidic.Consensus

open Library Crypto Fluidic.Field Value Operator Evm
open Std (ExtTreeMap LawfulEqCmp)

/-- Whether a certificate of an operator is kept for any tick. -/
def CertificateTracker.hasCertificate (tracker : CertificateTracker) (operator : AccountId) :
    Bool :=
  tracker.byOperatorTick.toList.any fun entry ↦ decide (entry.1.1 = operator)

/-- A voter has a certificate. Assumes: the operator voted. -/
theorem CertificateTracker.hasCertificate_of_voted {tracker : CertificateTracker} {tick : ℕ}
    {view : QuorumView} {operator : AccountId} (hvoted : tracker.voted tick view operator = true) :
    tracker.hasCertificate operator = true := by
  unfold voted at hvoted
  cases hkept : tracker.byOperatorTick[(operator, tick)]? with
  | none =>
    rw [hkept] at hvoted
    cases hvoted
  | some cert =>
    refine List.any_eq_true.mpr ⟨((operator, tick), cert), ?_, decide_eq_true rfl⟩
    exact ExtTreeMap.mem_toList_iff_getElem?_eq_some.mpr hkept

namespace StakedTracker

/-! ### Tallies covered by current stakes -/

/-- Every tally is covered by the current stake of its voters. -/
def Backed (state : StakedTracker) : Prop :=
  ∀ tick view stake, state.tracker.tallied tick view = some stake →
    stake ≤ state.tracker.votedStake state.stakeTable tick view

/-- Locking stake keeps the tallies covered. Assumes: the tallies are covered, and an operator with
a certificate does not lower its stake. -/
theorem Backed.lock {state : StakedTracker} (hbacked : Backed state) {operator : AccountId}
    {amount : ℕ} (hkept : state.tracker.hasCertificate operator = true →
      state.stakeTable.getStake operator ≤ amount) : Backed (state.lock operator amount) := by
  intro tick view stake htallied
  refine le_trans (hbacked tick view stake htallied) ?_
  have hinsert := sumBy_insert (fun operator entry ↦
      if state.tracker.voted tick view operator then StakeTable.liveStake entry else 0)
    state.stakeTable.operators operator { state.stakeTable.entry operator with stake := amount }
  have hless : (state.stakeTable.operators[operator]?.elim 0 fun entry ↦
      if state.tracker.voted tick view operator then StakeTable.liveStake entry else 0) ≤
      if state.tracker.voted tick view operator then
        StakeTable.liveStake { state.stakeTable.entry operator with stake := amount } else 0 := by
    cases hentry : state.stakeTable.operators[operator]? with
    | none => exact Nat.zero_le _
    | some entry =>
      have hlookup : state.stakeTable.entry operator = entry := by
        unfold StakeTable.entry
        rw [ExtTreeMap.getD_eq_getD_getElem?, hentry]
        rfl
      rw [hlookup]
      dsimp only [Option.elim]
      by_cases hvoted : state.tracker.voted tick view operator = true
      · have hraise : entry.stake ≤ amount := by
          have hstake := hkept (CertificateTracker.hasCertificate_of_voted hvoted)
          unfold StakeTable.getStake at hstake
          rw [hlookup] at hstake
          exact hstake
        rw [if_pos hvoted, if_pos hvoted]
        unfold StakeTable.liveStake
        dsimp only
        split_ifs
        · exact hraise
        · exact le_rfl
      · rw [if_neg hvoted, if_neg hvoted]
  show state.tracker.votedStake state.stakeTable tick view ≤
    state.tracker.votedStake (state.stakeTable.stake operator amount).1 tick view
  have hsum : state.tracker.votedStake (state.stakeTable.stake operator amount).1 tick view + _ =
    state.tracker.votedStake state.stakeTable tick view + _ := hinsert
  omega

/-- A delivery keeps the tallies covered. Assumes: the tallies are covered, and the certificate does
not conflict. -/
theorem Backed.deliver {state : StakedTracker} (hbacked : Backed state) {prim : Primitives}
    {cert : SynthesisCertificate} {registry : KeyRegistry}
    (hconflicts : state.conflicts prim cert registry = false) :
    Backed (state.deliver prim cert registry) := by
  rcases state.deliver_cases prim cert registry with hsame | ⟨htrue, -⟩ |
    ⟨hstaked, hfresh, hrecord⟩
  · rw [hsame]
    exact hbacked
  · rw [hconflicts] at htrue
    cases htrue
  · obtain ⟨entry, hentry, -, -, hget⟩ := exists_entry_of_isStaked hstaked
    rw [hrecord]
    intro tick view stake htallied
    have hbefore := hbacked tick view
    rw [CertificateTracker.tallied_record] at htallied
    by_cases hself : tick = cert.tick ∧ view = QuorumView.ofCertificate cert
    · obtain ⟨rfl, rfl⟩ := hself
      show stake ≤ (state.tracker.record cert _).votedStake state.stakeTable cert.tick
        (QuorumView.ofCertificate cert)
      rw [CertificateTracker.votedStake_record hfresh hentry]
      rw [if_pos ⟨rfl, rfl⟩, Option.some.injEq, hget] at htallied
      cases htally : state.tracker.tallied cert.tick (QuorumView.ofCertificate cert) with
      | none =>
        rw [htally] at htallied
        dsimp only at htallied
        omega
      | some before =>
        have hcovered := hbefore before htally
        have hwrapped : wrappingAdd 128 before (StakeTable.liveStake entry) ≤
            before + StakeTable.liveStake entry := Nat.mod_le _ _
        rw [htally] at htallied
        dsimp only at htallied
        omega
    · rw [if_neg hself] at htallied
      exact le_trans (hbefore stake htallied)
        (CertificateTracker.votedStake_le_record hfresh _ _ _ _)

end StakedTracker

namespace Oscillator

variable {platform : Platform}

/-! ### What requests do to tracker and stakes -/

/-- Ingesting a signal touches neither the tracker nor the stakes. -/
theorem staked_ingest (oscillator : Oscillator platform) (signal : Signal) (nowNs : ℕ) :
    (oscillator.ingest signal nowNs).1.staked = oscillator.staked := by
  obtain ⟨_, _, _, _, hingest⟩ := oscillator.ingest_frame signal nowNs
  rw [hingest]
  rfl

/-- A stake announcement changes nothing, or locks the amount it announces. -/
theorem staked_applyStake (oscillator : Oscillator platform) (stake : StakeShift) :
    (oscillator.applyStake stake).1.staked = oscillator.staked ∨
    (oscillator.applyStake stake).1.staked =
      oscillator.staked.lock stake.operator stake.amount := by
  have houtcome := oscillator.applyStake_outcome stake
  generalize oscillator.applyStake stake = result at houtcome ⊢
  cases houtcome with
  | refused => exact .inl rfl
  | repeated => exact .inl rfl
  | short => exact .inl rfl
  | raised => exact .inr rfl
  | lowered => exact .inr rfl

/-- A synthesis changes nothing, or delivers a certificate of the node for the tick. Assumes: the
synthesis returns. -/
theorem staked_synthesize {oscillator final : Oscillator platform} {keys : KeyRegistry}
    {order : SynthesisOrder} {timestampNs : ℕ} {result : SynthesisResult} {hashes : List TxHash}
    (hsynthesize : oscillator.synthesize keys order timestampNs = some (final, result, hashes)) :
    final.staked = oscillator.staked ∨
    ∃ cert keypair, oscillator.operatorKeypair = some keypair ∧
      cert.operator = keypair.accountId platform.primitives ∧
      cert.tick = oscillator.synthesisTick ∧
      final.staked = oscillator.staked.deliver platform.primitives cert keys := by
  obtain ⟨_, _, _, _, _, -, hprepared⟩ := oscillator.prepared_eq keys order
  rcases synthesize_cases hsynthesize with ⟨error, -, rfl, -⟩ |
    ⟨placed, ledger, applied, root, decayed, rejected, -, -, hfinish⟩
  · rw [hprepared]
    exact .inl rfl
  · obtain ⟨evmPool, balances, evmHashes, waveField, rewardPool, -, -, -, -, hfinal⟩ :=
      finish_cases hfinish
    rw [hprepared] at hfinal
    rcases certify_cases _ keys oscillator.synthesisTick timestampNs result root hashes
      evmHashes with hnone | ⟨cert, certificates, keypair, hkeypair, hoperator, htick, hsome⟩
    · rw [hfinal, hnone]
      exact .inl rfl
    · refine .inr ⟨cert, keypair, hkeypair, hoperator, htick, ?_⟩
      rw [hfinal, hsome]
      exact staked_ingestCertificate _ cert keys

/-! ### Requests that lower no voter's stake -/

/-- The request does not lower the stake of an operator with a kept certificate: stake calls do not
announce less, certificates do not conflict, and a synthesis does not certify a tick for which a
certificate of the node is kept. -/
def KeepsVotes (oscillator : Oscillator platform) : Request → Prop
  | .stake operator amount => oscillator.certificateTracker.hasCertificate operator = true →
      oscillator.stakeTable.getStake operator ≤ amount
  | .applyStake stake => oscillator.certificateTracker.hasCertificate stake.operator = true →
      oscillator.stakeTable.getStake stake.operator ≤ stake.amount
  | .ingestCertificate cert keys =>
      oscillator.staked.conflicts platform.primitives cert keys = false
  | .synthesize _ _ _ => ∀ keypair ∈ oscillator.operatorKeypair,
      oscillator.certificateTracker.byOperatorTick[
        (keypair.accountId platform.primitives, oscillator.synthesisTick)]? = none
  | _ => True

instance : DecidableRel (KeepsVotes : Oscillator platform → Request → Prop) :=
  fun oscillator request ↦ match request with
    | .stake operator amount => inferInstanceAs (Decidable
        (oscillator.certificateTracker.hasCertificate operator = true →
          oscillator.stakeTable.getStake operator ≤ amount))
    | .applyStake stake => inferInstanceAs (Decidable
        (oscillator.certificateTracker.hasCertificate stake.operator = true →
          oscillator.stakeTable.getStake stake.operator ≤ stake.amount))
    | .ingestCertificate cert keys => inferInstanceAs (Decidable
        (oscillator.staked.conflicts platform.primitives cert keys = false))
    | .synthesize _ _ _ => inferInstanceAs (Decidable (∀ keypair ∈ oscillator.operatorKeypair,
        oscillator.certificateTracker.byOperatorTick[
          (keypair.accountId platform.primitives, oscillator.synthesisTick)]? = none))
    | .seedAccount _ _ => isTrue trivial
    | .markNonDecaying _ => isTrue trivial
    | .registerDomain _ _ => isTrue trivial
    | .ingest _ _ => isTrue trivial
    | .applyRegistration _ => isTrue trivial
    | .submitEvm _ _ => isTrue trivial

/-- Such a request keeps the tallies covered. Assumes: the tallies are covered, the request lowers
no voter's stake, and it leads to the next state. -/
theorem backed_step {oscillator next : Oscillator platform} {request : Request}
    {response : Response} (hkeeps : KeepsVotes oscillator request)
    (hbacked : StakedTracker.Backed oscillator.staked)
    (hstep : step platform oscillator request = some (next, response)) :
    StakedTracker.Backed next.staked := by
  cases request with
  | stake operator amount =>
    obtain ⟨rfl, -⟩ := Prod.mk.inj (Option.some.inj hstep)
    exact hbacked.lock hkeeps
  | applyStake stake =>
    obtain ⟨rfl, -⟩ := Prod.mk.inj (Option.some.inj hstep)
    rcases oscillator.staked_applyStake stake with hsame | hlock
    · exact hsame ▸ hbacked
    · have hlocked : StakedTracker.Backed (oscillator.staked.lock stake.operator stake.amount) :=
        hbacked.lock hkeeps
      exact hlock ▸ hlocked
  | ingestCertificate cert keys =>
    obtain ⟨rfl, -⟩ := Prod.mk.inj (Option.some.inj hstep)
    have hdelivered := hbacked.deliver hkeeps
    rw [← staked_ingestCertificate] at hdelivered
    exact hdelivered
  | synthesize keys order timestampNs =>
    simp only [step, Option.map_eq_some_iff, Prod.mk.injEq] at hstep
    obtain ⟨⟨final, result, hashes⟩, hsynthesize, rfl, -⟩ := hstep
    rcases staked_synthesize hsynthesize with hsame | ⟨cert, keypair, hkeypair, hname, htick, heq⟩
    · exact hsame ▸ hbacked
    · have hfresh : oscillator.staked.conflicts platform.primitives cert keys = false := by
        by_contra hconflicts
        obtain ⟨-, kept, hkept⟩ :=
          StakedTracker.of_conflicts (Bool.eq_true_of_not_eq_false hconflicts)
        have hnone := hkeeps keypair hkeypair
        rw [← hname, ← htick] at hnone
        exact absurd (hnone.symm.trans hkept) (Option.some_ne_none kept).symm
      dsimp only
      rw [heq]
      exact hbacked.deliver hfresh
  | seedAccount account amount =>
    obtain ⟨rfl, -⟩ := Prod.mk.inj (Option.some.inj hstep)
    have hsame : (oscillator.seedAccount account amount).staked = oscillator.staked := by
      rw [seedAccount_eq]
      split_ifs <;> rfl
    exact hsame ▸ hbacked
  | markNonDecaying account =>
    obtain ⟨rfl, -⟩ := Prod.mk.inj (Option.some.inj hstep)
    exact hbacked
  | registerDomain policy registrant =>
    obtain ⟨rfl, -⟩ := Prod.mk.inj (Option.some.inj hstep)
    show (oscillator.registerDomain policy registrant).1.staked.Backed
    have houtcome := oscillator.registerDomain_outcome policy registrant
    generalize oscillator.registerDomain policy registrant = result at houtcome ⊢
    cases houtcome with
    | refused => exact hbacked
    | registered => exact hbacked
  | ingest signal nowNs =>
    obtain ⟨rfl, -⟩ := Prod.mk.inj (Option.some.inj hstep)
    exact oscillator.staked_ingest signal nowNs ▸ hbacked
  | applyRegistration reg =>
    obtain ⟨rfl, -⟩ := Prod.mk.inj (Option.some.inj hstep)
    have hsame : (oscillator.applyRegistration reg).staked = oscillator.staked := by
      rw [applyRegistration_eq]
      split_ifs <;> rfl
    exact hsame ▸ hbacked
  | submitEvm tx nowNs =>
    obtain ⟨rfl, -⟩ := Prod.mk.inj (Option.some.inj hstep)
    exact hbacked

/-! ### Two thirds -/

/-- Rounding: at least the threshold is more than two thirds, unless the total is zero, or leaves
the rest two and the threshold is met exactly. Assumes: the threshold is met. -/
theorem two_thirds_iff {table : StakeTable} {stake : ℕ} (hquorum : table.quorumThreshold ≤ stake) :
    (2 * table.totalStake < 3 * stake ∧ 0 < table.totalStake) ↔
      table.totalStake ≠ 0 ∧
        ¬ (table.totalStake % 3 = 2 ∧ stake = 2 * (table.totalStake / 3) + 1) := by
  unfold StakeTable.quorumThreshold at hquorum
  split_ifs at hquorum with hzero
  · omega
  · omega

/-- In every run whose requests lower no voter's stake, a reported view is backed by more than two
thirds of a positive total exactly when the total is not zero, and does not leave the rest two with
voters that hold no more than the threshold. Assumes: no request of the run lowers a voter's stake,
and the check reports the view. -/
theorem quorum_strength {nttSize : ℕ} {operatorKeypair : Option KeyPair}
    {stakeTable : StakeTable} {history : List (Oscillator platform × Request)}
    {oscillator : Oscillator platform}
    (hreaches : Reaches (step platform) KeepsVotes (create nttSize operatorKeypair stakeTable)
      history oscillator)
    {order : IterationOrder (QuorumView × ℕ)} {tick : ℕ} {view : QuorumView} {stake : ℕ}
    (hquorum : oscillator.checkQuorum order tick = some (view, stake)) :
    (2 * oscillator.stakeTable.totalStake <
        3 * oscillator.certificateTracker.votedStake oscillator.stakeTable tick view ∧
      0 < oscillator.stakeTable.totalStake) ↔
    oscillator.stakeTable.totalStake ≠ 0 ∧
      ¬ (oscillator.stakeTable.totalStake % 3 = 2 ∧
        oscillator.certificateTracker.votedStake oscillator.stakeTable tick view =
          2 * (oscillator.stakeTable.totalStake / 3) + 1) := by
  have hinitial : StakedTracker.Backed
      (create nttSize operatorKeypair stakeTable : Oscillator platform).staked := by
    intro tick view stake htallied
    simp [staked, create, CertificateTracker.tallied, CertificateTracker.new] at htallied
  have hbacked : StakedTracker.Backed oscillator.staked :=
    @Reaches.invariant _ _ _ _ _ _
      (fun state : Oscillator platform ↦ StakedTracker.Backed state.staked) hinitial
      (fun _ _ _ _ hkeeps hbacked hstep ↦ backed_step hkeeps hbacked hstep) _ _ hreaches
  obtain ⟨htallied, hthreshold⟩ := CertificateTracker.tallied_of_checkQuorum hquorum
  exact two_thirds_iff (le_trans hthreshold (hbacked tick view stake htallied))

/-- Two operators stake, the first certifies a tick and raises its stake, and a tick passes. -/
def raisedRun : List Request :=
  [.stake (sampleAccount 1) 9000000000000000000,
    .stake (sampleAccount 2) 1000000000000000000,
    .ingestCertificate (sampleCertificate 1 1) sampleKeys,
    .stake (sampleAccount 1) 10000000000000000000,
    .sample]

/-- A quorum after a stake was raised. -/
theorem quorum_strength_raisedRun :
    ∃ (history : List (Oscillator Platform.sample × Request))
      (oscillator : Oscillator Platform.sample),
      Reaches (step Platform.sample) KeepsVotes (newWithKeypair 8) history oscillator ∧
      history.map Prod.snd = raisedRun ∧
      oscillator.checkQuorum .forward 0 = some (sampleView 1, 9000000000000000000) ∧
      ((2 * oscillator.stakeTable.totalStake <
          3 * oscillator.certificateTracker.votedStake oscillator.stakeTable 0 (sampleView 1) ∧
        0 < oscillator.stakeTable.totalStake) ↔
      oscillator.stakeTable.totalStake ≠ 0 ∧
        ¬ (oscillator.stakeTable.totalStake % 3 = 2 ∧
          oscillator.certificateTracker.votedStake oscillator.stakeTable 0 (sampleView 1) =
            2 * (oscillator.stakeTable.totalStake / 3) + 1)) := by
  have hruns : ((run (step Platform.sample) KeepsVotes (newWithKeypair 8) raisedRun).bind
      fun oscillator ↦ oscillator.checkQuorum .forward 0) =
      some (sampleView 1, 9000000000000000000) := by
    decide +kernel
  obtain ⟨oscillator, hrun, hquorum⟩ := Option.bind_eq_some_iff.mp hruns
  obtain ⟨history, hinputs, hreaches⟩ := reaches_of_run hrun
  exact ⟨history, oscillator, hreaches, hinputs, hquorum, quorum_strength hreaches hquorum⟩

/-- Two operators stake so that the total leaves the rest two and the first holds the threshold, and
the first certifies a tick. -/
def shortRun : List Request :=
  [.stake (sampleAccount 1) 2000000000000000001,
    .stake (sampleAccount 2) 1000000000000000001,
    .ingestCertificate (sampleCertificate 1 1) sampleKeys]

/-- A reported view with less than two thirds of the stake behind it. -/
theorem short_quorum :
    ∃ oscillator : Oscillator Platform.sample,
      run (step Platform.sample) anyStep (newWithKeypair 8) shortRun = some oscillator ∧
      oscillator.checkQuorum .forward 0 = some (sampleView 1, 2000000000000000001) ∧
      ¬ (2 * oscillator.stakeTable.totalStake <
        3 * oscillator.certificateTracker.votedStake oscillator.stakeTable 0 (sampleView 1)) := by
  have hruns : ((run (step Platform.sample) anyStep (newWithKeypair 8) shortRun).map
      fun oscillator ↦ decide
        (oscillator.checkQuorum .forward 0 = some (sampleView 1, 2000000000000000001) ∧
          ¬ (2 * oscillator.stakeTable.totalStake < 3 *
            oscillator.certificateTracker.votedStake oscillator.stakeTable 0 (sampleView 1)))) =
      some true := by
    decide +kernel
  obtain ⟨oscillator, hrun, hvalues⟩ := Option.map_eq_some_iff.mp hruns
  obtain ⟨hquorum, hshort⟩ := of_decide_eq_true hvalues
  exact ⟨oscillator, hrun, hquorum, hshort⟩

end Oscillator

end Fluidic.Consensus
