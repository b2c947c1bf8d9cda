import Fluidic.Consensus.Operations
import Fluidic.Consensus.QuorumStrength

/-!
# What operations leave alone

An operation that is neither a synthesis nor the delivery of a certificate leaves the tick alone,
the certificates of the node, its tracker, its keypair and the slashed operators, and locks no stake
but by an announcement (`PlainFrame`). A synthesis keeps at most one more certificate, its own,
which it delivers to the node (`Oscillator.synthesize_certifies`). No operation lowers a highest
nonce (`noncesRise_of_operate`), so that no announcement with a nonce that is not above a recorded
one moves a stake (`entry_of_recorded`).
-/

set_option autoImplicit false
set_option relaxedAutoImplicit false

namespace Fluidic.Consensus

open Library Crypto Operator
open Std (ExtTreeMap LawfulEqCmp)

variable {platform : Platform} {signals : Set Signal}

/-! ### Stakes -/

/-- A stake table after stakes were locked, each by one of some announcements. -/
inductive Locks (signals : Set Signal) (table : StakeTable) : StakeTable → Prop
  | refl : Locks signals table table
  | lock {table' : StakeTable} (stake : StakeShift) (hbrought : .stake stake ∈ signals)
      (hlocks : Locks signals table table') :
      Locks signals table (table'.stake stake.operator stake.amount).1

namespace Locks

variable {first second third : StakeTable}

theorem trans (hfirst : Locks signals first second) (hsecond : Locks signals second third) :
    Locks signals first third := by
  induction hsecond with
  | refl => exact hfirst
  | lock stake hbrought _ ih => exact ih.lock stake hbrought

/-- The entry of an operator after a stake was locked. -/
theorem entry_stake (table : StakeTable) (operator : AccountId) (amount : ℕ) (other : AccountId) :
    (table.stake operator amount).1.entry other =
      if operator = other then { table.entry operator with stake := amount }
      else table.entry other := by
  unfold StakeTable.stake StakeTable.entry
  rw [ExtTreeMap.getD_insert]
  simp only [LawfulEqCmp.compare_eq_iff_eq]

/-- Locking stakes slashes nobody and absolves nobody. Assumes: the stakes were locked. -/
theorem isSlashed_eq (hlocks : Locks signals first second) (operator : AccountId) :
    second.isSlashed operator = first.isSlashed operator := by
  induction hlocks with
  | refl => rfl
  | lock stake _ _ ih =>
    unfold StakeTable.isSlashed at ih ⊢
    rw [entry_stake]
    split_ifs with hself
    · rw [hself]
      exact ih
    · exact ih

end Locks

/-! ### Plain operations -/

/-- What plain operations leave alone. -/
structure PlainFrame (signals : Set Signal) (oscillator next : Oscillator platform) :
    Prop where
  tick : next.synthesisTick = oscillator.synthesisTick
  certificates : next.certificates = oscillator.certificates
  operatorKeypair : next.operatorKeypair = oscillator.operatorKeypair
  tracker : next.certificateTracker = oscillator.certificateTracker
  locks : Locks signals oscillator.stakeTable next.stakeTable

namespace PlainFrame

variable {first second third : Oscillator platform}

theorem refl (oscillator : Oscillator platform) : PlainFrame signals oscillator oscillator :=
  ⟨rfl, rfl, rfl, rfl, .refl⟩

theorem trans (hfirst : PlainFrame signals first second)
    (hsecond : PlainFrame signals second third) : PlainFrame signals first third where
  tick := hsecond.tick.trans hfirst.tick
  certificates := hsecond.certificates.trans hfirst.certificates
  operatorKeypair := hsecond.operatorKeypair.trans hfirst.operatorKeypair
  tracker := hsecond.tracker.trans hfirst.tracker
  locks := hfirst.locks.trans hsecond.locks

/-- A plain request leaves all of it alone. Assumes: the request is plain and is served. -/
theorem of_step {oscillator next : Oscillator platform} {request : Request} {response : Response}
    (hplain : (Operation.request request).IsPlain signals)
    (hstep : step platform oscillator request = some (next, response)) :
    PlainFrame signals oscillator next := by
  cases request with
  | synthesize keys order timestampNs => cases hplain
  | ingestCertificate cert keys => cases hplain
  | stake operator amount => cases hplain
  | seedAccount account amount =>
    obtain ⟨rfl, -⟩ := Prod.mk.inj (Option.some.inj hstep)
    rw [Oscillator.seedAccount_eq]
    split_ifs <;> exact ⟨rfl, rfl, rfl, rfl, .refl⟩
  | markNonDecaying account =>
    obtain ⟨rfl, -⟩ := Prod.mk.inj (Option.some.inj hstep)
    exact ⟨rfl, rfl, rfl, rfl, .refl⟩
  | registerDomain policy registrant =>
    obtain ⟨rfl, -⟩ := Prod.mk.inj (Option.some.inj hstep)
    show PlainFrame signals oscillator (oscillator.registerDomain policy registrant).1
    have houtcome := oscillator.registerDomain_outcome policy registrant
    generalize oscillator.registerDomain policy registrant = result at houtcome ⊢
    cases houtcome with
    | refused => exact ⟨rfl, rfl, rfl, rfl, .refl⟩
    | registered => exact ⟨rfl, rfl, rfl, rfl, .refl⟩
  | ingest signal nowNs =>
    obtain ⟨rfl, -⟩ := Prod.mk.inj (Option.some.inj hstep)
    obtain ⟨_, _, _, _, hingest⟩ := oscillator.ingest_frame signal nowNs
    show PlainFrame signals oscillator (oscillator.ingest signal nowNs).1
    rw [hingest]
    exact ⟨rfl, rfl, rfl, rfl, .refl⟩
  | applyStake stake =>
    obtain ⟨rfl, -⟩ := Prod.mk.inj (Option.some.inj hstep)
    have hbrought : .stake stake ∈ signals := hplain
    show PlainFrame signals oscillator (oscillator.applyStake stake).1
    have houtcome := oscillator.applyStake_outcome stake
    generalize oscillator.applyStake stake = result at houtcome ⊢
    cases houtcome with
    | refused => exact ⟨rfl, rfl, rfl, rfl, .refl⟩
    | repeated => exact ⟨rfl, rfl, rfl, rfl, .refl⟩
    | short => exact ⟨rfl, rfl, rfl, rfl, .refl⟩
    | raised => exact ⟨rfl, rfl, rfl, rfl, .lock stake hbrought .refl⟩
    | lowered => exact ⟨rfl, rfl, rfl, rfl, .lock stake hbrought .refl⟩
  | applyRegistration reg =>
    obtain ⟨rfl, -⟩ := Prod.mk.inj (Option.some.inj hstep)
    rw [Oscillator.applyRegistration_eq]
    split_ifs <;> exact ⟨rfl, rfl, rfl, rfl, .refl⟩
  | submitEvm tx nowNs =>
    obtain ⟨rfl, -⟩ := Prod.mk.inj (Option.some.inj hstep)
    exact ⟨rfl, rfl, rfl, rfl, .refl⟩

/-- A run of plain operations leaves all of it alone. Assumes: every operation of the run is plain.
-/
theorem of_reaches {oscillator next : Oscillator platform}
    {history : List (Oscillator platform × Operation)}
    (hreaches : Reaches (operate platform) (Plain signals) oscillator history next) :
    PlainFrame signals oscillator next := by
  refine hreaches.invariant (refl oscillator) fun state operation after output hplain hframe
    hoperate ↦ hframe.trans ?_
  rcases operate_cases hoperate with ⟨request, response, rfl, -, hstep⟩ | ⟨-, rewardPool, rfl⟩
  · exact of_step hplain hstep
  · exact ⟨rfl, rfl, rfl, rfl, .refl⟩

end PlainFrame

/-- What plain operations do to the shifts of a node: they leave the DAG alone, and queue no shifts
but those that the signals bring. A domain that takes commutative shifts still does, and a signature
that was seen stays seen. -/
structure ShiftFrame (signals : Set Signal) (oscillator next : Oscillator platform) : Prop where
  nodes : next.dag.nodes = oscillator.dag.nodes
  stateful : (∀ shift, .stateful shift ∉ signals) →
    next.pendingStateful = oscillator.pendingStateful
  commutative : (∀ shift, .commutative shift ∉ signals) →
    next.pendingCommutative = oscillator.pendingCommutative
  domains : ∀ domain, oscillator.domainRegistry.isCommutative domain = true →
    next.domainRegistry.isCommutative domain = true
  signatures : oscillator.seenSignatures ⊆ next.seenSignatures

namespace ShiftFrame

variable {first second third : Oscillator platform}

/-- An operation that leaves all of it alone. Assumes: the second state has the nodes, queues,
domains and signatures of the first. -/
theorem of_eq (hnodes : second.dag.nodes = first.dag.nodes)
    (hstateful : second.pendingStateful = first.pendingStateful)
    (hcommutative : second.pendingCommutative = first.pendingCommutative)
    (hdomains : second.domainRegistry = first.domainRegistry)
    (hsignatures : second.seenSignatures = first.seenSignatures) :
    ShiftFrame signals first second where
  nodes := hnodes
  stateful _ := hstateful
  commutative _ := hcommutative
  domains domain := by
    rw [hdomains]
    exact id
  signatures := hsignatures.ge

theorem trans (hfirst : ShiftFrame signals first second)
    (hsecond : ShiftFrame signals second third) : ShiftFrame signals first third where
  nodes := hsecond.nodes.trans hfirst.nodes
  stateful hnone := (hsecond.stateful hnone).trans (hfirst.stateful hnone)
  commutative hnone := (hsecond.commutative hnone).trans (hfirst.commutative hnone)
  domains domain hbefore := hsecond.domains domain (hfirst.domains domain hbefore)
  signatures := hfirst.signatures.trans hsecond.signatures

/-- Registering a domain leaves the other domains as they are. Assumes: the domain is new. -/
theorem isCommutative_register {registry : DomainRegistry} {policy : DomainPolicy}
    (hnew : registry.get? policy.domain = none) {domain : DomainId}
    (hbefore : registry.isCommutative domain = true) :
    (registry.register policy).isCommutative domain = true := by
  have hother : policy.domain ≠ domain := by
    rintro rfl
    unfold DomainRegistry.isCommutative at hbefore
    rw [hnew] at hbefore
    cases hbefore
  have hsame : (registry.register policy).get? domain = registry.get? domain := by
    unfold DomainRegistry.register DomainRegistry.get?
    rw [ExtTreeMap.getElem?_insert, if_neg (mt LawfulEqCmp.compare_eq_iff_eq.mp hother)]
  unfold DomainRegistry.isCommutative at hbefore ⊢
  rwa [hsame]

/-- Ingesting a signal queues a shift only if it is one. Assumes: the ingested signal is one of the
signals. -/
theorem of_ingest (oscillator : Oscillator platform) {signal : Signal}
    (hbrought : signal ∈ signals) (nowNs : ℕ) :
    ShiftFrame signals oscillator (oscillator.ingest signal nowNs).1 := by
  cases signal with
  | commutative shift =>
    show ShiftFrame signals oscillator (oscillator.ingestCommutative shift).1
    rw [Oscillator.ingestCommutative_eq]
    refine ⟨rfl, fun _ ↦ rfl, fun hnone ↦ absurd hbrought (hnone shift), fun _ ↦ id, ?_⟩
    dsimp only
    split_ifs
    · exact Finset.subset_insert _ _
    · exact subset_rfl
  | stateful shift =>
    show ShiftFrame signals oscillator (oscillator.ingestStateful shift nowNs).1
    rw [Oscillator.ingestStateful_eq]
    refine ⟨rfl, fun hnone ↦ absurd hbrought (hnone shift), fun _ ↦ rfl, fun _ ↦ id, ?_⟩
    dsimp only
    split_ifs
    · exact Finset.subset_insert _ _
    · exact subset_rfl
  | registration reg => exact .of_eq rfl rfl rfl rfl rfl
  | stake stake => exact .of_eq rfl rfl rfl rfl rfl
  | ping => exact .of_eq rfl rfl rfl rfl rfl
  | pong => exact .of_eq rfl rfl rfl rfl rfl
  | certificate cert => exact .of_eq rfl rfl rfl rfl rfl
  | auth => exact .of_eq rfl rfl rfl rfl rfl

/-- A plain request does that to the shifts. Assumes: the request is plain and is served. -/
theorem of_step {oscillator next : Oscillator platform} {request : Request} {response : Response}
    (hplain : (Operation.request request).IsPlain signals)
    (hstep : step platform oscillator request = some (next, response)) :
    ShiftFrame signals oscillator next := by
  cases request with
  | synthesize keys order timestampNs => cases hplain
  | ingestCertificate cert keys => cases hplain
  | stake operator amount => cases hplain
  | seedAccount account amount =>
    obtain ⟨rfl, -⟩ := Prod.mk.inj (Option.some.inj hstep)
    rw [Oscillator.seedAccount_eq]
    split_ifs <;> exact .of_eq rfl rfl rfl rfl rfl
  | markNonDecaying account =>
    obtain ⟨rfl, -⟩ := Prod.mk.inj (Option.some.inj hstep)
    exact .of_eq rfl rfl rfl rfl rfl
  | registerDomain policy registrant =>
    obtain ⟨rfl, -⟩ := Prod.mk.inj (Option.some.inj hstep)
    show ShiftFrame signals oscillator (oscillator.registerDomain policy registrant).1
    have houtcome := oscillator.registerDomain_outcome policy registrant
    generalize oscillator.registerDomain policy registrant = result at houtcome ⊢
    cases houtcome with
    | refused => exact .of_eq rfl rfl rfl rfl rfl
    | registered hnew =>
      exact ⟨rfl, fun _ ↦ rfl, fun _ ↦ rfl, fun _ ↦ isCommutative_register hnew, subset_rfl⟩
  | ingest signal nowNs =>
    obtain ⟨rfl, -⟩ := Prod.mk.inj (Option.some.inj hstep)
    exact of_ingest oscillator hplain nowNs
  | applyStake stake =>
    obtain ⟨rfl, -⟩ := Prod.mk.inj (Option.some.inj hstep)
    show ShiftFrame signals oscillator (oscillator.applyStake stake).1
    have houtcome := oscillator.applyStake_outcome stake
    generalize oscillator.applyStake stake = result at houtcome ⊢
    cases houtcome <;> exact .of_eq rfl rfl rfl rfl rfl
  | applyRegistration reg =>
    obtain ⟨rfl, -⟩ := Prod.mk.inj (Option.some.inj hstep)
    rw [Oscillator.applyRegistration_eq]
    split_ifs <;> exact .of_eq rfl rfl rfl rfl rfl
  | submitEvm tx nowNs =>
    obtain ⟨rfl, -⟩ := Prod.mk.inj (Option.some.inj hstep)
    exact .of_eq rfl rfl rfl rfl rfl

/-- A run of plain operations does that to the shifts. Assumes: every operation of the run is plain.
-/
theorem of_reaches {oscillator next : Oscillator platform}
    {history : List (Oscillator platform × Operation)}
    (hreaches : Reaches (operate platform) (Plain signals) oscillator history next) :
    ShiftFrame signals oscillator next := by
  refine hreaches.invariant (.of_eq rfl rfl rfl rfl rfl) fun state operation after output hplain
    hframe hoperate ↦ hframe.trans ?_
  rcases operate_cases hoperate with ⟨request, response, rfl, -, hstep⟩ | ⟨-, rewardPool, rfl⟩
  · exact of_step hplain hstep
  · exact .of_eq rfl rfl rfl rfl rfl

end ShiftFrame

/-- A run of plain operations, from a tick counter below its last value, is one in which it stays
there. Assumes: every operation of the run is plain, and the counter is below its last value where
the run starts. -/
theorem tickFits_of_plain {oscillator next : Oscillator platform}
    {history : List (Oscillator platform × Operation)}
    (hreaches : Reaches (operate platform) (Plain signals) oscillator history next)
    (hfits : oscillator.synthesisTick + 1 < 2 ^ 64) :
    Reaches (operate platform) TickFits oscillator history next := by
  induction hreaches with
  | start => exact .start
  | next hbefore _ hoperate ih =>
    have htick := (PlainFrame.of_reaches hbefore).tick
    exact ih.next (show _ + 1 < 2 ^ 64 by rwa [htick]) hoperate

/-! ### Syntheses -/

namespace Oscillator

/-- Signing keeps the new certificate for the tick and delivers it, or changes nothing. -/
theorem certify_inserts (oscillator : Oscillator platform) (keys : KeyRegistry)
    (tick timestampNs : ℕ) (result : SynthesisResult) (root : Bytes32) (hashes : List TxHash)
    (evmHashes : List Evm.H256) :
    oscillator.certify keys tick timestampNs result root hashes evmHashes = oscillator ∨
    ∃ cert keypair, oscillator.operatorKeypair = some keypair ∧
      cert.operator = keypair.accountId platform.primitives ∧ cert.tick = tick ∧
      oscillator.certify keys tick timestampNs result root hashes evmHashes =
        { (oscillator.ingestCertificate cert keys).1 with
          certificates := oscillator.certificates.insert tick cert } := by
  unfold certify
  cases hkeypair : oscillator.operatorKeypair with
  | none => exact .inl rfl
  | some keypair =>
    dsimp only
    split_ifs
    · exact .inl rfl
    · exact .inr ⟨_, keypair, rfl, rfl, rfl, rfl⟩

/-- What a synthesis does to the certificates of a node, its tracker and its stakes: nothing, or it
keeps a certificate of the node for the tick and delivers it. Assumes: the synthesis returns. -/
theorem synthesize_certifies {oscillator final : Oscillator platform} {keys : KeyRegistry}
    {order : SynthesisOrder} {timestampNs : ℕ} {result : SynthesisResult} {hashes : List TxHash}
    (hsynthesize : oscillator.synthesize keys order timestampNs = some (final, result, hashes)) :
    final.operatorKeypair = oscillator.operatorKeypair ∧
    (final.certificates = oscillator.certificates ∧ final.staked = oscillator.staked ∨
      ∃ cert keypair, oscillator.operatorKeypair = some keypair ∧
        cert.operator = keypair.accountId platform.primitives ∧
        cert.tick = oscillator.synthesisTick ∧
        final.certificates =
          oscillator.certificates.insert oscillator.synthesisTick cert ∧
        final.staked = oscillator.staked.deliver platform.primitives cert keys) := by
  obtain ⟨_, _, _, _, _, -, hprepared⟩ := oscillator.prepared_eq keys order
  rcases synthesize_cases hsynthesize with ⟨error, -, rfl, -⟩ |
    ⟨placed, ledger, applied, root, decayed, rejected, -, -, hfinish⟩
  · rw [hprepared]
    exact ⟨rfl, .inl ⟨rfl, rfl⟩⟩
  · obtain ⟨evmPool, balances, evmHashes, waveField, rewardPool, -, -, -, -, hfinal⟩ :=
      finish_cases hfinish
    rw [hprepared] at hfinal
    rcases certify_inserts _ keys oscillator.synthesisTick timestampNs result root hashes
      evmHashes with hnone | ⟨cert, keypair, hkeypair, hoperator, htick, hsome⟩
    · rw [hfinal, hnone]
      exact ⟨rfl, .inl ⟨rfl, rfl⟩⟩
    · rw [hfinal, hsome]
      exact ⟨rfl, .inr ⟨cert, keypair, hkeypair, hoperator, htick, rfl,
        staked_ingestCertificate _ cert keys⟩⟩

end Oscillator

/-! ### Nonces -/

theorem Oscillator.NoncesRise.trans {first second third : Oscillator platform}
    (hfirst : Oscillator.NoncesRise first second) (hsecond : Oscillator.NoncesRise second third) :
    Oscillator.NoncesRise first third := by
  intro key highest hhighest
  obtain ⟨middle, hmiddle, hle⟩ := hfirst key highest hhighest
  obtain ⟨last, hlast, hle'⟩ := hsecond key middle hmiddle
  exact ⟨last, hlast, hle.trans hle'⟩

/-- No operation lowers a highest nonce. Assumes: the oscillator performs the operation. -/
theorem noncesRise_of_operate {oscillator next : Oscillator platform} {operation : Operation}
    {output : OperationOutput} (hoperate : operate platform oscillator operation =
      some (next, output)) : Oscillator.NoncesRise oscillator next := by
  rcases operate_cases hoperate with ⟨request, response, -, -, hstep⟩ | ⟨-, rewardPool, rfl⟩
  · rcases Oscillator.step_cases hstep with
      ⟨keys, order, timestampNs, result, hashes, -, hsynthesize⟩ | ⟨-, heffect⟩
    · exact .refl (Oscillator.synthesize_effect hsynthesize).seenNonces
    · rcases heffect.queue with ⟨-, hrise⟩ | ⟨shift, hpushes⟩
      · exact hrise
      · intro key highest hhighest
        rw [hpushes.nonces, ExtTreeMap.getElem?_insert]
        split_ifs with hsame
        · obtain rfl := LawfulEqCmp.compare_eq_iff_eq.mp hsame
          exact ⟨shift.nonce, rfl, (hpushes.nonce_gt highest hhighest).le⟩
        · exact ⟨highest, hhighest, le_rfl⟩
  · exact .refl rfl

/-- No run of operations lowers a highest nonce. Assumes: the run reaches the last state from the
first. -/
theorem noncesRise_of_reaches {allowed : Oscillator platform → Operation → Prop}
    {first last : Oscillator platform} {history : List (Oscillator platform × Operation)}
    (hreaches : Reaches (operate platform) allowed first history last) :
    Oscillator.NoncesRise first last :=
  hreaches.invariant (.refl rfl) fun _ _ _ _ _ hbefore hoperate ↦
    hbefore.trans (noncesRise_of_operate hoperate)

/-! ### Stakes behind a recorded nonce -/

/-- An announcement with a recorded nonce is refused. Assumes: the nonce is not above the recorded
one. -/
theorem applyStake_of_recorded {oscillator : Oscillator platform} {stake : StakeShift} {highest : ℕ}
    (hrecorded : oscillator.seenNonces[(stake.operator, (0 : DomainId))]? = some highest)
    (hstale : stake.nonce ≤ highest) : oscillator.applyStake stake = (oscillator, false) := by
  have hrefused : oscillator.admitsStake stake ≠ true := by
    intro hadmits
    have hfresh := Oscillator.isFresh_of_admitsStake hadmits
    unfold Oscillator.isFresh at hfresh
    rw [hrecorded] at hfresh
    exact absurd (of_decide_eq_true hfresh) (by omega)
  have houtcome := oscillator.applyStake_outcome stake
  generalize oscillator.applyStake stake = result at houtcome ⊢
  cases houtcome with
  | refused => rfl
  | repeated hadmits => exact absurd hadmits hrefused
  | short hadmits => exact absurd hadmits hrefused
  | raised liquid hadmits => exact absurd hadmits hrefused
  | lowered liquid hadmits => exact absurd hadmits hrefused

/-- Locking a stake for another operator leaves an entry alone. Assumes: no stake was locked for the
operator. -/
theorem Locks.entry_eq {first second : StakeTable} {operator : AccountId}
    (hlocks : Locks signals first second)
    (hother : ∀ stake, .stake stake ∈ signals → stake.operator ≠ operator) :
    second.entry operator = first.entry operator := by
  induction hlocks with
  | refl => rfl
  | lock stake hbrought _ ih => rw [entry_stake, if_neg (hother stake hbrought), ih]

/-- Once a nonce of an operator is recorded, plain operations leave its entry alone. Assumes: the
nonce is recorded, every operation of the run is plain, and the announcements for the operator have
nonces that are not above the recorded one. -/
theorem entry_of_recorded {first last : Oscillator platform}
    {history : List (Oscillator platform × Operation)}
    (hreaches : Reaches (operate platform) (Plain signals) first history last)
    {operator : AccountId} {highest : ℕ}
    (hrecorded : first.seenNonces[(operator, (0 : DomainId))]? = some highest)
    (hstale : ∀ stake, .stake stake ∈ signals → stake.operator = operator → stake.nonce ≤ highest) :
    last.stakeTable.entry operator = first.stakeTable.entry operator := by
  induction hreaches with
  | start => rfl
  | @next _ state _ _ _ hbefore hplain hoperate ih =>
    rw [← ih]
    rcases operate_cases hoperate with ⟨request, response, rfl, -, hstep⟩ | ⟨-, rewardPool, rfl⟩
    · cases request with
      | applyStake stake =>
        by_cases hself : stake.operator = operator
        · subst hself
          obtain ⟨later, hlater, hle⟩ := noncesRise_of_reaches hbefore _ highest hrecorded
          have hrefused := applyStake_of_recorded hlater ((hstale stake hplain rfl).trans hle)
          obtain ⟨rfl, -⟩ := Prod.mk.inj (Option.some.inj hstep)
          show (state.applyStake stake).1.stakeTable.entry stake.operator = _
          rw [hrefused]
        · have hsingle : (Operation.request (.applyStake stake)).IsPlain {.stake stake} := rfl
          refine (PlainFrame.of_step hsingle hstep).locks.entry_eq fun other hmem ↦ ?_
          obtain rfl := Signal.stake.inj hmem
          exact hself
      | ingest signal nowNs =>
        obtain ⟨rfl, -⟩ := Prod.mk.inj (Option.some.inj hstep)
        obtain ⟨_, _, _, _, hingest⟩ := state.ingest_frame signal nowNs
        show (state.ingest signal nowNs).1.stakeTable.entry operator = _
        rw [hingest]
      | _ =>
        have hframe : PlainFrame ∅ state _ := .of_step (by exact hplain) hstep
        exact hframe.locks.entry_eq fun _ hmem ↦ hmem.elim
    · rfl

end Fluidic.Consensus
