import Fluidic.Consensus.StakedTracker
import Fluidic.Consensus.Synthesis
import Fluidic.LightClient

/-!
# Agreement of quorums

A slash takes the stake of an operator out of the total, and so lowers the threshold, but leaves it
in the tallies. Two views can therefore both reach the threshold although less than a third of the
stake was slashed (`two_quorums`). The tallies of two views together never exceed the initial total,
so that they cannot both reach a threshold above half of it; this is the condition
`SlashedBelowQuarter`, which holds up to about a quarter of the stake. Under it a full node and a
light client report at most one view per tick, over a whole run (`quorum_agreement`).
-/

set_option autoImplicit false
set_option relaxedAutoImplicit false

namespace Fluidic.Consensus

open Library Crypto Operator
open Std (ExtTreeMap LawfulEqCmp)

namespace StakedTracker

/-! ### What deliveries keep -/

/-- The total stake of the operators of a table that are not slashed. -/
def liveTotal (table : StakeTable) : ℕ :=
  sumBy (fun _ entry ↦ StakeTable.liveStake entry) table.operators

/-- The stake that the operators slashed in a table held in the initial one. -/
def slashedStake (initial table : StakeTable) : ℕ :=
  sumBy (fun operator entry ↦
    if table.isSlashed operator then StakeTable.liveStake entry else 0) initial.operators

/-- A threshold of what is not slashed is more than half of the initial stake. -/
def SlashedBelowQuarter (initial table : StakeTable) : Prop :=
  liveTotal initial < 4 * ((liveTotal initial - slashedStake initial table) / 3) + 2

/-- What deliveries keep, against the initial table: entries that are not slashed are as they were,
live and slashed stake make up the initial one, and every tally is positive and covered by the
initial stake of its voters. -/
structure Counted (initial : StakeTable) (state : StakedTracker) : Prop where
  config : state.stakeTable.config = initial.config
  entries : ∀ (operator : AccountId) (entry : OperatorEntry),
    state.stakeTable.operators[operator]? = some entry → entry.slashNonce = none →
    initial.operators[operator]? = some entry
  conserved : liveTotal state.stakeTable + slashedStake initial state.stakeTable =
    liveTotal initial
  tallies : ∀ tick view stake, state.tracker.tallied tick view = some stake →
    0 < stake ∧ stake ≤ state.tracker.votedStake initial tick view

/-- The votes for a view are at most the whole stake. -/
theorem votedStake_le (tracker : CertificateTracker) (table : StakeTable) (tick : ℕ)
    (view : QuorumView) : tracker.votedStake table tick view ≤ liveTotal table := by
  refine sumBy_le_sumBy (fun operator entry ↦ ?_) table.operators
  split_ifs
  · exact le_rfl
  · exact Nat.zero_le _

/-- Nothing is counted at the start. Assumes: no operator is slashed. -/
theorem counted_new {initial : StakeTable}
    (hunslashed : ∀ operator, initial.isSlashed operator = false) :
    Counted initial ⟨CertificateTracker.new, initial⟩ where
  config := rfl
  entries _ _ hentry _ := hentry
  conserved := by
    have hnone : slashedStake initial initial = 0 := by
      unfold slashedStake sumBy
      refine List.sum_eq_zero fun weight hweight ↦ ?_
      obtain ⟨entry, -, rfl⟩ := List.mem_map.mp hweight
      dsimp only
      rw [hunslashed, if_neg Bool.false_ne_true]
    rw [hnone, Nat.add_zero]
  tallies tick view stake htallied := by
    simp [CertificateTracker.tallied, CertificateTracker.new] at htallied

/-- Who is slashed after a slash. -/
theorem isSlashed_slash (table : StakeTable) (operator other : AccountId) :
    (table.slash operator).1.isSlashed other =
      if other = operator then true else table.isSlashed other := by
  unfold StakeTable.isSlashed StakeTable.entry StakeTable.slash
  dsimp only
  rw [ExtTreeMap.getD_insert]
  simp only [LawfulEqCmp.compare_eq_iff_eq]
  by_cases hself : other = operator
  · rw [if_pos hself, if_pos hself.symm]
    rfl
  · rw [if_neg hself, if_neg (Ne.symm hself)]

/-- A slash moves the stake of the operator to the slashed stake. Assumes: the operator has the
initial entry, and was not slashed before. -/
theorem slashedStake_slash {initial table : StakeTable} {operator : AccountId}
    {entry : OperatorEntry} (hinitial : initial.operators[operator]? = some entry)
    (hbefore : table.isSlashed operator = false) :
    slashedStake initial (table.slash operator).1 =
      slashedStake initial table + StakeTable.liveStake entry := by
  have hother : ∀ other (entry : OperatorEntry), other ≠ operator →
      (if (table.slash operator).1.isSlashed other then StakeTable.liveStake entry else 0) =
        if table.isSlashed other then StakeTable.liveStake entry else 0 := by
    intro other entry hne
    rw [isSlashed_slash, if_neg hne]
  have hreweigh := sumBy_reweigh hinitial hother
  rw [hbefore, isSlashed_slash, if_pos rfl] at hreweigh
  exact hreweigh

/-- A slash moves the stake of an operator from the live to the slashed stake. Assumes: the state is
counted, and the operator is eligible. -/
theorem Counted.slash {initial : StakeTable} {state : StakedTracker}
    (hcounted : Counted initial state) {operator : AccountId}
    (hstaked : state.stakeTable.isStaked operator = true) :
    Counted initial { state with stakeTable := (state.stakeTable.slash operator).1 } := by
  obtain ⟨entry, hentry, -, hnonce, -⟩ := exists_entry_of_isStaked hstaked
  have hinitial := hcounted.entries operator entry hentry hnonce
  constructor
  · exact hcounted.config
  · intro other otherEntry hother hnone
    have hlookup : (state.stakeTable.operators.insert operator
        ⟨0, some state.stakeTable.slashCounter⟩)[other]? = some otherEntry := hother
    rw [ExtTreeMap.getElem?_insert] at hlookup
    split_ifs at hlookup with hself
    · rw [← Option.some.inj hlookup] at hnone
      cases hnone
    · exact hcounted.entries other otherEntry hlookup hnone
  · have hlive : liveTotal (state.stakeTable.slash operator).1 + StakeTable.liveStake entry =
        liveTotal state.stakeTable := by
      have hinsert := sumBy_insert (fun _ entry ↦ StakeTable.liveStake entry)
        state.stakeTable.operators operator ⟨0, some state.stakeTable.slashCounter⟩
      rw [hentry] at hinsert
      exact hinsert
    have hbefore : state.stakeTable.isSlashed operator = false := by
      unfold StakeTable.isSlashed StakeTable.entry
      rw [ExtTreeMap.getD_eq_getD_getElem?, hentry, Option.getD_some, hnonce]
      rfl
    have hslashed := slashedStake_slash hinitial hbefore
    have hconserved := hcounted.conserved
    show liveTotal (state.stakeTable.slash operator).1 +
      slashedStake initial (state.stakeTable.slash operator).1 = liveTotal initial
    omega
  · exact hcounted.tallies

section Cap

variable {initial : StakeTable} (hminimum : 0 < initial.config.minStake)
  (hcap : liveTotal initial < 2 ^ 128)

include hcap in
/-- The tally after a certificate was kept: what it was before and the stake of the operator.
Assumes: the state is counted, the operator had no certificate for the tick, and has the entry in
the initial table. -/
theorem Counted.tallied_record {state : StakedTracker} (hcounted : Counted initial state)
    {cert : SynthesisCertificate}
    (hfresh : state.tracker.byOperatorTick[(cert.operator, cert.tick)]? = none)
    {entry : OperatorEntry} (hinitial : initial.operators[cert.operator]? = some entry) :
    (state.tracker.record cert (StakeTable.liveStake entry)).tallied cert.tick
        (QuorumView.ofCertificate cert) =
      some ((state.tracker.tallied cert.tick (QuorumView.ofCertificate cert)).getD 0 +
        StakeTable.liveStake entry) := by
  rw [CertificateTracker.tallied_record, if_pos ⟨rfl, rfl⟩]
  cases hbefore : state.tracker.tallied cert.tick (QuorumView.ofCertificate cert) with
  | none => rw [Option.getD_none, Nat.zero_add]
  | some before =>
    have hcovered := (hcounted.tallies _ _ _ hbefore).2
    have htotal := votedStake_le (state.tracker.record cert (StakeTable.liveStake entry)) initial
      cert.tick (QuorumView.ofCertificate cert)
    rw [CertificateTracker.votedStake_record hfresh hinitial] at htotal
    have hfits : before + StakeTable.liveStake entry < 2 ^ 128 := by omega
    exact congrArg some (wrappingAdd_of_lt hfits)

include hminimum hcap in
/-- Keeping a certificate keeps the tallies covered. Assumes: the state is counted, and the operator
is eligible and had no certificate for the tick. -/
theorem Counted.record {state : StakedTracker} (hcounted : Counted initial state)
    {cert : SynthesisCertificate} (hstaked : state.stakeTable.isStaked cert.operator = true)
    (hfresh : state.tracker.byOperatorTick[(cert.operator, cert.tick)]? = none) :
    Counted initial { state with
      tracker := state.tracker.record cert (state.stakeTable.getStake cert.operator) } := by
  obtain ⟨entry, hentry, hstake, hnonce, hget⟩ := exists_entry_of_isStaked hstaked
  have hinitial := hcounted.entries cert.operator entry hentry hnonce
  have hpositive : 0 < StakeTable.liveStake entry := by
    rw [hcounted.config] at hstake
    unfold StakeTable.liveStake
    rw [hnonce]
    exact lt_of_lt_of_le hminimum hstake
  refine ⟨hcounted.config, hcounted.entries, hcounted.conserved, ?_⟩
  intro tick view stake htallied
  rw [hget] at htallied
  show 0 < stake ∧ stake ≤ (state.tracker.record cert _).votedStake initial tick view
  by_cases hself : tick = cert.tick ∧ view = QuorumView.ofCertificate cert
  · obtain ⟨rfl, rfl⟩ := hself
    rw [hcounted.tallied_record hcap hfresh hinitial, Option.some.injEq] at htallied
    rw [CertificateTracker.votedStake_record hfresh hinitial]
    cases hbefore : state.tracker.tallied cert.tick (QuorumView.ofCertificate cert) with
    | none =>
      rw [hbefore, Option.getD_none] at htallied
      omega
    | some before =>
      have hcovered := (hcounted.tallies _ _ _ hbefore).2
      rw [hbefore, Option.getD_some] at htallied
      omega
  · rw [CertificateTracker.tallied_record, if_neg hself] at htallied
    obtain ⟨hsome, hcovered⟩ := hcounted.tallies tick view stake htallied
    exact ⟨hsome, le_trans hcovered (CertificateTracker.votedStake_le_record hfresh _ _ _ _)⟩

include hminimum hcap in
/-- A delivery keeps everything counted. Assumes: the state is counted. -/
theorem Counted.deliver {state : StakedTracker} (hcounted : Counted initial state)
    (prim : Primitives) (cert : SynthesisCertificate) (registry : KeyRegistry) :
    Counted initial (state.deliver prim cert registry) := by
  rcases state.deliver_cases prim cert registry with hsame | ⟨hconflicts, hslash⟩ |
    ⟨hstaked, hfresh, hrecord⟩
  · rw [hsame]
    exact hcounted
  · rw [hslash]
    exact hcounted.slash (of_conflicts hconflicts).1
  · rw [hrecord]
    exact hcounted.record hminimum hcap hstaked hfresh

/-! ### What a delivery never takes back -/

/-- No tally falls, and the threshold does not rise. -/
structure Advances (state next : StakedTracker) : Prop where
  tallies : ∀ tick view stake, state.tracker.tallied tick view = some stake →
    ∃ stake', next.tracker.tallied tick view = some stake' ∧ stake ≤ stake'
  threshold : next.stakeTable.quorumThreshold ≤ state.stakeTable.quorumThreshold

theorem Advances.refl (state : StakedTracker) : Advances state state :=
  ⟨fun _ _ stake htallied ↦ ⟨stake, htallied, le_rfl⟩, le_rfl⟩

theorem Advances.trans {first second third : StakedTracker} (hfirst : Advances first second)
    (hsecond : Advances second third) : Advances first third := by
  refine ⟨fun tick view stake htallied ↦ ?_, le_trans hsecond.threshold hfirst.threshold⟩
  obtain ⟨stake', htallied', hle⟩ := hfirst.tallies tick view stake htallied
  obtain ⟨stake'', htallied'', hle'⟩ := hsecond.tallies tick view stake' htallied'
  exact ⟨stake'', htallied'', le_trans hle hle'⟩

include hcap in
/-- The total of a counted table does not wrap. Assumes: the state is counted. -/
theorem Counted.totalStake_eq {state : StakedTracker} (hcounted : Counted initial state) :
    state.stakeTable.totalStake = liveTotal state.stakeTable := by
  have hconserved := hcounted.conserved
  exact Nat.mod_eq_of_lt (show liveTotal state.stakeTable < 2 ^ 128 by omega)

include hminimum hcap in
/-- A delivery takes nothing back. Assumes: the state is counted. -/
theorem Counted.advances {state : StakedTracker} (hcounted : Counted initial state)
    (prim : Primitives) (cert : SynthesisCertificate) (registry : KeyRegistry) :
    Advances state (state.deliver prim cert registry) := by
  have hnext := hcounted.deliver hminimum hcap prim cert registry
  rcases state.deliver_cases prim cert registry with hsame | ⟨hconflicts, hslash⟩ |
    ⟨hstaked, hfresh, hrecord⟩
  · rw [hsame]
    exact .refl state
  · refine ⟨fun tick view stake htallied ↦ ⟨stake, by rw [hslash]; exact htallied, le_rfl⟩, ?_⟩
    have hless : liveTotal (state.deliver prim cert registry).stakeTable ≤
        liveTotal state.stakeTable := by
      obtain ⟨entry, hentry, -⟩ := exists_entry_of_isStaked (of_conflicts hconflicts).1
      have hinsert := sumBy_insert (fun _ entry ↦ StakeTable.liveStake entry)
        state.stakeTable.operators cert.operator ⟨0, some state.stakeTable.slashCounter⟩
      rw [hslash]
      have hsum : liveTotal (state.stakeTable.slash cert.operator).1 + _ =
        liveTotal state.stakeTable + 0 := hinsert
      exact le_trans (Nat.le_add_right _ _) (le_of_eq hsum)
    unfold StakeTable.quorumThreshold
    rw [hnext.totalStake_eq hcap, hcounted.totalStake_eq hcap]
    split_ifs <;> omega
  · obtain ⟨entry, hentry, -, hnonce, hget⟩ := exists_entry_of_isStaked hstaked
    have hinitial := hcounted.entries cert.operator entry hentry hnonce
    rw [hrecord, hget]
    refine ⟨fun tick view stake htallied ↦ ?_, le_rfl⟩
    by_cases hself : tick = cert.tick ∧ view = QuorumView.ofCertificate cert
    · obtain ⟨rfl, rfl⟩ := hself
      refine ⟨_, hcounted.tallied_record hcap hfresh hinitial, ?_⟩
      rw [htallied, Option.getD_some]
      exact Nat.le_add_right _ _
    · refine ⟨stake, ?_, le_rfl⟩
      rw [CertificateTracker.tallied_record, if_neg hself]
      exact htallied

/-! ### At most one quorum -/

/-- No two views of a tick have a tally of the threshold. -/
def UniqueQuorum (state : StakedTracker) : Prop :=
  ∀ tick view view' stake stake', state.tracker.tallied tick view = some stake →
    state.tracker.tallied tick view' = some stake' →
    state.stakeTable.quorumThreshold ≤ stake → state.stakeTable.quorumThreshold ≤ stake' →
    view = view'

include hcap in
/-- Two quorums would need more than the initial stake. Assumes: the state is counted, and less than
about a quarter is slashed. -/
theorem Counted.uniqueQuorum {state : StakedTracker} (hcounted : Counted initial state)
    (hquarter : SlashedBelowQuarter initial state.stakeTable) : UniqueQuorum state := by
  intro tick view view' stake stake' hview hview' hquorum hquorum'
  by_contra hne
  obtain ⟨hpositive, hcovered⟩ := hcounted.tallies tick view stake hview
  obtain ⟨hpositive', hcovered'⟩ := hcounted.tallies tick view' stake' hview'
  have hsum : state.tracker.votedStake initial tick view +
      state.tracker.votedStake initial tick view' ≤ liveTotal initial :=
    state.tracker.votedStake_add_le initial tick hne
  have hconserved := hcounted.conserved
  have hlive : liveTotal initial - slashedStake initial state.stakeTable =
      state.stakeTable.totalStake := by
    rw [hcounted.totalStake_eq hcap]
    omega
  unfold SlashedBelowQuarter at hquarter
  rw [hlive] at hquarter
  unfold StakeTable.quorumThreshold at hquorum hquorum'
  split_ifs at hquorum hquorum' with hzero
  · rw [hzero] at hquarter
    omega
  · omega

/-- A quorum in an earlier state is one in a later state. Assumes: the later state has at most one
quorum, and takes nothing back that two earlier ones had. -/
theorem UniqueQuorum.agree {first second final : StakedTracker} (hunique : UniqueQuorum final)
    (hfirst : Advances first final) (hsecond : Advances second final)
    {order order' : IterationOrder (QuorumView × ℕ)} {tick : ℕ} {view view' : QuorumView}
    {stake stake' : ℕ}
    (hquorum : first.tracker.checkQuorum order tick first.stakeTable.quorumThreshold =
      some (view, stake))
    (hquorum' : second.tracker.checkQuorum order' tick second.stakeTable.quorumThreshold =
      some (view', stake')) : view = view' := by
  obtain ⟨htallied, hthreshold⟩ := CertificateTracker.tallied_of_checkQuorum hquorum
  obtain ⟨htallied', hthreshold'⟩ := CertificateTracker.tallied_of_checkQuorum hquorum'
  obtain ⟨later, hlater, hle⟩ := hfirst.tallies tick view stake htallied
  obtain ⟨later', hlater', hle'⟩ := hsecond.tallies tick view' stake' htallied'
  exact hunique tick view view' later later' hlater hlater'
    (le_trans hfirst.threshold (le_trans hthreshold hle))
    (le_trans hsecond.threshold (le_trans hthreshold' hle'))

end Cap

end StakedTracker

/-! ### Full nodes and light clients -/

namespace Oscillator

variable {platform : Platform}

/-- The tracker of a full node with its stake table. -/
def staked (oscillator : Oscillator platform) : StakedTracker :=
  ⟨oscillator.certificateTracker, oscillator.stakeTable⟩

/-- A full node delivers the certificates it ingests. -/
theorem staked_ingestCertificate (oscillator : Oscillator platform) (cert : SynthesisCertificate)
    (registry : KeyRegistry) :
    (oscillator.ingestCertificate cert registry).1.staked =
      oscillator.staked.deliver platform.primitives cert registry := by
  unfold ingestCertificate StakedTracker.deliver CertificateTracker.apply staked
  dsimp only
  split
  · rfl
  · split_ifs
    · rfl
    · rfl
    · split
      · split_ifs
        · rfl
        · rfl
      · rfl

/-- The request delivers a certificate. -/
def Delivers (_ : Oscillator platform) : Request → Prop
  | .ingestCertificate _ _ => True
  | _ => False

instance : DecidableRel (Delivers : Oscillator platform → Request → Prop) :=
  fun _ request ↦ match request with
    | .ingestCertificate _ _ => isTrue trivial
    | .seedAccount _ _ => isFalse not_false
    | .markNonDecaying _ => isFalse not_false
    | .registerDomain _ _ => isFalse not_false
    | .ingest _ _ => isFalse not_false
    | .applyStake _ => isFalse not_false
    | .stake _ _ => isFalse not_false
    | .applyRegistration _ => isFalse not_false
    | .submitEvm _ _ => isFalse not_false
    | .synthesize _ _ _ => isFalse not_false

/-- A request that delivers a certificate. Assumes: the request delivers a certificate, and leads to
the next state. -/
theorem exists_deliver {oscillator next : Oscillator platform} {request : Request}
    {response : Response} (hdelivers : Delivers oscillator request)
    (hstep : step platform oscillator request = some (next, response)) :
    ∃ cert registry,
      next.staked = oscillator.staked.deliver platform.primitives cert registry := by
  cases request with
  | ingestCertificate cert registry =>
    obtain ⟨rfl, -⟩ := Prod.mk.inj (Option.some.inj hstep)
    exact ⟨cert, registry, oscillator.staked_ingestCertificate cert registry⟩
  | _ => exact hdelivers.elim

end Oscillator

end Fluidic.Consensus

namespace Fluidic.LightClient

open Library Crypto Consensus Operator

/-- The tracker of a light client with its stake table. -/
def staked (client : LightClient) : StakedTracker := ⟨client.tracker, client.stakeTable⟩

/-- A light client delivers the certificates it ingests, and reports a quorum of the state it is in
then. -/
theorem staked_ingestCertificate (prim : Primitives) (client : LightClient)
    (cert : SynthesisCertificate) (order : IterationOrder (QuorumView × ℕ)) :
    (client.ingestCertificate prim cert order).1.staked =
      client.staked.deliver prim cert client.keyRegistry ∧
    ∀ view, (client.ingestCertificate prim cert order).2 = .ok (some view) →
      ∃ stake, (client.staked.deliver prim cert client.keyRegistry).tracker.checkQuorum order
        cert.tick (client.staked.deliver prim cert client.keyRegistry).stakeTable.quorumThreshold =
          some (view, stake) := by
  unfold ingestCertificate
  dsimp only
  have hdeliver : client.staked.deliver prim cert client.keyRegistry =
      ⟨(client.tracker.apply prim cert client.keyRegistry client.stakeTable.isStaked
          client.stakeTable.getStake (fun operator table ↦ (table.slash operator).1)
          client.stakeTable).1,
        (client.tracker.apply prim cert client.keyRegistry client.stakeTable.isStaked
          client.stakeTable.getStake (fun operator table ↦ (table.slash operator).1)
          client.stakeTable).2.1⟩ := rfl
  rw [hdeliver]
  split
  · refine ⟨rfl, fun view hview ↦ ?_⟩
    cases hview
  · split
    · refine ⟨rfl, fun view hview ↦ ?_⟩
      cases hview
    · rename_i hquorum
      refine ⟨rfl, fun view hview ↦ ?_⟩
      rw [Except.ok.injEq, Option.some.injEq] at hview
      exact ⟨_, by rw [← hview]; exact hquorum⟩

/-- A call in which a light client reports a view for a tick. -/
def Reports (prim : Primitives) (entry : LightClient × Call) (tick : ℕ) (view : QuorumView) :
    Prop :=
  ∃ cert order, entry.2 = .ingestCertificate cert order ∧ cert.tick = tick ∧
    (entry.1.ingestCertificate prim cert order).2 = .ok (some view)

/-- A call delivers a certificate or leaves the tracker and the stakes alone. -/
theorem serve_cases {prim : Primitives} {client next : LightClient} {call : Call}
    {output : Except String (Option QuorumView)}
    (hserve : client.serve prim call = some (next, output)) :
    next.staked = client.staked ∨
    ∃ cert registry, next.staked = client.staked.deliver prim cert registry := by
  cases call with
  | registerKey account publicKey =>
    obtain ⟨rfl, -⟩ := Prod.mk.inj (Option.some.inj hserve)
    exact .inl rfl
  | ingestCertificate cert order =>
    have hstaked := (client.staked_ingestCertificate prim cert order).1
    have hnext : client.ingestCertificate prim cert order = (next, output) :=
      Option.some.inj hserve
    rw [hnext] at hstaked
    exact .inr ⟨cert, client.keyRegistry, hstaked⟩

end Fluidic.LightClient

namespace Fluidic.Consensus

open Library Crypto Operator StakedTracker
open Std (ExtTreeMap)

variable {platform : Platform}

/-- A full node that only receives certificates counts them and takes nothing back. Assumes: no
operator is slashed at first, the minimum stake is positive, and the initial stake has 128 bits. -/
theorem Oscillator.counted_of_reaches {initial : StakeTable}
    (hminimum : 0 < initial.config.minStake)
    (hunslashed : ∀ operator, initial.isSlashed operator = false)
    (hcap : liveTotal initial < 2 ^ 128) {nttSize : ℕ} {operatorKeypair : Option KeyPair}
    {history : List (Oscillator platform × Request)} {final : Oscillator platform}
    (hreaches : Reaches (step platform) Oscillator.Delivers
      (Oscillator.create nttSize operatorKeypair initial) history final) :
    Counted initial final.staked ∧
      ∀ oscillator ∈ history.map Prod.fst ++ [final], Advances oscillator.staked final.staked := by
  have hinitial : Counted initial
      (Oscillator.create nttSize operatorKeypair initial : Oscillator platform).staked :=
    counted_new hunslashed
  have hstep : ∀ (state : Oscillator platform) request state' response,
      Oscillator.Delivers state request → Counted initial state.staked →
      step platform state request = some (state', response) →
      Counted initial state'.staked ∧ Advances state.staked state'.staked := by
    intro state request state' response hdelivers hcounted hnext
    obtain ⟨cert, registry, hdeliver⟩ := Oscillator.exists_deliver hdelivers hnext
    rw [hdeliver]
    exact ⟨hcounted.deliver hminimum hcap _ cert registry,
      hcounted.advances hminimum hcap _ cert registry⟩
  refine ⟨@Reaches.invariant _ _ _ _ _ _
    (fun state : Oscillator platform ↦ Counted initial state.staked) hinitial
    (fun state request state' response hdelivers hcounted hnext ↦
      (hstep state request state' response hdelivers hcounted hnext).1) _ _ hreaches, ?_⟩
  have hrel := @Reaches.rel_of_mem _ _ _ _ _ _
    (fun state : Oscillator platform ↦ Counted initial state.staked)
    (fun state next ↦ Advances state.staked next.staked) hinitial
    (fun state request state' response hdelivers hcounted hnext ↦
      (hstep state request state' response hdelivers hcounted hnext).1)
    (fun state ↦ Advances.refl state.staked)
    (fun _ _ _ hfirst hsecond ↦ Advances.trans hfirst hsecond)
    (fun state request state' response hdelivers hcounted hnext ↦
      (hstep state request state' response hdelivers hcounted hnext).2) _ _ hreaches
  intro oscillator hmem
  rw [List.mem_append, List.mem_map, List.mem_singleton] at hmem
  rcases hmem with ⟨entry, hentry, rfl⟩ | rfl
  · obtain ⟨next, response, -, hfirst, hsecond⟩ := hrel entry hentry
    exact hfirst.trans hsecond
  · exact .refl _

/-- A light client counts the certificates it receives and takes nothing back. Assumes: no operator
is slashed at first, the minimum stake is positive, and the initial stake has 128 bits. -/
theorem counted_of_serves {prim : Primitives} {initial : StakeTable}
    (hminimum : 0 < initial.config.minStake)
    (hunslashed : ∀ operator, initial.isSlashed operator = false)
    (hcap : liveTotal initial < 2 ^ 128) {history : List (LightClient × LightClient.Call)}
    {final : LightClient}
    (hreaches : Reaches (LightClient.serve prim) anyStep (LightClient.new initial) history final) :
    Counted initial final.staked ∧
      ∀ entry ∈ history, ∃ next output, entry.1.serve prim entry.2 = some (next, output) ∧
        Advances next.staked final.staked := by
  have hinitial : Counted initial (LightClient.new initial).staked := counted_new hunslashed
  have hstep : ∀ (state : LightClient) call state' output, Counted initial state.staked →
      state.serve prim call = some (state', output) →
      Counted initial state'.staked ∧ Advances state.staked state'.staked := by
    intro state call state' output hcounted hnext
    rcases LightClient.serve_cases hnext with hsame | ⟨cert, registry, hdeliver⟩
    · rw [hsame]
      exact ⟨hcounted, .refl _⟩
    · rw [hdeliver]
      exact ⟨hcounted.deliver hminimum hcap prim cert registry,
        hcounted.advances hminimum hcap prim cert registry⟩
  refine ⟨@Reaches.invariant _ _ _ _ _ _
    (fun state : LightClient ↦ Counted initial state.staked) hinitial
    (fun state call state' output _ hcounted hnext ↦
      (hstep state call state' output hcounted hnext).1) _ _ hreaches, fun entry hentry ↦ ?_⟩
  obtain ⟨next, output, hnext, -, hadvances⟩ := @Reaches.rel_of_mem _ _ _ _ _ _
    (fun state : LightClient ↦ Counted initial state.staked)
    (fun state next ↦ Advances state.staked next.staked) hinitial
    (fun state call state' output _ hcounted hnext ↦
      (hstep state call state' output hcounted hnext).1)
    (fun state ↦ Advances.refl state.staked)
    (fun _ _ _ hfirst hsecond ↦ Advances.trans hfirst hsecond)
    (fun state call state' output _ hcounted hnext ↦
      (hstep state call state' output hcounted hnext).2) _ _ hreaches entry hentry
  exact ⟨next, output, hnext, hadvances⟩

/-- While less than about a quarter of the initial stake is slashed, at most one view of each tick
has a tally of the threshold, at a full node and at a light client, and no two reports of either
for one tick, at any two points of the run, name different views. Assumes: the default minimum
stake, no operator slashed at first, and an initial stake of 128 bits. -/
theorem quorum_agreement {initial : StakeTable} (hconfig : initial.config = StakingConfig.default)
    (hunslashed : ∀ operator, initial.isSlashed operator = false)
    (hcap : liveTotal initial < 2 ^ 128) :
    (∀ (nttSize : ℕ) (operatorKeypair : Option KeyPair)
      (history : List (Oscillator platform × Request)) (final : Oscillator platform),
      Reaches (step platform) Oscillator.Delivers
        (Oscillator.create nttSize operatorKeypair initial) history final →
      SlashedBelowQuarter initial final.stakeTable →
      UniqueQuorum final.staked ∧
      ∀ first ∈ history.map Prod.fst ++ [final], ∀ second ∈ history.map Prod.fst ++ [final],
        ∀ order order' tick view view' stake stake',
          first.checkQuorum order tick = some (view, stake) →
          second.checkQuorum order' tick = some (view', stake') → view = view') ∧
    ∀ (history : List (LightClient × LightClient.Call)) (final : LightClient),
      Reaches (LightClient.serve platform.primitives) anyStep (LightClient.new initial) history
        final →
      SlashedBelowQuarter initial final.stakeTable →
      UniqueQuorum final.staked ∧
      ∀ first ∈ history, ∀ second ∈ history, ∀ tick view view',
        LightClient.Reports platform.primitives first tick view →
        LightClient.Reports platform.primitives second tick view' → view = view' := by
  have hminimum : 0 < initial.config.minStake := by
    rw [hconfig]
    decide
  constructor
  · intro nttSize operatorKeypair history final hreaches hquarter
    obtain ⟨hcounted, hadvances⟩ :=
      Oscillator.counted_of_reaches hminimum hunslashed hcap hreaches
    have hunique := hcounted.uniqueQuorum hcap hquarter
    refine ⟨hunique, ?_⟩
    intro first hfirst second hsecond order order' tick view view' stake stake' hquorum hquorum'
    exact hunique.agree (hadvances first hfirst) (hadvances second hsecond) hquorum hquorum'
  · intro history final hreaches hquarter
    obtain ⟨hcounted, hadvances⟩ := counted_of_serves hminimum hunslashed hcap hreaches
    have hunique := hcounted.uniqueQuorum hcap hquarter
    have hreported : ∀ entry ∈ history, ∀ tick view,
        LightClient.Reports platform.primitives entry tick view →
        ∃ (next : StakedTracker) (order : IterationOrder (QuorumView × ℕ)) (stake : ℕ),
          Advances next final.staked ∧
          next.tracker.checkQuorum order tick next.stakeTable.quorumThreshold =
            some (view, stake) := by
      rintro ⟨client, call⟩ hentry _ view ⟨cert, order, hcall, rfl, hreport⟩
      dsimp only at hcall
      subst hcall
      obtain ⟨next, output, hnext, hadvance⟩ := hadvances _ hentry
      obtain ⟨hstaked, hquorum⟩ :=
        client.staked_ingestCertificate platform.primitives cert order
      have heq : client.ingestCertificate platform.primitives cert order = (next, output) :=
        Option.some.inj hnext
      rw [heq] at hstaked
      obtain ⟨stake, hstake⟩ := hquorum view hreport
      rw [← hstaked] at hstake
      exact ⟨next.staked, order, stake, hadvance, hstake⟩
    refine ⟨hunique, ?_⟩
    intro first hfirst second hsecond tick view view' hreport hreport'
    obtain ⟨next, order, stake, hadvance, hquorum⟩ := hreported first hfirst tick view hreport
    obtain ⟨next', order', stake', hadvance', hquorum'⟩ :=
      hreported second hsecond tick view' hreport'
    exact hunique.agree hadvance hadvance' hquorum hquorum'

/-! ### Runs with an equivocating operator -/

/-- The stakes of the first three seeds, in units of the minimum stake. -/
def sampleStakes (first second third : ℕ) : StakeTable :=
  [(1, first), (2, second), (3, third)].foldl
    (fun table stake ↦
      (table.stake (sampleAccount stake.1) (stake.2 * StakingConfig.default.minStake)).1)
    (StakeTable.new StakingConfig.default)

/-- A certificate of a seed for the first tick, with the given root of the balances. -/
def sampleCertificate (seed root : ℕ) : SynthesisCertificate :=
  SynthesisCertificate.sign .sample ⟨BitVec.ofNat 256 seed⟩
    { operator := sampleAccount seed
      tick := 0
      commutativeApplied := 0
      statefulApplied := 0
      evmApplied := 0
      commutativeRoot := 0
      statefulRoot := 0
      balancesRoot := BitVec.ofNat 256 root
      stakeRoot := 0
      rewardRoot := 0
      evmRoot := 0
      metabolicBurned := 0
      timestampNs := 0
      signature := [] }

/-- The view of the certificates with a root. -/
def sampleView (root : ℕ) : QuorumView := QuorumView.ofCertificate (sampleCertificate 1 root)

/-- The first two seeds certify one root and the third another; then the second seed certifies the
other root as well. -/
def equivocation : List SynthesisCertificate :=
  [sampleCertificate 1 1, sampleCertificate 2 1, sampleCertificate 3 2, sampleCertificate 2 2]

/-- No operator of a table is slashed. Assumes: no entry has a slash nonce. -/
theorem isSlashed_eq_false {table : StakeTable}
    (hentries : ∀ entry ∈ table.operators.toList, entry.2.slashNonce = none)
    (operator : AccountId) : table.isSlashed operator = false := by
  unfold StakeTable.isSlashed StakeTable.entry
  rw [ExtTreeMap.getD_eq_getD_getElem?]
  cases hentry : table.operators[operator]? with
  | none => rfl
  | some entry =>
    have hnone := hentries (operator, entry)
      (ExtTreeMap.mem_toList_iff_getElem?_eq_some.mpr hentry)
    rw [Option.getD_some, hnone]
    rfl

/-- The equivocating operator holds one ninth of the stake: it is slashed, and there is one quorum.
-/
theorem quorum_agreement_equivocation :
    ∃ (history : List (Oscillator Platform.sample × Request))
      (final : Oscillator Platform.sample),
      Reaches (step Platform.sample) Oscillator.Delivers
        (Oscillator.create 8 none (sampleStakes 12 2 4)) history final ∧
      SlashedBelowQuarter (sampleStakes 12 2 4) final.stakeTable ∧
      final.stakeTable.isSlashed (sampleAccount 2) = true ∧ UniqueQuorum final.staked := by
  have hruns : ((run (step Platform.sample) Oscillator.Delivers
      (Oscillator.create 8 none (sampleStakes 12 2 4))
      (equivocation.map fun cert ↦ .ingestCertificate cert sampleKeys)).map fun final ↦
        (decide (liveTotal (sampleStakes 12 2 4) <
          4 * ((liveTotal (sampleStakes 12 2 4) -
            slashedStake (sampleStakes 12 2 4) final.stakeTable) / 3) + 2),
          final.stakeTable.isSlashed (sampleAccount 2))) = some (true, true) := by
    decide +kernel
  obtain ⟨final, hrun, hvalues⟩ := Option.map_eq_some_iff.mp hruns
  obtain ⟨hbound, hslashed⟩ := Prod.mk.inj hvalues
  obtain ⟨history, -, hreaches⟩ := reaches_of_run hrun
  have hless := of_decide_eq_true hbound
  have hquarter : SlashedBelowQuarter (sampleStakes 12 2 4) final.stakeTable := hless
  have hunslashed := @isSlashed_eq_false (sampleStakes 12 2 4) (by decide +kernel)
  have hcap : liveTotal (sampleStakes 12 2 4) < 2 ^ 128 := by decide +kernel
  exact ⟨history, final, hreaches, hquarter, hslashed,
    ((@quorum_agreement Platform.sample _ rfl hunslashed hcap).1 8 none history final hreaches
      hquarter).1⟩

/-- The equivocating operator holds less than a third of the stake, and both roots have a quorum; a
full node reports the one that it visits first. -/
theorem two_quorums :
    (sampleStakes 4 5 9).config = StakingConfig.default ∧
    (∀ operator, (sampleStakes 4 5 9).isSlashed operator = false) ∧
    liveTotal (sampleStakes 4 5 9) < 2 ^ 128 ∧
    ∃ final : Oscillator Platform.sample,
      run (step Platform.sample) Oscillator.Delivers
        (Oscillator.create 8 none (sampleStakes 4 5 9))
        (equivocation.map fun cert ↦ .ingestCertificate cert sampleKeys) = some final ∧
      3 * slashedStake (sampleStakes 4 5 9) final.stakeTable < liveTotal (sampleStakes 4 5 9) ∧
      (final.checkQuorum .forward 0).map Prod.fst = some (sampleView 1) ∧
      (final.checkQuorum .backward 0).map Prod.fst = some (sampleView 2) ∧
      ¬ UniqueQuorum final.staked := by
  have hruns : ((run (step Platform.sample) Oscillator.Delivers
      (Oscillator.create 8 none (sampleStakes 4 5 9))
      (equivocation.map fun cert ↦ .ingestCertificate cert sampleKeys)).map fun final ↦
        decide (3 * slashedStake (sampleStakes 4 5 9) final.stakeTable <
            liveTotal (sampleStakes 4 5 9) ∧
          final.checkQuorum .forward 0 = some (sampleView 1, 9000000000000000000) ∧
          final.checkQuorum .backward 0 = some (sampleView 2, 9000000000000000000))) =
      some true := by
    decide +kernel
  obtain ⟨final, hrun, hvalues⟩ := Option.map_eq_some_iff.mp hruns
  obtain ⟨hthird, hforward, hbackward⟩ := of_decide_eq_true hvalues
  refine ⟨rfl, isSlashed_eq_false (by decide +kernel), by decide +kernel, final, hrun, hthird,
    by rw [hforward]; rfl, by rw [hbackward]; rfl, fun hunique ↦ ?_⟩
  obtain ⟨htallied, hquorum⟩ := CertificateTracker.tallied_of_checkQuorum hforward
  obtain ⟨htallied', hquorum'⟩ := CertificateTracker.tallied_of_checkQuorum hbackward
  have hsame : sampleView 1 = sampleView 2 :=
    hunique 0 _ _ _ _ htallied htallied' hquorum hquorum'
  revert hsame
  decide +kernel

end Fluidic.Consensus
