import Fluidic.Consensus.Certificate
import Fluidic.Operator.Stake

/-!
# Certificates and stakes together

A full node and a light client keep a certificate tracker and a stake table and update both when a
certificate arrives. `StakedTracker` is the pair, and `deliver` the update that they have in common.

The tracker adds the stake of an operator to a tally when its first certificate for a tick arrives
and never touches that tally for the same operator again. `votedStake` is what a tally stands for:
the stake, in a given table, of the operators whose certificate for the tick is kept and carries the
view. `deliver_cases` says what a delivery does, and `votedStake_record` what a kept certificate
adds.
-/

set_option autoImplicit false
set_option relaxedAutoImplicit false

namespace Fluidic.Consensus

open Library Crypto Operator
open Std (ExtTreeMap LawfulEqCmp)

/-- Whether a certificate carries the signature of its operator, by a registry of keys. -/
def SynthesisCertificate.isSigned (prim : Primitives) (registry : KeyRegistry)
    (cert : SynthesisCertificate) : Bool :=
  match registry[cert.operator]? with
  | some publicKey => cert.verify prim publicKey
  | none => false

/-! ### Votes -/

namespace CertificateTracker

/-- Whether the certificate kept for an operator and tick carries a view. -/
def voted (tracker : CertificateTracker) (tick : ℕ) (view : QuorumView) (operator : AccountId) :
    Bool :=
  match tracker.byOperatorTick[(operator, tick)]? with
  | some cert => decide (QuorumView.ofCertificate cert = view)
  | none => false

/-- The tally of a view at a tick, when there is one. -/
def tallied (tracker : CertificateTracker) (tick : ℕ) (view : QuorumView) : Option ℕ :=
  tracker.byTick[tick]?.bind fun groups : ExtTreeMap QuorumView ℕ ↦ groups[view]?

/-- The stake, in a table, of the operators that are not slashed there and voted for a view. -/
def votedStake (tracker : CertificateTracker) (table : StakeTable) (tick : ℕ)
    (view : QuorumView) : ℕ :=
  sumBy (fun operator entry ↦
    if tracker.voted tick view operator then StakeTable.liveStake entry else 0) table.operators

/-- An operator votes for one view. -/
theorem eq_of_voted {tracker : CertificateTracker} {tick : ℕ} {view view' : QuorumView}
    {operator : AccountId} (hview : tracker.voted tick view operator = true)
    (hview' : tracker.voted tick view' operator = true) : view = view' := by
  unfold voted at hview hview'
  cases hkept : tracker.byOperatorTick[(operator, tick)]? with
  | none =>
    rw [hkept] at hview
    cases hview
  | some cert =>
    rw [hkept] at hview hview'
    exact (of_decide_eq_true hview).symm.trans (of_decide_eq_true hview')

/-- The votes for two views together are at most the whole stake. Assumes: the views differ. -/
theorem votedStake_add_le (tracker : CertificateTracker) (table : StakeTable) (tick : ℕ)
    {view view' : QuorumView} (hne : view ≠ view') :
    tracker.votedStake table tick view + tracker.votedStake table tick view' ≤
      sumBy (fun _ entry ↦ StakeTable.liveStake entry) table.operators := by
  unfold votedStake
  rw [sumBy_add]
  refine sumBy_le_sumBy (fun operator entry ↦ ?_) table.operators
  by_cases hview : tracker.voted tick view operator = true
  · by_cases hview' : tracker.voted tick view' operator = true
    · exact absurd (eq_of_voted hview hview') hne
    · rw [if_pos hview, if_neg hview']
      exact le_rfl
  · rw [if_neg hview, Nat.zero_add]
    split_ifs
    · exact le_rfl
    · exact Nat.zero_le _

/-- The views of a quorum are views with a tally of the threshold. Assumes: the check reports the
view. -/
theorem tallied_of_checkQuorum {tracker : CertificateTracker}
    {order : IterationOrder (QuorumView × ℕ)} {tick threshold : ℕ} {view : QuorumView} {stake : ℕ}
    (hquorum : tracker.checkQuorum order tick threshold = some (view, stake)) :
    tracker.tallied tick view = some stake ∧ threshold ≤ stake := by
  unfold checkQuorum at hquorum
  cases hgroups : tracker.byTick[tick]? with
  | none =>
    rw [hgroups] at hquorum
    cases hquorum
  | some groups =>
    rw [hgroups] at hquorum
    dsimp only at hquorum
    have hmem := List.mem_of_find?_eq_some hquorum
    rw [IterationOrder.mem_visit, ExtTreeMap.mem_toList_iff_getElem?_eq_some] at hmem
    constructor
    · unfold tallied
      rw [hgroups]
      exact hmem
    · have hthreshold := List.find?_some hquorum
      exact of_decide_eq_true hthreshold

/-! ### A kept certificate -/

/-- Keeping a certificate adds to the tally of its view and to no other. -/
theorem tallied_record (tracker : CertificateTracker) (cert : SynthesisCertificate) (stake : ℕ)
    (tick : ℕ) (view : QuorumView) :
    (tracker.record cert stake).tallied tick view =
      if tick = cert.tick ∧ view = QuorumView.ofCertificate cert then
        some (match tracker.tallied tick view with
          | some tallied => wrappingAdd 128 tallied stake
          | none => stake)
      else tracker.tallied tick view := by
  have hgroups : (tracker.byTick.getD cert.tick ∅)[view]? = tracker.tallied cert.tick view := by
    unfold tallied
    rw [ExtTreeMap.getD_eq_getD_getElem?]
    cases tracker.byTick[cert.tick]? with
    | none => exact ExtTreeMap.getElem?_empty
    | some groups => rfl
  have hlookup : (tracker.record cert stake).byTick[tick]? =
      if cert.tick = tick then (tracker.record cert stake).byTick[cert.tick]?
      else tracker.byTick[tick]? := by
    unfold record
    dsimp only
    rw [ExtTreeMap.getElem?_insert, ExtTreeMap.getElem?_insert_self]
    simp only [LawfulEqCmp.compare_eq_iff_eq]
  by_cases htick : tick = cert.tick
  · subst htick
    have hrecord : (tracker.record cert stake).tallied cert.tick view =
        ((tracker.byTick.getD cert.tick ∅).insert (QuorumView.ofCertificate cert)
          (match (tracker.byTick.getD cert.tick ∅)[QuorumView.ofCertificate cert]? with
            | some tallied => wrappingAdd 128 tallied stake
            | none => stake))[view]? := by
      unfold tallied record
      dsimp only
      rw [ExtTreeMap.getElem?_insert_self]
      rfl
    rw [hrecord, ExtTreeMap.getElem?_insert]
    simp only [LawfulEqCmp.compare_eq_iff_eq]
    by_cases hview : QuorumView.ofCertificate cert = view
    · subst hview
      rw [if_pos rfl, hgroups]
      simp only [and_self, if_true]
    · rw [if_neg hview, if_neg fun hboth ↦ hview hboth.2.symm, hgroups]
  · rw [if_neg fun hboth ↦ htick hboth.1]
    unfold tallied
    rw [hlookup, if_neg (Ne.symm htick)]

/-- Who votes for what after a certificate was kept. -/
theorem voted_record (tracker : CertificateTracker) (cert : SynthesisCertificate) (stake : ℕ)
    (tick : ℕ) (view : QuorumView) (operator : AccountId) :
    (tracker.record cert stake).voted tick view operator =
      if operator = cert.operator ∧ tick = cert.tick then
        decide (QuorumView.ofCertificate cert = view)
      else tracker.voted tick view operator := by
  unfold voted record
  dsimp only
  rw [ExtTreeMap.getElem?_insert]
  simp only [LawfulEqCmp.compare_eq_iff_eq, Prod.mk.injEq]
  by_cases hself : operator = cert.operator ∧ tick = cert.tick
  · rw [if_pos hself, if_pos ⟨hself.1.symm, hself.2.symm⟩]
  · rw [if_neg hself, if_neg fun hother ↦ hself ⟨hother.1.symm, hother.2.symm⟩]

/-- What a kept certificate adds to the votes of its view. Assumes: the operator had no certificate
for the tick, and has the entry. -/
theorem votedStake_record {tracker : CertificateTracker} {cert : SynthesisCertificate}
    (hfresh : tracker.byOperatorTick[(cert.operator, cert.tick)]? = none) {table : StakeTable}
    {entry : OperatorEntry} (hentry : table.operators[cert.operator]? = some entry) (stake : ℕ) :
    (tracker.record cert stake).votedStake table cert.tick (QuorumView.ofCertificate cert) =
      tracker.votedStake table cert.tick (QuorumView.ofCertificate cert) +
        StakeTable.liveStake entry := by
  have hbefore : tracker.voted cert.tick (QuorumView.ofCertificate cert) cert.operator = false := by
    unfold voted
    rw [hfresh]
  have hafter : (tracker.record cert stake).voted cert.tick (QuorumView.ofCertificate cert)
      cert.operator = true := by
    rw [voted_record, if_pos ⟨rfl, rfl⟩]
    exact decide_eq_true rfl
  have hother : ∀ operator (entry : OperatorEntry), operator ≠ cert.operator →
      (if (tracker.record cert stake).voted cert.tick (QuorumView.ofCertificate cert) operator then
        StakeTable.liveStake entry else 0) =
      if tracker.voted cert.tick (QuorumView.ofCertificate cert) operator then
        StakeTable.liveStake entry else 0 := by
    intro operator entry hne
    have hvoted := voted_record tracker cert stake cert.tick
      (QuorumView.ofCertificate cert) operator
    rw [if_neg fun hself ↦ hne hself.1] at hvoted
    rw [hvoted]
  have hreweigh := sumBy_reweigh hentry hother
  simp only [hbefore, hafter, Bool.false_eq_true, if_false, if_true] at hreweigh
  exact hreweigh

/-- A kept certificate takes no votes away. Assumes: the operator had no certificate for the
tick. -/
theorem votedStake_le_record {tracker : CertificateTracker} {cert : SynthesisCertificate}
    (hfresh : tracker.byOperatorTick[(cert.operator, cert.tick)]? = none) (table : StakeTable)
    (stake tick : ℕ) (view : QuorumView) :
    tracker.votedStake table tick view ≤
      (tracker.record cert stake).votedStake table tick view := by
  refine sumBy_le_sumBy (fun operator entry ↦ ?_) table.operators
  rw [voted_record]
  by_cases hself : operator = cert.operator ∧ tick = cert.tick
  · have hbefore : tracker.voted tick view operator = false := by
      unfold voted
      rw [hself.1, hself.2, hfresh]
    rw [hbefore]
    exact Nat.zero_le _
  · rw [if_neg hself]

end CertificateTracker

/-! ### Deliveries -/

/-- A certificate tracker with a stake table. -/
structure StakedTracker where
  tracker : CertificateTracker
  stakeTable : StakeTable

namespace StakedTracker

/-- Deliver a certificate. A conflicting one slashes its operator. -/
def deliver (prim : Primitives) (state : StakedTracker) (cert : SynthesisCertificate)
    (registry : KeyRegistry) : StakedTracker :=
  let (tracker, stakeTable, _) :=
    state.tracker.apply prim cert registry state.stakeTable.isStaked state.stakeTable.getStake
      (fun operator table ↦ (table.slash operator).1) state.stakeTable
  ⟨tracker, stakeTable⟩

/-- Whether a certificate conflicts: it is signed by an eligible operator whose certificate for the
tick is kept and has other contents. -/
def conflicts (prim : Primitives) (state : StakedTracker) (cert : SynthesisCertificate)
    (registry : KeyRegistry) : Bool :=
  (match registry[cert.operator]? with
    | some publicKey => cert.verify prim publicKey
    | none => false) &&
  state.stakeTable.isStaked cert.operator &&
  match state.tracker.byOperatorTick[(cert.operator, cert.tick)]? with
  | some kept => decide (kept.signingBytes ≠ cert.signingBytes)
  | none => false

/-- The operator of a conflicting certificate is eligible and has a certificate for the tick.
Assumes: the certificate conflicts. -/
theorem of_conflicts {prim : Primitives} {state : StakedTracker} {cert : SynthesisCertificate}
    {registry : KeyRegistry} (hconflicts : state.conflicts prim cert registry = true) :
    state.stakeTable.isStaked cert.operator = true ∧
      ∃ kept, state.tracker.byOperatorTick[(cert.operator, cert.tick)]? = some kept := by
  unfold conflicts at hconflicts
  rw [Bool.and_eq_true, Bool.and_eq_true] at hconflicts
  refine ⟨hconflicts.1.2, ?_⟩
  cases hkept : state.tracker.byOperatorTick[(cert.operator, cert.tick)]? with
  | none =>
    rw [hkept] at hconflicts
    exact absurd hconflicts.2 Bool.false_ne_true
  | some kept => exact ⟨kept, rfl⟩

/-- What a delivery does: nothing, a slash of the operator of a conflicting certificate, or the
keeping of the first certificate of an eligible operator for the tick. -/
theorem deliver_cases (prim : Primitives) (state : StakedTracker) (cert : SynthesisCertificate)
    (registry : KeyRegistry) :
    state.deliver prim cert registry = state ∨
    (state.conflicts prim cert registry = true ∧ state.deliver prim cert registry =
      { state with stakeTable := (state.stakeTable.slash cert.operator).1 }) ∨
    (state.stakeTable.isStaked cert.operator = true ∧
      state.tracker.byOperatorTick[(cert.operator, cert.tick)]? = none ∧
      state.deliver prim cert registry =
        { state with
          tracker := state.tracker.record cert (state.stakeTable.getStake cert.operator) }) := by
  unfold deliver CertificateTracker.apply
  cases hkey : registry[cert.operator]? with
  | none => exact .inl rfl
  | some publicKey =>
    dsimp only
    by_cases hverify : cert.verify prim publicKey = true
    · by_cases hstaked : state.stakeTable.isStaked cert.operator = true
      · cases hkept : state.tracker.byOperatorTick[(cert.operator, cert.tick)]? with
        | none =>
          refine .inr (.inr ⟨hstaked, rfl, ?_⟩)
          simp only [hverify, hstaked, Bool.not_true, Bool.false_eq_true, if_false]
        | some kept =>
          by_cases hsame : kept.signingBytes = cert.signingBytes
          · refine .inl ?_
            simp only [hverify, hstaked, Bool.not_true, Bool.false_eq_true, if_false, hsame, ne_eq,
              not_true_eq_false]
          · refine .inr (.inl ⟨?_, ?_⟩)
            · unfold conflicts
              rw [hkey, hkept, hstaked]
              dsimp only
              rw [hverify, Bool.true_and, Bool.true_and]
              exact decide_eq_true hsame
            · simp only [hverify, hstaked, Bool.not_true, Bool.false_eq_true, if_false, hsame,
                ne_eq, not_false_eq_true, if_true]
      · refine .inl ?_
        simp only [hverify, hstaked, Bool.not_true, Bool.false_eq_true, if_false, Bool.not_false,
          if_true]
    · refine .inl ?_
      simp only [hverify, Bool.not_false, if_true]

/-- An eligible operator has an entry with the minimum stake that is not slashed. Assumes: the
operator is eligible. -/
theorem exists_entry_of_isStaked {table : StakeTable} {operator : AccountId}
    (hstaked : table.isStaked operator = true) :
    ∃ entry, table.operators[operator]? = some entry ∧ table.config.minStake ≤ entry.stake ∧
      entry.slashNonce = none ∧ table.getStake operator = StakeTable.liveStake entry := by
  unfold StakeTable.isStaked at hstaked
  cases hentry : table.operators[operator]? with
  | none =>
    rw [hentry] at hstaked
    cases hstaked
  | some entry =>
    rw [hentry] at hstaked
    obtain ⟨hminimum, hnonce⟩ := Bool.and_eq_true_iff.mp hstaked
    have hnone : entry.slashNonce = none := Option.isNone_iff_eq_none.mp hnonce
    refine ⟨entry, rfl, of_decide_eq_true hminimum, hnone, ?_⟩
    have hlookup : table.entry operator = entry := by
      unfold StakeTable.entry
      rw [ExtTreeMap.getD_eq_getD_getElem?, hentry]
      rfl
    unfold StakeTable.getStake StakeTable.liveStake
    rw [hlookup, hnone]
    rfl

/-- Lock stake for an operator. -/
def lock (state : StakedTracker) (operator : AccountId) (amount : ℕ) : StakedTracker :=
  { state with stakeTable := (state.stakeTable.stake operator amount).1 }

end StakedTracker

end Fluidic.Consensus
