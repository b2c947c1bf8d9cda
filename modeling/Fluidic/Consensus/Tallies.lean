import Fluidic.Consensus.QuorumAgreement

/-!
# What the tallies of a certificate tracker stand for

The tracker keeps no record of the stake that an operator had when its certificate was accepted;
it only adds that stake to a tally. `ApplyCall` is one call of `apply` with the callbacks of that
moment, and a run of such calls is any use of a tracker: the callbacks may change between two calls
as they like. `votes` reads the accepted certificates off the history of a run, each with the stake
at that moment, and `stakeAt` looks one up.

`Accounted` links the two maps of the tracker to the votes of the history, `Accounted.serve` is its
step, and `tallies_of_reaches` the result for runs of any length: a tally is the sum of the stakes
of the operators whose kept certificate carries the view.
-/

set_option autoImplicit false
set_option relaxedAutoImplicit false

namespace Fluidic.Consensus

open Library Crypto
open Std (ExtTreeMap LawfulEqCmp)

/-- One call of `apply`, with the callbacks as they are when it is made. Stakes are 128-bit
numbers. -/
structure ApplyCall (σ : Type) where
  cert : SynthesisCertificate
  registry : KeyRegistry
  stakeChecker : AccountId → Bool
  stakeAmount : AccountId → ℕ
  stakeAmount_lt : ∀ operator, stakeAmount operator < 2 ^ 128
  slash : AccountId → σ → σ

namespace ApplyCall

variable {σ : Type}

/-- Make a call. -/
def serve (prim : Primitives) (state : CertificateTracker × σ) (call : ApplyCall σ) :
    Option ((CertificateTracker × σ) × Except SlashingReason Unit) :=
  let (tracker, ledger, outcome) := state.1.apply prim call.cert call.registry call.stakeChecker
    call.stakeAmount call.slash state.2
  some ((tracker, ledger), outcome)

/-- Whether the tracker accepts the certificate of a call as the first one of its operator and
tick. -/
def isAccepted (prim : Primitives) (tracker : CertificateTracker) (call : ApplyCall σ) : Bool :=
  call.cert.isSigned prim call.registry && call.stakeChecker call.cert.operator &&
    !tracker.byOperatorTick.contains (call.cert.operator, call.cert.tick)

/-- What a call does to the tracker: it records an accepted certificate and ignores any other. -/
theorem serve_tracker {prim : Primitives} {state next : CertificateTracker × σ}
    {call : ApplyCall σ} {outcome : Except SlashingReason Unit}
    (hserve : serve prim state call = some (next, outcome)) :
    next.1 = if call.isAccepted prim state.1 then
      state.1.record call.cert (call.stakeAmount call.cert.operator) else state.1 := by
  have hnext : next.1 = (state.1.apply prim call.cert call.registry call.stakeChecker
      call.stakeAmount call.slash state.2).1 :=
    congrArg (fun served ↦ served.1.1) (Option.some.inj hserve).symm
  rw [hnext]
  unfold CertificateTracker.apply isAccepted SynthesisCertificate.isSigned
  cases hkey : call.registry[call.cert.operator]? with
  | none => rfl
  | some publicKey =>
    cases hverify : call.cert.verify prim publicKey with
    | false => simp [hverify]
    | true =>
      cases hstaked : call.stakeChecker call.cert.operator with
      | false => simp [hverify]
      | true =>
        cases hkept : state.1.byOperatorTick[(call.cert.operator, call.cert.tick)]? with
        | none => simp [hverify, hkept, ExtTreeMap.contains_eq_isSome_getElem?]
        | some kept =>
          by_cases hsame : kept.signingBytes = call.cert.signingBytes
          · simp [hverify, hkept, hsame, ExtTreeMap.contains_eq_isSome_getElem?]
          · simp [hverify, hkept, hsame, ExtTreeMap.contains_eq_isSome_getElem?]

end ApplyCall

/-! ### Votes -/

section Votes

variable {σ : Type} (prim : Primitives)

/-- The vote of a call in a history: its certificate with the operator's stake, when the tracker
accepts it. -/
def voteOf (entry : (CertificateTracker × σ) × ApplyCall σ) : List (SynthesisCertificate × ℕ) :=
  if entry.2.isAccepted prim entry.1.1 then
    [(entry.2.cert, entry.2.stakeAmount entry.2.cert.operator)]
  else []

/-- The accepted certificates of a history, each with the stake its operator had. -/
def votes (history : List ((CertificateTracker × σ) × ApplyCall σ)) :
    List (SynthesisCertificate × ℕ) :=
  history.flatMap (voteOf prim)

/-- The operator and tick of a vote. -/
def voteKey (vote : SynthesisCertificate × ℕ) : AccountId × ℕ := (vote.1.operator, vote.1.tick)

/-- The stake an operator had when its certificate for a tick was accepted. -/
def stakeAt (history : List ((CertificateTracker × σ) × ApplyCall σ)) (key : AccountId × ℕ) : ℕ :=
  match (votes prim history).find? fun vote ↦ decide (voteKey vote = key) with
  | some vote => vote.2
  | none => 0

theorem votes_concat (history : List ((CertificateTracker × σ) × ApplyCall σ))
    (entry : (CertificateTracker × σ) × ApplyCall σ) :
    votes prim (history ++ [entry]) = votes prim history ++ voteOf prim entry := by
  simp [votes]

/-- The stake behind a view of a tick: the sum, over the operators whose kept certificate for the
tick carries the view, of the stake each had when that certificate was accepted. -/
def acceptedStake (history : List ((CertificateTracker × σ) × ApplyCall σ))
    (tracker : CertificateTracker) (tick : ℕ) (view : QuorumView) : ℕ :=
  sumBy (fun key cert ↦ if key.2 = tick ∧ QuorumView.ofCertificate cert = view
    then stakeAt prim history key else 0) tracker.byOperatorTick

/-! ### The invariant -/

/-- How the maps of a tracker follow from the votes of a history: no operator votes twice in a tick,
the kept certificates are the votes, and the tallies add their stakes. -/
structure Accounted (history : List ((CertificateTracker × σ) × ApplyCall σ))
    (tracker : CertificateTracker) : Prop where
  distinct : ((votes prim history).map voteKey).Nodup
  kept_iff : ∀ (key : AccountId × ℕ) (cert : SynthesisCertificate),
    tracker.byOperatorTick[key]? = some cert ↔
      ∃ stake, (cert, stake) ∈ votes prim history ∧ (cert.operator, cert.tick) = key
  tallies : ∀ tick view, (tracker.tallied tick view).getD 0 =
    acceptedStake prim history tracker tick view % 2 ^ 128
  tallied_iff : ∀ tick view, (tracker.tallied tick view).isSome = true ↔
    ∃ operator, tracker.voted tick view operator = true

variable {prim}

/-- An operator without a kept certificate has no vote. Assumes: the tracker keeps no certificate of
the operator for the tick. -/
theorem Accounted.fresh {history : List ((CertificateTracker × σ) × ApplyCall σ)}
    {tracker : CertificateTracker} (haccounted : Accounted prim history tracker)
    {key : AccountId × ℕ} (hfresh : tracker.byOperatorTick[key]? = none) :
    ∀ vote ∈ votes prim history, voteKey vote ≠ key := by
  rintro ⟨cert, stake⟩ hvote hkey
  have hkept := (haccounted.kept_iff key cert).mpr ⟨stake, hvote, hkey⟩
  rw [hfresh] at hkept
  cases hkept

theorem accounted_new : Accounted prim ([] : List ((CertificateTracker × σ) × ApplyCall σ))
    CertificateTracker.new where
  distinct := List.nodup_nil
  kept_iff key cert := by simp [CertificateTracker.new, votes]
  tallies tick view := by
    simp [CertificateTracker.new, CertificateTracker.tallied, acceptedStake, sumBy,
      ExtTreeMap.toList_eq_nil_iff.mpr]
  tallied_iff tick view := by
    simp [CertificateTracker.new, CertificateTracker.tallied, CertificateTracker.voted]

/-- An accepted certificate extends the votes by its own. Assumes: the call is accepted. -/
theorem voteOf_of_isAccepted {entry : (CertificateTracker × σ) × ApplyCall σ}
    (haccepted : entry.2.isAccepted prim entry.1.1 = true) :
    voteOf prim entry = [(entry.2.cert, entry.2.stakeAmount entry.2.cert.operator)] :=
  if_pos haccepted

/-- A call that is not accepted has no vote. Assumes: the call is not accepted. -/
theorem voteOf_of_not_isAccepted {entry : (CertificateTracker × σ) × ApplyCall σ}
    (hrefused : entry.2.isAccepted prim entry.1.1 = false) : voteOf prim entry = [] := by
  rw [voteOf, if_neg (by rw [hrefused]; exact Bool.false_ne_true)]

/-- The stake of an earlier vote stays what it was. Assumes: the new vote is for another operator
and tick. -/
theorem stakeAt_concat_of_ne {history : List ((CertificateTracker × σ) × ApplyCall σ)}
    {entry : (CertificateTracker × σ) × ApplyCall σ} {key : AccountId × ℕ}
    (hne : ∀ vote ∈ voteOf prim entry, voteKey vote ≠ key) :
    stakeAt prim (history ++ [entry]) key = stakeAt prim history key := by
  have hnone : (voteOf prim entry).find? (fun vote ↦ decide (voteKey vote = key)) = none :=
    List.find?_eq_none.mpr fun vote hvote ↦ by simpa using hne vote hvote
  unfold stakeAt
  rw [votes_concat, List.find?_append, hnone, Option.or_none]

/-- The stake of the first vote of an operator for a tick. Assumes: the operator had no vote for the
tick, and the new one is its own. -/
theorem stakeAt_concat_self {history : List ((CertificateTracker × σ) × ApplyCall σ)}
    {entry : (CertificateTracker × σ) × ApplyCall σ} {vote : SynthesisCertificate × ℕ}
    (hfresh : ∀ other ∈ votes prim history, voteKey other ≠ voteKey vote)
    (hvote : voteOf prim entry = [vote]) :
    stakeAt prim (history ++ [entry]) (voteKey vote) = vote.2 := by
  have hnone : (votes prim history).find? (fun other ↦ decide (voteKey other = voteKey vote)) =
      none :=
    List.find?_eq_none.mpr fun other hother ↦ by simpa using hfresh other hother
  unfold stakeAt
  rw [votes_concat, List.find?_append, hnone, hvote]
  simp

/-- The stake looked up for a vote is the stake of the vote. Assumes: no operator votes twice in a
tick. -/
theorem Accounted.stakeAt_eq {history : List ((CertificateTracker × σ) × ApplyCall σ)}
    {tracker : CertificateTracker} (haccounted : Accounted prim history tracker)
    {cert : SynthesisCertificate} {stake : ℕ} (hvote : (cert, stake) ∈ votes prim history) :
    stakeAt prim history (cert.operator, cert.tick) = stake := by
  unfold stakeAt
  cases hfound : (votes prim history).find? fun vote ↦
      decide (voteKey vote = (cert.operator, cert.tick)) with
  | none => exact absurd (decide_eq_true rfl) (List.find?_eq_none.mp hfound _ hvote)
  | some vote =>
    have hmatches := List.find?_some hfound
    have hkey : voteKey vote = voteKey (cert, stake) := of_decide_eq_true hmatches
    have hsame : vote = (cert, stake) :=
      List.inj_on_of_nodup_map haccounted.distinct (List.mem_of_find?_eq_some hfound) hvote hkey
    rw [hsame]

/-- What an accepted certificate adds to the stake behind each view. Assumes: the certificates kept
so far are those of the votes, and nothing is kept for the operator and tick of the new one. -/
theorem acceptedStake_record {history : List ((CertificateTracker × σ) × ApplyCall σ)}
    {entry : (CertificateTracker × σ) × ApplyCall σ} {tracker : CertificateTracker}
    (haccounted : Accounted prim history tracker) {cert : SynthesisCertificate} {stake : ℕ}
    (hfresh : tracker.byOperatorTick[(cert.operator, cert.tick)]? = none)
    (hvote : voteOf prim entry = [(cert, stake)]) (tick : ℕ) (view : QuorumView) :
    acceptedStake prim (history ++ [entry]) (tracker.record cert stake) tick view =
      acceptedStake prim history tracker tick view +
        if tick = cert.tick ∧ view = QuorumView.ofCertificate cert then stake else 0 := by
  have hnew : ∀ vote ∈ votes prim history, voteKey vote ≠ voteKey (cert, stake) :=
    haccounted.fresh hfresh
  have hself : stakeAt prim (history ++ [entry]) (cert.operator, cert.tick) = stake :=
    stakeAt_concat_self hnew hvote
  have hearlier : acceptedStake prim (history ++ [entry]) tracker tick view =
      acceptedStake prim history tracker tick view := by
    refine sumBy_congr fun key kept hkept ↦ ?_
    rw [stakeAt_concat_of_ne]
    rw [hvote]
    rintro vote hmem rfl
    rw [List.mem_singleton] at hmem
    rw [hmem, voteKey, hfresh] at hkept
    cases hkept
  have hinsert := sumBy_insert
    (fun (key : AccountId × ℕ) (kept : SynthesisCertificate) ↦
      if key.2 = tick ∧ QuorumView.ofCertificate kept = view
      then stakeAt prim (history ++ [entry]) key else 0)
    tracker.byOperatorTick (cert.operator, cert.tick) cert
  rw [hfresh, Option.elim_none, Nat.add_zero, hself] at hinsert
  have hrecord : acceptedStake prim (history ++ [entry]) (tracker.record cert stake) tick view =
      acceptedStake prim (history ++ [entry]) tracker tick view +
        if cert.tick = tick ∧ QuorumView.ofCertificate cert = view then stake else 0 := hinsert
  rw [hrecord, hearlier]
  simp only [eq_comm]

/-- The certificates that are kept after one was recorded are those of the votes. Assumes: the maps
and the votes are linked, and nothing was kept for the operator and tick of the new one. -/
theorem Accounted.kept_record {history : List ((CertificateTracker × σ) × ApplyCall σ)}
    {entry : (CertificateTracker × σ) × ApplyCall σ} {tracker : CertificateTracker}
    (haccounted : Accounted prim history tracker) {cert : SynthesisCertificate} {stake : ℕ}
    (hfresh : tracker.byOperatorTick[(cert.operator, cert.tick)]? = none)
    (hvote : voteOf prim entry = [(cert, stake)]) (key : AccountId × ℕ)
    (kept : SynthesisCertificate) :
    (tracker.record cert stake).byOperatorTick[key]? = some kept ↔
      ∃ stake, (kept, stake) ∈ votes prim (history ++ [entry]) ∧
        (kept.operator, kept.tick) = key := by
  have hlookup : (tracker.record cert stake).byOperatorTick[key]? =
      if (cert.operator, cert.tick) = key then some cert else tracker.byOperatorTick[key]? := by
    unfold CertificateTracker.record
    dsimp only
    rw [ExtTreeMap.getElem?_insert]
    simp only [LawfulEqCmp.compare_eq_iff_eq]
  rw [hlookup, votes_concat, hvote]
  by_cases hkey : (cert.operator, cert.tick) = key
  · subst hkey
    rw [if_pos rfl, Option.some.injEq]
    constructor
    · rintro rfl
      exact ⟨stake, List.mem_append_right _ (List.mem_singleton_self _), rfl⟩
    · rintro ⟨stake', hmem, hsame⟩
      rcases List.mem_append.mp hmem with hearlier | hlast
      · exact absurd hsame (haccounted.fresh hfresh _ hearlier)
      · exact (congrArg Prod.fst (List.mem_singleton.mp hlast)).symm
  · rw [if_neg hkey, haccounted.kept_iff]
    refine exists_congr fun stake' ↦ and_congr_left fun hsame ↦ ?_
    rw [List.mem_append, List.mem_singleton]
    refine ⟨Or.inl, fun hmem ↦ hmem.resolve_right fun hlast ↦ hkey ?_⟩
    rw [← hsame, (Prod.mk.inj hlast).1]

/-- The tallies after a certificate was recorded are the stakes behind the views. Assumes: the maps
and the votes are linked, nothing was kept for the operator and tick of the new one, and the stake
is a 128-bit number. -/
theorem Accounted.tallies_record {history : List ((CertificateTracker × σ) × ApplyCall σ)}
    {entry : (CertificateTracker × σ) × ApplyCall σ} {tracker : CertificateTracker}
    (haccounted : Accounted prim history tracker) {cert : SynthesisCertificate} {stake : ℕ}
    (hfresh : tracker.byOperatorTick[(cert.operator, cert.tick)]? = none)
    (hstake : stake < 2 ^ 128) (hvote : voteOf prim entry = [(cert, stake)]) (tick : ℕ)
    (view : QuorumView) :
    ((tracker.record cert stake).tallied tick view).getD 0 =
      acceptedStake prim (history ++ [entry]) (tracker.record cert stake) tick view %
        2 ^ 128 := by
  rw [CertificateTracker.tallied_record, acceptedStake_record haccounted hfresh hvote]
  have hbefore := haccounted.tallies tick view
  split_ifs with hview
  · cases htallied : tracker.tallied tick view with
    | none =>
      rw [htallied] at hbefore
      rw [Option.getD_some, Nat.add_mod, ← hbefore, Option.getD_none, Nat.zero_add, Nat.mod_mod,
        Nat.mod_eq_of_lt hstake]
    | some tallied =>
      rw [htallied] at hbefore
      show wrappingAdd 128 tallied stake = _
      rw [Nat.add_mod, ← hbefore, Option.getD_some, Nat.mod_eq_of_lt hstake]
      rfl
  · rw [Nat.add_zero]
    exact hbefore

/-- A recorded certificate keeps the maps and the votes linked. Assumes: the maps and the votes are
linked, nothing is kept for the operator and tick, and the stake is a 128-bit number. -/
theorem Accounted.record {history : List ((CertificateTracker × σ) × ApplyCall σ)}
    {entry : (CertificateTracker × σ) × ApplyCall σ} {tracker : CertificateTracker}
    (haccounted : Accounted prim history tracker) {cert : SynthesisCertificate} {stake : ℕ}
    (hfresh : tracker.byOperatorTick[(cert.operator, cert.tick)]? = none)
    (hstake : stake < 2 ^ 128) (hvote : voteOf prim entry = [(cert, stake)]) :
    Accounted prim (history ++ [entry]) (tracker.record cert stake) where
  distinct := by
    rw [votes_concat, hvote, List.map_append, List.map_singleton]
    refine List.nodup_append.mpr ⟨haccounted.distinct, List.nodup_singleton _, ?_⟩
    intro key hkey other hother
    obtain ⟨vote, hmem, rfl⟩ := List.mem_map.mp hkey
    rw [List.mem_singleton.mp hother]
    exact haccounted.fresh hfresh vote hmem
  kept_iff := haccounted.kept_record hfresh hvote
  tallies := haccounted.tallies_record hfresh hstake hvote
  tallied_iff tick view := by
    have hbefore := haccounted.tallied_iff tick view
    rw [CertificateTracker.tallied_record]
    simp only [CertificateTracker.voted_record]
    by_cases hview : tick = cert.tick ∧ view = QuorumView.ofCertificate cert
    · obtain ⟨rfl, rfl⟩ := hview
      rw [if_pos ⟨rfl, rfl⟩]
      exact iff_of_true rfl ⟨cert.operator, by simp⟩
    · rw [if_neg hview, hbefore]
      constructor
      · rintro ⟨operator, hvoted⟩
        refine ⟨operator, ?_⟩
        rw [if_neg, hvoted]
        rintro ⟨rfl, rfl⟩
        unfold CertificateTracker.voted at hvoted
        rw [hfresh] at hvoted
        cases hvoted
      · rintro ⟨operator, hvoted⟩
        refine ⟨operator, ?_⟩
        split_ifs at hvoted with hself
        · exact absurd ⟨hself.2, (of_decide_eq_true hvoted).symm⟩ hview
        · exact hvoted

/-- A call keeps the maps and the votes linked. Assumes: the maps and the votes are linked, and the
call is served. -/
theorem Accounted.serve {history : List ((CertificateTracker × σ) × ApplyCall σ)}
    {state next : CertificateTracker × σ} {call : ApplyCall σ}
    {outcome : Except SlashingReason Unit} (haccounted : Accounted prim history state.1)
    (hserve : call.serve prim state = some (next, outcome)) :
    Accounted prim (history ++ [(state, call)]) next.1 := by
  rw [ApplyCall.serve_tracker hserve]
  cases haccepted : call.isAccepted prim state.1 with
  | true =>
    rw [if_pos rfl]
    refine haccounted.record ?_ (call.stakeAmount_lt _) (voteOf_of_isAccepted haccepted)
    unfold ApplyCall.isAccepted at haccepted
    rw [Bool.and_eq_true, Bool.not_eq_true', ExtTreeMap.contains_eq_isSome_getElem?,
      Option.isSome_eq_false_iff, Option.isNone_iff_eq_none] at haccepted
    exact haccepted.2
  | false =>
    have hvotes : votes prim (history ++ [(state, call)]) = votes prim history := by
      rw [votes_concat, voteOf_of_not_isAccepted haccepted, List.append_nil]
    have hstakes : stakeAt prim (history ++ [(state, call)]) = stakeAt prim history := by
      funext key
      unfold stakeAt
      rw [hvotes]
    rw [if_neg Bool.false_ne_true]
    exact
      { distinct := hvotes ▸ haccounted.distinct
        kept_iff := hvotes ▸ haccounted.kept_iff
        tallies := by
          intro tick view
          rw [haccounted.tallies tick view]
          unfold acceptedStake
          rw [hstakes]
        tallied_iff := haccounted.tallied_iff }

/-- The maps and the votes are linked in every run of calls. Assumes: the run starts with an empty
tracker. -/
theorem accounted_of_reaches {initial : σ} {state : CertificateTracker × σ}
    {history : List ((CertificateTracker × σ) × ApplyCall σ)}
    (hreaches : Reaches (ApplyCall.serve prim) anyStep (CertificateTracker.new, initial) history
      state) : Accounted prim history state.1 := by
  induction hreaches with
  | start => exact accounted_new
  | next _ _ hserve ih => exact ih.serve hserve

/-- What the tallies stand for, after any sequence of calls whose callbacks may change between two
calls. The tally of a view at a tick is the sum, over the operators whose kept certificate for the
tick carries the view, of the stakes they had when those certificates were accepted: as a 128-bit
sum, and exactly when the sum fits 128 bits. An operator with a kept certificate for a tick counts
for exactly one view. A badly signed, unstaked, repeated or conflicting certificate changes neither
map. -/
theorem tallies_of_reaches {initial ledger : σ} {tracker : CertificateTracker}
    {history : List ((CertificateTracker × σ) × ApplyCall σ)}
    (hreaches : Reaches (ApplyCall.serve prim) anyStep (CertificateTracker.new, initial) history
      (tracker, ledger)) :
    (∀ tick view,
      (tracker.tallied tick view).getD 0 =
        acceptedStake prim history tracker tick view % 2 ^ 128 ∧
      (acceptedStake prim history tracker tick view < 2 ^ 128 →
        (tracker.tallied tick view).getD 0 = acceptedStake prim history tracker tick view)) ∧
    (∀ tick view, (tracker.tallied tick view).isSome = true ↔
      ∃ operator, tracker.voted tick view operator = true) ∧
    (∀ (operator : AccountId) (tick : ℕ) (cert : SynthesisCertificate),
      tracker.byOperatorTick[(operator, tick)]? = some cert ↔
        cert.operator = operator ∧ cert.tick = tick ∧
        (cert, stakeAt prim history (operator, tick)) ∈ votes prim history) ∧
    (∀ operator tick, (operator, tick) ∈ tracker.byOperatorTick →
      ∃! view, tracker.voted tick view operator = true) ∧
    ∀ call : ApplyCall σ, call.cert.isSigned prim call.registry = false ∨
        call.stakeChecker call.cert.operator = false ∨
        (call.cert.operator, call.cert.tick) ∈ tracker.byOperatorTick →
      ∀ next outcome, call.serve prim (tracker, ledger) = some (next, outcome) →
        next.1 = tracker := by
  have haccounted := accounted_of_reaches hreaches
  refine ⟨fun tick view ↦ ⟨haccounted.tallies tick view, fun hfits ↦ ?_⟩, haccounted.tallied_iff,
    fun operator tick cert ↦ ?_, fun operator tick hkept ↦ ?_,
    fun call hrefused next outcome hserve ↦ ?_⟩
  · rw [haccounted.tallies, Nat.mod_eq_of_lt hfits]
  · rw [haccounted.kept_iff]
    constructor
    · rintro ⟨stake, hvote, hkey⟩
      obtain ⟨hoperator, htick⟩ := Prod.mk.inj hkey
      refine ⟨hoperator, htick, ?_⟩
      rw [← hkey, haccounted.stakeAt_eq hvote]
      exact hvote
    · rintro ⟨rfl, rfl, hvote⟩
      exact ⟨_, hvote, rfl⟩
  · obtain ⟨cert, hcert⟩ := ExtTreeMap.isSome_getElem?_iff_mem.mpr hkept
      |> Option.isSome_iff_exists.mp
    refine ⟨QuorumView.ofCertificate cert, ?_, fun view hvoted ↦ ?_⟩
    · simp [CertificateTracker.voted, hcert]
    · unfold CertificateTracker.voted at hvoted
      rw [hcert] at hvoted
      exact (of_decide_eq_true hvoted).symm
  · have hnot : call.isAccepted prim tracker = false := by
      unfold ApplyCall.isAccepted
      rcases hrefused with hsigned | hstaked | hkept
      · rw [hsigned, Bool.false_and, Bool.false_and]
      · rw [hstaked, Bool.and_false, Bool.false_and]
      · rw [ExtTreeMap.contains_iff_mem.mpr hkept, Bool.not_true, Bool.and_false]
    rw [ApplyCall.serve_tracker hserve, hnot, if_neg Bool.false_ne_true]

end Votes

/-- A call with the certificate of a seed for a root, at a given stake. -/
def sampleCall (seed root stake : ℕ) (hstake : stake < 2 ^ 128) : ApplyCall ℕ :=
  { cert := sampleCertificate seed root
    registry := sampleKeys
    stakeChecker := fun _ ↦ true
    stakeAmount := fun _ ↦ stake
    stakeAmount_lt := fun _ ↦ hstake
    slash := fun _ slashes ↦ slashes + 1 }

/-- Two operators vote for one view, the second at another stake, and the first one then repeats
and contradicts its certificate at a stake that nothing counts. -/
def repeatedCalls : List (ApplyCall ℕ) :=
  [sampleCall 1 1 5 (by decide), sampleCall 2 1 7 (by decide), sampleCall 1 1 11 (by decide),
    sampleCall 1 2 13 (by decide)]

/-- A run with changing callbacks, whose tally adds the stakes at acceptance. -/
theorem tallies_of_reaches_repeatedCalls :
    ∃ (history : List ((CertificateTracker × ℕ) × ApplyCall ℕ)) (tracker : CertificateTracker)
      (slashes : ℕ),
      Reaches (ApplyCall.serve .sample) anyStep (CertificateTracker.new, 0) history
        (tracker, slashes) ∧
      history.length = 4 ∧ slashes = 1 ∧
      (tracker.tallied 0 (sampleView 1)).getD 0 = 12 ∧
      acceptedStake .sample history tracker 0 (sampleView 1) % 2 ^ 128 = 12 := by
  have hruns : ((run (ApplyCall.serve .sample) anyStep (CertificateTracker.new, 0)
      repeatedCalls).map fun state ↦
        ((state.1.tallied 0 (sampleView 1)).getD 0, state.2)) = some (12, 1) := by
    decide +kernel
  obtain ⟨⟨tracker, slashes⟩, hrun, hvalues⟩ := Option.map_eq_some_iff.mp hruns
  obtain ⟨htally, hslashes⟩ := Prod.mk.inj hvalues
  obtain ⟨history, hinputs, hreaches⟩ := reaches_of_run hrun
  refine ⟨history, tracker, slashes, hreaches, ?_, hslashes, htally, ?_⟩
  · rw [← List.length_map, hinputs]
    rfl
  · rw [← ((tallies_of_reaches hreaches).1 0 (sampleView 1)).1, htally]

end Fluidic.Consensus
