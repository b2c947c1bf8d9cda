import Fluidic.Consensus.RequestOutcomes
import Fluidic.Consensus.Synthesis
import Fluidic.Library.LabelledRun

/-!
# What a rejected request leaves behind

A stateful shift that is refused and a stake announcement that is refused should leave the node as
it was, so that they stand in the way of no later request. Both record the nonce of the request at
their last gate but one. The gate after it, the amount of a shift and the balance of an operator,
refuses a request whose nonce is already used up: a second request with the same nonce, which the
node would have accepted, is then refused as a replay (`noTrace_iff`).
-/

set_option autoImplicit false
set_option relaxedAutoImplicit false

namespace Fluidic.Consensus

open Library Crypto Fluidic.Field
open Std (ExtTreeMap)

variable {platform : Platform}

/-! ### Traces -/

/-- Whether a response accepts its request. -/
def Response.accepts : Response → Bool
  | .done => true
  | .flag accepted => accepted
  | .outcome result => result.isOk
  | .certificate result => result.isOk
  | .synthesis _ _ => true

namespace Oscillator

/-- Whether a node accepts a request after it served the given ones. -/
def acceptsAfter (oscillator : Oscillator platform) (requests : List Request)
    (request : Request) : Bool :=
  match run (Consensus.step platform) anyStep oscillator requests with
  | none => false
  | some reached =>
    match Consensus.step platform reached request with
    | none => false
    | some (_, response) => response.accepts

/-- A request left no trace: the replay records, the queues, the balances, the DAG and the stakes
are as before, and what the node would have accepted later it still accepts. -/
structure NoTrace (before after : Oscillator platform) : Prop where
  seenNonces : after.seenNonces = before.seenNonces
  seenSignatures : after.seenSignatures = before.seenSignatures
  pendingCommutative : after.pendingCommutative = before.pendingCommutative
  pendingStateful : after.pendingStateful = before.pendingStateful
  waveField : after.waveField = before.waveField
  dag : after.dag = before.dag
  stakeTable : after.stakeTable = before.stakeTable
  later : ∀ requests request, before.acceptsAfter requests request = true →
    after.acceptsAfter requests request = true

theorem NoTrace.refl (oscillator : Oscillator platform) : NoTrace oscillator oscillator :=
  ⟨rfl, rfl, rfl, rfl, rfl, rfl, rfl, fun _ _ haccepted ↦ haccepted⟩

/-- A nonce that is recorded leaves a trace. Assumes: the nonce is fresh. -/
theorem insert_seenNonces_ne {oscillator : Oscillator platform} {account : AccountId}
    {domain : DomainId} {nonce : ℕ} (hfresh : oscillator.isFresh account domain nonce = true) :
    oscillator.seenNonces.insert (account, domain) nonce ≠ oscillator.seenNonces := by
  intro hsame
  have hmark : oscillator.seenNonces[(account, domain)]? = some nonce := by
    rw [← hsame, ExtTreeMap.getElem?_insert_self]
  unfold isFresh at hfresh
  rw [hmark] at hfresh
  exact Nat.lt_irrefl nonce (of_decide_eq_true hfresh)

/-! ### Stateful shifts -/

/-- A refused shift leaves a trace exactly when its nonce was recorded. Assumes: the shift is
refused. -/
theorem noTrace_ingestStateful_iff {oscillator : Oscillator platform} {shift : StatefulShift}
    {nowNs : ℕ} (hrefused : (oscillator.ingestStateful shift nowNs).2.isOk = false) :
    NoTrace oscillator (oscillator.ingestStateful shift nowNs).1 ↔
      oscillator.records shift = false := by
  rw [isOk_ingestStateful] at hrefused
  have hqueues : oscillator.queues shift = false := by
    unfold queues
    cases hrecords : oscillator.records shift with
    | false => rfl
    | true =>
      rw [hrecords, Bool.true_and, Bool.or_eq_false_iff] at hrefused
      rw [hrefused.2, Bool.and_false]
  have hreached := oscillator.ingestStateful_eq shift nowNs
  rw [hqueues] at hreached
  cases hrecords : oscillator.records shift with
  | false =>
    have hunchanged : (oscillator.ingestStateful shift nowNs).1 = oscillator := by
      rw [hreached, hrecords]
      rfl
    rw [hunchanged]
    exact iff_of_true (NoTrace.refl oscillator) rfl
  | true =>
    refine iff_of_false (fun htrace ↦ ?_) (by decide)
    refine insert_seenNonces_ne (isFresh_of_records hrecords) (Eq.trans ?_ htrace.seenNonces)
    rw [hreached, hrecords]
    rfl

/-- Which shifts leave no trace when they are refused. -/
theorem ingest_noTrace_iff (oscillator : Oscillator platform) (shift : StatefulShift)
    (nowNs : ℕ) :
    ((oscillator.ingest (.stateful shift) nowNs).2.isOk = false →
      NoTrace oscillator (oscillator.ingest (.stateful shift) nowNs).1) ↔
        ¬(oscillator.records shift = true ∧ shift.signature ∉ oscillator.seenSignatures ∧
          shift.amount = 0) := by
  show ((oscillator.ingestStateful shift nowNs).2.isOk = false →
    NoTrace oscillator (oscillator.ingestStateful shift nowNs).1) ↔ _
  have houtcome := oscillator.isOk_ingestStateful shift nowNs
  constructor
  · rintro hclean ⟨hrecords, hunseen, hzero⟩
    have hrefused : (oscillator.ingestStateful shift nowNs).2.isOk = false := by
      rw [houtcome, hrecords, decide_eq_false hunseen, decide_eq_false (not_not.mpr hzero)]
      rfl
    rw [(noTrace_ingestStateful_iff hrefused).mp (hclean hrefused)] at hrecords
    cases hrecords
  · intro hstopped hrefused
    refine (noTrace_ingestStateful_iff hrefused).mpr ?_
    rw [houtcome] at hrefused
    cases hrecords : oscillator.records shift with
    | false => rfl
    | true =>
      rw [hrecords, Bool.true_and, Bool.or_eq_false_iff] at hrefused
      exact absurd ⟨hrecords, of_decide_eq_false hrefused.1,
        not_not.mp (of_decide_eq_false hrefused.2)⟩ hstopped

/-! ### Stake announcements -/

/-- Which announcements leave no trace when they are refused. -/
theorem applyStake_noTrace_iff (oscillator : Oscillator platform) (stake : StakeShift) :
    ((oscillator.applyStake stake).2 = false →
      NoTrace oscillator (oscillator.applyStake stake).1) ↔
        ¬(oscillator.admitsStake stake = true ∧ oscillator.lockedBy stake < stake.amount ∧
          (oscillator.operatorBalance stake).units <
            stake.amount - oscillator.lockedBy stake) := by
  have houtcome := oscillator.applyStake_outcome stake
  generalize oscillator.applyStake stake = result at houtcome ⊢
  cases houtcome with
  | refused hstopped =>
    refine iff_of_true (fun _ ↦ NoTrace.refl oscillator) ?_
    rintro ⟨hadmits, -⟩
    rw [hstopped] at hadmits
    cases hadmits
  | repeated _ hsame =>
    exact iff_of_true (fun hrefused ↦ (nomatch hrefused)) fun hshort ↦ by omega
  | short hadmits hraises hshort =>
    refine iff_of_false (fun hclean ↦ ?_) (not_not.mpr ⟨hadmits, hraises, hshort⟩)
    exact insert_seenNonces_ne (isFresh_of_admitsStake hadmits) (hclean rfl).seenNonces
  | raised _ _ _ hcovered =>
    exact iff_of_true (fun hrefused ↦ (nomatch hrefused)) fun hshort ↦ by omega
  | lowered _ _ hlowers =>
    exact iff_of_true (fun hrefused ↦ (nomatch hrefused)) fun hshort ↦ by omega

/-- Which requests leave no trace when they are refused: every shift but a new one without an amount
that passes the gates before, and every announcement but one that passes the gates and raises the
stake by more than the balance of the operator. -/
theorem noTrace_iff (oscillator : Oscillator platform) :
    (∀ shift nowNs, ((oscillator.ingest (.stateful shift) nowNs).2.isOk = false →
      NoTrace oscillator (oscillator.ingest (.stateful shift) nowNs).1) ↔
        ¬(oscillator.records shift = true ∧ shift.signature ∉ oscillator.seenSignatures ∧
          shift.amount = 0)) ∧
    ∀ stake, ((oscillator.applyStake stake).2 = false →
      NoTrace oscillator (oscillator.applyStake stake).1) ↔
        ¬(oscillator.admitsStake stake = true ∧ oscillator.lockedBy stake < stake.amount ∧
          (oscillator.operatorBalance stake).units <
            stake.amount - oscillator.lockedBy stake) :=
  ⟨oscillator.ingest_noTrace_iff, oscillator.applyStake_noTrace_iff⟩

/-- A stake of five units that the operator of seed 1 announces with its first nonce. -/
def firstStake : StakeShift := .sign .sample ⟨1⟩ 5 0 0

/-- An operator announces a stake before it has a balance, which is refused. Once it has the balance
the announcement would be accepted, but its nonce is used up. A shift without an amount uses up the
nonce of a shift with one in the same way. -/
theorem refused_requests_use_nonces :
    let node : Oscillator Platform.sample := newWithKeypair 8
    let funded : List Request := [.seedAccount firstStake.operator 5]
    let empty := StatefulShift.sample 1 0 [] [] 1 0
    let transfer : Request := .ingest (.stateful (.sample 1 5 [] [] 1 0)) 0
    ((node.applyStake firstStake).2 = false ∧
      node.acceptsAfter funded (.applyStake firstStake) = true ∧
      (node.applyStake firstStake).1.acceptsAfter funded (.applyStake firstStake) = false) ∧
    ((node.ingest (.stateful empty) 0).2.isOk = false ∧
      node.acceptsAfter [] transfer = true ∧
      (node.ingest (.stateful empty) 0).1.acceptsAfter [] transfer = false) ∧
    ¬∀ (oscillator : Oscillator Platform.sample) (shift : StatefulShift) (nowNs : ℕ)
      (stake : StakeShift),
      ((oscillator.ingest (.stateful shift) nowNs).2.isOk = false →
        NoTrace oscillator (oscillator.ingest (.stateful shift) nowNs).1) ∧
      ((oscillator.applyStake stake).2 = false →
        NoTrace oscillator (oscillator.applyStake stake).1) := by
  intro node funded empty transfer
  have hstake : (node.applyStake firstStake).2 = false := by decide +kernel
  have hbefore : node.acceptsAfter funded (.applyStake firstStake) = true := by decide +kernel
  have hafter : (node.applyStake firstStake).1.acceptsAfter funded (.applyStake firstStake) =
      false := by decide +kernel
  refine ⟨⟨hstake, hbefore, hafter⟩,
    ⟨by decide +kernel, by decide +kernel, by decide +kernel⟩, fun hclaim ↦ ?_⟩
  have hlater := ((hclaim node empty 0 firstStake).2 hstake).later funded _ hbefore
  rw [hafter] at hlater
  cases hlater

end Oscillator

end Fluidic.Consensus
