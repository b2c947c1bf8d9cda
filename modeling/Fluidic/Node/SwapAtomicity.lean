import Fluidic.Consensus.SpendBounds
import Fluidic.Consensus.Ingestion
import Fluidic.Node.Refinement

/-!
# The two halves of a swap

A shift to one of the pools is a swap. `submit_stateful` first queues a payout from the other pool,
and then ingests the deposit itself. The deposit can still be refused when the payout is queued, and
a synthesis takes each of the two on its own merits: a payout is paid though its deposit never comes
(`payout_without_deposit`).

A request that queues a payout is answered without an error exactly when its deposit passes the
gates of ingestion. A synthesis applies no payout without its deposit when before it every payout
that is still open has a deposit that is applied, or is sure to be (`swaps_atomic`).
-/

set_option autoImplicit false
set_option relaxedAutoImplicit false

namespace Fluidic.Node

open Library Crypto Consensus Api
open Std (ExtTreeMap LawfulEqCmp)

/-- The payout that a request queued, and the deposit of the same request. -/
structure Swap where
  payout : StatefulShift
  deposit : StatefulShift
  deriving DecidableEq

variable {platform : Platform}

/-- The swap that a request opens: its payout is made out, and is queued. -/
def openedSwap (state : ApiState platform) (request : StatefulShiftRequest) : Option Swap :=
  match parseStatefulShift request with
  | .error _ => none
  | .ok deposit =>
    match state.checkSubmitted deposit with
    | .error _ => none
    | .ok _ =>
      if deposit.recipient = state.poolWaveAccount ∨ deposit.recipient = state.poolUsdcAccount then
        match state.payoutFor deposit with
        | .error _ => none
        | .ok payout => if state.oscillator.queues payout then some ⟨payout, deposit⟩ else none
      else none

/-- The swap that an event opens. -/
def openedBy (entry : ApiState platform × Event) : List Swap :=
  match entry.2 with
  | .submitStateful request _ => (openedSwap entry.1 request).toList
  | .gossip _ _ | .registerAccount _ | .synthesize _ _ => []

/-- The swaps that a history opened. -/
def openedIn (history : List (ApiState platform × Event)) : List Swap := history.flatMap openedBy

/-- Whether the shift of a hash has been applied. -/
def isApplied (oscillator : Oscillator platform) (hash : TxHash) : Bool :=
  oscillator.dag.nodes[hash]?.any DagNode.applied

/-- An event does not tear swaps apart: a request with an error queues nothing, and a synthesis that
applies a payout leaves its deposit applied. -/
def Atomic (swaps : List Swap) (state : ApiState platform) : Event → Prop
  | .submitStateful request nowNs => (state.submitStateful request nowNs).2.isOk = false →
      (state.submitStateful request nowNs).1.oscillator.pendingStateful =
        state.oscillator.pendingStateful
  | .synthesize order timestampNs => ∀ final result hashes,
      state.oscillator.synthesize state.registry order timestampNs = some (final, result, hashes) →
      ∀ swap ∈ swaps, swap.payout.hash platform.primitives ∈ hashes →
        isApplied final (swap.deposit.hash platform.primitives) = true
  | .gossip _ _ | .registerAccount _ => True

/-- A deposit passes the gates of ingestion after its payout: its domain takes it, and its nonce is
above all recorded ones, of which the payout may have added one. -/
def DepositPasses (oscillator : Oscillator platform) (swap : Swap) : Prop :=
  oscillator.records swap.deposit = true ∧
    ¬(swap.payout.sender = swap.deposit.sender ∧ swap.payout.domain = swap.deposit.domain)

/-- The condition on an event under which swaps stay whole. -/
def KeepsWhole (swaps : List Swap) (state : ApiState platform) : Event → Prop
  | .submitStateful request _ => ∀ swap, openedSwap state request = some swap →
      DepositPasses state.oscillator swap
  | .synthesize order _ => ∀ swap ∈ swaps,
      (∃ spend ∈ state.oscillator.openSpends,
        spend.hash = swap.payout.hash platform.primitives) →
      isApplied state.oscillator (swap.deposit.hash platform.primitives) = true ∨
        state.oscillator.Secured state.registry order (swap.deposit.hash platform.primitives)
  | .gossip _ _ | .registerAccount _ => True

instance (oscillator : Oscillator platform) (swap : Swap) :
    Decidable (DepositPasses oscillator swap) :=
  inferInstanceAs (Decidable (_ ∧ _))

instance (swaps : List Swap) (state : ApiState platform) (event : Event) :
    Decidable (KeepsWhole swaps state event) :=
  match event with
  | .submitStateful request _ =>
    decidable_of_iff (∀ swap ∈ openedSwap state request, DepositPasses state.oscillator swap)
      Iff.rfl
  | .synthesize order _ => inferInstanceAs (Decidable (∀ swap ∈ swaps,
      (∃ spend ∈ state.oscillator.openSpends,
        spend.hash = swap.payout.hash platform.primitives) →
      isApplied state.oscillator (swap.deposit.hash platform.primitives) = true ∨
        state.oscillator.Secured state.registry order (swap.deposit.hash platform.primitives)))
  | .gossip _ _ => isTrue trivial
  | .registerAccount _ => isTrue trivial

/-! ### Ingestion -/

theorem isOk_mapError {ε ε' α : Type} (f : ε → ε') (result : Except ε α) :
    (result.mapError f).isOk = result.isOk := by
  cases result <;> rfl

theorem isOk_map {ε α β : Type} (f : α → β) (result : Except ε α) :
    (result.map f).isOk = result.isOk := by
  cases result <;> rfl

theorem eq_ok_of_isOk {ε : Type} {result : Except ε Unit} (hok : result.isOk = true) :
    result = .ok () := by
  cases result with
  | error error => exact absurd hok (by simp [Except.isOk, Except.toBool])
  | ok _ => rfl

/-- What a request ingests changes the node and nothing else. -/
theorem ingestShift_eq (state : ApiState platform) (shift : StatefulShift) (nowNs : ℕ)
    (context : String) :
    (state.ingestShift shift nowNs context).1 =
      { state with oscillator := (state.oscillator.ingestStateful shift nowNs).1 } := rfl

theorem isOk_ingestShift (state : ApiState platform) (shift : StatefulShift) (nowNs : ℕ)
    (context : String) :
    (state.ingestShift shift nowNs context).2.isOk =
      (state.oscillator.records shift &&
        (decide (shift.signature ∈ state.oscillator.seenSignatures) ||
          decide (shift.amount ≠ 0))) := by
  unfold ApiState.ingestShift
  rw [isOk_mapError]
  exact Oscillator.isOk_ingestStateful state.oscillator shift nowNs

/-- A shift that is not queued leaves the queue. Assumes: the node does not queue it. -/
theorem pendingStateful_ingestShift {state : ApiState platform} {shift : StatefulShift}
    (hrefused : state.oscillator.queues shift = false) (nowNs : ℕ) (context : String) :
    (state.ingestShift shift nowNs context).1.oscillator.pendingStateful =
      state.oscillator.pendingStateful := by
  rw [ingestShift_eq, Oscillator.ingestStateful_eq]
  simp [hrefused]

/-- A shift that is refused with an error is not queued. Assumes: the shift is refused with an
error. -/
theorem queues_of_isOk {state : ApiState platform} {shift : StatefulShift} {nowNs : ℕ}
    {context : String} (herror : (state.ingestShift shift nowNs context).2.isOk = false) :
    state.oscillator.queues shift = false := by
  rw [isOk_ingestShift] at herror
  unfold Oscillator.queues
  cases hrecords : state.oscillator.records shift with
  | false => rfl
  | true =>
    rw [hrecords, Bool.true_and, Bool.or_eq_false_iff] at herror
    have hzero : shift.amount = 0 := by simpa using herror.2
    simp [hzero]

/-- A shift that is queued is not refused. Assumes: the node queues the shift. -/
theorem isOk_of_queues {state : ApiState platform} {shift : StatefulShift}
    (hqueues : state.oscillator.queues shift = true) (nowNs : ℕ) (context : String) :
    (state.ingestShift shift nowNs context).2.isOk = true := by
  unfold Oscillator.queues at hqueues
  rw [Bool.and_eq_true, Bool.and_eq_true] at hqueues
  obtain ⟨⟨hrecords, -⟩, hamount⟩ := hqueues
  rw [isOk_ingestShift, hrecords, hamount, Bool.or_true, Bool.true_and]

/-! ### Submission -/

theorem waveToUsdcOut_zero (state : ApiState platform) : state.waveToUsdcOut 0 = 0 := by
  unfold ApiState.waveToUsdcOut saturatingMul
  simp

theorem usdcToWaveOut_zero (state : ApiState platform) : state.usdcToWaveOut 0 = 0 := by
  unfold ApiState.usdcToWaveOut saturatingMul
  simp

/-- A payout carries the nonce of its deposit, which is of some amount. Assumes: the payout is made
out. -/
theorem payoutFor_spec {state : ApiState platform} {deposit payout : StatefulShift}
    (hpayout : state.payoutFor deposit = .ok payout) :
    payout.nonce = deposit.nonce ∧ deposit.amount ≠ 0 := by
  unfold ApiState.payoutFor at hpayout
  cases hmain : state.mainAccount deposit.sender with
  | none => simp [hmain] at hpayout
  | some main =>
    rw [hmain] at hpayout
    by_cases hwave : deposit.recipient = state.poolWaveAccount
    · simp only [hwave, if_true] at hpayout
      split_ifs at hpayout with hzero
      obtain rfl := Except.ok.inj hpayout
      refine ⟨rfl, fun hamount ↦ hzero ?_⟩
      rw [hamount, waveToUsdcOut_zero]
    · simp only [hwave, if_false] at hpayout
      split_ifs at hpayout with hzero
      obtain rfl := Except.ok.inj hpayout
      refine ⟨rfl, fun hamount ↦ hzero ?_⟩
      rw [hamount, usdcToWaveOut_zero]

/-- What a request that opens a swap does: it queues the payout, and then ingests the deposit.
Assumes: the request opens the swap. -/
theorem submitStateful_of_openedSwap {state : ApiState platform} {request : StatefulShiftRequest}
    {swap : Swap} (hopened : openedSwap state request = some swap) (nowNs : ℕ) :
    state.oscillator.queues swap.payout = true ∧ swap.payout.nonce = swap.deposit.nonce ∧
    swap.deposit.amount ≠ 0 ∧
    state.submitStateful request nowNs =
      ((((state.ingestShift swap.payout nowNs "payout ingest failed: ").1.ingestShift swap.deposit
          nowNs "shift ingest failed: ").1),
        ((state.ingestShift swap.payout nowNs "payout ingest failed: ").1.ingestShift swap.deposit
          nowNs "shift ingest failed: ").2.map fun _ ↦ swap.deposit.hash platform.primitives) := by
  unfold openedSwap at hopened
  cases hparse : parseStatefulShift request with
  | error error => simp [hparse] at hopened
  | ok deposit =>
    cases hcheck : state.checkSubmitted deposit with
    | error error => simp [hparse, hcheck] at hopened
    | ok _ =>
      by_cases hswap : deposit.recipient = state.poolWaveAccount ∨
          deposit.recipient = state.poolUsdcAccount
      · cases hpayout : state.payoutFor deposit with
        | error error => simp [hparse, hcheck, hswap, hpayout] at hopened
        | ok payout =>
          cases hqueues : state.oscillator.queues payout with
          | false => simp [hparse, hcheck, hswap, hpayout, hqueues] at hopened
          | true =>
            simp only [hparse, hcheck, hswap, hpayout, hqueues, if_true, Option.some.injEq]
              at hopened
            subst hopened
            obtain ⟨hnonce, hamount⟩ := payoutFor_spec hpayout
            refine ⟨hqueues, hnonce, hamount, ?_⟩
            have hpaid : (state.ingestShift payout nowNs "payout ingest failed: ").2 = .ok () :=
              eq_ok_of_isOk (isOk_of_queues hqueues nowNs _)
            unfold ApiState.submitStateful
            simp only [hparse, hcheck, hswap, hpayout, if_true]
            rw [← Prod.eta (state.ingestShift payout nowNs "payout ingest failed: "), hpaid]
      · simp [hparse, hcheck, hswap] at hopened

/-- A request that opens no swap and is answered with an error queues nothing. Assumes: the request
opens no swap, and is answered with an error. -/
theorem pendingStateful_of_openedSwap_none {state : ApiState platform}
    {request : StatefulShiftRequest} (hopened : openedSwap state request = none) {nowNs : ℕ}
    (herror : (state.submitStateful request nowNs).2.isOk = false) :
    (state.submitStateful request nowNs).1.oscillator.pendingStateful =
      state.oscillator.pendingStateful := by
  unfold openedSwap at hopened
  unfold ApiState.submitStateful at herror ⊢
  cases hparse : parseStatefulShift request with
  | error error => rfl
  | ok shift =>
    cases hcheck : state.checkSubmitted shift with
    | error error =>
      simp only [hcheck]
    | ok _ =>
      simp only [hparse, hcheck] at hopened herror ⊢
      by_cases hswap : shift.recipient = state.poolWaveAccount ∨
          shift.recipient = state.poolUsdcAccount
      · simp only [hswap, if_true] at hopened herror ⊢
        cases hpayout : state.payoutFor shift with
        | error error => rfl
        | ok payout =>
          simp only [hpayout] at hopened herror ⊢
          have hrefused : state.oscillator.queues payout = false := by
            by_contra hqueues
            rw [if_pos (Bool.not_eq_false _ ▸ hqueues)] at hopened
            cases hopened
          have hkept := pendingStateful_ingestShift hrefused nowNs "payout ingest failed: "
          generalize state.ingestShift payout nowNs "payout ingest failed: " = answer
            at hkept herror ⊢
          obtain ⟨next, paid⟩ := answer
          cases paid with
          | error error => exact hkept
          | ok _ =>
            dsimp only at herror hkept ⊢
            rw [isOk_map] at herror
            exact (pendingStateful_ingestShift (queues_of_isOk herror) nowNs _).trans hkept
      · simp only [hswap, if_false] at herror ⊢
        rw [isOk_map] at herror
        exact pendingStateful_ingestShift (queues_of_isOk herror) nowNs _

/-- After a payout the gates of ingestion record the nonce of a shift when they did so before, and
the payout did not record it. Assumes: the payout is recorded, with the nonce of the shift. -/
theorem records_ingestStateful {oscillator : Oscillator platform} {payout deposit : StatefulShift}
    (hrecords : oscillator.records payout = true) (hnonce : payout.nonce = deposit.nonce)
    (nowNs : ℕ) :
    (oscillator.ingestStateful payout nowNs).1.records deposit = true ↔
      DepositPasses oscillator ⟨payout, deposit⟩ := by
  have hregistry : (oscillator.ingestStateful payout nowNs).1.domainRegistry =
      oscillator.domainRegistry := by
    rw [Oscillator.ingestStateful_eq]
  unfold DepositPasses Oscillator.records
  rw [hregistry, Oscillator.isFresh_ingestStateful, hrecords]
  by_cases hsame : payout.sender = deposit.sender ∧ payout.domain = deposit.domain
  · simp [hsame, hnonce]
  · simp [hsame]

/-- A request that opens a swap leaves more in the queue. Assumes: the request opens the swap. -/
theorem length_pendingStateful_of_openedSwap {state : ApiState platform}
    {request : StatefulShiftRequest} {swap : Swap}
    (hopened : openedSwap state request = some swap) (nowNs : ℕ) :
    state.oscillator.pendingStateful.length <
      (state.submitStateful request nowNs).1.oscillator.pendingStateful.length := by
  obtain ⟨hqueues, -, -, hsubmit⟩ := submitStateful_of_openedSwap hopened nowNs
  have hpaid : (state.ingestShift swap.payout nowNs
      "payout ingest failed: ").1.oscillator.pendingStateful =
        state.oscillator.pendingStateful ++ [Oscillator.stamped swap.payout nowNs] := by
    rw [ingestShift_eq, Oscillator.ingestStateful_eq]
    simp [hqueues]
  rw [hsubmit, ingestShift_eq, Oscillator.ingestStateful_eq]
  dsimp only
  split_ifs
  · rw [hpaid, List.length_append, List.length_append]
    simp only [List.length_singleton]
    omega
  · rw [hpaid, List.length_append]
    simp

/-- A request tears no swap apart exactly when the deposit of the swap that it opens passes the
gates of ingestion. -/
theorem atomic_submitStateful_iff (swaps : List Swap) (state : ApiState platform)
    (request : StatefulShiftRequest) (nowNs : ℕ) :
    Atomic swaps state (.submitStateful request nowNs) ↔
      KeepsWhole swaps state (.submitStateful request nowNs) := by
  cases hopened : openedSwap state request with
  | none =>
    refine ⟨fun _ swap hswap ↦ ?_, fun _ ↦ pendingStateful_of_openedSwap_none hopened⟩
    rw [hopened] at hswap
    cases hswap
  | some swap =>
    obtain ⟨hqueues, hnonce, hamount, hsubmit⟩ := submitStateful_of_openedSwap hopened nowNs
    have hrecords : state.oscillator.records swap.payout = true := by
      unfold Oscillator.queues at hqueues
      rw [Bool.and_eq_true, Bool.and_eq_true] at hqueues
      exact hqueues.1.1
    have hanswer : (state.submitStateful request nowNs).2.isOk = true ↔
        DepositPasses state.oscillator swap := by
      rw [hsubmit, isOk_map, isOk_ingestShift, ingestShift_eq,
        ← records_ingestStateful hrecords hnonce nowNs]
      simp [hamount]
    constructor
    · intro hatomic swap' hswap'
      rw [hopened] at hswap'
      obtain rfl := Option.some.inj hswap'
      rw [← hanswer]
      by_contra herror
      have hsame := hatomic (Bool.not_eq_true _ ▸ herror)
      have hlonger := length_pendingStateful_of_openedSwap hopened nowNs
      rw [hsame] at hlonger
      exact lt_irrefl _ hlonger
    · intro hpasses herror
      rw [hanswer.mpr (hpasses swap hopened)] at herror
      cases herror

/-! ### Synthesis -/

/-- The preparation of a synthesis applies nothing. -/
theorem any_applied_preparedDag (oscillator : Oscillator platform) (keys : KeyRegistry)
    (order : SynthesisOrder) (hash : TxHash) :
    (oscillator.preparedDag keys order).nodes[hash]?.any DagNode.applied =
      isApplied oscillator hash := by
  have hcore (found : Option DagNode) :
      found.any DagNode.applied = (found.map DagNode.core).any DagNode.applied := by
    cases found <;> rfl
  have hkept (found : Option DagNode) : (found.map (Oscillator.prepareNode
      (oscillator.checkedDag keys) oscillator.synthesisTick hash)).any DagNode.applied =
        found.any DagNode.applied := by
    cases found with
    | none => rfl
    | some node =>
      rw [Option.map_some, Oscillator.prepareNode_eq]
      rfl
  unfold isApplied
  rw [Oscillator.getElem?_preparedDag, hkept]
  rcases oscillator.checkedDag_core keys hash with hsame | ⟨hnone, shift, -, depth, -, hnew⟩
  · rw [hcore, hsame, ← hcore]
  · rw [hcore, hnew, hnone]
    rfl

/-- After a synthesis a shift is applied when it was so before or the synthesis applied it. Assumes:
the synthesis succeeds. -/
theorem isApplied_synthesize {oscillator final : Oscillator platform} {keys : KeyRegistry}
    {order : SynthesisOrder} {timestampNs : ℕ} {result : SynthesisResult} {hashes : List TxHash}
    (hsynthesize : oscillator.synthesize keys order timestampNs = some (final, result, hashes))
    (hash : TxHash) :
    isApplied final hash = true ↔ isApplied oscillator hash = true ∨ hash ∈ hashes := by
  rw [← any_applied_preparedDag oscillator keys order hash]
  unfold isApplied
  rw [(Oscillator.synthesize_effect hsynthesize).nodes, Oscillator.getElem?_markApplied]
  by_cases hmem : hash ∈ hashes
  · obtain ⟨before, ledger, node, fee, net, hturn, -⟩ :=
      (Oscillator.mem_applied_iff hsynthesize hash).mp hmem
    rw [hturn.node_eq]
    simp [hmem]
  · cases (oscillator.preparedDag keys order).nodes[hash]? with
    | none => simp [hmem]
    | some node => simp [hmem]

/-- A synthesis tears no swap apart when each deposit is applied or secured before it, unless its
payout is no longer open. Assumes: the state is sound, its balances mirror the wave-field, and the
synthesis keeps the swaps whole. -/
theorem atomic_synthesize {swaps : List Swap} {state : ApiState platform} {order : SynthesisOrder}
    {timestampNs : ℕ} (hsound : state.oscillator.Sound) (hmirrored : state.oscillator.Mirrored)
    (hwhole : KeepsWhole swaps state (.synthesize order timestampNs)) :
    Atomic swaps state (.synthesize order timestampNs) := by
  intro final result hashes hsynthesize swap hmem hpaid
  rw [isApplied_synthesize hsynthesize]
  rcases hwhole swap hmem (Oscillator.exists_openSpend hsynthesize hpaid) with happlied | hsecured
  · exact .inl happlied
  · exact .inr (Oscillator.mem_hashes_of_secured hsound hmirrored hsynthesize hsecured)

/-! ### Runs -/

theorem serve_registerAccount (state : ApiState platform) (publicKeyHex : String) :
    serve state (.registerAccount publicKeyHex) =
      some ((state.registerAccount publicKeyHex).1,
        .registered (state.registerAccount publicKeyHex).2) := rfl

theorem serve_submitStateful (state : ApiState platform) (request : StatefulShiftRequest)
    (nowNs : ℕ) :
    serve state (.submitStateful request nowNs) =
      some ((state.submitStateful request nowNs).1,
        .submitted (state.submitStateful request nowNs).2) := rfl

theorem serve_synthesize {state : ApiState platform} {order : SynthesisOrder} {timestampNs : ℕ}
    {final : Oscillator platform} {result : SynthesisResult} {hashes : List TxHash}
    (hsynthesize : state.oscillator.synthesize state.registry order timestampNs =
      some (final, result, hashes)) :
    serve state (.synthesize order timestampNs) =
      some ({ state with oscillator := final }, .synthesized result hashes) :=
  Option.map_eq_some_iff.mpr ⟨_, hsynthesize, rfl⟩

/-- What every operation keeps up is kept up by every event. Assumes: every operation keeps it up,
it holds before the event, and the event is served. -/
theorem serve_keeps {property : Oscillator platform → Prop}
    (hkeeps : ∀ oscillator operation next output, property oscillator →
      operate platform oscillator operation = some (next, output) → property next)
    {state next : ApiState platform} {event : Event} {output : Output}
    (hproperty : property state.oscillator) (hserve : serve state event = some (next, output)) :
    property next.oscillator := by
  have hperforms {signals : Set Signal} {final : Oscillator platform}
      (hleads : Performs signals state.oscillator final) : property final := by
    obtain ⟨history, hreaches⟩ := hleads
    exact hreaches.invariant hproperty fun oscillator operation next output _ hbefore hoperate ↦
      hkeeps oscillator operation next output hbefore hoperate
  have hrequest {request : Request} {response : Response} {final : Oscillator platform}
      (hstep : step platform state.oscillator request = some (final, response)) :
      property final :=
    hkeeps state.oscillator (.request request) final (.response response) hproperty
      (Option.map_eq_some_iff.mpr ⟨_, hstep, rfl⟩)
  cases event with
  | gossip signal nowNs =>
    obtain ⟨rfl, -⟩ := Prod.mk.inj (Option.some.inj hserve)
    by_cases hcertificate : ∃ cert, signal = .certificate cert
    · obtain ⟨cert, rfl⟩ := hcertificate
      exact @hrequest (.ingestCertificate cert state.registry) _ _ rfl
    · exact hperforms (performs_handleSignal state nowNs fun cert hcert ↦
        hcertificate ⟨cert, hcert⟩)
  | registerAccount publicKeyHex =>
    obtain ⟨rfl, -⟩ := Prod.mk.inj (Option.some.inj hserve)
    exact @hperforms ∅ _ (performs_registerAccount state publicKeyHex)
  | submitStateful request nowNs =>
    obtain ⟨rfl, -⟩ := Prod.mk.inj (Option.some.inj hserve)
    exact hperforms (performs_submitStateful state request nowNs)
  | synthesize order timestampNs =>
    obtain ⟨⟨final, result, hashes⟩, hsynthesize, hnext⟩ := Option.map_eq_some_iff.mp hserve
    obtain ⟨rfl, -⟩ := Prod.mk.inj hnext
    exact @hrequest (.synthesize state.registry order timestampNs) _ _
      (by rw [step, hsynthesize]; rfl)

/-- A node is sound, and its balances mirror the wave-field. -/
def Settled (oscillator : Oscillator platform) : Prop :=
  oscillator.Sound ∧ oscillator.Mirrored

/-- Every operation keeps a node settled. Assumes: the node is settled, and the operation is
performed. -/
theorem Settled.operate {oscillator next : Oscillator platform} {operation : Operation}
    {output : OperationOutput} (hsettled : Settled oscillator)
    (hoperate : Consensus.operate platform oscillator operation = some (next, output)) :
    Settled next := by
  refine ⟨hsettled.1.operate hoperate, ?_⟩
  rcases operate_cases hoperate with ⟨request, response, -, -, hstep⟩ | ⟨-, rewardPool, rfl⟩
  · exact hsettled.2.step hstep
  · exact hsettled.2

/-- A new node is settled. -/
theorem settled_new {oscillator : Oscillator platform} (hsettled : Settled oscillator) :
    Settled (ApiState.new oscillator).oscillator := by
  have hseeds : Performs ∅ oscillator (ApiState.new oscillator).oscillator :=
    ((Performs.seedAccount _ _ _).trans (.seedAccount _ _ _)).trans (.markNonDecaying _ _)
  obtain ⟨history, hreaches⟩ := hseeds
  exact hreaches.invariant hsettled fun _ _ _ _ _ hbefore hoperate ↦ hbefore.operate hoperate

/-- In every run of a node an event tears none of the swaps apart that the run opened before, when
the event keeps them whole: the deposit of a swap that it opens passes the gates of ingestion after
its payout, and before a synthesis the deposit of each open payout is applied or secured. For a
request this is also necessary. Assumes: the node starts settled and runs through the history, of
which the event is one. -/
theorem swaps_atomic {start final : ApiState platform} (hsettled : Settled start.oscillator)
    {history : List (ApiState platform × Event)}
    (hreaches : Reaches serve anyStep start history final)
    (earlier : List (ApiState platform × Event)) (state : ApiState platform) (event : Event)
    (later : List (ApiState platform × Event))
    (hsplit : history = earlier ++ (state, event) :: later) :
    (KeepsWhole (openedIn earlier) state event → Atomic (openedIn earlier) state event) ∧
    ∀ request nowNs, event = .submitStateful request nowNs →
      Atomic (openedIn earlier) state event → KeepsWhole (openedIn earlier) state event := by
  constructor
  · intro hwhole
    cases event with
    | gossip signal nowNs => trivial
    | registerAccount publicKeyHex => trivial
    | submitStateful request nowNs =>
      exact (atomic_submitStateful_iff _ state request nowNs).mpr hwhole
    | synthesize order timestampNs =>
      obtain ⟨hsound, hmirrored⟩ : Settled state.oscillator :=
        @Reaches.invariant_of_mem _ _ _ _ _ (fun state ↦ Settled state.oscillator) _ _ _ hreaches
          hsettled (fun _ _ _ _ _ hbefore hserve ↦ serve_keeps
            (fun _ _ _ _ hsettled hoperate ↦ hsettled.operate hoperate) hbefore hserve)
          (state, .synthesize order timestampNs)
          (hsplit ▸ List.mem_append_right _ List.mem_cons_self)
      exact atomic_synthesize hsound hmirrored hwhole
  · rintro request nowNs rfl hatomic
    exact (atomic_submitStateful_iff _ state request nowNs).mp hatomic

/-! ### A payout without a deposit -/

/-- A node without accounts of customers. -/
def exchangeNode : ApiState Platform.sample := ApiState.new (Oscillator.newWithKeypair 8)

/-- The WAVE account of the first seed. -/
def customerAccount : AccountId := (tokenAccounts .sample (sampleAccount 1)).1

/-- A signed deposit of the first seed into the WAVE pool. -/
def sampleDeposit (amount : ℕ) (domain : DomainId) : StatefulShift :=
  let unsigned : StatefulShift :=
    { StatefulShift.sample 1 amount [] [] 1 0 with
      domain
      sender := customerAccount
      recipient := exchangeNode.poolWaveAccount
      vectorClock := VectorClock.new.tick customerAccount.bytes }
  { unsigned with signature := sampleSign 1 unsigned.signingBytes }

/-- The request for a deposit, with its amount in decimal. -/
def depositRequest (amount : ℕ) (text : String) (domain : DomainId) : StatefulShiftRequest :=
  { sender := hexEncode customerAccount.bytes.toBytes
    recipient := hexEncode exchangeNode.poolWaveAccount.bytes.toBytes
    amount := text
    domain := some domain
    vectorClock := some [(hexEncode customerAccount.bytes.toBytes, 1)]
    predecessors := []
    nonce := 1
    timestampNs := 0
    signature := hexEncode (sampleDeposit amount domain).signature }

/-- The registration of the first seed. -/
def customerRegistration : Event := .registerAccount (hexEncode (Bytes32.toBytes 1))

/-- A swap that the customer can pay: every event keeps it whole, and both halves are applied. -/
theorem swaps_atomic_coveredDeposit :
    ∃ (history : List (ApiState Platform.sample × Event)) (final : ApiState Platform.sample),
      Reaches serve anyStep exchangeNode history final ∧
      history.map Prod.snd = [customerRegistration,
        .submitStateful (depositRequest 100 "100" defaultDexDomain) 1, .synthesize .forward 0] ∧
      final.oscillator.dag.nodes.toList.map (fun entry ↦ entry.2.applied) = [true, true] ∧
      ∀ earlier state event later, history = earlier ++ (state, event) :: later →
        KeepsWhole (openedIn earlier) state event ∧ Atomic (openedIn earlier) state event := by
  have hruns : (trace serve anyStep exchangeNode [customerRegistration,
      .submitStateful (depositRequest 100 "100" defaultDexDomain) 1, .synthesize .forward 0]).map
        (fun (history, final) ↦
          (final.oscillator.dag.nodes.toList.map fun entry ↦ entry.2.applied,
            decide (∀ index, (hlt : index < history.length) →
              KeepsWhole (openedIn (history.take index)) history[index].1 history[index].2))) =
      some ([true, true], true) := by
    decide +kernel
  obtain ⟨⟨history, final⟩, htrace, hvalues⟩ := Option.map_eq_some_iff.mp hruns
  obtain ⟨happlied, hwhole⟩ := Prod.mk.inj hvalues
  obtain ⟨hevents, hreaches⟩ := reaches_of_trace htrace
  refine ⟨history, final, hreaches, hevents, happlied, fun earlier state event later hsplit ↦ ?_⟩
  have hkept : KeepsWhole (openedIn earlier) state event := by
    have hat := of_decide_eq_true hwhole earlier.length (by simp [hsplit])
    simpa [hsplit] using hat
  have hsettled : Settled exchangeNode.oscillator :=
    settled_new ⟨Oscillator.sound_create _ _ _, Oscillator.mirrored_create _ _ _⟩
  exact ⟨hkept, (swaps_atomic hsettled hreaches earlier state event later hsplit).1 hkept⟩

/-- The request for a deposit of more than the customer holds. -/
def overdraft : StatefulShiftRequest :=
  depositRequest 10000000000000000 "10000000000000000" defaultDexDomain

theorem overdraft_paid :
    ((openedSwap registrarNode overdraft).bind fun swap ↦
      ((registrarNode.submitStateful overdraft 1).1.oscillator.synthesize
        (registrarNode.submitStateful overdraft 1).1.registry .forward 0).map fun outcome ↦
          decide (swap.payout.hash Platform.sample.primitives ∈ outcome.2.2 ∧
            isApplied outcome.1 (swap.deposit.hash Platform.sample.primitives) = false)) =
      some true := by
  decide +kernel

/-- A customer deposits more than it holds, and the payout is applied without the deposit. Another
one deposits in a domain that does not exist, and is answered with an error when the payout is
queued. -/
theorem payout_without_deposit :
    (∃ (history : List (ApiState Platform.sample × Event)) (final : ApiState Platform.sample),
      Reaches serve anyStep exchangeNode history final ∧
      ∃ earlier state order timestampNs,
        history = earlier ++ [(state, .synthesize order timestampNs)] ∧
        ¬Atomic (openedIn earlier) state (.synthesize order timestampNs)) ∧
    ∃ (history : List (ApiState Platform.sample × Event)) (final : ApiState Platform.sample),
      Reaches serve anyStep exchangeNode history final ∧
      ∃ earlier state request nowNs, history = earlier ++ [(state, .submitStateful request nowNs)] ∧
        ¬Atomic (openedIn earlier) state (.submitStateful request nowNs) := by
  have hcustomer : Reaches serve anyStep exchangeNode [(exchangeNode, customerRegistration)]
      registrarNode := Reaches.start.next trivial (serve_registerAccount _ _)
  refine ⟨?_, ?_⟩
  · obtain ⟨swap, hopened, hsynthesizes⟩ := Option.bind_eq_some_iff.mp overdraft_paid
    obtain ⟨⟨final, result, hashes⟩, hsynthesize, houtcome⟩ :=
      Option.map_eq_some_iff.mp hsynthesizes
    obtain ⟨hmem, hmissing⟩ := of_decide_eq_true houtcome
    have hsubmitted := hcustomer.next trivial (serve_submitStateful registrarNode overdraft 1)
    have hswap : swap ∈ openedIn ([(exchangeNode, customerRegistration)] ++
        [(registrarNode, .submitStateful overdraft 1)]) := by
      simp [openedIn, openedBy, customerRegistration, hopened]
    refine ⟨_, _, hsubmitted.next trivial (serve_synthesize hsynthesize), _, _, .forward, 0, rfl,
      fun hatomic ↦ ?_⟩
    have happlied := hatomic final result hashes hsynthesize swap hswap hmem
    exact Bool.false_ne_true (hmissing.symm.trans happlied)
  · let request := depositRequest 100 "100" 7
    have hopens : (openedSwap registrarNode request).isSome = true ∧
        (registrarNode.submitStateful request 1).2.isOk = false := by
      decide +kernel
    obtain ⟨swap, hopened⟩ := Option.isSome_iff_exists.mp hopens.1
    refine ⟨_, _, hcustomer.next trivial (serve_submitStateful _ request 1), _, registrarNode,
      request, 1, rfl, fun hatomic ↦ ?_⟩
    have hlonger := length_pendingStateful_of_openedSwap hopened 1
    rw [hatomic hopens.2] at hlonger
    exact lt_irrefl _ hlonger

end Fluidic.Node
