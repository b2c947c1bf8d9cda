import Fluidic.Consensus.AccountClock

/-!
# The activity grace

An account that transfers or receives in a tick is spared by the decay of the following ticks. The
tick of activity is the mark of it, and zero is the mark of an account that was never active, so
that activity in tick zero leaves no mark (`decay_takes_from_fundedQueue`). In a run in which no
tick zero transfers from or to an account, the decay takes nothing from it as long as the grace
lasts (`decay_spares_active`).
-/

set_option autoImplicit false
set_option relaxedAutoImplicit false

namespace Fluidic.Consensus.Oscillator

open Library Crypto Fluidic.Field Value Operator Evm
open Std (ExtTreeMap ExtTreeSet LawfulEqCmp)

variable {platform : Platform}

/-! ### Marks of activity -/

/-- No turn of the loop transfers from or to the account. -/
def Untransferred (oscillator : Oscillator platform) (keys : KeyRegistry) (order : SynthesisOrder)
    (account : AccountId) : Prop :=
  ∀ before hash ledger node fee net, Turn oscillator keys order before hash ledger node →
    node.shift.sender ≠ node.shift.recipient →
    account = node.shift.sender ∨ account = node.shift.recipient →
    oscillator.outcomeAt keys order ledger node ≠ .transfer node.shift fee net

/-- A synthesis in tick zero transfers neither from nor to the account. -/
def Marks (account : AccountId) (oscillator : Oscillator platform) : Request → Prop
  | .synthesize keys order _ =>
    oscillator.synthesisTick = 0 → oscillator.Untransferred keys order account
  | _ => True

/-- The account was active, at most so many ticks ago. -/
structure ActiveWithin (account : AccountId) (ticks : ℕ) (oscillator : Oscillator platform) :
    Prop where
  marked : lastActive oscillator.waveField account ≠ 0
  recent : oscillator.synthesisTick ≤ lastActive oscillator.waveField account + ticks

/-- The account is a party of no applied shift when no turn transfers from or to it. Assumes: the
synthesis returns. -/
theorem not_partyOf_of_untransferred {oscillator final : Oscillator platform} {keys : KeyRegistry}
    {order : SynthesisOrder} {timestampNs : ℕ} {result : SynthesisResult} {hashes : List TxHash}
    (hsynthesize : oscillator.synthesize keys order timestampNs = some (final, result, hashes))
    {account : AccountId} (huntransferred : oscillator.Untransferred keys order account) :
    ¬PartyOf final.dag hashes account := by
  rintro ⟨hash, hmem, node, hnode, hdiffer, hparty⟩
  obtain ⟨before, ledger, placed, fee, net, hturn, houtcome⟩ :=
    (mem_applied_iff hsynthesize hash).mp hmem
  rw [(synthesize_effect hsynthesize).nodes, getElem?_markApplied, hturn.node_eq] at hnode
  obtain rfl := Option.some.inj hnode
  exact huntransferred before hash ledger placed fee net hturn hdiffer hparty houtcome

/-- A tick of activity stays recent for a tick more, or is renewed. Assumes: the account was active
within some ticks, and the synthesis marks it. -/
theorem ActiveWithin.synthesize {oscillator final : Oscillator platform} {keys : KeyRegistry}
    {order : SynthesisOrder} {timestampNs : ℕ} {result : SynthesisResult} {hashes : List TxHash}
    (hsynthesize : oscillator.synthesize keys order timestampNs = some (final, result, hashes))
    {account : AccountId} {ticks : ℕ} (hactive : ActiveWithin account ticks oscillator)
    (hmarks : Marks account oscillator (.synthesize keys order timestampNs)) :
    ActiveWithin account (ticks + 1) final := by
  obtain ⟨htick, hclock⟩ := synthesize_clock hsynthesize
  obtain ⟨hparty, hother⟩ := hclock account
  have hnext : final.synthesisTick ≤ oscillator.synthesisTick + 1 := by
    rw [htick]
    exact Nat.mod_le _ _
  have hrecent := hactive.recent
  by_cases hmem : PartyOf final.dag hashes account
  · rw [← hparty hmem] at hnext
    refine ⟨fun hzero ↦ ?_, by omega⟩
    rw [hparty hmem] at hzero
    exact not_partyOf_of_untransferred hsynthesize (hmarks hzero) hmem
  · refine ⟨?_, ?_⟩
    · rw [hother hmem]
      exact hactive.marked
    · rw [hother hmem]
      omega

/-- The syntheses among the requests of a run. -/
def synthesesIn (history : List (Oscillator platform × Request)) : ℕ :=
  (history.filter fun entry ↦ entry.2.isSynthesis).length

/-- Over a run the account was active within as many more ticks as there are syntheses. Assumes: the
account was active before the run, and every step of the run marks it. -/
theorem ActiveWithin.of_reaches {initial oscillator : Oscillator platform}
    {history : List (Oscillator platform × Request)} {account : AccountId} {ticks : ℕ}
    (hactive : ActiveWithin account ticks initial)
    (hreaches : Reaches (step platform) (Marks account) initial history oscillator) :
    ActiveWithin account (ticks + synthesesIn history) oscillator := by
  induction hreaches with
  | start => exact hactive
  | @next history state state' request response _ hmarks hstep ih =>
    have hcount : synthesesIn (history ++ [(state, request)]) =
        synthesesIn history + if request.isSynthesis then 1 else 0 := by
      unfold synthesesIn
      rw [List.filter_append, List.length_append]
      cases hkind : request.isSynthesis <;> simp [hkind]
    rw [hcount]
    cases hkind : request.isSynthesis with
    | true =>
      obtain ⟨keys, order, timestampNs, result, hashes, rfl, hsynthesize⟩ :=
        exists_synthesis hkind hstep
      exact ih.synthesize hsynthesize hmarks
    | false =>
      have hclock := step_clock hkind hstep
      have hsame : lastActive state'.waveField account = lastActive state.waveField account :=
        hclock.field.active account
      refine ⟨?_, ?_⟩
      · rw [hsame]
        exact ih.marked
      · rw [hsame, hclock.tick]
        exact ih.recent

/-! ### Decay -/

/-- The operators whose accounts the decay of a state spares. -/
def immuneIn (oscillator : Oscillator platform) (account : AccountId) : Bool :=
  (oscillator.stakeTable.stakedOperators.map Prod.fst).contains account

/-- Decay takes nothing from an account that was active within the grace. Assumes: the account was
active within the grace. -/
theorem ActiveWithin.decayAccount_eq {oscillator : Oscillator platform} {account : AccountId}
    (hactive : ActiveWithin account metabolicIdleGraceTicks oscillator) (ratePpm : ℕ) :
    ∃ balance, oscillator.waveField.accounts[account]? = some balance ∧
      WaveField.decayAccount oscillator.immuneIn oscillator.synthesisTick ratePpm account balance =
        ({ balance with lastDecayTick := oscillator.synthesisTick }, 0) := by
  have hmarked := hactive.marked
  have hrecent := hactive.recent
  unfold lastActive WaveField.accountBalance at hmarked hrecent
  rw [ExtTreeMap.getD_eq_getD_getElem?] at hmarked hrecent
  cases hentry : oscillator.waveField.accounts[account]? with
  | none =>
    rw [hentry] at hmarked
    exact (hmarked rfl).elim
  | some balance =>
    rw [hentry, Option.getD_some] at hmarked hrecent
    refine ⟨balance, rfl, ?_⟩
    unfold WaveField.decayAccount Balance.decayInPlace
    by_cases himmune : oscillator.immuneIn account = true
    · rw [if_pos himmune]
    · rw [if_neg himmune]
      have hspared : balance.lastActiveTick ≠ 0 ∧
          oscillator.synthesisTick - balance.lastActiveTick ≤ metabolicIdleGraceTicks :=
        ⟨hmarked, by omega⟩
      dsimp only
      rw [if_pos hspared, ite_self]

/-- In the ticks of the grace after a tick that transfers from or to an account, decay takes nothing
from it. Assumes: the synthesis applies such a shift, no synthesis in tick zero transfers from or to
the account, and the run from then on has fewer syntheses than the grace has ticks. -/
theorem decay_spares_active {before applied oscillator : Oscillator platform}
    {keys : KeyRegistry} {order : SynthesisOrder} {timestampNs : ℕ} {result : SynthesisResult}
    {hashes : List TxHash} {history : List (Oscillator platform × Request)} {account : AccountId}
    (hsynthesize : before.synthesize keys order timestampNs = some (applied, result, hashes))
    (hparty : PartyOf applied.dag hashes account)
    (hmarks : Marks account before (.synthesize keys order timestampNs))
    (hreaches : Reaches (step platform) (Marks account) applied history oscillator)
    (hgrace : synthesesIn history < metabolicIdleGraceTicks) :
    ∃ balance, oscillator.waveField.accounts[account]? = some balance ∧
      WaveField.decayAccount oscillator.immuneIn oscillator.synthesisTick
        (dexLambda oscillator.domainRegistry) account balance =
          ({ balance with lastDecayTick := oscillator.synthesisTick }, 0) ∧
      (oscillator.decayPhase oscillator.synthesisTick).1.waveField.accounts[account]? =
        some { balance with lastDecayTick := oscillator.synthesisTick } := by
  obtain ⟨htick, hclock⟩ := synthesize_clock hsynthesize
  have hactive : ActiveWithin account 1 applied := by
    have hlast := (hclock account).1 hparty
    refine ⟨fun hzero ↦ ?_, ?_⟩
    · rw [hlast] at hzero
      exact not_partyOf_of_untransferred hsynthesize (hmarks hzero) hparty
    · rw [hlast, htick]
      exact Nat.mod_le _ _
  have hrun := hactive.of_reaches hreaches
  have hrecent := hrun.recent
  obtain ⟨balance, hentry, hdecay⟩ := ActiveWithin.decayAccount_eq
    ⟨hrun.marked, by omega⟩ (dexLambda oscillator.domainRegistry)
  refine ⟨balance, hentry, hdecay, ?_⟩
  show (oscillator.waveField.accounts.map fun account balance ↦
    (WaveField.decayAccount oscillator.immuneIn oscillator.synthesisTick
      (dexLambda oscillator.domainRegistry) account balance).1)[account]? = _
  rw [ExtTreeMap.getElem?_map, hentry, Option.map_some, hdecay]

/-! ### Runs -/

/-- The requests that fund a sender and let a tick pass before they queue one shift of it. -/
def laterQueue : List Request :=
  [.seedAccount (sampleAccount 1) 1000, .sample,
    .ingest (.stateful (StatefulShift.sample 1 400 [(1, 1)] [] 1 0)) 1]

/-- The sender of a shift that tick one applies is spared in tick three. -/
theorem decay_spares_active_laterQueue :
    ∃ (before applied oscillator : Oscillator Platform.sample) (result : SynthesisResult)
      (hashes : List TxHash) (history : List (Oscillator Platform.sample × Request)),
      before.synthesize sampleKeys .forward 0 = some (applied, result, hashes) ∧
      PartyOf applied.dag hashes (sampleAccount 1) ∧ oscillator.synthesisTick = 3 ∧
      Reaches (step Platform.sample) (Marks (sampleAccount 1)) applied history oscillator ∧
      ∃ balance, oscillator.waveField.accounts[sampleAccount 1]? = some balance ∧
        WaveField.decayAccount oscillator.immuneIn oscillator.synthesisTick
          (dexLambda oscillator.domainRegistry) (sampleAccount 1) balance =
            ({ balance with lastDecayTick := oscillator.synthesisTick }, 0) ∧
        (oscillator.decayPhase oscillator.synthesisTick).1.waveField.accounts[sampleAccount 1]? =
          some { balance with lastDecayTick := oscillator.synthesisTick } := by
  have hruns : ((run (step Platform.sample) anyStep (newWithKeypair 8) laterQueue).bind
      fun before ↦ (before.synthesize sampleKeys .forward 0).bind fun (applied, _, hashes) ↦
        (applied.synthesize sampleKeys .forward 0).bind fun (oscillator, _, _) ↦
          hashes.head?.bind fun hash ↦ applied.dag.nodes[hash]?.map fun node ↦
            decide (node.shift.sender ≠ node.shift.recipient ∧
              sampleAccount 1 = node.shift.sender ∧ before.synthesisTick = 1 ∧
              applied.synthesisTick = 2 ∧ oscillator.synthesisTick = 3)) = some true := by
    decide +kernel
  obtain ⟨before, -, hbefore⟩ := Option.bind_eq_some_iff.mp hruns
  obtain ⟨⟨applied, result, hashes⟩, hsynthesize, happlied⟩ := Option.bind_eq_some_iff.mp hbefore
  obtain ⟨⟨oscillator, result', hashes'⟩, hlater, hrest⟩ := Option.bind_eq_some_iff.mp happlied
  obtain ⟨hash, hhead, hrest⟩ := Option.bind_eq_some_iff.mp hrest
  obtain ⟨node, hnode, hholds⟩ := Option.map_eq_some_iff.mp hrest
  obtain ⟨hdiffer, hsender, hbeforeTick, happliedTick, htick⟩ := of_decide_eq_true hholds
  have hparty : PartyOf applied.dag hashes (sampleAccount 1) :=
    ⟨hash, List.mem_of_mem_head? hhead, node, hnode, hdiffer, .inl hsender⟩
  have hmarks : Marks (sampleAccount 1) before (.synthesize sampleKeys .forward 0) :=
    fun hzero ↦ absurd hzero (by rw [hbeforeTick]; decide)
  have hmarks' : Marks (sampleAccount 1) applied (.synthesize sampleKeys .forward 0) :=
    fun hzero ↦ absurd hzero (by rw [happliedTick]; decide)
  have hstep : step Platform.sample applied (.synthesize sampleKeys .forward 0) =
      some (oscillator, .synthesis result' hashes') := by
    show (applied.synthesize sampleKeys .forward 0).map _ = _
    rw [hlater]
    rfl
  have hreaches := Reaches.start.next hmarks' hstep
  have hgrace : synthesesIn [(applied, Request.synthesize sampleKeys .forward 0)] <
      metabolicIdleGraceTicks := show 1 < 14400 by norm_num
  exact ⟨before, applied, oscillator, result, hashes, _, hsynthesize, hparty, htick, hreaches,
    decay_spares_active hsynthesize hparty hmarks hreaches hgrace⟩

/-- The sender of a shift that tick zero applies decays in tick one. -/
theorem decay_takes_from_fundedQueue :
    ∃ (history : List (Oscillator Platform.sample × Request))
      (before applied : Oscillator Platform.sample) (result : SynthesisResult)
      (hashes : List TxHash) (balance : Balance),
      Reaches (step Platform.sample) anyStep (newWithKeypair 8) history before ∧
      before.synthesize sampleKeys .forward 0 = some (applied, result, hashes) ∧
      PartyOf applied.dag hashes (sampleAccount 1) ∧ before.synthesisTick = 0 ∧
      applied.synthesisTick = 1 ∧
      applied.waveField.accounts[sampleAccount 1]? = some balance ∧ balance.units = 600 ∧
      WaveField.decayAccount applied.immuneIn applied.synthesisTick
        (dexLambda applied.domainRegistry) (sampleAccount 1) balance =
          ({ balance with units := 599, lastDecayTick := 1 }, 1) := by
  have hruns : ((run (step Platform.sample) anyStep (newWithKeypair 8) fundedQueue).bind
      fun before ↦ (before.synthesize sampleKeys .forward 0).bind fun (applied, _, hashes) ↦
        applied.waveField.accounts[sampleAccount 1]?.bind fun balance ↦
          hashes.head?.bind fun hash ↦ applied.dag.nodes[hash]?.map fun node ↦
            decide (node.shift.sender ≠ node.shift.recipient ∧
              sampleAccount 1 = node.shift.sender ∧ before.synthesisTick = 0 ∧
              applied.synthesisTick = 1 ∧ balance.units = 600 ∧
              WaveField.decayAccount applied.immuneIn applied.synthesisTick
                (dexLambda applied.domainRegistry) (sampleAccount 1) balance =
                  ({ balance with units := 599, lastDecayTick := 1 }, 1))) = some true := by
    decide +kernel
  obtain ⟨before, hrun, hbefore⟩ := Option.bind_eq_some_iff.mp hruns
  obtain ⟨⟨applied, result, hashes⟩, hsynthesize, happlied⟩ := Option.bind_eq_some_iff.mp hbefore
  obtain ⟨balance, hentry, hrest⟩ := Option.bind_eq_some_iff.mp happlied
  obtain ⟨hash, hhead, hrest⟩ := Option.bind_eq_some_iff.mp hrest
  obtain ⟨node, hnode, hholds⟩ := Option.map_eq_some_iff.mp hrest
  obtain ⟨hdiffer, hsender, hbeforeTick, happliedTick, hunits, hdecay⟩ := of_decide_eq_true hholds
  have hparty : PartyOf applied.dag hashes (sampleAccount 1) :=
    ⟨hash, List.mem_of_mem_head? hhead, node, hnode, hdiffer, .inl hsender⟩
  obtain ⟨history, -, hreaches⟩ := reaches_of_run hrun
  exact ⟨history, before, applied, result, hashes, balance, hreaches, hsynthesize, hparty,
    hbeforeTick, happliedTick, hentry, hunits, hdecay⟩

end Fluidic.Consensus.Oscillator
