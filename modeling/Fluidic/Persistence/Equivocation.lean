import Fluidic.Consensus.AccountClock
import Fluidic.Consensus.Slashing
import Fluidic.Persistence.RoundTrip

/-!
# Certificates across a restart

A node signs one certificate for each tick of its counter. A snapshot does not have the counter, so
a node that is restarted counts from zero and signs the first ticks again, with other timestamps.
Peers take two such certificates for an equivocation. The counter is the number of syntheses since
the last restart (`SignedOnce.clock`), so a run in which those numbers differ at the syntheses of a
staked operator has no equivocation, and no peer slashes the operator.
-/

set_option autoImplicit false
set_option relaxedAutoImplicit false

namespace Fluidic.Consensus.Oscillator

open Library Crypto Operator
open Std (ExtTreeMap LawfulEqCmp)

variable {platform : Platform}

/-- Whether a synthesis of a node signs a certificate: it has an operator, and the operator is
staked. -/
def signs (oscillator : Oscillator platform) : Bool :=
  match oscillator.operatorKeypair with
  | none => false
  | some keypair => oscillator.stakeTable.isStaked (keypair.accountId platform.primitives)

/-- The certificates of a node after the last section of a synthesis: one more, for the tick, when
the node signs. -/
theorem certify_signs (oscillator : Oscillator platform) (keys : KeyRegistry)
    (tick timestampNs : ℕ) (result : SynthesisResult) (root : Bytes32) (hashes : List TxHash)
    (evmHashes : List Evm.H256) :
    (oscillator.certify keys tick timestampNs result root hashes evmHashes).certificates =
        oscillator.certificates ∨
      oscillator.signs = true ∧ ∃ cert : SynthesisCertificate, cert.tick = tick ∧
        (oscillator.certify keys tick timestampNs result root hashes evmHashes).certificates =
          oscillator.certificates.insert tick cert := by
  unfold certify signs
  cases oscillator.operatorKeypair with
  | none => exact .inl rfl
  | some keypair =>
    dsimp only
    cases hstaked : oscillator.stakeTable.isStaked (keypair.accountId platform.primitives) with
    | false => exact .inl rfl
    | true => exact .inr ⟨rfl, _, rfl, rfl⟩

/-- The certificates of a node after a synthesis: one more, for the tick of the counter, when the
node signs. Assumes: the synthesis returns. -/
theorem synthesize_signs {oscillator final : Oscillator platform} {keys : KeyRegistry}
    {order : SynthesisOrder} {timestampNs : ℕ} {result : SynthesisResult} {hashes : List TxHash}
    (hsynthesize : oscillator.synthesize keys order timestampNs = some (final, result, hashes)) :
    final.certificates = oscillator.certificates ∨
      oscillator.signs = true ∧ ∃ cert : SynthesisCertificate,
        cert.tick = oscillator.synthesisTick ∧
        final.certificates = oscillator.certificates.insert oscillator.synthesisTick cert := by
  obtain ⟨waveField, pendingCommutative, metabolicEngine, supplyTracker, rewardPool, _,
    hprepared⟩ :=
    oscillator.prepared_eq keys order
  rcases synthesize_cases hsynthesize with ⟨error, _, rfl, _⟩ |
    ⟨placed, ledger, applied, root, decayed, rejected, _, _, hfinish⟩
  · rw [hprepared]
    exact .inl rfl
  · obtain ⟨evmPool, balances, evmHashes, field, rewards, _, _, _, _, hfinal⟩ :=
      finish_cases hfinish
    rw [hfinal, hprepared]
    exact certify_signs _ keys oscillator.synthesisTick timestampNs result root hashes
      evmHashes

end Fluidic.Consensus.Oscillator

namespace Fluidic.Persistence

open Library Crypto Consensus Operator
open Std (ExtTreeMap LawfulEqCmp)

variable {platform : Platform}

/-! ### Runs with restarts -/

/-- A node, the file with its last snapshot, and the certificates it signed so far. -/
structure OperatorRun (platform : Platform) where
  oscillator : Oscillator platform
  file : Option (Snapshot platform)
  signed : List SynthesisCertificate

/-- The run of a new operator node. -/
def OperatorRun.start (nttSize : ℕ) (keypair : KeyPair) (stakeTable : StakeTable) :
    OperatorRun platform :=
  ⟨.newWithStake nttSize keypair stakeTable, none, []⟩

/-- What happens to an operator node. A restart loads the file into a new node. -/
inductive OperatorEvent
  | serve (request : Request)
  | save (order : SaveOrder)
  | restart (nttSize : ℕ) (stakeTable : StakeTable)

/-- The certificate that a node has for the tick of a synthesis. -/
def issued (oscillator next : Oscillator platform) : Request → List SynthesisCertificate
  | .synthesize _ _ _ => next.certificates[oscillator.synthesisTick]?.toList
  | _ => []

/-- The run after an event. -/
def serveOperator (keypair : KeyPair) (progress : OperatorRun platform) :
    OperatorEvent → Option (OperatorRun platform × List SynthesisCertificate)
  | .serve request =>
    (step platform progress.oscillator request).map fun (next, _) ↦
      let certs := issued progress.oscillator next request
      (⟨next, progress.file, progress.signed ++ certs⟩, certs)
  | .save order =>
    some ({ progress with file := fileAfter progress.file (save progress.oscillator order) }, [])
  | .restart nttSize stakeTable =>
    (load (.newWithStake nttSize keypair stakeTable) progress.file).toOption.map fun loaded ↦
      ({ progress with oscillator := loaded }, [])

/-- How many syntheses there were since the last restart, and what these numbers were, in 64 bits,
at the syntheses that found the operator staked. -/
structure SynthesisCount where
  sinceRestart : ℕ
  whileStaked : List ℕ

/-- The count after an event. -/
def SynthesisCount.add (count : SynthesisCount) (entry : OperatorRun platform × OperatorEvent) :
    SynthesisCount :=
  match entry.2 with
  | .serve (.synthesize _ _ _) =>
    ⟨count.sinceRestart + 1,
      if entry.1.oscillator.signs then count.whileStaked ++ [count.sinceRestart % 2 ^ 64]
      else count.whileStaked⟩
  | .restart _ _ => ⟨0, count.whileStaked⟩
  | _ => count

/-- The count over a whole history. -/
def countSyntheses (history : List (OperatorRun platform × OperatorEvent)) : SynthesisCount :=
  history.foldl SynthesisCount.add ⟨0, []⟩

/-- The counter of a node is the number of syntheses since the last restart, the certificates that
it keeps are among those it signed, and it signed them for the numbers of syntheses while it was
staked, one for a number at most. -/
structure SignedOnce (count : SynthesisCount) (progress : OperatorRun platform) : Prop where
  clock : progress.oscillator.synthesisTick = count.sinceRestart % 2 ^ 64
  kept : ∀ (tick : ℕ) (cert : SynthesisCertificate),
    progress.oscillator.certificates[tick]? = some cert → cert.tick = tick ∧ cert ∈ progress.signed
  counted : ∀ cert ∈ progress.signed, cert.tick ∈ count.whileStaked
  once : ∀ first ∈ progress.signed, ∀ second ∈ progress.signed,
    first.tick = second.tick → first = second

/-! ### One event -/

/-- A restarted node has no certificates, and its counter is zero. Assumes: the file loads. -/
theorem restarted_load {nttSize : ℕ} {keypair : KeyPair} {stakeTable : StakeTable}
    {file : Option (Snapshot platform)} {loaded : Oscillator platform}
    (hload : (load (.newWithStake nttSize keypair stakeTable) file).toOption = some loaded) :
    loaded.certificates = ∅ ∧ loaded.synthesisTick = 0 := by
  unfold load at hload
  cases file with
  | none =>
    obtain rfl := Option.some.inj hload
    exact ⟨rfl, rfl⟩
  | some snapshot =>
    dsimp only at hload
    split_ifs at hload
    · cases hload
    · obtain rfl := Option.some.inj hload
      exact ⟨rfl, rfl⟩

/-- The counter after one more synthesis. -/
theorem wrappingAdd_mod (number : ℕ) :
    wrappingAdd 64 (number % 2 ^ 64) 1 = (number + 1) % 2 ^ 64 := by
  unfold wrappingAdd
  omega

variable {count : SynthesisCount} {progress : OperatorRun platform} {next : Oscillator platform}

/-- A synthesis that signs nothing keeps the invariant. Assumes: the invariant holds, the
certificates stay, and the counter advances. -/
theorem SignedOnce.repeat (hsigned : SignedOnce count progress) {numbers : List ℕ}
    (hnumbers : count.whileStaked ⊆ numbers)
    (hsame : next.certificates = progress.oscillator.certificates)
    (hclock : next.synthesisTick = wrappingAdd 64 progress.oscillator.synthesisTick 1) :
    SignedOnce ⟨count.sinceRestart + 1, numbers⟩
      (⟨next, progress.file,
        progress.signed ++ next.certificates[progress.oscillator.synthesisTick]?.toList⟩ :
          OperatorRun platform) := by
  have hmem : ∀ cert ∈
      progress.signed ++ next.certificates[progress.oscillator.synthesisTick]?.toList,
      cert ∈ progress.signed := by
    intro cert hcert
    rcases List.mem_append.mp hcert with hbefore | hlast
    · exact hbefore
    · rw [hsame, Option.mem_toList] at hlast
      exact (hsigned.kept _ cert hlast).2
  constructor
  · rw [← wrappingAdd_mod, ← hsigned.clock]
    exact hclock
  · intro key cert hkept
    have hlookup : progress.oscillator.certificates[key]? = some cert := by
      rw [← hsame]
      exact hkept
    obtain ⟨htick, hbefore⟩ := hsigned.kept key cert hlookup
    exact ⟨htick, List.mem_append_left _ hbefore⟩
  · exact fun cert hcert ↦ hnumbers (hsigned.counted cert (hmem cert hcert))
  · exact fun first hfirst second hsecond ↦
      hsigned.once first (hmem first hfirst) second (hmem second hsecond)

/-- A signature for the number of a synthesis keeps the invariant. Assumes: the invariant holds, the
certificate is the one added, the counter advances, and no staked synthesis had the number. -/
theorem SignedOnce.sign (hsigned : SignedOnce count progress) {cert : SynthesisCertificate}
    (htick : cert.tick = progress.oscillator.synthesisTick)
    (hinsert : next.certificates = progress.oscillator.certificates.insert
      progress.oscillator.synthesisTick cert)
    (hclock : next.synthesisTick = wrappingAdd 64 progress.oscillator.synthesisTick 1)
    (hfresh : count.sinceRestart % 2 ^ 64 ∉ count.whileStaked) :
    SignedOnce ⟨count.sinceRestart + 1, count.whileStaked ++ [count.sinceRestart % 2 ^ 64]⟩
      (⟨next, progress.file,
        progress.signed ++ next.certificates[progress.oscillator.synthesisTick]?.toList⟩ :
          OperatorRun platform) := by
  have hlast : next.certificates[progress.oscillator.synthesisTick]?.toList = [cert] := by
    rw [hinsert, ExtTreeMap.getElem?_insert_self]
    rfl
  have hnumber : cert.tick = count.sinceRestart % 2 ^ 64 := htick.trans hsigned.clock
  have hnew : ∀ earlier ∈ progress.signed, earlier.tick ≠ cert.tick := by
    intro earlier hearlier hsame
    rw [hnumber] at hsame
    exact hfresh (hsame ▸ hsigned.counted earlier hearlier)
  rw [hlast]
  constructor
  · rw [← wrappingAdd_mod, ← hsigned.clock]
    exact hclock
  · intro key kept hkept
    have hlookup : (progress.oscillator.certificates.insert
        progress.oscillator.synthesisTick cert)[key]? = some kept := by
      rw [← hinsert]
      exact hkept
    rw [ExtTreeMap.getElem?_insert] at hlookup
    split_ifs at hlookup with hkey
    · obtain rfl := Option.some.inj hlookup
      exact ⟨htick.trans (LawfulEqCmp.compare_eq_iff_eq.mp hkey),
        List.mem_append_right _ (List.mem_singleton_self _)⟩
    · obtain ⟨hkeptTick, hbefore⟩ := hsigned.kept key kept hlookup
      exact ⟨hkeptTick, List.mem_append_left _ hbefore⟩
  · intro earlier hearlier
    rcases List.mem_append.mp hearlier with hbefore | hnow
    · exact List.mem_append_left _ (hsigned.counted earlier hbefore)
    · rw [List.mem_singleton.mp hnow, hnumber]
      exact List.mem_append_right _ (List.mem_singleton_self _)
  · intro first hfirst second hsecond hsame
    rcases List.mem_append.mp hfirst with hbefore | hfirst <;>
      rcases List.mem_append.mp hsecond with hbefore' | hsecond
    · exact hsigned.once first hbefore second hbefore' hsame
    · rw [List.mem_singleton.mp hsecond] at hsame
      exact absurd hsame (hnew first hbefore)
    · rw [List.mem_singleton.mp hfirst] at hsame
      exact absurd hsame.symm (hnew second hbefore')
    · rw [List.mem_singleton.mp hfirst, List.mem_singleton.mp hsecond]

/-- Every event keeps the invariant. Assumes: the invariant holds, and the numbers of the staked
syntheses differ up to the event. -/
theorem SignedOnce.serve {keypair : KeyPair} {next : OperatorRun platform} {event : OperatorEvent}
    {certs : List SynthesisCertificate} (hsigned : SignedOnce count progress)
    (hdistinct : (count.add (progress, event)).whileStaked.Nodup)
    (hserve : serveOperator keypair progress event = some (next, certs)) :
    SignedOnce (count.add (progress, event)) next := by
  cases event with
  | save order =>
    obtain ⟨rfl, _⟩ := Prod.mk.inj (Option.some.inj hserve)
    exact ⟨hsigned.clock, hsigned.kept, hsigned.counted, hsigned.once⟩
  | restart nttSize stakeTable =>
    obtain ⟨loaded, hload, hresult⟩ := Option.map_eq_some_iff.mp hserve
    obtain ⟨rfl, _⟩ := Prod.mk.inj hresult
    obtain ⟨hcertificates, hclock⟩ := restarted_load hload
    refine ⟨hclock, fun tick cert hkept ↦ ?_, hsigned.counted, hsigned.once⟩
    rw [show ({ progress with oscillator := loaded } : OperatorRun platform).oscillator.certificates
      = ∅ from hcertificates, ExtTreeMap.getElem?_empty] at hkept
    cases hkept
  | serve request =>
    obtain ⟨⟨served, response⟩, hstep, hresult⟩ := Option.map_eq_some_iff.mp hserve
    obtain ⟨rfl, _⟩ := Prod.mk.inj hresult
    cases hkind : request.isSynthesis with
    | false =>
      have hsame := (Oscillator.step_frame hkind hstep).certificates
      have hclock := (Oscillator.step_clock hkind hstep).tick
      have hnone : issued progress.oscillator served request = [] ∧
          count.add (progress, .serve request) = count := by
        cases request with
        | synthesize keys order timestampNs => cases hkind
        | _ => exact ⟨rfl, rfl⟩
      rw [hnone.1, hnone.2, List.append_nil]
      refine ⟨hclock.trans hsigned.clock, fun tick cert hkept ↦ hsigned.kept tick cert ?_,
        hsigned.counted, hsigned.once⟩
      rw [← hsame]
      exact hkept
    | true =>
      obtain ⟨keys, order, timestampNs, result, hashes, rfl, hsynthesize⟩ :=
        Oscillator.exists_synthesis hkind hstep
      obtain ⟨hclock, -⟩ := Oscillator.synthesize_clock hsynthesize
      rcases Oscillator.synthesize_signs hsynthesize with hsame |
        ⟨hsigns, cert, htick, hinsert⟩
      · refine hsigned.repeat (fun number hnumber ↦ ?_) hsame hclock
        split_ifs
        · exact List.mem_append_left _ hnumber
        · exact hnumber
      · have hcount : count.add (progress, .serve (.synthesize keys order timestampNs)) =
            ⟨count.sinceRestart + 1, count.whileStaked ++ [count.sinceRestart % 2 ^ 64]⟩ :=
          congrArg (SynthesisCount.mk _) (if_pos hsigns)
        rw [hcount] at hdistinct ⊢
        have hfresh : count.sinceRestart % 2 ^ 64 ∉ count.whileStaked := fun hmem ↦
          (List.nodup_append.mp hdistinct).2.2 _ hmem _ (List.mem_singleton_self _) rfl
        exact hsigned.sign htick hinsert hclock hfresh

/-! ### Runs -/

/-- The numbers of a history stay when events follow. -/
theorem prefix_add (count : SynthesisCount) (entry : OperatorRun platform × OperatorEvent) :
    count.whileStaked <+: (count.add entry).whileStaked := by
  obtain ⟨progress, event⟩ := entry
  unfold SynthesisCount.add
  split
  · dsimp only
    split_ifs
    · exact List.prefix_append _ _
    · exact List.prefix_rfl
  · exact List.prefix_rfl
  · exact List.prefix_rfl

/-- In every run of an operator node, with any number of restarts, two signed certificates for one
tick have the same contents, and no peer slashes the operator for any of them. Assumes: the run
starts at a new operator node, and the syntheses that find the operator staked have different
numbers, in 64 bits, when each is counted from the restart before it. -/
theorem noEquivocation_of_reaches {keypair : KeyPair} {nttSize : ℕ} {stakeTable : StakeTable}
    {history : List (OperatorRun platform × OperatorEvent)} {progress : OperatorRun platform}
    (hreaches : Reaches (serveOperator keypair) anyStep
      (OperatorRun.start nttSize keypair stakeTable) history progress)
    (hdistinct : (countSyntheses history).whileStaked.Nodup) :
    (∀ first ∈ progress.signed, ∀ second ∈ progress.signed, first.tick = second.tick →
      first.signingBytes = second.signingBytes) ∧
    ∀ (peerSize : ℕ) (peerKeypair : Option KeyPair) (initial : StakeTable)
      (registry : KeyRegistry) (received : List SynthesisCertificate),
      (∀ operator, initial.isSlashed operator = false) →
      (∀ cert ∈ received, cert.isSigned platform.primitives registry = true →
        cert.operator = keypair.accountId platform.primitives → cert ∈ progress.signed) →
      (Oscillator.afterCertificates platform peerSize peerKeypair initial registry
        received).stakeTable.isSlashed (keypair.accountId platform.primitives) = false := by
  have hsigned : SignedOnce (countSyntheses history) progress := by
    induction hreaches with
    | start =>
      refine ⟨rfl, fun tick cert hkept ↦ ?_, fun cert hcert ↦ absurd hcert List.not_mem_nil,
        fun first hfirst ↦ absurd hfirst List.not_mem_nil⟩
      rw [show (OperatorRun.start nttSize keypair stakeTable :
        OperatorRun platform).oscillator.certificates = ∅ from rfl, ExtTreeMap.getElem?_empty]
        at hkept
      cases hkept
    | next _ _ hserve ih =>
      unfold countSyntheses at hdistinct ih ⊢
      rw [List.foldl_append, List.foldl_cons, List.foldl_nil] at hdistinct ⊢
      exact (ih (hdistinct.sublist (prefix_add _ _).sublist)).serve hdistinct hserve
  refine ⟨fun first hfirst second hsecond htick ↦
    congrArg SynthesisCertificate.signingBytes (hsigned.once first hfirst second hsecond htick),
    fun peerSize peerKeypair initial registry received hunslashed hreceived ↦ ?_⟩
  by_contra hslashed
  rw [Bool.not_eq_false, Oscillator.isSlashed_afterCertificates_iff platform peerSize peerKeypair
    hunslashed] at hslashed
  obtain ⟨-, first, hfirst, second, hsecond, hfirstOperator, hsecondOperator, htick, hfirstSigned,
    hsecondSigned, hdiffer⟩ := hslashed
  exact hdiffer (congrArg SynthesisCertificate.signingBytes
    (hsigned.once first (hreceived first hfirst hfirstSigned hfirstOperator)
      second (hreceived second hsecond hsecondSigned hsecondOperator) htick))

/-- A stake table with one staked operator. -/
def soleStake : StakeTable :=
  ((StakeTable.new StakingConfig.default).stake (sampleAccount 1) StakingConfig.default.minStake).1

/-- A synthesis at a time. -/
def OperatorEvent.sampleSynthesis (timestampNs : ℕ) : OperatorEvent :=
  .serve (.synthesize sampleKeys .forward timestampNs)

/-- A restart before the first signature. -/
def earlyRestart : List OperatorEvent :=
  [.save .forward, .restart 8 soleStake, .sampleSynthesis 1, .sampleSynthesis 2]

/-- Two certificates after a restart, for two ticks. -/
theorem noEquivocation_of_reaches_earlyRestart :
    ∃ (history : List (OperatorRun Platform.sample × OperatorEvent))
      (progress : OperatorRun Platform.sample),
      Reaches (serveOperator ⟨1⟩) anyStep (OperatorRun.start 8 ⟨1⟩ soleStake) history progress ∧
      history.map Prod.snd = earlyRestart ∧ (countSyntheses history).whileStaked = [0, 1] ∧
      progress.signed.map (·.tick) = [0, 1] ∧
      (∀ first ∈ progress.signed, ∀ second ∈ progress.signed, first.tick = second.tick →
        first.signingBytes = second.signingBytes) ∧
      (Oscillator.afterCertificates Platform.sample 8 none soleStake sampleKeys
        progress.signed).stakeTable.isSlashed (sampleAccount 1) = false := by
  have htraces : ((trace (serveOperator ⟨1⟩) anyStep
      (OperatorRun.start 8 ⟨1⟩ soleStake : OperatorRun Platform.sample) earlyRestart).map
        fun traced ↦ ((countSyntheses traced.1).whileStaked,
          traced.2.signed.map (·.tick))) = some ([0, 1], [0, 1]) := by
    decide +kernel
  have hunslashed : ∀ operator, soleStake.isSlashed operator = false :=
    isSlashed_eq_false (by decide +kernel)
  obtain ⟨⟨history, progress⟩, htrace, hresult⟩ := Option.map_eq_some_iff.mp htraces
  obtain ⟨hnumbers, hticks⟩ := Prod.mk.inj hresult
  obtain ⟨hinputs, hreaches⟩ := reaches_of_trace htrace
  have hdistinct : (countSyntheses history).whileStaked.Nodup := by
    rw [hnumbers]
    decide
  obtain ⟨hsame, hpeer⟩ := noEquivocation_of_reaches hreaches hdistinct
  exact ⟨history, progress, hreaches, hinputs, hnumbers, hticks, hsame,
    hpeer 8 none soleStake sampleKeys progress.signed hunslashed fun _ hcert _ _ ↦ hcert⟩

/-- A node that signs a certificate for its first tick, is saved and restarted, and signs another
one for its first tick: a peer that receives both slashes its operator. -/
theorem restart_equivocates :
    ∃ (progress : OperatorRun Platform.sample) (first second : SynthesisCertificate),
      run (serveOperator ⟨1⟩) anyStep (OperatorRun.start 8 ⟨1⟩ soleStake)
        [.sampleSynthesis 1, .save .forward, .restart 8 soleStake, .sampleSynthesis 2] =
          some progress ∧
      progress.signed = [first, second] ∧ first.tick = second.tick ∧
      first.signingBytes ≠ second.signingBytes ∧
      (Oscillator.afterCertificates Platform.sample 8 none soleStake sampleKeys
        progress.signed).stakeTable.isSlashed (sampleAccount 1) = true := by
  have hruns : ((run (serveOperator ⟨1⟩) anyStep
      (OperatorRun.start 8 ⟨1⟩ soleStake : OperatorRun Platform.sample)
      [.sampleSynthesis 1, .save .forward, .restart 8 soleStake, .sampleSynthesis 2]).map
        fun progress ↦ (progress.signed.map (·.tick),
          decide (progress.signed.map (·.signingBytes)).Nodup,
          (Oscillator.afterCertificates Platform.sample 8 none soleStake sampleKeys
            progress.signed).stakeTable.isSlashed (sampleAccount 1))) =
      some ([0, 0], true, true) := by
    decide +kernel
  obtain ⟨progress, hrun, hresult⟩ := Option.map_eq_some_iff.mp hruns
  obtain ⟨hticks, hrest⟩ := Prod.mk.inj hresult
  obtain ⟨hdiffer, hslashed⟩ := Prod.mk.inj hrest
  obtain ⟨first, rest, hsigned, hfirst, hrest⟩ := List.map_eq_cons_iff.mp hticks
  obtain ⟨second, rest, rfl, hsecond, hnil⟩ := List.map_eq_cons_iff.mp hrest
  rw [List.map_eq_nil_iff.mp hnil] at hsigned
  rw [hsigned] at hdiffer
  have hcontents : first.signingBytes ≠ second.signingBytes := by
    simpa using of_decide_eq_true hdiffer
  exact ⟨progress, first, second, hrun, hsigned, hfirst.trans hsecond.symm, hcontents, hslashed⟩

end Fluidic.Persistence
