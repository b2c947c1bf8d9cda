import Fluidic.Node.ChainView
import Fluidic.Node.OperatorStake
import Mathlib.Data.Fintype.Basic

/-!
# A mesh of honest nodes

Several nodes that run the program, each under a keypair of its own, and the signals that they have
gossiped. A step of the mesh is an event at one of the nodes; a signal that was gossiped may arrive
at any node, at any time, any number of times or never. Clients may request anything, and anybody
else may send any signal but a certificate in the name of an operator of the mesh (`Honest`).

In every run of such a mesh the certificate that a node keeps of an operator is the one that the
operator itself signed for the tick, and no node ever slashes an operator of the mesh
(`operators_unslashed`).
-/

set_option autoImplicit false
set_option relaxedAutoImplicit false

namespace Fluidic.Node

open Library Crypto Consensus Operator Api
open Std (ExtTreeMap LawfulEqCmp)

variable {platform : Platform} {ι : Type}

/-! ### The mesh -/

/-- The nodes of a mesh and the signals that they have gossiped. -/
structure Mesh (platform : Platform) (ι : Type) where
  nodes : ι → RunningNode platform
  sent : List Signal

/-- What happens in a mesh: an event at a node, or a round of the loop in which a node announces its
stake again. -/
inductive MeshEvent (ι : Type)
  | serve (node : ι) (event : NodeEvent)
  | announce (node : ι) (timestampNs : ℕ)

/-- A mesh of new nodes. -/
def Mesh.new (platform : Platform) (nttSize : ℕ) (keypairs : ι → KeyPair) (timestampNs : ℕ) :
    Mesh platform ι :=
  ⟨fun node ↦ newNode platform nttSize (keypairs node) timestampNs, []⟩

/-- One step of a mesh. -/
def stepMesh [DecidableEq ι] (packages : RpcPackages platform) (mesh : Mesh platform ι) :
    MeshEvent ι → Option (Mesh platform ι × NodeOutput)
  | .serve node event => (serveNode packages (mesh.nodes node) event).map
      fun (next, output, gossiped) ↦
        (⟨Function.update mesh.nodes node next, mesh.sent ++ gossiped⟩, output)
  | .announce node timestampNs =>
    let stake := StakeShift.sign platform.primitives (mesh.nodes node).localKeypair genesisBalance 0
      timestampNs
    some ({ mesh with sent := mesh.sent ++ [.stake stake] }, .done)

/-- The certificate that an event delivers, if it does. -/
def deliveredCertificate : NodeEvent → Option SynthesisCertificate
  | .gossip (.certificate cert) _ => some cert
  | _ => none

/-- A certificate in the name of an operator of the mesh arrives only after it was gossiped, and the
tick counters are below their last value. -/
def Honest (keypairs : ι → KeyPair) (mesh : Mesh platform ι) : MeshEvent ι → Prop
  | .serve node event => NodeTickFits (mesh.nodes node) event ∧
      ∀ cert ∈ deliveredCertificate event,
        (∃ origin, cert.operator = (keypairs origin).accountId platform.primitives) →
        .certificate cert ∈ mesh.sent
  | .announce _ _ => True

/-! ### Trackers that keep what the operators signed -/

section Faithful

variable {account : ι → AccountId} {signed signed' : ι → ℕ → Option SynthesisCertificate}
  {state : StakedTracker}

/-- The tracker of a node keeps of some operators only certificates that they signed, and none of
them is slashed. -/
structure Faithful (account : ι → AccountId) (signed : ι → ℕ → Option SynthesisCertificate)
    (state : StakedTracker) : Prop where
  kept : ∀ (origin : ι) (tick : ℕ) (cert : SynthesisCertificate),
    state.tracker.byOperatorTick[(account origin, tick)]? = some cert →
    signed origin tick = some cert
  unslashed : ∀ origin : ι, state.stakeTable.isSlashed (account origin) = false

/-- What was signed stays signed. Assumes: the tracker is faithful, and everything that was signed
still is. -/
theorem Faithful.mono (hfaithful : Faithful account signed state)
    (hsigned : ∀ origin tick cert, signed origin tick = some cert →
      signed' origin tick = some cert) : Faithful account signed' state where
  kept origin tick cert hkept := hsigned origin tick cert (hfaithful.kept origin tick cert hkept)
  unslashed := hfaithful.unslashed

/-- A certificate that is kept already does not conflict. Assumes: the tracker keeps the
certificate. -/
theorem conflicts_of_kept {prim : Primitives} {cert : SynthesisCertificate} {keys : KeyRegistry}
    (hkept : state.tracker.byOperatorTick[(cert.operator, cert.tick)]? = some cert) :
    state.conflicts prim cert keys = false := by
  unfold StakedTracker.conflicts
  rw [hkept]
  dsimp only
  rw [decide_eq_false (not_not.mpr rfl), Bool.and_false]

/-- A slash replaces the entry of its operator and no other. -/
theorem entry_slash_of_ne (table : StakeTable) {operator other : AccountId}
    (hne : operator ≠ other) : (table.slash operator).1.entry other = table.entry other := by
  unfold StakeTable.slash StakeTable.entry
  dsimp only
  rw [ExtTreeMap.getD_insert, if_neg (mt LawfulEqCmp.compare_eq_iff_eq.mp hne)]

/-- Delivering a certificate leaves the entry of an operator alone. Assumes: a certificate that
conflicts is of another operator. -/
theorem entry_deliver {prim : Primitives} {cert : SynthesisCertificate} {keys : KeyRegistry}
    {operator : AccountId}
    (hother : state.conflicts prim cert keys = true → cert.operator ≠ operator) :
    (state.deliver prim cert keys).stakeTable.entry operator = state.stakeTable.entry operator := by
  rcases state.deliver_cases prim cert keys with hsame | ⟨hconflicts, hslash⟩ |
    ⟨-, -, hrecord⟩
  · rw [hsame]
  · rw [hslash]
    exact entry_slash_of_ne _ (hother hconflicts)
  · rw [hrecord]

/-- A certificate that conflicts is of none of the operators. Assumes: the tracker is faithful, a
certificate in the name of one of the operators is one that it signed, and the certificate
conflicts.
-/
theorem Faithful.ne_of_conflicts (hfaithful : Faithful account signed state) {prim : Primitives}
    {cert : SynthesisCertificate} {keys : KeyRegistry}
    (hcert : ∀ origin, cert.operator = account origin → signed origin cert.tick = some cert)
    (hconflicts : state.conflicts prim cert keys = true) (origin : ι) :
    cert.operator ≠ account origin := by
  intro hoperator
  obtain ⟨-, kept, hkept⟩ := StakedTracker.of_conflicts hconflicts
  rw [hoperator] at hkept
  have hsigned := hfaithful.kept origin cert.tick kept hkept
  rw [hcert origin hoperator] at hsigned
  rw [← Option.some.inj hsigned, ← hoperator] at hkept
  rw [conflicts_of_kept hkept] at hconflicts
  cases hconflicts

/-- Delivering a certificate keeps a tracker faithful. Assumes: the tracker is faithful, and a
certificate in the name of one of the operators is one that it signed. -/
theorem Faithful.deliver (hfaithful : Faithful account signed state) (prim : Primitives)
    {cert : SynthesisCertificate} (keys : KeyRegistry)
    (hcert : ∀ origin, cert.operator = account origin → signed origin cert.tick = some cert) :
    Faithful account signed (state.deliver prim cert keys) := by
  refine ⟨?_, fun origin ↦ ?_⟩
  · rcases state.deliver_cases prim cert keys with hsame | ⟨-, hslash⟩ | ⟨-, -, hrecord⟩
    · rw [hsame]
      exact hfaithful.kept
    · rw [hslash]
      exact hfaithful.kept
    rw [hrecord]
    intro origin tick kept hkept
    unfold CertificateTracker.record at hkept
    dsimp only at hkept
    rw [ExtTreeMap.getElem?_insert] at hkept
    split_ifs at hkept with hself
    · obtain ⟨hoperator, rfl⟩ := Prod.mk.inj (LawfulEqCmp.compare_eq_iff_eq.mp hself)
      obtain rfl := Option.some.inj hkept
      exact hcert origin hoperator
    · exact hfaithful.kept origin tick kept hkept
  · unfold StakeTable.isSlashed
    rw [entry_deliver fun hconflicts ↦ hfaithful.ne_of_conflicts hcert hconflicts origin]
    exact hfaithful.unslashed origin

/-- Locking stakes keeps a tracker faithful. Assumes: the tracker is faithful, and the step locks
stakes only. -/
theorem Faithful.lock (hfaithful : Faithful account signed state) {signals : Set Signal}
    {next : StakedTracker} (htracker : next.tracker = state.tracker)
    (hlocks : Locks signals state.stakeTable next.stakeTable) :
    Faithful account signed next where
  kept origin tick cert hkept := hfaithful.kept origin tick cert (by rwa [← htracker])
  unslashed origin := (hlocks.isSlashed_eq _).trans (hfaithful.unslashed origin)

end Faithful

/-! ### What the operators signed -/

/-- The certificate that a node of a mesh signed for a tick. -/
def signedBy (mesh : Mesh platform ι) (origin : ι) (tick : ℕ) : Option SynthesisCertificate :=
  (mesh.nodes origin).oscillator.certificates[tick]?

/-- The operators of a mesh sign one certificate for a tick at most, of the ticks behind them, what
is gossiped in their names is signed by them, and all trackers are faithful to them. -/
structure Certified (keypairs : ι → KeyPair) (mesh : Mesh platform ι) : Prop where
  keypair : ∀ node, (mesh.nodes node).oscillator.operatorKeypair = some (keypairs node)
  fits : ∀ node, (mesh.nodes node).oscillator.synthesisTick < 2 ^ 64
  below : ∀ node tick cert, signedBy mesh node tick = some cert →
    tick < (mesh.nodes node).oscillator.synthesisTick
  sent : ∀ origin cert, .certificate cert ∈ mesh.sent →
    cert.operator = (keypairs origin).accountId platform.primitives →
    signedBy mesh origin cert.tick = some cert
  faithful : ∀ node, Faithful (fun origin ↦ (keypairs origin).accountId platform.primitives)
    (signedBy mesh) (mesh.nodes node).oscillator.staked

namespace Certified

variable {keypairs : ι → KeyPair} {mesh : Mesh platform ι}

/-- A round of announcements keeps the mesh certified. Assumes: the mesh is certified. -/
theorem announce (hcertified : Certified keypairs mesh) (stake : StakeShift) :
    Certified keypairs { mesh with sent := mesh.sent ++ [.stake stake] } where
  keypair := hcertified.keypair
  fits := hcertified.fits
  below := hcertified.below
  sent origin cert hmem hoperator := by
    rcases List.mem_append.mp hmem with hearlier | hnew
    · exact hcertified.sent origin cert hearlier hoperator
    · cases List.mem_singleton.mp hnew
  faithful := hcertified.faithful

variable [DecidableEq ι]

/-- What was signed stays signed while a node keeps its certificates. Assumes: the node keeps its
certificates. -/
theorem signedBy_update {node : ι} {next : RunningNode platform} {sent : List Signal}
    (hkeeps : ∀ tick cert, signedBy mesh node tick = some cert →
      next.oscillator.certificates[tick]? = some cert) :
    ∀ origin tick cert, signedBy mesh origin tick = some cert →
      signedBy ⟨Function.update mesh.nodes node next, sent⟩ origin tick = some cert := by
  intro origin tick cert hsigned
  unfold signedBy
  dsimp only
  by_cases hself : origin = node
  · subst hself
    rw [Function.update_self]
    exact hkeeps tick cert hsigned
  · rwa [Function.update_of_ne hself]

/-- A step of one node keeps the mesh certified. Assumes: the mesh is certified, the accounts of the
operators are different, and the node keeps its keypair and its certificates, which are of the ticks
behind it, gossips only certificates that it signed, and keeps its tracker faithful. -/
theorem update (hcertified : Certified keypairs mesh)
    (hdistinct : Function.Injective fun origin ↦
      (keypairs origin).accountId platform.primitives)
    {node : ι} {next : RunningNode platform} {gossiped : List Signal}
    (hkeypair : next.oscillator.operatorKeypair = some (keypairs node))
    (hfits : next.oscillator.synthesisTick < 2 ^ 64)
    (hkeeps : ∀ tick cert, signedBy mesh node tick = some cert →
      next.oscillator.certificates[tick]? = some cert)
    (hbelow : ∀ (tick : ℕ) (cert : SynthesisCertificate),
      next.oscillator.certificates[tick]? = some cert → tick < next.oscillator.synthesisTick)
    (hgossiped : ∀ cert, .certificate cert ∈ gossiped →
      cert.operator = (keypairs node).accountId platform.primitives ∧
        next.oscillator.certificates[cert.tick]? = some cert)
    (hfaithful : Faithful (fun origin ↦ (keypairs origin).accountId platform.primitives)
      (signedBy ⟨Function.update mesh.nodes node next, mesh.sent ++ gossiped⟩)
      next.oscillator.staked) :
    Certified keypairs ⟨Function.update mesh.nodes node next, mesh.sent ++ gossiped⟩ := by
  have hmono := @signedBy_update _ _ mesh _ node next (mesh.sent ++ gossiped) hkeeps
  refine ⟨fun other ↦ ?_, fun other ↦ ?_, fun other tick cert hsigned ↦ ?_,
    fun origin cert hmem hoperator ↦ ?_, fun other ↦ ?_⟩
  · by_cases hself : other = node
    · subst hself
      dsimp only
      rwa [Function.update_self]
    · dsimp only
      rw [Function.update_of_ne hself]
      exact hcertified.keypair other
  · by_cases hself : other = node
    · subst hself
      dsimp only
      rwa [Function.update_self]
    · dsimp only
      rw [Function.update_of_ne hself]
      exact hcertified.fits other
  · unfold signedBy at hsigned
    dsimp only at hsigned ⊢
    by_cases hself : other = node
    · subst hself
      rw [Function.update_self] at hsigned ⊢
      exact hbelow tick cert hsigned
    · rw [Function.update_of_ne hself] at hsigned ⊢
      exact hcertified.below other tick cert hsigned
  · rcases List.mem_append.mp hmem with hearlier | hnew
    · exact hmono origin cert.tick cert (hcertified.sent origin cert hearlier hoperator)
    · obtain ⟨hown, hsigned⟩ := hgossiped cert hnew
      obtain rfl : origin = node := hdistinct (hoperator.symm.trans hown)
      unfold signedBy
      dsimp only
      rwa [Function.update_self]
  · by_cases hself : other = node
    · subst hself
      dsimp only
      rwa [Function.update_self]
    · dsimp only
      rw [Function.update_of_ne hself]
      exact (hcertified.faithful other).mono hmono

/-- An event at a node keeps the mesh certified. Assumes: the mesh is certified, the accounts of the
operators are different, and the event is honest and served. -/
theorem serve (hcertified : Certified keypairs mesh)
    (hdistinct : Function.Injective fun origin ↦
      (keypairs origin).accountId platform.primitives)
    {packages : RpcPackages platform} {node : ι} {event : NodeEvent}
    (hhonest : Honest keypairs mesh (.serve node event)) {next : RunningNode platform}
    {output : NodeOutput} {gossiped : List Signal}
    (hserve : serveNode packages (mesh.nodes node) event = some (next, output, gossiped)) :
    Certified keypairs ⟨Function.update mesh.nodes node next, mesh.sent ++ gossiped⟩ := by
  obtain ⟨hfits, hdelivered⟩ := hhonest
  have hkeypair := hcertified.keypair node
  have hbelow := hcertified.below node
  rcases serveNode_cases hserve with
    ⟨order, timestampNs, result, hashes, rfl, hsynthesize, -, hout⟩ |
    ⟨cert, nowNs, rfl, hnext, hout⟩ | ⟨-, hnone, history, hplain⟩
  · obtain ⟨-, rfl⟩ := Prod.mk.inj hout
    have htick : next.oscillator.synthesisTick =
        (mesh.nodes node).oscillator.synthesisTick + 1 :=
      (Oscillator.synthesize_clock hsynthesize).1.trans (wrappingAdd_of_lt hfits)
    have hlater : next.oscillator.synthesisTick < 2 ^ 64 := htick ▸ hfits
    have hlatest : ∀ cert, Signal.certificate cert ∈
        next.latestCertificate.toList.map Signal.certificate →
        next.oscillator.certificates[(mesh.nodes node).oscillator.synthesisTick]? = some cert := by
      intro cert hmem
      obtain ⟨latest, hlatest, heq⟩ := List.mem_map.mp hmem
      obtain rfl := Signal.certificate.inj heq
      rw [Option.mem_toList] at hlatest
      unfold RunningNode.latestCertificate at hlatest
      rwa [htick, Nat.add_sub_cancel] at hlatest
    obtain ⟨hsame, hsilent | ⟨cert, keypair, hown, hoperator, hcertTick, hinsert, hdeliver⟩⟩ :=
      Oscillator.synthesize_certifies hsynthesize
    · obtain ⟨hcertificates, hstaked⟩ := hsilent
      have hkeeps : ∀ tick cert, signedBy mesh node tick = some cert →
          next.oscillator.certificates[tick]? = some cert :=
        fun tick cert hsigned ↦ by rwa [hcertificates]
      refine hcertified.update hdistinct (hsame.trans hkeypair) hlater hkeeps
        (fun tick cert hsigned ↦ ?_) (fun cert hmem ↦ ?_) ?_
      · rw [hcertificates] at hsigned
        have hearlier := hbelow tick cert hsigned
        omega
      · have hsigned := hlatest cert hmem
        rw [hcertificates] at hsigned
        exact absurd (hbelow _ cert hsigned) (lt_irrefl _)
      · rw [hstaked]
        exact (hcertified.faithful node).mono (signedBy_update hkeeps)
    · rw [hkeypair] at hown
      obtain rfl := Option.some.inj hown
      -- no certificate for the tick was signed before
      have hkeeps : ∀ tick cert, signedBy mesh node tick = some cert →
          next.oscillator.certificates[tick]? = some cert := by
        intro tick earlier hsigned
        have hearlier := hbelow tick earlier hsigned
        rw [hinsert, getElem?_insert_of_ne _ (by omega)]
        exact hsigned
      have hnew : next.oscillator.certificates[cert.tick]? = some cert := by
        rw [hinsert, hcertTick, ExtTreeMap.getElem?_insert_self]
      refine hcertified.update hdistinct (hsame.trans hkeypair) hlater hkeeps
        (fun tick earlier hsigned ↦ ?_) (fun latest hmem ↦ ?_) ?_
      · rw [hinsert, ExtTreeMap.getElem?_insert] at hsigned
        split_ifs at hsigned with hself
        · have hsameTick := LawfulEqCmp.compare_eq_iff_eq.mp hself
          omega
        · have hearlier := hbelow tick earlier hsigned
          omega
      · have hsigned := hlatest latest hmem
        rw [← hcertTick, hnew] at hsigned
        obtain rfl := Option.some.inj hsigned
        exact ⟨hoperator, hnew⟩
      · rw [hdeliver]
        refine ((hcertified.faithful node).mono (signedBy_update hkeeps)).deliver _ _
          fun origin hnamed ↦ ?_
        obtain rfl : origin = node := hdistinct (hnamed.symm.trans hoperator)
        unfold signedBy
        dsimp only
        rwa [Function.update_self]
  · obtain ⟨-, rfl⟩ := Prod.mk.inj hout
    have hoscillator : next.oscillator = ((mesh.nodes node).oscillator.ingestCertificate cert
        (mesh.nodes node).registry).1 := by rw [hnext]
    have hcertificates : next.oscillator.certificates = (mesh.nodes node).oscillator.certificates :=
      by rw [hoscillator]; rfl
    have htick : next.oscillator.synthesisTick = (mesh.nodes node).oscillator.synthesisTick := by
      rw [hoscillator]; rfl
    have hkeeps : ∀ tick kept, signedBy mesh node tick = some kept →
        next.oscillator.certificates[tick]? = some kept :=
      fun tick kept hsigned ↦ by rwa [hcertificates]
    refine hcertified.update hdistinct ?_ (htick ▸ hcertified.fits node) hkeeps
      (fun tick kept hsigned ↦ ?_) (fun other hmem ↦ absurd hmem List.not_mem_nil) ?_
    · rw [hoscillator]
      exact hkeypair
    · rw [hcertificates] at hsigned
      rw [htick]
      exact hbelow tick kept hsigned
    · rw [hoscillator, Oscillator.staked_ingestCertificate]
      refine ((hcertified.faithful node).mono (signedBy_update hkeeps)).deliver _ _
        fun origin hnamed ↦ ?_
      exact signedBy_update hkeeps _ _ _
        (hcertified.sent origin cert (hdelivered cert rfl ⟨origin, hnamed⟩) hnamed)
  · have hframe := PlainFrame.of_reaches hplain
    have hkeeps : ∀ tick cert, signedBy mesh node tick = some cert →
        next.oscillator.certificates[tick]? = some cert :=
      fun tick cert hsigned ↦ by rwa [hframe.certificates]
    refine hcertified.update hdistinct (hframe.operatorKeypair.trans hkeypair)
      (hframe.tick ▸ hcertified.fits node) hkeeps (fun tick cert hsigned ↦ ?_)
      (fun cert hmem ↦ absurd hmem (hnone cert)) ?_
    · rw [hframe.certificates] at hsigned
      rw [hframe.tick]
      exact hbelow tick cert hsigned
    · exact ((hcertified.faithful node).mono (signedBy_update hkeeps)).lock hframe.tracker
        hframe.locks

/-- An honest step keeps the mesh certified. Assumes: the mesh is certified, the accounts of the
operators are different, and the step is honest and taken. -/
theorem step (hcertified : Certified keypairs mesh)
    (hdistinct : Function.Injective fun origin ↦
      (keypairs origin).accountId platform.primitives)
    {packages : RpcPackages platform} {event : MeshEvent ι} (hhonest : Honest keypairs mesh event)
    {after : Mesh platform ι} {output : NodeOutput}
    (hstep : stepMesh packages mesh event = some (after, output)) : Certified keypairs after := by
  cases event with
  | serve node event =>
    obtain ⟨⟨next, output', gossiped⟩, hserve, hresult⟩ := Option.map_eq_some_iff.mp hstep
    obtain ⟨rfl, -⟩ := Prod.mk.inj hresult
    exact hcertified.serve hdistinct hhonest hserve
  | announce node timestampNs =>
    obtain ⟨rfl, -⟩ := Prod.mk.inj (Option.some.inj hstep)
    exact hcertified.announce _

end Certified

/-- A node that has just started: at the tick zero, with its keypair, without certificates, with an
empty tracker and with nobody slashed. -/
structure JustStarted (keypair : KeyPair) (oscillator : Oscillator platform) : Prop where
  operatorKeypair : oscillator.operatorKeypair = some keypair
  tick : oscillator.synthesisTick = 0
  certificates : oscillator.certificates = ∅
  tracker : oscillator.certificateTracker = .new
  unslashed : ∀ operator, oscillator.stakeTable.isSlashed operator = false

theorem justStarted_newNode (platform : Platform) (nttSize : ℕ) (keypair : KeyPair)
    (timestampNs : ℕ) :
    JustStarted keypair (newNode platform nttSize keypair timestampNs).oscillator := by
  obtain ⟨history, hreaches⟩ :=
    performs_boot (.newWithKeypair nttSize : Oscillator platform) keypair timestampNs
  have hframe := PlainFrame.of_reaches hreaches
  exact ⟨hframe.operatorKeypair, hframe.tick, hframe.certificates, hframe.tracker,
    fun operator ↦ (hframe.locks.isSlashed_eq operator).trans rfl⟩

/-- A mesh of nodes that have just started, in which nothing was gossiped, is certified. Assumes:
every node has just started, and nothing was gossiped. -/
theorem Certified.of_justStarted {keypairs : ι → KeyPair} {mesh : Mesh platform ι}
    (hstarted : ∀ node, JustStarted (keypairs node) (mesh.nodes node).oscillator)
    (hsent : mesh.sent = []) : Certified keypairs mesh := by
  have hnone (node : ι) (tick : ℕ) : signedBy mesh node tick = none := by
    unfold signedBy
    rw [(hstarted node).certificates, ExtTreeMap.getElem?_empty]
  refine ⟨fun node ↦ (hstarted node).operatorKeypair, fun node ↦ ?_,
    fun node tick cert hsigned ↦ ?_, fun origin cert hmem ↦ ?_,
    fun node ↦ ⟨fun origin tick cert hkept ↦ ?_, fun origin ↦ (hstarted node).unslashed _⟩⟩
  · rw [(hstarted node).tick]
    exact Nat.two_pow_pos 64
  · rw [hnone] at hsigned
    cases hsigned
  · rw [hsent] at hmem
    cases hmem
  · unfold Oscillator.staked at hkept
    dsimp only at hkept
    rw [(hstarted node).tracker] at hkept
    exact absurd (mem_iff_exists_getElem?.mpr ⟨cert, hkept⟩) ExtTreeMap.not_mem_empty

/-- A mesh of new nodes is certified. -/
theorem Certified.new (platform : Platform) (nttSize : ℕ) (keypairs : ι → KeyPair)
    (timestampNs : ℕ) :
    Certified keypairs (Mesh.new platform nttSize keypairs timestampNs) :=
  .of_justStarted (fun node ↦ justStarted_newNode platform nttSize (keypairs node) timestampNs) rfl

/-! ### Runs -/

/-- In every run of an honest mesh no node slashes an operator of the mesh, and the certificate that
a node keeps of an operator for a tick is the one that the operator signed for it, so that all nodes
that keep one keep the same. Assumes: the accounts of the operators are different, the nodes are new
where the run starts, a certificate in an operator's name arrives only after the operator gossiped
it, and no tick counter wraps. -/
theorem operators_unslashed [DecidableEq ι] {packages : RpcPackages platform} {nttSize : ℕ}
    {keypairs : ι → KeyPair} {timestampNs : ℕ}
    (hdistinct : Function.Injective fun origin ↦
      (keypairs origin).accountId platform.primitives)
    {history : List (Mesh platform ι × MeshEvent ι)} {mesh : Mesh platform ι}
    (hreaches : Reaches (stepMesh packages) (Honest keypairs)
      (Mesh.new platform nttSize keypairs timestampNs) history mesh) (node origin : ι) :
    (mesh.nodes node).oscillator.stakeTable.isSlashed
      ((keypairs origin).accountId platform.primitives) = false ∧
    ∀ (tick : ℕ) (cert : SynthesisCertificate),
      (mesh.nodes node).oscillator.certificateTracker.byOperatorTick[
        ((keypairs origin).accountId platform.primitives, tick)]? = some cert →
      (mesh.nodes origin).oscillator.certificates[tick]? = some cert ∧
        tick < (mesh.nodes origin).oscillator.synthesisTick := by
  have hcertified : Certified keypairs mesh :=
    hreaches.invariant (Certified.new platform nttSize keypairs timestampNs)
      fun _ _ _ _ hhonest hbefore hstep ↦ hbefore.step hdistinct hhonest hstep
  have hfaithful := hcertified.faithful node
  exact ⟨hfaithful.unslashed origin, fun tick cert hkept ↦ ⟨hfaithful.kept origin tick cert hkept,
    hcertified.below origin tick cert (hfaithful.kept origin tick cert hkept)⟩⟩

/-! ### Two nodes -/

deriving instance DecidableEq for Signal

instance [Fintype ι] (keypairs : ι → KeyPair) :
    DecidableRel (Honest keypairs : Mesh platform ι → MeshEvent ι → Prop) :=
  fun mesh event ↦ match event with
    | .serve node event => inferInstanceAs (Decidable (NodeTickFits (mesh.nodes node) event ∧
        ∀ cert ∈ deliveredCertificate event,
          (∃ origin, cert.operator = (keypairs origin).accountId platform.primitives) →
          .certificate cert ∈ mesh.sent))
    | .announce _ _ => isTrue trivial

/-- The keypairs of two operators. -/
def twoKeypairs (node : Fin 2) : KeyPair := ⟨BitVec.ofNat 256 (node.val + 1)⟩

/-- A mesh of two new nodes. -/
def twoNodes : Mesh Platform.sample (Fin 2) := Mesh.new Platform.sample 8 twoKeypairs 0

/-- The first node announces its stake to the second, and synthesizes. -/
def firstRound : List (MeshEvent (Fin 2)) :=
  [.announce 0 5,
    .serve 1 (.gossip (.stake (.sign .sample (twoKeypairs 0) genesisBalance 0 5)) 1),
    .serve 0 (.synthesize .forward 7)]

/-- A signal arrives at both nodes. -/
def secondRound (signal : Signal) : List (MeshEvent (Fin 2)) :=
  [.serve 1 (.gossip signal 8), .serve 0 (.gossip signal 9)]

/-- The first node keeps its certificate, which comes back to it. -/
theorem operators_unslashed_twoNodes :
    ∃ (history : List (Mesh Platform.sample (Fin 2) × MeshEvent (Fin 2)))
      (mesh : Mesh Platform.sample (Fin 2)) (cert : SynthesisCertificate),
      Reaches (stepMesh (.sample _)) (Honest twoKeypairs) twoNodes history mesh ∧
      (mesh.nodes 0).oscillator.certificateTracker.byOperatorTick[
        ((twoKeypairs 0).accountId .sample, 0)]? = some cert ∧
      (mesh.nodes 0).oscillator.stakeTable.isSlashed ((twoKeypairs 0).accountId .sample) = false ∧
      (mesh.nodes 0).oscillator.certificates[0]? = some cert := by
  have hdistinct : Function.Injective fun origin ↦ (twoKeypairs origin).accountId .sample := by
    decide +kernel
  have hruns : ((run (stepMesh (.sample _)) (Honest twoKeypairs) twoNodes firstRound).bind
      fun mesh ↦ mesh.sent[1]?.bind fun signal ↦
        (run (stepMesh (.sample _)) (Honest twoKeypairs) mesh (secondRound signal)).bind fun mesh ↦
          (mesh.nodes 0).oscillator.certificateTracker.byOperatorTick[
            ((twoKeypairs 0).accountId .sample, 0)]?).isSome := by
    decide +kernel
  obtain ⟨cert, hcert⟩ := Option.isSome_iff_exists.mp hruns
  obtain ⟨middle, hfirst, hrest⟩ := Option.bind_eq_some_iff.mp hcert
  obtain ⟨signal, -, hrest⟩ := Option.bind_eq_some_iff.mp hrest
  obtain ⟨mesh, hsecond, hkept⟩ := Option.bind_eq_some_iff.mp hrest
  obtain ⟨earlier, -, hearlier⟩ := reaches_of_run hfirst
  obtain ⟨later, -, hlater⟩ := reaches_of_run hsecond
  have hreaches := hearlier.trans hlater
  obtain ⟨hunslashed, hsigned⟩ := operators_unslashed hdistinct hreaches 0 0
  exact ⟨_, mesh, cert, hreaches, hkept, hunslashed, (hsigned 0 cert hkept).1⟩

end Fluidic.Node
