import Fluidic.Node.Mesh

/-!
# Stakes in a mesh

Every announcement that a node of a mesh signs has the nonce zero, and a node records the nonce of
an announcement before it looks at the balance of the operator. So the stake of an operator at a
node is settled by the first announcement in its name that the node receives, or by the first
registration of its account: from then on it never changes (`stakes_settled`). An operator that a
node refused for want of a balance is never eligible at that node.
-/

set_option autoImplicit false
set_option relaxedAutoImplicit false

namespace Fluidic.Node

open Library Crypto Consensus Operator Api
open Std (ExtTreeMap LawfulEqCmp)

variable {platform : Platform} {ι : Type}

/-! ### Announcements -/

/-- The announcement that an event delivers, if it does. -/
def deliveredStake : NodeEvent → Option StakeShift
  | .gossip (.stake stake) _ => some stake
  | _ => none

/-- The step is honest, and an announcement in the name of an operator of the mesh arrives only
after it was gossiped. -/
def Closed (keypairs : ι → KeyPair) (mesh : Mesh platform ι) (event : MeshEvent ι) : Prop :=
  Honest keypairs mesh event ∧
    match event with
    | .serve _ event => ∀ stake ∈ deliveredStake event,
        (∃ origin, stake.operator = (keypairs origin).accountId platform.primitives) →
        .stake stake ∈ mesh.sent
    | .announce _ _ => True

/-- An announcement that an event brings is delivered to the node, or signed by it with the nonce
zero. Assumes: the event brings the announcement. -/
theorem delivered_or_zero_of_mem {node : RunningNode platform} {event : NodeEvent}
    {stake : StakeShift} (hmem : .stake stake ∈ node.brings event) :
    deliveredStake event = some stake ∨ stake.nonce = 0 := by
  cases event with
  | gossip signal nowNs =>
    obtain rfl := Set.mem_singleton_iff.mp hmem
    exact .inl rfl
  | submitStateful request nowNs =>
    obtain ⟨shift, hshift⟩ := hmem
    cases hshift
  | submitCommutative request =>
    obtain ⟨shift, hshift⟩ := hmem
    cases hshift
  | submitOperatorStake amount timestampNs =>
    unfold RunningNode.brings at hmem
    dsimp only at hmem
    split at hmem
    · obtain rfl := Signal.stake.inj (Set.mem_singleton_iff.mp hmem)
      exact .inr rfl
    · exact hmem.elim
  | generate => cases Set.mem_singleton_iff.mp hmem
  | _ => exact hmem.elim

/-- The route that announces a stake signs the nonce zero. Assumes: the route succeeds. -/
theorem nonce_of_submitOperatorStake {node : RunningNode platform} {amount : String}
    {timestampNs : ℕ} {staked : StakeShift × Bool}
    (hanswer : (node.submitOperatorStake amount timestampNs).2 = .ok staked) :
    staked.1.nonce = 0 := by
  unfold RunningNode.submitOperatorStake at hanswer
  cases hamount : parseU128 amount with
  | error status =>
    rw [hamount] at hanswer
    cases hanswer
  | ok amount =>
    rw [hamount] at hanswer
    dsimp only at hanswer
    cases hkeypair : node.operatorKeypair with
    | none =>
      rw [hkeypair] at hanswer
      cases hanswer
    | some keypair =>
      rw [hkeypair] at hanswer
      dsimp only at hanswer
      split_ifs at hanswer
      rw [← Except.ok.inj hanswer]
      rfl

/-- What a node gossips: a registration, an announcement with the nonce zero, a certificate or the
shift of its generator. Assumes: the event is served, and the signal is gossiped. -/
theorem gossiped_cases {packages : RpcPackages platform} {node next : RunningNode platform}
    {event : NodeEvent} {output : NodeOutput × List Signal}
    (hserve : serveNode packages node event = some (next, output)) {signal : Signal}
    (hmem : signal ∈ output.2) :
    (∃ reg, signal = .registration reg) ∨ (∃ stake, signal = .stake stake ∧ stake.nonce = 0) ∨
      (∃ cert, signal = .certificate cert) ∨ signal = .commutative node.generatedShift := by
  cases event with
  | submitOperatorStake amount timestampNs =>
    obtain ⟨rfl, rfl⟩ := Prod.mk.inj (Option.some.inj hserve)
    obtain ⟨staked, hanswer, rfl⟩ := List.mem_map.mp hmem
    change staked ∈ (node.submitOperatorStake amount timestampNs).2.toOption.toList at hanswer
    cases hresult : (node.submitOperatorStake amount timestampNs).2 with
    | error status =>
      rw [hresult] at hanswer
      cases hanswer
    | ok answer =>
      rw [hresult] at hanswer
      obtain rfl := List.mem_singleton.mp hanswer
      exact .inr (.inl ⟨_, rfl, nonce_of_submitOperatorStake hresult⟩)
  | synthesize order timestampNs =>
    obtain ⟨⟨node', result, hashes⟩, -, hresult⟩ := Option.map_eq_some_iff.mp hserve
    obtain ⟨rfl, rfl⟩ := Prod.mk.inj hresult
    obtain ⟨cert, -, rfl⟩ := List.mem_map.mp hmem
    exact .inr (.inr (.inl ⟨cert, rfl⟩))
  | registerAccount publicKeyHex =>
    obtain ⟨rfl, rfl⟩ := Prod.mk.inj (Option.some.inj hserve)
    obtain ⟨reg, -, rfl⟩ := List.mem_map.mp hmem
    exact .inl ⟨reg, rfl⟩
  | generate =>
    obtain ⟨rfl, rfl⟩ := Prod.mk.inj (Option.some.inj hserve)
    exact .inr (.inr (.inr (List.mem_singleton.mp hmem)))
  | _ =>
    obtain ⟨rfl, rfl⟩ := Prod.mk.inj (Option.some.inj hserve)
    cases hmem

/-- An announcement that a node gossips has the nonce zero. Assumes: the event is served. -/
theorem nonce_of_gossiped {packages : RpcPackages platform} {node next : RunningNode platform}
    {event : NodeEvent} {output : NodeOutput × List Signal}
    (hserve : serveNode packages node event = some (next, output)) {stake : StakeShift}
    (hmem : .stake stake ∈ output.2) : stake.nonce = 0 := by
  rcases gossiped_cases hserve hmem with ⟨_, heq⟩ | ⟨_, heq, hnonce⟩ | ⟨_, heq⟩ | heq
  · cases heq
  · rw [Signal.stake.inj heq]
    exact hnonce
  · cases heq
  · cases heq

/-- Everything that is announced in a mesh has the nonce zero. -/
def AnnouncesZero (mesh : Mesh platform ι) : Prop :=
  ∀ stake, .stake stake ∈ mesh.sent → stake.nonce = 0

/-! ### Steps -/

section Steps

variable {keypairs : ι → KeyPair} {mesh : Mesh platform ι}

/-- Once a node has recorded a nonce of an operator, an event at it leaves the entry of the operator
alone. Assumes: the mesh is certified and announces the nonce zero, the step is closed, the event is
served, and a nonce is recorded. -/
theorem entry_serveNode (hcertified : Certified keypairs mesh) (hzero : AnnouncesZero mesh)
    {packages : RpcPackages platform} {node : ι} {event : NodeEvent}
    (hclosed : Closed keypairs mesh (.serve node event)) {next : RunningNode platform}
    {output : NodeOutput × List Signal}
    (hserve : serveNode packages (mesh.nodes node) event = some (next, output)) {origin : ι}
    {highest : ℕ} (hrecorded : (mesh.nodes node).oscillator.seenNonces[
      ((keypairs origin).accountId platform.primitives, (0 : DomainId))]? = some highest) :
    next.oscillator.stakeTable.entry ((keypairs origin).accountId platform.primitives) =
      (mesh.nodes node).oscillator.stakeTable.entry
        ((keypairs origin).accountId platform.primitives) := by
  obtain ⟨⟨hfits, hcertificate⟩, hstake⟩ := hclosed
  have hfaithful := hcertified.faithful node
  rcases serveNode_cases hserve with
    ⟨order, timestampNs, result, hashes, rfl, hsynthesize, -, -⟩ |
    ⟨cert, nowNs, rfl, hnext, -⟩ | ⟨-, -, history, hplain⟩
  · obtain ⟨-, ⟨-, hstaked⟩ | ⟨cert, keypair, hown, hoperator, hcertTick, hinsert, hdeliver⟩⟩ :=
      Oscillator.synthesize_certifies hsynthesize
    · exact congrArg (fun state : StakedTracker ↦ state.stakeTable.entry _) hstaked
    · have hentry := congrArg (fun state : StakedTracker ↦ state.stakeTable.entry
        ((keypairs origin).accountId platform.primitives)) hdeliver
      refine hentry.trans (entry_deliver fun hconflicts ↦ ?_)
      -- no certificate of the node for the tick is kept
      obtain ⟨-, kept, hkept⟩ := StakedTracker.of_conflicts hconflicts
      rw [hcertified.keypair node] at hown
      obtain rfl := Option.some.inj hown
      rw [hoperator, hcertTick] at hkept
      exact absurd (hcertified.below node _ kept (hfaithful.kept node _ kept hkept))
        (lt_irrefl _)
  · have hoscillator : next.oscillator = ((mesh.nodes node).oscillator.ingestCertificate cert
        (mesh.nodes node).registry).1 := by rw [hnext]
    have hentry := congrArg (fun state : StakedTracker ↦ state.stakeTable.entry
      ((keypairs origin).accountId platform.primitives))
      ((mesh.nodes node).oscillator.staked_ingestCertificate cert (mesh.nodes node).registry)
    rw [hoscillator]
    refine hentry.trans (entry_deliver fun hconflicts ↦ ?_)
    exact hfaithful.ne_of_conflicts (fun named hnamed ↦ hcertified.sent named cert
      (hcertificate cert rfl ⟨named, hnamed⟩) hnamed) hconflicts origin
  · refine entry_of_recorded hplain hrecorded fun stake hmem hoperator ↦ ?_
    have hnonce : stake.nonce = 0 := by
      rcases delivered_or_zero_of_mem hmem with hdelivered | hown
      · exact hzero stake (hstake stake hdelivered ⟨origin, hoperator⟩)
      · exact hown
    omega

/-- A closed step of a mesh leaves the entry of an operator at a node alone once the node has
recorded a nonce of the operator, and the node has a recorded nonce after it. Assumes: the mesh is
certified and announces the nonce zero, the step is closed and taken, and a nonce is recorded. -/
theorem entry_stepMesh [DecidableEq ι] (hcertified : Certified keypairs mesh)
    (hzero : AnnouncesZero mesh) {packages : RpcPackages platform} {event : MeshEvent ι}
    (hclosed : Closed keypairs mesh event)
    {after : Mesh platform ι} {output : NodeOutput}
    (hstep : stepMesh packages mesh event = some (after, output)) {node origin : ι} {highest : ℕ}
    (hrecorded : (mesh.nodes node).oscillator.seenNonces[
      ((keypairs origin).accountId platform.primitives, (0 : DomainId))]? = some highest) :
    (after.nodes node).oscillator.stakeTable.entry
        ((keypairs origin).accountId platform.primitives) =
      (mesh.nodes node).oscillator.stakeTable.entry
        ((keypairs origin).accountId platform.primitives) ∧
    ∃ later, (after.nodes node).oscillator.seenNonces[
      ((keypairs origin).accountId platform.primitives, (0 : DomainId))]? = some later := by
  cases event with
  | announce other timestampNs =>
    obtain ⟨rfl, -⟩ := Prod.mk.inj (Option.some.inj hstep)
    exact ⟨rfl, highest, hrecorded⟩
  | serve other event =>
    obtain ⟨⟨next, output', gossiped⟩, hserve, hresult⟩ := Option.map_eq_some_iff.mp hstep
    obtain ⟨rfl, -⟩ := Prod.mk.inj hresult
    dsimp only
    by_cases hself : node = other
    · subst hself
      rw [Function.update_self]
      refine ⟨entry_serveNode hcertified hzero hclosed hserve hrecorded, ?_⟩
      obtain ⟨operations, hoperations, -⟩ := operations_of_serveNode hclosed.1.1 hserve
      obtain ⟨later, hlater, -⟩ := noncesRise_of_reaches hoperations _ highest hrecorded
      exact ⟨later, hlater⟩
    · rw [Function.update_of_ne hself]
      exact ⟨rfl, highest, hrecorded⟩

end Steps

/-! ### Runs -/

/-- A closed run keeps a mesh certified, and it announces the nonce zero only. Assumes: the mesh is
certified and announces the nonce zero, the accounts of the operators are different, and the run is
closed. -/
theorem certified_of_closed [DecidableEq ι] {packages : RpcPackages platform}
    {keypairs : ι → KeyPair}
    (hdistinct : Function.Injective fun origin ↦
      (keypairs origin).accountId platform.primitives)
    {first last : Mesh platform ι} {history : List (Mesh platform ι × MeshEvent ι)}
    (hcertified : Certified keypairs first) (hzero : AnnouncesZero first)
    (hreaches : Reaches (stepMesh packages) (Closed keypairs) first history last) :
    Certified keypairs last ∧ AnnouncesZero last := by
  refine @Reaches.invariant _ _ _ _ _ _ (fun mesh ↦ Certified keypairs mesh ∧ AnnouncesZero mesh)
    ⟨hcertified, hzero⟩ (fun before event after output hclosed hbefore hstep ↦
      ⟨hbefore.1.step hdistinct hclosed.1 hstep, fun stake hmem ↦ ?_⟩) _ _ hreaches
  cases event with
  | announce node timestampNs =>
    obtain ⟨rfl, -⟩ := Prod.mk.inj (Option.some.inj hstep)
    rcases List.mem_append.mp hmem with hearlier | hnew
    · exact hbefore.2 stake hearlier
    · rw [Signal.stake.inj (List.mem_singleton.mp hnew)]
      rfl
  | serve node event =>
    obtain ⟨⟨next, output', gossiped⟩, hserve, hresult⟩ := Option.map_eq_some_iff.mp hstep
    obtain ⟨rfl, -⟩ := Prod.mk.inj hresult
    rcases List.mem_append.mp hmem with hearlier | hnew
    · exact hbefore.2 stake hearlier
    · exact nonce_of_gossiped hserve hnew

/-- Take two states of a closed run of a mesh, one after the other. Once a node has recorded a nonce
of an operator, the entry of the operator in its stake table stays as it is. Assumes: the accounts
of the operators are different, the runs are closed (so that no tick counter wraps), and a nonce is
recorded in the first state. -/
theorem stakes_settled [DecidableEq ι] {packages : RpcPackages platform} {nttSize : ℕ}
    {keypairs : ι → KeyPair} {timestampNs : ℕ}
    (hdistinct : Function.Injective fun origin ↦
      (keypairs origin).accountId platform.primitives)
    {first last : Mesh platform ι} {history later : List (Mesh platform ι × MeshEvent ι)}
    (hfirst : Reaches (stepMesh packages) (Closed keypairs)
      (Mesh.new platform nttSize keypairs timestampNs) history first)
    (hlast : Reaches (stepMesh packages) (Closed keypairs) first later last) {node origin : ι}
    {highest : ℕ} (hrecorded : (first.nodes node).oscillator.seenNonces[
      ((keypairs origin).accountId platform.primitives, (0 : DomainId))]? = some highest) :
    (last.nodes node).oscillator.stakeTable.entry
        ((keypairs origin).accountId platform.primitives) =
      (first.nodes node).oscillator.stakeTable.entry
        ((keypairs origin).accountId platform.primitives) := by
  have hstart := certified_of_closed hdistinct (Certified.new platform nttSize keypairs timestampNs)
    (fun _ hmem ↦ absurd hmem List.not_mem_nil) hfirst
  have hkept := @Reaches.invariant _ _ _ _ _ _ (fun mesh : Mesh platform ι ↦
    (Certified keypairs mesh ∧ AnnouncesZero mesh) ∧
      (mesh.nodes node).oscillator.stakeTable.entry
          ((keypairs origin).accountId platform.primitives) =
        (first.nodes node).oscillator.stakeTable.entry
          ((keypairs origin).accountId platform.primitives) ∧
      ∃ later, (mesh.nodes node).oscillator.seenNonces[
        ((keypairs origin).accountId platform.primitives, (0 : DomainId))]? = some later)
    ⟨hstart, rfl, highest, hrecorded⟩ (fun before event after output hclosed hbefore hstep ↦ by
      obtain ⟨⟨hcertified, hzero⟩, hentry, recorded, hrecorded⟩ := hbefore
      obtain ⟨hsame, hstill⟩ := entry_stepMesh hcertified hzero hclosed hstep hrecorded
      exact ⟨certified_of_closed hdistinct hcertified hzero (.of_step hclosed hstep),
        hsame.trans hentry, hstill⟩) _ _ hlast
  exact hkept.2.1

instance [Fintype ι] (keypairs : ι → KeyPair) :
    DecidableRel (Closed keypairs : Mesh platform ι → MeshEvent ι → Prop) :=
  fun mesh event ↦ match event with
    | .serve node event => inferInstanceAs (Decidable (Honest keypairs mesh (.serve node event) ∧
        ∀ stake ∈ deliveredStake event,
          (∃ origin, stake.operator = (keypairs origin).accountId platform.primitives) →
          .stake stake ∈ mesh.sent))
    | .announce node timestampNs =>
      inferInstanceAs (Decidable (Honest keypairs mesh (.announce node timestampNs) ∧ True))

/-- One of two nodes announces its stake, which arrives at a node. -/
def announcement (origin receiver : Fin 2) (timestampNs : ℕ) : List (MeshEvent (Fin 2)) :=
  [.announce origin timestampNs,
    .serve receiver
      (.gossip (.stake (.sign .sample (twoKeypairs origin) genesisBalance 0 timestampNs)) 1)]

/-- The second node has no balance for the first operator, and refuses its stake for good. -/
theorem stakes_settled_twoNodes :
    ∃ (history later : List (Mesh Platform.sample (Fin 2) × MeshEvent (Fin 2)))
      (first last : Mesh Platform.sample (Fin 2)),
      Reaches (stepMesh (.sample _)) (Closed twoKeypairs) twoNodes history first ∧
      Reaches (stepMesh (.sample _)) (Closed twoKeypairs) first later last ∧
      later.map Prod.snd = announcement 0 1 6 ∧
      (first.nodes 1).oscillator.stakeTable.entry ((twoKeypairs 0).accountId .sample) =
        ⟨0, none⟩ ∧
      (last.nodes 1).oscillator.stakeTable.entry ((twoKeypairs 0).accountId .sample) =
        ⟨0, none⟩ := by
  have hdistinct : Function.Injective fun origin ↦ (twoKeypairs origin).accountId .sample := by
    decide +kernel
  have hruns : ((run (stepMesh (.sample _)) (Closed twoKeypairs) twoNodes (announcement 0 1 5)).bind
      fun first ↦ (run (stepMesh (.sample _)) (Closed twoKeypairs) first (announcement 0 1 6)).map
        fun _ ↦ ((first.nodes 1).oscillator.seenNonces[
          ((twoKeypairs 0).accountId .sample, (0 : DomainId))]?,
          (first.nodes 1).oscillator.stakeTable.entry ((twoKeypairs 0).accountId .sample))) =
      some (some 0, ⟨0, none⟩) := by
    decide +kernel
  obtain ⟨first, hfirst, hrest⟩ := Option.bind_eq_some_iff.mp hruns
  obtain ⟨last, hlast, hfacts⟩ := Option.map_eq_some_iff.mp hrest
  obtain ⟨hrecorded, hentry⟩ := Prod.mk.inj hfacts
  obtain ⟨history, -, hhistory⟩ := reaches_of_run hfirst
  obtain ⟨later, hevents, hlater⟩ := reaches_of_run hlast
  exact ⟨history, later, first, last, hhistory, hlater, hevents, hentry,
    (stakes_settled hdistinct hhistory hlater hrecorded).trans hentry⟩

end Fluidic.Node
