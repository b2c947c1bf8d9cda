import Fluidic.Consensus.RunInvariant

/-!
# At-most-once application

Four mechanisms keep a shift from being applied twice: the highest nonce of each sender and domain,
the set of seen signatures, the deduplication of nodes by hash, and the applied flag. `ReplaySafe`
relates the first, the third and the fourth over a whole history; the signatures are not needed. The
shifts pushed to the queue have rising nonces, every node holds a pushed shift, and the hashes
applied so far are those of the flagged nodes, each of them once.
-/

set_option autoImplicit false
set_option relaxedAutoImplicit false

namespace Fluidic.Consensus.Oscillator

open Library Crypto Fluidic.Field Value Operator Evm
open Std (ExtTreeMap ExtTreeSet LawfulEqCmp)

variable {platform : Platform}

/-! ### Pushed and applied shifts of a history -/

/-- The shifts that a request other than a synthesis appends to the queue of stateful shifts. -/
def pushedBy (entry : Oscillator platform × Request) : List StatefulShift :=
  if entry.2.isSynthesis then []
  else
    match step platform entry.1 entry.2 with
    | some (next, _) => next.pendingStateful.drop entry.1.pendingStateful.length
    | none => []

/-- The hashes that a synthesis lists as applied. -/
def appliedBy (entry : Oscillator platform × Request) : List TxHash :=
  match step platform entry.1 entry.2 with
  | some (_, .synthesis _ hashes) => hashes
  | _ => []

/-- The shifts pushed in a history, in order. -/
def pushed (history : List (Oscillator platform × Request)) : List StatefulShift :=
  history.flatMap pushedBy

/-- The hashes applied in a history, in order. -/
def applied (history : List (Oscillator platform × Request)) : List TxHash :=
  history.flatMap appliedBy

theorem pushed_concat (history : List (Oscillator platform × Request))
    (entry : Oscillator platform × Request) :
    pushed (history ++ [entry]) = pushed history ++ pushedBy entry := by
  unfold pushed
  rw [List.flatMap_append, List.flatMap_singleton]

theorem applied_concat (history : List (Oscillator platform × Request))
    (entry : Oscillator platform × Request) :
    applied (history ++ [entry]) = applied history ++ appliedBy entry := by
  unfold applied
  rw [List.flatMap_append, List.flatMap_singleton]

/-- A synthesis pushes nothing and applies what it lists. Assumes: the synthesis returns. -/
theorem pushedBy_appliedBy_synthesize {oscillator final : Oscillator platform}
    {keys : KeyRegistry} {order : SynthesisOrder} {timestampNs : ℕ} {result : SynthesisResult}
    {hashes : List TxHash}
    (hsynthesize : oscillator.synthesize keys order timestampNs = some (final, result, hashes)) :
    pushedBy (oscillator, .synthesize keys order timestampNs) = [] ∧
    appliedBy (oscillator, .synthesize keys order timestampNs) = hashes := by
  constructor
  · rfl
  · unfold appliedBy step
    dsimp only
    rw [hsynthesize]
    rfl

/-- Another request applies nothing. Assumes: the request is not a synthesis. -/
theorem appliedBy_of_ne {oscillator : Oscillator platform} {request : Request}
    (hother : ∀ keys order timestampNs, request ≠ .synthesize keys order timestampNs) :
    appliedBy (oscillator, request) = [] := by
  cases request with
  | synthesize keys order timestampNs => exact absurd rfl (hother keys order timestampNs)
  | _ => rfl

/-- Another request pushes nothing, or one shift. Assumes: the request is not a synthesis, and leads
to the next state. -/
theorem pushedBy_cases {oscillator next : Oscillator platform} {request : Request}
    {response : Response} (hstep : step platform oscillator request = some (next, response))
    (hother : ∀ keys order timestampNs, request ≠ .synthesize keys order timestampNs)
    (heffect : RequestEffect oscillator next) :
    (pushedBy (oscillator, request) = [] ∧ next.pendingStateful = oscillator.pendingStateful ∧
      NoncesRise oscillator next) ∨
    ∃ shift, pushedBy (oscillator, request) = [shift] ∧ Pushes oscillator next shift := by
  have hkind : request.isSynthesis = false := by
    cases request with
    | synthesize keys order timestampNs => exact absurd rfl (hother keys order timestampNs)
    | _ => rfl
  have hpushed : pushedBy (oscillator, request) =
      next.pendingStateful.drop oscillator.pendingStateful.length := by
    unfold pushedBy
    rw [hkind, hstep]
    rfl
  rcases heffect.queue with ⟨hqueue, hrise⟩ | ⟨shift, hpushes⟩
  · refine .inl ⟨?_, hqueue, hrise⟩
    rw [hpushed, hqueue, List.drop_length]
  · refine .inr ⟨shift, ?_, hpushes⟩
    rw [hpushed, hpushes.queue, List.drop_left]

/-! ### The invariant -/

/-- Of two shifts of one sender and domain, the second has the greater nonce. -/
def NonceBefore (first second : StatefulShift) : Prop :=
  first.sender = second.sender → first.domain = second.domain → first.nonce < second.nonce

/-- What the replay protection keeps over a history: pushed shifts have rising nonces, none above
the highest one recorded; queued shifts and the shifts of nodes were pushed; the hashes applied are
those of the flagged nodes, each of them once. -/
structure ReplaySafe (history : List (Oscillator platform × Request))
    (oscillator : Oscillator platform) : Prop where
  rising : (pushed history).Pairwise NonceBefore
  recorded : ∀ shift ∈ pushed history, ∃ highest,
    oscillator.seenNonces[(shift.sender, shift.domain)]? = some highest ∧ shift.nonce ≤ highest
  queue : ∀ shift ∈ oscillator.pendingStateful, shift ∈ pushed history
  nodes : ∀ (hash : TxHash) (node : DagNode), oscillator.dag.nodes[hash]? = some node →
    node.shift ∈ pushed history
  flags : ∀ hash, hash ∈ applied history ↔
    ∃ node : DagNode, oscillator.dag.nodes[hash]? = some node ∧ node.applied = true
  once : (applied history).Nodup

/-- The hashes that a synthesis applies are distinct. Assumes: the state is sound, and the synthesis
returns. -/
theorem Sound.nodup_hashes {oscillator final : Oscillator platform} (hsound : Sound oscillator)
    {keys : KeyRegistry} {order : SynthesisOrder} {timestampNs : ℕ} {result : SynthesisResult}
    {hashes : List TxHash}
    (hsynthesize : oscillator.synthesize keys order timestampNs = some (final, result, hashes)) :
    hashes.Nodup := by
  rcases synthesize_cases hsynthesize with ⟨error, -, -, rfl⟩ |
    ⟨placed, ledger, _, _, _, _, horder, hloop, hfinish⟩
  · exact List.nodup_nil
  · obtain ⟨_, _, _, _, _, -, rfl, -⟩ := finish_cases hfinish
    obtain ⟨placed', horder', hperm, -⟩ :=
      (hsound.preparedDag_wellFormed keys order).topologicalOrder_eq_ok order.toDagOrder
    rw [horder', Option.some.injEq, Except.ok.injEq] at horder
    subst horder
    obtain ⟨applied, happlied, hsublist⟩ := loop_hashes_sublist hloop
    have hplaced : placed'.Nodup := hperm.nodup_iff.mpr (VectorClockDag.nodup_hashes _)
    rw [happlied]
    exact hplaced.sublist hsublist

/-- A shift that a synthesis applies had no flag before. Assumes: the synthesis applies it, and the
DAG had its node. -/
theorem not_applied_of_mem {oscillator final : Oscillator platform} {keys : KeyRegistry}
    {order : SynthesisOrder} {timestampNs : ℕ} {result : SynthesisResult} {hashes : List TxHash}
    (hsynthesize : oscillator.synthesize keys order timestampNs = some (final, result, hashes))
    {hash : TxHash} (hmem : hash ∈ hashes) {node : DagNode}
    (hnode : oscillator.dag.nodes[hash]? = some node) : node.applied = false := by
  obtain ⟨before, ledger, prepared, fee, net, hturn, houtcome⟩ :=
    (mem_applied_iff hsynthesize hash).mp hmem
  have hfresh := (attempt_transfer houtcome).2.fresh
  obtain ⟨checked, hchecked, hcore⟩ := checkedDag_of_mem keys hnode
  have hprepared := hturn.node_eq
  rw [getElem?_preparedDag, hchecked, Option.map_some, Option.some.injEq] at hprepared
  rw [← hprepared, prepareNode_eq] at hfresh
  rw [← DagNode.core_applied, ← hcore]
  exact hfresh

/-- A synthesis keeps the replay protection. Assumes: the state is sound, and the synthesis
returns. -/
theorem ReplaySafe.synthesize {history : List (Oscillator platform × Request)}
    {oscillator final : Oscillator platform} (hsafe : ReplaySafe history oscillator)
    (hsound : Sound oscillator) {keys : KeyRegistry} {order : SynthesisOrder} {timestampNs : ℕ}
    {result : SynthesisResult} {hashes : List TxHash}
    (hsynthesize : oscillator.synthesize keys order timestampNs = some (final, result, hashes)) :
    ReplaySafe (history ++ [(oscillator, .synthesize keys order timestampNs)]) final := by
  obtain ⟨hpushed, happlied⟩ := pushedBy_appliedBy_synthesize hsynthesize
  have heffect := synthesize_effect hsynthesize
  have hpushed : pushed (history ++ [(oscillator, .synthesize keys order timestampNs)]) =
      pushed history := by
    rw [pushed_concat, hpushed, List.append_nil]
  have happlied : applied (history ++ [(oscillator, .synthesize keys order timestampNs)]) =
      applied history ++ hashes := by
    rw [applied_concat, happlied]
  constructor
  · rw [hpushed]
    exact hsafe.rising
  · rw [hpushed, heffect.seenNonces]
    exact hsafe.recorded
  · rw [heffect.pendingStateful]
    exact fun shift hshift ↦ absurd hshift List.not_mem_nil
  · intro hash node hnode
    obtain ⟨checked, hchecked, -, hshift, -, -⟩ := heffect.node hnode
    rw [hpushed, hshift, ← DagNode.core_shift]
    rcases checkedDag_cases hchecked with ⟨old, hold, hcore⟩ | ⟨shift, hshift, depth, -, hcore⟩
    · rw [hcore]
      exact hsafe.nodes hash old hold
    · rw [hcore]
      exact hsafe.queue shift hshift
  · intro hash
    rw [happlied, List.mem_append, hsafe.flags hash]
    constructor
    · intro hcases
      have hchecked : ∃ checked, (oscillator.checkedDag keys).nodes[hash]? = some checked ∧
          (checked.applied = true ∨ hash ∈ hashes) := by
        rcases hcases with ⟨node, hnode, hflag⟩ | hmem
        · obtain ⟨checked, hchecked, hcore⟩ := checkedDag_of_mem keys hnode
          refine ⟨checked, hchecked, .inl ?_⟩
          rw [← DagNode.core_applied, hcore]
          exact hflag
        · obtain ⟨before, ledger, node, fee, net, hturn, -⟩ :=
            (mem_applied_iff hsynthesize hash).mp hmem
          have hprepared := hturn.node_eq
          rw [getElem?_preparedDag, Option.map_eq_some_iff] at hprepared
          obtain ⟨checked, hchecked, -⟩ := hprepared
          exact ⟨checked, hchecked, .inr hmem⟩
      obtain ⟨checked, hchecked, hflag⟩ := hchecked
      obtain ⟨node, hnode⟩ := heffect.exists_node hchecked
      obtain ⟨checked', hchecked', -, -, -, hvalue⟩ := heffect.node hnode
      rw [hchecked, Option.some.injEq] at hchecked'
      subst hchecked'
      refine ⟨node, hnode, ?_⟩
      rw [hvalue, Bool.or_eq_true, decide_eq_true_eq]
      exact hflag
    · rintro ⟨node, hnode, hflag⟩
      obtain ⟨checked, hchecked, -, -, -, hvalue⟩ := heffect.node hnode
      rw [hvalue, Bool.or_eq_true, decide_eq_true_eq] at hflag
      rcases hflag with hearlier | hmem
      · rcases checkedDag_cases hchecked with ⟨old, hold, hcore⟩ | ⟨shift, -, depth, -, hcore⟩
        · rw [← DagNode.core_applied, hcore] at hearlier
          exact .inl ⟨old, hold, hearlier⟩
        · rw [← DagNode.core_applied, hcore] at hearlier
          cases hearlier
      · exact .inr hmem
  · rw [happlied, List.nodup_append]
    refine ⟨hsafe.once, hsound.nodup_hashes hsynthesize, ?_⟩
    rintro hash hold _ hmem rfl
    obtain ⟨node, hnode, hflag⟩ := (hsafe.flags hash).mp hold
    rw [not_applied_of_mem hsynthesize hmem hnode] at hflag
    cases hflag

/-- Another request keeps the replay protection. Assumes: the request is not a synthesis, and leads
to the next state. -/
theorem ReplaySafe.request {history : List (Oscillator platform × Request)}
    {oscillator next : Oscillator platform} (hsafe : ReplaySafe history oscillator)
    {request : Request} {response : Response}
    (hstep : step platform oscillator request = some (next, response))
    (hother : ∀ keys order timestampNs, request ≠ .synthesize keys order timestampNs)
    (heffect : RequestEffect oscillator next) :
    ReplaySafe (history ++ [(oscillator, request)]) next := by
  have happlied : applied (history ++ [(oscillator, request)]) = applied history := by
    rw [applied_concat, appliedBy_of_ne hother, List.append_nil]
  have hflags : ∀ hash, hash ∈ applied (history ++ [(oscillator, request)]) ↔
      ∃ node : DagNode, next.dag.nodes[hash]? = some node ∧ node.applied = true := by
    intro hash
    rw [happlied, heffect.nodes]
    exact hsafe.flags hash
  have honce : (applied (history ++ [(oscillator, request)])).Nodup := by
    rw [happlied]
    exact hsafe.once
  rcases pushedBy_cases hstep hother heffect with ⟨hnone, hqueue, hrise⟩ | ⟨shift, hone, hpushes⟩
  · have hpushed : pushed (history ++ [(oscillator, request)]) = pushed history := by
      rw [pushed_concat, hnone, List.append_nil]
    refine ⟨?_, ?_, ?_, ?_, hflags, honce⟩
    · rw [hpushed]
      exact hsafe.rising
    · intro shift hshift
      rw [hpushed] at hshift
      obtain ⟨highest, hhighest, hle⟩ := hsafe.recorded shift hshift
      obtain ⟨highest', hhighest', hle'⟩ := hrise _ highest hhighest
      exact ⟨highest', hhighest', le_trans hle hle'⟩
    · rw [hpushed, hqueue]
      exact hsafe.queue
    · rw [hpushed, heffect.nodes]
      exact hsafe.nodes
  · have hpushed : pushed (history ++ [(oscillator, request)]) = pushed history ++ [shift] := by
      rw [pushed_concat, hone]
    refine ⟨?_, ?_, ?_, ?_, hflags, honce⟩
    · rw [hpushed, List.pairwise_append]
      refine ⟨hsafe.rising, List.pairwise_singleton _ _, ?_⟩
      intro earlier hearlier later hlater hsender hdomain
      rw [List.mem_singleton] at hlater
      subst hlater
      obtain ⟨highest, hhighest, hle⟩ := hsafe.recorded earlier hearlier
      rw [hsender, hdomain] at hhighest
      exact lt_of_le_of_lt hle (hpushes.nonce_gt highest hhighest)
    · intro other hmem
      rw [hpushes.nonces, ExtTreeMap.getElem?_insert]
      by_cases hkey : (shift.sender, shift.domain) = (other.sender, other.domain)
      · rw [if_pos (LawfulEqCmp.compare_eq_iff_eq.mpr hkey)]
        refine ⟨shift.nonce, rfl, ?_⟩
        rw [hpushed, List.mem_append, List.mem_singleton] at hmem
        rcases hmem with hold | rfl
        · obtain ⟨highest, hhighest, hle⟩ := hsafe.recorded other hold
          rw [← hkey] at hhighest
          exact le_trans hle (Nat.le_of_lt (hpushes.nonce_gt highest hhighest))
        · exact le_rfl
      · rw [if_neg (mt LawfulEqCmp.compare_eq_iff_eq.mp hkey)]
        rw [hpushed, List.mem_append, List.mem_singleton] at hmem
        rcases hmem with hold | rfl
        · exact hsafe.recorded other hold
        · exact absurd rfl hkey
    · intro other hmem
      rw [hpushes.queue, List.mem_append] at hmem
      rw [hpushed, List.mem_append]
      exact hmem.imp_left (hsafe.queue other)
    · intro hash node hnode
      rw [heffect.nodes] at hnode
      rw [hpushed]
      exact List.mem_append_left _ (hsafe.nodes hash node hnode)

/-- Every run of a new node keeps the replay protection. -/
theorem replaySafe_of_reaches {nttSize : ℕ} {operatorKeypair : Option KeyPair}
    {stakeTable : StakeTable} {allowed : Oscillator platform → Request → Prop}
    {history : List (Oscillator platform × Request)} {oscillator : Oscillator platform}
    (hreaches : Reaches (step platform) allowed (create nttSize operatorKeypair stakeTable)
      history oscillator) : ReplaySafe history oscillator := by
  induction hreaches with
  | start =>
    refine ⟨List.Pairwise.nil, ?_, ?_, ?_, ?_, List.nodup_nil⟩
    · exact fun shift hshift ↦ absurd hshift List.not_mem_nil
    · exact fun shift hshift ↦ absurd hshift List.not_mem_nil
    · intro hash node hnode
      simp [create, VectorClockDag.new] at hnode
    · intro hash
      simp [applied, create, VectorClockDag.new]
  | next hbefore _ hstep hsafe =>
    rcases step_cases hstep with ⟨keys, order, timestampNs, result, hashes, rfl, hsynthesize⟩ |
      ⟨hother, heffect⟩
    · exact hsafe.synthesize (sound_of_reaches hbefore) hsynthesize
    · exact hsafe.request hstep hother heffect

/-! ### At most once -/

/-- Two pushed shifts of one sender and domain with one nonce are the same. Assumes: the nonces of a
sender rise in the list. -/
theorem eq_of_same_nonce {shifts : List StatefulShift} (hrising : shifts.Pairwise NonceBefore)
    {first second : StatefulShift} (hfirst : first ∈ shifts) (hsecond : second ∈ shifts)
    (hsender : first.sender = second.sender) (hdomain : first.domain = second.domain)
    (hnonce : first.nonce = second.nonce) : first = second := by
  have hpairwise : shifts.Pairwise fun first second ↦ first.sender = second.sender →
      first.domain = second.domain → first.nonce = second.nonce → first = second :=
    hrising.imp fun hbefore hsender hdomain hnonce ↦
      absurd hnonce (Nat.ne_of_lt (hbefore hsender hdomain))
  have hflipped : shifts.Pairwise fun first second ↦ second.sender = first.sender →
      second.domain = first.domain → second.nonce = first.nonce → second = first :=
    hpairwise.imp fun hsame hsender hdomain hnonce ↦
      (hsame hsender.symm hdomain.symm hnonce.symm).symm
  exact List.Pairwise.forall_of_forall_of_flip (fun _ _ _ _ _ ↦ rfl) hpairwise hflipped hfirst
    hsecond hsender hdomain hnonce

/-- No hash is applied twice in a run of a new node, in one tick or in two; for each sender and
domain the nonces of the shifts pushed to the queue rise strictly; and applied shifts are nodes, of
which no two have the same sender, domain and nonce. Assumes: a run of a new node leads to the
state. -/
theorem applied_at_most_once {nttSize : ℕ} {operatorKeypair : Option KeyPair}
    {stakeTable : StakeTable} {history : List (Oscillator platform × Request)}
    {oscillator : Oscillator platform}
    (hreaches : Reaches (step platform) anyStep (create nttSize operatorKeypair stakeTable)
      history oscillator) :
    (applied history).Nodup ∧
    (∀ sender domain, (((pushed history).filter fun shift ↦
      shift.sender = sender ∧ shift.domain = domain).map StatefulShift.nonce).Pairwise (· < ·)) ∧
    (∀ hash ∈ applied history, ∃ node : DagNode, oscillator.dag.nodes[hash]? = some node ∧
      node.applied = true ∧ node.shift ∈ pushed history) ∧
    ∀ first ∈ applied history, ∀ second ∈ applied history, ∀ firstNode secondNode : DagNode,
      oscillator.dag.nodes[first]? = some firstNode →
      oscillator.dag.nodes[second]? = some secondNode →
      firstNode.shift.sender = secondNode.shift.sender →
      firstNode.shift.domain = secondNode.shift.domain →
      firstNode.shift.nonce = secondNode.shift.nonce → first = second := by
  have hsafe := replaySafe_of_reaches hreaches
  have hsound := sound_of_reaches hreaches
  refine ⟨hsafe.once, ?_, ?_, ?_⟩
  · intro sender domain
    rw [List.pairwise_map]
    have hfiltered := hsafe.rising.filter fun shift ↦
      decide (shift.sender = sender ∧ shift.domain = domain)
    refine hfiltered.imp_of_mem ?_
    intro first second hfirst hsecond hbefore
    rw [List.mem_filter, decide_eq_true_eq] at hfirst hsecond
    exact hbefore (hfirst.2.1.trans hsecond.2.1.symm) (hfirst.2.2.trans hsecond.2.2.symm)
  · intro hash hmem
    obtain ⟨node, hnode, hflag⟩ := (hsafe.flags hash).mp hmem
    exact ⟨node, hnode, hflag, hsafe.nodes hash node hnode⟩
  · intro first _ second _ firstNode secondNode hfirst hsecond hsender hdomain hnonce
    have hshift : firstNode.shift = secondNode.shift :=
      eq_of_same_nonce hsafe.rising (hsafe.nodes first firstNode hfirst)
        (hsafe.nodes second secondNode hsecond) hsender hdomain hnonce
    rw [← (hsound.dag.stored_hash first firstNode hfirst).2,
      ← (hsound.dag.stored_hash second secondNode hsecond).2, hshift]

/-- A shift, the same shift replayed, another shift with its nonce, and a shift with the next nonce,
with syntheses between them. -/
def replayedRun : List Request :=
  [.seedAccount (sampleAccount 1) 10000,
    .ingest (.stateful (StatefulShift.sample 1 400 [(1, 1)] [] 1 0)) 1,
    .sample,
    .ingest (.stateful (StatefulShift.sample 1 400 [(1, 1)] [] 1 0)) 2,
    .ingest (.stateful (StatefulShift.sample 1 500 [(1, 2)] [] 1 0)) 2,
    .ingest (.stateful (StatefulShift.sample 1 600 [(1, 3)] [] 2 0)) 2,
    .sample]

/-- A run with replayed signals in which two shifts are applied. -/
theorem applied_at_most_once_replayedRun :
    ∃ (history : List (Oscillator Platform.sample × Request))
      (oscillator : Oscillator Platform.sample),
      Reaches (step Platform.sample) anyStep (newWithKeypair 8) history oscillator ∧
      history.map Prod.snd = replayedRun ∧
      oscillator.dag.nodes.toList.map (fun entry ↦ entry.2.applied) = [true, true] ∧
      (applied history).Nodup ∧
      (∀ sender domain, (((pushed history).filter fun shift ↦
        shift.sender = sender ∧ shift.domain = domain).map
          StatefulShift.nonce).Pairwise (· < ·)) ∧
      (∀ hash ∈ applied history, ∃ node : DagNode, oscillator.dag.nodes[hash]? = some node ∧
        node.applied = true ∧ node.shift ∈ pushed history) ∧
      ∀ first ∈ applied history, ∀ second ∈ applied history, ∀ firstNode secondNode : DagNode,
        oscillator.dag.nodes[first]? = some firstNode →
        oscillator.dag.nodes[second]? = some secondNode →
        firstNode.shift.sender = secondNode.shift.sender →
        firstNode.shift.domain = secondNode.shift.domain →
        firstNode.shift.nonce = secondNode.shift.nonce → first = second := by
  have hruns : ((run (step Platform.sample) anyStep (newWithKeypair 8) replayedRun).map
      fun oscillator ↦ oscillator.dag.nodes.toList.map fun entry ↦ entry.2.applied) =
      some [true, true] := by
    decide +kernel
  obtain ⟨oscillator, hrun, hflags⟩ := Option.map_eq_some_iff.mp hruns
  obtain ⟨history, hinputs, hreaches⟩ := reaches_of_run hrun
  exact ⟨history, oscillator, hreaches, hinputs, hflags, applied_at_most_once hreaches⟩

end Fluidic.Consensus.Oscillator
