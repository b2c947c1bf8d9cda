import Fluidic.Node.Refinement

/-!
# The stake of an operator

A node that starts announces its stake to itself with the nonce zero, and the route by which an
operator announces another stake signs the nonce zero again. The nonce is recorded at the start, if
it was not in the snapshot already, and no operation lowers it: the route never succeeds, in no run
of a node, and leaves the node as it was (`submitOperatorStake_refused`). So the stake that an
operator has on other nodes is the one it started with: the route gossips nothing.
-/

set_option autoImplicit false
set_option relaxedAutoImplicit false

namespace Fluidic.Node

open Library Crypto Consensus Api
open Std (ExtTreeMap)

variable {platform : Platform}

/-! ### Nonces -/

/-- After an announcement that is well signed a nonce of its operator is recorded. Assumes: the
announcement is well signed. -/
theorem exists_nonce_applyStake (oscillator : Oscillator platform) {stake : StakeShift}
    (hsigned : stake.verify platform.primitives = true) :
    ∃ highest, (oscillator.applyStake stake).1.seenNonces[(stake.operator, (0 : DomainId))]? =
      some highest := by
  have houtcome := oscillator.applyStake_outcome stake
  generalize oscillator.applyStake stake = result at houtcome ⊢
  cases houtcome with
  | refused hrefused =>
    rw [Oscillator.admitsStake, hsigned, Bool.true_and] at hrefused
    unfold Oscillator.isFresh at hrefused
    cases hrecorded : oscillator.seenNonces[(stake.operator, (0 : DomainId))]? with
    | none =>
      rw [hrecorded] at hrefused
      cases hrefused
    | some highest => exact ⟨highest, rfl⟩
  | repeated => exact ⟨stake.nonce, ExtTreeMap.getElem?_insert_self⟩
  | short => exact ⟨stake.nonce, ExtTreeMap.getElem?_insert_self⟩
  | raised => exact ⟨stake.nonce, ExtTreeMap.getElem?_insert_self⟩
  | lowered => exact ⟨stake.nonce, ExtTreeMap.getElem?_insert_self⟩

/-- A node that starts has recorded a nonce of its operator. Assumes: the own signature of the node
verifies. -/
theorem exists_nonce_boot (loaded : Oscillator platform) {localKeypair : KeyPair}
    {timestampNs : ℕ} (hsigned : (StakeShift.sign platform.primitives localKeypair genesisBalance 0
      timestampNs).verify platform.primitives = true) :
    ∃ highest, (RunningNode.boot loaded localKeypair timestampNs).oscillator.seenNonces[
      (localKeypair.accountId platform.primitives, (0 : DomainId))]? = some highest := by
  obtain ⟨seeded, -, operations, hafter⟩ :=
    @exists_performs_boot _ ∅ loaded localKeypair timestampNs
  obtain ⟨start, hstart⟩ := exists_nonce_applyStake seeded hsigned
  obtain ⟨highest, hhighest, -⟩ := noncesRise_of_reaches hafter _ start hstart
  exact ⟨highest, hhighest⟩

/-! ### The keypairs of a node -/

/-- The keypairs of a node and of one after it are the same. -/
def SameKeypairs (node next : RunningNode platform) : Prop :=
  next.operatorKeypair = node.operatorKeypair ∧ next.localKeypair = node.localKeypair

theorem sameKeypairs_evmFaucet (node : RunningNode platform) (address : String) :
    SameKeypairs node (node.evmFaucet address).1 := by
  unfold RunningNode.evmFaucet SameKeypairs
  cases hexDecode (String.ofList (Persistence.trimHexMarks address.toList)) with
  | none => exact ⟨rfl, rfl⟩
  | some bytes =>
    by_cases hlength : bytes.length ≠ 20
    · simp only [if_pos hlength, and_self]
    · simp only [if_neg hlength, and_self]

/-- No event changes the keypairs. Assumes: the event is served. -/
theorem sameKeypairs_serveNode {packages : RpcPackages platform}
    {node next : RunningNode platform} {event : NodeEvent} {output : NodeOutput × List Signal}
    (hserve : serveNode packages node event = some (next, output)) : SameKeypairs node next := by
  cases event with
  | synthesize order timestampNs =>
    obtain ⟨⟨node', result, hashes⟩, hsynthesize, hresult⟩ := Option.map_eq_some_iff.mp hserve
    obtain ⟨rfl, -⟩ := Prod.mk.inj hresult
    obtain ⟨⟨oscillator, result', hashes'⟩, -, hnode⟩ := Option.map_eq_some_iff.mp hsynthesize
    obtain ⟨rfl, -⟩ := Prod.mk.inj hnode
    exact ⟨rfl, rfl⟩
  | submitCommutative request =>
    obtain ⟨rfl, -⟩ := Prod.mk.inj (Option.some.inj hserve)
    show SameKeypairs node (node.submitCommutative request).1
    unfold RunningNode.submitCommutative
    cases parseCommutativeShift request with
    | error status => exact ⟨rfl, rfl⟩
    | ok shift => exact ⟨rfl, rfl⟩
  | submitOperatorStake amount timestampNs =>
    obtain ⟨rfl, -⟩ := Prod.mk.inj (Option.some.inj hserve)
    show SameKeypairs node (node.submitOperatorStake amount timestampNs).1
    unfold RunningNode.submitOperatorStake
    cases parseU128 amount with
    | error status => exact ⟨rfl, rfl⟩
    | ok amount =>
      dsimp only
      cases hkeypair : node.operatorKeypair with
      | none => exact ⟨rfl, rfl⟩
      | some keypair => exact ⟨hkeypair.symm, rfl⟩
  | claimOperatorRewards =>
    obtain ⟨rfl, -⟩ := Prod.mk.inj (Option.some.inj hserve)
    refine ⟨?_, rfl⟩
    show (node.toOperatorApiState.claimOperatorRewards).1.operatorKeypair = node.operatorKeypair
    unfold OperatorApiState.claimOperatorRewards
    dsimp only
    cases hkeypair : node.operatorKeypair with
    | none => exact hkeypair
    | some keypair => rfl
  | claimLpRewards poolId =>
    obtain ⟨rfl, -⟩ := Prod.mk.inj (Option.some.inj hserve)
    refine ⟨?_, rfl⟩
    show (node.toOperatorApiState.claimLpRewards poolId).1.operatorKeypair = node.operatorKeypair
    unfold OperatorApiState.claimLpRewards
    cases parseHash poolId with
    | error status => rfl
    | ok pool => rfl
  | evmFaucet address =>
    obtain ⟨rfl, -⟩ := Prod.mk.inj (Option.some.inj hserve)
    exact sameKeypairs_evmFaucet node address
  | _ =>
    obtain ⟨rfl, -⟩ := Prod.mk.inj (Option.some.inj hserve)
    exact ⟨rfl, rfl⟩

/-! ### The route -/

/-- An amount that is not read is a bad request. Assumes: the amount is not read. -/
theorem parseU128_error {text : String} {status : StatusCode}
    (hrefused : parseU128 text = .error status) : status = .badRequest := by
  unfold parseU128 at hrefused
  dsimp only at hrefused
  split at hrefused
  · split_ifs at hrefused
    exact (Except.error.inj hrefused).symm
  · exact (Except.error.inj hrefused).symm

/-- The route that announces another stake is refused in every state that a run of a node reaches,
whatever the node loaded at its start, and leaves the node as it was. Assumes: the signature that
the operator makes at the start verifies, and the tick counter does not wrap in the run. -/
theorem submitOperatorStake_refused {packages : RpcPackages platform}
    {loaded : Oscillator platform} {localKeypair : KeyPair} {timestampNs : ℕ}
    (hsigned : (StakeShift.sign platform.primitives localKeypair genesisBalance 0
      timestampNs).verify platform.primitives = true)
    {history : List (RunningNode platform × NodeEvent)} {node : RunningNode platform}
    (hreaches : Reaches (serveNode packages) NodeTickFits
      (RunningNode.boot loaded localKeypair timestampNs) history node)
    (amount : String) (laterNs : ℕ) :
    node.submitOperatorStake amount laterNs = (node, .error .badRequest) := by
  have hkeypair : node.operatorKeypair = some localKeypair :=
    @Reaches.invariant _ _ _ _ _ _ (fun state : RunningNode platform ↦
      state.operatorKeypair = some localKeypair) rfl
      (fun _ _ _ _ _ hbefore hserve ↦ (sameKeypairs_serveNode hserve).1.trans hbefore) _ _ hreaches
  obtain ⟨operations, hoperations⟩ := hreaches.refines fun _ _ _ _ hfits hserve ↦
    (operations_of_serveNode hfits hserve).imp fun _ hboth ↦ hboth.1
  obtain ⟨start, hstart⟩ := exists_nonce_boot loaded hsigned
  obtain ⟨highest, hhighest, -⟩ := noncesRise_of_reaches hoperations _ start hstart
  unfold RunningNode.submitOperatorStake
  cases hparsed : parseU128 amount with
  | error status => rw [parseU128_error hparsed]
  | ok amount =>
    dsimp only
    rw [hkeypair]
    dsimp only
    rw [applyStake_of_recorded hhighest (Nat.zero_le _), ← hkeypair]
    rfl

/-- An operator that wants to double its stake after a synthesis. -/
theorem submitOperatorStake_refused_doubled :
    ∃ (history : List (RunningNode Platform.sample × NodeEvent))
      (node : RunningNode Platform.sample),
      history.map Prod.snd = [.synthesize .forward 0] ∧
      Reaches (serveNode (.sample _)) NodeTickFits (.boot (.newWithKeypair 8) ⟨3⟩ 0) history node ∧
      node.submitOperatorStake "2000000000000000000" 1 = (node, .error .badRequest) := by
  have hruns : (run (serveNode (.sample _)) NodeTickFits
      (.boot (.newWithKeypair 8) ⟨3⟩ 0 : RunningNode Platform.sample)
      [.synthesize .forward 0]).isSome := by
    decide +kernel
  obtain ⟨node, hrun⟩ := Option.isSome_iff_exists.mp hruns
  obtain ⟨history, hevents, hreaches⟩ := reaches_of_run hrun
  exact ⟨history, node, hevents, hreaches,
    submitOperatorStake_refused (by decide +kernel) hreaches "2000000000000000000" 1⟩

end Fluidic.Node
