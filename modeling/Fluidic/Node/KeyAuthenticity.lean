import Fluidic.Node.MeshNode
import Fluidic.Consensus.SynthesisSpec

/-!
# Whose keys a node registers

A key is authentic for an account when the account is the hash of the key, or one of the two token
accounts of that hash. The API registers keys under such accounts only. The ingest loop registers
the key of a registration under the three accounts that it names, and the key of a stake
announcement before it is verified, so that a peer can put its own key under the account of another
(`stolen_account`).

As long as no signal names an account of another key, all registered keys are authentic, and a
synthesis applies a shift only when the owner of its sender signed it (`registry_authentic`).
-/

set_option autoImplicit false
set_option relaxedAutoImplicit false

namespace Fluidic.Node

open Library Crypto Consensus Api
open Std (ExtTreeMap LawfulEqCmp)

/-- An account belongs to a key: it is the hash of the key, or a token account of that. -/
def Authentic (prim : Primitives) (key : VerifyingKey) (account : AccountId) : Prop :=
  account = AccountId.fromPublicKey prim key ∨
    account = deriveAccount prim (AccountId.fromPublicKey prim key) "WAVE" ∨
    account = deriveAccount prim (AccountId.fromPublicKey prim key) "USDC"

instance (prim : Primitives) (key : VerifyingKey) (account : AccountId) :
    Decidable (Authentic prim key account) :=
  inferInstanceAs (Decidable (_ ∨ _))

variable {platform : Platform}

/-- Every key is registered under accounts that belong to it. -/
def AuthenticRegistry (prim : Primitives) (registry : KeyRegistry) : Prop :=
  ∀ (account : AccountId) (key : VerifyingKey), registry[account]? = some key →
    Authentic prim key account

/-- A signal with a valid key names accounts that belong to this key. -/
def NamesOwnAccounts : ApiState platform → Event → Prop
  | _, .gossip (.registration reg) _ => platform.primitives.isValidKey reg.publicKey = true →
      Authentic platform.primitives reg.publicKey reg.account ∧
        Authentic platform.primitives reg.publicKey reg.waveAccount ∧
        Authentic platform.primitives reg.publicKey reg.usdcAccount
  | _, .gossip (.stake stake) _ => platform.primitives.isValidKey stake.publicKey = true →
      Authentic platform.primitives stake.publicKey stake.operator
  | _, _ => True

instance : DecidableRel (NamesOwnAccounts : ApiState platform → Event → Prop) :=
  fun _ event ↦ match event with
    | .gossip (.registration _) _ => inferInstanceAs (Decidable (_ → _ ∧ _ ∧ _))
    | .gossip (.stake _) _ => inferInstanceAs (Decidable (_ → _))
    | .gossip (.commutative _) _ | .gossip (.stateful _) _ | .gossip .ping _ | .gossip .pong _
    | .gossip (.certificate _) _ | .gossip .auth _ | .registerAccount _ | .submitStateful _ _
    | .synthesize _ _ => isTrue trivial

/-! ### The registry -/

section Registry

variable {prim : Primitives} {registry : KeyRegistry} {account : AccountId} {key : VerifyingKey}

/-- A key that is entered under an account of its own leaves the registry authentic. Assumes: the
account belongs to the key. -/
theorem AuthenticRegistry.insert (hauthentic : AuthenticRegistry prim registry)
    (howns : Authentic prim key account) :
    AuthenticRegistry prim (registry.insert account key) := by
  intro other found hfound
  rw [ExtTreeMap.getElem?_insert] at hfound
  split_ifs at hfound with hsame
  · obtain rfl := Option.some.inj hfound
    exact LawfulEqCmp.compare_eq_iff_eq.mp hsame ▸ howns
  · exact hauthentic other found hfound

theorem AuthenticRegistry.empty : AuthenticRegistry prim ∅ := by
  intro account key hfound
  rw [ExtTreeMap.getElem?_empty] at hfound
  cases hfound

/-- A registered account belongs to its key. Assumes: the registry is authentic. -/
theorem AuthenticRegistry.owns (hauthentic : AuthenticRegistry prim registry)
    (hfound : registry[account]? = some key) : Authentic prim key account :=
  hauthentic account key hfound

end Registry

/-- The registry of a node that started has the keys of the pools and its own. -/
theorem authenticRegistry_start (loaded : Oscillator platform) (localKeypair : KeyPair)
    (timestampNs : ℕ) :
    AuthenticRegistry platform.primitives (start loaded localKeypair timestampNs).registry :=
  ((AuthenticRegistry.empty.insert (.inr (.inl rfl))).insert (.inr (.inr rfl))).insert (.inl rfl)

/-- A request to register enters its key under accounts of its own. -/
theorem AuthenticRegistry.registerAccount {state : ApiState platform}
    (hauthentic : AuthenticRegistry platform.primitives state.registry) (publicKeyHex : String) :
    AuthenticRegistry platform.primitives (state.registerAccount publicKeyHex).1.registry := by
  unfold ApiState.registerAccount
  cases parseHash publicKeyHex with
  | error status => exact hauthentic
  | ok key =>
    dsimp only
    split_ifs
    · exact hauthentic
    · exact ((hauthentic.insert (.inl rfl)).insert (.inr (.inl rfl))).insert (.inr (.inr rfl))

/-- A request to submit a shift does not change the registry. -/
theorem registry_submitStateful (state : ApiState platform) (request : StatefulShiftRequest)
    (nowNs : ℕ) : (state.submitStateful request nowNs).1.registry = state.registry := by
  unfold ApiState.submitStateful ApiState.ingestShift
  dsimp only
  repeat' split
  all_goals rfl

/-- What a signal registers. -/
theorem registry_handleSignal (state : ApiState platform) (signal : Signal) (nowNs : ℕ) :
    (handleSignal state signal nowNs).registry = match signal with
      | .registration reg =>
        if platform.primitives.isValidKey reg.publicKey then
          ((state.registry.insert reg.account reg.publicKey).insert reg.waveAccount
            reg.publicKey).insert reg.usdcAccount reg.publicKey
        else state.registry
      | .stake stake =>
        if platform.primitives.isValidKey stake.publicKey then
          state.registry.insert stake.operator stake.publicKey
        else state.registry
      | _ => state.registry := by
  cases signal with
  | registration reg =>
    unfold handleSignal
    dsimp only
    split_ifs <;> rfl
  | stake stake =>
    unfold handleSignal
    dsimp only
    split_ifs <;> rfl
  | _ => rfl

/-- An event keeps the registry authentic exactly when it names accounts of its own. Assumes: the
registry is authentic, and the event is served. -/
theorem authenticRegistry_serve_iff {state next : ApiState platform} {event : Event}
    {output : Output} (hauthentic : AuthenticRegistry platform.primitives state.registry)
    (hserve : serve state event = some (next, output)) :
    AuthenticRegistry platform.primitives next.registry ↔ NamesOwnAccounts state event := by
  cases event with
  | gossip signal nowNs =>
    obtain ⟨rfl, -⟩ := Prod.mk.inj (Option.some.inj hserve)
    rw [registry_handleSignal]
    cases signal with
    | registration reg =>
      unfold NamesOwnAccounts
      dsimp only
      by_cases hvalid : platform.primitives.isValidKey reg.publicKey = true
      · rw [if_pos hvalid]
        refine ⟨fun hnext _ ↦ ⟨hnext.owns ?_, hnext.owns ?_, hnext.owns ?_⟩, fun howns ↦ ?_⟩
        · simp only [ExtTreeMap.getElem?_insert, LawfulEqCmp.compare_eq_iff_eq, if_true]
          split_ifs <;> rfl
        · simp only [ExtTreeMap.getElem?_insert, LawfulEqCmp.compare_eq_iff_eq, if_true]
          split_ifs <;> rfl
        · simp only [ExtTreeMap.getElem?_insert, LawfulEqCmp.compare_eq_iff_eq, if_true]
        · obtain ⟨haccount, hwave, husdc⟩ := howns hvalid
          exact ((hauthentic.insert haccount).insert hwave).insert husdc
      · rw [if_neg hvalid]
        exact ⟨fun _ hvalid' ↦ absurd hvalid' hvalid, fun _ ↦ hauthentic⟩
    | stake stake =>
      unfold NamesOwnAccounts
      dsimp only
      by_cases hvalid : platform.primitives.isValidKey stake.publicKey = true
      · rw [if_pos hvalid]
        refine ⟨fun hnext _ ↦ hnext.owns ?_, fun howns ↦ hauthentic.insert (howns hvalid)⟩
        simp only [ExtTreeMap.getElem?_insert, LawfulEqCmp.compare_eq_iff_eq, if_true]
      · rw [if_neg hvalid]
        exact ⟨fun _ hvalid' ↦ absurd hvalid' hvalid, fun _ ↦ hauthentic⟩
    | _ => exact ⟨fun _ ↦ trivial, fun _ ↦ hauthentic⟩
  | registerAccount publicKeyHex =>
    obtain ⟨rfl, -⟩ := Prod.mk.inj (Option.some.inj hserve)
    exact ⟨fun _ ↦ trivial, fun _ ↦ hauthentic.registerAccount publicKeyHex⟩
  | submitStateful request nowNs =>
    obtain ⟨rfl, -⟩ := Prod.mk.inj (Option.some.inj hserve)
    refine ⟨fun _ ↦ trivial, fun _ ↦ ?_⟩
    show AuthenticRegistry platform.primitives (state.submitStateful request nowNs).1.registry
    rw [registry_submitStateful]
    exact hauthentic
  | synthesize order timestampNs =>
    obtain ⟨_, -, heq⟩ := Option.map_eq_some_iff.mp hserve
    obtain ⟨rfl, -⟩ := Prod.mk.inj heq
    exact ⟨fun _ ↦ trivial, fun _ ↦ hauthentic⟩

/-! ### Applied shifts -/

/-- A shift that a synthesis applies is signed with a key that belongs to its sender. Assumes: the
registry is authentic, and the synthesis applies the hash. -/
theorem AuthenticRegistry.signed {registry : KeyRegistry}
    (hauthentic : AuthenticRegistry platform.primitives registry)
    {oscillator final : Oscillator platform} {order : SynthesisOrder} {timestampNs : ℕ}
    {result : SynthesisResult} {hashes : List TxHash}
    (hsynthesize : oscillator.synthesize registry order timestampNs = some (final, result, hashes))
    {hash : TxHash} (hmem : hash ∈ hashes) :
    ∃ node key, final.dag.nodes[hash]? = some node ∧
      Authentic platform.primitives key node.shift.sender ∧
      node.shift.verifySignature platform.primitives key = true := by
  obtain ⟨before, ledger, node, fee, net, hturn, hattempt⟩ :=
    (Oscillator.mem_applied_iff hsynthesize hash).mp hmem
  obtain ⟨-, htransfers⟩ := Oscillator.attempt_transfer hattempt
  obtain ⟨key, hkey, hverified⟩ := htransfers.verified
  refine ⟨{ node with applied := node.applied || decide (hash ∈ hashes) }, key, ?_,
    hauthentic.owns hkey, hverified⟩
  rw [(Oscillator.synthesize_effect hsynthesize).nodes, Oscillator.getElem?_markApplied,
    hturn.node_eq]
  rfl

/-- In every run of a node whose signals name accounts of their own keys, every key is registered
under accounts that belong to it, and a synthesis applies a shift only when it is signed with a key
that belongs to its sender. An event that names an account of another key ends this. Assumes: the
signals of the run name accounts of their own keys. -/
theorem registry_authentic {loaded : Oscillator platform} {localKeypair : KeyPair}
    {timestampNs : ℕ} {history : List (ApiState platform × Event)} {state : ApiState platform}
    (hreaches : Reaches serve NamesOwnAccounts (start loaded localKeypair timestampNs) history
      state) :
    AuthenticRegistry platform.primitives state.registry ∧
    (∀ (order : SynthesisOrder) (nowNs : ℕ) (final : Oscillator platform)
      (result : SynthesisResult) (hashes : List TxHash),
      state.oscillator.synthesize state.registry order nowNs = some (final, result, hashes) →
      ∀ hash ∈ hashes, ∃ node key, final.dag.nodes[hash]? = some node ∧
        Authentic platform.primitives key node.shift.sender ∧
        node.shift.verifySignature platform.primitives key = true) ∧
    ∀ event next output, ¬NamesOwnAccounts state event →
      serve state event = some (next, output) →
      ¬AuthenticRegistry platform.primitives next.registry := by
  have hauthentic : AuthenticRegistry platform.primitives state.registry :=
    @Reaches.invariant _ _ _ _ _ _
      (fun state : ApiState platform ↦ AuthenticRegistry platform.primitives state.registry)
      (authenticRegistry_start loaded localKeypair timestampNs)
      (fun _ _ _ _ hnames hbefore hserve ↦
        (authenticRegistry_serve_iff hbefore hserve).mpr hnames) _ _ hreaches
  exact ⟨hauthentic,
    fun _ _ _ _ _ hsynthesize _ hmem ↦ hauthentic.signed hsynthesize hmem,
    fun _ _ _ hforeign hserve hnext ↦
      hforeign ((authenticRegistry_serve_iff hauthentic hserve).mp hnext)⟩

/-! ### A theft -/

/-- A node over an empty state. -/
def freshNode : ApiState Platform.sample := start (Oscillator.newWithKeypair 8) ⟨3⟩ 0

/-- The WAVE account of a seed. -/
def waveAccountOf (seed : ℕ) : AccountId := (tokenAccounts .sample (sampleAccount seed)).1

/-- A registration of the accounts of the first seed with the key of another one. -/
def registrationOf (keySeed : ℕ) : RegistrationShift :=
  { account := sampleAccount 1
    publicKey := BitVec.ofNat 256 keySeed
    waveAccount := waveAccountOf 1
    usdcAccount := (tokenAccounts .sample (sampleAccount 1)).2
    nonce := 1
    timestampNs := 0 }

/-- A transfer from the WAVE account of the first seed, signed with the given seed. -/
def transferSignedBy (seed : ℕ) : StatefulShift :=
  let unsigned : StatefulShift :=
    { StatefulShift.sample seed 10 [(1, 1)] [] 1 0 with sender := waveAccountOf 1 }
  { unsigned with signature := sampleSign (BitVec.ofNat 256 seed) unsigned.signingBytes }

/-- An account is registered over the network, and a transfer from it is gossiped and applied. -/
def registeredBy (keySeed : ℕ) : List Event :=
  [.gossip (.registration (registrationOf keySeed)) 0,
    .gossip (.stateful (transferSignedBy keySeed)) 0,
    .synthesize .forward 0]

/-- A registration with the key of the account. -/
theorem registry_authentic_ownKey :
    ∃ (history : List (ApiState Platform.sample × Event)) (state : ApiState Platform.sample),
      Reaches serve NamesOwnAccounts freshNode history state ∧
      state.oscillator.dag.balances.getD ⟨9⟩ 0 = 10 ∧
      AuthenticRegistry Platform.sample.primitives state.registry := by
  have hruns : (run serve NamesOwnAccounts freshNode (registeredBy 1)).map
      (fun state ↦ state.oscillator.dag.balances.getD ⟨9⟩ 0) = some 10 := by
    decide +kernel
  obtain ⟨state, hrun, hreceived⟩ := Option.map_eq_some_iff.mp hruns
  obtain ⟨history, -, hreaches⟩ := reaches_of_run hrun
  exact ⟨history, state, hreaches, hreceived, (registry_authentic hreaches).1⟩

/-- A registration with the key of another: the transfer that the other signed moves the value of
the account. -/
theorem stolen_account :
    ∃ state : ApiState Platform.sample,
      run serve anyStep freshNode (registeredBy 2) = some state ∧
      state.registry[waveAccountOf 1]? = some 2 ∧
      ¬Authentic Platform.sample.primitives 2 (waveAccountOf 1) ∧
      waveAccountOf 1 ≠ state.poolWaveAccount ∧ waveAccountOf 1 ≠ state.poolUsdcAccount ∧
      state.oscillator.dag.shiftStatus ((transferSignedBy 2).hash .sample) = some .accepted ∧
      state.oscillator.dag.balances.getD ⟨9⟩ 0 = 10 := by
  have hruns : (run serve anyStep freshNode (registeredBy 2)).map (fun state ↦
      decide (state.registry[waveAccountOf 1]? = some 2 ∧
        ¬Authentic Platform.sample.primitives 2 (waveAccountOf 1) ∧
        waveAccountOf 1 ≠ state.poolWaveAccount ∧ waveAccountOf 1 ≠ state.poolUsdcAccount ∧
        state.oscillator.dag.shiftStatus ((transferSignedBy 2).hash .sample) = some .accepted ∧
        state.oscillator.dag.balances.getD ⟨9⟩ 0 = 10)) = some true := by
    decide +kernel
  obtain ⟨state, hrun, hstate⟩ := Option.map_eq_some_iff.mp hruns
  exact ⟨state, hrun, of_decide_eq_true hstate⟩

end Fluidic.Node
