import Fluidic.Consensus.Sections
import Fluidic.Consensus.Slashing
import Fluidic.Consensus.SynthesisSpec

/-!
# Requests during a synthesis

The API server runs on its own thread, so a seeding or a stake announcement can run between two
sections of a synthesis. `Concurrent.step` takes one section of either thread at a time.

Sections that work on no common part of the node commute (`commutes_of_not_conflicts`), and with
them every schedule in which one thread leads where the two conflict is one of the two serial orders
(`serializable_of_leads`). A synthesis overwrites both ledgers from the copy that its loop made, so
a seeding between the loop and the commit is lost (`seeding_lost`).
-/

set_option autoImplicit false
set_option relaxedAutoImplicit false

namespace Fluidic.Consensus

open Library Crypto Fluidic.Field Value Operator Evm
open Std (ExtTreeMap ExtTreeSet)

variable {platform : Platform}

/-! ### The other thread -/

/-- The sections of a seeding whose mint succeeds and of a stake announcement that is accepted. -/
inductive RequestSection
  | mint (amount : ℕ)
  | seedBalance (account : AccountId) (amount : ℕ)
  | creditAccount (account : AccountId) (amount : ℕ)
  | recordNonce (stake : StakeShift)
  | readLocked (stake : StakeShift)
  | moveLiquid (stake : StakeShift)
  | recordStake (stake : StakeShift)
  deriving DecidableEq

/-- The sections of a seeding whose mint succeeds. -/
def RequestSection.seed (account : AccountId) (amount : ℕ) : List RequestSection :=
  [.mint amount, .seedBalance account amount, .creditAccount account amount]

/-- The sections of a stake announcement that is accepted. -/
def RequestSection.stake (stake : StakeShift) : List RequestSection :=
  [.recordNonce stake, .readLocked stake, .moveLiquid stake, .recordStake stake]

/-- The parts of a node that a synthesis and the other requests both work on. -/
inductive Resource
  | waveField
  | dag
  | stakeTable
  | supply
  deriving DecidableEq

/-- Whether a section of a synthesis works on a resource. -/
def SynthesisSection.uses : SynthesisSection → Resource → Bool
  | .readStaked, .stakeTable => true
  | .decay, .waveField => true
  | .burnShare, .supply => true
  | .distributeReward, .stakeTable => true
  | .syncFieldIntoDag, .waveField => true
  | .syncFieldIntoDag, .dag => true
  | .admitShifts, .dag => true
  | .applyBatches, .waveField => true
  | .applyStateful, .dag => true
  | .applyStateful, .stakeTable => true
  | .computeDebt, .dag => true
  | .debitFees, .waveField => true
  | .distributeFees, .stakeTable => true
  | .commit, .dag => true
  | .syncDagIntoField, .waveField => true
  | .syncDagIntoField, .stakeTable => true
  | .syncDagIntoField, .supply => true
  | _, _ => false

/-- Whether a section of a request works on a resource. -/
def RequestSection.uses : RequestSection → Resource → Bool
  | .mint _, .supply => true
  | .seedBalance _ _, .dag => true
  | .creditAccount _ _, .waveField => true
  | .readLocked _, .stakeTable => true
  | .moveLiquid _, .waveField => true
  | .moveLiquid _, .dag => true
  | .recordStake _, .stakeTable => true
  | _, _ => false

/-- All resources. -/
def Resource.all : List Resource := [.waveField, .dag, .stakeTable, .supply]

/-- The resources other than the supply. -/
def Resource.ledgers : List Resource := [.waveField, .dag, .stakeTable]

/-- A section of a synthesis and one of a request work on the same one of some resources. -/
def Conflicts (resources : List Resource) (step : SynthesisSection) (request : RequestSection) :
    Prop :=
  ∃ resource ∈ resources, step.uses resource = true ∧ request.uses resource = true

instance (resources : List Resource) : DecidableRel (Conflicts resources) :=
  fun step request ↦ inferInstanceAs (Decidable
    (∃ resource ∈ resources, step.uses resource = true ∧ request.uses resource = true))

/-- A node, the local variables of a synthesis and the locked stake that an announcement read. -/
structure Concurrent (platform : Platform) where
  oscillator : Oscillator platform
  locals : SynthesisLocals
  locked : ℕ

namespace Oscillator

/-- Move the difference between the announced and the locked stake out of or into the balances of
the operator. -/
def moveLiquid (oscillator : Oscillator platform) (stake : StakeShift) (locked : ℕ) :
    Option (Oscillator platform) :=
  let liquid := oscillator.dag.balances.getD stake.operator 0
  if locked < stake.amount then
    let additional := stake.amount - locked
    if (oscillator.waveField.accountBalance stake.operator).units < additional then none
    else
      match oscillator.waveField.debitAccount stake.operator additional with
      | (_, false) => none
      | (waveField, true) =>
        some { oscillator with
          waveField
          dag := { oscillator.dag with
            balances := oscillator.dag.balances.insert stake.operator (liquid - additional) } }
  else
    let refund := locked - stake.amount
    some { oscillator with
      waveField := oscillator.waveField.creditAccount stake.operator refund
      dag := { oscillator.dag with
        balances := oscillator.dag.balances.insert stake.operator
          (wrappingAdd 128 liquid refund) } }

/-- What a section of a request does to the locked stake it read and the node. There is no value
when the request is refused there. -/
def performRequest (locked : ℕ) (oscillator : Oscillator platform) :
    RequestSection → Option (ℕ × Oscillator platform)
  | .mint amount =>
    match oscillator.supplyTracker.mint amount with
    | (_, false) => none
    | (supplyTracker, true) => some (locked, { oscillator with supplyTracker })
  | .seedBalance account amount =>
    some (locked, { oscillator with dag := oscillator.dag.seedBalance account amount })
  | .creditAccount account amount =>
    some (locked, { oscillator with
      waveField := oscillator.waveField.creditAccount account amount })
  | .recordNonce stake =>
    if !stake.verify platform.primitives then none
    else
      match oscillator.checkAndRecordNonce stake.operator 0 stake.nonce with
      | .error _ => none
      | .ok recorded => some (locked, recorded)
  | .readLocked stake => some (oscillator.stakeTable.getStake stake.operator, oscillator)
  | .moveLiquid stake =>
    if stake.amount = locked then some (locked, oscillator)
    else (oscillator.moveLiquid stake locked).map fun moved ↦ (locked, moved)
  | .recordStake stake =>
    some (locked, { oscillator with
      stakeTable := if stake.amount = locked then oscillator.stakeTable
        else (oscillator.stakeTable.stake stake.operator stake.amount).1 })

/-- A section of a request, as a step on the locked stake that the request read and the node. -/
def requestStep (request : RequestSection) (state : ℕ × Oscillator platform) :
    Option (ℕ × Oscillator platform) :=
  state.2.performRequest state.1 request

theorem performRequest_mint (locked amount : ℕ) (oscillator : Oscillator platform) :
    oscillator.performRequest locked (.mint amount) =
      if (oscillator.supplyTracker.mint amount).2 then
        some (locked, { oscillator with
          supplyTracker := (oscillator.supplyTracker.mint amount).1 })
      else none := by
  show (match oscillator.supplyTracker.mint amount with
    | (_, false) => none
    | (supplyTracker, true) => some (locked, { oscillator with supplyTracker })) = _
  cases oscillator.supplyTracker.mint amount with
  | mk supplyTracker minted =>
    cases minted with
    | false => rfl
    | true => rfl

/-- The sections of a seeding in a row, when the mint succeeds. -/
theorem perform_seed (account : AccountId) (amount locked : ℕ) (oscillator : Oscillator platform) :
    perform requestStep (RequestSection.seed account amount) (locked, oscillator) =
      if (oscillator.supplyTracker.mint amount).2 then
        some (locked, oscillator.seedAccount account amount)
      else none := by
  rw [RequestSection.seed, perform_cons, seedAccount_eq]
  unfold requestStep
  rw [performRequest_mint]
  split_ifs
  · rfl
  · rfl

/-- The move of a stake is the move of the balances and the entry in the stake table, when the
balances cover it. Assumes: the locked stake is that of the operator. -/
theorem moveLiquid_eq (stake : StakeShift) {locked : ℕ} {oscillator : Oscillator platform}
    (hlocked : locked = oscillator.stakeTable.getStake stake.operator) :
    ((oscillator.moveLiquid stake locked).map fun moved ↦ { moved with
      stakeTable := (moved.stakeTable.stake stake.operator stake.amount).1 }) =
      if (oscillator.moveStake stake.operator stake.amount).2 then
        some (oscillator.moveStake stake.operator stake.amount).1
      else none := by
  unfold moveLiquid moveStake
  rw [← hlocked]
  dsimp only
  by_cases hgrows : locked < stake.amount
  · rw [if_pos hgrows, if_pos hgrows]
    by_cases hshort : (oscillator.waveField.accountBalance stake.operator).units <
        stake.amount - locked
    · rw [if_pos hshort, if_pos hshort]
      rfl
    · rw [if_neg hshort, if_neg hshort]
      cases oscillator.waveField.debitAccount stake.operator (stake.amount - locked) with
      | mk waveField debited =>
        cases debited with
        | false => rfl
        | true => rfl
  · rw [if_neg hgrows, if_neg hgrows]
    rfl

/-- The last two sections of an announcement in a row. -/
theorem perform_moveStake (stake : StakeShift) (locked : ℕ) (oscillator : Oscillator platform) :
    (perform requestStep [.moveLiquid stake, .recordStake stake] (locked, oscillator)).map
        Prod.snd =
      if stake.amount = locked then some oscillator
      else (oscillator.moveLiquid stake locked).map fun moved ↦ { moved with
        stakeTable := (moved.stakeTable.stake stake.operator stake.amount).1 } := by
  rw [perform_cons]
  unfold requestStep performRequest
  dsimp only
  by_cases hsame : stake.amount = locked
  · rw [if_pos hsame, if_pos hsame, Option.bind_some, perform_cons]
    dsimp only
    rw [if_pos hsame]
    rfl
  · rw [if_neg hsame, if_neg hsame]
    cases oscillator.moveLiquid stake locked with
    | none => rfl
    | some moved =>
      rw [Option.map_some, Option.bind_some, perform_cons]
      dsimp only
      rw [if_neg hsame]
      rfl

/-- The sections of a stake announcement in a row, when it is accepted. -/
theorem perform_stake (stake : StakeShift) (locked : ℕ) (oscillator : Oscillator platform) :
    (perform requestStep (RequestSection.stake stake) (locked, oscillator)).map Prod.snd =
      if (oscillator.applyStake stake).2 then some (oscillator.applyStake stake).1 else none := by
  rw [RequestSection.stake, perform_cons]
  unfold requestStep performRequest
  dsimp only
  cases hverify : stake.verify platform.primitives with
  | false =>
    have hrefused : oscillator.applyStake stake = (oscillator, false) := by
      unfold applyStake
      rw [hverify]
      rfl
    rw [hrefused]
    rfl
  | true =>
    cases hcheck : oscillator.checkAndRecordNonce stake.operator 0 stake.nonce with
    | error text =>
      have hrefused : oscillator.applyStake stake = (oscillator, false) := by
        unfold applyStake
        rw [hverify, hcheck]
        rfl
      rw [hrefused]
      rfl
    | ok recorded =>
      have happlied : oscillator.applyStake stake =
          if stake.amount = recorded.stakeTable.getStake stake.operator then (recorded, true)
          else recorded.moveStake stake.operator stake.amount := by
        unfold applyStake
        rw [hverify, hcheck]
        rfl
      show (perform requestStep [.moveLiquid stake, .recordStake stake]
        (recorded.stakeTable.getStake stake.operator, recorded)).map Prod.snd = _
      rw [perform_moveStake, happlied]
      by_cases hsame : stake.amount = recorded.stakeTable.getStake stake.operator
      · rw [if_pos hsame, if_pos hsame]
        rfl
      · rw [if_neg hsame, if_neg hsame]
        exact moveLiquid_eq stake rfl

end Oscillator

namespace Concurrent

open Oscillator

/-- A section of one of the two threads. -/
def step (keys : KeyRegistry) (order : SynthesisOrder) (timestampNs : ℕ) :
    SynthesisSection ⊕ RequestSection → Concurrent platform → Option (Concurrent platform)
  | .inl synthesis, state =>
    (synthesisStep keys order timestampNs synthesis (state.locals, state.oscillator)).map
      fun (locals, oscillator) ↦ { state with locals, oscillator }
  | .inr request, state =>
    (requestStep request (state.locked, state.oscillator)).map
      fun (locked, oscillator) ↦ { state with locked, oscillator }

/-- Both calls are made. -/
def start (oscillator : Oscillator platform) : Concurrent platform := ⟨oscillator, .start, 0⟩

/-! ### Parts of the state -/

/-- A part of the node, with the locked stake. -/
def lift {ρ : Type} (part : Part (Oscillator platform) ρ) : Part (Concurrent platform) (ℕ × ρ) where
  get state := (state.locked, part.get state.oscillator)
  set state value := { state with
    locked := value.1, oscillator := part.set state.oscillator value.2 }
  get_set state value := by rw [part.get_set]
  set_get state := by rw [part.set_get]

variable {keys : KeyRegistry} {order : SynthesisOrder} {timestampNs : ℕ}

/-- A section of the synthesis neither reads nor changes a part of the node. -/
def Spares {ρ : Type} (keys : KeyRegistry) (order : SynthesisOrder) (timestampNs : ℕ)
    (synthesis : SynthesisSection) (part : Part (Oscillator platform) ρ) : Prop :=
  ∀ locals oscillator value,
    (part.set oscillator value).performSection keys order timestampNs locals synthesis =
      (oscillator.performSection keys order timestampNs locals synthesis).map fun out ↦
        (out.1, part.set out.2 value)

/-- A section that spares a part of the node frames it. Assumes: the section spares the part. -/
theorem Spares.frames {ρ : Type} {synthesis : SynthesisSection}
    {part : Part (Oscillator platform) ρ}
    (hspares : Spares keys order timestampNs synthesis part) :
    (lift part).Frames (step keys order timestampNs (.inl synthesis)) := by
  intro state value
  unfold step synthesisStep
  show ((if state.locals.returned.isSome then some (state.locals,
    part.set state.oscillator value.2) else (part.set state.oscillator value.2).performSection keys
      order timestampNs state.locals synthesis).map _) = _
  dsimp only
  split_ifs
  · rfl
  · rw [hspares, Option.map_map, Option.map_map]
    rfl

/-- The wave-field of a node. -/
def fieldPart : Part (Oscillator platform) WaveField where
  get oscillator := oscillator.waveField
  set oscillator waveField := { oscillator with waveField }
  get_set _ _ := rfl
  set_get _ := rfl

/-- The DAG of a node. -/
def dagPart : Part (Oscillator platform) VectorClockDag where
  get oscillator := oscillator.dag
  set oscillator dag := { oscillator with dag }
  get_set _ _ := rfl
  set_get _ := rfl

/-- The stake table of a node. -/
def stakePart : Part (Oscillator platform) StakeTable where
  get oscillator := oscillator.stakeTable
  set oscillator stakeTable := { oscillator with stakeTable }
  get_set _ _ := rfl
  set_get _ := rfl

/-- The wave-field and the DAG of a node. -/
def ledgerPart : Part (Oscillator platform) (WaveField × VectorClockDag) where
  get oscillator := (oscillator.waveField, oscillator.dag)
  set oscillator value := { oscillator with waveField := value.1, dag := value.2 }
  get_set _ _ := rfl
  set_get _ := rfl

/-- The nonces of a node. -/
def noncePart : Part (Oscillator platform) (ExtTreeMap (AccountId × DomainId) ℕ) where
  get oscillator := oscillator.seenNonces
  set oscillator seenNonces := { oscillator with seenNonces }
  get_set _ _ := rfl
  set_get _ := rfl

/-- The supply of a node. -/
def supplyPart : Part (Oscillator platform) SupplyTracker where
  get oscillator := oscillator.supplyTracker
  set oscillator supplyTracker := { oscillator with supplyTracker }
  get_set _ _ := rfl
  set_get _ := rfl

section SparedParts

variable {ρ : Type} {part : Part (Oscillator platform) ρ}

/-- The batches spare a part outside the pools and the queue of deltas. Assumes: the part is outside
the pools and the queue of deltas. -/
theorem spares_applyBatches
    (hbatching : ∀ oscillator value, (part.set oscillator value).batching = oscillator.batching)
    (hset : ∀ (oscillator : Oscillator platform) (value : ρ) waveField pendingCommutative,
      part.set { oscillator with waveField, pendingCommutative } value =
        { part.set oscillator value with waveField, pendingCommutative }) :
    Spares keys order timestampNs .applyBatches part := by
  intro locals oscillator value
  unfold performSection
  dsimp only
  rw [commutativeBatches_eq, commutativeBatches_eq order oscillator, hbatching, Option.map_some]
  exact congrArg some (Prod.ext rfl (hset oscillator value _ _).symm)

/-- The loop spares a part that it does not read. Assumes: the loop does not read the part. -/
theorem spares_applyStateful
    (hloop : ∀ oscillator value, (part.set oscillator value).statefulLoop keys order =
      oscillator.statefulLoop keys order) :
    Spares keys order timestampNs .applyStateful part := by
  intro locals oscillator value
  unfold performSection
  rw [hloop, Option.map_map]
  refine congrArg₂ Option.map (funext fun outcome ↦ ?_) rfl
  cases outcome with
  | error error => rfl
  | ok ledger => rfl

/-- The EVM section spares a part outside the EVM pool. Assumes: the part is outside the EVM pool.
-/
theorem spares_applyEvm
    (hpool : ∀ oscillator value, (part.set oscillator value).evmPool = oscillator.evmPool)
    (hset : ∀ (oscillator : Oscillator platform) (value : ρ) evmPool,
      part.set { oscillator with evmPool } value = { part.set oscillator value with evmPool }) :
    Spares keys order timestampNs .applyEvm part := by
  intro locals oscillator value
  unfold performSection
  rw [hpool, Option.map_map]
  refine congrArg₂ Option.map (funext fun outcome ↦ ?_) rfl
  exact Prod.ext rfl (hset oscillator value outcome.1).symm

end SparedParts

theorem spares_field {synthesis : SynthesisSection}
    (hunused : synthesis.uses .waveField = false) :
    Spares keys order timestampNs synthesis (fieldPart : Part (Oscillator platform) _) := by
  intro locals oscillator waveField
  cases synthesis with
  | decay => cases hunused
  | syncFieldIntoDag => cases hunused
  | applyBatches => cases hunused
  | debitFees => cases hunused
  | syncDagIntoField => cases hunused
  | applyStateful => exact spares_applyStateful (fun _ _ ↦ rfl) locals oscillator waveField
  | applyEvm => exact spares_applyEvm (fun _ _ ↦ rfl) (fun _ _ _ ↦ rfl) locals oscillator waveField
  | _ => rfl

theorem spares_dag {synthesis : SynthesisSection} (hunused : synthesis.uses .dag = false) :
    Spares keys order timestampNs synthesis (dagPart : Part (Oscillator platform) _) := by
  intro locals oscillator dag
  cases synthesis with
  | syncFieldIntoDag => cases hunused
  | admitShifts => cases hunused
  | applyStateful => cases hunused
  | computeDebt => cases hunused
  | commit => cases hunused
  | applyBatches =>
    exact spares_applyBatches (fun _ _ ↦ rfl) (fun _ _ _ _ ↦ rfl) locals oscillator dag
  | applyEvm => exact spares_applyEvm (fun _ _ ↦ rfl) (fun _ _ _ ↦ rfl) locals oscillator dag
  | syncDagIntoField =>
    unfold performSection
    dsimp only
    rw [certify_eq, certify_eq keys timestampNs (oscillator.syncDagIntoField _ _ _)]
    rfl
  | _ => rfl

theorem spares_stakes {synthesis : SynthesisSection}
    (hunused : synthesis.uses .stakeTable = false) :
    Spares keys order timestampNs synthesis (stakePart : Part (Oscillator platform) _) := by
  intro locals oscillator stakeTable
  cases synthesis with
  | readStaked => cases hunused
  | distributeReward => cases hunused
  | applyStateful => cases hunused
  | distributeFees => cases hunused
  | syncDagIntoField => cases hunused
  | applyBatches =>
    exact spares_applyBatches (fun _ _ ↦ rfl) (fun _ _ _ _ ↦ rfl) locals oscillator stakeTable
  | applyEvm => exact spares_applyEvm (fun _ _ ↦ rfl) (fun _ _ _ ↦ rfl) locals oscillator stakeTable
  | _ => rfl

theorem spares_supply {synthesis : SynthesisSection} (hunused : synthesis.uses .supply = false) :
    Spares keys order timestampNs synthesis (supplyPart : Part (Oscillator platform) _) := by
  intro locals oscillator supplyTracker
  cases synthesis with
  | burnShare => cases hunused
  | syncDagIntoField => cases hunused
  | applyBatches =>
    exact spares_applyBatches (fun _ _ ↦ rfl) (fun _ _ _ _ ↦ rfl) locals oscillator supplyTracker
  | applyStateful => exact spares_applyStateful (fun _ _ ↦ rfl) locals oscillator supplyTracker
  | applyEvm =>
    exact spares_applyEvm (fun _ _ ↦ rfl) (fun _ _ _ ↦ rfl) locals oscillator supplyTracker
  | _ => rfl

theorem spares_nonces (synthesis : SynthesisSection) :
    Spares keys order timestampNs synthesis (noncePart : Part (Oscillator platform) _) := by
  intro locals oscillator seenNonces
  cases synthesis with
  | applyBatches =>
    exact spares_applyBatches (fun _ _ ↦ rfl) (fun _ _ _ _ ↦ rfl) locals oscillator seenNonces
  | applyStateful => exact spares_applyStateful (fun _ _ ↦ rfl) locals oscillator seenNonces
  | applyEvm => exact spares_applyEvm (fun _ _ ↦ rfl) (fun _ _ _ ↦ rfl) locals oscillator seenNonces
  | syncDagIntoField =>
    unfold performSection
    dsimp only
    rw [certify_eq, certify_eq keys timestampNs (oscillator.syncDagIntoField _ _ _)]
    rfl
  | _ => rfl

theorem spares_ledgers {synthesis : SynthesisSection}
    (hfield : synthesis.uses .waveField = false) (hdag : synthesis.uses .dag = false) :
    Spares keys order timestampNs synthesis (ledgerPart : Part (Oscillator platform) _) := by
  intro locals oscillator value
  have hsparesField : Spares keys order timestampNs synthesis
      (fieldPart : Part (Oscillator platform) _) :=
    spares_field hfield
  have hsparesDag : Spares keys order timestampNs synthesis
      (dagPart : Part (Oscillator platform) _) :=
    spares_dag hdag
  have hboth := hsparesDag locals (fieldPart.set oscillator value.1) value.2
  rw [hsparesField, Option.map_map] at hboth
  exact hboth

/-! ### Sections that commute -/

/-- The move of a stake works on the two ledgers only. -/
theorem moveLiquid_core (oscillator : Oscillator platform) (stake : StakeShift) (locked : ℕ) :
    oscillator.moveLiquid stake locked =
      (({ (newWithKeypair 0 : Oscillator platform) with
        waveField := oscillator.waveField, dag := oscillator.dag }).moveLiquid stake locked).map
          fun moved ↦ ledgerPart.set oscillator (ledgerPart.get moved) := by
  unfold moveLiquid
  dsimp only
  split_ifs
  · rfl
  · cases oscillator.waveField.debitAccount stake.operator (stake.amount - locked) with
    | mk waveField debited =>
      cases debited with
      | false => rfl
      | true => rfl
  · rfl

/-- The nonce check works on the nonces only. -/
theorem checkAndRecordNonce_core (oscillator : Oscillator platform) (account : AccountId)
    (domain : DomainId) (nonce : ℕ) :
    oscillator.checkAndRecordNonce account domain nonce =
      (({ (newWithKeypair 0 : Oscillator platform) with
        seenNonces := oscillator.seenNonces }).checkAndRecordNonce account domain nonce).map
          fun recorded : Oscillator platform ↦
            noncePart.set oscillator recorded.seenNonces := by
  unfold checkAndRecordNonce
  dsimp only
  cases oscillator.seenNonces[(account, domain)]? with
  | none => rfl
  | some highest =>
    dsimp only
    split_ifs
    · rfl
    · rfl

/-- Two sections that work on no common resource commute. Assumes: the two sections do not conflict
over any resource. -/
theorem commutes_of_not_conflicts {synthesis : SynthesisSection} {request : RequestSection}
    (hfree : ¬ Conflicts Resource.all synthesis request) :
    Commutes (@step platform keys order timestampNs) (.inl synthesis) (.inr request) := by
  have hunused : ∀ resource, request.uses resource = true → synthesis.uses resource = false := by
    intro resource hrequest
    by_contra hsynthesis
    rw [Bool.not_eq_false] at hsynthesis
    exact hfree ⟨resource, by cases resource <;> decide, hsynthesis, hrequest⟩
  cases request with
  | mint amount =>
    refine fun state ↦ (Spares.frames (spares_supply (hunused .supply rfl))).bind_comm ?_ state
    refine ⟨fun value ↦ if (value.2.mint amount).2 then some (value.1, (value.2.mint amount).1)
      else none, fun state ↦ ?_⟩
    show ((state.oscillator.performRequest state.locked (.mint amount)).map _) =
      (if (state.oscillator.supplyTracker.mint amount).2 then
        some (state.locked, (state.oscillator.supplyTracker.mint amount).1) else none).map _
    rw [performRequest_mint]
    split_ifs
    · rfl
    · rfl
  | seedBalance account amount =>
    refine fun state ↦ (Spares.frames (spares_dag (hunused .dag rfl))).bind_comm ?_ state
    exact ⟨fun value ↦ some (value.1, value.2.seedBalance account amount), fun state ↦ rfl⟩
  | creditAccount account amount =>
    refine fun state ↦ (Spares.frames (spares_field (hunused .waveField rfl))).bind_comm ?_ state
    exact ⟨fun value ↦ some (value.1, value.2.creditAccount account amount), fun state ↦ rfl⟩
  | recordNonce stake =>
    refine fun state ↦ (Spares.frames (spares_nonces synthesis)).bind_comm ?_ state
    refine ⟨fun value ↦ if !stake.verify platform.primitives then none
      else (({ (newWithKeypair 0 : Oscillator platform) with
        seenNonces := value.2 }).checkAndRecordNonce stake.operator 0 stake.nonce).toOption.map
          fun recorded : Oscillator platform ↦ (value.1, recorded.seenNonces), fun state ↦ ?_⟩
    show ((state.oscillator.performRequest state.locked (.recordNonce stake)).map _) = _
    unfold performRequest
    dsimp only
    rw [checkAndRecordNonce_core]
    split_ifs
    · rfl
    · show _ = ((({ (newWithKeypair 0 : Oscillator platform) with
        seenNonces := state.oscillator.seenNonces }).checkAndRecordNonce stake.operator 0
          stake.nonce).toOption.map _).map _
      cases ({ (newWithKeypair 0 : Oscillator platform) with
        seenNonces := state.oscillator.seenNonces }).checkAndRecordNonce stake.operator 0
          stake.nonce with
      | error text => rfl
      | ok recorded => rfl
  | readLocked stake =>
    refine fun state ↦ (Spares.frames (spares_stakes (hunused .stakeTable rfl))).bind_comm ?_ state
    exact ⟨fun value ↦ some (value.2.getStake stake.operator, value.2), fun state ↦ rfl⟩
  | moveLiquid stake =>
    refine fun state ↦ (Spares.frames
      (spares_ledgers (hunused .waveField rfl) (hunused .dag rfl))).bind_comm ?_ state
    refine ⟨fun value ↦ if stake.amount = value.1 then some value
      else (({ (newWithKeypair 0 : Oscillator platform) with
        waveField := value.2.1, dag := value.2.2 }).moveLiquid stake value.1).map
          fun moved ↦ (value.1, ledgerPart.get moved), fun state ↦ ?_⟩
    show ((state.oscillator.performRequest state.locked (.moveLiquid stake)).map _) =
      (if stake.amount = state.locked then
        some (state.locked, state.oscillator.waveField, state.oscillator.dag) else _).map _
    unfold performRequest
    dsimp only
    rw [moveLiquid_core]
    split_ifs
    · rfl
    · rw [Option.map_map, Option.map_map, Option.map_map]
      rfl
  | recordStake stake =>
    refine fun state ↦ (Spares.frames (spares_stakes (hunused .stakeTable rfl))).bind_comm ?_ state
    exact ⟨fun value ↦ some (value.1, if stake.amount = value.1 then value.2
      else (value.2.stake stake.operator stake.amount).1), fun state ↦ rfl⟩

/-! ### The supply matters to the mint only -/

/-- A certificate is ingested the same way with another supply. -/
theorem ingestCertificate_supply (oscillator : Oscillator platform) (cert : SynthesisCertificate)
    (registry : KeyRegistry) (supplyTracker : SupplyTracker) :
    ∃ supply, ({ oscillator with supplyTracker }.ingestCertificate cert registry).1 =
      { (oscillator.ingestCertificate cert registry).1 with supplyTracker := supply } := by
  unfold ingestCertificate CertificateTracker.apply
  dsimp only
  cases registry[cert.operator]? with
  | none => exact ⟨_, rfl⟩
  | some publicKey =>
    dsimp only
    cases cert.verify platform.primitives publicKey with
    | false => exact ⟨_, rfl⟩
    | true =>
      cases oscillator.stakeTable.isStaked cert.operator with
      | false => exact ⟨_, rfl⟩
      | true =>
        cases oscillator.certificateTracker.byOperatorTick[(cert.operator, cert.tick)]? with
        | none => exact ⟨_, rfl⟩
        | some kept =>
          by_cases hsame : kept.signingBytes = cert.signingBytes
          · simp only [hsame, ne_eq, not_true_eq_false, if_false]
            exact ⟨_, rfl⟩
          · simp only [hsame, ne_eq, not_false_eq_true, if_true]
            exact ⟨_, rfl⟩

/-- The certificate section does the same with another supply. -/
theorem certify_supply (oscillator : Oscillator platform) (tick : ℕ) (result : SynthesisResult)
    (root : Bytes32) (hashes : List TxHash) (evmHashes : List H256)
    (supplyTracker : SupplyTracker) :
    ∃ supply, { oscillator with supplyTracker }.certify keys tick timestampNs result root hashes
        evmHashes =
      { oscillator.certify keys tick timestampNs result root hashes evmHashes with
        supplyTracker := supply } := by
  unfold certify
  dsimp only
  split
  · exact ⟨_, rfl⟩
  · split_ifs
    · exact ⟨_, rfl⟩
    · obtain ⟨supply, hsupply⟩ := ingestCertificate_supply oscillator _ keys supplyTracker
      refine ⟨supply, ?_⟩
      rw [hsupply]

/-- A section of a synthesis does the same with another supply. -/
theorem performSection_supply (locals : SynthesisLocals) (oscillator : Oscillator platform)
    (synthesis : SynthesisSection) (supplyTracker : SupplyTracker) :
    ∃ supply, { oscillator with supplyTracker }.performSection keys order timestampNs locals
        synthesis =
      (oscillator.performSection keys order timestampNs locals synthesis).map fun out ↦
        (out.1, { out.2 with supplyTracker := supply }) := by
  cases hunused : synthesis.uses .supply with
  | false => exact ⟨supplyTracker, spares_supply hunused locals oscillator supplyTracker⟩
  | true =>
    cases synthesis with
    | burnShare => exact ⟨_, rfl⟩
    | syncDagIntoField =>
      obtain ⟨supply, hsupply⟩ := @certify_supply platform keys timestampNs
        (oscillator.syncDagIntoField locals.tick locals.ledger.activeAccounts
          locals.ledger.balances) locals.tick
        { commutativeApplied := locals.applied
          statefulApplied := locals.ledger.hashes.length
          evmApplied := locals.evmHashes.length
          statefulRejected := locals.rejected ++ locals.ledger.rejected
          finalBalances := locals.ledger.balances
          metabolicBurned := locals.decayed } locals.root locals.ledger.hashes locals.evmHashes
        supplyTracker
      exact ⟨supply, congrArg (fun next ↦ some (_, next)) hsupply⟩
    | _ => cases hunused

/-- A section of a request other than the mint does the same with another supply. Assumes: the
section does not use the supply. -/
theorem performRequest_supply {request : RequestSection} (hunused : request.uses .supply = false)
    (locked : ℕ) (oscillator : Oscillator platform) (supplyTracker : SupplyTracker) :
    { oscillator with supplyTracker }.performRequest locked request =
      (oscillator.performRequest locked request).map fun out ↦
        (out.1, { out.2 with supplyTracker }) := by
  unfold performRequest
  cases request with
  | mint amount => cases hunused
  | recordNonce stake =>
    dsimp only
    rw [checkAndRecordNonce_core, checkAndRecordNonce_core oscillator]
    split_ifs
    · rfl
    · dsimp only
      cases ({ (newWithKeypair 0 : Oscillator platform) with
        seenNonces := oscillator.seenNonces }).checkAndRecordNonce stake.operator 0
          stake.nonce with
      | error text => rfl
      | ok recorded => rfl
  | moveLiquid stake =>
    dsimp only
    rw [moveLiquid_core, moveLiquid_core oscillator]
    split_ifs
    · rfl
    · rw [Option.map_map, Option.map_map, Option.map_map]
      rfl
  | _ => rfl

/-- A certificate does not raise the circulating supply. -/
theorem circulating_ingestCertificate (oscillator : Oscillator platform)
    (cert : SynthesisCertificate) (registry : KeyRegistry) :
    (oscillator.ingestCertificate cert registry).1.supplyTracker.circulating ≤
      oscillator.supplyTracker.circulating := by
  rcases oscillator.ingestCertificate_cases cert registry with ⟨-, hsame⟩ |
    ⟨-, -, ⟨kept, -, -, hslash⟩ | ⟨-, hrecord⟩⟩
  · rw [hsame]
  · rw [hslash]
    dsimp only
    rw [SupplyTracker.circulating_burn]
    exact Nat.sub_le _ _
  · rw [hrecord]

/-- A section of a synthesis does not raise the circulating supply. Assumes: the section runs. -/
theorem circulating_step {synthesis : SynthesisSection} {state next : Concurrent platform}
    (hstep : step keys order timestampNs (.inl synthesis) state = some next) :
    next.oscillator.supplyTracker.circulating ≤ state.oscillator.supplyTracker.circulating := by
  cases hunused : synthesis.uses .supply with
  | false =>
    have hkept := (Spares.frames (spares_supply hunused)).get_eq hstep
    exact (congrArg (fun value : ℕ × SupplyTracker ↦ value.2.circulating) hkept).le
  | true =>
    obtain ⟨⟨locals, oscillator⟩, hsection, rfl⟩ := Option.map_eq_some_iff.mp hstep
    show oscillator.supplyTracker.circulating ≤ state.oscillator.supplyTracker.circulating
    unfold synthesisStep at hsection
    split_ifs at hsection
    · obtain ⟨-, rfl⟩ := Prod.mk.inj (Option.some.inj hsection)
      exact le_rfl
    · cases synthesis with
      | burnShare =>
        obtain ⟨-, rfl⟩ := Prod.mk.inj (Option.some.inj hsection)
        dsimp only
        split_ifs
        · rw [SupplyTracker.circulating_burn]
          exact Nat.sub_le _ _
        · exact le_rfl
      | syncDagIntoField =>
        obtain ⟨-, rfl⟩ := Prod.mk.inj (Option.some.inj hsection)
        rcases certify_cases (state.oscillator.syncDagIntoField _ _ _) keys _ timestampNs _ _ _ _
          with hsame | ⟨cert, certificates, keypair, -, -, -, heq⟩
        · rw [hsame]
          exact le_rfl
        · rw [heq]
          exact circulating_ingestCertificate _ cert keys
      | _ => cases hunused

/-- The sections of a synthesis do not raise the circulating supply. Assumes: the sections run. -/
theorem circulating_perform {steps : List SynthesisSection} {state next : Concurrent platform}
    (hperform : perform (step keys order timestampNs) (steps.map .inl) state = some next) :
    next.oscillator.supplyTracker.circulating ≤ state.oscillator.supplyTracker.circulating := by
  refine @perform_invariant _ _ _ (fun later : Concurrent platform ↦
    later.oscillator.supplyTracker.circulating ≤ state.oscillator.supplyTracker.circulating) _ _ _
      (fun step hstep before after hafter hbefore ↦ ?_) hperform le_rfl
  obtain ⟨synthesis, -, rfl⟩ := List.mem_map.mp hstep
  exact (circulating_step hafter).trans hbefore

/-! ### One call after the other -/

theorem perform_inl (steps : List SynthesisSection) (state : Concurrent platform) :
    perform (step keys order timestampNs) (steps.map .inl) state =
      (perform (synthesisStep keys order timestampNs) steps (state.locals, state.oscillator)).map
        fun (locals, oscillator) ↦ { state with locals, oscillator } := by
  induction steps generalizing state with
  | nil => rfl
  | cons first steps ih =>
    rw [List.map_cons, perform_cons, perform_cons, funext ih]
    unfold step
    dsimp only
    cases synthesisStep keys order timestampNs first (state.locals, state.oscillator) with
    | none => rfl
    | some out => rfl

theorem perform_inr (steps : List RequestSection) (state : Concurrent platform) :
    perform (step keys order timestampNs) (steps.map .inr) state =
      (perform requestStep steps (state.locked, state.oscillator)).map
        fun (locked, oscillator) ↦ { state with locked, oscillator } := by
  induction steps generalizing state with
  | nil => rfl
  | cons first steps ih =>
    rw [List.map_cons, perform_cons, perform_cons, funext ih]
    unfold step
    dsimp only
    cases requestStep first (state.locked, state.oscillator) with
    | none => rfl
    | some out => rfl

/-- All sections of a synthesis in a row are a synthesis. Assumes: the sections run in a row. -/
theorem synthesize_of_perform {oscillator final : Oscillator platform} {locals : SynthesisLocals}
    (hperform : perform (synthesisStep keys order timestampNs) SynthesisSection.all
      (.start, oscillator) = some (locals, final)) :
    ∃ out, oscillator.synthesize keys order timestampNs = some out ∧ out.1 = final := by
  have hwhole := perform_sections keys order timestampNs oscillator
  rw [hperform, Option.map_some] at hwhole
  obtain ⟨out, hsynthesize, hout⟩ := Option.map_eq_some_iff.mp hwhole.symm
  exact ⟨out, hsynthesize, congrArg Prod.fst hout⟩

variable {oscillator : Oscillator platform} {requests : List RequestSection}
  {schedule : List (SynthesisSection ⊕ RequestSection)} {final : Concurrent platform}

/-- When the request leads, the schedule does the request and then the synthesis. Assumes: the
schedule runs, and no section of the synthesis comes before one of the request with which it
conflicts. -/
theorem serial_of_secondLeads
    (hschedule : Interleaves SynthesisSection.all requests schedule)
    (hleads : SecondLeads (Conflicts Resource.all) schedule)
    (hperform : perform (step keys order timestampNs) schedule (start oscillator) = some final) :
    ∃ locked next, perform requestStep requests (0, oscillator) = some (locked, next) ∧
      ∃ out, next.synthesize keys order timestampNs = some out ∧ out.1 = final.oscillator := by
  rw [perform_of_secondLeads (fun _ _ ↦ commutes_of_not_conflicts) hleads, hschedule.left,
    hschedule.right, perform_append, perform_inr] at hperform
  obtain ⟨middle, hfirst, hsecond⟩ := Option.bind_eq_some_iff.mp hperform
  obtain ⟨⟨locked, next⟩, hrequests, rfl⟩ := Option.map_eq_some_iff.mp hfirst
  rw [perform_inl] at hsecond
  obtain ⟨⟨locals, synthesized⟩, hsections, rfl⟩ := Option.map_eq_some_iff.mp hsecond
  exact ⟨locked, next, hrequests, synthesize_of_perform hsections⟩

/-- When the synthesis leads, the schedule does the synthesis and then the request. Assumes: the
schedule runs, and no section of the request comes before one of the synthesis with which it
conflicts. -/
theorem serial_of_firstLeads
    (hschedule : Interleaves SynthesisSection.all requests schedule)
    (hleads : FirstLeads (Conflicts Resource.all) schedule)
    (hperform : perform (step keys order timestampNs) schedule (start oscillator) = some final) :
    ∃ locals next, perform (synthesisStep keys order timestampNs) SynthesisSection.all
        (.start, oscillator) = some (locals, next) ∧
      ∃ locked, perform requestStep requests (0, next) = some (locked, final.oscillator) := by
  rw [perform_of_firstLeads (fun _ _ ↦ commutes_of_not_conflicts) hleads, hschedule.left,
    hschedule.right, perform_append, perform_inl] at hperform
  obtain ⟨middle, hfirst, hsecond⟩ := Option.bind_eq_some_iff.mp hperform
  obtain ⟨⟨locals, next⟩, hsections, rfl⟩ := Option.map_eq_some_iff.mp hfirst
  rw [perform_inr] at hsecond
  obtain ⟨⟨locked, served⟩, hrequests, rfl⟩ := Option.map_eq_some_iff.mp hsecond
  exact ⟨locals, next, hsections, locked, hrequests⟩

/-- Another supply changes nothing but the supply. Assumes: no step is a mint, and the steps run. -/
theorem perform_supply {steps : List (SynthesisSection ⊕ RequestSection)}
    (hmintless : ∀ amount, .inr (.mint amount) ∉ steps) {state : Concurrent platform}
    (hperform : perform (step keys order timestampNs) steps state = some final)
    (supplyTracker : SupplyTracker) :
    ∃ supply, perform (step keys order timestampNs) steps
        { state with oscillator := { state.oscillator with supplyTracker } } =
      some { final with oscillator := { final.oscillator with supplyTracker := supply } } := by
  induction steps generalizing state supplyTracker with
  | nil =>
    obtain rfl := Option.some.inj hperform
    exact ⟨supplyTracker, rfl⟩
  | cons first steps ih =>
    obtain ⟨next, hfirst, hrest⟩ := Option.bind_eq_some_iff.mp hperform
    have hother : ∃ supply, step keys order timestampNs first
        { state with oscillator := { state.oscillator with supplyTracker } } =
        some { next with oscillator := { next.oscillator with supplyTracker := supply } } := by
      cases first with
      | inl synthesis =>
        obtain ⟨⟨locals, served⟩, hsection, rfl⟩ := Option.map_eq_some_iff.mp hfirst
        unfold synthesisStep at hsection
        unfold step synthesisStep
        dsimp only at hsection ⊢
        split_ifs at hsection ⊢
        · obtain ⟨rfl, rfl⟩ := Prod.mk.inj (Option.some.inj hsection)
          exact ⟨supplyTracker, rfl⟩
        · obtain ⟨supply, hsupply⟩ := @performSection_supply platform keys order timestampNs
            state.locals state.oscillator synthesis supplyTracker
          rw [hsupply, hsection]
          exact ⟨supply, rfl⟩
      | inr request =>
        have hunused : request.uses .supply = false := by
          cases request with
          | mint amount => exact absurd List.mem_cons_self (hmintless amount)
          | _ => rfl
        obtain ⟨⟨locked, served⟩, hrequest, rfl⟩ := Option.map_eq_some_iff.mp hfirst
        refine ⟨supplyTracker, ?_⟩
        show (({ state.oscillator with supplyTracker }.performRequest state.locked request).map
          _) = _
        rw [performRequest_supply hunused]
        unfold requestStep at hrequest
        rw [hrequest]
        rfl
    obtain ⟨supply, hstep⟩ := hother
    rw [perform_cons, hstep]
    exact ih (fun amount hmem ↦ hmintless amount (List.mem_cons_of_mem _ hmem)) hrest supply

/-! ### No update is lost -/

/-- The balances of both ledgers and the stakes of a node. -/
def ledgers (oscillator : Oscillator platform) :
    WaveField × ExtTreeMap AccountId ℕ × StakeTable :=
  (oscillator.waveField, oscillator.dag.balances, oscillator.stakeTable)

/-- A mint in a schedule succeeds and changes the supply only. Assumes: the step runs. -/
theorem step_mint {amount : ℕ} {state next : Concurrent platform}
    (hstep : step keys order timestampNs (.inr (.mint amount)) state = some next) :
    (state.oscillator.supplyTracker.mint amount).2 = true ∧
      { next with
        oscillator := { next.oscillator with supplyTracker := state.oscillator.supplyTracker } } =
          state := by
  obtain ⟨⟨locked, oscillator⟩, hrequest, rfl⟩ := Option.map_eq_some_iff.mp hstep
  unfold requestStep at hrequest
  rw [performRequest_mint] at hrequest
  split_ifs at hrequest with hminted
  obtain ⟨rfl, rfl⟩ := Prod.mk.inj (Option.some.inj hrequest)
  exact ⟨hminted, rfl⟩

/-- When the synthesis leads over the ledgers, it leads over the supply too. Assumes: the synthesis
leads over the ledgers, and the request mints nothing. -/
theorem firstLeads_of_ledgers
    (hmintless : ∀ request ∈ rights schedule, request.uses .supply = false)
    (hleads : FirstLeads (Conflicts Resource.ledgers) schedule) :
    FirstLeads (Conflicts Resource.all) schedule := by
  refine List.Pairwise.imp_of_mem (fun {earlier later} hearlier _ hfree b hb a ha hconflict ↦ ?_)
    hleads
  obtain ⟨resource, hmem, hsynthesis, hrequest⟩ := hconflict
  refine hfree b hb a ha ⟨resource, ?_, hsynthesis, hrequest⟩
  rw [Option.mem_def, Sum.getRight?_eq_some_iff] at hb
  rw [hb, ← mem_rights] at hearlier
  cases resource with
  | supply =>
    rw [hmintless b hearlier] at hrequest
    cases hrequest
  | _ => decide

/-- When the synthesis leads, up to the mint, the schedule does to the ledgers what the synthesis
and then the seeding do. Assumes: the schedule runs, and no section of the seeding comes before one
of the synthesis with which it conflicts over a ledger. -/
theorem seed_of_firstLeads {account : AccountId} {amount : ℕ}
    (hschedule : Interleaves SynthesisSection.all (RequestSection.seed account amount) schedule)
    (hleads : FirstLeads (Conflicts Resource.ledgers) schedule)
    (hperform : perform (step keys order timestampNs) schedule (start oscillator) = some final) :
    ∃ out, oscillator.synthesize keys order timestampNs = some out ∧
      ledgers final.oscillator = ledgers (out.1.seedAccount account amount) := by
  obtain ⟨before, after, rfl, hafter⟩ := eq_append_of_rights_eq_cons hschedule.right
  rw [perform_append] at hperform
  obtain ⟨middle, hbefore, hrest⟩ := Option.bind_eq_some_iff.mp hperform
  obtain ⟨minted, hmint, hrun⟩ := Option.bind_eq_some_iff.mp hrest
  obtain ⟨hcovered, hmiddle⟩ := step_mint hmint
  have hmintless : ∀ other, .inr (.mint other) ∉ after := by
    intro other hmem
    rw [← mem_rights, hafter] at hmem
    simp at hmem
  obtain ⟨supply, hother⟩ := perform_supply hmintless hrun middle.oscillator.supplyTracker
  rw [hmiddle] at hother
  have hwithout : Interleaves SynthesisSection.all
      [.seedBalance account amount, .creditAccount account amount]
      (before.map .inl ++ after) := by
    constructor
    · rw [← hschedule.left, lefts_append, lefts_append]
      rfl
    · rw [rights_append, rights_map_inl, hafter]
      rfl
  have hsublist : FirstLeads (Conflicts Resource.ledgers)
      (before.map (Sum.inl : SynthesisSection → SynthesisSection ⊕ RequestSection) ++ after) :=
    List.Pairwise.sublist (List.Sublist.append_left (List.sublist_cons_self _ _) _) hleads
  have hsupply : ∀ request ∈ rights
      (before.map (Sum.inl : SynthesisSection → SynthesisSection ⊕ RequestSection) ++ after),
      request.uses .supply = false := by
    rw [hwithout.right]
    intro request hrequest
    simp only [List.mem_cons, List.not_mem_nil, or_false] at hrequest
    rcases hrequest with rfl | rfl
    · rfl
    · rfl
  have hleads' := firstLeads_of_ledgers hsupply hsublist
  obtain ⟨locals, next, hsections, locked, hrequests⟩ := serial_of_firstLeads hwithout hleads'
    (by rw [perform_append, hbefore]; exact hother)
  obtain ⟨out, hsynthesize, rfl⟩ := synthesize_of_perform hsections
  obtain ⟨-, hfinal⟩ := Prod.mk.inj (Option.some.inj hrequests)
  refine ⟨out, hsynthesize, ?_⟩
  have hless : out.1.supplyTracker.circulating ≤ middle.oscillator.supplyTracker.circulating := by
    have hall : SynthesisSection.all = before ++ lefts after := by
      rw [← hwithout.left, lefts_append, lefts_map_inl]
    have hwhole := @perform_inl platform keys order timestampNs SynthesisSection.all
      (start oscillator)
    have hsections' : perform (synthesisStep keys order timestampNs) SynthesisSection.all
        ((start oscillator).locals, (start oscillator).oscillator) = some (locals, out.1) :=
      hsections
    rw [hsections', hall, List.map_append, perform_append, hbefore, Option.bind_some,
      Option.map_some] at hwhole
    exact circulating_perform hwhole
  have hview := congrArg ledgers hfinal
  rw [seedAccount_eq, if_pos (SupplyTracker.mint_of_le hless hcovered)]
  exact hview.symm

/-! ### Announcements of the locked stake -/

/-- Only the last section of a synthesis changes the stake table. Assumes: another section runs. -/
theorem stakeTable_step {synthesis : SynthesisSection} (hother : synthesis ≠ .syncDagIntoField)
    {state next : Concurrent platform}
    (hstep : step keys order timestampNs (.inl synthesis) state = some next) :
    next.oscillator.stakeTable = state.oscillator.stakeTable := by
  obtain ⟨⟨locals, oscillator⟩, hsection, rfl⟩ := Option.map_eq_some_iff.mp hstep
  show oscillator.stakeTable = state.oscillator.stakeTable
  unfold synthesisStep at hsection
  split_ifs at hsection
  · obtain ⟨-, rfl⟩ := Prod.mk.inj (Option.some.inj hsection)
    rfl
  · cases synthesis with
    | syncDagIntoField => exact absurd rfl hother
    | applyBatches =>
      unfold performSection at hsection
      dsimp only at hsection
      rw [commutativeBatches_eq] at hsection
      obtain ⟨-, rfl⟩ := Prod.mk.inj (Option.some.inj hsection)
      rfl
    | applyStateful =>
      obtain ⟨outcome, -, hout⟩ := Option.map_eq_some_iff.mp hsection
      cases outcome with
      | error error =>
        obtain ⟨-, rfl⟩ := Prod.mk.inj hout
        rfl
      | ok ledger =>
        obtain ⟨-, rfl⟩ := Prod.mk.inj hout
        rfl
    | applyEvm =>
      obtain ⟨_, -, hout⟩ := Option.map_eq_some_iff.mp hsection
      obtain ⟨-, rfl⟩ := Prod.mk.inj hout
      rfl
    | _ =>
      obtain ⟨-, rfl⟩ := Prod.mk.inj (Option.some.inj hsection)
      rfl

/-- An announcement that read the announced stake does nothing more. Assumes: the announcement read
its own stake, and the remaining sections of the request are the last two. -/
theorem perform_idle {stake : StakeShift} {steps : List (SynthesisSection ⊕ RequestSection)}
    (hrights : ∀ request ∈ rights steps, request = .moveLiquid stake ∨ request = .recordStake stake)
    {state : Concurrent platform} (hlocked : stake.amount = state.locked) :
    perform (step keys order timestampNs) steps state =
      perform (step keys order timestampNs) ((lefts steps).map .inl) state := by
  induction steps generalizing state with
  | nil => rfl
  | cons first steps ih =>
    cases first with
    | inl synthesis =>
      show (step keys order timestampNs (.inl synthesis) state).bind _ =
        (step keys order timestampNs (.inl synthesis) state).bind _
      cases hstep : step keys order timestampNs (.inl synthesis) state with
      | none => rfl
      | some next =>
        obtain ⟨out, -, rfl⟩ := Option.map_eq_some_iff.mp hstep
        exact ih hrights hlocked
    | inr request =>
      have hidle : step keys order timestampNs (.inr request) state = some state := by
        show (state.oscillator.performRequest state.locked request).map _ = some state
        unfold performRequest
        rcases hrights request List.mem_cons_self with rfl | rfl
        · dsimp only
          rw [if_pos hlocked]
          rfl
        · dsimp only
          rw [if_pos hlocked]
          rfl
      rw [perform_cons, hidle]
      exact ih (fun other hother ↦ hrights other (List.mem_cons_of_mem _ hother)) hlocked

/-- The nonce section of an announcement changes nothing but the nonces. Assumes: the nonce section
runs. -/
theorem recordNonce_eq {stake : StakeShift} {locked locked' : ℕ} {next : Oscillator platform}
    (hrequest : requestStep (.recordNonce stake) (locked, oscillator) = some (locked', next)) :
    locked' = locked ∧ ∃ seenNonces, next = { oscillator with seenNonces } := by
  unfold requestStep performRequest at hrequest
  dsimp only at hrequest
  rw [checkAndRecordNonce_core] at hrequest
  split_ifs at hrequest
  cases hcheck : ({ (newWithKeypair 0 : Oscillator platform) with
      seenNonces := oscillator.seenNonces }).checkAndRecordNonce stake.operator 0 stake.nonce with
  | error text =>
    rw [hcheck] at hrequest
    cases hrequest
  | ok recorded =>
    rw [hcheck] at hrequest
    obtain ⟨hsame, heq⟩ := Prod.mk.inj (Option.some.inj hrequest)
    exact ⟨hsame.symm, recorded.seenNonces, heq.symm⟩

/-- An announcement of the locked stake records its nonce and nothing else. Assumes: the nonce is
recorded. -/
theorem applyStake_locked {stake : StakeShift} {locked : ℕ} {next : Oscillator platform}
    (hrequest : requestStep (.recordNonce stake) (0, oscillator) = some (locked, next))
    (hlocked : stake.amount = oscillator.stakeTable.getStake stake.operator) :
    (oscillator.applyStake stake).1 = next := by
  obtain ⟨-, seenNonces, hnext⟩ := recordNonce_eq hrequest
  have hsame : stake.amount = next.stakeTable.getStake stake.operator := by
    rw [hnext]
    exact hlocked
  have hwhole := perform_stake stake 0 oscillator
  have hmoved := perform_moveStake stake (next.stakeTable.getStake stake.operator) next
  rw [if_pos hsame] at hmoved
  rw [RequestSection.stake, perform_cons, hrequest, Option.bind_some, perform_cons] at hwhole
  change (perform requestStep [.moveLiquid stake, .recordStake stake]
    (next.stakeTable.getStake stake.operator, next)).map Prod.snd = _ at hwhole
  rw [hmoved] at hwhole
  split_ifs at hwhole
  exact (Option.some.inj hwhole).symm

/-- An announcement of the locked stake loses no update, whatever the schedule. Assumes: the stake
announced is the one locked before, and the schedule runs. -/
theorem stake_of_locked {stake : StakeShift}
    (hschedule : Interleaves SynthesisSection.all (RequestSection.stake stake) schedule)
    (hlocked : stake.amount = oscillator.stakeTable.getStake stake.operator)
    (hperform : perform (step keys order timestampNs) schedule (start oscillator) = some final) :
    FirstLeads (Conflicts Resource.all) schedule ∨
      ∃ out, (oscillator.applyStake stake).1.synthesize keys order timestampNs = some out ∧
        out.1 = final.oscillator := by
  obtain ⟨before, rest, rfl, hrest⟩ := eq_append_of_rights_eq_cons hschedule.right
  obtain ⟨between, after, rfl, hafter⟩ := eq_append_of_rights_eq_cons hrest
  set early : List (SynthesisSection ⊕ RequestSection) :=
    before.map .inl ++ .inr (.recordNonce stake) :: between.map .inl with hearly
  have hsplit : before.map .inl ++ .inr (.recordNonce stake) :: (between.map .inl ++
      .inr (.readLocked stake) :: after) = early ++ .inr (.readLocked stake) :: after := by
    rw [hearly, List.append_assoc, List.cons_append]
  have hlefts : lefts early = before ++ between := by
    rw [hearly, lefts_append, lefts_map_inl]
    exact congrArg _ (lefts_map_inl between)
  have hrights : rights early = [.recordNonce stake] := by
    rw [hearly, rights_append, rights_map_inl]
    exact congrArg (List.cons _) (rights_map_inl between)
  have hfree : ∀ request ∈ rights early, ∀ synthesis,
      ¬ Conflicts Resource.all synthesis request := by
    rw [hrights]
    rintro request hrequest synthesis ⟨resource, -, -, huses⟩
    rw [List.mem_singleton.mp hrequest] at huses
    cases resource <;> cases huses
  have hall : (before ++ between) ++ lefts after = SynthesisSection.all := by
    rw [← hschedule.left, hsplit, lefts_append, hlefts]
    rfl
  rw [hsplit] at hperform ⊢
  by_cases hlast : SynthesisSection.syncDagIntoField ∈ before ++ between
  · refine .inl (firstLeads_append hfree ?_)
    have hends : (before ++ between) ++ lefts after =
        (SynthesisSection.beforeLoop ++ .applyStateful :: SynthesisSection.afterLoop) ++
          [.syncDagIntoField] := hall
    exact eq_nil_of_append_eq_append_singleton hends (by decide) hlast
  · right
    rw [perform_append, perform_of_secondLeads (fun _ _ ↦ commutes_of_not_conflicts)
      (secondLeads_of_free hfree), hlefts, hrights, perform_append, perform_inr] at hperform
    obtain ⟨present, hfirst, hsecond⟩ := Option.bind_eq_some_iff.mp hperform
    obtain ⟨_, hrequests, hsections⟩ := Option.bind_eq_some_iff.mp hfirst
    obtain ⟨⟨_, _⟩, hnonces, rfl⟩ := Option.map_eq_some_iff.mp hrequests
    obtain ⟨⟨locked, noted⟩, hnonce, hdone⟩ := Option.bind_eq_some_iff.mp hnonces
    obtain ⟨rfl, rfl⟩ := Prod.mk.inj (Option.some.inj hdone)
    obtain ⟨-, seenNonces, hnoted⟩ := recordNonce_eq hnonce
    have hunstaked : noted.stakeTable = oscillator.stakeTable := by
      rw [hnoted]
      rfl
    have happlied : (oscillator.applyStake stake).1 = noted := applyStake_locked hnonce hlocked
    have hstakes : present.oscillator.stakeTable = oscillator.stakeTable := by
      refine @perform_invariant _ _ _ (fun later : Concurrent platform ↦
        later.oscillator.stakeTable = oscillator.stakeTable) _ _ _
          (fun step hstep state after hafter hstate ↦ ?_) hsections hunstaked
      obtain ⟨synthesis, hmem, rfl⟩ := List.mem_map.mp hstep
      exact (stakeTable_step (fun hsame ↦ hlast (hsame ▸ hmem)) hafter).trans hstate
    rw [perform_cons] at hsecond
    change perform (step keys order timestampNs) after { present with
      locked := present.oscillator.stakeTable.getStake stake.operator } = some final at hsecond
    have hidle : ∀ request ∈ rights after,
        request = .moveLiquid stake ∨ request = .recordStake stake := by
      rw [hafter]
      intro request hrequest
      simpa using hrequest
    have hread : stake.amount = present.oscillator.stakeTable.getStake stake.operator := by
      rw [hstakes]
      exact hlocked
    rw [perform_idle hidle hread, perform_inl] at hsecond
    rw [perform_inl] at hsections
    obtain ⟨⟨locals, stopped⟩, hearlier, rfl⟩ := Option.map_eq_some_iff.mp hsections
    obtain ⟨⟨locals', synthesized⟩, hlater, rfl⟩ := Option.map_eq_some_iff.mp hsecond
    have hwhole : perform (synthesisStep keys order timestampNs) SynthesisSection.all
        (.start, noted) = some (locals', synthesized) := by
      rw [← hall, perform_append]
      exact Option.bind_eq_some_iff.mpr ⟨_, hearlier, hlater⟩
    rw [happlied]
    exact synthesize_of_perform hwhole

/-! ### Schedules that lose no update -/

/-- Two accepted calls. -/
inductive Call
  | seed (account : AccountId) (amount : ℕ)
  | announce (stake : StakeShift)

/-- The sections of a call. -/
def Call.sections : Call → List RequestSection
  | .seed account amount => RequestSection.seed account amount
  | .announce stake => RequestSection.stake stake

/-- The node after a call. -/
def Call.serve (oscillator : Oscillator platform) : Call → Oscillator platform
  | .seed account amount => oscillator.seedAccount account amount
  | .announce stake => (oscillator.applyStake stake).1

/-- A call announces the stake that is locked already. -/
def Call.Unchanged (oscillator : Oscillator platform) : Call → Prop
  | .seed _ _ => False
  | .announce stake => stake.amount = oscillator.stakeTable.getStake stake.operator

/-- A synthesis and an accepted call in any interleaving leave in the wave-field, the balances of
the DAG and the stake table what the two leave there one after the other in some order. Assumes: no
section of the synthesis comes before one of the call that works on the same resource, or no section
of the call comes before one of the synthesis that works on the same resource other than the supply,
or the call announces the stake that is locked already. -/
theorem serializable_of_leads {call : Call}
    (hschedule : Interleaves SynthesisSection.all call.sections schedule)
    (hperform : perform (step keys order timestampNs) schedule (start oscillator) = some final)
    (hleads : SecondLeads (Conflicts Resource.all) schedule ∨
      FirstLeads (Conflicts Resource.ledgers) schedule ∨ call.Unchanged oscillator) :
    (∃ out, (call.serve oscillator).synthesize keys order timestampNs = some out ∧
      ledgers final.oscillator = ledgers out.1) ∨
    ∃ out, oscillator.synthesize keys order timestampNs = some out ∧
      ledgers final.oscillator = ledgers (call.serve out.1) := by
  cases call with
  | seed account amount =>
    rcases hleads with hsecond | hfirst | hunchanged
    · obtain ⟨locked, next, hrequests, out, hsynthesize, hfinal⟩ :=
        serial_of_secondLeads hschedule hsecond hperform
      have hseed : perform requestStep (RequestSection.seed account amount) (0, oscillator) =
        some (locked, next) := hrequests
      rw [perform_seed] at hseed
      split_ifs at hseed
      obtain ⟨-, rfl⟩ := Prod.mk.inj (Option.some.inj hseed)
      exact .inl ⟨out, hsynthesize, congrArg ledgers hfinal.symm⟩
    · exact .inr (seed_of_firstLeads hschedule hfirst hperform)
    · exact absurd hunchanged not_false
  | announce stake =>
    have hserve (before : Oscillator platform) {locked : ℕ} {next : Oscillator platform}
        (hrequests : perform requestStep (RequestSection.stake stake) (0, before) =
          some (locked, next)) : (before.applyStake stake).1 = next := by
      have hwhole := perform_stake stake 0 before
      rw [hrequests, Option.map_some] at hwhole
      split_ifs at hwhole
      exact (Option.some.inj hwhole).symm
    have hmintless : ∀ request ∈ rights schedule, request.uses .supply = false := by
      rw [hschedule.right]
      intro request hrequest
      simp only [Call.sections, RequestSection.stake, List.mem_cons, List.not_mem_nil, or_false]
        at hrequest
      rcases hrequest with rfl | rfl | rfl | rfl <;> rfl
    have hlast : FirstLeads (Conflicts Resource.all) schedule →
        ∃ out, oscillator.synthesize keys order timestampNs = some out ∧
          ledgers final.oscillator = ledgers ((Call.announce stake).serve out.1) := by
      intro hfirst
      obtain ⟨locals, next, hsections, locked, hrequests⟩ :=
        serial_of_firstLeads hschedule hfirst hperform
      obtain ⟨out, hsynthesize, rfl⟩ := synthesize_of_perform hsections
      exact ⟨out, hsynthesize, congrArg ledgers (hserve out.1 hrequests).symm⟩
    rcases hleads with hsecond | hfirst | hunchanged
    · obtain ⟨locked, next, hrequests, out, hsynthesize, hfinal⟩ :=
        serial_of_secondLeads hschedule hsecond hperform
      refine .inl ⟨out, ?_, congrArg ledgers hfinal.symm⟩
      rw [Call.serve, hserve oscillator hrequests]
      exact hsynthesize
    · exact .inr (hlast (firstLeads_of_ledgers hmintless hfirst))
    · rcases stake_of_locked hschedule hunchanged hperform with hfirst |
        ⟨out, hsynthesize, hfinal⟩
      · exact .inr (hlast hfirst)
      · exact .inl ⟨out, hsynthesize, congrArg ledgers hfinal.symm⟩

/-- A node with one account that holds 5. -/
def onePurse : Oscillator Platform.sample := (newWithKeypair 8).seedAccount ⟨1⟩ 5

/-- A schedule of a seeding with 7 that mints before the synthesis and credits the ledgers around
the copy back. -/
def mintFirst : List (SynthesisSection ⊕ RequestSection) :=
  .inr (.mint 7) :: SynthesisSection.beforeLoop.map .inl ++
    .inl .applyStateful :: (SynthesisSection.afterLoop.map .inl ++
      [.inr (.seedBalance ⟨1⟩ 7), .inl .syncDagIntoField, .inr (.creditAccount ⟨1⟩ 7)])

/-- A schedule of a seeding with 7 that credits the ledgers behind the loop over the stateful
shifts. -/
def behindLoop : List (SynthesisSection ⊕ RequestSection) :=
  SynthesisSection.beforeLoop.map .inl ++ .inl .applyStateful ::
    ((RequestSection.seed ⟨1⟩ 7).map .inr ++ SynthesisSection.afterLoop.map .inl ++
      [.inl .syncDagIntoField])

/-- A seeding that is spread over a synthesis and loses nothing. -/
theorem serializable_of_leads_mintFirst :
    ∃ final : Concurrent Platform.sample,
      perform (step sampleKeys .forward 0) mintFirst (start onePurse) = some final ∧
      final.oscillator.dag.balances[(⟨1⟩ : AccountId)]? = some 12 ∧
      ((∃ out, ((Call.seed ⟨1⟩ 7).serve onePurse).synthesize sampleKeys .forward 0 = some out ∧
          ledgers final.oscillator = ledgers out.1) ∨
        ∃ out, onePurse.synthesize sampleKeys .forward 0 = some out ∧
          ledgers final.oscillator = ledgers ((Call.seed ⟨1⟩ 7).serve out.1)) := by
  have hruns : ((perform (step sampleKeys .forward 0) mintFirst (start onePurse)).map
      fun final ↦ final.oscillator.dag.balances[(⟨1⟩ : AccountId)]?) = some (some 12) := by
    decide +kernel
  obtain ⟨final, hperform, hbalance⟩ := Option.map_eq_some_iff.mp hruns
  have hschedule : Interleaves SynthesisSection.all (Call.seed ⟨1⟩ 7).sections mintFirst :=
    ⟨by decide, by decide⟩
  have hleads : FirstLeads (Conflicts Resource.ledgers) mintFirst := by decide +kernel
  exact ⟨final, hperform, hbalance,
    serializable_of_leads hschedule hperform (.inr (.inl hleads))⟩

/-- A seeding behind the loop is lost: both ledgers have 5 afterwards, and 12 when the two calls run
one after the other. -/
theorem seeding_lost :
    ∃ (schedule : List (SynthesisSection ⊕ RequestSection)) (final : Concurrent Platform.sample),
      Interleaves SynthesisSection.all (Call.seed ⟨1⟩ 7).sections schedule ∧
      perform (step sampleKeys .forward 0) schedule (start onePurse) = some final ∧
      final.oscillator.waveField.unitsAt ⟨1⟩ = some 5 ∧
      final.oscillator.dag.balances[(⟨1⟩ : AccountId)]? = some 5 ∧
      ¬ ((∃ out, ((Call.seed ⟨1⟩ 7).serve onePurse).synthesize sampleKeys .forward 0 = some out ∧
          ledgers final.oscillator = ledgers out.1) ∨
        ∃ out, onePurse.synthesize sampleKeys .forward 0 = some out ∧
          ledgers final.oscillator = ledgers ((Call.seed ⟨1⟩ 7).serve out.1)) := by
  have hruns : ((perform (step sampleKeys .forward 0) behindLoop (start onePurse)).map
      fun final ↦ (final.oscillator.waveField.unitsAt ⟨1⟩,
        final.oscillator.dag.balances[(⟨1⟩ : AccountId)]?)) = some (some 5, some 5) := by
    decide +kernel
  have hfirst : ((((Call.seed ⟨1⟩ 7).serve onePurse).synthesize sampleKeys .forward 0).map
      fun out ↦ out.1.dag.balances[(⟨1⟩ : AccountId)]?) = some (some 12) := by
    decide +kernel
  have hsecond : ((onePurse.synthesize sampleKeys .forward 0).map
      fun out ↦ ((Call.seed ⟨1⟩ 7).serve out.1).dag.balances[(⟨1⟩ : AccountId)]?) =
        some (some 12) := by
    decide +kernel
  obtain ⟨final, hperform, hresult⟩ := Option.map_eq_some_iff.mp hruns
  obtain ⟨hunits, hbalance⟩ := Prod.mk.inj hresult
  refine ⟨behindLoop, final, ⟨by decide, by decide⟩, hperform, hunits, hbalance, ?_⟩
  rintro (⟨out, hsynthesize, hledgers⟩ | ⟨out, hsynthesize, hledgers⟩)
  · have hsame := congrArg (fun view ↦ view.2.1[(⟨1⟩ : AccountId)]?) hledgers
    rw [hsynthesize, Option.map_some, Option.some.injEq] at hfirst
    exact absurd (hbalance.symm.trans (hsame.trans hfirst)) (by decide)
  · have hsame := congrArg (fun view ↦ view.2.1[(⟨1⟩ : AccountId)]?) hledgers
    rw [hsynthesize, Option.map_some, Option.some.injEq] at hsecond
    exact absurd (hbalance.symm.trans (hsame.trans hsecond)) (by decide)

end Concurrent

end Fluidic.Consensus
