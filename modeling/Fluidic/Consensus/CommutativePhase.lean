import Fluidic.Consensus.SynthesisSpec
import Fluidic.Consensus.Ingestion
import Fluidic.Field.CommutativeBatch

/-!
# The commutative phase

The pending deltas are split into one batch per registered domain, and the batches are visited one
after the other. `verdicts` lists them in that order, each with whether the routine accepts it at
its turn. The phase is a function of this list: the refused batches are queued again, and the root
is that of the batch visited last (`commutativePhase_eq_verdicts`).
-/

set_option autoImplicit false
set_option relaxedAutoImplicit false

namespace Fluidic.Consensus

open Library Crypto Fluidic.Field Value
open Std (ExtTreeMap LawfulEqCmp)

/-- The deltas of one domain. -/
abbrev Batch := DomainId × List (Coordinate × ℤ × PoolId)

namespace Oscillator

variable {platform : Platform}

/-! ### Batches -/

/-- The pending deltas of one domain, when it takes commutative signals. -/
def groupOf (registry : DomainRegistry) (pending : List (DomainId × Coordinate × ℤ × PoolId))
    (domain : DomainId) : List (Coordinate × ℤ × PoolId) :=
  (pending.filter fun delta ↦ registry.isCommutative delta.1 && decide (delta.1 = domain)).map
    Prod.snd

/-- The batches are gathered from the deltas of the domains that take commutative signals. -/
theorem byDomain_eq (registry : DomainRegistry)
    (pending : List (DomainId × Coordinate × ℤ × PoolId)) :
    byDomain registry pending = (pending.filter fun delta ↦ registry.isCommutative delta.1).foldl
      (accumulate Prod.fst (fun group delta ↦ group ++ [delta.2]) []) ∅ := by
  unfold byDomain
  rw [List.foldl_filter]
  refine congrArg (fun step ↦ List.foldl step ∅ pending) (funext₂ fun groups delta ↦ ?_)
  unfold DomainRegistry.isCommutative accumulate
  cases registry.get? delta.1 <;> rfl

/-- The batches of a phase: one for each domain with pending deltas that takes commutative
signals. -/
theorem mem_byDomain (registry : DomainRegistry)
    (pending : List (DomainId × Coordinate × ℤ × PoolId)) (batch : Batch) :
    batch ∈ (byDomain registry pending).toList ↔
      (∃ delta ∈ pending, registry.isCommutative delta.1 = true ∧ delta.1 = batch.1) ∧
        batch.2 = groupOf registry pending batch.1 := by
  have hgroup : ∀ (deltas : List (DomainId × Coordinate × ℤ × PoolId))
      (group : List (Coordinate × ℤ × PoolId)),
      deltas.foldl (fun group delta ↦ group ++ [delta.2]) group = group ++ deltas.map Prod.snd := by
    intro deltas
    induction deltas with
    | nil => simp
    | cons delta deltas ih => simp [ih]
  rw [byDomain_eq, mem_toList_accumulate, hgroup, List.nil_append, List.filter_filter]
  unfold groupOf
  simp only [List.mem_filter, Bool.and_comm, and_assoc]

/-- The batches of a phase are for different domains. -/
theorem nodup_byDomain (registry : DomainRegistry)
    (pending : List (DomainId × Coordinate × ℤ × PoolId)) :
    ((byDomain registry pending).toList.map Prod.fst).Nodup :=
  nodup_keys _

/-! ### Verdicts -/

/-- The batches in the order in which they are visited, each with whether it is accepted. -/
def verdicts (order : SynthesisOrder) : WaveField → List Batch → List (Batch × Bool)
  | _, [] => []
  | field, batch :: rest =>
    (batch, accepts field batch.2) ::
      verdicts order (field.synthesizeCommutativeBatch (order.pools batch.1) batch.2).1 rest

/-- The field after the batches are visited. -/
def fieldAfter (order : SynthesisOrder) (field : WaveField) (batches : List Batch) : WaveField :=
  batches.foldl (fun field batch ↦
    (field.synthesizeCommutativeBatch (order.pools batch.1) batch.2).1) field

/-- The deltas of the refused batches, with their domains. -/
def requeued (decided : List (Batch × Bool)) : List (DomainId × Coordinate × ℤ × PoolId) :=
  decided.flatMap fun verdict ↦
    if verdict.2 then [] else verdict.1.2.map fun delta ↦ (verdict.1.1, delta)

/-- The deltas of the accepted batches. -/
def settledDeltas (decided : List (Batch × Bool)) : List (Coordinate × ℤ × PoolId) :=
  decided.flatMap fun verdict ↦ if verdict.2 then verdict.1.2 else []

/-- The root that a batch leaves in the variable of the phase. -/
def verdictRoot (prim : Primitives) (tick : ℕ) (verdict : Batch × Bool) : Bytes32 :=
  if verdict.2 then commutativeRoot prim tick verdict.1.2 else 0

/-- The root after all batches: that of the last one, zero when there is none. -/
def lastRoot (prim : Primitives) (tick : ℕ) (decided : List (Batch × Bool)) : Bytes32 :=
  match decided.getLast? with
  | some verdict => verdictRoot prim tick verdict
  | none => 0

theorem requeued_cons (verdict : Batch × Bool) (decided : List (Batch × Bool)) :
    requeued (verdict :: decided) = requeued [verdict] ++ requeued decided := by
  simp [requeued]

theorem settledDeltas_cons (verdict : Batch × Bool) (decided : List (Batch × Bool)) :
    settledDeltas (verdict :: decided) = settledDeltas [verdict] ++ settledDeltas decided := by
  simp [settledDeltas]

/-- The verdicts are on the batches, in their order. -/
@[simp] theorem verdicts_map_fst (order : SynthesisOrder) (field : WaveField)
    (batches : List Batch) : (verdicts order field batches).map Prod.fst = batches := by
  induction batches generalizing field with
  | nil => rfl
  | cons batch batches ih => rw [verdicts, List.map_cons, ih]

/-- The verdicts on two lists, one after the other. -/
theorem verdicts_append (order : SynthesisOrder) (field : WaveField) (first second : List Batch) :
    verdicts order field (first ++ second) =
      verdicts order field first ++ verdicts order (fieldAfter order field first) second := by
  induction first generalizing field with
  | nil => rfl
  | cons batch first ih => rw [List.cons_append, verdicts, ih]; rfl

/-- What one batch does, by its verdict. -/
theorem commutativeBatch_eq_verdict (order : SynthesisOrder) (tick : ℕ)
    (progress : Oscillator platform × ℕ × Bytes32) (batch : Batch) :
    commutativeBatch order tick progress batch =
      ({ progress.1 with
          waveField := (progress.1.waveField.synthesizeCommutativeBatch (order.pools batch.1)
            batch.2).1
          pendingCommutative := progress.1.pendingCommutative ++
            requeued [(batch, accepts progress.1.waveField batch.2)] },
        progress.2.1 + (settledDeltas [(batch, accepts progress.1.waveField batch.2)]).length,
        verdictRoot platform.primitives tick (batch, accepts progress.1.waveField batch.2)) := by
  obtain ⟨oscillator, count, root⟩ := progress
  have hok := isOk_batch oscillator.waveField (order.pools batch.1) batch.2
  unfold commutativeBatch requeued settledDeltas verdictRoot
  dsimp only
  rw [← hok]
  rcases hbatch : oscillator.waveField.synthesizeCommutativeBatch (order.pools batch.1) batch.2
    with ⟨waveField, outcome⟩
  cases outcome with
  | ok _ => simp [Except.isOk, Except.toBool]
  | error text => simp [Except.isOk, Except.toBool]

/-- What a list of batches does, by its verdicts. -/
theorem foldl_commutativeBatch (order : SynthesisOrder) (tick : ℕ) (batches : List Batch)
    (progress : Oscillator platform × ℕ × Bytes32) :
    batches.foldl (commutativeBatch order tick) progress =
      ({ progress.1 with
          waveField := fieldAfter order progress.1.waveField batches
          pendingCommutative := progress.1.pendingCommutative ++
            requeued (verdicts order progress.1.waveField batches) },
        progress.2.1 + (settledDeltas (verdicts order progress.1.waveField batches)).length,
        match (verdicts order progress.1.waveField batches).getLast? with
        | some verdict => verdictRoot platform.primitives tick verdict
        | none => progress.2.2) := by
  induction batches generalizing progress with
  | nil => simp [fieldAfter, verdicts, requeued, settledDeltas]
  | cons batch batches ih =>
    rw [List.foldl_cons, ih, commutativeBatch_eq_verdict]
    have hfield : fieldAfter order progress.1.waveField (batch :: batches) =
        fieldAfter order (progress.1.waveField.synthesizeCommutativeBatch (order.pools batch.1)
          batch.2).1 batches := rfl
    dsimp only
    rw [hfield, verdicts]
    set rest := verdicts order (progress.1.waveField.synthesizeCommutativeBatch
      (order.pools batch.1) batch.2).1 batches with hrest
    rw [requeued_cons _ rest, settledDeltas_cons _ rest, List.length_append, List.getLast?_cons,
      List.append_assoc, Nat.add_assoc]
    cases rest.getLast? <;> rfl

/-- The phase, by the verdicts on its batches. -/
theorem commutativePhase_eq_verdicts (oscillator : Oscillator platform) (order : SynthesisOrder)
    (tick : ℕ) :
    oscillator.commutativePhase order tick =
      let batches := order.domains.visit
        (byDomain oscillator.domainRegistry oscillator.pendingCommutative).toList
      let decided := verdicts order oscillator.waveField batches
      ({ oscillator with
          waveField := fieldAfter order oscillator.waveField batches
          pendingCommutative := requeued decided },
        (settledDeltas decided).length, lastRoot platform.primitives tick decided) := by
  unfold commutativePhase lastRoot
  rw [foldl_commutativeBatch]
  simp only [List.nil_append, Nat.zero_add]

/-! ### In a synthesis -/

/-- The wave-field of the commutative phase: all balances decayed to the tick. -/
def batchField (oscillator : Oscillator platform) : WaveField :=
  (oscillator.decayPhase oscillator.synthesisTick).1.waveField

/-- The batches of a tick in the order in which they are visited, with their verdicts. -/
def tickVerdicts (oscillator : Oscillator platform) (order : SynthesisOrder) :
    List (Batch × Bool) :=
  verdicts order (batchField oscillator) (order.domains.visit
    (byDomain oscillator.domainRegistry oscillator.pendingCommutative).toList)

/-- The commutative phase of a synthesis, by the verdicts of the tick. -/
theorem prepare_eq_verdicts (oscillator : Oscillator platform) (keys : KeyRegistry)
    (order : SynthesisOrder) :
    (oscillator.prepared keys order).pendingCommutative =
      requeued (oscillator.tickVerdicts order) ∧
    (oscillator.prepare keys order).2.1 = (settledDeltas (oscillator.tickVerdicts order)).length ∧
    (oscillator.prepare keys order).2.2.1 = lastRoot platform.primitives oscillator.synthesisTick
      (oscillator.tickVerdicts order) := by
  set admitted := ((({ oscillator with
    synthesisTick := wrappingAdd 64 oscillator.synthesisTick 1 }.decayPhase
      oscillator.synthesisTick).1.syncFieldIntoDag).admitPhase keys order.toDagOrder
        oscillator.synthesisTick).1 with hadmitted
  have hphase := admitted.commutativePhase_eq_verdicts order oscillator.synthesisTick
  have hprepared : oscillator.prepared keys order =
      (admitted.commutativePhase order oscillator.synthesisTick).1 := rfl
  have hresult : (oscillator.prepare keys order).2.1 =
        (admitted.commutativePhase order oscillator.synthesisTick).2.1 ∧
      (oscillator.prepare keys order).2.2.1 =
        (admitted.commutativePhase order oscillator.synthesisTick).2.2 := ⟨rfl, rfl⟩
  rw [hprepared, hresult.1, hresult.2, hphase]
  exact ⟨rfl, rfl, rfl⟩

end Oscillator

end Fluidic.Consensus
