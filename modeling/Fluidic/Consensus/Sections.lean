import Fluidic.Consensus.Synthesis
import Fluidic.Library.Interleaving

/-!
# Synthesis as a thread

The synthesis of `src/consensus/oscillator.rs` takes and releases one lock after the other, and
other threads use the node in between. `SynthesisSection` has one constructor for each section under
a lock, and `SynthesisLocals` has the local variables that live across sections. The last section
holds the lock of the wave-field until the synthesis returns, so it contains the certificate.

`perform_sections` says that the sections one after the other, with nothing in between, are the
synthesis of `Synthesis`.
-/

set_option autoImplicit false
set_option relaxedAutoImplicit false

namespace Fluidic.Consensus

open Library Crypto Fluidic.Field Value Operator Evm
open Std (ExtTreeMap ExtTreeSet)

variable {platform : Platform}

/-! ### Sections -/

/-- The local variables of a synthesis. -/
structure SynthesisLocals where
  tick : ℕ
  immune : List AccountId
  lambda : ℕ
  decayed : ℕ
  shifts : List StatefulShift
  rejected : List DagError
  deltas : List (DomainId × Coordinate × ℤ × PoolId)
  byDomain : ExtTreeMap DomainId (List (Coordinate × ℤ × PoolId))
  applied : ℕ
  root : Bytes32
  ledger : Ledger
  evmHashes : List H256
  feeDebt : ExtTreeMap AccountId ℕ
  returned : Option (SynthesisResult × List TxHash)

/-- The local variables when a synthesis is called. -/
def SynthesisLocals.start : SynthesisLocals :=
  ⟨0, [], 0, 0, [], [], [], ∅, 0, 0, ⟨∅, [], ∅, 0, []⟩, [], ∅, none⟩

/-- The sections of a synthesis. -/
inductive SynthesisSection
  | fetchTick
  | readStaked
  | readLambda
  | decay
  | recordBurn
  | burnShare
  | distributeReward
  | syncFieldIntoDag
  | drainStateful
  | admitShifts
  | drainCommutative
  | groupByDomain
  | applyBatches
  | applyStateful
  | applyEvm
  | computeDebt
  | debitFees
  | distributeFees
  | commit
  | syncDagIntoField
  deriving DecidableEq

/-- The sections before the loop over the stateful shifts. -/
def SynthesisSection.beforeLoop : List SynthesisSection :=
  [.fetchTick, .readStaked, .readLambda, .decay, .recordBurn, .burnShare, .distributeReward,
    .syncFieldIntoDag, .drainStateful, .admitShifts, .drainCommutative, .groupByDomain,
    .applyBatches]

/-- The sections between the loop and the copy back. -/
def SynthesisSection.afterLoop : List SynthesisSection :=
  [.applyEvm, .computeDebt, .debitFees, .distributeFees, .commit]

/-- All sections, in order. -/
def SynthesisSection.all : List SynthesisSection :=
  beforeLoop ++ .applyStateful :: (afterLoop ++ [.syncDagIntoField])

/-- The part of a decayed value that is burned. -/
def burnShare (decayed : ℕ) : ℕ :=
  saturatingMul 128 decayed metabolicBurnBp / basisPointsDenominator

namespace Oscillator

/-- The loop over the stateful shifts in topological order, or the error of the order. -/
def statefulLoop (oscillator : Oscillator platform) (keys : KeyRegistry) (order : SynthesisOrder) :
    Option (Except DagError Ledger) :=
  (oscillator.dag.topologicalOrder order.toDagOrder).bind fun
    | .error error => some (.error error)
    | .ok placed =>
      (placed.foldlM (oscillator.applyShift keys order) oscillator.openLedger).map .ok

/-- What a section does to the local variables and the node. -/
def performSection (keys : KeyRegistry) (order : SynthesisOrder) (timestampNs : ℕ)
    (locals : SynthesisLocals) (oscillator : Oscillator platform) :
    SynthesisSection → Option (SynthesisLocals × Oscillator platform)
  | .fetchTick =>
    some ({ locals with tick := oscillator.synthesisTick },
      { oscillator with synthesisTick := wrappingAdd 64 oscillator.synthesisTick 1 })
  | .readStaked =>
    some ({ locals with immune := oscillator.stakeTable.stakedOperators.map Prod.fst }, oscillator)
  | .readLambda =>
    some ({ locals with lambda := dexLambda oscillator.domainRegistry }, oscillator)
  | .decay =>
    let (waveField, decayed) := oscillator.waveField.applyMetabolicDecay locals.tick locals.lambda
      fun account ↦ locals.immune.contains account
    some ({ locals with decayed }, { oscillator with waveField })
  | .recordBurn =>
    some (locals, { oscillator with
      metabolicEngine := oscillator.metabolicEngine.recordBurn locals.decayed })
  | .burnShare =>
    some (locals, { oscillator with
      supplyTracker := if 0 < burnShare locals.decayed then
          oscillator.supplyTracker.burn (burnShare locals.decayed)
        else oscillator.supplyTracker })
  | .distributeReward =>
    some (locals, { oscillator with
      rewardPool := if 0 < locals.decayed - burnShare locals.decayed then
          oscillator.rewardPool.distribute (locals.decayed - burnShare locals.decayed)
            oscillator.stakeTable
        else oscillator.rewardPool })
  | .syncFieldIntoDag => some (locals, oscillator.syncFieldIntoDag)
  | .drainStateful =>
    some ({ locals with shifts := oscillator.pendingStateful },
      { oscillator with pendingStateful := [] })
  | .admitShifts =>
    let (dag, rejected) := locals.shifts.foldl
      (admitShift platform.primitives oscillator.domainRegistry keys locals.tick)
      (oscillator.dag, [])
    let doubleSpends := dag.detectDoubleSpends order.toDagOrder
    some ({ locals with rejected := rejected ++ doubleSpends },
      { oscillator with
        dag := ((dag.markDoubleSpends doubleSpends).promoteToFinalized locals.tick).1 })
  | .drainCommutative =>
    some ({ locals with deltas := oscillator.pendingCommutative },
      { oscillator with pendingCommutative := [] })
  | .groupByDomain =>
    some ({ locals with byDomain := byDomain oscillator.domainRegistry locals.deltas }, oscillator)
  | .applyBatches =>
    let (oscillator, applied, root) := (order.domains.visit locals.byDomain.toList).foldl
      (commutativeBatch order locals.tick) (oscillator, 0, 0)
    some ({ locals with applied, root }, oscillator)
  | .applyStateful =>
    (oscillator.statefulLoop keys order).map fun
      | .error error =>
        ({ locals with
          returned := some ({ commutativeApplied := locals.applied
                              statefulApplied := 0, evmApplied := 0
                              statefulRejected := locals.rejected ++ [error]
                              finalBalances := ∅, metabolicBurned := locals.decayed }, []) },
          oscillator)
      | .ok ledger => ({ locals with ledger }, oscillator)
  | .applyEvm =>
    (oscillator.evmPool.synthesize platform.primitives order.addresses locals.ledger.balances
      locals.tick).map fun (evmPool, balances, evmHashes) ↦
        ({ locals with ledger := { locals.ledger with balances }, evmHashes },
          { oscillator with evmPool })
  | .computeDebt =>
    some (if locals.ledger.totalFees = 0 then locals
      else { locals with feeDebt := oscillator.feeDebt locals.ledger.hashes }, oscillator)
  | .debitFees =>
    some (locals, { oscillator with
      waveField := if locals.ledger.totalFees = 0 then oscillator.waveField
        else locals.feeDebt.toList.foldl
          (fun field debt ↦
            (field.debitAccount debt.1 (min debt.2 (field.accountBalance debt.1).units)).1)
          oscillator.waveField })
  | .distributeFees =>
    some (locals, { oscillator with
      rewardPool := if locals.ledger.totalFees = 0 then oscillator.rewardPool
        else oscillator.rewardPool.distributeFees locals.ledger.totalFees oscillator.stakeTable })
  | .commit => some (locals, oscillator.commit locals.ledger.hashes locals.ledger.balances)
  | .syncDagIntoField =>
    let synced := oscillator.syncDagIntoField locals.tick locals.ledger.activeAccounts
      locals.ledger.balances
    let result : SynthesisResult :=
      { commutativeApplied := locals.applied
        statefulApplied := locals.ledger.hashes.length
        evmApplied := locals.evmHashes.length
        statefulRejected := locals.rejected ++ locals.ledger.rejected
        finalBalances := locals.ledger.balances
        metabolicBurned := locals.decayed }
    some ({ locals with returned := some (result, locals.ledger.hashes) },
      synced.certify keys locals.tick timestampNs result locals.root locals.ledger.hashes
        locals.evmHashes)

/-- A section of a synthesis, which does nothing when the synthesis has returned. -/
def synthesisStep (keys : KeyRegistry) (order : SynthesisOrder) (timestampNs : ℕ)
    (step : SynthesisSection) (state : SynthesisLocals × Oscillator platform) :
    Option (SynthesisLocals × Oscillator platform) :=
  if state.1.returned.isSome then some state
  else state.2.performSection keys order timestampNs state.1 step

/-! ### The sections in a row -/

variable (keys : KeyRegistry) (order : SynthesisOrder) (timestampNs : ℕ)

/-- The local variables at the loop. -/
def loopLocals (oscillator : Oscillator platform) : SynthesisLocals :=
  { SynthesisLocals.start with
    tick := oscillator.synthesisTick
    immune := oscillator.stakeTable.stakedOperators.map Prod.fst
    lambda := dexLambda oscillator.domainRegistry
    decayed := (oscillator.prepare keys order).2.2.2.1
    shifts := oscillator.pendingStateful
    rejected := (oscillator.prepare keys order).2.2.2.2
    deltas := oscillator.pendingCommutative
    byDomain := byDomain oscillator.domainRegistry oscillator.pendingCommutative
    applied := (oscillator.prepare keys order).2.1
    root := (oscillator.prepare keys order).2.2.1 }

/-- The sections before the loop prepare the node. -/
theorem perform_beforeLoop (oscillator : Oscillator platform) :
    perform (synthesisStep keys order timestampNs) SynthesisSection.beforeLoop
        (.start, oscillator) =
      some (oscillator.loopLocals keys order, (oscillator.prepare keys order).1) :=
  rfl

/-- A section of a synthesis that has not returned. Assumes: the synthesis has not returned. -/
theorem synthesisStep_of_running {locals : SynthesisLocals} (hreturned : locals.returned = none)
    (oscillator : Oscillator platform) (step : SynthesisSection) :
    synthesisStep keys order timestampNs step (locals, oscillator) =
      oscillator.performSection keys order timestampNs locals step := by
  unfold synthesisStep
  rw [hreturned]
  rfl

/-- The three fee sections charge the fees. Assumes: the synthesis has not returned. -/
theorem perform_fees {locals : SynthesisLocals} (hreturned : locals.returned = none)
    (oscillator : Oscillator platform) :
    ∃ feeDebt, perform (synthesisStep keys order timestampNs)
        [.computeDebt, .debitFees, .distributeFees] (locals, oscillator) =
      some ({ locals with feeDebt },
        oscillator.chargeFees locals.ledger.hashes locals.ledger.totalFees) := by
  obtain ⟨tick, immune, lambda, decayed, shifts, rejected, deltas, byDomain, applied, root, ledger,
    evmHashes, feeDebt, returned⟩ := locals
  obtain rfl : returned = none := hreturned
  obtain ⟨balances, hashes, activeAccounts, totalFees, refused⟩ := ledger
  cases totalFees with
  | zero => exact ⟨feeDebt, rfl⟩
  | succ fees => exact ⟨oscillator.feeDebt hashes, rfl⟩

/-- The last two sections commit, copy the balances back and certify. Assumes: the synthesis has not
returned. -/
theorem perform_commit {locals : SynthesisLocals} (hreturned : locals.returned = none)
    (oscillator : Oscillator platform) :
    perform (synthesisStep keys order timestampNs) [.commit, .syncDagIntoField]
        (locals, oscillator) =
      (oscillator.commit locals.ledger.hashes locals.ledger.balances).performSection keys order
        timestampNs locals .syncDagIntoField := by
  rw [perform_cons, synthesisStep_of_running keys order timestampNs hreturned]
  unfold performSection
  rw [Option.bind_some, perform_cons, synthesisStep_of_running keys order timestampNs hreturned]
  rfl

/-- The sections behind the loop finish the synthesis. Assumes: the synthesis has not returned. -/
theorem perform_afterLoop {locals : SynthesisLocals} (hreturned : locals.returned = none)
    (oscillator : Oscillator platform) :
    (perform (synthesisStep keys order timestampNs)
        (SynthesisSection.afterLoop ++ [.syncDagIntoField]) (locals, oscillator)).map
          (fun state ↦ (state.2, state.1.returned)) =
      (oscillator.finish keys order locals.tick timestampNs locals.applied locals.root
        locals.decayed locals.rejected locals.ledger).map fun out ↦ (out.1, some out.2) := by
  have hsteps : SynthesisSection.afterLoop ++ [.syncDagIntoField] =
      .applyEvm :: ([.computeDebt, .debitFees, .distributeFees] ++
        [.commit, .syncDagIntoField]) := rfl
  rw [hsteps, perform_cons, synthesisStep_of_running keys order timestampNs hreturned]
  unfold performSection finish
  dsimp only
  cases oscillator.evmPool.synthesize platform.primitives order.addresses locals.ledger.balances
      locals.tick with
  | none => rfl
  | some out =>
    obtain ⟨evmPool, balances, evmHashes⟩ := out
    obtain ⟨feeDebt, hfees⟩ := @perform_fees platform keys order timestampNs
      { locals with ledger := { locals.ledger with balances }, evmHashes } hreturned
      { oscillator with evmPool }
    simp only [Option.map_some, Option.bind_some, perform_append]
    rw [hfees, Option.bind_some, perform_commit]
    · rfl
    · exact hreturned

/-- All sections in a row are a synthesis. -/
theorem perform_sections (oscillator : Oscillator platform) :
    (perform (synthesisStep keys order timestampNs) SynthesisSection.all (.start, oscillator)).map
        (fun state ↦ (state.2, state.1.returned)) =
      (oscillator.synthesize keys order timestampNs).map fun out ↦ (out.1, some out.2) := by
  have hrunning : (oscillator.loopLocals keys order).returned = none := rfl
  have hwhole : oscillator.synthesize keys order timestampNs =
      ((oscillator.prepare keys order).1.dag.topologicalOrder order.toDagOrder).bind fun outcome ↦
        match outcome with
        | .error error =>
          some ((oscillator.prepare keys order).1,
            { commutativeApplied := (oscillator.prepare keys order).2.1
              statefulApplied := 0, evmApplied := 0
              statefulRejected := (oscillator.prepare keys order).2.2.2.2 ++ [error]
              finalBalances := ∅
              metabolicBurned := (oscillator.prepare keys order).2.2.2.1 }, [])
        | .ok placed =>
          (placed.foldlM ((oscillator.prepare keys order).1.applyShift keys order)
            (oscillator.prepare keys order).1.openLedger).bind fun ledger ↦
              (oscillator.prepare keys order).1.finish keys order oscillator.synthesisTick
                timestampNs (oscillator.prepare keys order).2.1
                (oscillator.prepare keys order).2.2.1 (oscillator.prepare keys order).2.2.2.1
                (oscillator.prepare keys order).2.2.2.2 ledger := rfl
  rw [hwhole, SynthesisSection.all, perform_append, perform_beforeLoop, Option.bind_some,
    perform_cons, synthesisStep_of_running keys order timestampNs hrunning]
  unfold performSection statefulLoop
  dsimp only
  cases (oscillator.prepare keys order).1.dag.topologicalOrder order.toDagOrder with
  | none => rfl
  | some outcome =>
    cases outcome with
    | error error => rfl
    | ok placed =>
      simp only [Option.bind_some]
      cases placed.foldlM ((oscillator.prepare keys order).1.applyShift keys order)
          (oscillator.prepare keys order).1.openLedger with
      | none => rfl
      | some ledger =>
        exact @perform_afterLoop platform keys order timestampNs
          { oscillator.loopLocals keys order with ledger } rfl (oscillator.prepare keys order).1

/-! ### What the sections work on -/

/-- A node with nothing but the wave-field and the queue that the commutative batches work on. -/
def batching (oscillator : Oscillator platform) : Oscillator platform :=
  { newWithKeypair 0 with
    waveField := oscillator.waveField
    pendingCommutative := oscillator.pendingCommutative }

/-- A node with nothing but what the certificate section works on. -/
def signing (oscillator : Oscillator platform) : Oscillator platform :=
  { create 0 oscillator.operatorKeypair oscillator.stakeTable with
    certificates := oscillator.certificates
    certificateTracker := oscillator.certificateTracker
    rewardPool := oscillator.rewardPool
    supplyTracker := oscillator.supplyTracker }

/-- The commutative batches work on the wave-field and the queue only. -/
theorem commutativeBatches_eq (oscillator : Oscillator platform) (tick applied : ℕ)
    (root : Bytes32) (batches : List (DomainId × List (Coordinate × ℤ × PoolId))) :
    batches.foldl (commutativeBatch order tick) (oscillator, applied, root) =
      ({ oscillator with
          waveField := (batches.foldl (commutativeBatch order tick)
            (oscillator.batching, applied, root)).1.waveField
          pendingCommutative := (batches.foldl (commutativeBatch order tick)
            (oscillator.batching, applied, root)).1.pendingCommutative },
        (batches.foldl (commutativeBatch order tick) (oscillator.batching, applied, root)).2) := by
  have hfold : ∀ (core : Oscillator platform) (applied : ℕ) (root : Bytes32),
      batches.foldl (commutativeBatch order tick)
          ({ oscillator with
            waveField := core.waveField, pendingCommutative := core.pendingCommutative },
            applied, root) =
        ({ oscillator with
            waveField := (batches.foldl (commutativeBatch order tick)
              (core, applied, root)).1.waveField
            pendingCommutative := (batches.foldl (commutativeBatch order tick)
              (core, applied, root)).1.pendingCommutative },
          (batches.foldl (commutativeBatch order tick) (core, applied, root)).2) := by
    induction batches with
    | nil => exact fun core applied root ↦ rfl
    | cons batch batches ih =>
      intro core applied root
      rw [List.foldl_cons, List.foldl_cons]
      unfold commutativeBatch
      dsimp only
      cases core.waveField.synthesizeCommutativeBatch (order.pools batch.1) batch.2 with
      | mk waveField outcome =>
        cases outcome with
        | error _ =>
          exact ih { core with
            waveField
            pendingCommutative := core.pendingCommutative ++
              batch.2.map fun delta ↦ (batch.1, delta) } applied 0
        | ok _ =>
          exact ih { core with waveField } (applied + batch.2.length)
            (commutativeRoot platform.primitives tick batch.2)
  exact hfold oscillator.batching applied root

/-- The certificate section works on the stake table, the certificates and the supply only. -/
theorem certify_eq (oscillator : Oscillator platform) (tick : ℕ) (result : SynthesisResult)
    (root : Bytes32) (hashes : List TxHash) (evmHashes : List H256) :
    oscillator.certify keys tick timestampNs result root hashes evmHashes =
      { oscillator with
        certificates := (oscillator.signing.certify keys tick timestampNs result root hashes
          evmHashes).certificates
        stakeTable := (oscillator.signing.certify keys tick timestampNs result root hashes
          evmHashes).stakeTable
        certificateTracker := (oscillator.signing.certify keys tick timestampNs result root hashes
          evmHashes).certificateTracker
        supplyTracker := (oscillator.signing.certify keys tick timestampNs result root hashes
          evmHashes).supplyTracker } := by
  obtain ⟨_, _, _, _, _, _, _, _, _, operatorKeypair, _, stakeTable, _, _, _, _⟩ := oscillator
  cases operatorKeypair with
  | none => rfl
  | some keypair =>
    unfold certify signing
    dsimp only [create]
    by_cases hstaked : (!stakeTable.isStaked (keypair.accountId platform.primitives)) = true
    · simp only [hstaked, if_true]
    · simp only [hstaked, Bool.false_eq_true, if_false]
      rfl

end Oscillator

end Fluidic.Consensus
