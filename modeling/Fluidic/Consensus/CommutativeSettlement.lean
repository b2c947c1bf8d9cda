import Fluidic.Consensus.CommutativePhase
import Fluidic.Library.LabelledRun

/-!
# What the commutative deltas add up to

A batch that its pools cannot take is queued again as a whole, but the pools visited before the one
that refused it keep what they were given. So a delta can take effect while it is still pending, and
once more each time its batch is tried (`settled_while_pending`).

`LeavesWhole` says of one phase that no refused batch changes a pool. In a run of such phases the
accepted deltas split into those that are settled, of which each pool holds the sum, and those that
are pending (`deltas_settle_once`).
-/

set_option autoImplicit false
set_option relaxedAutoImplicit false

namespace Fluidic.Consensus.Oscillator

open Library Crypto Fluidic.Field Value
open Std (ExtTreeMap)

variable {platform : Platform}

/-! ### Runs of deltas and phases -/

/-- One request to the commutative half of a node. -/
inductive CommutativeRequest
  | ingest (shift : CommutativeShift)
  | synthesize (order : SynthesisOrder) (tick : ℕ)

/-- Serve one request: ingest a commutative shift, or run the commutative phase. -/
def commutativeStep (oscillator : Oscillator platform) :
    CommutativeRequest → Option (Oscillator platform × Unit)
  | .ingest shift => some ((oscillator.ingestCommutative shift).1, ())
  | .synthesize order tick => some ((oscillator.commutativePhase order tick).1, ())

/-- Every delta that a run was given. -/
def announced (history : List (Oscillator platform × CommutativeRequest)) : List ℤ :=
  (history.map Prod.snd).flatMap fun request ↦ match request with
    | .ingest shift => [shift.delta]
    | .synthesize _ _ => []

/-- The deltas that a run accepted, with their domains. -/
def accepted (history : List (Oscillator platform × CommutativeRequest)) :
    List (DomainId × Coordinate × ℤ × PoolId) :=
  history.flatMap fun entry ↦ match entry.2 with
    | .ingest shift =>
      if entry.1.queuesCommutative shift then
        [(shift.domain, shift.coordinate, shift.delta, shift.poolId)] else []
    | .synthesize _ _ => []

/-- Whether no refused batch changes a pool: a refused batch fails the check of the transform, or
the totals that it applies before the pool that refuses it are zero. -/
def leavesWhole (order : SynthesisOrder) : WaveField → List Batch → Bool
  | _, [] => true
  | field, batch :: rest =>
    (accepts field batch.2 || !roundTrips field.nttEngine batch.2 ||
      (appliedTotals field (order.pools batch.1) batch.2).all fun entry ↦ entry.2 == 0) &&
    leavesWhole order (field.synthesizeCommutativeBatch (order.pools batch.1) batch.2).1 rest

/-- A request after which no refused batch has changed a pool. -/
def LeavesWhole (oscillator : Oscillator platform) : CommutativeRequest → Prop
  | .ingest _ => True
  | .synthesize order _ => leavesWhole order oscillator.waveField (order.domains.visit
      (byDomain oscillator.domainRegistry oscillator.pendingCommutative).toList) = true

instance : DecidableRel (LeavesWhole : Oscillator platform → CommutativeRequest → Prop) :=
  fun oscillator request ↦ match request with
    | .ingest _ => isTrue trivial
    | .synthesize order _ => inferInstanceAs (Decidable
        (leavesWhole order oscillator.waveField (order.domains.visit
          (byDomain oscillator.domainRegistry oscillator.pendingCommutative).toList) = true))

/-! ### Sums -/

/-- The sum of the deltas for one pool. -/
def poolSum (deltas : List (Coordinate × ℤ × PoolId)) (pool : PoolId) : ℤ :=
  ((deltas.filter fun delta : Coordinate × ℤ × PoolId ↦ delta.2.2 = pool).map
    fun delta : Coordinate × ℤ × PoolId ↦ delta.2.1).sum

theorem poolSum_append (first second : List (Coordinate × ℤ × PoolId)) (pool : PoolId) :
    poolSum (first ++ second) pool = poolSum first pool + poolSum second pool := by
  simp [poolSum]

theorem absoluteSum_append (first second : List (Coordinate × ℤ × PoolId)) :
    absoluteSum (first ++ second) = absoluteSum first + absoluteSum second := by
  simp [absoluteSum]

theorem absoluteSum_perm {first second : List (Coordinate × ℤ × PoolId)}
    (hperm : first.Perm second) : absoluteSum first = absoluteSum second :=
  (hperm.map _).sum_eq

/-- The sum for a pool is within the absolute values. -/
theorem natAbs_poolSum_le (deltas : List (Coordinate × ℤ × PoolId)) (pool : PoolId) :
    (poolSum deltas pool).natAbs ≤ absoluteSum deltas :=
  natAbs_sumAt_le (fun delta ↦ delta.2.2) deltas pool

/-- The total of a batch for a pool is the sum of its deltas. Assumes: the absolute amounts of the
batch sum to less than 2^127. -/
theorem poolTotal_eq_poolSum {deltas : List (Coordinate × ℤ × PoolId)}
    (hsmall : absoluteSum deltas < 2 ^ 127) (pool : PoolId) :
    poolTotal deltas pool = poolSum deltas pool :=
  poolTotal_eq_sumAt hsmall pool

/-- Units after an amount that they cover. Assumes: the units cover the amount, and the result is
below 2^128. -/
theorem adjust_eq {units : ℕ} {amount : ℤ} (hcovered : 0 ≤ (units : ℤ) + amount)
    (hfits : (units : ℤ) + amount < 2 ^ 128) : (adjust units amount : ℤ) = units + amount := by
  unfold adjust saturatingAdd
  split_ifs <;> omega

/-! ### One phase -/

/-- One batch that is not refused halfway adds to the settled deltas. Assumes: the pools hold the
sums of the deltas settled before, the batch changes no pool when it is refused, and all of the
deltas are small. -/
theorem poolUnits_oneBatch {order : SynthesisOrder} {batch : Batch} {field : WaveField}
    {settled : List (Coordinate × ℤ × PoolId)}
    (hunits : ∀ pool, (poolUnits field.pools pool : ℤ) = poolSum settled pool)
    (hwhole : (accepts field batch.2 || !roundTrips field.nttEngine batch.2 ||
      (appliedTotals field (order.pools batch.1) batch.2).all fun entry ↦ entry.2 == 0) = true)
    (hsmall : absoluteSum settled + absoluteSum batch.2 < 2 ^ 127) (pool : PoolId) :
    (poolUnits (field.synthesizeCommutativeBatch (order.pools batch.1) batch.2).1.pools pool : ℤ) =
      poolSum (settled ++ settledDeltas [(batch, accepts field batch.2)]) pool := by
  have hbefore := hunits pool
  have hsettled := natAbs_poolSum_le settled pool
  have hsum := natAbs_poolSum_le batch.2 pool
  have htotal : poolTotal batch.2 pool = poolSum batch.2 pool :=
    poolTotal_eq_poolSum (by omega) pool
  have hadjusted : (pool, poolTotal batch.2 pool) ∈
      appliedTotals field (order.pools batch.1) batch.2 →
      (adjust (poolUnits field.pools pool) (poolTotal batch.2 pool) : ℤ) =
        poolSum settled pool + poolSum batch.2 pool := by
    intro happlied
    have hcovers : 0 ≤ (poolUnits field.pools pool : ℤ) + poolTotal batch.2 pool :=
      of_decide_eq_true (covers_of_mem_appliedTotals happlied)
    rw [adjust_eq hcovers (by omega)]
    omega
  rw [poolUnits_batch, poolSum_append]
  cases haccepts : accepts field batch.2 with
  | true =>
    have hpasses : roundTrips field.nttEngine batch.2 = true := by
      unfold accepts at haccepts
      exact (Bool.and_eq_true _ _ ▸ haccepts).1
    have hdeltas : settledDeltas [(batch, true)] = batch.2 := by simp [settledDeltas]
    rw [hdeltas]
    by_cases hoccurs : ∃ delta ∈ batch.2, delta.2.2 = pool
    · have happlied := mem_appliedTotals haccepts (order.pools batch.1) hoccurs
      rw [if_pos ⟨hpasses, happlied⟩]
      exact hadjusted happlied
    · have hnone : poolSum batch.2 pool = 0 := by
        have hfilter : batch.2.filter (fun delta : Coordinate × ℤ × PoolId ↦
            delta.2.2 = pool) = [] := by
          rw [List.filter_eq_nil_iff]
          exact fun delta hmem hpool ↦ hoccurs ⟨delta, hmem, of_decide_eq_true hpool⟩
        rw [poolSum, hfilter]
        rfl
      split_ifs with happlied
      · exact hadjusted happlied.2
      · omega
  | false =>
    have hdeltas : settledDeltas [(batch, false)] = [] := by simp [settledDeltas]
    rw [hdeltas]
    rw [haccepts, Bool.false_or, Bool.or_eq_true, List.all_eq_true] at hwhole
    split_ifs with happlied
    · have hzero : poolSum batch.2 pool = 0 := by
        rcases hwhole with hfails | hall
        · rw [happlied.1] at hfails
          cases hfails
        · rw [← htotal]
          exact eq_of_beq (hall _ happlied.2)
      rw [hadjusted happlied.2, hzero]
      rfl
    · rw [hbefore]
      exact (add_zero _).symm

/-- Visiting batches that refuse nothing halfway adds up the settled deltas. Assumes: the pools hold
the sums of the deltas settled before, no refused batch changes a pool, and all of the deltas are
small. -/
theorem poolUnits_fieldAfter {order : SynthesisOrder} {batches : List Batch} {field : WaveField}
    {settled : List (Coordinate × ℤ × PoolId)}
    (hunits : ∀ pool, (poolUnits field.pools pool : ℤ) = poolSum settled pool)
    (hwhole : leavesWhole order field batches = true)
    (hsmall : absoluteSum (settled ++ batches.flatMap Prod.snd) < 2 ^ 127) (pool : PoolId) :
    (poolUnits (fieldAfter order field batches).pools pool : ℤ) =
      poolSum (settled ++ settledDeltas (verdicts order field batches)) pool := by
  induction batches generalizing field settled with
  | nil => simpa [fieldAfter, verdicts, settledDeltas] using hunits pool
  | cons batch batches ih =>
    rw [leavesWhole, Bool.and_eq_true] at hwhole
    rw [absoluteSum_append, List.flatMap_cons, absoluteSum_append] at hsmall
    have hbatch : ∀ pool, (poolUnits (field.synthesizeCommutativeBatch (order.pools batch.1)
        batch.2).1.pools pool : ℤ) =
        poolSum (settled ++ settledDeltas [(batch, accepts field batch.2)]) pool :=
      poolUnits_oneBatch hunits hwhole.1 (by omega)
    have hsettled : absoluteSum (settledDeltas [(batch, accepts field batch.2)]) ≤
        absoluteSum batch.2 := by
      cases accepts field batch.2 <;> simp [settledDeltas, absoluteSum]
    rw [verdicts, settledDeltas_cons _ (verdicts _ _ _), ← List.append_assoc]
    exact ih hbatch hwhole.2 (by rw [absoluteSum_append, absoluteSum_append]; omega)

/-! ### The queue -/

/-- The batches of a phase hold the pending deltas. Assumes: the domains of all of them take
commutative signals. -/
theorem byDomain_perm {registry : DomainRegistry}
    {pending : List (DomainId × Coordinate × ℤ × PoolId)}
    (hregistered : ∀ delta ∈ pending, registry.isCommutative delta.1 = true)
    (order : IterationOrder Batch) :
    ((order.visit (byDomain registry pending).toList).flatMap fun batch ↦
      batch.2.map fun delta ↦ (batch.1, delta)).Perm pending := by
  have hall : pending.filter (fun delta ↦ registry.isCommutative delta.1) = pending :=
    List.filter_eq_self.mpr hregistered
  have hgather := gather_perm Prod.fst (fun delta : DomainId × Coordinate × ℤ × PoolId ↦ delta.2)
    (fun domain delta ↦ (domain, delta)) pending ∅
  have hempty : (∅ : ExtTreeMap DomainId (List (Coordinate × ℤ × PoolId))).toList = [] :=
    ExtTreeMap.toList_eq_nil_iff.mpr rfl
  rw [hempty, List.flatMap_nil, List.nil_append] at hgather
  have hbatches := (order.visit_perm (byDomain registry pending).toList).flatMap_right
    fun batch ↦ batch.2.map fun delta ↦ (batch.1, delta)
  rw [byDomain_eq, hall] at hbatches ⊢
  have hpairs : pending.map (fun delta ↦ (delta.1, delta.2)) = pending := List.map_id pending
  rw [hpairs] at hgather
  exact hbatches.trans hgather

/-- The deltas of the accepted batches, with their domains. -/
def settledOf (decided : List (Batch × Bool)) : List (DomainId × Coordinate × ℤ × PoolId) :=
  decided.flatMap fun verdict ↦
    if verdict.2 then verdict.1.2.map fun delta ↦ (verdict.1.1, delta) else []

theorem settledOf_map_snd (decided : List (Batch × Bool)) :
    (settledOf decided).map Prod.snd = settledDeltas decided := by
  unfold settledOf settledDeltas
  rw [List.map_flatMap]
  refine congrArg (fun read ↦ List.flatMap read decided) (funext fun verdict ↦ ?_)
  split_ifs
  · rw [List.map_map]
    exact List.map_id _
  · rfl

/-- The deltas of the batches are those settled and those queued again. -/
theorem settledOf_requeued_perm (decided : List (Batch × Bool)) :
    ((decided.map Prod.fst).flatMap fun batch ↦ batch.2.map fun delta ↦ (batch.1, delta)).Perm
      (settledOf decided ++ requeued decided) := by
  induction decided with
  | nil => exact List.Perm.refl _
  | cons verdict decided ih =>
    obtain ⟨batch, accepted⟩ := verdict
    rw [List.map_cons, List.flatMap_cons, requeued_cons]
    have hsettled : settledOf ((batch, accepted) :: decided) =
        settledOf [(batch, accepted)] ++ settledOf decided := by
      simp [settledOf]
    rw [hsettled]
    refine (ih.append_left _).trans ?_
    cases accepted with
    | true => simp [settledOf, requeued]
    | false =>
      have hswap := List.perm_append_comm_assoc (batch.2.map fun delta ↦ (batch.1, delta))
        (settledOf decided) (requeued decided)
      simpa [settledOf, requeued] using hswap

/-! ### Runs -/

/-- The accepted deltas split into those that are settled, of which each pool holds the sum, and
those that are pending, whose domains take commutative signals. -/
structure Settled (oscillator : Oscillator platform)
    (accepted : List (DomainId × Coordinate × ℤ × PoolId)) : Prop where
  split : ∃ settled, accepted.Perm (settled ++ oscillator.pendingCommutative) ∧
    ∀ pool, (poolUnits oscillator.waveField.pools pool : ℤ) = poolSum (settled.map Prod.snd) pool
  registered : ∀ delta ∈ oscillator.pendingCommutative,
    oscillator.domainRegistry.isCommutative delta.1 = true

theorem Settled.ingest {oscillator : Oscillator platform}
    {accepted : List (DomainId × Coordinate × ℤ × PoolId)} (hsettled : Settled oscillator accepted)
    (shift : CommutativeShift) :
    Settled (oscillator.ingestCommutative shift).1 (accepted ++
      if oscillator.queuesCommutative shift then
        [(shift.domain, shift.coordinate, shift.delta, shift.poolId)] else []) := by
  obtain ⟨settled, hperm, hunits⟩ := hsettled.split
  rw [ingestCommutative_eq]
  by_cases hqueues : oscillator.queuesCommutative shift = true
  · simp only [if_pos hqueues]
    refine ⟨⟨settled, ?_, hunits⟩, fun delta hdelta ↦ ?_⟩
    · rw [← List.append_assoc]
      exact hperm.append_right _
    · rcases List.mem_append.mp hdelta with hearlier | hnew
      · exact hsettled.registered delta hearlier
      · rw [List.mem_singleton.mp hnew]
        unfold queuesCommutative at hqueues
        exact (Bool.and_eq_true _ _ ▸ hqueues).1
  · simp only [if_neg hqueues, List.append_nil]
    exact ⟨⟨settled, hperm, hunits⟩, hsettled.registered⟩

theorem Settled.synthesize {oscillator : Oscillator platform}
    {accepted : List (DomainId × Coordinate × ℤ × PoolId)} (hsettled : Settled oscillator accepted)
    (hsmall : absoluteSum (accepted.map Prod.snd) < 2 ^ 127) {order : SynthesisOrder} {tick : ℕ}
    (hwhole : LeavesWhole oscillator (.synthesize order tick)) :
    Settled (oscillator.commutativePhase order tick).1 accepted := by
  obtain ⟨settled, hperm, hunits⟩ := hsettled.split
  rw [commutativePhase_eq_verdicts]
  set batches := order.domains.visit
    (byDomain oscillator.domainRegistry oscillator.pendingCommutative).toList with hbatches
  have hpending := byDomain_perm hsettled.registered order.domains
  rw [← hbatches] at hpending
  have hdecided := settledOf_requeued_perm (verdicts order oscillator.waveField batches)
  rw [verdicts_map_fst] at hdecided
  refine ⟨⟨settled ++ settledOf (verdicts order oscillator.waveField batches), ?_, fun pool ↦ ?_⟩,
    fun delta hdelta ↦ ?_⟩
  · rw [List.append_assoc]
    exact hperm.trans ((hpending.symm.trans hdecided).append_left settled)
  · rw [List.map_append, settledOf_map_snd]
    refine poolUnits_fieldAfter hunits hwhole ?_ pool
    have hflat : (batches.flatMap Prod.snd).Perm (oscillator.pendingCommutative.map Prod.snd) := by
      refine List.Perm.trans ?_ (hpending.map Prod.snd)
      rw [List.map_flatMap]
      simp
    rw [absoluteSum_append, absoluteSum_perm hflat, ← absoluteSum_append, ← List.map_append,
      ← absoluteSum_perm (hperm.map Prod.snd)]
    exact hsmall
  · refine hsettled.registered delta (hpending.mem_iff.mp (hdecided.mem_iff.mpr ?_))
    exact List.mem_append_right _ hdelta

/-- What a run accepted is within what it was given. -/
theorem absoluteSum_accepted_le (history : List (Oscillator platform × CommutativeRequest)) :
    absoluteSum ((accepted history).map Prod.snd) ≤ ((announced history).map Int.natAbs).sum := by
  induction history with
  | nil => exact le_rfl
  | cons entry history ih =>
    obtain ⟨oscillator, request⟩ := entry
    unfold accepted announced at ih ⊢
    rw [List.map_cons, List.flatMap_cons, List.flatMap_cons, List.map_append, absoluteSum_append,
      List.map_append, List.sum_append]
    cases request with
    | ingest shift =>
      dsimp only
      split_ifs
      · exact Nat.add_le_add_left ih _
      · have hnone : absoluteSum ([] : List (Coordinate × ℤ × PoolId)) = 0 := rfl
        rw [List.map_nil, hnone, Nat.zero_add]
        exact le_trans ih (Nat.le_add_left _ _)
    | synthesize order tick => exact Nat.add_le_add_left ih _

/-- A run accepts at most as many deltas as it was given. -/
theorem length_accepted_le (history : List (Oscillator platform × CommutativeRequest)) :
    (accepted history).length ≤ (announced history).length := by
  induction history with
  | nil => exact le_rfl
  | cons entry history ih =>
    obtain ⟨oscillator, request⟩ := entry
    unfold accepted announced at ih ⊢
    rw [List.map_cons, List.flatMap_cons, List.flatMap_cons, List.length_append, List.length_append]
    cases request with
    | ingest shift =>
      dsimp only
      split_ifs
      · exact Nat.add_le_add_left ih _
      · exact le_trans (Nat.zero_add _).le (le_trans ih (Nat.le_add_left _ _))
    | synthesize order tick => exact Nat.add_le_add_left ih _

/-- In every run of commutative shifts and commutative phases from empty pools, the accepted deltas
split into those that are still pending and those that are settled, and every pool holds the sum of
its settled deltas. Assumes: no phase of the run leaves a pool changed by a refused batch, and the
absolute values of all deltas of the run sum below `2 ^ 127`. -/
theorem deltas_settle_once {initial : Oscillator platform}
    (hpools : ∀ pool, (initial.waveField.poolBalance pool).units = 0)
    (hqueue : initial.pendingCommutative = [])
    {history : List (Oscillator platform × CommutativeRequest)} {oscillator : Oscillator platform}
    (hreaches : Reaches commutativeStep LeavesWhole initial history oscillator)
    (hsmall : ((announced history).map Int.natAbs).sum < 2 ^ 127) :
    ∃ settled, (accepted history).Perm (settled ++ oscillator.pendingCommutative) ∧
      ∀ pool, ((oscillator.waveField.poolBalance pool).units : ℤ) =
        poolSum (settled.map Prod.snd) pool := by
  have hsettled : Settled oscillator (accepted history) := by
    induction hreaches with
    | start =>
      refine ⟨⟨[], ?_, fun pool ↦ ?_⟩, fun delta hdelta ↦ ?_⟩
      · rw [hqueue]
        exact List.Perm.refl _
      · exact congrArg Nat.cast (hpools pool)
      · rw [hqueue] at hdelta
        cases hdelta
    | @next history state state' request output hbefore hwhole hstep ih =>
      have hearlier : ((announced history).map Int.natAbs).sum < 2 ^ 127 := by
        refine lt_of_le_of_lt ?_ hsmall
        unfold announced
        rw [List.map_append, List.flatMap_append, List.map_append, List.sum_append]
        exact Nat.le_add_right _ _
      have hstate := ih hearlier
      have haccepted : accepted (history ++ [(state, request)]) =
          accepted history ++ accepted [(state, request)] := by
        unfold accepted
        rw [List.flatMap_append]
      rw [haccepted]
      cases request with
      | ingest shift =>
        obtain ⟨rfl, -⟩ := Prod.mk.inj (Option.some.inj hstep)
        have hqueued : accepted [(state, CommutativeRequest.ingest shift)] =
            if state.queuesCommutative shift then
              [(shift.domain, shift.coordinate, shift.delta, shift.poolId)] else [] :=
          List.append_nil _
        rw [hqueued]
        exact hstate.ingest shift
      | synthesize order tick =>
        obtain ⟨rfl, -⟩ := Prod.mk.inj (Option.some.inj hstep)
        have hnone : accepted [(state, CommutativeRequest.synthesize order tick)] = [] := rfl
        rw [hnone, List.append_nil]
        exact hstate.synthesize (lt_of_le_of_lt (absoluteSum_accepted_le history) hearlier) hwhole
  exact hsettled.split

/-- A delta for a pool, with a signature made of one byte. -/
def sampleDelta (signature : UInt8) (pool : PoolId) (delta : ℤ) : CommutativeShift :=
  { domain := defaultDexDomain, coordinate := .fromScalar pool.toNat, delta, poolId := pool
    nonce := 0, timestampNs := 0, firstSeenAtNs := 0, signature := [signature] }

/-- A withdrawal that an empty pool refuses, and a deposit with which it is accepted. -/
def retriedBatch : List CommutativeRequest :=
  [.ingest (sampleDelta 1 1 (-3)), .synthesize .forward 0, .ingest (sampleDelta 2 1 5),
    .synthesize .forward 1]

/-- A run in which a batch is refused by the first pool it visits, and is accepted with the delta
that arrives later. -/
theorem deltas_settle_once_retriedBatch :
    ∃ (history : List (Oscillator Platform.sample × CommutativeRequest))
      (oscillator : Oscillator Platform.sample),
      Reaches commutativeStep LeavesWhole (newWithKeypair 8) history oscillator ∧
      ((announced history).map Int.natAbs).sum < 2 ^ 127 ∧
      oscillator.pendingCommutative = [] ∧
      ∃ settled, (accepted history).Perm (settled ++ oscillator.pendingCommutative) ∧
        ∀ pool, ((oscillator.waveField.poolBalance pool).units : ℤ) =
          poolSum (settled.map Prod.snd) pool := by
  have hruns : (run commutativeStep LeavesWhole (newWithKeypair 8 : Oscillator Platform.sample)
      retriedBatch).map (fun oscillator ↦ oscillator.pendingCommutative) = some [] := by
    decide +kernel
  obtain ⟨oscillator, hrun, hpending⟩ := Option.map_eq_some_iff.mp hruns
  obtain ⟨history, hinputs, hreaches⟩ := reaches_of_run hrun
  have hsmall : ((announced history).map Int.natAbs).sum < 2 ^ 127 := by
    unfold announced
    rw [hinputs]
    decide
  exact ⟨history, oscillator, hreaches, hsmall, hpending,
    deltas_settle_once (fun _ ↦ rfl) rfl hreaches hsmall⟩

/-- A deposit into one pool and a withdrawal from another, empty one. -/
def splitBatch : List CommutativeRequest :=
  [.ingest (sampleDelta 1 1 5), .ingest (sampleDelta 2 2 (-3)), .synthesize .forward 0]

/-- The withdrawal is refused after the deposit was made: both deltas stay pending, and the first
pool holds the deposit. -/
theorem settled_while_pending :
    ∃ (history : List (Oscillator Platform.sample × CommutativeRequest))
      (oscillator : Oscillator Platform.sample),
      Reaches commutativeStep anyStep (newWithKeypair 8) history oscillator ∧
      ((announced history).map Int.natAbs).sum < 2 ^ 127 ∧
      oscillator.pendingCommutative.length = 2 ∧
      (oscillator.waveField.poolBalance 1).units = 5 ∧
      ¬∃ settled, (accepted history).Perm (settled ++ oscillator.pendingCommutative) ∧
        ∀ pool, ((oscillator.waveField.poolBalance pool).units : ℤ) =
          poolSum (settled.map Prod.snd) pool := by
  have hruns : (run commutativeStep anyStep (newWithKeypair 8 : Oscillator Platform.sample)
      splitBatch).map (fun oscillator ↦ (oscillator.pendingCommutative.length,
        (oscillator.waveField.poolBalance 1).units)) = some (2, 5) := by
    decide +kernel
  obtain ⟨oscillator, hrun, hstate⟩ := Option.map_eq_some_iff.mp hruns
  obtain ⟨hpending, hunits⟩ := Prod.mk.inj hstate
  obtain ⟨history, hinputs, hreaches⟩ := reaches_of_run hrun
  have hannounced : announced history = [5, -3] := by
    unfold announced
    rw [hinputs]
    rfl
  refine ⟨history, oscillator, hreaches, by rw [hannounced]; decide, hpending, hunits, ?_⟩
  rintro ⟨settled, hperm, hpools⟩
  have hlength := length_accepted_le history
  rw [hperm.length_eq, hannounced, List.length_append, hpending] at hlength
  have hnone : settled = [] := List.eq_nil_of_length_eq_zero (by simpa using hlength)
  have hpool := hpools 1
  rw [hunits, hnone] at hpool
  cases hpool

end Fluidic.Consensus.Oscillator
