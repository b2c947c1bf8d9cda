import Fluidic.Field.WaveField
import Mathlib.Data.List.TakeWhile

/-!
# What a commutative batch does

`synthesizeCommutativeBatch` sums a batch per bin and per pool, checks the sums of the bins against
the transform and then adds the sums of the pools one after the other, up to the first pool that
would go negative. Its verdict does not depend on the order in which it visits the pools: a batch is
accepted exactly when it passes the check and no pool would go negative (`isOk_batch`). What
it leaves behind does: a refused batch may have changed the pools visited before the one that
refused it.

The sum of a bin saturates, so that the check can depend on the order of the deltas; it does not
when the deltas are small (`roundTrips_of_perm`).
-/

set_option autoImplicit false
set_option relaxedAutoImplicit false

namespace Fluidic.Field

open Library Crypto Consensus
open Std (ExtTreeMap LawfulEqCmp)

/-! ### Totals -/

/-- The deltas of a batch for one pool, added in `i128` arithmetic. -/
def poolTotal (deltas : List (Coordinate × ℤ × PoolId)) (pool : PoolId) : ℤ :=
  ((deltas.filter fun delta : Coordinate × ℤ × PoolId ↦ delta.2.2 = pool).map
    fun delta : Coordinate × ℤ × PoolId ↦ delta.2.1).sum.bmod (2 ^ 128)

/-- A running sum in `i128` arithmetic is the sum in that arithmetic. -/
theorem foldl_i128WrappingAdd (deltas : List (Coordinate × ℤ × PoolId)) (start : ℤ) :
    deltas.foldl (fun total delta ↦ i128WrappingAdd total delta.2.1) (start.bmod (2 ^ 128)) =
      (start + (deltas.map fun delta ↦ delta.2.1).sum).bmod (2 ^ 128) := by
  induction deltas generalizing start with
  | nil => simp
  | cons delta deltas ih =>
    rw [List.foldl_cons, i128WrappingAdd, Int.bmod_add_bmod, ih, List.map_cons, List.sum_cons,
      add_assoc]

/-- The pool totals of a batch: one for each pool that occurs in it. -/
theorem mem_poolAggregates (deltas : List (Coordinate × ℤ × PoolId)) (entry : PoolId × ℤ) :
    entry ∈ (WaveField.poolAggregates deltas).toList ↔
      (∃ delta ∈ deltas, delta.2.2 = entry.1) ∧ entry.2 = poolTotal deltas entry.1 := by
  have hfold := mem_toList_accumulate (fun delta : Coordinate × ℤ × PoolId ↦ delta.2.2)
    (fun total delta ↦ i128WrappingAdd total delta.2.1) 0 deltas entry
  have hsum := foldl_i128WrappingAdd (deltas.filter fun delta ↦ delta.2.2 = entry.1) 0
  rw [Int.zero_bmod, zero_add] at hsum
  rw [hsum] at hfold
  unfold poolTotal
  exact hfold

/-- A batch has at most one total for each pool. -/
theorem nodup_poolAggregates (order : IterationOrder (PoolId × ℤ))
    (deltas : List (Coordinate × ℤ × PoolId)) :
    ((order.visit (WaveField.poolAggregates deltas).toList).map Prod.fst).Nodup :=
  ((order.visit_perm _).map Prod.fst).nodup_iff.mpr (nodup_keys _)

/-! ### The pools one after the other -/

/-- The units of a pool, zero when it is absent. -/
def poolUnits (pools : ExtTreeMap PoolId Balance) (pool : PoolId) : ℕ :=
  (pools.getD pool Balance.zero).units

/-- Units after a signed amount, which does not go below zero. -/
def adjust (units : ℕ) (amount : ℤ) : ℕ :=
  if 0 ≤ amount then saturatingAdd 128 units amount.toNat else units - amount.natAbs

/-- Whether a pool can take its total. -/
def covers (pools : ExtTreeMap PoolId Balance) (entry : PoolId × ℤ) : Bool :=
  decide (0 ≤ (poolUnits pools entry.1 : ℤ) + entry.2)

/-- A balance after a signed amount. -/
def adjustBalance (balance : Balance) (amount : ℤ) : Balance :=
  { balance with units := adjust balance.units amount }

/-- The first total of a list: a pool that can take it is adjusted and the rest follows, one that
cannot is at most created and ends the list. -/
theorem applyAggregates_cons (pools : ExtTreeMap PoolId Balance) (entry : PoolId × ℤ)
    (rest : List (PoolId × ℤ)) :
    (covers pools entry = true ∧ WaveField.applyAggregates pools (entry :: rest) =
      WaveField.applyAggregates (pools.insert entry.1
        (adjustBalance (pools.getD entry.1 Balance.zero) entry.2)) rest) ∨
    (covers pools entry = false ∧ ∃ text : String,
      WaveField.applyAggregates pools (entry :: rest) =
        (pools.insertIfNew entry.1 Balance.zero, Except.error text)) := by
  obtain ⟨pool, amount⟩ := entry
  have hheld : (pools.insertIfNew pool Balance.zero).getD pool Balance.zero =
      pools.getD pool Balance.zero := by
    rw [ExtTreeMap.getD_eq_getD_getElem?, ExtTreeMap.getD_eq_getD_getElem?,
      ExtTreeMap.getElem?_insertIfNew]
    by_cases habsent : pool ∈ pools
    · rw [if_neg fun hnew ↦ hnew.2 habsent]
    · rw [if_pos ⟨LawfulEqCmp.compare_eq_iff_eq.mpr rfl, habsent⟩,
        ExtTreeMap.getElem?_eq_none habsent]
      rfl
  have hwritten (balance : Balance) :
      (pools.insertIfNew pool Balance.zero).insert pool balance = pools.insert pool balance := by
    refine ExtTreeMap.ext_getElem? fun other ↦ ?_
    rw [ExtTreeMap.getElem?_insert, ExtTreeMap.getElem?_insert, ExtTreeMap.getElem?_insertIfNew]
    by_cases hsame : compare pool other = .eq
    · rw [if_pos hsame, if_pos hsame]
    · rw [if_neg hsame, if_neg hsame, if_neg fun hnew ↦ hsame hnew.1]
  rw [WaveField.applyAggregates]
  unfold covers adjustBalance adjust poolUnits
  simp only [hheld, hwritten]
  by_cases hpositive : 0 ≤ amount
  · exact .inl ⟨decide_eq_true (by omega), by rw [if_pos hpositive, if_pos hpositive]; rfl⟩
  · rw [if_neg hpositive, if_neg hpositive]
    by_cases hcovered : (pools.getD pool Balance.zero).units < amount.natAbs
    · rw [if_pos hcovered]
      exact .inr ⟨decide_eq_false (by omega), _, rfl⟩
    · rw [if_neg hcovered]
      exact .inl ⟨decide_eq_true (by omega), rfl⟩

/-- Predicates that agree on a list take the same prefix of it. Assumes: the predicates agree on the
list. -/
theorem takeWhile_congr_mem {α : Type} {first second : α → Bool} {entries : List α}
    (hagree : ∀ entry ∈ entries, first entry = second entry) :
    entries.takeWhile first = entries.takeWhile second := by
  induction entries with
  | nil => rfl
  | cons entry entries ih =>
    rw [List.forall_mem_cons] at hagree
    rw [List.takeWhile_cons, List.takeWhile_cons, hagree.1, ih hagree.2]

/-- The pools after a list of totals: those before the first one that its pool cannot take are
applied, its pool is created when it was absent, and the list is accepted when there is no such
pool. Assumes: no two of the totals are for one pool. -/
theorem applyAggregates_lookup {totals : List (PoolId × ℤ)}
    (hnodup : (totals.map Prod.fst).Nodup) (pools : ExtTreeMap PoolId Balance) :
    ((WaveField.applyAggregates pools totals).2.isOk = true ↔
      ∀ entry ∈ totals, covers pools entry = true) ∧
    (∀ entry ∈ totals.takeWhile (covers pools),
      (WaveField.applyAggregates pools totals).1[entry.1]? =
        some (adjustBalance (pools.getD entry.1 Balance.zero) entry.2)) ∧
    ∀ pool, (∀ entry ∈ totals.takeWhile (covers pools), entry.1 ≠ pool) →
      (WaveField.applyAggregates pools totals).1[pool]? = pools[pool]? ∨
      pool ∉ pools ∧ (∃ entry ∈ totals, entry.1 = pool) ∧
        (WaveField.applyAggregates pools totals).1[pool]? = some Balance.zero := by
  induction totals generalizing pools with
  | nil => exact ⟨by simp [WaveField.applyAggregates, Except.isOk, Except.toBool], by simp,
      fun _ _ ↦ .inl rfl⟩
  | cons entry rest ih =>
    rw [List.map_cons, List.nodup_cons] at hnodup
    rcases applyAggregates_cons pools entry rest with ⟨hcovered, happly⟩ |
      ⟨hrefused, text, happly⟩
    · have hother : ∀ other ∈ rest, entry.1 ≠ other.1 := by
        intro other hmem hsame
        exact hnodup.1 (hsame ▸ List.mem_map_of_mem hmem)
      set pools' := pools.insert entry.1 (adjustBalance (pools.getD entry.1 Balance.zero) entry.2)
      have hheld : ∀ other ∈ rest,
          pools'.getD other.1 Balance.zero = pools.getD other.1 Balance.zero := by
        intro other hmem
        rw [ExtTreeMap.getD_eq_getD_getElem?, ExtTreeMap.getD_eq_getD_getElem?,
          getElem?_insert_of_ne _ (hother other hmem)]
      have hcovers : ∀ other ∈ rest, covers pools' other = covers pools other := by
        intro other hmem
        unfold covers poolUnits
        rw [hheld other hmem]
      obtain ⟨hok, hdone, hkept⟩ := ih hnodup.2 pools'
      rw [happly, List.takeWhile_cons_of_pos hcovered]
      rw [takeWhile_congr_mem hcovers] at hdone hkept
      refine ⟨?_, ?_, ?_⟩
      · rw [hok, List.forall_mem_cons]
        refine ⟨fun hall ↦ ⟨hcovered, fun other hmem ↦ hcovers other hmem ▸ hall other hmem⟩,
          fun hall other hmem ↦ (hcovers other hmem).symm ▸ hall.2 other hmem⟩
      · intro other hmem
        rcases List.mem_cons.mp hmem with rfl | hlater
        · rcases hkept other.1 fun later hlater hsame ↦
            hother later (List.takeWhile_subset _ hlater) hsame.symm with hsame | ⟨habsent, -⟩
          · rw [hsame, ExtTreeMap.getElem?_insert_self]
          · exact absurd ExtTreeMap.mem_insert_self habsent
        · have hrest := List.takeWhile_subset _ hlater
          rw [hdone other hlater, hheld other hrest]
      · intro pool hne
        have hfirst := hne entry List.mem_cons_self
        rcases hkept pool fun other hmem ↦ hne other (List.mem_cons_of_mem _ hmem) with
          hsame | ⟨habsent, ⟨other, hmem, hpool⟩, hcreated⟩
        · exact .inl (hsame.trans (getElem?_insert_of_ne _ hfirst _))
        · refine .inr ⟨fun hmem' ↦ habsent (ExtTreeMap.mem_insert.mpr (.inr hmem')),
            ⟨other, List.mem_cons_of_mem _ hmem, hpool⟩, hcreated⟩
    · rw [happly, List.takeWhile_cons_of_neg (by rw [hrefused]; exact Bool.false_ne_true)]
      refine ⟨⟨fun hok ↦ ?_, fun hall ↦ ?_⟩, by simp, fun pool _ ↦ ?_⟩
      · cases hok
      · rw [hall entry List.mem_cons_self] at hrefused
        cases hrefused
      · rw [ExtTreeMap.getElem?_insertIfNew]
        by_cases hnew : compare entry.1 pool = .eq ∧ entry.1 ∉ pools
        · rw [if_pos hnew]
          obtain rfl : entry.1 = pool := LawfulEqCmp.compare_eq_iff_eq.mp hnew.1
          exact .inr ⟨hnew.2, ⟨entry, List.mem_cons_self, rfl⟩, rfl⟩
        · rw [if_neg hnew]
          exact .inl rfl

/-- What a list of totals does to the units of the pools. Assumes: no two of the totals are for one
pool. -/
theorem applyAggregates_spec {totals : List (PoolId × ℤ)} (hnodup : (totals.map Prod.fst).Nodup)
    (pools : ExtTreeMap PoolId Balance) :
    ((WaveField.applyAggregates pools totals).2.isOk = true ↔
      ∀ entry ∈ totals, covers pools entry = true) ∧
    (∀ entry ∈ totals.takeWhile (covers pools),
      poolUnits (WaveField.applyAggregates pools totals).1 entry.1 =
        adjust (poolUnits pools entry.1) entry.2) ∧
    ∀ pool, (∀ entry ∈ totals.takeWhile (covers pools), entry.1 ≠ pool) →
      poolUnits (WaveField.applyAggregates pools totals).1 pool = poolUnits pools pool := by
  obtain ⟨hok, hdone, hkept⟩ := applyAggregates_lookup hnodup pools
  refine ⟨hok, fun entry hentry ↦ ?_, fun pool hne ↦ ?_⟩
  · rw [poolUnits, ExtTreeMap.getD_eq_getD_getElem?, hdone entry hentry]
    rfl
  · rw [poolUnits, poolUnits, ExtTreeMap.getD_eq_getD_getElem?, ExtTreeMap.getD_eq_getD_getElem?]
    rcases hkept pool hne with hsame | ⟨habsent, -, hcreated⟩
    · rw [hsame]
    · rw [hcreated, ExtTreeMap.getElem?_eq_none habsent]
      rfl

/-! ### The batch -/

/-- Whether the sums of the bins come back from the transform. -/
def roundTrips (engine : NttEngine) (deltas : List (Coordinate × ℤ × PoolId)) : Bool :=
  let bins := WaveField.binTotals engine.size deltas
  let recovered := (engine.intt (engine.ntt (bins.map signedToField))).map fieldToSigned
  ((bins.zip recovered).zipIdx.find? fun entry ↦ entry.1.1 ≠ entry.1.2).isNone

/-- Whether a batch is accepted: it passes the check, and no pool would go negative. -/
def accepts (field : WaveField) (deltas : List (Coordinate × ℤ × PoolId)) : Bool :=
  roundTrips field.nttEngine deltas &&
    deltas.all fun delta ↦ covers field.pools (delta.2.2, poolTotal deltas delta.2.2)

/-- The pool totals that a batch applies: those before the first one that its pool cannot take. -/
def appliedTotals (field : WaveField) (order : IterationOrder (PoolId × ℤ))
    (deltas : List (Coordinate × ℤ × PoolId)) : List (PoolId × ℤ) :=
  (order.visit (WaveField.poolAggregates deltas).toList).takeWhile (covers field.pools)

/-- A total that a batch applies is that of a pool which occurs in it. -/
theorem occurs_of_mem_appliedTotals {field : WaveField} {order : IterationOrder (PoolId × ℤ)}
    {deltas : List (Coordinate × ℤ × PoolId)} {entry : PoolId × ℤ}
    (happlied : entry ∈ appliedTotals field order deltas) :
    (∃ delta ∈ deltas, delta.2.2 = entry.1) ∧ entry.2 = poolTotal deltas entry.1 := by
  have hvisited := List.takeWhile_subset _ happlied
  rwa [IterationOrder.mem_visit, mem_poolAggregates] at hvisited

/-- A batch that fails the check is refused and leaves the field alone. Assumes: the batch fails the
check. -/
theorem synthesizeCommutativeBatch_of_mismatch {field : WaveField}
    {deltas : List (Coordinate × ℤ × PoolId)} (hfails : roundTrips field.nttEngine deltas = false)
    (order : IterationOrder (PoolId × ℤ)) :
    ∃ text, field.synthesizeCommutativeBatch order deltas = (field, .error text) := by
  unfold roundTrips at hfails
  unfold WaveField.synthesizeCommutativeBatch
  dsimp only at hfails ⊢
  cases hfound : ((WaveField.binTotals field.nttEngine.size deltas).zip
      ((field.nttEngine.intt (field.nttEngine.ntt
        ((WaveField.binTotals field.nttEngine.size deltas).map signedToField))).map
          fieldToSigned)).zipIdx.find? fun entry ↦ entry.1.1 ≠ entry.1.2 with
  | none =>
    rw [hfound] at hfails
    cases hfails
  | some entry => exact ⟨_, rfl⟩

/-- A batch that passes the check applies its pool totals one after the other. Assumes: the batch
passes the check. -/
theorem synthesizeCommutativeBatch_of_roundTrips {field : WaveField}
    {deltas : List (Coordinate × ℤ × PoolId)} (hpasses : roundTrips field.nttEngine deltas = true)
    (order : IterationOrder (PoolId × ℤ)) :
    field.synthesizeCommutativeBatch order deltas =
      ({ field with
          spectrum := field.nttEngine.ntt
            ((WaveField.binTotals field.nttEngine.size deltas).map signedToField)
          pools := (WaveField.applyAggregates field.pools
            (order.visit (WaveField.poolAggregates deltas).toList)).1 },
        (WaveField.applyAggregates field.pools
          (order.visit (WaveField.poolAggregates deltas).toList)).2) := by
  unfold roundTrips at hpasses
  unfold WaveField.synthesizeCommutativeBatch
  dsimp only at hpasses ⊢
  rw [Option.isNone_iff_eq_none] at hpasses
  rw [hpasses]

/-- The verdict on a batch, whatever the order of its pools. -/
theorem isOk_batch (field : WaveField) (order : IterationOrder (PoolId × ℤ))
    (deltas : List (Coordinate × ℤ × PoolId)) :
    (field.synthesizeCommutativeBatch order deltas).2.isOk = accepts field deltas := by
  unfold accepts
  cases hpasses : roundTrips field.nttEngine deltas with
  | false =>
    obtain ⟨text, hbatch⟩ := synthesizeCommutativeBatch_of_mismatch hpasses order
    rw [hbatch]
    rfl
  | true =>
    have hbatch := synthesizeCommutativeBatch_of_roundTrips hpasses order
    obtain ⟨hok, -, -⟩ := applyAggregates_spec (nodup_poolAggregates order deltas) field.pools
    rw [hbatch, Bool.true_and, Bool.eq_iff_iff, hok, List.all_eq_true]
    refine ⟨fun hall delta hmem ↦ hall (delta.2.2, poolTotal deltas delta.2.2) ?_,
      fun hall entry hentry ↦ ?_⟩
    · rw [IterationOrder.mem_visit, mem_poolAggregates]
      exact ⟨⟨delta, hmem, rfl⟩, rfl⟩
    · rw [IterationOrder.mem_visit, mem_poolAggregates] at hentry
      obtain ⟨pool, amount⟩ := entry
      obtain ⟨⟨delta, hmem, hpool⟩, hamount⟩ := hentry
      dsimp only at hpool hamount
      rw [hamount, ← hpool]
      exact hall delta hmem

/-- The transform is not changed by a batch. -/
theorem nttEngine_batch (field : WaveField) (order : IterationOrder (PoolId × ℤ))
    (deltas : List (Coordinate × ℤ × PoolId)) :
    (field.synthesizeCommutativeBatch order deltas).1.nttEngine = field.nttEngine := by
  cases hpasses : roundTrips field.nttEngine deltas with
  | false =>
    obtain ⟨text, hbatch⟩ := synthesizeCommutativeBatch_of_mismatch hpasses order
    rw [hbatch]
  | true =>
    have hbatch := synthesizeCommutativeBatch_of_roundTrips hpasses order
    rw [hbatch]

/-- The units of a pool after a batch: a batch that passes the check adjusts the pools whose totals
it applies, and nothing else changes. -/
theorem poolUnits_batch (field : WaveField) (order : IterationOrder (PoolId × ℤ))
    (deltas : List (Coordinate × ℤ × PoolId)) (pool : PoolId) :
    poolUnits (field.synthesizeCommutativeBatch order deltas).1.pools pool =
      if roundTrips field.nttEngine deltas = true ∧
        (pool, poolTotal deltas pool) ∈ appliedTotals field order deltas then
          adjust (poolUnits field.pools pool) (poolTotal deltas pool)
      else poolUnits field.pools pool := by
  cases hpasses : roundTrips field.nttEngine deltas with
  | false =>
    obtain ⟨text, hbatch⟩ := synthesizeCommutativeBatch_of_mismatch hpasses order
    rw [hbatch, if_neg fun hboth ↦ Bool.false_ne_true hboth.1]
  | true =>
    have hbatch := synthesizeCommutativeBatch_of_roundTrips hpasses order
    obtain ⟨-, hdone, hkept⟩ := applyAggregates_spec (nodup_poolAggregates order deltas) field.pools
    rw [hbatch]
    dsimp only
    by_cases happlied : (pool, poolTotal deltas pool) ∈ appliedTotals field order deltas
    · rw [if_pos ⟨rfl, happlied⟩]
      exact hdone _ happlied
    · rw [if_neg fun hboth ↦ happlied hboth.2]
      refine hkept pool fun entry hentry hpool ↦ happlied ?_
      rw [← hpool, ← (occurs_of_mem_appliedTotals hentry).2]
      exact hentry

/-- An accepted batch adjusts every pool that occurs in it. Assumes: the batch is accepted and the
pool occurs in it. -/
theorem mem_appliedTotals {field : WaveField} {deltas : List (Coordinate × ℤ × PoolId)}
    (haccepts : accepts field deltas = true) (order : IterationOrder (PoolId × ℤ)) {pool : PoolId}
    (hoccurs : ∃ delta ∈ deltas, delta.2.2 = pool) :
    (pool, poolTotal deltas pool) ∈ appliedTotals field order deltas := by
  unfold accepts at haccepts
  rw [Bool.and_eq_true, List.all_eq_true] at haccepts
  have hall : ∀ entry ∈ order.visit (WaveField.poolAggregates deltas).toList,
      covers field.pools entry = true := by
    intro entry hentry
    rw [IterationOrder.mem_visit, mem_poolAggregates] at hentry
    obtain ⟨pool, amount⟩ := entry
    obtain ⟨⟨delta, hmem, hpool⟩, hamount⟩ := hentry
    dsimp only at hpool hamount
    rw [hamount, ← hpool]
    exact haccepts.2 delta hmem
  unfold appliedTotals
  rw [List.takeWhile_eq_self_iff.mpr hall, IterationOrder.mem_visit, mem_poolAggregates]
  exact ⟨hoccurs, rfl⟩

/-- A total that a batch applies is one that its pool can take. -/
theorem covers_of_mem_appliedTotals {field : WaveField} {order : IterationOrder (PoolId × ℤ)}
    {deltas : List (Coordinate × ℤ × PoolId)} {entry : PoolId × ℤ}
    (happlied : entry ∈ appliedTotals field order deltas) : covers field.pools entry = true :=
  List.mem_takeWhile_imp happlied

/-! ### The order of the deltas -/

/-- The total of a pool does not depend on the order of the deltas. -/
theorem poolTotal_perm {deltas deltas' : List (Coordinate × ℤ × PoolId)}
    (hperm : deltas.Perm deltas') (pool : PoolId) :
    poolTotal deltas pool = poolTotal deltas' pool := by
  unfold poolTotal
  rw [((hperm.filter _).map _).sum_eq]

/-- The sum of the absolute values of a batch. -/
def absoluteSum (deltas : List (Coordinate × ℤ × PoolId)) : ℕ :=
  (deltas.map fun delta : Coordinate × ℤ × PoolId ↦ delta.2.1.natAbs).sum

/-- The sum of the deltas of a batch with one key, such as a bin or a pool. -/
def sumAt {κ : Type} [DecidableEq κ] (keyOf : Coordinate × ℤ × PoolId → κ)
    (deltas : List (Coordinate × ℤ × PoolId)) (key : κ) : ℤ :=
  ((deltas.filter fun delta ↦ keyOf delta = key).map
    fun delta : Coordinate × ℤ × PoolId ↦ delta.2.1).sum

/-- The part of a batch that a test keeps is no larger. -/
theorem absoluteSum_filter_le (keep : Coordinate × ℤ × PoolId → Bool)
    (deltas : List (Coordinate × ℤ × PoolId)) :
    absoluteSum (deltas.filter keep) ≤ absoluteSum deltas :=
  List.Sublist.sum_le_sum (List.filter_sublist.map _) fun _ _ ↦ Nat.zero_le _

/-- The sum of a batch is within its absolute values. -/
theorem natAbs_sum_le (deltas : List (Coordinate × ℤ × PoolId)) :
    (deltas.map fun delta : Coordinate × ℤ × PoolId ↦ delta.2.1).sum.natAbs ≤
      absoluteSum deltas := by
  induction deltas with
  | nil => simp [absoluteSum]
  | cons delta deltas ih =>
    have hsplit : absoluteSum (delta :: deltas) = delta.2.1.natAbs + absoluteSum deltas := rfl
    rw [List.map_cons, List.sum_cons, hsplit]
    omega

/-- The sum for a key is within the absolute values. -/
theorem natAbs_sumAt_le {κ : Type} [DecidableEq κ] (keyOf : Coordinate × ℤ × PoolId → κ)
    (deltas : List (Coordinate × ℤ × PoolId)) (key : κ) :
    (sumAt keyOf deltas key).natAbs ≤ absoluteSum deltas :=
  (natAbs_sum_le _).trans (absoluteSum_filter_le _ deltas)

/-- The total of a batch for a pool is the sum of its deltas. Assumes: the absolute amounts of the
batch sum to less than 2^127. -/
theorem poolTotal_eq_sumAt {deltas : List (Coordinate × ℤ × PoolId)}
    (hsmall : absoluteSum deltas < 2 ^ 127) (pool : PoolId) :
    poolTotal deltas pool = sumAt (fun delta ↦ delta.2.2) deltas pool := by
  have hbound := natAbs_sumAt_le (fun delta ↦ delta.2.2) deltas pool
  exact @Int.bmod_eq_of_le (sumAt (fun delta ↦ delta.2.2) deltas pool) (2 ^ 128) (by omega)
    (by omega)

/-- A saturating sum within the range is the sum. Assumes: the sum is within the range. -/
theorem i128SaturatingAdd_of_lt {a b : ℤ} (hbound : (a.natAbs + b.natAbs : ℕ) < 2 ^ 127) :
    i128SaturatingAdd a b = a + b := by
  unfold i128SaturatingAdd
  omega

/-- A saturating running sum is the sum. Assumes: the start and the deltas together do not reach
`2 ^ 127`. -/
theorem foldl_i128SaturatingAdd {deltas : List (Coordinate × ℤ × PoolId)} {start : ℤ}
    (hsmall : start.natAbs + absoluteSum deltas < 2 ^ 127) :
    deltas.foldl (fun total delta ↦ i128SaturatingAdd total delta.2.1) start =
      start + (deltas.map fun delta : Coordinate × ℤ × PoolId ↦ delta.2.1).sum := by
  induction deltas generalizing start with
  | nil => simp
  | cons delta deltas ih =>
    have hsplit : absoluteSum (delta :: deltas) = delta.2.1.natAbs + absoluteSum deltas := rfl
    rw [List.foldl_cons, i128SaturatingAdd_of_lt (by omega), ih (by omega), List.map_cons,
      List.sum_cons, add_assoc]

/-- The deltas of a batch for one bin, added up in saturating `i128` arithmetic. -/
def binTotal (size : ℕ) (deltas : List (Coordinate × ℤ × PoolId)) (bin : ℕ) : ℤ :=
  (deltas.filter fun delta : Coordinate × ℤ × PoolId ↦ delta.1.toNttIndex size = bin).foldl
    (fun total delta ↦ i128SaturatingAdd total delta.2.1) 0

/-- The entry of every bin after a batch was added to the bins. -/
theorem getElem?_foldl_modify (size : ℕ) (deltas : List (Coordinate × ℤ × PoolId)) (bins : List ℤ)
    (bin : ℕ) :
    (deltas.foldl (fun bins delta ↦ bins.modify (delta.1.toNttIndex size)
      (i128SaturatingAdd · delta.2.1)) bins)[bin]? =
      bins[bin]?.map fun start ↦ (deltas.filter fun delta : Coordinate × ℤ × PoolId ↦
        delta.1.toNttIndex size = bin).foldl
          (fun total delta ↦ i128SaturatingAdd total delta.2.1) start := by
  induction deltas generalizing bins with
  | nil => simp
  | cons delta deltas ih =>
    rw [List.foldl_cons, ih, List.getElem?_modify, Option.map_eq_map, Option.map_map,
      List.filter_cons]
    by_cases hbin : delta.1.toNttIndex size = bin
    · simp [hbin, Function.comp_def]
    · simp [hbin, Function.comp_def]

/-- The bins of a batch are their totals. -/
theorem binTotals_eq (size : ℕ) (deltas : List (Coordinate × ℤ × PoolId)) :
    WaveField.binTotals size deltas = (List.range size).map (binTotal size deltas) := by
  refine List.ext_getElem? fun bin ↦ ?_
  unfold WaveField.binTotals
  rw [getElem?_foldl_modify, List.getElem?_map]
  by_cases hbin : bin < size
  · rw [List.getElem?_replicate_of_lt hbin, List.getElem?_range hbin]
    rfl
  · rw [List.getElem?_eq_none (by simpa using hbin), List.getElem?_eq_none (by simpa using hbin)]
    rfl

/-- The total of a bin is the sum of its deltas. Assumes: the absolute amounts of the batch sum to
less than 2^127. -/
theorem binTotal_eq_sumAt {deltas : List (Coordinate × ℤ × PoolId)}
    (hsmall : absoluteSum deltas < 2 ^ 127) (size bin : ℕ) :
    binTotal size deltas bin = sumAt (fun delta ↦ delta.1.toNttIndex size) deltas bin := by
  have hpart := absoluteSum_filter_le
    (fun delta : Coordinate × ℤ × PoolId ↦ delta.1.toNttIndex size = bin) deltas
  unfold binTotal
  rw [foldl_i128SaturatingAdd (by rw [Int.natAbs_zero]; omega), zero_add]
  rfl

/-- The check does not depend on the order of small deltas. Assumes: the absolute values of the
deltas sum below `2 ^ 127`. -/
theorem roundTrips_of_perm {deltas deltas' : List (Coordinate × ℤ × PoolId)}
    (hperm : deltas.Perm deltas') (hsmall : absoluteSum deltas < 2 ^ 127) (engine : NttEngine) :
    roundTrips engine deltas = roundTrips engine deltas' := by
  have hsmall' : absoluteSum deltas' < 2 ^ 127 := by
    have hsame : absoluteSum deltas = absoluteSum deltas' := (hperm.map _).sum_eq
    omega
  have hbins : WaveField.binTotals engine.size deltas =
      WaveField.binTotals engine.size deltas' := by
    rw [binTotals_eq, binTotals_eq]
    refine List.map_congr_left fun bin _ ↦ ?_
    rw [binTotal_eq_sumAt hsmall, binTotal_eq_sumAt hsmall']
    exact ((hperm.filter _).map _).sum_eq
  unfold roundTrips
  rw [hbins]

/-- Whether a batch passes the check decides whether its reorderings are accepted alike. Assumes:
the second batch is a reordering that passes the check exactly when the first one does. -/
theorem accepts_of_perm {field : WaveField} {deltas deltas' : List (Coordinate × ℤ × PoolId)}
    (hperm : deltas.Perm deltas')
    (hcheck : roundTrips field.nttEngine deltas = roundTrips field.nttEngine deltas') :
    accepts field deltas = accepts field deltas' := by
  unfold accepts
  rw [hcheck, Bool.eq_iff_iff, Bool.and_eq_true, Bool.and_eq_true, List.all_eq_true,
    List.all_eq_true]
  refine and_congr_right fun _ ↦ ⟨fun hall delta hmem ↦ ?_, fun hall delta hmem ↦ ?_⟩
  · rw [← poolTotal_perm hperm]
    exact hall delta (hperm.mem_iff.mpr hmem)
  · rw [poolTotal_perm hperm]
    exact hall delta (hperm.mem_iff.mp hmem)

end Fluidic.Field
