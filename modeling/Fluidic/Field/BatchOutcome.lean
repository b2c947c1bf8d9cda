import Fluidic.Consensus.NttInverse
import Fluidic.Field.CommutativeBatch

/-!
# The outcome of a commutative batch

A batch is grouped twice, by bins for the check and by pools for the effect. The check sends the
total of every bin through the transform and back. Since the two transforms are inverse to each
other, a total comes back exactly when it is the balanced representative of its residue
(`roundTrips_iff`), so that the verdict can be read off from the sums of the batch
(`batch_eq_sequential`).

A batch that passes the check but not the pools is refused after the spectrum was written and the
pools visited before were changed. `refused_unchanged_iff` says for which batches this leaves no
trace in any order of the pools.
-/

set_option autoImplicit false
set_option relaxedAutoImplicit false

namespace Fluidic.Field

open Library Crypto Consensus
open Std (ExtTreeMap LawfulEqCmp)

/-! ### The check -/

/-- A total that has a representative of its own among the residues. -/
def Balanced (total : ℤ) : Prop := -((nttModulus - 1) / 2) ≤ total ∧ total ≤ (nttModulus - 1) / 2

instance : DecidablePred Balanced :=
  fun total ↦ inferInstanceAs (Decidable (_ ≤ total ∧ total ≤ _))

theorem signedToField_eq (x : ℤ) : signedToField x = (x % nttModulus).toNat := by
  unfold signedToField
  dsimp only
  rw [Int.tmod_eq_emod]
  unfold nttModulus
  split_ifs <;> omega

theorem signedToField_lt (x : ℤ) : signedToField x < nttModulus := by
  rw [signedToField_eq]
  unfold nttModulus
  omega

/-- A total comes back from the residues exactly when it is balanced. -/
theorem fieldToSigned_signedToField_iff (x : ℤ) :
    fieldToSigned (signedToField x) = x ↔ Balanced x := by
  rw [signedToField_eq]
  unfold fieldToSigned Balanced nttModulus
  split_ifs <;> omega

/-- A list agrees with the values of a function entry by entry exactly when each of its elements is
its own value. -/
theorem isNone_find?_zip_map {α : Type} [DecidableEq α] (f : α → α) (entries : List α) :
    (((entries.zip (entries.map f)).zipIdx.find? fun entry ↦ entry.1.1 ≠ entry.1.2).isNone =
      true) ↔ ∀ x ∈ entries, f x = x := by
  have hzip : entries.zip (entries.map f) = entries.map fun x ↦ (x, f x) := by
    have hmaps : (entries.map id).zip (entries.map f) = entries.map fun x ↦ (id x, f x) :=
      List.zip_map'
    rwa [List.map_id] at hmaps
  have hindexed : ∀ pairs : List (α × α), (∀ entry ∈ pairs.zipIdx, entry.1.1 = entry.1.2) ↔
      ∀ pair ∈ pairs, pair.1 = pair.2 := by
    intro pairs
    have hpairs := List.zipIdx_map_fst 0 pairs
    conv_rhs => rw [← hpairs]
    rw [List.forall_mem_map]
  rw [Option.isNone_iff_eq_none, List.find?_eq_none]
  simp only [ne_eq, decide_not, Bool.not_eq_true', decide_eq_false_iff_not, not_not]
  rw [hindexed, hzip, List.forall_mem_map]
  exact forall₂_congr fun x _ ↦ eq_comm

/-- A batch passes the check exactly when the total of every bin is balanced. Assumes: the size is
one of those that the assertions let through. -/
theorem roundTrips_iff {size : ℕ} (hsize : NttEngine.Accepts size)
    (deltas : List (Coordinate × ℤ × PoolId)) :
    roundTrips (NttEngine.new size) deltas = true ↔
      ∀ bin < size, Balanced (binTotal size deltas bin) := by
  have hbins := binTotals_eq size deltas
  have hlength : ((WaveField.binTotals size deltas).map signedToField).length = size := by
    rw [hbins, List.length_map, List.length_map, List.length_range]
  have hreduced : ∀ x ∈ (WaveField.binTotals size deltas).map signedToField, x < nttModulus := by
    intro x hx
    obtain ⟨total, -, rfl⟩ := List.mem_map.mp hx
    exact signedToField_lt total
  obtain ⟨hrecovered, -⟩ := ntt_intt_roundtrip hsize hlength hreduced
  have hsame : (NttEngine.new size).size = size := rfl
  unfold roundTrips
  dsimp only
  rw [hsame, hrecovered, List.map_map, isNone_find?_zip_map, hbins, List.forall_mem_map]
  simp only [List.mem_range, Function.comp_apply, fieldToSigned_signedToField_iff]

/-! ### The pools -/

/-- What the types and the constructor of a field promise: its transform is one of a size that the
assertions let through, and the units of its pools fit in 128 bits. -/
structure Constructed (field : WaveField) (size : ℕ) : Prop where
  accepts : NttEngine.Accepts size
  engine : field.nttEngine = NttEngine.new size
  units_lt : ∀ pool, poolUnits field.pools pool < 2 ^ 128

/-- A new field keeps the promises. Assumes: the assertions let its size through. -/
theorem constructed_new {size : ℕ} (hsize : NttEngine.Accepts size) :
    Constructed (WaveField.new size) size where
  accepts := hsize
  engine := rfl
  units_lt pool := by
    rw [poolUnits, ExtTreeMap.getD_eq_getD_getElem?]
    simp [WaveField.new, Balance.zero]

/-- Units after an amount that they cover stop at the largest value. Assumes: the units are below
2^128 and cover the amount. -/
theorem adjust_eq_min {units : ℕ} {amount : ℤ} (hunits : units < 2 ^ 128)
    (hcovered : 0 ≤ (units : ℤ) + amount) :
    adjust units amount = (min ((units : ℤ) + amount) (2 ^ 128 - 1)).toNat := by
  unfold adjust saturatingAdd
  split_ifs <;> omega

/-- A batch keeps the promises. Assumes: the field keeps the promises. -/
theorem Constructed.batch {field : WaveField} {size : ℕ} (hfield : Constructed field size)
    (order : IterationOrder (PoolId × ℤ)) (deltas : List (Coordinate × ℤ × PoolId)) :
    Constructed (field.synthesizeCommutativeBatch order deltas).1 size where
  accepts := hfield.accepts
  engine := (nttEngine_batch field order deltas).trans hfield.engine
  units_lt pool := by
    have hunits := hfield.units_lt pool
    rw [poolUnits_batch]
    split_ifs with happlied
    · have hcovered := of_decide_eq_true (covers_of_mem_appliedTotals happlied.2)
      rw [adjust_eq_min hunits hcovered]
      omega
    · exact hunits

/-- The balances of the pools after a batch: a batch that passes the check adjusts the pools whose
totals it applies, and at most creates another one that occurs in it. Assumes: the batch passes the
check. -/
theorem getElem?_pools_batch {field : WaveField} {deltas : List (Coordinate × ℤ × PoolId)}
    (hpasses : roundTrips field.nttEngine deltas = true) (order : IterationOrder (PoolId × ℤ)) :
    (∀ entry ∈ appliedTotals field order deltas,
      (field.synthesizeCommutativeBatch order deltas).1.pools[entry.1]? =
        some (adjustBalance (field.pools.getD entry.1 Balance.zero) entry.2)) ∧
    ∀ pool, (∀ entry ∈ appliedTotals field order deltas, entry.1 ≠ pool) →
      (field.synthesizeCommutativeBatch order deltas).1.pools[pool]? = field.pools[pool]? ∨
      pool ∉ field.pools ∧ ∃ delta ∈ deltas, delta.2.2 = pool := by
  obtain ⟨-, hdone, hkept⟩ :=
    applyAggregates_lookup (nodup_poolAggregates order deltas) field.pools
  rw [synthesizeCommutativeBatch_of_roundTrips hpasses order]
  refine ⟨hdone, fun pool hne ↦ ?_⟩
  rcases hkept pool hne with hsame | ⟨habsent, ⟨entry, hentry, hpool⟩, -⟩
  · exact .inl hsame
  · rw [IterationOrder.mem_visit, mem_poolAggregates] at hentry
    obtain ⟨⟨delta, hmem, hdelta⟩, -⟩ := hentry
    exact .inr ⟨habsent, delta, hmem, hdelta.trans hpool⟩

/-- The accounts and the spectrum after a batch that passes the check. Assumes: the batch passes the
check. -/
theorem spectrum_batch {field : WaveField} {deltas : List (Coordinate × ℤ × PoolId)}
    (hpasses : roundTrips field.nttEngine deltas = true) (order : IterationOrder (PoolId × ℤ)) :
    (field.synthesizeCommutativeBatch order deltas).1.accounts = field.accounts ∧
      (field.synthesizeCommutativeBatch order deltas).1.spectrum =
        field.nttEngine.ntt ((List.range field.nttEngine.size).map fun bin ↦
          (binTotal field.nttEngine.size deltas bin % nttModulus).toNat) := by
  rw [synthesizeCommutativeBatch_of_roundTrips hpasses order, binTotals_eq, List.map_map]
  simp only [Function.comp_def, signedToField_eq, and_self]

/-! ### The verdict and the effect -/

/-- A key that no delta has sums to zero. Assumes: no delta has the key. -/
theorem sumAt_eq_zero {κ : Type} [DecidableEq κ] {keyOf : Coordinate × ℤ × PoolId → κ}
    {deltas : List (Coordinate × ℤ × PoolId)} {key : κ}
    (hnone : ∀ delta ∈ deltas, keyOf delta ≠ key) : sumAt keyOf deltas key = 0 := by
  have hfilter : deltas.filter (fun delta ↦ keyOf delta = key) = [] := by
    rw [List.filter_eq_nil_iff]
    exact fun delta hmem hkey ↦ hnone delta hmem (of_decide_eq_true hkey)
  rw [sumAt, hfilter]
  rfl

/-- A batch is accepted exactly when the totals of its bins are balanced and its pools can take
their totals. Assumes: the field keeps the promises. -/
theorem batch_eq_ok_iff {field : WaveField} {size : ℕ} (hfield : Constructed field size)
    (order : IterationOrder (PoolId × ℤ)) (deltas : List (Coordinate × ℤ × PoolId)) :
    (field.synthesizeCommutativeBatch order deltas).2 = .ok () ↔
      (∀ bin < size, Balanced (binTotal size deltas bin)) ∧ ∀ delta ∈ deltas,
        0 ≤ (poolUnits field.pools delta.2.2 : ℤ) + poolTotal deltas delta.2.2 := by
  have hok : (field.synthesizeCommutativeBatch order deltas).2 = .ok () ↔
      (field.synthesizeCommutativeBatch order deltas).2.isOk = true := by
    cases (field.synthesizeCommutativeBatch order deltas).2 with
    | error text => exact ⟨(fun hequal ↦ by cases hequal), fun hequal ↦ by cases hequal⟩
    | ok => exact ⟨fun _ ↦ rfl, fun _ ↦ rfl⟩
  rw [hok, isOk_batch, accepts, Bool.and_eq_true, List.all_eq_true, hfield.engine,
    roundTrips_iff hfield.accepts]
  simp only [covers, decide_eq_true_eq]

/-- Every pool of a batch covers its sum exactly when every pool holds what its sum takes: the sum
of a pool that does not occur is zero. -/
theorem covered_iff (pools : ExtTreeMap PoolId Balance)
    (deltas : List (Coordinate × ℤ × PoolId)) :
    (∀ delta ∈ deltas, 0 ≤ (poolUnits pools delta.2.2 : ℤ) +
      sumAt (fun delta ↦ delta.2.2) deltas delta.2.2) ↔
    ∀ pool, sumAt (fun delta ↦ delta.2.2) deltas pool < 0 →
      (sumAt (fun delta ↦ delta.2.2) deltas pool).natAbs ≤ poolUnits pools pool := by
  constructor
  · intro hall pool hnegative
    by_cases hoccurs : ∃ delta ∈ deltas, delta.2.2 = pool
    · obtain ⟨delta, hmem, rfl⟩ := hoccurs
      have hcovered := hall delta hmem
      omega
    · have hzero := @sumAt_eq_zero _ _ (fun delta ↦ delta.2.2) deltas pool
        fun delta hmem hpool ↦ hoccurs ⟨delta, hmem, hpool⟩
      omega
  · intro hall delta hmem
    have hcovered := hall delta.2.2
    omega

/-- The batch equals the sequential aggregation: it is accepted exactly when the sum of every bin is
balanced and every pool holds what its sum takes, and then every pool of the batch has its sum
added, stopping at the largest value, the other pools and the accounts are as before, and the
spectrum is the transform of the sums of the bins. Assumes: the field keeps the promises, and the
absolute values of the deltas sum below `2 ^ 127`. -/
theorem batch_eq_sequential {field : WaveField} {size : ℕ} (hfield : Constructed field size)
    {deltas : List (Coordinate × ℤ × PoolId)} (hsmall : absoluteSum deltas < 2 ^ 127)
    (order : IterationOrder (PoolId × ℤ)) :
    ((field.synthesizeCommutativeBatch order deltas).2 = .ok () ↔
      (∀ bin < size, Balanced (sumAt (fun delta ↦ delta.1.toNttIndex size) deltas bin)) ∧
      ∀ pool, sumAt (fun delta ↦ delta.2.2) deltas pool < 0 →
        (sumAt (fun delta ↦ delta.2.2) deltas pool).natAbs ≤ poolUnits field.pools pool) ∧
    ((field.synthesizeCommutativeBatch order deltas).2 = .ok () →
      (∀ pool, (∃ delta ∈ deltas, delta.2.2 = pool) →
        (field.synthesizeCommutativeBatch order deltas).1.pools[pool]? =
          some { field.pools.getD pool Balance.zero with
            units := (min ((poolUnits field.pools pool : ℤ) +
              sumAt (fun delta ↦ delta.2.2) deltas pool) (2 ^ 128 - 1)).toNat }) ∧
      (∀ pool, (∀ delta ∈ deltas, delta.2.2 ≠ pool) →
        (field.synthesizeCommutativeBatch order deltas).1.pools[pool]? = field.pools[pool]?) ∧
      (field.synthesizeCommutativeBatch order deltas).1.accounts = field.accounts ∧
      (field.synthesizeCommutativeBatch order deltas).1.spectrum =
        (NttEngine.new size).ntt ((List.range size).map fun bin ↦
          (sumAt (fun delta ↦ delta.1.toNttIndex size) deltas bin % nttModulus).toNat)) := by
  have htotals := poolTotal_eq_sumAt hsmall
  have hbins := binTotal_eq_sumAt hsmall size
  have hverdict := batch_eq_ok_iff hfield order deltas
  simp only [htotals, hbins] at hverdict
  refine ⟨hverdict.trans (and_congr_right' (covered_iff field.pools deltas)),
    fun haccepted ↦ ?_⟩
  have hpasses : roundTrips field.nttEngine deltas = true := by
    rw [hfield.engine, roundTrips_iff hfield.accepts]
    simp only [hbins]
    exact (hverdict.mp haccepted).1
  have haccepts : accepts field deltas = true := by
    rw [← isOk_batch field order, haccepted]
    rfl
  obtain ⟨hdone, hkept⟩ := getElem?_pools_batch hpasses order
  obtain ⟨haccounts, hspectrum⟩ := spectrum_batch hpasses order
  have hsize : (NttEngine.new size).size = size := rfl
  simp only [hfield.engine, hsize, hbins] at hspectrum
  refine ⟨fun pool hoccurs ↦ ?_, fun pool hnone ↦ ?_, haccounts, hspectrum⟩
  · have happlied := mem_appliedTotals haccepts order hoccurs
    have hcovered : 0 ≤ (poolUnits field.pools pool : ℤ) + poolTotal deltas pool :=
      of_decide_eq_true (covers_of_mem_appliedTotals happlied)
    have hadjusted := adjust_eq_min (hfield.units_lt pool) hcovered
    rw [hdone _ happlied, ← htotals pool, ← hadjusted]
    rfl
  · have hfree : ∀ entry ∈ appliedTotals field order deltas, entry.1 ≠ pool := by
      intro entry hentry hpool
      obtain ⟨⟨delta, hmem, hdelta⟩, -⟩ := occurs_of_mem_appliedTotals hentry
      exact hnone delta hmem (hdelta.trans hpool)
    rcases hkept pool hfree with hsame | ⟨-, delta, hmem, hdelta⟩
    · exact hsame
    · exact absurd hdelta (hnone delta hmem)

theorem constructed_eight : Constructed (WaveField.new 8) 8 :=
  constructed_new ((accepts_iff 8).mpr ⟨3, by decide, by decide, rfl⟩)

/-- A deposit of 5 into the first pool of a new field. -/
def fundedField : WaveField :=
  ((WaveField.new 8).synthesizeCommutativeBatch .forward [(.fromScalar 1, 5, 1)]).1

theorem constructed_fundedField : Constructed fundedField 8 := constructed_eight.batch .forward _

/-- Two withdrawals of 2, in two bins. -/
def withdrawals : List (Coordinate × ℤ × PoolId) := [(.fromScalar 1, -2, 1), (.fromScalar 2, -2, 1)]

/-- The pool covers both withdrawals. -/
theorem batch_eq_sequential_withdrawals :
    (fundedField.synthesizeCommutativeBatch .forward withdrawals).2 = .ok () ∧
      (fundedField.synthesizeCommutativeBatch .forward withdrawals).1.pools[(1 : PoolId)]? =
        some { fundedField.pools.getD 1 Balance.zero with units := 1 } ∧
      (fundedField.synthesizeCommutativeBatch .forward withdrawals).1.accounts =
        fundedField.accounts := by
  have haccepted :
      (fundedField.synthesizeCommutativeBatch .forward withdrawals).2 = .ok () := by
    decide +kernel
  have hunits : (min ((poolUnits fundedField.pools 1 : ℤ) +
      sumAt (fun delta ↦ delta.2.2) withdrawals (1 : PoolId)) (2 ^ 128 - 1)).toNat = 1 := by
    decide +kernel
  obtain ⟨hpools, -, haccounts, -⟩ :=
    (@batch_eq_sequential fundedField 8 constructed_fundedField withdrawals (by decide)
      .forward).2 haccepted
  refine ⟨haccepted, ?_, haccounts⟩
  rw [hpools 1 ⟨_, List.mem_cons_self, rfl⟩, hunits]

/-! ### Refused batches -/

/-- A batch whose refusal leaves no trace: the spectrum is the one that it writes, and its pools
exist and keep their balances under the totals that they can take. -/
def LeavesNoTrace (field : WaveField) (size : ℕ) (deltas : List (Coordinate × ℤ × PoolId)) :
    Prop :=
  field.spectrum = (NttEngine.new size).ntt ((List.range size).map fun bin ↦
    (binTotal size deltas bin % nttModulus).toNat) ∧
  ∀ delta ∈ deltas, delta.2.2 ∈ field.pools ∧
    (0 ≤ (poolUnits field.pools delta.2.2 : ℤ) + poolTotal deltas delta.2.2 →
      poolTotal deltas delta.2.2 = 0 ∨
      0 < poolTotal deltas delta.2.2 ∧ poolUnits field.pools delta.2.2 = 2 ^ 128 - 1)

/-- Units are kept by an amount exactly when it is zero or they cannot grow. Assumes: the units are
below 2^128 and cover the amount. -/
theorem adjust_eq_self_iff {units : ℕ} {amount : ℤ} (hunits : units < 2 ^ 128)
    (hcovered : 0 ≤ (units : ℤ) + amount) :
    adjust units amount = units ↔ amount = 0 ∨ 0 < amount ∧ units = 2 ^ 128 - 1 := by
  rw [adjust_eq_min hunits hcovered]
  omega

/-- Any pool of a batch is the first one in some order. Assumes: the pool occurs in the batch. -/
theorem exists_order_first {deltas : List (Coordinate × ℤ × PoolId)} {pool : PoolId}
    (hoccurs : ∃ delta ∈ deltas, delta.2.2 = pool) :
    ∃ (order : IterationOrder (PoolId × ℤ)) (rest : List (PoolId × ℤ)),
      order.visit (WaveField.poolAggregates deltas).toList =
        (pool, poolTotal deltas pool) :: rest := by
  have hmem := (mem_poolAggregates deltas (pool, poolTotal deltas pool)).mpr ⟨hoccurs, rfl⟩
  exact ⟨_, _, IterationOrder.visit_arranging (List.perm_cons_erase hmem).symm⟩

/-- A refusal that leaves the field alone in every order leaves no trace. Assumes: the field keeps
the promises, the batch passes the check, and it is refused. -/
theorem leavesNoTrace_of_unchanged {field : WaveField} {size : ℕ} (hfield : Constructed field size)
    {deltas : List (Coordinate × ℤ × PoolId)}
    (hpasses : roundTrips field.nttEngine deltas = true)
    (hunchanged : ∀ order,
      (field.synthesizeCommutativeBatch order deltas).1.pools = field.pools ∧
        (field.synthesizeCommutativeBatch order deltas).1.spectrum = field.spectrum) :
    LeavesNoTrace field size deltas := by
  refine ⟨?_, fun delta hmem ↦ ?_⟩
  · obtain ⟨-, hspectrum⟩ := spectrum_batch hpasses .forward
    rw [(hunchanged .forward).2, hfield.engine] at hspectrum
    exact hspectrum
  · obtain ⟨order, rest, hfirst⟩ := exists_order_first ⟨delta, hmem, rfl⟩
    have hpools := (hunchanged order).1
    by_cases hcovered : 0 ≤ (poolUnits field.pools delta.2.2 : ℤ) + poolTotal deltas delta.2.2
    · have hcovers : covers field.pools (delta.2.2, poolTotal deltas delta.2.2) = true :=
        decide_eq_true hcovered
      have happlied : (delta.2.2, poolTotal deltas delta.2.2) ∈
          appliedTotals field order deltas := by
        unfold appliedTotals
        rw [hfirst, List.takeWhile_cons_of_pos hcovers]
        exact List.mem_cons_self
      have hadjusted := (getElem?_pools_batch hpasses order).1 _ happlied
      rw [hpools] at hadjusted
      have hunits : poolUnits field.pools delta.2.2 =
          adjust (poolUnits field.pools delta.2.2) (poolTotal deltas delta.2.2) := by
        conv_lhs => rw [poolUnits, ExtTreeMap.getD_eq_getD_getElem?, hadjusted]
        rfl
      refine ⟨ExtTreeMap.isSome_getElem?_iff_mem.mp (by rw [hadjusted]; rfl), fun _ ↦ ?_⟩
      exact (adjust_eq_self_iff (hfield.units_lt delta.2.2) hcovered).mp hunits.symm
    · refine ⟨?_, fun hcovers ↦ absurd hcovers hcovered⟩
      have hbatch := synthesizeCommutativeBatch_of_roundTrips hpasses order
      rw [hfirst] at hbatch
      rcases applyAggregates_cons field.pools (delta.2.2, poolTotal deltas delta.2.2) rest with
        ⟨hcovers, -⟩ | ⟨-, text, happly⟩
      · exact absurd (of_decide_eq_true hcovers) hcovered
      · rw [← hpools, hbatch, happly]
        exact ExtTreeMap.mem_insertIfNew_self

/-- Where a refusal leaves no trace the pools are as before. Assumes: the field keeps the promises,
the batch passes the check, and its refusal leaves no trace. -/
theorem pools_of_leavesNoTrace {field : WaveField} {size : ℕ} (hfield : Constructed field size)
    {deltas : List (Coordinate × ℤ × PoolId)}
    (hpasses : roundTrips field.nttEngine deltas = true) (htrace : LeavesNoTrace field size deltas)
    (order : IterationOrder (PoolId × ℤ)) :
    (field.synthesizeCommutativeBatch order deltas).1.pools = field.pools := by
  obtain ⟨hdone, hkept⟩ := getElem?_pools_batch hpasses order
  refine ExtTreeMap.ext_getElem? fun pool ↦ ?_
  by_cases happlied : ∃ entry ∈ appliedTotals field order deltas, entry.1 = pool
  · obtain ⟨⟨_, amount⟩, hentry, rfl⟩ := happlied
    obtain ⟨⟨delta, hmem, hdelta⟩, htotal⟩ := occurs_of_mem_appliedTotals hentry
    dsimp only at hdelta htotal
    subst hdelta htotal
    have hcovered : 0 ≤ (poolUnits field.pools delta.2.2 : ℤ) + poolTotal deltas delta.2.2 :=
      of_decide_eq_true (covers_of_mem_appliedTotals hentry)
    obtain ⟨hpool, hkeeps⟩ := htrace.2 delta hmem
    obtain ⟨balance, hbalance⟩ := mem_iff_exists_getElem?.mp hpool
    have hheld : field.pools.getD delta.2.2 Balance.zero = balance := by
      rw [ExtTreeMap.getD_eq_getD_getElem?, hbalance, Option.getD_some]
    have hunits := (adjust_eq_self_iff (hfield.units_lt delta.2.2) hcovered).mpr (hkeeps hcovered)
    rw [hdone _ hentry, hbalance]
    unfold adjustBalance
    unfold poolUnits at hunits
    rw [hunits, hheld]
  · rcases hkept pool fun entry hentry hpool ↦ happlied ⟨entry, hentry, hpool⟩ with
      hsame | ⟨habsent, delta, hmem, rfl⟩
    · exact hsame
    · exact absurd (htrace.2 delta hmem).1 habsent

/-- A refused batch leaves the pools, the accounts and the spectrum alone, in every order of its
pools, exactly when it fails the check, is never refused, or its refusal leaves no trace. Assumes:
the field keeps the promises. -/
theorem refused_unchanged_iff {field : WaveField} {size : ℕ} (hfield : Constructed field size)
    (deltas : List (Coordinate × ℤ × PoolId)) :
    (∀ (order : IterationOrder (PoolId × ℤ)) (text : String),
      (field.synthesizeCommutativeBatch order deltas).2 = .error text →
        (field.synthesizeCommutativeBatch order deltas).1.pools = field.pools ∧
        (field.synthesizeCommutativeBatch order deltas).1.accounts = field.accounts ∧
        (field.synthesizeCommutativeBatch order deltas).1.spectrum = field.spectrum) ↔
      (∃ bin < size, ¬Balanced (binTotal size deltas bin)) ∨
      (∀ delta ∈ deltas,
        0 ≤ (poolUnits field.pools delta.2.2 : ℤ) + poolTotal deltas delta.2.2) ∨
      LeavesNoTrace field size deltas := by
  have hcheck := roundTrips_iff hfield.accepts deltas
  rw [← hfield.engine] at hcheck
  constructor
  · intro hunchanged
    by_cases hbins : ∀ bin < size, Balanced (binTotal size deltas bin)
    · by_cases hcovered : ∀ delta ∈ deltas,
          0 ≤ (poolUnits field.pools delta.2.2 : ℤ) + poolTotal deltas delta.2.2
      · exact .inr (.inl hcovered)
      · refine .inr (.inr (leavesNoTrace_of_unchanged hfield (hcheck.mpr hbins) fun order ↦ ?_))
        have hverdict := batch_eq_ok_iff hfield order deltas
        cases houtcome : (field.synthesizeCommutativeBatch order deltas).2 with
        | error text =>
          obtain ⟨hpools, -, hspectrum⟩ := hunchanged order text houtcome
          exact ⟨hpools, hspectrum⟩
        | ok => exact absurd (hverdict.mp houtcome).2 hcovered
    · push Not at hbins
      exact .inl hbins
  · intro hcondition order text herror
    by_cases hpasses : roundTrips field.nttEngine deltas = true
    · obtain ⟨haccounts, hspectrum⟩ := spectrum_batch hpasses order
      rcases hcondition with ⟨bin, hbin, hunbalanced⟩ | hcovered | htrace
      · exact absurd (hcheck.mp hpasses bin hbin) hunbalanced
      · have haccepted := (batch_eq_ok_iff hfield order deltas).mpr ⟨hcheck.mp hpasses, hcovered⟩
        rw [haccepted] at herror
        cases herror
      · refine ⟨pools_of_leavesNoTrace hfield hpasses htrace order, haccounts, ?_⟩
        rw [hspectrum, htrace.1, hfield.engine]
        rfl
    · obtain ⟨mismatch, hbatch⟩ :=
        synthesizeCommutativeBatch_of_mismatch (Bool.eq_false_iff.mpr hpasses) order
      rw [hbatch]
      exact ⟨rfl, rfl, rfl⟩

/-- A deposit of the modulus, whose bin is not balanced. -/
def wideDeposit : List (Coordinate × ℤ × PoolId) := [(.fromScalar 1, nttModulus, 1)]

/-- The refused deposit of the modulus leaves a new field alone. -/
theorem refused_unchanged_iff_wideDeposit :
    ∃ text, ((WaveField.new 8).synthesizeCommutativeBatch .forward wideDeposit).2 = .error text ∧
      ((WaveField.new 8).synthesizeCommutativeBatch .forward wideDeposit).1.pools =
        (WaveField.new 8).pools ∧
      ((WaveField.new 8).synthesizeCommutativeBatch .forward wideDeposit).1.accounts =
        (WaveField.new 8).accounts ∧
      ((WaveField.new 8).synthesizeCommutativeBatch .forward wideDeposit).1.spectrum =
        (WaveField.new 8).spectrum := by
  have hunbalanced : ∃ bin < 8, ¬Balanced (binTotal 8 wideDeposit bin) := by
    decide +kernel
  have hunchanged := (refused_unchanged_iff constructed_eight wideDeposit).mpr (.inl hunbalanced)
  cases houtcome : ((WaveField.new 8).synthesizeCommutativeBatch .forward wideDeposit).2 with
  | error text => exact ⟨text, rfl, hunchanged .forward text houtcome⟩
  | ok =>
    obtain ⟨bin, hbin, hnot⟩ := hunbalanced
    have hverdict := batch_eq_ok_iff constructed_eight .forward wideDeposit
    exact absurd ((hverdict.mp houtcome).1 bin hbin) hnot

/-- A deposit into one pool and a withdrawal from another, empty one. -/
def splitDeposit : List (Coordinate × ℤ × PoolId) := [(.fromScalar 1, 5, 1), (.fromScalar 2, -3, 2)]

/-- Where the deposit comes first, the refused batch has made it. -/
theorem refused_after_deposit : Constructed (WaveField.new 8) 8 ∧
    ¬∀ (order : IterationOrder (PoolId × ℤ)) (text : String),
      ((WaveField.new 8).synthesizeCommutativeBatch order splitDeposit).2 = .error text →
        ((WaveField.new 8).synthesizeCommutativeBatch order splitDeposit).1.pools =
          (WaveField.new 8).pools ∧
        ((WaveField.new 8).synthesizeCommutativeBatch order splitDeposit).1.accounts =
          (WaveField.new 8).accounts ∧
        ((WaveField.new 8).synthesizeCommutativeBatch order splitDeposit).1.spectrum =
          (WaveField.new 8).spectrum := by
  refine ⟨constructed_eight, fun hunchanged ↦ ?_⟩
  have hrefused :
      ((WaveField.new 8).synthesizeCommutativeBatch .forward splitDeposit).2.isOk = false := by
    decide +kernel
  have hmade : poolUnits
      ((WaveField.new 8).synthesizeCommutativeBatch .forward splitDeposit).1.pools 1 = 5 := by
    decide +kernel
  cases houtcome : ((WaveField.new 8).synthesizeCommutativeBatch .forward splitDeposit).2 with
  | error text =>
    rw [(hunchanged .forward text houtcome).1] at hmade
    revert hmade
    decide +kernel
  | ok =>
    rw [houtcome] at hrefused
    cases hrefused

end Fluidic.Field
