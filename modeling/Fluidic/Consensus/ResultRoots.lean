import Fluidic.Consensus.CommutativeRoot

/-!
# What the roots of a result bind

The commutative root and the balances root of `src/consensus/certificate.rs` hash byte strings that
determine what they are roots of: the tick and the deltas up to their order, and the balances. The
source collects the balances from a hash table and sorts them by account; `balancesBytes` takes the
order in which the table is visited, and the bytes do not depend on it (`balancesRoot_eq`).
-/

set_option autoImplicit false
set_option relaxedAutoImplicit false

namespace Fluidic.Consensus

open Library Crypto Fluidic.Field
open Std (ExtTreeMap LawfulEqCmp TransCmp OrientedCmp)

/-! ### Deltas -/

/-- The hashed bytes determine the tick, and the deltas up to their order. Assumes: the ticks and
the deltas are within the ranges of their machine integers, and the bytes are the same. -/
theorem tick_and_perm_of_rootBytes {tick tick' : ℕ}
    {deltas deltas' : List (Coordinate × ℤ × PoolId)} (htick : tick < 2 ^ 64)
    (htick' : tick' < 2 ^ 64) (hrange : ∀ delta ∈ deltas, InRange delta)
    (hrange' : ∀ delta ∈ deltas', InRange delta)
    (hbytes : rootBytes tick deltas = rootBytes tick' deltas') :
    tick = tick' ∧ deltas.Perm deltas' := by
  have hhead := hbytes
  unfold rootBytes at hhead
  simp only [List.append_assoc] at hhead
  obtain ⟨hhead, -⟩ := List.append_inj (List.append_cancel_left hhead)
    ((length_leBytes _ _).trans (length_leBytes _ _).symm)
  have hticks := u64_eq_of_leBytes htick htick' hhead
  rw [hticks] at hbytes
  exact ⟨hticks, perm_of_rootBytes hrange hrange' hbytes⟩

/-! ### Balances -/

/-- The bytes of one balance in the root. -/
def balanceBytes (entry : AccountId × ℕ) : List UInt8 :=
  entry.1.bytes.toBytes ++ leBytes 16 entry.2

/-- Whether one balance is hashed before another: by account. -/
def balanceLe (first second : AccountId × ℕ) : Bool := (compare first.1 second.1).isLE

/-- The bytes that the balances root hashes, when the table is visited in an order. -/
def balancesBytes (order : IterationOrder (AccountId × ℕ)) (balances : ExtTreeMap AccountId ℕ) :
    List UInt8 :=
  asciiBytes "fluidic:balances-root:v1" ++
    ((order.visit balances.toList).insertionSort fun first second ↦
      balanceLe first second).flatMap balanceBytes

/-- The balances are within the range of a `u128`. -/
def BalancesFit (balances : ExtTreeMap AccountId ℕ) : Prop :=
  ∀ (account : AccountId) (units : ℕ), balances[account]? = some units → units < 2 ^ 128

instance : Std.Total fun first second : AccountId × ℕ ↦ balanceLe first second = true where
  total first second := by
    unfold balanceLe
    rw [@OrientedCmp.eq_swap _ compare _ second.1 first.1]
    cases compare first.1 second.1 <;> decide

instance : IsTrans (AccountId × ℕ) fun first second ↦ balanceLe first second = true where
  trans _ _ _ hfirst hsecond := TransCmp.isLE_trans hfirst hsecond

/-- The sorted balances are the balances in the order of their accounts. -/
theorem insertionSort_visit (order : IterationOrder (AccountId × ℕ))
    (balances : ExtTreeMap AccountId ℕ) :
    ((order.visit balances.toList).insertionSort fun first second ↦ balanceLe first second) =
      balances.toList := by
  have hsorted : balances.toList.Pairwise fun first second ↦ balanceLe first second = true :=
    balances.ordered_keys_toList.imp fun hless ↦ by
      unfold balanceLe
      rw [hless]
      rfl
  refine List.Perm.eq_of_pairwise (fun first second hfirst hsecond hle hge ↦ ?_)
    (List.pairwise_insertionSort _ _) hsorted
    ((List.perm_insertionSort _ _).trans (order.visit_perm _))
  rw [List.mem_insertionSort, order.mem_visit] at hfirst
  rw [ExtTreeMap.mem_toList_iff_getElem?_eq_some] at hfirst hsecond
  have hkey : first.1 = second.1 :=
    LawfulEqCmp.compare_eq_iff_eq.mp (OrientedCmp.isLE_antisymm hle hge)
  rw [hkey, hsecond, Option.some.injEq] at hfirst
  exact Prod.ext hkey hfirst.symm

/-- The balances root hashes the same bytes whatever the order in which the table is visited. -/
theorem balancesRoot_eq (prim : Primitives) (order : IterationOrder (AccountId × ℕ))
    (balances : ExtTreeMap AccountId ℕ) :
    balancesRoot prim balances = prim.blake3 (balancesBytes order balances) := by
  unfold balancesBytes
  rw [insertionSort_visit]
  rfl

theorem length_balanceBytes (entry : AccountId × ℕ) : (balanceBytes entry).length = 48 := by
  unfold balanceBytes
  rw [List.length_append, Bytes32.length_toBytes, length_leBytes]

/-- A balance that fits is determined by its bytes. Assumes: both balances fit 128 bits, and their
bytes are the same. -/
theorem balanceBytes_inj {first second : AccountId × ℕ} (hfirst : first.2 < 2 ^ 128)
    (hsecond : second.2 < 2 ^ 128) (hbytes : balanceBytes first = balanceBytes second) :
    first = second := by
  obtain ⟨⟨account⟩, units⟩ := first
  obtain ⟨⟨account'⟩, units'⟩ := second
  obtain ⟨haccounts, hunits⟩ := List.append_inj' hbytes (by simp)
  have haccount := congrArg AccountId.mk (Bytes32.toBytes_inj haccounts)
  have hunit := u128_eq_of_leBytes hfirst hsecond hunits
  exact Prod.ext haccount hunit

/-- The hashed bytes determine the balances. Assumes: the balances fit, and the bytes are the same.
-/
theorem eq_of_balancesBytes {order order' : IterationOrder (AccountId × ℕ)}
    {balances balances' : ExtTreeMap AccountId ℕ} (hfit : BalancesFit balances)
    (hfit' : BalancesFit balances')
    (hbytes : balancesBytes order balances = balancesBytes order' balances') :
    balances = balances' := by
  unfold balancesBytes at hbytes
  rw [insertionSort_visit, insertionSort_visit] at hbytes
  have hentries := List.append_cancel_left hbytes
  refine ExtTreeMap.toList_inj.mp (flatMap_inj (by decide) length_balanceBytes ?_ hentries)
  intro first hfirst second hsecond
  exact balanceBytes_inj (hfit _ _ (ExtTreeMap.mem_toList_iff_getElem?_eq_some.mp hfirst))
    (hfit' _ _ (ExtTreeMap.mem_toList_iff_getElem?_eq_some.mp hsecond))

/-! ### Both roots -/

/-- The commutative roots of two ticks and batches are the same when the ticks are and the batches
are reorderings of each other, and otherwise only when BLAKE3 collides on the two hashed byte
strings. The balances roots of two maps are the same when the maps are, whatever the orders in which
the tables are visited, and otherwise only when BLAKE3 collides on the two hashed byte strings. -/
theorem result_roots_bind (prim : Primitives) :
    (∀ (tick tick' : ℕ) (deltas deltas' : List (Coordinate × ℤ × PoolId)), tick < 2 ^ 64 →
      tick' < 2 ^ 64 → (∀ delta ∈ deltas, InRange delta) → (∀ delta ∈ deltas', InRange delta) →
        (tick = tick' → deltas'.Perm deltas →
          commutativeRoot prim tick deltas = commutativeRoot prim tick' deltas') ∧
        (¬(tick = tick' ∧ deltas'.Perm deltas) →
          commutativeRoot prim tick deltas = commutativeRoot prim tick' deltas' →
            rootBytes tick deltas ≠ rootBytes tick' deltas' ∧
              prim.blake3 (rootBytes tick deltas) = prim.blake3 (rootBytes tick' deltas'))) ∧
    ∀ (order order' : IterationOrder (AccountId × ℕ)) (balances balances' : ExtTreeMap AccountId ℕ),
      BalancesFit balances → BalancesFit balances' →
        balancesRoot prim balances = prim.blake3 (balancesBytes order balances) ∧
        (balances = balances' → balancesBytes order balances = balancesBytes order' balances' ∧
          balancesRoot prim balances = balancesRoot prim balances') ∧
        (balances ≠ balances' → balancesRoot prim balances = balancesRoot prim balances' →
          balancesBytes order balances ≠ balancesBytes order' balances' ∧
            prim.blake3 (balancesBytes order balances) =
              prim.blake3 (balancesBytes order' balances')) := by
  constructor
  · intro tick tick' deltas deltas' htick htick' hrange hrange'
    refine ⟨fun hsame hperm ↦ ?_, fun hdiffer hroot ↦ ⟨fun hbytes ↦ ?_, hroot⟩⟩
    · rw [hsame, commutativeRoot_eq, commutativeRoot_eq, rootBytes_perm hrange hperm.symm]
    · obtain ⟨hsame, hperm⟩ := tick_and_perm_of_rootBytes htick htick' hrange hrange' hbytes
      exact hdiffer ⟨hsame, hperm.symm⟩
  · intro order order' balances balances' hfit hfit'
    refine ⟨balancesRoot_eq prim order balances, fun hsame ↦ ?_, fun hdiffer hroot ↦ ⟨?_, ?_⟩⟩
    · subst hsame
      unfold balancesBytes
      rw [insertionSort_visit, insertionSort_visit]
      exact ⟨rfl, rfl⟩
    · exact fun hbytes ↦ hdiffer (eq_of_balancesBytes hfit hfit' hbytes)
    · rw [← balancesRoot_eq, ← balancesRoot_eq, hroot]

/-- A delta of an amount at a coordinate. -/
def deltaOf (amount : ℤ) : Coordinate × ℤ × PoolId :=
  (⟨Vector.replicate coordDim 7⟩, amount, 2)

/-- The balances of one account. -/
def balanceOf (units : ℕ) : ExtTreeMap AccountId ℕ := (∅ : ExtTreeMap AccountId ℕ).insert ⟨1⟩ units

/-- A batch and the reversed one have the same root, and the next tick has another one. Two balances
of an account have different roots. -/
theorem result_roots_bind_nextTick :
    commutativeRoot .sample 1 [deltaOf 1, deltaOf (-1)] =
        commutativeRoot .sample 1 [deltaOf (-1), deltaOf 1] ∧
      commutativeRoot .sample 1 [deltaOf 1] ≠ commutativeRoot .sample 2 [deltaOf 1] ∧
      balancesRoot .sample (balanceOf 5) ≠ balancesRoot .sample (balanceOf 6) := by
  obtain ⟨hdeltas, hbalances⟩ := result_roots_bind .sample
  have hfit (units : ℕ) (hrange : units < 2 ^ 128) : BalancesFit (balanceOf units) := by
    intro account held hheld
    unfold balanceOf at hheld
    rw [ExtTreeMap.getElem?_insert] at hheld
    split_ifs at hheld
    · exact Option.some.inj hheld ▸ hrange
    · cases ExtTreeMap.getElem?_empty.symm.trans hheld
  refine ⟨?_, fun hroot ↦ ?_, fun hroot ↦ ?_⟩
  · exact (hdeltas 1 1 [deltaOf 1, deltaOf (-1)] [deltaOf (-1), deltaOf 1] (by decide) (by decide)
      (by decide) (by decide)).1 rfl (.swap _ _ _)
  · have hcollide := ((hdeltas 1 2 [deltaOf 1] [deltaOf 1] (by decide) (by decide) (by decide)
      (by decide)).2 (fun hsame ↦ absurd hsame.1 (by decide)) hroot).2
    exact absurd hcollide (by decide +kernel)
  · have hdiffer : balanceOf 5 ≠ balanceOf 6 := by
      intro hsame
      have hheld : (balanceOf 5)[(⟨1⟩ : AccountId)]? = (balanceOf 6)[(⟨1⟩ : AccountId)]? := by
        rw [hsame]
      unfold balanceOf at hheld
      simp at hheld
    have hcollide := ((hbalances .forward .forward _ _ (hfit 5 (by decide))
      (hfit 6 (by decide))).2.2 hdiffer hroot).2
    exact absurd hcollide (by decide +kernel)

end Fluidic.Consensus
