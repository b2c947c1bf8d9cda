import Fluidic.Operator.Rewards
import Fluidic.State.MerkleBinding

/-!
# What the stake and reward roots bind

The roots of `src/operator/stake.rs` and `src/operator/rewards.rs` are Merkle roots of the entries
of their tables. Two stake tables have the same root when they have the same operators with the same
stake and the same flag, and otherwise only when BLAKE3 collides on two of the strings that are
hashed for them; the same holds of reward pools and their two maps (`roots_bind`). The tables may
have any sizes. The marker in front of the keys of pools makes their leaves longer than those of
accounts.
-/

set_option autoImplicit false
set_option relaxedAutoImplicit false

namespace Fluidic.Operator

open Library Crypto State
open Std (ExtTreeMap TransOrd LawfulEqOrd)

/-! ### Tables as key/value pairs -/

section Encoded

variable {κ α : Type} [Ord κ] [TransOrd κ] [LawfulEqOrd κ] {key : κ → List UInt8}
  {value : α → List UInt8} {fits : α → Prop}

/-- The entries of a table as pairs of byte strings. -/
def encoded (key : κ → List UInt8) (value : α → List UInt8) (table : ExtTreeMap κ α) :
    List (List UInt8 × List UInt8) :=
  table.toList.map fun entry ↦ (key entry.1, value entry.2)

/-- A table has the pair of an entry when it has the entry. Assumes: keys are determined by their
bytes, and values that fit are, as those of the table and of the entry do. -/
theorem mem_encoded (hkey : ∀ first second, key first = key second → first = second)
    (hvalue : ∀ first second, fits first → fits second → value first = value second →
      first = second)
    {table : ExtTreeMap κ α}
    (htable : ∀ (place : κ) (entry : α), table[place]? = some entry → fits entry)
    (place : κ) {entry : α} (hentry : fits entry) :
    (key place, value entry) ∈ encoded key value table ↔ table[place]? = some entry := by
  unfold encoded
  rw [List.mem_map]
  constructor
  · rintro ⟨⟨other, stored⟩, hstored, hitem⟩
    rw [ExtTreeMap.mem_toList_iff_getElem?_eq_some] at hstored
    obtain ⟨hkeys, hvalues⟩ := Prod.mk.inj hitem
    obtain rfl := hkey _ _ hkeys
    rw [hstored, hvalue _ _ (htable _ _ hstored) hentry hvalues]
  · intro hstored
    exact ⟨(place, entry), ExtTreeMap.mem_toList_iff_getElem?_eq_some.mpr hstored, rfl⟩

/-- Tables with the same pairs are the same. Assumes: keys are determined by their bytes, and values
that fit are, as those of the tables do. -/
theorem eq_of_encoded (hkey : ∀ first second, key first = key second → first = second)
    (hvalue : ∀ first second, fits first → fits second → value first = value second →
      first = second)
    {first second : ExtTreeMap κ α}
    (hfirst : ∀ (place : κ) (entry : α), first[place]? = some entry → fits entry)
    (hsecond : ∀ (place : κ) (entry : α), second[place]? = some entry → fits entry)
    (hmem : ∀ item, item ∈ encoded key value first ↔ item ∈ encoded key value second) :
    first = second := by
  refine ExtTreeMap.ext_getElem? fun place ↦ Option.ext fun entry ↦ ?_
  constructor
  · intro hstored
    have hfits := hfirst place entry hstored
    rw [← mem_encoded hkey hvalue hsecond place hfits, ← hmem,
      mem_encoded hkey hvalue hfirst place hfits]
    exact hstored
  · intro hstored
    have hfits := hsecond place entry hstored
    rw [← mem_encoded hkey hvalue hfirst place hfits, hmem,
      mem_encoded hkey hvalue hsecond place hfits]
    exact hstored

/-- The pairs of a table do not repeat. Assumes: keys are determined by their bytes. -/
theorem nodup_encoded (hkey : ∀ first second, key first = key second → first = second)
    (table : ExtTreeMap κ α) : (encoded key value table).Nodup := by
  unfold encoded
  refine List.Nodup.map_on (fun first hfirst second hsecond hsame ↦ ?_) (nodup_toList table)
  obtain ⟨hkeys, -⟩ := Prod.mk.inj hsame
  rw [ExtTreeMap.mem_toList_iff_getElem?_eq_some] at hfirst hsecond
  rw [hkey _ _ hkeys, hsecond, Option.some.injEq] at hfirst
  exact Prod.ext (hkey _ _ hkeys) hfirst.symm

end Encoded

/-- The bytes of an account. -/
def accountKey (account : AccountId) : List UInt8 := account.bytes.toBytes

theorem accountKey_inj (first second : AccountId) (hkeys : accountKey first = accountKey second) :
    first = second := by
  obtain ⟨bytes⟩ := first
  exact congrArg AccountId.mk (Bytes32.toBytes_inj hkeys)

/-- The bytes of an amount. -/
def amountValue (amount : ℕ) : List UInt8 := beBytes 16 amount

theorem amountValue_inj (first second : ℕ) (hfirst : first < 2 ^ 128) (hsecond : second < 2 ^ 128)
    (hvalues : amountValue first = amountValue second) : first = second :=
  beBytes_inj (lt_of_lt_of_eq hfirst (by norm_num)) (lt_of_lt_of_eq hsecond (by norm_num)) hvalues

/-! ### Stake tables -/

namespace StakeTable

/-- What the root commits to: the stake of each operator and whether it was slashed. -/
def committed (table : StakeTable) : ExtTreeMap AccountId (ℕ × Bool) :=
  table.operators.map fun _ entry ↦ (entry.stake, entry.slashNonce.isSome)

/-- The bytes of a stake and a flag. -/
def stakeValue (entry : ℕ × Bool) : List UInt8 := beBytes 16 entry.1 ++ [if entry.2 then 1 else 0]

/-- The key/value pairs of a stake table. -/
def items (table : StakeTable) : List (List UInt8 × List UInt8) :=
  encoded accountKey stakeValue table.committed

/-- The stakes of a table are within the range of a `u128`. -/
def Fits (table : StakeTable) : Prop :=
  ∀ (operator : AccountId) (entry : ℕ × Bool), table.committed[operator]? = some entry →
    entry.1 < 2 ^ 128

theorem root_eq (prim : Primitives) (table : StakeTable) :
    table.root prim = merkleRoot prim table.items := by
  unfold items encoded committed
  rw [ExtTreeMap.toList_map, List.map_map]
  rfl

theorem stakeValue_inj (first second : ℕ × Bool) (hfirst : first.1 < 2 ^ 128)
    (hsecond : second.1 < 2 ^ 128) (hvalues : stakeValue first = stakeValue second) :
    first = second := by
  obtain ⟨stake, slashed⟩ := first
  obtain ⟨stake', slashed'⟩ := second
  obtain ⟨hstakes, hflags⟩ := List.append_inj' hvalues rfl
  have hstake := amountValue_inj stake stake' hfirst hsecond hstakes
  have hflag : (if slashed then (1 : UInt8) else 0) = if slashed' then 1 else 0 :=
    (List.cons.inj hflags).1
  have hsame : slashed = slashed' := by
    cases slashed <;> cases slashed' <;> first | rfl | exact absurd hflag (by decide)
  rw [hstake, hsame]

/-- A stake table is determined by its root, as far as the root commits to it, or BLAKE3 collides.
Assumes: the stakes fit, and the roots are the same. -/
theorem committed_or_collide (prim : Primitives) {first second : StakeTable} (hfirst : first.Fits)
    (hsecond : second.Fits) (hroot : first.root prim = second.root prim) :
    first.committed = second.committed ∨
      Collide prim.blake3 (merkleBytes prim first.items) (merkleBytes prim second.items) := by
  rw [root_eq, root_eq] at hroot
  have hlength : ∀ item ∈ first.items ++ second.items, item.1.length = 32 := by
    intro item hitem
    rcases List.mem_append.mp hitem with hitem | hitem
    · obtain ⟨entry, -, rfl⟩ := List.mem_map.mp hitem
      exact Bytes32.length_toBytes _
    · obtain ⟨entry, -, rfl⟩ := List.mem_map.mp hitem
      exact Bytes32.length_toBytes _
  have hinj : ∀ item ∈ first.items ++ second.items, ∀ other ∈ first.items ++ second.items,
      item.1 ++ item.2 = other.1 ++ other.2 → item = other := by
    intro item hitem other hother hbytes
    obtain ⟨hkeys, hvalues⟩ := List.append_inj hbytes
      ((hlength item hitem).trans (hlength other hother).symm)
    exact Prod.ext hkeys hvalues
  rcases perm_or_collide_of_merkleRoot prim (nodup_encoded accountKey_inj _)
    (nodup_encoded accountKey_inj _) hinj hroot with hperm | hcollide
  · left
    apply eq_of_encoded accountKey_inj stakeValue_inj hfirst hsecond
    exact fun item ↦ hperm.mem_iff
  · exact .inr hcollide

end StakeTable

/-! ### Reward pools -/

namespace RewardPool

/-- The bytes of a pool, behind a marker. -/
def poolKey (pool : PoolId) : List UInt8 := asciiBytes "lp:" ++ pool.toBytes

theorem poolKey_inj (first second : PoolId) (hkeys : poolKey first = poolKey second) :
    first = second :=
  Bytes32.toBytes_inj (List.append_cancel_left hkeys)

/-- The key/value pairs of a reward pool. -/
def items (pool : RewardPool) : List (List UInt8 × List UInt8) :=
  encoded accountKey amountValue pool.rewards ++ encoded poolKey amountValue pool.lpRewards

/-- The rewards of a pool are within the range of a `u128`. -/
structure Fits (pool : RewardPool) : Prop where
  rewards : ∀ (operator : AccountId) (amount : ℕ), pool.rewards[operator]? = some amount →
    amount < 2 ^ 128
  lpRewards : ∀ (key : PoolId) (amount : ℕ), pool.lpRewards[key]? = some amount → amount < 2 ^ 128

theorem root_eq (prim : Primitives) (pool : RewardPool) :
    pool.root prim = merkleRoot prim pool.items := rfl

/-- The pairs of operators are those whose keys have 32 bytes. -/
theorem mem_rewards_iff (pool : RewardPool) (item : List UInt8 × List UInt8) :
    item ∈ encoded accountKey amountValue pool.rewards ↔
      item ∈ pool.items ∧ item.1.length = 32 := by
  constructor
  · intro hmem
    refine ⟨List.mem_append_left _ hmem, ?_⟩
    obtain ⟨entry, -, rfl⟩ := List.mem_map.mp hmem
    exact Bytes32.length_toBytes _
  · rintro ⟨hmem, hlength⟩
    rcases List.mem_append.mp hmem with hreward | hlp
    · exact hreward
    · obtain ⟨entry, -, rfl⟩ := List.mem_map.mp hlp
      have hmarked : (asciiBytes "lp:" ++ entry.1.toBytes).length = 32 := hlength
      rw [List.length_append, Bytes32.length_toBytes] at hmarked
      exact absurd hmarked (by decide)

/-- The pairs of pools are those whose keys have 35 bytes. -/
theorem mem_lpRewards_iff (pool : RewardPool) (item : List UInt8 × List UInt8) :
    item ∈ encoded poolKey amountValue pool.lpRewards ↔
      item ∈ pool.items ∧ item.1.length = 35 := by
  constructor
  · intro hmem
    refine ⟨List.mem_append_right _ hmem, ?_⟩
    obtain ⟨entry, -, rfl⟩ := List.mem_map.mp hmem
    show (asciiBytes "lp:" ++ entry.1.toBytes).length = 35
    rw [List.length_append, Bytes32.length_toBytes]
    rfl
  · rintro ⟨hmem, hlength⟩
    rcases List.mem_append.mp hmem with hreward | hlp
    · rw [((mem_rewards_iff pool item).mp hreward).2] at hlength
      exact absurd hlength (by decide)
    · exact hlp

theorem length_value {pool : RewardPool} {item : List UInt8 × List UInt8}
    (hitem : item ∈ pool.items) : item.2.length = 16 := by
  rcases List.mem_append.mp hitem with hmem | hmem
  · obtain ⟨entry, -, rfl⟩ := List.mem_map.mp hmem
    exact length_beBytes 16 _
  · obtain ⟨entry, -, rfl⟩ := List.mem_map.mp hmem
    exact length_beBytes 16 _

/-- A reward pool is determined by its root, or BLAKE3 collides. Assumes: the rewards fit, and the
roots are the same. -/
theorem eq_or_collide (prim : Primitives) {first second : RewardPool} (hfirst : first.Fits)
    (hsecond : second.Fits) (hroot : first.root prim = second.root prim) :
    first = second ∨
      Collide prim.blake3 (merkleBytes prim first.items) (merkleBytes prim second.items) := by
  rw [root_eq, root_eq] at hroot
  have hnodup : ∀ pool : RewardPool, pool.items.Nodup := by
    intro pool
    refine List.Nodup.append (nodup_encoded accountKey_inj _) (nodup_encoded poolKey_inj _) ?_
    intro item hreward hlp
    have hlength := ((pool.mem_rewards_iff item).mp hreward).2
    rw [((pool.mem_lpRewards_iff item).mp hlp).2] at hlength
    exact absurd hlength (by decide)
  have hvalue : ∀ item ∈ first.items ++ second.items, item.2.length = 16 := by
    intro item hitem
    rcases List.mem_append.mp hitem with hmem | hmem
    · exact length_value hmem
    · exact length_value hmem
  have hinj : ∀ item ∈ first.items ++ second.items, ∀ other ∈ first.items ++ second.items,
      item.1 ++ item.2 = other.1 ++ other.2 → item = other := by
    intro item hitem other hother hbytes
    obtain ⟨hkeys, hvalues⟩ := List.append_inj' hbytes
      ((hvalue item hitem).trans (hvalue other hother).symm)
    exact Prod.ext hkeys hvalues
  rcases perm_or_collide_of_merkleRoot prim (hnodup first) (hnodup second) hinj hroot with
    hperm | hcollide
  · left
    have hrewards : first.rewards = second.rewards := by
      apply eq_of_encoded accountKey_inj amountValue_inj hfirst.rewards hsecond.rewards
      intro item
      rw [mem_rewards_iff, mem_rewards_iff, hperm.mem_iff]
    have hlpRewards : first.lpRewards = second.lpRewards := by
      apply eq_of_encoded poolKey_inj amountValue_inj hfirst.lpRewards hsecond.lpRewards
      intro item
      rw [mem_lpRewards_iff, mem_lpRewards_iff, hperm.mem_iff]
    obtain ⟨rewards, lpRewards⟩ := first
    dsimp only at hrewards hlpRewards
    rw [hrewards, hlpRewards]
  · exact .inr hcollide

end RewardPool

/-- Two stake tables have the same root when they have the same operators with the same stakes and
flags, and otherwise only when BLAKE3 collides on two strings that are hashed for the one and for
the other. The same holds of two reward pools and their two maps. -/
theorem roots_bind (prim : Primitives) :
    (∀ first second : StakeTable, first.Fits → second.Fits →
      ((∀ operator : AccountId, first.committed[operator]? = second.committed[operator]?) →
        first.root prim = second.root prim) ∧
      ((¬∀ operator : AccountId, first.committed[operator]? = second.committed[operator]?) →
        first.root prim = second.root prim →
          Collide prim.blake3 (merkleBytes prim first.items) (merkleBytes prim second.items))) ∧
    ∀ first second : RewardPool, first.Fits → second.Fits →
      ((∀ operator : AccountId, first.rewards[operator]? = second.rewards[operator]?) →
        (∀ pool : PoolId, first.lpRewards[pool]? = second.lpRewards[pool]?) →
          first.root prim = second.root prim) ∧
      (¬((∀ operator : AccountId, first.rewards[operator]? = second.rewards[operator]?) ∧
          ∀ pool : PoolId, first.lpRewards[pool]? = second.lpRewards[pool]?) →
        first.root prim = second.root prim →
          Collide prim.blake3 (merkleBytes prim first.items) (merkleBytes prim second.items)) := by
  constructor
  · refine fun first second hfirst hsecond ↦ ⟨fun hsame ↦ ?_, fun hdiffer hroot ↦ ?_⟩
    · rw [StakeTable.root_eq, StakeTable.root_eq, StakeTable.items, ExtTreeMap.ext_getElem? hsame]
      rfl
    · refine (StakeTable.committed_or_collide prim hfirst hsecond hroot).resolve_left fun hsame ↦ ?_
      exact hdiffer fun operator ↦ by rw [hsame]
  · refine fun first second hfirst hsecond ↦ ⟨fun hrewards hlpRewards ↦ ?_,
      fun hdiffer hroot ↦ ?_⟩
    · rw [RewardPool.root_eq, RewardPool.root_eq, RewardPool.items, RewardPool.items,
        ExtTreeMap.ext_getElem? hrewards, ExtTreeMap.ext_getElem? hlpRewards]
    · refine (RewardPool.eq_or_collide prim hfirst hsecond hroot).resolve_left fun hsame ↦ ?_
      rw [hsame] at hdiffer
      exact hdiffer ⟨fun _ ↦ rfl, fun _ ↦ rfl⟩

/-- The table of one operator. -/
def tableOf (entry : OperatorEntry) : StakeTable :=
  { StakeTable.new .default with
    operators := (∅ : ExtTreeMap AccountId OperatorEntry).insert ⟨1⟩ entry }

/-- The rewards of one operator. -/
def poolOf (amount : ℕ) : RewardPool :=
  { RewardPool.new with rewards := (∅ : ExtTreeMap AccountId ℕ).insert ⟨1⟩ amount }

theorem fits_tableOf {entry : OperatorEntry} (hrange : entry.stake < 2 ^ 128) :
    (tableOf entry).Fits := by
  intro operator held hheld
  unfold StakeTable.committed tableOf at hheld
  rw [ExtTreeMap.getElem?_map, ExtTreeMap.getElem?_insert] at hheld
  split_ifs at hheld
  · obtain rfl := Option.some.inj hheld
    exact hrange
  · cases hheld

/-- An operator slashed once has the same root as one slashed later, and another one than an
operator that was not. Two rewards of an operator have different roots. -/
theorem roots_bind_operators :
    (tableOf ⟨5, some 1⟩).root .sample = (tableOf ⟨5, some 2⟩).root .sample ∧
      (tableOf ⟨5, some 1⟩).root .sample ≠ (tableOf ⟨5, none⟩).root .sample ∧
      (poolOf 5).root .sample ≠ (poolOf 6).root .sample := by
  obtain ⟨htables, hpools⟩ := roots_bind .sample
  refine ⟨?_, fun hroot ↦ ?_, fun hroot ↦ ?_⟩
  · refine (htables _ _ (fits_tableOf (by decide)) (fits_tableOf (by decide))).1 fun operator ↦ ?_
    unfold StakeTable.committed tableOf
    simp only [ExtTreeMap.getElem?_map, ExtTreeMap.getElem?_insert]
    split_ifs <;> rfl
  · have hdiffer : ¬∀ operator : AccountId, (tableOf ⟨5, some 1⟩).committed[operator]? =
        (tableOf ⟨5, none⟩).committed[operator]? :=
      fun hsame ↦ absurd (hsame ⟨1⟩) (by decide +kernel)
    have hcollide := (htables _ _ (fits_tableOf (by decide)) (fits_tableOf (by decide))).2 hdiffer
      hroot
    exact absurd hcollide (by unfold Collide; decide +kernel)
  · have hfits (amount : ℕ) (hrange : amount < 2 ^ 128) : (poolOf amount).Fits := by
      refine ⟨fun operator held hheld ↦ ?_, fun pool held hheld ↦ ?_⟩
      · unfold poolOf at hheld
        rw [ExtTreeMap.getElem?_insert] at hheld
        split_ifs at hheld
        · exact Option.some.inj hheld ▸ hrange
        · cases ExtTreeMap.getElem?_empty.symm.trans hheld
      · cases ExtTreeMap.getElem?_empty.symm.trans hheld
    have hdiffer : ¬((∀ operator : AccountId, (poolOf 5).rewards[operator]? =
        (poolOf 6).rewards[operator]?) ∧
        ∀ pool : PoolId, (poolOf 5).lpRewards[pool]? = (poolOf 6).lpRewards[pool]?) :=
      fun hsame ↦ absurd (hsame.1 ⟨1⟩) (by decide +kernel)
    have hcollide := (hpools _ _ (hfits 5 (by decide)) (hfits 6 (by decide))).2 hdiffer hroot
    exact absurd hcollide (by unfold Collide; decide +kernel)

end Fluidic.Operator
