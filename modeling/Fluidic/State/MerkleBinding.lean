import Fluidic.Library.HashTree
import Fluidic.State.Merkle

/-!
# What a Merkle root binds

A Merkle root of key/value pairs determines the pairs, up to their order, unless BLAKE3 collides on
two of the strings that are hashed for the two roots (`perm_or_collide_of_merkleRoot`). The three
kinds of hashed strings start with texts of the same or of different lengths that tell them apart,
and pairs without repetitions cannot be confused with the copies that fill up the leaves.
-/

set_option autoImplicit false
set_option relaxedAutoImplicit false

namespace Fluidic.State

open Library Crypto

/-! ### What is hashed -/

/-- The bytes of a leaf. -/
def leafBytes (item : List UInt8 × List UInt8) : List UInt8 :=
  asciiBytes "fluidic:leaf:v1" ++ item.1 ++ item.2

/-- The bytes of an inner node. -/
def nodeBytes (left right : Bytes32) : List UInt8 :=
  asciiBytes "fluidic:node:v1" ++ left.toBytes ++ right.toBytes

/-- Key/value pairs in the order of their keys. -/
def sortedItems (items : List (List UInt8 × List UInt8)) : List (List UInt8 × List UInt8) :=
  items.insertionSort fun first second ↦ (compare first.1 second.1).isLE

/-- The bytes of the leaves, filled up to a power of two with those of the last one. -/
def paddedLeaves (items : List (List UInt8 × List UInt8)) : List (List UInt8) :=
  padded ((sortedItems items).map leafBytes)
    (2 ^ Nat.clog 2 items.length - items.length) (asciiBytes "fluidic:empty:root")

/-- The byte strings that a Merkle root hashes. -/
def merkleBytes (prim : Primitives) (items : List (List UInt8 × List UInt8)) : List (List UInt8) :=
  if items = [] then [asciiBytes "fluidic:empty:root"]
  else paddedLeaves items ++
    hashedUp prim.blake3 nodeBytes items.length ((paddedLeaves items).map prim.blake3)

variable (prim : Primitives)

theorem perm_sortedItems (items : List (List UInt8 × List UInt8)) :
    (sortedItems items).Perm items := List.perm_insertionSort _ items

theorem nextLevel_eq (level : List Bytes32) :
    nextLevel prim level = (pairUp nodeBytes level).map prim.blake3 := by
  induction level using nextLevel.induct with
  | case1 left right rest ih => exact congrArg (List.cons _) ih
  | case2 level hshort =>
    rw [nextLevel, pairUp]
    · rfl
    · exact hshort
    · exact hshort

theorem foldLevels_eq (levels : ℕ) (level : List Bytes32) :
    foldLevels prim levels level = hashUp prim.blake3 nodeBytes levels level := by
  induction levels generalizing level with
  | zero => rfl
  | succ levels ih =>
    unfold foldLevels hashUp
    rw [ih, nextLevel_eq]

theorem length_paddedLeaves {items : List (List UInt8 × List UInt8)} :
    (paddedLeaves items).length = 2 ^ Nat.clog 2 items.length := by
  have hle := Nat.le_pow_clog (show 1 < 2 by decide) items.length
  unfold paddedLeaves padded
  rw [List.length_append, List.length_map, (perm_sortedItems items).length_eq,
    List.length_replicate, Nat.add_sub_cancel' hle]

theorem clog_le (count : ℕ) : Nat.clog 2 count ≤ count :=
  Nat.clog_le_of_le_pow (Nat.lt_two_pow_self).le

/-- A root is what is left when the padded leaves are folded. Assumes: there are leaves. -/
theorem merkleRoot_eq {items : List (List UInt8 × List UInt8)} (hitems : items ≠ []) :
    [merkleRoot prim items] = hashUp prim.blake3 nodeBytes items.length
      ((paddedLeaves items).map prim.blake3) := by
  set leaves := (sortedItems items).map (merkleLeaf prim) with hleaves
  have hlength : leaves.length = items.length := by
    rw [hleaves, List.length_map, (perm_sortedItems items).length_eq]
  have hpadded : padLeaves prim leaves = (paddedLeaves items).map prim.blake3 := by
    have hmap : leaves = ((sortedItems items).map leafBytes).map prim.blake3 :=
      List.map_map.symm
    unfold padLeaves paddedLeaves padded
    rw [hlength, List.map_append, List.map_replicate, ← hmap]
    congr 2
    rw [hmap, List.getLastD_eq_getLast?, List.getLastD_eq_getLast?, List.getLast?_map]
    cases ((sortedItems items).map leafBytes).getLast? with
    | none => rfl
    | some last => rfl
  have hsome : leaves.isEmpty = false := by
    rw [List.isEmpty_eq_false_iff, ← List.length_pos_iff, hlength, List.length_pos_iff]
    exact hitems
  have hroot : merkleRoot prim items =
      (hashUp prim.blake3 nodeBytes items.length
        ((paddedLeaves items).map prim.blake3)).headD (emptyRoot prim) := by
    have hwhole : merkleRoot prim items = if leaves.isEmpty then emptyRoot prim
      else (foldLevels prim leaves.length (padLeaves prim leaves)).headD (emptyRoot prim) := rfl
    rw [hwhole, hsome, foldLevels_eq, hlength, hpadded]
    rfl
  have hone : (hashUp prim.blake3 nodeBytes items.length
      ((paddedLeaves items).map prim.blake3)).length = 1 := by
    apply length_hashUp (clog_le items.length)
    rw [List.length_map, length_paddedLeaves]
  obtain ⟨digest, hdigest⟩ := List.length_eq_one_iff.mp hone
  rw [hroot, hdigest]
  rfl

/-! ### Kinds of hashed strings -/

theorem nodeBytes_inj {left right left' right' : Bytes32}
    (hbytes : nodeBytes left right = nodeBytes left' right') : left = left' ∧ right = right' := by
  unfold nodeBytes at hbytes
  obtain ⟨hbytes, hright⟩ := List.append_inj' hbytes (by simp)
  obtain ⟨-, hleft⟩ := List.append_inj' hbytes (by simp)
  exact ⟨Bytes32.toBytes_inj hleft, Bytes32.toBytes_inj hright⟩

/-- No leaf has the bytes of an inner node. -/
theorem leafBytes_ne_nodeBytes (item : List UInt8 × List UInt8) (left right : Bytes32) :
    leafBytes item ≠ nodeBytes left right := by
  intro hbytes
  unfold leafBytes nodeBytes at hbytes
  rw [List.append_assoc, List.append_assoc] at hbytes
  exact absurd (List.append_inj hbytes (by decide)).1 (by decide)

/-- Neither a leaf nor an inner node has the bytes of the empty root. -/
theorem emptyBytes_ne {entry : List UInt8}
    (hentry : (∃ item, entry = leafBytes item) ∨ ∃ left right, entry = nodeBytes left right) :
    asciiBytes "fluidic:empty:root" ≠ entry := by
  have hstart : asciiBytes "fluidic:empty:root" =
      asciiBytes "fluidic:empty:r" ++ asciiBytes "oot" := by decide
  intro hbytes
  rw [hstart] at hbytes
  rcases hentry with ⟨item, rfl⟩ | ⟨left, right, rfl⟩
  · unfold leafBytes at hbytes
    rw [List.append_assoc] at hbytes
    exact absurd (List.append_inj hbytes (by decide)).1 (by decide)
  · unfold nodeBytes at hbytes
    rw [List.append_assoc] at hbytes
    exact absurd (List.append_inj hbytes (by decide)).1 (by decide)

/-! ### Binding -/

theorem sortedLeaves_ne_nil {items : List (List UInt8 × List UInt8)} (hitems : items ≠ []) :
    (sortedItems items).map leafBytes ≠ [] := by
  intro hempty
  have hlength := (perm_sortedItems items).length_eq
  rw [List.map_eq_nil_iff.mp hempty] at hlength
  exact hitems (List.length_eq_zero_iff.mp hlength.symm)

/-- The padded leaves are leaves. Assumes: there are leaves. -/
theorem mem_paddedLeaves {items : List (List UInt8 × List UInt8)} (hitems : items ≠ [])
    {entry : List UInt8} (hentry : entry ∈ paddedLeaves items) :
    ∃ item ∈ items, entry = leafBytes item := by
  obtain ⟨item, hitem, rfl⟩ := List.mem_map.mp
    (mem_of_mem_padded (sortedLeaves_ne_nil hitems) hentry)
  exact ⟨item, (perm_sortedItems items).mem_iff.mp hitem, rfl⟩

theorem merkleBytes_of_ne_nil {items : List (List UInt8 × List UInt8)} (hitems : items ≠ []) :
    merkleBytes prim items = paddedLeaves items ++ hashedUp prim.blake3 nodeBytes items.length
      ((paddedLeaves items).map prim.blake3) := if_neg hitems

/-- The root of no pairs is that of some pairs only when BLAKE3 collides. Assumes: the roots are the
same. -/
theorem collide_of_emptyRoot {items : List (List UInt8 × List UInt8)} (hitems : items ≠ [])
    (hroot : emptyRoot prim = merkleRoot prim items) :
    Collide prim.blake3 (merkleBytes prim []) (merkleBytes prim items) := by
  obtain ⟨entry, hentry, hdigest, hkind⟩ := exists_hashed_of_root (clog_le items.length)
    length_paddedLeaves (merkleRoot_eq prim hitems)
  rw [merkleBytes_of_ne_nil prim hitems]
  refine ⟨asciiBytes "fluidic:empty:root", List.mem_cons_self, entry, hentry, ?_,
    hroot.trans hdigest.symm⟩
  apply emptyBytes_ne
  rcases hkind with hleaf | hnode
  · obtain ⟨item, -, hitem⟩ := mem_paddedLeaves hitems hleaf
    exact .inl ⟨item, hitem⟩
  · exact .inr hnode

/-- Pairs with the same root are the same in another order, or BLAKE3 collides. Assumes: the pairs
are told apart by the bytes of their leaves and do not repeat, and the roots are the same. -/
theorem perm_or_collide_of_merkleRoot {items items' : List (List UInt8 × List UInt8)}
    (hnodup : items.Nodup) (hnodup' : items'.Nodup)
    (hinj : ∀ first ∈ items ++ items', ∀ second ∈ items ++ items',
      first.1 ++ first.2 = second.1 ++ second.2 → first = second)
    (hroot : merkleRoot prim items = merkleRoot prim items') :
    items.Perm items' ∨ Collide prim.blake3 (merkleBytes prim items) (merkleBytes prim items') := by
  by_cases hitems : items = []
  · by_cases hitems' : items' = []
    · rw [hitems, hitems']
      exact .inl (List.Perm.refl _)
    · rw [hitems] at hroot ⊢
      exact .inr (collide_of_emptyRoot prim hitems' hroot)
  by_cases hitems' : items' = []
  · rw [hitems'] at hroot ⊢
    exact .inr (collide_of_emptyRoot prim hitems hroot.symm).symm
  have hleaf : ∀ {items : List (List UInt8 × List UInt8)}, items ≠ [] →
      ∀ entry ∈ paddedLeaves items, ∀ left right, entry ≠ nodeBytes left right := by
    intro items hitems entry hentry left right
    obtain ⟨item, -, rfl⟩ := mem_paddedLeaves hitems hentry
    exact leafBytes_ne_nodeBytes item left right
  have hfold : hashUp prim.blake3 nodeBytes items.length ((paddedLeaves items).map prim.blake3) =
      hashUp prim.blake3 nodeBytes items'.length ((paddedLeaves items').map prim.blake3) := by
    rw [← merkleRoot_eq prim hitems, ← merkleRoot_eq prim hitems', hroot]
  rw [merkleBytes_of_ne_nil prim hitems, merkleBytes_of_ne_nil prim hitems']
  rcases leaves_eq_or_collide (fun _ _ _ _ ↦ nodeBytes_inj) (clog_le items.length)
    (clog_le items'.length) length_paddedLeaves length_paddedLeaves (hleaf hitems) (hleaf hitems')
    hfold with hleaves | hcollide
  · left
    have hleafInj : ∀ first ∈ items ++ items', ∀ second ∈ items ++ items',
        leafBytes first = leafBytes second → first = second := by
      intro first hfirst second hsecond hbytes
      unfold leafBytes at hbytes
      rw [List.append_assoc, List.append_assoc] at hbytes
      exact hinj first hfirst second hsecond (List.append_inj hbytes rfl).2
    have hmemSorted : ∀ item ∈ sortedItems items, item ∈ items ++ items' := fun item hitem ↦
      List.mem_append_left _ ((perm_sortedItems items).mem_iff.mp hitem)
    have hmemSorted' : ∀ item ∈ sortedItems items', item ∈ items ++ items' := fun item hitem ↦
      List.mem_append_right _ ((perm_sortedItems items').mem_iff.mp hitem)
    have hdistinct : ((sortedItems items).map leafBytes).Nodup :=
      List.Nodup.map_on (fun first hfirst second hsecond ↦
        hleafInj first (hmemSorted first hfirst) second (hmemSorted second hsecond))
        ((perm_sortedItems items).nodup_iff.mpr hnodup)
    have hdistinct' : ((sortedItems items').map leafBytes).Nodup :=
      List.Nodup.map_on (fun first hfirst second hsecond ↦
        hleafInj first (hmemSorted' first hfirst) second (hmemSorted' second hsecond))
        ((perm_sortedItems items').nodup_iff.mpr hnodup')
    have hmaps := padded_inj (sortedLeaves_ne_nil hitems) (sortedLeaves_ne_nil hitems') hdistinct
      hdistinct' hleaves
    rcases eq_or_collide_of_map hmaps with hsorted | ⟨first, hfirst, second, hsecond, hne, hbytes⟩
    · have hperm := perm_sortedItems items'
      rw [← hsorted] at hperm
      exact (perm_sortedItems items).symm.trans hperm
    · exact absurd (hleafInj first (hmemSorted first hfirst) second (hmemSorted' second hsecond)
        hbytes) hne
  · exact .inr hcollide

end Fluidic.State
