import Mathlib.Algebra.GroupWithZero.Nat
import Mathlib.Data.List.Basic
import Mathlib.Data.Nat.Log
import Mathlib.Order.Basic

/-!
# Hash trees

A list of digests is folded in pairs, level by level, until one digest is left. `hashUp` is the fold
and `hashedUp` lists what it hashes on the way. The roots of two lists of leaves are equal only when
the leaves are, unless the hash function collides on two of the strings that are hashed for the one
root and for the other (`leaves_eq_or_collide`). The two trees may have different depths: a leaf is
not a pair, so a leaf of the one tree never meets an inner node of the other without a collision.

`padded_inj` is about lists that are filled up with copies of their last entry.
-/

set_option autoImplicit false
set_option relaxedAutoImplicit false

namespace Fluidic.Library

section HashTree

variable {π δ : Type}

/-! ### Collisions -/

/-- A function does not tell an entry of the first list from another one of the second. -/
def Collide (hash : π → δ) (first second : List π) : Prop :=
  ∃ entry ∈ first, ∃ other ∈ second, entry ≠ other ∧ hash entry = hash other

variable {hash : π → δ}

/-- A collision of two lists is one of longer lists. Assumes: the lists collide. -/
theorem Collide.mono {first second first' second' : List π} (hcollide : Collide hash first second)
    (hfirst : first ⊆ first') (hsecond : second ⊆ second') : Collide hash first' second' := by
  obtain ⟨entry, hentry, other, hother, hne, hsame⟩ := hcollide
  exact ⟨entry, hfirst hentry, other, hsecond hother, hne, hsame⟩

/-- Lists with the same digests are the same, or collide. Assumes: the digests are the same. -/
theorem eq_or_collide_of_map {first second : List π} (hmap : first.map hash = second.map hash) :
    first = second ∨ Collide hash first second := by
  induction first generalizing second with
  | nil =>
    rw [List.map_nil, eq_comm, List.map_eq_nil_iff] at hmap
    exact .inl hmap.symm
  | cons entry first ih =>
    cases second with
    | nil => cases hmap
    | cons other second =>
      obtain ⟨hhead, htail⟩ := List.cons.inj hmap
      by_cases hne : entry = other
      · rcases ih htail with hrest | hcollide
        · exact .inl (by rw [hne, hrest])
        · exact .inr (hcollide.mono (List.subset_cons_self _ _) (List.subset_cons_self _ _))
      · exact .inr ⟨entry, List.mem_cons_self, other, List.mem_cons_self, hne, hhead⟩

/-! ### One level -/

variable {pair : δ → δ → π}

/-- The neighbours of a level in pairs. -/
def pairUp (pair : δ → δ → π) : List δ → List π
  | left :: right :: rest => pair left right :: pairUp pair rest
  | _ => []

theorem length_pairUp (count : ℕ) {level : List δ} (hlength : level.length = 2 * count) :
    (pairUp pair level).length = count := by
  induction count generalizing level with
  | zero =>
    rw [List.length_eq_zero_iff.mp hlength]
    rfl
  | succ count ih =>
    match level with
    | [] => simp at hlength
    | [_] => simp at hlength; omega
    | left :: right :: rest =>
      have hrest : rest.length = 2 * count := by
        simp only [List.length_cons] at hlength
        omega
      exact congrArg (· + 1) (ih hrest)

/-- Every entry of a paired level is a pair. -/
theorem mem_pairUp {level : List δ} {entry : π} (hentry : entry ∈ pairUp pair level) :
    ∃ left right, entry = pair left right := by
  induction level using pairUp.induct with
  | case1 left right rest ih =>
    rcases List.mem_cons.mp hentry with rfl | hrest
    · exact ⟨left, right, rfl⟩
    · exact ih hrest
  | case2 level hshort =>
    rw [pairUp] at hentry
    · cases hentry
    · exact hshort

/-- A level of even length is determined by its pairs. Assumes: pairs determine their halves, and
both levels have the same even length. -/
theorem pairUp_inj (hpair : ∀ left right left' right', pair left right = pair left' right' →
    left = left' ∧ right = right') (count : ℕ) {first second : List δ}
    (hfirst : first.length = 2 * count) (hsecond : second.length = 2 * count)
    (hpairs : pairUp pair first = pairUp pair second) : first = second := by
  induction count generalizing first second with
  | zero => rw [List.length_eq_zero_iff.mp hfirst, List.length_eq_zero_iff.mp hsecond]
  | succ count ih =>
    match first, second with
    | [], _ => simp at hfirst
    | [_], _ => simp at hfirst; omega
    | _, [] => simp at hsecond
    | _, [_] => simp at hsecond; omega
    | left :: right :: rest, left' :: right' :: rest' =>
      obtain ⟨hhead, htail⟩ := List.cons.inj hpairs
      obtain ⟨rfl, rfl⟩ := hpair _ _ _ _ hhead
      have hrest : rest = rest' := by
        apply ih
        · simp only [List.length_cons] at hfirst
          omega
        · simp only [List.length_cons] at hsecond
          omega
        · exact htail
      rw [hrest]

/-! ### All levels -/

/-- Fold a level in pairs until one digest is left, one level for each unit of `levels`. -/
def hashUp (hash : π → δ) (pair : δ → δ → π) : ℕ → List δ → List δ
  | 0, level => level
  | levels + 1, level =>
    if level.length ≤ 1 then level else hashUp hash pair levels ((pairUp pair level).map hash)

/-- What the fold of a level hashes. -/
def hashedUp (hash : π → δ) (pair : δ → δ → π) : ℕ → List δ → List π
  | 0, _ => []
  | levels + 1, level =>
    if level.length ≤ 1 then []
    else pairUp pair level ++ hashedUp hash pair levels ((pairUp pair level).map hash)

theorem length_ne_one_of_deep {level : List δ} {depth : ℕ}
    (hlength : level.length = 2 ^ (depth + 1)) :
    ¬ level.length ≤ 1 := by
  have hpositive : 0 < 2 ^ depth := Nat.two_pow_pos depth
  rw [hlength, Nat.pow_succ]
  omega

theorem hashUp_deep {levels depth : ℕ} {level : List δ} (hlength : level.length = 2 ^ (depth + 1)) :
    hashUp hash pair (levels + 1) level =
      hashUp hash pair levels ((pairUp pair level).map hash) :=
  if_neg (length_ne_one_of_deep hlength)

theorem hashedUp_deep {levels depth : ℕ} {level : List δ}
    (hlength : level.length = 2 ^ (depth + 1)) :
    hashedUp hash pair (levels + 1) level =
      pairUp pair level ++ hashedUp hash pair levels ((pairUp pair level).map hash) :=
  if_neg (length_ne_one_of_deep hlength)

theorem length_map_pairUp {depth : ℕ} {level : List δ} (hlength : level.length = 2 ^ (depth + 1)) :
    ((pairUp pair level).map hash).length = 2 ^ depth := by
  rw [List.length_map]
  apply length_pairUp
  rw [hlength, Nat.pow_succ, Nat.mul_comm]

/-- A level of one digest is its own root. -/
theorem hashUp_zero (levels : ℕ) {level : List δ} (hlength : level.length = 2 ^ 0) :
    hashUp hash pair levels level = level := by
  cases levels with
  | zero => rfl
  | succ levels => exact if_pos hlength.le

/-- A fold with enough levels leaves one digest. -/
theorem length_hashUp {depth levels : ℕ} (hlevels : depth ≤ levels) {level : List δ}
    (hlength : level.length = 2 ^ depth) : (hashUp hash pair levels level).length = 1 := by
  induction depth generalizing levels level with
  | zero =>
    rw [hashUp_zero levels hlength]
    exact hlength
  | succ depth ih =>
    obtain ⟨levels, rfl⟩ := Nat.exists_eq_add_of_le' (Nat.le_of_add_left_le hlevels)
    rw [hashUp_deep hlength]
    exact ih (by omega) (length_map_pairUp hlength)

/-- Levels of the same depth with the same root are the same, or collide above. Assumes: pairs
determine their halves, and the fold reaches the root. -/
theorem levels_eq_or_collide (hpair : ∀ left right left' right',
    pair left right = pair left' right' → left = left' ∧ right = right') {depth : ℕ}
    {levels levels' : ℕ} (hlevels : depth ≤ levels) (hlevels' : depth ≤ levels')
    {first second : List δ} (hfirst : first.length = 2 ^ depth)
    (hsecond : second.length = 2 ^ depth)
    (hroot : hashUp hash pair levels first = hashUp hash pair levels' second) :
    first = second ∨
      Collide hash (hashedUp hash pair levels first) (hashedUp hash pair levels' second) := by
  induction depth generalizing levels levels' first second with
  | zero =>
    rw [hashUp_zero levels hfirst, hashUp_zero levels' hsecond] at hroot
    exact .inl hroot
  | succ depth ih =>
    obtain ⟨levels, rfl⟩ := Nat.exists_eq_add_of_le' (Nat.le_of_add_left_le hlevels)
    obtain ⟨levels', rfl⟩ := Nat.exists_eq_add_of_le' (Nat.le_of_add_left_le hlevels')
    rw [hashUp_deep hfirst, hashUp_deep hsecond] at hroot
    rw [hashedUp_deep hfirst, hashedUp_deep hsecond]
    have habove := ih (by omega) (by omega) (length_map_pairUp hfirst) (length_map_pairUp hsecond)
      hroot
    rcases habove with hdigests | hcollide
    · rcases eq_or_collide_of_map hdigests with hpairs | hcollide
      · left
        apply pairUp_inj hpair (2 ^ depth)
        · rw [hfirst, Nat.pow_succ, Nat.mul_comm]
        · rw [hsecond, Nat.pow_succ, Nat.mul_comm]
        · exact hpairs
      · exact .inr (hcollide.mono (List.subset_append_left _ _) (List.subset_append_left _ _))
    · exact .inr (hcollide.mono (List.subset_append_right _ _) (List.subset_append_right _ _))

/-- Some way up a deeper tree there is a level of hashed pairs with the same root. Assumes: the fold
reaches the root. -/
theorem exists_level_above {depth more levels : ℕ} (hlevels : depth + (more + 1) ≤ levels)
    {level : List δ} (hlength : level.length = 2 ^ (depth + (more + 1))) :
    ∃ (above : List π) (left : ℕ), depth ≤ left ∧ above.length = 2 ^ depth ∧
      (∀ entry ∈ above, ∃ digest digest', entry = pair digest digest') ∧
      hashUp hash pair levels level = hashUp hash pair left (above.map hash) ∧
      above ⊆ hashedUp hash pair levels level ∧
      hashedUp hash pair left (above.map hash) ⊆ hashedUp hash pair levels level := by
  induction more generalizing levels level with
  | zero =>
    obtain ⟨levels, rfl⟩ := Nat.exists_eq_add_of_le' (Nat.le_of_add_left_le hlevels)
    have hdeep : level.length = 2 ^ (depth + 1) := hlength
    refine ⟨pairUp pair level, levels, by omega, ?_, fun entry ↦ mem_pairUp, hashUp_deep hdeep, ?_,
      ?_⟩
    · apply length_pairUp
      rw [hdeep, Nat.pow_succ, Nat.mul_comm]
    · rw [hashedUp_deep hdeep]
      exact List.subset_append_left _ _
    · rw [hashedUp_deep hdeep]
      exact List.subset_append_right _ _
  | succ more ih =>
    obtain ⟨levels, rfl⟩ := Nat.exists_eq_add_of_le'
      (show 1 ≤ levels by omega)
    have hdeep : level.length = 2 ^ (depth + (more + 1) + 1) := hlength
    obtain ⟨above, left, hleft, habove, hpairs, hroot, hsubset, hrest⟩ :=
      ih (show depth + (more + 1) ≤ levels by omega) (length_map_pairUp hdeep)
    refine ⟨above, left, hleft, habove, hpairs, (hashUp_deep hdeep).trans hroot, ?_, ?_⟩
    · rw [hashedUp_deep hdeep]
      exact List.Subset.trans hsubset (List.subset_append_right _ _)
    · rw [hashedUp_deep hdeep]
      exact List.Subset.trans hrest (List.subset_append_right _ _)

theorem Collide.symm {first second : List π} (hcollide : Collide hash first second) :
    Collide hash second first := by
  obtain ⟨entry, hentry, other, hother, hne, hsame⟩ := hcollide
  exact ⟨other, hother, entry, hentry, hne.symm, hsame.symm⟩

/-- A tree and a deeper one with the same root collide. Assumes: pairs determine their halves, no
leaf of the first tree is a pair, and the fold reaches the root. -/
theorem collide_of_deeper (hpair : ∀ left right left' right',
    pair left right = pair left' right' → left = left' ∧ right = right') {depth more : ℕ}
    {levels levels' : ℕ} (hlevels : depth ≤ levels) (hlevels' : depth + (more + 1) ≤ levels')
    {first second : List π} (hfirst : first.length = 2 ^ depth)
    (hsecond : second.length = 2 ^ (depth + (more + 1)))
    (hleaf : ∀ entry ∈ first, ∀ left right, entry ≠ pair left right)
    (hroot : hashUp hash pair levels (first.map hash) =
      hashUp hash pair levels' (second.map hash)) :
    Collide hash (first ++ hashedUp hash pair levels (first.map hash))
      (second ++ hashedUp hash pair levels' (second.map hash)) := by
  have hmap : (first.map hash).length = 2 ^ depth := by rw [List.length_map, hfirst]
  have hmap' : (second.map hash).length = 2 ^ (depth + (more + 1)) := by
    rw [List.length_map, hsecond]
  obtain ⟨above, left, hleft, habove, hpairs, hsame, hsubset, hrest⟩ :=
    @exists_level_above π δ hash pair _ _ _ hlevels' _ hmap'
  have hlevel : (above.map hash).length = 2 ^ depth := by rw [List.length_map, habove]
  rw [hsame] at hroot
  rcases levels_eq_or_collide hpair hlevels hleft hmap hlevel hroot with hdigests | hcollide
  · rcases eq_or_collide_of_map hdigests with hleaves | hcollide
    · obtain ⟨entry, hentry⟩ := List.exists_mem_of_length_pos
        (lt_of_lt_of_eq (Nat.two_pow_pos depth) hfirst.symm)
      obtain ⟨digest, digest', hpaired⟩ := hpairs entry (hleaves ▸ hentry)
      exact absurd hpaired (hleaf entry hentry digest digest')
    · exact hcollide.mono (List.subset_append_left _ _)
        (List.Subset.trans hsubset (List.subset_append_right _ _))
  · exact hcollide.mono (List.subset_append_right _ _)
      (List.Subset.trans hrest (List.subset_append_right _ _))

/-- Trees with the same root have the same leaves, or collide. Assumes: pairs determine their
halves, no leaf is a pair, there are as many leaves as a tree of some depth has, and the fold
reaches the root. -/
theorem leaves_eq_or_collide (hpair : ∀ left right left' right',
    pair left right = pair left' right' → left = left' ∧ right = right') {depth depth' : ℕ}
    {levels levels' : ℕ} (hlevels : depth ≤ levels) (hlevels' : depth' ≤ levels')
    {first second : List π} (hfirst : first.length = 2 ^ depth)
    (hsecond : second.length = 2 ^ depth')
    (hleaf : ∀ entry ∈ first, ∀ left right, entry ≠ pair left right)
    (hleaf' : ∀ entry ∈ second, ∀ left right, entry ≠ pair left right)
    (hroot : hashUp hash pair levels (first.map hash) =
      hashUp hash pair levels' (second.map hash)) :
    first = second ∨ Collide hash (first ++ hashedUp hash pair levels (first.map hash))
      (second ++ hashedUp hash pair levels' (second.map hash)) := by
  rcases Nat.lt_trichotomy depth depth' with hless | rfl | hmore
  · obtain ⟨more, rfl⟩ := Nat.exists_eq_add_of_lt hless
    exact .inr (collide_of_deeper hpair hlevels hlevels' hfirst hsecond hleaf hroot)
  · have hmap : (first.map hash).length = 2 ^ depth := by rw [List.length_map, hfirst]
    have hmap' : (second.map hash).length = 2 ^ depth := by rw [List.length_map, hsecond]
    rcases levels_eq_or_collide hpair hlevels hlevels' hmap hmap' hroot with hdigests | hcollide
    · rcases eq_or_collide_of_map hdigests with hleaves | hcollide
      · exact .inl hleaves
      · exact .inr (hcollide.mono (List.subset_append_left _ _) (List.subset_append_left _ _))
    · exact .inr (hcollide.mono (List.subset_append_right _ _) (List.subset_append_right _ _))
  · obtain ⟨more, rfl⟩ := Nat.exists_eq_add_of_lt hmore
    exact .inr (collide_of_deeper hpair hlevels' hlevels hsecond hfirst hleaf' hroot.symm).symm

/-- A root is the digest of a leaf or of a pair that is hashed. Assumes: the fold reaches the root.
-/
theorem exists_hashed_of_root {depth levels : ℕ} (hlevels : depth ≤ levels) {leaves : List π}
    (hlength : leaves.length = 2 ^ depth) {digest : δ}
    (hroot : [digest] = hashUp hash pair levels (leaves.map hash)) :
    ∃ entry ∈ leaves ++ hashedUp hash pair levels (leaves.map hash), hash entry = digest ∧
      (entry ∈ leaves ∨ ∃ left right, entry = pair left right) := by
  have hmap : (leaves.map hash).length = 2 ^ depth := by rw [List.length_map, hlength]
  cases depth with
  | zero =>
    obtain ⟨leaf, rfl⟩ := List.length_eq_one_iff.mp hlength
    rw [hashUp_zero levels hmap] at hroot
    exact ⟨leaf, List.mem_append_left _ List.mem_cons_self, (List.cons.inj hroot).1.symm,
      .inl List.mem_cons_self⟩
  | succ more =>
    rw [← Nat.zero_add (more + 1)] at hmap hlevels
    obtain ⟨above, left, -, habove, hpairs, hsame, hsubset, -⟩ :=
      @exists_level_above π δ hash pair _ _ _ hlevels _ hmap
    obtain ⟨entry, rfl⟩ := List.length_eq_one_iff.mp habove
    rw [hsame, hashUp_zero left (by rfl)] at hroot
    exact ⟨entry, List.mem_append_right _ (hsubset List.mem_cons_self),
      (List.cons.inj hroot).1.symm, .inr (hpairs entry List.mem_cons_self)⟩

end HashTree

/-! ### Padding -/

/-- A list that is filled up with copies of its last entry. -/
def padded {α : Type} (entries : List α) (count : ℕ) (default : α) : List α :=
  entries ++ List.replicate count (entries.getLastD default)

theorem mem_of_mem_padded {α : Type} {entries : List α} {count : ℕ} {default entry : α}
    (hentries : entries ≠ []) (hentry : entry ∈ padded entries count default) :
    entry ∈ entries := by
  rcases List.mem_append.mp hentry with hmem | hcopy
  · exact hmem
  · rw [List.eq_of_mem_replicate hcopy, List.getLastD_eq_getLast?,
      List.getLast?_eq_some_getLast hentries]
    exact List.getLast_mem hentries

theorem getElem?_padded_of_lt {α : Type} {entries : List α} {count place : ℕ} {default : α}
    (hplace : place < entries.length) : (padded entries count default)[place]? = entries[place]? :=
  List.getElem?_append_left hplace

theorem getElem?_padded_length {α : Type} {entries : List α} {count : ℕ} {default : α}
    (hentries : entries ≠ []) (hcount : 0 < count) :
    (padded entries count default)[entries.length]? = entries[entries.length - 1]? := by
  have hlast : entries.getLast? = some (entries.getLast hentries) :=
    List.getLast?_eq_some_getLast hentries
  unfold padded
  rw [List.getElem?_append_right le_rfl, Nat.sub_self, List.getElem?_replicate, if_pos hcount,
    ← List.getLast?_eq_getElem?, hlast, List.getLastD_eq_getLast?, hlast]
  rfl

/-- A list without repetitions is not a shorter one that goes on with copies of its last entry.
Assumes: the two are the same when they are filled up. -/
theorem length_le_of_padded {α : Type} {first second : List α} {count count' : ℕ} {default : α}
    (hfirst : first ≠ []) (hnodup : second.Nodup)
    (hsame : padded first count default = padded second count' default) :
    second.length ≤ first.length := by
  by_contra hlonger
  rw [Nat.not_le] at hlonger
  have hpositive : 0 < first.length := List.length_pos_iff.mpr hfirst
  have hcount : 0 < count := by
    have hlength := congrArg List.length hsame
    simp only [padded, List.length_append, List.length_replicate] at hlength
    omega
  have hnext : second[first.length]? = second[first.length - 1]? := by
    calc second[first.length]?
        = (padded first count default)[first.length]? := by
          rw [hsame, getElem?_padded_of_lt hlonger]
      _ = first[first.length - 1]? := getElem?_padded_length hfirst hcount
      _ = (padded first count default)[first.length - 1]? :=
          (getElem?_padded_of_lt (by omega)).symm
      _ = second[first.length - 1]? := by rw [hsame, getElem?_padded_of_lt (by omega)]
  have hplace := (List.getElem?_inj hlonger hnodup).mp hnext
  omega

/-- Lists without repetitions are the same when they are once they are filled up. Assumes: the lists
have entries and no repetitions, and are the same once they are filled up. -/
theorem padded_inj {α : Type} {first second : List α} {count count' : ℕ} {default : α}
    (hfirst : first ≠ []) (hsecond : second ≠ []) (hnodup : first.Nodup) (hnodup' : second.Nodup)
    (hsame : padded first count default = padded second count' default) : first = second := by
  have hlength : first.length = second.length :=
    Nat.le_antisymm (length_le_of_padded hsecond hnodup hsame.symm)
      (length_le_of_padded hfirst hnodup' hsame)
  exact (List.append_inj hsame hlength).1

end Fluidic.Library
