import Mathlib.Data.List.Induction
import Mathlib.Data.List.Perm.Basic
import Mathlib.Algebra.Order.BigOperators.Group.List
import Mathlib.Algebra.Order.Group.Nat
import Mathlib.Algebra.GroupWithZero.Nat

/-!
# Sums over finite maps and the order in which a hash table is visited

A hash table is modelled by the extensional tree map of its entries: two tables with the same
entries are equal. What a hash table does not fix is the order in which a loop visits it. An
`IterationOrder` is one such order: a function that rearranges the list of entries, and nothing
else. A loop over a table takes the order as an argument wherever its result can depend on it.

`sumBy` adds a weight over the entries of a map. `sumBy_insert` says what one insertion does to the
sum and `sumBy_reweigh` what replacing every entry does; the conservation and quorum arguments need
nothing else about it. `look_foldl_toList` says what a state shows after the entries of a map are
written into it; `getElem?_copy` is the case of a map copied into another one. `accumulate` is the
step of a loop that gathers entries under their keys.
-/

set_option autoImplicit false
set_option relaxedAutoImplicit false

namespace Fluidic.Library

open Std

attribute [instance] lexOrd

/-! ### Iteration orders -/

/-- One order in which a loop visits the entries of a hash table: a rearrangement of the list of
entries. -/
structure IterationOrder (α : Type) where
  visit : List α → List α
  visit_perm : ∀ entries, (visit entries).Perm entries

namespace IterationOrder

variable {α : Type}

/-- The order of the list itself. -/
def forward : IterationOrder α := ⟨id, fun _ ↦ List.Perm.refl _⟩

/-- The opposite order. -/
def backward : IterationOrder α := ⟨List.reverse, fun entries ↦ entries.reverse_perm⟩

instance : Inhabited (IterationOrder α) := ⟨forward⟩

/-- The order that visits the entries of one table as given, and those of any other table forward.
-/
def arranging [DecidableEq α] (arrangement : List α) : IterationOrder α where
  visit entries := if arrangement.Perm entries then arrangement else entries
  visit_perm entries := by
    split_ifs with hperm
    · exact hperm
    · exact List.Perm.refl _

/-- A table is visited as arranged. Assumes: the arrangement has the entries of the table. -/
theorem visit_arranging [DecidableEq α] {arrangement entries : List α}
    (hperm : arrangement.Perm entries) : (arranging arrangement).visit entries = arrangement :=
  if_pos hperm

/-- A visit meets exactly the entries of the table. -/
@[simp] theorem mem_visit (order : IterationOrder α) (entries : List α) (entry : α) :
    entry ∈ order.visit entries ↔ entry ∈ entries :=
  (order.visit_perm entries).mem_iff

/-- A visit of distinct entries meets each of them once. -/
theorem nodup_visit (order : IterationOrder α) {entries : List α} (hnodup : entries.Nodup) :
    (order.visit entries).Nodup :=
  (order.visit_perm entries).nodup_iff.mpr hnodup

/-- A visit finds the entry with a property, wherever it meets it. Assumes: no two entries have the
property. -/
theorem find?_visit (order : IterationOrder α) {entries : List α} {property : α → Bool}
    (hunique : ∀ first ∈ entries, ∀ second ∈ entries, property first = true →
      property second = true → first = second) (entry : α) :
    (order.visit entries).find? property = some entry ↔
      entry ∈ entries ∧ property entry = true := by
  constructor
  · intro hfind
    exact ⟨(order.mem_visit _ _).mp (List.mem_of_find?_eq_some hfind), List.find?_some hfind⟩
  · rintro ⟨hmem, hproperty⟩
    cases hfind : (order.visit entries).find? property with
    | none =>
      exact absurd hproperty (List.find?_eq_none.mp hfind entry ((order.mem_visit _ _).mpr hmem))
    | some found =>
      rw [hunique found ((order.mem_visit _ _).mp (List.mem_of_find?_eq_some hfind)) entry hmem
        (List.find?_some hfind) hproperty]

end IterationOrder

/-! ### Keys -/

section Entries

variable {κ α : Type} [Ord κ] [TransOrd κ] [LawfulEqOrd κ]

omit [LawfulEqOrd κ] in
/-- A key is in a map exactly when a lookup finds a value. -/
theorem mem_iff_exists_getElem? {table : ExtTreeMap κ α} {key : κ} :
    key ∈ table ↔ ∃ value, table[key]? = some value := by
  rw [← ExtTreeMap.isSome_getElem?_iff_mem, Option.isSome_iff_exists]

/-- An insertion leaves the other keys alone. Assumes: the keys differ. -/
theorem getElem?_insert_of_ne (table : ExtTreeMap κ α) {key other : κ} (hne : key ≠ other)
    (value : α) : (table.insert key value)[other]? = table[other]? := by
  rw [ExtTreeMap.getElem?_insert, if_neg]
  rw [LawfulEqCmp.compare_eq_iff_eq]
  exact hne

/-- An insertion of what a map holds already changes nothing. Assumes: the key has the value. -/
theorem insert_of_getElem? {table : ExtTreeMap κ α} {key : κ} {value : α}
    (hlookup : table[key]? = some value) : table.insert key value = table := by
  refine ExtTreeMap.ext_getElem? fun other ↦ ?_
  rw [ExtTreeMap.getElem?_insert]
  split_ifs with hcompare
  · rw [← LawfulEqCmp.compare_eq_iff_eq.mp hcompare, hlookup]
  · rfl

/-- The keys of a map are distinct. -/
theorem nodup_keys (table : ExtTreeMap κ α) : (table.toList.map Prod.fst).Nodup := by
  rw [List.Nodup, List.pairwise_map]
  exact table.distinct_keys_toList.imp
    fun hne heq ↦ hne (LawfulEqCmp.compare_eq_iff_eq.mpr heq)

/-! ### Sums over a map -/

/-- The sum of a weight over the entries of a map. -/
def sumBy (weight : κ → α → ℕ) (table : ExtTreeMap κ α) : ℕ :=
  (table.toList.map fun entry ↦ weight entry.1 entry.2).sum

/-- The entries of a map are distinct. -/
theorem nodup_toList (table : ExtTreeMap κ α) : table.toList.Nodup :=
  (List.pairwise_map.mp (nodup_keys table)).imp fun hne heq ↦ hne (congrArg Prod.fst heq)

/-- The entries after an insertion: the new entry, and the old entries under other keys. -/
theorem toList_insert_perm [DecidableEq κ] (table : ExtTreeMap κ α) (key : κ) (value : α) :
    (table.insert key value).toList.Perm
      ((key, value) :: table.toList.filter fun entry ↦ entry.1 ≠ key) := by
  have hfresh : (key, value) ∉ table.toList.filter fun entry ↦ entry.1 ≠ key := by
    simp [List.mem_filter]
  refine (List.perm_ext_iff_of_nodup (nodup_toList _)
    (List.nodup_cons.mpr ⟨hfresh, (nodup_toList table).filter _⟩)).mpr ?_
  rintro ⟨other, entry⟩
  simp only [ExtTreeMap.mem_toList_iff_getElem?_eq_some, ExtTreeMap.getElem?_insert,
    LawfulEqCmp.compare_eq_iff_eq, List.mem_cons, Prod.mk.injEq, List.mem_filter, ne_eq,
    decide_not, Bool.not_eq_eq_eq_not, Bool.not_true, decide_eq_false_iff_not]
  by_cases hkey : key = other
  · subst hkey
    simp [eq_comm]
  · simp [hkey, Ne.symm hkey]

/-- The old entries: the one under the key, when there is one, and those under other keys. -/
theorem toList_split_perm [DecidableEq κ] (table : ExtTreeMap κ α) (key : κ) :
    table.toList.Perm ((table[key]?.elim [] fun value ↦ [(key, value)]) ++
      table.toList.filter fun entry ↦ entry.1 ≠ key) := by
  cases hlookup : table[key]? with
  | none =>
    have hall : table.toList.filter (fun entry ↦ entry.1 ≠ key) = table.toList := by
      refine List.filter_eq_self.mpr fun entry hentry ↦ ?_
      have hmem : table[entry.1]? = some entry.2 :=
        ExtTreeMap.mem_toList_iff_getElem?_eq_some.mp hentry
      simp only [ne_eq, decide_not, Bool.not_eq_eq_eq_not, Bool.not_true, decide_eq_false_iff_not]
      rintro rfl
      simp [hlookup] at hmem
    rw [hall]
    exact List.Perm.refl _
  | some value =>
    have hperm := toList_insert_perm table key value
    rw [insert_of_getElem? hlookup] at hperm
    exact hperm

/-- A sum is the weight of the entry under a key, when there is one, and the weights of the others.
-/
theorem sumBy_split [DecidableEq κ] (weight : κ → α → ℕ) (table : ExtTreeMap κ α) (key : κ) :
    sumBy weight table = (table[key]?.elim 0 (weight key)) +
      ((table.toList.filter fun entry ↦ entry.1 ≠ key).map
        fun entry ↦ weight entry.1 entry.2).sum := by
  rw [sumBy, ((toList_split_perm table key).map fun entry ↦ weight entry.1 entry.2).sum_eq]
  cases table[key]? <;> simp

/-- What one insertion does to a sum: it adds the weight of the new entry and takes away the weight
of the entry it replaces. -/
theorem sumBy_insert (weight : κ → α → ℕ) (table : ExtTreeMap κ α) (key : κ)
    (value : α) :
    sumBy weight (table.insert key value) + table[key]?.elim 0 (weight key) =
      sumBy weight table + weight key value := by
  classical
  have hperm := toList_insert_perm table key value
  rw [sumBy_split weight table key, sumBy,
    (hperm.map fun entry ↦ weight entry.1 entry.2).sum_eq]
  simp only [List.map_cons, List.sum_cons]
  omega

/-- What insertions under distinct keys do to a sum: they add the weights of the new values and take
away those of the entries they replace. Assumes: the keys are distinct. -/
theorem sumBy_foldl_insert {ε : Type} (weight : α → ℕ) (keyOf : ε → κ) (valueOf : ε → α)
    {entries : List ε} (hdistinct : (entries.map keyOf).Nodup) (table : ExtTreeMap κ α) :
    sumBy (fun _ value ↦ weight value)
        (entries.foldl (fun table entry ↦ table.insert (keyOf entry) (valueOf entry)) table) +
      (entries.map fun entry ↦ table[keyOf entry]?.elim 0 weight).sum =
    sumBy (fun _ value ↦ weight value) table +
      (entries.map fun entry ↦ weight (valueOf entry)).sum := by
  induction entries generalizing table with
  | nil => rfl
  | cons entry entries ih =>
    rw [List.map_cons, List.nodup_cons] at hdistinct
    have hrest := ih hdistinct.2 (table.insert (keyOf entry) (valueOf entry))
    have hfirst : sumBy (fun _ value ↦ weight value) (table.insert (keyOf entry) (valueOf entry)) +
        table[keyOf entry]?.elim 0 weight =
        sumBy (fun _ value ↦ weight value) table + weight (valueOf entry) :=
      sumBy_insert (fun _ value ↦ weight value) table (keyOf entry) (valueOf entry)
    have hsame : (entries.map fun other ↦
        (table.insert (keyOf entry) (valueOf entry))[keyOf other]?.elim 0 weight) =
        entries.map fun other ↦ table[keyOf other]?.elim 0 weight := by
      refine List.map_congr_left fun other hother ↦ ?_
      rw [getElem?_insert_of_ne]
      exact fun heq ↦ hdistinct.1 (heq ▸ List.mem_map_of_mem hother)
    rw [hsame] at hrest
    rw [List.foldl_cons, List.map_cons, List.map_cons, List.sum_cons, List.sum_cons]
    omega

/-- One entry weighs at most the whole sum. Assumes: the key has the value. -/
theorem weight_le_sumBy (weight : κ → α → ℕ) {table : ExtTreeMap κ α} {key : κ} {value : α}
    (hlookup : table[key]? = some value) : weight key value ≤ sumBy weight table := by
  classical
  rw [sumBy_split weight table key, hlookup]
  exact Nat.le_add_right _ _

/-- Weights that agree on the entries of a map give one sum. Assumes: the weights agree on the
entries. -/
theorem sumBy_congr {weight weight' : κ → α → ℕ} {table : ExtTreeMap κ α}
    (hagree : ∀ key value, table[key]? = some value → weight key value = weight' key value) :
    sumBy weight table = sumBy weight' table := by
  have hentries : (table.toList.map fun entry ↦ weight entry.1 entry.2) =
      table.toList.map fun entry ↦ weight' entry.1 entry.2 :=
    List.map_congr_left fun entry hentry ↦
      hagree entry.1 entry.2 (ExtTreeMap.mem_toList_iff_getElem?_eq_some.mp hentry)
  rw [sumBy, sumBy, hentries]

omit [LawfulEqOrd κ] in
/-- The sum over a map whose values are replaced. -/
theorem sumBy_map {β : Type} (weight : κ → β → ℕ) (table : ExtTreeMap κ α) (update : κ → α → β) :
    sumBy weight (table.map update) =
      sumBy (fun key value ↦ weight key (update key value)) table := by
  rw [sumBy, ExtTreeMap.toList_map, List.map_map]
  rfl

omit [LawfulEqOrd κ] in
/-- The sum over a map of which some entries are dropped and the others replaced. -/
theorem sumBy_filterMap {β : Type} (weight : κ → β → ℕ) (table : ExtTreeMap κ α)
    (update : κ → α → Option β) :
    sumBy weight (table.filterMap update) =
      sumBy (fun key value ↦ (update key value).elim 0 (weight key)) table := by
  rw [sumBy, ExtTreeMap.toList_filterMap, sumBy]
  induction table.toList with
  | nil => rfl
  | cons entry entries ih =>
    rw [List.filterMap_cons, List.map_cons, List.sum_cons]
    cases update entry.1 entry.2 with
    | none => exact ih.trans (Nat.zero_add _).symm
    | some value => exact congrArg (weight entry.1 value + ·) ih

omit [LawfulEqOrd κ] in
/-- A smaller weight gives a smaller sum. Assumes: no entry weighs more under the first weight. -/
theorem sumBy_le_sumBy {weight weight' : κ → α → ℕ}
    (hle : ∀ key value, weight key value ≤ weight' key value) (table : ExtTreeMap κ α) :
    sumBy weight table ≤ sumBy weight' table :=
  List.sum_le_sum fun entry _ ↦ hle entry.1 entry.2

omit [LawfulEqOrd κ] in
/-- The sums of two weights make up the sum of both. -/
theorem sumBy_add (weight weight' : κ → α → ℕ) (table : ExtTreeMap κ α) :
    sumBy weight table + sumBy weight' table =
      sumBy (fun key value ↦ weight key value + weight' key value) table := by
  rw [sumBy, sumBy, sumBy, List.sum_map_add]

/-- What a change of the weight of one key does to a sum: it adds the new weight and takes away the
old one. Assumes: the key has the value, and the weights of other keys stay. -/
theorem sumBy_reweigh {weight weight' : κ → α → ℕ} {table : ExtTreeMap κ α} {key : κ} {value : α}
    (hlookup : table[key]? = some value)
    (hother : ∀ other entry, other ≠ key → weight' other entry = weight other entry) :
    sumBy weight' table + weight key value = sumBy weight table + weight' key value := by
  classical
  have hrest : ((table.toList.filter fun entry ↦ entry.1 ≠ key).map
        fun entry ↦ weight' entry.1 entry.2) =
      (table.toList.filter fun entry ↦ entry.1 ≠ key).map fun entry ↦ weight entry.1 entry.2 := by
    refine List.map_congr_left fun entry hentry ↦ hother entry.1 entry.2 ?_
    exact of_decide_eq_true (List.mem_filter.mp hentry).2
  rw [sumBy_split weight table key, sumBy_split weight' table key, hlookup, hrest]
  simp only [Option.elim_some]
  omega

/-- The number of entries of a map whose value has a property. -/
def countBy (property : α → Bool) (table : ExtTreeMap κ α) : ℕ :=
  (table.toList.filter fun entry ↦ property entry.2).length

/-- A list of the keys whose values have a property is as long as their number. Assumes: its keys
are distinct, and are those of the map whose values have the property. -/
theorem length_eq_countBy {property : α → Bool} {table : ExtTreeMap κ α} {keys : List κ}
    (hdistinct : keys.Nodup)
    (hkeys : ∀ key, key ∈ keys ↔ ∃ value, table[key]? = some value ∧ property value = true) :
    keys.length = countBy property table := by
  have hkept : ((table.toList.filter fun entry ↦ property entry.2).map Prod.fst).Nodup :=
    (nodup_keys table).sublist (List.filter_sublist.map Prod.fst)
  have hperm : keys.Perm ((table.toList.filter fun entry ↦ property entry.2).map Prod.fst) := by
    refine (List.perm_ext_iff_of_nodup hdistinct hkept).mpr fun key ↦ ?_
    rw [hkeys, List.mem_map]
    constructor
    · rintro ⟨value, hlookup, hproperty⟩
      exact ⟨(key, value), List.mem_filter.mpr
        ⟨ExtTreeMap.mem_toList_iff_getElem?_eq_some.mpr hlookup, hproperty⟩, rfl⟩
    · rintro ⟨⟨_, value⟩, hentry, rfl⟩
      obtain ⟨hmem, hproperty⟩ := List.mem_filter.mp hentry
      exact ⟨value, ExtTreeMap.mem_toList_iff_getElem?_eq_some.mp hmem, hproperty⟩
  rw [hperm.length_eq, List.length_map, countBy]

/-- The map of a list sorted by key has that list as its entries. Assumes: the keys rise. -/
theorem toList_ofList_of_sorted [DecidableEq κ] {entries : List (κ × α)}
    (hsorted : entries.Pairwise fun earlier later ↦ compare earlier.1 later.1 = .lt) :
    (ExtTreeMap.ofList entries : ExtTreeMap κ α).toList = entries := by
  have hdistinct : entries.Pairwise fun earlier later ↦ ¬compare earlier.1 later.1 = .eq :=
    hsorted.imp fun hlt heq ↦ by
      rw [hlt] at heq
      cases heq
  have hkept (entry : κ × α) (hentry : entry ∈ entries) :
      (ExtTreeMap.ofList entries : ExtTreeMap κ α)[entry.1]? = some entry.2 :=
    ExtTreeMap.getElem?_ofList_of_mem ReflCmp.compare_self hdistinct hentry
  have hmem (entry : κ × α) :
      entry ∈ (ExtTreeMap.ofList entries : ExtTreeMap κ α).toList ↔ entry ∈ entries := by
    rw [ExtTreeMap.mem_toList_iff_getElem?_eq_some]
    constructor
    · intro hlookup
      have hkey : entry.1 ∈ (ExtTreeMap.ofList entries : ExtTreeMap κ α) :=
        ExtTreeMap.isSome_getElem?_iff_mem.mp (by rw [hlookup]; rfl)
      rw [ExtTreeMap.mem_ofList, List.contains_iff_mem, List.mem_map] at hkey
      obtain ⟨other, hother, hsame⟩ := hkey
      have hvalue := hkept other hother
      rw [hsame, hlookup] at hvalue
      rwa [Prod.ext hsame (Option.some.inj hvalue).symm] at hother
    · exact hkept entry
  have hnodup : entries.Nodup :=
    hdistinct.imp fun hne heq ↦ hne (by rw [heq]; exact ReflCmp.compare_self)
  have hperm := (List.perm_ext_iff_of_nodup (nodup_toList _) hnodup).mpr hmem
  refine List.Perm.eq_of_pairwise (fun first second _ _ hforth hback ↦ ?_)
    ExtTreeMap.ordered_keys_toList hsorted hperm
  rw [OrientedOrd.eq_swap, hback] at hforth
  cases hforth

end Entries

/-! ### Writing a map into a state -/

section Writes

variable {κ α β σ : Type} [Ord κ] [TransOrd κ] [LawfulEqOrd κ]

omit [Ord κ] [TransOrd κ] [LawfulEqOrd κ] in
/-- Writes under other keys leave what a state shows at a key alone. Assumes: no entry has the key,
and a write shows at its own key only. -/
theorem look_foldl_of_ne {look : σ → κ → Option β} {write : σ → κ × α → σ}
    (hother : ∀ state entry key, entry.1 ≠ key → look (write state entry) key = look state key)
    {entries : List (κ × α)} {key : κ} (hne : ∀ entry ∈ entries, entry.1 ≠ key) (state : σ) :
    look (entries.foldl write state) key = look state key := by
  induction entries generalizing state with
  | nil => rfl
  | cons entry entries ih =>
    rw [List.foldl_cons, ih fun other hmem ↦ hne other (List.mem_cons_of_mem _ hmem),
      hother state entry key (hne entry List.mem_cons_self)]

/-- What a state shows after the entries of a map are written into it, in any order: the keys of the
map show their values, the others what they showed before. Assumes: a write shows a value at its own
key, and nothing new at any other. -/
theorem look_foldl_visit {look : σ → κ → Option β} {write : σ → κ × α → σ} {shown : κ → α → β}
    (hself : ∀ state entry, look (write state entry) entry.1 = some (shown entry.1 entry.2))
    (hother : ∀ state entry key, entry.1 ≠ key → look (write state entry) key = look state key)
    (order : IterationOrder (κ × α)) (table : ExtTreeMap κ α) (state : σ) (key : κ) :
    look ((order.visit table.toList).foldl write state) key =
      (table[key]?.map (shown key)).or (look state key) := by
  cases hlookup : table[key]? with
  | none =>
    refine look_foldl_of_ne hother (fun entry hentry hkey ↦ ?_) state
    have hmem : table[entry.1]? = some entry.2 :=
      ExtTreeMap.mem_toList_iff_getElem?_eq_some.mp ((order.mem_visit _ _).mp hentry)
    rw [hkey, hlookup] at hmem
    cases hmem
  | some value =>
    obtain ⟨before, after, hsplit⟩ := List.append_of_mem ((order.mem_visit _ _).mpr
      (ExtTreeMap.mem_toList_iff_getElem?_eq_some.mpr hlookup))
    have hdistinct := ((order.visit_perm table.toList).pairwise_iff
      fun hne heq ↦ hne (OrientedCmp.eq_symm heq)).mpr table.distinct_keys_toList
    rw [hsplit, List.pairwise_append, List.pairwise_cons] at hdistinct
    have hafter : ∀ entry ∈ after, entry.1 ≠ key := by
      intro entry hentry hkey
      refine hdistinct.2.1.1 entry hentry ?_
      rw [hkey]
      exact ReflCmp.compare_self
    rw [hsplit, List.foldl_append, List.foldl_cons, look_foldl_of_ne hother hafter]
    exact hself (before.foldl write state) (key, value)

/-- What a state shows after the entries of a map are written into it, in the order of the map.
Assumes: a write shows a value at its own key, and nothing new at any other. -/
theorem look_foldl_toList {look : σ → κ → Option β} {write : σ → κ × α → σ} {shown : α → β}
    (hself : ∀ state entry, look (write state entry) entry.1 = some (shown entry.2))
    (hother : ∀ state entry key, entry.1 ≠ key → look (write state entry) key = look state key)
    (table : ExtTreeMap κ α) (state : σ) (key : κ) :
    look (table.toList.foldl write state) key = (table[key]?.map shown).or (look state key) :=
  @look_foldl_visit _ _ _ _ _ _ _ look write (fun _ ↦ shown) hself hother .forward table state key

/-- A copy of a map into another one: the keys of the first get its values, the others keep
theirs. -/
theorem getElem?_copy (table : ExtTreeMap κ α) (update : α → β) (base : ExtTreeMap κ β) (key : κ) :
    (table.toList.foldl (fun copy entry ↦ copy.insert entry.1 (update entry.2)) base)[key]? =
      (table[key]?.map update).or base[key]? := by
  refine look_foldl_toList (fun state entry ↦ ExtTreeMap.getElem?_insert_self)
    (fun state entry other hne ↦ getElem?_insert_of_ne state hne _) table base key

/-- What a list of entries restores: each entry whose key can be read is written into an empty map,
the others are skipped. -/
def restore {τ ε : Type} (decode : τ → Option κ) (read : κ → ε → β) (entries : List (τ × ε)) :
    ExtTreeMap κ β :=
  entries.foldl
    (fun table entry ↦
      match decode entry.1 with
      | some key => table.insert key (read key entry.2)
      | none => table) ∅

/-- A map that was written out, in any order, is restored entry by entry. Assumes: every key is read
back as it was written. -/
theorem restore_visit {τ ε : Type} {encode : κ → τ} {decode : τ → Option κ}
    (hdecode : ∀ key, decode (encode key) = some key) (order : IterationOrder (κ × α))
    (table : ExtTreeMap κ α) (write : κ → α → ε) (read : κ → ε → β) :
    restore decode read ((order.visit table.toList).map fun entry ↦
        (encode entry.1, write entry.1 entry.2)) =
      table.map fun key value ↦ read key (write key value) := by
  refine ExtTreeMap.ext_getElem? fun key ↦ ?_
  unfold restore
  rw [List.foldl_map]
  simp only [hdecode]
  rw [ExtTreeMap.getElem?_map]
  refine (@look_foldl_visit κ α β (ExtTreeMap κ β) _ _ _ (fun table key ↦ table[key]?)
    (fun table entry ↦ table.insert entry.1 (read entry.1 (write entry.1 entry.2)))
    (fun key value ↦ read key (write key value)) (fun _ _ ↦ ExtTreeMap.getElem?_insert_self)
    (fun state entry other hne ↦ ?_) order table ∅ key).trans ?_
  · exact ExtTreeMap.getElem?_insert.trans (if_neg (mt LawfulEqCmp.compare_eq_iff_eq.mp hne))
  · rw [ExtTreeMap.getElem?_empty, Option.or_none]

/-- A map whose values are replaced by themselves is the same. -/
theorem map_self (table : ExtTreeMap κ α) : (table.map fun _ value ↦ value) = table :=
  ExtTreeMap.ext_getElem? fun key ↦ by rw [ExtTreeMap.getElem?_map, Option.map_id']

/-- What a list restores at a key: the value that one of its entries of that key reads, or nothing
when there is no such entry. -/
theorem getElem?_restore {τ ε : Type} (decode : τ → Option κ) (read : κ → ε → β)
    (entries : List (τ × ε)) (key : κ) :
    (∃ entry ∈ entries, decode entry.1 = some key ∧
      (restore decode read entries)[key]? = some (read key entry.2)) ∨
    (restore decode read entries)[key]? = none ∧ ∀ entry ∈ entries, decode entry.1 ≠ some key := by
  induction entries using List.reverseRecOn with
  | nil => exact .inr ⟨ExtTreeMap.getElem?_empty, fun entry hentry ↦ absurd hentry List.not_mem_nil⟩
  | append_singleton entries last ih =>
    have hrestore : restore decode read (entries ++ [last]) =
        match decode last.1 with
        | some key => (restore decode read entries).insert key (read key last.2)
        | none => restore decode read entries := by
      unfold restore
      rw [List.foldl_append, List.foldl_cons, List.foldl_nil]
    by_cases hlast : decode last.1 = some key
    · refine .inl ⟨last, List.mem_append_right _ List.mem_cons_self, hlast, ?_⟩
      rw [hrestore, hlast]
      exact ExtTreeMap.getElem?_insert_self
    · have hsame : (restore decode read (entries ++ [last]))[key]? =
          (restore decode read entries)[key]? := by
        rw [hrestore]
        cases hdecode : decode last.1 with
        | none => rfl
        | some other =>
          rw [hdecode, Option.some.injEq] at hlast
          exact ExtTreeMap.getElem?_insert.trans
            (if_neg (mt LawfulEqCmp.compare_eq_iff_eq.mp hlast))
      rw [hsame]
      rcases ih with ⟨entry, hentry, hread⟩ | ⟨hnone, hothers⟩
      · exact .inl ⟨entry, List.mem_append_left _ hentry, hread⟩
      · refine .inr ⟨hnone, fun entry hentry ↦ ?_⟩
        rcases List.mem_append.mp hentry with hearlier | hnew
        · exact hothers entry hearlier
        · rwa [List.mem_singleton.mp hnew]

/-- The entries of a map that was written under the texts of its keys, in any order. Assumes: no two
keys have one text. -/
theorem mem_toList_rekey {τ : Type} [Ord τ] [TransOrd τ] [LawfulEqOrd τ] {encode : κ → τ}
    (hinjective : ∀ first second, encode first = encode second → first = second)
    (order : IterationOrder (κ × α)) (table : ExtTreeMap κ α) (entry : τ × α) :
    entry ∈ ((order.visit table.toList).foldl
      (fun texts entry ↦ texts.insert (encode entry.1) entry.2) (∅ : ExtTreeMap τ α)).toList ↔
      ∃ key, encode key = entry.1 ∧ table[key]? = some entry.2 := by
  have hlook (key : κ) : ((order.visit table.toList).foldl
      (fun texts entry ↦ texts.insert (encode entry.1) entry.2)
        (∅ : ExtTreeMap τ α))[encode key]? = table[key]? := by
    refine (@look_foldl_visit κ α α (ExtTreeMap τ α) _ _ _ (fun texts key ↦ texts[encode key]?)
      (fun texts entry ↦ texts.insert (encode entry.1) entry.2) (fun _ value ↦ value)
      (fun _ _ ↦ ExtTreeMap.getElem?_insert_self) (fun state entry other hne ↦ ?_) order table ∅
      key).trans ?_
    · exact ExtTreeMap.getElem?_insert.trans
        (if_neg fun hsame ↦ hne (hinjective _ _ (LawfulEqCmp.compare_eq_iff_eq.mp hsame)))
    · rw [ExtTreeMap.getElem?_empty, Option.or_none, Option.map_id']
  have hkeys (entries : List (κ × α)) (text : τ) (hmem : text ∈ entries.foldl
      (fun texts entry ↦ texts.insert (encode entry.1) entry.2) (∅ : ExtTreeMap τ α)) :
      ∃ key, encode key = text := by
    induction entries using List.reverseRecOn with
    | nil => exact absurd hmem ExtTreeMap.not_mem_empty
    | append_singleton entries last ih =>
      rw [List.foldl_append, List.foldl_cons, List.foldl_nil, ExtTreeMap.mem_insert,
        LawfulEqCmp.compare_eq_iff_eq] at hmem
      exact hmem.elim (fun hsame ↦ ⟨last.1, hsame⟩) ih
  rw [ExtTreeMap.mem_toList_iff_getElem?_eq_some]
  constructor
  · intro hentry
    obtain ⟨key, hkey⟩ := hkeys _ entry.1 (mem_iff_exists_getElem?.mpr ⟨_, hentry⟩)
    rw [← hkey, hlook] at hentry
    exact ⟨key, hkey, hentry⟩
  · rintro ⟨key, hkey, hlookup⟩
    rw [← hkey, hlook, hlookup]

/-- A map that goes through a map under the texts of its keys, in any order, is restored. Assumes:
every key is read back as it was written. -/
theorem restore_rekey {τ : Type} [Ord τ] [TransOrd τ] [LawfulEqOrd τ] {encode : κ → τ}
    {decode : τ → Option κ} (hdecode : ∀ key, decode (encode key) = some key)
    (order : IterationOrder (κ × α)) (table : ExtTreeMap κ α) :
    restore decode (fun _ value ↦ value) ((order.visit table.toList).foldl
      (fun texts entry ↦ texts.insert (encode entry.1) entry.2) (∅ : ExtTreeMap τ α)).toList =
      table := by
  have hinjective : ∀ first second, encode first = encode second → first = second := by
    intro first second hsame
    have hread := hdecode first
    rw [hsame, hdecode] at hread
    exact (Option.some.inj hread).symm
  set texts := (order.visit table.toList).foldl
    (fun texts entry ↦ texts.insert (encode entry.1) entry.2) (∅ : ExtTreeMap τ α) with htexts
  refine ExtTreeMap.ext_getElem? fun key ↦ ?_
  rcases getElem?_restore decode (fun _ value ↦ value) texts.toList key with
    ⟨entry, hmem, hread, hrestored⟩ | ⟨hrestored, hothers⟩
  · obtain ⟨other, hother, hlookup⟩ := (mem_toList_rekey hinjective order table entry).mp hmem
    rw [← hother, hdecode] at hread
    rw [hrestored, ← Option.some.inj hread, hlookup]
  · rw [hrestored]
    cases hlookup : table[key]? with
    | none => rfl
    | some value =>
      exact absurd (hdecode key) (hothers (encode key, value)
        ((mem_toList_rekey hinjective order table (encode key, value)).mpr ⟨key, rfl, hlookup⟩))

/-- The members of a set after the keys of a list were inserted into it. -/
theorem mem_foldl_insert {ε : Type} (keyOf : ε → κ) (entries : List ε)
    (base : ExtTreeSet κ) (key : κ) :
    key ∈ entries.foldl (fun keys entry ↦ keys.insert (keyOf entry)) base ↔
      (∃ entry ∈ entries, keyOf entry = key) ∨ key ∈ base := by
  induction entries generalizing base with
  | nil => simp
  | cons entry entries ih =>
    rw [List.foldl_cons, ih, ExtTreeSet.mem_insert, LawfulEqCmp.compare_eq_iff_eq,
      List.exists_mem_cons_iff, ← or_assoc, or_comm (b := keyOf entry = key)]

end Writes

/-! ### Accumulating entries under their keys -/

section Accumulation

variable {κ α ε : Type} [Ord κ] [TransOrd κ] [LawfulEqOrd κ]

/-- Combine an entry with the value under its key, which is the initial one when there is none. -/
def accumulate (keyOf : ε → κ) (combine : α → ε → α) (initial : α) (table : ExtTreeMap κ α)
    (entry : ε) : ExtTreeMap κ α :=
  table.insert (keyOf entry) (combine (table.getD (keyOf entry) initial) entry)

variable (keyOf : ε → κ) (combine : α → ε → α) (initial : α)

/-- The value under a key after a list of entries is accumulated: the entries of the key combined,
in their order. -/
theorem getD_accumulate [DecidableEq κ] (entries : List ε) (table : ExtTreeMap κ α) (key : κ) :
    (entries.foldl (accumulate keyOf combine initial) table).getD key initial =
      (entries.filter fun entry ↦ keyOf entry = key).foldl combine (table.getD key initial) := by
  induction entries generalizing table with
  | nil => rfl
  | cons entry entries ih =>
    rw [List.foldl_cons, ih]
    by_cases hkey : keyOf entry = key
    · rw [List.filter_cons, if_pos (decide_eq_true hkey), List.foldl_cons, accumulate, hkey,
        ExtTreeMap.getD_insert_self]
    · rw [List.filter_cons, if_neg (by simpa using hkey), accumulate, ExtTreeMap.getD_insert,
        if_neg (by rw [LawfulEqCmp.compare_eq_iff_eq]; exact hkey)]

/-- The keys after a list of entries is accumulated are the earlier ones and those of the entries.
-/
theorem mem_accumulate (entries : List ε) (table : ExtTreeMap κ α) (key : κ) :
    key ∈ entries.foldl (accumulate keyOf combine initial) table ↔
      (∃ entry ∈ entries, keyOf entry = key) ∨ key ∈ table := by
  induction entries generalizing table with
  | nil => simp
  | cons entry entries ih =>
    rw [List.foldl_cons, ih, accumulate, ExtTreeMap.mem_insert, LawfulEqCmp.compare_eq_iff_eq]
    simp only [List.mem_cons, exists_eq_or_imp]
    exact or_left_comm.trans or_assoc.symm

/-- The entries of the accumulated table: the keys that occur, each with its combined entries. -/
theorem mem_toList_accumulate [DecidableEq κ] (entries : List ε) (pair : κ × α) :
    pair ∈ (entries.foldl (accumulate keyOf combine initial) ∅).toList ↔
      (∃ entry ∈ entries, keyOf entry = pair.1) ∧
        pair.2 = (entries.filter fun entry ↦ keyOf entry = pair.1).foldl combine initial := by
  obtain ⟨key, value⟩ := pair
  have hvalue := getD_accumulate keyOf combine initial entries ∅ key
  rw [ExtTreeMap.getD_empty, ExtTreeMap.getD_eq_getD_getElem?] at hvalue
  have hmem := mem_accumulate keyOf combine initial entries ∅ key
  rw [← ExtTreeMap.isSome_getElem?_iff_mem] at hmem
  rw [ExtTreeMap.mem_toList_iff_getElem?_eq_some, ← hvalue]
  dsimp only
  cases hlookup : (entries.foldl (accumulate keyOf combine initial) ∅)[key]? with
  | none =>
    rw [hlookup] at hmem
    have hnone : ¬∃ entry ∈ entries, keyOf entry = key := by simpa using hmem
    simp [hnone]
  | some current =>
    rw [hlookup] at hmem
    have hexists : ∃ entry ∈ entries, keyOf entry = key := by simpa using hmem
    rw [Option.some.injEq, Option.getD_some, eq_comm]
    exact (and_iff_right hexists).symm

/-- The lists gathered under the keys hold the gathered entries, each tagged with its key. -/
theorem gather_perm {β γ : Type} (keyOf : ε → κ) (read : ε → β) (tag : κ → β → γ)
    (entries : List ε) (table : ExtTreeMap κ (List β)) :
    ((entries.foldl (accumulate keyOf (fun group entry ↦ group ++ [read entry]) [])
      table).toList.flatMap fun pair ↦ pair.2.map (tag pair.1)).Perm
        ((table.toList.flatMap fun pair ↦ pair.2.map (tag pair.1)) ++
          entries.map fun entry ↦ tag (keyOf entry) (read entry)) := by
  classical
  induction entries generalizing table with
  | nil => simp
  | cons entry entries ih =>
    have hgrown : ((accumulate keyOf (fun group entry ↦ group ++ [read entry]) [] table
        entry).toList.flatMap fun pair ↦ pair.2.map (tag pair.1)).Perm
          ((table.toList.flatMap fun pair ↦ pair.2.map (tag pair.1)) ++
            [tag (keyOf entry) (read entry)]) := by
      refine ((toList_insert_perm table (keyOf entry) _).flatMap_right _).trans ?_
      refine List.Perm.trans ?_
        (((toList_split_perm table (keyOf entry)).flatMap_right _).append_right _).symm
      rw [ExtTreeMap.getD_eq_getD_getElem?]
      cases table[keyOf entry]? with
      | none =>
        dsimp only [Option.getD_none, Option.elim_none]
        rw [List.nil_append, List.nil_append, List.flatMap_cons]
        exact List.perm_append_comm
      | some group =>
        dsimp only [Option.getD_some, Option.elim_some]
        rw [List.singleton_append, List.flatMap_cons, List.flatMap_cons, List.map_append,
          List.append_assoc, List.append_assoc]
        exact List.perm_append_comm.append_left _
    rw [List.foldl_cons, List.map_cons]
    refine (ih _).trans ((hgrown.append_right _).trans ?_)
    rw [List.append_assoc]
    exact List.Perm.refl _

end Accumulation

end Fluidic.Library
