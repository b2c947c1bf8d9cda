import Mathlib.Data.List.Basic

/-!
# In-place updates of pairs

A loop over a list that replaces the entries at two positions in each round by functions of both.
When the pairs are disjoint, each round sees the entries that the list had before the loop
(`foldl_updatePair`), and the loop is a gather of the list before it.

`foldlM_eq_foldl` is the rule by which a loop whose rounds may fail runs to its end, and
`mapM_eq_some_iff` says when a traversal does.
-/

set_option autoImplicit false
set_option relaxedAutoImplicit false

namespace Fluidic.Library

/-- A loop with rounds that may fail is the loop without, and keeps an invariant. Assumes: the
invariant holds before the loop, and under the invariant each round succeeds and keeps it. -/
theorem foldlM_eq_foldl {σ ι : Type} {round : σ → ι → Option σ} {total : σ → ι → σ}
    {invariant : σ → Prop} {inputs : List ι}
    (hround : ∀ state, invariant state → ∀ input ∈ inputs,
      round state input = some (total state input) ∧ invariant (total state input))
    {initial : σ} (hinitial : invariant initial) :
    inputs.foldlM round initial = some (inputs.foldl total initial) ∧
      invariant (inputs.foldl total initial) := by
  induction inputs generalizing initial with
  | nil => exact ⟨rfl, hinitial⟩
  | cons input inputs ih =>
    obtain ⟨hserved, hnext⟩ := hround initial hinitial input List.mem_cons_self
    rw [List.foldlM_cons, hserved, List.foldl_cons]
    exact ih (fun state hstate other hother ↦
      hround state hstate other (List.mem_cons_of_mem _ hother)) hnext

/-- A traversal that may fail runs through exactly when each of its elements does. Assumes: each
element succeeds under a condition on it, and then with the value of a function. -/
theorem mapM_eq_some_iff {α β : Type} {visit : α → Option β} {condition : α → Prop} {value : α → β}
    {elements : List α}
    (hvisit : ∀ element ∈ elements, ∀ result, visit element = some result ↔
      condition element ∧ result = value element) (results : List β) :
    elements.mapM visit = some results ↔
      (∀ element ∈ elements, condition element) ∧ results = elements.map value := by
  induction elements generalizing results with
  | nil => simp [eq_comm]
  | cons element elements ih =>
    have hfirst := hvisit element List.mem_cons_self
    have hrest := ih fun other hother ↦ hvisit other (List.mem_cons_of_mem _ hother)
    rw [List.mapM_cons, List.forall_mem_cons, List.map_cons]
    simp only [Option.bind_eq_bind, Option.bind_eq_some_iff, hfirst, hrest, Option.pure_def,
      Option.some.injEq]
    constructor
    · rintro ⟨_, ⟨hcondition, rfl⟩, _, ⟨hlater, rfl⟩, rfl⟩
      exact ⟨⟨hcondition, hlater⟩, rfl⟩
    · rintro ⟨⟨hcondition, hlater⟩, rfl⟩
      exact ⟨_, ⟨hcondition, rfl⟩, _, ⟨hlater, rfl⟩, rfl⟩

section Pairs

variable {α ι : Type} (default : α) (low high : ι → ℕ) (first second : ι → α → α → α)

/-- Replace the entries at the two positions of a round. -/
def updatePair (entries : List α) (round : ι) : List α :=
  let lower := entries.getD (low round) default
  let upper := entries.getD (high round) default
  (entries.set (low round) (first round lower upper)).set (high round) (second round lower upper)

/-- Two rounds have no position in common. -/
def DisjointPairs (round other : ι) : Prop :=
  low round ≠ low other ∧ low round ≠ high other ∧ high round ≠ low other ∧
    high round ≠ high other

variable {default low high first second}

@[simp] theorem length_updatePair (entries : List α) (round : ι) :
    (updatePair default low high first second entries round).length = entries.length := by
  simp [updatePair]

theorem getD_updatePair_low (entries : List α) {round : ι} (hlow : low round < entries.length)
    (hdiffer : low round ≠ high round) :
    (updatePair default low high first second entries round).getD (low round) default =
      first round (entries.getD (low round) default) (entries.getD (high round) default) := by
  simp [updatePair, List.getD_eq_getElem?_getD, hdiffer.symm, hlow]

theorem getD_updatePair_high (entries : List α) {round : ι} (hhigh : high round < entries.length) :
    (updatePair default low high first second entries round).getD (high round) default =
      second round (entries.getD (low round) default) (entries.getD (high round) default) := by
  simp [updatePair, List.getD_eq_getElem?_getD, hhigh]

theorem getD_updatePair_of_ne (entries : List α) {round : ι} {position : ℕ}
    (hlow : position ≠ low round) (hhigh : position ≠ high round) :
    (updatePair default low high first second entries round).getD position default =
      entries.getD position default := by
  simp [updatePair, List.getD_eq_getElem?_getD, hlow.symm, hhigh.symm]

/-- A loop leaves the positions of no round. Assumes: the position is none of theirs. -/
theorem getD_foldl_updatePair_of_ne {rounds : List ι} {position : ℕ}
    (hother : ∀ round ∈ rounds, position ≠ low round ∧ position ≠ high round)
    (entries : List α) :
    (rounds.foldl (updatePair default low high first second) entries).getD position default =
      entries.getD position default := by
  induction rounds generalizing entries with
  | nil => rfl
  | cons round rounds ih =>
    obtain ⟨hlow, hhigh⟩ := hother round List.mem_cons_self
    rw [List.foldl_cons, ih fun other hmem ↦ hother other (List.mem_cons_of_mem _ hmem),
      getD_updatePair_of_ne _ hlow hhigh]

/-- A loop replaces the entries of a round by its functions of the entries before the loop. Assumes:
the rounds are disjoint, and the positions of each are two and within the list. -/
theorem foldl_updatePair {rounds : List ι} (hdisjoint : rounds.Pairwise (DisjointPairs low high))
    {entries : List α}
    (hwithin : ∀ round ∈ rounds, low round < entries.length ∧ high round < entries.length ∧
      low round ≠ high round) {round : ι} (hmem : round ∈ rounds) :
    (rounds.foldl (updatePair default low high first second) entries).getD (low round) default =
        first round (entries.getD (low round) default) (entries.getD (high round) default) ∧
      (rounds.foldl (updatePair default low high first second) entries).getD (high round) default =
        second round (entries.getD (low round) default) (entries.getD (high round) default) := by
  induction rounds generalizing entries with
  | nil => cases hmem
  | cons head rounds ih =>
    obtain ⟨hhead, hrest⟩ := List.pairwise_cons.mp hdisjoint
    rw [List.foldl_cons]
    obtain rfl | hmem := List.mem_cons.mp hmem
    · obtain ⟨hlow, hhigh, hdiffer⟩ := hwithin round List.mem_cons_self
      rw [getD_foldl_updatePair_of_ne fun other hother ↦
          ⟨(hhead other hother).1, (hhead other hother).2.1⟩,
        getD_foldl_updatePair_of_ne fun other hother ↦
          ⟨(hhead other hother).2.2.1, (hhead other hother).2.2.2⟩]
      exact ⟨getD_updatePair_low entries hlow hdiffer, getD_updatePair_high entries hhigh⟩
    · obtain ⟨hlowlow, hlowhigh, hhighlow, hhighhigh⟩ := hhead round hmem
      have hnext := @ih hrest (updatePair default low high first second entries head)
        (fun other hother ↦ by
          rw [length_updatePair]
          exact hwithin other (List.mem_cons_of_mem _ hother)) hmem
      rwa [getD_updatePair_of_ne _ hlowlow.symm hhighlow.symm,
        getD_updatePair_of_ne _ hlowhigh.symm hhighhigh.symm] at hnext

end Pairs

end Fluidic.Library
