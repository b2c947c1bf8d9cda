import Mathlib.Data.List.Perm.Basic

/-!
# Loops that respect dependencies

A loop goes through a list and updates a state with each entry. Some entries need others to come
first. Two lists with the same entries, in neither of which an entry comes before one that it needs,
are related by exchanges of neighbours that do not need each other, although the lists between them
need not respect the dependencies. So the loop ends in the same state for both when such neighbours
commute (`foldl_agree_of_perm`).

The states may agree in another sense than equality, as long as every step of the loop keeps it. A
loop that can fail and whose steps all commute ends in the same way for all arrangements
(`foldlM_eq_of_perm`).
-/

set_option autoImplicit false
set_option relaxedAutoImplicit false

namespace Fluidic.Library

section Causal

variable {α σ : Type} {agree : σ → σ → Prop} {step : σ → α → σ} {needs : α → α → Prop}

/-- States that agree stay so through a loop. Assumes: every step keeps the agreement. -/
theorem foldl_agree
    (hstep : ∀ {state state'} entry, agree state state' →
      agree (step state entry) (step state' entry))
    (entries : List α) {state state' : σ} (hagree : agree state state') :
    agree (entries.foldl step state) (entries.foldl step state') := by
  induction entries generalizing state state' with
  | nil => exact hagree
  | cons entry entries ih => exact ih (hstep entry hagree)

/-- An entry can be moved to the front of a loop. Assumes: agreement is an equivalence that every
step keeps, neighbours that do not need each other commute, and the entry and those before it do not
need each other. -/
theorem foldl_agree_moveFront (hequivalence : Equivalence agree)
    (hstep : ∀ {state state'} entry, agree state state' →
      agree (step state entry) (step state' entry))
    (hcommute : ∀ state first second, ¬needs first second → ¬needs second first →
      agree (step (step state first) second) (step (step state second) first))
    {entry : α} (before after : List α)
    (hbefore : ∀ other ∈ before, ¬needs entry other ∧ ¬needs other entry) (state : σ) :
    agree ((before ++ entry :: after).foldl step state)
      ((entry :: (before ++ after)).foldl step state) := by
  induction before generalizing state with
  | nil => exact hequivalence.refl _
  | cons other before ih =>
    obtain ⟨hentry, hother⟩ := hbefore other List.mem_cons_self
    have hmoved := ih (fun another hmem ↦ hbefore another (List.mem_cons_of_mem _ hmem))
      (step state other)
    have hswapped := hcommute state other entry hother hentry
    exact hequivalence.trans hmoved (foldl_agree hstep (before ++ after) hswapped)

/-- A loop over two arrangements of the same entries ends in states that agree. Assumes: agreement
is an equivalence that every step keeps, neighbours that do not need each other commute, and in
neither arrangement an entry comes before one that it needs. -/
theorem foldl_agree_of_perm (hequivalence : Equivalence agree)
    (hstep : ∀ {state state'} entry, agree state state' →
      agree (step state entry) (step state' entry))
    (hcommute : ∀ state first second, ¬needs first second → ¬needs second first →
      agree (step (step state first) second) (step (step state second) first))
    {first second : List α} (hperm : first.Perm second)
    (hfirst : first.Pairwise fun earlier later ↦ ¬needs earlier later)
    (hsecond : second.Pairwise fun earlier later ↦ ¬needs earlier later) (state : σ) :
    agree (first.foldl step state) (second.foldl step state) := by
  induction first generalizing second state with
  | nil =>
    rw [hperm.nil_eq]
    exact hequivalence.refl _
  | cons entry rest ih =>
    obtain ⟨before, after, rfl⟩ := List.append_of_mem (hperm.subset List.mem_cons_self)
    have hrest : rest.Perm (before ++ after) :=
      (hperm.trans List.perm_middle).cons_inv
    obtain ⟨hentry, hfirst⟩ := List.pairwise_cons.mp hfirst
    obtain ⟨hbefore, hafter, hacross⟩ := List.pairwise_append.mp hsecond
    have hremoved : (before ++ after).Pairwise fun earlier later ↦ ¬needs earlier later :=
      List.pairwise_append.mpr ⟨hbefore, (List.pairwise_cons.mp hafter).2,
        fun earlier hearlier later hlater ↦
          hacross earlier hearlier later (List.mem_cons_of_mem _ hlater)⟩
    have hmoved := @foldl_agree_moveFront α σ agree step needs hequivalence hstep hcommute entry
      before after (fun other hother ↦
        ⟨hentry other (hrest.symm.subset (List.mem_append_left _ hother)),
          hacross other hother entry List.mem_cons_self⟩) state
    exact hequivalence.symm
      (hequivalence.trans hmoved (hequivalence.symm (ih hrest hfirst hremoved (step state entry))))

end Causal

/-- A loop that can fail ends in the same way for two arrangements of the same entries. Assumes: the
steps of the loop commute. -/
theorem foldlM_eq_of_perm {α σ : Type} {step : σ → α → Option σ} {first second : List α}
    (hperm : first.Perm second)
    (hcommute : ∀ one ∈ first, ∀ other ∈ first, ∀ state,
      ((step state one).bind fun next ↦ step next other) =
        (step state other).bind fun next ↦ step next one) (state : σ) :
    first.foldlM step state = second.foldlM step state := by
  induction hperm generalizing state with
  | nil => rfl
  | cons entry _ ih =>
    rw [List.foldlM_cons, List.foldlM_cons]
    refine Option.bind_congr fun next _ ↦ ih (fun one hone other hother ↦ ?_) next
    exact hcommute one (List.mem_cons_of_mem _ hone) other (List.mem_cons_of_mem _ hother)
  | swap one other rest =>
    have hswap := hcommute other List.mem_cons_self one
      (List.mem_cons_of_mem _ List.mem_cons_self) state
    simp only [List.foldlM_cons, bind, ← Option.bind_assoc]
    rw [hswap]
  | trans hfirst _ ih ih' =>
    refine (ih hcommute state).trans (ih' (fun one hone other hother ↦ ?_) state)
    exact hcommute one (hfirst.mem_iff.mpr hone) other (hfirst.mem_iff.mpr hother)

end Fluidic.Library
