import Mathlib.Data.List.Basic

/-!
# Interleavings of two threads

Each of two threads is a list of atomic steps, and a schedule is a list of the steps of both in
which the steps of each are in their order. `perform` runs a schedule.

Two steps that do not conflict can be swapped. When every step of one thread comes after all steps
of the other with which it conflicts, the schedule does what the two threads do one after the other
(`perform_of_secondLeads`, `perform_of_firstLeads`).
-/

set_option autoImplicit false
set_option relaxedAutoImplicit false

namespace Fluidic.Library

/-! ### Performing steps -/

section Perform

variable {ι σ : Type}

/-- Perform steps one after the other, until one fails. -/
def perform (act : ι → σ → Option σ) (steps : List ι) (state : σ) : Option σ :=
  steps.foldlM (fun state step ↦ act step state) state

/-- Two steps have the same effect in both orders. -/
def Commutes (act : ι → σ → Option σ) (first second : ι) : Prop :=
  ∀ state, (act first state).bind (act second) = (act second state).bind (act first)

variable {act : ι → σ → Option σ}

theorem perform_cons (step : ι) (steps : List ι) (state : σ) :
    perform act (step :: steps) state = (act step state).bind (perform act steps) := rfl

theorem perform_append (steps steps' : List ι) (state : σ) :
    perform act (steps ++ steps') state = (perform act steps state).bind (perform act steps') :=
  List.foldlM_append

/-- A step moves behind steps with which it commutes. Assumes: the step commutes with each of the
others. -/
theorem perform_cons_of_commutes {step : ι} {steps : List ι}
    (hcommutes : ∀ other ∈ steps, Commutes act step other) (rest : List ι) (state : σ) :
    perform act (step :: (steps ++ rest)) state = perform act (steps ++ step :: rest) state := by
  induction steps generalizing state with
  | nil => rfl
  | cons other steps ih =>
    have hswap := hcommutes other List.mem_cons_self state
    have hrest (next : σ) := ih (fun later hlater ↦ hcommutes later (List.mem_cons_of_mem _ hlater))
      next
    calc perform act (step :: (other :: steps ++ rest)) state
        = ((act step state).bind (act other)).bind (perform act (steps ++ rest)) :=
          (Option.bind_assoc _ _ _).symm
      _ = ((act other state).bind (act step)).bind (perform act (steps ++ rest)) := by rw [hswap]
      _ = (act other state).bind fun next ↦ perform act (step :: (steps ++ rest)) next :=
          Option.bind_assoc _ _ _
      _ = perform act (other :: steps ++ step :: rest) state := by
          simp only [hrest]
          rfl

/-- A property that every step keeps holds after any steps. Assumes: the property holds before, and
every step keeps it. -/
theorem perform_invariant {property : σ → Prop} {steps : List ι} {state final : σ}
    (hstep : ∀ step ∈ steps, ∀ before after, act step before = some after → property before →
      property after)
    (hperform : perform act steps state = some final) (hstart : property state) :
    property final := by
  induction steps generalizing state with
  | nil =>
    obtain rfl := Option.some.inj hperform
    exact hstart
  | cons step steps ih =>
    obtain ⟨next, hnext, hrest⟩ := Option.bind_eq_some_iff.mp hperform
    exact ih (fun later hlater ↦ hstep later (List.mem_cons_of_mem _ hlater)) hrest
      (hstep step List.mem_cons_self state next hnext hstart)

end Perform

/-! ### Parts of a state -/

section Parts

variable {σ ρ : Type}

/-- A part of a state, which can be read and replaced. -/
structure Part (σ ρ : Type) where
  get : σ → ρ
  set : σ → ρ → σ
  get_set : ∀ state value, get (set state value) = value
  set_get : ∀ state, set state (get state) = state

namespace Part

variable {part : Part σ ρ} {step other : σ → Option σ}

/-- A step neither reads nor changes a part: with another value there it does the same around it. -/
def Frames (part : Part σ ρ) (step : σ → Option σ) : Prop :=
  ∀ state value, step (part.set state value) = (step state).map fun next ↦ part.set next value

/-- A step reads and changes a part and nothing else. -/
def Owns (part : Part σ ρ) (step : σ → Option σ) : Prop :=
  ∃ change : ρ → Option ρ, ∀ state, step state = (change (part.get state)).map (part.set state)

/-- A step that frames a part keeps its value. Assumes: the step frames the part, and succeeds. -/
theorem Frames.get_eq (hframes : part.Frames step) {state next : σ}
    (hstep : step state = some next) : part.get next = part.get state := by
  have hself := hframes state (part.get state)
  rw [part.set_get, hstep, Option.map_some, Option.some.injEq] at hself
  rw [hself, part.get_set]

/-- A step that frames a part commutes with one that works on that part only. Assumes: one step
frames the part, and the other one works on it only. -/
theorem Frames.bind_comm (hframes : part.Frames step) (howns : part.Owns other) (state : σ) :
    (step state).bind other = (other state).bind step := by
  obtain ⟨change, hchange⟩ := howns
  cases hstep : step state with
  | none =>
    rw [hchange state]
    cases change (part.get state) with
    | none => rfl
    | some value =>
      show none = step (part.set state value)
      rw [hframes, hstep]
      rfl
  | some next =>
    show other next = (other state).bind step
    rw [hchange next, hchange state, hframes.get_eq hstep]
    cases change (part.get state) with
    | none => rfl
    | some value =>
      show some (part.set next value) = step (part.set state value)
      rw [hframes, hstep]
      rfl

end Part

end Parts

/-! ### Two threads -/

section Threads

variable {α β σ : Type}

/-- The steps of the first thread in a schedule. -/
def lefts (schedule : List (α ⊕ β)) : List α := schedule.filterMap Sum.getLeft?

/-- The steps of the second thread in a schedule. -/
def rights (schedule : List (α ⊕ β)) : List β := schedule.filterMap Sum.getRight?

/-- A schedule of two threads. -/
structure Interleaves (first : List α) (second : List β) (schedule : List (α ⊕ β)) : Prop where
  left : lefts schedule = first
  right : rights schedule = second

/-- No step of the first thread comes before one of the second with which it conflicts. -/
def SecondLeads (conflicts : α → β → Prop) (schedule : List (α ⊕ β)) : Prop :=
  schedule.Pairwise fun earlier later ↦
    ∀ a ∈ earlier.getLeft?, ∀ b ∈ later.getRight?, ¬ conflicts a b

/-- No step of the second thread comes before one of the first with which it conflicts. -/
def FirstLeads (conflicts : α → β → Prop) (schedule : List (α ⊕ β)) : Prop :=
  schedule.Pairwise fun earlier later ↦
    ∀ b ∈ earlier.getRight?, ∀ a ∈ later.getLeft?, ¬ conflicts a b

instance (conflicts : α → β → Prop) [DecidableRel conflicts] (schedule : List (α ⊕ β)) :
    Decidable (SecondLeads conflicts schedule) :=
  inferInstanceAs (Decidable (schedule.Pairwise fun earlier later ↦
    ∀ a ∈ earlier.getLeft?, ∀ b ∈ later.getRight?, ¬ conflicts a b))

instance (conflicts : α → β → Prop) [DecidableRel conflicts] (schedule : List (α ⊕ β)) :
    Decidable (FirstLeads conflicts schedule) :=
  inferInstanceAs (Decidable (schedule.Pairwise fun earlier later ↦
    ∀ b ∈ earlier.getRight?, ∀ a ∈ later.getLeft?, ¬ conflicts a b))

variable {act : α ⊕ β → σ → Option σ} {conflicts : α → β → Prop} {schedule : List (α ⊕ β)}

theorem mem_lefts {a : α} : a ∈ lefts schedule ↔ .inl a ∈ schedule := by
  unfold lefts
  rw [List.mem_filterMap]
  constructor
  · rintro ⟨step, hstep, hleft⟩
    rwa [← Sum.getLeft?_eq_some_iff.mp hleft]
  · exact fun hstep ↦ ⟨.inl a, hstep, rfl⟩

theorem mem_rights {b : β} : b ∈ rights schedule ↔ .inr b ∈ schedule := by
  unfold rights
  rw [List.mem_filterMap]
  constructor
  · rintro ⟨step, hstep, hright⟩
    rwa [← Sum.getRight?_eq_some_iff.mp hright]
  · exact fun hstep ↦ ⟨.inr b, hstep, rfl⟩

theorem lefts_append (schedule schedule' : List (α ⊕ β)) :
    lefts (schedule ++ schedule') = lefts schedule ++ lefts schedule' :=
  List.filterMap_append

theorem rights_append (schedule schedule' : List (α ⊕ β)) :
    rights (schedule ++ schedule') = rights schedule ++ rights schedule' :=
  List.filterMap_append

/-- The first step of the second thread has steps of the first thread before it. Assumes: the step
is the first one of the second thread. -/
theorem eq_append_of_rights_eq_cons {b : β} {bs : List β} (hrights : rights schedule = b :: bs) :
    ∃ (before : List α) (after : List (α ⊕ β)),
      schedule = before.map .inl ++ .inr b :: after ∧ rights after = bs := by
  induction schedule with
  | nil => cases hrights
  | cons step schedule ih =>
    cases step with
    | inl a =>
      obtain ⟨before, after, rfl, hafter⟩ := ih hrights
      exact ⟨a :: before, after, rfl, hafter⟩
    | inr other =>
      obtain ⟨rfl, hafter⟩ := List.cons.inj hrights
      exact ⟨[], schedule, rfl, hafter⟩

theorem lefts_map_inl (steps : List α) : lefts (steps.map (Sum.inl : α → α ⊕ β)) = steps := by
  induction steps with
  | nil => rfl
  | cons step steps ih => exact congrArg (List.cons step) ih

theorem rights_map_inl (steps : List α) : rights (steps.map (Sum.inl : α → α ⊕ β)) = [] := by
  induction steps with
  | nil => rfl
  | cons step steps ih => exact ih

/-- Nothing comes behind the last step of a thread. Assumes: the step is the last one, occurs once,
and is in the first part. -/
theorem eq_nil_of_append_eq_append_singleton {first second others : List α} {last : α}
    (heq : first ++ second = others ++ [last]) (honce : last ∉ others) (hmem : last ∈ first) :
    second = [] := by
  rcases List.eq_nil_or_concat second with hnil | ⟨rest, other, rfl⟩
  · exact hnil
  · rw [List.concat_eq_append, ← List.append_assoc] at heq
    obtain ⟨hothers, -⟩ := List.append_inj' heq rfl
    rw [← hothers] at honce
    exact absurd (List.mem_append_left _ hmem) honce

/-- A schedule in which the second thread leads does what the second thread and then the first one
do. Assumes: steps that do not conflict commute, and no step of the first thread comes before one of
the second with which it conflicts. -/
theorem perform_of_secondLeads
    (hcommutes : ∀ a b, ¬ conflicts a b → Commutes act (.inl a) (.inr b))
    (hleads : SecondLeads conflicts schedule) (state : σ) :
    perform act schedule state =
      perform act ((rights schedule).map .inr ++ (lefts schedule).map .inl) state := by
  induction schedule generalizing state with
  | nil => rfl
  | cons step schedule ih =>
    obtain ⟨hstep, hrest⟩ := List.pairwise_cons.mp hleads
    cases step with
    | inr b =>
      rw [perform_cons, funext (ih hrest)]
      rfl
    | inl a =>
      have hmove : ∀ other ∈ (rights schedule).map (Sum.inr : β → α ⊕ β),
          Commutes act (.inl a) other := by
        intro other hother
        obtain ⟨b, hb, rfl⟩ := List.mem_map.mp hother
        exact hcommutes a b (hstep (.inr b) (mem_rights.mp hb) a rfl b rfl)
      rw [perform_cons, funext (ih hrest)]
      exact perform_cons_of_commutes hmove _ state

/-- A schedule in which the first thread leads does what the first thread and then the second one
do. Assumes: steps that do not conflict commute, and no step of the second thread comes before one
of the first with which it conflicts. -/
theorem perform_of_firstLeads
    (hcommutes : ∀ a b, ¬ conflicts a b → Commutes act (.inl a) (.inr b))
    (hleads : FirstLeads conflicts schedule) (state : σ) :
    perform act schedule state =
      perform act ((lefts schedule).map .inl ++ (rights schedule).map .inr) state := by
  induction schedule generalizing state with
  | nil => rfl
  | cons step schedule ih =>
    obtain ⟨hstep, hrest⟩ := List.pairwise_cons.mp hleads
    cases step with
    | inl a =>
      rw [perform_cons, funext (ih hrest)]
      rfl
    | inr b =>
      have hmove : ∀ other ∈ (lefts schedule).map (Sum.inl : α → α ⊕ β),
          Commutes act (.inr b) other := by
        intro other hother
        obtain ⟨a, ha, rfl⟩ := List.mem_map.mp hother
        exact fun state ↦
          (hcommutes a b (hstep (.inl a) (mem_lefts.mp ha) b rfl a rfl) state).symm
      rw [perform_cons, funext (ih hrest)]
      exact perform_cons_of_commutes hmove _ state

/-- The second thread leads when none of its steps conflicts with anything. Assumes: no step of the
second thread conflicts with anything. -/
theorem secondLeads_of_free (hfree : ∀ b ∈ rights schedule, ∀ a, ¬ conflicts a b) :
    SecondLeads conflicts schedule := by
  refine List.pairwise_of_forall_mem_list fun earlier _ later hlater a _ b hb ↦ hfree b ?_ a
  rw [mem_rights, ← Sum.getRight?_eq_some_iff.mp hb]
  exact hlater

/-- The first thread leads when only steps that conflict with nothing come before its last step.
Assumes: the schedule has such a part, and no step of the first thread behind it. -/
theorem firstLeads_append {schedule' : List (α ⊕ β)}
    (hfree : ∀ b ∈ rights schedule, ∀ a, ¬ conflicts a b) (hlast : lefts schedule' = []) :
    FirstLeads conflicts (schedule ++ schedule') := by
  have hright : ∀ later ∈ schedule', ∀ a ∈ later.getLeft?, False := by
    intro later hlater a ha
    rw [Option.mem_def, Sum.getLeft?_eq_some_iff] at ha
    rw [ha, ← mem_lefts, hlast] at hlater
    exact List.not_mem_nil hlater
  refine List.pairwise_append.mpr ⟨?_, ?_, fun earlier _ later hlater b _ a ha _ ↦
    hright later hlater a ha⟩
  · refine List.pairwise_of_forall_mem_list fun earlier hearlier later _ b hb a _ ↦ hfree b ?_ a
    rw [mem_rights, ← Sum.getRight?_eq_some_iff.mp hb]
    exact hearlier
  · exact List.pairwise_of_forall_mem_list fun earlier _ later hlater b _ a ha _ ↦
      hright later hlater a ha

end Threads

end Fluidic.Library
