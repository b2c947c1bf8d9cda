import Fluidic.Library.LabelledRun

/-!
# Runs of a system seen as runs of its core

A system whose every step is, on a part of its state, a run of the steps of that part: then its runs
are runs of the part. A property that every run of the part keeps is thereby kept by every run of
the system, whatever else the system does.
-/

set_option autoImplicit false
set_option relaxedAutoImplicit false

namespace Fluidic.Library

section Refinement

variable {σ ι ω σ' ι' ω' : Type} {step : σ → ι → Option (σ × ω)} {allowed : σ → ι → Prop}
  {step' : σ' → ι' → Option (σ' × ω')} {allowed' : σ' → ι' → Prop} {part : σ → σ'}

/-- One step, as a run. Assumes: the step is allowed and succeeds. -/
theorem Reaches.of_step {initial final : σ} {input : ι} {output : ω}
    (hallowed : allowed initial input) (hstep : step initial input = some (final, output)) :
    Reaches step allowed initial [(initial, input)] final :=
  Reaches.start.next hallowed hstep

/-- Every step of a run is allowed. Assumes: the entry is in the history of the run. -/
theorem Reaches.allowed_of_mem {initial final : σ} {history : List (σ × ι)}
    (hreaches : Reaches step allowed initial history final) {entry : σ × ι}
    (hentry : entry ∈ history) : allowed entry.1 entry.2 := by
  induction hreaches with
  | start => exact absurd hentry List.not_mem_nil
  | next _ hallowed _ ih =>
    rcases List.mem_append.mp hentry with hearlier | hlast
    · exact ih hearlier
    · obtain rfl := List.mem_singleton.mp hlast
      exact hallowed

/-- A property that holds at the start and is kept by every allowed step holds in every state that a
run went through. Assumes: the property holds at the start, and every allowed step keeps it. -/
theorem Reaches.invariant_of_mem {property : σ → Prop} {initial final : σ}
    {history : List (σ × ι)} (hreaches : Reaches step allowed initial history final)
    (hinitial : property initial)
    (hstep : ∀ state input state' output, allowed state input → property state →
      step state input = some (state', output) → property state')
    {entry : σ × ι} (hentry : entry ∈ history) : property entry.1 := by
  induction hreaches with
  | start => exact absurd hentry List.not_mem_nil
  | next hbefore _ _ ih =>
    rcases List.mem_append.mp hentry with hearlier | hlast
    · exact ih hearlier
    · obtain rfl := List.mem_singleton.mp hlast
      exact hbefore.invariant hinitial hstep

/-- A run of a system is a run of its part. Assumes: every allowed step is a run of the part. -/
theorem Reaches.refines
    (hrefines : ∀ state input state' output, allowed state input →
      step state input = some (state', output) →
      ∃ history, Reaches step' allowed' (part state) history (part state'))
    {initial final : σ} {history : List (σ × ι)}
    (hreaches : Reaches step allowed initial history final) :
    ∃ history', Reaches step' allowed' (part initial) history' (part final) := by
  induction hreaches with
  | start => exact ⟨[], .start⟩
  | next _ hallowed hstep ih =>
    obtain ⟨earlier, hearlier⟩ := ih
    obtain ⟨later, hlater⟩ := hrefines _ _ _ _ hallowed hstep
    exact ⟨earlier ++ later, hearlier.trans hlater⟩

end Refinement

end Fluidic.Library
