import Mathlib.Data.List.Basic

/-!
# Runs of a partial step function

A step function takes a state and an input to the next state and an output, or fails. `Reaches` is
the relation of a whole run: the states and inputs it went through, in order, and the state it
ended in. Every step of a run satisfies a predicate on the state and the input before it; the
predicate that always holds gives all runs. `run` computes the same, and `trace` the states as well,
so that runs on concrete inputs can be evaluated.

`Reaches.invariant` is the rule by which a property of single steps becomes a property of every
state of every run.
-/

set_option autoImplicit false
set_option relaxedAutoImplicit false

namespace Fluidic.Library

section Runs

variable {σ ι ω : Type} {step : σ → ι → Option (σ × ω)} {allowed : σ → ι → Prop}

/-- A run from a state: the states and inputs it went through and the state it reached. -/
inductive Reaches (step : σ → ι → Option (σ × ω)) (allowed : σ → ι → Prop) (initial : σ) :
    List (σ × ι) → σ → Prop
  | start : Reaches step allowed initial [] initial
  | next {history : List (σ × ι)} {state state' : σ} {input : ι} {output : ω} :
      Reaches step allowed initial history state → allowed state input →
      step state input = some (state', output) →
      Reaches step allowed initial (history ++ [(state, input)]) state'

/-- Every step is allowed. -/
def anyStep : σ → ι → Prop := fun _ _ ↦ True

instance : DecidableRel (@anyStep σ ι) := fun _ _ ↦ isTrue trivial

/-- The state a list of inputs leads to, when every step succeeds and is allowed. -/
def run (step : σ → ι → Option (σ × ω)) (allowed : σ → ι → Prop) [DecidableRel allowed] :
    σ → List ι → Option σ
  | state, [] => some state
  | state, input :: inputs =>
    if allowed state input then
      (step state input).bind fun next ↦ run step allowed next.1 inputs
    else none

/-- The run of a list of inputs with the states it goes through, when every step succeeds and is
allowed. -/
def trace (step : σ → ι → Option (σ × ω)) (allowed : σ → ι → Prop) [DecidableRel allowed] :
    σ → List ι → Option (List (σ × ι) × σ)
  | state, [] => some ([], state)
  | state, input :: inputs =>
    if allowed state input then
      (step state input).bind fun next ↦ (trace step allowed next.1 inputs).map fun rest ↦
        ((state, input) :: rest.1, rest.2)
    else none

namespace Reaches

/-- A property that holds at the start and is kept by every allowed step holds at the end of every
run. Assumes: the property holds at the start, and every allowed step keeps it. -/
theorem invariant {initial : σ} {property : σ → Prop} (hinitial : property initial)
    (hstep : ∀ state input state' output, allowed state input → property state →
      step state input = some (state', output) → property state')
    {history : List (σ × ι)} {state : σ} (hreaches : Reaches step allowed initial history state) :
    property state := by
  induction hreaches with
  | start => exact hinitial
  | next _ hallowed hnext ih => exact hstep _ _ _ _ hallowed ih hnext

/-- A run continues a run. Assumes: the second run starts where the first ended. -/
theorem trans {initial middle final : σ} {first second : List (σ × ι)}
    (hfirst : Reaches step allowed initial first middle)
    (hsecond : Reaches step allowed middle second final) :
    Reaches step allowed initial (first ++ second) final := by
  induction hsecond with
  | start => rwa [List.append_nil]
  | next _ hallowed hnext ih =>
    rw [← List.append_assoc]
    exact ih.next hallowed hnext

/-- A relation that every step keeps up relates every state of a run to the one after it, and that
one to the state the run reached. Assumes: a property that holds at the start and is kept by every
step, and a reflexive and transitive relation that relates the states of each step from a state
with the property. -/
theorem rel_of_mem {initial : σ} {property : σ → Prop} {rel : σ → σ → Prop}
    (hinitial : property initial)
    (hstep : ∀ state input state' output, allowed state input → property state →
      step state input = some (state', output) → property state')
    (hrefl : ∀ state, rel state state)
    (htrans : ∀ first second third, rel first second → rel second third → rel first third)
    (hrel : ∀ state input state' output, allowed state input → property state →
      step state input = some (state', output) → rel state state')
    {history : List (σ × ι)} {state : σ} (hreaches : Reaches step allowed initial history state) :
    ∀ entry ∈ history, ∃ next output, step entry.1 entry.2 = some (next, output) ∧
      rel entry.1 next ∧ rel next state := by
  induction hreaches with
  | start => exact fun entry hentry ↦ absurd hentry List.not_mem_nil
  | next hbefore hallowed hnext ih =>
    intro entry hentry
    have hlast := hrel _ _ _ _ hallowed (hbefore.invariant hinitial hstep) hnext
    rw [List.mem_append, List.mem_singleton] at hentry
    rcases hentry with hearlier | rfl
    · obtain ⟨next, output, hserved, hfirst, hsecond⟩ := ih entry hearlier
      exact ⟨next, output, hserved, hfirst, htrans _ _ _ hsecond hlast⟩
    · exact ⟨_, _, hnext, hlast, hrefl _⟩

end Reaches

/-- A computed run is a run. Assumes: the computation reaches the state. -/
theorem reaches_of_run [DecidableRel allowed] {inputs : List ι} {initial final : σ}
    (hrun : run step allowed initial inputs = some final) :
    ∃ history, history.map Prod.snd = inputs ∧ Reaches step allowed initial history final := by
  induction inputs generalizing initial with
  | nil =>
    obtain rfl : initial = final := Option.some.inj hrun
    exact ⟨[], rfl, .start⟩
  | cons input inputs ih =>
    rw [run] at hrun
    split_ifs at hrun with hallowed
    obtain ⟨⟨state, output⟩, hstep, hrest⟩ := Option.bind_eq_some_iff.mp hrun
    obtain ⟨history, hinputs, hreaches⟩ := ih hrest
    refine ⟨(initial, input) :: history, by rw [List.map_cons, hinputs], ?_⟩
    have hfirst : Reaches step allowed initial [(initial, input)] state :=
      Reaches.start.next hallowed hstep
    exact hfirst.trans hreaches

/-- A traced run is a run, of the inputs. Assumes: the trace reaches the state. -/
theorem reaches_of_trace [DecidableRel allowed] {inputs : List ι} {initial final : σ}
    {history : List (σ × ι)} (htrace : trace step allowed initial inputs = some (history, final)) :
    history.map Prod.snd = inputs ∧ Reaches step allowed initial history final := by
  induction inputs generalizing initial history with
  | nil =>
    obtain ⟨rfl, rfl⟩ := Prod.mk.inj (Option.some.inj htrace)
    exact ⟨rfl, .start⟩
  | cons input inputs ih =>
    rw [trace] at htrace
    split_ifs at htrace with hallowed
    obtain ⟨⟨state, output⟩, hstep, hrest⟩ := Option.bind_eq_some_iff.mp htrace
    obtain ⟨⟨later, final'⟩, hlater, hsame⟩ := Option.map_eq_some_iff.mp hrest
    obtain ⟨rfl, rfl⟩ := Prod.mk.inj hsame
    obtain ⟨hinputs, hreaches⟩ := ih hlater
    have hfirst : Reaches step allowed initial [(initial, input)] state :=
      Reaches.start.next hallowed hstep
    exact ⟨by rw [List.map_cons, hinputs], hfirst.trans hreaches⟩

end Runs

end Fluidic.Library
