import Mathlib.Data.List.Basic

/-!
# Systems that go step by step

A system is a partial function from a state and an event to the next state; an
event that the function refuses is one that cannot happen there.  Conditions
and results about runs are conditions and results about each state on the way
and each step out of it.
-/

namespace Talea

variable {σ ε : Type*} (step : σ → ε → Option σ)

/-- The state behind a list of events. -/
def execSteps : σ → List ε → Option σ
  | state, [] => some state
  | state, event :: events => (step state event).bind fun next => execSteps next events

/-- Every step of a run meets a condition on the state it is taken in. -/
def StepsMeet (cond : σ → ε → Prop) : σ → List ε → Prop
  | _, [] => True
  | state, event :: events =>
      cond state event ∧ ∀ next, step state event = some next → StepsMeet cond next events

instance StepsMeet.decidable {cond : σ → ε → Prop} [∀ state event, Decidable (cond state event)] :
    ∀ state events, Decidable (StepsMeet step cond state events)
  | _, [] => isTrue trivial
  | state, event :: events =>
      letI : ∀ next, Decidable (StepsMeet step cond next events) := fun next =>
        decidable next events
      inferInstanceAs (Decidable
        (cond state event ∧ ∀ next ∈ step state event, StepsMeet step cond next events))

/-- A property of every state of a run, the first one and the last one
included. -/
def StatesMeet (holds : σ → Prop) : σ → List ε → Prop
  | state, [] => holds state
  | state, event :: events =>
      holds state ∧ ∀ next, step state event = some next → StatesMeet holds next events

variable {step}

theorem execSteps_cons {state final : σ} {event : ε} {events : List ε} :
    execSteps step state (event :: events) = some final ↔
      ∃ next, step state event = some next ∧ execSteps step next events = some final := by
  rw [execSteps, Option.bind_eq_some_iff]

theorem execSteps_concat {state final : σ} {events : List ε} {event : ε} :
    execSteps step state (events ++ [event]) = some final ↔
      ∃ mid, execSteps step state events = some mid ∧ step mid event = some final := by
  induction events generalizing state with
  | nil => simp [execSteps]
  | cons first events ih =>
      rw [List.cons_append, execSteps_cons]
      simp only [ih, execSteps_cons]
      constructor
      · rintro ⟨next, hnext, mid, hmid, hfinal⟩
        exact ⟨mid, ⟨next, hnext, hmid⟩, hfinal⟩
      · rintro ⟨mid, ⟨next, hnext, hmid⟩, hfinal⟩
        exact ⟨next, hnext, mid, hmid, hfinal⟩

theorem stepsMeet_concat {cond : σ → ε → Prop} {state mid : σ} {events : List ε} {event : ε}
    (hexec : execSteps step state events = some mid) :
    StepsMeet step cond state (events ++ [event]) ↔
      StepsMeet step cond state events ∧ cond mid event := by
  induction events generalizing state with
  | nil =>
      cases hexec
      exact ⟨fun h => ⟨trivial, h.1⟩, fun h => ⟨h.2, fun _ _ => trivial⟩⟩
  | cons first events ih =>
      obtain ⟨next, hnext, hrest⟩ := execSteps_cons.1 hexec
      constructor
      · rintro ⟨hfirst, hmeets⟩
        have hsplit := (ih hrest).1 (hmeets next hnext)
        refine ⟨⟨hfirst, fun next' hnext' => ?_⟩, hsplit.2⟩
        cases hnext.symm.trans hnext'
        exact hsplit.1
      · rintro ⟨⟨hfirst, hmeets⟩, hlast⟩
        refine ⟨hfirst, fun next' hnext' => ?_⟩
        cases hnext.symm.trans hnext'
        exact (ih hrest).2 ⟨hmeets next hnext, hlast⟩

theorem stepsMeet_of_forall {cond : σ → ε → Prop} (hcond : ∀ state event, cond state event)
    {state : σ} {events : List ε} : StepsMeet step cond state events := by
  induction events generalizing state with
  | nil => trivial
  | cons event events ih => exact ⟨hcond _ _, fun _ _ => ih⟩

/-- The last state has what all states have. -/
theorem StatesMeet.last {holds : σ → Prop} {state final : σ} {events : List ε}
    (hmeet : StatesMeet step holds state events)
    (hexec : execSteps step state events = some final) : holds final := by
  induction events generalizing state with
  | nil =>
      cases hexec
      exact hmeet
  | cons event events ih =>
      obtain ⟨next, hnext, hrest⟩ := execSteps_cons.1 hexec
      exact ih (hmeet.2 next hnext) hrest

/-- The step behind a list of events meets what all steps meet. -/
theorem StepsMeet.last {cond : σ → ε → Prop} {state final : σ} {events : List ε} {event : ε}
    (hmeets : StepsMeet step cond state (events ++ [event]))
    (hexec : execSteps step state events = some final) : cond final event := by
  induction events generalizing state with
  | nil =>
      cases hexec
      exact hmeets.1
  | cons first events ih =>
      obtain ⟨next, hnext, hrest⟩ := execSteps_cons.1 hexec
      exact ih (hmeets.2 next hnext) hrest

theorem StepsMeet.and {left right : σ → ε → Prop} {state : σ} {events : List ε}
    (hleft : StepsMeet step left state events) (hright : StepsMeet step right state events) :
    StepsMeet step (fun state event => left state event ∧ right state event) state events := by
  induction events generalizing state with
  | nil => trivial
  | cons event events ih =>
      exact ⟨⟨hleft.1, hright.1⟩, fun next hnext => ih (hleft.2 next hnext) (hright.2 next hnext)⟩

section Invariant

variable {Inv : σ → Prop} {cond : σ → ε → Prop}

/-- What every step that meets the condition keeps, and what then follows in
each state and for each step, holds along the run. -/
theorem invariant_run {holds : σ → Prop} {ensures : σ → ε → Prop}
    (hstep : ∀ state event next, Inv state → cond state event → step state event = some next →
      Inv next)
    (hholds : ∀ state, Inv state → holds state)
    (hensures : ∀ state event, Inv state → cond state event → ensures state event)
    {state : σ} (hinit : Inv state) {events : List ε}
    (hmeets : StepsMeet step cond state events) :
    StatesMeet step holds state events ∧ StepsMeet step ensures state events := by
  induction events generalizing state with
  | nil => exact ⟨hholds state hinit, trivial⟩
  | cons event events ih =>
      obtain ⟨hcond, hrest⟩ := hmeets
      have hnext := fun next hevent =>
        ih (hstep state event next hinit hcond hevent) (hrest next hevent)
      exact ⟨⟨hholds state hinit, fun next hevent => (hnext next hevent).1⟩,
        hensures state event hinit hcond, fun next hevent => (hnext next hevent).2⟩

/-- What every step keeps, holds behind every run. -/
theorem invariant_exec (hstep : ∀ state event next, Inv state → step state event = some next →
    Inv next) {state final : σ} (hinit : Inv state) {events : List ε}
    (hexec : execSteps step state events = some final) : Inv final := by
  induction events generalizing state with
  | nil =>
      cases hexec
      exact hinit
  | cons event events ih =>
      obtain ⟨next, hnext, hrest⟩ := execSteps_cons.1 hexec
      exact ih (hstep state event next hinit hnext) hrest

theorem statesMeet_of_invariant {holds : σ → Prop}
    (hstep : ∀ state event next, Inv state → cond state event → step state event = some next →
      Inv next)
    (hholds : ∀ state, Inv state → holds state) {state : σ} (hinit : Inv state) {events : List ε}
    (hmeets : StepsMeet step cond state events) : StatesMeet step holds state events := by
  have hrun : StatesMeet step holds state events ∧ StepsMeet step (fun _ _ => True) state events :=
    invariant_run hstep hholds (fun _ _ _ _ => trivial) hinit hmeets
  exact hrun.1

end Invariant

end Talea
