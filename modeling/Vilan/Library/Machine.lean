import Mathlib.Data.List.Basic

/-!
# Runs of a labelled machine

A machine is a set of start states and a step relation whose steps carry an event, that is
what an observer sees of the step.  A run is a finite sequence of steps from a start state,
and its trace is the list of their events, oldest first.
-/

namespace Machine

variable {State Event : Type*} {start : State → Prop} {step : State → Event → State → Prop}

/-- `Run start step trace s` holds when the machine reaches `s` by steps whose events are
`trace`. -/
inductive Run (start : State → Prop) (step : State → Event → State → Prop) :
    List Event → State → Prop
  | start {s : State} (h : start s) : Run start step [] s
  | step {trace : List Event} {s s' : State} {event : Event}
      (run : Run start step trace s) (h : step s event s') :
      Run start step (trace ++ [event]) s'

variable {s : State} {trace : List Event}

/-- A property of the start states that every step preserves holds in every state a run
reaches. -/
theorem Run.invariant {P : State → Prop} (hstart : ∀ s, start s → P s)
    (hstep : ∀ s event s', P s → step s event s' → P s') (run : Run start step trace s) :
  P s
  := by
  induction run with
  | start h => apply hstart _ h
  | step _ h ih => apply hstep _ _ _ ih h

/-- A relation of traces to states that holds at the start and is carried by every step
holds of every run. -/
theorem Run.history {P : List Event → State → Prop} (hstart : ∀ s, start s → P [] s)
    (hstep : ∀ trace s event s', Run start step trace s → P trace s → step s event s' →
      P (trace ++ [event]) s') (run : Run start step trace s) :
  P trace s
  := by
  induction run with
  | start h => apply hstart _ h
  | step run h ih => apply hstep _ _ _ _ run ih h

/-- Every event of a run is the event of a step from a state that the events before it
lead to. -/
theorem Run.exists_step {before after : List Event} {event : Event}
    (run : Run start step (before ++ event :: after) s) :
  ∃ s₁ s₂, Run start step before s₁ ∧ step s₁ event s₂
  := by
  suffices h : ∀ trace s, Run start step trace s → ∀ before after,
      trace = before ++ event :: after → ∃ s₁ s₂, Run start step before s₁ ∧ step s₁ event s₂ by
    apply h _ _ run _ _ rfl
  intro trace s run
  induction run with
  | start => simp
  | @step trace s₁ s₂ last run h ih =>
    intro before after heq
    rcases List.eq_nil_or_concat after with rfl | ⟨after, final, rfl⟩
    · obtain ⟨rfl, hlast⟩ := List.append_inj' heq rfl
      rw [List.singleton_inj] at hlast
      subst hlast
      use s₁, s₂
    · rw [List.concat_eq_append, ← List.cons_append, ← List.append_assoc] at heq
      obtain ⟨rfl, -⟩ := List.append_inj' heq rfl
      apply ih _ _ rfl

/-- Two step relations that agree in the states the first one keeps to have the same runs. -/
theorem Run.congr {step' : State → Event → State → Prop} {P : State → Prop}
    (hstart : ∀ s, start s → P s) (hkeep : ∀ s event s', P s → step s event s' → P s')
    (hstep : ∀ s event s', P s → (step s event s' ↔ step' s event s')) :
  Run start step trace s ↔ Run start step' trace s
  := by
  have hkeep' : ∀ s event s', P s → step' s event s' → P s' := by
    intro s event s' hs h
    apply hkeep s event s' hs ((hstep s event s' hs).2 h)
  constructor
  · intro run
    induction run with
    | start h => apply Run.start h
    | step run h ih =>
      apply ih.step
      apply (hstep _ _ _ (run.invariant hstart hkeep)).1 h
  · intro run
    induction run with
    | start h => apply Run.start h
    | step run h ih =>
      apply ih.step
      apply (hstep _ _ _ (run.invariant hstart hkeep')).2 h

end Machine
