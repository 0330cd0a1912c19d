import Vilan.Reactive.Transient

/-!
# The latest task wins

In every run of a seal the transient shows the outcome of the newest task that was started before
the release, over the value of the last success that was applied.
-/

namespace Vilan.Seal

open List Option

variable {T E : Type} {arm : Seal T E}

/-! ### Histories that grow -/

theorem unreleased_append_of_not_mem {trace : List (Event arm)} (held : .release ∉ trace)
    (more : List (Event arm)) :
  unreleased (trace ++ more) = trace ++ unreleased more
  := by
  induction trace with
  | nil => rfl
  | cons event trace ih =>
    rw [mem_cons, not_or] at held
    cases event with
    | release => exact absurd rfl held.1
    | change => rw [cons_append, unreleased, ih held.2, cons_append]
    | complete task outcome => rw [cons_append, unreleased, ih held.2, cons_append]

theorem unreleased_of_not_mem {trace : List (Event arm)} (held : .release ∉ trace) :
  unreleased trace = trace
  := by
  have whole := unreleased_append_of_not_mem held []
  rw [append_nil] at whole
  rw [whole, unreleased, append_nil]

theorem unreleased_append {trace more : List (Event arm)} (released : .release ∈ trace) :
  unreleased (trace ++ more) = unreleased trace
  := by
  induction trace with
  | nil => cases released
  | cons event trace ih =>
    cases event with
    | release => rfl
    | change =>
      have rest := ih ((mem_cons.mp released).resolve_left (by nofun))
      rw [cons_append, unreleased, unreleased, rest]
    | complete task outcome =>
      have rest := ih ((mem_cons.mp released).resolve_left (by nofun))
      rw [cons_append, unreleased, unreleased, rest]

theorem changes_append (trace more : List (Event arm)) :
  changes (trace ++ more) = changes trace + changes more
  := by
  induction trace with
  | nil => simp [changes]
  | cons event trace ih =>
    cases event with
    | change => simp only [cons_append, changes, ih]; omega
    | complete task outcome => simp only [cons_append, changes, ih]
    | release => simp only [cons_append, changes, ih]

theorem applied_append (count : ℕ) (trace more : List (Event arm)) :
  applied count (trace ++ more) = applied count trace ++ applied (count + changes trace) more
  := by
  induction trace generalizing count with
  | nil => rfl
  | cons event trace ih =>
    cases event with
    | change =>
      rw [cons_append, applied, applied, ih, changes, Nat.add_right_comm, Nat.add_assoc]
    | release => rw [cons_append, applied, applied, ih, changes]
    | complete task outcome =>
      rw [cons_append, applied, applied, changes]
      split
      next =>
        split
        next => rw [ih, cons_append]
        next => rw [ih]
      next => rw [ih]

theorem stale_change (trace : List (Event arm)) : stale (trace ++ [.change]) = stale trace := by
  rw [stale, stale, applied_append]
  simp [applied]

variable {outcome : arm.Outcome} {task : ℕ} {state : TransientState T E}

/-- A success of the newest task is the last one that was applied. -/
theorem stale_success {trace : List (Event arm)} {value : T} (newest : task + 1 = changes trace)
    (success : arm.answer outcome = some (.ok value)) :
  stale (trace ++ [.complete task outcome]) = some value
  := by
  rw [stale, applied_append, applied, success]
  simp [newest, applied]

/-- What is no success of the newest task is not applied. -/
theorem stale_other {trace : List (Event arm)}
    (other : task + 1 = changes trace → ∀ value, arm.answer outcome ≠ some (.ok value)) :
  stale (trace ++ [.complete task outcome]) = stale trace
  := by
  rw [stale, stale, applied_append, applied]
  split
  next value success =>
    have newer : task + 1 ≠ 0 + changes trace := by
      rw [Nat.zero_add]
      intro newest
      apply other newest value success
    rw [if_neg newer, applied, append_nil]
  next => rw [applied, append_nil]

/-! ### What a run keeps -/

/-- What holds of a seal after a history. -/
structure Sound (trace : List (Event arm)) (system : System T E) : Prop where
  subscribed : system.subscribed = true ↔ .release ∉ trace
  started : system.started.length = changes (unreleased trace)
  claims : ∀ (task : ℕ) (mine : ℤ) (done : Bool), system.started[task]? = some (mine, done) → mine = task + 1
  waiting : ∀ (task : ℕ) (mine : ℤ), system.started[task]? = some (mine, false) →
    ∀ outcome, .complete task outcome ∉ trace
  completed : ∀ task outcome, .complete task outcome ∈ trace → task < system.started.length
  live : system.subscribed = true → system.transient.generation = system.started.length
  retired : system.subscribed = false → system.started.length < system.transient.generation
  latest : system.transient.cell.latest = stale (unreleased trace)
  shows : Shows (unreleased trace) system.transient.cell

variable {trace : List (Event arm)} {system system' : System T E}

theorem sound_start {system : System T E} (start : Start system) :
  Sound ([] : List (Event arm)) system
  := by
  subst start
  constructor
  · simp
  · rfl
  · simp
  · simp
  · simp
  · intro _
    rfl
  · intro released
    cases released
  · rfl
  · rfl

theorem refreshed_latest (state : TransientState T E) : state.refreshed.latest = state.latest := by
  rw [TransientState.refreshed]
  cases latest : state.latest with
  | none => rfl
  | some value => rfl

/-- A change starts a task, which runs. -/
theorem Sound.change (sound : Sound trace system) (step : Step system (.change : Event arm) system') :
  Sound (trace ++ [.change]) system'
  := by
  obtain ⟨subscribed, started, claims, waiting, completed, live, retired, latest, shows⟩ := sound
  simp only [Step, System.step, Transient.claim] at step
  split at step
  next follows =>
    rw [some_inj] at step
    subst step
    have held := subscribed.mp follows
    have held' : .release ∉ trace ++ [(.change : Event arm)] := by simp [held]
    have same : unreleased (trace ++ [(.change : Event arm)]) = trace ++ [.change] :=
      unreleased_of_not_mem held'
    rw [unreleased_of_not_mem held] at started latest shows
    have generation := live follows
    constructor
    · simp [follows, held]
    · rw [same, changes_append, length_append, started]
      rfl
    · intro task mine done claim
      rw [getElem?_append] at claim
      split at claim
      next => apply claims task mine done claim
      next le =>
        rw [getElem?_singleton] at claim
        split at claim
        next zero =>
          rw [some_inj, Prod.mk.injEq] at claim
          omega
        next => cases claim
    · intro task mine claim outcome
      rw [mem_append, not_or]
      refine ⟨?_, by simp⟩
      intro mem
      rw [getElem?_append_left (completed task outcome mem)] at claim
      apply waiting task mine claim outcome mem
    · intro task outcome mem
      rw [mem_append] at mem
      have before : .complete task outcome ∈ trace := mem.resolve_right (by simp)
      have := completed task outcome before
      rw [length_append]
      omega
    · intro _
      simp [generation]
    · intro unsubscribed
      rw [follows] at unsubscribed
      cases unsubscribed
    · rw [same, stale_change, refreshed_latest, latest]
    · have newest : changes (trace ++ [(.change : Event arm)]) = changes trace + 1 := by
        rw [changes_append]
        rfl
      have runs (outcome : arm.Outcome) :
          .complete (changes trace) outcome ∉ trace ++ [(.change : Event arm)] := by
        rw [mem_append, not_or]
        refine ⟨?_, by simp⟩
        intro mem
        have := completed _ outcome mem
        omega
      rw [Shows, same, newest, stale_change]
      refine ⟨?_, ?_, ?_⟩
      · intro outcome value mem
        cases runs outcome mem
      · intro outcome error mem
        cases runs outcome mem
      · intro _
        rw [← latest]
        rfl
  next => cases step

/-- A release leaves the state as it is. -/
theorem Sound.release (sound : Sound trace system)
    (step : Step system (.release : Event arm) system') :
  Sound (trace ++ [.release]) system'
  := by
  obtain ⟨subscribed, started, claims, waiting, completed, live, retired, latest, shows⟩ := sound
  rw [Step, System.step, some_inj] at step
  subst step
  have same : unreleased (trace ++ [(.release : Event arm)]) = unreleased trace := by
    by_cases released : .release ∈ trace
    · apply unreleased_append released
    · rw [unreleased_append_of_not_mem released, unreleased_of_not_mem released, unreleased,
        append_nil]
  constructor
  · simp
  · rw [same]
    apply started
  · apply claims
  · intro task mine claim outcome
    rw [mem_append, not_or]
    refine ⟨waiting task mine claim outcome, by simp⟩
  · intro task outcome mem
    rw [mem_append] at mem
    apply completed task outcome (mem.resolve_right (by simp))
  · intro subscribed
    cases subscribed
  · intro _
    change (system.started.length : ℤ) < system.transient.generation + 1
    cases follows : system.subscribed with
    | true =>
      have := live follows
      omega
    | false =>
      have := retired follows
      omega
  · rw [same]
    apply latest
  · rw [same]
    apply shows

/-- A completion of a superseded task, or behind the release, changes nothing. -/
theorem Sound.settling_superseded (sound : Sound trace system) {mine : ℤ} {done : Bool}
    (claim : system.started[task]? = some (mine, done)) (outcome : arm.Outcome)
    (superseded : system.subscribed = true → task + 1 ≠ system.started.length) :
  arm.settling system.transient mine outcome = system.transient
  := by
  have mine_eq := sound.claims task mine done claim
  have lt : task < system.started.length := (List.getElem?_eq_some_iff.mp claim).1
  have stale_claim : system.transient.current mine = false := by
    rw [Transient.current, beq_eq_false_iff_ne]
    cases follows : system.subscribed with
    | true =>
      have := sound.live follows
      have := superseded follows
      omega
    | false =>
      have := sound.retired follows
      omega
  rw [arm.settling_eq]
  cases arm.answer outcome with
  | none => rfl
  | some answered =>
    change system.transient.settle mine answered = _
    unfold Transient.settle
    rw [if_neg (by simp [stale_claim])]

/-- What an answer makes of the state of a transient. -/
def answered (state : TransientState T E) : Option (Except E T) → TransientState T E
  | some (.ok value) => .ready value
  | some (.error error) => state.fail error
  | none => state

/-- What the outcome of the newest task makes of the transient. -/
theorem settling_newest (transient : Transient T E) (outcome : arm.Outcome) :
  (arm.settling transient transient.generation outcome).cell =
    answered transient.cell (arm.answer outcome)
  := by
  have current : transient.current transient.generation = true := beq_self_eq_true _
  rw [arm.settling_eq]
  cases arm.answer outcome with
  | none => rfl
  | some answered =>
    change (transient.settle transient.generation answered).cell = _
    unfold Transient.settle
    rw [if_pos current]
    cases answered with
    | ok value => rfl
    | error error => rfl

theorem settling_generation (transient : Transient T E) (mine : ℤ) (outcome : arm.Outcome) :
  (arm.settling transient mine outcome).generation = transient.generation
  := by
  rw [arm.settling_eq]
  cases arm.answer outcome with
  | none => rfl
  | some answered =>
    change (transient.settle mine answered).generation = _
    unfold Transient.settle
    split
    next =>
      cases answered with
      | ok value => rfl
      | error error => rfl
    next => rfl

theorem changes_complete (trace : List (Event arm)) (task : ℕ) (outcome : arm.Outcome) :
  changes (trace ++ [.complete task outcome]) = changes trace
  := by
  rw [changes_append]
  rfl

/-- What a transient shows does not depend on the completion of a task that is not the newest. -/
theorem Shows.superseded (shows : Shows trace state) (older : task + 1 ≠ changes trace) :
  Shows (trace ++ [.complete task outcome]) state
  := by
  have same : stale (trace ++ [.complete task outcome]) = stale trace :=
    stale_other fun newest => absurd newest older
  rw [Shows, changes_complete, same]
  rw [Shows] at shows
  cases newest : changes trace with
  | zero =>
    rw [newest] at shows
    apply shows
  | succ newest' =>
    rw [newest] at shows
    obtain ⟨succeeded, failed, runs⟩ := shows
    have before {other : arm.Outcome}
        (mem : .complete newest' other ∈ trace ++ [.complete task outcome]) :
        .complete newest' other ∈ trace := by
      rw [mem_append, mem_singleton] at mem
      rcases mem with mem | eq
      · apply mem
      · cases eq
        omega
    refine ⟨?_, ?_, ?_⟩
    · intro other value mem
      apply succeeded other value (before mem)
    · intro other error mem
      apply failed other error (before mem)
    · intro silent
      apply runs
      intro other mem
      apply silent
      apply mem_append_left _ mem

/-- The first completion of the newest task decides what a transient shows. -/
theorem shows_newest (shows : Shows trace state) (newest : changes trace = task + 1)
    (waiting : ∀ other, .complete task other ∉ trace) (latest : state.latest = stale trace) :
  Shows (trace ++ [.complete task outcome]) (answered state (arm.answer outcome))
  := by
  have once {other : arm.Outcome} (mem : .complete task other ∈ trace ++ [.complete task outcome]) :
      other = outcome := by
    rw [mem_append, mem_singleton] at mem
    rcases mem with mem | eq
    · cases waiting other mem
    · cases eq
      rfl
  have here : .complete task outcome ∈ trace ++ [.complete task outcome] :=
    mem_append_right _ (mem_singleton_self _)
  rw [Shows, newest] at shows
  rw [Shows, changes_complete, newest]
  refine ⟨?_, ?_, ?_⟩
  · intro other value mem success
    rw [once mem] at success
    rw [success]
    rfl
  · intro other error mem failure
    rw [once mem] at failure
    have same : stale (trace ++ [.complete task outcome]) = stale trace := by
      apply stale_other
      intro _ value success
      rw [failure] at success
      cases success
    rw [failure, same, ← latest]
    rfl
  · intro silent
    have none_ := silent outcome here
    have same : stale (trace ++ [.complete task outcome]) = stale trace := by
      apply stale_other
      intro _ value success
      rw [none_] at success
      cases success
    rw [none_, same]
    apply shows.2.2
    intro other mem
    cases waiting other mem

/-- The value that a transient holds behind the completion of the newest task. -/
theorem latest_newest (newest : changes trace = task + 1) (latest : state.latest = stale trace) :
  (answered state (arm.answer outcome)).latest = stale (trace ++ [.complete task outcome])
  := by
  cases answer : arm.answer outcome with
  | none =>
    rw [stale_other]
    · apply latest
    · intro _ value success
      rw [answer] at success
      cases success
  | some answered =>
    cases answered with
    | ok value => rw [stale_success newest.symm answer]; rfl
    | error error =>
      rw [stale_other]
      · apply latest
      · intro _ value success
        rw [answer] at success
        cases success

/-- A completion of the newest task settles the transient; any other one leaves it. -/
theorem Sound.complete (sound : Sound trace system)
    (step : Step system (.complete task outcome) system') :
  Sound (trace ++ [.complete task outcome]) system'
  := by
  rw [Step, System.step] at step
  split at step
  next mine claim =>
    rw [some_inj] at step
    subst step
    have mine_eq := sound.claims task mine false claim
    have lt : task < system.started.length := (List.getElem?_eq_some_iff.mp claim).1
    have unchanged := sound.settling_superseded claim outcome
    have settled := settling_newest system.transient outcome
    obtain ⟨subscribed, started, claims, waiting, completed, live, retired, latest, shows⟩ := sound
    have shown : (arm.settling system.transient mine outcome).cell.latest =
          stale (unreleased (trace ++ [.complete task outcome])) ∧
        Shows (unreleased (trace ++ [.complete task outcome]))
          (arm.settling system.transient mine outcome).cell := by
      cases follows : system.subscribed with
      | false =>
        have released : .release ∈ trace := by
          by_contra held
          rw [subscribed.mpr held] at follows
          cases follows
        rw [unchanged (by simp [follows]), unreleased_append released]
        exact ⟨latest, shows⟩
      | true =>
        have held := subscribed.mp follows
        have generation := live follows
        rw [unreleased_of_not_mem held] at started latest shows
        rw [unreleased_append_of_not_mem held, unreleased, unreleased]
        by_cases newest : task + 1 = system.started.length
        · have current : mine = system.transient.generation := by omega
          have count : changes trace = task + 1 := by omega
          rw [current, settled]
          refine ⟨latest_newest count latest, ?_⟩
          apply shows_newest shows count (waiting task mine claim) latest
        · have older : task + 1 ≠ changes trace := by omega
          rw [unchanged fun _ => newest, stale_other fun newest => absurd newest older]
          exact ⟨latest, shows.superseded older⟩
    constructor
    · rw [subscribed]
      simp
    · rw [length_set, started]
      by_cases released : .release ∈ trace
      · rw [unreleased_append released]
      · rw [unreleased_append_of_not_mem released, unreleased_of_not_mem released, unreleased,
          unreleased, changes_complete]
    · intro task' mine' done' claim'
      rw [getElem?_set] at claim'
      split at claim'
      next same =>
        rw [some_inj, Prod.mk.injEq] at claim'
        omega
      next => apply claims task' mine' done' claim'
    · intro task' mine' claim' other
      rw [getElem?_set] at claim'
      split at claim'
      next same =>
        rw [some_inj, Prod.mk.injEq] at claim'
        cases claim'.2
      next different =>
        rw [mem_append, mem_singleton, not_or]
        refine ⟨waiting task' mine' claim' other, ?_⟩
        intro eq
        cases eq
        contradiction
    · intro task' other mem
      rw [length_set]
      rw [mem_append, mem_singleton] at mem
      rcases mem with mem | eq
      · apply completed task' other mem
      · cases eq
        apply lt
    · intro follows
      rw [settling_generation, length_set]
      apply live follows
    · intro unsubscribed
      rw [settling_generation, length_set]
      apply retired unsubscribed
    · apply shown.1
    · apply shown.2
  next => cases step

theorem Run.sound (run : Run arm trace system) : Sound trace system := by
  induction run with
  | start h => apply sound_start h
  | @step trace system system' event _ h ih =>
    cases event with
    | change => apply ih.change h
    | complete task outcome => apply ih.complete h
    | release => apply ih.release h

/-- The latest task wins.  In every run the transient shows the outcome of the newest task that was
started before the release, with the value of the last success that was applied; and a completion
of a superseded task, or one behind the release, changes nothing. -/
theorem Run.latest_wins (run : Run arm trace system) :
  Shows (unreleased trace) system.transient.cell ∧
    ∀ task outcome system', Step system (.complete task outcome : Event arm) system' →
      .release ∈ trace ∨ task + 1 ≠ changes (unreleased trace) →
        system'.transient = system.transient
  := by
  have sound := run.sound
  refine ⟨sound.shows, ?_⟩
  intro task outcome system' step superseded
  rw [Step, System.step] at step
  split at step
  next mine claim =>
    rw [some_inj] at step
    subst step
    apply sound.settling_superseded claim
    intro follows newest
    rcases superseded with released | older
    · apply sound.subscribed.mp follows released
    · rw [← sound.started] at older
      apply older newest
  next => cases step

/-- A reply to an old question arrives behind the reply to the new one. -/
def lateReply : List (Event (tasks (T := ℕ))) :=
  [.change, .change, .complete 1 (.ok 5), .complete 0 (.ok 3)]

theorem lateReply_run :
  Run tasks lateReply ⟨⟨.ready 5, 2⟩, [((1 : ℤ), true), (2, true)], true⟩
  := by
  have asks : Step ⟨.pending, [], true⟩ (.change : Event (tasks (T := ℕ)))
      ⟨⟨.pending, 1⟩, [(1, false)], true⟩ := rfl
  have asksAgain : Step ⟨⟨.pending, 1⟩, [(1, false)], true⟩ (.change : Event (tasks (T := ℕ)))
      ⟨⟨.pending, 2⟩, [(1, false), (2, false)], true⟩ := rfl
  have replies : Step ⟨⟨.pending, 2⟩, [(1, false), (2, false)], true⟩
      (.complete 1 (.ok 5) : Event (tasks (T := ℕ)))
      ⟨⟨.ready 5, 2⟩, [(1, false), (2, true)], true⟩ := rfl
  have late : Step ⟨⟨.ready 5, 2⟩, [(1, false), (2, true)], true⟩
      (.complete 0 (.ok 3) : Event (tasks (T := ℕ)))
      ⟨⟨.ready 5, 2⟩, [(1, true), (2, true)], true⟩ := rfl
  have fresh : Run (tasks (T := ℕ)) [] ⟨.pending, [], true⟩ := .start rfl
  exact (((fresh.step asks).step asksAgain).step replies).step late

/-- The reply to the old question is dropped. -/
theorem lateReply_dropped : Shows (unreleased lateReply) (.ready 5) :=
  (Run.latest_wins lateReply_run).1

end Vilan.Seal
