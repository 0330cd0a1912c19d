import Vilan.Time.Debounce
import Mathlib.Data.List.Induction

/-!
# Debounces over runs

In every run, what is called is the callback handed over last, once, and not behind a cancel.  A
pending callback has a driving task that will read it, as long as none is handed over between the
end of a task's loop and its last step, and none that throws leaves a callback pending.
-/

namespace Vilan.Time

open List

/-! ### What is called -/

/-- The callback that stands: the last one handed over, if it was not called or dropped since. -/
def standing (trace : List Event) : Option Callback :=
  trace.foldl (fun standing event =>
    match event with
    | .ran fn => some fn
    | .called _ | .cancelled => none
    | .threw | .quiet => standing) none

/-- Each callback that is called was the last one handed over, was not dropped since, and is called
once. -/
structure Orderly (trace : List Event) : Prop where
  last : ∀ before fn after, trace = before ++ .called fn :: after →
    ∃ past since, before = past ++ .ran fn :: since ∧
      ∀ event ∈ since, event = .threw ∨ event = .quiet
  once : ∀ fn, trace.count (.called fn) ≤ 1

/-- A task that will read the pending callback. -/
def Task.Reads (timers : List Timer) : Task → Prop
  | .head | .calling _ => True
  | .waiting timer => timer < timers.length
  | .leaving => False

/-- A pending callback is not lost: a task will read it, unless a nursery was cancelled. -/
def Driven (system : System) : Prop :=
  system.debounce.pending ≠ none → system.nurseryCancelled = false →
    ∃ task ∈ system.tasks, task.Reads system.timers

/-- A step that does not lose a callback: none is handed over while a task is out of its loop, and
none that throws leaves one pending. -/
def Timely (system : System) : Event → Prop
  | .ran _ => Task.leaving ∉ system.tasks
  | .threw => system.debounce.pending = none
  | _ => True

/-! ### The last callback -/

theorem standing_append (trace : List Event) (event : Event) :
  standing (trace ++ [event]) =
    match event with
    | .ran fn => some fn
    | .called _ | .cancelled => none
    | .threw | .quiet => standing trace
  := by
  rw [standing, foldl_append]
  rfl

variable {trace : List Event} {event : Event} {system system' : System}

/-- The callback that stands was handed over, and nothing was done about it since. -/
theorem standing_spec {fn : Callback} (h : standing trace = some fn) :
  ∃ past since, trace = past ++ .ran fn :: since ∧
    ∀ event ∈ since, event = .threw ∨ event = .quiet
  := by
  induction trace using List.reverseRecOn with
  | nil => cases h
  | append_singleton trace event ih =>
    rw [standing_append] at h
    have silent : standing trace = some fn → event = .threw ∨ event = .quiet →
        ∃ past since, trace ++ [event] = past ++ .ran fn :: since ∧
          ∀ event ∈ since, event = .threw ∨ event = .quiet := by
      intro h event_eq
      obtain ⟨past, since, rfl, rest⟩ := ih h
      use past, since ++ [event]
      constructor
      · simp
      · intro other mem
        obtain mem | mem := mem_append.mp mem
        · apply rest other mem
        · rw [mem_singleton.mp mem]
          apply event_eq
    cases event with
    | ran other =>
      cases h
      use trace, []
      simp
    | called => cases h
    | cancelled => cases h
    | threw => apply silent h (.inl rfl)
    | quiet => apply silent h (.inr rfl)

/-- What a run has said of its callbacks. -/
structure Said (trace : List Event) (system : System) : Prop where
  pending : system.debounce.pending.map Prod.snd = standing trace
  fresh : ∀ fn, .ran fn ∈ trace ∨ .called fn ∈ trace → fn < system.handed
  uncalled : ∀ fn, standing trace = some fn → .called fn ∉ trace
  orderly : Orderly trace

/-- One more step: it hands the next callback over, or calls the one that stands, or neither. -/
theorem Said.snoc (h : Said trace system)
    (pending : system'.debounce.pending.map Prod.snd = standing (trace ++ [event]))
    (handed : system.handed ≤ system'.handed)
    (ran : ∀ fn, event = .ran fn → fn = system.handed ∧ fn < system'.handed)
    (called : ∀ fn, event = .called fn → standing trace = some fn) :
  Said (trace ++ [event]) system'
  := by
  have fresh : ∀ fn, .ran fn ∈ trace ∨ .called fn ∈ trace → fn < system'.handed := by
    intro fn mem
    apply Nat.lt_of_lt_of_le (h.fresh fn mem) handed
  constructor
  case pending => apply pending
  case fresh =>
    intro fn mem
    simp only [mem_append, mem_singleton] at mem
    obtain (mem | rfl) | (mem | rfl) := mem
    · apply fresh fn (.inl mem)
    · apply (ran fn rfl).2
    · apply fresh fn (.inr mem)
    · obtain ⟨past, since, heq, _⟩ := standing_spec (called fn rfl)
      apply fresh fn
      left
      rw [heq]
      simp
  case uncalled =>
    intro fn stands mem
    rw [standing_append] at stands
    rw [mem_append, mem_singleton] at mem
    cases event with
    | ran other =>
      cases stands
      obtain ⟨rfl, _⟩ := ran fn rfl
      obtain mem | mem := mem
      · apply Nat.lt_irrefl _ (h.fresh _ (.inr mem))
      · cases mem
    | called other => cases stands
    | cancelled => cases stands
    | threw =>
      obtain mem | mem := mem
      · apply h.uncalled fn stands mem
      · cases mem
    | quiet =>
      obtain mem | mem := mem
      · apply h.uncalled fn stands mem
      · cases mem
  case orderly =>
    constructor
    · intro before fn after split
      obtain rfl | ⟨after, final, rfl⟩ := eq_nil_or_concat after
      · obtain ⟨rfl, last⟩ := append_inj' split rfl
        rw [singleton_inj] at last
        apply standing_spec (called fn last)
      · rw [concat_eq_append, ← cons_append, ← append_assoc] at split
        obtain ⟨rfl, _⟩ := append_inj' split rfl
        apply h.orderly.last before fn after rfl
    · intro fn
      rw [count_append, count_singleton]
      split
      next same =>
        have none_ := count_eq_zero_of_not_mem (h.uncalled fn (called fn (by simpa using same)))
        omega
      next => apply h.orderly.once

/-- What a cancel leaves alone, and what it does not. -/
theorem System.cancel_frame (system : System) :
  system.cancel.debounce.pending = none ∧ system.cancel.handed = system.handed ∧
    system.cancel.debounce.running = system.debounce.running ∧
      system.cancel.tasks = system.tasks ∧
        system.cancel.timers.length = system.timers.length
  := by
  unfold System.cancel
  dsimp only
  split
  next => exact ⟨rfl, rfl, rfl, rfl, rfl⟩
  next => exact ⟨rfl, rfl, rfl, rfl, length_modify _ _ _⟩

/-- Every step calls the callback that stands, or none. -/
theorem System.Step.said (h : Said trace system) (step : Step system event system') :
  Said (trace ++ [event]) system'
  := by
  have quiet : ∀ {event : Event} {system' : System}, event = .threw ∨ event = .quiet →
      system'.debounce.pending = system.debounce.pending → system'.handed = system.handed →
        Said (trace ++ [event]) system' := by
    intro event system' silent pending handed
    apply h.snoc
    · rw [pending, h.pending, standing_append]
      obtain rfl | rfl := silent
      all_goals rfl
    · apply Nat.le_of_eq handed.symm
    · rintro fn rfl
      obtain silent | silent := silent
      all_goals cases silent
    · rintro fn rfl
      obtain silent | silent := silent
      all_goals cases silent
  have call : ∀ {fn : Callback} {moment : ℤ} {system' : System},
      system.debounce.pending = some (moment, fn) → system'.debounce.pending = none →
        system'.handed = system.handed → Said (trace ++ [.called fn]) system' := by
    intro fn moment system' pending dropped handed
    have stands : standing trace = some fn := by
      rw [← h.pending, pending]
      rfl
    apply h.snoc
    · rw [dropped, standing_append]
      rfl
    · apply Nat.le_of_eq handed.symm
    · nofun
    · rintro fn' same
      cases same
      apply stands
  cases step with
  | run now =>
    have pushed : ((system.run now).debounce.pending.map Prod.snd) = some system.handed ∧
        (system.run now).handed = system.handed + 1 := by
      unfold System.run
      dsimp only
      split
      next => use rfl
      next => use rfl
    apply h.snoc
    · rw [pushed.1, standing_append]
    · rw [pushed.2]
      apply Nat.le_succ
    · rintro fn ⟨⟩
      rw [pushed.2]
      use rfl, Nat.lt_succ_self _
    · nofun
  | cancel =>
    obtain ⟨dropped, handed, _⟩ := system.cancel_frame
    apply h.snoc
    · rw [dropped, standing_append]
      rfl
    · apply Nat.le_of_eq handed.symm
    · nofun
    · nofun
  | flush =>
    unfold System.flush
    split
    next moment latest pending =>
      obtain ⟨dropped, handed, _⟩ := system.cancel_frame
      apply call pending dropped handed
    next => exact quiet (.inr rfl) rfl rfl
  | fire timer => exact quiet (.inr rfl) rfl rfl
  | loop now task =>
    apply quiet (.inr rfl)
    · unfold System.loop
      dsimp only
      split
      all_goals rfl
    · unfold System.loop
      dsimp only
      split
      all_goals rfl
  | @wake before after timer started verdict now task found settled =>
    unfold System.wake
    dsimp only
    split
    next =>
      split
      next moment latest pending =>
        split
        next => exact call pending rfl rfl
        next => exact quiet (.inr rfl) rfl rfl
      next => exact quiet (.inr rfl) rfl rfl
    next => exact quiet (.inr rfl) rfl rfl
  | returns => exact quiet (.inr rfl) rfl rfl
  | throws => exact quiet (.inl rfl) rfl rfl
  | cancelNursery => exact quiet (.inr rfl) rfl rfl
  | unwind => exact quiet (.inr rfl) rfl rfl
  | finish => exact quiet (.inr rfl) rfl rfl

/-! ### Who reads the pending callback -/

/-- One task at most drives a debounce, and while a callback is pending it is not out of its
loop. -/
structure Driving (system : System) : Prop where
  single : system.debounce.running = false ∧ system.tasks = [] ∨
    system.debounce.running = true ∧ ∃ task, system.tasks = [task]
  started : ∀ timer, .waiting timer ∈ system.tasks → timer < system.timers.length
  kept : system.debounce.pending ≠ none → system.nurseryCancelled = false →
    system.debounce.running = true ∧ .leaving ∉ system.tasks

section

variable (h : Driving system)
include h

theorem Driving.driven : Driven system := by
  intro pending uncancelled
  obtain ⟨running, inside⟩ := h.kept pending uncancelled
  obtain ⟨idle, _⟩ | ⟨_, task, tasks⟩ := h.single
  · rw [running] at idle
    cases idle
  · use task
    rw [tasks] at inside ⊢
    use mem_singleton_self _
    cases task with
    | head => trivial
    | waiting timer =>
      apply h.started
      rw [tasks]
      apply mem_singleton_self
    | calling => trivial
    | leaving => apply absurd (mem_singleton_self _) inside

/-- A debounce with a task is driven by that task. -/
theorem Driving.tasks_eq {before after : List Task} {task : Task}
    (tasks : system.tasks = before ++ task :: after) :
  system.debounce.running = true ∧ before = [] ∧ after = []
  := by
  obtain ⟨_, none_⟩ | ⟨running, other, one⟩ := h.single
  · rw [none_] at tasks
    simp at tasks
  · use running
    rw [one] at tasks
    cases before with
    | nil =>
      cases tasks
      use rfl
    | cons first before => simp at tasks

/-- The task goes on, with what is pending as it was, or called. -/
theorem Driving.resume {before after : List Task} {task task' : Task}
    (tasks : system.tasks = before ++ task :: after)
    (tasks' : system'.tasks = before ++ task' :: after)
    (running : system'.debounce.running = system.debounce.running)
    (timers : system.timers.length ≤ system'.timers.length)
    (started : ∀ timer, task' = .waiting timer → timer < system'.timers.length)
    (kept : system'.debounce.pending ≠ none → system'.nurseryCancelled = false →
      task' ≠ .leaving) :
  Driving system'
  := by
  obtain ⟨was, rfl, rfl⟩ := h.tasks_eq tasks
  rw [nil_append] at tasks'
  rw [was] at running
  constructor
  case single =>
    right
    use running, task'
  case started =>
    intro timer mem
    rw [tasks'] at mem
    apply started timer (mem_singleton.mp mem).symm
  case kept =>
    intro pending uncancelled
    use running
    rw [tasks', mem_singleton]
    apply Ne.symm (kept pending uncancelled)

/-- A step that leaves the tasks alone, and makes nothing pending. -/
theorem Driving.same (tasks : system'.tasks = system.tasks)
    (running : system'.debounce.running = system.debounce.running)
    (timers : system'.timers.length = system.timers.length)
    (pending : system'.debounce.pending ≠ none → system.debounce.pending ≠ none)
    (uncancelled : system'.nurseryCancelled = false → system.nurseryCancelled = false) :
  Driving system'
  := by
  obtain ⟨single, started, kept⟩ := h
  constructor
  · rw [tasks, running]
    apply single
  · rw [tasks, timers]
    apply started
  · intro some_ none_
    rw [tasks, running]
    apply kept (pending some_) (uncancelled none_)

theorem Driving.cancel : Driving system.cancel := by
  obtain ⟨dropped, _, running, tasks, timers⟩ := system.cancel_frame
  apply h.same tasks running timers
  · intro pending
    apply absurd dropped pending
  · unfold System.cancel
    dsimp only
    split
    all_goals apply id

/-- A step that does not lose a callback leaves it to a task. -/
theorem System.Step.driving (step : Step system event system')
    (timely : Timely system event) :
  Driving system'
  := by
  cases step with
  | run now =>
    have inside : Task.leaving ∉ system.tasks := timely
    unfold System.run
    dsimp only
    obtain ⟨idle, none_⟩ | ⟨running, task, tasks⟩ := h.single
    · rw [if_neg (by simp [idle]), none_, nil_append]
      constructor
      · exact .inr ⟨rfl, .head, rfl⟩
      · intro timer mem
        cases mem_singleton.mp mem
      · intro _ _
        use rfl
        simp
    · rw [if_pos running]
      constructor
      · exact .inr ⟨running, task, tasks⟩
      · apply h.started
      · intro _ _
        use running
  | cancel => apply h.cancel
  | flush =>
    unfold System.flush
    split
    next => apply h.cancel
    next => apply h
  | fire timer => exact h.same rfl rfl (length_modify _ _ _) id id
  | loop now tasks =>
    unfold System.loop
    split
    next =>
      refine h.resume tasks rfl rfl ?_ ?_ nofun
      · rw [length_append]
        apply Nat.le_add_right
      · rintro timer ⟨⟩
        rw [length_append]
        apply Nat.lt_succ_self
    next none_ =>
      refine h.resume tasks rfl rfl (Nat.le_refl _) nofun ?_
      intro pending
      apply absurd none_ pending
  | wake now tasks found settled =>
    unfold System.wake
    dsimp only
    split
    next =>
      split
      next =>
        split
        next => exact h.resume tasks rfl rfl (Nat.le_refl _) nofun nofun
        next => exact h.resume tasks rfl rfl (Nat.le_refl _) nofun nofun
      next => exact h.resume tasks rfl rfl (Nat.le_refl _) nofun nofun
    next => exact h.resume tasks rfl rfl (Nat.le_refl _) nofun nofun
  | returns tasks => exact h.resume tasks rfl rfl (Nat.le_refl _) nofun nofun
  | throws tasks =>
    refine h.resume tasks rfl rfl (Nat.le_refl _) nofun ?_
    intro pending
    apply absurd timely pending
  | cancelNursery => exact h.same rfl rfl rfl id nofun
  | unwind tasks cancelled =>
    refine h.resume tasks rfl rfl (Nat.le_refl _) nofun ?_
    intro _ uncancelled
    rw [cancelled] at uncancelled
    cases uncancelled
  | finish tasks =>
    obtain ⟨_, rfl, rfl⟩ := h.tasks_eq tasks
    constructor
    · exact .inl ⟨rfl, rfl⟩
    · nofun
    · intro pending uncancelled
      obtain ⟨_, inside⟩ := h.kept pending uncancelled
      rw [tasks] at inside
      simp at inside

/-! ### Runs -/

end

end Vilan.Time
