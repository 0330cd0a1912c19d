import Vilan.Executor.Joins

/-!
# The body of a call ends once

A `nursery_run` has a number of its own, and its body is one of the frames of the task that called
it.  When the body has ended its frame is gone, so no call of the log has two ends.
-/

namespace Vilan.Executor

open List Function

variable {V : Type*}

/-- The call whose body a frame is. -/
def Frame.bodyCall : Frame V → Option ℕ
  | .body call _ => some call
  | _ => none

/-- A task has the frames, whether it is being polled or suspended. -/
def Runs (s : Runtime V) (task : ℕ) (frames : List (Frame V)) : Prop :=
  (∃ polling ∈ s.polling, polling.node = task ∧ polling.frames = frames) ∨
    ∃ driver, (s.nodes task).driver = some driver ∧ driver.frames = frames

/-- The bodies that a task is in are those of different calls, and none has ended. -/
structure Inside (s : Runtime V) (task : ℕ) (frames : List (Frame V)) : Prop where
  nodup : (frames.filterMap Frame.bodyCall).Nodup
  called : ∀ call ∈ frames.filterMap Frame.bodyCall, call < s.calls
  running : ∀ call ∈ frames.filterMap Frame.bodyCall, ∀ outcome,
    .bodyEnded task call outcome ∉ s.log

/-- Every call has a number of its own, and its body ends once. -/
structure Bodies (s : Runtime V) : Prop where
  inside : ∀ task frames, Runs s task frames → Inside s task frames
  called : ∀ task call outcome, .bodyEnded task call outcome ∈ s.log → call < s.calls
  once : ∀ task call outcome outcome', .bodyEnded task call outcome ∈ s.log →
    .bodyEnded task call outcome' ∈ s.log → outcome = outcome'

theorem Inside.nil (s : Runtime V) (task : ℕ) :
  Inside s task []
  := by
  refine ⟨nodup_nil, ?_, ?_⟩
  · intro call mem
    cases mem
  · intro call mem
    cases mem

/-- A later state in which no body of the task has ended since. -/
theorem Inside.mono {s s' : Runtime V} {task : ℕ} {frames : List (Frame V)}
    (inside : Inside s task frames) (calls : s.calls ≤ s'.calls)
    (log : ∀ call outcome, .bodyEnded task call outcome ∈ s'.log →
      .bodyEnded task call outcome ∈ s.log) :
  Inside s' task frames
  := by
  refine ⟨inside.nodup, ?_, ?_⟩
  · intro call mem
    apply Nat.lt_of_lt_of_le (inside.called call mem) calls
  · intro call mem outcome ended
    apply inside.running call mem outcome (log call outcome ended)

namespace Bodies

theorem new :
  Bodies (Runtime.new : Runtime V)
  where
  inside := by simp [Runtime.new, Runs]
  called := by simp [Runtime.new]
  once := by simp [Runtime.new]

variable {s s' : Runtime V} {top : Polling V}

/-- A step that calls nothing and ends no body, and gives no task other frames. -/
theorem keeps (bodies : Bodies s) (calls : s'.calls = s.calls)
    (log : ∀ task call outcome, .bodyEnded task call outcome ∈ s'.log →
      .bodyEnded task call outcome ∈ s.log)
    (runs : ∀ task frames, Runs s' task frames → frames = [] ∨ Runs s task frames) :
  Bodies s'
  := by
  refine ⟨?_, ?_, ?_⟩
  · intro task frames held
    obtain rfl | held := runs task frames held
    · apply Inside.nil
    · apply (bodies.inside task frames held).mono (Nat.le_of_eq calls.symm) (log task)
  · intro task call outcome ended
    rw [calls]
    apply bodies.called task call outcome (log task call outcome ended)
  · intro task call outcome outcome' ended ended'
    apply bodies.once task call outcome outcome' (log task call outcome ended)
    apply log task call outcome' ended'

theorem calm (bodies : Bodies s) (calm : Calm s s') :
  Bodies s'
  := by
  apply bodies.keeps calm.calls
  · intro task call outcome ended
    rwa [calm.log] at ended
  · rintro task frames (⟨polling, mem, held⟩ | ⟨driver, driver_eq, held⟩)
    · rw [calm.polling] at mem
      exact Or.inr (Or.inl ⟨polling, mem, held⟩)
    · rw [(calm.nodes task).driver] at driver_eq
      exact Or.inr (Or.inr ⟨driver, driver_eq, held⟩)

/-- A suspended task is polled. -/
theorem takes (bodies : Bodies s) (id : TaskId) {task : ℕ} {driver : Driver V}
    (held : (s.nodes task).driver = some driver ∨ driver.frames = []) :
  Bodies (s.takes id task driver)
  := by
  have calls : (s.takes id task driver).calls = s.calls := rfl
  apply bodies.keeps calls (fun _ _ _ ended => ended)
  rintro other frames (⟨polling, mem, rfl, rfl⟩ | ⟨driver', driver_eq, rfl⟩)
  · obtain rfl | mem := mem_cons.mp mem
    · obtain held | none_ := held
      · exact Or.inr (Or.inr ⟨driver, held, rfl⟩)
      · exact Or.inl none_
    · exact Or.inr (Or.inl ⟨polling, mem, rfl, rfl⟩)
  · change ((Function.update s.nodes task _) other).driver = _ at driver_eq
    by_cases same : other = task
    · subst same
      rw [update_self] at driver_eq
      cases driver_eq
    · rw [update_of_ne same] at driver_eq
      exact Or.inr (Or.inr ⟨driver', driver_eq, rfl⟩)

theorem enters (bodies : Bodies s) (origin : String) (nursery : Option ℕ) :
  Bodies (s.enters origin nursery)
  := by
  have calls : (s.enters origin nursery).calls = s.calls := rfl
  apply bodies.keeps calls
  · intro task call outcome ended
    change _ ∈ s.log ++ [_] at ended
    rw [mem_append, mem_singleton] at ended
    obtain ended | absurd_ := ended
    · apply ended
    · cases absurd_
  · rintro other frames (polling | ⟨driver, driver_eq, rfl⟩)
    · exact Or.inr (Or.inl polling)
    · change ((Function.update s.nodes s.madeNodes _) other).driver = _ at driver_eq
      by_cases same : other = s.madeNodes
      · subst same
        rw [update_self, Option.some_inj] at driver_eq
        rw [← driver_eq]
        exact Or.inl rfl
      · rw [update_of_ne same] at driver_eq
        exact Or.inr (Or.inr ⟨driver, driver_eq, rfl⟩)

/-- The current task suspends or settles. -/
theorem leaves (bodies : Bodies s) {rest : List (Polling V)} (running : s.polling = top :: rest)
    (polling : s'.polling = rest) (calls : s'.calls = s.calls)
    (log : ∀ task call outcome, .bodyEnded task call outcome ∈ s'.log →
      .bodyEnded task call outcome ∈ s.log)
    (node : ∀ task driver, (s'.nodes task).driver = some driver →
      (task = top.node ∧ driver.frames = top.frames) ∨ (s.nodes task).driver = some driver) :
  Bodies s'
  := by
  apply bodies.keeps calls log
  rintro task frames (⟨other, mem, held⟩ | ⟨driver, driver_eq, rfl⟩)
  · rw [polling] at mem
    refine Or.inr (Or.inl ⟨other, ?_, held⟩)
    rw [running]
    apply mem_cons_of_mem top mem
  · obtain ⟨rfl, frames_eq⟩ | driver_eq := node task driver driver_eq
    · rw [frames_eq]
      refine Or.inr (Or.inl ⟨top, ?_, rfl, rfl⟩)
      rw [running]
      apply mem_cons_self
    · exact Or.inr (Or.inr ⟨driver, driver_eq, rfl⟩)

/-- How the bodies of the current task change when it goes on: none comes or goes, one is called
under the next number, or the innermost ends. -/
theorem goes_bodies {frames : List (Frame V)} {control : Control V} {events : List (Event V)}
    {calls : ℕ} (goes : Goes s top frames control events calls) :
  (frames.filterMap Frame.bodyCall = top.frames.filterMap Frame.bodyCall ∧ s.calls ≤ calls ∧
      ∀ task call outcome, .bodyEnded task call outcome ∉ events) ∨
    (frames.filterMap Frame.bodyCall = s.calls :: top.frames.filterMap Frame.bodyCall ∧
      calls = s.calls + 1 ∧ events = []) ∨
    ∃ call outcome, top.frames.filterMap Frame.bodyCall = call :: frames.filterMap Frame.bodyCall ∧
      calls = s.calls ∧ events = [.bodyEnded top.node call outcome]
  := by
  cases goes with
  | runs => exact Or.inr (Or.inl ⟨rfl, rfl, rfl⟩)
  | @bodyEnds call nursery frames value code frames_eq =>
    rw [frames_eq]
    exact Or.inr (Or.inr ⟨call, .value value, rfl, rfl, rfl⟩)
  | @bodyFails call nursery frames failure unwind frames_eq =>
    rw [frames_eq]
    exact Or.inr (Or.inr ⟨call, .failure failure, rfl, rfl, rfl⟩)
  | @leaves frame frames frame_eq frames_eq =>
    rw [frames_eq]
    obtain rfl | ⟨join, rfl⟩ := frame_eq
    · exact Or.inl ⟨rfl, Nat.le_refl _, fun _ _ _ mem => by cases mem⟩
    · exact Or.inl ⟨rfl, Nat.le_refl _, fun _ _ _ mem => by cases mem⟩
  | @drains call leaf answer join frames leaf_eq ready frames_eq =>
    rw [frames_eq]
    exact Or.inl ⟨rfl, Nat.le_refl _, by simp⟩
  | awaits => exact Or.inl ⟨rfl, Nat.le_succ _, by simp⟩
  | joinsChild => exact Or.inl ⟨rfl, Nat.le_succ _, by simp⟩
  | _ => exact Or.inl ⟨rfl, Nat.le_refl _, by simp⟩

/-- The current task goes on. -/
theorem goesOn (bodies : Bodies s) (lives : Lives s) {rest : List (Polling V)}
    (running : s.polling = top :: rest) {frames : List (Frame V)} {control : Control V}
    {events : List (Event V)} {calls : ℕ} (goes : Goes s top frames control events calls) :
  Bodies ({ s with log := s.log ++ events, calls := calls }.goesOn top rest frames control)
  := by
  have top_mem : top ∈ s.polling := by
    rw [running]
    apply mem_cons_self
  have inside := bodies.inside top.node top.frames (Or.inl ⟨top, top_mem, rfl, rfl⟩)
  -- Only the current task has frames of its own that change, and it has no others.
  have runs : ∀ task frames',
      Runs ({ s with log := s.log ++ events, calls := calls }.goesOn top rest frames control)
        task frames' →
      (task = top.node ∧ frames' = frames) ∨ (task ≠ top.node ∧ Runs s task frames') := by
    rintro task frames' (⟨polling, mem, rfl, rfl⟩ | ⟨driver, driver_eq, rfl⟩)
    · obtain rfl | mem := mem_cons.mp mem
      · exact Or.inl ⟨rfl, rfl⟩
      · have once := lives.once
        rw [running, map_cons, nodup_cons] at once
        refine Or.inr ⟨?_, Or.inl ⟨polling, ?_, rfl, rfl⟩⟩
        · intro same
          apply once.1
          rw [← same]
          apply List.mem_map_of_mem mem
        · rw [running]
          apply mem_cons_of_mem top mem
    · refine Or.inr ⟨?_, Or.inr ⟨driver, driver_eq, rfl⟩⟩
      rintro rfl
      have taken := lives.taken top top_mem
      change (s.nodes top.node).driver = some driver at driver_eq
      rw [taken] at driver_eq
      cases driver_eq
  obtain ⟨same, le, quiet⟩ | ⟨more, rfl, rfl⟩ | ⟨call, outcome, less, rfl, rfl⟩ := goes_bodies goes
  · have log : ∀ task call outcome, .bodyEnded task call outcome ∈ s.log ++ events →
        .bodyEnded task call outcome ∈ s.log := by
      intro task call outcome ended
      apply (mem_append.mp ended).resolve_right (quiet task call outcome)
    refine ⟨?_, ?_, ?_⟩
    · intro task frames' held
      obtain ⟨rfl, rfl⟩ | ⟨_, held⟩ := runs task frames' held
      · have inside' : Inside s top.node frames' := by
          refine ⟨?_, ?_, ?_⟩
          · rw [same]
            apply inside.nodup
          · rw [same]
            apply inside.called
          · rw [same]
            apply inside.running
        apply inside'.mono le (log top.node)
      · apply (bodies.inside task frames' held).mono le (log task)
    · intro task call outcome ended
      apply Nat.lt_of_lt_of_le (bodies.called task call outcome (log task call outcome ended)) le
    · intro task call outcome outcome' ended ended'
      apply bodies.once task call outcome outcome' (log task call outcome ended)
      apply log task call outcome' ended'
  · rw [append_nil]
    refine ⟨?_, ?_, bodies.once⟩
    · intro task frames' held
      obtain ⟨rfl, rfl⟩ | ⟨_, held⟩ := runs task frames' held
      · refine ⟨?_, ?_, ?_⟩
        · rw [more, nodup_cons]
          refine ⟨?_, inside.nodup⟩
          intro mem
          apply Nat.lt_irrefl s.calls (inside.called s.calls mem)
        · intro call mem
          rw [more, mem_cons] at mem
          obtain rfl | mem := mem
          · apply Nat.lt_succ_self
          · apply Nat.lt_succ_of_lt (inside.called call mem)
        · intro call mem outcome ended
          rw [more, mem_cons] at mem
          obtain rfl | mem := mem
          · apply Nat.lt_irrefl s.calls (bodies.called _ _ _ ended)
          · apply inside.running call mem outcome ended
      · exact (bodies.inside task frames' held).mono (Nat.le_succ s.calls) fun _ _ ended => ended
    · intro task call outcome ended
      apply Nat.lt_succ_of_lt (bodies.called task call outcome ended)
  · have nodup := inside.nodup
    rw [less, nodup_cons] at nodup
    have mem_calls : call ∈ top.frames.filterMap Frame.bodyCall := by
      rw [less]
      apply mem_cons_self
    have log : ∀ {task other outcome'}, .bodyEnded task other outcome'
        ∈ s.log ++ [.bodyEnded top.node call outcome] →
        .bodyEnded task other outcome' ∈ s.log
          ∨ task = top.node ∧ other = call ∧ outcome' = outcome := by
      intro task other outcome' ended
      rw [mem_append, mem_singleton, Event.bodyEnded.injEq] at ended
      apply ended
    refine ⟨?_, ?_, ?_⟩
    · intro task frames' held
      obtain ⟨rfl, rfl⟩ | ⟨ne, held⟩ := runs task frames' held
      · have mem_less : ∀ other ∈ frames'.filterMap Frame.bodyCall,
            other ∈ top.frames.filterMap Frame.bodyCall := by
          intro other mem
          rw [less]
          apply mem_cons_of_mem call mem
        refine ⟨nodup.2, ?_, ?_⟩
        · intro other mem
          apply inside.called other (mem_less other mem)
        · intro other mem outcome' ended
          obtain ended | ⟨_, rfl, _⟩ := log ended
          · apply inside.running other (mem_less other mem) outcome' ended
          · exact nodup.1 mem
      · refine Inside.mono (bodies.inside task frames' held) (Nat.le_refl s.calls) ?_
        intro other outcome' ended
        apply (log ended).resolve_right
        rintro ⟨same, _⟩
        exact ne same
    · intro task other outcome' ended
      obtain ended | ⟨_, rfl, _⟩ := log ended
      · apply bodies.called task other outcome' ended
      · apply inside.called other mem_calls
    · intro task other outcome' outcome'' ended ended'
      obtain old | ⟨rfl, rfl, rfl⟩ := log ended
      · obtain old' | ⟨rfl, rfl, rfl⟩ := log ended'
        · apply bodies.once task other outcome' outcome'' old old'
        · exact absurd old (inside.running _ mem_calls outcome')
      · obtain old' | ⟨_, _, rfl⟩ := log ended'
        · exact absurd old' (inside.running _ mem_calls outcome'')
        · rfl

/-- Every step leaves the bodies in order. -/
theorem moved (bodies : Bodies s) (lives : Lives s) (moved : Moved s s') :
  Bodies s'
  := by
  cases moved with
  | quiet quiet => apply bodies.calm quiet.toCalm
  | polled _ _ held _ quiet => apply (bodies.takes _ (Or.inl held)).calm quiet.toCalm
  | reaped _ eq =>
    rw [eq]
    exact bodies.keeps rfl (fun _ _ _ ended => ended) (fun _ _ held => Or.inr held)
  | spawned _ quiet =>
    apply ((bodies.enters _ _).takes _ (Or.inr rfl)).calm quiet.toCalm
  | opened quiet =>
    apply Bodies.calm _ quiet.toCalm
    exact bodies.keeps rfl (fun _ _ _ ended => ended) (fun _ _ held => Or.inr held)
  | @suspended top rest call leaf leaf' running _ _ quiet =>
    apply Bodies.calm _ quiet.toCalm
    have polling : (s.suspend top rest call leaf').polling = rest := rfl
    refine bodies.leaves running polling rfl (fun _ _ _ ended => ended) ?_
    intro task driver held
    change ((Function.update s.nodes top.node _) task).driver = some driver at held
    by_cases same : task = top.node
    · subst same
      rw [update_self, Option.some_inj] at held
      rw [← held]
      exact Or.inl ⟨rfl, rfl⟩
    · rw [update_of_ne same] at held
      exact Or.inr held
  | @settled top rest outcome running _ _ quiet =>
    apply Bodies.calm _ quiet.toCalm
    have polling : (s.ended top.node rest outcome).polling = rest := rfl
    apply bodies.leaves running polling rfl
    · intro task call outcome' ended
      change _ ∈ s.log ++ [_] at ended
      rw [mem_append, mem_singleton] at ended
      obtain ended | absurd_ := ended
      · apply ended
      · cases absurd_
    · intro task driver held
      change ((Function.update s.nodes top.node _) task).driver = some driver at held
      by_cases same : task = top.node
      · subst same
        rw [update_self] at held
        cases held
      · rw [update_of_ne same] at held
        exact Or.inr held
  | gone running goes quiet => apply (bodies.goesOn lives running goes).calm quiet.toCalm

end Bodies

theorem Run.bodies {actions : List (Action V)} {s : Runtime V} (run : Run actions s) :
  Bodies s
  := by
  apply (Machine.Run.invariant (P := fun s => Lives s ∧ Bodies s) _ _ run).2
  · rintro s rfl
    exact ⟨Lives.new, Bodies.new⟩
  · rintro s action s' ⟨lives, bodies⟩ h
    exact ⟨lives.step h, bodies.moved lives (lives.moved h)⟩

end Vilan.Executor
