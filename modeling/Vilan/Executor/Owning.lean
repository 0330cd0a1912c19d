import Vilan.Executor.Bodies

/-!
# What a nursery joins

A nursery owns every task that was spawned into it.  The first of them to fail with a real error
latches the nursery when it settles.  A `nursery_run` whose body has ended waits for the children
one after the other, those included that are spawned in the meantime, until the latch is set or
none is left.
-/

namespace Vilan.Executor

open List Function

variable {V : Type*}

/-! ### What the log says of a nursery -/

/-- A task was registered with a nursery. -/
def Registered (log : List (Event V)) (nursery task : ℕ) : Prop :=
  ∃ origin, .spawned task origin (some nursery) ∈ log

/-- A task of the nursery settled with a real error, and none of the nursery did before. -/
def FirstFailed (log : List (Event V)) (nursery task : ℕ) (message : String)
    (location : Option String) : Prop :=
  ∃ before after, log = before ++ .settled task (.failure (.panic message location)) :: after ∧
    Registered log nursery task ∧
    ∀ other outcome, Registered log nursery other → .settled other outcome ∈ before →
      outcome.isPanic = false

/-- How a `nursery_run` may end: with the value of its body when every task of the nursery has
settled without a real error; with the failure of its body when that failed; and otherwise with
the failure of the task that failed first. -/
def JoinEnds (log : List (Event V)) (task call nursery : ℕ) : Outcome V → Prop
  | .value value =>
      .bodyEnded task call (.value value) ∈ log ∧
        ∀ other, Registered log nursery other →
          ∃ outcome, .settled other outcome ∈ log ∧ outcome.isPanic = false
  | .failure failure =>
      .bodyEnded task call (.failure failure) ∈ log ∨
        (∃ value, .bodyEnded task call (.value value) ∈ log) ∧
          ∃ winner origin message location, FirstFailed log nursery winner message location ∧
            .spawned winner origin (some nursery) ∈ log ∧
            failure = .panic (message ++ " (in task spawned in " ++ origin ++ ")") location

variable {task : ℕ} {s s' : Runtime V} {control : Control V} {frames : List (Frame V)}

theorem Registered.append {log : List (Event V)} {nursery : ℕ}
    (registered : Registered log nursery task) (events : List (Event V)) :
  Registered (log ++ events) nursery task
  := by
  obtain ⟨origin, spawned⟩ := registered
  use origin, mem_append_left events spawned

/-- The latch of a nursery: the task that failed first, or none while none has. -/
def Latched (s : Runtime V) (nursery : ℕ) : Prop :=
  match (s.nurseries nursery).failed with
  | none => ∀ other outcome, Registered s.log nursery other → .settled other outcome ∈ s.log →
      outcome.isPanic = false
  | some winner => ∃ message location, FirstFailed s.log nursery winner message location

/-- A latch is as right when nothing has settled, and no task of the nursery has come that had
settled before. -/
theorem Latched.append {nursery : ℕ} (latched : Latched s nursery)
    (failed : (s'.nurseries nursery).failed = (s.nurseries nursery).failed)
    {events : List (Event V)} (log : s'.log = s.log ++ events)
    (settles : ∀ task outcome, .settled task outcome ∉ events)
    (spawns : ∀ task outcome, .settled task outcome ∈ s.log → Registered s'.log nursery task →
      Registered s.log nursery task) :
  Latched s' nursery
  := by
  rw [Latched] at latched ⊢
  rw [failed]
  split at latched
  next =>
    intro other outcome registered settled
    rw [log, mem_append, or_iff_left (settles other outcome)] at settled
    apply latched other outcome (spawns other outcome settled registered) settled
  next =>
    obtain ⟨message, location, before, after, split, registered, first⟩ := latched
    use message, location, before, after ++ events
    refine ⟨?_, ?_, ?_⟩
    · rw [log, split, append_assoc, cons_append]
    · rw [log]
      apply registered.append
    · intro other outcome registered settled
      have there : Event.settled other outcome ∈ s.log := by
        rw [split]
        apply mem_append_left _ settled
      apply first other outcome (spawns other outcome there registered) settled

/-! ### What only grows -/

/-- Nurseries, their children, the log and the settled tasks only grow, and a latch stays set. -/
structure Grows (s s' : Runtime V) : Prop where
  made : s.madeNurseries ≤ s'.madeNurseries
  log : ∀ event ∈ s.log, event ∈ s'.log
  children : ∀ nursery < s.madeNurseries,
    (s.nurseries nursery).children <+: (s'.nurseries nursery).children
  settled : ∀ task, (s.nodes task).settled = true → (s'.nodes task).settled = true
  failed : ∀ nursery < s.madeNurseries, (s'.nurseries nursery).failed = none →
    (s.nurseries nursery).failed = none

theorem Calm.grows (calm : Calm s s') :
  Grows s s'
  where
  made := Nat.le_of_eq calm.madeNurseries.symm
  log := by
    rw [calm.log]
    exact fun event mem => mem
  children nursery _ := by
    simp only [(calm.nurseries nursery).children, prefix_refl]
  settled task settled := by rw [(calm.nodes task).settled, settled]
  failed nursery _ failed := by rw [← (calm.nurseries nursery).failed, failed]

/-! ### Joins -/

/-- A join that is under way: the body has ended, and while the latch is not set every child before
the index has settled. -/
structure JoinHolds (s : Runtime V) (task : ℕ) (join : Join V) : Prop where
  made : join.nursery < s.madeNurseries
  ended : (∃ value, join.result = some value ∧ join.bodyFailure = none ∧
      .bodyEnded task join.call (.value value) ∈ s.log) ∨
    ∃ failure, join.result = none ∧ join.bodyFailure = some failure ∧
      .bodyEnded task join.call (.failure failure) ∈ s.log
  index : join.index ≤ (s.nurseries join.nursery).children.length
  settled : (s.nurseries join.nursery).failed = none → ∀ position < join.index, ∀ child,
    (s.nurseries join.nursery).children[position]? = some child → (s.nodes child).settled = true

theorem JoinHolds.mono {join : Join V} (holds : JoinHolds s task join) (grows : Grows s s') :
  JoinHolds s' task join
  := by
  have made := holds.made
  have index := holds.index
  obtain ⟨more, children⟩ := grows.children join.nursery made
  refine ⟨Nat.lt_of_lt_of_le made grows.made, ?_, ?_, ?_⟩
  · obtain ⟨value, result, body, ended⟩ | ⟨failure, result, body, ended⟩ := holds.ended
    · exact Or.inl ⟨value, result, body, grows.log _ ended⟩
    · exact Or.inr ⟨failure, result, body, grows.log _ ended⟩
  · rw [← children, length_append]
    omega
  · intro failed position lt child held
    rw [← children, getElem?_append_left (by omega)] at held
    apply grows.settled
    apply holds.settled (grows.failed join.nursery made failed) position lt child held

/-- The code of a task, and what it is doing: the nurseries it runs were made, and of its
`nursery_run`s at most the innermost waits for a child, the one at its index. -/
structure Stack (s : Runtime V) (task : ℕ) (frames : List (Frame V)) (control : Control V) :
    Prop where
  bodies : ∀ call nursery, .body call nursery ∈ frames → nursery < s.madeNurseries
  drains : ∀ join, .drain join ∈ frames → ∃ rest call child, frames = .drain join :: rest ∧
    (∀ other, .drain other ∉ rest) ∧ control = .leaf call (.nodeJoin child join.nursery) ∧
    (s.nurseries join.nursery).children[join.index]? = some child ∧ JoinHolds s task join
  joins : ∀ join, control = .join join → JoinHolds s task join

theorem Stack.mono (stack : Stack s task frames control) (grows : Grows s s') :
  Stack s' task frames control
  := by
  refine ⟨?_, ?_, ?_⟩
  · intro call nursery mem
    apply Nat.lt_of_lt_of_le (stack.bodies call nursery mem) grows.made
  · intro join mem
    obtain ⟨rest, call, child, frames_eq, undrained, leaf, held, holds⟩ := stack.drains join mem
    obtain ⟨more, children⟩ := grows.children join.nursery holds.made
    refine ⟨rest, call, child, frames_eq, undrained, leaf, ?_, holds.mono grows⟩
    obtain ⟨lt, _⟩ := List.getElem?_eq_some_iff.mp held
    rw [← children, getElem?_append_left lt, held]
  · intro join join_eq
    apply (stack.joins join join_eq).mono grows

/-- Code that has no frames. -/
theorem Stack.nil (s : Runtime V) (task : ℕ) :
  Stack s task [] .code
  := by
  refine ⟨?_, ?_, ?_⟩
  · intro call nursery mem
    cases mem
  · intro join mem
    cases mem
  · intro join join_eq
    cases join_eq

/-- No `nursery_run` waits unless the task waits for a child. -/
theorem Stack.undrained (stack : Stack s task frames control)
    (ne : ∀ call child nursery, control ≠ .leaf call (.nodeJoin child nursery)) (join : Join V) :
  .drain join ∉ frames
  := by
  intro mem
  obtain ⟨_, call, child, _, _, leaf, _⟩ := stack.drains join mem
  exact ne call child join.nursery leaf

/-- Frames without a `nursery_run` that waits go with any control but a join. -/
theorem Stack.of_undrained
    (bodies : ∀ call nursery, .body call nursery ∈ frames → nursery < s.madeNurseries)
    (undrained : ∀ join, .drain join ∉ frames)
    (joins : ∀ join, control = .join join → JoinHolds s task join) :
  Stack s task frames control
  := ⟨bodies, fun join mem => absurd mem (undrained join), joins⟩

/-! ### The invariant -/

/-- Children, latches and joins are in order, and every `nursery_run` of a nursery that is joined
has ended as it may. -/
structure Owning (s : Runtime V) : Prop where
  owned : ∀ nursery task, task ∈ (s.nurseries nursery).children ↔ Registered s.log nursery task
  owners : ∀ nursery task, Registered s.log nursery task → nursery < s.madeNurseries
  unmade : ∀ nursery, s.madeNurseries ≤ nursery → (s.nurseries nursery).failed = none
  latched : ∀ nursery, (s.nurseries nursery).detached = false → Latched s nursery
  polling : ∀ polling ∈ s.polling, Stack s polling.node polling.frames polling.control
  suspended : ∀ task driver, (s.nodes task).driver = some driver →
    Stack s task driver.frames driver.control
  joined : ∀ before task call nursery outcome after,
    s.log = before ++ .joined task call nursery outcome :: after → nursery < s.madeNurseries ∧
      ((s.nurseries nursery).detached = false → JoinEnds before task call nursery outcome)

namespace Owning

theorem new :
  Owning (Runtime.new : Runtime V)
  where
  owned := by simp [Runtime.new, Registered]
  owners := by simp [Runtime.new, Registered]
  unmade := by simp [Runtime.new]
  latched := by simp [Runtime.new, Latched]
  polling := by simp [Runtime.new]
  suspended := by simp [Runtime.new]
  joined := by simp [Runtime.new]

variable {s s' : Runtime V} {task : ℕ} {top : Polling V}

section

variable (owning : Owning s)
include owning

/-- What a quiet change leaves is in order. -/
theorem calm (calm : Calm s s') :
  Owning s'
  := by
  have grows := calm.grows
  refine ⟨?_, ?_, ?_, ?_, ?_, ?_, ?_⟩
  · intro nursery task
    rw [(calm.nurseries nursery).children, calm.log]
    apply owning.owned
  · intro nursery task
    rw [calm.log, calm.madeNurseries]
    apply owning.owners
  · intro nursery le
    rw [calm.madeNurseries] at le
    rw [(calm.nurseries nursery).failed]
    apply owning.unmade nursery le
  · intro nursery joined
    rw [(calm.nurseries nursery).detached] at joined
    have log : s'.log = s.log ++ [] := by rw [calm.log, append_nil]
    apply (owning.latched nursery joined).append (calm.nurseries nursery).failed log
    · intro task outcome mem
      cases mem
    · intro task outcome _ registered
      rwa [calm.log] at registered
  · intro polling mem
    rw [calm.polling] at mem
    apply (owning.polling polling mem).mono grows
  · intro task driver held
    rw [(calm.nodes task).driver] at held
    apply (owning.suspended task driver held).mono grows
  · intro before task call nursery outcome after split
    rw [calm.log] at split
    rw [calm.madeNurseries, (calm.nurseries nursery).detached]
    apply owning.joined before task call nursery outcome after split

/-- A step that changes no nursery and settles nothing, and logs one event at most. -/
theorem moves (nurseries : s'.nurseries = s.nurseries)
    (made : s'.madeNurseries = s.madeNurseries) {events : List (Event V)}
    (log : s'.log = s.log ++ events) (one : events.length ≤ 1)
    (settled : ∀ task, (s'.nodes task).settled = (s.nodes task).settled)
    (spawns : ∀ task origin nursery, .spawned task origin nursery ∉ events)
    (settles : ∀ task outcome, .settled task outcome ∉ events)
    (polling : Grows s s' → ∀ polling ∈ s'.polling,
      Stack s' polling.node polling.frames polling.control)
    (suspended : Grows s s' → ∀ task driver, (s'.nodes task).driver = some driver →
      Stack s' task driver.frames driver.control)
    (joined : Grows s s' → ∀ task call nursery outcome,
      .joined task call nursery outcome ∈ events → nursery < s.madeNurseries ∧
        ((s.nurseries nursery).detached = false → JoinEnds s.log task call nursery outcome)) :
  Owning s'
  := by
  have registered : ∀ nursery task, Registered s'.log nursery task ↔ Registered s.log nursery task := by
    intro nursery task
    constructor
    · rintro ⟨origin, mem⟩
      rw [log, mem_append, or_iff_left (spawns task origin (some nursery))] at mem
      use origin
    · intro registered
      rw [log]
      apply registered.append
  have grows : Grows s s' := by
    refine ⟨Nat.le_of_eq made.symm, ?_, ?_, ?_, ?_⟩
    · intro event mem
      rw [log]
      apply mem_append_left events mem
    · intro nursery _
      simp only [nurseries, prefix_refl]
    · intro task settled_
      rw [settled, settled_]
    · intro nursery _ failed
      rw [nurseries] at failed
      apply failed
  refine ⟨?_, ?_, ?_, ?_, polling grows, suspended grows, ?_⟩
  · intro nursery task
    rw [nurseries, registered]
    apply owning.owned
  · intro nursery task registered_
    rw [made]
    apply owning.owners nursery task ((registered nursery task).mp registered_)
  · intro nursery le
    rw [made] at le
    rw [nurseries]
    apply owning.unmade nursery le
  · intro nursery attached
    rw [nurseries] at attached
    apply (owning.latched nursery attached).append (by rw [nurseries]) log settles
    intro task outcome _ registered_
    apply (registered nursery task).mp registered_
  · intro before task call nursery outcome after split
    rw [made, nurseries]
    rw [log] at split
    have last : ∀ back, events = back ++ .joined task call nursery outcome :: after → back = [] := by
      intro back events_eq
      rw [events_eq, length_append, length_cons] at one
      apply eq_nil_of_length_eq_zero
      omega
    obtain ⟨back, before_eq, events_eq⟩ | ⟨back, log_eq, tail_eq⟩ := append_eq_append_iff.mp split
    · have none_ := last back events_eq
      rw [none_, append_nil] at before_eq
      rw [before_eq]
      apply joined grows
      rw [events_eq]
      apply mem_append_right _ mem_cons_self
    · cases back with
      | nil =>
        rw [append_nil] at log_eq
        rw [← log_eq]
        apply joined grows
        rw [← nil_append events, ← tail_eq]
        apply mem_cons_self
      | cons event back =>
        rw [cons_append, List.cons.injEq] at tail_eq
        rw [← tail_eq.1] at log_eq
        apply owning.joined before task call nursery outcome back log_eq

/-- The driver of a suspended task is taken. -/
theorem takes (id : TaskId) {driver : Driver V}
    (held : (s.nodes task).driver = some driver) :
  Owning (s.takes id task driver)
  := by
  have nurseries : (s.takes id task driver).nurseries = s.nurseries := rfl
  have log : (s.takes id task driver).log = s.log ++ [] := (append_nil s.log).symm
  have other : ∀ other, ((s.takes id task driver).nodes other).settled = (s.nodes other).settled ∧
      ∀ held', ((s.takes id task driver).nodes other).driver = some held' →
        (s.nodes other).driver = some held' := by
    intro other
    by_cases same : other = task
    · subst same
      rw [Runtime.takes, Runtime.setNode]
      dsimp only
      rw [update_self]
      use rfl
      intro held' absurd_
      cases absurd_
    · rw [Runtime.takes, Runtime.setNode]
      dsimp only
      rw [update_of_ne same]
      exact ⟨rfl, fun held' held => held⟩
  apply owning.moves nurseries rfl log (Nat.zero_le 1)
  · intro other_
    apply (other other_).1
  · intro task origin nursery mem
    cases mem
  · intro task outcome mem
    cases mem
  · intro grows polling mem
    obtain rfl | mem := mem_cons.mp mem
    · apply (owning.suspended task driver held).mono grows
    · apply (owning.polling polling mem).mono grows
  · intro grows other_ driver' held'
    apply (owning.suspended other_ driver' ((other other_).2 driver' held')).mono grows
  · intro _ task call nursery outcome mem
    cases mem

/-- The current task suspends. -/
theorem suspend {rest : List (Polling V)} (running : s.polling = top :: rest)
    {call : ℕ} {leaf leaf' : Leaf} (leaf_eq : top.control = .leaf call leaf)
    (becomes : leaf.Becomes leaf') :
  Owning (s.suspend top rest call leaf')
  := by
  have nurseries : (s.suspend top rest call leaf').nurseries = s.nurseries := rfl
  have log : (s.suspend top rest call leaf').log = s.log ++ [] := (append_nil s.log).symm
  have top_mem : top ∈ s.polling := by
    rw [running]
    apply mem_cons_self
  have stack := owning.polling top top_mem
  have stack' : Stack s top.node top.frames (.leaf call leaf') := by
    refine ⟨stack.bodies, ?_, ?_⟩
    · intro join mem
      obtain ⟨rest', call', child, frames_eq, undrained, leaf_eq', held, holds⟩ :=
        stack.drains join mem
      rw [leaf_eq, Control.leaf.injEq] at leaf_eq'
      obtain ⟨rfl, rfl⟩ := leaf_eq'
      have same : Leaf.nodeJoin child join.nursery = leaf' := by
        cases leaf' <;> apply becomes
      rw [← same]
      exact ⟨rest', call, child, frames_eq, undrained, rfl, held, holds⟩
    · intro join join_eq
      cases join_eq
  apply owning.moves nurseries rfl log (Nat.zero_le 1)
  · intro task
    rw [Runtime.suspend, Runtime.setNode]
    dsimp only
    by_cases same : task = top.node
    · subst same
      rw [update_self]
    · rw [update_of_ne same]
  · intro task origin nursery mem
    cases mem
  · intro task outcome mem
    cases mem
  · intro grows polling mem
    have mem' : polling ∈ s.polling := by
      rw [running]
      apply mem_cons_of_mem top mem
    apply (owning.polling polling mem').mono grows
  · intro grows task driver held
    rw [Runtime.suspend, Runtime.setNode] at held
    dsimp only at held
    by_cases same : task = top.node
    · subst same
      rw [update_self, Option.some_inj] at held
      rw [← held]
      apply stack'.mono grows
    · rw [update_of_ne same] at held
      apply (owning.suspended task driver held).mono grows
  · intro _ task call nursery outcome mem
    cases mem

/-- A task is spawned: its nursery, which was made, registers it. -/
theorem enters (logged : Logged s) (origin : String) {nursery : Option ℕ}
    (reach : nursery.all s.reaches = true) :
  Owning (s.enters origin nursery)
  := by
  have log : (s.enters origin nursery).log = s.log ++ [.spawned s.madeNodes origin nursery] := rfl
  have registered : ∀ owner task, Registered (s.enters origin nursery).log owner task ↔
      Registered s.log owner task ∨ task = s.madeNodes ∧ nursery = some owner := by
    intro owner task
    constructor
    · rintro ⟨origin', mem⟩
      rw [log, mem_append, mem_singleton, Event.spawned.injEq] at mem
      obtain mem | ⟨task_eq, _, nursery_eq⟩ := mem
      · exact Or.inl ⟨origin', mem⟩
      · exact Or.inr ⟨task_eq, nursery_eq.symm⟩
    · rintro (registered | ⟨rfl, rfl⟩)
      · rw [log]
        apply registered.append
      · use origin
        rw [log]
        apply mem_append_right s.log mem_cons_self
  have node : ∀ task, ((s.enters origin nursery).nodes task).settled = (s.nodes task).settled ∧
      ∀ driver, ((s.enters origin nursery).nodes task).driver = some driver →
        (s.nodes task).driver = some driver ∨ driver = ⟨[], .code⟩ := by
    intro task
    rw [Runtime.enters, Runtime.makeNode]
    dsimp only
    by_cases same : task = s.madeNodes
    · subst same
      rw [update_self, logged.fresh _ (Nat.le_refl _)]
      use rfl
      intro driver held
      rw [Option.some_inj] at held
      exact Or.inr held.symm
    · rw [update_of_ne same]
      exact ⟨rfl, fun driver held => Or.inl held⟩
  have body : ∀ owner, ((s.enters origin nursery).nurseries owner).failed = (s.nurseries owner).failed ∧
      ((s.enters origin nursery).nurseries owner).detached = (s.nurseries owner).detached ∧
      ((s.enters origin nursery).nurseries owner).children
        = (s.nurseries owner).children ++ if nursery = some owner then [s.madeNodes] else [] := by
    intro owner
    rw [Runtime.enters]
    dsimp only
    split
    · exact ⟨rfl, rfl, rfl⟩
    · exact ⟨rfl, rfl, (append_nil _).symm⟩
  have grows : Grows s (s.enters origin nursery) := by
    refine ⟨Nat.le_refl _, ?_, ?_, ?_, ?_⟩
    · intro event mem
      apply mem_append_left _ mem
    · intro owner _
      rw [(body owner).2.2]
      apply prefix_append
    · intro task settled
      rw [(node task).1, settled]
    · intro owner _ failed
      rw [(body owner).1] at failed
      apply failed
  refine ⟨?_, ?_, ?_, ?_, ?_, ?_, ?_⟩
  · intro owner task
    rw [(body owner).2.2, registered, mem_append, owning.owned]
    apply or_congr_right
    split
    next same =>
      rw [mem_singleton]
      exact ⟨fun task_eq => ⟨task_eq, same⟩, fun both => both.1⟩
    next other => exact ⟨fun mem => absurd mem not_mem_nil, fun both => absurd both.2 other⟩
  · intro owner task registered_
    obtain registered_ | ⟨_, rfl⟩ := (registered owner task).mp registered_
    · apply owning.owners owner task registered_
    · rw [Option.all_some, Runtime.reaches, Bool.and_eq_true, decide_eq_true_iff] at reach
      apply reach.1
  · intro owner le
    rw [(body owner).1]
    apply owning.unmade owner le
  · intro owner attached
    rw [(body owner).2.1] at attached
    apply (owning.latched owner attached).append (body owner).1 log
    · intro task outcome mem
      rw [mem_singleton] at mem
      cases mem
    · intro task outcome settled registered_
      obtain registered_ | ⟨rfl, _⟩ := (registered owner task).mp registered_
      · apply registered_
      · rw [logged.outcomes, TaskNode.outcome, logged.fresh _ (Nat.le_refl _)] at settled
        cases settled
  · intro polling mem
    apply (owning.polling polling mem).mono grows
  · intro task driver held
    obtain held | rfl := (node task).2 driver held
    · apply (owning.suspended task driver held).mono grows
    · apply Stack.nil
  · intro before task call owner outcome after split
    rw [(body owner).2.1]
    rw [log] at split
    obtain rfl | ⟨after, final, rfl⟩ := eq_nil_or_concat after
    · obtain ⟨_, last⟩ := append_inj' split rfl
      cases last
    · rw [concat_eq_append, ← cons_append, ← append_assoc] at split
      obtain ⟨split, _⟩ := append_inj' split rfl
      apply owning.joined before task call owner outcome after split

theorem begins (logged : Logged s) (origin : String) {nursery : Option ℕ}
    (reach : nursery.all s.reaches = true) :
  Owning (s.begins origin nursery)
  := by
  apply (owning.enters logged origin reach).takes
  change ((Function.update s.nodes s.madeNodes _) s.madeNodes).driver = _
  rw [update_self]

/-- A nursery is made. -/
theorem opens (parent : Option ℕ) (detached : Bool) :
  Owning (s.opens parent detached)
  := by
  have made : (s.opens parent detached).madeNurseries = s.madeNurseries + 1 := rfl
  have old : ∀ nursery, nursery ≠ s.madeNurseries →
      (s.opens parent detached).nurseries nursery = s.nurseries nursery :=
    fun nursery ne => update_of_ne ne _ _
  have new : (s.opens parent detached).nurseries s.madeNurseries
      = ⟨[], false, none, [], [], [], parent, detached, true⟩ :=
    update_self _ _ _
  have fresh : ∀ task, ¬ Registered s.log s.madeNurseries task := by
    intro task registered
    have lt := owning.owners s.madeNurseries task registered
    omega
  have grows : Grows s (s.opens parent detached) := by
    refine ⟨Nat.le_succ _, fun event mem => mem, ?_, fun task settled => settled, ?_⟩
    · intro nursery lt
      simp only [old nursery (by omega), prefix_refl]
    · intro nursery lt failed
      rw [old nursery (by omega)] at failed
      apply failed
  refine ⟨?_, ?_, ?_, ?_, ?_, ?_, ?_⟩
  · intro nursery task
    by_cases same : nursery = s.madeNurseries
    · subst same
      rw [new]
      exact ⟨fun mem => absurd mem not_mem_nil, fun registered => absurd registered (fresh task)⟩
    · rw [old nursery same]
      apply owning.owned
  · intro nursery task registered
    apply Nat.lt_succ_of_lt (owning.owners nursery task registered)
  · intro nursery le
    rw [made] at le
    rw [old nursery (by omega)]
    apply owning.unmade nursery (by omega)
  · intro nursery attached
    by_cases same : nursery = s.madeNurseries
    · subst same
      rw [Latched, new]
      intro task outcome registered
      exact absurd registered (fresh task)
    · rw [Latched, old nursery same]
      rw [old nursery same] at attached
      apply owning.latched nursery attached
  · intro polling mem
    apply (owning.polling polling mem).mono grows
  · intro task driver held
    apply (owning.suspended task driver held).mono grows
  · intro before task call nursery outcome after split
    obtain ⟨lt, ends⟩ := owning.joined before task call nursery outcome after split
    rw [old nursery (by omega)]
    exact ⟨Nat.lt_succ_of_lt lt, ends⟩

/-- The current task ends: when it is the first of its nursery to fail, it latches it. -/
theorem ended (logged : Logged s) {rest : List (Polling V)}
    (running : s.polling = top :: rest) (made : top.node < s.madeNodes) (outcome : Outcome V) :
  Owning (s.ended top.node rest outcome)
  := by
  have log : (s.ended top.node rest outcome).log = s.log ++ [.settled top.node outcome] := rfl
  have registered : ∀ nursery task,
      Registered (s.ended top.node rest outcome).log nursery task ↔ Registered s.log nursery task := by
    intro nursery task
    constructor
    · rintro ⟨origin, mem⟩
      rw [log, mem_append, mem_singleton] at mem
      obtain mem | absurd_ := mem
      · use origin
      · cases absurd_
    · intro registered
      rw [log]
      apply registered.append
  have node : ∀ task, ((s.nodes task).settled = true →
        ((s.ended top.node rest outcome).nodes task).settled = true) ∧
      ∀ driver, ((s.ended top.node rest outcome).nodes task).driver = some driver →
        (s.nodes task).driver = some driver := by
    intro task
    rw [Runtime.ended]
    dsimp only
    by_cases same : task = top.node
    · subst same
      rw [update_self]
      refine ⟨fun _ => rfl, ?_⟩
      intro driver held
      cases held
    · rw [update_of_ne same]
      exact ⟨fun settled => settled, fun driver held => held⟩
  have body : ∀ nursery,
      ((s.ended top.node rest outcome).nurseries nursery).children = (s.nurseries nursery).children ∧
        ((s.ended top.node rest outcome).nurseries nursery).detached
          = (s.nurseries nursery).detached ∧
        ((s.ended top.node rest outcome).nurseries nursery).failed
          = if s.latches top.node outcome nursery then some top.node
            else (s.nurseries nursery).failed := by
    intro nursery
    rw [Runtime.ended]
    dsimp only
    split
    · exact ⟨rfl, rfl, rfl⟩
    · exact ⟨rfl, rfl, rfl⟩
  have owner : ∀ nursery, Registered s.log nursery top.node ↔
      (s.nodes top.node).nursery = some nursery := by
    intro nursery
    constructor
    · rintro ⟨origin, spawned⟩
      exact ((logged.spawned top.node origin (some nursery)).mp spawned).2.2
    · intro nursery_eq
      exact ⟨_, (logged.spawned top.node _ (some nursery)).mpr ⟨made, rfl, nursery_eq⟩⟩
  have grows : Grows s (s.ended top.node rest outcome) := by
    refine ⟨Nat.le_refl _, ?_, ?_, fun task => (node task).1, ?_⟩
    · intro event mem
      apply mem_append_left _ mem
    · intro nursery _
      simp only [(body nursery).1, prefix_refl]
    · intro nursery _ failed
      rw [(body nursery).2.2] at failed
      split at failed
      · cases failed
      · apply failed
  refine ⟨?_, ?_, ?_, ?_, ?_, ?_, ?_⟩
  · intro nursery task
    rw [(body nursery).1, registered]
    apply owning.owned
  · intro nursery task registered_
    apply owning.owners nursery task ((registered nursery task).mp registered_)
  · intro nursery le
    have unmade : s.madeNurseries ≤ nursery := le
    rw [(body nursery).2.2, if_neg]
    · apply owning.unmade nursery unmade
    · rintro ⟨_, nursery_eq, _⟩
      have lt := owning.owners nursery top.node ((owner nursery).mpr nursery_eq)
      omega
  · intro nursery attached
    rw [(body nursery).2.1] at attached
    have latched := owning.latched nursery attached
    rw [Latched] at latched ⊢
    rw [(body nursery).2.2]
    by_cases latches : s.latches top.node outcome nursery
    · rw [if_pos latches]
      obtain ⟨panics, nursery_eq, _, unlatched⟩ := latches
      rw [unlatched] at latched
      cases outcome with
      | value value => cases panics
      | failure failure =>
        cases failure with
        | cancelled => cases panics
        | panic message location =>
          use message, location, s.log, [], log
          use (registered nursery top.node).mpr ((owner nursery).mpr nursery_eq)
          intro other outcome registered_ settled
          apply latched other outcome ((registered nursery other).mp registered_) settled
    · rw [if_neg latches]
      split at latched
      next unlatched =>
        intro other outcome' registered_ settled
        have owned := (registered nursery other).mp registered_
        rw [log, mem_append, mem_singleton, Event.settled.injEq] at settled
        obtain settled | ⟨rfl, rfl⟩ := settled
        · apply latched other outcome' owned settled
        · rw [← Bool.not_eq_true]
          intro panics
          exact latches ⟨panics, (owner nursery).mp owned, attached, unlatched⟩
      next winner _ =>
        obtain ⟨message, location, before, after, split, registered_, first⟩ := latched
        use message, location, before, after ++ [.settled top.node outcome]
        refine ⟨?_, (registered nursery winner).mpr registered_, ?_⟩
        · rw [log, split, append_assoc, cons_append]
        · intro other outcome' registered_
          apply first other outcome' ((registered nursery other).mp registered_)
  · intro polling mem
    have mem' : polling ∈ s.polling := by
      rw [running]
      apply mem_cons_of_mem top mem
    apply (owning.polling polling mem').mono grows
  · intro task driver held
    apply (owning.suspended task driver ((node task).2 driver held)).mono grows
  · intro before task call nursery outcome' after split
    rw [(body nursery).2.1]
    rw [log] at split
    obtain rfl | ⟨after, final, rfl⟩ := eq_nil_or_concat after
    · obtain ⟨_, last⟩ := append_inj' split rfl
      cases last
    · rw [concat_eq_append, ← cons_append, ← append_assoc] at split
      obtain ⟨split, _⟩ := append_inj' split rfl
      apply owning.joined before task call nursery outcome' after split

/-- What the latch of a nursery raises is the failure of the task that failed first. -/
theorem raises (logged : Logged s) {nursery winner : ℕ}
    (attached : (s.nurseries nursery).detached = false)
    (latched : (s.nurseries nursery).failed = some winner) :
  ∃ origin message location, FirstFailed s.log nursery winner message location ∧
    .spawned winner origin (some nursery) ∈ s.log ∧
    Runtime.inTask (s.nodes winner)
      = .panic (message ++ " (in task spawned in " ++ origin ++ ")") location
  := by
  have first := owning.latched nursery attached
  rw [Latched, latched] at first
  obtain ⟨message, location, first⟩ := first
  obtain ⟨before, after, split, ⟨origin, spawned⟩, _⟩ := id first
  have settled : Event.settled winner (.failure (.panic message location)) ∈ s.log := by
    rw [split]
    apply mem_append_right _ mem_cons_self
  have failure := logged.failure_eq settled
  have origin_eq := ((logged.spawned winner origin (some nursery)).mp spawned).2.1
  use origin, message, location, first, spawned
  rw [Runtime.inTask, failure, Outcome.failure?, origin_eq]

end

/-- The wait of a `nursery_run` for a child answers nothing, once the child has settled or the latch
is set. -/
theorem pollNodeJoin_ready {id : TaskId} {child nursery : ℕ} {answer : Answer V}
    (ready : (s.pollLeaf id (.nodeJoin child nursery)).2 = .ready answer) :
  answer = .unit ∧ ((s.nodes child).settled = true ∨ (s.nurseries nursery).failed.isSome = true)
  := by
  have same : ((s.observe child).nodes child).settled = (s.nodes child).settled := by
    change (Function.update s.nodes child _ child).settled = _
    rw [update_self]
  rw [Runtime.pollLeaf, Runtime.pollNodeJoin] at ready
  rw [same] at ready
  split at ready
  next done =>
    rw [Bool.or_eq_true] at done
    cases ready
    exact ⟨rfl, done⟩
  next => cases ready

/-- A `nursery_run` goes on when the child it waited for has settled. -/
theorem joinHolds_drains {child : ℕ} {join : Join V} (holds : JoinHolds s task join)
    (held : (s.nurseries join.nursery).children[join.index]? = some child)
    (done : (s.nodes child).settled = true ∨ (s.nurseries join.nursery).failed.isSome = true) :
  JoinHolds s task { join with
    index := if (s.nurseries join.nursery).failed.isNone then join.index + 1 else join.index }
  := by
  obtain ⟨lt, _⟩ := List.getElem?_eq_some_iff.mp held
  refine ⟨holds.made, holds.ended, ?_, ?_⟩
  · dsimp only
    split
    · omega
    · apply holds.index
  · intro failed position before other other_held
    dsimp only at failed before other_held
    rw [failed, Option.isNone_none, if_pos rfl] at before
    rw [failed, Option.isSome_none, or_iff_left Bool.false_ne_true] at done
    by_cases last : position = join.index
    · rw [last, held, Option.some_inj] at other_held
      rw [← other_held, done]
    · apply holds.settled failed position (by omega) other other_held

/-- A `nursery_run` that returns has joined every task of its nursery. -/
theorem returns (owning : Owning s) (logged : Logged s) {join : Join V}
    (holds : JoinHolds s task join) {value : V} (result : join.result = some value)
    (attached : (s.nurseries join.nursery).detached = false)
    (failed : (s.nurseries join.nursery).failed = none)
    (all : (s.nurseries join.nursery).children[join.index]? = none) :
  JoinEnds s.log task join.call join.nursery (.value value)
  := by
  constructor
  · obtain ⟨found, found_eq, _, ended⟩ | ⟨_, none_, _⟩ := holds.ended
    · rw [result, Option.some_inj] at found_eq
      rw [found_eq]
      apply ended
    · rw [result] at none_
      cases none_
  · intro other registered
    have mem := (owning.owned join.nursery other).mpr registered
    obtain ⟨position, lt, held⟩ := getElem_of_mem mem
    rw [List.getElem?_eq_none_iff] at all
    have settled := holds.settled failed position (by omega) other
      (List.getElem?_eq_some_iff.mpr ⟨lt, held⟩)
    obtain ⟨outcome, ended⟩ := logged.settled_iff.mp settled
    have latched := owning.latched join.nursery attached
    rw [Latched, failed] at latched
    use outcome, ended
    apply latched other outcome registered ended

/-- The current task goes on: what it does next, and a `nursery_run` that ends. -/
theorem goes (owning : Owning s) (logged : Logged s) (mem : top ∈ s.polling)
    {frames : List (Frame V)} {control : Control V} {events : List (Event V)} {calls : ℕ}
    (goes : Goes s top frames control events calls) (grows : Grows s s')
    (log : s'.log = s.log ++ events) :
  Stack s' top.node frames control ∧
    ∀ task call nursery outcome, .joined task call nursery outcome ∈ events →
      nursery < s.madeNurseries ∧
        ((s.nurseries nursery).detached = false → JoinEnds s.log task call nursery outcome)
  := by
  have stack := owning.polling top mem
  have stack' := stack.mono grows
  have silent : ∀ event : Event V, (∀ task call nursery outcome,
        event ≠ .joined task call nursery outcome) →
      ∀ task call nursery outcome, .joined task call nursery outcome ∈ [event] →
        nursery < s.madeNurseries ∧
          ((s.nurseries nursery).detached = false → JoinEnds s.log task call nursery outcome) := by
    intro event ne task call nursery outcome mem
    rw [mem_singleton] at mem
    exact absurd mem.symm (ne task call nursery outcome)
  have quiet : ∀ task call nursery outcome, (.joined task call nursery outcome : Event V) ∈ [] →
      nursery < s.madeNurseries ∧
        ((s.nurseries nursery).detached = false → JoinEnds s.log task call nursery outcome) := by
    intro task call nursery outcome mem
    cases mem
  have running : ∀ control : Control V, top.control = control →
      (∀ call child nursery, control ≠ .leaf call (.nodeJoin child nursery)) →
      ∀ join, .drain join ∉ top.frames := by
    rintro control rfl ne
    apply stack.undrained ne
  have inner : ∀ {frame : Frame V} {frames : List (Frame V)}, top.frames = frame :: frames →
      ∀ call nursery, .body call nursery ∈ frames → nursery < s'.madeNurseries := by
    intro frame frames frames_eq call nursery mem
    apply stack'.bodies call nursery
    rw [frames_eq]
    apply mem_cons_of_mem frame mem
  cases goes with
  | awaits leaf code reach =>
    have undrained := running _ code fun _ _ _ same => (by cases same)
    exact ⟨.of_undrained stack'.bodies undrained fun _ same => (by cases same),
      silent _ fun _ _ _ _ same => (by cases same)⟩
  | runs nursery code reach =>
    have undrained := running _ code fun _ _ _ same => (by cases same)
    rw [Runtime.reaches, Bool.and_eq_true, decide_eq_true_iff] at reach
    refine ⟨.of_undrained ?_ ?_ fun _ same => (by cases same), quiet⟩
    · intro call other mem
      rw [mem_cons, Frame.body.injEq] at mem
      obtain ⟨_, rfl⟩ | mem := mem
      · apply Nat.lt_of_lt_of_le reach.1 grows.made
      · apply stack'.bodies call other mem
    · intro join mem
      rw [mem_cons, or_iff_right (fun same => (by cases same))] at mem
      apply undrained join mem
  | catches code =>
    have undrained := running _ code fun _ _ _ same => (by cases same)
    refine ⟨.of_undrained ?_ ?_ fun _ same => (by cases same), quiet⟩
    · intro call other mem
      rw [mem_cons, or_iff_right (fun same => (by cases same))] at mem
      apply stack'.bodies call other mem
    · intro join mem
      rw [mem_cons, or_iff_right (fun same => (by cases same))] at mem
      apply undrained join mem
  | raises failure code =>
    have undrained := running _ code fun _ _ _ same => (by cases same)
    exact ⟨.of_undrained stack'.bodies undrained fun _ same => (by cases same), quiet⟩
  | @bodyEnds call nursery frames value code frames_eq =>
    have undrained := running _ code fun _ _ _ same => (by cases same)
    refine ⟨.of_undrained (inner frames_eq) ?_ ?_, silent _ fun _ _ _ _ same => (by cases same)⟩
    · intro join mem
      apply undrained join
      rw [frames_eq]
      apply mem_cons_of_mem _ mem
    · intro join join_eq
      rw [Control.join.injEq] at join_eq
      subst join_eq
      refine ⟨?_, Or.inl ⟨value, rfl, rfl, ?_⟩, Nat.zero_le _, ?_⟩
      · apply stack'.bodies call nursery
        rw [frames_eq]
        apply mem_cons_self
      · rw [log]
        apply mem_append_right _ mem_cons_self
      · intro _ position lt
        cases lt
  | @bodyFails call nursery frames failure unwind frames_eq =>
    have undrained := running _ unwind fun _ _ _ same => (by cases same)
    refine ⟨.of_undrained (inner frames_eq) ?_ ?_, silent _ fun _ _ _ _ same => (by cases same)⟩
    · intro join mem
      apply undrained join
      rw [frames_eq]
      apply mem_cons_of_mem _ mem
    · intro join join_eq
      rw [Control.join.injEq] at join_eq
      subst join_eq
      refine ⟨?_, Or.inr ⟨failure, rfl, rfl, ?_⟩, Nat.zero_le _, ?_⟩
      · apply stack'.bodies call nursery
        rw [frames_eq]
        apply mem_cons_self
      · rw [log]
        apply mem_append_right _ mem_cons_self
      · intro _ position lt
        cases lt
  | @leaves frame frames frame_eq frames_eq control_eq control control_eq' =>
    have undrained : ∀ join, .drain join ∉ top.frames := by
      obtain code | ⟨failure, unwind⟩ := control_eq
      · apply running _ code fun _ _ _ same => (by cases same)
      · apply running _ unwind fun _ _ _ same => (by cases same)
    refine ⟨.of_undrained (inner frames_eq) ?_ ?_, quiet⟩
    · intro join mem
      apply undrained join
      rw [frames_eq]
      apply mem_cons_of_mem _ mem
    · obtain rfl | ⟨failure, rfl⟩ := control_eq'
      · exact fun _ same => (by cases same)
      · exact fun _ same => (by cases same)
  | fails leaf_eq ready =>
    refine ⟨.of_undrained stack'.bodies ?_ fun _ same => (by cases same),
      silent _ fun _ _ _ _ same => (by cases same)⟩
    apply running _ leaf_eq
    intro call child nursery leaf_eq'
    rw [Control.leaf.injEq] at leaf_eq'
    rw [leaf_eq'.2] at ready
    cases (pollNodeJoin_ready ready).1
  | answers leaf_eq ready frames_ne =>
    refine ⟨.of_undrained stack'.bodies ?_ fun _ same => (by cases same),
      silent _ fun _ _ _ _ same => (by cases same)⟩
    intro join mem
    obtain ⟨rest, _, _, frames_eq, _⟩ := stack.drains join mem
    exact frames_ne join rest frames_eq
  | @drains call leaf answer join frames leaf_eq ready frames_eq =>
    have mem : .drain join ∈ top.frames := by
      rw [frames_eq]
      apply mem_cons_self
    obtain ⟨rest, call', child, frames_eq', undrained, leaf_eq', held, holds⟩ :=
      stack.drains join mem
    rw [frames_eq, List.cons.injEq] at frames_eq'
    obtain ⟨_, rfl⟩ := frames_eq'
    rw [leaf_eq, Control.leaf.injEq] at leaf_eq'
    rw [leaf_eq'.2] at ready
    have goes_on := joinHolds_drains holds held (pollNodeJoin_ready ready).2
    refine ⟨.of_undrained (inner frames_eq) undrained ?_,
      silent _ fun _ _ _ _ same => (by cases same)⟩
    intro join' join_eq
    rw [Control.join.injEq] at join_eq
    rw [← join_eq]
    apply goes_on.mono grows
  | @joinsChild join child join_eq body failed held =>
    have holds := (stack.joins join join_eq).mono grows
    have undrained := running _ join_eq fun _ _ _ same => (by cases same)
    obtain ⟨lt, _⟩ := List.getElem?_eq_some_iff.mp held
    obtain ⟨more, children⟩ := grows.children join.nursery (stack.joins join join_eq).made
    refine ⟨⟨?_, ?_, fun _ same => (by cases same)⟩, silent _ fun _ _ _ _ same => (by cases same)⟩
    · intro call other mem
      rw [mem_cons, or_iff_right (fun same => (by cases same))] at mem
      apply stack'.bodies call other mem
    · intro join' mem
      rw [mem_cons, or_iff_left (undrained join'), Frame.drain.injEq] at mem
      subst mem
      refine ⟨top.frames, s.calls, child, rfl, undrained, rfl, ?_, holds⟩
      rw [← children, getElem?_append_left lt, held]
  | @joinReturns join value join_eq body failed all result =>
    have holds := stack.joins join join_eq
    have undrained := running _ join_eq fun _ _ _ same => (by cases same)
    use .of_undrained stack'.bodies undrained fun _ same => (by cases same)
    intro task call nursery outcome mem
    rw [mem_singleton, Event.joined.injEq] at mem
    obtain ⟨rfl, rfl, rfl, rfl⟩ := mem
    exact ⟨holds.made, fun attached => owning.returns logged holds result attached failed all⟩
  | @joinBreaks join failure join_eq body result =>
    obtain ⟨_, some_, _⟩ | ⟨_, _, some_, _⟩ := (stack.joins join join_eq).ended
    · rw [result] at some_
      cases some_
    · rw [body] at some_
      cases some_
  | @joinRaisesOwn join failure join_eq body =>
    have holds := stack.joins join join_eq
    have undrained := running _ join_eq fun _ _ _ same => (by cases same)
    use .of_undrained stack'.bodies undrained fun _ same => (by cases same)
    intro task call nursery outcome mem
    rw [mem_singleton, Event.joined.injEq] at mem
    obtain ⟨rfl, rfl, rfl, rfl⟩ := mem
    refine ⟨holds.made, fun _ => Or.inl ?_⟩
    obtain ⟨_, _, none_, _⟩ | ⟨failure', _, some_, ended⟩ := holds.ended
    · rw [body] at none_
      cases none_
    · rw [body, Option.some_inj] at some_
      rw [some_]
      apply ended
  | @joinRaises join winner join_eq body failed =>
    have holds := stack.joins join join_eq
    have undrained := running _ join_eq fun _ _ _ same => (by cases same)
    use .of_undrained stack'.bodies undrained fun _ same => (by cases same)
    intro task call nursery outcome mem
    rw [mem_singleton, Event.joined.injEq] at mem
    obtain ⟨rfl, rfl, rfl, rfl⟩ := mem
    refine ⟨holds.made, fun attached => Or.inr ⟨?_, winner, owning.raises logged attached failed⟩⟩
    obtain ⟨value, _, _, ended⟩ | ⟨_, _, some_, _⟩ := holds.ended
    · use value
    · rw [body] at some_
      cases some_

/-- Every step leaves the children, the latches and the joins in order. -/
theorem moved (owning : Owning s) (lives : Lives s) (logged : Logged s) (moved : Moved s s') :
  Owning s'
  := by
  cases moved with
  | quiet quiet => apply owning.calm quiet.toCalm
  | polled _ _ held _ quiet => apply (owning.takes _ held).calm quiet.toCalm
  | reaped _ eq =>
    rw [eq]
    exact ⟨owning.owned, owning.owners, owning.unmade, owning.latched,
      fun polling mem => (owning.polling polling mem).mono ⟨Nat.le_refl _, fun _ mem => mem,
        fun _ _ => prefix_refl _, fun _ settled => settled, fun _ _ failed => failed⟩,
      fun task driver held => (owning.suspended task driver held).mono ⟨Nat.le_refl _,
        fun _ mem => mem, fun _ _ => prefix_refl _, fun _ settled => settled,
        fun _ _ failed => failed⟩,
      owning.joined⟩
  | spawned reach quiet => apply (owning.begins logged _ reach).calm quiet.toCalm
  | opened quiet => apply (owning.opens _ _).calm quiet.toCalm
  | suspended running leaf_eq pending quiet =>
    apply (owning.suspend running leaf_eq (becomes_pollLeaf pending)).calm quiet.toCalm
  | @settled top rest outcome running _ _ quiet =>
    have mem : top ∈ s.polling := by
      rw [running]
      apply mem_cons_self
    have made := lives.minted _ _ (lives.named top mem)
    apply (owning.ended logged running made outcome).calm quiet.toCalm
  | @gone top rest frames control events calls running goes quiet =>
    have mem : top ∈ s.polling := by
      rw [running]
      apply mem_cons_self
    apply Owning.calm _ quiet.toCalm
    obtain ⟨_, spawns, settles, _⟩ := Logged.goes_events goes
    have nurseries : ({ s with log := s.log ++ events, calls := calls }.goesOn top rest frames
        control).nurseries = s.nurseries := rfl
    have log : ({ s with log := s.log ++ events, calls := calls }.goesOn top rest frames
        control).log = s.log ++ events := rfl
    have one : events.length ≤ 1 := by cases goes <;> simp
    apply owning.moves nurseries rfl log one (fun _ => rfl) spawns settles
    · intro grows polling held
      obtain rfl | held := mem_cons.mp held
      · apply (owning.goes logged mem goes grows log).1
      · have held' : polling ∈ s.polling := by
          rw [running]
          apply mem_cons_of_mem top held
        apply (owning.polling polling held').mono grows
    · intro grows task driver held
      apply (owning.suspended task driver held).mono grows
    · intro grows
      apply (owning.goes logged mem goes grows log).2

end Owning

theorem Run.owning {actions : List (Action V)} (run : Run actions s) :
  Owning s
  := by
  apply (Machine.Run.invariant (P := fun s => Lives s ∧ Logged s ∧ Owning s) _ _ run).2.2
  · rintro s rfl
    exact ⟨Lives.new, Logged.new, Owning.new⟩
  · rintro s action s' ⟨lives, logged, owning⟩ h
    have moved := lives.moved h
    exact ⟨lives.step h, logged.moved lives moved, owning.moved lives logged moved⟩

/-- **A nursery joins everything it owns.**  A `nursery_run` of a nursery that is joined returns only
when its body has ended with that value and every task registered with the nursery has settled,
none with a real error; and it raises the failure of its body when that failed, and otherwise the
failure of the nursery's task that failed first.  A body ends once. -/
theorem nursery_run_joins_all {actions : List (Action V)} {s : Runtime V} (run : Run actions s)
    {before after : List (Event V)} {task call nursery : ℕ} {outcome : Outcome V}
    (log : s.log = before ++ .joined task call nursery outcome :: after)
    (attached : (s.nurseries nursery).detached = false) :
  JoinEnds before task call nursery outcome ∧
    ∀ first second, .bodyEnded task call first ∈ s.log → .bodyEnded task call second ∈ s.log →
      first = second
  := by
  constructor
  · apply (run.owning.joined before task call nursery outcome after log).2 attached
  · intro first second
    apply run.bodies.once task call first second

/-- A child of the nursery spawns another while the body's end waits for it. -/
def lateChildRun : List (Action ℕ) :=
  [.spawn "main" none, .nurseryNew none, .nurseryRun 0, .timer, .spawn "first" (some 0),
    .await (.timerWait 0 none false), .go, .finish 5, .go, .go, .fire 0, .poll, .go,
    .spawn "second" (some 0), .finish 8, .finish 7, .poll, .go, .go, .go, .go]

/-- What happens before the nursery is joined. -/
def beforeLateJoin : List (Event ℕ) :=
  [.spawned 0 "main" none, .spawned 1 "first" (some 0), .awaited 1 (.timerWait 0 none false),
    .bodyEnded 0 0 (.value 5), .awaited 2 (.nodeJoin 1 0), .answered 1 (.verdict true),
    .spawned 2 "second" (some 0), .settled 2 (.value 8), .settled 1 (.value 7),
    .answered 2 .unit, .awaited 3 (.nodeJoin 2 0), .answered 3 .unit]

/-- The late child is joined too. -/
theorem nursery_run_joins_late_child :
  ∃ s : Runtime ℕ, Run lateChildRun s ∧ JoinEnds beforeLateJoin 0 0 0 (.value 5) ∧
    ∀ first second, .bodyEnded 0 0 first ∈ s.log → .bodyEnded 0 0 second ∈ s.log → first = second
  := by
  obtain ⟨s, run, log, attached⟩ : ∃ s, lateChildRun.foldlM Runtime.step .new = some s ∧
      s.log = beforeLateJoin ++ .joined 0 0 0 (.value 5) :: [] ∧
      (s.nurseries 0).detached = false := ⟨_, rfl, rfl, rfl⟩
  exact ⟨s, Run.of_foldlM run, nursery_run_joins_all (Run.of_foldlM run) log attached⟩

end Vilan.Executor
