import Vilan.Executor.Lives

/-!
# The task slab

The slab hands out ids and takes back the slots of settled tasks, in any order, whatever stale ids
the wake lists still hold.  An id is a slot and the generation the slot had when it was minted; the
generation moves when the slot is reaped.
-/

namespace Vilan.Executor

open List Option

variable {V : Type*}

/-- The runtime, and which node each id was minted for, oldest first.  No code reads the latter. -/
structure Slab (V : Type*) where
  runtime : Runtime V
  minted : List (TaskId × ℕ)

namespace Slab

/-- What may happen to the slab. -/
inductive Action (V : Type*) where
  | register (node : ℕ)
  /-- A wake list enqueues an id, however stale. -/
  | enqueue (id : TaskId)
  /-- The next task of the microtask queue is polled. -/
  | poll
  /-- The innermost poll ends, and the task stays suspended. -/
  | pending (driver : Driver V)
  /-- The innermost poll ends, and the task settles. -/
  | ready (failure : Option Failure)
  | settle (node : ℕ) (failure : Option Failure)
  | reap

/-- The state an action leads to, when it is possible. -/
def step (s : Slab V) : Action V → Option (Slab V)
  | .register node =>
      let registered := s.runtime.registerTask node
      some ⟨registered.1, s.minted ++ [(registered.2, node)]⟩
  | .enqueue id =>
      if id ∈ s.minted.map Prod.fst then some ⟨s.runtime.enqueue [id], s.minted⟩ else none
  | .poll =>
      match s.runtime.microtasks with
      | [] => none
      | id :: rest => some ⟨{ s.runtime with microtasks := rest }.pollTask id, s.minted⟩
  | .pending driver =>
      match s.runtime.polling with
      | [] => none
      | top :: rest =>
          some ⟨{ s.runtime.setNode top.node fun node => { node with driver := some driver } with
            polling := rest }, s.minted⟩
  | .ready failure =>
      match s.runtime.polling with
      | [] => none
      | top :: rest =>
          some ⟨{ s.runtime with polling := rest }.settle top.node failure, s.minted⟩
  | .settle node failure => some ⟨s.runtime.settle node failure, s.minted⟩
  | .reap => some ⟨s.runtime.reapSettled, s.minted⟩

/-- Runs of the slab, from an empty one. -/
def Run : List (Action V) → Slab V → Prop :=
  Machine.Run (fun s => s.runtime.tasks = [] ∧ s.runtime.freeSlots = [] ∧ s.minted = [])
    fun s action s' => s.step action = some s'

/-- The free list holds the empty slots, each once; and an id that was minted is older than its
slot, or names the node it was minted for, and no other id is the same. -/
structure Sound (s : Slab V) : Prop where
  free : ∀ index, index ∈ s.runtime.freeSlots
    ↔ ∃ slot, s.runtime.tasks[index]? = some slot ∧ slot.node = none
  nodup : s.runtime.freeSlots.Nodup
  minted : ∀ id node, (id, node) ∈ s.minted → ∃ slot, s.runtime.tasks[id.index]? = some slot ∧
    (id.generation < slot.generation ∨ id.generation = slot.generation ∧ slot.node = some node)
  once : (s.minted.map Prod.fst).Nodup

/-! ### What leaves the slab alone -/

theorem tasks_fail (s : Runtime V) (nursery task : ℕ) :
  (s.fail nursery task).tasks = s.tasks ∧ (s.fail nursery task).freeSlots = s.freeSlots
  := by
  have latched : (s.latched nursery task).tasks = s.tasks ∧
      (s.latched nursery task).freeSlots = s.freeSlots := by
    rw [Runtime.latched]
    split
    · exact ⟨rfl, rfl⟩
    · exact ⟨rfl, rfl⟩
  have quiet := Runtime.quiet_fail s nursery task
  exact ⟨quiet.tasks.trans latched.1, quiet.freeSlots.trans latched.2⟩

/-- Settling a task leaves the slab alone. -/
theorem tasks_settle (s : Runtime V) (task : ℕ) (failure : Option Failure) :
  (s.settle task failure).tasks = s.tasks ∧ (s.settle task failure).freeSlots = s.freeSlots
  := by
  rw [Runtime.settle]
  split
  · exact ⟨rfl, rfl⟩
  · dsimp only
    split
    · exact tasks_fail _ _ _
    · exact ⟨rfl, rfl⟩

/-- Polling a task leaves the slab alone. -/
theorem tasks_pollTask (s : Runtime V) (id : TaskId) :
  (s.pollTask id).tasks = s.tasks ∧ (s.pollTask id).freeSlots = s.freeSlots
  := by
  rw [Runtime.pollTask]
  split
  · exact ⟨rfl, rfl⟩
  split
  · exact ⟨rfl, rfl⟩
  split
  · exact ⟨rfl, rfl⟩
  · exact ⟨rfl, rfl⟩

variable {s s' : Slab V} {actions : List (Action V)}

/-- What an action does to the slab: a node is registered, settled tasks are reaped, or nothing. -/
theorem step_cases {action : Action V} (h : s.step action = some s') :
  (∃ node, s' = ⟨(s.runtime.registerTask node).1,
      s.minted ++ [((s.runtime.registerTask node).2, node)]⟩) ∨
    s' = ⟨s.runtime.reapSettled, s.minted⟩ ∨
    s'.runtime.tasks = s.runtime.tasks ∧ s'.runtime.freeSlots = s.runtime.freeSlots ∧
      s'.minted = s.minted
  := by
  cases action with
  | register node =>
    rw [step, some_inj] at h
    exact Or.inl ⟨node, h.symm⟩
  | enqueue id =>
    rw [step] at h
    split at h
    · rw [some_inj] at h
      subst h
      exact Or.inr (Or.inr ⟨rfl, rfl, rfl⟩)
    · cases h
  | poll =>
    rw [step] at h
    split at h
    · cases h
    next id rest _ =>
      rw [some_inj] at h
      subst h
      have kept := tasks_pollTask { s.runtime with microtasks := rest } id
      exact Or.inr (Or.inr ⟨kept.1, kept.2, rfl⟩)
  | pending driver =>
    rw [step] at h
    split at h
    · cases h
    · rw [some_inj] at h
      subst h
      exact Or.inr (Or.inr ⟨rfl, rfl, rfl⟩)
  | ready failure =>
    rw [step] at h
    split at h
    · cases h
    next top rest _ =>
      rw [some_inj] at h
      subst h
      have kept := tasks_settle { s.runtime with polling := rest } top.node failure
      exact Or.inr (Or.inr ⟨kept.1, kept.2, rfl⟩)
  | settle node failure =>
    rw [step, some_inj] at h
    subst h
    have kept := tasks_settle s.runtime node failure
    exact Or.inr (Or.inr ⟨kept.1, kept.2, rfl⟩)
  | reap =>
    rw [step, some_inj] at h
    exact Or.inr (Or.inl h.symm)

namespace Sound

variable {s : Slab V}

theorem same {s' : Slab V} (sound : Sound s) (tasks : s'.runtime.tasks = s.runtime.tasks)
    (freeSlots : s'.runtime.freeSlots = s.runtime.freeSlots) (minted : s'.minted = s.minted) :
  Sound s'
  := by
  refine ⟨?_, ?_, ?_, ?_⟩
  · rw [tasks, freeSlots]
    exact sound.free
  · rw [freeSlots]
    exact sound.nodup
  · rw [tasks, minted]
    exact sound.minted
  · rw [minted]
    exact sound.once

/-- A node is registered in the slot that was freed last, or in a fresh one. -/
theorem register (sound : Sound s) (node : ℕ) :
  Sound ⟨(s.runtime.registerTask node).1, s.minted ++ [((s.runtime.registerTask node).2, node)]⟩
  := by
  -- It is enough that the new id is new, and names the node.
  have enough : ∀ (tasks : List TaskSlot) freeSlots (id : TaskId),
      (∀ index : ℕ, index ∈ freeSlots
        ↔ ∃ slot : TaskSlot, tasks[index]? = some slot ∧ slot.node = none) →
      freeSlots.Nodup → tasks[id.index]? = some (⟨some node, id.generation⟩ : TaskSlot) →
      (∀ index, index ≠ id.index → ∀ slot, s.runtime.tasks[index]? = some slot →
        tasks[index]? = some slot) →
      (∀ slot : TaskSlot, s.runtime.tasks[id.index]? = some slot →
        slot.node = none ∧ slot.generation = id.generation) →
      Sound (⟨{ s.runtime with tasks := tasks, freeSlots := freeSlots },
        s.minted ++ [(id, node)]⟩ : Slab V) := by
    intro tasks freeSlots id free nodup named others empty
    refine ⟨free, nodup, ?_, ?_⟩
    · intro id' node' mem
      rw [mem_append, mem_singleton, Prod.mk.injEq] at mem
      obtain mem | ⟨rfl, rfl⟩ := mem
      · obtain ⟨slot, held, older⟩ := sound.minted id' node' mem
        by_cases same : id'.index = id.index
        · rw [same] at held ⊢
          obtain ⟨none_, generation⟩ := empty slot held
          refine ⟨_, named, ?_⟩
          obtain lt | ⟨_, node_eq⟩ := older
          · rw [generation] at lt
            exact Or.inl lt
          · rw [none_] at node_eq
            cases node_eq
        · exact ⟨slot, others id'.index same slot held, older⟩
      · exact ⟨_, named, Or.inr ⟨rfl, rfl⟩⟩
    · rw [map_append, nodup_append]
      refine ⟨sound.once, nodup_singleton _, ?_⟩
      intro id' mem other mem' same
      rw [map_cons, map_nil, mem_singleton] at mem'
      rw [mem'] at same
      subst same
      obtain ⟨⟨id'', node'⟩, listed, rfl⟩ := List.mem_map.mp mem
      obtain ⟨slot, held, older⟩ := sound.minted id'' node' listed
      obtain ⟨none_, generation⟩ := empty slot held
      obtain lt | ⟨_, node_eq⟩ := older
      · rw [generation] at lt
        exact Nat.lt_irrefl _ lt
      · rw [none_] at node_eq
        cases node_eq
  rw [Runtime.registerTask]
  split
  next index free freeSlots_eq =>
    have mem : index ∈ s.runtime.freeSlots := by
      rw [freeSlots_eq]
      exact mem_cons_self
    obtain ⟨⟨none_, generation⟩, held, rfl⟩ := (sound.free index).mp mem
    have nodup := sound.nodup
    rw [freeSlots_eq, nodup_cons] at nodup
    have generation_eq : (s.runtime.tasks[index]?.map TaskSlot.generation).getD 0 = generation := by
      rw [held]
      rfl
    dsimp only
    rw [generation_eq]
    apply enough
    · intro other
      rw [getElem?_modify]
      by_cases same : index = other
      · subst same
        simp only [if_true, held]
        refine ⟨fun mem => absurd mem nodup.1, ?_⟩
        rintro ⟨slot, slot_eq, absurd_⟩
        rw [Option.map_eq_map, map_some, some_inj] at slot_eq
        rw [← slot_eq] at absurd_
        cases absurd_
      · simp only [same, if_false, id_map']
        rw [← sound.free other, freeSlots_eq, mem_cons, or_iff_right (Ne.symm same)]
    · exact nodup.2
    · rw [getElem?_modify, held]
      simp only [if_true]
      rfl
    · intro other ne slot slot_eq
      rw [getElem?_modify, slot_eq]
      simp only [Ne.symm ne, if_false, id_map']
    · intro slot slot_eq
      rw [held, some_inj] at slot_eq
      rw [← slot_eq]
      exact ⟨rfl, rfl⟩
  next freeSlots_eq =>
    have full : ∀ (index : ℕ) (slot : TaskSlot), s.runtime.tasks[index]? = some slot →
        slot.node ≠ none := by
      intro index slot held none_
      have mem := (sound.free index).mpr ⟨slot, held, none_⟩
      rw [freeSlots_eq] at mem
      cases mem
    apply enough
    · intro index
      rw [freeSlots_eq]
      refine ⟨fun mem => absurd mem not_mem_nil, ?_⟩
      rintro ⟨slot, held, none_⟩
      rw [getElem?_append] at held
      split at held
      · exact absurd none_ (full index slot held)
      · rw [getElem?_singleton] at held
        split at held
        · rw [some_inj] at held
          rw [← held] at none_
          cases none_
        · cases held
    · rw [freeSlots_eq]
      exact nodup_nil
    · exact getElem?_concat_length
    · intro index _ slot held
      obtain ⟨lt, _⟩ := List.getElem?_eq_some_iff.mp held
      rw [getElem?_append_left lt, held]
    · intro slot held
      rw [getElem?_eq_none (Nat.le_refl _)] at held
      cases held

/-- The slots of settled tasks are freed. -/
theorem reap (sound : Sound s) :
  Sound ⟨s.runtime.reapSettled, s.minted⟩
  := by
  have slot_eq : ∀ index : ℕ, s.runtime.reapSettled.tasks[index]?
      = s.runtime.tasks[index]?.map fun slot =>
        if s.runtime.isReapable slot then ⟨none, slot.generation + 1⟩ else slot :=
    fun index => getElem?_map
  obtain ⟨freed, nodup⟩ := Runtime.free_reapSettled
    (fun index mem => (sound.free index).mp mem) sound.nodup
  refine ⟨?_, nodup, ?_, sound.once⟩
  · intro index
    refine ⟨freed index, ?_⟩
    rintro ⟨slot', held, none_⟩
    dsimp only at held
    rw [slot_eq, map_eq_some_iff] at held
    obtain ⟨slot, held, rfl⟩ := held
    change index ∈ (s.runtime.tasks.findIdxs s.runtime.isReapable).reverse ++ s.runtime.freeSlots
    rw [mem_append, mem_reverse]
    by_cases reapable : s.runtime.isReapable slot = true
    · left
      obtain ⟨lt, rfl⟩ := List.getElem?_eq_some_iff.mp held
      rw [mem_findIdxs_iff_exists_getElem_pos]
      exact ⟨lt, reapable⟩
    · right
      rw [if_neg reapable] at none_
      exact (sound.free index).mpr ⟨slot, held, none_⟩
  · intro id node mem
    obtain ⟨slot, held, older⟩ := sound.minted id node mem
    rw [slot_eq, held, map_some]
    refine ⟨_, rfl, ?_⟩
    split
    · left
      obtain lt | ⟨generation, _⟩ := older
      · exact Nat.lt_succ_of_lt lt
      · rw [generation]
        exact Nat.lt_succ_self _
    · exact older

/-- Every action keeps the slab sound. -/
theorem step {s' : Slab V} (sound : Sound s) {action : Action V} (h : s.step action = some s') :
  Sound s'
  := by
  obtain ⟨node, rfl⟩ | rfl | ⟨tasks, freeSlots, minted⟩ := step_cases h
  · exact sound.register node
  · exact sound.reap
  · exact sound.same tasks freeSlots minted

end Sound

/-- Actions that are possible one after the other make a run. -/
theorem Run.of_foldlM {s₀ : Slab V}
    (start : s₀.runtime.tasks = [] ∧ s₀.runtime.freeSlots = [] ∧ s₀.minted = [])
    (h : actions.foldlM step s₀ = some s) :
  Run actions s
  := by
  induction actions using List.reverseRecOn generalizing s with
  | nil =>
    rw [foldlM_nil, Option.pure_def, some_inj] at h
    rw [← h]
    exact Machine.Run.start start
  | append_singleton actions action ih =>
    rw [foldlM_append, bind_eq_bind, bind_eq_some_iff] at h
    obtain ⟨s', reached, h⟩ := h
    rw [foldlM_cons, bind_eq_bind, bind_eq_some_iff] at h
    obtain ⟨s'', h, last⟩ := h
    rw [foldlM_nil, Option.pure_def, some_inj] at last
    rw [← last]
    exact (ih reached).step h

theorem Run.sound (run : Run actions s) :
  Sound s
  := by
  apply Machine.Run.invariant _ _ run
  · rintro s ⟨tasks, freeSlots, minted⟩
    refine ⟨?_, ?_, ?_, ?_⟩
    · intro index
      rw [tasks, freeSlots]
      simp
    · rw [freeSlots]
      exact nodup_nil
    · intro id node mem
      rw [minted] at mem
      cases mem
    · rw [minted]
      exact nodup_nil
  · intro s action s' sound h
    exact sound.step h

/-! ### Ids that have gone -/

/-- An id's slot has moved on. -/
def Gone (s : Slab V) (id : TaskId) : Prop :=
  ∃ slot, s.runtime.tasks[id.index]? = some slot ∧ id.generation < slot.generation

theorem Gone.unnamed {id : TaskId} (gone : Gone s id) :
  s.runtime.taskAt id = none
  := by
  obtain ⟨slot, held, lt⟩ := gone
  rw [Runtime.taskAt, held, bind_some, if_neg (Nat.ne_of_gt lt)]

/-- A slot never goes, and its generation never falls. -/
theorem generation_step {action : Action V} (h : s.step action = some s') {index : ℕ}
    {slot : TaskSlot} (held : s.runtime.tasks[index]? = some slot) :
  ∃ slot', s'.runtime.tasks[index]? = some slot' ∧ slot.generation ≤ slot'.generation
  := by
  obtain ⟨node, rfl⟩ | rfl | ⟨tasks, _, _⟩ := step_cases h
  · dsimp only
    rw [Runtime.registerTask]
    split
    next freed free _ =>
      dsimp only
      rw [getElem?_modify, held]
      refine ⟨_, rfl, ?_⟩
      split
      · exact Nat.le_refl _
      · exact Nat.le_refl _
    next =>
      obtain ⟨lt, _⟩ := List.getElem?_eq_some_iff.mp held
      refine ⟨slot, ?_, Nat.le_refl _⟩
      exact (getElem?_append_left lt).trans held
  · have slot_eq : s.runtime.reapSettled.tasks[index]? = s.runtime.tasks[index]?.map fun slot =>
        if s.runtime.isReapable slot then ⟨none, slot.generation + 1⟩ else slot := getElem?_map
    rw [slot_eq, held]
    refine ⟨_, rfl, ?_⟩
    dsimp only
    split
    · exact Nat.le_succ _
    · exact Nat.le_refl _
  · rw [tasks]
    exact ⟨slot, held, Nat.le_refl _⟩

/-- An id that has gone stays gone. -/
theorem Gone.run {id : TaskId} (gone : Gone s id) (run : actions.foldlM step s = some s') :
  Gone s' id
  := by
  induction actions generalizing s with
  | nil =>
    rw [foldlM_nil, Option.pure_def, some_inj] at run
    rw [← run]
    exact gone
  | cons action actions ih =>
    rw [foldlM_cons, bind_eq_bind, bind_eq_some_iff] at run
    obtain ⟨s₁, h, run⟩ := run
    obtain ⟨slot, held, lt⟩ := gone
    obtain ⟨slot', held', le⟩ := generation_step h held
    exact ih ⟨slot', held', Nat.lt_of_lt_of_le lt le⟩ run

/-- **A stale wake never polls a stranger.**  Whatever happens to the slab, in whatever order: an id
names the node it was minted for or nothing, no id is minted twice, and an id that names nothing
never names anything again; polling it polls that node or does nothing; and the free list holds the
empty slots, each once. -/
theorem stale_id_names_no_other {actions : List (Action V)} {s : Slab V} (run : Run actions s) :
  (∀ id node, (id, node) ∈ s.minted → s.runtime.taskAt id = none ∨ s.runtime.taskAt id = some node) ∧
    (s.minted.map Prod.fst).Nodup ∧
    (∀ id node, (id, node) ∈ s.minted → s.runtime.taskAt id = none →
      ∀ (more : List (Action V)) s', more.foldlM step s = some s' → s'.runtime.taskAt id = none) ∧
    (∀ id node, (id, node) ∈ s.minted → s.runtime.pollTask id = s.runtime ∨
      ∃ driver, s.runtime.pollTask id = s.runtime.takes id node driver) ∧
    s.runtime.freeSlots.Nodup ∧
    ∀ index, index ∈ s.runtime.freeSlots
      ↔ ∃ slot, s.runtime.tasks[index]? = some slot ∧ slot.node = none
  := by
  have sound := run.sound
  have either : ∀ id node, (id, node) ∈ s.minted → Gone s id ∨ s.runtime.taskAt id = some node := by
    intro id node mem
    obtain ⟨slot, held, lt | ⟨generation, node_eq⟩⟩ := sound.minted id node mem
    · exact Or.inl ⟨slot, held, lt⟩
    · right
      rw [Runtime.taskAt, held, bind_some, if_pos generation.symm, node_eq]
  refine ⟨?_, sound.once, ?_, ?_, sound.nodup, sound.free⟩
  · intro id node mem
    exact (either id node mem).imp_left Gone.unnamed
  · intro id node mem unnamed more s' later
    obtain gone | named := either id node mem
    · exact (gone.run later).unnamed
    · rw [unnamed] at named
      cases named
  · intro id node mem
    obtain gone | named := either id node mem
    · left
      rw [Runtime.pollTask, gone.unnamed]
    · rw [Runtime.pollTask, named]
      dsimp only
      split
      · exact Or.inl rfl
      split
      · exact Or.inl rfl
      next driver _ => exact Or.inr ⟨driver, rfl⟩

/-- Two nodes are registered, the first settles and is reaped, a third takes its slot, and a stale
wake for the first is left. -/
def reuseRun : List (Action ℕ) :=
  [.register 0, .register 1, .settle 0 none, .reap, .register 2, .enqueue ⟨0, 0⟩, .poll]

/-- The stale id names nothing, and the new one another generation. -/
theorem stale_id_names_no_other_reuse :
  ∃ s : Slab ℕ, Run reuseRun s ∧ s.minted = [(⟨0, 0⟩, 0), (⟨1, 0⟩, 1), (⟨0, 1⟩, 2)] ∧
    (s.runtime.taskAt ⟨0, 1⟩ = none ∨ s.runtime.taskAt ⟨0, 1⟩ = some 2)
  := by
  obtain ⟨s, run, minted⟩ : ∃ s, reuseRun.foldlM step (⟨.new, []⟩ : Slab ℕ) = some s ∧
      s.minted = [(⟨0, 0⟩, 0), (⟨1, 0⟩, 1), (⟨0, 1⟩, 2)] := ⟨_, rfl, rfl⟩
  have reached : Run reuseRun s := Run.of_foldlM ⟨rfl, rfl, rfl⟩ run
  refine ⟨s, reached, minted, (stale_id_names_no_other reached).1 ⟨0, 1⟩ 2 ?_⟩
  rw [minted]
  decide

end Slab

end Vilan.Executor
