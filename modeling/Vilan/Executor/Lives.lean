import Vilan.Executor.Moves

/-!
# The lives of tasks

A task is being polled, suspended or settled.  While it is not settled its driver is where it
should be, and a slot of the slab names it.
-/

namespace Vilan.Executor

open List Option Function

variable {V : Type*}

/-- Free slots are empty, a slot names a task that was made, and a task that is being polled
or is suspended is unsettled and has an id. -/
structure Lives (s : Runtime V) : Prop where
  free : ∀ index ∈ s.freeSlots, ∃ slot, s.tasks[index]? = some slot ∧ slot.node = none
  nodup : s.freeSlots.Nodup
  minted : ∀ id task, s.taskAt id = some task → task < s.madeNodes
  unsettled : ∀ polling ∈ s.polling, (s.nodes polling.node).settled = false
  taken : ∀ polling ∈ s.polling, (s.nodes polling.node).driver = none
  named : ∀ polling ∈ s.polling, s.taskAt polling.id = some polling.node
  once : (s.polling.map Polling.node).Nodup
  suspended : ∀ task driver, (s.nodes task).driver = some driver →
    (s.nodes task).settled = false ∧ ∃ id, s.taskAt id = some task

namespace Runtime

/-! ### Ids -/

variable {id : TaskId} {task : ℕ} {s s' : Runtime V} {top : Polling V} {rest : List (Polling V)}

theorem taskAt_eq_some_iff :
  s.taskAt id = some task
    ↔ s.tasks[id.index]? = some ⟨some task, id.generation⟩
  := by
  rw [taskAt, bind_eq_some_iff]
  constructor
  · rintro ⟨⟨node, generation⟩, hslot, h⟩
    simp only at h
    split at h
    case isFalse => contradiction
    case isTrue heq => rw [hslot, h, heq]
  · intro h
    refine ⟨_, h, ?_⟩
    simp

theorem taskAt_congr (h : s'.tasks = s.tasks) (id : TaskId) :
  s'.taskAt id = s.taskAt id
  := by
  rw [taskAt, taskAt, h]

/-- A task that is registered gets an id of its own, and the others keep theirs. -/
theorem taskAt_registerTask
    (hfree : ∀ index ∈ s.freeSlots, ∃ slot, s.tasks[index]? = some slot ∧ slot.node = none)
    (task : ℕ) :
  (s.registerTask task).1.taskAt (s.registerTask task).2 = some task
    ∧ (∀ id other, s.taskAt id = some other → (s.registerTask task).1.taskAt id = some other)
    ∧ ∀ id other, (s.registerTask task).1.taskAt id = some other →
      (other = task ∧ id = (s.registerTask task).2) ∨ s.taskAt id = some other
  := by
  rw [registerTask]
  split
  case h_1 index free hfreeSlots =>
    obtain ⟨⟨node, generation⟩, hslot, rfl⟩ := hfree index (by rw [hfreeSlots]; simp)
    simp only [taskAt_eq_some_iff, getElem?_modify]
    refine ⟨?_, ?_, ?_⟩
    · simp [hslot]
    · intro id other hid
      by_cases hne : index = id.index
      · rw [← hne, hslot] at hid
        simp at hid
      · simp [hne, hid]
    · intro id other hid
      by_cases hne : index = id.index
      · rw [← hne, hslot] at hid
        left
        simp only [if_true, Option.map_eq_map, map_some, some_inj,
          TaskSlot.mk.injEq] at hid
        obtain ⟨index', generation'⟩ := id
        obtain ⟨rfl, rfl⟩ := hid
        refine ⟨rfl, ?_⟩
        rw [TaskId.mk.injEq, hslot]
        exact ⟨hne.symm, rfl⟩
      · right
        simpa [hne] using hid
  case h_2 =>
    simp only [taskAt_eq_some_iff]
    refine ⟨?_, ?_, ?_⟩
    · simp
    · intro id other hid
      obtain ⟨hlt, -⟩ := List.getElem?_eq_some_iff.mp hid
      rw [getElem?_append_left hlt, hid]
    · intro id other hid
      rw [getElem?_append] at hid
      split at hid
      case isTrue =>
        right
        apply hid
      case isFalse isFalse_ =>
        left
        cases hindex : id.index - s.tasks.length with
        | zero =>
          rw [hindex] at hid
          simp only [getElem?_cons_zero, some_inj, TaskSlot.mk.injEq] at hid
          obtain ⟨index, generation⟩ := id
          obtain ⟨rfl, rfl⟩ := hid
          refine ⟨rfl, ?_⟩
          rw [TaskId.mk.injEq]
          simp only at hindex isFalse_
          omega
        | succ more =>
          rw [hindex] at hid
          simp at hid

/-- Free slots stay empty when a task is registered. -/
theorem free_registerTask
    (hfree : ∀ index ∈ s.freeSlots, ∃ slot, s.tasks[index]? = some slot ∧ slot.node = none)
    (hnodup : s.freeSlots.Nodup) (task : ℕ) :
  (∀ index ∈ (s.registerTask task).1.freeSlots,
      ∃ slot, (s.registerTask task).1.tasks[index]? = some slot ∧ slot.node = none)
    ∧ (s.registerTask task).1.freeSlots.Nodup
  := by
  rw [registerTask]
  split
  case h_1 index free hfreeSlots =>
    rw [hfreeSlots, nodup_cons] at hnodup
    refine ⟨?_, hnodup.2⟩
    intro other hother
    obtain ⟨slot, hslot, hnode⟩ := hfree other (by rw [hfreeSlots]; simp [hother])
    refine ⟨slot, ?_, hnode⟩
    have hne : index ≠ other := by
      rintro rfl
      exact hnodup.1 hother
    simp [getElem?_modify, hne, hslot]
  case h_2 hfreeSlots =>
    refine ⟨?_, hnodup⟩
    intro index hindex
    obtain ⟨slot, hslot, hnode⟩ := hfree index hindex
    obtain ⟨hlt, -⟩ := List.getElem?_eq_some_iff.mp hslot
    refine ⟨slot, ?_, hnode⟩
    rw [getElem?_append_left hlt, hslot]

/-- Reaping takes the ids of settled tasks, and no others. -/
theorem taskAt_reapSettled :
  s.reapSettled.taskAt id = some task
    ↔ s.taskAt id = some task ∧ (s.nodes task).settled = false
  := by
  rw [taskAt_eq_some_iff, taskAt_eq_some_iff]
  simp only [reapSettled, getElem?_map]
  cases s.tasks[id.index]? with
  | none => simp
  | some slot =>
    obtain ⟨node, generation⟩ := slot
    cases node with
    | none => simp [isReapable]
    | some held =>
      have hreap : s.isReapable ⟨some held, generation⟩ = (s.nodes held).settled := rfl
      rw [map_some, hreap]
      by_cases hsettled : (s.nodes held).settled = true
      · rw [if_pos hsettled]
        simp only [some_inj, TaskSlot.mk.injEq, reduceCtorEq, false_and, false_iff,
          not_and, Bool.not_eq_false, and_imp]
        rintro rfl -
        apply hsettled
      · rw [if_neg hsettled]
        rw [Bool.not_eq_true] at hsettled
        simp only [some_inj, TaskSlot.mk.injEq, iff_self_and, and_imp]
        rintro rfl -
        apply hsettled

/-- The slots that are freed were not free, and are empty from then on. -/
theorem free_reapSettled
    (hfree : ∀ index ∈ s.freeSlots, ∃ slot, s.tasks[index]? = some slot ∧ slot.node = none)
    (hnodup : s.freeSlots.Nodup) :
  (∀ index ∈ s.reapSettled.freeSlots,
      ∃ slot, s.reapSettled.tasks[index]? = some slot ∧ slot.node = none)
    ∧ s.reapSettled.freeSlots.Nodup
  := by
  have hmem : ∀ index, index ∈ s.tasks.findIdxs s.isReapable
      ↔ ∃ slot, s.tasks[index]? = some slot ∧ s.isReapable slot = true := by
    intro index
    rw [mem_findIdxs_iff_exists_getElem_pos]
    constructor
    · rintro ⟨hlt, h⟩
      exact ⟨_, getElem?_eq_getElem hlt, h⟩
    · rintro ⟨slot, hslot, h⟩
      obtain ⟨hlt, rfl⟩ := List.getElem?_eq_some_iff.mp hslot
      exact ⟨hlt, h⟩
  constructor
  · intro index hindex
    simp only [reapSettled, mem_append, mem_reverse, hmem] at hindex
    simp only [reapSettled, getElem?_map]
    rcases hindex with ⟨slot, hslot, hreap⟩ | hindex
    · refine ⟨_, by rw [hslot, map_some, if_pos hreap], rfl⟩
    · obtain ⟨slot, hslot, hnode⟩ := hfree index hindex
      refine ⟨slot, ?_, hnode⟩
      rw [hslot, map_some, if_neg]
      simp [isReapable, hnode]
  · simp only [reapSettled, nodup_append, nodup_reverse]
    refine ⟨nodup_findIdxs, hnodup, ?_⟩
    rintro index hreaped _ hother rfl
    rw [mem_reverse, hmem] at hreaped
    obtain ⟨slot, hslot, hreap⟩ := hreaped
    obtain ⟨slot', hslot', hnode⟩ := hfree index hother
    rw [hslot, some_inj] at hslot'
    subst hslot'
    simp [isReapable, hnode] at hreap

/-! ### What the executor's functions do -/

/-- Changes that agree task by task and nursery by nursery. -/
theorem quiet_of (hnodes : ∀ task, SameTask (s.nodes task) (s'.nodes task))
    (hmadeNodes : s'.madeNodes = s.madeNodes)
    (hnurseries : ∀ nursery, SameNursery (s.nurseries nursery) (s'.nurseries nursery))
    (hmadeNurseries : s'.madeNurseries = s.madeNurseries) (hpolling : s'.polling = s.polling)
    (hcalls : s'.calls = s.calls) (hlog : s'.log = s.log) (htasks : s'.tasks = s.tasks)
    (hfreeSlots : s'.freeSlots = s.freeSlots) :
  Quiet s s'
  := ⟨⟨hnodes, hmadeNodes, hnurseries, hmadeNurseries, hpolling, hcalls, hlog⟩, htasks, hfreeSlots⟩

/-- Registering a task depends on the slab alone. -/
theorem registerTask_eq (htasks : s'.tasks = s.tasks) (hfreeSlots : s'.freeSlots = s.freeSlots)
    (task : ℕ) :
  s'.registerTask task
    = ({ s' with
          tasks := (s.registerTask task).1.tasks
          freeSlots := (s.registerTask task).1.freeSlots },
        (s.registerTask task).2)
  := by
  rw [registerTask, registerTask, htasks, hfreeSlots]
  split
  · rfl
  · rw [← hfreeSlots]

theorem addChild_frame (s : Runtime V) (nursery : Option ℕ) (task : ℕ) :
  s.addChild nursery task = { s with nurseries := (s.addChild nursery task).nurseries }
  := by
  cases nursery with
  | none => rfl
  | some nursery => rfl

theorem nurseries_addChild (s : Runtime V) (nursery : Option ℕ) (task other : ℕ) :
  (s.addChild nursery task).nurseries other
    = if nursery = some other then
        { s.nurseries other with children := (s.nurseries other).children ++ [task] }
      else s.nurseries other
  := by
  cases nursery with
  | none => rfl
  | some nursery =>
    by_cases hne : other = nursery
    · subst hne
      rw [if_pos rfl]
      exact update_self _ _ _
    · rw [if_neg (by simpa using Ne.symm hne)]
      exact update_of_ne hne _ _

/-- Polling a suspended task takes its driver. -/
theorem pollTask_of_driver {driver : Driver V} (hid : s.taskAt id = some task)
    (hunsettled : (s.nodes task).settled = false) (hdriver : (s.nodes task).driver = some driver) :
  s.pollTask id = s.takes id task driver
  := by
  rw [pollTask, hid]
  simp only [hunsettled, hdriver, Bool.false_eq_true, if_false]
  rfl

/-- Spawning a task begins to poll it. -/
theorem spawnIn_eq
    (hfree : ∀ index ∈ s.freeSlots, ∃ slot, s.tasks[index]? = some slot ∧ slot.node = none)
    (origin : String) (nursery : Option ℕ) :
  s.spawnIn origin nursery = s.begins origin nursery
  := by
  have hframe := addChild_frame (s.makeNode origin nursery) nursery s.madeNodes
  have hnurseries : ((s.makeNode origin nursery).addChild nursery s.madeNodes).nurseries
      = (s.enters origin nursery).nurseries := by
    funext other
    rw [nurseries_addChild]
    rfl
  rw [hnurseries] at hframe
  have htasks : ((s.makeNode origin nursery).addChild nursery s.madeNodes).tasks = s.tasks := by
    rw [hframe]
    rfl
  have hfreeSlots :
      ((s.makeNode origin nursery).addChild nursery s.madeNodes).freeSlots = s.freeSlots := by
    rw [hframe]
    rfl
  have hnode : (s.enters origin nursery).nodes s.madeNodes
      = ⟨origin, some ⟨[], .code⟩, false, none, false, nursery, [], false, none⟩ :=
    update_self _ _ _
  have hself : (s.enters origin nursery).taskAt (s.registerTask s.madeNodes).2 = some s.madeNodes :=
    (taskAt_registerTask hfree s.madeNodes).1
  have henters : s.spawnIn origin nursery
      = (s.enters origin nursery).pollTask (s.registerTask s.madeNodes).2 := by
    rw [spawnIn, registerTask_eq htasks hfreeSlots, hframe]
    rfl
  rw [henters, begins]
  apply pollTask_of_driver hself
  · rw [hnode]
  · rw [hnode]

/-- The state in which a task's failure has latched its nursery. -/
def latched (s : Runtime V) (nursery task : ℕ) : Runtime V :=
  if (s.nurseries nursery).detached = false ∧ (s.nurseries nursery).failed = none then
    s.setNursery nursery fun body => { body with failed := some task }
  else s

theorem quiet_fail (s : Runtime V) (nursery task : ℕ) :
  Quiet (s.latched nursery task) (s.fail nursery task)
  := by
  rw [fail]
  split
  case isTrue hdetached =>
    rw [latched, if_neg (by simp [hdetached])]
    split
    · apply Quiet.refl
    · apply Quiet.reportUnobserved
  case isFalse hdetached =>
    rw [Bool.not_eq_true] at hdetached
    split
    case isTrue hfailed =>
      rw [latched, if_neg (by rintro ⟨-, hnone⟩; simp [hnone] at hfailed)]
      apply Quiet.refl
    case isFalse hfailed =>
      rw [isSome_iff_ne_none, not_not] at hfailed
      rw [latched, if_pos ⟨hdetached, hfailed⟩]
      have hcancel := Quiet.cancel
        (s.setNursery nursery fun body => { body with failed := some task }) nursery
      have hwoken : ∀ s : Runtime V, Quiet s
          (s.setNursery nursery fun body => { body with failWaiters := [] }) :=
        fun s => Quiet.setNursery s nursery ⟨rfl, rfl, rfl⟩
      exact (hcancel.trans (hwoken _)).trans (Quiet.enqueue _ _)

/-- A real error tells the nursery of its task. -/
def told (s : Runtime V) (task : ℕ) (outcome : Outcome V) : Runtime V :=
  match (s.nodes task).nursery with
  | some nursery => if outcome.isPanic then s.latched nursery task else s
  | none => s

theorem told_frame (s : Runtime V) (task : ℕ) (outcome : Outcome V) :
  s.told task outcome = { s with nurseries := (s.told task outcome).nurseries }
  := by
  rw [told]
  split
  · split
    · rw [latched]
      split
      · rfl
      · rfl
    · rfl
  · rfl

theorem nurseries_told (s : Runtime V) (task : ℕ) (outcome : Outcome V) (nursery : ℕ) :
  (s.told task outcome).nurseries nursery
    = if s.latches task outcome nursery then { s.nurseries nursery with failed := some task }
      else s.nurseries nursery
  := by
  rw [told]
  split
  case h_2 hnone => rw [if_neg (by simp [latches, hnone])]
  case h_1 owner howner =>
    split
    case isFalse hpanic => rw [if_neg (by simp [latches, hpanic])]
    case isTrue hpanic =>
      rw [latched]
      by_cases hne : nursery = owner
      · subst hne
        split
        case isTrue h =>
          rw [if_pos ⟨hpanic, howner, h⟩]
          exact update_self _ _ _
        case isFalse h =>
          rw [if_neg]
          rintro ⟨-, -, hlatch⟩
          exact h hlatch
      · have hnot : ¬ s.latches task outcome nursery := by
          rintro ⟨-, hsame, -⟩
          rw [howner, some_inj] at hsame
          exact hne hsame.symm
        rw [if_neg hnot]
        split
        · exact update_of_ne hne _ _
        · rfl

/-- Settling an unsettled task. -/
theorem quiet_settle (hunsettled : (s.nodes task).settled = false) (outcome : Outcome V) :
  Quiet
    ((s.setNode task fun node =>
      { node with settled := true, driver := none, failure := outcome.failure? }).told task outcome)
    (s.settle task outcome.failure?)
  := by
  have hclear : ∀ s : Runtime V, Quiet s (s.setNode task fun node => { node with waiters := [] }) :=
    fun s => Quiet.setNode s task ⟨rfl, rfl, rfl, rfl, rfl, rfl⟩
  have hnursery : ((s.setNode task fun node =>
      { node with settled := true, driver := none, failure := outcome.failure? }).nodes
        task).nursery = (s.nodes task).nursery := by
    simp [setNode]
  rw [settle, if_neg (by simp [hunsettled]), told, hnursery]
  apply Quiet.trans _ ((hclear _).trans (Quiet.enqueue _ _))
  rcases outcome with value | ⟨_ | ⟨message, location⟩⟩
  · simp only [Outcome.failure?, Outcome.isPanic, Bool.false_eq_true, if_false]
    split
    · apply Quiet.refl
    · apply Quiet.refl
  · simp only [Outcome.failure?, Outcome.isPanic, Bool.false_eq_true, if_false]
    split
    · apply Quiet.refl
    · apply Quiet.refl
  · cases (s.nodes task).nursery with
    | none => apply Quiet.refl
    | some nursery => apply quiet_fail

/-- What the end of the current task changes. -/
theorem quiet_settleTop (hunsettled : (s.nodes top.node).settled = false) (rest : List (Polling V))
    (outcome : Outcome V) :
  Quiet (s.ended top.node rest outcome) (s.settleTop top rest outcome)
  := by
  -- The value is in its cell before the task settles.
  have hbase : ∀ s' : Runtime V, s'.nodes = Function.update s.nodes top.node
        { s.nodes top.node with value := outcome.valueOr (s.nodes top.node).value } →
      s' = { s.happened (.settled top.node outcome) with nodes := s'.nodes, polling := rest } →
      Quiet (s.ended top.node rest outcome) (s'.settle top.node outcome.failure?) := by
    intro s' hnodes hs'
    have hself : s'.nodes top.node =
        { s.nodes top.node with value := outcome.valueOr (s.nodes top.node).value } := by
      rw [hnodes, update_self]
    have hopen : (s'.nodes top.node).settled = false := by
      rw [hself]
      exact hunsettled
    have hsettle := quiet_settle hopen outcome
    apply Quiet.trans _ hsettle
    rw [told_frame]
    apply quiet_of
    · intro task
      by_cases hne : task = top.node
      · subst hne
        simp only [ended, setNode, update_self, hself]
        apply SameTask.refl
      · simp only [ended, setNode, update_of_ne hne, hnodes]
        apply SameTask.refl
    · rw [hs']
      rfl
    · intro nursery
      have hlatches : (s'.setNode top.node fun node =>
          { node with settled := true, driver := none, failure := outcome.failure? }).latches
            top.node outcome nursery ↔ s.latches top.node outcome nursery := by
        rw [latches, latches, hs']
        simp only [setNode, update_self, hself]
        rfl
      simp only [nurseries_told, hlatches]
      rw [hs']
      apply SameNursery.refl
    all_goals
      rw [hs']
      rfl
  unfold settleTop
  cases outcome with
  | value value =>
    apply hbase
    · rfl
    · rfl
  | failure failure =>
    apply hbase
    · simp only [happened]
      exact (update_eq_self _ _).symm
    · rfl

theorem quiet_nurseryNew (s : Runtime V) (parent : Option ℕ) :
  Quiet (s.opens parent false) (s.nurseryNew parent)
  := by
  cases parent with
  | none => apply Quiet.refl
  | some parent =>
    change Quiet (s.opens (some parent) false)
      (if (s.opens (some parent) false).isCancelled parent then
        (s.opens (some parent) false).cancel s.madeNurseries
      else (s.opens (some parent) false).setNursery parent fun body =>
        { body with descendants := body.descendants ++ [s.madeNurseries] })
    split
    · apply Quiet.cancel
    · apply Quiet.setNursery _ _ ⟨rfl, rfl, rfl⟩

/-! ### What a step does -/

theorem quiet_suspend (h : Quiet s s') (top : Polling V) (rest : List (Polling V)) (call : ℕ)
    (leaf : Leaf) :
  Quiet (s.suspend top rest call leaf) (s'.suspend top rest call leaf)
  := by
  refine quiet_of ?_ h.madeNodes h.nurseries h.madeNurseries rfl h.calls h.log h.tasks h.freeSlots
  intro task
  by_cases hne : task = top.node
  · subst hne
    simp only [suspend, setNode, update_self]
    have := h.nodes top.node
    exact ⟨this.origin, rfl, this.settled, this.failure, this.nursery, this.value⟩
  · simp only [suspend, setNode, update_of_ne hne]
    apply h.nodes

theorem quiet_goesOn (h : Quiet s s') (events : List (Event V)) (top : Polling V)
    (rest : List (Polling V)) (frames : List (Frame V)) (control : Control V) :
  Quiet ({ s with log := s.log ++ events, calls := s.calls }.goesOn top rest frames control)
    ({ s' with log := s'.log ++ events }.goesOn top rest frames control)
  := by
  refine quiet_of h.nodes h.madeNodes h.nurseries h.madeNurseries rfl h.calls ?_ h.tasks
    h.freeSlots
  simp only [goesOn, h.log]

/-- A leaf future of the current task is polled. -/
theorem moved_pollTop {call : ℕ} {leaf : Leaf} (hpolling : s.polling = top :: rest)
    (hcontrol : top.control = .leaf call leaf) :
  Moved s (s.pollTop top rest call leaf)
  := by
  have hquiet := Quiet.pollLeaf s top.id leaf
  rw [pollTop]
  split
  case h_1 leaf' hpending =>
    apply Moved.suspended hpolling hcontrol hpending
    apply quiet_suspend hquiet
  case h_2 answer hready =>
    have hfailed : ∀ nursery, ((s.pollLeaf top.id leaf).1.nurseries nursery).failed
        = (s.nurseries nursery).failed := fun nursery => (hquiet.nurseries nursery).failed
    unfold answerLeaf
    split
    case h_1 failure _ =>
      apply Moved.gone hpolling (.fails hcontrol hready)
      apply quiet_goesOn hquiet
    case h_2 join frames hframes =>
      simp only [hfailed]
      apply Moved.gone hpolling (.drains hcontrol hready hframes)
      apply quiet_goesOn hquiet
    case h_3 hnot =>
      apply Moved.gone hpolling (.answers hcontrol hready ?_) (quiet_goesOn hquiet _ _ _ _ _)
      intro join frames
      apply hnot

/-- A `nursery_run` goes on. -/
theorem moved_joinTop {join : Join V} (hpolling : s.polling = top :: rest)
    (hcontrol : top.control = .join join) :
  Moved s (s.joinTop top rest join)
  := by
  rw [joinTop]
  split
  case h_1 failure _ hbody =>
    apply Moved.gone hpolling (.joinRaisesOwn hcontrol hbody)
    apply quiet_goesOn (Quiet.observeAll s _)
  case h_2 winner hbody hfailed =>
    apply Moved.gone hpolling (.joinRaises hcontrol hbody hfailed)
    apply quiet_goesOn (Quiet.observeAll s _)
  case h_3 hbody hfailed =>
    split
    case h_1 child _ hchild =>
      apply Moved.gone hpolling (.joinsChild hcontrol hbody hfailed hchild) (Quiet.refl _)
    case h_2 value hchildren hresult =>
      apply Moved.gone hpolling (.joinReturns hcontrol hbody hfailed hchildren hresult)
        (quiet_goesOn (Quiet.refl s) _ _ _ _ _)
    case h_3 _ hresult =>
      apply Moved.gone hpolling (.joinBreaks _ hcontrol hbody hresult)
      have := quiet_goesOn (Quiet.refl s) [] top rest top.frames
        (.unwind (.panic "a body that did not fail produced its value" none))
      simpa using this

/-- A step that logs nothing goes on from the state as it is. -/
theorem quiet_unlogged (frames : List (Frame V)) (control : Control V) :
  Quiet ({ s with log := s.log ++ [], calls := s.calls }.goesOn top rest frames control)
    (s.goesOn top rest frames control)
  := by
  have := quiet_goesOn (Quiet.refl s) [] top rest frames control
  simpa using this

/-- A failure is raised past one frame. -/
theorem moved_unwindTop {failure : Failure} (hpolling : s.polling = top :: rest)
    (hcontrol : top.control = .unwind failure) (hunsettled : (s.nodes top.node).settled = false) :
  Moved s (s.unwindTop top rest failure)
  := by
  rw [unwindTop]
  split
  case h_1 hframes =>
    apply Moved.settled hpolling hframes (Or.inr ⟨failure, hcontrol⟩)
    apply quiet_settleTop hunsettled
  case h_2 call nursery frames hframes =>
    apply Moved.gone hpolling (.bodyFails hcontrol hframes)
    have hcancel := Quiet.cancel (s.happened (.bodyEnded top.node call (.failure failure))) nursery
    exact quiet_of hcancel.nodes hcancel.madeNodes hcancel.nurseries hcancel.madeNurseries rfl
      hcancel.calls hcancel.log hcancel.tasks hcancel.freeSlots
  case h_3 join frames hframes =>
    apply Moved.gone hpolling (.leaves (Or.inr ⟨join, rfl⟩) hframes (Or.inr ⟨failure, hcontrol⟩)
      (Or.inr ⟨failure, rfl⟩)) (quiet_unlogged _ _)
  case h_4 frames hframes =>
    apply Moved.gone hpolling (.leaves (Or.inl rfl) hframes (Or.inr ⟨failure, hcontrol⟩)
      (Or.inl rfl)) (quiet_unlogged _ _)

/-- The innermost code ends. -/
theorem moved_finishTop (value : V) (hpolling : s.polling = top :: rest)
    (hcontrol : top.control = .code) (hunsettled : (s.nodes top.node).settled = false) :
  Moved s (s.finishTop top rest value)
  := by
  rw [finishTop]
  split
  case h_1 hframes =>
    apply Moved.settled hpolling hframes (Or.inl hcontrol)
    apply quiet_settleTop hunsettled
  case h_2 call nursery frames hframes =>
    apply Moved.gone hpolling (.bodyEnds value hcontrol hframes)
      (quiet_goesOn (Quiet.refl s) _ _ _ _ _)
  case h_3 join frames hframes =>
    apply Moved.gone hpolling (.leaves (Or.inr ⟨join, rfl⟩) hframes (Or.inl hcontrol)
      (Or.inl rfl)) (quiet_unlogged _ _)
  case h_4 frames hframes =>
    apply Moved.gone hpolling (.leaves (Or.inl rfl) hframes (Or.inl hcontrol) (Or.inl rfl))
      (quiet_unlogged _ _)

/-- Code does something to its own task. -/
theorem moved_codeTop {action : Action V} (hpolling : s.polling = top :: rest)
    (hcontrol : top.control = .code) (hunsettled : (s.nodes top.node).settled = false)
    (h : s.codeTop top rest action = some s') :
  Moved s s'
  := by
  unfold codeTop at h
  split at h
  case h_1 leaf =>
    split at h
    case isFalse => contradiction
    case isTrue hleaf =>
      rw [some_inj] at h
      subst h
      exact Moved.gone hpolling (.awaits leaf hcontrol hleaf) (Quiet.refl _)
  case h_2 nursery =>
    split at h
    case isFalse => contradiction
    case isTrue hreach =>
      rw [some_inj] at h
      subst h
      apply Moved.gone hpolling (.runs nursery hcontrol hreach)
      have := Quiet.refl ({ s with calls := s.calls + 1 }.goesOn top rest
        (.body s.calls nursery :: top.frames) .code)
      simpa using this
  case h_3 =>
    rw [some_inj] at h
    subst h
    exact Moved.gone hpolling (.catches hcontrol) (quiet_unlogged _ _)
  case h_4 value =>
    rw [some_inj] at h
    subst h
    exact moved_finishTop value hpolling hcontrol hunsettled
  case h_5 failure =>
    rw [some_inj] at h
    subst h
    exact Moved.gone hpolling (.raises failure hcontrol) (quiet_unlogged _ _)
  case h_6 => contradiction

end Runtime

/-- **What a step does.** -/
theorem Lives.moved {s s' : Runtime V} (lives : Lives s) {action : Action V}
    (h : s.step action = some s') :
  Moved s s'
  := by
  have htop : ∀ {top rest}, s.polling = top :: rest → (s.nodes top.node).settled = false := by
    intro top rest hpolling
    apply lives.unsettled
    rw [hpolling]
    apply mem_cons_self
  unfold Runtime.step at h
  split at h
  case h_1 =>
    split at h
    case h_2 => contradiction
    case h_1 id microtasks hidle _ =>
      rw [some_inj] at h
      subst h
      have hpopped : Quiet s { s with microtasks := microtasks } :=
        Quiet.of_eq rfl rfl rfl rfl rfl rfl rfl rfl rfl
      rw [Runtime.pollTask]
      split
      case h_1 => apply Moved.quiet hpopped
      case h_2 task hid =>
        split
        case isTrue => apply Moved.quiet hpopped
        case isFalse hunsettled =>
          rw [Bool.not_eq_true] at hunsettled
          split
          case h_1 => apply Moved.quiet hpopped
          case h_2 driver hdriver =>
            refine Moved.polled (s := s) hid hunsettled hdriver hidle ?_
            exact Quiet.of_eq rfl rfl rfl rfl rfl rfl rfl rfl rfl
  case h_2 slot =>
    split at h
    case isFalse => contradiction
    case isTrue =>
      rw [some_inj] at h
      subst h
      apply Moved.quiet (Quiet.fireTimer s slot)
  case h_3 =>
    split at h
    case isFalse => contradiction
    case isTrue =>
      rw [some_inj] at h
      subst h
      apply Moved.quiet (Quiet.reportUnobservedFailures s)
  case h_4 =>
    split at h
    case isFalse => contradiction
    case isTrue hidle =>
      rw [some_inj] at h
      apply Moved.reaped (List.isEmpty_iff.mp hidle) h.symm
  case h_5 nursery =>
    split at h
    case isFalse => contradiction
    case isTrue =>
      rw [some_inj] at h
      subst h
      apply Moved.quiet (Quiet.setNursery s nursery ⟨rfl, rfl, rfl⟩)
  case h_6 =>
    split at h
    case h_1 => contradiction
    case h_2 top rest hpolling =>
      unfold Runtime.goTop at h
      split at h
      case h_1 => contradiction
      case h_2 hcontrol =>
        rw [some_inj] at h
        subst h
        apply Runtime.moved_pollTop hpolling hcontrol
      case h_3 hcontrol =>
        rw [some_inj] at h
        subst h
        apply Runtime.moved_joinTop hpolling hcontrol
      case h_4 hcontrol =>
        rw [some_inj] at h
        subst h
        apply Runtime.moved_unwindTop hpolling hcontrol (htop hpolling)
  case h_7 origin nursery =>
    split at h
    case isFalse => contradiction
    case isTrue hguard =>
      rw [Bool.and_eq_true] at hguard
      rw [some_inj] at h
      subst h
      rw [Runtime.spawnIn_eq lives.free]
      apply Moved.spawned hguard.2 (Quiet.refl _)
  case h_8 parent =>
    split at h
    case isFalse => contradiction
    case isTrue =>
      rw [some_inj] at h
      subst h
      apply Moved.opened (Runtime.quiet_nurseryNew s parent)
  case h_9 =>
    split at h
    case isFalse => contradiction
    case isTrue =>
      rw [some_inj] at h
      subst h
      exact Moved.opened (Quiet.refl (s.opens none true))
  case h_10 nursery =>
    split at h
    case isFalse => contradiction
    case isTrue =>
      rw [some_inj] at h
      subst h
      apply Moved.quiet (Quiet.cancel s nursery)
  case h_11 =>
    split at h
    case isFalse => contradiction
    case isTrue =>
      rw [some_inj] at h
      subst h
      apply Moved.quiet (Quiet.timer s)
  case h_12 timer =>
    split at h
    case isFalse => contradiction
    case isTrue =>
      rw [some_inj] at h
      subst h
      apply Moved.quiet (Quiet.cancelTimer s timer)
  case h_13 =>
    split at h
    case h_1 => contradiction
    case h_2 top rest hpolling =>
      split at h
      case isFalse => contradiction
      case isTrue hcode =>
        have hcontrol : top.control = .code := by
          rw [Runtime.codeRuns, hpolling] at hcode
          simp only at hcode
          split at hcode
          case h_1 h => apply h
          case h_2 => contradiction
        apply Runtime.moved_codeTop hpolling hcontrol (htop hpolling) h

/-! ### Lives are kept -/

namespace Lives

theorem new :
  Lives (Runtime.new : Runtime V)
  where
  free := by simp [Runtime.new]
  nodup := nodup_nil
  minted := by simp [Runtime.new, Runtime.taskAt]
  unsettled := by simp [Runtime.new]
  taken := by simp [Runtime.new]
  named := by simp [Runtime.new]
  once := nodup_nil
  suspended := by simp [Runtime.new]

variable {s s' : Runtime V}

section

variable (lives : Lives s)
include lives

theorem quiet (h : Quiet s s') :
  Lives s'
  where
  free := by
    rw [h.freeSlots, h.tasks]
    apply lives.free
  nodup := by
    rw [h.freeSlots]
    apply lives.nodup
  minted := by
    intro id task hid
    rw [Runtime.taskAt_congr h.tasks] at hid
    rw [h.madeNodes]
    apply lives.minted id task hid
  unsettled := by
    rw [h.polling]
    intro polling hpolling
    rw [(h.nodes _).settled]
    apply lives.unsettled polling hpolling
  taken := by
    rw [h.polling]
    intro polling hpolling
    rw [(h.nodes _).driver]
    apply lives.taken polling hpolling
  named := by
    rw [h.polling]
    intro polling hpolling
    rw [Runtime.taskAt_congr h.tasks]
    apply lives.named polling hpolling
  once := by
    rw [h.polling]
    apply lives.once
  suspended := by
    intro task driver hdriver
    rw [(h.nodes _).driver] at hdriver
    rw [(h.nodes _).settled]
    obtain ⟨hunsettled, id, hid⟩ := lives.suspended task driver hdriver
    refine ⟨hunsettled, id, ?_⟩
    rw [Runtime.taskAt_congr h.tasks, hid]

theorem takes {id : TaskId} {task : ℕ} {driver : Driver V}
    (hid : s.taskAt id = some task) (hdriver : (s.nodes task).driver = some driver) :
  Lives (s.takes id task driver)
  := by
  have hunsettled := (lives.suspended task driver hdriver).1
  have hnotpolled : ∀ polling ∈ s.polling, polling.node ≠ task := by
    rintro polling hpolling rfl
    rw [lives.taken polling hpolling] at hdriver
    contradiction
  have hself : (s.takes id task driver).nodes task = { s.nodes task with driver := none } :=
    update_self _ _ _
  have hother : ∀ other, other ≠ task →
      (s.takes id task driver).nodes other = s.nodes other :=
    fun other hne => update_of_ne hne _ _
  refine ⟨lives.free, lives.nodup, lives.minted, ?_, ?_, ?_, ?_, ?_⟩
  · intro polling hpolling
    rcases mem_cons.mp hpolling with rfl | hpolling
    · rw [hself]
      apply hunsettled
    · rw [hother _ (hnotpolled _ hpolling)]
      apply lives.unsettled polling hpolling
  · intro polling hpolling
    rcases mem_cons.mp hpolling with rfl | hpolling
    · rw [hself]
    · rw [hother _ (hnotpolled _ hpolling)]
      apply lives.taken polling hpolling
  · intro polling hpolling
    rcases mem_cons.mp hpolling with rfl | hpolling
    · apply hid
    · apply lives.named polling hpolling
  · change (task :: s.polling.map Polling.node).Nodup
    rw [nodup_cons]
    refine ⟨?_, lives.once⟩
    intro hmem
    obtain ⟨polling, hpolling, hnode⟩ := List.mem_map.mp hmem
    apply hnotpolled polling hpolling hnode
  · intro other held hheld
    by_cases hne : other = task
    · subst hne
      rw [hself] at hheld
      contradiction
    · rw [hother _ hne] at hheld ⊢
      apply lives.suspended other held hheld

theorem reapSettled (hidle : s.polling = []) :
  Lives s.reapSettled
  := by
  obtain ⟨hfree, hnodup⟩ := Runtime.free_reapSettled lives.free lives.nodup
  have hpolling : s.reapSettled.polling = [] := hidle
  refine ⟨hfree, hnodup, ?_, ?_, ?_, ?_, ?_, ?_⟩
  · intro id task hid
    apply lives.minted id task (Runtime.taskAt_reapSettled.mp hid).1
  · rw [hpolling]
    simp
  · rw [hpolling]
    simp
  · rw [hpolling]
    simp
  · rw [hpolling]
    apply nodup_nil
  · intro task driver hdriver
    obtain ⟨hunsettled, id, hid⟩ := lives.suspended task driver hdriver
    exact ⟨hunsettled, id, Runtime.taskAt_reapSettled.mpr ⟨hid, hunsettled⟩⟩

/-- A task that has just been made is like one that is suspended. -/
theorem enters (origin : String) (nursery : Option ℕ) :
  Lives (s.enters origin nursery)
  := by
  have hpolled : ∀ polling ∈ s.polling, polling.node < s.madeNodes :=
    fun polling hpolling => lives.minted _ _ (lives.named polling hpolling)
  obtain ⟨hfree, hnodup⟩ := Runtime.free_registerTask lives.free lives.nodup s.madeNodes
  obtain ⟨hid, hkept, hnamed⟩ := Runtime.taskAt_registerTask lives.free s.madeNodes
  have hself : (s.enters origin nursery).nodes s.madeNodes
      = ⟨origin, some ⟨[], .code⟩, false, none, false, nursery, [], false, none⟩ :=
    update_self _ _ _
  have hother : ∀ other, other ≠ s.madeNodes →
      (s.enters origin nursery).nodes other = s.nodes other :=
    fun other hne => update_of_ne hne _ _
  refine ⟨hfree, hnodup, ?_, ?_, ?_, ?_, lives.once, ?_⟩
  · intro id task hid
    change task < s.madeNodes + 1
    rcases hnamed id task hid with ⟨rfl, _⟩ | hid
    · omega
    · have := lives.minted id task hid
      omega
  · intro polling hpolling
    rw [hother _ (by have := hpolled polling hpolling; omega)]
    apply lives.unsettled polling hpolling
  · intro polling hpolling
    rw [hother _ (by have := hpolled polling hpolling; omega)]
    apply lives.taken polling hpolling
  · intro polling hpolling
    apply hkept
    apply lives.named polling hpolling
  · intro task driver hdriver
    by_cases hne : task = s.madeNodes
    · subst hne
      rw [hself]
      exact ⟨rfl, _, hid⟩
    · rw [hother _ hne] at hdriver ⊢
      obtain ⟨hunsettled, id, hnamed⟩ := lives.suspended task driver hdriver
      exact ⟨hunsettled, id, hkept _ _ hnamed⟩

theorem begins (origin : String) (nursery : Option ℕ) :
  Lives (s.begins origin nursery)
  := by
  apply (lives.enters origin nursery).takes
  · exact (Runtime.taskAt_registerTask lives.free s.madeNodes).1
  · change ((Function.update s.nodes s.madeNodes _) s.madeNodes).driver = _
    rw [update_self]

theorem opens (parent : Option ℕ) (detached : Bool) :
  Lives (s.opens parent detached)
  := ⟨lives.free, lives.nodup, lives.minted, lives.unsettled, lives.taken, lives.named, lives.once,
    lives.suspended⟩

end

/-- The current task leaves the stack of polls, suspended or settled. -/
theorem leaves {top : Polling V} {rest : List (Polling V)} (lives : Lives s)
    (hpolling : s.polling = top :: rest) (hpolling' : s'.polling = rest)
    (hnodes : ∀ task, task ≠ top.node → s'.nodes task = s.nodes task)
    (htop : ∀ driver, (s'.nodes top.node).driver = some driver →
      (s'.nodes top.node).settled = false) (hmadeNodes : s'.madeNodes = s.madeNodes)
    (htasks : s'.tasks = s.tasks) (hfreeSlots : s'.freeSlots = s.freeSlots) :
  Lives s'
  := by
  have honce := lives.once
  rw [hpolling, map_cons, nodup_cons] at honce
  have hne : ∀ polling ∈ rest, polling.node ≠ top.node := by
    intro polling hmem heq
    apply honce.1
    rw [← heq]
    apply List.mem_map_of_mem hmem
  have hmem : ∀ polling ∈ rest, polling ∈ s.polling := by
    intro polling hmem
    rw [hpolling]
    apply mem_cons_of_mem _ hmem
  refine ⟨?_, ?_, ?_, ?_, ?_, ?_, ?_, ?_⟩
  · rw [hfreeSlots, htasks]
    apply lives.free
  · rw [hfreeSlots]
    apply lives.nodup
  · intro id task hid
    rw [Runtime.taskAt_congr htasks] at hid
    rw [hmadeNodes]
    apply lives.minted id task hid
  · rw [hpolling']
    intro polling hpolling
    rw [hnodes _ (hne polling hpolling)]
    apply lives.unsettled polling (hmem polling hpolling)
  · rw [hpolling']
    intro polling hpolling
    rw [hnodes _ (hne polling hpolling)]
    apply lives.taken polling (hmem polling hpolling)
  · rw [hpolling']
    intro polling hpolling
    rw [Runtime.taskAt_congr htasks]
    apply lives.named polling (hmem polling hpolling)
  · rw [hpolling']
    apply honce.2
  · intro task driver hdriver
    by_cases heq : task = top.node
    · subst heq
      refine ⟨htop driver hdriver, top.id, ?_⟩
      rw [Runtime.taskAt_congr htasks]
      apply lives.named
      rw [hpolling]
      apply mem_cons_self
    · rw [hnodes _ heq] at hdriver ⊢
      obtain ⟨hunsettled, id, hid⟩ := lives.suspended task driver hdriver
      refine ⟨hunsettled, id, ?_⟩
      rw [Runtime.taskAt_congr htasks, hid]

theorem goesOn {top : Polling V} {rest : List (Polling V)} (lives : Lives s)
    (hpolling : s.polling = top :: rest) (events : List (Event V)) (calls : ℕ)
    (frames : List (Frame V)) (control : Control V) :
  Lives ({ s with log := s.log ++ events, calls := calls }.goesOn top rest frames control)
  := by
  have hunsettled := lives.unsettled
  have htaken := lives.taken
  have hnamed := lives.named
  have honce := lives.once
  rw [hpolling] at hunsettled htaken hnamed honce
  rw [forall_mem_cons] at hunsettled htaken hnamed
  refine ⟨lives.free, lives.nodup, lives.minted, ?_, ?_, ?_, honce, lives.suspended⟩
  · intro polling hmem
    rcases mem_cons.mp hmem with rfl | hmem
    · apply hunsettled.1
    · apply hunsettled.2 polling hmem
  · intro polling hmem
    rcases mem_cons.mp hmem with rfl | hmem
    · apply htaken.1
    · apply htaken.2 polling hmem
  · intro polling hmem
    rcases mem_cons.mp hmem with rfl | hmem
    · apply hnamed.1
    · apply hnamed.2 polling hmem

theorem step (lives : Lives s) {action : Action V} (h : s.step action = some s') :
  Lives s'
  := by
  cases lives.moved h with
  | quiet hquiet => apply lives.quiet hquiet
  | polled hid _ hdriver _ hquiet => apply (lives.takes hid hdriver).quiet hquiet
  | reaped hidle heq =>
    rw [heq]
    apply lives.reapSettled hidle
  | spawned _ hquiet => apply (lives.begins _ _).quiet hquiet
  | opened hquiet => apply (lives.opens _ _).quiet hquiet
  | @suspended top rest call leaf leaf' hpolling _ _ hquiet =>
    apply Lives.quiet _ hquiet
    have hself : (s.suspend top rest call leaf').nodes top.node = _ := update_self _ _ _
    refine lives.leaves hpolling rfl (fun task hne => update_of_ne hne _ _) ?_ rfl rfl rfl
    intro _ _
    rw [hself]
    apply lives.unsettled
    rw [hpolling]
    apply mem_cons_self
  | @settled top rest outcome hpolling _ _ hquiet =>
    apply Lives.quiet _ hquiet
    have hself : (s.ended top.node rest outcome).nodes top.node = _ := update_self _ _ _
    refine lives.leaves hpolling rfl (fun task hne => update_of_ne hne _ _) ?_ rfl rfl rfl
    intro _ hdriver
    rw [hself] at hdriver
    contradiction
  | gone hpolling _ hquiet => apply (lives.goesOn hpolling _ _ _ _).quiet hquiet

end Lives

end Vilan.Executor
