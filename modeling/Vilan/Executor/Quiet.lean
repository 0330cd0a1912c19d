import Vilan.Executor.Steps

/-!
# Quiet changes

Parking, waking, cancelling, timers and reports change what is enqueued and where tasks are
parked.  They leave alone what a task is and how it ended, what a nursery owns, what is being
polled, and the log.
-/

namespace Vilan.Executor

open Function

variable {V : Type*}

/-- A task's record but for its wake list and the bookkeeping of reports. -/
structure SameTask (node node' : TaskNode V) : Prop where
  origin : node'.origin = node.origin
  driver : node'.driver = node.driver
  settled : node'.settled = node.settled
  failure : node'.failure = node.failure
  nursery : node'.nursery = node.nursery
  value : node'.value = node.value

/-- A nursery's body but for its wake lists and its cancelling. -/
structure SameNursery (body body' : NurseryBody) : Prop where
  children : body'.children = body.children
  failed : body'.failed = body.failed
  detached : body'.detached = body.detached

/-- No task, no nursery, no poll and no event came, went or changed, but perhaps in the slab. -/
structure Calm (s s' : Runtime V) : Prop where
  nodes : ∀ task, SameTask (s.nodes task) (s'.nodes task)
  madeNodes : s'.madeNodes = s.madeNodes
  nurseries : ∀ nursery, SameNursery (s.nurseries nursery) (s'.nurseries nursery)
  madeNurseries : s'.madeNurseries = s.madeNurseries
  polling : s'.polling = s.polling
  calls : s'.calls = s.calls
  log : s'.log = s.log

/-- No task, no nursery, no poll and no event came, went or changed, nor did the slab. -/
structure Quiet (s s' : Runtime V) : Prop extends Calm s s' where
  tasks : s'.tasks = s.tasks
  freeSlots : s'.freeSlots = s.freeSlots

theorem SameTask.refl (node : TaskNode V) :
  SameTask node node
  := ⟨rfl, rfl, rfl, rfl, rfl, rfl⟩

theorem SameTask.trans {first second third : TaskNode V} (h : SameTask first second)
    (h' : SameTask second third) :
  SameTask first third
  := ⟨h'.origin.trans h.origin, h'.driver.trans h.driver, h'.settled.trans h.settled,
    h'.failure.trans h.failure, h'.nursery.trans h.nursery, h'.value.trans h.value⟩

theorem SameNursery.refl (body : NurseryBody) :
  SameNursery body body
  := ⟨rfl, rfl, rfl⟩

theorem SameNursery.trans {first second third : NurseryBody} (h : SameNursery first second)
    (h' : SameNursery second third) :
  SameNursery first third
  := ⟨h'.children.trans h.children, h'.failed.trans h.failed, h'.detached.trans h.detached⟩

namespace Quiet

theorem refl (s : Runtime V) :
  Quiet s s
  := ⟨⟨fun _ => SameTask.refl _, rfl, fun _ => SameNursery.refl _, rfl, rfl, rfl, rfl⟩, rfl, rfl⟩

theorem trans {s₁ s₂ s₃ : Runtime V} (h : Quiet s₁ s₂) (h' : Quiet s₂ s₃) :
  Quiet s₁ s₃
  where
  nodes task := (h.nodes task).trans (h'.nodes task)
  madeNodes := h'.madeNodes.trans h.madeNodes
  nurseries nursery := (h.nurseries nursery).trans (h'.nurseries nursery)
  madeNurseries := h'.madeNurseries.trans h.madeNurseries
  polling := h'.polling.trans h.polling
  calls := h'.calls.trans h.calls
  log := h'.log.trans h.log
  tasks := h'.tasks.trans h.tasks
  freeSlots := h'.freeSlots.trans h.freeSlots

/-- Changes that agree on what a quiet change keeps. -/
theorem of_eq {s s' : Runtime V} (hnodes : s'.nodes = s.nodes)
    (hmadeNodes : s'.madeNodes = s.madeNodes) (hnurseries : s'.nurseries = s.nurseries)
    (hmadeNurseries : s'.madeNurseries = s.madeNurseries) (hpolling : s'.polling = s.polling)
    (hcalls : s'.calls = s.calls) (hlog : s'.log = s.log) (htasks : s'.tasks = s.tasks)
    (hfreeSlots : s'.freeSlots = s.freeSlots) :
  Quiet s s'
  where
  nodes task := by
    rw [hnodes]
    apply SameTask.refl
  madeNodes := hmadeNodes
  nurseries nursery := by
    rw [hnurseries]
    apply SameNursery.refl
  madeNurseries := hmadeNurseries
  polling := hpolling
  calls := hcalls
  log := hlog
  tasks := htasks
  freeSlots := hfreeSlots

section

variable (s : Runtime V)

theorem setNode (task : ℕ) {f : TaskNode V → TaskNode V}
    (h : SameTask (s.nodes task) (f (s.nodes task))) :
  Quiet s (s.setNode task f)
  where
  nodes other := by
    by_cases hne : other = task
    · subst hne
      simp only [Runtime.setNode, update_self]
      apply h
    · simp only [Runtime.setNode, update_of_ne hne]
      apply SameTask.refl
  madeNodes := rfl
  nurseries _ := SameNursery.refl _
  madeNurseries := rfl
  polling := rfl
  calls := rfl
  log := rfl
  tasks := rfl
  freeSlots := rfl

theorem setNursery (nursery : ℕ) {f : NurseryBody → NurseryBody}
    (h : SameNursery (s.nurseries nursery) (f (s.nurseries nursery))) :
  Quiet s (s.setNursery nursery f)
  where
  nodes _ := SameTask.refl _
  madeNodes := rfl
  nurseries other := by
    by_cases hne : other = nursery
    · subst hne
      simp only [Runtime.setNursery, update_self]
      apply h
    · simp only [Runtime.setNursery, update_of_ne hne]
      apply SameNursery.refl
  madeNurseries := rfl
  polling := rfl
  calls := rfl
  log := rfl
  tasks := rfl
  freeSlots := rfl

theorem setTimer (timer : ℕ) (f : TimerBody → TimerBody) :
  Quiet s (s.setTimer timer f)
  := of_eq rfl rfl rfl rfl rfl rfl rfl rfl rfl

theorem setSlot (slot : ℕ) (f : TimerSlot → TimerSlot) :
  Quiet s (s.setSlot slot f)
  := of_eq rfl rfl rfl rfl rfl rfl rfl rfl rfl

theorem enqueue (tasks : List TaskId) :
  Quiet s (s.enqueue tasks)
  := of_eq rfl rfl rfl rfl rfl rfl rfl rfl rfl

end

/-- Quiet changes one after another. -/
theorem foldl {A : Type*} {f : Runtime V → A → Runtime V} (h : ∀ s item, Quiet s (f s item))
    (items : List A) (s : Runtime V) :
  Quiet s (items.foldl f s)
  := by
  induction items generalizing s with
  | nil => apply refl
  | cons item items ih => apply (h s item).trans (ih _)

/-! ### The executor's quiet functions -/

theorem cancelWithin (fuel : ℕ) (s : Runtime V) (nursery : ℕ) :
  Quiet s (Runtime.cancelWithin fuel s nursery)
  := by
  induction fuel generalizing s nursery with
  | zero => apply refl
  | succ fuel ih =>
    rw [Runtime.cancelWithin]
    split
    · apply refl
    · have hmarked : Quiet s (s.setNursery nursery fun body =>
          { body with cancelled := true, cancelWaiters := [] }) :=
        setNursery s nursery ⟨rfl, rfl, rfl⟩
      apply (hmarked.trans (enqueue _ _)).trans
      apply foldl
      intro s descendant
      split
      · apply ih
      · apply refl

section

variable (s : Runtime V)

theorem cancel (nursery : ℕ) :
  Quiet s (s.cancel nursery)
  := cancelWithin _ s nursery

theorem reportUnobserved (task : ℕ) :
  Quiet s (s.reportUnobserved task)
  := by
  rw [Runtime.reportUnobserved]
  split
  · apply refl
  · have hmarked : Quiet s (s.setNode task fun node => { node with reported := true }) :=
      setNode s task ⟨rfl, rfl, rfl, rfl, rfl, rfl⟩
    exact hmarked.trans (of_eq rfl rfl rfl rfl rfl rfl rfl rfl rfl)

theorem reportUnobservedFailures :
  Quiet s s.reportUnobservedFailures
  := by
  apply foldl
  intro s task
  split
  · apply reportUnobserved
  · apply refl

theorem settleTimer (timer : ℕ) (verdict : Bool) :
  Quiet s (s.settleTimer timer verdict)
  := by
  rw [Runtime.settleTimer]
  split
  · apply refl
  · apply trans (setTimer s timer _) (enqueue _ _)

theorem timer :
  Quiet s s.timer
  := of_eq rfl rfl rfl rfl rfl rfl rfl rfl rfl

theorem cancelSlot (slot : Option ℕ) :
  Quiet s (s.cancelSlot slot)
  := by
  cases slot with
  | none => apply refl
  | some slot => exact setSlot s slot fun entry => { entry with cancelled := true }

theorem cancelTimer (timer : ℕ) :
  Quiet s (s.cancelTimer timer)
  := by
  rw [Runtime.cancelTimer]
  split
  · apply refl
  · apply trans (cancelSlot s _) (settleTimer _ _ _)

theorem fireTimer (slot : ℕ) :
  Quiet s (s.fireTimer slot)
  := by
  rw [Runtime.fireTimer]
  apply trans (setSlot s slot _)
  split
  · apply enqueue
  · apply settleTimer
  · apply refl

/-! ### Polling a leaf future -/

theorem parkNode (id : TaskId) (task : ℕ) :
  Quiet s (s.parkNode id task)
  := setNode s task ⟨rfl, rfl, rfl, rfl, rfl, rfl⟩

theorem parkFail (id : TaskId) (nursery : ℕ) :
  Quiet s (s.parkFail id nursery)
  := setNursery s nursery ⟨rfl, rfl, rfl⟩

theorem observe (task : ℕ) :
  Quiet s (s.observe task)
  := setNode s task ⟨rfl, rfl, rfl, rfl, rfl, rfl⟩

theorem observeAll (tasks : List ℕ) :
  Quiet s (s.observeAll tasks)
  := foldl observe tasks s

theorem parkSignal (id : TaskId) (signal : Option ℕ) :
  Quiet s (s.parkSignal id signal)
  := by
  cases signal with
  | none => apply refl
  | some nursery =>
    rw [Runtime.parkSignal]
    split
    · apply setNursery s nursery ⟨rfl, rfl, rfl⟩
    · apply refl

theorem parkUnsettled (id : TaskId) (nodes : List ℕ) :
  Quiet s (s.parkUnsettled id nodes)
  := by
  apply foldl
  intro s task
  split
  · apply refl
  · apply parkNode

theorem registerTimer (action : TimerAction) :
  Quiet s (s.registerTimer action).1
  := of_eq rfl rfl rfl rfl rfl rfl rfl rfl rfl

theorem pollLeaf (id : TaskId) (leaf : Leaf) :
  Quiet s (s.pollLeaf id leaf).1
  := by
  cases leaf with
  | taskJoin task =>
    rw [Runtime.pollLeaf, Runtime.pollTaskJoin]
    apply trans (observe s task)
    split
    · apply refl
    · apply parkNode
  | nodeJoin node nursery =>
    rw [Runtime.pollLeaf, Runtime.pollNodeJoin]
    apply trans (observe s node)
    split
    · apply refl
    · apply trans (parkFail _ id nursery) (parkNode _ id node)
  | sleep signal slot =>
    rw [Runtime.pollLeaf]
    unfold Runtime.pollSleep
    split
    · apply cancelSlot
    · split
      · split
        · apply refl
        · apply parkSignal
      · apply trans (registerTimer s _) (parkSignal _ id signal)
  | timerWait timer signal parked =>
    rw [Runtime.pollLeaf, Runtime.pollTimerWait]
    split
    · apply refl
    · split
      · simp only
        split
        · apply setTimer
        · apply refl
      · apply trans (setTimer s timer _) (parkSignal _ id signal)
  | allSettledOrAnyFailed nodes =>
    rw [Runtime.pollLeaf, Runtime.pollSettleAll]
    apply trans (observeAll s nodes)
    split
    · apply refl
    · apply parkUnsettled
  | anySettled nodes =>
    rw [Runtime.pollLeaf, Runtime.pollRace]
    apply trans (observeAll s nodes)
    split
    · apply refl
    · apply foldl (fun s task => parkNode s id task)
  | yieldOnce yielded =>
    rw [Runtime.pollLeaf, Runtime.pollYieldOnce]
    split
    · apply refl
    · apply enqueue

end

end Quiet

end Vilan.Executor
