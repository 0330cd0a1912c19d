import Vilan.Executor.Wakes

/-!
# Every operation wakes

What cancels, settles, fires or parks takes no id off a wake list without enqueuing it.
-/

namespace Vilan.Executor

open Function

variable {V : Type*}

/-! ### Cancelling -/

/-- Cancelling changes only which nurseries are cancelled, and who waits for that. -/
structure OnlyCancels (s s' : Runtime V) : Prop where
  nodes : s'.nodes = s.nodes
  madeNurseries : s'.madeNurseries = s.madeNurseries
  failed : ∀ nursery, (s'.nurseries nursery).failed = (s.nurseries nursery).failed
  failWaiters : ∀ nursery, (s'.nurseries nursery).failWaiters = (s.nurseries nursery).failWaiters
  descendants : ∀ nursery, (s'.nurseries nursery).descendants = (s.nurseries nursery).descendants
  parent : ∀ nursery, (s'.nurseries nursery).parent = (s.nurseries nursery).parent
  held : ∀ nursery, (s'.nurseries nursery).held = (s.nurseries nursery).held
  cancelled : ∀ nursery, (s.nurseries nursery).cancelled = true →
    (s'.nurseries nursery).cancelled = true

namespace OnlyCancels

theorem refl (s : Runtime V) :
  OnlyCancels s s
  := ⟨rfl, rfl, fun _ => rfl, fun _ => rfl, fun _ => rfl, fun _ => rfl, fun _ => rfl,
    fun _ cancelled => cancelled⟩

theorem trans {s₁ s₂ s₃ : Runtime V} (first : OnlyCancels s₁ s₂) (second : OnlyCancels s₂ s₃) :
  OnlyCancels s₁ s₃
  := ⟨second.nodes.trans first.nodes, second.madeNurseries.trans first.madeNurseries,
    fun nursery => (second.failed nursery).trans (first.failed nursery),
    fun nursery => (second.failWaiters nursery).trans (first.failWaiters nursery),
    fun nursery => (second.descendants nursery).trans (first.descendants nursery),
    fun nursery => (second.parent nursery).trans (first.parent nursery),
    fun nursery => (second.held nursery).trans (first.held nursery),
    fun nursery cancelled => second.cancelled nursery (first.cancelled nursery cancelled)⟩

/-- A nursery is marked, and its waiters wake. -/
theorem mark (s : Runtime V) (nursery : ℕ) :
  OnlyCancels s ((s.setNursery nursery fun body =>
    { body with cancelled := true, cancelWaiters := [] }).enqueue
      (s.nurseries nursery).cancelWaiters)
  := by
  have body : ∀ other, ((s.setNursery nursery fun body =>
      { body with cancelled := true, cancelWaiters := [] }).enqueue
        (s.nurseries nursery).cancelWaiters).nurseries other
      = if other = nursery then
          { s.nurseries nursery with cancelled := true, cancelWaiters := [] }
        else s.nurseries other := fun other => update_apply _ _ _ _
  refine ⟨rfl, rfl, ?_, ?_, ?_, ?_, ?_, ?_⟩ <;> intro other <;> rw [body] <;> split
  all_goals simp_all

theorem foldl {A : Type*} {f : Runtime V → A → Runtime V}
    (step : ∀ s item, OnlyCancels s (f s item)) (items : List A) (s : Runtime V) :
  OnlyCancels s (items.foldl f s)
  := by
  induction items generalizing s with
  | nil => apply refl
  | cons item items ih => exact (step s item).trans (ih (f s item))

theorem cancelWithin (fuel : ℕ) (s : Runtime V) (nursery : ℕ) :
  OnlyCancels s (Runtime.cancelWithin fuel s nursery)
  := by
  induction fuel generalizing s nursery with
  | zero => apply refl
  | succ fuel ih =>
    rw [Runtime.cancelWithin]
    split
    · apply refl
    · apply (mark s nursery).trans
      apply foldl
      intro s descendant
      split
      · apply ih
      · apply refl

theorem cancel (s : Runtime V) (nursery : ℕ) :
  OnlyCancels s (s.cancel nursery)
  := by
  apply cancelWithin

end OnlyCancels

namespace Wakes

theorem cancelWithin (fuel : ℕ) (s : Runtime V) (nursery : ℕ) :
  Wakes [] s (Runtime.cancelWithin fuel s nursery)
  := by
  induction fuel generalizing s nursery with
  | zero => apply refl
  | succ fuel ih =>
    rw [Runtime.cancelWithin]
    split
    · apply refl
    · have marked : Wakes (s.nurseries nursery).cancelWaiters s (s.setNursery nursery fun body =>
          { body with cancelled := true, cancelWaiters := [] }) := by
        apply setNursery
        · exact fun id awaits => Or.inr awaits
        · intro id awaits
          by_cases held : (s.nurseries nursery).held = true
          · exact Or.inl (awaits held).2
          · exact Or.inr fun absurd_ => absurd absurd_ held
      apply marked.enqueue.trans
      apply foldl
      intro s descendant
      split
      · apply ih
      · apply refl

section

variable (s : Runtime V)

theorem cancel (nursery : ℕ) :
  Wakes [] s (s.cancel nursery)
  := by
  apply cancelWithin

/-! ### Settling -/

theorem reportUnobserved (task : ℕ) :
  Wakes [] s (s.reportUnobserved task)
  := by
  rw [Runtime.reportUnobserved]
  split
  · apply refl
  · have reported : Wakes [] s (s.setNode task fun node => { node with reported := true }) := by
      apply setNode
      · exact fun id awaits => Or.inr awaits
      · exact fun settled => ⟨settled, rfl⟩
      · exact fun driver held => held
    apply reported.trans
    apply unseen

theorem reportUnobservedFailures :
  Wakes [] s s.reportUnobservedFailures
  := by
  rw [Runtime.reportUnobservedFailures]
  apply foldl
  intro s task
  split
  · apply reportUnobserved
  · apply refl

theorem fail (nursery task : ℕ) :
  Wakes [] s (s.fail nursery task)
  := by
  rw [Runtime.fail]
  split
  · split
    · apply refl
    · apply reportUnobserved
  split
  · apply refl
  next unlatched =>
    rw [Bool.not_eq_true, Option.isSome_eq_false_iff, Option.isNone_iff_eq_none] at unlatched
    have latch : Wakes (s.nurseries nursery).failWaiters s
        (s.setNursery nursery fun body => { body with failed := some task }) := by
      apply setNursery
      · exact fun id awaits => Or.inl awaits.2
      · exact fun id awaits => Or.inr awaits
    have only := OnlyCancels.cancel
      (s.setNursery nursery fun body => { body with failed := some task }) nursery
    have body : (s.setNursery nursery fun body => { body with failed := some task }).nurseries nursery
        = { s.nurseries nursery with failed := some task } := update_self _ _ _
    have owed : (((s.setNursery nursery fun body => { body with failed := some task }).cancel
        nursery).nurseries nursery).failWaiters = (s.nurseries nursery).failWaiters := by
      rw [only.failWaiters, body]
    dsimp only
    rw [owed]
    apply enqueue
    apply latch.trans
    apply ((cancel _ nursery).more _).trans
    apply setNursery
    · intro id awaits
      have absurd_ := awaits.1
      rw [only.failed, body] at absurd_
      cases absurd_
    · exact fun id awaits => Or.inr awaits

theorem fail_node (nursery task other : ℕ) :
  ((s.fail nursery task).nodes other).waiters = (s.nodes other).waiters ∧
    ((s.fail nursery task).nodes other).settled = (s.nodes other).settled
  := by
  rw [Runtime.fail]
  split
  · split
    · exact ⟨rfl, rfl⟩
    · rw [Runtime.reportUnobserved]
      split
      · exact ⟨rfl, rfl⟩
      · change (Function.update s.nodes task _ other).waiters = _ ∧
          (Function.update s.nodes task _ other).settled = _
        by_cases same : other = task
        · subst same
          rw [update_self]
          exact ⟨rfl, rfl⟩
        · rw [update_of_ne same]
          exact ⟨rfl, rfl⟩
  split
  · exact ⟨rfl, rfl⟩
  · have only := OnlyCancels.cancel
      (s.setNursery nursery fun body => { body with failed := some task }) nursery
    change ((Runtime.cancel _ nursery).nodes other).waiters = _ ∧
      ((Runtime.cancel _ nursery).nodes other).settled = _
    rw [only.nodes]
    exact ⟨rfl, rfl⟩

/-- A task settles. -/
theorem settle (task : ℕ) (failure : Option Failure) :
  Wakes [] s (s.settle task failure)
  := by
  rw [Runtime.settle]
  split
  · apply refl
  next unsettled =>
    have marked : Wakes (s.nodes task).waiters s (s.setNode task fun node =>
        { node with settled := true, driver := none, failure := failure }) := by
      apply setNode
      · exact fun id awaits => Or.inl awaits.2
      · exact fun settled => absurd settled unsettled
      · intro driver held
        cases held
    have node : ∀ failure, (s.setNode task fun node =>
        { node with settled := true, driver := none, failure := failure }).nodes task
          = { s.nodes task with settled := true, driver := none, failure := failure } :=
      fun failure => update_self _ _ _
    have ends : ∀ told : Runtime V, Wakes (s.nodes task).waiters s told →
        (told.nodes task).settled = true → (told.nodes task).waiters = (s.nodes task).waiters →
        Wakes [] s ((told.setNode task fun node => { node with waiters := [] }).enqueue
          (told.nodes task).waiters) := by
      intro told wakes settled waiters
      rw [waiters]
      apply enqueue
      apply wakes.trans
      apply setNode
      · intro id awaits
        rw [awaits.1] at settled
        cases settled
      · exact fun settled => ⟨settled, rfl⟩
      · exact fun driver held => held
    dsimp only
    split
    next _ _ nursery _ =>
      apply ends
      · apply marked.trans ((fail _ nursery task).more _)
      · rw [(fail_node _ nursery task task).2, node]
      · rw [(fail_node _ nursery task task).1, node]
    · apply ends _ marked
      · rw [node]
      · rw [node]

/-! ### Timers -/

theorem registerTimer (action : TimerAction) :
  Wakes [] s (s.registerTimer action).1
  := by
  have same := refl [] s
  have old : ∀ slot < s.sequence, (s.registerTimer action).1.slots slot = s.slots slot :=
    fun slot lt => update_of_ne (Nat.ne_of_lt lt) _ _
  refine ⟨same.madeNodes, same.madeNurseries, same.madeTimers, Nat.le_succ _, same.microtasks,
    same.named, same.drivers, same.settled, fun _ _ _ awaits => Or.inr awaits,
    fun _ _ _ awaits => Or.inr awaits, fun _ _ _ awaits => Or.inr awaits,
    fun _ _ _ awaits => Or.inr awaits, ?_, ?_⟩
  · intro slot lt id awaits
    rw [Runtime.AwaitsSlot, old slot lt]
    exact Or.inr awaits
  · intro slot lt id times
    rw [Runtime.Times, Runtime.AwaitsSlot, old slot lt]
    exact times

theorem settleTimer (timer : ℕ) (verdict : Bool) :
  Wakes [] s (s.settleTimer timer verdict)
  := by
  rw [Runtime.settleTimer]
  split
  · apply refl
  · apply enqueue
    apply setTimer
    exact fun id awaits => Or.inl awaits.2

theorem timer :
  Wakes [] s s.timer
  := by
  apply (registerTimer s (.settle s.madeTimers)).trans
  have same := refl [] (s.registerTimer (.settle s.madeTimers)).1
  refine ⟨same.madeNodes, same.madeNurseries, Nat.le_succ _, same.sequence, same.microtasks,
    same.named, same.drivers, same.settled, fun _ _ _ awaits => Or.inr awaits,
    fun _ _ _ awaits => Or.inr awaits, fun _ _ _ awaits => Or.inr awaits, ?_,
    fun _ _ _ awaits => Or.inr awaits, same.times⟩
  intro timer lt id awaits
  have old : s.timer.timers timer = s.timers timer := update_of_ne (Nat.ne_of_lt lt) _ _
  rw [Runtime.AwaitsTimer, old]
  exact Or.inr awaits

theorem cancelSlot (slot : Option ℕ) :
  Wakes [] s (s.cancelSlot slot)
  := by
  cases slot with
  | none => apply refl
  | some slot =>
    rw [Runtime.cancelSlot]
    apply setSlot
    · exact fun id awaits => Or.inr awaits
    · exact fun fired => fired

theorem cancelTimer (timer : ℕ) :
  Wakes [] s (s.cancelTimer timer)
  := by
  rw [Runtime.cancelTimer]
  split
  · apply refl
  · apply (cancelSlot s _).trans
    apply settleTimer

theorem fireTimer (slot : ℕ) :
  Wakes [] s (s.fireTimer slot)
  := by
  rw [Runtime.fireTimer]
  split
  next task action =>
    apply enqueue
    apply setSlot
    · intro id awaits
      have enqueues := awaits.2
      rw [action, Option.some_inj, TimerAction.enqueue.injEq] at enqueues
      rw [enqueues]
      exact Or.inl ⟨List.mem_singleton_self id, rfl⟩
    · exact fun _ => rfl
  next timer action =>
    refine trans (setSlot s slot ?_ fun _ => rfl) (settleTimer _ timer true)
    intro id awaits
    have absurd_ := awaits.2
    rw [action] at absurd_
    cases absurd_
  next action =>
    apply setSlot
    · intro id awaits
      have absurd_ := awaits.2
      rw [action] at absurd_
      cases absurd_
    · exact fun _ => rfl

/-! ### New nurseries -/

/-- A nursery is made. -/
theorem opens (body : NurseryBody) :
  Wakes [] s { s with
    nurseries := Function.update s.nurseries s.madeNurseries body
    madeNurseries := s.madeNurseries + 1 }
  := by
  have same := refl [] s
  have old : ∀ nursery < s.madeNurseries,
      Function.update s.nurseries s.madeNurseries body nursery = s.nurseries nursery :=
    fun nursery lt => update_of_ne (Nat.ne_of_lt lt) _ _
  refine ⟨same.madeNodes, Nat.le_succ _, same.madeTimers, same.sequence, same.microtasks,
    same.named, same.drivers, same.settled, fun _ _ _ awaits => Or.inr awaits, ?_, ?_,
    fun _ _ _ awaits => Or.inr awaits, fun _ _ _ awaits => Or.inr awaits, same.times⟩
  · intro nursery lt id awaits
    rw [Runtime.AwaitsLatch]
    dsimp only
    rw [old nursery lt]
    exact Or.inr awaits
  · intro nursery lt id awaits
    rw [Runtime.AwaitsSignal]
    dsimp only
    rw [old nursery lt]
    exact Or.inr awaits

theorem nurseryNew (parent : Option ℕ) :
  Wakes [] s (s.nurseryNew parent)
  := by
  cases parent with
  | none =>
    rw [Runtime.nurseryNew]
    apply opens
  | some parent =>
    rw [Runtime.nurseryNew]
    split
    · apply (opens s _).trans
      apply cancel
    · apply (opens s _).trans
      apply setNursery
      · exact fun id awaits => Or.inr awaits
      · exact fun id awaits => Or.inr awaits

/-! ### Parking and polling -/

theorem observe (task : ℕ) :
  Wakes [] s (s.observe task)
  := by
  apply setNode
  · exact fun id awaits => Or.inr awaits
  · exact fun settled => ⟨settled, rfl⟩
  · exact fun driver held => held

theorem observeAll (tasks : List ℕ) :
  Wakes [] s (s.observeAll tasks)
  := foldl observe tasks s

theorem parkNode (id : TaskId) (task : ℕ) :
  Wakes [] s (s.parkNode id task)
  := by
  apply setNode
  · exact fun id awaits => Or.inr ⟨awaits.1, List.mem_append_left _ awaits.2⟩
  · exact fun settled => ⟨settled, rfl⟩
  · exact fun driver held => held

theorem parkFail (id : TaskId) (nursery : ℕ) :
  Wakes [] s (s.parkFail id nursery)
  := by
  apply setNursery
  · exact fun id awaits => Or.inr ⟨awaits.1, List.mem_append_left _ awaits.2⟩
  · exact fun id awaits => Or.inr awaits

theorem parkSignal (id : TaskId) (signal : Option ℕ) :
  Wakes [] s (s.parkSignal id signal)
  := by
  cases signal with
  | none =>
    rw [Runtime.parkSignal]
    apply refl
  | some nursery =>
    rw [Runtime.parkSignal]
    split
    · apply setNursery
      · exact fun id awaits => Or.inr awaits
      · exact fun id awaits => Or.inr fun held =>
          ⟨(awaits held).1, List.mem_append_left _ (awaits held).2⟩
    · apply refl

theorem parkTimer (id : TaskId) (timer : ℕ) :
  Wakes [] s (s.parkTimer id timer)
  := by
  apply setTimer
  exact fun id awaits => Or.inr ⟨awaits.1, List.mem_append_left _ awaits.2⟩

/-- A task that is taken off a timer is the only one that is. -/
theorem unparkTimer (id : TaskId) (timer : ℕ) :
  Wakes [id] s (s.unparkTimer id timer)
  := by
  apply setTimer
  intro other awaits
  by_cases same : other = id
  · exact Or.inl (List.mem_singleton.mpr same)
  · refine Or.inr ⟨awaits.1, List.mem_filter.mpr ⟨awaits.2, ?_⟩⟩
    rw [decide_eq_true_iff]
    exact same

theorem parkUnsettled (id : TaskId) (nodes : List ℕ) :
  Wakes [] s (s.parkUnsettled id nodes)
  := by
  apply foldl
  intro s task
  split
  · apply refl
  · apply parkNode

/-- Polling a leaf future wakes nobody, and takes at most the polled task off a wake list. -/
theorem pollLeaf (id : TaskId) (leaf : Leaf) :
  Wakes [id] s (s.pollLeaf id leaf).1
  := by
  cases leaf with
  | taskJoin task =>
    rw [Runtime.pollLeaf, Runtime.pollTaskJoin]
    split
    · apply (observe s task).more
    · apply ((observe s task).trans (parkNode _ id task)).more
  | nodeJoin node nursery =>
    rw [Runtime.pollLeaf, Runtime.pollNodeJoin]
    split
    · apply (observe s node).more
    · apply (((observe s node).trans (parkFail _ id nursery)).trans (parkNode _ id node)).more
  | sleep signal slot =>
    cases slot with
    | none =>
      rw [Runtime.pollLeaf, Runtime.pollSleep]
      split
      · apply (cancelSlot s none).more
      · apply ((registerTimer s _).trans (parkSignal _ id signal)).more
    | some slot =>
      rw [Runtime.pollLeaf, Runtime.pollSleep]
      split
      · apply (cancelSlot s (some slot)).more
      split
      · apply refl
      · apply (parkSignal s id signal).more
  | timerWait timer signal parked =>
    rw [Runtime.pollLeaf, Runtime.pollTimerWait]
    split
    · apply refl
    split
    · dsimp only
      split
      · apply unparkTimer
      · apply refl
    · apply ((parkTimer s id timer).trans (parkSignal _ id signal)).more
  | allSettledOrAnyFailed nodes =>
    rw [Runtime.pollLeaf, Runtime.pollSettleAll]
    split
    · apply (observeAll s nodes).more
    · apply ((observeAll s nodes).trans (parkUnsettled _ id nodes)).more
  | anySettled nodes =>
    rw [Runtime.pollLeaf, Runtime.pollRace]
    split
    · apply (observeAll s nodes).more
    · apply ((observeAll s nodes).trans (foldl (fun s task => parkNode s id task) nodes _)).more
  | yieldOnce yielded =>
    rw [Runtime.pollLeaf, Runtime.pollYieldOnce]
    split
    · apply refl
    · apply ((refl [id] s).enqueue).more

end

end Wakes

end Vilan.Executor
