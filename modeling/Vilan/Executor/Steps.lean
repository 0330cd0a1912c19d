import Vilan.Executor.Runtime
import Vilan.Library.Machine
import Mathlib.Data.List.Induction

/-!
# The executor's steps

A task's code is any code: at every point it may spawn, cancel, make timers and nurseries,
await a leaf future, run a nursery, catch what its inner code raises, and end.  What the
executor does in between is determined: a leaf future is polled, a `nursery_run` takes one
turn of its loop, a failure is raised past one frame.  While no task is being polled, the loop
polls the next task of the microtask queue, fires an entry of the deadline list, reports or
reaps; synchronous code may run then too.
-/

namespace Vilan.Executor

variable {V : Type*}

/-- What polling a leaf future answers. -/
inductive Polled (V : Type*) where
  | pending (leaf : Leaf)
  | ready (answer : Answer V)

namespace Runtime

/-! ### Parking -/

/-- Park the current task on a task. -/
def parkNode (s : Runtime V) (id : TaskId) (task : ℕ) : Runtime V :=
  s.setNode task fun node => { node with waiters := node.waiters ++ [id] }

/-- Park the current task on a nursery's fail latch. -/
def parkFail (s : Runtime V) (id : TaskId) (nursery : ℕ) : Runtime V :=
  s.setNursery nursery fun body => { body with failWaiters := body.failWaiters ++ [id] }

/-- Park the current task on a signal, while its nursery is there. -/
def parkSignal (s : Runtime V) (id : TaskId) (signal : Option ℕ) : Runtime V :=
  match signal with
  | some nursery =>
      if (s.nurseries nursery).held then
        s.setNursery nursery fun body => { body with cancelWaiters := body.cancelWaiters ++ [id] }
      else s
  | none => s

/-- Park the current task on a timer. -/
def parkTimer (s : Runtime V) (id : TaskId) (timer : ℕ) : Runtime V :=
  s.setTimer timer fun body => { body with waiters := body.waiters ++ [id] }

/-- Take the current task off a timer. -/
def unparkTimer (s : Runtime V) (id : TaskId) (timer : ℕ) : Runtime V :=
  s.setTimer timer fun body => { body with waiters := body.waiters.filter fun task => task ≠ id }

/-- A task's failure will not be reported as unobserved. -/
def observe (s : Runtime V) (task : ℕ) : Runtime V :=
  s.setNode task fun node => { node with observed := true }

/-- Observe tasks. -/
def observeAll (s : Runtime V) (tasks : List ℕ) : Runtime V :=
  tasks.foldl observe s

/-- Whether a signal there is aborted. -/
def abortedBy (s : Runtime V) (signal : Option ℕ) : Bool :=
  signal.any s.aborted

/-! ### The leaf futures -/

/-- The value of a settled task, or its failure. -/
def settledAnswer (s : Runtime V) (task : ℕ) : Answer V :=
  match (s.nodes task).failure, (s.nodes task).value with
  | some failure, _ => .failure failure
  | none, some value => .value value
  | none, none => .failure (.panic "a settled task that did not fail has its value" none)

/-- Poll a join of a task. -/
def pollTaskJoin (s : Runtime V) (id : TaskId) (task : ℕ) : Runtime V × Polled V :=
  let s := s.observe task
  if (s.nodes task).settled then (s, .ready (s.settledAnswer task))
  else (s.parkNode id task, .pending (.taskJoin task))

/-- Poll the wait of a `nursery_run` for a child or for the fail latch. -/
def pollNodeJoin (s : Runtime V) (id : TaskId) (node nursery : ℕ) : Runtime V × Polled V :=
  let s := s.observe node
  if (s.nodes node).settled || (s.nurseries nursery).failed.isSome then (s, .ready .unit)
  else ((s.parkFail id nursery).parkNode id node, .pending (.nodeJoin node nursery))

/-- Poll a sleep.  The abort is looked for before the timer is registered. -/
def pollSleep (s : Runtime V) (id : TaskId) (signal slot : Option ℕ) : Runtime V × Polled V :=
  if s.abortedBy signal then (s.cancelSlot slot, .ready (.failure .cancelled))
  else
    match slot with
    | some slot =>
        if (s.slots slot).fired then (s, .ready .unit)
        else (s.parkSignal id signal, .pending (.sleep signal (some slot)))
    | none =>
        let registered := s.registerTimer (.enqueue (some id))
        (registered.1.parkSignal id signal, .pending (.sleep signal (some registered.2)))

/-- Poll a wait for a timer. -/
def pollTimerWait (s : Runtime V) (id : TaskId) (timer : ℕ) (signal : Option ℕ)
    (parked : Bool) : Runtime V × Polled V :=
  if (s.timers timer).settled then (s, .ready (.verdict (s.timers timer).verdict))
  else if s.abortedBy signal then
    (if parked then s.unparkTimer id timer else s, .ready (.failure .cancelled))
  else ((s.parkTimer id timer).parkSignal id signal, .pending (.timerWait timer signal true))

/-- What `settle_all` answers: the failure of the first of its tasks that has failed, in the
order of the list, or every value. -/
def settleAllAnswer (s : Runtime V) (nodes : List ℕ) : Answer V :=
  match nodes.findSome? fun task => (s.nodes task).failure with
  | some failure => .failure failure
  | none =>
      match nodes.mapM fun task => (s.nodes task).value with
      | some values => .values values
      | none => .failure (.panic "a settled task that did not fail has its value" none)

/-- Park the current task on every task of a list that has not settled. -/
def parkUnsettled (s : Runtime V) (id : TaskId) (nodes : List ℕ) : Runtime V :=
  nodes.foldl (fun s task => if (s.nodes task).settled then s else s.parkNode id task) s

/-- Poll a `settle_all`: it is ready when all have settled or any has failed. -/
def pollSettleAll (s : Runtime V) (id : TaskId) (nodes : List ℕ) : Runtime V × Polled V :=
  let s := s.observeAll nodes
  if nodes.any (fun task => (s.nodes task).settled && (s.nodes task).failure.isSome)
      || nodes.all (fun task => (s.nodes task).settled) then
    (s, .ready (s.settleAllAnswer nodes))
  else (s.parkUnsettled id nodes, .pending (.allSettledOrAnyFailed nodes))

/-- What `race` answers: the outcome of the first of its tasks that has settled, in the order
of the list. -/
def raceAnswer (s : Runtime V) (nodes : List ℕ) : Answer V :=
  match nodes.find? fun task => (s.nodes task).settled with
  | some task => s.settledAnswer task
  | none => .failure (.panic "Promise.race on an empty task list never settles" none)

/-- Poll a `race`: it is ready when any task has settled. -/
def pollRace (s : Runtime V) (id : TaskId) (nodes : List ℕ) : Runtime V × Polled V :=
  let s := s.observeAll nodes
  if nodes.any fun task => (s.nodes task).settled then (s, .ready (s.raceAnswer nodes))
  else (nodes.foldl (fun s task => s.parkNode id task) s, .pending (.anySettled nodes))

/-- Poll a future that is pending once. -/
def pollYieldOnce (s : Runtime V) (id : TaskId) (yielded : Bool) : Runtime V × Polled V :=
  if yielded then (s, .ready .unit) else (s.enqueue [id], .pending (.yieldOnce true))

/-- Poll a leaf future of the current task. -/
def pollLeaf (s : Runtime V) (id : TaskId) : Leaf → Runtime V × Polled V
  | .taskJoin task => s.pollTaskJoin id task
  | .nodeJoin node nursery => s.pollNodeJoin id node nursery
  | .sleep signal slot => s.pollSleep id signal slot
  | .timerWait timer signal parked => s.pollTimerWait id timer signal parked
  | .allSettledOrAnyFailed nodes => s.pollSettleAll id nodes
  | .anySettled nodes => s.pollRace id nodes
  | .yieldOnce yielded => s.pollYieldOnce id yielded

/-! ### The current task -/

/-- Poll a task: its driver goes on where it was. -/
def pollTask (s : Runtime V) (id : TaskId) : Runtime V :=
  match s.taskAt id with
  | none => s
  | some task =>
      if (s.nodes task).settled then s
      else
        match (s.nodes task).driver with
        | none => s
        | some driver =>
            { s.setNode task fun node => { node with driver := none } with
              polling := ⟨id, task, driver.frames, driver.control⟩ :: s.polling }

/-- The record of a new task. -/
def makeNode (s : Runtime V) (origin : String) (nursery : Option ℕ) : Runtime V :=
  { s with
    nodes := Function.update s.nodes s.madeNodes
      ⟨origin, some ⟨[], .code⟩, false, none, false, nursery, [], false, none⟩
    madeNodes := s.madeNodes + 1 }

/-- Register a task with a nursery, if there is one. -/
def addChild (s : Runtime V) (nursery : Option ℕ) (task : ℕ) : Runtime V :=
  match nursery with
  | some nursery => s.setNursery nursery fun body =>
      { body with children := body.children ++ [task] }
  | none => s

/-- Spawn a task, registered with a nursery if there is one, and poll it. -/
def spawnIn (s : Runtime V) (origin : String) (nursery : Option ℕ) : Runtime V :=
  let task := s.madeNodes
  let registered := ((s.makeNode origin nursery).addChild nursery task).registerTask task
  (registered.1.happened (.spawned task origin nursery)).pollTask registered.2

/-- The current task suspends on a leaf future. -/
def suspend (s : Runtime V) (top : Polling V) (rest : List (Polling V)) (call : ℕ)
    (leaf : Leaf) : Runtime V :=
  { s.setNode top.node fun node => { node with driver := some ⟨top.frames, .leaf call leaf⟩ } with
    polling := rest }

/-- The current task goes on. -/
def goesOn (s : Runtime V) (top : Polling V) (rest : List (Polling V)) (frames : List (Frame V))
    (control : Control V) : Runtime V :=
  { s with polling := ⟨top.id, top.node, frames, control⟩ :: rest }

/-- The current task is to poll a leaf future. -/
def awaits (s : Runtime V) (top : Polling V) (rest : List (Polling V)) (frames : List (Frame V))
    (leaf : Leaf) : Runtime V :=
  { s.happened (.awaited s.calls leaf) with calls := s.calls + 1 }.goesOn top rest frames
    (.leaf s.calls leaf)

/-- A leaf future is ready. -/
def answerLeaf (s : Runtime V) (top : Polling V) (rest : List (Polling V)) (call : ℕ)
    (answer : Answer V) : Runtime V :=
  let told := s.happened (.answered call answer)
  match answer, top.frames with
  | .failure failure, _ => told.goesOn top rest top.frames (.unwind failure)
  | _, .drain join :: frames =>
      let index :=
        if (s.nurseries join.nursery).failed.isNone then join.index + 1 else join.index
      told.goesOn top rest frames (.join { join with index := index })
  | _, _ => told.goesOn top rest top.frames .code

/-- Poll the leaf future of the current task. -/
def pollTop (s : Runtime V) (top : Polling V) (rest : List (Polling V)) (call : ℕ)
    (leaf : Leaf) : Runtime V :=
  let polled := s.pollLeaf top.id leaf
  match polled.2 with
  | .pending leaf => polled.1.suspend top rest call leaf
  | .ready answer => polled.1.answerLeaf top rest call answer

/-- The failure of a nursery's first task to fail, with its spawn origin. -/
def inTask (node : TaskNode V) : Failure :=
  match node.failure with
  | some (.panic message location) =>
      .panic (message ++ " (in task spawned in " ++ node.origin ++ ")") location
  | _ => .cancelled

/-- A `nursery_run` raises, and absorbs its children. -/
def joinRaises (s : Runtime V) (top : Polling V) (rest : List (Polling V)) (join : Join V)
    (failure : Failure) : Runtime V :=
  ((s.observeAll (s.nurseries join.nursery).children).happened
    (.joined top.node join.call join.nursery (.failure failure))).goesOn top rest top.frames
      (.unwind failure)

/-- A `nursery_run` whose body has ended waits for the next child, returns or raises. -/
def joinTop (s : Runtime V) (top : Polling V) (rest : List (Polling V)) (join : Join V) :
    Runtime V :=
  match join.bodyFailure, (s.nurseries join.nursery).failed with
  | some failure, _ => s.joinRaises top rest join failure
  | none, some winner => s.joinRaises top rest join (inTask (s.nodes winner))
  | none, none =>
      match (s.nurseries join.nursery).children[join.index]?, join.result with
      | some child, _ =>
          s.awaits top rest (.drain join :: top.frames) (.nodeJoin child join.nursery)
      | none, some value =>
          (s.happened (.joined top.node join.call join.nursery (.value value))).goesOn top rest
            top.frames .code
      | none, none =>
          s.goesOn top rest top.frames
            (.unwind (.panic "a body that did not fail produced its value" none))

/-- The current task ends. -/
def settleTop (s : Runtime V) (top : Polling V) (rest : List (Polling V))
    (outcome : Outcome V) : Runtime V :=
  let told : Runtime V := { s.happened (.settled top.node outcome) with polling := rest }
  match outcome with
  | .value value =>
      (told.setNode top.node fun node => { node with value := some value }).settle top.node none
  | .failure failure => told.settle top.node (some failure)

/-- A failure is raised out of the innermost code. -/
def unwindTop (s : Runtime V) (top : Polling V) (rest : List (Polling V)) (failure : Failure) :
    Runtime V :=
  match top.frames with
  | [] => s.settleTop top rest (.failure failure)
  | .body call nursery :: frames =>
      ((s.happened (.bodyEnded top.node call (.failure failure))).cancel nursery).goesOn top rest frames
        (.join ⟨call, nursery, none, some failure, 0⟩)
  | .drain _ :: frames => s.goesOn top rest frames (.unwind failure)
  | .catch :: frames => s.goesOn top rest frames .code

/-- The innermost code ends with a value. -/
def finishTop (s : Runtime V) (top : Polling V) (rest : List (Polling V)) (value : V) :
    Runtime V :=
  match top.frames with
  | [] => s.settleTop top rest (.value value)
  | .body call nursery :: frames =>
      (s.happened (.bodyEnded top.node call (.value value))).goesOn top rest frames
        (.join ⟨call, nursery, some value, none, 0⟩)
  | .drain _ :: frames => s.goesOn top rest frames .code
  | .catch :: frames => s.goesOn top rest frames .code

end Runtime

/-! ### Steps -/

/-- What happens next. -/
inductive Action (V : Type*) where
  /-- The next task of the microtask queue is polled. -/
  | poll
  /-- An entry of the deadline list fires. -/
  | fire (slot : ℕ)
  | reportUnobserved
  | reap
  /-- The last handle of a nursery goes. -/
  | letGo (nursery : ℕ)
  /-- The current task goes on where its code does not decide. -/
  | go
  | spawn (origin : String) (nursery : Option ℕ)
  | nurseryNew (parent : Option ℕ)
  | nurseryNewDetached
  | cancel (nursery : ℕ)
  | timer
  | cancelTimer (timer : ℕ)
  | await (leaf : Leaf)
  /-- Code runs a nursery: its body is next. -/
  | nurseryRun (nursery : ℕ)
  /-- Code catches what its inner code raises, which is next. -/
  | caught
  | finish (value : V)
  | raise (failure : Failure)

/-- Whether a frame refers to a nursery. -/
def Frame.refersTo : Frame V → ℕ → Bool
  | .body _ held, nursery => held == nursery
  | .drain join, nursery => join.nursery == nursery
  | .catch, _ => false

/-- Whether what a task does next refers to a nursery. -/
def Control.refersTo : Control V → ℕ → Bool
  | .leaf _ (.nodeJoin _ held), nursery => held == nursery
  | .join ended, nursery => ended.nursery == nursery
  | _, _ => false

namespace Runtime

/-- Whether code runs: a task's, or synchronous code while no task is polled. -/
def codeRuns (s : Runtime V) : Bool :=
  match s.polling with
  | [] => true
  | top :: _ =>
      match top.control with
      | .code => true
      | _ => false

/-- Whether code can refer to a nursery. -/
def reaches (s : Runtime V) (nursery : ℕ) : Bool :=
  decide (nursery < s.madeNurseries) && (s.nurseries nursery).held

/-- Whether a future of the executor's own refers to a nursery. -/
def isRun (s : Runtime V) (nursery : ℕ) : Bool :=
  (s.polling.any fun polling =>
      polling.frames.any (fun frame => frame.refersTo nursery)
        || polling.control.refersTo nursery)
    || ((List.range s.madeNodes).any fun task =>
      (s.nodes task).driver.any fun driver =>
        driver.frames.any (fun frame => frame.refersTo nursery)
          || driver.control.refersTo nursery)

/-- Whether code can await a leaf future: it has not been polled, and names what was made. -/
def canAwait (s : Runtime V) : Leaf → Bool
  | .taskJoin task => decide (task < s.madeNodes)
  | .sleep signal none => signal.all fun nursery => decide (nursery < s.madeNurseries)
  | .timerWait timer signal false =>
      decide (timer < s.madeTimers) && signal.all fun nursery => decide (nursery < s.madeNurseries)
  | .allSettledOrAnyFailed nodes => nodes.all fun task => decide (task < s.madeNodes)
  | .anySettled nodes => nodes.all fun task => decide (task < s.madeNodes)
  | .yieldOnce false => true
  | _ => false

/-- The current task goes on where its code does not decide. -/
def goTop (s : Runtime V) (top : Polling V) (rest : List (Polling V)) : Option (Runtime V) :=
  match top.control with
  | .code => none
  | .leaf call leaf => some (s.pollTop top rest call leaf)
  | .join join => some (s.joinTop top rest join)
  | .unwind failure => some (s.unwindTop top rest failure)

/-- What the code of the current task does to the task itself. -/
def codeTop (s : Runtime V) (top : Polling V) (rest : List (Polling V)) :
    Action V → Option (Runtime V)
  | .await leaf =>
      if s.canAwait leaf then
        some (s.awaits top rest top.frames leaf)
      else none
  | .nurseryRun nursery =>
      if s.reaches nursery then
        some ({ s with calls := s.calls + 1 }.goesOn top rest
          (.body s.calls nursery :: top.frames) .code)
      else none
  | .caught => some (s.goesOn top rest (.catch :: top.frames) .code)
  | .finish value => some (s.finishTop top rest value)
  | .raise failure => some (s.goesOn top rest top.frames (.unwind failure))
  | _ => none

/-- The state an action leads to, when it is possible. -/
def step (s : Runtime V) : Action V → Option (Runtime V)
  | .poll =>
      match s.polling, s.microtasks with
      | [], id :: microtasks => some ({ s with microtasks := microtasks }.pollTask id)
      | _, _ => none
  | .fire slot =>
      if s.polling.isEmpty && decide (slot < s.sequence) && !(s.slots slot).fired
          && !(s.slots slot).cancelled then
        some (s.fireTimer slot)
      else none
  | .reportUnobserved => if s.polling.isEmpty then some s.reportUnobservedFailures else none
  | .reap => if s.polling.isEmpty then some s.reapSettled else none
  | .letGo nursery =>
      -- A registered task refers to its nursery, and its nursery to it: neither ever goes.
      if s.reaches nursery && (s.nurseries nursery).children.isEmpty && !s.isRun nursery then
        some (s.setNursery nursery fun body => { body with held := false })
      else none
  | .go =>
      match s.polling with
      | [] => none
      | top :: rest => s.goTop top rest
  | .spawn origin nursery =>
      if s.codeRuns && nursery.all s.reaches then some (s.spawnIn origin nursery) else none
  | .nurseryNew parent =>
      if s.codeRuns && parent.all s.reaches then some (s.nurseryNew parent) else none
  | .nurseryNewDetached => if s.codeRuns then some s.nurseryNewDetached else none
  | .cancel nursery => if s.codeRuns && s.reaches nursery then some (s.cancel nursery) else none
  | .timer => if s.codeRuns then some s.timer else none
  | .cancelTimer timer =>
      if s.codeRuns && decide (timer < s.madeTimers) then some (s.cancelTimer timer) else none
  | action =>
      match s.polling with
      | [] => none
      | top :: rest => if s.codeRuns then s.codeTop top rest action else none

end Runtime

/-- Runs of the executor. -/
def Run : List (Action V) → Runtime V → Prop :=
  Machine.Run (· = .new) fun s action s' => s.step action = some s'

/-- Actions that are possible one after the other make a run. -/
theorem Run.of_foldlM {actions : List (Action V)} {s : Runtime V}
    (h : actions.foldlM Runtime.step .new = some s) :
  Run actions s
  := by
  induction actions using List.reverseRecOn generalizing s with
  | nil =>
    rw [List.foldlM_nil, Option.pure_def, Option.some_inj] at h
    exact Machine.Run.start h.symm
  | append_singleton actions action ih =>
    rw [List.foldlM_append, Option.bind_eq_bind, Option.bind_eq_some_iff] at h
    obtain ⟨s', hactions, h⟩ := h
    apply (ih hactions).step
    simpa using h

end Vilan.Executor
