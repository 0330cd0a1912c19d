import Mathlib.Data.List.Nodup

/-!
# The executor's runtime

One thread runs every task.  A task is polled until it suspends on a leaf future, which parks
the task on the wake lists of what it waits for; whatever wakes the task enqueues its id on the
microtask queue.  Tasks are named by slots of a slab, which are reused: a slot's generation
says which ids still name it.

Nodes, nurseries, timers and entries of the deadline list are shared in the source; here they
are numbered in the order they were made.  A nursery is held while anything refers to it other
than weakly.  Time is left out: any live entry of the deadline list may be the earliest.
-/

namespace Vilan.Executor

/-! ### Tasks -/

/-- A handle into the slab: a slot and the generation it carried when the handle was minted. -/
structure TaskId where
  index : ℕ
  generation : ℕ
  deriving DecidableEq

/-- A slot of the slab: the live task, or nothing, and the generation. -/
structure TaskSlot where
  node : Option ℕ
  generation : ℕ

/-- Why a task did not produce a value. -/
inductive Failure where
  | cancelled
  | panic (message : String) (location : Option String)
  deriving DecidableEq

/-- How a body ended. -/
inductive Outcome (V : Type*) where
  | value (value : V)
  | failure (failure : Failure)
  deriving DecidableEq

/-- A leaf future, with what it keeps between polls.  A signal names its nursery. -/
inductive Leaf where
  | taskJoin (task : ℕ)
  | nodeJoin (node nursery : ℕ)
  | sleep (signal slot : Option ℕ)
  | timerWait (timer : ℕ) (signal : Option ℕ) (parked : Bool)
  | allSettledOrAnyFailed (nodes : List ℕ)
  | anySettled (nodes : List ℕ)
  | yieldOnce (yielded : Bool)

/-- The locals of a `nursery_run` whose body has ended. -/
structure Join (V : Type*) where
  call : ℕ
  nursery : ℕ
  result : Option V
  bodyFailure : Option Failure
  index : ℕ

/-- What of a task's code waits for the code above it: a `nursery_run` for its body or for a
child, or another catch. -/
inductive Frame (V : Type*) where
  | body (call nursery : ℕ)
  | drain (join : Join V)
  | catch

/-- What a task does next: its code runs, a leaf future is polled, a `nursery_run` goes on with
its loop, or a failure is raised. -/
inductive Control (V : Type*) where
  | code
  | leaf (call : ℕ) (leaf : Leaf)
  | join (join : Join V)
  | unwind (failure : Failure)

/-- A task's future between polls. -/
structure Driver (V : Type*) where
  frames : List (Frame V)
  control : Control V

/-- The record behind a task.  It is owned when it has a nursery. -/
structure TaskNode (V : Type*) where
  origin : String
  driver : Option (Driver V)
  settled : Bool
  failure : Option Failure
  observed : Bool
  nursery : Option ℕ
  waiters : List TaskId
  reported : Bool
  /-- The cell of the task's handles. -/
  value : Option V

/-! ### Nurseries and timers -/

/-- A nursery's body. -/
structure NurseryBody where
  children : List ℕ
  cancelled : Bool
  /-- The first owned task to fail with a real error. -/
  failed : Option ℕ
  failWaiters : List TaskId
  cancelWaiters : List TaskId
  descendants : List ℕ
  parent : Option ℕ
  detached : Bool
  /-- Whether anything still refers to it other than weakly. -/
  held : Bool

/-- What firing an entry of the deadline list does. -/
inductive TimerAction where
  | enqueue (task : Option TaskId)
  | settle (timer : ℕ)

/-- An entry of the deadline list. -/
structure TimerSlot where
  fired : Bool
  cancelled : Bool
  action : Option TimerAction

/-- A timer's verdict and its waiters. -/
structure TimerBody where
  settled : Bool
  verdict : Bool
  waiters : List TaskId
  slot : Option ℕ

/-! ### The runtime -/

/-- What a leaf future answers. -/
inductive Answer (V : Type*) where
  | unit
  | verdict (verdict : Bool)
  | value (value : V)
  | values (values : List V)
  | failure (failure : Failure)
  deriving DecidableEq

/-- What an observer sees of a run. -/
inductive Event (V : Type*) where
  | spawned (task : ℕ) (origin : String) (nursery : Option ℕ)
  | settled (task : ℕ) (outcome : Outcome V)
  /-- A leaf future is polled first. -/
  | awaited (call : ℕ) (leaf : Leaf)
  | answered (call : ℕ) (answer : Answer V)
  /-- The body of a task's `nursery_run` has ended. -/
  | bodyEnded (task call : ℕ) (outcome : Outcome V)
  /-- A task's `nursery_run` has ended. -/
  | joined (task call nursery : ℕ) (outcome : Outcome V)

/-- A task that is being polled. -/
structure Polling (V : Type*) where
  id : TaskId
  node : ℕ
  frames : List (Frame V)
  control : Control V

/-- The whole runtime, and what has been made.  The polls on the stack are listed innermost
first, and the task of the first is the current one. -/
structure Runtime (V : Type*) where
  nodes : ℕ → TaskNode V
  madeNodes : ℕ
  nurseries : ℕ → NurseryBody
  madeNurseries : ℕ
  timers : ℕ → TimerBody
  madeTimers : ℕ
  slots : ℕ → TimerSlot
  sequence : ℕ
  tasks : List TaskSlot
  /-- Freed slots of the slab, newest first. -/
  freeSlots : List ℕ
  microtasks : List TaskId
  polling : List (Polling V)
  /-- How many leaf futures and `nursery_run`s have been begun. -/
  calls : ℕ
  stderr : List String
  /-- What has happened, oldest first.  No code reads it. -/
  log : List (Event V)

namespace Runtime

variable {V : Type*}

/-- A runtime nothing has run on. -/
def new : Runtime V where
  nodes := fun _ => ⟨"", none, false, none, false, none, [], false, none⟩
  madeNodes := 0
  nurseries := fun _ => ⟨[], false, none, [], [], [], none, false, false⟩
  madeNurseries := 0
  timers := fun _ => ⟨false, false, [], none⟩
  madeTimers := 0
  slots := fun _ => ⟨false, false, none⟩
  sequence := 0
  tasks := []
  freeSlots := []
  microtasks := []
  polling := []
  calls := 0
  stderr := []
  log := []

/-- Change a task's record. -/
def setNode (s : Runtime V) (task : ℕ) (f : TaskNode V → TaskNode V) : Runtime V :=
  { s with nodes := Function.update s.nodes task (f (s.nodes task)) }

/-- Change a nursery's body. -/
def setNursery (s : Runtime V) (nursery : ℕ) (f : NurseryBody → NurseryBody) : Runtime V :=
  { s with nurseries := Function.update s.nurseries nursery (f (s.nurseries nursery)) }

/-- Change a timer's body. -/
def setTimer (s : Runtime V) (timer : ℕ) (f : TimerBody → TimerBody) : Runtime V :=
  { s with timers := Function.update s.timers timer (f (s.timers timer)) }

/-- Change an entry of the deadline list. -/
def setSlot (s : Runtime V) (slot : ℕ) (f : TimerSlot → TimerSlot) : Runtime V :=
  { s with slots := Function.update s.slots slot (f (s.slots slot)) }

/-- Log what happened. -/
def happened (s : Runtime V) (event : Event V) : Runtime V :=
  { s with log := s.log ++ [event] }

/-- Enqueue tasks to be polled again. -/
def enqueue (s : Runtime V) (tasks : List TaskId) : Runtime V :=
  { s with microtasks := s.microtasks ++ tasks }

/-! ### The slab -/

/-- The task an id names, unless its slot was reaped. -/
def taskAt (s : Runtime V) (id : TaskId) : Option ℕ :=
  s.tasks[id.index]?.bind fun slot =>
    if slot.generation = id.generation then slot.node else none

/-- Put a task in a slot of the slab: a freed one if there is one, or a fresh one. -/
def registerTask (s : Runtime V) (task : ℕ) : Runtime V × TaskId :=
  match s.freeSlots with
  | index :: free =>
      ({ s with
          freeSlots := free
          tasks := s.tasks.modify index fun slot => { slot with node := some task } },
        ⟨index, (s.tasks[index]?.map TaskSlot.generation).getD 0⟩)
  | [] => ({ s with tasks := s.tasks ++ [⟨some task, 0⟩] }, ⟨s.tasks.length, 0⟩)

/-- Whether a slot holds a settled task. -/
def isReapable (s : Runtime V) (slot : TaskSlot) : Bool :=
  slot.node.any fun task => (s.nodes task).settled

/-- Settled tasks leave the slab, and their slots are free from then on. -/
def reapSettled (s : Runtime V) : Runtime V :=
  { s with
    tasks := s.tasks.map fun slot =>
      if s.isReapable slot then ⟨none, slot.generation + 1⟩ else slot
    freeSlots := (s.tasks.findIdxs s.isReapable).reverse ++ s.freeSlots }

/-! ### Cancelling -/

/-- Whether a nursery is cancelled, itself or through its parents, looking `fuel` nurseries
up. -/
def isCancelledWithin (s : Runtime V) : ℕ → ℕ → Bool
  | 0, _ => false
  | fuel + 1, nursery =>
      (s.nurseries nursery).cancelled
        || (s.nurseries nursery).parent.any fun parent =>
          (s.nurseries parent).held && isCancelledWithin s fuel parent

/-- Whether a nursery is cancelled: by its own `cancel`, a parent's, or the first error.  A
parent is older than its children. -/
def isCancelled (s : Runtime V) (nursery : ℕ) : Bool :=
  s.isCancelledWithin (nursery + 1) nursery

/-- Whether the nursery behind a signal has cancelled.  A signal whose nursery is gone is not
aborted. -/
def aborted (s : Runtime V) (signal : ℕ) : Bool :=
  (s.nurseries signal).held && s.isCancelled signal

/-- Cancel a nursery and every descendant of it, `fuel` nurseries deep, and wake whatever is
parked on them. -/
def cancelWithin : ℕ → Runtime V → ℕ → Runtime V
  | 0, s, _ => s
  | fuel + 1, s, nursery =>
      if (s.nurseries nursery).cancelled then s
      else
        let woken := (s.nurseries nursery).cancelWaiters
        let marked := s.setNursery nursery fun body =>
          { body with cancelled := true, cancelWaiters := [] }
        (s.nurseries nursery).descendants.foldl
          (fun s descendant =>
            if (s.nurseries descendant).held then cancelWithin fuel s descendant else s)
          (marked.enqueue woken)

/-- Cancel a nursery.  Descendants are younger. -/
def cancel (s : Runtime V) (nursery : ℕ) : Runtime V :=
  cancelWithin s.madeNurseries s nursery

/-! ### Settling -/

/-- The line an unobserved failure is reported with. -/
def unhandled (origin : String) : Failure → Option String
  | .panic message (some location) =>
      some ("unhandled task error (spawned in " ++ origin ++ "): panicked at " ++ location ++ ": "
        ++ message)
  | .panic message none =>
      some ("unhandled task error (spawned in " ++ origin ++ "): " ++ message)
  | .cancelled => none

/-- Report an unobserved failure, at most once. -/
def reportUnobserved (s : Runtime V) (task : ℕ) : Runtime V :=
  if (s.nodes task).reported then s
  else
    { s.setNode task fun node => { node with reported := true } with
      stderr := s.stderr ++ ((s.nodes task).failure.bind (unhandled (s.nodes task).origin)).toList }

/-- The task is the first of its nursery to fail: latch it, abort the signal and wake the
join.  A detached nursery reports the failure instead. -/
def fail (s : Runtime V) (nursery task : ℕ) : Runtime V :=
  if (s.nurseries nursery).detached then
    if (s.nodes task).observed then s else s.reportUnobserved task
  else if (s.nurseries nursery).failed.isSome then s
  else
    let latched := (s.setNursery nursery fun body => { body with failed := some task }).cancel nursery
    (latched.setNursery nursery fun body => { body with failWaiters := [] }).enqueue
      (latched.nurseries nursery).failWaiters

/-- Settle a task: drop its driver, tell its nursery of a real error, and wake its waiters. -/
def settle (s : Runtime V) (task : ℕ) (failure : Option Failure) : Runtime V :=
  if (s.nodes task).settled then s
  else
    let marked := s.setNode task fun node =>
      { node with settled := true, driver := none, failure := failure }
    let told :=
      match failure, (s.nodes task).nursery with
      | some (.panic _ _), some nursery => marked.fail nursery task
      | _, _ => marked
    (told.setNode task fun node => { node with waiters := [] }).enqueue (told.nodes task).waiters

/-- Every task in the slab that has settled unobserved and unowned is reported. -/
def reportUnobservedFailures (s : Runtime V) : Runtime V :=
  (s.tasks.filterMap TaskSlot.node).foldl
    (fun s task =>
      if (s.nodes task).settled && !(s.nodes task).observed && (s.nodes task).nursery.isNone then
        s.reportUnobserved task
      else s)
    s

/-! ### Timers -/

/-- Enter a timer in the deadline list. -/
def registerTimer (s : Runtime V) (action : TimerAction) : Runtime V × ℕ :=
  ({ s with
      slots := Function.update s.slots s.sequence ⟨false, false, some action⟩
      sequence := s.sequence + 1 },
    s.sequence)

/-- Settle a timer: the first verdict wins, and its waiters wake. -/
def settleTimer (s : Runtime V) (timer : ℕ) (verdict : Bool) : Runtime V :=
  if (s.timers timer).settled then s
  else
    (s.setTimer timer fun body =>
        { body with settled := true, verdict := verdict, waiters := [] }).enqueue
      (s.timers timer).waiters

/-- A new timer. -/
def timer (s : Runtime V) : Runtime V :=
  let registered := s.registerTimer (.settle s.madeTimers)
  { registered.1 with
    timers := Function.update s.timers s.madeTimers ⟨false, false, [], some registered.2⟩
    madeTimers := s.madeTimers + 1 }

/-- Cancel an entry of the deadline list. -/
def cancelSlot (s : Runtime V) (slot : Option ℕ) : Runtime V :=
  match slot with
  | some slot => s.setSlot slot fun entry => { entry with cancelled := true }
  | none => s

/-- Cancel a timer: a `false` verdict, if nothing settled it first. -/
def cancelTimer (s : Runtime V) (timer : ℕ) : Runtime V :=
  if (s.timers timer).settled then s
  else (s.cancelSlot (s.timers timer).slot).settleTimer timer false

/-- Fire an entry of the deadline list. -/
def fireTimer (s : Runtime V) (slot : ℕ) : Runtime V :=
  let fired := s.setSlot slot fun _ => ⟨true, (s.slots slot).cancelled, none⟩
  match (s.slots slot).action with
  | some (.enqueue task) => fired.enqueue task.toList
  | some (.settle timer) => fired.settleTimer timer true
  | none => fired

/-! ### New nurseries -/

/-- A new nursery under another, or under none. -/
def nurseryNew (s : Runtime V) (parent : Option ℕ) : Runtime V :=
  let nursery := s.madeNurseries
  let made : Runtime V :=
    { s with
      nurseries := Function.update s.nurseries nursery
        ⟨[], false, none, [], [], [], parent, false, true⟩
      madeNurseries := nursery + 1 }
  match parent with
  | some parent =>
      if made.isCancelled parent then made.cancel nursery
      else made.setNursery parent fun body =>
        { body with descendants := body.descendants ++ [nursery] }
  | none => made

/-- A new nursery that is never joined. -/
def nurseryNewDetached (s : Runtime V) : Runtime V :=
  { s with
    nurseries := Function.update s.nurseries s.madeNurseries
      ⟨[], false, none, [], [], [], none, true, true⟩
    madeNurseries := s.madeNurseries + 1 }

end Runtime

end Vilan.Executor
