import Vilan.Library.Machine
import Mathlib.Data.Int.Notation

/-!
# Debounces

A debounce collapses a burst of calls into one, some time after the last of them.  Each `run` hands
a callback over and pushes the deadline out, and a driving task waits on one timer after the other
until the deadline has passed.  A task is spawned when the flag `running` is not set, and it takes
the flag back in a step of its own, behind the end of its loop.
-/

namespace Vilan.Time

/-- A timer of the host, and the verdict it has settled on. -/
structure Timer where
  millis : ℤ
  verdict : Option Bool
  deriving DecidableEq

/-- The first verdict stays. -/
def Timer.settle (verdict : Bool) (timer : Timer) : Timer :=
  { timer with verdict := some (timer.verdict.getD verdict) }

/-- A callback, by how many were handed over before it. -/
abbrev Callback := ℕ

structure Debounce where
  delay : ℤ
  /-- The deadline and the callback that will run at it. -/
  pending : Option (ℤ × Callback)
  /-- Whether a driving task is live. -/
  running : Bool
  /-- The timer in flight. -/
  timer : Option ℕ
  deriving DecidableEq

def Debounce.new (delay : ℤ) : Debounce :=
  ⟨delay, none, false, none⟩

/-- Where a driving task is. -/
inductive Task where
  /-- At the head of its loop. -/
  | head
  /-- Parked on a timer. -/
  | waiting (timer : ℕ)
  /-- Inside a callback. -/
  | calling (fn : Callback)
  /-- Out of its loop, with the flag still to be cleared. -/
  | leaving
  deriving DecidableEq

/-- A debounce, the timers that it has started, the tasks that drive it, and whether a nursery
around one of them was cancelled. -/
structure System where
  debounce : Debounce
  timers : List Timer
  tasks : List Task
  /-- How many callbacks have been handed over. -/
  handed : ℕ
  nurseryCancelled : Bool
  deriving DecidableEq

namespace System

variable (system : System)

/-- Hand the next callback over, at a reading of the clock. -/
def run (now : ℤ) : System :=
  let pushed := { system with
    debounce.pending := some (now + system.debounce.delay, system.handed)
    handed := system.handed + 1 }
  if system.debounce.running then pushed
  else { pushed with debounce.running := true, tasks := system.tasks ++ [.head] }

/-- Drop the pending callback, and call the timer in flight off. -/
def cancel : System :=
  let dropped := { system with debounce.pending := none }
  match system.debounce.timer with
  | none => dropped
  | some timer =>
      { dropped with
        debounce.timer := none
        timers := system.timers.modify timer (.settle false) }

/-- Run the pending callback now: what is called, once the window has been called off. -/
def flush : Option Callback × System :=
  match system.debounce.pending with
  | some (_, latest) => (some latest, system.cancel)
  | none => (none, system)

/-- A task at the head of its loop starts a timer for the time that is left, or leaves. -/
def loop (now : ℤ) : Task × System :=
  match system.debounce.pending with
  | some (deadline, _) =>
      let remaining := deadline - now
      ( .waiting system.timers.length,
        { system with
          debounce.timer := some system.timers.length
          timers := system.timers ++ [⟨if remaining < 0 then 0 else remaining, none⟩] } )
  | none => (.leaving, system)

/-- A task whose timer has settled: what it calls, where it goes on, and the state after. -/
def wake (verdict : Bool) (now : ℤ) : Option Callback × Task × System :=
  let cleared := { system with debounce.timer := none }
  if verdict then
    match system.debounce.pending with
    | some (moment, latest) =>
        -- a `run` that came during the wait has pushed the deadline out
        if moment ≤ now then
          (some latest, .calling latest, { cleared with debounce.pending := none })
        else (none, .head, cleared)
    | none => (none, .head, cleared)
  else (none, .head, cleared)

end System

/-- What is seen of a step. -/
inductive Event where
  | ran (fn : Callback)
  | called (fn : Callback)
  | cancelled
  /-- A callback threw inside a driving task. -/
  | threw
  | quiet
  deriving DecidableEq

/-- The event of a callback that may be called. -/
def Event.ofCall : Option Callback → Event
  | some fn => .called fn
  | none => .quiet

/-- The steps, in any order: what the holders of the debounce do, and what its tasks do when they
are resumed, at any reading of the clock. -/
inductive System.Step : System → Event → System → Prop
  | run (system : System) (now : ℤ) : Step system (.ran system.handed) (system.run now)
  | cancel (system : System) : Step system .cancelled system.cancel
  | flush (system : System) : Step system (.ofCall system.flush.1) system.flush.2
  /-- A timer of the host runs out. -/
  | fire (system : System) (timer : ℕ) :
      Step system .quiet { system with timers := system.timers.modify timer (.settle true) }
  | loop {system : System} {before after : List Task} (now : ℤ)
      (task : system.tasks = before ++ .head :: after) :
      Step system .quiet
        { (system.loop now).2 with tasks := before ++ (system.loop now).1 :: after }
  | wake {system : System} {before after : List Task} {timer : ℕ} {started : Timer} {verdict : Bool}
      (now : ℤ) (task : system.tasks = before ++ .waiting timer :: after)
      (found : system.timers[timer]? = some started) (settled : started.verdict = some verdict) :
      Step system (.ofCall (system.wake verdict now).1)
        { (system.wake verdict now).2.2 with
          tasks := before ++ (system.wake verdict now).2.1 :: after }
  | returns {system : System} {before after : List Task} {fn : Callback}
      (task : system.tasks = before ++ .calling fn :: after) :
      Step system .quiet { system with tasks := before ++ .head :: after }
  | throws {system : System} {before after : List Task} {fn : Callback}
      (task : system.tasks = before ++ .calling fn :: after) :
      Step system .threw { system with tasks := before ++ .leaving :: after }
  | cancelNursery (system : System) :
      Step system .quiet { system with nurseryCancelled := true }
  /-- The wait of a task is torn down with its nursery. -/
  | unwind {system : System} {before after : List Task} {timer : ℕ}
      (task : system.tasks = before ++ .waiting timer :: after)
      (cancelled : system.nurseryCancelled = true) :
      Step system .quiet { system with tasks := before ++ .leaving :: after }
  /-- The flag is cleared behind the end of the loop. -/
  | finish {system : System} {before after : List Task}
      (task : system.tasks = before ++ .leaving :: after) :
      Step system .quiet
        { system with debounce.running := false, tasks := before ++ after }

def System.Start (delay : ℤ) (system : System) : Prop :=
  system = ⟨.new delay, [], [], 0, false⟩

end Vilan.Time
