import Vilan.Library.Machine
import Vilan.Std.Text

/-!
# Transients

A transient has a value only sometimes: while a task runs it has the value before it, if there was
one.  A seal over a flow of tasks starts one at every change upstream and applies the outcome of the
newest only.  Its release drops what is in flight.
-/

namespace Vilan

/-- Where a transient stands. -/
inductive TransientState (T E : Type) where
  | pending
  | ready (value : T)
  | refreshing (value : T)
  | failed (error : E) (stale : Option T)
  | absent
  deriving DecidableEq

namespace TransientState

variable {T E : Type}

/-- The value, stale included. -/
def latest : TransientState T E → Option T
  | ready value => some value
  | refreshing value => some value
  | failed _ stale => stale
  | _ => none

/-- The state a new ask moves one to: the last value is kept. -/
def refreshed (state : TransientState T E) : TransientState T E :=
  match state.latest with
  | some value => refreshing value
  | none => pending

/-- The state a failure moves one to: the last value is carried. -/
def fail (state : TransientState T E) (error : E) : TransientState T E :=
  failed error state.latest

end TransientState

/-- What a flow of tasks is sealed into: the state of the newest task, and how many were claimed. -/
structure Transient (T E : Type) where
  cell : TransientState T E
  generation : ℤ

namespace Transient

variable {T E : Type}

/-- Nothing yet, with no task behind it. -/
def pending : Transient T E :=
  ⟨.pending, 0⟩

/-- A new task has started. -/
def claim (self : Transient T E) : ℤ × Transient T E :=
  (self.generation + 1, ⟨self.cell.refreshed, self.generation + 1⟩)

/-- Whether the task of a claim is still the newest. -/
def current (self : Transient T E) (mine : ℤ) : Bool :=
  self.generation == mine

/-- Drop every claim. -/
def retire (self : Transient T E) : Transient T E :=
  { self with generation := self.generation + 1 }

/-- Apply the outcome of the task of a claim, if it is still the newest. -/
def settle (self : Transient T E) (mine : ℤ) (outcome : Except E T) : Transient T E :=
  if self.current mine then
    match outcome with
    | .ok value => { self with cell := .ready value }
    | .error error => { self with cell := self.cell.fail error }
  else self

end Transient

/-- What a seal makes of the outcome of a task that it awaited: it settles with the answer that the
outcome holds, if it holds one. -/
structure Seal (T E : Type) where
  Outcome : Type
  answer : Outcome → Option (Except E T)
  settling : Transient T E → ℤ → Outcome → Transient T E
  settling_eq : ∀ transient mine outcome,
    settling transient mine outcome =
      ((answer outcome).map (transient.settle mine)).getD transient

namespace Seal

variable {T E : Type}

/-- What a seal over tasks that answer results makes of an outcome: a panic is raised again, and
leaves the transient as the claim did. -/
def settlingResult (transient : Transient T E) (mine : ℤ) (outcome : Except Str (Except E T)) :
    Transient T E :=
  if transient.current mine then
    match outcome with
    | .ok answered => transient.settle mine answered
    | .error _ => transient
  else transient

/-- The seal over tasks that answer results. -/
def results : Seal T E where
  Outcome := Except Str (Except E T)
  answer outcome := outcome.toOption
  settling := settlingResult
  settling_eq := by
    intro transient mine outcome
    cases outcome with
    | error message => rw [settlingResult]; split <;> rfl
    | ok answered =>
      rw [settlingResult]
      split
      next => rfl
      next superseded =>
        change transient = transient.settle mine answered
        unfold Transient.settle
        rw [if_neg superseded]

/-- The seal over bare tasks: a panic is a failure. -/
def tasks : Seal T Str where
  Outcome := Except Str T
  answer outcome := some outcome
  settling := Transient.settle
  settling_eq := by
    intro transient mine outcome
    rfl

variable (arm : Seal T E)

/-- A transient with the tasks that were started, each with its claim and whether it has completed,
and whether the seal still follows its upstream. -/
structure System (T E : Type) where
  transient : Transient T E
  started : List (ℤ × Bool)
  subscribed : Bool

/-- What happens to a seal. -/
inductive Event where
  | change
  | complete (task : ℕ) (outcome : arm.Outcome)
  | release

variable {arm}

/-- What an event makes of a sealed flow, if it can happen there. -/
def System.step (system : System T E) : Event arm → Option (System T E)
  | .change =>
      if system.subscribed then
        let (mine, transient) := system.transient.claim
        some { system with transient := transient, started := system.started ++ [(mine, false)] }
      else none
  | .complete task outcome =>
      match system.started[task]? with
      | some (mine, false) =>
          some { system with
            transient := arm.settling system.transient mine outcome
            started := system.started.set task (mine, true) }
      | _ => none
  | .release => some { system with transient := system.transient.retire, subscribed := false }

def Start (system : System T E) : Prop :=
  system = ⟨Transient.pending, [], true⟩

def Step (system : System T E) (event : Event arm) (system' : System T E) : Prop :=
  system.step event = some system'

/-- The runs of a seal. -/
abbrev Run (arm : Seal T E) (trace : List (Event arm)) (system : System T E) : Prop :=
  Machine.Run Start Step trace system

/-! ### Histories -/

/-- What happened before the release. -/
def unreleased : List (Event arm) → List (Event arm)
  | [] => []
  | .change :: trace => .change :: unreleased trace
  | .complete task outcome :: trace => .complete task outcome :: unreleased trace
  | .release :: _ => []

/-- How many tasks were started. -/
def changes : List (Event arm) → ℕ
  | [] => 0
  | .change :: trace => changes trace + 1
  | .complete _ _ :: trace => changes trace
  | .release :: trace => changes trace

/-- The values of the successes that were applied, each of the task that was the newest when it
completed, where some tasks were started before. -/
def applied : ℕ → List (Event arm) → List T
  | _, [] => []
  | count, .change :: trace => applied (count + 1) trace
  | count, .complete task outcome :: trace =>
      match arm.answer outcome with
      | some (.ok value) =>
          if task + 1 = count then value :: applied count trace else applied count trace
      | _ => applied count trace
  | count, .release :: trace => applied count trace

/-- The value of the last task whose success was applied. -/
def stale (trace : List (Event arm)) : Option T :=
  (applied 0 trace).getLast?

/-- What a transient shows of a history: the outcome of the newest task, or that it runs, with the
value of the last success. -/
def Shows (trace : List (Event arm)) (state : TransientState T E) : Prop :=
  match changes trace with
  | 0 => state = .pending
  | newest + 1 =>
      (∀ outcome value, .complete newest outcome ∈ trace →
        arm.answer outcome = some (.ok value) → state = .ready value) ∧
      (∀ outcome error, .complete newest outcome ∈ trace →
        arm.answer outcome = some (.error error) → state = .failed error (stale trace)) ∧
      ((∀ outcome, .complete newest outcome ∈ trace → arm.answer outcome = none) →
        state = match stale trace with
          | some value => .refreshing value
          | none => .pending)

end Seal

end Vilan
