import Mathlib.Data.List.Basic

/-!
# Replaying operations

Operations act on states by a function `apply`.  A list of operations is replayed on a state
in order, and a property of operations and states holds along it when it holds of each
operation and the state the operations before it have made.
-/

namespace Replay

variable {Op State : Type*} {apply : Op → State → State}

/-- The state a run of operations makes of a state. -/
def replay (apply : Op → State → State) (ops : List Op) (state : State) : State :=
  ops.foldl (fun state op => apply op state) state

/-- Every operation of a run is related to the state the operations before it have made. -/
def Along (apply : Op → State → State) (P : Op → State → Prop) : List Op → State → Prop
  | [], _ => True
  | op :: ops, state => P op state ∧ Along apply P ops (apply op state)

theorem replay_append (ops more : List Op) (state : State) :
  replay apply (ops ++ more) state = replay apply more (replay apply ops state)
  := List.foldl_append

theorem along_append {P : Op → State → Prop} {ops more : List Op} {state : State} :
  Along apply P (ops ++ more) state
    ↔ Along apply P ops state ∧ Along apply P more (replay apply ops state)
  := by
  induction ops generalizing state with
  | nil => simp [Along, replay]
  | cons op ops ih =>
    rw [List.cons_append, Along, Along, ih, and_assoc]
    rfl

theorem Along.mono {P Q : Op → State → Prop} (h : ∀ op state, P op state → Q op state)
    {ops : List Op} {state : State} (hops : Along apply P ops state) :
  Along apply Q ops state
  := by
  induction ops generalizing state with
  | nil => trivial
  | cons op ops ih =>
    constructor
    · apply h _ _ hops.1
    · apply ih hops.2

end Replay
