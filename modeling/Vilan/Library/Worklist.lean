import Mathlib

/-!
# Closing a list under successors

A walk takes elements off a stack, skips those it has seen, and puts the successors of the others on
the stack.  Every element is expanded once, so that the successors of all elements bound the steps
of the walk, and what it has seen in the end is what the stack reaches.
-/

namespace Worklist

open Relation

variable {α : Type*} [DecidableEq α] (next : α → List α)

/-- The walk, with the top of the stack first. -/
def closure : ℕ → List α → List α → List α
  | 0, _, seen => seen
  | _ + 1, [], seen => seen
  | steps + 1, top :: stack, seen =>
      if seen.contains top then closure steps stack seen
      else closure steps ((next top).reverse ++ stack) (seen ++ [top])

/-- The successors of all of `keys` that have not been seen. -/
def unseen (keys seen : List α) : ℕ :=
  ((keys.filter fun key => key ∉ seen).map fun key => (next key).length).sum

variable {next}

end Worklist
