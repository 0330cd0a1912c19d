import Mathlib.Data.Nat.Notation
import Mathlib.Data.Option.Basic

/-!
# Unsigned arithmetic that can fail
-/

namespace Checked

/-- An unsigned subtraction, which fails when it would go below zero. -/
def sub (a b : ℕ) : Option ℕ :=
  if b ≤ a then some (a - b) else none

theorem sub_of_le {a b : ℕ} (le : b ≤ a) :
  sub a b = some (a - b)
  := if_pos le

end Checked
