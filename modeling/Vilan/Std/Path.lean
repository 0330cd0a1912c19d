import Vilan.Std.Text

/-!
# Paths

The last component of a path, by the text alone.
-/

namespace Vilan.Path

open List

/-- A path without the separators at its end. -/
def unslashed (path : Str) : Str :=
  (path.reverse.dropWhile (· == unit '/')).reverse

/-- The last component of a path, with the separators at its end ignored. -/
def basename (path : Str) : Str :=
  ((unslashed path).reverse.takeWhile (· != unit '/')).reverse

/-- Of a path to a name in the root, the last component is the name. -/
theorem basename_root {name : Str} (plain : unit '/' ∉ name) :
  basename (unit '/' :: name) = name
  := by
  have reversed : unit '/' ∉ name.reverse := by
    rw [mem_reverse]
    apply plain
  have kept : ∀ u ∈ name.reverse, (u != unit '/') = true := by
    intro u mem
    rw [bne_iff_ne]
    rintro rfl
    apply reversed mem
  rw [basename, unslashed, reverse_reverse, reverse_cons]
  cases eq : name.reverse with
  | nil =>
    rw [← reverse_reverse name, eq]
    simp
  | cons u front =>
    rw [eq] at kept
    have not_slash : (u == unit '/') = false := by
      have ne := kept u mem_cons_self
      rw [bne, Bool.not_eq_true'] at ne
      apply ne
    rw [cons_append, dropWhile_cons_of_neg (by simp [not_slash]), ← cons_append,
      takeWhile_append_of_pos kept]
    rw [← reverse_reverse name, eq]
    simp

end Vilan.Path
