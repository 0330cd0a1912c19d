import Mathlib.Data.List.Basic

/-!
# Climbs

Names that are walked one after the other, where one of them climbs: it takes back the name before it.
At a root a climb that has nothing to take back is dropped, elsewhere it stays.  So the names that have
been walked are settled: the climbs stand at the front, and at a root there are none.
-/

namespace Climbs

open List

variable {α : Type*} [DecidableEq α] {up : α} {rooted : Bool}

/-- Walks one name. -/
def climb (up : α) (rooted : Bool) (parts : List α) (piece : α) : List α :=
  if piece ≠ up then parts ++ [piece]
  else
    match parts.getLast? with
    | some last =>
        if last ≠ up then parts.dropLast else if rooted then parts else parts ++ [up]
    | none => if rooted then parts else parts ++ [up]

/-- Climbs at the front, and none at a root. -/
def Settled (up : α) (rooted : Bool) (parts : List α) : Prop :=
  ∃ count names, parts = List.replicate count up ++ names ∧ up ∉ names ∧
    (rooted = true → count = 0)

omit [DecidableEq α] in
theorem settled_nil : Settled up rooted []
  :=
  ⟨0, [], rfl, not_mem_nil, fun _ => rfl⟩

theorem climb_name (parts : List α) {piece : α} (name : piece ≠ up) :
  climb up rooted parts piece = parts ++ [piece]
  :=
  if_pos name

/-- A climb takes back a name. -/
theorem climb_back (parts : List α) {last : α} (name : last ≠ up) :
  climb up rooted (parts ++ [last]) up = parts
  := by
  rw [climb, if_neg (not_not_intro rfl), getLast?_concat]
  dsimp only
  rw [if_pos name, dropLast_concat]

/-- Behind climbs a climb stays. -/
theorem climb_stays (count : ℕ) :
  climb up false (List.replicate count up) up = List.replicate (count + 1) up
  := by
  rw [climb, if_neg (not_not_intro rfl), replicate_succ']
  cases count with
  | zero => rfl
  | succ count =>
    rw [replicate_succ', getLast?_concat]
    dsimp only
    rw [if_neg (not_not_intro rfl), if_neg Bool.false_ne_true]

theorem climb_root : climb up true [] up = []
  := by
  rw [climb, if_neg (not_not_intro rfl)]
  rfl

/-- What has been walked stays settled. -/
theorem Settled.climb {parts : List α} (settled : Settled up rooted parts) (piece : α) :
  Settled up rooted (climb up rooted parts piece)
  := by
  obtain ⟨count, names, rfl, none_, root⟩ := settled
  by_cases name : piece = up
  · subst name
    obtain rfl | ⟨front, last, rfl⟩ := eq_nil_or_concat names
    · rw [append_nil]
      cases rooted with
      | false =>
        rw [climb_stays]
        exact ⟨count + 1, [], (append_nil _).symm, not_mem_nil, fun h => nomatch h⟩
      | true =>
        obtain rfl := root rfl
        rw [replicate_zero, climb_root]
        exact settled_nil
    · rw [concat_eq_append] at none_ ⊢
      rw [mem_append, mem_singleton, not_or] at none_
      rw [← append_assoc, climb_back _ (Ne.symm none_.2)]
      exact ⟨count, front, rfl, none_.1, root⟩
  · rw [climb_name _ name, append_assoc]
    refine ⟨count, names ++ [piece], rfl, ?_, root⟩
    rw [mem_append, mem_singleton, not_or]
    exact ⟨none_, Ne.symm name⟩

omit [DecidableEq α] in
/-- In front of a climb there are only climbs, and no root. -/
theorem Settled.before_climb {parts pieces : List α} (settled : Settled up rooted (parts ++ up :: pieces)) :
  rooted = false ∧ parts = List.replicate parts.length up
  := by
  obtain ⟨count, names, heq, none_, root⟩ := settled
  obtain ⟨more, front, back⟩ | ⟨more, _, back⟩ := append_eq_append_iff.mp heq
  · obtain ⟨length, parts_, more_⟩ := append_eq_replicate_iff.mp front.symm
    refine ⟨?_, parts_⟩
    cases more with
    | nil =>
      rw [nil_append] at back
      rw [← back] at none_
      exact absurd mem_cons_self none_
    | cons first more =>
      rw [Bool.eq_false_iff]
      intro rooted_
      rw [root rooted_, length_cons] at length
      omega
  · rw [back] at none_
    exact absurd (mem_append_right _ mem_cons_self) none_

/-- Parts that are settled together are walked as they stand. -/
theorem Settled.foldl_eq {parts pieces : List α} (settled : Settled up rooted (parts ++ pieces)) :
  pieces.foldl (Climbs.climb up rooted) parts = parts ++ pieces
  := by
  induction pieces generalizing parts with
  | nil => exact (append_nil parts).symm
  | cons piece pieces ih =>
    have step : Climbs.climb up rooted parts piece = parts ++ [piece] := by
      by_cases name : piece = up
      · subst name
        obtain ⟨rfl, parts_⟩ := settled.before_climb
        rw [parts_, climb_stays, ← replicate_succ']
      · exact climb_name parts name
    rw [foldl_cons, step, ih, append_assoc, singleton_append]
    rw [append_assoc]
    exact settled

/-- As many climbs take back names. -/
theorem foldl_back (parts names : List α) (none_ : up ∉ names) :
  (List.replicate names.length up).foldl (climb up rooted) (parts ++ names) = parts
  := by
  induction length : names.length generalizing names with
  | zero =>
    rw [length_eq_zero_iff.mp length]
    exact append_nil parts
  | succ n ih =>
    obtain rfl | ⟨front, last, rfl⟩ := eq_nil_or_concat names
    · cases length
    rw [concat_eq_append] at none_ length ⊢
    rw [length_append, length_singleton, Nat.add_right_cancel_iff] at length
    rw [mem_append, mem_singleton, not_or] at none_
    rw [replicate_succ, foldl_cons, ← append_assoc,
      climb_back _ (Ne.symm none_.2), ih front none_.1 length]

end Climbs
