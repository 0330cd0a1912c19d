import Mathlib.Data.List.Range
import Mathlib.Data.List.Nodup

/-!
# Ranges

Half-open ranges of numbers.  A list of ranges stands for the numbers that lie in one of them; where the
ranges ascend, the list also says in which order they come and how many they are.
-/

namespace Ranges

open List

/-- A number that lies in one of the ranges. -/
def Within (ranges : List (ℕ × ℕ)) (id : ℕ) : Prop :=
  ∃ range ∈ ranges, range.1 ≤ id ∧ id < range.2

/-- Ranges in order and apart, which may be empty and may touch. -/
def Sorted (ranges : List (ℕ × ℕ)) : Prop :=
  (∀ range ∈ ranges, range.1 ≤ range.2) ∧ ranges.Pairwise fun before after => before.2 ≤ after.1

/-- Ranges in order and apart, none of them empty. -/
def Ascending (ranges : List (ℕ × ℕ)) : Prop :=
  (∀ range ∈ ranges, range.1 < range.2) ∧ ranges.Pairwise fun before after => before.2 ≤ after.1

/-- How many numbers the ranges hold. -/
def total : List (ℕ × ℕ) → ℕ
  | [] => 0
  | range :: ranges => range.2 - range.1 + total ranges

/-- The numbers of the ranges, one range after the other. -/
def ids (ranges : List (ℕ × ℕ)) : List ℕ :=
  ranges.flatMap fun range => List.range' range.1 (range.2 - range.1)

variable {range : ℕ × ℕ} {ranges others : List (ℕ × ℕ)} {id bound : ℕ}

theorem not_within_nil : ¬ Within [] id
  := by
  rintro ⟨range, mem, _⟩
  cases mem

theorem within_cons :
  Within (range :: ranges) id ↔ (range.1 ≤ id ∧ id < range.2) ∨ Within ranges id
  := by
  simp only [Within, mem_cons, exists_eq_or_imp]

theorem within_singleton : Within [range] id ↔ range.1 ≤ id ∧ id < range.2
  := by
  rw [within_cons, or_iff_left not_within_nil]

theorem within_append : Within (ranges ++ others) id ↔ Within ranges id ∨ Within others id
  := by
  induction ranges with
  | nil => simp only [nil_append, not_within_nil, false_or]
  | cons range ranges ih => rw [cons_append, within_cons, within_cons, ih, or_assoc]

/-! ### In order -/

theorem sorted_cons :
  Sorted (range :: ranges) ↔
    range.1 ≤ range.2 ∧ (∀ after ∈ ranges, range.2 ≤ after.1) ∧ Sorted ranges
  := by
  rw [Sorted, Sorted, forall_mem_cons, pairwise_cons]
  tauto

theorem ascending_nil : Ascending []
  :=
  ⟨fun _ mem => absurd mem not_mem_nil, List.Pairwise.nil⟩

theorem ascending_cons :
  Ascending (range :: ranges) ↔
    range.1 < range.2 ∧ (∀ after ∈ ranges, range.2 ≤ after.1) ∧ Ascending ranges
  := by
  rw [Ascending, Ascending, forall_mem_cons, pairwise_cons]
  tauto

theorem ascending_append :
  Ascending (ranges ++ others) ↔
    Ascending ranges ∧ Ascending others ∧
      ∀ before ∈ ranges, ∀ after ∈ others, before.2 ≤ after.1
  := by
  rw [Ascending, Ascending, Ascending, forall_mem_append, pairwise_append]
  tauto

theorem Sorted.suffix (sorted : Sorted ranges) (suffix : others <:+ ranges) :
  Sorted others
  :=
  ⟨fun range mem => sorted.1 range (suffix.subset mem), sorted.2.sublist suffix.sublist⟩

/-- A number that is not before a bound lies in none of the ranges that stop before the bound, so that
the first of them can be dropped. -/
theorem within_dropWhile (le : bound ≤ id) :
  Within (ranges.dropWhile fun range => range.2 ≤ bound) id ↔ Within ranges id
  := by
  induction ranges with
  | nil => rfl
  | cons range ranges ih =>
    rw [dropWhile_cons]
    split
    next passed =>
      rw [decide_eq_true_iff] at passed
      rw [ih, within_cons, or_iff_right (by omega)]
    next => rfl

/-- Behind the ranges that start at or before a number, all ranges start behind it. -/
theorem Ascending.dropWhile_start (ascending : Ascending ranges) :
  ∀ range ∈ ranges.dropWhile fun range => range.1 ≤ id, id < range.1
  := by
  induction ranges with
  | nil =>
    intro range mem
    cases mem
  | cons range ranges ih =>
    obtain ⟨lt, behind, rest⟩ := ascending_cons.mp ascending
    rw [dropWhile_cons]
    split
    next => exact ih rest
    next later =>
      rw [decide_eq_true_iff] at later
      rw [forall_mem_cons]
      refine ⟨by omega, ?_⟩
      intro after mem
      have le := behind after mem
      omega

/-- What lies in ranges that all start at or behind a bound does so too. -/
theorem Within.behind (within : Within ranges id) (behind : ∀ range ∈ ranges, bound ≤ range.1) :
  bound ≤ id
  := by
  obtain ⟨range, mem, le, _⟩ := within
  exact Nat.le_trans (behind range mem) le

/-- What lies in ranges that all stop at or before a bound lies before it. -/
theorem Within.before (within : Within ranges id) (before : ∀ range ∈ ranges, range.2 ≤ bound) :
  id < bound
  := by
  obtain ⟨range, mem, _, lt⟩ := within
  exact Nat.lt_of_lt_of_le lt (before range mem)

/-! ### The numbers -/

theorem ids_nil : ids [] = []
  := rfl

theorem ids_cons : ids (range :: ranges) = List.range' range.1 (range.2 - range.1) ++ ids ranges
  := rfl

theorem mem_ids : id ∈ ids ranges ↔ Within ranges id
  := by
  induction ranges with
  | nil => simp only [ids_nil, not_mem_nil, not_within_nil]
  | cons range ranges ih =>
    rw [ids_cons, mem_append, within_cons, ih, mem_range'_1]
    have heq : (range.1 ≤ id ∧ id < range.1 + (range.2 - range.1)) ↔
        range.1 ≤ id ∧ id < range.2 := by omega
    rw [heq]

theorem length_ids : (ids ranges).length = total ranges
  := by
  induction ranges with
  | nil => rfl
  | cons range ranges ih =>
    rw [ids_cons, length_append, length_range', ih]
    rfl

/-- The numbers of ascending ranges ascend. -/
theorem Ascending.ids (ascending : Ascending ranges) :
  (ids ranges).Pairwise (· < ·)
  := by
  induction ranges with
  | nil => exact List.Pairwise.nil
  | cons range ranges ih =>
    obtain ⟨_, behind, rest⟩ := ascending_cons.mp ascending
    rw [ids_cons, pairwise_append]
    refine ⟨pairwise_lt_range', ih rest, ?_⟩
    intro id mem other mem'
    rw [mem_range'_1] at mem
    have le := (mem_ids.mp mem').behind behind
    omega

/-- In ascending ranges only the last that starts at or before a number can hold it. -/
theorem Ascending.within_iff {before after : List (ℕ × ℕ)}
    (ascending : Ascending (before ++ range :: after)) (start : range.1 ≤ id)
    (behind : ∀ other ∈ after, id < other.1) :
  Within (before ++ range :: after) id ↔ id < range.2
  := by
  rw [within_append, within_cons]
  constructor
  · rintro (within | ⟨_, lt⟩ | within)
    · have lt := within.before fun other mem =>
        (ascending_append.mp ascending).2.2 other mem range mem_cons_self
      omega
    · exact lt
    · have le : id + 1 ≤ id := within.behind behind
      omega
  · intro lt
    exact Or.inr (Or.inl ⟨start, lt⟩)

end Ranges
