import Mathlib.Data.List.Range
import Mathlib.Data.Finset.Card

/-!
# First fit

The first name of an endless sequence that a finite list does not hold.  A sequence without
repetitions always has one among as many names as the list is long, and one more.
-/

namespace FirstFit

variable {α : Type*} [DecidableEq α]

/-- The first of `names`, counted from `i`, that is not in `used`, or the one where the search gives
up. -/
def search (names : ℕ → α) (used : List α) : ℕ → ℕ → α
  | 0, i => names i
  | fuel + 1, i => if names i ∈ used then search names used fuel (i + 1) else names i

/-- The first of `names` that is not in `used`. -/
def fit (names : ℕ → α) (used : List α) : α :=
  search names used used.length 0

theorem search_eq (names : ℕ → α) (used : List α) (fuel i : ℕ) :
  ∃ k, i ≤ k ∧ k ≤ i + fuel ∧ search names used fuel i = names k ∧
    (∀ j, i ≤ j → j < k → names j ∈ used) ∧ (k < i + fuel → names k ∉ used)
  := by
  induction fuel generalizing i with
  | zero =>
    use i
    refine ⟨le_refl i, le_refl i, rfl, ?_, ?_⟩
    · intro j le lt
      omega
    · intro lt
      omega
  | succ fuel ih =>
    rw [search]
    split
    next held =>
      obtain ⟨k, le, bound, eq, before, free⟩ := ih (i + 1)
      use k
      refine ⟨by omega, by omega, eq, ?_, ?_⟩
      · intro j le_j lt
        rcases Nat.eq_or_lt_of_le le_j with rfl | lt_j
        · apply held
        · apply before j lt_j lt
      · intro lt
        apply free
        omega
    next free =>
      use i
      refine ⟨le_refl i, by omega, rfl, ?_, fun _ => free⟩
      intro j le lt
      omega

/-- A sequence without repetitions always has a free name. -/
theorem fit_not_mem {names : ℕ → α} (injective : Function.Injective names) (used : List α) :
  fit names used ∉ used
  := by
  obtain ⟨k, _, bound, eq, before, free⟩ := search_eq names used used.length 0
  rw [fit, eq]
  rcases Nat.lt_or_ge k used.length with lt | ge
  · apply free
    omega
  · intro held
    have within : (List.range (used.length + 1)).map names ⊆ used := by
      intro name mem
      obtain ⟨j, j_mem, rfl⟩ := List.mem_map.mp mem
      rw [List.mem_range] at j_mem
      rcases Nat.lt_or_ge j k with lt | ge'
      · apply before j (Nat.zero_le j) lt
      · have : j = k := by omega
        rw [this]
        apply held
    have nodup : ((List.range (used.length + 1)).map names).Nodup :=
      List.nodup_range.map injective
    have length_le := (List.subperm_of_subset nodup within).length_le
    rw [List.length_map, List.length_range] at length_le
    omega

end FirstFit
