import Mathlib.Data.List.Basic

/-!
# Insertions into a text

A text with something inserted before each of its elements and behind the last, by index, and the
single pass over sorted insertions that writes it.
-/

namespace Interleaved

open List

variable {α : Type*}

/-- What insertions leave at an index, one behind the other as they are listed. -/
def standing (insertions : List (ℕ × List α)) (index : ℕ) : List α :=
  (insertions.filter fun entry => entry.1 == index).flatMap Prod.snd

/-- The rest of a text from an index, with what stands at each index before the element there. -/
def interleaved (marks : ℕ → List α) (index : ℕ) : List α → List α
  | [] => marks index
  | a :: text => marks index ++ a :: interleaved marks (index + 1) text

variable {insertions : List (ℕ × List α)} {text markup : List α} {index i : ℕ}

theorem standing_cons_self :
  standing ((i, markup) :: insertions) i = markup ++ standing insertions i
  := by
  rw [standing, filter_cons, if_pos (beq_self_eq_true i), flatMap_cons, standing]

theorem standing_cons_of_ne (ne : i ≠ index) :
  standing ((i, markup) :: insertions) index = standing insertions index
  := by
  rw [standing, filter_cons_of_neg (by simpa using ne), standing]

theorem standing_append (before behind : List (ℕ × List α)) (index : ℕ) :
  standing (before ++ behind) index = standing before index ++ standing behind index
  := by
  rw [standing, filter_append, flatMap_append, standing, standing]

theorem standing_of_lt (above : ∀ entry ∈ insertions, index < entry.1) :
  standing insertions index = []
  := by
  have none_here : insertions.filter (fun entry => entry.1 == index) = [] := by
    rw [filter_eq_nil_iff]
    intro entry mem
    have lt := above entry mem
    simp only [beq_iff_eq]
    omega
  rw [standing, none_here, flatMap_nil]

/-- Insertions of nothing can be left out. -/
theorem standing_filter (p : ℕ × List α → Bool)
    (empty : ∀ entry ∈ insertions, p entry = false → entry.2 = []) (index : ℕ) :
  standing (insertions.filter p) index = standing insertions index
  := by
  induction insertions with
  | nil => rfl
  | cons entry insertions ih =>
    have rest := ih fun entry mem => empty entry (mem_cons_of_mem _ mem)
    have split := standing_append [entry] insertions index
    rw [singleton_append] at split
    rw [split, filter_cons, ← rest]
    cases holds : p entry with
    | true => apply standing_append [entry]
    | false =>
      have nothing : standing [entry] index = [] := by
        rw [standing, List.flatMap_eq_nil_iff]
        intro one mem
        rw [mem_singleton.mp (mem_of_mem_filter mem)]
        apply empty entry mem_cons_self holds
      rw [nothing, nil_append]
      rfl

/-- Only what stands at the indices still ahead matters. -/
theorem interleaved_congr {marks marks' : ℕ → List α}
    (agree : ∀ i, index ≤ i → marks i = marks' i) :
  interleaved marks index text = interleaved marks' index text
  := by
  induction text generalizing index with
  | nil => apply agree index (Nat.le_refl _)
  | cons a text ih =>
    rw [interleaved, interleaved, agree _ (Nat.le_refl _), ih fun i le => agree i (Nat.le_of_succ_le le)]

/-- Where nothing stands the text is as it was. -/
theorem interleaved_take {marks : ℕ → List α} (index count : ℕ) (text : List α)
    (le : count ≤ text.length)
    (clear : ∀ i, index ≤ i → i < index + count → marks i = []) :
  interleaved marks index text =
    text.take count ++ interleaved marks (index + count) (text.drop count)
  := by
  induction count generalizing index text with
  | zero => rfl
  | succ count ih =>
    cases text with
    | nil => contradiction
    | cons a text =>
      have rest := ih (index + 1) text (by simpa using le)
        fun i above below => clear i (by omega) (by omega)
      rw [interleaved, clear index (Nat.le_refl _) (by omega), rest, take_succ_cons, drop_succ_cons,
        Nat.add_right_comm index 1 count, Nat.add_assoc index count 1]
      rfl

theorem interleaved_nil : interleaved (standing []) index text = text := by
  induction text generalizing index with
  | nil => rfl
  | cons a text ih =>
    rw [interleaved, ih]
    rfl

/-- An insertion at an index comes before all that stands there or is still ahead. -/
theorem interleaved_cons (i : ℕ) (markup : List α) :
  interleaved (standing ((i, markup) :: insertions)) i text =
    markup ++ interleaved (standing insertions) i text
  := by
  cases text with
  | nil => apply standing_cons_self
  | cons a text =>
    have ahead : interleaved (standing ((i, markup) :: insertions)) (i + 1) text =
        interleaved (standing insertions) (i + 1) text :=
      interleaved_congr fun j le => standing_cons_of_ne (by omega)
    rw [interleaved, interleaved, standing_cons_self, ahead, append_assoc]

/-- One turn of the pass: the text up to an insertion, and the insertion. -/
def place (text : List α) (written : List α × ℕ) (entry : ℕ × List α) : List α × ℕ :=
  (written.1 ++ (text.drop written.2).take (entry.1 - written.2) ++ entry.2, entry.1)

/-- The pass over sorted insertions writes the text with each of them at its index. -/
theorem foldl_place (index : ℕ) (sorted : (insertions.map Prod.fst).Pairwise (· ≤ ·))
    (ahead : ∀ entry ∈ insertions, index ≤ entry.1 ∧ entry.1 ≤ text.length) (result : List α) :
  (insertions.foldl (place text) (result, index)).1 ++
      text.drop (insertions.foldl (place text) (result, index)).2 =
    result ++ interleaved (standing insertions) index (text.drop index)
  := by
  induction insertions generalizing index result with
  | nil => rw [interleaved_nil, foldl_nil]
  | cons entry insertions ih =>
    obtain ⟨i, markup⟩ := entry
    obtain ⟨above, rest⟩ := pairwise_cons.mp sorted
    obtain ⟨behind, inside⟩ := ahead (i, markup) mem_cons_self
    simp only at behind inside
    have later := ih i rest (fun entry mem =>
      ⟨above _ (List.mem_map_of_mem mem), (ahead entry (mem_cons_of_mem _ mem)).2⟩)
      (result ++ (text.drop index).take (i - index) ++ markup)
    have clear : ∀ j, index ≤ j → j < index + (i - index) →
        standing ((i, markup) :: insertions) j = [] := by
      intro j _ below
      apply standing_of_lt
      intro entry mem
      obtain rfl | mem := mem_cons.mp mem
      · simp only; omega
      · have := above _ (List.mem_map_of_mem mem)
        omega
    have gap := interleaved_take index (i - index) (text.drop index)
      (by rw [length_drop]; omega) clear
    rw [drop_drop, Nat.add_sub_of_le behind, interleaved_cons] at gap
    rw [foldl_cons, place, later, gap]
    simp only [append_assoc]

end Interleaved
