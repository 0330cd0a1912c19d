import Mathlib.Data.List.Basic

/-!
# Search in a text that arrives in pieces

Where a needle first occurs in a list, and the list cut there.  An occurrence stays where it is when
more arrives, and what cannot be the start of one can be taken off the front.
-/

namespace Search

open List Option

variable {α : Type*} [DecidableEq α]

/-- Where a needle first occurs. -/
def find (needle : List α) : List α → Option ℕ
  | [] => if needle = [] then some 0 else none
  | a :: text =>
      if needle.isPrefixOf (a :: text) then some 0 else (find needle text).map (· + 1)

/-- What is before the first occurrence of a needle, and what is behind it. -/
def cut (needle text : List α) : Option (List α × List α) :=
  (find needle text).map fun e => (text.take e, text.drop (e + needle.length))

theorem find_cons (needle : List α) (a : α) (text : List α) :
  find needle (a :: text) =
    if needle <+: a :: text then some 0 else (find needle text).map (· + 1)
  := by
  rw [find]
  simp only [List.isPrefixOf_iff_prefix]

variable {needle text before behind : List α} {i : ℕ}

theorem find_eq_some_iff {e : ℕ} :
  find needle text = some e ↔
    e ≤ text.length ∧ needle <+: text.drop e ∧ ∀ i < e, ¬ needle <+: text.drop i
  := by
  induction text generalizing e with
  | nil =>
    rw [find]
    by_cases empty : needle = []
    · subst empty
      rw [if_pos rfl, some_inj]
      constructor
      · rintro rfl
        simp
      · rintro ⟨le, _⟩
        apply (Nat.le_zero.mp le).symm
    · rw [if_neg empty]
      simp [empty]
  | cons a text ih =>
    rw [find_cons]
    split
    next first =>
      rw [some_inj]
      constructor
      · rintro rfl
        simpa using first
      · rintro ⟨_, _, none_⟩
        by_contra ne
        apply none_ 0 (by omega)
        apply first
    next first =>
      cases e with
      | zero => simp [first]
      | succ e =>
        rw [map_eq_some_iff]
        simp only [Nat.add_right_cancel_iff, exists_eq_right, ih,
          length_cons, Nat.add_le_add_iff_right, drop_succ_cons]
        constructor
        · rintro ⟨le, occurs, none_⟩
          refine ⟨le, occurs, ?_⟩
          intro i lt
          cases i with
          | zero => apply first
          | succ i => apply none_ i (by omega)
        · rintro ⟨le, occurs, none_⟩
          refine ⟨le, occurs, ?_⟩
          intro i lt
          apply none_ (i + 1) (by omega)

theorem find_eq_none_iff (some_ : needle ≠ []) :
  find needle text = none ↔ ∀ i, ¬ needle <+: text.drop i
  := by
  induction text with
  | nil => simp [find, some_]
  | cons a text ih =>
    rw [find_cons]
    split
    next first =>
      simp only [reduceCtorEq, false_iff, not_forall, not_not]
      use 0
      apply first
    next first =>
      rw [map_eq_none_iff, ih]
      constructor
      · intro none_ i
        cases i with
        | zero => apply first
        | succ i => apply none_ i
      · intro none_ i
        apply none_ (i + 1)

theorem cut_eq_none_iff : cut needle text = none ↔ find needle text = none := by
  rw [cut, map_eq_none_iff]

theorem cut_eq_some_iff :
  cut needle text = some (before, behind) ↔
    text = before ++ (needle ++ behind) ∧ ∀ i < before.length, ¬ needle <+: text.drop i
  := by
  rw [cut, map_eq_some_iff]
  constructor
  · rintro ⟨e, found, eq⟩
    obtain ⟨le, ⟨rest, occurs⟩, none_⟩ := find_eq_some_iff.mp found
    rw [Prod.mk.injEq] at eq
    obtain ⟨rfl, rfl⟩ := eq
    constructor
    · rw [← drop_drop, ← occurs, drop_left, occurs, take_append_drop]
    · intro i lt
      apply none_ i
      rw [length_take] at lt
      omega
  · rintro ⟨rfl, none_⟩
    refine ⟨before.length, ?_, ?_⟩
    · rw [find_eq_some_iff]
      refine ⟨by simp, ?_, none_⟩
      rw [drop_left]
      apply prefix_append
    · rw [take_left, ← append_assoc, ← length_append, drop_left]

omit [DecidableEq α] in
/-- An occurrence reaches no further than the text. -/
theorem length_of_occurs (some_ : needle ≠ []) (occurs : needle <+: text.drop i) :
  i + needle.length ≤ text.length
  := by
  have le := occurs.length_le
  rw [length_drop] at le
  have pos := length_pos_iff.mpr some_
  omega

omit [DecidableEq α] in
/-- Where the needle fits, it occurs in the text exactly when it does so in what more arrives. -/
theorem occurs_append_iff (fits : i + needle.length ≤ text.length) (more : List α) :
  needle <+: (text ++ more).drop i ↔ needle <+: text.drop i
  := by
  rw [drop_append_of_le_length (by omega)]
  constructor
  · intro occurs
    apply prefix_of_prefix_length_le occurs (prefix_append _ _)
    rw [length_drop]
    omega
  · intro occurs
    apply occurs.trans (prefix_append _ _)

/-- An occurrence stays the first one when more arrives. -/
theorem cut_append (found : cut needle text = some (before, behind)) (more : List α) :
  cut needle (text ++ more) = some (before, behind ++ more)
  := by
  rw [cut_eq_some_iff] at found ⊢
  obtain ⟨rfl, none_⟩ := found
  constructor
  · simp only [append_assoc]
  · intro i lt occurs
    apply none_ i lt
    rw [occurs_append_iff] at occurs
    · apply occurs
    · simp only [length_append]
      omega

/-- What starts no occurrence can be taken off. -/
theorem cut_drop {count : ℕ} (le : count ≤ text.length)
    (none_ : ∀ i < count, ¬ needle <+: text.drop i) :
  cut needle text =
    (cut needle (text.drop count)).map fun parts => (text.take count ++ parts.1, parts.2)
  := by
  have same : ∀ i, (text.drop count).drop i = text.drop (count + i) := fun i => drop_drop
  cases found : cut needle (text.drop count) with
  | some parts =>
    obtain ⟨before, behind⟩ := parts
    rw [cut_eq_some_iff] at found
    obtain ⟨eq, none'⟩ := found
    rw [map_some, cut_eq_some_iff]
    constructor
    · dsimp only
      rw [append_assoc, ← eq, take_append_drop]
    · intro i lt
      dsimp only at lt
      rw [length_append, length_take, Nat.min_eq_left le] at lt
      by_cases early : i < count
      · apply none_ i early
      · have later := none' (i - count) (by omega)
        rw [same, Nat.add_sub_cancel' (by omega)] at later
        apply later
  | none =>
    rw [map_none, cut_eq_none_iff]
    rw [cut_eq_none_iff] at found
    cases all_ : find needle text with
    | none => rfl
    | some e =>
      obtain ⟨le', occurs, first⟩ := find_eq_some_iff.mp all_
      have late : count ≤ e := by
        by_contra early
        apply none_ e (by omega) occurs
      have some_ : ∃ e', find needle (text.drop count) = some e' := by
        use e - count
        rw [find_eq_some_iff, same, Nat.add_sub_cancel' late, length_drop]
        refine ⟨by omega, occurs, ?_⟩
        intro i lt
        rw [same]
        apply first (count + i) (by omega)
      rw [found] at some_
      obtain ⟨_, eq⟩ := some_
      cases eq

/-- A text without the needle starts no occurrence where the needle fits in it, whatever
arrives. -/
theorem not_occurs_of_find_none (some_ : needle ≠ []) (none_ : find needle text = none)
    (fits : i + needle.length ≤ text.length) (more : List α) :
  ¬ needle <+: (text ++ more).drop i
  := by
  rw [occurs_append_iff fits]
  apply (find_eq_none_iff some_).mp none_

/-- Where a text that misses the needle is one element longer, it can only end with the needle. -/
theorem find_concat (some_ : needle ≠ []) (none_ : find needle text = none) {a : α} {e : ℕ}
    (found : find needle (text ++ [a]) = some e) :
  e + needle.length = text.length + 1
  := by
  obtain ⟨_, occurs, _⟩ := find_eq_some_iff.mp found
  have le := length_of_occurs some_ occurs
  rw [length_append, length_singleton] at le
  by_contra ne
  apply not_occurs_of_find_none some_ none_ (by omega) [a] occurs

/-! ### Splitting -/

/-- The parts of a text between so many occurrences of a needle. -/
def splitWithin (needle : List α) : ℕ → List α → List (List α)
  | 0, text => [text]
  | count + 1, text =>
      match cut needle text with
      | none => [text]
      | some (before, behind) => before :: splitWithin needle count behind

/-- The parts of a text between the occurrences of a needle, which are taken from the front.  The
needle is not empty. -/
def split (needle text : List α) : List (List α) :=
  splitWithin needle text.length text

theorem length_behind_lt (some_ : needle ≠ []) (found : cut needle text = some (before, behind)) :
  behind.length < text.length
  := by
  obtain ⟨rfl, _⟩ := cut_eq_some_iff.mp found
  have pos := length_pos_iff.mpr some_
  simp only [length_append]
  omega

theorem cut_nil (some_ : needle ≠ []) : cut needle [] = none := by
  rw [cut_eq_none_iff, find, if_neg some_]

/-- A text has no more occurrences than elements. -/
theorem splitWithin_eq (some_ : needle ≠ []) {count count' : ℕ} (le : text.length ≤ count)
    (le' : text.length ≤ count') :
  splitWithin needle count text = splitWithin needle count' text
  := by
  induction count generalizing count' text with
  | zero =>
    rw [length_eq_zero_iff.mp (Nat.le_zero.mp le)]
    cases count' with
    | zero => rfl
    | succ count' => rw [splitWithin, splitWithin, cut_nil some_]
  | succ count ih =>
    cases count' with
    | zero =>
      rw [length_eq_zero_iff.mp (Nat.le_zero.mp le'), splitWithin, splitWithin, cut_nil some_]
    | succ count' =>
      rw [splitWithin, splitWithin]
      cases found : cut needle text with
      | none => rfl
      | some parts =>
        obtain ⟨before, behind⟩ := parts
        have shorter := length_behind_lt some_ found
        have same : splitWithin needle count behind = splitWithin needle count' behind :=
          ih (by omega) (by omega)
        dsimp only
        rw [same]

theorem split_of_cut_none (none_ : cut needle text = none) :
  split needle text = [text]
  := by
  rw [split]
  cases text.length with
  | zero => rfl
  | succ count => rw [splitWithin, none_]

theorem split_of_cut_some (some_ : needle ≠ []) (found : cut needle text = some (before, behind)) :
  split needle text = before :: split needle behind
  := by
  have shorter := length_behind_lt some_ found
  obtain ⟨count, length⟩ : ∃ count, text.length = count + 1 := ⟨text.length - 1, by omega⟩
  rw [split, length, splitWithin, found]
  dsimp only
  rw [splitWithin_eq some_ (by omega) (Nat.le_refl behind.length), ← split]

theorem split_ne_nil (some_ : needle ≠ []) (text : List α) :
  split needle text ≠ []
  := by
  cases found : cut needle text with
  | none =>
    rw [split_of_cut_none found]
    simp
  | some parts =>
    rw [split_of_cut_some some_ found]
    simp

/-- The parts that end with a needle stay when more arrives, and the last one goes on. -/
theorem split_append (some_ : needle ≠ []) (text more : List α) :
  split needle (text ++ more) =
    (split needle text).dropLast ++
      split needle ((split needle text).getLast (split_ne_nil some_ text) ++ more)
  := by
  induction length : text.length using Nat.strongRecOn generalizing text with
  | ind n ih =>
  cases found : cut needle text with
  | none =>
    simp only [split_of_cut_none found, dropLast_singleton, nil_append, getLast_singleton]
  | some parts =>
    obtain ⟨before, behind⟩ := parts
    have shorter : behind.length < n := by
      obtain ⟨rfl, _⟩ := cut_eq_some_iff.mp found
      have pos := length_pos_iff.mpr some_
      simp only [length_append] at length
      omega
    have rest := ih behind.length shorter behind rfl
    rw [split_of_cut_some some_ (cut_append found more), rest]
    simp only [split_of_cut_some some_ found, dropLast_cons_of_ne_nil (split_ne_nil some_ behind),
      getLast_cons (split_ne_nil some_ behind), cons_append]

theorem cut_cons (needle : List α) (a : α) (text : List α) :
  cut needle (a :: text) =
    if needle <+: a :: text then some ([], (a :: text).drop needle.length)
    else (cut needle text).map fun parts => (a :: parts.1, parts.2)
  := by
  rw [cut, find_cons]
  split
  · simp
  · rw [cut, Option.map_map, Option.map_map]
    apply congrArg (Option.map · (find needle text))
    funext e
    simp only [Function.comp_apply, take_succ_cons, Nat.add_right_comm e 1 needle.length,
      drop_succ_cons]

/-- What stands between the separators of a text. -/
theorem not_mem_of_mem_splitOn {separator : α} {piece : List α}
    (mem : piece ∈ text.splitOn separator) :
  separator ∉ piece ∧ piece ⊆ text
  := by
  induction text generalizing piece with
  | nil =>
    rw [splitOn_nil, mem_singleton] at mem
    simp [mem]
  | cons a text ih =>
    rw [splitOn_cons_eq_if_modifyHead] at mem
    split at mem
    next =>
      obtain rfl | mem := mem_cons.mp mem
      · simp
      · exact ⟨(ih mem).1, fun b h => mem_cons_of_mem _ ((ih mem).2 h)⟩
    next ne =>
      obtain ⟨first, rest, heq⟩ := exists_cons_of_ne_nil (splitOn_ne_nil separator text)
      rw [heq] at mem ih
      obtain rfl | mem := mem_cons.mp mem
      · obtain ⟨closed, subset⟩ := ih mem_cons_self
        have ne' : ¬ separator = a := fun same => ne (by simp [same])
        exact ⟨by simp [closed, ne'], cons_subset_cons a subset⟩
      · obtain ⟨closed, subset⟩ := ih (mem_cons_of_mem _ mem)
        exact ⟨closed, fun b h => mem_cons_of_mem _ (subset h)⟩

end Search
