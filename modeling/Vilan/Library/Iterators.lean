import Mathlib.Data.List.Basic

/-!
# Iterators

An iterator is a state with a step that yields an item and the next state, or nothing.  What it yields
to its end is a list, and a search through it yields what the search finds in that list.
-/

namespace Iterators

variable {S A B : Type*}

/-- What an iterator yields to its end. -/
inductive Yields (next : S → Option (A × S)) : S → List A → Prop
  | done {state : S} : next state = none → Yields next state []
  | more {state state' : S} {item : A} {items : List A} :
      next state = some (item, state') → Yields next state' items →
      Yields next state (item :: items)

/-- The first item that a search accepts, among so many, and what is left. -/
def find (next : S → Option (A × S)) (accept : A → Option B) : ℕ → S → Option (B × S)
  | 0, _ => none
  | fuel + 1, state =>
      match next state with
      | none => none
      | some (item, state) =>
          match accept item with
          | some found => some (found, state)
          | none => find next accept fuel state

variable {next : S → Option (A × S)}

variable {items : List A} {state : S}

theorem Yields.unique {others : List A} (first : Yields next state items)
    (second : Yields next state others) :
  items = others
  := by
  induction first generalizing others with
  | done none_ =>
    cases second with
    | done => rfl
    | more some_ => rw [none_] at some_; cases some_
  | more some_ _ ih =>
    cases second with
    | done none_ => rw [none_] at some_; cases some_
    | more some_' rest =>
      rw [some_, Option.some_inj, Prod.mk.injEq] at some_'
      obtain ⟨rfl, rfl⟩ := some_'
      rw [ih rest]

/-- A state from which the first step is the same yields the same items. -/
theorem Yields.of_eq {state' : S} (heq : next state = next state')
    (yields : Yields next state' items) :
  Yields next state items
  := by
  cases yields with
  | done none_ => exact Yields.done (heq.trans none_)
  | more some_ rest => exact Yields.more (heq.trans some_) rest

/-- An iterator that keeps another one in its state yields the same items. -/
theorem Yields.wrap {T : Type*} {next' : T → Option (A × T)} (f : S → T)
    (heq : ∀ state, next' (f state) = (next state).map fun found => (found.1, f found.2))
    (yields : Yields next state items) :
  Yields next' (f state) items
  := by
  induction yields with
  | done none_ =>
    apply Yields.done
    rw [heq, none_]
    rfl
  | more some_ _ ih =>
    refine Yields.more ?_ ih
    rw [heq, some_]
    rfl

/-- The iterator of a list. -/
def listNext : List A → Option (A × List A)
  | [] => none
  | item :: items => some (item, items)

/-- The iterator of a list yields the list. -/
theorem yields_list (items : List A) :
  Yields listNext items items
  := by
  induction items with
  | nil => exact Yields.done rfl
  | cons item items ih => exact Yields.more rfl ih

/-- A search finds nothing, or the first item that it accepts. -/
theorem Yields.find_eq (accept : A → Option B) {fuel : ℕ} (yields : Yields next state items)
    (enough : items.length < fuel) :
  (find next accept fuel state = none ∧ items.filterMap accept = []) ∨
    ∃ found state' rest, find next accept fuel state = some (found, state') ∧
      Yields next state' rest ∧ items.filterMap accept = found :: rest.filterMap accept ∧
      rest.length < items.length
  := by
  induction yields generalizing fuel with
  | done none_ =>
    left
    obtain ⟨fuel, rfl⟩ := Nat.exists_eq_add_of_lt enough
    rw [find, none_]
    exact ⟨rfl, rfl⟩
  | @more state state' item items some_ rest ih =>
    obtain ⟨fuel, rfl⟩ := Nat.exists_eq_add_of_lt enough
    rw [find, some_]
    cases found : accept item with
    | some value =>
      right
      refine ⟨value, state', items, ?_, rest, ?_, ?_⟩
      · dsimp only
        rw [found]
      · rw [List.filterMap_cons, found]
      · rw [List.length_cons]
        omega
    | none =>
      dsimp only
      rw [found, List.filterMap_cons, found]
      have less : items.length < items.length + 1 + fuel := by omega
      obtain none_ | ⟨value, state', left_, heq, yields, parts, shorter⟩ := @ih _ less
      · exact Or.inl none_
      · right
        refine ⟨value, state', left_, heq, yields, parts, ?_⟩
        rw [List.length_cons]
        omega

/-- An iterator that searches another one yields what the search finds. -/
theorem Yields.searched (accept : A → Option B) (fuel : S → ℕ)
    (enough : ∀ {state items}, Yields next state items → items.length < fuel state)
    (yields : Yields next state items) :
  Yields (fun state => find next accept (fuel state) state) state (items.filterMap accept)
  := by
  induction length : items.length using Nat.strongRecOn generalizing state items with
  | ind n ih =>
    obtain ⟨none_, heq⟩ | ⟨found, state', rest, heq, yields', parts, shorter⟩ :=
      yields.find_eq accept (enough yields)
    · rw [heq]
      exact Yields.done none_
    · rw [parts]
      exact Yields.more heq (ih _ (by omega) yields' rfl)

end Iterators
