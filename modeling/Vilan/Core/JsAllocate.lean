import Vilan.Core.JsScopes

/-!
# What the allocation of the names keeps

A name that is given for the first time is free in its scope.  A name that was given at an earlier
site is taken over, whether the scope is free of it or not: the code only asserts that nobody else
holds it there.  The allocation keeps the names that see one another apart exactly when that
assertion never fails.
-/

namespace Vilan.Js

open List Option Function

/-! ### The sequences of names -/

theorem shortLetters_injective {fuel fuel' n m : ℕ} (n_lt : n < fuel) (m_lt : m < fuel')
    (eq : shortLetters fuel n = shortLetters fuel' m) :
  n = m
  := by
  have nodup : alphabet.Nodup := by decide
  have letter_injective : ∀ i < 52, ∀ j < 52, alphabet.getD i 'a' = alphabet.getD j 'a' → i = j := by
    intro i i_lt j j_lt eq
    have length : alphabet.length = 52 := by decide
    rw [getD_eq_getElem?_getD, getD_eq_getElem?_getD, getElem?_eq_getElem (by omega),
      getElem?_eq_getElem (by omega), getD_some, getD_some] at eq
    exact nodup.getElem_inj_iff.mp eq
  induction fuel generalizing fuel' n m with
  | zero => omega
  | succ fuel ih =>
    obtain ⟨fuel', rfl⟩ : ∃ k, fuel' = k + 1 := ⟨fuel' - 1, by omega⟩
    rw [shortLetters, shortLetters, List.cons.injEq] at eq
    obtain ⟨last, rest⟩ := eq
    have same_last := letter_injective _ (Nat.mod_lt n (by omega)) _ (Nat.mod_lt m (by omega)) last
    have not_nil : ∀ {fuel k}, k < fuel → shortLetters fuel k ≠ [] := by
      intro fuel k lt
      obtain ⟨fuel, rfl⟩ : ∃ j, fuel = j + 1 := ⟨fuel - 1, by omega⟩
      rw [shortLetters]
      apply cons_ne_nil
    split at rest
    next small =>
      split at rest
      next small' => omega
      next large' =>
        apply absurd rest.symm (not_nil (by omega))
    next large =>
      split at rest
      next small' =>
        apply absurd rest (not_nil (by omega))
      next large' =>
        have := ih (by omega) (by omega) rest
        omega

theorem shortNameFromIdx_injective :
  Function.Injective shortNameFromIdx
  := by
  intro n m eq
  have letters := reverse_injective (String.ofList_injective eq)
  apply shortLetters_injective (Nat.lt_succ_self n) (Nat.lt_succ_self m) letters

theorem candidate_injective (base : String) :
  Function.Injective (candidate base)
  := by
  have suffix_injective : ∀ {n m : ℕ}, toString n = toString m → n = m := by
    intro n m eq
    have digits := congrArg (fun text : String => Nat.ofDigitChars 10 text.toList 0) eq
    simpa [Nat.toString_eq_ofList_toDigits, Nat.ofDigitChars_toDigits] using digits
  have suffix_ne : ∀ {n : ℕ}, base ++ toString n ≠ base := by
    intro n eq
    have lengths := congrArg (fun text : String => text.toList.length) eq
    simp only [String.toList_append, length_append, Nat.add_eq_left,
      length_eq_zero_iff, Nat.toString_eq_ofList_toDigits, String.toList_ofList] at lengths
    apply Nat.toDigits_ne_nil lengths
  intro n m eq
  rw [candidate, candidate] at eq
  split at eq
  next zero =>
    split at eq
    next zero' => omega
    next => apply absurd eq.symm suffix_ne
  next =>
    split at eq
    next => apply absurd eq suffix_ne
    next =>
      have tails : (toString (n + 1)).toList = (toString (m + 1)).toList := by
        have := congrArg String.toList eq
        rw [String.toList_append, String.toList_append] at this
        apply append_cancel_left this
      have := suffix_injective (String.toList_injective tails)
      omega

section

variable (release : Bool) (sourceOf : String → Option String)

/-- A name given for the first time is free. -/
theorem choose_not_mem (used : List String) (old : String) :
  choose release sourceOf used old ∉ used
  := by
  rw [choose]
  split
  · apply FirstFit.fit_not_mem shortNameFromIdx_injective
  · apply FirstFit.fit_not_mem (candidate_injective _)

/-! ### One declaration -/

/-- A map that keeps what another one gives. -/
def Extends (rename rename' : String → Option String) : Prop :=
  ∀ old new, rename old = some new → rename' old = some new

theorem Extends.refl (rename : String → Option String) :
  Extends rename rename
  := fun _ _ given => given

theorem Extends.trans {rename rename' rename'' : String → Option String}
    (first : Extends rename rename') (second : Extends rename' rename'') :
  Extends rename rename''
  := by
  intro old new given
  apply second old new (first old new given)

/-- What is true of an allocation in the scope in which the bindings of `chain` are visible: the
names in use are the reserved ones and those of the visible bindings, and whoever holds a name has
been given it. -/
structure Allocation.Holds (reserved : List String) (chain : Set String) (s : Allocation) :
    Prop where
  used : ∀ name, name ∈ s.used ↔ name ∈ reserved ∨ ∃ old ∈ chain, s.rename old = some name
  held : ∀ name old, s.holder name = some old → old ∈ chain ∧ s.rename old = some name
  given : ∀ old ∈ chain, ∃ new, s.rename old = some new ∧ s.holder new ≠ none
  clear : ∀ old new, s.rename old = some new → new ∉ reserved

/-- The names that a map adds to another one are not among those the tree keeps. -/
def Fresh (kept : Set String) (rename rename' : String → Option String) : Prop :=
  ∀ old new, rename' old = some new → rename old = some new ∨ new ∉ kept

/-- What the code asserts of a declaration, and that a name given for the first time is not one
that the tree keeps. -/
def Allocation.Agreed (kept : Set String) (s : Allocation) (old : String) : Prop :=
  (∀ allocated, s.rename old = some allocated →
      allocated ∉ s.used ∨ s.holder allocated = some old) ∧
    (s.rename old = none → choose release sourceOf s.used old ∉ kept)

variable {release sourceOf} {reserved : List String} {kept chain : Set String} {s : Allocation}
  {old : String}

theorem declare_some {allocated : String} (given : s.rename old = some allocated) :
  s.declare release sourceOf old =
    { s with
      used := allocated :: s.used
      holder := Function.update s.holder allocated (some old) }
  := by
  rw [Allocation.declare, given]

theorem declare_none (missing : s.rename old = none) :
  s.declare release sourceOf old =
    { used := choose release sourceOf s.used old :: s.used
      holder := Function.update s.holder (choose release sourceOf s.used old) (some old)
      rename := Function.update s.rename old (some (choose release sourceOf s.used old)) }
  := by
  rw [Allocation.declare, missing]

theorem declare_extends :
  Extends s.rename (s.declare release sourceOf old).rename
  := by
  intro a new given
  cases found : s.rename old with
  | none =>
    rw [declare_none found]
    have ne : a ≠ old := by
      rintro rfl
      rw [found] at given
      cases given
    show Function.update s.rename old _ a = some new
    rw [update_of_ne ne]
    apply given
  | some allocated =>
    rw [declare_some found]
    apply given

theorem Allocation.Holds.extended (holds : s.Holds reserved chain)
    {rename : String → Option String} (extends_ : Extends s.rename rename)
    (clear : ∀ old new, rename old = some new → new ∉ reserved) :
  Allocation.Holds reserved chain { s with rename := rename }
  := by
  constructor
  · intro name
    rw [holds.used]
    constructor
    · rintro (reserved_ | ⟨old, visible, given⟩)
      · left
        apply reserved_
      · right
        use old, visible
        apply extends_ _ _ given
    · rintro (reserved_ | ⟨old, visible, given⟩)
      · left
        apply reserved_
      · right
        use old, visible
        obtain ⟨new, given', _⟩ := holds.given old visible
        have same := extends_ _ _ given'
        change rename old = some name at given
        rw [given, some_inj] at same
        subst same
        apply given'
  · intro name old held
    obtain ⟨visible, given⟩ := holds.held name old held
    use visible
    apply extends_ _ _ given
  · intro old visible
    obtain ⟨new, given, held⟩ := holds.given old visible
    use new
    use extends_ _ _ given
  · apply clear

/-- A declaration adds its binding to the visible ones. -/
theorem Allocation.Holds.declare (holds : s.Holds reserved chain) :
  (s.declare release sourceOf old).Holds reserved (insert old chain)
  := by
  have fresh := choose_not_mem release sourceOf s.used old
  obtain ⟨new, eq, given, clear⟩ : ∃ new,
      s.declare release sourceOf old =
        { used := new :: s.used, holder := Function.update s.holder new (some old)
          rename := (s.declare release sourceOf old).rename } ∧
      (s.declare release sourceOf old).rename old = some new ∧
      ∀ a name, (s.declare release sourceOf old).rename a = some name → name ∉ reserved := by
    cases found : s.rename old with
    | none =>
      use choose release sourceOf s.used old
      rw [declare_none found]
      refine ⟨rfl, update_self .., ?_⟩
      intro a name given reserved_
      by_cases same : a = old
      · subst same
        change Function.update s.rename a _ a = some name at given
        rw [update_self, some_inj] at given
        subst given
        apply fresh
        rw [holds.used]
        left
        apply reserved_
      · change Function.update s.rename old _ a = some name at given
        rw [update_of_ne same] at given
        apply holds.clear a name given reserved_
    | some allocated =>
      use allocated
      rw [declare_some found]
      exact ⟨rfl, found, holds.clear⟩
  have extended := holds.extended declare_extends clear
  rw [eq]
  constructor
  · intro name
    rw [mem_cons]
    have := extended.used name
    simp only [Set.mem_insert_iff, exists_eq_or_imp, given, some_inj]
    rw [this, eq_comm]
    tauto
  · intro name a held
    dsimp only at held ⊢
    rw [Set.mem_insert_iff]
    by_cases same : name = new
    · subst same
      rw [update_self, some_inj] at held
      subst held
      exact ⟨Or.inl rfl, given⟩
    · rw [update_of_ne same] at held
      obtain ⟨visible, given'⟩ := extended.held name a held
      exact ⟨Or.inr visible, given'⟩
  · intro a visible
    dsimp only
    rcases Set.mem_insert_iff.mp visible with rfl | visible
    · use new, given
      rw [update_self]
      simp
    · obtain ⟨name, given', held⟩ := extended.given a visible
      use name, given'
      by_cases same : name = new
      · subst same
        rw [update_self]
        simp
      · rw [update_of_ne same]
        apply held
  · apply clear

/-- One declaration keeps the visible bindings apart, and takes no name the tree keeps, exactly
when what the code asserts is true. -/
theorem agreed_iff (holds : s.Holds reserved chain) (apart : Set.InjOn s.rename chain) :
  s.Agreed release sourceOf kept old ↔
    Set.InjOn (s.declare release sourceOf old).rename (insert old chain) ∧
      Fresh kept s.rename (s.declare release sourceOf old).rename
  := by
  have fresh := choose_not_mem release sourceOf s.used old
  rw [Allocation.Agreed]
  cases found : s.rename old with
  | none =>
    rw [declare_none found]
    have unseen : old ∉ chain := by
      intro visible
      obtain ⟨new, given, _⟩ := holds.given old visible
      rw [found] at given
      cases given
    have apart' : Set.InjOn
        (Function.update s.rename old (some (choose release sourceOf s.used old)))
        (insert old chain) := by
      rw [Set.injOn_insert unseen]
      constructor
      · intro a a_visible b b_visible eq
        have a_ne : a ≠ old := fun eq => unseen (eq ▸ a_visible)
        have b_ne : b ≠ old := fun eq => unseen (eq ▸ b_visible)
        rw [update_of_ne a_ne, update_of_ne b_ne] at eq
        apply apart a_visible b_visible eq
      · rintro ⟨a, a_visible, eq⟩
        have a_ne : a ≠ old := fun eq => unseen (eq ▸ a_visible)
        rw [update_of_ne a_ne, update_self] at eq
        apply fresh
        rw [holds.used]
        right
        use a
    constructor
    · rintro ⟨_, free⟩
      use apart'
      intro a new given
      change Function.update s.rename old _ a = some new at given
      by_cases same : a = old
      · subst same
        rw [update_self, some_inj] at given
        subst given
        right
        apply free rfl
      · rw [update_of_ne same] at given
        left
        apply given
    · rintro ⟨_, fresh_⟩
      constructor
      · intro allocated given
        cases given
      · intro _
        rcases fresh_ old _ (update_self ..) with given | free
        · rw [found] at given
          cases given
        · apply free
  | some allocated =>
    rw [declare_some found]
    constructor
    · rintro ⟨asserted, _⟩
      constructor
      · -- the name is nobody else's here
        have only : ∀ a ∈ chain, s.rename a = some allocated → a = old := by
          intro a visible given
          rcases asserted allocated rfl with free | held
          · exfalso
            apply free
            rw [holds.used]
            right
            use a
          · obtain ⟨old_visible, _⟩ := holds.held _ _ held
            apply apart visible old_visible
            rw [given, found]
        intro a a_mem b b_mem eq
        change s.rename a = s.rename b at eq
        rcases Set.mem_insert_iff.mp a_mem with rfl | a_visible
        · rcases Set.mem_insert_iff.mp b_mem with rfl | b_visible
          · rfl
          · apply (only b b_visible (by rw [← eq, found])).symm
        · rcases Set.mem_insert_iff.mp b_mem with rfl | b_visible
          · apply only a a_visible (by rw [eq, found])
          · apply apart a_visible b_visible eq
      · intro a new given
        left
        apply given
    · rintro ⟨apart', _⟩
      constructor
      · intro allocated' given
        cases given
        by_cases held : allocated ∈ s.used
        · right
          rw [holds.used] at held
          rcases held with reserved_ | ⟨a, visible, given⟩
          · apply absurd reserved_ (holds.clear old allocated found)
          · have same : a = old := by
              apply apart' (Set.mem_insert_of_mem old visible) (Set.mem_insert old chain)
              show s.rename a = s.rename old
              rw [given, found]
            subst same
            obtain ⟨new, given', holder⟩ := holds.given a visible
            rw [given] at given'
            cases given'
            cases held : s.holder allocated with
            | none => apply absurd held holder
            | some c =>
              obtain ⟨c_visible, c_given⟩ := holds.held _ _ held
              rw [apart c_visible visible (by rw [c_given, given])]
        · left
          apply held
      · intro missing
        cases missing

end

end Vilan.Js
