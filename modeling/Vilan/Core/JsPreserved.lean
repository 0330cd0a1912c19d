import Vilan.Core.JsRenamed

/-!
# When the renaming keeps the bindings

The renamed program keeps the bindings of the program exactly when the walk over its scopes never
meets a binding whose name, given at an earlier site, another binding of the scope holds.
-/

namespace Vilan.Js

open List Option

/-! ### The bindings of a visited scope -/

mutual

/-- What the scopes around a visited scope declare is declared in a visited scope. -/
theorem outer_declared (scope : Scope) (outer : List (List String)) {visit : Visit}
    (mem : visit ∈ scope.visits outer) {name : String} (visible : name ∈ visit.outer.flatten) :
  name ∈ outer.flatten ∨ ∃ visit' ∈ scope.visits outer, name ∈ visit'.declared
  := by
  match scope with
  | .mk declared uses inner =>
      rw [Scope.visits] at mem ⊢
      rcases mem_cons.mp mem with rfl | mem
      · left
        apply visible
      · rcases outer_declaredAll inner (declared :: outer) mem visible with here | ⟨visit', mem', at_⟩
        · rw [flatten_cons, mem_append] at here
          rcases here with here | around
          · right
            exact ⟨_, mem_cons_self, here⟩
          · left
            apply around
        · right
          exact ⟨visit', mem_cons_of_mem _ mem', at_⟩

theorem outer_declaredAll (scopes : List Scope) (outer : List (List String)) {visit : Visit}
    (mem : visit ∈ visitsAll outer scopes) {name : String} (visible : name ∈ visit.outer.flatten) :
  name ∈ outer.flatten ∨ ∃ visit' ∈ visitsAll outer scopes, name ∈ visit'.declared
  := by
  match scopes with
  | [] =>
      rw [visitsAll] at mem
      cases mem
  | scope :: scopes =>
      rw [visitsAll] at mem ⊢
      simp only [mem_append, or_and_right, exists_or]
      rcases mem_append.mp mem with mem | mem
      · rcases outer_declared scope outer mem visible with around | inside
        · left
          apply around
        · right
          left
          apply inside
      · rcases outer_declaredAll scopes outer mem visible with around | inside
        · left
          apply around
        · right
          right
          apply inside

end

mutual

/-- Distinct names of every scope against those around it are distinct names along every chain. -/
theorem injOn_chain (rename : String → Option String) (renameable : List String) (scope : Scope)
    (outer : List (List String))
    (scopes_apart : ApartScope rename (bound renameable outer) (scope.narrow renameable))
    {visit : Visit} (mem : visit ∈ scope.visits outer) :
  Set.InjOn rename (bound renameable visit.chain)
  := by
  match scope with
  | .mk declared uses inner =>
      rw [Scope.narrow, ApartScope, bound_cons] at scopes_apart
      rw [Scope.visits] at mem
      rcases mem_cons.mp mem with rfl | mem
      · apply scopes_apart.1
      · apply injOn_chainAll rename renameable inner _ scopes_apart.2 mem

theorem injOn_chainAll (rename : String → Option String) (renameable : List String)
    (scopes : List Scope) (outer : List (List String))
    (scopes_apart : ApartScopes rename (bound renameable outer) (narrowAll renameable scopes))
    {visit : Visit} (mem : visit ∈ visitsAll outer scopes) :
  Set.InjOn rename (bound renameable visit.chain)
  := by
  match scopes with
  | [] =>
      rw [visitsAll] at mem
      cases mem
  | scope :: scopes =>
      rw [narrowAll, ApartScopes] at scopes_apart
      rw [visitsAll] at mem
      rcases mem_append.mp mem with mem | mem
      · apply injOn_chain rename renameable scope outer scopes_apart.1 mem
      · apply injOn_chainAll rename renameable scopes outer scopes_apart.2 mem

end

theorem mem_zip_map_iff {f : String → String} {names : List String} {pair : String × String} :
  pair ∈ names.zip (names.map f) ↔ pair.1 ∈ names ∧ pair.2 = f pair.1
  := by
  obtain ⟨a, b⟩ := pair
  rw [zip_map_right, zip_eq_zipWith, zipWith_self, List.map_map, List.mem_map]
  constructor
  · rintro ⟨name, mem, eq⟩
    cases eq
    exact ⟨mem, rfl⟩
  · rintro ⟨mem, eq⟩
    use a, mem
    dsimp only at eq
    rw [eq]
    rfl

/-! ### Keeping the bindings -/

section

variable (ng : NameGenerator) (reservedNames : List String) (nodes : List Node)

/-- The map the walk over the scopes of the program arrives at. -/
def finalRename : String → Option String :=
  allocateScope ng.release ng.sourceOf (globalScope ng nodes)
    (Allocation.start ng reservedNames nodes)

/-- The bindings of a program have different names along every chain of scopes. -/
def Distinct (rename : String → Option String) (renameable : List String) : Prop :=
  ∀ visit ∈ visits nodes, visit.Distinct rename renameable

variable {ng reservedNames nodes}

theorem globalScope_eq :
  globalScope ng nodes = (readNodes nodes).narrow ng.renameable
  := collectDeclarations_eq ng.renameable nodes

theorem mem_reached {name : String} :
  name ∈ collectReachedNames (globalScope ng nodes) ↔
    name ∈ ng.renameable ∧ name ∈ declaredNames nodes
  := by
  rw [globalScope_eq, mem_reached_iff ng.renameable (readNodes nodes) [], declaredNames,
    mem_flatMap]
  rfl

theorem mem_unreached {name : String} :
  name ∈ unreached ng nodes ↔ name ∈ ng.renameable ∧ name ∉ declaredNames nodes
  := by
  rw [unreached, mem_filter, decide_eq_true_eq, mem_reached]
  tauto

theorem start_holds :
  (Allocation.start ng reservedNames nodes).Holds (reservedNames ++ unreached ng nodes) ∅
  := by
  constructor
  · intro name
    simp [Allocation.start]
  · intro name old held
    cases held
  · intro old visible
    cases visible
  · intro old new given
    cases given

theorem finalRename_given {old : String} :
  finalRename ng reservedNames nodes old ≠ none ↔
    old ∈ ng.renameable ∧ old ∈ declaredNames nodes
  := by
  obtain ⟨_, _, given⟩ := allocateScope_gives ng.release ng.sourceOf (globalScope ng nodes)
    (Allocation.start ng reservedNames nodes) ∅ start_holds
  rw [finalRename, given, mem_reached]
  constructor
  · rintro (started | reached)
    · apply absurd rfl started
    · apply reached
  · intro reached
    right
    apply reached

theorem finalRename_clear {old new : String}
    (given : finalRename ng reservedNames nodes old = some new) :
  new ∉ reservedNames ++ unreached ng nodes
  := by
  obtain ⟨_, clear, _⟩ := allocateScope_gives ng.release ng.sourceOf (globalScope ng nodes)
    (Allocation.start ng reservedNames nodes) ∅ start_holds
  apply clear old new given

/-- What the walk asserts, told of the map it arrives at. -/
theorem agrees_iff :
  Agrees ng reservedNames nodes ↔
    ApartScope (finalRename ng reservedNames nodes) ∅ (globalScope ng nodes) ∧
      ∀ old new, finalRename ng reservedNames nodes old = some new →
        new ∉ keptNames ng.renameable nodes
  := by
  have apart : Set.InjOn (Allocation.start ng reservedNames nodes).rename ∅ := by
    intro a a_mem
    cases a_mem
  rw [Agrees, agreedScope_iff (globalScope ng nodes) _ ∅ start_holds apart
    (finalRename ng reservedNames nodes) (Extends.refl _)]
  apply and_congr_right
  intro _
  constructor
  · intro fresh old new given
    rcases fresh old new given with started | free
    · cases started
    · apply free
  · intro free old new given
    right
    apply free old new given

theorem bound_nil (renameable : List String) :
  bound renameable [] = ∅
  := by
  ext name
  simp [bound]

theorem apart_iff_distinct :
  ApartScope (finalRename ng reservedNames nodes) ∅ (globalScope ng nodes) ↔
    Distinct nodes (finalRename ng reservedNames nodes) ng.renameable
  := by
  rw [globalScope_eq, ← bound_nil ng.renameable, apartScope_iff]
  · rfl
  · rw [bound_nil]
    intro a a_mem
    cases a_mem

/-- A binding that is to be renamed is. -/
theorem renameOne_eq {name : String} (renameable : name ∈ ng.renameable)
    (declared : name ∈ declaredNames nodes) :
  finalRename ng reservedNames nodes name =
    some (renameOne (finalRename ng reservedNames nodes) name)
  := by
  cases found : finalRename ng reservedNames nodes name with
  | none => apply absurd found (finalRename_given.mpr ⟨renameable, declared⟩)
  | some new => rw [renameOne, found, getD_some]

/-- Every other name stays. -/
theorem renameOne_of_not {name : String}
    (not_ : ¬ (name ∈ ng.renameable ∧ name ∈ declaredNames nodes)) :
  renameOne (finalRename ng reservedNames nodes) name = name
  := by
  cases found : finalRename ng reservedNames nodes name with
  | none => rw [renameOne, found, getD_none]
  | some new =>
    have given : finalRename ng reservedNames nodes name ≠ none := by
      rw [found]
      simp
    apply absurd (finalRename_given.mp given) not_

/-- A renamed binding meets neither a name the tree keeps nor one that was not reached. -/
theorem renameOne_ne (agrees : Agrees ng reservedNames nodes) {a name : String}
    (renameable : a ∈ ng.renameable) (declared : a ∈ declaredNames nodes)
    (stays : name ∈ keptNames ng.renameable nodes ∨ name ∈ unreached ng nodes) :
  renameOne (finalRename ng reservedNames nodes) a ≠ name
  := by
  rintro rfl
  have given : finalRename ng reservedNames nodes a =
      some (renameOne (finalRename ng reservedNames nodes) a) :=
    renameOne_eq renameable declared
  rcases stays with kept | unreached_
  · apply (agrees_iff.mp agrees).2 a _ given kept
  · apply finalRename_clear given
    rw [mem_append]
    right
    apply unreached_

/-- A visible name, and one that is mentioned without being declared anywhere, is told apart from
every visible name by the renaming. -/
theorem renameOne_apart (agrees : Agrees ng reservedNames nodes) {visit : Visit}
    (mem : visit ∈ visits nodes) {a name : String} (a_visible : a ∈ visit.chain.flatten)
    (mentioned : name ∈ visit.chain.flatten ∨ name ∈ visit.uses ∧ name ∉ declaredNames nodes)
    (eq : renameOne (finalRename ng reservedNames nodes) a =
      renameOne (finalRename ng reservedNames nodes) name) :
  a = name
  := by
  have chain_declared : ∀ b ∈ visit.chain.flatten, b ∈ declaredNames nodes := by
    intro b b_visible
    rw [declaredNames, mem_flatMap]
    rw [Visit.chain, flatten_cons, mem_append] at b_visible
    rcases b_visible with here | around
    · use visit
    · rcases outer_declared (readNodes nodes) [] mem around with outside | ⟨visit', mem', at_⟩
      · cases outside
      · use visit', mem'
  have kept_of : ∀ b, b ∉ ng.renameable → (b ∈ visit.chain.flatten ∨ b ∈ visit.uses) →
      b ∈ keptNames ng.renameable nodes := by
    intro b kept at_
    use kept
    rcases at_ with b_visible | used
    · have := chain_declared b b_visible
      rw [declaredNames, mem_flatMap] at this
      obtain ⟨visit', mem', declared⟩ := this
      exact ⟨visit', mem', Or.inl declared⟩
    · exact ⟨visit, mem, Or.inr used⟩
  have a_declared := chain_declared a a_visible
  by_cases a_renameable : a ∈ ng.renameable
  · by_cases name_renameable : name ∈ ng.renameable
    · rcases mentioned with visible | ⟨_, undeclared⟩
      · have apart := (agrees_iff.mp agrees).1
        rw [globalScope_eq, ← bound_nil ng.renameable] at apart
        apply injOn_chain _ _ _ _ apart mem ⟨a_visible, a_renameable⟩ ⟨visible, name_renameable⟩
        rw [renameOne_eq a_renameable a_declared,
          renameOne_eq name_renameable (chain_declared name visible), eq]
      · rw [renameOne_of_not fun both => undeclared both.2] at eq
        apply absurd eq (renameOne_ne agrees a_renameable a_declared _)
        right
        rw [mem_unreached]
        exact ⟨name_renameable, undeclared⟩
    · rw [renameOne_of_not fun both => name_renameable both.1] at eq
      apply absurd eq (renameOne_ne agrees a_renameable a_declared _)
      left
      apply kept_of name name_renameable
      rcases mentioned with visible | ⟨used, _⟩
      · left
        apply visible
      · right
        apply used
  · rw [renameOne_of_not fun both => a_renameable both.1] at eq
    by_cases both : name ∈ ng.renameable ∧ name ∈ declaredNames nodes
    · apply absurd eq.symm (renameOne_ne agrees both.1 both.2 _)
      left
      apply kept_of a a_renameable (Or.inl a_visible)
    · rw [renameOne_of_not both] at eq
      apply eq

/-- A program renamed by the map the walk arrives at keeps its bindings exactly when the walk meets
nothing that fails its assertion. -/
theorem preserves_iff {after : List Node}
    (eq : visits after =
      (visits nodes).map (Visit.renamed (finalRename ng reservedNames nodes))) :
  Preserves ng reservedNames nodes after ↔ Agrees ng reservedNames nodes
  := by
  rw [Preserves, eq, List.forall₂_map_right_iff, List.forall₂_same]
  constructor
  · intro preserved
    rw [agrees_iff, apart_iff_distinct]
    constructor
    · intro visit mem a a_mem a_renameable b b_mem b_renameable same
      have kept := preserved visit mem
      by_contra ne
      have same_new : renameOne (finalRename ng reservedNames nodes) a =
          renameOne (finalRename ng reservedNames nodes) b := by
        have a_declared : a ∈ declaredNames nodes := by
          rw [declaredNames, mem_flatMap]
          use visit
        have a_given : finalRename ng reservedNames nodes a =
            some (renameOne (finalRename ng reservedNames nodes) a) :=
          renameOne_eq a_renameable a_declared
        have b_given := a_given
        rw [same] at b_given
        rw [renameOne, renameOne, a_given, b_given, getD_some, getD_some]
      rw [Visit.chain, flatten_cons, mem_append] at b_mem
      rcases b_mem with b_mem | b_mem
      · apply kept.apart (a, _) (mem_zip_map_iff.mpr ⟨a_mem, rfl⟩) (b, _)
          (mem_zip_map_iff.mpr ⟨b_mem, rfl⟩) ne same_new
      · apply kept.unshadowed (a, _) (mem_zip_map_iff.mpr ⟨a_mem, rfl⟩) (b, _) _ ne same_new
        rw [Visit.renamed, ← map_flatten]
        apply mem_zip_map_iff.mpr ⟨b_mem, rfl⟩
    · intro old new given kept_name
      have reached : old ∈ ng.renameable ∧ old ∈ declaredNames nodes := by
        apply finalRename_given.mp
        rw [given]
        simp
      obtain ⟨visit, mem, declared⟩ := mem_flatMap.mp reached.2
      have taken : new = renameOne (finalRename ng reservedNames nodes) old := by
        rw [renameOne, given, getD_some]
      apply (preserved visit mem).clear (old, new) (mem_zip_map_iff.mpr ⟨declared, taken⟩) reached.1
      right
      apply kept_name
  · intro agrees visit mem
    have apart : ∀ {a name}, a ∈ visit.chain.flatten →
        (name ∈ visit.chain.flatten ∨ name ∈ visit.uses ∧ name ∉ declaredNames nodes) →
        renameOne (finalRename ng reservedNames nodes) a =
          renameOne (finalRename ng reservedNames nodes) name → a = name :=
      renameOne_apart agrees mem
    have declared_of : ∀ a ∈ visit.declared, a ∈ declaredNames nodes := by
      intro a a_mem
      rw [declaredNames, mem_flatMap]
      use visit
    constructor
    · rw [Visit.renamed, List.forall₂_map_right_iff, List.forall₂_same]
      intro name used resolved
      rw [Visit.chain, ← map_cons (f := List.map (renameOne (finalRename ng reservedNames nodes)))]
      apply site_map
      intro a a_visible eq
      apply apart a_visible _ eq
      rcases resolved with found | undeclared
      · left
        apply mem_chain_of_site found
      · right
        exact ⟨used, undeclared⟩
    · simp only [Visit.renamed, Visit.chain, map_cons, length_map, List.map_map, Function.comp_def]
    · rintro ⟨a, a'⟩ a_mem ⟨b, b'⟩ b_mem ne eq
      rw [Visit.renamed] at a_mem b_mem
      obtain ⟨a_mem, a_eq⟩ := mem_zip_map_iff.mp a_mem
      obtain ⟨b_mem, b_eq⟩ := mem_zip_map_iff.mp b_mem
      dsimp only at a_mem a_eq b_mem b_eq ne eq
      apply ne
      rw [a_eq, b_eq] at eq
      apply apart _ (Or.inl _) eq
      · rw [Visit.chain, flatten_cons, mem_append]
        exact Or.inl a_mem
      · rw [Visit.chain, flatten_cons, mem_append]
        exact Or.inl b_mem
    · rintro ⟨a, a'⟩ a_mem ⟨b, b'⟩ b_mem ne eq
      rw [Visit.renamed] at a_mem b_mem
      rw [← map_flatten] at b_mem
      obtain ⟨a_mem, a_eq⟩ := mem_zip_map_iff.mp a_mem
      obtain ⟨b_mem, b_eq⟩ := mem_zip_map_iff.mp b_mem
      dsimp only at a_mem a_eq b_mem b_eq ne eq
      apply ne
      rw [a_eq, b_eq] at eq
      apply apart _ (Or.inl _) eq
      · rw [Visit.chain, flatten_cons, mem_append]
        exact Or.inl a_mem
      · rw [Visit.chain, flatten_cons, mem_append]
        exact Or.inr b_mem
    · rintro ⟨a, a'⟩ a_mem a_renameable avoided
      rw [Visit.renamed] at a_mem
      obtain ⟨a_mem, a_eq⟩ := mem_zip_map_iff.mp a_mem
      dsimp only at a_mem a_eq a_renameable avoided
      have given : finalRename ng reservedNames nodes a = some a' := by
        rw [a_eq]
        apply renameOne_eq a_renameable (declared_of a a_mem)
      have clear := finalRename_clear given
      rw [mem_append] at clear
      rcases avoided with (reserved | unreached_) | kept
      · apply clear (Or.inl reserved)
      · apply clear (Or.inr unreached_)
      · apply (agrees_iff.mp agrees).2 a a' given kept

end

/-! ### The pass -/

/-- The pass renames by the map the walk arrives at, also where it returns early. -/
theorem visits_renameForScopes (ng : NameGenerator) (reservedNames : List String)
    (nodes : List Node) :
  visits (renameForScopes ng reservedNames nodes).1 =
    (visits nodes).map (Visit.renamed (finalRename ng reservedNames nodes))
  := by
  have nothing : ng.renameable = [] →
      visits nodes = (visits nodes).map (Visit.renamed (finalRename ng reservedNames nodes)) := by
    intro empty
    have : finalRename ng reservedNames nodes = fun _ => none := by
      funext name
      by_contra given
      have := (finalRename_given.mp given).1
      rw [empty] at this
      cases this
    have same : Visit.renamed (finalRename ng reservedNames nodes) = id := by
      funext visit
      rw [this]
      apply renamed_none
    rw [same, List.map_id]
  rw [renameForScopes]
  split
  next annotated =>
    apply nothing
    rw [NameGenerator.renameable, annotated]
  next =>
    split
    next empty => apply nothing empty
    next => apply visits_rename

/-- The renamed program keeps the bindings of the program exactly when no declaration of the walk
fails what is asserted of it. -/
theorem rename_for_scopes_preserves_iff (ng : NameGenerator) (reservedNames : List String)
    (nodes : List Node) :
  Preserves ng reservedNames nodes (renameForScopes ng reservedNames nodes).1 ↔
    Agrees ng reservedNames nodes
  := preserves_iff (visits_renameForScopes ng reservedNames nodes)

/-! ### Two instances of one body -/

/-- The generator of a program with two instances of one generic body, in the release style. -/
def twinGenerator : NameGenerator where
  style := .plain
  names := []
  sourceNames := []
  minted := ["first", "second", "item", "spare"]
  instanceSources := []

/-- Two instances that bind one name, the second behind a temporary of its own. -/
def twins : List Node :=
  [.function "first" ["item"] [.return_ (.local_ "item")] false,
    .function "second" []
      [.constVariable "spare" .null, .constVariable "item" (.local_ "spare"),
        .return_ (.local_ "item")] false]

/-- Both constants of the second instance come out under one name. -/
theorem twins_renamed :
  ¬ Preserves twinGenerator [] twins (renameForScopes twinGenerator [] twins).1
  := by
  intro preserved
  obtain ⟨_, each⟩ := List.forall₂_iff_zip.mp preserved
  have second : Visit.Preserved _ _ _
      ⟨[["first", "second"]], ["spare", "item"], ["spare", "item"]⟩
      ⟨[["a", "b"]], ["c", "c"], ["c", "c"]⟩ :=
    each (by decide)
  apply second.apart ("spare", "c") (by decide) ("item", "c") (by decide) (by decide)
  rfl

end Vilan.Js
