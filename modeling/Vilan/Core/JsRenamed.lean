import Vilan.Core.JsAllocate

/-!
# The renamed program

The allocation walks the whole scope tree, and the scopes of the rewritten tree are the scopes of the
tree with every name renamed.  A name of the rewritten tree then means what it meant before, and
different bindings keep different names wherever one of them is visible, exactly when no declaration
of the walk fails what the code asserts of it.
-/

namespace Vilan.Js

open List

/-! ### A walk over the scopes -/

section

variable (release : Bool) (sourceOf : String → Option String) (kept : Set String)

/-- What is asserted of the declarations of a scope, one after the other. -/
def Allocation.AgreedAll : Allocation → List String → Prop
  | _, [] => True
  | s, old :: olds =>
      s.Agreed release sourceOf kept old ∧ (s.declare release sourceOf old).AgreedAll olds

mutual

/-- What is asserted of the declarations of a scope and of the scopes inside it. -/
def AgreedScope : JsScope → Allocation → Prop
  | .mk declarations children, s =>
      s.AgreedAll release sourceOf kept declarations ∧
        AgreedScopes children (s.declareAll release sourceOf declarations)

def AgreedScopes : List JsScope → Allocation → Prop
  | [], _ => True
  | child :: children, s =>
      AgreedScope child s ∧
        AgreedScopes children { s with rename := allocateScope release sourceOf child s }

end

end

mutual

/-- The bindings that are visible together have different names, in a scope and in those inside
it. -/
def ApartScope (rename : String → Option String) (chain : Set String) : JsScope → Prop
  | .mk declarations children =>
      Set.InjOn rename ({old | old ∈ declarations} ∪ chain) ∧
        ApartScopes rename ({old | old ∈ declarations} ∪ chain) children

def ApartScopes (rename : String → Option String) (chain : Set String) : List JsScope → Prop
  | [] => True
  | child :: children => ApartScope rename chain child ∧ ApartScopes rename chain children

end

section

variable {release : Bool} {sourceOf : String → Option String} {reserved : List String}
  {kept chain : Set String} {s : Allocation}

theorem fresh_iff {rename rename' rename'' : String → Option String}
    (first : Extends rename rename') (second : Extends rename' rename'') :
  Fresh kept rename rename'' ↔ Fresh kept rename rename' ∧ Fresh kept rename' rename''
  := by
  constructor
  · intro fresh
    constructor
    · intro old new given
      apply fresh old new (second old new given)
    · intro old new given
      rcases fresh old new given with earlier | free
      · left
        apply first old new earlier
      · right
        apply free
  · rintro ⟨fresh, fresh'⟩ old new given
    rcases fresh' old new given with earlier | free
    · apply fresh old new earlier
    · right
      apply free

theorem injOn_extends {rename rename' : String → Option String} {names : Set String}
    (extends_ : Extends rename rename') (given : ∀ old ∈ names, rename old ≠ none) :
  Set.InjOn rename names ↔ Set.InjOn rename' names
  := by
  have same : Set.EqOn rename rename' names := by
    intro old mem
    cases found : rename old with
    | none => apply absurd found (given old mem)
    | some new => rw [extends_ old new found]
  apply same.injOn_iff

theorem declareAll_extends (s : Allocation) (olds : List String) :
  Extends s.rename (s.declareAll release sourceOf olds).rename
  := by
  induction olds generalizing s with
  | nil => apply Extends.refl
  | cons old olds ih =>
    apply Extends.trans declare_extends (ih _)

theorem insert_union (old : String) (olds : List String) (chain : Set String) :
  {a | a ∈ old :: olds} ∪ chain = {a | a ∈ olds} ∪ insert old chain
  := by
  ext a
  simp only [Set.mem_union, Set.mem_ofPred_eq, mem_cons, Set.mem_insert_iff]
  tauto

theorem Allocation.Holds.declareAll (holds : s.Holds reserved chain) (olds : List String) :
  (s.declareAll release sourceOf olds).Holds reserved ({a | a ∈ olds} ∪ chain)
  := by
  induction olds generalizing s chain with
  | nil =>
    have : {a : String | a ∈ ([] : List String)} ∪ chain = chain := by
      ext a
      simp
    rw [this]
    apply holds
  | cons old olds ih =>
    rw [insert_union]
    apply ih holds.declare

theorem Allocation.Holds.visible (holds : s.Holds reserved chain) :
  ∀ old ∈ chain, s.rename old ≠ none
  := by
  intro old visible missing
  obtain ⟨new, given, _⟩ := holds.given old visible
  rw [missing] at given
  cases given

theorem agreedAll_iff (holds : s.Holds reserved chain) (apart : Set.InjOn s.rename chain)
    (olds : List String) :
  s.AgreedAll release sourceOf kept olds ↔
    Set.InjOn (s.declareAll release sourceOf olds).rename ({a | a ∈ olds} ∪ chain) ∧
      Fresh kept s.rename (s.declareAll release sourceOf olds).rename
  := by
  induction olds generalizing s chain with
  | nil =>
    have : {a : String | a ∈ ([] : List String)} ∪ chain = chain := by
      ext a
      simp
    rw [this, Allocation.AgreedAll]
    constructor
    · intro _
      use apart
      intro old new given
      left
      apply given
    · intro _
      trivial
  | cons old olds ih =>
    have extends_ :
        Extends (s.declare release sourceOf old).rename
          ((s.declare release sourceOf old).declareAll release sourceOf olds).rename :=
      declareAll_extends _ olds
    have holds' : (s.declare release sourceOf old).Holds reserved (insert old chain) :=
      holds.declare
    rw [Allocation.AgreedAll, Allocation.declareAll, insert_union,
      fresh_iff declare_extends extends_]
    constructor
    · rintro ⟨agreed, rest⟩
      obtain ⟨apart', fresh⟩ := (agreed_iff holds apart).mp agreed
      obtain ⟨apart'', fresh'⟩ := (ih holds' apart').mp rest
      exact ⟨apart'', fresh, fresh'⟩
    · rintro ⟨apart'', fresh, fresh'⟩
      have apart' : Set.InjOn (s.declare release sourceOf old).rename (insert old chain) := by
        rw [injOn_extends extends_ holds'.visible]
        apply apart''.mono Set.subset_union_right
      exact ⟨(agreed_iff holds apart).mpr ⟨apart', fresh⟩, (ih holds' apart').mpr ⟨apart'', fresh'⟩⟩

theorem declareAll_given (s : Allocation) (olds : List String) {old : String} :
  (s.declareAll release sourceOf olds).rename old ≠ none ↔ s.rename old ≠ none ∨ old ∈ olds
  := by
  induction olds generalizing s with
  | nil =>
    rw [Allocation.declareAll]
    simp
  | cons first olds ih =>
    rw [Allocation.declareAll, ih, mem_cons, ← or_assoc]
    apply or_congr_left
    cases found : s.rename first with
    | none =>
      rw [declare_none found]
      dsimp only
      by_cases same : old = first
      · subst same
        rw [Function.update_self]
        simp
      · rw [Function.update_of_ne same]
        simp [same]
    | some allocated =>
      rw [declare_some found]
      dsimp only
      constructor
      · intro given
        left
        apply given
      · rintro (given | rfl)
        · apply given
        · rw [found]
          simp

section

variable (release sourceOf)

mutual

/-- The walk keeps what it is given, gives no reserved name, and gives a name to every declaration
it reaches and to nothing else. -/
theorem allocateScope_gives (scope : JsScope) (s : Allocation) (chain : Set String)
    (holds : s.Holds reserved chain) :
  Extends s.rename (allocateScope release sourceOf scope s) ∧
    (∀ old new, allocateScope release sourceOf scope s old = some new → new ∉ reserved) ∧
    ∀ old, allocateScope release sourceOf scope s old ≠ none ↔
      s.rename old ≠ none ∨ old ∈ collectReachedNames scope
  := by
  match scope with
  | .mk declarations children =>
      have holds' : (s.declareAll release sourceOf declarations).Holds reserved
          ({old | old ∈ declarations} ∪ chain) :=
        holds.declareAll declarations
      obtain ⟨extends_, clear, given⟩ := allocateScopes_gives children _ _ holds'
      rw [allocateScope, collectReachedNames]
      refine ⟨(declareAll_extends s declarations).trans extends_, clear, ?_⟩
      intro old
      rw [given, declareAll_given, mem_append, or_assoc]

theorem allocateScopes_gives (scopes : List JsScope) (s : Allocation) (chain : Set String)
    (holds : s.Holds reserved chain) :
  Extends s.rename (allocateScopes release sourceOf scopes s) ∧
    (∀ old new, allocateScopes release sourceOf scopes s old = some new → new ∉ reserved) ∧
    ∀ old, allocateScopes release sourceOf scopes s old ≠ none ↔
      s.rename old ≠ none ∨ old ∈ collectAllReached scopes
  := by
  match scopes with
  | [] =>
      rw [allocateScopes, collectAllReached]
      refine ⟨Extends.refl _, holds.clear, ?_⟩
      intro old
      simp
  | child :: children =>
      obtain ⟨extends_, clear, given⟩ := allocateScope_gives child s chain holds
      obtain ⟨extends', clear', given'⟩ :=
        allocateScopes_gives children _ chain (holds.extended extends_ clear)
      rw [allocateScopes, collectAllReached]
      refine ⟨extends_.trans extends', clear', ?_⟩
      intro old
      rw [given']
      dsimp only
      rw [given, mem_append, or_assoc]

end

end

mutual

/-- The walk keeps the bindings apart wherever they are visible, and takes no name the tree keeps,
exactly when what the code asserts is true of every declaration. -/
theorem agreedScope_iff (scope : JsScope) (s : Allocation) (chain : Set String)
    (holds : s.Holds reserved chain) (apart : Set.InjOn s.rename chain)
    (rename : String → Option String)
    (after : Extends (allocateScope release sourceOf scope s) rename) :
  AgreedScope release sourceOf kept scope s ↔
    ApartScope rename chain scope ∧
      Fresh kept s.rename (allocateScope release sourceOf scope s)
  := by
  match scope with
  | .mk declarations children =>
      have holds' : (s.declareAll release sourceOf declarations).Holds reserved
          ({old | old ∈ declarations} ∪ chain) :=
        holds.declareAll declarations
      have extends_ := (allocateScopes_gives release sourceOf children _ _ holds').1
      have same : Set.InjOn (s.declareAll release sourceOf declarations).rename
          ({old | old ∈ declarations} ∪ chain) ↔
          Set.InjOn rename ({old | old ∈ declarations} ∪ chain) :=
        injOn_extends (extends_.trans after) holds'.visible
      rw [AgreedScope, ApartScope, allocateScope, agreedAll_iff holds apart,
        fresh_iff (declareAll_extends s declarations) extends_, same]
      constructor
      · rintro ⟨⟨apart', fresh⟩, agreed⟩
        obtain ⟨inside, fresh'⟩ :=
          (agreedScopes_iff children _ _ holds' (same.mpr apart') rename after).mp agreed
        exact ⟨⟨apart', inside⟩, fresh, fresh'⟩
      · rintro ⟨⟨apart', inside⟩, fresh, fresh'⟩
        exact ⟨⟨apart', fresh⟩,
          (agreedScopes_iff children _ _ holds' (same.mpr apart') rename after).mpr
            ⟨inside, fresh'⟩⟩

theorem agreedScopes_iff (scopes : List JsScope) (s : Allocation) (chain : Set String)
    (holds : s.Holds reserved chain) (apart : Set.InjOn s.rename chain)
    (rename : String → Option String)
    (after : Extends (allocateScopes release sourceOf scopes s) rename) :
  AgreedScopes release sourceOf kept scopes s ↔
    ApartScopes rename chain scopes ∧
      Fresh kept s.rename (allocateScopes release sourceOf scopes s)
  := by
  match scopes with
  | [] =>
      rw [AgreedScopes, ApartScopes, allocateScopes]
      constructor
      · intro _
        use trivial
        intro old new given
        left
        apply given
      · intro _
        trivial
  | child :: children =>
      obtain ⟨extends_, clear, _⟩ := allocateScope_gives release sourceOf child s chain holds
      have holds' := holds.extended extends_ clear
      have extends' := (allocateScopes_gives release sourceOf children _ chain holds').1
      have apart' : Set.InjOn (allocateScope release sourceOf child s) chain :=
        (injOn_extends extends_ holds.visible).mp apart
      rw [AgreedScopes, ApartScopes, allocateScopes, fresh_iff extends_ extends',
        agreedScope_iff child s chain holds apart rename (extends'.trans after),
        agreedScopes_iff children _ chain holds' apart' rename after]
      tauto

end

end

/-! ### What a name resolves to -/

/-- The site of a name among the names of the enclosing function scopes, the innermost first: how
many scopes out it is declared, and where in that scope it is first declared. -/
def site : List (List String) → String → Option (ℕ × ℕ)
  | [], _ => none
  | declared :: outer, name =>
      if name ∈ declared then some (0, declared.idxOf name)
      else (site outer name).map fun found => (found.1 + 1, found.2)

/-- A function scope with the scopes around it: what these declare, the innermost first, what it
declares, and the names mentioned directly in it. -/
structure Visit where
  outer : List (List String)
  declared : List String
  uses : List String
  deriving DecidableEq

def Visit.chain (visit : Visit) : List (List String) :=
  visit.declared :: visit.outer

mutual

/-- A scope and every scope inside it. -/
def Scope.visits (outer : List (List String)) : Scope → List Visit
  | .mk declared uses inner => ⟨outer, declared, uses⟩ :: visitsAll (declared :: outer) inner

def visitsAll (outer : List (List String)) : List Scope → List Visit
  | [] => []
  | scope :: scopes => scope.visits outer ++ visitsAll outer scopes

end

/-- The function scopes of a program. -/
def visits (nodes : List Node) : List Visit :=
  (readNodes nodes).visits []

/-- The names a program declares. -/
def declaredNames (nodes : List Node) : List String :=
  (visits nodes).flatMap Visit.declared

/-- The names a program declares or mentions that are not to be renamed. -/
def keptNames (renameable : List String) (nodes : List Node) : Set String :=
  {name | name ∉ renameable ∧ ∃ visit ∈ visits nodes, name ∈ visit.declared ∨ name ∈ visit.uses}

/-- What the renaming has to keep of a scope.  A name that has a declaration resolves to the same
site as before, and one that is declared nowhere to none as before; different bindings of the scope
have different names; none has the name of a different binding of a scope around it; and none of
those that are renamed has a name to be avoided. -/
structure Visit.Preserved (renameable anywhere : List String) (avoided : Set String)
    (before after : Visit) : Prop where
  resolves : List.Forall₂
    (fun name name' =>
      site before.chain name ≠ none ∨ name ∉ anywhere →
        site after.chain name' = site before.chain name)
    before.uses after.uses
  shape : after.chain.map List.length = before.chain.map List.length
  apart : ∀ a ∈ before.declared.zip after.declared, ∀ b ∈ before.declared.zip after.declared,
    a.1 ≠ b.1 → a.2 ≠ b.2
  unshadowed : ∀ a ∈ before.declared.zip after.declared,
    ∀ b ∈ before.outer.flatten.zip after.outer.flatten, a.1 ≠ b.1 → a.2 ≠ b.2
  clear : ∀ a ∈ before.declared.zip after.declared, a.1 ∈ renameable → a.2 ∉ avoided

/-- The renaming of a program keeps its bindings. -/
def Preserves (ng : NameGenerator) (reservedNames : List String) (before after : List Node) : Prop :=
  List.Forall₂
    (Visit.Preserved ng.renameable (declaredNames before)
      ({name | name ∈ reservedNames} ∪ {name | name ∈ unreached ng before}
        ∪ keptNames ng.renameable before))
    (visits before) (visits after)

/-- What the walk over the scopes of a program asserts of every declaration: a binding that was
given its name at an earlier site finds that name free in its scope or held by itself, and a name
given for the first time is not one that the program keeps. -/
def Agrees (ng : NameGenerator) (reservedNames : List String) (nodes : List Node) : Prop :=
  AgreedScope ng.release ng.sourceOf (keptNames ng.renameable nodes) (globalScope ng nodes)
    (Allocation.start ng reservedNames nodes)

theorem idxOf_map {f : String → String} {names : List String} {name : String}
    (apart : ∀ a ∈ names, f a = f name → a = name) :
  (names.map f).idxOf (f name) = names.idxOf name
  := by
  induction names with
  | nil => rfl
  | cons first names ih =>
    rw [map_cons, idxOf_cons, idxOf_cons, ih fun a mem => apart a (mem_cons_of_mem first mem)]
    by_cases same : first = name
    · subst same
      simp
    · have ne : f first ≠ f name := fun eq => same (apart first mem_cons_self eq)
      rw [beq_eq_false_iff_ne.mpr ne, beq_eq_false_iff_ne.mpr same]

/-- A renaming that keeps a name apart from the visible ones keeps its site. -/
theorem site_map {f : String → String} {chain : List (List String)} {name : String}
    (apart : ∀ a ∈ chain.flatten, f a = f name → a = name) :
  site (chain.map (List.map f)) (f name) = site chain name
  := by
  induction chain with
  | nil => rfl
  | cons declared outer ih =>
    have apart_declared : ∀ a ∈ declared, f a = f name → a = name := by
      intro a mem
      apply apart
      rw [flatten_cons]
      apply mem_append_left _ mem
    have apart_outer : ∀ a ∈ outer.flatten, f a = f name → a = name := by
      intro a mem
      apply apart
      rw [flatten_cons]
      apply mem_append_right _ mem
    rw [map_cons, site, site, ih apart_outer, idxOf_map apart_declared]
    have mem_iff : f name ∈ declared.map f ↔ name ∈ declared := by
      constructor
      · intro mem
        obtain ⟨a, a_mem, eq⟩ := List.mem_map.mp mem
        rw [← apart_declared a a_mem eq]
        apply a_mem
      · apply List.mem_map_of_mem
    by_cases mem : name ∈ declared
    · rw [if_pos mem, if_pos (mem_iff.mpr mem)]
    · rw [if_neg mem, if_neg fun mem' => mem (mem_iff.mp mem')]

theorem mem_chain_of_site {chain : List (List String)} {name : String}
    (found : site chain name ≠ none) :
  name ∈ chain.flatten
  := by
  induction chain with
  | nil => apply absurd rfl found
  | cons declared outer ih =>
    rw [flatten_cons, mem_append]
    rw [site] at found
    split at found
    next mem =>
      left
      apply mem
    next =>
      right
      apply ih
      intro missing
      rw [missing] at found
      apply found rfl

section

variable (rename : String → Option String)

def Visit.renamed (visit : Visit) : Visit where
  outer := visit.outer.map (List.map (renameOne rename))
  declared := visit.declared.map (renameOne rename)
  uses := visit.uses.map (renameOne rename)

mutual

theorem visits_renamed (scope : Scope) (outer : List (List String)) :
  (scope.renamed rename).visits (outer.map (List.map (renameOne rename))) =
    (scope.visits outer).map (Visit.renamed rename)
  := by
  match scope with
  | .mk declared uses inner =>
      rw [Scope.renamed, Scope.visits, Scope.visits, map_cons,
        ← visitsAll_renamed inner (declared :: outer)]
      rfl

theorem visitsAll_renamed (scopes : List Scope) (outer : List (List String)) :
  visitsAll (outer.map (List.map (renameOne rename))) (renamedAll rename scopes) =
    (visitsAll outer scopes).map (Visit.renamed rename)
  := by
  match scopes with
  | [] => rfl
  | scope :: scopes =>
      rw [renamedAll, visitsAll, visitsAll, map_append, visits_renamed scope outer,
        visitsAll_renamed scopes outer]

end

theorem visits_rename (nodes : List Node) :
  visits (renameNodes rename nodes) = (visits nodes).map (Visit.renamed rename)
  := by
  rw [visits, readNodes_rename]
  apply visits_renamed rename (readNodes nodes) []

end

theorem renamed_none (visit : Visit) :
  visit.renamed (fun _ => none) = visit
  := by
  have id_ : renameOne (fun _ => none) = id := rfl
  rw [Visit.renamed, id_]
  simp

/-! ### The scopes of the renaming and those of the program -/

/-- The names to be renamed among those of the enclosing scopes. -/
def bound (renameable : List String) (outer : List (List String)) : Set String :=
  {name | name ∈ outer.flatten ∧ name ∈ renameable}

theorem bound_cons (renameable declared : List String) (outer : List (List String)) :
  {name | name ∈ declared.filter (· ∈ renameable)} ∪ bound renameable outer =
    bound renameable (declared :: outer)
  := by
  ext name
  simp only [bound, Set.mem_union, Set.mem_ofPred_eq, mem_filter, decide_eq_true_eq,
    flatten_cons, mem_append]
  tauto

mutual

/-- The renaming reaches every name to be renamed that is declared anywhere. -/
theorem mem_reached_iff (renameable : List String) (scope : Scope) (outer : List (List String))
    (name : String) :
  name ∈ collectReachedNames (scope.narrow renameable) ↔
    name ∈ renameable ∧ ∃ visit ∈ scope.visits outer, name ∈ visit.declared
  := by
  match scope with
  | .mk declared uses inner =>
      rw [Scope.narrow, collectReachedNames, Scope.visits, mem_append, mem_filter,
        mem_allReached_iff renameable inner (declared :: outer)]
      simp only [decide_eq_true_eq, mem_cons, exists_eq_or_imp]
      tauto

theorem mem_allReached_iff (renameable : List String) (scopes : List Scope)
    (outer : List (List String)) (name : String) :
  name ∈ collectAllReached (narrowAll renameable scopes) ↔
    name ∈ renameable ∧ ∃ visit ∈ visitsAll outer scopes, name ∈ visit.declared
  := by
  match scopes with
  | [] =>
      rw [narrowAll, collectAllReached, visitsAll]
      simp
  | scope :: scopes =>
      rw [narrowAll, collectAllReached, visitsAll, mem_append,
        mem_reached_iff renameable scope outer, mem_allReached_iff renameable scopes outer]
      simp only [mem_append, or_and_right, exists_or]
      rw [and_or_left]

end

/-- A map gives the names to be renamed of a scope different names, among themselves and against
those of the scopes around it. -/
def Visit.Distinct (rename : String → Option String) (renameable : List String) (visit : Visit) :
    Prop :=
  ∀ a ∈ visit.declared, a ∈ renameable → ∀ b ∈ visit.chain.flatten, b ∈ renameable →
    rename a = rename b → a = b

mutual

theorem apartScope_iff (rename : String → Option String) (renameable : List String) (scope : Scope)
    (outer : List (List String)) (apart : Set.InjOn rename (bound renameable outer)) :
  ApartScope rename (bound renameable outer) (scope.narrow renameable) ↔
    ∀ visit ∈ scope.visits outer, visit.Distinct rename renameable
  := by
  match scope with
  | .mk declared uses inner =>
      have here : Set.InjOn rename (bound renameable (declared :: outer)) ↔
          Visit.Distinct rename renameable ⟨outer, declared, uses⟩ := by
        constructor
        · intro apart' a a_mem a_renameable b b_mem b_renameable eq
          have a_bound : a ∈ bound renameable (declared :: outer) := by
            constructor
            · rw [flatten_cons, mem_append]
              left
              apply a_mem
            · apply a_renameable
          apply apart' a_bound ⟨b_mem, b_renameable⟩ eq
        · rintro distinct a ⟨a_mem, a_renameable⟩ b ⟨b_mem, b_renameable⟩ eq
          rw [flatten_cons, mem_append] at a_mem
          rcases a_mem with a_mem | a_outer
          · apply distinct a a_mem a_renameable b b_mem b_renameable eq
          · rw [flatten_cons, mem_append] at b_mem
            rcases b_mem with b_mem | b_outer
            · apply Eq.symm
              apply distinct b b_mem b_renameable a _ a_renameable eq.symm
              show a ∈ (declared :: outer).flatten
              rw [flatten_cons, mem_append]
              right
              apply a_outer
            · apply apart ⟨a_outer, a_renameable⟩ ⟨b_outer, b_renameable⟩ eq
      rw [Scope.narrow, ApartScope, Scope.visits, bound_cons, forall_mem_cons, here]
      constructor
      · rintro ⟨distinct, inside⟩
        use distinct
        apply (apartScopes_iff rename renameable inner _ (here.mpr distinct)).mp inside
      · rintro ⟨distinct, inside⟩
        use distinct
        apply (apartScopes_iff rename renameable inner _ (here.mpr distinct)).mpr inside

theorem apartScopes_iff (rename : String → Option String) (renameable : List String)
    (scopes : List Scope) (outer : List (List String))
    (apart : Set.InjOn rename (bound renameable outer)) :
  ApartScopes rename (bound renameable outer) (narrowAll renameable scopes) ↔
    ∀ visit ∈ visitsAll outer scopes, visit.Distinct rename renameable
  := by
  match scopes with
  | [] =>
      rw [narrowAll, ApartScopes, visitsAll]
      simp
  | scope :: scopes =>
      rw [narrowAll, ApartScopes, visitsAll, forall_mem_append,
        apartScope_iff rename renameable scope outer apart,
        apartScopes_iff rename renameable scopes outer apart]

end

end Vilan.Js
