import Vilan.Library.Table
import Vilan.Library.Worklist

/-!
# Which implementations apply to a type

An implementation applies to a concrete type when its subject matches the type and the bounds of its
binders hold of what they bind; a bound holds when some implementation that provides the trait
applies.  The two questions are answered by a search that takes a question it meets again for
refuted, and keeps its answers.
-/

namespace Vilan.ImplSelect

/-- Types refer to each other by their place in a table. -/
abbrev TypeId := ℕ

abbrev Id := ℕ

inductive ParameterMode where
  | value
  | view
  | writable
  deriving DecidableEq

/-- The types.  The labels of a tuple are not part of it. -/
inductive Ty where
  | any
  | never
  | closure (parameters : List TypeId) (result : TypeId) (context : List Id)
      (modes : List ParameterMode)
  | enum (id : Id) (arguments : List TypeId)
  | function (id : Id)
  | generic (constraint : TypeId)
  | module (id : Id)
  | struct (id : Id) (arguments : List TypeId)
  | trait (id : Id) (arguments : List TypeId)
  | dyn (id : Id) (arguments : List TypeId)
  | tuple (items : List TypeId)
  | array (item length : TypeId)
  | length (value : ℕ)
  | mapped (binder source template : TypeId)
  | unknown
  | unresolved
  | void
  deriving DecidableEq

structure Implementation where
  traitIds : List Id
  subject : TypeId

/-- What a finished program says of its types, traits and implementations.  A tuple bound is a
least and a greatest number of elements. -/
structure Program where
  types : List Ty
  supertraits : List (Id × List TypeId)
  implementations : List Implementation
  genericBounds : List (TypeId × List TypeId)
  tupleBoundArities : List (TypeId × (Option ℕ × Option ℕ))

/-- The order in which a hash map is walked. -/
structure WalkOrder where
  order : List (TypeId × TypeId) → List (TypeId × TypeId)
  perm : ∀ bindings, (order bindings).Perm bindings

namespace Program

variable (program : Program)

/-- Whether a type is concrete enough to select an implementation for. -/
def isResolvable : Ty → Bool
  | .generic _ => false
  | .any => false
  | .unknown => false
  | .unresolved => false
  | .trait _ _ => false
  | _ => true

/-! ### Matching a subject -/

/-- Walk two lists of arguments in step, and count the refusals met on the way. -/
def allMatch (matches_ : TypeId → TypeId → Bool × ℕ) : List (TypeId × TypeId) → Bool × ℕ
  | [] => (true, 0)
  | (subject, target) :: rest =>
      match matches_ subject target with
      | (false, refused) => (false, refused)
      | (true, refused) =>
          let (answer, more) := allMatch matches_ rest
          (answer, refused + more)

/-- Argument lists.  An erased side has no shape to compare. -/
def subjectArgumentShapesMatch (matches_ : TypeId → TypeId → Bool × ℕ)
    (subject target : List TypeId) : Bool × ℕ :=
  if subject.isEmpty || target.isEmpty then (true, 0)
  else if subject.length = target.length then allMatch matches_ (subject.zip target)
  else (false, 0)

/-- Whether the shape of a subject matches a target, and how often the walk was refused for its
depth. -/
def subjectShapeMatches : ℕ → TypeId → TypeId → Bool × ℕ
  | 0, _, _ => (false, 1)
  | depth + 1, subject, target =>
      match program.types[subject]?, program.types[target]? with
      | some subjectType, some targetType =>
          match subjectType, targetType with
          | .generic _, _ => (true, 0)
          | _, .generic _ => (false, 0)
          | .struct left arguments, .struct right others =>
              if left = right then
                subjectArgumentShapesMatch (subjectShapeMatches depth) arguments others
              else (false, 0)
          | .enum left arguments, .enum right others =>
              if left = right then
                subjectArgumentShapesMatch (subjectShapeMatches depth) arguments others
              else (false, 0)
          | .trait left arguments, .trait right others =>
              if left = right then
                subjectArgumentShapesMatch (subjectShapeMatches depth) arguments others
              else (false, 0)
          | .tuple items, .tuple others =>
              subjectArgumentShapesMatch (subjectShapeMatches depth) items others
          | .array item length, .array otherItem otherLength =>
              allMatch (subjectShapeMatches depth)
                [(length, otherLength), (item, otherItem)]
          | left, right => (decide (left = right), 0)
      | _, _ => (false, 0)

/-- How deep a walk of a type may go. -/
def recursionLimit : ℕ := 2048

/-! ### Binders and bounds -/

/-- Bind the generic parameters of a pattern from the matching positions of a type.  The walk goes
no deeper than there are types. -/
def bindSubject : ℕ → TypeId → TypeId → Table TypeId TypeId → Table TypeId TypeId
  | 0, _, _, out => out
  | depth + 1, pattern, typeId, out =>
      let zipArguments := fun (patterns concretes : List TypeId) (out : Table TypeId TypeId) =>
        (patterns.zip concretes).foldl
          (fun out pair => bindSubject depth pair.1 pair.2 out) out
      match program.types[pattern]? with
      | none => out
      | some (.generic constraint) => out.insert constraint typeId
      | some patternType =>
          match program.types[typeId]? with
          | none => out
          | some concreteType =>
              match patternType, concreteType with
              | .struct left patterns, .struct right concretes =>
                  if left = right then zipArguments patterns concretes out else out
              | .enum left patterns, .enum right concretes =>
                  if left = right then zipArguments patterns concretes out else out
              | .tuple patterns, .tuple concretes => zipArguments patterns concretes out
              | .array patternItem patternLength, .array item length =>
                  bindSubject depth patternLength length
                    (bindSubject depth patternItem item out)
              | .closure patterns patternResult _ _, .closure concretes result _ _ =>
                  bindSubject depth patternResult result
                    (zipArguments patterns concretes out)
              | _, _ => out

/-- The bindings of a subject at a type, as they are walked. -/
def bindings (walk : WalkOrder) (subject target : TypeId) : List (TypeId × TypeId) :=
  walk.order (program.bindSubject program.types.length subject target Table.empty).entries

/-- The traits that the bound of a generic parameter names. -/
def boundTraitIds (constraint : TypeId) : List Id :=
  let bounds := (program.genericBounds.lookup constraint).getD [constraint]
  bounds.filterMap fun typeId =>
    match program.types[typeId]? with
    | some (Ty.trait traitId _) => some traitId
    | _ => none

/-- Whether the tuple bound of a binder, if it has one, holds of a type. -/
def tupleBoundHolds (constraint bound : TypeId) : Bool :=
  match program.tupleBoundArities.lookup constraint with
  | none => true
  | some (least, greatest) =>
      match program.types[bound]? with
      | some (.tuple elements) =>
          least.all (fun least => decide (least ≤ elements.length)) &&
            greatest.all fun greatest => decide (elements.length ≤ greatest)
      | some (.struct _ _) => false
      | some (.enum _ _) => false
      | some (.array _ _) => false
      | some (.closure _ _ _ _) => false
      | some (.dyn _ _) => false
      | _ => true

/-! ### Supertraits -/

/-- The supertraits a trait declares. -/
def supertraitIds (traitId : Id) : List Id :=
  ((program.supertraits.lookup traitId).getD []).filterMap fun supertrait =>
    match program.types[supertrait]? with
    | some (Ty.trait superId _) => some superId
    | _ => none

/-- The traits that declare supertraits. -/
def subtraitIds : List Id :=
  (program.supertraits.map Prod.fst).dedup

/-- The traits that a stack of traits, the last of them on top, reaches by supertraits. -/
def supertraitClosure (stack : List Id) : List Id :=
  Worklist.closure program.supertraitIds
    (stack.length + Worklist.unseen program.supertraitIds program.subtraitIds []) stack.reverse []

/-- The traits that an implementation provides: those of its clause and every supertrait of
them. -/
def providedTraitIds (implementation : Implementation) : List Id :=
  program.supertraitClosure implementation.traitIds

/-- The implementations that provide a trait, in declaration order. -/
def providersOf (traitId : Id) : List Implementation :=
  program.implementations.filter fun implementation =>
    (program.providedTraitIds implementation).contains traitId

/-- Whether an object over a trait provides a trait: that trait or one of its supertraits. -/
def objectProvides (objectTraitId traitId : Id) : Bool :=
  (program.supertraitClosure [objectTraitId]).contains traitId

variable {program}

end Program

/-! ### Proofs -/

/-- A question that is answered once per program. -/
inductive ProofKey where
  | applies (subject target : TypeId)
  | provides (typeId : TypeId) (traitId : Id)
  deriving DecidableEq

/-- The state of the search: the open questions, innermost last; the lowest place a cycle was cut
at since the innermost memoized proof began; the answers that are kept, newest first; and how often
a walk was refused for its depth. -/
structure Proving where
  proving : List (TypeId × Id)
  lowestCut : WithTop ℕ
  proofs : List (ProofKey × Bool)
  trips : ℕ

/-- Nothing is open and nothing is known. -/
def Proving.fresh : Proving where
  proving := []
  lowestCut := ⊤
  proofs := []
  trips := 0

/-- What a question does to the state: its answer, unless the steps of the search run out. -/
abbrev Prove := Proving → Option (Bool × Proving)

/-- Whether one of the questions is answered yes, asked until one is. -/
def anyOf {α : Type} (prove : α → Prove) : List α → Prove
  | [], state => some (false, state)
  | head :: rest, state =>
      match prove head state with
      | none => none
      | some (true, state) => some (true, state)
      | some (false, state) => anyOf prove rest state

/-- Whether all questions are answered yes, asked until one is not. -/
def allOf {α : Type} (prove : α → Prove) : List α → Prove
  | [], state => some (true, state)
  | head :: rest, state =>
      match prove head state with
      | none => none
      | some (true, state) => allOf prove rest state
      | some (false, state) => some (false, state)

/-- Answer a question from what is kept, or prove it and keep its answer: a yes always, a no only
when no cycle was cut below the question, and nothing when a walk was refused. -/
def memoizedProof (key : ProofKey) (prove : Prove) : Prove := fun state =>
  match state.proofs.lookup key with
  | some answer => some (answer, state)
  | none =>
      let start := state.proving.length
      match prove { state with lowestCut := ⊤ } with
      | none => none
      | some (answer, after) =>
          let proofs :=
            if (answer = true ∨ (start : WithTop ℕ) ≤ after.lowestCut) ∧ after.trips = state.trips then
              (key, answer) :: after.proofs
            else after.proofs
          some (answer,
            { after with lowestCut := min state.lowestCut after.lowestCut, proofs := proofs })

/-- Hold a question open while it is proved.  A question that is open already is a cycle, which
proves nothing. -/
def proving (typeId : TypeId) (traitId : Id) (prove : Prove) : Prove := fun state =>
  match state.proving.findIdx? (fun question => question = (typeId, traitId)) with
  | some position => some (false, { state with lowestCut := min state.lowestCut position })
  | none =>
      match prove { state with proving := state.proving ++ [(typeId, traitId)] } with
      | none => none
      | some (answer, after) => some (answer, { after with proving := after.proving.dropLast })

namespace Program

variable (program : Program) (walk : WalkOrder)

/-- Whether the bounds of a subject's binders hold of what they bind. -/
def subjectBoundsHold (provides : TypeId → Id → Prove) (subject target : TypeId) : Prove :=
  allOf
    (fun binding state =>
      if program.tupleBoundHolds binding.1 binding.2 then
        allOf (provides binding.2) (program.boundTraitIds binding.1) state
      else some (false, state))
    (program.bindings walk subject target)

/-- Whether a subject applies to a type. -/
def subjectApplies (provides : TypeId → Id → Prove) (subject target : TypeId) : Prove := fun state =>
  let (shape, refused) := program.subjectShapeMatches recursionLimit subject target
  let state := { state with trips := state.trips + refused }
  if shape then
    memoizedProof (.applies subject target)
      (program.subjectBoundsHold walk provides subject target) state
  else some (false, state)

/-- Whether a type provides a trait without an implementation: nothing is proved of a type that is
not concrete, and an object provides its trait. -/
def providesAtOnce (typeId : TypeId) (traitId : Id) : Bool :=
  match program.types[typeId]? with
  | none => true
  | some type =>
      if isResolvable type then
        match type with
        | .dyn objectTraitId _ => program.objectProvides objectTraitId traitId
        | _ => false
      else true

/-- Whether some implementation provides a trait for a type. -/
def providesTrait : ℕ → TypeId → Id → Prove
  | 0, _, _, _ => none
  | steps + 1, typeId, traitId, state =>
      if program.providesAtOnce typeId traitId then some (true, state)
      else
        memoizedProof (.provides typeId traitId)
          (proving typeId traitId
            (anyOf
              (fun implementation =>
                program.subjectApplies walk (providesTrait steps) implementation.subject
                  typeId)
              (program.providersOf traitId)))
          state

/-- How deep the search can go: no question is opened twice. -/
def provingSteps : ℕ :=
  program.types.length * (program.types.length + 1) + 1

/-- Ask a question with nothing open. -/
def ask : ProofKey → Prove
  | .applies subject target =>
      program.subjectApplies walk (program.providesTrait walk program.provingSteps) subject target
  | .provides typeId traitId => program.providesTrait walk program.provingSteps typeId traitId

/-- Ask questions one after the other. -/
def askAll : List ProofKey → Proving → Option (List Bool × Proving)
  | [], state => some ([], state)
  | question :: questions, state =>
      match program.ask walk question state with
      | none => none
      | some (answer, state) =>
          match askAll questions state with
          | none => none
          | some (answers, state) => some (answer :: answers, state)

end Program

end Vilan.ImplSelect
