import Vilan.Core.Js
import Vilan.Library.FirstFit

/-!
# Renaming the emitted program

The names the generator minted are unique in the whole program.  A pass over the assembled tree
allocates them again over the function scopes, top down, so that disjoint scopes share names, and
rewrites the tree.  The map is keyed by name: a binding that is written out at several sites takes
at all of them the name it was given at the first.
-/

namespace Vilan.Js

/-! ### The scopes -/

/-- The bindings declared directly in one function scope, and the scopes inside it. -/
inductive JsScope where
  | mk (declarations : List String) (children : List JsScope)

def JsScope.append : JsScope → JsScope → JsScope
  | .mk declarations children, .mk declarations' children' =>
      .mk (declarations ++ declarations') (children ++ children')

instance : Append JsScope := ⟨JsScope.append⟩

/-- Nothing declared, and no scope inside. -/
def JsScope.empty : JsScope := .mk [] []

/-- A name declared here, when it is to be renamed. -/
def declaring (renameable : List String) (name : String) : JsScope :=
  if name ∈ renameable then .mk [name] [] else .empty

/-- The scope of a function: its parameters, then everything its body declares. -/
def functionScope (renameable parameters : List String) (body : JsScope) : JsScope :=
  .mk (parameters.filter (· ∈ renameable)) [] ++ body

mutual

def collectNode (renameable : List String) : Node → JsScope
  | .vtable entries => collectEntries renameable entries
  | .function name parameters body _ =>
      declaring renameable name
        ++ .mk [] [functionScope renameable parameters (collectDeclarations renameable body)]
  | .closure parameters body _ =>
      .mk [] [functionScope renameable parameters (collectDeclarations renameable body)]
  | .constVariable name value | .letVariable name value =>
      declaring renameable name ++ collectNode renameable value
  | .forOf binding iterable body =>
      declaring renameable binding ++ collectNode renameable iterable
        ++ collectDeclarations renameable body
  | .while_ condition body =>
      collectNode renameable condition ++ collectDeclarations renameable body
  | .labeled _ body => collectDeclarations renameable body
  | .if_ branch => collectIf renameable branch
  | .try_ body finally_ =>
      collectDeclarations renameable body ++ collectDeclarations renameable finally_
  | .call subject arguments =>
      collectNode renameable subject ++ collectDeclarations renameable arguments
  | .assignment left right | .binary _ left right | .propertyIndex left right =>
      collectNode renameable left ++ collectNode renameable right
  | .await inner | .at_ _ inner | .unary _ inner | .return_ inner | .throw inner | .spread inner
  | .property inner _ => collectNode renameable inner
  | .array items | .sequence items => collectDeclarations renameable items
  | .local_ _ | .string _ | .number _ _ | .bool _ | .null | .void | .break_ | .breakLabel _
  | .continue_ | .mark _ => .empty

def collectIf (renameable : List String) : IfBranch → JsScope
  | .if_ condition body none =>
      collectNode renameable condition ++ collectDeclarations renameable body
  | .if_ condition body (some else_) =>
      collectNode renameable condition ++ collectDeclarations renameable body
        ++ collectIf renameable else_
  | .else_ body => collectDeclarations renameable body

def collectDeclarations (renameable : List String) : List Node → JsScope
  | [] => .empty
  | node :: nodes => collectNode renameable node ++ collectDeclarations renameable nodes

def collectEntries (renameable : List String) : List (String × Node) → JsScope
  | [] => .empty
  | (_, value) :: entries => collectNode renameable value ++ collectEntries renameable entries

end

mutual

/-- Every binding name the scope tree accounts for. -/
def collectReachedNames : JsScope → List String
  | .mk declarations children => declarations ++ collectAllReached children

def collectAllReached : List JsScope → List String
  | [] => []
  | child :: children => collectReachedNames child ++ collectAllReached children

end

/-! ### The names -/

def alphabet : List Char :=
  "abcdefghijklmnopqrstuvwxyzABCDEFGHIJKLMNOPQRSTUVWXYZ".toList

/-- The letters of a short name, the last one first. -/
def shortLetters : ℕ → ℕ → List Char
  | 0, _ => []
  | fuel + 1, num =>
      alphabet.getD (num % 52) 'a'
        :: if num / 52 < 1 then [] else shortLetters fuel (num / 52 - 1)

def shortNameFromIdx (idx : ℕ) : String :=
  String.ofList (shortLetters (idx + 1) idx).reverse

def shortestAvailable (used : List String) : String :=
  FirstFit.fit shortNameFromIdx used

def sanitizeIdentifier (name : String) : String :=
  let result := name.toList.map fun c => if c.isAlphanum || c == '_' then c else '_'
  if result.isEmpty || (result.headD 'a').isDigit then String.ofList ('_' :: result)
  else String.ofList result

/-- The base, and then the base with the suffixes from two on. -/
def candidate (base : String) (i : ℕ) : String :=
  if i = 0 then base else base ++ toString (i + 1)

def disambiguated (base : String) (used : List String) : String :=
  FirstFit.fit (candidate (sanitizeIdentifier base)) used

/-! ### The allocation -/

/-- What one function scope allocates with: the names in use in it, the binding that holds each
name this pass allocated, and the new names given so far in the whole program. -/
structure Allocation where
  used : List String
  holder : String → Option String
  rename : String → Option String

section

variable (release : Bool) (sourceOf : String → Option String)

/-- The name a binding is given at its first site. -/
def choose (used : List String) (old : String) : String :=
  if release then shortestAvailable used else disambiguated ((sourceOf old).getD old) used

/-- One declaration of a scope. -/
def Allocation.declare (s : Allocation) (old : String) : Allocation :=
  match s.rename old with
  | some allocated =>
      { s with
        used := allocated :: s.used
        holder := Function.update s.holder allocated (some old) }
  | none =>
      let new := choose release sourceOf s.used old
      { used := new :: s.used
        holder := Function.update s.holder new (some old)
        rename := Function.update s.rename old (some new) }

/-- The declarations of a scope, in their order. -/
def Allocation.declareAll (s : Allocation) : List String → Allocation
  | [] => s
  | old :: olds => (s.declare release sourceOf old).declareAll olds

mutual

def allocateScope : JsScope → Allocation → String → Option String
  | .mk declarations children, s =>
      allocateScopes children (s.declareAll release sourceOf declarations)

/-- The scopes inside a scope start with the names of that scope, and with the map that the scopes
before them leave. -/
def allocateScopes : List JsScope → Allocation → String → Option String
  | [], s => s.rename
  | child :: children, s => allocateScopes children { s with rename := allocateScope child s }

end

end

/-! ### The rewriting -/

def renameOne (rename : String → Option String) (name : String) : String :=
  (rename name).getD name

section

variable (rename : String → Option String)

mutual

def renameNode : Node → Node
  | .vtable entries => .vtable (renameEntries entries)
  | .local_ name => .local_ (renameOne rename name)
  | .function name parameters body isAsync =>
      .function (renameOne rename name) (parameters.map (renameOne rename)) (renameNodes body)
        isAsync
  | .closure parameters body isAsync =>
      .closure (parameters.map (renameOne rename)) (renameNodes body) isAsync
  | .constVariable name value => .constVariable (renameOne rename name) (renameNode value)
  | .letVariable name value => .letVariable (renameOne rename name) (renameNode value)
  | .forOf binding iterable body =>
      .forOf (renameOne rename binding) (renameNode iterable) (renameNodes body)
  | .while_ condition body => .while_ (renameNode condition) (renameNodes body)
  | .labeled label body => .labeled label (renameNodes body)
  | .if_ branch => .if_ (renameIf branch)
  | .try_ body finally_ => .try_ (renameNodes body) (renameNodes finally_)
  | .call subject arguments => .call (renameNode subject) (renameNodes arguments)
  | .assignment left right => .assignment (renameNode left) (renameNode right)
  | .binary op left right => .binary op (renameNode left) (renameNode right)
  | .propertyIndex left right => .propertyIndex (renameNode left) (renameNode right)
  | .await inner => .await (renameNode inner)
  | .at_ id inner => .at_ id (renameNode inner)
  | .unary operator inner => .unary operator (renameNode inner)
  | .return_ inner => .return_ (renameNode inner)
  | .throw inner => .throw (renameNode inner)
  | .spread inner => .spread (renameNode inner)
  | .property inner member => .property (renameNode inner) member
  | .array items => .array (renameNodes items)
  | .sequence items => .sequence (renameNodes items)
  | .string text => .string text
  | .number whole fraction => .number whole fraction
  | .bool value => .bool value
  | .null => .null
  | .void => .void
  | .break_ => .break_
  | .breakLabel label => .breakLabel label
  | .continue_ => .continue_
  | .mark id => .mark id

def renameIf : IfBranch → IfBranch
  | .if_ condition body none => .if_ (renameNode condition) (renameNodes body) none
  | .if_ condition body (some else_) =>
      .if_ (renameNode condition) (renameNodes body) (some (renameIf else_))
  | .else_ body => .else_ (renameNodes body)

def renameNodes : List Node → List Node
  | [] => []
  | node :: nodes => renameNode node :: renameNodes nodes

def renameEntries : List (String × Node) → List (String × Node)
  | [] => []
  | (key, value) :: entries => (key, renameNode value) :: renameEntries entries

end

end

/-! ### The pass -/

inductive NameStyle where
  | readable | annotated | plain
  deriving DecidableEq

/-- What the pass reads of the generator: its style, the names it handed to the entities and the
source names of these, every name it minted, and the names of the instances with the source names
they were minted from. -/
structure NameGenerator where
  style : NameStyle
  names : List (ℕ × String)
  sourceNames : List (ℕ × String)
  minted : List String
  instanceSources : List (String × String)

section

variable (ng : NameGenerator) (reservedNames : List String) (nodes : List Node)

/-- The pairs of the current names and the source names, the later ones over the earlier. -/
def NameGenerator.sources : List (String × String) :=
  (ng.names.filterMap fun entry =>
    (ng.sourceNames.find? (·.1 = entry.1)).map fun source => (entry.2, source.2))
    ++ ng.instanceSources

def NameGenerator.sourceOf (name : String) : Option String :=
  (ng.sources.reverse.find? (·.1 = name)).map (·.2)

def NameGenerator.release : Bool := ng.style = .plain

def NameGenerator.renameable : List String :=
  match ng.style with
  | .annotated => []
  | .readable => ng.sources.map (·.1)
  | .plain => ng.minted

/-- The scope of the whole program. -/
def globalScope : JsScope :=
  collectDeclarations ng.renameable nodes

/-- The names to be renamed that the walk did not reach. -/
def unreached : List String :=
  ng.renameable.filter (· ∉ collectReachedNames (globalScope ng nodes))

/-- What the allocation of the whole program starts with. -/
def Allocation.start : Allocation where
  used := reservedNames ++ unreached ng nodes
  holder := fun _ => none
  rename := fun _ => none

def renameForScopes : List Node × (String → Option String) :=
  if ng.style = .annotated then (nodes, fun _ => none)
  else if ng.renameable = [] then (nodes, fun _ => none)
  else
    let rename := allocateScope ng.release ng.sourceOf (globalScope ng nodes)
      (Allocation.start ng reservedNames nodes)
    (renameNodes rename nodes, rename)

end

end Vilan.Js
