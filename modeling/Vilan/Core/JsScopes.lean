import Vilan.Core.JsRename

/-!
# What a name means in the emitted program

A name stands for the declaration in the nearest function scope around it that declares it.  The
scopes are read off the tree with all their names, and both the collection of the names to be
renamed and the rewriting of the tree are read off these scopes.
-/

namespace Vilan.Js

open List

/-- A function scope: the names it declares, the names mentioned directly in it, and the scopes
inside it. -/
inductive Scope where
  | mk (declared uses : List String) (inner : List Scope)

def Scope.append : Scope → Scope → Scope
  | .mk declared uses inner, .mk declared' uses' inner' =>
      .mk (declared ++ declared') (uses ++ uses') (inner ++ inner')

instance : Append Scope := ⟨Scope.append⟩

def Scope.empty : Scope := .mk [] [] []

/-- One declared name. -/
def Scope.declares (name : String) : Scope := .mk [name] [] []

mutual

def readNode : Node → Scope
  | .vtable entries => readEntries entries
  | .local_ name => .mk [] [name] []
  | .function name parameters body _ =>
      .declares name ++ .mk [] [] [.mk parameters [] [] ++ readNodes body]
  | .closure parameters body _ => .mk [] [] [.mk parameters [] [] ++ readNodes body]
  | .constVariable name value | .letVariable name value => .declares name ++ readNode value
  | .forOf binding iterable body => .declares binding ++ readNode iterable ++ readNodes body
  | .while_ condition body => readNode condition ++ readNodes body
  | .labeled _ body => readNodes body
  | .if_ branch => readIf branch
  | .try_ body finally_ => readNodes body ++ readNodes finally_
  | .call subject arguments => readNode subject ++ readNodes arguments
  | .assignment left right | .binary _ left right | .propertyIndex left right =>
      readNode left ++ readNode right
  | .await inner | .at_ _ inner | .unary _ inner | .return_ inner | .throw inner | .spread inner
  | .property inner _ => readNode inner
  | .array items | .sequence items => readNodes items
  | .string _ | .number _ _ | .bool _ | .null | .void | .break_ | .breakLabel _ | .continue_
  | .mark _ => .empty

def readIf : IfBranch → Scope
  | .if_ condition body none => readNode condition ++ readNodes body
  | .if_ condition body (some else_) => readNode condition ++ readNodes body ++ readIf else_
  | .else_ body => readNodes body

def readNodes : List Node → Scope
  | [] => .empty
  | node :: nodes => readNode node ++ readNodes nodes

def readEntries : List (String × Node) → Scope
  | [] => .empty
  | (_, value) :: entries => readNode value ++ readEntries entries

end

/-! ### What the collection sees -/

mutual

/-- The names to be renamed of a scope. -/
def Scope.narrow (renameable : List String) : Scope → JsScope
  | .mk declared _ inner => .mk (declared.filter (· ∈ renameable)) (narrowAll renameable inner)

def narrowAll (renameable : List String) : List Scope → List JsScope
  | [] => []
  | scope :: scopes => scope.narrow renameable :: narrowAll renameable scopes

end

theorem narrowAll_append (renameable : List String) (scopes scopes' : List Scope) :
  narrowAll renameable (scopes ++ scopes') =
    narrowAll renameable scopes ++ narrowAll renameable scopes'
  := by
  induction scopes with
  | nil => rfl
  | cons scope scopes ih => rw [cons_append, narrowAll, ih, narrowAll, cons_append]

theorem narrow_append (renameable : List String) (scope scope' : Scope) :
  (scope ++ scope').narrow renameable = scope.narrow renameable ++ scope'.narrow renameable
  := by
  obtain ⟨declared, uses, inner⟩ := scope
  obtain ⟨declared', uses', inner'⟩ := scope'
  show Scope.narrow renameable (.mk (declared ++ declared') (uses ++ uses') (inner ++ inner')) = _
  rw [Scope.narrow, filter_append, narrowAll_append]
  rfl

theorem narrow_empty (renameable : List String) :
  Scope.empty.narrow renameable = .empty
  := rfl

theorem narrow_declares (renameable : List String) (name : String) :
  (Scope.declares name).narrow renameable = declaring renameable name
  := by
  rw [Scope.declares, Scope.narrow, declaring, filter_singleton]
  by_cases mem : name ∈ renameable
  · rw [if_pos mem, decide_eq_true mem]
    rfl
  · rw [if_neg mem, decide_eq_false mem]
    rfl

theorem narrow_function (renameable parameters : List String) (scope : Scope) :
  (Scope.mk [] [] [.mk parameters [] [] ++ scope]).narrow renameable =
    .mk [] [.mk (parameters.filter (· ∈ renameable)) [] ++ scope.narrow renameable]
  := by
  rw [Scope.narrow, narrowAll, narrowAll, narrow_append]
  rfl

mutual

theorem collectNode_eq (renameable : List String) :
  ∀ node, collectNode renameable node = (readNode node).narrow renameable
  | .vtable entries => by
      rw [collectNode, readNode, collectEntries_eq renameable entries]
  | .function name parameters body _ => by
      rw [collectNode, readNode, narrow_append, narrow_declares, narrow_function, functionScope,
        collectDeclarations_eq renameable body]
  | .closure parameters body _ => by
      rw [collectNode, readNode, narrow_function, functionScope,
        collectDeclarations_eq renameable body]
  | .constVariable name value | .letVariable name value => by
      rw [collectNode, readNode, narrow_append, narrow_declares, collectNode_eq renameable value]
  | .forOf binding iterable body => by
      rw [collectNode, readNode, narrow_append, narrow_append, narrow_declares,
        collectNode_eq renameable iterable, collectDeclarations_eq renameable body]
  | .while_ condition body => by
      rw [collectNode, readNode, narrow_append, collectNode_eq renameable condition,
        collectDeclarations_eq renameable body]
  | .labeled _ body => by
      rw [collectNode, readNode, collectDeclarations_eq renameable body]
  | .if_ branch => by
      rw [collectNode, readNode, collectIf_eq renameable branch]
  | .try_ body finally_ => by
      rw [collectNode, readNode, narrow_append, collectDeclarations_eq renameable body,
        collectDeclarations_eq renameable finally_]
  | .call subject arguments => by
      rw [collectNode, readNode, narrow_append, collectNode_eq renameable subject,
        collectDeclarations_eq renameable arguments]
  | .assignment left right | .binary _ left right | .propertyIndex left right => by
      rw [collectNode, readNode, narrow_append, collectNode_eq renameable left,
        collectNode_eq renameable right]
  | .await inner | .at_ _ inner | .unary _ inner | .return_ inner | .throw inner | .spread inner
  | .property inner _ => by
      rw [collectNode, readNode, collectNode_eq renameable inner]
  | .array items | .sequence items => by
      rw [collectNode, readNode, collectDeclarations_eq renameable items]
  | .local_ _ | .string _ | .number _ _ | .bool _ | .null | .void | .break_ | .breakLabel _
  | .continue_ | .mark _ => by
      simp only [collectNode, readNode, Scope.narrow, narrowAll, filter_nil, Scope.empty, JsScope.empty]

theorem collectIf_eq (renameable : List String) :
  ∀ branch, collectIf renameable branch = (readIf branch).narrow renameable
  | .if_ condition body none => by
      rw [collectIf, readIf, narrow_append, collectNode_eq renameable condition,
        collectDeclarations_eq renameable body]
  | .if_ condition body (some else_) => by
      rw [collectIf, readIf, narrow_append, narrow_append, collectNode_eq renameable condition,
        collectDeclarations_eq renameable body, collectIf_eq renameable else_]
  | .else_ body => by
      rw [collectIf, readIf, collectDeclarations_eq renameable body]

theorem collectDeclarations_eq (renameable : List String) :
  ∀ nodes, collectDeclarations renameable nodes = (readNodes nodes).narrow renameable
  | [] => by
      rw [collectDeclarations, readNodes, narrow_empty]
  | node :: nodes => by
      rw [collectDeclarations, readNodes, narrow_append, collectNode_eq renameable node,
        collectDeclarations_eq renameable nodes]

theorem collectEntries_eq (renameable : List String) :
  ∀ entries, collectEntries renameable entries = (readEntries entries).narrow renameable
  | [] => by
      rw [collectEntries, readEntries, narrow_empty]
  | (_, value) :: entries => by
      rw [collectEntries, readEntries, narrow_append, collectNode_eq renameable value,
        collectEntries_eq renameable entries]

end

/-! ### What the rewriting does -/

section

variable (rename : String → Option String)

mutual

/-- A scope with every name renamed. -/
def Scope.renamed : Scope → Scope
  | .mk declared uses inner =>
      .mk (declared.map (renameOne rename)) (uses.map (renameOne rename)) (renamedAll inner)

def renamedAll : List Scope → List Scope
  | [] => []
  | scope :: scopes => scope.renamed :: renamedAll scopes

end

theorem renamedAll_append (scopes scopes' : List Scope) :
  renamedAll rename (scopes ++ scopes') = renamedAll rename scopes ++ renamedAll rename scopes'
  := by
  induction scopes with
  | nil => rfl
  | cons scope scopes ih => rw [cons_append, renamedAll, ih, renamedAll, cons_append]

theorem renamed_append (scope scope' : Scope) :
  (scope ++ scope').renamed rename = scope.renamed rename ++ scope'.renamed rename
  := by
  obtain ⟨declared, uses, inner⟩ := scope
  obtain ⟨declared', uses', inner'⟩ := scope'
  show Scope.renamed rename (.mk (declared ++ declared') (uses ++ uses') (inner ++ inner')) = _
  rw [Scope.renamed, map_append, map_append, renamedAll_append]
  rfl

theorem renamed_declares (name : String) :
  (Scope.declares name).renamed rename = .declares (renameOne rename name)
  := rfl

theorem renamed_function (parameters : List String) (scope : Scope) :
  (Scope.mk [] [] [.mk parameters [] [] ++ scope]).renamed rename =
    .mk [] [] [.mk (parameters.map (renameOne rename)) [] [] ++ scope.renamed rename]
  := by
  rw [Scope.renamed, renamedAll, renamedAll, renamed_append]
  rfl

mutual

theorem readNode_rename :
  ∀ node, readNode (renameNode rename node) = (readNode node).renamed rename
  | .vtable entries => by
      rw [renameNode, readNode, readNode, readEntries_rename entries]
  | .local_ _ => rfl
  | .function name parameters body _ => by
      rw [renameNode, readNode, readNode, renamed_append, renamed_declares, renamed_function,
        readNodes_rename body]
  | .closure parameters body _ => by
      rw [renameNode, readNode, readNode, renamed_function, readNodes_rename body]
  | .constVariable name value | .letVariable name value => by
      rw [renameNode, readNode, readNode, renamed_append, renamed_declares, readNode_rename value]
  | .forOf binding iterable body => by
      rw [renameNode, readNode, readNode, renamed_append, renamed_append, renamed_declares,
        readNode_rename iterable, readNodes_rename body]
  | .while_ condition body => by
      rw [renameNode, readNode, readNode, renamed_append, readNode_rename condition,
        readNodes_rename body]
  | .labeled _ body => by
      rw [renameNode, readNode, readNode, readNodes_rename body]
  | .if_ branch => by
      rw [renameNode, readNode, readNode, readIf_rename branch]
  | .try_ body finally_ => by
      rw [renameNode, readNode, readNode, renamed_append, readNodes_rename body,
        readNodes_rename finally_]
  | .call subject arguments => by
      rw [renameNode, readNode, readNode, renamed_append, readNode_rename subject,
        readNodes_rename arguments]
  | .assignment left right | .binary _ left right | .propertyIndex left right => by
      rw [renameNode, readNode, readNode, renamed_append, readNode_rename left,
        readNode_rename right]
  | .await inner | .at_ _ inner | .unary _ inner | .return_ inner | .throw inner | .spread inner
  | .property inner _ => by
      rw [renameNode, readNode, readNode, readNode_rename inner]
  | .array items | .sequence items => by
      rw [renameNode, readNode, readNode, readNodes_rename items]
  | .string _ | .number _ _ | .bool _ | .null | .void | .break_ | .breakLabel _ | .continue_
  | .mark _ => by
      simp only [renameNode, readNode, readNode, Scope.renamed, renamedAll, map_nil, Scope.empty]

theorem readIf_rename :
  ∀ branch, readIf (renameIf rename branch) = (readIf branch).renamed rename
  | .if_ condition body none => by
      rw [renameIf, readIf, readIf, renamed_append, readNode_rename condition,
        readNodes_rename body]
  | .if_ condition body (some else_) => by
      rw [renameIf, readIf, readIf, renamed_append, renamed_append, readNode_rename condition,
        readNodes_rename body, readIf_rename else_]
  | .else_ body => by
      rw [renameIf, readIf, readIf, readNodes_rename body]

theorem readNodes_rename :
  ∀ nodes, readNodes (renameNodes rename nodes) = (readNodes nodes).renamed rename
  | [] => rfl
  | node :: nodes => by
      rw [renameNodes, readNodes, readNodes, renamed_append, readNode_rename node,
        readNodes_rename nodes]

theorem readEntries_rename :
  ∀ entries, readEntries (renameEntries rename entries) = (readEntries entries).renamed rename
  | [] => rfl
  | (_, value) :: entries => by
      rw [renameEntries, readEntries, readEntries, renamed_append, readNode_rename value,
        readEntries_rename entries]

end

end

end Vilan.Js
