import Mathlib.Data.List.Basic

/-!
# The emitted program

The tree the emitter builds and everything behind it reads: the allocator of the final names, the
comparison of instance bodies, and the printer.
-/

namespace Vilan.Js

inductive BinaryOp where
  | add | sub | mul | div | rem
  | shl | shr | uShr
  | bitAnd | bitXor | bitOr
  | eq | notEq | lt | gt | ltEq | gtEq
  | and | or
  deriving DecidableEq

mutual

/-- A node of the emitted program: an expression, a statement, or the mark of a source place. -/
inductive Node where
  | array (items : List Node)
  | spread (operand : Node)
  | assignment (subject value : Node)
  | await (operand : Node)
  | binary (op : BinaryOp) (lhs rhs : Node)
  | unary (operator : Char) (operand : Node)
  | bool (value : Bool)
  | break_
  | breakLabel (label : String)
  | call (subject : Node) (arguments : List Node)
  | closure (parameters : List String) (body : List Node) (isAsync : Bool)
  | constVariable (name : String) (value : Node)
  | continue_
  | function (name : String) (parameters : List String) (body : List Node) (isAsync : Bool)
  | if_ (branch : IfBranch)
  | while_ (condition : Node) (body : List Node)
  | forOf (binding : String) (iterable : Node) (body : List Node)
  | labeled (label : String) (body : List Node)
  | letVariable (name : String) (value : Node)
  | local_ (name : String)
  | null
  | vtable (entries : List (String × Node))
  | number (whole : String) (fraction : Option String)
  | property (subject : Node) (member : String)
  | propertyIndex (subject member : Node)
  | return_ (value : Node)
  | sequence (items : List Node)
  | string (text : String)
  | throw (value : Node)
  | try_ (body finally_ : List Node)
  | void
  | mark (id : ℕ)
  | at_ (id : ℕ) (operand : Node)

/-- A branch of an `if`. -/
inductive IfBranch where
  | if_ (condition : Node) (body : List Node) (else_ : Option IfBranch)
  | else_ (body : List Node)

end

/-- The node a call mark wraps, or the node itself. -/
def Node.unmarked : Node → Node
  | .at_ _ operand => operand.unmarked
  | node => node

end Vilan.Js
