import Vilan.Reactive.StoreTree

/-!
# Storable values

A store diffs a value by its shape: a struct field by field, an enum by its discriminant and
then by its live payload, an `Option` likewise, and everything else whole.  The diff collects
the slots to wake as it goes.  It compares only where a slot is live, unless a slot above
needs the answer, and its answer is exact only where somebody asked for it.

A variant with several payloads has one handle, on the tuple of them; the tuple is a leaf when
it is written through that handle, and its parts are diffed one by one when the enum is.
-/

namespace Vilan

/-- What a write's diff collects: the slots to wake, and the feeds it has told. -/
structure StoreWoken (R : Type*) where
  slots : List StoreSlot
  feeds : List (StoreFeed R)

namespace StoreWoken

variable {R : Type*}

/-- Nothing. -/
def nothing : StoreWoken R where
  slots := []
  feeds := []

/-- What one part of a diff collects, and then another. -/
def append (woken more : StoreWoken R) : StoreWoken R where
  slots := woken.slots ++ more.slots
  feeds := woken.feeds ++ more.feeds

@[simp]
theorem slots_nothing :
  (nothing : StoreWoken R).slots = []
  := rfl

@[simp]
theorem slots_append (woken more : StoreWoken R) :
  (woken.append more).slots = woken.slots ++ more.slots
  := rfl

end StoreWoken

variable {H R L : Type*}

/-! ### Waking -/

namespace StoreNode

mutual

/-- Every live slot under a node, its own included, and every feed. -/
def wakeAll : StoreNode H R → StoreWoken R
  | mk me kids keyed feeds =>
      (wakeKids kids).append ((wakeKeyed keyed).append ⟨me.toList, feeds⟩)

/-- `wakeAll` of the children by field. -/
def wakeKids : List (Option (StoreNode H R)) → StoreWoken R
  | [] => .nothing
  | none :: rest => wakeKids rest
  | some kid :: rest => (wakeAll kid).append (wakeKids rest)

/-- `wakeAll` of the children by key. -/
def wakeKeyed : List (H × StoreNode H R) → StoreWoken R
  | [] => .nothing
  | (_, kid) :: rest => (wakeAll kid).append (wakeKeyed rest)

end

end StoreNode

section

variable [DecidableEq H]

/-- The child by field, if anything watches there. -/
def storeKid (node : Option (StoreNode H R)) (index : ℕ) : Option (StoreNode H R) :=
  node.bind fun held => held.stepKid (.field index)

omit [DecidableEq H] in
/-- Whether a slot stands at a node. -/
def storeHasMe (node : Option (StoreNode H R)) : Bool :=
  node.any fun held => held.me.isSome

omit [DecidableEq H] in
/-- The slot at a node, when its value changed. -/
def storeWakeMe (node : Option (StoreNode H R)) (changed : Bool) : StoreWoken R where
  slots := if changed then (node.bind StoreNode.me).toList else []
  feeds := []

omit [DecidableEq H] in
/-- The feeds at a node. -/
def storeTouch (node : Option (StoreNode H R)) : StoreWoken R where
  slots := []
  feeds := (node.map StoreNode.feeds).getD []

omit [DecidableEq H] in
/-- Every live slot and every feed under a node. -/
def storeWakeAll (node : Option (StoreNode H R)) : StoreWoken R :=
  (node.map StoreNode.wakeAll).getD .nothing

/-- A variant's flag, the feeds that stand on it, and everything under its payload. -/
def storeLeave (node : Option (StoreNode H R)) (variant : ℕ) : StoreWoken R :=
  let flag := storeKid (storeKid node 0) variant
  (storeWakeMe flag true).append
    ((storeTouch flag).append (storeWakeAll (storeKid node variant)))

/-- An enum's variant changed: its discriminant, the two variants' flags and everything under
their payloads. -/
def storeSwitch (node : Option (StoreNode H R)) (left arrived : ℕ) : StoreWoken R :=
  (storeWakeMe (storeKid node 0) true).append
    ((storeLeave node left).append (if arrived ≠ left then storeLeave node arrived else .nothing))

end

/-! ### Values -/

/-- A value of a storable type.  The payloads of a variant are listed; `tuple` is what a
handle on several of them lends. -/
inductive StoreValue (L : Type*) where
  | leaf (leaf : L)
  | struct (fields : List (StoreValue L))
  | variant (index : ℕ) (payload : List (StoreValue L))
  | tuple (parts : List (StoreValue L))
  | none
  | some (payload : StoreValue L)

/-- The shape of a storable type. -/
inductive StoreShape where
  | leaf
  | struct (fields : List StoreShape)
  | enum (variants : List (List StoreShape))
  | tuple (parts : List StoreShape)
  | option (payload : StoreShape)

namespace StoreValue

mutual

/-- A value has a shape. -/
def Fits : StoreValue L → StoreShape → Prop
  | .leaf _, .leaf => True
  | .struct fields, .struct shapes => AllFit fields shapes
  | .variant index payload, .enum variants =>
      match variants[index]? with
      | .some shapes => AllFit payload shapes
      | .none => False
  | .tuple parts, .tuple shapes => AllFit parts shapes
  | .none, .option _ => True
  | .some payload, .option shape => Fits payload shape
  | _, _ => False

/-- Values have shapes, one each. -/
def AllFit : List (StoreValue L) → List StoreShape → Prop
  | [], [] => True
  | value :: values, shape :: shapes => Fits value shape ∧ AllFit values shapes
  | _, _ => False

end

/-! ### The diff -/

section

variable [BEq L]

mutual

/-- Two values compare equal, leaf by leaf. -/
def eq : StoreValue L → StoreValue L → Bool
  | .leaf mine, .leaf theirs => mine == theirs
  | .struct mine, .struct theirs => allEq mine theirs
  | .variant left mine, .variant arrived theirs => left == arrived && allEq mine theirs
  | .tuple mine, .tuple theirs => allEq mine theirs
  | .none, .none => true
  | .some mine, .some theirs => eq mine theirs
  | _, _ => false

/-- Two lists of values compare equal, one by one. -/
def allEq : List (StoreValue L) → List (StoreValue L) → Bool
  | [], [] => true
  | mine :: more, theirs :: others => eq mine theirs && allEq more others
  | _, _ => false

end

variable [DecidableEq H]

omit [BEq L] [DecidableEq H] in
/-- Nothing is compared where nobody asks and nothing is watched. -/
def asked (need : Bool) (node : Option (StoreNode H R)) (result : Bool × StoreWoken R) :
    Bool × StoreWoken R :=
  if !need && node.isNone then (false, .nothing) else result

omit [BEq L] [DecidableEq H] in
/-- Wake the slot of a level that has been diffed. -/
def level (node : Option (StoreNode H R)) (result : Bool × StoreWoken R) :
    Bool × StoreWoken R :=
  (result.1, result.2.append (storeWakeMe node result.1))

omit [BEq L] [DecidableEq H] in
/-- Diff a leaf whole: a change wakes the whole subtree. -/
def leafDiff (equal : Bool) (node : Option (StoreNode H R)) (need : Bool) :
    Bool × StoreWoken R :=
  asked need node (if equal then (false, .nothing) else (true, storeWakeAll node))

mutual

/-- Diff what a place holds against what is written, under a node: whether the value changed,
and what to wake.  The answer is exact when it is needed or a slot stands at the node. -/
def storeDiff : StoreValue L → StoreValue L → Option (StoreNode H R) → Bool →
    Bool × StoreWoken R
  | .leaf mine, .leaf theirs, node, need => leafDiff (mine == theirs) node need
  | .tuple mine, .tuple theirs, node, need => leafDiff (allEq mine theirs) node need
  | .struct mine, .struct theirs, node, need =>
      asked need node
        (level node (diffParts mine theirs node 0 (need || storeHasMe node) false))
  | .variant left mine, .variant arrived theirs, node, need =>
      asked need node
        (level node
          (if left = arrived then
            diffPayload mine theirs (storeKid node (left + 1)) (need || storeHasMe node)
          else (true, storeSwitch node (left + 1) (arrived + 1))))
  | .none, .none, node, need => asked need node (level node (false, .nothing))
  | .none, .some _, node, need => asked need node (level node (true, storeSwitch node 1 1))
  | .some _, .none, node, need => asked need node (level node (true, storeSwitch node 1 1))
  | .some mine, .some theirs, node, need =>
      asked need node
        (level node (storeDiff mine theirs (storeKid node 1) (need || storeHasMe node)))
  | _, _, _, _ => (false, .nothing)

/-- Diff the payloads of a variant: one is the payload node itself, several are its
children. -/
def diffPayload : List (StoreValue L) → List (StoreValue L) → Option (StoreNode H R) → Bool →
    Bool × StoreWoken R
  | [mine], [theirs], payload, here => storeDiff mine theirs payload here
  | mine :: more, theirs :: others, payload, here =>
      let deep := here || storeHasMe payload
      let first := storeDiff mine theirs (storeKid payload 0) deep
      let rest := diffParts more others payload 1 deep first.1
      level payload (rest.1, first.2.append rest.2)
  | _, _, _, _ => (false, .nothing)

/-- Diff fields one by one, asking for an answer until one has changed. -/
def diffParts : List (StoreValue L) → List (StoreValue L) → Option (StoreNode H R) → ℕ →
    Bool → Bool → Bool × StoreWoken R
  | mine :: more, theirs :: others, node, index, here, changed =>
      let first := storeDiff mine theirs (storeKid node index) (here && !changed)
      let rest := diffParts more others node (index + 1) here (first.1 || changed)
      (rest.1, first.2.append rest.2)
  | _, _, _, _, _, changed => (changed, .nothing)

end

end

/-! ### Places -/

/-- What a handle through a variant lends: its payload, or the tuple of several. -/
def gather : List (StoreValue L) → Option (StoreValue L)
  | [] => .none
  | [payload] => .some payload
  | parts => .some (.tuple parts)

/-- The payloads a handle through a variant writes back. -/
def spread : List (StoreValue L) → StoreValue L → List (StoreValue L)
  | [_], value => [value]
  | _, .tuple parts => parts
  | payload, _ => payload

/-- The place one step below a value: a field, or the payload of the live variant. -/
def child : StoreValue L → ℕ → Option (StoreValue L)
  | .struct fields, index => fields[index]?
  | .variant live payload, index => if index = live + 1 then gather payload else .none
  | .some payload, index => if index = 1 then .some payload else .none
  | _, _ => .none

/-- Write the place one step below a value. -/
def setChild : StoreValue L → ℕ → StoreValue L → StoreValue L
  | .struct fields, index, value => .struct (fields.set index value)
  | .variant live payload, index, value =>
      if index = live + 1 then .variant live (spread payload value)
      else .variant live payload
  | .some payload, index, value => if index = 1 then .some value else .some payload
  | value, _, _ => value

/-- The value at a path, while every variant on it is live. -/
def at' : StoreValue L → List ℕ → Option (StoreValue L)
  | value, [] => .some value
  | value, index :: path => (value.child index).bind fun kid => at' kid path

/-- The value with the place at a path replaced, while every variant on it is live. -/
def put : StoreValue L → List ℕ → StoreValue L → StoreValue L
  | _, [], written => written
  | value, index :: path, written =>
      match value.child index with
      | .some kid => value.setChild index (put kid path written)
      | .none => value

end StoreValue

end Vilan
