import Vilan.Std.JsonWire
import Vilan.Std.Typed

/-!
# The shapes of JSON values

What it is for a value of a wire type to be read from a JSON value with nothing lost: each of its
parts is read from its own part of the JSON value, each list has as many elements as were read
from it, and what is passed over holds no elements.  Whether the lists of a JSON value fit is
asked of the type and the JSON value alone.
-/

namespace Vilan.Wire

open Native (JsonValue)

variable {F H : Type}

/-! ### Scalars -/

/-- The integer of a lane. -/
def wholeOf (host : JsonHost F) (signed : Bool) : JsonValue Str F → Option ℤ
  | .number number =>
      if host.isWhole number && (signed || !host.isNegative number) then some (host.trunc number)
      else none
  | _ => none

/-- The scalar that a JSON value is read as. -/
def scalarOf (host : JsonHost F) : Scalar → JsonValue Str F → Option (Value F)
  | .bool, .bool flag => some (.bool flag)
  | .i8, json => (wholeOf host true json).map fun value => .int (asI8 value)
  | .u8, json => (wholeOf host false json).map fun value => .int (asU8 value)
  | .i16, json => (wholeOf host true json).map fun value => .int (asI16 value)
  | .u16, json => (wholeOf host false json).map fun value => .int (asU16 value)
  | .i32, json => (wholeOf host true json).map .int
  | .u32, json => (wholeOf host false json).map .int
  | .i53, json => (wholeOf host true json).map .int
  | .u53, json => (wholeOf host true json).map fun value => .int (asU53 value)
  | .usize, json => (wholeOf host true json).map fun value => .int (asUsize value)
  | .f32, .number number => some (.float (host.narrow number))
  | .f64, .number number => some (.float number)
  | .str, .text text => some (.str text)
  | _, _ => none

/-! ### What is passed over -/

/-- No array in a JSON value has elements. -/
inductive Barren : JsonValue Str F → Prop
  | undefined : Barren .undefined
  | null : Barren .null
  | bool (flag : Bool) : Barren (.bool flag)
  | number (number : F) : Barren (.number number)
  | text (text : Str) : Barren (.text text)
  | array : Barren (.array [])
  | object {entries : List (Str × JsonValue Str F)} :
      (∀ entry ∈ entries, Barren entry.2) → Barren (.object entries)

/-- Nothing is lost when only the named members of a JSON value are read. -/
def Spares (names : List Str) : JsonValue Str F → Prop
  | .object entries => ∀ entry ∈ entries, entry.1 ∉ names → Barren entry.2
  | json => Barren json

/-- The members of a struct. -/
def fieldMembers (fields : List (Str × Ty)) (json : JsonValue Str F) : List (JsonValue Str F) :=
  fields.map fun field => jsonField json field.1

/-- The keys and the values of the entries of a map, one after the other. -/
def entryMembers : List (JsonValue Str F) → List (JsonValue Str F)
  | [] => []
  | item :: items =>
      jsonField item (ascii "key") :: jsonField item (ascii "value") :: entryMembers items

/-! ### Values that are spelled -/

section Shapes

variable [DecidableEq H] (host : JsonHost F) (program : Program F H)

/-- JSON values spell values of types, each its own, and nothing is lost. -/
inductive Spells : List Ty → List (JsonValue Str F) → List (Value F) → Prop
  | nil : Spells [] [] []
  | cons {type : Ty} {types : List Ty} {json : JsonValue Str F} {jsons : List (JsonValue Str F)}
      {value : Value F} {values : List (Value F)} :
      Spells [type] [json] [value] → Spells types jsons values →
        Spells (type :: types) (json :: jsons) (value :: values)
  | scalar {kind : Scalar} {json : JsonValue Str F} {value : Value F}
      (read : scalarOf host kind json = some value) : Spells [.scalar kind] [json] [value]
  | list {element : Ty} {items : List (JsonValue Str F)} {values : List (Value F)} :
      Spells (List.replicate items.length element) items values →
        Spells [.list element] [.array items] [.list values]
  | absent {element : Ty} : Spells [.option element] [.null] [.absent]
  | present {element : Ty} {json : JsonValue Str F} {value : Value F}
      (null : jsonIsNull json = false) :
      Spells [element] [json] [value] → Spells [.option element] [json] [.present value]
  | map {key value : Ty} {items : List (JsonValue Str F)} {pairs : List (Value F × Value F)}
      (members : ∀ item ∈ items, hasJsonField item (ascii "key") = true ∧
        hasJsonField item (ascii "value") = true)
      (spares : ∀ item ∈ items, Spares [ascii "key", ascii "value"] item) :
      Spells (pairTypes key value items.length) (entryMembers items) (pairValues pairs) →
        Spells [.hashMap key value] [.array items]
          [.map (entriesOf (insertAll program.hash [] pairs))]
  | struct {id : ℕ} {fields : List (Str × Ty)} {json : JsonValue Str F} {values : List (Value F)}
      (decl : program.decl id = .struct fields)
      (members : ∀ field ∈ fields, hasJsonField json field.1 = true)
      (spares : Spares (fields.map Prod.fst) json) :
      Spells (fields.map Prod.snd) (fieldMembers fields json) values →
        Spells [.named id] [json] [.struct values]
  | unit {id : ℕ} {variants : List (Str × List Ty)} {fallback : Fallback F}
      {json : JsonValue Str F} (decl : program.decl id = .enum variants fallback)
      (known : variants.lookup (jsonTag json) = some []) (spares : Spares [] json) :
      Spells [.named id] [json] [.variant (jsonTag json) []]
  | single {id : ℕ} {variants : List (Str × List Ty)} {fallback : Fallback F} {type : Ty}
      {json : JsonValue Str F} {payload : Value F}
      (decl : program.decl id = .enum variants fallback)
      (known : variants.lookup (jsonTag json) = some [type])
      (member : hasJsonField json (jsonTag json) = true) (spares : Spares [jsonTag json] json) :
      Spells [type] [jsonField json (jsonTag json)] [payload] →
        Spells [.named id] [json] [.variant (jsonTag json) [payload]]
  | several {id : ℕ} {variants : List (Str × List Ty)} {fallback : Fallback F} {types : List Ty}
      {json : JsonValue Str F} {elements : List (JsonValue Str F)} {payloads : List (Value F)}
      (decl : program.decl id = .enum variants fallback)
      (known : variants.lookup (jsonTag json) = some types) (arity : 1 < types.length)
      (payload : jsonField json (jsonTag json) = .array elements)
      (spares : Spares [jsonTag json] json) :
      Spells types elements payloads → Spells [.named id] [json] [.variant (jsonTag json) payloads]
  | backed {id : ℕ} {name first : Str} {backing : Scalar} {values : List (Str × Value F)}
      {known : Str × Value F} {json : JsonValue Str F}
      (decl : program.decl id = .backed name backing first values) (mem : known ∈ values)
      (read : scalarOf host backing json = some known.2) :
      Spells [.named id] [json] [.variant known.1 []]

variable {host program} in
/-- Each type has its JSON value. -/
theorem Spells.length
    {types : List Ty} {jsons : List (JsonValue Str F)} {values : List (Value F)}
    (h : Spells host program types jsons values) :
  types.length = jsons.length
  := by
  induction h with
  | nil => rfl
  | cons _ _ _ ih => simp only [List.length_cons, ih]
  | _ => rfl

variable {host program} in
theorem Spells.length_values
    {types : List Ty} {jsons : List (JsonValue Str F)} {values : List (Value F)}
    (h : Spells host program types jsons values) :
  types.length = values.length
  := by
  induction h with
  | nil => rfl
  | cons _ _ _ ih => simp only [List.length_cons, ih]
  | _ => rfl

end Shapes

/-! ### Lists that fit -/

section Lists

variable (program : Program F H)

/-- Wherever the types lead into the JSON values, the payloads of a variant that has several are an
array with as many elements, and nothing is lost in what is passed over. -/
inductive ListsFit : List Ty → List (JsonValue Str F) → Prop
  | nil : ListsFit [] []
  | cons {type next : Ty} {types : List Ty} {json other : JsonValue Str F}
      {jsons : List (JsonValue Str F)} :
      ListsFit [type] [json] → ListsFit (next :: types) (other :: jsons) →
        ListsFit (type :: next :: types) (json :: other :: jsons)
  | scalar (kind : Scalar) (json : JsonValue Str F) : ListsFit [.scalar kind] [json]
  | list {element : Ty} {items : List (JsonValue Str F)} :
      ListsFit (List.replicate items.length element) items →
        ListsFit [.list element] [.array items]
  | absent (element : Ty) : ListsFit [.option element] [.null]
  | present {element : Ty} {json : JsonValue Str F} (null : jsonIsNull json = false) :
      ListsFit [element] [json] → ListsFit [.option element] [json]
  | map {key value : Ty} {items : List (JsonValue Str F)}
      (spares : ∀ item ∈ items, Spares [ascii "key", ascii "value"] item) :
      ListsFit (pairTypes key value items.length) (entryMembers items) →
        ListsFit [.hashMap key value] [.array items]
  | struct {id : ℕ} {fields : List (Str × Ty)} {json : JsonValue Str F}
      (decl : program.decl id = .struct fields) (spares : Spares (fields.map Prod.fst) json) :
      ListsFit (fields.map Prod.snd) (fieldMembers fields json) → ListsFit [.named id] [json]
  | unit {id : ℕ} {variants : List (Str × List Ty)} {fallback : Fallback F}
      {json : JsonValue Str F} (decl : program.decl id = .enum variants fallback)
      (known : variants.lookup (jsonTag json) = some []) (spares : Spares [] json) :
      ListsFit [.named id] [json]
  | single {id : ℕ} {variants : List (Str × List Ty)} {fallback : Fallback F} {type : Ty}
      {json : JsonValue Str F} (decl : program.decl id = .enum variants fallback)
      (known : variants.lookup (jsonTag json) = some [type]) (spares : Spares [jsonTag json] json) :
      ListsFit [type] [jsonField json (jsonTag json)] → ListsFit [.named id] [json]
  | several {id : ℕ} {variants : List (Str × List Ty)} {fallback : Fallback F} {types : List Ty}
      {json : JsonValue Str F} {elements : List (JsonValue Str F)}
      (decl : program.decl id = .enum variants fallback)
      (known : variants.lookup (jsonTag json) = some types) (arity : 1 < types.length)
      (payload : jsonField json (jsonTag json) = .array elements)
      (length : elements.length = types.length) (spares : Spares [jsonTag json] json) :
      ListsFit types elements → ListsFit [.named id] [json]
  | backed {id : ℕ} {name first : Str} {backing : Scalar} {values : List (Str × Value F)}
      (json : JsonValue Str F) (decl : program.decl id = .backed name backing first values) :
      ListsFit [.named id] [json]

variable {program}

theorem ListsFit.cons_iff
    {type : Ty} {types : List Ty} {json : JsonValue Str F} {jsons : List (JsonValue Str F)} :
  ListsFit program (type :: types) (json :: jsons) ↔
    ListsFit program [type] [json] ∧ ListsFit program types jsons
  := by
  match types, jsons with
  | [], [] =>
      constructor
      · intro h
        use h, .nil
      · intro h
        apply h.1
  | next :: types, other :: jsons =>
      constructor
      · rintro (_ | ⟨h, hs⟩)
        use h, hs
      · intro h
        apply ListsFit.cons h.1 h.2
  | [], _ :: _ | _ :: _, [] =>
      constructor
      · nofun
      · rintro ⟨_, h⟩
        cases h

/-- The lists of what spells values fit. -/
theorem Spells.listsFit
    [DecidableEq H] {host : JsonHost F} {types : List Ty} {jsons : List (JsonValue Str F)}
    {values : List (Value F)} (h : Spells host program types jsons values) :
  ListsFit program types jsons
  := by
  induction h with
  | nil => apply ListsFit.nil
  | cons _ _ ih ihs => apply ListsFit.cons_iff.mpr ⟨ih, ihs⟩
  | scalar => apply ListsFit.scalar
  | list _ ih => apply ListsFit.list ih
  | absent => apply ListsFit.absent
  | present null _ ih => apply ListsFit.present null ih
  | map _ spares _ ih => apply ListsFit.map spares ih
  | struct decl _ spares _ ih => apply ListsFit.struct decl spares ih
  | unit decl known spares => apply ListsFit.unit decl known spares
  | single decl known _ spares _ ih => apply ListsFit.single decl known spares ih
  | several decl known arity payload spares elements ih =>
    apply ListsFit.several decl known arity payload elements.length.symm spares ih
  | backed decl => apply ListsFit.backed _ decl

end Lists

end Vilan.Wire
