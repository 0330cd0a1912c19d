import Vilan.Std.Text

/-!
# The wire visitor

A value of a wire type describes itself to a serializer and is rebuilt from a deserializer, and
a codec is a pair of these.  The types are those that the library's impls and the derived ones
build.  A declared type is a struct or an enum, and may hold itself: it is named, and the
program says what a name declares.

A rebuild that holds itself need not end, so it is given the depth of calls it may use.
-/

namespace Vilan.Wire

/-- What the host does with doubles, text and JSON. -/
structure Host (F : Type) where
  encodeUtf8 : Str → Bytes
  decodeUtf8 : Bytes → Str
  /-- The eight bytes of a double, as an integer. -/
  toBits : F → UInt64
  ofBits : UInt64 → F
  /-- The double of an integer. -/
  ofInt : ℤ → F
  /-- A double, truncated toward zero. -/
  trunc : F → ℤ
  /-- A double as an `f32`. -/
  narrow : F → F

/-! ### Conversions of integers -/

/-- Fold a value into an unsigned type's range. -/
def foldUnsigned (value : ℤ) (modulus : ℤ) : ℤ :=
  value % modulus

/-- Fold a value into a signed type's range. -/
def foldSigned (value : ℤ) (modulus half : ℤ) : ℤ :=
  let wrapped := foldUnsigned value modulus
  if half ≤ wrapped then wrapped - modulus else wrapped

/-- Saturate a value at zero. -/
def saturateUnsigned (value : ℤ) : ℤ :=
  if 0 < value then value else 0

def asI8 (value : ℤ) : ℤ := foldSigned value 256 128
def asU8 (value : ℤ) : ℤ := foldUnsigned value 256
def asI16 (value : ℤ) : ℤ := foldSigned value 65536 32768
def asU16 (value : ℤ) : ℤ := foldUnsigned value 65536
def asI32 (value : ℤ) : ℤ := foldSigned value 4294967296 2147483648
def asU32 (value : ℤ) : ℤ := foldUnsigned value 4294967296
def asU53 (value : ℤ) : ℤ := saturateUnsigned value
def asUsize (value : ℤ) : ℤ := saturateUnsigned value

/-! ### Types and values -/

/-- The scalar types. -/
inductive Scalar where
  | bool | i8 | u8 | i16 | u16 | i32 | u32 | i53 | u53 | usize | f32 | f64 | str
  deriving DecidableEq

/-- The wire types.  `Result`, `Delta` and the derived types have names. -/
inductive Ty where
  | scalar (kind : Scalar)
  | list (element : Ty)
  | option (value : Ty)
  | hashMap (key value : Ty)
  | named (id : ℕ)
  deriving DecidableEq

/-- The values.  An entry of a map is a struct of its key and its value. -/
inductive Value (F : Type) where
  | bool (value : Bool)
  | int (value : ℤ)
  | float (value : F)
  | str (value : Str)
  | list (items : List (Value F))
  | absent
  | present (value : Value F)
  | variant (name : Str) (payloads : List (Value F))
  | struct (fields : List (Value F))
  | map (entries : List (Value F))

/-- What an enum is rebuilt as when its tag is unknown: a variant whose first payloads are
rebuilt and whose others are fixed. -/
structure Fallback (F : Type) where
  /-- What the failure calls the variants. -/
  what : Str
  name : Str
  payloads : List Ty
  rest : List (Value F)

/-- What a name declares. -/
inductive Decl (F : Type) where
  | struct (fields : List (Str × Ty))
  | enum (variants : List (Str × List Ty)) (fallback : Fallback F)
  /-- An enum that crosses as its backing values. -/
  | backed (name : Str) (backing : Scalar) (first : Str) (values : List (Str × Value F))

/-- The program around a value: its declarations, and how it hashes keys. -/
structure Program (F H : Type) where
  decl : ℕ → Decl F
  hash : Value F → H

namespace Decl

variable {F : Type}

/-- A derived enum falls back to its first variant. -/
def derived (first : Str × List Ty) (others : List (Str × List Ty)) : Decl F :=
  .enum (first :: others) ⟨ascii "variant", first.1, first.2, []⟩

/-- A `Result` falls back to an `Err`. -/
def result (value error : Ty) : Decl F :=
  .enum [(ascii "Ok", [value]), (ascii "Err", [error])]
    ⟨ascii "result variant", ascii "Err", [error], []⟩

/-- A `Delta` falls back to an empty `Reset`. -/
def delta (key value : Ty) : Decl F :=
  .enum
    [(ascii "Reset", [.list value]), (ascii "Insert", [key, value, .scalar .usize]),
      (ascii "Update", [key, value]), (ascii "Remove", [key])]
    ⟨ascii "delta variant", ascii "Reset", [], [.list []]⟩

end Decl

/-! ### Describing -/

/-- The write half of a visitor. -/
structure Serialize (S F : Type) where
  beginStruct : S → ℤ → S
  field : S → Str → S
  endStruct : S → S
  beginList : S → ℤ → S
  endList : S → S
  beginVariant : S → Str → ℤ → S
  endVariant : S → S
  nullValue : S → S
  someValue : S → S
  strValue : S → Str → S
  i32Value : S → ℤ → S
  u32Value : S → ℤ → S
  i53Value : S → ℤ → S
  f64Value : S → F → S
  boolValue : S → Bool → S

section Describe

variable {S F H : Type} (program : Program F H) (serializer : Serialize S F)

/-- A scalar rides the lane that holds it exactly. -/
def describeScalar : Scalar → Value F → S → S
  | .bool, .bool value, s => serializer.boolValue s value
  | .i8, .int value, s => serializer.i32Value s (asI32 value)
  | .u8, .int value, s => serializer.u32Value s (asU32 value)
  | .i16, .int value, s => serializer.i32Value s (asI32 value)
  | .u16, .int value, s => serializer.u32Value s (asU32 value)
  | .i32, .int value, s => serializer.i32Value s value
  | .u32, .int value, s => serializer.u32Value s value
  | .i53, .int value, s => serializer.i53Value s value
  | .u53, .int value, s => serializer.i53Value s value
  | .usize, .int value, s => serializer.i32Value s (asI32 value)
  | .f32, .float value, s => serializer.f64Value s value
  | .f64, .float value, s => serializer.f64Value s value
  | .str, .str value, s => serializer.strValue s value
  | _, _, s => s

mutual

/-- A value of a type describes itself. -/
def describe : Ty → Value F → S → S
  | .scalar kind, value, s => describeScalar serializer kind value s
  | .list element, .list items, s =>
      serializer.endList
        (describeItems element items (serializer.beginList s (asI32 items.length)))
  | .option _, .absent, s => serializer.nullValue s
  | .option element, .present value, s => describe element value (serializer.someValue s)
  | .hashMap key value, .map entries, s =>
      serializer.endList
        (describeEntries key value entries (serializer.beginList s (asI32 entries.length)))
  | .named id, .struct values, s =>
      match program.decl id with
      | .struct fields =>
          serializer.endStruct
            (describeFields fields values (serializer.beginStruct s fields.length))
      | _ => s
  | .named id, .variant name payloads, s =>
      match program.decl id with
      | .enum variants _ =>
          match variants.lookup name with
          | some types =>
              serializer.endVariant
                (describeAll types payloads (serializer.beginVariant s name types.length))
          | none => s
      | .backed _ backing _ values =>
          match values.lookup name with
          | some value => describeScalar serializer backing value s
          | none => s
      | _ => s
  | _, _, s => s

def describeItems (element : Ty) : List (Value F) → S → S
  | [], s => s
  | item :: items, s => describeItems element items (describe element item s)

def describeAll : List Ty → List (Value F) → S → S
  | type :: types, value :: values, s => describeAll types values (describe type value s)
  | _, _, s => s

def describeFields : List (Str × Ty) → List (Value F) → S → S
  | field :: fields, value :: values, s =>
      describeFields fields values (describe field.2 value (serializer.field s field.1))
  | _, _, s => s

/-- The entries of a map are structs of two fields. -/
def describeEntries (key value : Ty) : List (Value F) → S → S
  | .struct [k, v] :: entries, s =>
      describeEntries key value entries
        (serializer.endStruct
          (describe value v
            (serializer.field
              (describe key k (serializer.field (serializer.beginStruct s 2) (ascii "key")))
              (ascii "value"))))
  | _, s => s

end

end Describe

/-! ### Rebuilding -/

/-- The read half of a visitor. -/
structure Deserialize (D F : Type) where
  beginStruct : D → D
  field : D → Str → D
  endStruct : D → D
  beginList : D → ℤ × D
  endList : D → D
  variantTag : D → Str × D
  beginVariant : D → Str → ℤ → D
  endVariant : D → D
  isNull : D → Bool × D
  nullValue : D → D
  strValue : D → Str × D
  i32Value : D → ℤ × D
  u32Value : D → ℤ × D
  i53Value : D → ℤ × D
  f64Value : D → F × D
  boolValue : D → Bool × D
  fail : D → Str → D
  failed : D → Option Str

/-- Hold an entry in a map: an entry under the hash of its key keeps its place, and both its key
and its value are replaced. -/
def insertEntry {F H : Type} [DecidableEq H] (hash : Value F → H) :
    List (Value F) → Value F → Value F → List (Value F)
  | .struct [k, v] :: entries, key, value =>
      if hash k = hash key then .struct [key, value] :: entries
      else .struct [k, v] :: insertEntry hash entries key value
  | entry :: entries, key, value => entry :: insertEntry hash entries key value
  | [], key, value => [.struct [key, value]]

/-- Whether a backing value is the one that was read. -/
def Value.isBacking {F : Type} : Value F → Value F → Bool
  | .int value, .int raw => value = raw
  | .str value, .str raw => value = raw
  | _, _ => false

section Rebuild

variable {D F H : Type} [DecidableEq H] (host : Host F) (program : Program F H)
  (deserializer : Deserialize D F)

/-- A scalar of its lane, narrowed. -/
def rebuildScalar : Scalar → D → Value F × D
  | .bool, d => (deserializer.boolValue d).map .bool id
  | .i8, d => (deserializer.i32Value d).map (fun value => .int (asI8 value)) id
  | .u8, d => (deserializer.u32Value d).map (fun value => .int (asU8 value)) id
  | .i16, d => (deserializer.i32Value d).map (fun value => .int (asI16 value)) id
  | .u16, d => (deserializer.u32Value d).map (fun value => .int (asU16 value)) id
  | .i32, d => (deserializer.i32Value d).map .int id
  | .u32, d => (deserializer.u32Value d).map .int id
  | .i53, d => (deserializer.i53Value d).map .int id
  | .u53, d => (deserializer.i53Value d).map (fun value => .int (asU53 value)) id
  | .usize, d => (deserializer.i32Value d).map (fun value => .int (asUsize value)) id
  | .f32, d => (deserializer.f64Value d).map (fun value => .float (host.narrow value)) id
  | .f64, d => (deserializer.f64Value d).map .float id
  | .str, d => (deserializer.strValue d).map .str id

/-- The elements of a list, one after the other. -/
def rebuildItems (read : D → Option (Value F × D)) : ℕ → D → Option (List (Value F) × D)
  | 0, d => some ([], d)
  | length + 1, d => do
      let (item, d) ← read d
      let (items, d) ← rebuildItems read length d
      some (item :: items, d)

/-- Values of types, one after the other. -/
def rebuildAll (read : Ty → D → Option (Value F × D)) :
    List Ty → D → Option (List (Value F) × D)
  | [], d => some ([], d)
  | type :: types, d => do
      let (value, d) ← read type d
      let (values, d) ← rebuildAll read types d
      some (value :: values, d)

/-- The fields of a struct, one after the other. -/
def rebuildFields (read : Ty → D → Option (Value F × D)) :
    List (Str × Ty) → D → Option (List (Value F) × D)
  | [], d => some ([], d)
  | field :: fields, d => do
      let (value, d) ← read field.2 (deserializer.field d field.1)
      let (values, d) ← rebuildFields read fields d
      some (value :: values, d)

/-- The entries of a map, inserted one after the other. -/
def rebuildEntries (read : Ty → D → Option (Value F × D)) (keyType valueType : Ty) :
    ℕ → List (Value F) → D → Option (List (Value F) × D)
  | 0, entries, d => some (entries, d)
  | length + 1, entries, d => do
      let (key, d) ← read keyType (deserializer.field (deserializer.beginStruct d) (ascii "key"))
      let (value, d) ← read valueType (deserializer.field d (ascii "value"))
      rebuildEntries read keyType valueType length
        (insertEntry program.hash entries key value) (deserializer.endStruct d)

/-- A value of a type is rebuilt, with calls at most so deep. -/
def rebuild : ℕ → Ty → D → Option (Value F × D)
  | 0, _, _ => none
  | _ + 1, .scalar kind, d => some (rebuildScalar host deserializer kind d)
  | depth + 1, .list element, d => do
      let (length, d) := deserializer.beginList d
      let (items, d) ← rebuildItems (rebuild depth element) length.toNat d
      some (.list items, deserializer.endList d)
  | depth + 1, .option element, d =>
      let (null, d) := deserializer.isNull d
      if null then some (.absent, deserializer.nullValue d)
      else do
        let (value, d) ← rebuild depth element d
        some (.present value, d)
  | depth + 1, .hashMap key value, d => do
      let (length, d) := deserializer.beginList d
      let (entries, d) ←
        rebuildEntries program deserializer (rebuild depth) key value length.toNat [] d
      some (.map entries, deserializer.endList d)
  | depth + 1, .named id, d =>
      match program.decl id with
      | .struct fields => do
          let (values, d) ←
            rebuildFields deserializer (rebuild depth) fields (deserializer.beginStruct d)
          some (.struct values, deserializer.endStruct d)
      | .enum variants fallback =>
          let (tag, d) := deserializer.variantTag d
          match variants.lookup tag with
          | some types => do
              let (payloads, d) ←
                rebuildAll (rebuild depth) types (deserializer.beginVariant d tag types.length)
              some (.variant tag payloads, deserializer.endVariant d)
          | none => do
              let reason := ascii "unknown " ++ fallback.what ++ ascii " '" ++ tag ++ ascii "'"
              let (payloads, d) ←
                rebuildAll (rebuild depth) fallback.payloads (deserializer.fail d reason)
              some (.variant fallback.name (payloads ++ fallback.rest), d)
      | .backed name backing first values =>
          let (raw, d) := rebuildScalar host deserializer backing d
          match values.find? fun known => known.2.isBacking raw with
          | some known => some (.variant known.1 [], d)
          | none =>
              some (.variant first [],
                deserializer.fail d (ascii "unknown value for enum " ++ name))

end Rebuild

end Vilan.Wire
