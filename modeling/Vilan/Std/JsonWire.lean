import Vilan.Std.Wire
import Vilan.Native.Json

/-!
# The JSON codec

The JSON pair of the wire visitor.  The writer keeps one separator flag and the flags of the
levels around it; the reader walks a parsed value with a stack of pending values.
-/

namespace Vilan.Wire

open Native (JsonValue)

variable {F H : Type}

/-- What the host does with JSON. -/
structure JsonHost (F : Type) extends Host F where
  /-- A string as JSON text. -/
  stringify : Str → Str
  showInt : ℤ → Str
  showFloat : F → Str
  parse : Str → Option (JsonValue Str F)
  isWhole : F → Bool
  isNegative : F → Bool

/-! ### The write side -/

structure JsonWriter where
  out : Str
  pendingComma : Bool
  savedCommas : List Bool
  variantArities : List ℤ

namespace JsonWriter

def new : JsonWriter :=
  ⟨[], false, [], []⟩

/-- Append one value at the current level: a separator first, and the next value needs one. -/
def value (writer : JsonWriter) (text : Str) : JsonWriter :=
  let out := if writer.pendingComma then writer.out ++ ascii "," else writer.out
  { writer with out := out ++ text, pendingComma := true }

/-- Open an aggregate: inside, the first item needs no separator. -/
def opened (writer : JsonWriter) (opener : Str) : JsonWriter :=
  let writer := writer.value opener
  { writer with savedCommas := true :: writer.savedCommas, pendingComma := false }

/-- Close an aggregate and restore the separator of the level around it. -/
def close (writer : JsonWriter) (closer : Str) : JsonWriter :=
  { writer with
    out := writer.out ++ closer
    pendingComma := writer.savedCommas.head?.getD false
    savedCommas := writer.savedCommas.tail }

def field (host : JsonHost F) (writer : JsonWriter) (name : Str) : JsonWriter :=
  let out := if writer.pendingComma then writer.out ++ ascii "," else writer.out
  { writer with out := out ++ host.stringify name ++ ascii ":", pendingComma := false }

def beginVariant (host : JsonHost F) (writer : JsonWriter) (name : Str) (arity : ℤ) : JsonWriter :=
  let writer := { writer with variantArities := arity :: writer.variantArities }
  if arity = 0 then writer.value (host.stringify name)
  else
    let writer := writer.opened (ascii "\x7b")
    let writer :=
      { writer with out := writer.out ++ host.stringify name ++ ascii ":", pendingComma := false }
    if 1 < arity then { writer with out := writer.out ++ ascii "[" } else writer

def endVariant (writer : JsonWriter) : JsonWriter :=
  let arity := writer.variantArities.head?.getD 0
  let writer := { writer with variantArities := writer.variantArities.tail }
  let writer := if 1 < arity then { writer with out := writer.out ++ ascii "]" } else writer
  if 0 < arity then writer.close (ascii "\x7d") else writer

end JsonWriter

/-- The visitor's write half. -/
def jsonSerialize (host : JsonHost F) : Serialize JsonWriter F where
  beginStruct writer _ := writer.opened (ascii "\x7b")
  field writer name := writer.field host name
  endStruct writer := writer.close (ascii "\x7d")
  beginList writer _ := writer.opened (ascii "[")
  endList writer := writer.close (ascii "]")
  beginVariant writer name arity := writer.beginVariant host name arity
  endVariant writer := writer.endVariant
  nullValue writer := writer.value (ascii "null")
  someValue writer := writer
  strValue writer value := writer.value (host.stringify value)
  i32Value writer value := writer.value (host.showInt value)
  u32Value writer value := writer.value (host.showInt value)
  i53Value writer value := writer.value (host.showInt value)
  f64Value writer value := writer.value (host.showFloat value)
  boolValue writer value := writer.value (if value then ascii "true" else ascii "false")

/-! ### Parsed values -/

/-- The kinds of JSON values, and that of a host value that is none. -/
inductive JsonKind where
  | undefined | null | bool | number | string | array | object
  deriving DecidableEq

section

variable (value : JsonValue Str F)

def jsonKind : JsonKind :=
  match value with
  | .undefined => .undefined
  | .null => .null
  | .bool _ => .bool
  | .number _ => .number
  | .text _ => .string
  | .array _ => .array
  | .object _ => .object

/-- How a failure names the kind it found. -/
def foundKind : Str :=
  match value with
  | .null => ascii "null"
  | .bool _ => ascii "a boolean"
  | .number _ => ascii "a number"
  | .text _ => ascii "a string"
  | .array _ => ascii "an array"
  | _ => ascii "an object"

/-- The value at a field of an object. -/
def jsonField (name : Str) : JsonValue Str F :=
  match value with
  | .object entries => (entries.lookup name).getD .undefined
  | _ => .undefined

def hasJsonField (name : Str) : Bool :=
  match value with
  | .object entries => (entries.lookup name).isSome
  | _ => false

/-- A string is its own tag, and the tag of an object is its first key. -/
def jsonTag : Str :=
  match value with
  | .text text => text
  | .object ((key, _) :: _) => key
  | _ => []

def jsonElements : List (JsonValue Str F) :=
  match value with
  | .array items => items
  | _ => []

def jsonIsNull : Bool :=
  match value with
  | .null => true
  | _ => false

/-- The coercions of the leaves are reached only behind a check of the kind. -/
def coerceText : Str :=
  match value with
  | .text text => text
  | _ => []

def coerceBool : Bool :=
  match value with
  | .bool flag => flag
  | _ => false

def coerceNumber (host : JsonHost F) : F :=
  match value with
  | .number number => number
  | _ => host.ofInt 0

end

/-! ### The read side -/

structure JsonReader (F : Type) where
  /-- The values that are pending, the next one first. -/
  stack : List (JsonValue Str F)
  error : Option Str
  /-- The depth that the stack must be back at when each open list is closed. -/
  listMarks : List ℕ

namespace JsonReader

def new (root : JsonValue Str F) : JsonReader F :=
  ⟨[root], none, []⟩

section

variable (reader : JsonReader F)

def ok : Bool :=
  reader.error.isNone

/-- The first failure is kept. -/
def report (reason : Str) : JsonReader F :=
  match reader.error with
  | some _ => reader
  | none => { reader with error := some reason }

/-- The current value, not consumed. -/
def top : JsonValue Str F :=
  if !reader.ok then .null else reader.stack.head?.getD .null

def take : JsonValue Str F × JsonReader F :=
  if !reader.ok then (.null, reader)
  else
    match reader.stack with
    | value :: stack => (value, { reader with stack := stack })
    | [] => (.null, reader.report (ascii "unexpected end of document"))

/-- The value that a read took must be of the kind that the read asked for. -/
def expect (value : JsonValue Str F) (wanted : JsonKind) (name : Str) : Bool × JsonReader F :=
  if !reader.ok then (false, reader)
  else if jsonKind value = wanted then (true, reader)
  else
    (false, reader.report (ascii "expected " ++ name ++ ascii ", found " ++ foundKind value))

/-- Why a number is not one of an integer lane. -/
def integerLaneFailure (host : JsonHost F) (value : JsonValue Str F) (signed : Bool) :
    Option Str :=
  let number := coerceNumber value host
  if !host.isWhole number then
    some (ascii "expected a whole number, found " ++ host.showFloat number)
  else if !signed && host.isNegative number then
    some (ascii "expected a non-negative number, found " ++ host.showFloat number)
  else none

def expectInteger (host : JsonHost F) (value : JsonValue Str F) (signed : Bool) :
    Bool × JsonReader F :=
  match reader.expect value .number (ascii "a number") with
  | (false, reader) => (false, reader)
  | (true, reader) =>
      match integerLaneFailure host value signed with
      | some reason => (false, reader.report reason)
      | none => (true, reader)

/-- Push values, the first of them on top. -/
def pushAll (values : List (JsonValue Str F)) : JsonReader F :=
  { reader with stack := values ++ reader.stack }

/-- The named member of the object on top is pushed. -/
def field (name : Str) : JsonReader F :=
  let subject := reader.top
  match reader.expect subject .object (ascii "an object") with
  | (false, reader) => reader
  | (true, reader) =>
      if hasJsonField subject name then reader.pushAll [jsonField subject name]
      else reader.report (ascii "missing field '" ++ name ++ ascii "'")

def beginList : ℤ × JsonReader F :=
  let (subject, reader) := reader.take
  match reader.expect subject .array (ascii "an array") with
  | (false, reader) => (0, reader)
  | (true, reader) =>
      let elements := jsonElements subject
      let reader := { reader with listMarks := reader.stack.length :: reader.listMarks }
      (asI32 elements.length, reader.pushAll elements)

/-- The stack must be back at the mark of the list. -/
def endList : JsonReader F :=
  match reader.listMarks with
  | [] => reader
  | mark :: marks =>
      let reader := { reader with listMarks := marks }
      if reader.ok ∧ mark < reader.stack.length then
        reader.report
          (ascii "a list had " ++ ascii (toString (reader.stack.length - mark)) ++
            ascii " element(s) left unread")
      else reader

def variantTag : Str × JsonReader F :=
  if reader.ok then (jsonTag reader.top, reader) else ([], reader)

def beginVariant (name : Str) (arity : ℤ) : JsonReader F :=
  let (subject, reader) := reader.take
  if 0 < arity then
    match reader.expect subject .object (ascii "an object") with
    | (false, reader) => reader
    | (true, reader) =>
        if hasJsonField subject name then
          let payload := jsonField subject name
          if arity = 1 then reader.pushAll [payload] else reader.pushAll (jsonElements payload)
        else reader.report (ascii "missing payload for variant '" ++ name ++ ascii "'")
  else reader

def isNull : Bool × JsonReader F :=
  (reader.ok && jsonIsNull reader.top, reader)

def strValue : Str × JsonReader F :=
  let (value, reader) := reader.take
  match reader.expect value .string (ascii "a string") with
  | (true, reader) => (coerceText value, reader)
  | (false, reader) => ([], reader)

/-- A whole number, and one that is not negative unless the lane is signed. -/
def integerValue (host : JsonHost F) (signed : Bool) : ℤ × JsonReader F :=
  let (value, reader) := reader.take
  match reader.expectInteger host value signed with
  | (true, reader) => (host.trunc (coerceNumber value host), reader)
  | (false, reader) => (0, reader)

def f64Value (host : JsonHost F) : F × JsonReader F :=
  let (value, reader) := reader.take
  match reader.expect value .number (ascii "a number") with
  | (true, reader) => (coerceNumber value host, reader)
  | (false, reader) => (host.ofInt 0, reader)

def boolValue : Bool × JsonReader F :=
  let (value, reader) := reader.take
  match reader.expect value .bool (ascii "a boolean") with
  | (true, reader) => (coerceBool value, reader)
  | (false, reader) => (false, reader)

end

end JsonReader

/-- The visitor's read half. -/
def jsonDeserialize (host : JsonHost F) : Deserialize (JsonReader F) F where
  beginStruct reader := reader
  field reader name := reader.field name
  endStruct reader := reader.take.2
  beginList reader := reader.beginList
  endList reader := reader.endList
  variantTag reader := reader.variantTag
  beginVariant reader name arity := reader.beginVariant name arity
  endVariant reader := reader
  isNull reader := reader.isNull
  nullValue reader := reader.take.2
  strValue reader := reader.strValue
  i32Value reader := reader.integerValue host true
  u32Value reader := reader.integerValue host false
  i53Value reader := reader.integerValue host true
  f64Value reader := reader.f64Value host
  boolValue reader := reader.boolValue
  fail reader reason := reader.report reason
  failed reader := reader.error

/-! ### The codec -/

/-- Encode a value of a wire type. -/
def encodeJson (host : JsonHost F) (program : Program F H) (type : Ty) (value : Value F) : Str :=
  (describe program (jsonSerialize host) type value .new).out

/-- A reader over a text, which has failed when the text is not JSON. -/
def openedReader (host : JsonHost F) (text : Str) : JsonReader F :=
  match host.parse text with
  | some root => .new root
  | none => (JsonReader.new .null).report (ascii "malformed JSON")

/-- What a text decodes as, once the value is rebuilt. -/
def JsonReader.conclude (result : Value F × JsonReader F) : Except Str (Value F) :=
  match result.2.error with
  | none => .ok result.1
  | some reason => .error reason

/-- Decode a text as a value of a wire type, with calls at most so deep. -/
def decodeJson [DecidableEq H] (host : JsonHost F) (program : Program F H) (depth : ℕ) (type : Ty)
    (text : Str) : Option (Except Str (Value F)) :=
  (rebuild host.toHost program (jsonDeserialize host) depth type (openedReader host text)).map
    JsonReader.conclude

/-- What a text decodes as. -/
def DecodesJson [DecidableEq H] (host : JsonHost F) (program : Program F H) (type : Ty)
    (text : Str) (result : Except Str (Value F)) : Prop :=
  ∃ depth, decodeJson host program depth type text = some result

end Vilan.Wire
