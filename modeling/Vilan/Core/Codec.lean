import Vilan.Core.Varint
import Vilan.Http.Text

/-!
# The codec of the prefix file

Values are written by what they are and read back by their types.  The strings of a body are
interned: each is an index into a table that is written beside the body.
-/

namespace Vilan.PrefixFile

open Reading

abbrev Str := List Char

/-! ### Types and values -/

/-- The widths of integers. -/
inductive Width where
  | w8 | w16 | w32 | w64
  deriving DecidableEq

def Width.bits : Width → ℕ
  | .w8 => 8
  | .w16 => 16
  | .w32 => 32
  | .w64 => 64

/-- What a struct or a variant is made of. -/
inductive Fields (α : Type) where
  | unit
  | newtype (item : α)
  | tuple (items : List α)
  | struct (items : List α)

/-- The types that the codec supports.  A struct or an enum has a name. -/
inductive Ty where
  | bool
  | unsigned (width : Width)
  | signed (width : Width)
  | char
  | f32
  | f64
  | str
  | bytes
  | option (value : Ty)
  | unit
  | seq (element : Ty)
  | tuple (elements : List Ty)
  | map (key value : Ty)
  | named (id : ℕ)

/-- What a name declares. -/
inductive Decl where
  | struct (fields : Fields Ty)
  | enum (variants : List (Fields Ty))

/-- The values that the codec supports.  A float is its bits. -/
inductive Value where
  | bool (value : Bool)
  | unsigned (width : Width) (value : BitVec width.bits)
  | signed (width : Width) (value : BitVec width.bits)
  | char (value : Char)
  | f32 (bits : BitVec 32)
  | f64 (bits : BitVec 64)
  | str (value : Str)
  | bytes (value : Bytes)
  | none
  | some (value : Value)
  | unit
  | seq (elements : List Value)
  | tuple (elements : List Value)
  | map (entries : List (Value × Value))
  | struct (fields : Fields Value)
  | variant (index : BitVec 32) (fields : Fields Value)

/-! ### The writer -/

/-- The little-endian bytes of an integer. -/
def toLeBytes : ℕ → ℕ → Bytes
  | 0, _ => []
  | count + 1, value => UInt8.ofNat (value % 256) :: toLeBytes count (value / 256)

def fromLeBytes : Bytes → ℕ
  | [] => 0
  | byte :: bytes => byte.toNat + 256 * fromLeBytes bytes

/-- The strings that are written so far, and where each of them is. -/
structure StringTable where
  index : List (Str × BitVec 32)
  rows : List Str

/-- A writer interns its strings if it has a table for them. -/
structure Writer where
  out : Bytes
  strings : Option StringTable

namespace Writer

def interning : Writer :=
  ⟨[], some ⟨[], []⟩⟩

def inline : Writer :=
  ⟨[], none⟩

/-- Some text with its length. -/
def row (text : Str) : Bytes :=
  let bytes := Utf8.encode text
  putVarint bytes.length ++ bytes

/-- The bytes that are written, and the table as its own block. -/
def finish (writer : Writer) : Bytes × Bytes :=
  match writer.strings with
  | some strings => (writer.out, putVarint strings.rows.length ++ strings.rows.flatMap row)
  | none => (writer.out, [])

def push (writer : Writer) (bytes : Bytes) : Writer :=
  { writer with out := writer.out ++ bytes }

def putStr (writer : Writer) (value : Str) : Writer :=
  match writer.strings with
  | some strings =>
      match strings.index.lookup value with
      | some index => writer.push (putVarint index.toNat)
      | none =>
          -- The index is cast to 32 bits.
          let index := BitVec.ofNat 32 strings.rows.length
          ({ writer with strings := some ⟨(value, index) :: strings.index, strings.rows ++ [value]⟩
            } : Writer).push (putVarint index.toNat)
  | none => writer.push (row value)

end Writer

mutual

/-- Write a value. -/
def serialize : Value → Writer → Writer
  | .bool value, writer => writer.push [if value then 1 else 0]
  | .unsigned _ value, writer => writer.push (putVarint value.toNat)
  | .signed _ value, writer => writer.push (putVarint (zigzag (value.signExtend 64)).toNat)
  | .char value, writer => writer.push (putVarint value.toNat)
  | .f32 bits, writer => writer.push (toLeBytes 4 bits.toNat)
  | .f64 bits, writer => writer.push (toLeBytes 8 bits.toNat)
  | .str value, writer => writer.putStr value
  | .bytes value, writer => (writer.push (putVarint value.length)).push value
  | .none, writer => writer.push [0]
  | .some value, writer => serialize value (writer.push [1])
  | .unit, writer => writer
  | .seq elements, writer => serializeAll elements (writer.push (putVarint elements.length))
  | .tuple elements, writer => serializeAll elements writer
  | .map entries, writer => serializeEntries entries (writer.push (putVarint entries.length))
  | .struct fields, writer => serializeFields fields writer
  | .variant index fields, writer => serializeFields fields (writer.push (putVarint index.toNat))

/-- Write values, one after the other. -/
def serializeAll : List Value → Writer → Writer
  | [], writer => writer
  | value :: values, writer => serializeAll values (serialize value writer)

def serializeEntries : List (Value × Value) → Writer → Writer
  | [], writer => writer
  | entry :: entries, writer => serializeEntries entries (serializeEntry entry writer)

def serializeEntry : Value × Value → Writer → Writer
  | (key, value), writer => serialize value (serialize key writer)

def serializeFields : Fields Value → Writer → Writer
  | .unit, writer => writer
  | .newtype value, writer => serialize value writer
  | .tuple values, writer => serializeAll values writer
  | .struct values, writer => serializeAll values writer

end

/-- The body and the string table of a value. -/
def encode (value : Value) : Bytes × Bytes :=
  (serialize value .interning).finish

/-- A value with its strings in place. -/
def encodeInline (value : Value) : Bytes :=
  (serialize value .inline).finish.1

/-! ### The reader -/

def inlineStr : Reader Str := do
  let len ← varint
  let bytes ← take truncated len
  match Http.fromUtf8 bytes with
  | some text => return text
  | none => fail (.custom s!"not UTF-8 at byte {← position}")

/-- A string: its index in the table if there is one, or the string in place. -/
def readStr : Option (List Str) → Reader Str
  | none => inlineStr
  | some table => do
      let index ← varint
      match table[index]? with
      | some text => return text
      | none => fail (.custom s!"string {index} is past the table")

def u64Checked (bits : ℕ) (what : String) : Reader (BitVec bits) := do
  let value ← varint
  if value < 2 ^ bits then
    return BitVec.ofNat bits value
  else
    fail (.custom s!"{value} does not fit {what}")

def i64Checked (bits : ℕ) (what : String) : Reader (BitVec bits) := do
  let value := (unzigzag (BitVec.ofNat 64 (← varint))).toInt
  if -2 ^ (bits - 1) ≤ value ∧ value < 2 ^ (bits - 1) then
    return BitVec.ofInt bits value
  else
    fail (.custom s!"{value} does not fit {what}")

def readUnsigned : (width : Width) → Reader (BitVec width.bits)
  | .w8 => u64Checked 8 "u8"
  | .w16 => u64Checked 16 "u16"
  | .w32 => u64Checked 32 "u32"
  | .w64 => do return BitVec.ofNat 64 (← varint)

def readSigned : (width : Width) → Reader (BitVec width.bits)
  | .w8 => i64Checked 8 "i8"
  | .w16 => i64Checked 16 "i16"
  | .w32 => i64Checked 32 "i32"
  | .w64 => do return unzigzag (BitVec.ofNat 64 (← varint))

def readChar : Reader Char := do
  let value ← u64Checked 32 "char"
  if value.toNat.isValidChar then
    return Char.ofNat value.toNat
  else
    fail (.custom s!"{value.toNat} is not a char")

def readBool : Reader Bool := do
  let tag ← byte
  if tag = 0 then return false
  else if tag = 1 then return true
  else fail (.custom s!"{tag} is not a bool")

/-- A value of an option, read by what reads one that is present. -/
def readOption (read : Reader Value) : Reader Value := do
  let tag ← byte
  if tag = 0 then return .none
  else if tag = 1 then return .some (← read)
  else fail (.custom s!"{tag} is not an option tag")

def readSeq (read : Reader Value) : Reader (List Value) := do
  let len ← varint
  many read len

/-- The entries of a map: each is a key and then a value. -/
def readMap (readKey readValue : Reader Value) : Reader (List (Value × Value)) := do
  let len ← varint
  many (do let key ← readKey; return (key, ← readValue)) len

def readFields (read : Ty → Reader Value) : Fields Ty → Reader (Fields Value)
  | .unit => return .unit
  | .newtype type => return .newtype (← read type)
  | .tuple types => return .tuple (← each read types)
  | .struct types => return .struct (← each read types)

/-- A variant, by its index among those of the enum. -/
def readVariant (read : Ty → Reader Value) (variants : List (Fields Ty)) : Reader Value := do
  let index ← u64Checked 32 "a variant index"
  match variants[index.toNat]? with
  | some fields => return .variant index (← readFields read fields)
  | none =>
      fail (.custom (s!"invalid value: integer `{index.toNat}`, " ++
        s!"expected variant index 0 <= i < {variants.length}"))

/-- A value of a type.  The fuel bounds how deep the type is unfolded. -/
def deserialize (decls : ℕ → Decl) (table : Option (List Str)) : ℕ → Ty → Reader Value
  | 0, _ => fail .tooDeep
  | depth + 1, type =>
      let read := deserialize decls table depth
      match type with
      | .bool => return .bool (← readBool)
      | .unsigned width => return .unsigned width (← readUnsigned width)
      | .signed width => return .signed width (← readSigned width)
      | .char => return .char (← readChar)
      | .f32 => return .f32 (BitVec.ofNat 32 (fromLeBytes (← take truncated 4)))
      | .f64 => return .f64 (BitVec.ofNat 64 (fromLeBytes (← take truncated 8)))
      | .str => return .str (← readStr table)
      | .bytes => do
          let len ← varint
          return .bytes (← take truncated len)
      | .option value => readOption (read value)
      | .unit => return .unit
      | .seq element => return .seq (← readSeq (read element))
      | .tuple elements => return .tuple (← each read elements)
      | .map key value => return .map (← readMap (read key) (read value))
      | .named id =>
          match decls id with
          | .struct fields => return .struct (← readFields read fields)
          | .enum variants => readVariant read variants

/-- The rows of a string table. -/
def readTable : Reader (List Str) := do
  let count ← varint
  many inlineStr count

/-- The value of some reader, which reads all of the bytes. -/
def whole {β : Type} (reader : Reader β) (bytes : Bytes) (trailing : ℕ → Error) : Except Error β :=
  match reader ⟨bytes, 0⟩ with
  | .ok (value, input) => if input.rest = [] then .ok value else .error (trailing input.rest.length)
  | .error error => .error error

/-- A value with a body and a string table, with nothing after them. -/
def decode (decls : ℕ → Decl) (depth : ℕ) (type : Ty) (body table : Bytes) : Except Error Value := do
  let strings ← whole readTable table fun _ => .custom "the string table carries trailing bytes"
  whole (deserialize decls (some strings) depth type) body fun count =>
    .custom s!"{count} trailing bytes after the value"

/-- A value with its strings in place, and how many bytes it took. -/
def decodeInline (decls : ℕ → Decl) (depth : ℕ) (type : Ty) (bytes : Bytes) :
    Except Error (Value × ℕ) := do
  let (value, input) ← deserialize decls none depth type ⟨bytes, 0⟩
  return (value, input.pos)

end Vilan.PrefixFile
