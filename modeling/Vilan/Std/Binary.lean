import Vilan.Std.Wire
import Mathlib.Data.Nat.Bitwise
import Mathlib.Tactic.IntervalCases

/-!
# The binary codec

The compact codec pair: a struct writes neither names nor counts, a list writes its count and
then its elements, a variant writes its name, and an option is one marker byte.  Integers are
little-endian.
-/

namespace Vilan.Wire

variable {F H : Type}

/-! ### The write side -/

/-- The byte that the host stores for an integer. -/
def byte (value : ℤ) : UInt8 :=
  (value % 256).toNat.toUInt8

/-- Copy all of a source into a buffer at an offset. -/
def copyInto (buffer source : Bytes) (offset : ℕ) : Bytes :=
  buffer.take offset ++ source ++ buffer.drop (offset + source.length)

/-- Double a capacity until it holds what is needed, at most so many times. -/
def doubled : ℕ → ℕ → ℕ → ℕ
  | 0, _, capacity => capacity
  | times + 1, needed, capacity =>
      if capacity < needed then doubled times needed (capacity * 2) else capacity

/-- The eight bytes of a double, the lowest first. -/
def doubleBytes (bits : UInt64) : Bytes :=
  (List.range 8).map fun i => byte (bits.toNat >>> (8 * i) : ℕ)

/-- A growable byte sink. -/
structure BinaryWriter where
  buffer : Bytes
  used : ℕ

namespace BinaryWriter

def new : BinaryWriter :=
  ⟨List.replicate 64 0, 0⟩

/-- Grow until so many more bytes fit. -/
def ensure (writer : BinaryWriter) (extra : ℕ) : BinaryWriter :=
  let needed := writer.used + extra
  let capacity := writer.buffer.length
  if capacity < needed then
    let grown := List.replicate (doubled needed needed capacity) 0
    { writer with buffer := copyInto grown writer.buffer 0 }
  else writer

def writeByte (writer : BinaryWriter) (value : ℤ) : BinaryWriter :=
  let writer := writer.ensure 1
  ⟨writer.buffer.set writer.used (byte value), writer.used + 1⟩

/-- Four bytes, the lowest first: the host stores the low byte of a shifted value. -/
def writeI32 (writer : BinaryWriter) (value : ℤ) : BinaryWriter :=
  (((writer.writeByte value).writeByte (value >>> (8 : ℕ))).writeByte (value >>> (16 : ℕ))).writeByte
    (value >>> (24 : ℕ))

/-- The same, for the unsigned value, whose shifts are masked. -/
def writeU32 (writer : BinaryWriter) (value : ℤ) : BinaryWriter :=
  (((writer.writeByte (value % 256)).writeByte ((value >>> (8 : ℕ)) % 256)).writeByte
    ((value >>> (16 : ℕ)) % 256)).writeByte (value >>> (24 : ℕ))

def writeBytes (writer : BinaryWriter) (source : Bytes) : BinaryWriter :=
  let writer := writer.ensure source.length
  ⟨copyInto writer.buffer source writer.used, writer.used + source.length⟩

def writeF64 (host : Host F) (writer : BinaryWriter) (value : F) : BinaryWriter :=
  writer.writeBytes (doubleBytes (host.toBits value))

/-- A count of bytes, and the bytes of the text. -/
def writeStr (host : Host F) (writer : BinaryWriter) (value : Str) : BinaryWriter :=
  let encoded := host.encodeUtf8 value
  (writer.writeI32 (asI32 encoded.length)).writeBytes encoded

def finish (writer : BinaryWriter) : Bytes :=
  writer.buffer.take writer.used

end BinaryWriter

/-- The visitor's write half. -/
def binarySerialize (host : Host F) : Serialize BinaryWriter F where
  beginStruct writer _ := writer
  field writer _ := writer
  endStruct writer := writer
  beginList writer length := writer.writeI32 length
  endList writer := writer
  beginVariant writer name _ := writer.writeStr host name
  endVariant writer := writer
  nullValue writer := writer.writeByte 0
  someValue writer := writer.writeByte 1
  strValue writer value := writer.writeStr host value
  i32Value writer value := writer.writeI32 value
  u32Value writer value := writer.writeU32 value
  i53Value writer value := writer.writeF64 host (host.ofInt value)
  f64Value writer value := writer.writeF64 host value
  boolValue writer value := writer.writeByte (if value then 1 else 0)

/-! ### The read side -/

/-- The four bytes of a word, joined. -/
def joined (b₀ b₁ b₂ b₃ : UInt8) : ℕ :=
  b₀.toNat ||| b₁.toNat <<< 8 ||| b₂.toNat <<< 16 ||| b₃.toNat <<< 24

/-- The eight bytes of a double, joined. -/
def doubleOf (bytes : Bytes) : UInt64 :=
  (bytes.foldr (fun b above => b.toNat + above <<< 8) 0).toUInt64

/-- A checked cursor over a frame, with the first failure. -/
structure BinaryReader where
  bytes : Bytes
  cursor : ℕ
  error : Option Str

/-- The decimal text of a number. -/
def decimal (n : ℕ) : Str :=
  ascii (toString n)

namespace BinaryReader

def new (bytes : Bytes) : BinaryReader :=
  ⟨bytes, 0, none⟩

def ok (reader : BinaryReader) : Bool :=
  reader.error.isNone

/-- The first failure is kept. -/
def report (reader : BinaryReader) (reason : Str) : BinaryReader :=
  match reader.error with
  | some _ => reader
  | none => { reader with error := some reason }

/-- Whether so many more bytes exist, and a failure when they do not. -/
def expect (reader : BinaryReader) (count : ℕ) : Bool × BinaryReader :=
  if !reader.ok then (false, reader)
  else if reader.bytes.length < reader.cursor + count then
    (false, reader.report (ascii "unexpected end of frame"))
  else (true, reader)

def get (reader : BinaryReader) (index : ℕ) : UInt8 :=
  reader.bytes.getD index 0

def readByte (reader : BinaryReader) : ℤ × BinaryReader :=
  match reader.expect 1 with
  | (false, reader) => (0, reader)
  | (true, reader) =>
      ((reader.get reader.cursor).toNat, { reader with cursor := reader.cursor + 1 })

def readWord (reader : BinaryReader) (convert : ℕ → ℤ) : ℤ × BinaryReader :=
  match reader.expect 4 with
  | (false, reader) => (0, reader)
  | (true, reader) =>
      let at_ := reader.cursor
      (convert (joined (reader.get at_) (reader.get (at_ + 1)) (reader.get (at_ + 2))
        (reader.get (at_ + 3))), { reader with cursor := at_ + 4 })

/-- The top bit of the word is the sign. -/
def readI32 (reader : BinaryReader) : ℤ × BinaryReader :=
  reader.readWord fun word => asI32 word

def readU32 (reader : BinaryReader) : ℤ × BinaryReader :=
  reader.readWord fun word => word

def slice (reader : BinaryReader) (start stop : ℕ) : Bytes :=
  (reader.bytes.drop start).take (stop - start)

def readF64 (host : Host F) (reader : BinaryReader) : F × BinaryReader :=
  match reader.expect 8 with
  | (false, reader) => (host.ofInt 0, reader)
  | (true, reader) =>
      let at_ := reader.cursor
      (host.ofBits (doubleOf (reader.slice at_ (at_ + 8))), { reader with cursor := at_ + 8 })

/-- A count that must fit the bytes that follow. -/
def readLength (reader : BinaryReader) : ℕ × BinaryReader :=
  let (length, reader) := reader.readI32
  if length < 0 ∨ (reader.bytes.length : ℤ) < reader.cursor + asUsize length then
    (0, reader.report (ascii "length prefix exceeds frame"))
  else (length.toNat, reader)

def readStr (host : Host F) (reader : BinaryReader) : Str × BinaryReader :=
  let (length, reader) := reader.readLength
  match reader.expect length with
  | (false, reader) => ([], reader)
  | (true, reader) =>
      let at_ := reader.cursor
      (host.decodeUtf8 (reader.slice at_ (at_ + length)), { reader with cursor := at_ + length })

/-- The marker of an option is peeked, and consumed when the value follows. -/
def isNull (reader : BinaryReader) : Bool × BinaryReader :=
  match reader.expect 1 with
  | (false, reader) => (false, reader)
  | (true, reader) =>
      let marker := reader.get reader.cursor
      if marker = 0 then (true, reader)
      else if marker ≠ 1 then
        (false, reader.report
          (ascii "expected an Option marker (0 or 1), found " ++ decimal marker.toNat))
      else (false, { reader with cursor := reader.cursor + 1 })

def boolValue (reader : BinaryReader) : Bool × BinaryReader :=
  let (value, reader) := reader.readByte
  if 1 < value then
    (false, reader.report
      (ascii "expected a boolean (0 or 1), found " ++ decimal value.toNat))
  else (value = 1, reader)

end BinaryReader

/-- The visitor's read half. -/
def binaryDeserialize (host : Host F) : Deserialize BinaryReader F where
  beginStruct reader := reader
  field reader _ := reader
  endStruct reader := reader
  beginList reader := (asI32 reader.readLength.1, reader.readLength.2)
  endList reader := reader
  variantTag reader := reader.readStr host
  beginVariant reader _ _ := reader
  endVariant reader := reader
  isNull reader := reader.isNull
  nullValue reader := reader.readByte.2
  strValue reader := reader.readStr host
  i32Value reader := reader.readI32
  u32Value reader := reader.readU32
  i53Value reader := (reader.readF64 host).map host.trunc id
  f64Value reader := reader.readF64 host
  boolValue reader := reader.boolValue
  fail reader reason := reader.report reason
  failed reader := reader.error

/-! ### The codec -/

/-- Encode a value of a wire type. -/
def encodeBinary (host : Host F) (program : Program F H) (type : Ty) (value : Value F) : Bytes :=
  (describe program (binarySerialize host) type value .new).finish

/-- What a frame decodes as, once the value is rebuilt: a frame that is longer than the value is
refused. -/
def BinaryReader.conclude (length : ℕ) (result : Value F × BinaryReader) :
    Except Str (Value F) :=
  let (value, reader) := result
  let reader :=
    if reader.ok ∧ reader.cursor < length then
      reader.report
        (ascii "frame has " ++ decimal (length - reader.cursor) ++ ascii " byte(s) left unread")
    else reader
  match reader.error with
  | none => .ok value
  | some reason => .error reason

/-- Decode a frame as a value of a wire type, with calls at most so deep. -/
def decodeBinary [DecidableEq H] (host : Host F) (program : Program F H) (depth : ℕ) (type : Ty)
    (bytes : Bytes) : Option (Except Str (Value F)) :=
  (rebuild host program (binaryDeserialize host) depth type (.new bytes)).map
    (BinaryReader.conclude bytes.length)

/-- What a frame decodes as. -/
def DecodesBinary [DecidableEq H] (host : Host F) (program : Program F H) (type : Ty)
    (bytes : Bytes) (result : Except Str (Value F)) : Prop :=
  ∃ depth, decodeBinary host program depth type bytes = some result

end Vilan.Wire
