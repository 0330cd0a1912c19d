import Vilan.Http.Body
import Vilan.Library.Utf8

/-!
# Request heads

The end of a head is found in the bytes of the buffer, and the request line and the fields in the
text before it.  The fields say how the body behind the head is delimited.
-/

namespace Vilan.Http

/-- A text off the wire. -/
abbrev Text := List Char

/-- A request head, parsed off the wire. -/
structure Head where
  method : Text
  target : Text
  /-- Lowercased names and their values, in wire order. -/
  fields : List (Text × Text)
  /-- How many bytes of the head were consumed. -/
  length : ℕ
  deriving DecidableEq

/-- Why a head could not be read. -/
inductive HeadError where
  /-- Not all of it has arrived. -/
  | incomplete
  /-- It will never be a request. -/
  | refused (status : ℕ) (reason : String)
  deriving DecidableEq

def badRequest : HeadError :=
  .refused 400 "Bad Request"

/-- The end of the head behind so many bytes. -/
def headEndAfter (index : ℕ) : Bytes → Option ℕ
  | [] => none
  | b :: rest =>
      if [carriageReturn, lineFeed, carriageReturn, lineFeed].isPrefixOf (b :: rest) then
        some (index + 4)
      else if [lineFeed, lineFeed].isPrefixOf (b :: rest) then some (index + 2)
      else headEndAfter (index + 1) rest

/-- The end of the head: behind the first empty line whose line end is that of the line before. -/
def headEnd (buffer : Bytes) : Option ℕ :=
  headEndAfter 0 buffer

/-- What is before a character, and what is after it. -/
def splitOnce (c : Char) (text : Text) : Option (Text × Text) :=
  match text.dropWhile (· ≠ c) with
  | [] => none
  | _ :: rest => some (text.takeWhile (· ≠ c), rest)

def toAsciiLowercase (text : Text) : Text :=
  text.map Char.toLower

/-- What stands between the values of a repeated field. -/
def separator (name : Text) : Text :=
  if name = "set-cookie".toList then [','] else [',', ' ']

/-- A value is joined to the field of its name, or is that of a new field. -/
def joinField (name value : Text) : List (Text × Text) → List (Text × Text)
  | [] => [(name, value)]
  | (known, existing) :: fields =>
      if known = name then (known, existing ++ separator name ++ value) :: fields
      else (known, existing) :: joinField name value fields

/-- The fields on lines up to an empty one, joined to those before. -/
def readFields : List Text → List (Text × Text) → Except HeadError (List (Text × Text))
  | [], fields => .ok fields
  | line :: lines, fields =>
      if line = [] then .ok fields
      else
        match splitOnce ':' line with
        | none => .error badRequest
        | some (name, value) =>
            -- a proxy that trims the name and one that does not disagree about the message
            if name.getLast? = some ' ' ∨ name.getLast? = some '\t' then .error badRequest
            else readFields lines (joinField (toAsciiLowercase name) (trim value) fields)

/-- The head in a text that so many bytes encode. -/
def parseText (length : ℕ) (text : Text) : Except HeadError Head :=
  match (text.splitOn '\n').map (trimEnd (· = '\r')) with
  | [] => .error badRequest
  | requestLine :: lines =>
      match (requestLine.splitOn ' ').filter (· ≠ []) with
      | method :: target :: _ => do
          let fields ← readFields lines []
          .ok ⟨method, target, fields, length⟩
      | _ => .error badRequest

/-- Parse one request head out of a buffer. -/
def parseHead (buffer : Bytes) : Except HeadError Head :=
  match headEnd buffer with
  | none =>
      .error (if maxHead < buffer.length then .refused 431 "Request Header Fields Too Large"
        else .incomplete)
  | some length =>
      match fromUtf8 (buffer.take length) with
      | none => .error badRequest
      | some text => parseText length text

/-- A field's value, in lower case. -/
def Head.field (head : Head) (wanted : Text) : Option Text :=
  (head.fields.find? (·.1 = wanted)).map fun field => toAsciiLowercase (trim field.2)

def isDigit (c : Char) : Bool :=
  '0' ≤ c && c ≤ '9'

/-- A number without the plus sign before it. -/
def unsigned (text : Text) : Text :=
  if text.head? = some '+' then text.tail else text

/-- The `usize` that a text spells: digits, with or without a plus sign before them. -/
def parseUsize (text : Text) : Option ℕ :=
  let digits := unsigned text
  if digits.isEmpty || !digits.all isDigit then none
  else if number 10 digits < usizeBound then some (number 10 digits)
  else none

def contentLength : Text := "content-length".toList

def transferEncoding : Text := "transfer-encoding".toList

/-- The body's framing, or a refusal. -/
def bodyFraming (head : Head) : Except HeadError Framing :=
  let length := head.field contentLength
  match head.field transferEncoding with
  | some coding =>
      if length.isSome then .error badRequest
      else if (coding.splitOn ',').map trim ≠ ["chunked".toList] then
        .error (.refused 501 "Not Implemented")
      else .ok .chunked
  | none =>
      match length with
      | none => .ok .empty
      | some value =>
          match parseUsize value with
          | some 0 => .ok .empty
          | some length => .ok (.length length)
          | none => .error badRequest

end Vilan.Http
