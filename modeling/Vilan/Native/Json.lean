import Mathlib.Data.List.Basic

/-!
# The native JSON parser

The host value `std::json` is written against, and its parser, a recursive descent over the
characters of a text.  The position of the parser is the text that remains.  A number is read
by the language's own parser of floats.

The loops take a character a turn at least, so the length of the text bounds their turns.
-/

namespace Vilan.Native

/-- A parsed JSON value.  Strings and numbers are the host's. -/
inductive JsonValue (S F : Type) where
  | undefined
  | null
  | bool (value : Bool)
  | number (value : F)
  | text (value : S)
  | array (items : List (JsonValue S F))
  /-- In the order of insertion. -/
  | object (entries : List (S × JsonValue S F))

namespace JsonParser

variable {F : Type}

/-- The largest nesting depth the parser descends to. -/
def maxDepth : ℕ := 512

/-- JSON's whitespace is exactly these four characters. -/
def isWhitespace (c : Char) : Bool :=
  c = ' ' || c = '\t' || c = '\n' || c = '\r'

def skipWhitespace (input : List Char) : List Char :=
  input.dropWhile isWhitespace

/-- Eat an expected character. -/
def eat (expected : Char) : List Char → Option (List Char)
  | c :: rest => if c = expected then some rest else none
  | [] => none

/-- Eat the characters of a word. -/
def literal (word input : List Char) : Option (List Char) :=
  word.foldlM (fun input expected => eat expected input) input

/-! ### Strings -/

/-- The value of a digit of a radix up to sixteen. -/
def toDigit (radix : ℕ) (c : Char) : Option ℕ :=
  let digit :=
    if '0' ≤ c ∧ c ≤ '9' then c.toNat - '0'.toNat
    else if 'a' ≤ c ∧ c ≤ 'f' then c.toNat - 'a'.toNat + 10
    else if 'A' ≤ c ∧ c ≤ 'F' then c.toNat - 'A'.toNat + 10
    else radix
  if digit < radix then some digit else none

/-- The character of a code point, unless it is a surrogate or out of range. -/
def fromU32 (code : ℕ) : Option Char :=
  if code.isValidChar then some (Char.ofNat code) else none

/-- Four hexadecimal digits. -/
def hex4 : List Char → Option (ℕ × List Char)
  | a :: b :: c :: d :: rest => do
      let a ← toDigit 16 a
      let b ← toDigit 16 b
      let c ← toDigit 16 c
      let d ← toDigit 16 d
      some (((a * 16 + b) * 16 + c) * 16 + d, rest)
  | _ => none

/-- The escape of a low surrogate. -/
def lowSurrogate (input : List Char) : Option (ℕ × List Char) := do
  let input ← eat '\\' input
  let input ← eat 'u' input
  let (second, rest) ← hex4 input
  if 0xDC00 ≤ second ∧ second < 0xE000 then some (second, rest) else none

/-- One `\uXXXX`, and the low half of a surrogate pair when it is a high surrogate.  A lone
surrogate becomes U+FFFD. -/
def escape (input : List Char) : Option (Char × List Char) := do
  let (first, rest) ← hex4 input
  if 0xD800 ≤ first ∧ first < 0xDC00 then
    match lowSurrogate rest with
    | some (second, rest) =>
        some ((fromU32 (0x10000 + (first - 0xD800) <<< 10 + (second - 0xDC00))).getD '\uFFFD', rest)
    | none => some ('\uFFFD', rest)
  else if 0xDC00 ≤ first ∧ first < 0xE000 then some ('\uFFFD', rest)
  else (fromU32 first).map fun c => (c, rest)

/-- The character an escape of one character stands for. -/
def simpleEscape (c : Char) : Option Char :=
  if c = '"' then some '"'
  else if c = '\\' then some '\\'
  else if c = '/' then some '/'
  else if c = 'b' then some '\x08'
  else if c = 'f' then some '\x0c'
  else if c = 'n' then some '\n'
  else if c = 'r' then some '\r'
  else if c = 't' then some '\t'
  else none

/-- What follows a backslash. -/
def escaped : List Char → Option (Char × List Char)
  | 'u' :: rest => escape rest
  | c :: rest => (simpleEscape c).map fun c => (c, rest)
  | [] => none

/-- The characters of a string, and its closing quote. -/
def stringBody : ℕ → List Char → List Char → Option (List Char × List Char)
  | 0, _, _ => none
  | _ + 1, _, [] => none
  | fuel + 1, out, c :: rest =>
      if c = '"' then some (out, rest)
      else if c = '\\' then do
        let (found, rest) ← escaped rest
        stringBody fuel (out ++ [found]) rest
      else if c < ' ' then none
      else stringBody fuel (out ++ [c]) rest

/-- A string. -/
def string (input : List Char) : Option (List Char × List Char) := do
  let rest ← eat '"' input
  stringBody (rest.length + 1) [] rest

/-! ### Numbers -/

def isDigit (c : Char) : Bool :=
  (toDigit 10 c).isSome

def digits (input : List Char) : List Char :=
  input.dropWhile isDigit

/-- Digits, of which there is one at least. -/
def someDigits : List Char → Option (List Char)
  | c :: rest => if isDigit c then some (digits (c :: rest)) else none
  | [] => none

/-- What follows the integer part of a number, which has no leading zero. -/
def integerPart : List Char → Option (List Char)
  | c :: rest =>
      if c = '0' then some rest
      else if '1' ≤ c ∧ c ≤ '9' then some (digits rest)
      else none
  | [] => none

/-- What follows the fraction of a number, if it has one. -/
def fractionPart (input : List Char) : Option (List Char) :=
  match eat '.' input with
  | some rest => someDigits rest
  | none => some input

/-- What follows the exponent of a number, if it has one. -/
def exponentPart (input : List Char) : Option (List Char) :=
  match (eat 'e' input).or (eat 'E' input) with
  | some rest => someDigits (((eat '+' rest).or (eat '-' rest)).getD rest)
  | none => some input

/-- What follows a number: an optional sign, an integer part, an optional fraction and an
optional exponent. -/
def scanNumber (input : List Char) : Option (List Char) := do
  let rest ← integerPart ((eat '-' input).getD input)
  let rest ← fractionPart rest
  exponentPart rest

/-- A number, read by the parser of floats. -/
def number (parseF64 : List Char → Option F) (input : List Char) :
    Option (JsonValue (List Char) F × List Char) := do
  let rest ← scanNumber input
  let value ← parseF64 (input.take (input.length - rest.length))
  some (.number value, rest)

/-! ### Aggregates -/

/-- The items of an aggregate, separated by commas, and its closing bracket. -/
def items {A B : Type} (close : Char) (item : List Char → Option (A × List Char))
    (push : B → A → B) : ℕ → B → List Char → Option (B × List Char)
  | 0, _, _ => none
  | fuel + 1, pushed, input => do
      let (found, rest) ← item (skipWhitespace input)
      match skipWhitespace rest with
      | next :: rest =>
          if next = ',' then items close item push fuel (push pushed found) rest
          else if next = close then some (push pushed found, rest)
          else none
      | [] => none

/-- An aggregate of items, or an empty one. -/
def aggregate {A B : Type} (opener close : Char) (item : List Char → Option (A × List Char))
    (push : B → A → B) (empty : B) (input : List Char) : Option (B × List Char) := do
  let rest ← eat opener input
  let rest := skipWhitespace rest
  match eat close rest with
  | some rest => some (empty, rest)
  | none => items close item push (rest.length + 1) empty rest

/-- Assign to a property: a repeated key keeps its first position and its last value. -/
def assign {V : Type} : List (List Char × V) → List Char × V → List (List Char × V)
  | [], entry => [entry]
  | known :: rest, entry =>
      if known.1 = entry.1 then (known.1, entry.2) :: rest else known :: assign rest entry

/-- An array, whose items are values. -/
def array (value : List Char → Option (JsonValue (List Char) F × List Char))
    (input : List Char) : Option (JsonValue (List Char) F × List Char) :=
  (aggregate '[' ']' value (fun items item => items ++ [item]) [] input).map fun found =>
    (.array found.1, found.2)

/-- A key and its value. -/
def member {V : Type} (value : List Char → Option (V × List Char)) (input : List Char) :
    Option ((List Char × V) × List Char) := do
  let (key, rest) ← string input
  let rest ← eat ':' (skipWhitespace rest)
  let (found, rest) ← value (skipWhitespace rest)
  some ((key, found), rest)

/-- An object, whose items are members. -/
def object (value : List Char → Option (JsonValue (List Char) F × List Char))
    (input : List Char) : Option (JsonValue (List Char) F × List Char) :=
  (aggregate '{' '}' (member value) assign [] input).map fun found =>
    (.object found.1, found.2)

/-- A value of at most so many levels of nesting. -/
def value (parseF64 : List Char → Option F) :
    ℕ → List Char → Option (JsonValue (List Char) F × List Char)
  | 0, _ => none
  | _ + 1, [] => none
  | levels + 1, c :: rest =>
      if c = 'n' then (literal "null".toList (c :: rest)).map fun rest => (.null, rest)
      else if c = 't' then (literal "true".toList (c :: rest)).map fun rest => (.bool true, rest)
      else if c = 'f' then (literal "false".toList (c :: rest)).map fun rest => (.bool false, rest)
      else if c = '"' then (string (c :: rest)).map fun found => (.text found.1, found.2)
      else if c = '[' then array (value parseF64 levels) (c :: rest)
      else if c = '{' then object (value parseF64 levels) (c :: rest)
      else if c = '-' ∨ ('0' ≤ c ∧ c ≤ '9') then number parseF64 (c :: rest)
      else none

end JsonParser

open JsonParser in
/-- Parse a document: a value, and nothing but whitespace around it. -/
def tryParse {F : Type} (parseF64 : List Char → Option F) (text : List Char) :
    Option (JsonValue (List Char) F) := do
  let (found, rest) ← value parseF64 (maxDepth + 1) (skipWhitespace text)
  if skipWhitespace rest = [] then some found else none

end Vilan.Native
