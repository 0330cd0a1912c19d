import Vilan.Std.Text

/-!
# Text off the wire

The parts of the host's strings that the parsers of requests use: a string is the list of its
characters.
-/

namespace Vilan.Http

/-- The text that bytes encode, unless they are not UTF-8. -/
def fromUtf8 (bytes : Bytes) : Option (List Char) :=
  (String.fromUTF8? ⟨bytes.toArray⟩).map String.toList

/-- The characters with the property `White_Space`. -/
def isWhitespace (c : Char) : Bool :=
  let code := c.toNat
  9 ≤ code && code ≤ 13 || code = 0x20 || code = 0x85 || code = 0xA0 || code = 0x1680 ||
    0x2000 ≤ code && code ≤ 0x200A || code = 0x2028 || code = 0x2029 || code = 0x202F ||
      code = 0x205F || code = 0x3000

/-- Without the characters at the end that have a property. -/
def trimEnd (p : Char → Bool) (text : List Char) : List Char :=
  (text.reverse.dropWhile p).reverse

/-- Without the whitespace around it. -/
def trim (text : List Char) : List Char :=
  trimEnd isWhitespace (text.dropWhile isWhitespace)

def isHexDigit (c : Char) : Bool :=
  '0' ≤ c && c ≤ '9' || 'a' ≤ c && c ≤ 'f' || 'A' ≤ c && c ≤ 'F'

/-- The value of a digit, in either case. -/
def digitValue (c : Char) : ℕ :=
  if '0' ≤ c && c ≤ '9' then c.toNat - '0'.toNat
  else if 'a' ≤ c && c ≤ 'z' then c.toNat - 'a'.toNat + 10
  else c.toNat - 'A'.toNat + 10

/-- The number that digits spell in a radix. -/
def number (radix : ℕ) (digits : List Char) : ℕ :=
  digits.foldl (fun value c => value * radix + digitValue c) 0

/-- The values of a `usize`. -/
def usizeBound : ℕ := 2 ^ 64

end Vilan.Http
