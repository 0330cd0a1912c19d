import Mathlib.Data.UInt

/-!
# Strings and bytes

A string of the host is the list of its UTF-16 code units, whether or not they pair up, and a
byte buffer is the list of its bytes.
-/

namespace Vilan

/-- A string. -/
abbrev Str := List UInt16

/-- A byte buffer. -/
abbrev Bytes := List UInt8

/-- The code unit of a character that is one. -/
def unit (c : Char) : UInt16 :=
  c.toNat.toUInt16

/-- The string that a literal spells whose characters are one code unit each. -/
def ascii (text : String) : Str :=
  text.toList.map fun c => c.toNat.toUInt16

namespace Str

/-- Split a string on each occurrence of a separator of one code unit. -/
def split (text : Str) (separator : UInt16) : List Str :=
  text.splitOn separator

/-- The part of a string between two indices. -/
def substring (text : Str) (start stop : ℕ) : Str :=
  (text.drop start).take (stop - start)

end Str

end Vilan
