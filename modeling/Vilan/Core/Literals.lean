import Vilan.Http.Text
import Vilan.Library.Search

/-!
# The text of a literal

What the body of a string literal says: the escapes of a quoted one, and the lines of a
triple-quoted one.  A text is the list of its characters; the lengths and offsets that the lexer
reports are in bytes.
-/

namespace Vilan.Core.Lexing

open Vilan.Http (isWhitespace trim trimEnd isHexDigit number usizeBound)

/-- The length of a text in bytes. -/
def lenUtf8 (text : List Char) : ℕ :=
  (text.map Char.utf8Size).sum

/-- A text without its first so many bytes. -/
def dropBytes : ℕ → List Char → List Char
  | 0, text => text
  | _ + 1, [] => []
  | length + 1, c :: text => dropBytes (length + 1 - c.utf8Size) text

/-- The first so many bytes of a text. -/
def takeBytes : ℕ → List Char → List Char
  | 0, _ => []
  | _ + 1, [] => []
  | length + 1, c :: text => c :: takeBytes (length + 1 - c.utf8Size) text

/-- A carriage return and a line feed are one line end. -/
def normalizeNewlines : List Char → List Char
  | [] => []
  | '\r' :: '\n' :: text => '\n' :: normalizeNewlines text
  | c :: text => c :: normalizeNewlines text

/-! ### Escapes -/

/-- Why a sequence is not an escape. -/
inductive EscapeErrorKind where
  | unknown
  | hex
  | unicode
  | pastLastCodePoint
  | loneSurrogate
  deriving DecidableEq, Repr

/-- A refused escape: where its backslash is in the body, how many bytes are refused, and why. -/
structure EscapeError where
  offset : ℕ
  length : ℕ
  kind : EscapeErrorKind
  deriving DecidableEq, Repr

/-- How many hexadecimal digits open a text, up to a limit. -/
def hexRun (text : List Char) (limit : ℕ) : ℕ :=
  ((text.take limit).takeWhile isHexDigit).length

/-- The character that an escape of one character stands for. -/
def simpleEscape : Char → Option Char
  | 'n' => some '\n'
  | 't' => some '\t'
  | 'r' => some '\r'
  | 'b' => some (Char.ofNat 0x8)
  | 'f' => some (Char.ofNat 0xC)
  | 'v' => some (Char.ofNat 0xB)
  | '0' => some (Char.ofNat 0)
  | '"' => some '"'
  | '\'' => some '\''
  | '\\' => some '\\'
  | '{' => some '{'
  | '}' => some '}'
  | _ => none

/-- The character with a code, unless it is the code of a surrogate or past the last. -/
def fromU32 (value : ℕ) : Option Char :=
  if value.isValidChar then some (Char.ofNat value) else none

/-- The character of an escape with a value that was read off so many bytes of a text.  The high half
of a surrogate pair takes the low half behind it along. -/
def codePoint (text : List Char) (value length : ℕ) (braced : Bool) :
    Except EscapeError (Char × ℕ) :=
  if 0x10FFFF < value then .error ⟨0, length, .pastLastCodePoint⟩
  else
    let rest := text.drop length
    let low := number 16 ((rest.drop 2).take 4)
    if 0xD800 ≤ value ∧ value < 0xDC00 ∧ !braced ∧ ['\\', 'u'].isPrefixOf rest ∧
        hexRun (rest.drop 2) 4 = 4 ∧ 0xDC00 ≤ low ∧ low < 0xE000 then
      .ok (Char.ofNat (0x10000 + (value - 0xD800) * 2 ^ 10 + (low - 0xDC00)), length + 6)
    else
      match fromU32 value with
      | some c => .ok (c, length)
      | none => .error ⟨0, length, .loneSurrogate⟩

/-- The escape with four digits, or with some in braces, that opens a text. -/
def readUnicodeEscape (text : List Char) : Except EscapeError (Char × ℕ) :=
  if ['{'].isPrefixOf (text.drop 2) then
    let digits := hexRun (text.drop 3) (usizeBound - 1)
    if digits = 0 ∨ ¬ ['}'].isPrefixOf (text.drop (3 + digits)) then
      .error ⟨0, 3 + digits, .unicode⟩
    else
      let length := 3 + digits + 1
      let written := ((text.drop 3).take digits).dropWhile (· = '0')
      if 6 < written.length then .error ⟨0, length, .pastLastCodePoint⟩
      else codePoint text (number 16 written) length true
  else
    let digits := hexRun (text.drop 2) 4
    if digits < 4 then .error ⟨0, 2 + digits, .unicode⟩
    else codePoint text (number 16 ((text.drop 2).take 4)) 6 false

/-- The escape that opens a text: its character and its bytes, or why it is not one. -/
def readEscape (text : List Char) : Except EscapeError (Char × ℕ) :=
  match text.drop 1 with
  | [] => .error ⟨0, 1, .unknown⟩
  | escaped :: rest =>
      match simpleEscape escaped with
      | some c => .ok (c, 2)
      | none =>
          if escaped = 'x' then
            let digits := hexRun rest 2
            if digits < 2 then .error ⟨0, 2 + digits, .hex⟩
            else .ok (Char.ofNat (number 16 (rest.take 2)), 4)
          else if escaped = 'u' then readUnicodeEscape text
          else .error ⟨0, 1 + escaped.utf8Size, .unknown⟩

/-- The refused escapes of what is left of a body, which begins at an offset. -/
def escapeErrorsFrom : ℕ → ℕ → List Char → List EscapeError
  | 0, _, _ => []
  | _ + 1, _, [] => []
  | fuel + 1, offset, c :: text =>
      if c ≠ '\\' then escapeErrorsFrom fuel (offset + c.utf8Size) text
      else
        match readEscape (c :: text) with
        | .ok (_, length) =>
            escapeErrorsFrom fuel (offset + length) (dropBytes length (c :: text))
        | .error error =>
            { error with offset := offset } ::
              escapeErrorsFrom fuel (offset + max error.length 1)
                (dropBytes (max error.length 1) (c :: text))

/-- The refused escapes of a body. -/
def escapeErrors (body : List Char) : List EscapeError :=
  escapeErrorsFrom (body.length + 1) 0 body

/-- A text with its escapes read.  A sequence that is not an escape stays as it is written. -/
def decodeEscapes : ℕ → List Char → List Char
  | 0, _ => []
  | _ + 1, [] => []
  | fuel + 1, c :: text =>
      if c ≠ '\\' then c :: decodeEscapes fuel text
      else
        match readEscape (c :: text) with
        | .ok (character, length) => character :: decodeEscapes fuel (dropBytes length (c :: text))
        | .error error =>
            takeBytes (max error.length 1) (c :: text) ++
              decodeEscapes fuel (dropBytes (max error.length 1) (c :: text))

/-- The value of a literal. -/
def unescapeString (raw : List Char) : List Char :=
  decodeEscapes ((normalizeNewlines raw).length + 1) (normalizeNewlines raw)

/-! ### Triple-quoted text -/

/-- Without a carriage return at the end. -/
def stripCarriageReturn (line : List Char) : List Char :=
  if line.getLast? = some '\r' then line.dropLast else line

def isIndentation (text : List Char) : Bool :=
  text.all fun c => c = ' ' || c = '\t'

/-- What follows a prefix that a text begins with. -/
def stripPrefix (indentation text : List Char) : Option (List Char) :=
  if indentation.isPrefixOf text then some (text.drop indentation.length) else none

/-- What is before the last line feed, and what is behind it. -/
def rcutNewline (text : List Char) : Option (List Char × List Char) :=
  (Search.cut ['\n'] text.reverse).map fun parts => (parts.2.reverse, parts.1.reverse)

/-- The shape of a triple-quoted text: what stands before its content lines, these lines, and the
indentation that is not part of them. -/
structure MultilineLayout where
  before : List Char
  content : List Char
  indentation : List Char
  deriving DecidableEq, Repr

/-- Why a text has no such shape, and the bytes of it that are to blame. -/
abbrev LayoutError := String × ℕ × ℕ

/-- The first line that is not indented as the closing quotes are. -/
def unindentedLine (indentation : List Char) : ℕ → ℕ → List (List Char) → Option LayoutError
  | _, _, [] => none
  | index, lineStart, rawLine :: lines =>
      let line := stripCarriageReturn rawLine
      if ¬ indentation.isPrefixOf line ∧ ¬ isIndentation line then
        some ("line " ++ toString (index + 1) ++
          " of the triple-quoted string is not indented to its closing \"\"\" (every line must " ++
          "start with the whitespace that precedes the closing delimiter)",
          lineStart, lineStart + lenUtf8 line)
      else unindentedLine indentation (index + 1) (lineStart + lenUtf8 rawLine + 1) lines

/-- The content lines of a triple-quoted text. -/
def multilineLayout (raw : List Char) : Except LayoutError MultilineLayout :=
  match Search.cut ['\n'] raw with
  | none =>
      .error ("a triple-quoted string spans lines: the opening \"\"\" must be followed by a newline",
        0, lenUtf8 raw)
  | some (opener, behind) =>
      let openerRest := trimEnd (· = '\r') opener
      if trim openerRest ≠ [] then
        .error ("nothing may follow the opening \"\"\" on its line (found `" ++
          String.ofList (trim openerRest) ++ "`)",
          lenUtf8 openerRest - lenUtf8 (openerRest.dropWhile isWhitespace),
          lenUtf8 (trimEnd isWhitespace openerRest))
      else
        match rcutNewline behind with
        | none =>
            -- the first line feed is the last: there is no content line
            if ¬ isIndentation behind then
              .error ("the closing \"\"\" must sit alone on its line, preceded only by indentation",
                lenUtf8 opener + 1, lenUtf8 raw)
            else .ok ⟨opener, [], behind⟩
        | some (content, indentation) =>
            if ¬ isIndentation indentation then
              .error ("the closing \"\"\" must sit alone on its line, preceded only by indentation",
                lenUtf8 raw - lenUtf8 indentation, lenUtf8 raw)
            else
              match unindentedLine indentation 0 (lenUtf8 opener + 1) (content.splitOn '\n') with
              | some error => .error error
              | none => .ok ⟨opener ++ ['\n'], content, indentation⟩

/-- What a content line contributes. -/
def trimLine (indentation line : List Char) : List Char :=
  (stripPrefix indentation (stripCarriageReturn line)).getD []

/-- The value of a triple-quoted text. -/
def trimMultilineString (raw : List Char) : Except LayoutError (List Char) :=
  match multilineLayout raw with
  | .error error => .error error
  | .ok layout =>
      if layout.content = [] then .ok []
      else
        .ok (['\n'].intercalate
          ((layout.content.splitOn '\n').map (trimLine layout.indentation)))

end Vilan.Core.Lexing
