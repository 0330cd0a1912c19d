import Vilan.Core.Literals

/-!
# The lexer

One scan from the front of a source to its end, which cuts it into tokens.  Where the scan stands is
told by what is left of the source, and a place is reported as its offset in bytes.  A lexeme that
begins nowhere is reported and stepped over.
-/

namespace Vilan.Core.Lexing

open Vilan.Http (isWhitespace isHexDigit)

inductive Token where
  | async
  | await
  | bool (value : Bool)
  | ctrl (c : Char)
  | css
  | else_
  | enum
  | export_
  | external
  | for_
  | fun_
  | hash
  | ident (name : List Char)
  | if_
  | impl
  | import_
  | in_
  | is
  | let_
  | macro_
  | match_
  | mod
  | mut
  | null
  | number (whole : List Char) (fraction suffix : Option (List Char))
  | op (operator : List Char)
  | const
  | ret
  | string (body : List Char)
  | multilineString (raw : List Char)
  | struct
  | trait
  | type
  | use
  deriving DecidableEq, Repr

/-- A part of the source, by the offsets of its first byte and of the byte behind its last. -/
structure Span where
  start : ℕ
  stop : ℕ
  deriving DecidableEq, Repr

abbrev Spanned := Token × Span

/-- The rule that a lexing error states. -/
inductive LexRule where
  | statement (text : String)
  | escape (kind : EscapeErrorKind) (length : ℕ)
  deriving DecidableEq, Repr

/-- A character that the lexer could not turn into a token, and where it is. -/
structure LexError where
  position : ℕ
  character : Char
  rule : Option LexRule
  deriving DecidableEq, Repr

def keywords : List (List Char × Token) := [
  ("async".toList, .async),
  ("await".toList, .await),
  ("const".toList, .const),
  ("css".toList, .css),
  ("else".toList, .else_),
  ("enum".toList, .enum),
  ("export".toList, .export_),
  ("external".toList, .external),
  ("false".toList, .bool false),
  ("for".toList, .for_),
  ("fun".toList, .fun_),
  ("if".toList, .if_),
  ("impl".toList, .impl),
  ("import".toList, .import_),
  ("in".toList, .in_),
  ("is".toList, .is),
  ("let".toList, .let_),
  ("macro".toList, .macro_),
  ("match".toList, .match_),
  ("mod".toList, .mod),
  ("mut".toList, .mut),
  ("null".toList, .null),
  ("ret".toList, .ret),
  ("struct".toList, .struct),
  ("trait".toList, .trait),
  ("type".toList, .type),
  ("true".toList, .bool true),
  ("use".toList, .use)]

/-- The pairs of characters that are one operator. -/
def twoCharacterOperators : List (List Char) :=
  ["!=", "%=", "&&", "*=", "+=", "-=", "/=", "::", "==", "=>", "||"].map String.toList

def isIdentStart (c : Char) : Bool :=
  c.isAlpha || c = '_'

def isIdentContinue (c : Char) : Bool :=
  c.isAlphanum || c = '_'

def isOperatorByte (c : Char) : Bool :=
  c ∈ ['-', ':', '!', '*', '/', '+', '=', '|', '&', '^', '?', '%']

def isControlByte (c : Char) : Bool :=
  c ∈ ['(', ')', '[', ']', '{', '}', '<', '>', ';', ',', '.']

/-- The braces delimit a hole, and are not control characters in it. -/
def isHoleControlByte (c : Char) : Bool :=
  isControlByte c && c ≠ '{' && c ≠ '}'

def isLineBreak (c : Char) : Bool :=
  c = '\n' || c = '\r'

/-! ### What an error says -/

def atIsNotAToken : String :=
  "`@` is not a vilan token; a `css` block has no at-rules — a media query is a breakpoint " ++
  "combinator (`.md \x7b … \x7d`), and a declaration block under a selector of your own is " ++
  "`std::web::style::declare`"

def holeIsNotAnExpression : String :=
  "an interpolation hole holds one expression, and `\x7b` and `\x7d` delimit it: a nested brace — a " ++
  "block, a `match`, an `if`, a struct literal — ends the hole early; bind the value with a `let` " ++
  "first and write its name in the hole"

def unescapedBrace : String :=
  "a literal `\x7d` inside an interpolated string is written `\\\x7d`: an unescaped brace belongs " ++
  "to a `\x7bexpr\x7d` hole"

def lineBreakInString : String :=
  "a string cannot span lines unless it is triple-quoted: close it before the line break; " ++
  "multi-line text goes in `\"\"\"…\"\"\"` (`i\"\"\"…\"\"\"` when interpolating), and a single " ++
  "line break is written `\\n`"

/-! ### Readers -/

/-- The offset of what is left of a source of so many bytes. -/
def position (size : ℕ) (rest : List Char) : ℕ :=
  size - lenUtf8 rest

/-- The whole run of whitespace and comments is skipped.  A comment ends before its line feed. -/
def skipTrivia : ℕ → List Char → List Char
  | 0, rest => rest
  | fuel + 1, rest =>
      let rest := rest.dropWhile isWhitespace
      if ['/', '/'].isPrefixOf rest then skipTrivia fuel ((rest.drop 2).dropWhile (· ≠ '\n'))
      else rest

/-- A type suffix, which is never read as a keyword. -/
def readOptionalSuffix (rest : List Char) : Option (List Char) × List Char :=
  match rest with
  | c :: tail =>
      if isIdentStart c then
        (some (c :: tail.takeWhile isIdentContinue), tail.dropWhile isIdentContinue)
      else (none, c :: tail)
  | [] => (none, [])

/-- A fraction, which is a point and at least one digit. -/
def readFraction (rest : List Char) : Option (List Char) × List Char :=
  if ['.'].isPrefixOf rest ∧ ((rest.drop 1).head?.any Char.isDigit) then
    (some ((rest.drop 1).takeWhile Char.isDigit), (rest.drop 1).dropWhile Char.isDigit)
  else (none, rest)

/-- The whole part of a decimal number: a zero stands alone. -/
def readWhole (rest : List Char) : List Char × List Char :=
  if ['0'].isPrefixOf rest then (['0'], rest.drop 1)
  else (rest.takeWhile Char.isDigit, rest.dropWhile Char.isDigit)

/-- A number.  What is left begins with a digit. -/
def readNumber (rest : List Char) : Token × List Char :=
  if ['0', 'x'].isPrefixOf rest ∧ ((rest.drop 2).head?.any isHexDigit) then
    let whole := ['0', 'x'] ++ (rest.drop 2).takeWhile isHexDigit
    let suffix := readOptionalSuffix ((rest.drop 2).dropWhile isHexDigit)
    (.number whole none suffix.1, suffix.2)
  else
    let whole := readWhole rest
    let fraction := readFraction whole.2
    let suffix := readOptionalSuffix fraction.2
    (.number whole.1 fraction.1 suffix.1, suffix.2)

/-- The token of a name: a keyword, if it is one. -/
def identifierToken (text : List Char) : Token :=
  ((keywords.find? (·.1 = text)).map Prod.snd).getD (.ident text)

/-- A name or a keyword.  What is left begins with the start of a name. -/
def readIdentifier (rest : List Char) : Token × List Char :=
  (identifierToken (rest.take 1 ++ (rest.drop 1).takeWhile isIdentContinue),
    (rest.drop 1).dropWhile isIdentContinue)

/-- An operator, the longest that there is. -/
def readOperator (rest : List Char) (allowArrow : Bool) : Token × List Char :=
  if twoCharacterOperators.contains (rest.take 2) ∧ (rest.take 2 ≠ ['=', '>'] ∨ allowArrow) then
    (.op (rest.take 2), rest.drop 2)
  else (.op (rest.take 1), rest.drop 1)

/-- How the scan of a quoted body ends: it is closed, a line ends in it, or there is nothing more. -/
inductive BodyScan where
  | complete (content rest : List Char)
  | lineBreak (content rest : List Char)
  | unterminated
  deriving DecidableEq, Repr

/-- The scan of a body with some characters before it. -/
def BodyScan.behind (front : List Char) : BodyScan → BodyScan
  | .complete content rest => .complete (front ++ content) rest
  | .lineBreak content rest => .lineBreak (front ++ content) rest
  | .unterminated => .unterminated

/-- The body of a quoted string, behind its opening quote.  The quotes are written with a backslash,
or they are not. -/
def scanBody (escaped : Bool) : List Char → BodyScan
  | [] => .unterminated
  | '\\' :: [] => .unterminated
  | '\\' :: c :: rest =>
      if escaped ∧ c = '"' then .complete [] rest
      else if isLineBreak c then .lineBreak [] (c :: rest)
      else (scanBody escaped rest).behind ['\\', c]
  | c :: rest =>
      if !escaped ∧ c = '"' then .complete [] rest
      else if isLineBreak c then .lineBreak [] (c :: rest)
      else (scanBody escaped rest).behind [c]

def quotes : List Char := ['"', '"', '"']

/-- How the scan of a string ends. -/
inductive StringScan where
  | complete (token : Token) (rest : List Char)
  | lineBreak (content rest : List Char)
  | unterminated
  deriving DecidableEq, Repr

/-- A quoted body as a token. -/
def BodyScan.string : BodyScan → StringScan
  | .complete content rest => .complete (.string content) rest
  | .lineBreak content rest => .lineBreak content rest
  | .unterminated => .unterminated

/-- A string literal.  What is left begins with its quote, or with three. -/
def readString (rest : List Char) : StringScan :=
  if quotes.isPrefixOf rest then
    match Search.cut quotes (rest.drop 3) with
    | none => .unterminated
    | some (content, behind) => .complete (.multilineString content) behind
  else (scanBody false (rest.drop 1)).string

/-- A string literal whose quotes are written with a backslash. -/
def readEscapedQuoteString (rest : List Char) : StringScan :=
  (scanBody true (rest.drop 2)).string

/-- The errors in a body that begins at an offset. -/
def checkEscapes (start : ℕ) (body : List Char) : List LexError :=
  (escapeErrors body).map fun error =>
    ⟨start + error.offset, '\\', some (.escape error.kind error.length)⟩

/-- The errors in the body of a quoted string; a triple-quoted text has no escapes. -/
def checkTokenEscapes (start : ℕ) : Token → List LexError
  | .string body => checkEscapes start body
  | _ => []

/-! ### Holes -/

/-- What a part of the scan yields: tokens, errors, and what is left of the source. -/
structure Lexed where
  tokens : List Spanned
  errors : List LexError
  rest : List Char
  deriving DecidableEq, Repr

/-- The token of a string in a hole, which begins at an offset and has its body at another.  A string
that does not close is none. -/
def StringScan.holeToken (size start body : ℕ) :
    StringScan → Option (Spanned × List LexError × List Char)
  | .complete token behind =>
      some ((token, ⟨start, position size behind⟩), checkTokenEscapes body token, behind)
  | .lineBreak _ _ => none
  | .unterminated => none

/-- A token in a hole, if one begins here. -/
def lexHoleToken (size : ℕ) (rest : List Char) : Option (Spanned × List LexError × List Char) :=
  let spanned := fun (read : Token × List Char) =>
    some ((read.1, (⟨position size rest, position size read.2⟩ : Span)), [], read.2)
  match rest with
  | [] => none
  | first :: tail =>
      let escapedQuote := first = '\\' ∧ ['"'].isPrefixOf tail
      if first = '"' ∨ escapedQuote then
        if escapedQuote then
          (readEscapedQuoteString rest).holeToken size (position size rest)
            (position size (rest.drop 2))
        else
          (readString rest).holeToken size (position size rest) (position size (rest.drop 1))
      else if first.isDigit then spanned (readNumber rest)
      else if isIdentStart first then spanned (readIdentifier rest)
      else if isOperatorByte first then spanned (readOperator rest false)
      else if isHoleControlByte first then spanned (.ctrl first, tail)
      else none

/-- How the tokens of a hole end: at what is left of the source, or nowhere. -/
structure HoleScan where
  tokens : List Spanned
  errors : List LexError
  close : Option (List Char)
  deriving DecidableEq, Repr

/-- The scan of a hole with a token before it. -/
def HoleScan.behind (token : Spanned) (errors : List LexError) (scan : HoleScan) : HoleScan where
  tokens := token :: scan.tokens
  errors := errors ++ scan.errors
  close := scan.close

/-- The tokens of a hole, up to where it is closed.  A string that does not close ends it as well: at
its quote, so that the body is scanned on from there. -/
def holeTokens (size : ℕ) : ℕ → List Char → HoleScan
  | 0, rest => ⟨[], [], some rest⟩
  | fuel + 1, rest =>
      match rest.dropWhile isWhitespace with
      | [] => ⟨[], [], some []⟩
      | '}' :: tail => ⟨[], [], some ('}' :: tail)⟩
      | first :: tail =>
          match lexHoleToken size (first :: tail) with
          | some (token, errors, behind) => (holeTokens size fuel behind).behind token errors
          | none =>
              if first = '"' then ⟨[], [], some (first :: tail)⟩
              else if first = '\\' ∧ ['"'].isPrefixOf tail then ⟨[], [], some tail⟩
              else ⟨[], [], none⟩

/-- The scan over a hole that is not an expression: up to the brace that matches the first, and not
past the end of a line or a quote. -/
def resynchronize : ℕ → List Char → List Char
  | _, [] => []
  | depth, c :: rest =>
      if c = '{' then resynchronize (depth + 1) rest
      else if c = '}' then if depth - 1 = 0 then rest else resynchronize (depth - 1) rest
      else if isLineBreak c ∨ c = '"' then c :: rest
      else resynchronize depth rest

/-- A hole.  What is left begins with its brace. -/
def lexHole (size : ℕ) (rest : List Char) : Lexed :=
  let scan := holeTokens size rest.length (rest.drop 1)
  match scan.close with
  | some close =>
      let span : Span := ⟨position size rest, position size close + 1⟩
      ⟨(.ctrl '(', span) :: scan.tokens ++ [(.ctrl ')', span)], scan.errors, close.drop 1⟩
  | none =>
      let behind := resynchronize 0 rest
      ⟨[(.string [], ⟨position size rest, position size behind⟩)],
        scan.errors ++ [⟨position size rest, '{', some (.statement holeIsNotAnExpression)⟩], behind⟩

/-! ### Interpolated strings -/

/-- A part of an interpolated string. -/
inductive IStringPart where
  | text (text : List Char)
  | hole (tokens : List Spanned)
  deriving DecidableEq, Repr

def IStringPart.tokens (whole : Span) : IStringPart → List Spanned
  | .text body => [(.string body, whole)]
  | .hole inner => inner

/-- The tokens of the concatenation that an interpolated string stands for. -/
def emitInterpolated (parts : List IStringPart) (whole : Span) : List Spanned :=
  [(.ctrl '(', whole), (.string [], whole)] ++
    parts.flatMap (fun part => (.op ['+'], whole) :: part.tokens whole) ++ [(.ctrl ')', whole)]

/-- How the body of an interpolated string ends. -/
inductive IStringEnd where
  | close
  | lineBreak
  | unterminated
  deriving DecidableEq, Repr

/-- The scan of the body of an interpolated string: its parts, the errors in it, how it ends and what
is left there. -/
structure IStringScan where
  parts : List IStringPart
  errors : List LexError
  ending : IStringEnd
  rest : List Char
  deriving DecidableEq, Repr

/-- The scan of a body with a part before it. -/
def IStringScan.behind (part : IStringPart) (errors : List LexError) (scan : IStringScan) :
    IStringScan :=
  { scan with parts := part :: scan.parts, errors := errors ++ scan.errors }

/-- The characters that end a run of text in an interpolated string. -/
def endsText (c : Char) : Bool :=
  c = '{' || c = '}' || c = '"' || c = '\\' || isLineBreak c

/-- The body of an interpolated string. -/
def interpolatedBody (size : ℕ) : ℕ → List Char → IStringScan
  | 0, rest => ⟨[], [], .unterminated, rest⟩
  | _ + 1, [] => ⟨[], [], .unterminated, []⟩
  | fuel + 1, c :: tail =>
      let rest := c :: tail
      if c = '"' then ⟨[], [], .close, rest⟩
      else if isLineBreak c then ⟨[], [], .lineBreak, rest⟩
      else if c = '{' then
        let hole := lexHole size rest
        (interpolatedBody size fuel hole.rest).behind (.hole hole.tokens) hole.errors
      else if c = '\\' then
        match tail with
        | [] => ⟨[], [], .unterminated, rest⟩
        | escaped :: behind =>
            if escaped = '{' ∨ escaped = '}' then
              (interpolatedBody size fuel behind).behind (.text [escaped]) []
            else if isLineBreak escaped then ⟨[], [], .lineBreak, tail⟩
            else
              match readEscape rest with
              | .ok (_, length) =>
                  (interpolatedBody size fuel (dropBytes length rest)).behind
                    (.text (takeBytes length rest)) []
              | .error error =>
                  (interpolatedBody size fuel (dropBytes (max error.length 1) rest)).behind
                    (.text (takeBytes (max error.length 1) rest))
                    [⟨position size rest, '\\', some (.escape error.kind error.length)⟩]
      else if c = '}' then ⟨[], [⟨position size rest, c, none⟩], .unterminated, tail⟩
      else
        (interpolatedBody size fuel (rest.dropWhile (!endsText ·))).behind
          (.text (rest.takeWhile (!endsText ·))) []

/-- An interpolated string on one line.  What is left begins with its letter. -/
def lexInterpolated (size : ℕ) (rest : List Char) : Lexed :=
  let scan := interpolatedBody size rest.length (rest.drop 2)
  match scan.ending with
  | .close =>
      let behind := scan.rest.drop 1
      ⟨emitInterpolated scan.parts ⟨position size rest, position size behind⟩, scan.errors, behind⟩
  | .lineBreak =>
      ⟨emitInterpolated scan.parts ⟨position size rest, position size scan.rest⟩,
        scan.errors ++ [⟨position size rest, 'i', some (.statement lineBreakInString)⟩], scan.rest⟩
  | .unterminated => ⟨[], scan.errors ++ [⟨position size rest, 'i', none⟩], scan.rest⟩

/-- One literal backslash, as a fragment spells it. -/
def rawBackslash : List Char := ['\\', '\\']

/-- What is left of a source, up to where the content of a literal ends. -/
def within (stop rest : List Char) : List Char :=
  rest.take (rest.length - stop.length)

/-- Past the indentation of a content line, or to the end of a line that is shorter. -/
def skipMultilineIndentation (indentation stop rest : List Char) : List Char :=
  if indentation.isPrefixOf (within stop rest) then rest.drop indentation.length
  else rest.drop ((within stop rest).takeWhile (· ≠ '\n')).length

/-- The fragments that a backslash begins, how many characters it takes along, and whether they end a
line. -/
def multilineEscape : List Char → List (List Char) × ℕ × Bool
  | [] => ([rawBackslash], 0, false)
  | c :: behind =>
      if c = '{' ∨ c = '}' then ([[c]], 1, false)
      else
        let taken := if c = '\r' ∧ ['\n'].isPrefixOf behind then ['\r', '\n'] else [c]
        ([rawBackslash, if c = '\\' then rawBackslash else taken], taken.length,
          taken.getLast? = some '\n')

/-- A run of text in the content of a literal, which ends with its line. -/
def multilineText : List Char → List Char
  | [] => []
  | c :: rest =>
      if c = '{' ∨ c = '}' ∨ c = '\\' then []
      else if c = '\n' then [c]
      else c :: multilineText rest

/-- The parts of the content of a literal, up to where it ends. -/
def multilineParts (size : ℕ) (indentation stop : List Char) :
    ℕ → Bool → List Char → List IStringPart × List LexError
  | 0, _, _ => ([], [])
  | fuel + 1, atLineStart, rest =>
      if rest.length ≤ stop.length then ([], [])
      else if atLineStart then
        multilineParts size indentation stop fuel false
          (skipMultilineIndentation indentation stop rest)
      else if ['{'].isPrefixOf rest then
        let hole := lexHole size rest
        let behind := multilineParts size indentation stop fuel false hole.rest
        (.hole hole.tokens :: behind.1, hole.errors ++ behind.2)
      else if ['}'].isPrefixOf rest then
        let behind := multilineParts size indentation stop fuel false (rest.drop 1)
        (.text ['}'] :: behind.1,
          ⟨position size rest, '}', some (.statement unescapedBrace)⟩ :: behind.2)
      else if ['\\'].isPrefixOf rest then
        let escape := multilineEscape (within stop (rest.drop 1))
        let behind := multilineParts size indentation stop fuel escape.2.2
          (rest.drop (1 + escape.2.1))
        (escape.1.map .text ++ behind.1, behind.2)
      else
        let text := multilineText (within stop rest)
        let behind := multilineParts size indentation stop fuel (text.getLast? = some '\n')
          (rest.drop text.length)
        (.text text :: behind.1, behind.2)

/-- A triple-quoted interpolated string.  What is left begins with its letter. -/
def lexInterpolatedMultiline (size : ℕ) (rest : List Char) : Lexed :=
  let inside := rest.drop 4
  match Search.cut quotes inside with
  | none => ⟨[], [⟨position size rest, 'i', none⟩], []⟩
  | some (raw, behind) =>
      let whole : Span := ⟨position size rest, position size behind⟩
      match multilineLayout raw with
      | .error _ => ⟨[(.multilineString raw, whole)], [], behind⟩
      | .ok layout =>
          let content := inside.drop layout.before.length
          -- the carriage return of the last content line belongs to its end
          let stop := content.drop (stripCarriageReturn layout.content).length
          let parts := multilineParts size layout.indentation stop (2 * content.length + 2) true
            content
          ⟨emitInterpolated parts.1 whole, parts.2, behind⟩

/-! ### The scan -/

/-- A character that begins no token is reported and stepped over. -/
def skipIllegal (size : ℕ) (rest : List Char) : Lexed :=
  match rest with
  | [] => ⟨[], [], []⟩
  | c :: tail =>
      let rule := if c = '@' then some (.statement atIsNotAToken) else none
      ⟨[], [⟨position size rest, c, rule⟩], tail⟩

/-- A token that was read. -/
def Lexed.read (size : ℕ) (rest : List Char) (read : Token × List Char) : Lexed :=
  ⟨[(read.1, ⟨position size rest, position size read.2⟩)], [], read.2⟩

/-- A string literal, which may not be closed. -/
def lexString (size : ℕ) (rest : List Char) : Lexed :=
  match readString rest with
  | .complete token behind =>
      ⟨[(token, ⟨position size rest, position size behind⟩)],
        checkTokenEscapes (position size (rest.drop 1)) token, behind⟩
  | .lineBreak content behind =>
      ⟨[(.string content, ⟨position size rest, position size behind⟩)],
        ⟨position size rest, '"', some (.statement lineBreakInString)⟩ ::
          checkEscapes (position size (rest.drop 1)) content,
        behind⟩
  | .unterminated => skipIllegal size rest

/-- One lexeme.  What is left is neither trivia nor empty. -/
def lexOne (size : ℕ) (rest : List Char) : Lexed :=
  match rest with
  | [] => ⟨[], [], []⟩
  | first :: tail =>
      if ['i', '"'].isPrefixOf rest then
        if quotes.isPrefixOf (rest.drop 1) then lexInterpolatedMultiline size rest
        else lexInterpolated size rest
      else if first = '"' then lexString size rest
      else if first.isDigit then Lexed.read size rest (readNumber rest)
      else if first = '#' then Lexed.read size rest (.hash, tail)
      else if isIdentStart first then Lexed.read size rest (readIdentifier rest)
      else if isOperatorByte first then Lexed.read size rest (readOperator rest true)
      else if isControlByte first then Lexed.read size rest (.ctrl first, tail)
      else skipIllegal size rest

/-- What a scan yields in the end. -/
structure Stream where
  tokens : List Spanned
  errors : List LexError
  deriving DecidableEq, Repr

/-- Lexeme after lexeme, to the end. -/
def run (size : ℕ) : ℕ → List Char → Stream
  | 0, _ => ⟨[], []⟩
  | fuel + 1, rest =>
      match skipTrivia (rest.length + 1) rest with
      | [] => ⟨[], []⟩
      | first :: tail =>
          let lexed := lexOne size (first :: tail)
          let more := run size fuel lexed.rest
          ⟨lexed.tokens ++ more.tokens, lexed.errors ++ more.errors⟩

/-- The tokens of a source, and the errors in it. -/
def tokenize (source : List Char) : Stream :=
  run (lenUtf8 source) (source.length + 1) source

end Vilan.Core.Lexing
