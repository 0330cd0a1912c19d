import Vilan.Core.Locate
import Vilan.Library.Mappings
import Vilan.Library.Table

/-!
# Source maps

The printer leaves a mark character wherever a segment of the map is to go.  The marks are stripped
out of the text, each is given its generated place and its original one, and the segments are
written in generated order, each field relative to the one before.

Counts are 32 bits, and wrap.  An index into the sources or the names of a map is a number: there
are no more of them than marks.
-/

namespace Vilan.Core

/-- A source the map points into. -/
structure MapSource where
  path : List Char
  url : Option (List Char)
  content : Option (List Char)
  ignored : Bool
deriving DecidableEq

structure SourceMap where
  sources : List MapSource
  names : List (List Char)
  mappings : List Char

namespace SourceMap

/-- The character the printer writes at a mark. -/
def markChar : Char := Char.ofNat 0xFDD0

inductive MarkKind
  | statement
  | call
  | function
  | closure
deriving DecidableEq

/-- What a mark stands for. -/
structure SourceMark where
  kind : MarkKind
  id : ℕ

/-- What the map reads of a program. -/
structure Program where
  /-- The texts of its sources. -/
  texts : ℕ → Option (List Char)
  /-- The source and the offset that a mark's entity points at, if it is in a real file. -/
  anchor : SourceMark → Option (ℕ × ℕ)
  /-- The paths of its sources, and whether they are of the standard library. -/
  sources : ℕ → Option (List Char × Bool)
  /-- The names of its functions. -/
  functions : ℕ → Option (List Char)

/-- The synthetic source of the runtime helpers. -/
def runtimeUrl : List Char := "vilan:///runtime.js".toList

/-- The largest file whose text a map carries. -/
def sourcesContentCap : ℕ := 256 * 1024

/-- The source of the runtime helpers. -/
def runtimeSource (helpers : List Char) : MapSource where
  path := []
  url := some runtimeUrl
  content := some helpers
  ignored := true

/-- A file of the program.  It carries its text unless it is of the standard library, or large. -/
def mapSource (path : List Char) (isStd : Bool) (text : List Char) : MapSource where
  path
  url := none
  content := if !isStd ∧ (Utf8.encode text).length ≤ sourcesContentCap then some text else none
  ignored := isStd

/-! ### The strip -/

/-- A generated position, in lines and UTF-16 units. -/
structure Position where
  line : ℕ
  column : ℕ
deriving DecidableEq

/-- Move past a text. -/
def Position.advance (position : Position) (text : List Char) : Option Position :=
  match lineBreaks (Utf8.encode text) with
  | (0, _) => some { position with column := (position.column + utf16Length text) % 2 ^ 32 }
  | (_, none) => some { position with column := (position.column + utf16Length text) % 2 ^ 32 }
  | (breaks, some last) => do
      let line ← Utf8.slice (Utf8.encode text) last (Utf8.encode text).length
      some ⟨(position.line + breaks) % 2 ^ 32, utf16Length line⟩

/-- The text without its marks, and the marks at their generated places.  When the marks run out of
records, the rest is not paired. -/
def strip (text : List Char) (records : List SourceMark) (paired : Bool) (position : Position) :
    Option (List Char × List (Position × SourceMark)) :=
  match _behind : text.dropWhile (· ≠ markChar) with
  | [] => some (text, [])
  | _ :: rest => do
      let before := text.takeWhile (· ≠ markChar)
      let position ← position.advance before
      match records with
      | mark :: records =>
          let (clean, placed) ← strip rest records paired position
          some (before ++ clean, if paired then (position, mark) :: placed else placed)
      | [] =>
          let (clean, placed) ← strip rest [] false position
          some (before ++ clean, placed)
termination_by text.length
decreasing_by
  all_goals
    have le := (List.dropWhile_suffix (l := text) (· ≠ markChar)).length_le
    rw [_behind, List.length_cons] at le
    omega

/-! ### The writer -/

/-- One number, its sign in the lowest bit, five bits a digit from the lowest. -/
def vlqDigits (rest : ℕ) : List Char :=
  let digit := rest &&& 31
  if 0 < rest >>> 5 then Mappings.base64.getD (digit ||| 32) 'A' :: vlqDigits (rest >>> 5)
  else [Mappings.base64.getD digit 'A']
termination_by rest
decreasing_by
  rw [Nat.shiftRight_eq_div_pow] at *
  omega

def vlq (value : ℤ) : List Char :=
  vlqDigits (if value < 0 then (-value).toNat <<< 1 ||| 1 else value.toNat <<< 1)

structure MapWriter where
  map : SourceMap
  sourceSlots : Table ℕ (Option ℕ)
  names : Table (List Char) ℕ
  lastGenerated : Option Position
  previousGeneratedColumn : ℕ
  previousSource : ℕ
  previousLine : ℕ
  previousColumn : ℕ
  previousName : ℕ

namespace MapWriter

def new : MapWriter where
  map := ⟨[], [], []⟩
  sourceSlots := Table.empty
  names := Table.empty
  lastGenerated := none
  previousGeneratedColumn := 0
  previousSource := 0
  previousLine := 0
  previousColumn := 0
  previousName := 0

/-- The writer with more text in its mappings. -/
def push (writer : MapWriter) (text : List Char) : MapWriter :=
  { writer with map := { writer.map with mappings := writer.map.mappings ++ text } }

/-- One segment, each field relative to the one before it. -/
def write (writer : MapWriter) (generated : Position) (source line column : ℕ) (name : Option ℕ) :
    MapWriter :=
  let lineChanged :=
    match writer.lastGenerated with
    | some last => decide (last.line ≠ generated.line)
    | none => true
  let previousLine := (writer.lastGenerated.map (·.line)).getD 0
  let writer :=
    if lineChanged then
      { writer.push (List.replicate (generated.line - previousLine) ';') with
        previousGeneratedColumn := 0 }
    else writer.push [',']
  let writer := writer.push (vlq (generated.column - writer.previousGeneratedColumn))
  let writer := writer.push (vlq (source - writer.previousSource))
  let writer := writer.push (vlq (line - writer.previousLine))
  let writer := writer.push (vlq (column - writer.previousColumn))
  let writer :=
    match name with
    | some name => { writer.push (vlq (name - writer.previousName)) with previousName := name }
    | none => writer
  { writer with
    previousGeneratedColumn := generated.column
    previousSource := source
    previousLine := line
    previousColumn := column
    lastGenerated := some generated }

/-- The index of a source, which is listed when it is first met. -/
def sourceSlot (program : Program) (writer : MapWriter) (source : ℕ) (text : List Char) :
    MapWriter × Option ℕ :=
  match writer.sourceSlots.get source with
  | some slot => (writer, slot)
  | none =>
      match program.sources source with
      | some (path, isStd) =>
          let slot := writer.map.sources.length
          ({ writer with
              map := { writer.map with
                sources := writer.map.sources ++ [mapSource path isStd text] }
              sourceSlots := writer.sourceSlots.insert source (some slot) }, some slot)
      | none => ({ writer with sourceSlots := writer.sourceSlots.insert source none }, none)

/-- The index of a name, which is listed when it is first met. -/
def nameSlot (writer : MapWriter) (name : List Char) : MapWriter × ℕ :=
  match writer.names.get name with
  | some slot => (writer, slot)
  | none =>
      let slot := writer.map.names.length
      ({ writer with
          map := { writer.map with names := writer.map.names ++ [name] }
          names := writer.names.insert name slot }, slot)

/-- The segment of a mark, unless one stands at its place. -/
def segment (program : Program) (writer : MapWriter) (generated : Position) (mark : SourceMark)
    (original : Original) : MapWriter :=
  if writer.lastGenerated = some generated then writer
  else
    match sourceSlot program writer original.source original.text with
    | (writer, none) => writer
    | (writer, some source) =>
        match mark.kind, program.functions mark.id with
        | .function, some name =>
            let (writer, name) := writer.nameSlot name
            writer.write generated source original.line original.column (some name)
        | _, _ => writer.write generated source original.line original.column none

/-- The lines of the runtime helpers that are not empty, from the `index`-th on. -/
def runtimeLines (firstLine source : ℕ) : MapWriter → ℕ → List (List Char) → MapWriter
  | writer, _, [] => writer
  | writer, index, line :: lines =>
      if line = [] then runtimeLines firstLine source writer (index + 1) lines
      else
        let generated : Position := ⟨(firstLine + index % 2 ^ 32) % 2 ^ 32, 0⟩
        let writer := writer.write generated source (index % 2 ^ 32) 0 none
        runtimeLines firstLine source writer (index + 1) lines

/-- The runtime helpers, a source of their own. -/
def runtime (writer : MapWriter) (firstLine : ℕ) (helpers : List Char) : MapWriter :=
  let source := writer.map.sources.length
  let writer :=
    { writer with
      map := { writer.map with
        sources := writer.map.sources ++ [runtimeSource helpers] } }
  writer.runtimeLines firstLine source 0 (helpers.splitOn '\n')

/-- The writer behind the runtime helpers, if there are any. -/
def withRuntime : Option (ℕ × List Char) → MapWriter
  | some (firstLine, helpers) => new.runtime firstLine helpers
  | none => new

/-- The segments of the marks that have an original place. -/
def segments (program : Program) : MapWriter → List ((Position × SourceMark) × Option Original) →
    MapWriter
  | writer, [] => writer
  | writer, ((generated, mark), some original) :: rest =>
      segments program (writer.segment program generated mark original) rest
  | writer, (_, none) :: rest => segments program writer rest

end MapWriter

/-- The text of the runtime helpers and the generated line it starts on. -/
def helpersOf (text : List Char) (runtime : Option (ℕ × ℕ)) : Option (ℕ × List Char) := do
  let (start, stop) ← runtime
  let helpers ← Utf8.slice (Utf8.encode text) start stop
  if helpers = [] then none
  else some ((lineBreaks ((Utf8.encode text).take start)).1, helpers)

/-- Strip the marks and build the map they describe. -/
def stripMarks (program : Program) (text : List Char) (marks : List SourceMark)
    (runtime : Option (ℕ × ℕ)) : Option (List Char × SourceMap) := do
  let (clean, placed) ← strip text marks true ⟨0, 0⟩
  let originals ← locate program.texts (placed.map fun place => program.anchor place.2)
  let writer := MapWriter.withRuntime (helpersOf text runtime)
  some (clean, (writer.segments program (placed.zip originals)).map)

/-- The map for its script with lines written in front of it. -/
def shiftLines (map : SourceMap) (lines : ℕ) : SourceMap :=
  if lines = 0 ∨ map.mappings = [] then map
  else { map with mappings := List.replicate lines ';' ++ map.mappings }

end SourceMap

end Vilan.Core
