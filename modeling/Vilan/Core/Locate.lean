import Vilan.Core.LineBreaks
import Vilan.Library.Utf8Slice

/-!
# The original places

The places of the marks of a source map in their sources.  Each source is swept once, in the order
of the offsets, by the line breaks between one offset and the next.  A slice inside a character would
panic, which is `none`.
-/

namespace Vilan.Core.SourceMap

/-- The original side of a segment of the source map. -/
structure Original where
  source : ℕ
  text : List Char
  line : ℕ
  column : ℕ

/-- An anchor of a mark: its source, its offset there and the index of the mark. -/
abbrev Anchored := ℕ × ℕ × ℕ

/-- How far a source is swept, the lines before that and where its line starts. -/
structure Sweep where
  source : ℕ
  swept : ℕ
  line : ℕ
  lineStart : ℕ

namespace Sweep

/-- Where the sweep of a source goes on, or begins. -/
def resume (sweep : Option Sweep) (source : ℕ) : Sweep :=
  match sweep with
  | some state => if state.source = source then state else ⟨source, 0, 0, 0⟩
  | none => ⟨source, 0, 0, 0⟩

/-- Sweep on to an offset of a text, and say its place. -/
def advance (state : Sweep) (text : List Char) (offset : ℕ) : Option (Sweep × Original) := do
  let bytes := Utf8.encode text
  if state.swept ≤ offset ∧ offset ≤ bytes.length then
    let (breaks, last) := lineBreaks ((bytes.drop state.swept).take (offset - state.swept))
    let line := (state.line + breaks) % 2 ^ 32
    let lineStart :=
      match last with
      | some last => state.swept + last
      | none => state.lineStart
    let column ← Utf8.slice bytes lineStart offset
    some (⟨state.source, offset, line, lineStart⟩, ⟨state.source, text, line, utf16Length column⟩)
  else none

/-- The sweep over anchors, with the index of each one's mark. -/
def run (texts : ℕ → Option (List Char)) :
    Option Sweep → List Anchored → Option (List (ℕ × Original))
  | _, [] => some []
  | sweep, (source, offset, index) :: anchored => do
      let text ← texts source
      let (state, original) ← advance (resume sweep source) text offset
      let rest ← run texts (some state) anchored
      some ((index, original) :: rest)

/-- The order of the anchors: by source, by offset, by mark. -/
def before (a b : Anchored) : Bool :=
  a.1 < b.1 || a.1 = b.1 && (a.2.1 < b.2.1 || a.2.1 = b.2.1 && a.2.2 ≤ b.2.2)

end Sweep

/-- Each mark's anchor in a source with text, between two of its characters. -/
def anchoredAt (texts : ℕ → Option (List Char)) (mark : Option (ℕ × ℕ) × ℕ) : Option Anchored := do
  let (source, offset) ← mark.1
  let text ← texts source
  if offset ≤ (Utf8.encode text).length ∧ Utf8.isCharBoundary (Utf8.encode text) offset then
    some (source, offset, mark.2)
  else none

/-- Every mark's original place, or `none` where it has none.  A mark comes with its source and
its offset there, when it has them. -/
def locate (texts : ℕ → Option (List Char)) (marks : List (Option (ℕ × ℕ))) :
    Option (List (Option Original)) := do
  let anchored := (marks.zipIdx.filterMap (anchoredAt texts)).mergeSort Sweep.before
  let places ← Sweep.run texts none anchored
  some (places.foldl (fun originals (index, original) => originals.set index (some original))
    (List.replicate marks.length none))

end Vilan.Core.SourceMap
