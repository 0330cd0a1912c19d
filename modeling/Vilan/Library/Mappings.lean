import Mathlib.Data.Nat.Bitwise
import Mathlib.Data.Int.Basic
import Mathlib.Data.List.Induction

/-!
# The mappings of a source map

The format of the `mappings` field of a source map, version 3.  A number is written in base 64 with
its sign in the lowest bit and five bits a digit.  `;` ends a generated line and `,` a segment, and
each field of a segment is written relative to the one before it.
-/

namespace Mappings

open List Option

/-! ### Numbers -/

/-- The digits of base 64. -/
def base64 : List Char :=
  "ABCDEFGHIJKLMNOPQRSTUVWXYZabcdefghijklmnopqrstuvwxyz0123456789+/".toList

/-- The value of the first number of a text, of which `value` is read up to a shift. -/
def readDigits (value shift : ℕ) : List Char → Option (ℕ × List Char)
  | [] => none
  | c :: text => do
      let digit ← base64.findIdx? (· = c)
      let value := value + (digit &&& 31) <<< shift
      if digit &&& 32 = 0 then some (value, text) else readDigits value (shift + 5) text

/-- The first number of a text, with its sign. -/
def readVlq (text : List Char) : Option (ℤ × List Char) := do
  let (value, text) ← readDigits 0 0 text
  some (if value &&& 1 = 1 then -((value >>> 1 : ℕ) : ℤ) else ((value >>> 1 : ℕ) : ℤ), text)

theorem length_readDigits {value shift : ℕ} {text rest : List Char} {read : ℕ}
    (h : readDigits value shift text = some (read, rest)) :
  rest.length < text.length
  := by
  induction text generalizing value shift with
  | nil => cases h
  | cons c text ih =>
    obtain ⟨digit, -, h⟩ := bind_eq_some_iff.mp h
    dsimp only at h
    split at h
    next =>
      cases h
      apply Nat.lt_succ_self
    next => exact Nat.lt_succ_of_lt (ih h)

theorem length_readVlq {text rest : List Char} {read : ℤ} (h : readVlq text = some (read, rest)) :
  rest.length < text.length
  := by
  obtain ⟨⟨value, text'⟩, here, h⟩ := bind_eq_some_iff.mp h
  cases h
  apply length_readDigits here

/-- The numbers of a segment. -/
def readFields (text : List Char) : Option (List ℤ) :=
  if text = [] then some []
  else
    match _read : readVlq text with
    | none => none
    | some (field, rest) => (readFields rest).map (field :: ·)
termination_by text.length
decreasing_by
  apply length_readVlq _read

/-! ### Segments -/

/-- A place of the generated text and where it comes from. -/
structure Segment where
  generatedLine : ℕ
  generatedColumn : ℤ
  source : ℤ
  line : ℤ
  column : ℤ
  name : Option ℤ

/-- A reader between two segments: the values that the next one is relative to, and the segments
it has read. -/
structure Reader where
  generatedLine : ℕ
  generatedColumn : ℤ
  source : ℤ
  line : ℤ
  column : ℤ
  name : ℤ
  segments : List Segment

namespace Reader

def start : Reader where
  generatedLine := 0
  generatedColumn := 0
  source := 0
  line := 0
  column := 0
  name := 0
  segments := []

/-- A segment of four numbers, or of five with a name. -/
def move (reader : Reader) (generatedColumn source line column : ℤ) (name : Option ℤ) : Reader :=
  let generatedColumn := reader.generatedColumn + generatedColumn
  let source := reader.source + source
  let line := reader.line + line
  let column := reader.column + column
  let name := name.map (reader.name + ·)
  { reader with
    generatedColumn, source, line, column
    name := name.getD reader.name
    segments := reader.segments ++
      [⟨reader.generatedLine, generatedColumn, source, line, column, name⟩] }

def segment (reader : Reader) (text : List Char) : Option Reader := do
  match ← readFields text with
  | [generatedColumn, source, line, column] =>
      some (reader.move generatedColumn source line column none)
  | [generatedColumn, source, line, column, name] =>
      some (reader.move generatedColumn source line column (some name))
  | _ => none

/-- The segments of a line, and on to the next. -/
def row (reader : Reader) (text : List Char) : Option Reader := do
  let reader ← ((text.splitOn ',').filter (· ≠ [])).foldlM segment { reader with generatedColumn := 0 }
  some { reader with generatedLine := reader.generatedLine + 1 }

end Reader

/-- The segments of a mapping. -/
def decode (mappings : List Char) : Option (List Segment) :=
  ((mappings.splitOn ';').foldlM Reader.row Reader.start).map Reader.segments

/-! ### Reading on -/

/-- The segments of the open line of a text bring a reader where it is. -/
structure Reads (text last : List Char) (reader : Reader) : Prop where
  read : ∃ init before, (∀ more, ';' ∉ more → (text ++ more).splitOn ';' = init ++ [last ++ more]) ∧
    init.foldlM Reader.row Reader.start = some before ∧
    ((last.splitOn ',').filter (· ≠ [])).foldlM Reader.segment { before with generatedColumn := 0 } =
      some reader

namespace Reads

theorem start : Reads [] [] Reader.start := by
  constructor
  refine ⟨[], Reader.start, ?_, rfl, rfl⟩
  intro more none_
  apply splitOn_eq_singleton none_

variable {text last : List Char} {reader : Reader}

theorem decode_eq (reads : Reads text last reader) : decode text = some reader.segments := by
  obtain ⟨init, before, split, rows, segments⟩ := reads.read
  have rows_eq := split [] (not_mem_nil)
  rw [append_nil, append_nil] at rows_eq
  rw [decode, rows_eq, foldlM_append, rows]
  dsimp only [bind_eq_bind, bind_some]
  rw [foldlM_cons, Reader.row, segments]
  rfl

/-- A line that ends. -/
theorem line (reads : Reads text last reader) :
  Reads (text ++ [';']) []
    { reader with generatedLine := reader.generatedLine + 1, generatedColumn := 0 }
  := by
  obtain ⟨init, before, split, rows, segments⟩ := reads.read
  have rows_eq := split [] (not_mem_nil)
  rw [append_nil, append_nil] at rows_eq
  constructor
  refine ⟨text.splitOn ';', { reader with generatedLine := reader.generatedLine + 1 }, ?_, ?_, rfl⟩
  · intro more none_
    rw [append_assoc, singleton_append, splitOn_append_cons_self, splitOn_eq_singleton none_]
    rfl
  · rw [rows_eq, foldlM_append, rows]
    dsimp only [bind_eq_bind, bind_some]
    rw [foldlM_cons, Reader.row, segments]
    rfl

/-- Lines that end, or none where a line has just begun. -/
theorem lines (reads : Reads text last reader) (count : ℕ)
    (fresh : count = 0 → last = [] ∧ reader.generatedColumn = 0) :
  Reads (text ++ List.replicate count ';') []
    { reader with generatedLine := reader.generatedLine + count, generatedColumn := 0 }
  := by
  induction count with
  | zero =>
    obtain ⟨rfl, column⟩ := fresh rfl
    have same : { reader with
        generatedLine := reader.generatedLine + 0
        generatedColumn := 0 } = reader := by
      rw [← column]
      rfl
    rw [same, replicate_zero, append_nil]
    apply reads
  | succ count ih =>
    cases count with
    | zero => exact reads.line
    | succ count =>
      have more := (ih fun zero => absurd zero (Nat.succ_ne_zero count)).line
      rw [append_assoc, ← replicate_succ'] at more
      apply more

/-- The first segment of a line. -/
theorem first (reads : Reads text [] reader) {segment : List Char} {reader' : Reader}
    (some_ : segment ≠ []) (no_line : ';' ∉ segment) (no_comma : ',' ∉ segment)
    (moved : reader.segment segment = some reader') :
  Reads (text ++ segment) segment reader'
  := by
  obtain ⟨init, before, split, rows, segments⟩ := reads.read
  cases segments
  constructor
  refine ⟨init, before, ?_, rows, ?_⟩
  · intro more none_
    have none_' : ';' ∉ segment ++ more := by
      rw [mem_append, not_or]
      exact ⟨no_line, none_⟩
    rw [append_assoc, split _ none_']
    rfl
  · rw [splitOn_eq_singleton no_comma, filter_cons_of_pos (by simpa using some_)]
    rw [filter_nil, foldlM_cons]
    dsimp only [bind_eq_bind]
    rw [moved]
    rfl

/-- One more segment of a line. -/
theorem next (reads : Reads text last reader) {segment : List Char} {reader' : Reader}
    (some_ : segment ≠ []) (no_line : ';' ∉ segment) (no_comma : ',' ∉ segment)
    (moved : reader.segment segment = some reader') :
  Reads (text ++ ',' :: segment) (last ++ ',' :: segment) reader'
  := by
  obtain ⟨init, before, split, rows, segments⟩ := reads.read
  constructor
  refine ⟨init, before, ?_, rows, ?_⟩
  · intro more none_
    have none_' : ';' ∉ ',' :: segment ++ more := by
      rw [cons_append, mem_cons, mem_append, not_or, not_or]
      exact ⟨by decide, no_line, none_⟩
    rw [append_assoc, split _ none_', append_assoc]
  · rw [splitOn_append_cons_self, splitOn_eq_singleton no_comma, filter_append,
      filter_cons_of_pos (by simpa using some_), filter_nil, foldlM_append, segments]
    dsimp only [bind_eq_bind, bind_some]
    rw [foldlM_cons, moved]
    rfl

end Reads

/-! ### Lines in front -/

/-- The segments so many lines further down. -/
def shift (lines : ℕ) (segments : List Segment) : List Segment :=
  segments.map fun segment => { segment with generatedLine := lines + segment.generatedLine }

namespace Reader

/-- A reader so many lines further down. -/
def down (lines : ℕ) (reader : Reader) : Reader :=
  { reader with
    generatedLine := lines + reader.generatedLine
    segments := shift lines reader.segments }

theorem down_move (lines : ℕ) (reader : Reader) (generatedColumn source line column : ℤ)
    (name : Option ℤ) :
  (reader.down lines).move generatedColumn source line column name =
    (reader.move generatedColumn source line column name).down lines
  := by
  simp only [move, down, shift, map_append, map_cons, map_nil]

theorem segment_down (lines : ℕ) (reader : Reader) (text : List Char) :
  (reader.down lines).segment text = (reader.segment text).map (down lines)
  := by
  rw [segment, segment]
  cases readFields text with
  | none => rfl
  | some fields =>
    dsimp only [bind_eq_bind, bind_some]
    split
    · rw [down_move]
      rfl
    · rw [down_move]
      rfl
    · rfl

theorem foldlM_segment_down (lines : ℕ) (texts : List (List Char)) (reader : Reader) :
  texts.foldlM segment (reader.down lines) = (texts.foldlM segment reader).map (down lines)
  := by
  induction texts generalizing reader with
  | nil => rfl
  | cons text texts ih =>
    rw [foldlM_cons, foldlM_cons, segment_down]
    cases reader.segment text with
    | none => rfl
    | some reader => exact ih reader

theorem row_down (lines : ℕ) (reader : Reader) (text : List Char) :
  (reader.down lines).row text = (reader.row text).map (down lines)
  := by
  have segments := foldlM_segment_down lines ((text.splitOn ',').filter (· ≠ []))
    { reader with generatedColumn := 0 }
  rw [row, row]
  refine (congrArg (Option.bind · _) segments).trans ?_
  cases List.foldlM segment { reader with generatedColumn := 0 } _ with
  | none => rfl
  | some reader => rfl

theorem foldlM_row_down (lines : ℕ) (texts : List (List Char)) (reader : Reader) :
  texts.foldlM row (reader.down lines) = (texts.foldlM row reader).map (down lines)
  := by
  induction texts generalizing reader with
  | nil => rfl
  | cons text texts ih =>
    rw [foldlM_cons, foldlM_cons, row_down]
    cases reader.row text with
    | none => rfl
    | some reader => exact ih reader

end Reader

/-- Lines in front of a mapping move each segment down by their number. -/
theorem decode_replicate (lines : ℕ) (mappings : List Char) :
  decode (List.replicate lines ';' ++ mappings) = (decode mappings).map (shift lines)
  := by
  have rows : ∀ reader, ((List.replicate lines ';' ++ mappings).splitOn ';').foldlM Reader.row reader =
      (mappings.splitOn ';').foldlM Reader.row
        (if lines = 0 then reader
          else { reader with
            generatedLine := reader.generatedLine + lines
            generatedColumn := 0 }) := by
    induction lines with
    | zero =>
      intro reader
      rfl
    | succ lines ih =>
      intro reader
      have split : (List.replicate (lines + 1) ';' ++ mappings).splitOn ';' =
          [] :: (List.replicate lines ';' ++ mappings).splitOn ';' :=
        splitOn_append_cons_self [] _
      rw [split, foldlM_cons]
      refine (ih _).trans ?_
      congr 1
      rw [if_neg (Nat.succ_ne_zero lines)]
      split
      next zero => rw [zero]
      next => rw [Nat.add_assoc, Nat.add_comm 1]
  have down : (if lines = 0 then Reader.start
      else { Reader.start with
        generatedLine := Reader.start.generatedLine + lines
        generatedColumn := 0 }) = Reader.start.down lines := by
    split
    next zero => rw [zero]; rfl
    next =>
      simp only [Reader.start, Reader.down, Nat.zero_add, Nat.add_zero]
      rfl
  rw [decode, rows, down, Reader.foldlM_row_down, decode, Option.map_map, Option.map_map]
  rfl

end Mappings
