import Vilan.Core.SourceMapExact

/-!
# The map shows the marks

The map that is built for a text shows the lines of the runtime helpers and then the first mark with
an original place at each generated position.  The counts of positions are 32 bits, so this is so
for a text of less than `2 ^ 32` bytes, and fails for a longer one.
-/

namespace Vilan.Core.SourceMap

open List Option Mappings
open Vilan.Lsp (units exists_line)

/-- Where the runtime helpers stand in a text: nowhere, as when their range is none of the text, or
behind `before` and ahead of every mark. -/
inductive Prelude (text : List Char) : Option (ℕ × ℕ) → List Char → List Char → Prop
  | absent : Prelude text none [] []
  | outside {start stop : ℕ} (outside : Utf8.slice (Utf8.encode text) start stop = none) :
      Prelude text (some (start, stop)) [] []
  | stands {before helpers after : List Char} (parts : text = before ++ helpers ++ after)
      (plain : ∀ c ∈ before ++ helpers, c ≠ markChar) :
      Prelude text
        (some ((Utf8.encode before).length, (Utf8.encode (before ++ helpers)).length)) before helpers

/-- The place of a mark at a generated position, if it has one. -/
def markPlace (program : Program) (mark : Position × SourceMark) : Option Place :=
  placeOfMark program (mark, originalOf program.texts (program.anchor mark.2))

/-- What a map is to show: the lines of the helpers, then the marks. -/
def shown (program : Program) (text : List Char) (marks : List SourceMark)
    (before helpers : List Char) : List Place :=
  MapWriter.runtimePlaces (before.count '\n') (runtimeSource helpers) (helpers.splitOn '\n').zipIdx ++
    firsts [] (((markPositions [] text).zip marks).filterMap (markPlace program))

/-! ### The marks -/

theorem texts_originalOf {texts : ℕ → Option (List Char)} {mark : Option (ℕ × ℕ)} {original : Original}
    (h : originalOf texts mark = some original) :
  texts original.source = some original.text
  := by
  obtain ⟨anchor, -, h⟩ := bind_eq_some_iff.mp h
  obtain ⟨text, text_eq, h⟩ := bind_eq_some_iff.mp h
  obtain ⟨position, -, h⟩ := bind_eq_some_iff.mp h
  cases h
  apply text_eq

theorem zip_map_self {α β : Type*} (f : α → β) (xs : List α) :
  xs.zip (xs.map f) = xs.map fun x => (x, f x)
  := by
  induction xs with
  | nil => rfl
  | cons x xs ih => rw [map_cons, zip_cons_cons, ih, map_cons]

theorem map_fst_zip_begins {α β : Type*} (xs : List α) (ys : List β) :
  (xs.zip ys).map Prod.fst <+: xs
  := by
  induction xs generalizing ys with
  | nil => exact prefix_rfl
  | cons x xs ih =>
    cases ys with
    | nil => exact nil_prefix
    | cons y ys => exact prefix_cons_inj x |>.mpr (ih ys)

/-- Marks in order, behind all that is written, are written as they are to be shown. -/
theorem MapWriter.Holds.placed {program : Program} {writer : MapWriter} {places : List Place}
    (holds : Holds program writer places) {placed : List (Position × SourceMark)}
    (sorted : (placed.map Prod.fst).Pairwise Position.le)
    (behind : ∀ last, writer.lastGenerated = some last → ∀ mark ∈ placed,
      last.le mark.1 ∧ last ≠ mark.1) :
  Holds program (writer.segments program
      (placed.zip (placed.map fun mark => originalOf program.texts (program.anchor mark.2))))
    (places ++ firsts [] (placed.filterMap (markPlace program)))
  := by
  have written : Holds program (writer.segments program
      (placed.map fun mark => (mark, originalOf program.texts (program.anchor mark.2))))
      (places ++ firsts [] ((placed.map fun mark =>
        (mark, originalOf program.texts (program.anchor mark.2))).filterMap
          (placeOfMark program))) := by
    apply holds.marks
    · rw [List.map_map]
      apply sorted
    · intro mark mem original here
      obtain ⟨mark, -, rfl⟩ := List.mem_map.mp mem
      apply texts_originalOf here
    · intro last same mark mem
      obtain ⟨mark, mem', rfl⟩ := List.mem_map.mp mem
      exact (behind last same mark mem').1
    · intro mark mem
      obtain ⟨mark, mem', rfl⟩ := List.mem_map.mp mem
      constructor
      · intro none_
        cases none_
      · intro same
        exact absurd rfl (behind _ same mark mem').2
  rw [filterMap_map] at written
  rw [zip_map_self]
  apply written

/-! ### The runtime helpers -/

theorem length_splitOn (text : List Char) (c : Char) :
  (text.splitOn c).length = text.count c + 1
  := by
  induction text with
  | nil => rfl
  | cons head text ih =>
    rw [splitOn_cons_eq_if_modifyHead, count_cons]
    split
    · rw [length_cons, ih]
    · rw [length_modifyHead, ih]

theorem units_pos {line : List Char} (some_ : line ≠ []) : 0 < units line := by
  obtain ⟨c, line, rfl⟩ := exists_cons_of_ne_nil some_
  have pos := lenUtf16_pos c
  rw [Vilan.Lsp.units_cons]
  omega

/-- A line of the helpers that is not empty begins ahead of their end. -/
theorem runtimePlaces_ahead {before helpers : List Char} {source : MapSource} {place : Place}
    (mem : place ∈ MapWriter.runtimePlaces (before.count '\n') source
      (helpers.splitOn '\n').zipIdx) :
  place.generated.le (coordinates (before ++ helpers)) ∧
    place.generated ≠ coordinates (before ++ helpers)
  := by
  obtain ⟨⟨line, index⟩, mem', here⟩ := mem_filterMap.mp mem
  dsimp only at here
  split at here
  next => cases here
  next some_ =>
    cases here
    have found := mem_zipIdx_iff_getElem?.mp mem'
    dsimp only at found
    have ahead : before.count '\n' + index < (coordinates (before ++ helpers)).line ∨
        before.count '\n' + index = (coordinates (before ++ helpers)).line ∧
          0 < (coordinates (before ++ helpers)).column := by
      obtain ⟨between, last, rfl, none_, ends⟩ := exists_line helpers
      rcases ends with rfl | ⟨whole, rfl⟩
      · rw [nil_append, splitOn_eq_singleton none_] at found
        rw [nil_append, coordinates_append_line before none_]
        obtain ⟨lt, line_eq⟩ := List.getElem?_eq_some_iff.mp found
        rw [length_singleton] at lt
        obtain rfl : index = 0 := by omega
        cases line_eq
        right
        use rfl
        apply Nat.add_pos_right _ (units_pos some_)
      · rw [coordinates_append_break before whole none_]
        rw [append_assoc, singleton_append, splitOn_append_cons_self,
          splitOn_eq_singleton none_] at found
        obtain ⟨lt, line_eq⟩ := List.getElem?_eq_some_iff.mp found
        rw [length_append, length_splitOn, length_singleton] at lt
        by_cases last_line : index = whole.count '\n' + 1
        · right
          rw [last_line]
          use rfl
          rw [last_line, ← length_splitOn whole, getElem?_concat_length] at found
          cases found
          apply units_pos some_
        · left
          dsimp only [coordinates]
          omega
    constructor
    · rcases ahead with lt | ⟨eq, -⟩
      · exact Or.inl lt
      · exact Or.inr ⟨eq, Nat.zero_le _⟩
    · intro same
      rw [← same] at ahead
      simp at ahead

/-! ### The whole map -/

namespace MapWriter

/-- The lines of the helpers, as a writer that has written nothing writes them. -/
theorem holds_runtime (program : Program) {firstLine : ℕ} {helpers : List Char}
    (small : firstLine + (helpers.splitOn '\n').length ≤ 2 ^ 32) :
  Holds program (new.runtime firstLine helpers)
    (runtimePlaces firstLine (runtimeSource helpers) (helpers.splitOn '\n').zipIdx)
  := by
  obtain ⟨started, started_eq⟩ : ∃ started : MapWriter, started =
      { new with map := { new.map with sources := [runtimeSource helpers] } } := ⟨_, rfl⟩
  have listed : Holds program started [] := by
    rw [started_eq]
    obtain ⟨slots, -, last⟩ := Holds.new program
    constructor
    · constructor
      · intro source slot found
        cases found
      · apply slots.none_
      · apply slots.names
    · exact ⟨[], written_new.congr rfl rfl rfl rfl rfl rfl rfl, List.Forall₂.nil⟩
    · apply last
  have found : started.map.sources[0]? = some (runtimeSource helpers) := by rw [started_eq]; rfl
  have none_ : ∀ place ∈ ([] : List Place), place.generated.line ≤ firstLine + 0 := by
    intro place mem
    cases mem
  have written := listed.runtimeLines found none_ small
  rw [started_eq] at written
  apply written

end MapWriter

/-- The writer before the first mark. -/
theorem Prelude.exists_writer {text before helpers : List Char} {runtime : Option (ℕ × ℕ)}
    (prelude_ : Prelude text runtime before helpers) (small : (Utf8.encode text).length < 2 ^ 32)
    (program : Program) :
  ∃ writer, MapWriter.withRuntime (helpersOf text runtime) = writer ∧
    writer.Holds program (MapWriter.runtimePlaces (before.count '\n') (runtimeSource helpers)
      (helpers.splitOn '\n').zipIdx) ∧
    ∀ place ∈ MapWriter.runtimePlaces (before.count '\n') (runtimeSource helpers)
      (helpers.splitOn '\n').zipIdx, ∀ position ∈ markPositions [] text,
        place.generated.le position ∧ place.generated ≠ position
  := by
  have empty : MapWriter.runtimePlaces (List.count '\n' []) (runtimeSource [])
      (List.splitOn '\n' []).zipIdx = [] := rfl
  cases prelude_ with
  | absent =>
    refine ⟨_, rfl, MapWriter.Holds.new program, ?_⟩
    rw [empty]
    intro place mem
    cases mem
  | outside outside =>
    refine ⟨MapWriter.new, ?_, MapWriter.Holds.new program, ?_⟩
    · rw [helpersOf]
      dsimp only [bind_eq_bind, bind_some]
      rw [outside]
      rfl
    · rw [empty]
      intro place mem
      cases mem
  | @stands before helpers after parts plain =>
    have sliced := Utf8.slice_append before helpers after
    rw [← parts] at sliced
    have bounds := coordinates_le text
    have counts : (coordinates text).line =
        before.count '\n' + helpers.count '\n' + after.count '\n' := by
      rw [parts, coordinates, count_append, count_append]
    have ahead : ∀ place ∈ MapWriter.runtimePlaces (before.count '\n') (runtimeSource helpers)
        (helpers.splitOn '\n').zipIdx, ∀ position ∈ markPositions [] text,
          place.generated.le position ∧ place.generated ≠ position := by
      intro place mem position mem'
      obtain ⟨le, ne⟩ := runtimePlaces_ahead mem
      rw [parts, markPositions_append plain, nil_append] at mem'
      have further := (markPositions_sorted (before ++ helpers) after).2 position mem'
      use Position.le_trans le further
      rintro rfl
      exact ne (Position.le_antisymm le further)
    by_cases none_ : helpers = []
    · subst none_
      refine ⟨MapWriter.new, ?_, MapWriter.Holds.new program, ahead⟩
      rw [helpersOf]
      dsimp only [bind_eq_bind, bind_some]
      rw [sliced, bind_some, if_pos rfl]
      rfl
    · have first : (lineBreaks ((Utf8.encode text).take (Utf8.encode before).length)).1 =
          before.count '\n' := by
        rw [lineBreaks_fst, parts, append_assoc, Utf8.encode_append before, take_left,
          breaks_eq_count, Nat.mod_eq_of_lt (by omega)]
      refine ⟨MapWriter.new.runtime (before.count '\n') helpers, ?_,
        MapWriter.holds_runtime program ?_, ahead⟩
      · rw [helpersOf]
        dsimp only [bind_eq_bind, bind_some]
        rw [sliced, bind_some, if_neg none_, first]
        rfl
      · rw [length_splitOn]
        omega

/-- Lines in front of the script move the segments of its map, and nothing else. -/
theorem decode_shiftLines (map : SourceMap) (lines : ℕ) :
  (map.shiftLines lines).sources = map.sources ∧ (map.shiftLines lines).names = map.names ∧
    decode (map.shiftLines lines).mappings = (decode map.mappings).map (shift lines)
  := by
  rw [shiftLines]
  split
  next same =>
    refine ⟨rfl, rfl, ?_⟩
    rcases same with rfl | none_
    · have shifted := decode_replicate 0 map.mappings
      rw [replicate_zero, nil_append] at shifted
      apply shifted
    · rw [none_]
      rfl
  next => exact ⟨rfl, rfl, decode_replicate lines map.mappings⟩

theorem length_unmarked (text : List Char) :
  (Utf8.encode (unmarked text)).length ≤ (Utf8.encode text).length
  := by
  induction text with
  | nil => exact Nat.le_refl _
  | cons c text ih =>
    rw [unmarked, filter_cons, Utf8.encode_cons, length_append]
    split
    · rw [Utf8.encode_cons, length_append]
      exact Nat.add_le_add_left ih _
    · exact Nat.le_add_left_of_le ih

/-- The map of a text of less than `2 ^ 32` bytes shows what it is to show. -/
theorem stripMarks_shows (program : Program) {text before helpers : List Char}
    (marks : List SourceMark) {runtime : Option (ℕ × ℕ)}
    (prelude_ : Prelude text runtime before helpers) (small : (Utf8.encode text).length < 2 ^ 32) :
  ∃ map segments, stripMarks program text marks runtime = some (unmarked text, map) ∧
    decode map.mappings = some segments ∧
    List.Forall₂ (Shows map) segments (shown program text marks before helpers) ∧
    ∀ lines, (map.shiftLines lines).sources = map.sources ∧
      (map.shiftLines lines).names = map.names ∧
      decode (map.shiftLines lines).mappings = some (shift lines segments)
  := by
  have small' : (Utf8.encode ([] ++ unmarked text)).length < 2 ^ 32 :=
    Nat.lt_of_le_of_lt (length_unmarked text) small
  have stripped := strip_eq text [] marks true (Or.inl rfl) small'
  obtain ⟨writer, writer_eq, holds, ahead⟩ := prelude_.exists_writer small program
  obtain ⟨placed, placed_eq⟩ : ∃ placed, placed = (markPositions [] text).zip marks := ⟨_, rfl⟩
  have positions : ∀ mark ∈ placed, mark.1 ∈ markPositions [] text := by
    intro mark mem
    rw [placed_eq] at mem
    exact (of_mem_zip mem).1
  have sorted : (placed.map Prod.fst).Pairwise Position.le := by
    rw [placed_eq]
    exact (markPositions_sorted [] text).1.sublist (map_fst_zip_begins _ _).sublist
  have final := holds.placed sorted (by
    intro last same mark mem
    rw [holds.last, map_eq_some_iff] at same
    obtain ⟨place, same, rfl⟩ := same
    exact ahead place (mem_of_getLast? same) mark.1 (positions mark mem))
  obtain ⟨segments, written, shows_⟩ := final.segments
  obtain ⟨last, reader, reads, rfl, -⟩ := written.reader
  refine ⟨_, reader.segments, ?_, reads.decode_eq, ?_, ?_⟩
  · rw [stripMarks]
    rw [show (⟨0, 0⟩ : Position) = coordinates [] from rfl, stripped]
    dsimp only [bind_eq_bind, bind_some]
    rw [locate_eq, bind_some, ← placed_eq, List.map_map]
    rw [writer_eq]
    rfl
  · rw [shown, ← placed_eq]
    apply shows_
  · intro lines
    have shifted := decode_shiftLines (writer.segments program (placed.zip (placed.map fun mark =>
      originalOf program.texts (program.anchor mark.2)))).map lines
    rw [reads.decode_eq] at shifted
    apply shifted

/-- A program of one file, in which every mark points at the front. -/
def onePlace : Program where
  texts source := if source = 0 then some ['x'] else none
  anchor _ := some (0, 0)
  sources source := if source = 0 then some (['p'], false) else none
  functions _ := some ['f']

/-- Two marks at one place of the second line, behind a line of helpers. -/
theorem stripMarks_shows_two :
  ∃ map segments, stripMarks onePlace ['h', '\n', markChar, markChar, 'x']
      [⟨.function, 0⟩, ⟨.statement, 0⟩] (some (0, 2)) = some (['h', '\n', 'x'], map) ∧
    decode map.mappings = some segments ∧
    List.Forall₂ (Shows map) segments
      [⟨⟨0, 0⟩, runtimeSource ['h', '\n'], 0, 0, none⟩,
        ⟨⟨1, 0⟩, mapSource ['p'] false ['x'], 0, 0, some ['f']⟩]
  := by
  have prelude_ : Prelude ['h', '\n', markChar, markChar, 'x'] (some (0, 2)) [] ['h', '\n'] := by
    have plain : ∀ c ∈ [] ++ ['h', '\n'], c ≠ markChar := by
      rintro c (_ | ⟨_, _ | ⟨_, mem⟩⟩)
      · decide
      · decide
      · cases mem
    apply Prelude.stands rfl plain
  have small : (Utf8.encode ['h', '\n', markChar, markChar, 'x']).length < 2 ^ 32 := by
    rw [show (Utf8.encode ['h', '\n', markChar, markChar, 'x']).length = 9 from rfl]
    norm_num
  obtain ⟨map, segments, stripped, decoded, shows_, -⟩ := stripMarks_shows onePlace
    [⟨.function, 0⟩, ⟨.statement, 0⟩] prelude_ small
  refine ⟨map, segments, stripped, decoded, ?_⟩
  have shown_eq : shown onePlace ['h', '\n', markChar, markChar, 'x']
      [⟨.function, 0⟩, ⟨.statement, 0⟩] [] ['h', '\n'] =
        [⟨⟨0, 0⟩, runtimeSource ['h', '\n'], 0, 0, none⟩,
          ⟨⟨1, 0⟩, mapSource ['p'] false ['x'], 0, 0, some ['f']⟩] := by
    rfl
  rw [← shown_eq]
  apply shows_

/-- A multiple of `2 ^ 32` line feeds does not move a position. -/
theorem advance_wraps {count : ℕ} (wraps : count % 2 ^ 32 = 0) :
  Position.advance ⟨0, 0⟩ (List.replicate count '\n') = some ⟨0, 0⟩
  := by
  have breaks : (lineBreaks (Utf8.encode (List.replicate count '\n'))).1 = 0 := by
    rw [lineBreaks_fst, breaks_eq_count, count_replicate_self, wraps]
  have length : utf16Length (List.replicate count '\n') = 0 := by
    have unit : lenUtf16 '\n' = 1 := rfl
    rw [utf16Length_eq, map_replicate, unit, sum_replicate, smul_eq_mul, Nat.mul_one, wraps]
  obtain ⟨last, answer⟩ : ∃ last, lineBreaks (Utf8.encode (List.replicate count '\n')) = (0, last) :=
    ⟨_, Prod.ext breaks rfl⟩
  rw [Position.advance, answer]
  dsimp only
  rw [length]
  rfl

/-- Behind so many line feeds a mark is put on the first line. -/
theorem stripMarks_feeds {count : ℕ} (wraps : count % 2 ^ 32 = 0) :
  ∃ map segments, stripMarks onePlace (List.replicate count '\n' ++ [markChar]) [⟨.statement, 0⟩]
      none = some (List.replicate count '\n', map) ∧
    decode map.mappings = some segments ∧ segments.map (·.generatedLine) = [0]
  := by
  have plain : ∀ c ∈ List.replicate count '\n', c ≠ markChar := by
    intro c mem
    rw [eq_of_mem_replicate mem]
    decide
  have stripped : strip (List.replicate count '\n' ++ [markChar]) [⟨.statement, 0⟩] true ⟨0, 0⟩ =
      some (List.replicate count '\n', [(⟨0, 0⟩, ⟨.statement, 0⟩)]) := by
    have none_ : ∀ c ∈ ([] : List Char), c ≠ markChar := by
      intro c mem
      cases mem
    rw [strip_mark plain [] _ true (advance_wraps wraps)]
    dsimp only
    rw [strip_plain none_, map_some, append_nil]
    rfl
  have sorted : (([(⟨0, 0⟩, ⟨.statement, 0⟩)] : List (Position × SourceMark)).map Prod.fst).Pairwise
      Position.le := pairwise_singleton _ _
  have holds : MapWriter.Holds onePlace
      (MapWriter.new.segments onePlace
        [((⟨0, 0⟩, ⟨.statement, 0⟩), originalOf onePlace.texts (some (0, 0)))])
      [⟨⟨0, 0⟩, mapSource ['p'] false ['x'], 0, 0, none⟩] :=
    (MapWriter.Holds.new onePlace).placed sorted (by
      intro last same
      cases same)
  obtain ⟨segments, written, shows_⟩ := holds.segments
  obtain ⟨last, reader, reads, rfl, -⟩ := written.reader
  refine ⟨_, reader.segments, ?_, reads.decode_eq, ?_⟩
  · rw [stripMarks, stripped]
    dsimp only [bind_eq_bind, bind_some]
    rw [locate_eq]
    rfl
  · generalize reader.segments = segments at shows_
    cases shows_ with
    | cons first rest =>
      cases rest
      obtain ⟨source, name, rfl, -⟩ := first
      rfl

/-- Behind `2 ^ 32` line feeds a mark is put on the first line, though it stands on another. -/
theorem stripMarks_wraps :
  ∃ map segments, stripMarks onePlace (List.replicate (2 ^ 32) '\n' ++ [markChar]) [⟨.statement, 0⟩]
      none = some (List.replicate (2 ^ 32) '\n', map) ∧
    decode map.mappings = some segments ∧ segments.map (·.generatedLine) = [0] ∧
    (markPositions [] (List.replicate (2 ^ 32) '\n' ++ [markChar])).map (·.line) = [2 ^ 32]
  := by
  obtain ⟨map, segments, stripped, decoded, lines⟩ := stripMarks_feeds (Nat.mod_self (2 ^ 32))
  refine ⟨map, segments, stripped, decoded, lines, ?_⟩
  rw [markPositions_append]
  · rw [markPositions, if_pos rfl, nil_append, coordinates, markPositions]
    rw [map_cons, count_replicate_self]
    rfl
  · intro c mem
    rw [eq_of_mem_replicate mem]
    decide

end Vilan.Core.SourceMap
