import Vilan.Core.SourceMapPlaces
import Vilan.Lsp.LineIndexAgree

/-!
# The map of a text with marks

What a map is to show, read off the text alone: each mark's place is counted in the text without
marks.  The writer shows just that, as long as the counts fit their 32 bits.
-/

namespace Vilan.Core.SourceMap

open List Option

open Vilan.Lsp (units exists_line units_append units_le)

/-! ### Positions -/

/-- The line and the column behind a text. -/
def coordinates (text : List Char) : Position where
  line := text.count '\n'
  column := units (text.reverse.takeWhile (· ≠ '\n')).reverse

variable {before line : List Char}

theorem coordinates_line (none_ : '\n' ∉ line)
    (ends : before = [] ∨ ∃ whole, before = whole ++ ['\n']) :
  coordinates (before ++ line) = ⟨before.count '\n', units line⟩
  := by
  have plain : ∀ c ∈ line.reverse, decide (c ≠ '\n') = true := by
    intro c mem
    rw [decide_eq_true_eq]
    rintro rfl
    exact none_ (mem_reverse.mp mem)
  have stops : before.reverse.takeWhile (· ≠ '\n') = [] := by
    rcases ends with rfl | ⟨whole, rfl⟩
    · rfl
    · rw [reverse_append]
      rfl
  rw [coordinates, count_append, count_eq_zero_of_not_mem none_, reverse_append,
    takeWhile_append_of_pos plain, stops, append_nil, reverse_reverse]
  rfl

/-- The line feeds of the bytes of a text are its own. -/
theorem breaks_eq_count (text : List Char) :
  (Utf8.encode text).countP (· = newline) = text.count '\n'
  := by
  induction text with
  | nil => rfl
  | cons c text ih =>
    have one : (String.utf8EncodeChar c).countP (· = newline) = if c == '\n' then 1 else 0 := by
      by_cases same : c = '\n'
      · rw [same]
        rfl
      · rw [if_neg (by simpa using same), countP_eq_zero]
        intro byte mem
        rw [decide_eq_true_eq]
        rintro rfl
        apply same
        apply Char.toNat_inj.mp
        rw [(Utf8.utf8EncodeChar_of_mem_ascii mem (by decide)).2]
        rfl
    rw [Utf8.encode_cons, countP_append, ih, one, count_cons, Nat.add_comm]

/-- A text is at least as long as its coordinates. -/
theorem coordinates_le (text : List Char) :
  (coordinates text).line ≤ (Utf8.encode text).length ∧
    (coordinates text).column ≤ (Utf8.encode text).length
  := by
  obtain ⟨before, line, rfl, none_, ends⟩ := exists_line text
  have line_le := units_le line
  have count_le : (Utf8.encode before).countP (· = newline) ≤ (Utf8.encode before).length :=
    countP_le_length
  rw [breaks_eq_count] at count_le
  rw [coordinates_line none_ ends, Utf8.encode_append, length_append]
  dsimp only
  omega

theorem coordinates_append_line (seen : List Char) (none_ : '\n' ∉ line) :
  coordinates (seen ++ line) = ⟨(coordinates seen).line, (coordinates seen).column + units line⟩
  := by
  obtain ⟨before, line', rfl, none_', ends⟩ := exists_line seen
  rw [coordinates_line none_' ends, append_assoc, coordinates_line _ ends, units_append]
  rw [mem_append, not_or]
  exact ⟨none_', none_⟩

theorem coordinates_append_break (seen whole : List Char) (none_ : '\n' ∉ line) :
  coordinates (seen ++ (whole ++ ['\n'] ++ line)) =
    ⟨(coordinates seen).line + (whole.count '\n' + 1), units line⟩
  := by
  rw [← append_assoc, coordinates_line none_ (Or.inr ⟨seen ++ whole, by simp⟩), count_append,
    count_append]
  rfl

/-- The position moves past a text as its coordinates do. -/
theorem advance_coordinates {seen more : List Char}
    (small : (Utf8.encode (seen ++ more)).length < 2 ^ 32) :
  (coordinates seen).advance more = some (coordinates (seen ++ more))
  := by
  have bounds := coordinates_le (seen ++ more)
  obtain ⟨between, line, rfl, none_, ends⟩ := exists_line more
  have no_break := Vilan.Lsp.newline_not_mem_encode none_
  have length_eq : utf16Length line = units line % 2 ^ 32 := utf16Length_eq line
  rcases ends with rfl | ⟨whole, rfl⟩
  · rw [nil_append, coordinates_append_line seen none_] at bounds
    rw [nil_append, coordinates_append_line seen none_, Position.advance,
      lineBreaks_eq_none no_break, length_eq]
    dsimp only at bounds ⊢
    rw [Nat.add_mod_mod, Nat.mod_eq_of_lt]
    · rfl
    · rw [nil_append] at small
      omega
  · rw [coordinates_append_break seen whole none_] at bounds ⊢
    dsimp only at bounds
    have answer : lineBreaks (Utf8.encode (whole ++ ['\n'] ++ line)) =
        (whole.count '\n' + 1, some (Utf8.encode (whole ++ ['\n'])).length) := by
      apply Prod.ext
      · rw [lineBreaks_fst, breaks_eq_count, count_append, count_append,
          count_eq_zero_of_not_mem none_]
        apply Nat.mod_eq_of_lt
        simp only [count_singleton_self, Nat.add_zero]
        omega
      · rw [Utf8.encode_append, Vilan.Lsp.encode_newline, append_assoc, singleton_append,
          lineBreaks_snd no_break, length_append]
        rfl
    have sliced := Utf8.slice_append (whole ++ ['\n']) line []
    rw [append_nil] at sliced
    rw [Position.advance, answer]
    change (do
      let line' ← Utf8.slice (Utf8.encode (whole ++ ['\n'] ++ line))
        (Utf8.encode (whole ++ ['\n'])).length (Utf8.encode (whole ++ ['\n'] ++ line)).length
      some (Position.mk (((coordinates seen).line + (whole.count '\n' + 1)) % 2 ^ 32)
        (utf16Length line'))) = _
    rw [sliced]
    dsimp only [bind_eq_bind, bind_some]
    rw [length_eq, Nat.mod_eq_of_lt (show units line < 2 ^ 32 by omega), Nat.mod_eq_of_lt (by omega)]

theorem Position.le_trans {a b c : Position} (h : a.le b) (h' : b.le c) : a.le c := by
  unfold Position.le at *
  omega

theorem Position.le_antisymm {a b : Position} (h : a.le b) (h' : b.le a) : a = b := by
  obtain ⟨line, column⟩ := a
  obtain ⟨line', column'⟩ := b
  unfold Position.le at *
  simp only at h h'
  obtain rfl : line = line' := by omega
  obtain rfl : column = column' := by omega
  rfl

theorem coordinates_mono (seen more : List Char) :
  (coordinates seen).le (coordinates (seen ++ more))
  := by
  obtain ⟨between, line, rfl, none_, ends⟩ := exists_line more
  rcases ends with rfl | ⟨whole, rfl⟩
  · rw [nil_append, coordinates_append_line seen none_]
    right
    exact ⟨rfl, Nat.le_add_right _ _⟩
  · rw [coordinates_append_break seen whole none_]
    left
    dsimp only
    omega

/-! ### The strip -/

/-- A text without its marks. -/
def unmarked (text : List Char) : List Char :=
  text.filter (· ≠ markChar)

/-- The coordinates of the marks of a text, in the text without marks. -/
def markPositions (seen : List Char) : List Char → List Position
  | [] => []
  | c :: text =>
      if c = markChar then coordinates seen :: markPositions seen text
      else markPositions (seen ++ [c]) text

theorem unmarked_append (plain : ∀ c ∈ before, c ≠ markChar) (text : List Char) :
  unmarked (before ++ text) = before ++ unmarked text
  := by
  rw [unmarked, filter_append, filter_eq_self.mpr]
  · rfl
  · intro c mem
    rw [decide_eq_true_eq]
    apply plain c mem

theorem markPositions_append (plain : ∀ c ∈ before, c ≠ markChar) (seen text : List Char) :
  markPositions seen (before ++ text) = markPositions (seen ++ before) text
  := by
  induction before generalizing seen with
  | nil => rw [append_nil, nil_append]
  | cons c before ih =>
    rw [cons_append, markPositions, if_neg (plain c (mem_cons_self ..)),
      ih (fun c mem => plain c (mem_cons_of_mem _ mem)), append_assoc]
    rfl

theorem exists_mark (text : List Char) :
  (∀ c ∈ text, c ≠ markChar) ∨
    ∃ before rest, text = before ++ markChar :: rest ∧ ∀ c ∈ before, c ≠ markChar
  := by
  induction text with
  | nil => simp
  | cons c text ih =>
    by_cases same : c = markChar
    · right
      exact ⟨[], text, by rw [same]; rfl, by simp⟩
    · rcases ih with plain | ⟨before, rest, rfl, plain⟩
      · left
        simpa [same] using plain
      · right
        refine ⟨c :: before, rest, rfl, ?_⟩
        simpa [same] using plain

/-- The marks come in the order of their coordinates. -/
theorem markPositions_sorted (seen text : List Char) :
  (markPositions seen text).Pairwise Position.le ∧
    ∀ position ∈ markPositions seen text, (coordinates seen).le position
  := by
  induction text generalizing seen with
  | nil => simp [markPositions]
  | cons c text ih =>
    rw [markPositions]
    split
    next =>
      obtain ⟨sorted, first⟩ := ih seen
      constructor
      · exact List.Pairwise.cons first sorted
      · rintro position (_ | ⟨_, mem⟩)
        · right
          exact ⟨rfl, Nat.le_refl _⟩
        · exact first position mem
    next =>
      obtain ⟨sorted, first⟩ := ih (seen ++ [c])
      use sorted
      intro position mem
      exact Position.le_trans (coordinates_mono seen [c]) (first position mem)

theorem strip_plain {text : List Char} (plain : ∀ c ∈ text, c ≠ markChar) (records : List SourceMark)
    (paired : Bool) (position : Position) :
  strip text records paired position = some (text, [])
  := by
  have plain' : ∀ c ∈ text, decide (c ≠ markChar) = true := fun c mem =>
    decide_eq_true (plain c mem)
  have behind : (text ++ []).dropWhile (· ≠ markChar) = [] := by
    rw [dropWhile_append_of_pos plain', dropWhile_nil]
  rw [append_nil] at behind
  rw [strip]
  split
  next => rfl
  next some_ =>
    rw [behind] at some_
    cases some_

/-- The strip up to the first mark. -/
theorem strip_mark (plain : ∀ c ∈ before, c ≠ markChar) (rest : List Char)
    (records : List SourceMark) (paired : Bool) {position position' : Position}
    (advanced : position.advance before = some position') :
  strip (before ++ markChar :: rest) records paired position =
    match records with
    | mark :: records =>
        (strip rest records paired position').map fun (clean, placed) =>
          (before ++ clean, if paired then (position', mark) :: placed else placed)
    | [] =>
        (strip rest [] false position').map fun (clean, placed) => (before ++ clean, placed)
  := by
  have plain' : ∀ c ∈ before, decide (c ≠ markChar) = true := fun c mem =>
    decide_eq_true (plain c mem)
  have behind : (before ++ markChar :: rest).dropWhile (· ≠ markChar) = markChar :: rest := by
    rw [dropWhile_append_of_pos plain', dropWhile_cons_of_neg (by simp)]
  have ahead : (before ++ markChar :: rest).takeWhile (· ≠ markChar) = before := by
    rw [takeWhile_append_of_pos plain', takeWhile_cons_of_neg (by simp), append_nil]
  rw [strip]
  split
  next none_ =>
    rw [behind] at none_
    cases none_
  next rest' some_ =>
    rw [behind] at some_
    cases some_
    dsimp only
    rw [ahead, advanced]
    dsimp only [bind_eq_bind, bind_some]
    cases records with
    | nil =>
      dsimp only
      cases strip rest [] false position' with
      | none => rfl
      | some stripped => rfl
    | cons mark records =>
      dsimp only
      cases strip rest records paired position' with
      | none => rfl
      | some stripped => rfl

/-- The strip finds the marks at their coordinates, and pairs as many as there are records. -/
theorem strip_eq (text seen : List Char) (records : List SourceMark) (paired : Bool)
    (pairs : paired = true ∨ records = [])
    (small : (Utf8.encode (seen ++ unmarked text)).length < 2 ^ 32) :
  strip text records paired (coordinates seen) =
    some (unmarked text, (markPositions seen text).zip records)
  := by
  induction size : text.length using Nat.strong_induction_on generalizing text seen records paired with
  | _ n ih =>
  rcases exists_mark text with plain | ⟨before, rest, rfl, plain⟩
  · have same := unmarked_append plain []
    have positions := markPositions_append plain seen []
    rw [append_nil] at same positions
    rw [strip_plain plain, same, positions, markPositions, zip_nil_left]
    rw [unmarked, filter_nil, append_nil]
  · have clean : unmarked (before ++ markChar :: rest) = before ++ unmarked rest := by
      rw [unmarked_append plain]
      rfl
    have positions : markPositions seen (before ++ markChar :: rest) =
        coordinates (seen ++ before) :: markPositions (seen ++ before) rest := by
      rw [markPositions_append plain, markPositions, if_pos rfl]
    rw [clean, ← append_assoc] at small
    have small' : (Utf8.encode (seen ++ before)).length < 2 ^ 32 := by
      rw [Utf8.encode_append, length_append] at small
      omega
    have shorter : rest.length < n := by
      rw [← size, length_append, length_cons]
      omega
    rw [strip_mark plain rest records paired (advance_coordinates small'), clean, positions]
    cases records with
    | nil =>
      have walked := ih _ shorter rest (seen ++ before) [] false (Or.inr rfl) small rfl
      dsimp only
      rw [walked, zip_nil_right, zip_nil_right]
      rfl
    | cons mark records =>
      rcases pairs with rfl | nil
      · have walked := ih _ shorter rest (seen ++ before) records true (Or.inl rfl) small rfl
        dsimp only
        rw [walked]
        rfl
      · cases nil

/-! ### The segments -/

/-- The first place at each generated position. -/
def firsts (seen : List Position) : List Place → List Place
  | [] => []
  | place :: places =>
      if place.generated ∈ seen then firsts seen places
      else place :: firsts (place.generated :: seen) places

/-- The place of a mark with its generated position and its original place, if it has one. -/
def placeOfMark (program : Program) (mark : (Position × SourceMark) × Option Original) :
    Option Place := do
  let original ← mark.2
  MapWriter.placeOf program mark.1.1 mark.1.2 original

namespace MapWriter

variable {program : Program} {writer : MapWriter} {places : List Place}

/-- The writer writes the first place at each position, when the marks come in order. -/
theorem Holds.marks {marks : List ((Position × SourceMark) × Option Original)}
    (holds : Holds program writer places) (sorted : (marks.map (·.1.1)).Pairwise Position.le)
    (texts : ∀ mark ∈ marks, ∀ original, mark.2 = some original →
      program.texts original.source = some original.text)
    (ahead : ∀ last, writer.lastGenerated = some last → ∀ mark ∈ marks, last.le mark.1.1)
    {seen : List Position}
    (free : ∀ mark ∈ marks, mark.1.1 ∈ seen ↔ writer.lastGenerated = some mark.1.1) :
  Holds program (MapWriter.segments program writer marks)
    (places ++ firsts seen (marks.filterMap (placeOfMark program)))
  := by
  induction marks generalizing writer places seen with
  | nil =>
    rw [MapWriter.segments, filterMap_nil, firsts, append_nil]
    apply holds
  | cons mark marks ih =>
    obtain ⟨⟨generated, mark⟩, original⟩ := mark
    rw [map_cons] at sorted
    obtain ⟨first, sorted'⟩ := pairwise_cons.mp sorted
    have texts' := fun mark mem => texts mark (mem_cons_of_mem _ mem)
    have ahead' : ∀ last, writer.lastGenerated = some last → ∀ mark ∈ marks, last.le mark.1.1 :=
      fun last same mark mem => ahead last same mark (mem_cons_of_mem _ mem)
    have free' : ∀ mark ∈ marks, mark.1.1 ∈ seen ↔ writer.lastGenerated = some mark.1.1 :=
      fun mark mem => free mark (mem_cons_of_mem _ mem)
    have here := free _ (mem_cons_self ..)
    dsimp only at here
    rw [filterMap_cons]
    cases original with
    | none =>
      rw [MapWriter.segments]
      exact ih holds sorted' texts' ahead' free'
    | some original =>
      have place_eq : placeOfMark program ((generated, mark), some original) =
          placeOf program generated mark original := rfl
      rw [MapWriter.segments, place_eq]
      by_cases taken : writer.lastGenerated = some generated
      · rw [MapWriter.segment, if_pos taken]
        cases found : placeOf program generated mark original with
        | none => exact ih holds sorted' texts' ahead' free'
        | some place =>
          have same : place.generated = generated := by
            obtain ⟨_, _, rfl⟩ := map_eq_some_iff.mp found
            rfl
          dsimp only
          rw [firsts, same, if_pos (here.mpr taken)]
          exact ih holds sorted' texts' ahead' free'
      · have ahead_here : writer.Ahead generated := by
          intro last same
          have le := ahead last same _ (mem_cons_self ..)
          unfold Position.le at le
          dsimp only at le
          omega
        have more : Holds program (writer.segment program generated mark original)
            (places ++ (placeOf program generated mark original).toList) :=
          holds.segment ahead_here (texts _ (mem_cons_self ..) original rfl) taken
        cases found : placeOf program generated mark original with
        | none =>
          rw [found, toList_none, append_nil] at more
          have last_eq := more.last.trans holds.last.symm
          exact ih more sorted' texts' (by rw [last_eq]; exact ahead')
            (by rw [last_eq]; exact free')
        | some place =>
          have same : place.generated = generated := by
            obtain ⟨_, _, rfl⟩ := map_eq_some_iff.mp found
            rfl
          rw [found, toList_some] at more
          have last_eq : (writer.segment program generated mark original).lastGenerated =
              some generated := by
            rw [more.last, getLast?_concat, map_some, same]
          dsimp only
          rw [firsts, same, if_neg fun mem => taken (here.mp mem)]
          have free_next : ∀ mark' ∈ marks, mark'.1.1 ∈ generated :: seen ↔
              (writer.segment program generated mark original).lastGenerated =
                some mark'.1.1 := by
            intro mark' mem
            have le := first _ (List.mem_map_of_mem mem)
            rw [last_eq, mem_cons, free' mark' mem, some_inj]
            constructor
            · rintro (same | last)
              · exact same.symm
              · have le' := ahead _ last _ (mem_cons_self ..)
                exact Position.le_antisymm le le'
            · exact fun same => Or.inl same.symm
          have rest := ih more sorted' texts' (by
              rw [last_eq]
              rintro last ⟨⟩ mark mem
              exact first _ (List.mem_map_of_mem mem)) free_next
          rw [append_assoc] at rest
          apply rest

end MapWriter

end Vilan.Core.SourceMap
