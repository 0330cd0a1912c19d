import Vilan.Web.Tags

/-!
# What the scanner reads of written markup

A page that is written piece by piece is scanned piece by piece: what the scanner finds in a piece
does not depend on what stands around it.  Where a tag stands is left out, so that the findings of
two pieces are those of the one followed by those of the other.
-/

namespace Vilan.Web

open List

/-! ### Searches in a text that is known -/

variable {index : ℕ} {markup rest piece text : Str} {character : UInt16}
  {attributes : List (Str × Str)}

theorem drop_behind (piece : Str) (here : markup.drop index = piece ++ rest) :
  markup.drop (index + piece.length) = rest
  := by
  rw [← drop_drop, here, drop_left]

theorem inside_of_drop (here : markup.drop index = character :: rest) :
  markup[index]? = some character
  := by
  rw [← head?_drop, here]
  rfl

theorem lt_of_drop (here : markup.drop index = character :: rest) :
  index < markup.length
  := (List.getElem?_eq_some_iff.mp (inside_of_drop here)).1

theorem getElem_of_drop (here : markup.drop index = character :: rest)
    (inside : index < markup.length) :
  markup[index] = character
  := (List.getElem?_eq_some_iff.mp (inside_of_drop here)).2

theorem substring_eq (here : markup.drop index = piece ++ rest) :
  Str.substring markup index (index + piece.length) = piece
  := by
  rw [Str.substring, here, Nat.add_sub_cancel_left, take_left]

theorem runEnd_eq {p : UInt16 → Bool} (piece : Str)
    (here : markup.drop index = piece ++ character :: rest) (holds : ∀ u ∈ piece, p u = true)
    (fails : p character = false) :
  runEnd p markup index = index + piece.length
  := by
  rw [runEnd, here, takeWhile_append_of_pos holds,
    takeWhile_cons_of_neg (by simp [fails]), append_nil]

theorem find_unit {before : Str} {u : UInt16} (new : u ∉ before) :
  Search.find [u] (before ++ u :: rest) = some before.length
  := by
  rw [Search.find_eq_some_iff]
  refine ⟨by rw [length_append]; omega, ?_, ?_⟩
  · rw [drop_left]
    use rest
    rfl
  · rintro i lt ⟨behind, eq⟩
    apply new
    rw [drop_append_of_le_length lt.le, drop_eq_getElem_cons lt] at eq
    have first : u = before[i] := by
      apply (List.cons.inj eq).1
    rw [first]
    apply getElem_mem

theorem indexOf_unit (before : Str) {u : UInt16} (here : markup.drop index = before ++ u :: rest)
    (new : u ∉ before) :
  indexOf markup [u] index = some (index + before.length)
  := by
  rw [indexOf, here, find_unit new]
  rfl

/-! ### Attributes -/

/-- The text between the name of a tag and its end is read as attributes. -/
def ReadsAttributes (text : Str) (attributes : List (Str × Str)) : Prop :=
  ∀ markup index rest, markup.drop index = text ++ unit '>' :: rest →
    attributesOf markup index = (attributes, index + text.length + 1)

theorem readsAttributes_nil : ReadsAttributes [] [] := by
  intro markup index rest here
  rw [nil_append] at here
  rw [attributesOf, dif_pos (lt_of_drop here), dif_pos (getElem_of_drop here _)]
  rfl

/-- Whitespace and the slash of a tag without content are passed over. -/
theorem readsAttributes_skip (skipped : isSpace character = true ∨ character = unit '/')
    (reads : ReadsAttributes text attributes) :
  ReadsAttributes (character :: text) attributes
  := by
  intro markup index rest here
  have inside := lt_of_drop here
  have is_character := getElem_of_drop here inside
  have open_ : markup[index] ≠ unit '>' := by
    rw [is_character]
    rintro rfl
    revert skipped
    decide
  have shown : isSpace markup[index] = true ∨ markup[index] = unit '/' := by
    rw [is_character]
    apply skipped
  have behind : markup.drop (index + 1) = text ++ unit '>' :: rest :=
    drop_behind [character] here
  rw [attributesOf, dif_pos inside, dif_neg open_, dif_pos shown, reads markup _ rest behind,
    length_cons]
  congr 1
  omega

/-- A value in double quotes is read as it stands. -/
theorem attributeValue_quoted {value : Str}
    (here : markup.drop index = ascii "=\"" ++ (value ++ unit '"' :: rest))
    (unquoted : unit '"' ∉ value) :
  attributeValue markup index = (value, index + 2 + value.length + 1)
  := by
  have behind : markup.drop (index + 1) = unit '"' :: (value ++ unit '"' :: rest) :=
    drop_behind (ascii "=") here
  have opened : markup.drop (index + 2) = value ++ unit '"' :: rest :=
    drop_behind (ascii "=\"") here
  have spaces : skipSpaces markup (index + 1) = index + 1 := runEnd_eq [] behind
    (by simp) (by decide)
  have quote : (markup.drop (index + 1)).take 1 = ascii "\"" := by
    rw [behind]
    rfl
  have closes : indexOf markup (ascii "\"") (index + 2) = some (index + 2 + value.length) :=
    indexOf_unit _ opened unquoted
  have inside : index + 2 + value.length < markup.length := lt_of_drop (drop_behind _ opened)
  have equals : markup[index]? = some (unit '=') := inside_of_drop here
  rw [attributeValue, if_pos equals]
  simp only [spaces, quote, true_or, if_true, closes, past, Nat.add_zero, inside]
  rw [substring_eq opened]

/-- An attribute with its value in double quotes. -/
theorem readsAttributes_quoted {name value : Str} (named : name ≠ [])
    (name_chars : name.all (fun u => !isAttributeBreak u) = true)
    (lowered : toLowercaseAscii name = name) (unquoted : unit '"' ∉ value)
    (reads : ReadsAttributes text attributes) :
  ReadsAttributes (name ++ ascii "=\"" ++ value ++ ascii "\"" ++ text)
    ((name, value) :: attributes)
  := by
  intro markup index rest here
  have here' : markup.drop index =
      name ++ (ascii "=\"" ++ (value ++ unit '"' :: (text ++ unit '>' :: rest))) := by
    rw [here]
    simp only [append_assoc]
    rfl
  have inside : index < markup.length := by
    by_contra outside
    rw [drop_eq_nil_of_le (by omega)] at here'
    apply named (append_eq_nil_iff.mp here'.symm).1
  have first : isAttributeBreak markup[index] = false := by
    cases name with
    | nil => contradiction
    | cons u name =>
      rw [all_cons, Bool.and_eq_true, Bool.not_eq_true'] at name_chars
      rw [getElem_of_drop here' inside]
      apply name_chars.1
  have open_ : markup[index] ≠ unit '>' := by
    intro eq
    rw [eq] at first
    revert first
    decide
  have shown : ¬ (isSpace markup[index] = true ∨ markup[index] = unit '/') := by
    rintro (space | eq)
    · rw [isAttributeBreak, space] at first
      cases first
    · rw [eq] at first
      revert first
      decide
  have cursor : runEnd (fun character => !isAttributeBreak character) markup index =
      index + name.length := by
    apply runEnd_eq _ here'
    · intro u mem
      apply List.all_eq_true.mp name_chars u mem
    · decide
  have equals := drop_behind _ here'
  have spaces : skipSpaces markup (index + name.length) = index + name.length :=
    runEnd_eq [] equals (by simp) (by decide)
  have value_read := attributeValue_quoted equals unquoted
  have behind : markup.drop (index + name.length + 2 + value.length + 1) =
      text ++ unit '>' :: rest := by
    have opened := drop_behind _ equals
    apply drop_behind [unit '"'] (drop_behind _ opened)
  rw [attributesOf, dif_pos inside, dif_neg open_, dif_neg shown]
  simp only [cursor, spaces, value_read, substring_eq here', lowered, reads markup _ rest behind,
    length_append]
  congr 1
  change _ = index + (name.length + 2 + value.length + 1 + text.length) + 1
  omega

/-! ### Tags -/

/-- A tag, wherever it stands. -/
def Tag.unplaced (tag : Tag) : Tag :=
  { tag with start := 0, stop := 0 }

def opening (name : Str) (attributes : List (Str × Str)) : Tag :=
  ⟨name, attributes, 0, 0, false⟩

def closing (name : Str) : Tag :=
  ⟨name, [], 0, 0, true⟩

/-- The tags that the scanner finds in a piece of a page. -/
def Reads (piece : Str) (tags : List Tag) : Prop :=
  ∀ markup index rest, markup.drop index = piece ++ rest →
    (tagsFrom markup index).map Tag.unplaced =
      tags ++ (tagsFrom markup (index + piece.length)).map Tag.unplaced

theorem reads_nil : Reads [] [] := by
  intro markup index rest here
  rfl

theorem Reads.append {more : Str} {tags others : List Tag} (first : Reads piece tags)
    (second : Reads more others) :
  Reads (piece ++ more) (tags ++ others)
  := by
  intro markup index rest here
  rw [append_assoc] at here
  rw [first markup index _ here, second markup _ rest (drop_behind _ here), append_assoc,
    length_append, Nat.add_assoc]

/-- One turn of the scanner on a piece that is not empty. -/
theorem reads_of_turn {tag : Option Tag}
    (turn : ∀ markup index rest, markup.drop index = character :: piece ++ rest →
      (scanTurn markup index).1.map Tag.unplaced = tag ∧
        (scanTurn markup index).2 = index + piece.length + 1) :
  Reads (character :: piece) tag.toList
  := by
  intro markup index rest here
  have inside : index < markup.length := lt_of_drop here
  obtain ⟨found, next⟩ := turn markup index rest here
  rw [tagsFrom, dif_pos inside]
  simp only [map_append, next, length_cons, ← Nat.add_assoc]
  rw [← found]
  congr 1
  cases (scanTurn markup index).1 with
  | none => rfl
  | some tag => rfl

theorem reads_text (text : Str) (plain : unit '<' ∉ text) : Reads text [] := by
  induction text with
  | nil => apply reads_nil
  | cons u text ih =>
    rw [mem_cons, not_or] at plain
    have first : Reads [u] (none : Option Tag).toList := by
      apply reads_of_turn
      intro markup index rest here
      have other : markup[index]? ≠ some (unit '<') := by
        rw [inside_of_drop here, ne_eq, Option.some_inj]
        apply Ne.symm plain.1
      rw [scanTurn, if_pos other]
      exact ⟨rfl, rfl⟩
    apply first.append (ih plain.2)

/-- What a turn does at a character behind an opening bracket that does not open a comment. -/
theorem scanTurn_opened {after : UInt16} (here : markup.drop index = unit '<' :: after :: rest)
    (not_comment : after ≠ unit '!') :
  markup[index]? = some (unit '<') ∧ (ascii "<!--").isPrefixOf (markup.drop index) = false ∧
    markup[index + 1]? = some after
  := by
  refine ⟨inside_of_drop here, ?_, inside_of_drop (drop_behind [unit '<'] here)⟩
  rw [here]
  have other : (unit '!' == after) = false := by
    rw [beq_eq_false_iff_ne]
    apply Ne.symm not_comment
  change (unit '<' == unit '<' && (unit '!' == after && _)) = false
  rw [other]
  rfl

theorem reads_closing (name : Str) (name_chars : name.all isNameChar = true)
    (lowered : toLowercaseAscii name = name) :
  Reads (ascii "</" ++ name ++ ascii ">") [closing name]
  := by
  change Reads (unit '<' :: (unit '/' :: (name ++ [unit '>']))) (some (closing name)).toList
  apply reads_of_turn
  intro markup index rest here
  have here' : markup.drop index = ascii "</" ++ (name ++ unit '>' :: rest) := by
    rw [here, cons_append, cons_append, append_assoc]
    rfl
  have slash : markup.drop index = unit '<' :: unit '/' :: (name ++ unit '>' :: rest) := here'
  obtain ⟨bracket, not_comment, after⟩ := scanTurn_opened slash (by decide)
  have behind := drop_behind _ here'
  have cursor : runEnd isNameChar markup (index + 2) = index + 2 + name.length :=
    runEnd_eq _ behind (List.all_eq_true.mp name_chars) (by decide)
  have closes : indexOf markup (ascii ">") (index + 2 + name.length) =
      some (index + 2 + name.length) :=
    indexOf_unit [] (drop_behind _ behind) (by simp)
  have named : Str.substring markup (index + 2) (index + 2 + name.length) = name :=
    substring_eq behind
  have not_doctype : ¬ (unit '/' = unit '!' ∨ unit '/' = unit '?') := by decide
  rw [scanTurn, if_neg (not_not.mpr bracket), if_neg (by simp [not_comment]), after]
  simp only [if_neg not_doctype, if_true, cursor, closes, past, named, lowered]
  refine ⟨rfl, ?_⟩
  rw [length_cons, length_append, length_singleton]
  omega

/-- What a turn reads of an opening tag, whose content it may pass. -/
theorem scanTurn_opening (first : UInt16) (name : Str) (starts : isNameStart first = true)
    (name_chars : name.all isNameChar = true)
    (lowered : toLowercaseAscii (first :: name) = first :: name)
    (text_breaks : ∀ u ∈ text.head?, isNameChar u = false) (reads : ReadsAttributes text attributes)
    (here : markup.drop index = unit '<' :: first :: name ++ (text ++ unit '>' :: rest)) :
  (scanTurn markup index).1.map Tag.unplaced = some (opening (first :: name) attributes) ∧
    (scanTurn markup index).2 =
      if first :: name = ascii "script" ∨ first :: name = ascii "style" then
        skipRawText markup (index + 1 + (first :: name).length + text.length + 1) (first :: name)
      else index + 1 + (first :: name).length + text.length + 1
  := by
  have not_special : ∀ u, isNameStart u = false → first ≠ u := by
    rintro u fails rfl
    rw [starts] at fails
    cases fails
  obtain ⟨bracket, not_comment, after⟩ := scanTurn_opened here (not_special _ (by decide))
  have behind : markup.drop (index + 1) = (first :: name) ++ (text ++ unit '>' :: rest) :=
    drop_behind [unit '<'] here
  have all_chars : ∀ u ∈ first :: name, isNameChar u = true := by
    intro u mem
    rw [mem_cons] at mem
    rcases mem with rfl | mem
    · simp [isNameChar, starts]
    · apply List.all_eq_true.mp name_chars u mem
  have cursor : runEnd isNameChar markup (index + 1) = index + 1 + (first :: name).length := by
    cases text with
    | nil => apply runEnd_eq _ behind all_chars (by decide)
    | cons u text => apply runEnd_eq _ behind all_chars (text_breaks u rfl)
  have named : Str.substring markup (index + 1) (index + 1 + (first :: name).length) =
      first :: name := substring_eq behind
  have read := reads markup _ rest (drop_behind _ behind)
  have not_doctype : ¬ (first = unit '!' ∨ first = unit '?') := by
    rintro (eq | eq)
    · apply not_special _ (by decide) eq
    · apply not_special _ (by decide) eq
  rw [scanTurn, if_neg (not_not.mpr bracket), if_neg (by simp [not_comment]), after]
  simp only [if_neg not_doctype, if_neg (not_special (unit '/') (by decide)), starts,
    not_true_eq_false, if_false, cursor, named, lowered, read]
  exact ⟨rfl, trivial⟩

theorem reads_opening {first : UInt16} {name : Str} (starts : isNameStart first = true)
    (name_chars : name.all isNameChar = true)
    (lowered : toLowercaseAscii (first :: name) = first :: name)
    (not_raw : first :: name ≠ ascii "script" ∧ first :: name ≠ ascii "style")
    (text_breaks : ∀ u ∈ text.head?, isNameChar u = false)
    (reads : ReadsAttributes text attributes) :
  Reads (unit '<' :: first :: name ++ (text ++ ascii ">")) [opening (first :: name) attributes]
  := by
  change Reads (unit '<' :: (first :: name ++ (text ++ [unit '>'])))
    (some (opening (first :: name) attributes)).toList
  apply reads_of_turn
  intro markup index rest here
  have here' : markup.drop index = unit '<' :: first :: name ++ (text ++ unit '>' :: rest) := by
    rw [here]
    simp only [cons_append, append_assoc, nil_append]
  obtain ⟨found, next⟩ := scanTurn_opening _ _ starts name_chars lowered text_breaks reads here'
  refine ⟨found, ?_⟩
  rw [next, if_neg (not_or.mpr not_raw)]
  simp only [length_append, length_cons]
  change _ = index + (name.length + 1 + (text.length + 1)) + 1
  omega

/-- A script element without a body. -/
theorem reads_script (text_breaks : ∀ u ∈ text.head?, isNameChar u = false)
    (reads : ReadsAttributes text attributes) :
  Reads (ascii "<script" ++ (text ++ ascii "></script>"))
    [opening (ascii "script") attributes, closing (ascii "script")]
  := by
  intro markup index rest here
  have here' : markup.drop index =
      unit '<' :: ascii "script" ++ (text ++ unit '>' :: (ascii "</script>" ++ rest)) := by
    rw [here]
    simp only [append_assoc]
    rfl
  have inside := lt_of_drop here'
  obtain ⟨found, next⟩ := scanTurn_opening (unit 's') (ascii "cript") (by decide)
    (by decide) (by decide) text_breaks reads here'
  have spelled : unit 's' :: ascii "cript" = ascii "script" := by decide
  have name_length : (ascii "script").length = 6 := by decide
  rw [spelled] at found next
  rw [name_length] at next
  have behind : markup.drop (index + 1 + 6 + text.length + 1) = ascii "</script>" ++ rest := by
    have opened : markup.drop (index + 1 + 6) = text ++ unit '>' :: (ascii "</script>" ++ rest) :=
      drop_behind (unit '<' :: ascii "script") here'
    apply drop_behind [unit '>'] (drop_behind _ opened)
  have fits : index + 1 + 6 + text.length + 1 + (ascii "</" ++ ascii "script").length ≤
      markup.length := by
    have length := congrArg List.length behind
    rw [length_drop, length_append] at length
    have eight : (ascii "</" ++ ascii "script").length = 8 := by decide
    have nine : (ascii "</script>").length = 9 := by decide
    omega
  have raw : skipRawText markup (index + 1 + 6 + text.length + 1) (ascii "script") =
      index + 1 + 6 + text.length + 1 := by
    have matched : matchesAsciiInsensitive markup (index + 1 + 6 + text.length + 1)
        (ascii "</" ++ ascii "script") = true := by
      rw [matchesAsciiInsensitive, behind]
      rfl
    rw [skipRawText, if_pos fits, if_pos matched]
  have parts : ascii "</script>" = ascii "</" ++ ascii "script" ++ ascii ">" := by decide
  have closes : Reads (ascii "</script>") [closing (ascii "script")] := by
    rw [parts]
    apply reads_closing
    · decide
    · decide
  have next' : (scanTurn markup index).2 = index + 1 + 6 + text.length + 1 := by
    rw [next, if_pos (.inl rfl)]
    apply raw
  rw [tagsFrom, dif_pos inside]
  simp only [map_append, next']
  rw [closes markup _ rest behind, ← append_assoc]
  congr 1
  · cases turn : (scanTurn markup index).1 with
    | none =>
      rw [turn] at found
      cases found
    | some tag =>
      rw [turn] at found
      change [tag.unplaced] ++ _ = _
      rw [Option.some_inj.mp found]
      rfl
  · congr 2
    simp only [length_append]
    change _ = index + (7 + (text.length + 10))
    change index + 1 + 6 + text.length + 1 + 9 = _
    omega

end Vilan.Web
