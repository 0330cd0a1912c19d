import Vilan.Library.Search
import Vilan.Std.Text

/-!
# The tag scanner

The tags of a page and their attributes, by a scan that skips everything else: the text between
tags, comments, doctypes and the bodies of scripts and styles.  Every loop of it hands an index
into the page to the next.
-/

namespace Vilan.Web

open List

/-! ### Characters -/

/-- A code unit with a capital letter in lower case, any other as it is. -/
def loweredUnit (character : UInt16) : UInt16 :=
  if 65 ≤ character && character ≤ 90 then character + 32 else character

def toLowercaseAscii (text : Str) : Str :=
  text.map loweredUnit

/-- Whether a character can open a tag name. -/
def isNameStart (character : UInt16) : Bool :=
  let lower := loweredUnit character
  unit 'a' ≤ lower && lower ≤ unit 'z'

/-- Whether a character can continue a tag name. -/
def isNameChar (character : UInt16) : Bool :=
  isNameStart character || (unit '0' ≤ character && character ≤ unit '9') ||
    character == unit '-' || character == unit ':'

def isSpace (character : UInt16) : Bool :=
  character == unit ' ' || character == unit '\t' || character == unit '\n' ||
    character == unit '\r'

/-- Whether a character ends an attribute name. -/
def isAttributeBreak (character : UInt16) : Bool :=
  isSpace character || character == unit '=' || character == unit '>' || character == unit '/'

/-! ### Search -/

/-- Where a loop stops that goes on over characters with a property. -/
def runEnd (p : UInt16 → Bool) (markup : Str) (index : ℕ) : ℕ :=
  index + ((markup.drop index).takeWhile p).length

/-- The first index at or behind another that is not whitespace. -/
def skipSpaces (markup : Str) (index : ℕ) : ℕ :=
  runEnd isSpace markup index

/-- Where a needle first occurs at or behind an index. -/
def indexOf (text needle : Str) (index : ℕ) : Option ℕ :=
  (Search.find needle (text.drop index)).map (index + ·)

/-- Behind a delimiter that was found, or where to give up. -/
def past (found : Option ℕ) (offset fallback : ℕ) : ℕ :=
  match found with
  | some «at» => «at» + offset
  | none => fallback

/-- Whether a needle occurs at an index, in letters of either case. -/
def matchesAsciiInsensitive (markup : Str) (index : ℕ) (needle : Str) : Bool :=
  toLowercaseAscii ((markup.drop index).take needle.length) == toLowercaseAscii needle

/-- Behind the body of a raw text element: its closing tag, or the end of the page. -/
def skipRawText (markup : Str) (index : ℕ) (name : Str) : ℕ :=
  let closing := ascii "</" ++ name
  if index + closing.length ≤ markup.length then
    if matchesAsciiInsensitive markup index closing then index
    else skipRawText markup (index + 1) name
  else markup.length
  termination_by markup.length - index
  decreasing_by
    have length : closing.length = 2 + name.length := by
      rw [length_append]
      rfl
    omega

theorem le_runEnd (p : UInt16 → Bool) (markup : Str) (index : ℕ) : index ≤ runEnd p markup index := by
  rw [runEnd]
  omega

variable {index : ℕ} {markup : Str}

theorem runEnd_le (p : UInt16 → Bool) (le : index ≤ markup.length) :
  runEnd p markup index ≤ markup.length
  := by
  have within := (List.takeWhile_prefix (l := markup.drop index) p).length_le
  rw [length_drop] at within
  rw [runEnd]
  omega

theorem lt_runEnd (p : UInt16 → Bool) (inside : index < markup.length)
    (holds : p markup[index] = true) :
  index < runEnd p markup index
  := by
  rw [runEnd, drop_eq_getElem_cons inside, takeWhile_cons_of_pos holds, length_cons]
  omega

theorem runEnd_of_not {p : UInt16 → Bool} (inside : index < markup.length)
    (fails : p markup[index] = false) :
  runEnd p markup index = index
  := by
  rw [runEnd, drop_eq_getElem_cons inside, takeWhile_cons_of_neg (by simp [fails])]
  rfl

/-- A search that comes up empty gives up at the end, and one that does not stays inside. -/
theorem past_indexOf {text needle : Str} (offset : ℕ) (some_ : needle ≠ [])
    (le : index ≤ text.length) (fits : offset ≤ needle.length) :
  index ≤ past (indexOf text needle index) offset text.length ∧
    past (indexOf text needle index) offset text.length ≤ text.length ∧
    (index < text.length → 0 < offset →
      index < past (indexOf text needle index) offset text.length)
  := by
  rw [indexOf]
  cases found : Search.find needle (text.drop index) with
  | none => simp only [Option.map_none, past]; omega
  | some e =>
    have inside := Search.length_of_occurs some_ (Search.find_eq_some_iff.mp found).2.1
    rw [length_drop] at inside
    simp only [Option.map_some, past]
    omega

theorem skipRawText_bounds (name : Str) (le : index ≤ markup.length) :
  index ≤ skipRawText markup index name ∧ skipRawText markup index name ≤ markup.length
  := by
  induction index using skipRawText.induct markup name with
  | case1 index closing fits matched =>
    rw [skipRawText, if_pos fits, if_pos matched]
    omega
  | case2 index closing fits fails ih =>
    have length : closing.length = 2 + name.length := by
      rw [length_append]
      rfl
    have bounds := ih (by omega)
    rw [skipRawText, if_pos fits, if_neg fails]
    omega
  | case3 index closing fits =>
    rw [skipRawText, if_neg fits]
    omega

/-! ### Attributes -/

/-- The value of an attribute whose name ends before an index, and where it ends. -/
def attributeValue (markup : Str) (index : ℕ) : Str × ℕ :=
  if markup[index]? = some (unit '=') then
    let start := skipSpaces markup (index + 1)
    let quote := (markup.drop start).take 1
    if quote = ascii "\"" ∨ quote = ascii "'" then
      let close := past (indexOf markup quote (start + 1)) 0 markup.length
      (Str.substring markup (start + 1) close,
        if close < markup.length then close + 1 else markup.length)
    else
      let stop := runEnd (fun character => !isSpace character && character != unit '>') markup start
      (Str.substring markup start stop, stop)
  else ([], index)

theorem attributeValue_bounds (le : index ≤ markup.length) :
  index ≤ (attributeValue markup index).2 ∧ (attributeValue markup index).2 ≤ markup.length ∧
    (markup[index]? = some (unit '=') → index < (attributeValue markup index).2)
  := by
  rw [attributeValue]
  split
  next equals =>
    have inside : index < markup.length := (List.getElem?_eq_some_iff.mp equals).1
    have start : index + 1 ≤ skipSpaces markup (index + 1) := le_runEnd _ _ _
    have start_le : skipSpaces markup (index + 1) ≤ markup.length := runEnd_le _ inside
    dsimp only
    split
    next quoted =>
      have opened : skipSpaces markup (index + 1) < markup.length := by
        by_contra outside
        rw [drop_eq_nil_of_le (by omega)] at quoted
        revert quoted
        decide
      have some_ : (markup.drop (skipSpaces markup (index + 1))).take 1 ≠ [] := by
        rw [← length_pos_iff, length_take, length_drop]
        omega
      have behind : skipSpaces markup (index + 1) + 1 ≤ markup.length := opened
      have close := past_indexOf 0 some_ behind (Nat.zero_le _)
      dsimp only
      split <;> omega
    next =>
      have stop := le_runEnd (fun character => !isSpace character && character != unit '>') markup
        (skipSpaces markup (index + 1))
      have stop_le := runEnd_le (fun character => !isSpace character && character != unit '>')
        start_le
      dsimp only
      omega
  next other =>
    refine ⟨le_rfl, le, ?_⟩
    intro equals
    contradiction

/-- Where the attribute that opens at an index ends, which is behind it. -/
theorem lt_attribute (inside : index < markup.length) (open_ : markup[index] ≠ unit '>')
    (shown : ¬ (isSpace markup[index] = true ∨ markup[index] = unit '/')) :
  index < (attributeValue markup
    (skipSpaces markup (runEnd (fun character => !isAttributeBreak character) markup index))).2
  := by
  have name_le : runEnd (fun character => !isAttributeBreak character) markup index ≤
      markup.length := runEnd_le _ inside.le
  have spaces_le : skipSpaces markup
      (runEnd (fun character => !isAttributeBreak character) markup index) ≤ markup.length :=
    runEnd_le _ name_le
  have spaces : runEnd (fun character => !isAttributeBreak character) markup index ≤
      skipSpaces markup (runEnd (fun character => !isAttributeBreak character) markup index) :=
    le_runEnd _ _ _
  obtain ⟨le, _, equals⟩ := attributeValue_bounds spaces_le
  rw [not_or] at shown
  cases breaks : isAttributeBreak markup[index] with
  | false =>
    have lt := lt_runEnd (fun character => !isAttributeBreak character) inside
      (by simp only [breaks, Bool.not_false])
    omega
  | true =>
    -- The name is empty: the character is the equals sign, and the value takes it.
    have is_equals : markup[index] = unit '=' := by
      simp only [isAttributeBreak, Bool.or_eq_true, beq_iff_eq] at breaks
      grind
    have stays : runEnd (fun character => !isAttributeBreak character) markup index = index :=
      runEnd_of_not inside (by simp only [breaks, Bool.not_true])
    have not_space : isSpace markup[index] = false := by
      rw [is_equals]
      decide
    have still : skipSpaces markup index = index := runEnd_of_not inside not_space
    rw [stays, still] at equals ⊢
    apply equals
    rw [getElem?_eq_getElem inside, is_equals]

/-- The attributes of the tag whose name ends at an index, in source order, and the index behind
its end. -/
def attributesOf (markup : Str) (index : ℕ) : List (Str × Str) × ℕ :=
  if inside : index < markup.length then
    if open_ : markup[index] = unit '>' then ([], index + 1)
    else if shown : isSpace markup[index] = true ∨ markup[index] = unit '/' then
      attributesOf markup (index + 1)
    else
      let cursor := runEnd (fun character => !isAttributeBreak character) markup index
      let name := toLowercaseAscii (Str.substring markup index cursor)
      let read := attributeValue markup (skipSpaces markup cursor)
      have := lt_attribute inside open_ shown
      let rest := attributesOf markup read.2
      ((name, read.1) :: rest.1, rest.2)
  else ([], markup.length)
  termination_by markup.length - index

theorem attributesOf_bounds (le : index ≤ markup.length) :
  index ≤ (attributesOf markup index).2 ∧ (attributesOf markup index).2 ≤ markup.length
  := by
  induction index using attributesOf.induct markup with
  | case1 index inside open_ =>
    rw [attributesOf, dif_pos inside, dif_pos open_]
    simp only
    omega
  | case2 index inside open_ shown ih =>
    rw [attributesOf, dif_pos inside, dif_neg open_, dif_pos shown]
    have bounds := ih inside
    omega
  | case3 index inside open_ shown cursor read behind ih =>
    rw [attributesOf, dif_pos inside, dif_neg open_, dif_neg shown]
    have cursor_le : cursor ≤ markup.length := runEnd_le _ inside.le
    have read_le : read.2 ≤ markup.length := (attributeValue_bounds (runEnd_le _ cursor_le)).2.1
    have bounds := ih read_le
    change index < read.2 at behind
    change index ≤ (attributesOf markup read.2).2 ∧ (attributesOf markup read.2).2 ≤ _
    omega
  | case4 index outside =>
    rw [attributesOf, dif_neg outside]
    simp only
    omega

/-! ### Tags -/

/-- A tag, opening or closing, with the index of its start and the one behind its end. -/
structure Tag where
  name : Str
  attributes : List (Str × Str)
  start : ℕ
  stop : ℕ
  closing : Bool
  deriving DecidableEq

/-- The value of an attribute, empty when the tag does not carry it. -/
def Tag.attribute (tag : Tag) (name : Str) : Str :=
  match tag.attributes.find? (fun entry => entry.1 == name) with
  | some entry => entry.2
  | none => []

/-- One turn of the scan, at an index inside the page: the tag that starts there, if one does, and
where the next turn is. -/
def scanTurn (markup : Str) (index : ℕ) : Option Tag × ℕ :=
  if markup[index]? ≠ some (unit '<') then (none, index + 1)
  else if (ascii "<!--").isPrefixOf (markup.drop index) then
    (none, past (indexOf markup (ascii "-->") (index + 4)) 3 markup.length)
  else
    match markup[index + 1]? with
    | none => (none, index + 1)
    | some after =>
        -- A doctype or a processing instruction.
        if after = unit '!' ∨ after = unit '?' then
          (none, past (indexOf markup (ascii ">") (index + 1)) 1 markup.length)
        else if after = unit '/' then
          let cursor := runEnd isNameChar markup (index + 2)
          let name := toLowercaseAscii (Str.substring markup (index + 2) cursor)
          let stop := past (indexOf markup (ascii ">") cursor) 1 markup.length
          (some ⟨name, [], index, stop, true⟩, stop)
        else if ¬ isNameStart after then (none, index + 1)
        else
          let cursor := runEnd isNameChar markup (index + 1)
          let name := toLowercaseAscii (Str.substring markup (index + 1) cursor)
          let read := attributesOf markup cursor
          (some ⟨name, read.1, index, read.2, false⟩,
            if name = ascii "script" ∨ name = ascii "style" then skipRawText markup read.2 name
            else read.2)

theorem length_of_isPrefixOf {needle text : Str} (occurs : needle.isPrefixOf text = true) :
  needle.length ≤ text.length
  := by
  rw [List.isPrefixOf_iff_prefix] at occurs
  apply occurs.length_le

/-- Every turn moves on, and stays inside. -/
theorem scanTurn_bounds (inside : index < markup.length) :
  index < (scanTurn markup index).2 ∧ (scanTurn markup index).2 ≤ markup.length
  := by
  rw [scanTurn]
  split
  next => omega
  split
  next comment =>
    have fits := length_of_isPrefixOf comment
    have length : (ascii "<!--").length = 4 := by decide
    rw [length_drop, length] at fits
    have inside' : index + 4 ≤ markup.length := by omega
    have some_ : ascii "-->" ≠ [] := by decide
    have behind := past_indexOf 3 some_ inside' (by decide)
    dsimp only
    omega
  split
  next => omega
  next after opens =>
    have two : index + 1 < markup.length := (List.getElem?_eq_some_iff.mp opens).1
    have some_ : ascii ">" ≠ [] := by decide
    split
    next =>
      have behind := past_indexOf 1 some_ two.le (by decide)
      dsimp only
      omega
    split
    next =>
      have cursor := le_runEnd isNameChar markup (index + 2)
      have name : index + 2 ≤ markup.length := two
      have cursor_le := runEnd_le isNameChar name
      have behind := past_indexOf 1 some_ cursor_le (by decide)
      dsimp only
      omega
    split
    next => omega
    next =>
      have cursor := le_runEnd isNameChar markup (index + 1)
      have cursor_le := runEnd_le isNameChar two.le
      have read := attributesOf_bounds cursor_le
      dsimp only
      split
      next =>
        have raw := skipRawText_bounds (toLowercaseAscii (Str.substring markup (index + 1)
          (runEnd isNameChar markup (index + 1)))) read.2
        omega
      next => omega

/-- The tags at and behind an index, in document order. -/
def tagsFrom (markup : Str) (index : ℕ) : List Tag :=
  if inside : index < markup.length then
    let turn := scanTurn markup index
    have := scanTurn_bounds inside
    turn.1.toList ++ tagsFrom markup turn.2
  else []
  termination_by markup.length - index

/-- Every tag of a page. -/
def tagsOf (markup : Str) : List Tag :=
  tagsFrom markup 0

end Vilan.Web
