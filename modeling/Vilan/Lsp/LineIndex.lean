import Vilan.Core.Locate

/-!
# Offsets, lines and columns

The index of lines that the language server and the playground count with.  A slice inside a
character and an index out of range would panic, which is `none`.
-/

namespace Vilan.Lsp

open List

open Vilan.Core.SourceMap

/-- A line and a UTF-16 offset within it. -/
structure Position where
  line : ℕ
  character : ℕ
deriving DecidableEq

structure LineIndex where
  /-- The offsets at which the lines begin. -/
  lineStarts : List ℕ
  text : List Char

/-- The offsets just past the line feeds, the first byte standing at `offset`. -/
def lineStartsFrom (offset : ℕ) : Bytes → List ℕ
  | [] => []
  | byte :: bytes =>
      if byte = newline then (offset + 1) :: lineStartsFrom (offset + 1) bytes
      else lineStartsFrom (offset + 1) bytes

/-- The search in an increasing list: where an element stands, or where it would. -/
def binarySearch (starts : List ℕ) (offset : ℕ) : Except ℕ ℕ :=
  let next := starts.findIdx (offset ≤ ·)
  if starts[next]? = some offset then .ok next else .error next

/-- The units of the characters up to an offset, the first character standing at `byte`. -/
def unitsUntil (offset : ℕ) : List Char → ℕ → ℕ → ℕ
  | [], _, character => character
  | c :: chars, byte, character =>
      if offset ≤ byte then character
      else unitsUntil offset chars (byte + (String.utf8EncodeChar c).length) (character + lenUtf16 c)

/-- The offset of the character that so many units of its line precede. -/
def bytesUntil (character : ℕ) : List Char → ℕ → ℕ → ℕ
  | [], _, offset => offset
  | c :: chars, utf16, offset =>
      if character ≤ utf16 ∨ c = '\n' then offset
      else bytesUntil character chars (utf16 + lenUtf16 c) (offset + (String.utf8EncodeChar c).length)

namespace LineIndex

def new (text : List Char) : LineIndex where
  lineStarts := 0 :: lineStartsFrom 0 (Utf8.encode text)
  text

/-- The position for a byte offset. -/
def position (index : LineIndex) (offset : ℕ) : Option Position := do
  let bytes := Utf8.encode index.text
  let offset := min offset bytes.length
  let line :=
    match binarySearch index.lineStarts offset with
    | .ok line => line
    | .error next => next - 1
  let lineStart ← index.lineStarts[line]?
  let rest ← Utf8.slice bytes lineStart bytes.length
  some ⟨line % 2 ^ 32, unitsUntil offset rest lineStart 0 % 2 ^ 32⟩

/-- The byte offset for a position. -/
def offset (index : LineIndex) (position : Position) : Option ℕ := do
  let bytes := Utf8.encode index.text
  let lineStart := index.lineStarts[position.line]?.getD bytes.length
  let rest ← Utf8.slice bytes lineStart bytes.length
  some (bytesUntil position.character rest 0 lineStart)

end LineIndex

/-! ### The last line of a text -/

/-- A text up to its last line feed, and the line behind it. -/
theorem exists_line (text : List Char) :
  ∃ before line, text = before ++ line ∧ '\n' ∉ line ∧
    (before = [] ∨ ∃ whole, before = whole ++ ['\n'])
  := by
  induction text using List.reverseRecOn with
  | nil => exact ⟨[], [], rfl, by simp, Or.inl rfl⟩
  | append_singleton text c ih =>
    by_cases same : c = '\n'
    · exact ⟨text ++ [c], [], by simp, by simp, Or.inr ⟨text, by rw [same]⟩⟩
    · obtain ⟨before, line, rfl, none_, ends⟩ := ih
      refine ⟨before, line ++ [c], by simp, ?_, ends⟩
      simp only [mem_append, mem_singleton, not_or]
      exact ⟨none_, fun h => same h.symm⟩

theorem newline_not_mem_encode {line : List Char} (none_ : '\n' ∉ line) :
  newline ∉ Utf8.encode line
  := by
  intro mem
  apply none_
  apply Utf8.mem_of_mem_encode (b := newline) (by decide) rfl mem

theorem encode_newline (text : List Char) :
  Utf8.encode (text ++ ['\n']) = Utf8.encode text ++ [newline]
  := by
  rw [Utf8.encode_append]
  rfl

/-! ### Where the lines start -/

theorem lineStartsFrom_append (offset : ℕ) (bytes more : Bytes) :
  lineStartsFrom offset (bytes ++ more) =
    lineStartsFrom offset bytes ++ lineStartsFrom (offset + bytes.length) more
  := by
  induction bytes generalizing offset with
  | nil => rfl
  | cons byte bytes ih =>
    rw [cons_append, lineStartsFrom, lineStartsFrom, ih, length_cons,
      Nat.add_right_comm offset 1, Nat.add_assoc offset]
    split
    all_goals rfl

theorem lineStartsFrom_eq_nil {bytes : Bytes} (none_ : newline ∉ bytes) (offset : ℕ) :
  lineStartsFrom offset bytes = []
  := by
  induction bytes generalizing offset with
  | nil => rfl
  | cons byte bytes ih =>
    rw [mem_cons, not_or] at none_
    obtain ⟨ne, none_⟩ := none_
    rw [lineStartsFrom, if_neg fun h => ne h.symm, ih none_]

theorem length_lineStartsFrom (offset : ℕ) (bytes : Bytes) :
  (lineStartsFrom offset bytes).length = bytes.countP (· = newline)
  := by
  induction bytes generalizing offset with
  | nil => rfl
  | cons byte bytes ih =>
    rw [lineStartsFrom, countP_cons]
    simp only [decide_eq_true_eq]
    split
    · rw [length_cons, ih]
    · rw [ih]
      rfl

theorem mem_lineStartsFrom {offset start : ℕ} {bytes : Bytes}
    (mem : start ∈ lineStartsFrom offset bytes) :
  offset < start ∧ start ≤ offset + bytes.length
  := by
  induction bytes generalizing offset with
  | nil => cases mem
  | cons byte bytes ih =>
    rw [length_cons]
    rw [lineStartsFrom] at mem
    split at mem
    · rcases mem_cons.mp mem with rfl | mem
      · omega
      · have bounds := ih mem
        omega
    · have bounds := ih mem
      omega

/-- The starts of the lines up to the one that an offset is in. -/
theorem exists_starts {before : List Char} (ends : before = [] ∨ ∃ whole, before = whole ++ ['\n']) :
  ∃ starts, 0 :: lineStartsFrom 0 (Utf8.encode before) = starts ++ [(Utf8.encode before).length] ∧
    starts.length = (Utf8.encode before).countP (· = newline) ∧
    ∀ start ∈ starts, start < (Utf8.encode before).length
  := by
  have length := length_lineStartsFrom 0 (Utf8.encode before)
  rcases ends with rfl | ⟨whole, rfl⟩
  · exact ⟨[], rfl, rfl, by simp⟩
  · use 0 :: lineStartsFrom 0 (Utf8.encode whole)
    rw [encode_newline, countP_append, ← length_lineStartsFrom 0 (Utf8.encode whole),
      lineStartsFrom_append]
    refine ⟨by simp [lineStartsFrom], by simp, ?_⟩
    rintro start (_ | ⟨_, mem⟩)
    · simp
    · have bounds := mem_lineStartsFrom mem
      rw [length_append, length_singleton]
      omega

/-- The search finds the line whose start is the last one up to an offset. -/
theorem binarySearch_eq {starts more : List ℕ} {lineStart offset : ℕ}
    (below : ∀ start ∈ starts, start < lineStart) (le : lineStart ≤ offset)
    (above : ∀ start ∈ more, offset < start) :
  (match binarySearch (starts ++ lineStart :: more) offset with
    | .ok line => line
    | .error next => next - 1) = starts.length
  := by
  have skipped : starts.findIdx (offset ≤ ·) = starts.length := by
    rw [findIdx_eq_length]
    intro start mem
    have lt := below start mem
    rw [decide_eq_false_iff_not]
    omega
  have searched : (starts ++ lineStart :: more).findIdx (offset ≤ ·) =
      starts.length + if offset ≤ lineStart then 0 else 1 := by
    rw [findIdx_append, skipped, if_neg (Nat.lt_irrefl _), findIdx_cons]
    rw [Nat.add_comm]
    congr 1
    by_cases same : offset ≤ lineStart
    · rw [decide_eq_true same, if_pos same]
      rfl
    · rw [decide_eq_false same, if_neg same]
      cases more with
      | nil => rfl
      | cons start more =>
        have lt := above start (mem_cons_self ..)
        rw [findIdx_cons, decide_eq_true (Nat.le_of_lt lt)]
        rfl
  rw [binarySearch, searched]
  by_cases same : offset ≤ lineStart
  · have eq : lineStart = offset := Nat.le_antisymm le same
    rw [if_pos same, if_pos]
    · rfl
    · rw [Nat.add_zero, getElem?_append_right (Nat.le_refl _), Nat.sub_self, eq]
      rfl
  · rw [if_neg same, if_neg]
    · rfl
    · rw [getElem?_append_right (Nat.le_add_right _ _), Nat.add_sub_cancel_left]
      intro found
      have lt := above offset (mem_of_getElem? found)
      omega

/-! ### Columns -/

/-- The UTF-16 units of a text. -/
def units (text : List Char) : ℕ :=
  (text.map lenUtf16).sum

theorem units_cons (c : Char) (text : List Char) :
  units (c :: text) = lenUtf16 c + units text
  := rfl

theorem units_append (text more : List Char) :
  units (text ++ more) = units text + units more
  := by
  rw [units, map_append, sum_append]
  rfl

theorem length_encode_cons (c : Char) (text : List Char) :
  (Utf8.encode (c :: text)).length = (String.utf8EncodeChar c).length + (Utf8.encode text).length
  := by
  rw [Utf8.encode_cons, length_append]

theorem unitsUntil_append (line rest : List Char) (byte character : ℕ) :
  unitsUntil (byte + (Utf8.encode line).length) (line ++ rest) byte character =
    character + units line
  := by
  induction line generalizing byte character with
  | nil =>
    cases rest with
    | nil => rfl
    | cons c rest =>
      rw [nil_append, unitsUntil, if_pos]
      · rfl
      · apply Nat.le_refl
  | cons c line ih =>
    have some_ := length_pos_iff.mpr (String.utf8EncodeChar_ne_nil (c := c))
    rw [cons_append, unitsUntil, length_encode_cons, if_neg (by omega), ← Nat.add_assoc, ih,
      units_cons, Nat.add_assoc]

theorem bytesUntil_append {line : List Char} (none_ : '\n' ∉ line) (rest : List Char)
    (utf16 offset : ℕ) :
  bytesUntil (utf16 + units line) (line ++ rest) utf16 offset =
    offset + (Utf8.encode line).length
  := by
  induction line generalizing utf16 offset with
  | nil =>
    cases rest with
    | nil => rfl
    | cons c rest =>
      rw [nil_append, bytesUntil, if_pos]
      · rfl
      · left
        apply Nat.le_refl
  | cons c line ih =>
    rw [mem_cons, not_or] at none_
    have some_ := lenUtf16_pos c
    have further : ¬(utf16 + (lenUtf16 c + units line) ≤ utf16 ∨ c = '\n') := by
      rintro (le | same)
      · omega
      · exact none_.1 same.symm
    rw [cons_append, bytesUntil, units_cons, if_neg further, ← Nat.add_assoc, ih none_.2,
      length_encode_cons, Nat.add_assoc]

theorem units_le (text : List Char) : units text ≤ (Utf8.encode text).length := by
  have le : ∀ c, lenUtf16 c ≤ (String.utf8EncodeChar c).length := by
    intro c
    rw [lenUtf16]
    have some_ := length_pos_iff.mpr (String.utf8EncodeChar_ne_nil (c := c))
    split
    next => apply some_
    next wide =>
      have wide' : ¬c.val.toNat ≤ 0xFFFF := wide
      rw [String.utf8EncodeChar, if_neg (by omega), if_neg (by omega), if_neg (by omega)]
      exact Nat.le_add_left 2 2
  induction text with
  | nil => exact Nat.le_refl _
  | cons c text ih =>
    have le_c := le c
    rw [units_cons, length_encode_cons]
    omega

end Vilan.Lsp
