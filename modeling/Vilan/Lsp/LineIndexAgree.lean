import Vilan.Lsp.LineIndex

/-!
# The coordinates agree

The index, the count of line breaks up to an offset, and the sweep from one offset to the next give
the same line and column for each offset between two characters.
-/

namespace Vilan.Lsp

open List Option Vilan.Core.SourceMap Utf8

/-- The offsets between the characters of a text. -/
def Boundary (text : List Char) (offset : ℕ) : Prop :=
  offset ≤ (Utf8.encode text).length ∧ Utf8.isCharBoundary (Utf8.encode text) offset = true

/-- The place of an offset by the line breaks before it. -/
def placed (text : List Char) (offset : ℕ) : Option Position := do
  let (line, last) := lineBreaks ((Utf8.encode text).take offset)
  let column ← Utf8.slice (Utf8.encode text) (last.getD 0) offset
  some ⟨line, utf16Length column⟩

/-- A text cut behind a line feed and at an offset of the line that begins there. -/
structure Cut (text before line rest : List Char) (offset : ℕ) : Prop where
  parts : text = before ++ line ++ rest
  none_ : '\n' ∉ line
  ends : before = [] ∨ ∃ whole, before = whole ++ ['\n']
  offset_eq : offset = (Utf8.encode (before ++ line)).length

theorem Boundary.exists_cut {text : List Char} {offset : ℕ} (boundary : Boundary text offset) :
  ∃ before line rest, Cut text before line rest offset
  := by
  obtain ⟨front, rest, rfl, rfl⟩ := exists_split_of_isCharBoundary boundary.1 boundary.2
  obtain ⟨before, line, rfl, none_, ends⟩ := exists_line front
  exact ⟨before, line, rest, rfl, none_, ends, rfl⟩

namespace Cut

variable {text before line rest : List Char} {offset : ℕ}

/-- The line feeds before the offset. -/
def breaks (before : List Char) : ℕ :=
  (Utf8.encode before).countP (· = newline)

section

variable (cut : Cut text before line rest offset)
include cut

theorem le_offset :
  (Utf8.encode before).length ≤ offset
  := by
  rw [cut.offset_eq, encode_append, length_append]
  apply Nat.le_add_right

theorem offset_le :
  offset ≤ (Utf8.encode text).length
  := by
  rw [cut.offset_eq, cut.parts, encode_append (before ++ line), length_append]
  apply Nat.le_add_right

/-- The starts of the lines, cut at the line of the offset. -/
theorem exists_lineStarts :
  ∃ starts more, (LineIndex.new text).lineStarts =
      starts ++ (Utf8.encode before).length :: more ∧ starts.length = breaks before ∧
    (∀ start ∈ starts, start < (Utf8.encode before).length) ∧ ∀ start ∈ more, offset < start
  := by
  obtain ⟨starts, starts_eq, length, below⟩ := exists_starts cut.ends
  refine ⟨starts, lineStartsFrom (0 + (Utf8.encode (before ++ line)).length) (Utf8.encode rest), ?_,
    length, below, ?_⟩
  · rw [LineIndex.new, cut.parts, encode_append, lineStartsFrom_append, encode_append before line,
      lineStartsFrom_append, lineStartsFrom_eq_nil (newline_not_mem_encode cut.none_), append_nil,
      ← cons_append, starts_eq, append_assoc]
    rfl
  · intro start mem
    have bounds := mem_lineStartsFrom mem
    rw [cut.offset_eq]
    omega

theorem slice_line :
  Utf8.slice (Utf8.encode text) (Utf8.encode before).length offset = some line
  := by
  rw [cut.parts, cut.offset_eq]
  apply slice_append

theorem slice_rest :
  Utf8.slice (Utf8.encode text) (Utf8.encode before).length (Utf8.encode text).length =
    some (line ++ rest)
  := by
  have sliced := slice_append before (line ++ rest) []
  rw [append_nil, ← append_assoc, ← cut.parts] at sliced
  apply sliced

/-- The position of the offset. -/
theorem position_eq :
  (LineIndex.new text).position offset =
    some ⟨breaks before % 2 ^ 32, units line % 2 ^ 32⟩
  := by
  obtain ⟨starts, more, starts_eq, length, below, above⟩ := cut.exists_lineStarts
  have searched := binarySearch_eq below cut.le_offset above
  have counted : unitsUntil offset (line ++ rest) (Utf8.encode before).length 0 = units line := by
    have counted := unitsUntil_append line rest (Utf8.encode before).length 0
    rw [Nat.zero_add, ← length_append, ← encode_append, ← cut.offset_eq] at counted
    apply counted
  rw [LineIndex.position]
  rw [show (LineIndex.new text).text = text from rfl, Nat.min_eq_left cut.offset_le, starts_eq,
    searched, getElem?_append_right (Nat.le_refl _), Nat.sub_self, getElem?_cons_zero]
  dsimp only [bind_eq_bind, bind_some]
  rw [cut.slice_rest]
  dsimp only [bind_some]
  rw [counted, length]

/-- The line breaks before the offset. -/
theorem lineBreaks_take :
  (lineBreaks ((Utf8.encode text).take offset)).1 = breaks before % 2 ^ 32 ∧
    (lineBreaks ((Utf8.encode text).take offset)).2.getD 0 = (Utf8.encode before).length
  := by
  have taken : (Utf8.encode text).take offset = Utf8.encode before ++ Utf8.encode line := by
    rw [cut.parts, cut.offset_eq, encode_append (before ++ line), take_left, encode_append]
  have none_ := newline_not_mem_encode cut.none_
  have none_line : (Utf8.encode line).countP (· = newline) = 0 := by
    rw [← length_lineStartsFrom 0, lineStartsFrom_eq_nil none_]
    rfl
  rw [taken]
  constructor
  · rw [lineBreaks_fst, countP_append, none_line]
    rfl
  · rcases cut.ends with rfl | ⟨whole, rfl⟩
    · rw [encode_nil, nil_append, lineBreaks_eq_none none_]
      rfl
    · rw [encode_newline, append_assoc, singleton_append, lineBreaks_snd none_, length_append]
      rfl

theorem placed_eq :
  placed text offset = some ⟨breaks before % 2 ^ 32, units line % 2 ^ 32⟩
  := by
  obtain ⟨line_eq, last_eq⟩ := cut.lineBreaks_take
  rw [placed]
  dsimp only
  rw [last_eq, cut.slice_line]
  dsimp only [bind_eq_bind, bind_some]
  rw [line_eq, utf16Length_eq]
  rfl

/-- The offset of the position. -/
theorem offset_position :
  (LineIndex.new text).offset ⟨breaks before, units line⟩ = some offset
  := by
  obtain ⟨starts, more, starts_eq, length, -, -⟩ := cut.exists_lineStarts
  have found : (LineIndex.new text).lineStarts[breaks before]? =
      some (Utf8.encode before).length := by
    rw [starts_eq, ← length, getElem?_append_right (Nat.le_refl _), Nat.sub_self,
      getElem?_cons_zero]
  have counted := bytesUntil_append cut.none_ rest 0 (Utf8.encode before).length
  rw [Nat.zero_add, ← length_append, ← encode_append, ← cut.offset_eq] at counted
  rw [LineIndex.offset]
  rw [show (LineIndex.new text).text = text from rfl, found, getD_some, cut.slice_rest]
  dsimp only [bind_eq_bind, bind_some]
  rw [counted]

/-- From an offset on to a later one: the text between them, cut behind its last line feed. -/
theorem extend {offset' : ℕ} (le : offset ≤ offset')
    (boundary : Boundary text offset') :
  ∃ between line' rest', rest = between ++ line' ++ rest' ∧
    offset' = (Utf8.encode (before ++ line ++ (between ++ line'))).length ∧
    (between = [] ∧ Cut text before (line ++ line') rest' offset' ∨
      (∃ whole, between = whole ++ ['\n']) ∧
        Cut text (before ++ line ++ between) line' rest' offset')
  := by
  obtain ⟨front, rest', parts, rfl⟩ := exists_split_of_isCharBoundary boundary.1 boundary.2
  obtain ⟨more, rfl, rfl⟩ : ∃ more, front = before ++ line ++ more ∧ rest = more ++ rest' := by
    have same : before ++ line ++ rest = front ++ rest' := cut.parts.symm.trans parts
    rcases append_eq_append_iff.mp same with ⟨more, rfl, rfl⟩ | ⟨more, heq, rfl⟩
    · exact ⟨more, rfl, rfl⟩
    · have none_ : more = [] := by
        cases more with
        | nil => rfl
        | cons c more =>
          have some_ := length_pos_iff.mpr (String.utf8EncodeChar_ne_nil (c := c))
          rw [cut.offset_eq, heq, encode_append, length_append, encode_cons, length_append] at le
          omega
      rw [none_, append_nil] at heq
      exact ⟨[], by rw [append_nil, heq], by rw [none_]; rfl⟩
  obtain ⟨between, line', rfl, none_, ends⟩ := exists_line more
  refine ⟨between, line', rest', rfl, rfl, ?_⟩
  rcases ends with rfl | ends
  · left
    use rfl
    constructor
    · rw [parts, nil_append, append_assoc before]
    · rw [mem_append, not_or]
      exact ⟨cut.none_, none_⟩
    · apply cut.ends
    · rw [nil_append, append_assoc]
  · right
    use ends
    constructor
    · rw [parts]
      simp only [append_assoc]
    · apply none_
    · right
      obtain ⟨whole, rfl⟩ := ends
      exact ⟨before ++ line ++ whole, by rw [append_assoc (before ++ line)]⟩
    · rw [append_assoc (before ++ line)]

end

theorem breaks_append (before more : List Char) : breaks (before ++ more) = breaks before + breaks more := by
  rw [breaks, encode_append, countP_append]
  rfl

theorem breaks_line (cut : Cut text before line rest offset) : breaks line = 0 := by
  rw [breaks, ← length_lineStartsFrom 0, lineStartsFrom_eq_nil (newline_not_mem_encode cut.none_)]
  rfl

theorem breaks_newline (whole : List Char) : breaks (whole ++ ['\n']) = breaks whole + 1 := by
  rw [breaks_append]
  rfl

/-- In a text of less than `2 ^ 32` bytes no coordinate is cut. -/
theorem lt_bound (cut : Cut text before line rest offset)
    (small : (Utf8.encode text).length < 2 ^ 32) :
  breaks before < 2 ^ 32 ∧ units line < 2 ^ 32
  := by
  have breaks_le : breaks before ≤ (Utf8.encode before).length := countP_le_length
  have line_le := units_le line
  have total := cut.offset_le
  rw [cut.offset_eq, encode_append, length_append] at total
  omega

end Cut

/-- The order of positions: by line, and by character within a line. -/
def Position.le (position position' : Position) : Prop :=
  position.line < position'.line ∨
    position.line = position'.line ∧ position.character ≤ position'.character

theorem position_mono {text : List Char} (small : (Utf8.encode text).length < 2 ^ 32)
    {offset offset' : ℕ} (boundary : Boundary text offset) (boundary' : Boundary text offset')
    (le : offset ≤ offset') {position position' : Position}
    (here : (LineIndex.new text).position offset = some position)
    (there : (LineIndex.new text).position offset' = some position') :
  position.le position'
  := by
  obtain ⟨before, line, rest, cut⟩ := boundary.exists_cut
  have bounds := cut.lt_bound small
  rw [cut.position_eq, Nat.mod_eq_of_lt bounds.1, Nat.mod_eq_of_lt bounds.2] at here
  cases here
  obtain ⟨between, line', rest', -, -, ⟨-, cut'⟩ | ⟨⟨whole, rfl⟩, cut'⟩⟩ := cut.extend le boundary'
  · have bounds' := cut'.lt_bound small
    rw [cut'.position_eq, Nat.mod_eq_of_lt bounds'.1, Nat.mod_eq_of_lt bounds'.2] at there
    cases there
    right
    use rfl
    dsimp only
    rw [units_append]
    apply Nat.le_add_right
  · have bounds' := cut'.lt_bound small
    rw [cut'.position_eq, Nat.mod_eq_of_lt bounds'.1, Nat.mod_eq_of_lt bounds'.2] at there
    cases there
    left
    dsimp only
    rw [Cut.breaks_append, Cut.breaks_append, Cut.breaks_newline]
    omega

end Vilan.Lsp

/-! ### The sweep -/

namespace Vilan.Core.SourceMap

open List Option Vilan.Lsp

namespace Sweep

/-- A sweep stands at an offset of a text and knows its line. -/
def Stands (state : Sweep) (text : List Char) : Prop :=
  ∃ before line rest, Cut text before line rest state.swept ∧ state.line = Cut.breaks before % 2 ^ 32 ∧
    state.lineStart = (Utf8.encode before).length

theorem stands_start (source : ℕ) (text : List Char) : Stands ⟨source, 0, 0, 0⟩ text :=
  ⟨[], [], text, ⟨rfl, by simp, Or.inl rfl, rfl⟩, rfl, rfl⟩

/-- A sweep to a later offset says the position of it. -/
theorem Stands.advance {state : Sweep} {text : List Char} (stands : state.Stands text) {offset : ℕ}
    (le : state.swept ≤ offset) (boundary : Boundary text offset) :
  ∃ state' position, (LineIndex.new text).position offset = some position ∧
    Sweep.advance state text offset =
      some (state', ⟨state.source, text, position.line, position.character⟩) ∧
    state'.Stands text ∧ state'.source = state.source ∧ state'.swept = offset
  := by
  obtain ⟨before, line, rest, cut, line_eq, lineStart_eq⟩ := stands
  obtain ⟨between, line', rest', rest_eq, offset_eq, ends⟩ := cut.extend le boundary
  have swept : ((Utf8.encode text).drop state.swept).take (offset - state.swept) =
      Utf8.encode between ++ Utf8.encode line' := by
    rw [offset_eq, cut.offset_eq, cut.parts, rest_eq,
      Utf8.encode_append (before ++ line) (between ++ line'),
      Utf8.encode_append (before ++ line) (between ++ line' ++ rest'),
      Utf8.encode_append (between ++ line') rest', drop_left, length_append,
      Nat.add_sub_cancel_left, take_left, Utf8.encode_append]
  rw [Sweep.advance, if_pos ⟨le, boundary.1⟩, swept]
  rcases ends with ⟨rfl, cut'⟩ | ⟨⟨whole, rfl⟩, cut'⟩
  · have none_ : newline ∉ Utf8.encode line' := by
      apply newline_not_mem_encode
      have none_ := cut'.none_
      rw [mem_append, not_or] at none_
      apply none_.2
    have lines : (state.line + 0) % 2 ^ 32 = Cut.breaks before % 2 ^ 32 := by
      rw [line_eq, Nat.add_zero, Nat.mod_mod]
    rw [Utf8.encode_nil, nil_append, lineBreaks_eq_none none_]
    dsimp only
    rw [lineStart_eq, cut'.slice_line]
    dsimp only [bind_eq_bind, bind_some]
    refine ⟨⟨state.source, offset, (state.line + 0) % 2 ^ 32, (Utf8.encode before).length⟩, _,
      cut'.position_eq, ?_, ⟨before, line ++ line', rest', cut', lines, rfl⟩, rfl, rfl⟩
    rw [lines, utf16Length_eq]
    rfl
  · have none_ := newline_not_mem_encode cut'.none_
    have count : (Utf8.encode (whole ++ ['\n']) ++ Utf8.encode line').countP (· = newline) =
        Cut.breaks (whole ++ ['\n']) := by
      rw [countP_append]
      exact congrArg _ cut'.breaks_line
    have lines : (state.line + Cut.breaks (whole ++ ['\n']) % 2 ^ 32) % 2 ^ 32 =
        Cut.breaks (before ++ line ++ (whole ++ ['\n'])) % 2 ^ 32 := by
      rw [line_eq, ← Nat.add_mod, Cut.breaks_append (before ++ line), Cut.breaks_append before,
        cut.breaks_line]
      rfl
    have starts : state.swept + ((Utf8.encode whole).length + 1) =
        (Utf8.encode (before ++ line ++ (whole ++ ['\n']))).length := by
      rw [cut.offset_eq, Utf8.encode_append (before ++ line), encode_newline, length_append,
        length_append]
      rfl
    have answer : lineBreaks (Utf8.encode (whole ++ ['\n']) ++ Utf8.encode line') =
        (Cut.breaks (whole ++ ['\n']) % 2 ^ 32, some ((Utf8.encode whole).length + 1)) := by
      apply Prod.ext
      · rw [lineBreaks_fst, count]
      · rw [encode_newline, append_assoc, singleton_append, lineBreaks_snd none_]
    rw [answer]
    dsimp only
    rw [starts, cut'.slice_line]
    dsimp only [bind_eq_bind, bind_some]
    refine ⟨⟨state.source, offset, _, (Utf8.encode (before ++ line ++ (whole ++ ['\n']))).length⟩, _,
      cut'.position_eq, ?_, ⟨_, line', rest', cut', lines, rfl⟩, rfl, rfl⟩
    rw [lines, utf16Length_eq]
    rfl

/-- The original place of an anchor by the index of its text. -/
def original (texts : ℕ → Option (List Char)) (anchor : Anchored) : Option Original := do
  let text ← texts anchor.1
  let position ← (LineIndex.new text).position anchor.2.1
  some ⟨anchor.1, text, position.line, position.character⟩

/-- An anchor between two characters of a text. -/
def Anchors (texts : ℕ → Option (List Char)) (anchor : Anchored) : Prop :=
  ∃ text, texts anchor.1 = some text ∧ Boundary text anchor.2.1

theorem before_eq_true {a b : Anchored} :
  before a b = true ↔ a.1 < b.1 ∨ a.1 = b.1 ∧ (a.2.1 < b.2.1 ∨ a.2.1 = b.2.1 ∧ a.2.2 ≤ b.2.2)
  := by
  rw [before]
  simp only [Bool.or_eq_true, Bool.and_eq_true, decide_eq_true_eq]

/-- Over anchors in their order the sweep says what the index says of each. -/
theorem run_eq {texts : ℕ → Option (List Char)} {anchored : List Anchored}
    (sorted : anchored.Pairwise fun a b => before a b) (valid : ∀ anchor ∈ anchored, Anchors texts anchor)
    {sweep : Option Sweep}
    (ready : ∀ anchor ∈ anchored, ∀ text, texts anchor.1 = some text →
      (resume sweep anchor.1).Stands text ∧ (resume sweep anchor.1).swept ≤ anchor.2.1) :
  run texts sweep anchored =
    anchored.mapM fun anchor => (original texts anchor).map fun original => (anchor.2.2, original)
  := by
  induction anchored generalizing sweep with
  | nil => rfl
  | cons anchor anchored ih =>
    obtain ⟨source, offset, index⟩ := anchor
    obtain ⟨text, text_eq, boundary⟩ := valid _ (mem_cons_self ..)
    obtain ⟨stands, le⟩ := ready _ (mem_cons_self ..) text text_eq
    dsimp only at text_eq boundary stands le
    obtain ⟨state, position, position_eq, advanced, stands', source_eq, swept_eq⟩ :=
      stands.advance le boundary
    have source_resume : (resume sweep source).source = source := by
      unfold resume
      split
      · split
        next same => exact same
        next => rfl
      · rfl
    rw [source_resume] at advanced source_eq
    obtain ⟨first, sorted⟩ := pairwise_cons.mp sorted
    have ready' : ∀ anchor ∈ anchored, ∀ text', texts anchor.1 = some text' →
        (resume (some state) anchor.1).Stands text' ∧
          (resume (some state) anchor.1).swept ≤ anchor.2.1 := by
        intro anchor mem text' text_eq'
        rw [show resume (some state) anchor.1 =
          if state.source = anchor.1 then state else ⟨anchor.1, 0, 0, 0⟩ from rfl]
        split
        next same =>
          rw [source_eq] at same
          rw [← same, text_eq] at text_eq'
          cases text_eq'
          use stands'
          have after := before_eq_true.mp (first anchor mem)
          dsimp only at after
          rw [swept_eq]
          omega
        next => exact ⟨stands_start _ _, Nat.zero_le _⟩
    have rest := ih sorted (fun anchor mem => valid anchor (mem_cons_of_mem _ mem)) ready'
    have here : original texts (source, offset, index) =
        some ⟨source, text, position.line, position.character⟩ := by
      rw [original, text_eq]
      dsimp only [bind_eq_bind, bind_some]
      rw [position_eq]
      rfl
    rw [mapM_cons, here, run, text_eq]
    dsimp only [bind_eq_bind, bind_some, map_some]
    rw [advanced]
    dsimp only [bind_some]
    rw [rest]
    rfl

theorem exists_mapM {α β : Type*} {f : α → Option β} {xs : List α} (some_ : ∀ x ∈ xs, ∃ y, f x = some y) :
  ∃ ys, xs.mapM f = some ys ∧ ∀ y, y ∈ ys ↔ ∃ x ∈ xs, f x = some y
  := by
  induction xs with
  | nil => exact ⟨[], rfl, by simp⟩
  | cons x xs ih =>
    obtain ⟨y, y_eq⟩ := some_ x (mem_cons_self ..)
    obtain ⟨ys, ys_eq, mem_iff⟩ := ih fun x mem => some_ x (mem_cons_of_mem _ mem)
    use y :: ys
    constructor
    · rw [mapM_cons, y_eq, ys_eq]
      rfl
    · intro y'
      rw [mem_cons, mem_iff]
      simp only [mem_cons, exists_eq_or_imp, y_eq, some_inj]
      rw [eq_comm]

/-- The entries that are set, when each is set to one value. -/
theorem foldl_set {places : List (ℕ × Original)} (once : ∀ index original original',
    (index, original) ∈ places → (index, original') ∈ places → original = original')
    (originals : List (Option Original)) (index : ℕ) :
  (∀ original, (index, original) ∈ places → index < originals.length →
      (places.foldl (fun originals (index, original) => originals.set index (some original))
        originals)[index]? = some (some original)) ∧
    ((∀ original, (index, original) ∉ places) →
      (places.foldl (fun originals (index, original) => originals.set index (some original))
        originals)[index]? = originals[index]?)
  := by
  induction places using List.reverseRecOn with
  | nil => simp
  | append_singleton places place ih =>
    obtain ⟨index', original'⟩ := place
    have length : ∀ places : List (ℕ × Original),
        (places.foldl (fun originals (index, original) => originals.set index (some original))
          originals).length = originals.length := by
      intro places
      induction places using List.reverseRecOn with
      | nil => rfl
      | append_singleton places place ih => rw [foldl_append, foldl_cons, foldl_nil,
          length_set, ih]
    obtain ⟨ih_set, ih_kept⟩ := ih fun index original original' mem mem' =>
      once index original original' (mem_append_left _ mem) (mem_append_left _ mem')
    rw [foldl_append, foldl_cons, foldl_nil]
    dsimp only
    constructor
    · intro original mem lt
      by_cases same : index' = index
      · subst same
        rw [getElem?_set_self (by rw [length]; apply lt),
          once _ _ _ mem (mem_append_right _ (mem_singleton_self _))]
      · rw [getElem?_set_ne same]
        apply ih_set original _ lt
        rcases mem_append.mp mem with mem | mem
        · apply mem
        · cases mem_singleton.mp mem
          exact absurd rfl same
    · intro none_
      have ne : index' ≠ index := by
        rintro rfl
        exact none_ _ (mem_append_right _ (mem_singleton_self _))
      rw [getElem?_set_ne ne]
      apply ih_kept
      intro original mem
      apply none_ original (mem_append_left _ mem)

end Sweep

/-- A mark's original place by the index of its text. -/
def originalOf (texts : ℕ → Option (List Char)) (mark : Option (ℕ × ℕ)) : Option Original := do
  let anchor ← anchoredAt texts (mark, 0)
  Sweep.original texts anchor

theorem anchoredAt_eq_some {texts : ℕ → Option (List Char)} {mark : Option (ℕ × ℕ)} {index : ℕ}
    {anchor : Anchored} :
  anchoredAt texts (mark, index) = some anchor ↔
    ∃ source offset text, mark = some (source, offset) ∧ texts source = some text ∧
      Boundary text offset ∧ anchor = (source, offset, index)
  := by
  rw [anchoredAt]
  cases mark with
  | none => simp
  | some place =>
    obtain ⟨source, offset⟩ := place
    dsimp only [bind_eq_bind, bind_some]
    match same : texts source with
    | none => simp [same]
    | some text =>
        dsimp only [bind_some]
        constructor
        · intro here
          split at here
          next boundary =>
            cases here
            exact ⟨source, offset, text, rfl, same, boundary, rfl⟩
          next => cases here
        · rintro ⟨_, _, text', ⟨⟩, text_eq, boundary, rfl⟩
          rw [same] at text_eq
          cases text_eq
          apply if_pos boundary

/-- The sweep locates each mark where the index of its text does. -/
theorem locate_eq (texts : ℕ → Option (List Char)) (marks : List (Option (ℕ × ℕ))) :
  locate texts marks = some (marks.map (originalOf texts))
  := by
  obtain ⟨anchored, anchored_eq⟩ : ∃ anchored,
      anchored = (marks.zipIdx.filterMap (anchoredAt texts)).mergeSort Sweep.before := ⟨_, rfl⟩
  have sorted : anchored.Pairwise fun a b => Sweep.before a b := by
    rw [anchored_eq]
    apply pairwise_mergeSort
    · intro a b c
      simp only [Sweep.before_eq_true]
      omega
    · intro a b
      rw [Bool.or_eq_true, Sweep.before_eq_true, Sweep.before_eq_true]
      omega
  have mem_iff : ∀ anchor, anchor ∈ anchored ↔
      ∃ mark index, marks[index]? = some mark ∧ anchoredAt texts (mark, index) = some anchor := by
    intro anchor
    rw [anchored_eq, (mergeSort_perm _ _).mem_iff, mem_filterMap]
    constructor
    · rintro ⟨⟨mark, index⟩, mem, here⟩
      exact ⟨mark, index, mem_zipIdx_iff_getElem?.mp mem, here⟩
    · rintro ⟨mark, index, found, here⟩
      exact ⟨(mark, index), mem_zipIdx_iff_getElem?.mpr found, here⟩
  have valid : ∀ anchor ∈ anchored, Sweep.Anchors texts anchor := by
    intro anchor mem
    obtain ⟨mark, index, -, here⟩ := (mem_iff anchor).mp mem
    obtain ⟨source, offset, text, -, text_eq, boundary, rfl⟩ := anchoredAt_eq_some.mp here
    exact ⟨text, text_eq, boundary⟩
  have ready : ∀ anchor ∈ anchored, ∀ text, texts anchor.1 = some text →
      (Sweep.resume none anchor.1).Stands text ∧ (Sweep.resume none anchor.1).swept ≤ anchor.2.1 :=
    fun anchor _ text _ => ⟨Sweep.stands_start _ _, Nat.zero_le _⟩
  have swept := Sweep.run_eq sorted valid ready
  have some_ : ∀ anchor ∈ anchored, ∃ place,
      (Sweep.original texts anchor).map (fun original => (anchor.2.2, original)) = some place := by
    intro anchor mem
    obtain ⟨text, text_eq, boundary⟩ := valid anchor mem
    obtain ⟨before, line, rest, cut⟩ := boundary.exists_cut
    rw [Sweep.original, text_eq]
    dsimp only [bind_eq_bind, bind_some]
    rw [cut.position_eq]
    exact ⟨_, rfl⟩
  obtain ⟨places, places_eq, mem_places⟩ := Sweep.exists_mapM some_
  have place_iff : ∀ index original, (index, original) ∈ places ↔
      ∃ mark, marks[index]? = some mark ∧ originalOf texts mark = some original := by
    intro index original
    rw [mem_places]
    constructor
    · rintro ⟨anchor, mem, here⟩
      obtain ⟨mark, index', found, anchored_at⟩ := (mem_iff anchor).mp mem
      obtain ⟨source, offset, text, rfl, text_eq, boundary, rfl⟩ := anchoredAt_eq_some.mp anchored_at
      obtain ⟨original', here, same⟩ := map_eq_some_iff.mp here
      cases same
      refine ⟨_, found, ?_⟩
      rw [originalOf, anchoredAt_eq_some.mpr ⟨source, offset, text, rfl, text_eq, boundary, rfl⟩]
      apply here
    · rintro ⟨mark, found, here⟩
      obtain ⟨anchor, anchored_at, here⟩ := bind_eq_some_iff.mp here
      obtain ⟨source, offset, text, rfl, text_eq, boundary, rfl⟩ := anchoredAt_eq_some.mp anchored_at
      refine ⟨(source, offset, index), (mem_iff _).mpr ⟨_, index, found,
        anchoredAt_eq_some.mpr ⟨source, offset, text, rfl, text_eq, boundary, rfl⟩⟩, ?_⟩
      have here' : Sweep.original texts (source, offset, index) = some original := here
      rw [here']
      rfl
  have once : ∀ index original original', (index, original) ∈ places →
      (index, original') ∈ places → original = original' := by
    intro index original original' mem mem'
    obtain ⟨mark, found, here⟩ := (place_iff index original).mp mem
    obtain ⟨mark', found', here'⟩ := (place_iff index original').mp mem'
    rw [found] at found'
    cases found'
    rw [here] at here'
    cases here'
    rfl
  rw [locate, ← anchored_eq]
  dsimp only [bind_eq_bind]
  rw [swept, places_eq, bind_some]
  congr 1
  apply ext_getElem?
  intro index
  obtain ⟨set, kept⟩ := Sweep.foldl_set once (List.replicate marks.length none) index
  rw [getElem?_map, length_replicate] at *
  match found : marks[index]? with
  | none =>
      rw [kept]
      · rw [List.getElem?_eq_none_iff] at found
        rw [getElem?_eq_none (by rw [length_replicate]; apply found)]
        rfl
      · intro original mem
        obtain ⟨mark, found', -⟩ := (place_iff index original).mp mem
        rw [found] at found'
        cases found'
  | some mark =>
      obtain ⟨lt, -⟩ := List.getElem?_eq_some_iff.mp found
      rw [map_some]
      match here : originalOf texts mark with
      | none =>
          rw [kept, getElem?_replicate, if_pos lt]
          intro original mem
          obtain ⟨mark', found', here'⟩ := (place_iff index original).mp mem
          rw [found] at found'
          cases found'
          rw [here] at here'
          cases here'
      | some original => exact set original ((place_iff index original).mpr ⟨mark, found, here⟩) lt

end Vilan.Core.SourceMap

namespace Vilan.Lsp

open Vilan.Core.SourceMap

/-- The index says of an offset what the line breaks before it say, and finds its way back. -/
theorem position_agrees {text : List Char} (small : (Utf8.encode text).length < 2 ^ 32) {offset : ℕ}
    (boundary : Boundary text offset) :
  ∃ position, (LineIndex.new text).position offset = some position ∧
    placed text offset = some position ∧ (LineIndex.new text).offset position = some offset
  := by
  obtain ⟨before, line, rest, cut⟩ := boundary.exists_cut
  have bounds := cut.lt_bound small
  have placed_eq := cut.placed_eq
  have position_eq := cut.position_eq
  rw [Nat.mod_eq_of_lt bounds.1, Nat.mod_eq_of_lt bounds.2] at placed_eq position_eq
  exact ⟨_, position_eq, placed_eq, cut.offset_position⟩

/-- Line breaks are counted right, and the three ways to the place of an offset agree. -/
theorem places_agree :
  (∀ bytes : Bytes, (bytes.length < 2 ^ 32 → (lineBreaks bytes).1 = bytes.countP (· = newline)) ∧
      (newline ∉ bytes → (lineBreaks bytes).2 = none) ∧
      ∀ before after, bytes = before ++ newline :: after → newline ∉ after →
        (lineBreaks bytes).2 = some (before.length + 1)) ∧
    (∀ text, (Utf8.encode text).length < 2 ^ 32 → ∀ offset, Boundary text offset →
      ∃ position, (LineIndex.new text).position offset = some position ∧
        placed text offset = some position ∧ (LineIndex.new text).offset position = some offset ∧
        ∀ offset' position', Boundary text offset' → offset ≤ offset' →
          (LineIndex.new text).position offset' = some position' → position.le position') ∧
    ∀ texts marks, locate texts marks = some (marks.map (originalOf texts))
  := by
  refine ⟨?_, ?_, ?_⟩
  · intro bytes
    refine ⟨?_, ?_, ?_⟩
    · intro small
      have le : bytes.countP (· = newline) ≤ bytes.length := List.countP_le_length
      rw [lineBreaks_fst, Nat.mod_eq_of_lt (Nat.lt_of_le_of_lt le small)]
    · intro none_
      rw [lineBreaks_eq_none none_]
    · rintro before after rfl last
      apply lineBreaks_snd last
  · intro text small offset boundary
    obtain ⟨position, position_eq, placed_eq, offset_eq⟩ := position_agrees small boundary
    refine ⟨position, position_eq, placed_eq, offset_eq, ?_⟩
    intro offset' position' boundary' le there
    apply position_mono small boundary boundary' le position_eq there
  · intro texts marks
    apply locate_eq

/-- A text with a wide character on its second line. -/
theorem places_agree_wide :
  (lineBreaks (Utf8.encode ['a', '\n', 'é', '😀', 'b'])).1 = 1 ∧
    ∃ position, (LineIndex.new ['a', '\n', 'é', '😀', 'b']).position 8 = some position ∧
      (LineIndex.new ['a', '\n', 'é', '😀', 'b']).offset position = some 8
  := by
  have boundary : Boundary ['a', '\n', 'é', '😀', 'b'] 8 := by
    constructor
    · decide
    · decide
  obtain ⟨counted, placed, -⟩ := places_agree
  obtain ⟨position, here, -, back, -⟩ := placed _ (by decide) 8 boundary
  constructor
  · rw [(counted _).1 (by decide)]
    decide
  · exact ⟨position, here, back⟩

end Vilan.Lsp
