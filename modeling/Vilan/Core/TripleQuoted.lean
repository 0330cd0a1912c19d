import Mathlib.Data.List.TakeWhile
import Vilan.Core.Lexing

/-!
# The two triple-quoted forms

A triple-quoted text is trimmed line by line.  The interpolated form of it is walked character by
character instead, and cut into fragments that are read as quoted strings are.  Without braces the
fragments say what the trimmed lines say.
-/

namespace Vilan.Core.Lexing

open List

/-! ### Lines and what quoted strings make of them -/

theorem stripCarriageReturn_append (front : List Char) {back : List Char} (some_ : back ≠ []) :
  stripCarriageReturn (front ++ back) = front ++ stripCarriageReturn back
  := by
  rw [stripCarriageReturn, stripCarriageReturn, getLast?_append_of_ne_nil _ some_,
    dropLast_append_of_ne_nil some_]
  split <;> rfl

variable {line raw : List Char} {layout : MultilineLayout}

theorem stripCarriageReturn_cons (c : Char) (some_ : line ≠ []) :
  stripCarriageReturn (c :: line) = c :: stripCarriageReturn line
  := stripCarriageReturn_append [c] some_

theorem stripCarriageReturn_begins (line : List Char) : stripCarriageReturn line <+: line := by
  rw [stripCarriageReturn]
  split
  · apply dropLast_prefix
  · apply prefix_rfl

theorem normalizeNewlines_cons {c : Char} {text : List Char}
    (single : ¬ (c = '\r' ∧ ['\n'] <+: text)) :
  normalizeNewlines (c :: text) = c :: normalizeNewlines text
  := by
  rw [normalizeNewlines]
  rintro behind rfl rfl
  apply single
  simp

theorem normalizeNewlines_line (closed : '\n' ∉ line) :
  normalizeNewlines line = line
  := by
  induction line with
  | nil => rfl
  | cons c line ih =>
    rw [mem_cons, not_or] at closed
    rw [normalizeNewlines_cons, ih closed.2]
    rintro ⟨-, first⟩
    apply closed.2
    apply first.subset
    simp

/-- The end of a line is one character, whether or not a carriage return is part of it. -/
theorem normalizeNewlines_feed (closed : '\n' ∉ line) :
  normalizeNewlines (line ++ ['\n']) = stripCarriageReturn line ++ ['\n']
  := by
  induction line with
  | nil => rfl
  | cons c line ih =>
    rw [mem_cons, not_or] at closed
    cases line with
    | nil =>
      by_cases carriage : c = '\r'
      · subst carriage
        rfl
      · rw [singleton_append, normalizeNewlines_cons (by simp [carriage])]
        simp [stripCarriageReturn, carriage, normalizeNewlines]
    | cons d line =>
      change normalizeNewlines (c :: (d :: line ++ ['\n'])) = _
      rw [stripCarriageReturn_cons c (by simp), normalizeNewlines_cons, ih closed.2]
      · rfl
      · rintro ⟨-, first⟩
        rw [cons_append, cons_prefix_cons] at first
        apply closed.2
        rw [← first.1]
        apply mem_cons_self

theorem mem_of_mem_normalizeNewlines {c : Char} {text : List Char}
    (mem : c ∈ normalizeNewlines text) :
  c ∈ text
  := by
  fun_induction normalizeNewlines text with
  | case1 => apply mem
  | case2 text ih =>
    rw [mem_cons] at mem
    obtain rfl | mem := mem
    · simp
    · simp [ih mem]
  | case3 d text _ ih =>
    rw [mem_cons] at mem ⊢
    exact mem.imp_right ih

theorem decodeEscapes_plain {text : List Char} (plain : '\\' ∉ text) {fuel : ℕ}
    (lt : text.length < fuel) :
  decodeEscapes fuel text = text
  := by
  induction text generalizing fuel with
  | nil =>
    obtain ⟨fuel, rfl⟩ := Nat.exists_eq_add_of_lt lt
    rw [decodeEscapes]
  | cons c text ih =>
    rw [mem_cons, not_or] at plain
    obtain ⟨fuel, rfl⟩ := Nat.exists_eq_add_of_lt lt
    rw [decodeEscapes, if_pos (Ne.symm plain.1), ih plain.2 (by simp only [length_cons]; omega)]

/-- Text without a backslash says what it says, on lines that end with a line feed. -/
theorem unescapeString_plain {text : List Char} (plain : '\\' ∉ text) :
  unescapeString text = normalizeNewlines text
  := by
  apply decodeEscapes_plain _ (Nat.lt_succ_self _)
  intro mem
  apply plain (mem_of_mem_normalizeNewlines mem)

theorem unescapeString_rawBackslash : unescapeString rawBackslash = ['\\'] := by
  decide

/-! ### The walk over a line -/

section Walk

variable {size : ℕ} {indentation stop : List Char}

@[simp]
theorem within_append (text stop : List Char) : within stop (text ++ stop) = text := by
  simp [within]

theorem multilineParts_stop (fuel : ℕ) (atLineStart : Bool) :
  multilineParts size indentation stop fuel atLineStart stop = ([], [])
  := by
  cases fuel with
  | zero => rfl
  | succ fuel =>
    rw [multilineParts, if_pos (Nat.le_refl _)]

theorem multilineParts_start (fuel : ℕ) {text : List Char} (some_ : text ≠ []) :
  multilineParts size indentation stop (fuel + 1) true (text ++ stop) =
    multilineParts size indentation stop fuel false
      (skipMultilineIndentation indentation stop (text ++ stop))
  := by
  have pos := length_pos_iff.mpr some_
  rw [multilineParts, if_neg (by rw [length_append]; omega), if_pos rfl]

variable {c : Char} {front line tail : List Char} {fuel : ℕ}

theorem multilineParts_text (fuel : ℕ) {back : List Char}
    (run : multilineText (c :: front ++ back) = c :: front) :
  multilineParts size indentation stop (fuel + 1) false (c :: front ++ back ++ stop) =
    let behind := multilineParts size indentation stop fuel ((c :: front).getLast? = some '\n')
      (back ++ stop)
    (.text (c :: front) :: behind.1, behind.2)
  := by
  have plain : ¬ (c = '{' ∨ c = '}' ∨ c = '\\') := by
    intro special
    rw [cons_append, multilineText, if_pos special] at run
    simp at run
  rw [not_or, not_or] at plain
  obtain ⟨ne₁, ne₂, ne₃⟩ := plain
  rw [multilineParts, if_neg (by simp only [length_append, length_cons]; omega),
    if_neg Bool.false_ne_true, if_neg (by simp [Ne.symm ne₁]), if_neg (by simp [Ne.symm ne₂]),
    if_neg (by simp [Ne.symm ne₃]), within_append, run]
  dsimp only
  rw [append_assoc, drop_left]

theorem multilineParts_escape (fuel : ℕ) (text : List Char) :
  multilineParts size indentation stop (fuel + 1) false ('\\' :: text ++ stop) =
    let escape := multilineEscape text
    let behind := multilineParts size indentation stop fuel escape.2.2
      ((text ++ stop).drop escape.2.1)
    (escape.1.map .text ++ behind.1, behind.2)
  := by
  rw [multilineParts, if_neg (by rw [length_append, length_cons]; omega),
    if_neg Bool.false_ne_true, if_neg (by simp), if_neg (by simp), if_pos (by simp)]
  simp only [cons_append, drop_succ_cons, drop_zero, within_append, Nat.add_comm 1]

/-- A run of text stops at a backslash. -/
theorem multilineText_backslash (text : List Char)
    (plain : ∀ c ∈ front, c ≠ '{' ∧ c ≠ '}' ∧ c ≠ '\\' ∧ c ≠ '\n') :
  multilineText (front ++ '\\' :: text) = front
  := by
  induction front with
  | nil => simp [multilineText]
  | cons c front ih =>
    obtain ⟨⟨ne₁, ne₂, ne₃, ne₄⟩, plain⟩ := forall_mem_cons.mp plain
    rw [cons_append, multilineText, if_neg (by simp [ne₁, ne₂, ne₃]), if_neg ne₄, ih plain]

/-- A run of text ends with its line. -/
theorem multilineText_feed (text : List Char)
    (plain : ∀ c ∈ front, c ≠ '{' ∧ c ≠ '}' ∧ c ≠ '\\' ∧ c ≠ '\n') :
  multilineText (front ++ '\n' :: text) = front ++ ['\n']
  := by
  induction front with
  | nil => simp [multilineText]
  | cons c front ih =>
    obtain ⟨⟨ne₁, ne₂, ne₃, ne₄⟩, plain⟩ := forall_mem_cons.mp plain
    rw [cons_append, multilineText, if_neg (by simp [ne₁, ne₂, ne₃]), if_neg ne₄, ih plain]
    rfl

theorem multilineText_line (plain : ∀ c ∈ front, c ≠ '{' ∧ c ≠ '}' ∧ c ≠ '\\' ∧ c ≠ '\n') :
  multilineText front = front
  := by
  induction front with
  | nil => rfl
  | cons c front ih =>
    obtain ⟨⟨ne₁, ne₂, ne₃, ne₄⟩, plain⟩ := forall_mem_cons.mp plain
    rw [multilineText, if_neg (by simp [ne₁, ne₂, ne₃]), if_neg ne₄, ih plain]

/-- Where the walk stands: how far it may go, whether a line starts here, and what is left of the
content. -/
abbrev Stand := ℕ × Bool × List Char

def partsAt (size : ℕ) (indentation stop : List Char) (stand : Stand) :
    List IStringPart × List LexError :=
  multilineParts size indentation stop stand.1 stand.2.1 (stand.2.2 ++ stop)

/-- The walk goes on from one place to another, and says a text on the way. -/
def Walks (size : ℕ) (indentation stop : List Char) (before behind : Stand) (value : List Char) :
    Prop :=
  ∃ fragments : List (List Char), fragments.flatMap unescapeString = value ∧
    partsAt size indentation stop before =
      (fragments.map .text ++ (partsAt size indentation stop behind).1,
        (partsAt size indentation stop behind).2)

theorem Walks.refl (stand : Stand) : Walks size indentation stop stand stand [] := by
  use []
  simp

theorem Walks.trans {before between behind : Stand} {value more : List Char}
    (first : Walks size indentation stop before between value)
    (second : Walks size indentation stop between behind more) :
  Walks size indentation stop before behind (value ++ more)
  := by
  obtain ⟨fragments, rfl, heq⟩ := first
  obtain ⟨fragments', rfl, heq'⟩ := second
  use fragments ++ fragments'
  rw [flatMap_append, heq, heq']
  simp

theorem Walks.text (fuel : ℕ) (c : Char) (front back : List Char)
    (run : multilineText (c :: front ++ back) = c :: front) :
  Walks size indentation stop (fuel + 1, false, c :: front ++ back)
    (fuel, (c :: front).getLast? = some '\n', back) (unescapeString (c :: front))
  := by
  use [c :: front]
  simp only [partsAt]
  rw [multilineParts_text fuel run]
  simp

theorem Walks.escape (fuel : ℕ) (taken back : List Char) {fragments : List (List Char)}
    {ended : Bool} {value : List Char}
    (escape : multilineEscape (taken ++ back) = (fragments, taken.length, ended))
    (value_eq : fragments.flatMap unescapeString = value) :
  Walks size indentation stop (fuel + 1, false, '\\' :: (taken ++ back)) (fuel, ended, back) value
  := by
  use fragments, value_eq
  simp only [partsAt]
  rw [multilineParts_escape, escape, append_assoc]
  dsimp only
  rw [drop_left]

theorem Walks.escapeFeed (fuel : ℕ) (back : List Char) :
  Walks size indentation stop (fuel + 1, false, '\\' :: '\n' :: back) (fuel, true, back)
    ['\\', '\n']
  := Walks.escape fuel ['\n'] back rfl rfl

theorem Walks.escapeCarriageReturn (fuel : ℕ) (back : List Char) :
  Walks size indentation stop (fuel + 1, false, '\\' :: '\r' :: '\n' :: back) (fuel, true, back)
    ['\\', '\n']
  := Walks.escape fuel ['\r', '\n'] back rfl rfl

theorem Walks.escapeEnd (fuel : ℕ) :
  Walks size indentation stop (fuel + 1, false, ['\\']) (fuel, false, []) ['\\']
  := Walks.escape fuel [] [] rfl (by decide)

theorem Walks.escapeChar (fuel : ℕ) {back : List Char} (plain : c ≠ '{' ∧ c ≠ '}' ∧ c ≠ '\n')
    (single : ¬ (c = '\r' ∧ ['\n'] <+: back)) :
  Walks size indentation stop (fuel + 1, false, '\\' :: c :: back) (fuel, false, back) ['\\', c]
  := by
  obtain ⟨ne₁, ne₂, ne₃⟩ := plain
  apply Walks.escape fuel [c] back
  · rw [singleton_append, multilineEscape, if_neg (by simp [ne₁, ne₂])]
    simp only [List.isPrefixOf_iff_prefix, if_neg single]
    simp [ne₃]
    rfl
  · by_cases backslash : c = '\\'
    · subst backslash
      decide
    · have plain : '\\' ∉ [c] := by simp [Ne.symm backslash]
      simp [backslash, unescapeString_rawBackslash, unescapeString_plain plain, normalizeNewlines]

/-- A line of the content, once its indentation is skipped. -/
def PlainLine (line : List Char) : Prop :=
  ∀ c ∈ line, c ≠ '{' ∧ c ≠ '}' ∧ c ≠ '\n'

theorem PlainLine.closed (plain : PlainLine line) : '\n' ∉ line :=
  fun mem => (plain _ mem).2.2 rfl

/-- The text of a line up to its first backslash. -/
theorem exists_front (plain : PlainLine (c :: line)) (ne : c ≠ '\\') :
  ∃ front back, c :: line = c :: front ++ back ∧ PlainLine (c :: front) ∧ PlainLine back ∧
    '\\' ∉ c :: front ∧ (back = [] ∨ ∃ behind, back = '\\' :: behind)
  := by
  use line.takeWhile (· ≠ '\\'), line.dropWhile (· ≠ '\\')
  have heq : line.takeWhile (· ≠ '\\') ++ line.dropWhile (· ≠ '\\') = line :=
    takeWhile_append_dropWhile
  refine ⟨by rw [cons_append, heq], ?_, ?_, ?_, ?_⟩
  · intro d mem
    apply plain
    rw [mem_cons] at mem ⊢
    exact mem.imp_right ((takeWhile_sublist _).subset ·)
  · intro d mem
    apply plain _ (mem_cons_of_mem _ ((dropWhile_sublist _).subset mem))
  · rw [mem_cons, not_or]
    use Ne.symm ne
    intro mem
    simpa using mem_takeWhile_imp mem
  · cases behind : line.dropWhile (· ≠ '\\') with
    | nil =>
      left
      rfl
    | cons d rest =>
      right
      have first := head?_dropWhile_not (· ≠ '\\') line
      rw [behind] at first
      use rest
      simpa using first

theorem PlainLine.run (plain : PlainLine front) (raw : '\\' ∉ front) :
    ∀ c ∈ front, c ≠ '{' ∧ c ≠ '}' ∧ c ≠ '\\' ∧ c ≠ '\n' := by
  intro c mem
  obtain ⟨ne₁, ne₂, ne₃⟩ := plain c mem
  refine ⟨ne₁, ne₂, ?_, ne₃⟩
  rintro rfl
  exact raw mem

/-- What the walk takes in one step at the end of a line. -/
def FinalPiece (line : List Char) : Prop :=
  '\\' ∉ line ∨ line = ['\\'] ∨ line = ['\\', '\r']

variable (size indentation stop) in
/-- The walk over a line comes nearer to the last piece of it. -/
theorem final_or_walks (plain : PlainLine line) :
  FinalPiece line ∨ ∃ front back, line = front ++ back ∧ front ≠ [] ∧ PlainLine back ∧
    stripCarriageReturn line = front ++ stripCarriageReturn back ∧
    ∀ fuel tail, Walks size indentation stop (fuel + 1, false, line ++ tail)
      (fuel, false, back ++ tail) front
  := by
  cases line with
  | nil =>
    left
    left
    apply not_mem_nil
  | cons c line =>
    by_cases backslash : c = '\\'
    · subst backslash
      cases line with
      | nil =>
        left
        right
        left
        rfl
      | cons c line =>
        by_cases ended : c = '\r' ∧ line = []
        · obtain ⟨rfl, rfl⟩ := ended
          left
          right
          right
          rfl
        right
        have plain' : PlainLine line := fun d mem => plain d (by simp [mem])
        refine ⟨['\\', c], line, rfl, by simp, plain', ?_, ?_⟩
        · cases line with
          | nil =>
            have ne : c ≠ '\r' := by simpa using ended
            simp [stripCarriageReturn, ne]
          | cons d line => apply stripCarriageReturn_append ['\\', c] (by simp)
        · intro fuel tail
          apply Walks.escapeChar fuel (plain c (by simp))
          rintro ⟨rfl, first⟩
          cases line with
          | nil => simp at ended
          | cons d line =>
            change ['\n'] <+: d :: (line ++ tail) at first
            rw [cons_prefix_cons] at first
            exact (plain' d (by simp)).2.2 first.1.symm
    · obtain ⟨front, back, heq, plain', plain_back, raw, rfl | ⟨behind, rfl⟩⟩ :=
        exists_front plain backslash
      · left
        left
        rw [heq, append_nil]
        apply raw
      · right
        refine ⟨c :: front, '\\' :: behind, heq, by simp, plain_back, ?_, ?_⟩
        · rw [heq, stripCarriageReturn_append _ (by simp)]
        · intro fuel tail
          rw [heq]
          have run := multilineText_backslash (behind ++ tail) (plain'.run raw)
          have walks : Walks size indentation stop _ _ _ :=
            Walks.text fuel c front ('\\' :: (behind ++ tail)) run
          have open_ : ((c :: front).getLast? = some '\n') = False := by
            rw [eq_iff_iff, iff_false]
            intro last
            exact plain'.closed (mem_of_getLast? last)
          rw [unescapeString_plain raw, normalizeNewlines_line plain'.closed] at walks
          simp only [open_, decide_false] at walks
          rw [append_assoc]
          exact walks

/-- The walk over the last piece of a line and the line's end. -/
theorem FinalPiece.walks_feed (final : FinalPiece line) (plain : PlainLine line) (fuel : ℕ)
    (text : List Char) :
  Walks size indentation stop (fuel + 1, false, line ++ '\n' :: text) (fuel, true, text)
    (stripCarriageReturn line ++ ['\n'])
  := by
  obtain raw | rfl | rfl := final
  · cases line with
    | nil => exact Walks.text fuel '\n' [] text (by simp [multilineText])
    | cons c line =>
      have run : multilineText (c :: (line ++ ['\n']) ++ text) = c :: (line ++ ['\n']) := by
        have := multilineText_feed text (plain.run raw)
        simpa using this
      have walks : Walks size indentation stop _ _ _ :=
        Walks.text fuel c (line ++ ['\n']) text run
      rw [← cons_append, unescapeString_plain (by simpa using raw),
        normalizeNewlines_feed plain.closed] at walks
      simp only [getLast?_append, getLast?_singleton, Option.some_or, decide_true,
        append_assoc] at walks
      exact walks
  · exact Walks.escapeFeed fuel text
  · exact Walks.escapeCarriageReturn fuel text

/-- The walk over a line and its end. -/
theorem exists_walks_feed (plain : PlainLine line) (text : List Char)
    (enough : 2 * (line ++ '\n' :: text).length ≤ fuel) :
  ∃ fuel', 2 * text.length + 1 ≤ fuel' ∧
    Walks size indentation stop (fuel, false, line ++ '\n' :: text) (fuel', true, text)
      (stripCarriageReturn line ++ ['\n'])
  := by
  obtain ⟨n, le⟩ : ∃ n, line.length < n := ⟨_, Nat.lt_succ_self _⟩
  induction n generalizing line fuel with
  | zero => omega
  | succ n ih =>
    simp only [length_append, length_cons] at enough
    obtain ⟨fuel, rfl⟩ : ∃ less, fuel = less + 1 := ⟨fuel - 1, by omega⟩
    obtain final | ⟨front, back, heq, some_, plain', value, walks⟩ :=
      final_or_walks size indentation stop plain
    · exact ⟨fuel, by omega, final.walks_feed plain fuel text⟩
    · have pos := length_pos_iff.mpr some_
      have length := congrArg List.length heq
      rw [length_append] at length
      have less : 2 * (back ++ '\n' :: text).length ≤ fuel := by
        simp only [length_append, length_cons]
        omega
      obtain ⟨fuel', enough', walks'⟩ := ih plain' less (by omega)
      refine ⟨fuel', enough', ?_⟩
      rw [value, append_assoc]
      exact (walks fuel _).trans walks'

/-- The walk over the last piece of the content. -/
theorem FinalPiece.walks_end (final : FinalPiece line) (plain : PlainLine line) (fuel : ℕ) :
  ∃ fuel' ended, Walks size indentation stop (fuel + 2, false, line) (fuel', ended, []) line
  := by
  obtain raw | rfl | rfl := final
  · cases line with
    | nil => exact ⟨_, _, Walks.refl _⟩
    | cons c line =>
      have run : multilineText (c :: line ++ []) = c :: line := by
        rw [append_nil, multilineText_line (plain.run raw)]
      have walks : Walks size indentation stop _ _ _ := Walks.text (fuel + 1) c line [] run
      rw [unescapeString_plain raw, normalizeNewlines_line plain.closed, append_nil] at walks
      exact ⟨_, _, walks⟩
  · exact ⟨_, _, Walks.escapeEnd (fuel + 1)⟩
  · exact ⟨_, _, Walks.escapeChar (fuel + 1) (by decide) (by decide)⟩

/-- The walk over the last line of the content. -/
theorem exists_walks_end (plain : PlainLine line) (enough : 2 * line.length ≤ fuel) :
  ∃ fuel' ended, Walks size indentation stop (fuel, false, line) (fuel', ended, []) line
  := by
  obtain ⟨n, le⟩ : ∃ n, line.length < n := ⟨_, Nat.lt_succ_self _⟩
  induction n generalizing line fuel with
  | zero => omega
  | succ n ih =>
    cases line with
    | nil => exact ⟨_, _, Walks.refl _⟩
    | cons c line =>
      rw [length_cons] at enough
      obtain ⟨fuel, rfl⟩ : ∃ less, fuel = less + 2 := ⟨fuel - 2, by omega⟩
      obtain final | ⟨front, back, heq, some_, plain', _, walks⟩ :=
        final_or_walks size indentation stop plain
      · exact final.walks_end plain fuel
      · have pos := length_pos_iff.mpr some_
        have length := congrArg List.length heq
        rw [length_append, length_cons] at length
        rw [length_cons] at le
        have more : 2 * back.length ≤ fuel + 1 := by omega
        obtain ⟨fuel', ended, walks'⟩ := ih plain' more (by omega)
        have first := walks (fuel + 1) []
        rw [append_nil, append_nil] at first
        rw [heq] at first ⊢
        exact ⟨fuel', ended, first.trans walks'⟩

/-- What a line without its end contributes. -/
def unindent (indentation line : List Char) : List Char :=
  (stripPrefix indentation line).getD []

theorem unindent_append (indentation line : List Char) :
  unindent indentation (indentation ++ line) = line
  := by
  simp [unindent, stripPrefix]

theorem unindent_short {indentation : List Char} (short : ¬ indentation <+: line) :
  unindent indentation line = []
  := by
  simp [unindent, stripPrefix, short]

theorem length_unindent_le (indentation line : List Char) :
  (unindent indentation line).length ≤ line.length
  := by
  by_cases indented : indentation <+: line
  · obtain ⟨line, rfl⟩ := indented
    rw [unindent_append, length_append]
    omega
  · rw [unindent_short indented]
    apply Nat.zero_le

theorem PlainLine.unindent (plain : PlainLine line) (indentation : List Char) :
  PlainLine (unindent indentation line)
  := by
  by_cases indented : indentation <+: line
  · obtain ⟨line, rfl⟩ := indented
    rw [unindent_append]
    intro c mem
    exact plain c (by simp [mem])
  · rw [unindent_short indented]
    intro c mem
    cases mem

/-- Indentation is never part of the end of a line. -/
theorem indentation_prefix_iff (indented : isIndentation indentation = true)
    (ends : tail = [] ∨ ∃ text, tail = '\n' :: text) :
  indentation <+: line ++ tail ↔ indentation <+: line
  := by
  constructor
  · intro first
    by_cases le : indentation.length ≤ line.length
    · exact prefix_of_prefix_length_le first (prefix_append _ _) le
    · exfalso
      obtain rfl | ⟨text, rfl⟩ := ends
      · have := first.length_le
        rw [append_nil] at this
        omega
      · have feed : line ++ ['\n'] <+: indentation := by
          apply prefix_of_prefix_length_le _ first
          · rw [length_append, length_singleton]
            omega
          · use text
            simp
        have white := List.all_eq_true.mp indented '\n' (feed.subset (by simp))
        simp at white
  · intro first
    exact first.trans (prefix_append _ _)

theorem stripCarriageReturn_unindent (indented : isIndentation indentation = true) :
  stripCarriageReturn (unindent indentation line) = unindent indentation (stripCarriageReturn line)
  := by
  by_cases first : indentation <+: line
  · obtain ⟨line, rfl⟩ := first
    rw [unindent_append]
    cases line with
    | nil =>
      have closed : indentation.getLast? ≠ some '\r' := by
        intro last
        have white := List.all_eq_true.mp indented '\r' (mem_of_getLast? last)
        simp at white
      rw [append_nil]
      have same : stripCarriageReturn indentation = indentation := by
        rw [stripCarriageReturn, if_neg closed]
      rw [same]
      have := unindent_append indentation []
      rw [append_nil] at this
      rw [this]
      rfl
    | cons c line =>
      rw [stripCarriageReturn_append _ (by simp), unindent_append]
  · rw [unindent_short first, unindent_short]
    · rfl
    · intro first'
      exact first (first'.trans (stripCarriageReturn_begins line))

theorem skipMultilineIndentation_append (indented : isIndentation indentation = true)
    (closed : '\n' ∉ line) (ends : tail = [] ∨ ∃ text, tail = '\n' :: text) :
  skipMultilineIndentation indentation stop (line ++ tail ++ stop) =
    unindent indentation line ++ tail ++ stop
  := by
  rw [skipMultilineIndentation, within_append]
  simp only [List.isPrefixOf_iff_prefix, indentation_prefix_iff indented ends]
  by_cases first : indentation <+: line
  · rw [if_pos first]
    obtain ⟨line, rfl⟩ := first
    rw [unindent_append]
    simp only [append_assoc, drop_left]
  · rw [if_neg first, unindent_short first]
    have taken : (line ++ tail).takeWhile (· ≠ '\n') = line := by
      rw [takeWhile_append_of_pos]
      · obtain rfl | ⟨text, rfl⟩ := ends <;> simp
      · intro c mem
        simp only [ne_eq, decide_eq_true_eq]
        rintro rfl
        exact closed mem
    rw [taken, append_assoc, drop_left]
    rfl

theorem Walks.start (fuel : ℕ) (indented : isIndentation indentation = true) (closed : '\n' ∉ line)
    (ends : tail = [] ∨ ∃ text, tail = '\n' :: text) :
  Walks size indentation stop (fuel + 1, true, line ++ tail)
    (fuel, false, unindent indentation line ++ tail) []
  := by
  use []
  simp only [partsAt]
  by_cases empty : line ++ tail = []
  · rw [append_eq_nil_iff] at empty
    obtain ⟨rfl, rfl⟩ := empty
    rw [eq_nil_of_length_eq_zero (Nat.le_zero.mp (length_unindent_le indentation []))]
    simp [multilineParts_stop]
  · rw [multilineParts_start fuel empty, skipMultilineIndentation_append indented closed ends]
    simp

/-- The walk over the content says its lines without their indentation. -/
theorem exists_walks_lines {lines : List (List Char)} {last : List Char}
    (indented : isIndentation indentation = true) (plain : ∀ line ∈ lines, PlainLine line)
    (plain_last : PlainLine last)
    (enough : 2 * (['\n'].intercalate (lines ++ [last])).length + 1 ≤ fuel) :
  ∃ stand : Stand, stand.2.2 = [] ∧
    Walks size indentation stop (fuel, true, ['\n'].intercalate (lines ++ [last])) stand
      (['\n'].intercalate
        (lines.map (fun line => unindent indentation (stripCarriageReturn line)) ++
          [unindent indentation last]))
  := by
  induction lines generalizing fuel with
  | nil =>
    obtain ⟨fuel, rfl⟩ : ∃ less, fuel = less + 1 := ⟨fuel - 1, by omega⟩
    rw [nil_append, intercalate_singleton] at enough ⊢
    have le := length_unindent_le indentation last
    have less : 2 * (unindent indentation last).length ≤ fuel := by omega
    have first : Walks size indentation stop _ _ _ :=
      Walks.start fuel indented plain_last.closed (Or.inl rfl)
    obtain ⟨fuel', ended, walks⟩ : ∃ fuel' ended, Walks size indentation stop _ (fuel', ended, []) _ :=
      exists_walks_end (plain_last.unindent indentation) less
    rw [append_nil, append_nil] at first
    refine ⟨(fuel', ended, []), rfl, ?_⟩
    rw [map_nil, nil_append, intercalate_singleton]
    exact first.trans walks
  | cons line lines ih =>
    obtain ⟨fuel, rfl⟩ : ∃ less, fuel = less + 1 := ⟨fuel - 1, by omega⟩
    obtain ⟨plain_line, plain⟩ := forall_mem_cons.mp plain
    rw [cons_append, intercalate_cons_of_ne_nil (by simp), append_assoc,
      singleton_append] at enough ⊢
    have le := length_unindent_le indentation line
    have first : Walks size indentation stop _ _ _ :=
      Walks.start fuel indented plain_line.closed
        (Or.inr ⟨['\n'].intercalate (lines ++ [last]), rfl⟩)
    simp only [length_append, length_cons] at enough
    have less : 2 * (unindent indentation line ++
        '\n' :: ['\n'].intercalate (lines ++ [last])).length ≤ fuel := by
      simp only [length_append, length_cons]
      omega
    obtain ⟨fuel', enough', feed⟩ : ∃ fuel', _ ∧
        Walks size indentation stop _ (fuel', true, _) _ :=
      exists_walks_feed (plain_line.unindent indentation) _ less
    obtain ⟨stand, ended, walks⟩ := ih plain enough'
    refine ⟨stand, ended, ?_⟩
    rw [map_cons, cons_append, intercalate_cons_of_ne_nil (by simp)]
    rw [stripCarriageReturn_unindent indented] at feed
    exact (first.trans feed).trans walks

end Walk

/-! ### The shape of a literal -/

theorem rcutNewline_eq_some {text content indentation : List Char}
    (found : rcutNewline text = some (content, indentation)) :
  text = content ++ '\n' :: indentation
  := by
  rw [rcutNewline, Option.map_eq_some_iff] at found
  obtain ⟨⟨behind, before⟩, cut, heq⟩ := found
  rw [Prod.mk.injEq] at heq
  obtain ⟨rfl, rfl⟩ := heq
  obtain ⟨reversed, -⟩ := Search.cut_eq_some_iff.mp cut
  have := congrArg List.reverse reversed
  simpa using this

/-- An accepted text is what stands before its content, the content, and an end that is indented. -/
theorem multilineLayout_eq_ok (accepted : multilineLayout raw = .ok layout) :
  isIndentation layout.indentation = true ∧
    raw = layout.before ++ (layout.content ++ '\n' :: layout.indentation)
  := by
  rw [multilineLayout] at accepted
  cases cut : Search.cut ['\n'] raw with
  | none =>
    rw [cut] at accepted
    simp at accepted
  | some parts =>
    obtain ⟨opener, behind⟩ := parts
    obtain ⟨heq, -⟩ := Search.cut_eq_some_iff.mp cut
    rw [cut] at accepted
    dsimp only at accepted
    split at accepted
    next => simp at accepted
    cases rcut : rcutNewline behind with
    | none =>
      rw [rcut] at accepted
      dsimp only at accepted
      split at accepted
      next => simp at accepted
      next indented =>
        obtain rfl := Except.ok.inj accepted
        exact ⟨by simpa using indented, heq⟩
    | some parts =>
      obtain ⟨content, indentation⟩ := parts
      rw [rcut] at accepted
      dsimp only at accepted
      split at accepted
      next => simp at accepted
      next indented =>
        split at accepted
        next => simp at accepted
        next =>
          obtain rfl := Except.ok.inj accepted
          use by simpa using indented
          rw [heq, rcutNewline_eq_some rcut]
          simp

theorem stripCarriageReturn_feed (line : List Char) :
  stripCarriageReturn ('\n' :: line) = '\n' :: stripCarriageReturn line
  := by
  cases line with
  | nil => rfl
  | cons c line => apply stripCarriageReturn_cons _ (by simp)

theorem stripCarriageReturn_lines (lines : List (List Char)) (last : List Char) :
  stripCarriageReturn (['\n'].intercalate (lines ++ [last])) =
    ['\n'].intercalate (lines ++ [stripCarriageReturn last])
  := by
  induction lines with
  | nil => simp
  | cons line lines ih =>
    rw [cons_append, cons_append, intercalate_cons_of_ne_nil (by simp),
      intercalate_cons_of_ne_nil (by simp), append_assoc, append_assoc,
      stripCarriageReturn_append _ (by simp), singleton_append, stripCarriageReturn_feed, ih]
    rfl

/-- A text that was accepted has a value. -/
theorem trimMultilineString_eq_ok (accepted : multilineLayout raw = .ok layout)
    {lines : List (List Char)} {last : List Char}
    (split : layout.content.splitOn '\n' = lines ++ [last]) :
  trimMultilineString raw = .ok (['\n'].intercalate
    (lines.map (fun line => unindent layout.indentation (stripCarriageReturn line)) ++
      [unindent layout.indentation (stripCarriageReturn last)]))
  := by
  rw [trimMultilineString, accepted]
  dsimp only
  split
  next empty =>
    rw [empty, splitOn_nil] at split
    cases lines with
    | nil =>
      rw [nil_append, singleton_inj] at split
      subst split
      have le := length_unindent_le layout.indentation (stripCarriageReturn [])
      rw [map_nil, nil_append, intercalate_singleton, eq_nil_of_length_eq_zero (Nat.le_zero.mp le)]
    | cons line lines => simp at split
  next =>
    rw [split, map_append]
    rfl

/-- A triple-quoted text as it stands in a source, with what follows it. -/
def literal (raw after : List Char) : List Char :=
  quotes ++ (raw ++ (quotes ++ after))

/-- The literal ends with the quotes behind an accepted text. -/
theorem cut_literal (closed : ¬ quotes <:+: raw) (accepted : multilineLayout raw = .ok layout)
    (after : List Char) :
  Search.cut quotes (raw ++ (quotes ++ after)) = some (raw, after)
  := by
  rw [Search.cut_eq_some_iff]
  use rfl
  intro i lt first
  rw [drop_append_of_le_length (Nat.le_of_lt lt)] at first
  by_cases le : quotes.length ≤ (raw.drop i).length
  · apply closed
    have inside := prefix_of_prefix_length_le first (prefix_append _ _) le
    exact inside.isInfix.trans (drop_suffix i raw).isInfix
  · obtain ⟨indented, heq⟩ := multilineLayout_eq_ok accepted
    have inside : raw.drop i <+: quotes :=
      prefix_of_prefix_length_le (prefix_append _ _) first (Nat.le_of_not_le le)
    have last : raw.getLast? = ('\n' :: layout.indentation).getLast? := by
      rw [heq, ← append_assoc, getLast?_append_of_ne_nil _ (by simp)]
    obtain ⟨c, is_last⟩ : ∃ c, raw.getLast? = some c := by
      cases end_ : raw.getLast? with
      | none =>
        rw [getLast?_eq_none_iff.mp end_] at lt
        simp at lt
      | some c => exact ⟨c, rfl⟩
    have quote : c ∈ quotes := by
      apply inside.subset
      apply mem_of_getLast?
      rw [getLast?_drop, if_neg (by omega), is_last]
    rw [is_last] at last
    have mem := mem_of_getLast? last.symm
    rw [mem_cons] at mem
    obtain rfl | mem := mem
    · simp [quotes] at quote
    · have white := List.all_eq_true.mp indented c mem
      simp only [quotes, mem_cons, not_mem_nil, or_false, or_self] at quote
      subst quote
      simp at white

/-- A source that is one lexeme. -/
theorem tokenize_one {first : Char} {source : List Char} {tokens : List Spanned}
    (start : Http.isWhitespace first = false ∧ first ≠ '/')
    (lexed : lexOne (lenUtf8 (first :: source)) (first :: source) = ⟨tokens, [], []⟩) :
  tokenize (first :: source) = ⟨tokens, []⟩
  := by
  have skipped : ∀ fuel, skipTrivia (fuel + 1) (first :: source) = first :: source := by
    intro fuel
    rw [skipTrivia, dropWhile_cons_of_neg (by simp [start.1]), if_neg (by simp [Ne.symm start.2])]
  rw [tokenize, run, skipped]
  dsimp only
  rw [lexed, length_cons, run]
  simp [skipTrivia]

theorem lexOne_interpolated (size : ℕ) {after : List Char}
    (cut : Search.cut quotes (raw ++ (quotes ++ after)) = some (raw, after))
    (accepted : multilineLayout raw = .ok layout) :
  lexOne size ('i' :: literal raw after) =
    let content := (raw ++ (quotes ++ after)).drop layout.before.length
    let parts := multilineParts size layout.indentation
      (content.drop (stripCarriageReturn layout.content).length) (2 * content.length + 2) true content
    ⟨emitInterpolated parts.1 ⟨position size ('i' :: literal raw after), position size after⟩, parts.2,
      after⟩
  := by
  have dispatched : lexOne size ('i' :: literal raw after) =
      lexInterpolatedMultiline size ('i' :: literal raw after) := rfl
  have inside : ('i' :: literal raw after).drop 4 = raw ++ (quotes ++ after) := rfl
  rw [dispatched, lexInterpolatedMultiline, inside, cut]
  dsimp only
  rw [accepted]

/-- The parts of an accepted content are fragments that say its lines. -/
theorem exists_fragments (size : ℕ) {indentation content : List Char} (tail : List Char)
    {lines : List (List Char)} {last : List Char} (indented : isIndentation indentation = true)
    (split : content.splitOn '\n' = lines ++ [last])
    (braces : '{' ∉ content ∧ '}' ∉ content) :
  ∃ fragments : List (List Char),
    fragments.flatMap unescapeString = ['\n'].intercalate
      (lines.map (fun line => unindent indentation (stripCarriageReturn line)) ++
        [unindent indentation (stripCarriageReturn last)]) ∧
    multilineParts size indentation ((content ++ tail).drop (stripCarriageReturn content).length)
      (2 * (content ++ tail).length + 2) true (content ++ tail) = (fragments.map .text, [])
  := by
  have pieces : ∀ piece ∈ lines ++ [last], PlainLine piece := by
    rw [← split]
    intro piece mem c mem'
    obtain ⟨closed, inside⟩ := Search.not_mem_of_mem_splitOn mem
    refine ⟨?_, ?_, ?_⟩
    · rintro rfl
      exact braces.1 (inside mem')
    · rintro rfl
      exact braces.2 (inside mem')
    · rintro rfl
      exact closed mem'
  have plain_last : PlainLine (stripCarriageReturn last) := fun c mem =>
    pieces last (by simp) c ((stripCarriageReturn_begins last).subset mem)
  have content_eq : stripCarriageReturn content =
      ['\n'].intercalate (lines ++ [stripCarriageReturn last]) := by
    rw [← stripCarriageReturn_lines, ← split, intercalate_splitOn]
  have le := (stripCarriageReturn_begins content).length_le
  have enough : 2 * (['\n'].intercalate (lines ++ [stripCarriageReturn last])).length + 1 ≤
      2 * (content ++ tail).length + 2 := by
    rw [← content_eq, length_append]
    omega
  obtain ⟨ending, whole⟩ := stripCarriageReturn_begins content
  obtain ⟨⟨fuel, ended, rest⟩, rfl, fragments, value, walked⟩ : ∃ stand : Stand, stand.2.2 = [] ∧
      Walks size indentation (ending ++ tail) _ stand _ :=
    exists_walks_lines indented (fun line mem => pieces line (by simp [mem])) plain_last enough
  use fragments, value
  have cut : content ++ tail = stripCarriageReturn content ++ (ending ++ tail) := by
    rw [← append_assoc, whole]
  rw [← content_eq] at walked
  simp only [partsAt, nil_append, multilineParts_stop, append_nil, ← cut] at walked
  have stop_eq : (content ++ tail).drop (stripCarriageReturn content).length = ending ++ tail := by
    rw [cut, drop_left]
  rw [stop_eq, walked]

/-- Wherever the two forms of a triple-quoted text without braces stand, they say the same. -/
theorem lexOne_forms (closed : ¬ quotes <:+: raw) (braces : '{' ∉ raw ∧ '}' ∉ raw)
    (accepted : multilineLayout raw = .ok layout) :
  ∃ value, trimMultilineString raw = .ok value ∧ ∀ size after,
    (∃ fragments : List (List Char), fragments.flatMap unescapeString = value ∧
      lexOne size ('i' :: literal raw after) =
        ⟨emitInterpolated (fragments.map .text)
          ⟨position size ('i' :: literal raw after), position size after⟩, [], after⟩) ∧
    lexOne size (literal raw after) =
      ⟨[(.multilineString raw, ⟨position size (literal raw after), position size after⟩)], [],
        after⟩
  := by
  obtain ⟨indented, heq⟩ := multilineLayout_eq_ok accepted
  obtain ⟨lines, last, split⟩ : ∃ lines last, layout.content.splitOn '\n' = lines ++ [last] :=
    ⟨_, _, (dropLast_append_getLast (splitOn_ne_nil '\n' layout.content)).symm⟩
  refine ⟨_, trimMultilineString_eq_ok accepted split, ?_⟩
  intro size after
  have cut := cut_literal closed accepted after
  constructor
  · rw [lexOne_interpolated size cut accepted]
    dsimp only
    have content_eq : (raw ++ (quotes ++ after)).drop layout.before.length =
        layout.content ++ ('\n' :: layout.indentation ++ (quotes ++ after)) := by
      rw [heq, append_assoc, append_assoc, drop_left]
    have subset : layout.content ⊆ raw := by
      intro c mem
      rw [heq]
      simp [mem]
    obtain ⟨fragments, value, parts⟩ :=
      exists_fragments size ('\n' :: layout.indentation ++ (quotes ++ after)) indented split
        ⟨fun mem => braces.1 (subset mem), fun mem => braces.2 (subset mem)⟩
    use fragments, value
    rw [content_eq, parts]
  · have dispatched : lexOne size (literal raw after) = lexString size (literal raw after) := rfl
    have read : readString (literal raw after) = .complete (.multilineString raw) after := by
      have first : quotes.isPrefixOf (literal raw after) = true := rfl
      have inside : (literal raw after).drop 3 = raw ++ (quotes ++ after) := rfl
      rw [readString, if_pos first, inside, cut]
    rw [dispatched, lexString, read]
    rfl

/-- The two forms of a triple-quoted text without braces are lexed without an error, wherever they
stand, and say the same. -/
theorem forms_agree {raw : List Char} {layout : MultilineLayout} (closed : ¬ quotes <:+: raw)
    (braces : '{' ∉ raw ∧ '}' ∉ raw) (accepted : multilineLayout raw = .ok layout) :
  (∃ value, trimMultilineString raw = .ok value ∧ ∀ size after,
    (∃ fragments : List (List Char), fragments.flatMap unescapeString = value ∧
      lexOne size ('i' :: literal raw after) =
        ⟨emitInterpolated (fragments.map .text)
          ⟨position size ('i' :: literal raw after), position size after⟩, [], after⟩) ∧
    lexOne size (literal raw after) =
      ⟨[(.multilineString raw, ⟨position size (literal raw after), position size after⟩)], [],
        after⟩) ∧
  (tokenize ('i' :: literal raw [])).errors = [] ∧ (tokenize (literal raw [])).errors = []
  := by
  obtain ⟨value, trimmed, forms⟩ := lexOne_forms closed braces accepted
  refine ⟨⟨value, trimmed, forms⟩, ?_, ?_⟩
  · obtain ⟨⟨fragments, -, lexed⟩, -⟩ := forms (lenUtf8 ('i' :: literal raw [])) []
    rw [tokenize_one (by decide) lexed]
  · obtain ⟨-, lexed⟩ := forms (lenUtf8 (literal raw [])) []
    rw [literal, quotes] at lexed ⊢
    rw [cons_append] at lexed ⊢
    rw [tokenize_one (by decide) lexed]

/-- A text with a backslash before the end of a line, a line of whitespace, and two carriage returns
at the end of the last line. -/
def oddText : List Char :=
  ['\n', ' ', 'a', '\\', '\r', '\n', '\r', '\n', ' ', 'b', '\r', '\r', '\n', ' ']

theorem forms_agree_odd :
  (tokenize ('i' :: literal oddText [])).errors = [] ∧ (tokenize (literal oddText [])).errors = []
  := by
  have accepted : multilineLayout oddText =
      .ok ⟨['\n'], [' ', 'a', '\\', '\r', '\n', '\r', '\n', ' ', 'b', '\r', '\r'], [' ']⟩ := by
    decide
  exact (forms_agree (by decide) (by decide) accepted).2

end Vilan.Core.Lexing
