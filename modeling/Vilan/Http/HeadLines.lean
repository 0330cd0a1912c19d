import Mathlib.Data.Bool.AllAny
import Vilan.Http.ChunkedBody
import Vilan.Http.Head
import Vilan.Library.Search

/-!
# The lines of a head

A head is a request line and field lines up to the first empty line, in which a line ends in a line
feed, with or without a carriage return before it.  The parser finds the end of the head in one
scan and the lines in another.
-/

namespace Vilan.Http

open List Utf8

/-! ### Lines -/

/-- Lines with their line feeds. -/
def whole (lines : List Text) : Text :=
  lines.flatMap (· ++ ['\n'])

/-- A line that is empty but for the carriage return of its line end. -/
def EmptyLine (line : Text) : Prop :=
  line = [] ∨ line = ['\r']

instance (line : Text) : Decidable (EmptyLine line) :=
  inferInstanceAs (Decidable (_ ∨ _))

/-- The lines before the first empty line of a buffer, and that line. -/
structure HeadLines (buffer : Bytes) (lines : List Text) (last : Text) : Prop where
  starts : encode (whole (lines ++ [last])) <+: buffer
  closed : ∀ line ∈ lines, '\n' ∉ line
  filled : ∀ line ∈ lines, ¬ EmptyLine line
  empty : EmptyLine last

theorem whole_cons (line : Text) (lines : List Text) :
  whole (line :: lines) = line ++ '\n' :: whole lines
  := by
  rw [whole, flatMap_cons, append_assoc]
  rfl

variable {line last : Text} {buffer : Bytes} {lines : List Text} {length : ℕ}

theorem EmptyLine.closed (h : EmptyLine line) : '\n' ∉ line := by
  obtain rfl | rfl := h
  · simp
  · decide

/-- The first line of a head is at the start of the buffer, and the others are behind it. -/
theorem encode_whole_cons (line : Text) (lines : List Text) :
  encode (whole (line :: lines)) = encode line ++ lineFeed :: encode (whole lines)
  := by
  rw [whole_cons, encode_append, encode_cons]
  rfl

/-- A line is cut off at its line feed. -/
theorem line_unique {other : Text} {rest rest' : Bytes} (closed : '\n' ∉ line)
    (closed' : '\n' ∉ other)
    (h : encode line ++ lineFeed :: rest = encode other ++ lineFeed :: rest') :
  line = other ∧ rest = rest'
  := by
  have ends : ∀ text : Text, '\n' ∉ text → lineFeed ∉ encode text := by
    intro text closed mem
    apply closed (mem_of_mem_encode (by decide) rfl mem)
  have cut := idxOf?_line (ends line closed) rest
  rw [h, idxOf?_line (ends other closed') rest', Option.some_inj] at cut
  obtain ⟨heq, rest_eq⟩ := append_inj h cut.symm
  cases rest_eq
  use encode_injective heq

/-- A head starts with its first line. -/
theorem HeadLines.cons (h : HeadLines buffer (line :: lines) last) :
  '\n' ∉ line ∧ ¬ EmptyLine line ∧ ∃ rest,
    buffer = encode line ++ lineFeed :: rest ∧ HeadLines rest lines last
  := by
  obtain ⟨⟨rest, rfl⟩, closed, filled, empty⟩ := h
  use closed _ mem_cons_self, filled _ mem_cons_self
  use encode (whole (lines ++ [last])) ++ rest
  constructor
  · rw [cons_append, encode_whole_cons, append_assoc, cons_append]
  · use prefix_append _ _, fun line mem => closed line (mem_cons_of_mem _ mem)
    use fun line mem => filled line (mem_cons_of_mem _ mem)

/-- A head without lines is an empty line. -/
theorem HeadLines.nil (h : HeadLines buffer [] last) :
  EmptyLine last ∧ ∃ rest, buffer = encode last ++ lineFeed :: rest
  := by
  obtain ⟨⟨rest, rfl⟩, _, _, empty⟩ := h
  use empty, rest
  rw [nil_append, encode_whole_cons, append_assoc]
  rfl

/-- A buffer has one first empty line. -/
theorem HeadLines.unique {lines' : List Text} {last' : Text} (h : HeadLines buffer lines last)
    (h' : HeadLines buffer lines' last') :
  lines = lines' ∧ last = last'
  := by
  induction lines generalizing buffer lines' with
  | nil =>
    obtain ⟨empty, rest, rfl⟩ := h.nil
    cases lines' with
    | nil =>
      obtain ⟨empty', rest', heq⟩ := h'.nil
      use rfl
      apply (line_unique empty.closed empty'.closed heq).1
    | cons line' lines' =>
      obtain ⟨closed', filled', rest', heq, _⟩ := h'.cons
      obtain ⟨rfl, _⟩ := line_unique empty.closed closed' heq
      apply absurd empty filled'
  | cons line lines ih =>
    obtain ⟨closed, filled, rest, rfl, left⟩ := h.cons
    cases lines' with
    | nil =>
      obtain ⟨empty', rest', heq⟩ := h'.nil
      obtain ⟨rfl, _⟩ := line_unique closed empty'.closed heq
      apply absurd empty' filled
    | cons line' lines' =>
      obtain ⟨closed', _, rest', heq, left'⟩ := h'.cons
      obtain ⟨rfl, rfl⟩ := line_unique closed closed' heq
      obtain ⟨rfl, rfl⟩ := ih left left'
      use rfl

/-! ### Where the parser ends a head -/

/-- What the parser takes for the end of a head: two line ends that are the same. -/
def HeadEnding (ending : Text) : Prop :=
  ending = ['\r', '\n', '\r', '\n'] ∨ ending = ['\n', '\n']

theorem headEndAfter_spec {index : ℕ} {bytes : Bytes} (h : headEndAfter index bytes = some length) :
  ∃ before ending rest, HeadEnding ending ∧ bytes = before ++ encode ending ++ rest ∧
    length = index + (before ++ encode ending).length
  := by
  induction bytes generalizing index with
  | nil => cases h
  | cons b bytes ih =>
    rw [headEndAfter] at h
    split at h
    next found =>
      obtain ⟨rest, heq⟩ := List.isPrefixOf_iff_prefix.mp found
      cases h
      exact ⟨[], _, rest, .inl rfl, heq.symm, rfl⟩
    next =>
      split at h
      next found =>
        obtain ⟨rest, heq⟩ := List.isPrefixOf_iff_prefix.mp found
        cases h
        exact ⟨[], _, rest, .inr rfl, heq.symm, rfl⟩
      next =>
        obtain ⟨before, ending, rest, ends, rfl, rfl⟩ := ih h
        refine ⟨b :: before, ending, rest, ends, rfl, ?_⟩
        simp only [cons_append, length_cons]
        omega

theorem headEnd_spec (h : headEnd buffer = some length) :
  ∃ before ending, HeadEnding ending ∧ buffer.take length = before ++ encode ending ∧
    length ≤ buffer.length
  := by
  obtain ⟨before, ending, rest, ends, rfl, rfl⟩ := headEndAfter_spec h
  use before, ending, ends
  rw [Nat.zero_add]
  constructor
  · apply take_left
  · simp only [length_append]
    omega

theorem encode_lineFeeds : encode ['\n', '\n'] = [lineFeed, lineFeed] := by
  decide

theorem encode_returns :
  encode ['\r', '\n', '\r', '\n'] = [carriageReturn, lineFeed, carriageReturn, lineFeed]
  := by
  decide

/-- A head does not end behind what the parser takes for its end. -/
theorem headEndAfter_le
    {ending : Text} (ends : HeadEnding ending) (index : ℕ) (before rest : Bytes) :
  ∃ length, headEndAfter index (before ++ encode ending ++ rest) = some length ∧
    length ≤ index + (before ++ encode ending).length
  := by
  have long : 2 ≤ (encode ending).length := by
    obtain rfl | rfl := ends
    · rw [encode_returns]
      decide
    · rw [encode_lineFeeds]
      decide
  induction before generalizing index with
  | nil =>
    obtain rfl | rfl := ends
    · exact ⟨index + 4, rfl, Nat.le_refl _⟩
    · exact ⟨index + 2, rfl, Nat.le_refl _⟩
  | cons b before ih =>
    rw [cons_append, cons_append, headEndAfter]
    split
    next found =>
      refine ⟨index + 4, rfl, ?_⟩
      obtain rfl | rfl := ends
      · simp only [encode_returns, length_cons, length_append, length_nil]
        omega
      · rw [encode_lineFeeds] at found ⊢
        cases before with
        | nil => simp [carriageReturn, lineFeed, List.isPrefixOf] at found
        | cons c before =>
          simp only [length_cons, length_append, length_nil]
          omega
    next =>
      split
      next =>
        refine ⟨index + 2, rfl, ?_⟩
        simp only [length_cons, length_append]
        omega
      next =>
        obtain ⟨length, h, le⟩ := ih (index + 1)
        refine ⟨length, h, ?_⟩
        simp only [length_cons, length_append] at le ⊢
        omega

/-! ### The lines the parser reads -/

/-- The pieces of a text that is split at its line feeds are its lines, and what is behind. -/
theorem intercalate_whole (lines : List Text) {others : List Text} (some : others ≠ []) :
  List.intercalate ['\n'] (lines ++ others) = whole lines ++ List.intercalate ['\n'] others
  := by
  induction lines with
  | nil => rfl
  | cons line lines ih =>
    have more : lines ++ others ≠ [] := append_ne_nil_of_right_ne_nil _ some
    obtain ⟨first, rest, heq⟩ := exists_cons_of_ne_nil more
    rw [whole_cons, append_assoc, cons_append, cons_append, ← ih, heq]
    rfl

/-- A text that ends as the parser expects of a head has an empty line in it. -/
theorem exists_lines {text start ending : Text} (ends : HeadEnding ending)
    (heq : text = start ++ ending) :
  ∃ lines last others, text.splitOn '\n' = lines ++ last :: others ∧
    (∀ line ∈ lines, '\n' ∉ line) ∧ (∀ line ∈ lines, ¬ EmptyLine line) ∧ EmptyLine last ∧
      ∃ more, text = whole (lines ++ [last]) ++ more
  := by
  obtain ⟨pieces, e, split, empty⟩ : ∃ pieces e, text.splitOn '\n' = pieces ++ [e] ++ [[]] ∧
      EmptyLine e := by
    obtain rfl | rfl := ends
    · use (start ++ ['\r']).splitOn '\n', ['\r']
      constructor
      · have cut : text = (start ++ ['\r']) ++ '\n' :: (['\r'] ++ '\n' :: []) := by
          rw [heq, append_assoc]
          rfl
        rw [cut, splitOn_append_cons_self, splitOn_append_cons_self, append_assoc]
        rfl
      · apply Or.inr rfl
    · use start.splitOn '\n', []
      constructor
      · have cut : text = start ++ '\n' :: ([] ++ '\n' :: []) := heq
        rw [cut, splitOn_append_cons_self, splitOn_append_cons_self, append_assoc]
        rfl
      · apply Or.inl rfl
  have found : ((pieces ++ [e]).find? (fun line => decide (EmptyLine line))).isSome := by
    rw [find?_isSome]
    use e, by simp, by simp [empty]
  obtain ⟨last, found⟩ := Option.isSome_iff_exists.mp found
  obtain ⟨empty', lines, others, heq', filled⟩ := find?_eq_some_iff_append.mp found
  rw [heq', append_assoc, cons_append] at split
  refine ⟨lines, last, others ++ [[]], split, ?_, ?_, by simpa using empty', ?_⟩
  · intro line mem
    have piece : line ∈ text.splitOn '\n' := by
      rw [split]
      apply mem_append_left _ mem
    apply (Search.not_mem_of_mem_splitOn piece).1
  · intro line mem
    simpa using filled line mem
  · use List.intercalate ['\n'] (others ++ [[]])
    rw [← intercalate_whole _ (by simp), append_assoc, singleton_append, ← split,
      intercalate_splitOn]

/-- The parser stops at an empty line. -/
theorem readFields_stop (lines others : List Text) (fields : List (Text × Text)) :
  readFields (lines ++ [] :: others) fields = readFields lines fields
  := by
  induction lines generalizing fields with
  | nil => rfl
  | cons line lines ih =>
    rw [cons_append, readFields, readFields]
    simp only [ih]

theorem trimEnd_of_empty (h : EmptyLine line) : trimEnd (· = '\r') line = [] := by
  obtain rfl | rfl := h
  · rfl
  · rfl

/-- What an accepted buffer is read from: its lines before the first empty one. -/
theorem parseHead_lines {head : Head} (h : parseHead buffer = .ok head) :
  ∃ requestLine lines last, HeadLines buffer (requestLine :: lines) last ∧
    headEnd buffer = some head.length ∧
      (encode (whole (requestLine :: lines ++ [last]))).length ≤ head.length ∧
        readFields (lines.map (trimEnd (· = '\r'))) [] = .ok head.fields
  := by
  unfold parseHead at h
  split at h
  next => cases h
  next length found =>
    split at h
    next => cases h
    next text decoded =>
      obtain ⟨before, ending, ends, taken, le⟩ := headEnd_spec found
      have encoded : buffer.take length = encode text := fromUTF8?_eq_some_iff.mp decoded
      have small : ∀ c ∈ ending, c.toNat < 128 := by
        obtain rfl | rfl := ends
        · exact all_iff_forall_prop.mp (by decide)
        · exact all_iff_forall_prop.mp (by decide)
      obtain ⟨start, heq, _⟩ :=
        encode_eq_append_encode small (encoded.symm.trans taken)
      obtain ⟨lines, last, others, split, closed, filled, empty, more, heq'⟩ :=
        exists_lines ends heq
      have starts : encode (whole (lines ++ [last])) <+: buffer.take length := by
        rw [encoded, heq', encode_append]
        apply prefix_append
      have headLines : HeadLines buffer lines last :=
        ⟨starts.trans (List.take_prefix _ _), closed, filled, empty⟩
      have shorter : (encode (whole (lines ++ [last]))).length ≤ length := by
        apply starts.length_le.trans
        rw [length_take]
        apply Nat.min_le_left
      rw [parseText, split, map_append, map_cons, trimEnd_of_empty empty] at h
      cases lines with
      | nil => cases h
      | cons requestLine lines =>
        rw [map_cons, cons_append] at h
        dsimp only at h
        split at h
        next =>
          rw [readFields_stop] at h
          cases fields : readFields (lines.map (trimEnd (· = '\r'))) [] with
          | error => rw [fields] at h; cases h
          | ok fields =>
            rw [fields] at h
            cases h
            use requestLine, lines, last, headLines, found, shorter
        next => cases h

/-! ### Whether the two scans agree -/

/-- The line end of the empty line is a line feed, or that of the line before it is not. -/
def EndsAlike (lines : List Text) (last : Text) : Prop :=
  last = ['\r'] → ∃ line, lines.getLast? = some line ∧ line.getLast? = some '\r'

theorem endsAlike_iff (some : lines ≠ []) (filled : ∀ line ∈ lines, ¬ EmptyLine line)
    (empty : EmptyLine last) :
  EndsAlike lines last ↔ ∃ start ending, HeadEnding ending ∧ whole (lines ++ [last]) = start ++ ending
  := by
  obtain ⟨before, line, rfl⟩ : ∃ before line, lines = before ++ [line] := by
    use lines.dropLast, lines.getLast some
    rw [dropLast_append_getLast]
  have nonempty : line ≠ [] := by
    rintro rfl
    apply filled [] (by simp) (.inl rfl)
  have heq : whole (before ++ [line] ++ [last]) = whole before ++ line ++ '\n' :: last ++ ['\n'] := by
    simp [whole]
  rw [heq, EndsAlike, getLast?_append_of_ne_nil _ (by simp), getLast?_singleton]
  simp only [Option.some_inj, exists_eq_left']
  obtain rfl | rfl := empty
  · simp only [nil_eq, reduceCtorEq, false_imp_iff, true_iff]
    exact ⟨whole before ++ line, ['\n', '\n'], .inr rfl, by simp⟩
  · simp only [true_imp_iff]
    constructor
    · intro returned
      obtain ⟨start, rfl⟩ := getLast?_eq_some_iff.mp returned
      exact ⟨whole before ++ start, _, .inl rfl, by simp⟩
    · rintro ⟨start, ending, rfl | rfl, ends⟩
      · have ends' : (whole before ++ line) ++ ['\n', '\r', '\n'] =
            (start ++ ['\r']) ++ ['\n', '\r', '\n'] := by
          simpa using ends
        have returned := congrArg List.getLast? (append_cancel_right ends')
        rw [getLast?_append_of_ne_nil _ nonempty] at returned
        simpa using returned
      · have ends' : (whole before ++ line ++ ['\n']) ++ ['\r', '\n'] = start ++ ['\n', '\n'] := by
          simpa using ends
        have suffix_eq := (append_inj' ends' rfl).2
        cases suffix_eq

/-- The parser's end of the head is behind the first empty line exactly when the line ends of that
line and the line before it are alike. -/
theorem headEnd_eq_iff (h : HeadLines buffer lines last) (nonempty : lines ≠ [])
    (found : headEnd buffer = some length)
    (le : (encode (whole (lines ++ [last]))).length ≤ length) :
  length = (encode (whole (lines ++ [last]))).length ↔ EndsAlike lines last
  := by
  rw [endsAlike_iff nonempty h.filled h.empty]
  obtain ⟨rest, rfl⟩ := h.starts
  constructor
  · rintro rfl
    obtain ⟨before, ending, ends, taken, _⟩ := headEnd_spec found
    rw [take_left] at taken
    have small : ∀ c ∈ ending, c.toNat < 128 := by
      obtain rfl | rfl := ends
      · exact all_iff_forall_prop.mp (by decide)
      · exact all_iff_forall_prop.mp (by decide)
    obtain ⟨start, heq, _⟩ := encode_eq_append_encode small taken
    use start, ending, ends
  · rintro ⟨start, ending, ends, heq⟩
    obtain ⟨length', found', le'⟩ := headEndAfter_le ends 0 (encode start) rest
    rw [heq, encode_append, headEnd] at found
    rw [found] at found'
    cases found'
    apply le_antisymm _ le
    rw [heq, encode_append]
    rw [Nat.zero_add] at le'
    apply le'

end Vilan.Http
