import Vilan.Core.LexingRest
import Vilan.Core.TripleQuoted

/-!
# Line ends

A source whose lines end with a carriage return and a line feed, beside the same source with line
feeds alone.  The readers of the lexer take the same text off both.
-/

namespace Vilan.Core.Lexing

open List

open Vilan.Http (isWhitespace isHexDigit number usizeBound)

/-- A text with a carriage return before each line feed. -/
def crlf (text : List Char) : List Char :=
  text.flatMap fun c => if c = '\n' then ['\r', '\n'] else [c]

@[simp]
theorem crlf_nil : crlf [] = [] :=
  rfl

@[simp]
theorem crlf_feed (text : List Char) : crlf ('\n' :: text) = '\r' :: '\n' :: crlf text :=
  rfl

variable {c : Char} {text : List Char} {n length : ℕ} {p : Char → Bool}

theorem crlf_cons (ne : c ≠ '\n') (text : List Char) : crlf (c :: text) = c :: crlf text := by
  rw [crlf, flatMap_cons, if_neg ne]
  rfl

@[simp]
theorem crlf_append (front back : List Char) : crlf (front ++ back) = crlf front ++ crlf back :=
  flatMap_append

theorem crlf_line {line : List Char} (closed : '\n' ∉ line) : crlf line = line := by
  induction line with
  | nil => rfl
  | cons c line ih =>
    rw [mem_cons, not_or] at closed
    rw [crlf_cons (Ne.symm closed.1), ih closed.2]

theorem crlf_line_append {line : List Char} (closed : '\n' ∉ line) (text : List Char) :
  crlf (line ++ text) = line ++ crlf text
  := by
  rw [crlf_append, crlf_line closed]

theorem length_le_crlf (text : List Char) : text.length ≤ (crlf text).length := by
  induction text with
  | nil => apply Nat.le_refl
  | cons c text ih =>
    by_cases feed : c = '\n'
    · subst feed
      simp only [crlf_feed, length_cons]
      omega
    · simpa [crlf_cons feed] using ih

theorem crlf_eq_nil_iff : crlf text = [] ↔ text = [] := by
  constructor
  · intro empty
    have le := length_le_crlf text
    rw [empty] at le
    exact eq_nil_of_length_eq_zero (Nat.le_zero.mp le)
  · rintro rfl
    rfl

theorem take_crlf (closed : '\n' ∉ text.take n) :
  (crlf text).take n = text.take n
  := by
  by_cases le : n ≤ text.length
  · have length : (text.take n).length = n := by rw [length_take, Nat.min_eq_left le]
    nth_rewrite 1 [← take_append_drop n text]
    rw [crlf_line_append closed, take_left' length]
  · rw [take_of_length_le (Nat.le_of_not_le le)] at closed ⊢
    rw [crlf_line closed, take_of_length_le (Nat.le_of_not_le le)]

theorem drop_crlf (closed : '\n' ∉ text.take n) :
  (crlf text).drop n = crlf (text.drop n)
  := by
  by_cases le : n ≤ text.length
  · have length : (text.take n).length = n := by rw [length_take, Nat.min_eq_left le]
    nth_rewrite 1 [← take_append_drop n text]
    rw [crlf_line_append closed, drop_left' length]
  · rw [take_of_length_le (Nat.le_of_not_le le)] at closed
    rw [crlf_line closed, drop_of_length_le (Nat.le_of_not_le le)]
    rfl

theorem takeWhile_crlf (feed : p '\n' = false) (carriage : p '\r' = false) (text : List Char) :
  (crlf text).takeWhile p = text.takeWhile p
  := by
  induction text with
  | nil => rfl
  | cons c text ih =>
    by_cases same : c = '\n'
    · subst same
      simp [feed, carriage]
    · rw [crlf_cons same, takeWhile_cons, takeWhile_cons, ih]

theorem dropWhile_crlf (same : p '\n' = p '\r') (text : List Char) :
  (crlf text).dropWhile p = crlf (text.dropWhile p)
  := by
  induction text with
  | nil => rfl
  | cons c text ih =>
    by_cases feed : c = '\n'
    · subst feed
      cases holds : p '\n' with
      | false => 
        rw [holds] at same
        simp [holds, ← same]
      | true =>
        rw [holds] at same
        simp [holds, ← same, ih]
    · rw [crlf_cons feed, dropWhile_cons, dropWhile_cons, ih]
      split
      · rfl
      · rw [crlf_cons feed]

theorem any_head_crlf (same : p '\n' = p '\r') (text : List Char) :
  (crlf text).head?.any p = text.head?.any p
  := by
  cases text with
  | nil => rfl
  | cons c text =>
    by_cases feed : c = '\n'
    · subst feed
      simp [same]
    · rw [crlf_cons feed]
      rfl

/-- A text on one line. -/
def OneLine (text : List Char) : Prop :=
  '\n' ∉ text ∧ '\r' ∉ text

instance (text : List Char) : Decidable (OneLine text) :=
  inferInstanceAs (Decidable (_ ∧ _))

theorem prefix_crlf_iff {pattern : List Char} (line : OneLine pattern) :
  pattern <+: crlf text ↔ pattern <+: text
  := by
  induction pattern generalizing text with
  | nil => simp
  | cons c pattern ih =>
    obtain ⟨closed, single⟩ := line
    rw [mem_cons, not_or] at closed single
    cases text with
    | nil => simp
    | cons d text =>
      by_cases feed : d = '\n'
      · subst feed
        simp [Ne.symm closed.1, Ne.symm single.1]
      · rw [crlf_cons feed, cons_prefix_cons, cons_prefix_cons, ih ⟨closed.2, single.2⟩]

theorem isPrefixOf_crlf {pattern : List Char} (line : OneLine pattern) (text : List Char) :
  pattern.isPrefixOf (crlf text) = pattern.isPrefixOf text
  := by
  rw [Bool.eq_iff_iff, List.isPrefixOf_iff_prefix, List.isPrefixOf_iff_prefix, prefix_crlf_iff line]

theorem cut_crlf {needle : List Char} (line : OneLine needle) (some_ : needle ≠ [])
    (text : List Char) :
  Search.cut needle (crlf text) =
    (Search.cut needle text).map fun parts => (crlf parts.1, crlf parts.2)
  := by
  induction text with
  | nil => simp [Search.cut, Search.find, some_]
  | cons c text ih =>
    by_cases feed : c = '\n'
    · subst feed
      obtain ⟨d, needle, rfl⟩ := exists_cons_of_ne_nil some_
      obtain ⟨closed, single⟩ := line
      rw [mem_cons, not_or] at closed single
      rw [crlf_feed, Search.cut_cons, Search.cut_cons, Search.cut_cons,
        if_neg (by simp [Ne.symm single.1]), if_neg (by simp [Ne.symm closed.1]),
        if_neg (by simp [Ne.symm closed.1]), ih, Option.map_map, Option.map_map, Option.map_map]
      rfl
    · rw [crlf_cons feed, Search.cut_cons, Search.cut_cons, ih, ← crlf_cons feed]
      simp only [prefix_crlf_iff line]
      split
      next first =>
        have taken : (c :: text).take needle.length = needle :=
          (prefix_iff_eq_take.mp first).symm
        rw [Option.map_some, drop_crlf (by rw [taken]; exact line.1)]
        rfl
      next =>
        rw [Option.map_map, Option.map_map]
        apply congrArg (Option.map · (Search.cut needle text))
        funext parts
        simp only [Function.comp_apply, crlf_cons feed]

/-! ### Readers -/

theorem skipTrivia_comment (fuel : ℕ) (text : List Char) :
  skipTrivia (fuel + 1) ((crlf text).dropWhile (· ≠ '\n')) =
    skipTrivia (fuel + 1) (crlf (text.dropWhile (· ≠ '\n')))
  := by
  induction text with
  | nil => rfl
  | cons c text ih =>
    by_cases feed : c = '\n'
    · subst feed
      have carriage : isWhitespace '\r' = true := rfl
      simp [skipTrivia, carriage]
    · rw [crlf_cons feed, dropWhile_cons_of_pos (by simpa using feed),
        dropWhile_cons_of_pos (by simpa using feed), ih]

theorem skipTrivia_crlf {fuel fuel' : ℕ} (enough : text.length < fuel)
    (enough' : (crlf text).length < fuel') :
  skipTrivia fuel' (crlf text) = crlf (skipTrivia fuel text)
  := by
  induction fuel generalizing fuel' text with
  | zero => omega
  | succ fuel ih =>
    obtain ⟨fuel', rfl⟩ : ∃ less, fuel' = less + 1 := ⟨fuel' - 1, by omega⟩
    rw [skipTrivia, skipTrivia, dropWhile_crlf rfl, isPrefixOf_crlf (by decide)]
    split
    next comment =>
      rw [List.isPrefixOf_iff_prefix] at comment
      obtain ⟨more, heq⟩ := comment
      have suffix := dropWhile_suffix isWhitespace (l := text)
      rw [← heq] at suffix ⊢
      obtain ⟨white, rfl⟩ := suffix
      have shorter : more.dropWhile (· ≠ '\n') <:+ more := dropWhile_suffix _
      obtain ⟨front, whole⟩ := shorter
      have length := congrArg List.length whole
      have length' := congrArg (fun text => (crlf text).length) whole
      simp only [crlf_append, length_append] at length length' enough enough'
      have slashes : crlf ['/', '/'] = ['/', '/'] := rfl
      rw [slashes] at enough'
      rw [crlf_line_append (by decide)]
      simp only [length_cons, length_nil] at enough enough'
      obtain ⟨less, rfl⟩ : ∃ less, fuel' = less + 1 := ⟨fuel' - 1, by omega⟩
      have drop : (['/', '/'] ++ crlf more).drop 2 = crlf more := rfl
      have drop' : (['/', '/'] ++ more).drop 2 = more := rfl
      rw [drop, drop', skipTrivia_comment]
      apply ih (by omega) (by omega)
    next => rfl

theorem readOptionalSuffix_crlf (text : List Char) :
  readOptionalSuffix (crlf text) =
    ((readOptionalSuffix text).1, crlf (readOptionalSuffix text).2)
  := by
  cases text with
  | nil => rfl
  | cons c text =>
    by_cases feed : c = '\n'
    · subst feed
      rfl
    · rw [crlf_cons feed, readOptionalSuffix, readOptionalSuffix, takeWhile_crlf rfl rfl,
        dropWhile_crlf rfl, ← crlf_cons feed]
      split <;> rfl

theorem readFraction_crlf (text : List Char) :
  readFraction (crlf text) = ((readFraction text).1, crlf (readFraction text).2)
  := by
  rw [readFraction, readFraction, isPrefixOf_crlf (by decide)]
  by_cases point : ['.'].isPrefixOf text = true
  · rw [List.isPrefixOf_iff_prefix] at point
    obtain ⟨text, rfl⟩ := point
    rw [crlf_line_append (by decide)]
    have drop : ∀ text : List Char, (['.'] ++ text).drop 1 = text := fun _ => rfl
    rw [drop, drop, any_head_crlf rfl, takeWhile_crlf rfl rfl, dropWhile_crlf rfl]
    split
    · rfl
    · rw [crlf_line_append (by decide)]
  · simp [point]

theorem readWhole_crlf (text : List Char) :
  readWhole (crlf text) = ((readWhole text).1, crlf (readWhole text).2)
  := by
  rw [readWhole, readWhole, isPrefixOf_crlf (by decide), takeWhile_crlf rfl rfl, dropWhile_crlf rfl]
  split
  next zero =>
    rw [List.isPrefixOf_iff_prefix] at zero
    obtain ⟨text, rfl⟩ := zero
    rw [crlf_line_append (by decide)]
    rfl
  next => rfl

theorem readNumber_crlf (text : List Char) :
  readNumber (crlf text) = ((readNumber text).1, crlf (readNumber text).2)
  := by
  have decimal : ∀ whole : List Char × List Char,
      readFraction (crlf whole.2) = ((readFraction whole.2).1, crlf (readFraction whole.2).2) :=
    fun whole => readFraction_crlf whole.2
  rw [readNumber, readNumber, isPrefixOf_crlf (by decide)]
  by_cases hex : ['0', 'x'].isPrefixOf text = true
  · rw [List.isPrefixOf_iff_prefix] at hex
    obtain ⟨text, rfl⟩ := hex
    have drop : ∀ text : List Char, (['0', 'x'] ++ text).drop 2 = text := fun _ => rfl
    have crlf_eq : crlf (['0', 'x'] ++ text) = ['0', 'x'] ++ crlf text :=
      crlf_line_append (by decide) text
    rw [readWhole_crlf, crlf_eq, drop, drop, any_head_crlf rfl, takeWhile_crlf rfl rfl,
      dropWhile_crlf rfl, readOptionalSuffix_crlf]
    dsimp only
    rw [readFraction_crlf, readOptionalSuffix_crlf]
    split <;> rfl
  · rw [if_neg (by simp [hex]), if_neg (by simp [hex]), readWhole_crlf]
    dsimp only
    rw [readFraction_crlf, readOptionalSuffix_crlf]

theorem readIdentifier_crlf (ne : c ≠ '\n') (text : List Char) :
  readIdentifier (crlf (c :: text)) =
    ((readIdentifier (c :: text)).1, crlf (readIdentifier (c :: text)).2)
  := by
  have drop : ∀ text : List Char, (c :: text).drop 1 = text := fun _ => rfl
  rw [crlf_cons ne, readIdentifier, readIdentifier, drop, drop, takeWhile_crlf rfl rfl,
    dropWhile_crlf rfl]
  rfl

theorem oneLine_of_mem_twoCharacterOperators :
  ∀ pair ∈ twoCharacterOperators, OneLine pair
  := by
  decide

theorem readOperator_crlf (ne : c ≠ '\n') (text : List Char) (allowArrow : Bool) :
  readOperator (crlf (c :: text)) allowArrow =
    ((readOperator (c :: text) allowArrow).1, crlf (readOperator (c :: text) allowArrow).2)
  := by
  rw [crlf_cons ne]
  cases text with
  | nil =>
    rw [crlf_nil, readOperator]
    split <;> rfl
  | cons d text =>
    by_cases feed : d = '\n'
    · subst feed
      have not_feed : [c, '\n'] ∉ twoCharacterOperators := fun mem =>
        (oneLine_of_mem_twoCharacterOperators _ mem).1 (by simp)
      have not_carriage : [c, '\r'] ∉ twoCharacterOperators := fun mem =>
        (oneLine_of_mem_twoCharacterOperators _ mem).2 (by simp)
      have first : (c :: crlf ('\n' :: text)).take 2 = [c, '\r'] := rfl
      have first' : (c :: '\n' :: text).take 2 = [c, '\n'] := rfl
      rw [readOperator, readOperator, first, first', if_neg (by simp [not_carriage]),
        if_neg (by simp [not_feed])]
      rfl
    · rw [crlf_cons feed, readOperator, readOperator]
      have first : (c :: d :: crlf text).take 2 = [c, d] := rfl
      have first' : (c :: d :: text).take 2 = [c, d] := rfl
      rw [first, first']
      split
      · rfl
      · rw [drop_succ_cons, drop_zero, drop_succ_cons, drop_zero, crlf_cons feed]
        rfl

/-! ### Strings -/

/-- The scan of a body in a source with other line ends. -/
def BodyScan.crlf : BodyScan → BodyScan
  | .complete content rest => .complete content (Lexing.crlf rest)
  | .lineBreak content rest => .lineBreak content (Lexing.crlf rest)
  | .unterminated => .unterminated

theorem BodyScan.crlf_behind (front : List Char) (scan : BodyScan) :
  (scan.behind front).crlf = scan.crlf.behind front
  := by
  cases scan <;> rfl

theorem scanBody_cons (ne : c ≠ '\\') (escaped : Bool) (rest : List Char) :
  scanBody escaped (c :: rest) =
    if !escaped ∧ c = '"' then .complete [] rest
    else if isLineBreak c then .lineBreak [] (c :: rest)
    else (scanBody escaped rest).behind [c]
  := by
  rw [scanBody]
  · rintro rfl
    exact absurd rfl ne
  · rintro _ _ rfl
    exact absurd rfl ne

theorem scanBody_crlf (escaped : Bool) (text : List Char) :
  scanBody escaped (crlf text) = (scanBody escaped text).crlf
  := by
  fun_induction scanBody escaped text with
  | case1 => rfl
  | case2 => rfl
  | case3 c rest closed =>
    rw [closed.2]
    change scanBody escaped ('\\' :: '"' :: crlf rest) = _
    rw [scanBody, if_pos ⟨closed.1, rfl⟩]
    rfl
  | case4 c rest open_ broken =>
    by_cases feed : c = '\n'
    · subst feed
      change scanBody escaped ('\\' :: '\r' :: '\n' :: crlf rest) = _
      rw [scanBody, if_neg (by simp)]
      rfl
    · rw [crlf_cons (by decide), crlf_cons feed, scanBody, if_neg open_, if_pos broken,
        BodyScan.crlf, crlf_cons feed]
  | case5 c rest open_ same ih =>
    have ne : c ≠ '\n' := by
      rintro rfl
      exact same rfl
    rw [crlf_cons (by decide), crlf_cons ne, scanBody, if_neg open_, if_neg same, ih,
      BodyScan.crlf_behind]
  | case6 c rest not_nil not_cons closed =>
    rw [closed.2]
    change scanBody escaped ('"' :: crlf rest) = _
    rw [scanBody_cons (by decide), if_pos ⟨closed.1, rfl⟩]
    rfl
  | case7 c rest not_nil not_cons open_ broken =>
    by_cases feed : c = '\n'
    · subst feed
      change scanBody escaped ('\r' :: '\n' :: crlf rest) = _
      rw [scanBody_cons (by decide), if_neg (by simp)]
      rfl
    · have ne : c ≠ '\\' := by
        rintro rfl
        simp [isLineBreak] at broken
      rw [crlf_cons feed, scanBody_cons ne, if_neg open_, if_pos broken, BodyScan.crlf,
        crlf_cons feed]
  | case8 c rest not_nil not_cons open_ same ih =>
    have feed : c ≠ '\n' := by
      rintro rfl
      exact same rfl
    have ne : c ≠ '\\' := by
      rintro rfl
      cases rest with
      | nil => exact not_nil rfl rfl
      | cons d rest => exact not_cons d rest rfl rfl
    rw [crlf_cons feed, scanBody_cons ne, if_neg open_, if_neg same, ih, BodyScan.crlf_behind]

/-! ### Escapes -/

theorem hexRun_crlf (text : List Char) (limit : ℕ) : hexRun (crlf text) limit = hexRun text limit := by
  rw [hexRun, hexRun, ← take_takeWhile, ← take_takeWhile, takeWhile_crlf rfl rfl]

/-- The digits that a run counts. -/
theorem isHexDigit_of_mem_take {limit : ℕ} (mem : c ∈ text.take (hexRun text limit)) :
  isHexDigit c = true
  := by
  have taken : (text.take limit).takeWhile isHexDigit <+: text :=
    (List.takeWhile_prefix _).trans (List.take_prefix _ _)
  rw [hexRun, ← prefix_iff_eq_take.mp taken] at mem
  exact mem_takeWhile_imp mem

/-- How many bytes an escape takes, whether or not it is one. -/
def escapeLength : Except EscapeError (Char × ℕ) → ℕ
  | .ok (_, length) => length
  | .error error => max error.length 1

theorem escapeLength_error {offset : ℕ} {kind : EscapeErrorKind} (pos : 0 < length) :
  escapeLength (.error ⟨offset, length, kind⟩) = length
  := Nat.max_eq_left pos

/-- What stands between the braces or the digits of an escape. -/
def EscapeChar (c : Char) : Prop :=
  isHexDigit c = true ∨ c ∈ ['\\', 'u', '{', '}', 'x']

theorem EscapeChar.utf8Size (escape : EscapeChar c) : c.utf8Size = 1 := by
  obtain digit | mem := escape
  · have le : c.val ≤ 0x7F := by
      have below : ∀ d : Char, d.val ≤ 0x7F → c ≤ d → c.val ≤ 0x7F := fun d bound le =>
        UInt32.le_trans le bound
      simp only [isHexDigit, Bool.or_eq_true, Bool.and_eq_true, decide_eq_true_eq] at digit
      obtain (⟨-, le⟩ | ⟨-, le⟩) | ⟨-, le⟩ := digit
      · exact below '9' (by decide) le
      · exact below 'f' (by decide) le
      · exact below 'F' (by decide) le
    simp [Char.utf8Size, le]
  · simp only [mem_cons, not_mem_nil, or_false] at mem
    obtain rfl | rfl | rfl | rfl | rfl := mem <;> rfl

theorem EscapeChar.ne (escape : EscapeChar c) : c ≠ '\n' := by
  rintro rfl
  obtain digit | mem := escape
  · simp [isHexDigit] at digit
  · simp at mem

theorem lenUtf8_escape (escape : ∀ c ∈ text, EscapeChar c) :
  lenUtf8 text = text.length
  := by
  induction text with
  | nil => rfl
  | cons c text ih =>
    obtain ⟨first, escape⟩ := forall_mem_cons.mp escape
    rw [lenUtf8, map_cons, sum_cons, first.utf8Size, length_cons, ← ih escape, lenUtf8,
      Nat.add_comm]

theorem length_take_hexRun (text : List Char) (limit : ℕ) :
  (text.take (hexRun text limit)).length = hexRun text limit
  := by
  have taken : (text.take limit).takeWhile isHexDigit <+: text :=
    (List.takeWhile_prefix _).trans (List.take_prefix _ _)
  rw [hexRun, ← prefix_iff_eq_take.mp taken]

/-- The first so many characters of a text are all of an escape's kind. -/
structure EscapeRun (text : List Char) (n : ℕ) : Prop where
  length : (text.take n).length = n
  escape : ∀ c ∈ text.take n, EscapeChar c

theorem EscapeRun.hexRun (text : List Char) (limit : ℕ) : EscapeRun text (hexRun text limit) where
  length := length_take_hexRun text limit
  escape _ mem := Or.inl (isHexDigit_of_mem_take mem)

theorem EscapeRun.zero (text : List Char) : EscapeRun text 0 := by
  constructor <;> simp

theorem EscapeRun.cons (escape : c ∈ ['\\', 'u', '{', '}', 'x']) (run : EscapeRun text n) :
  EscapeRun (c :: text) (n + 1)
  := by
  constructor
  · simp [run.length]
  · rw [take_succ_cons, forall_mem_cons]
    exact ⟨Or.inr escape, run.escape⟩

theorem EscapeRun.append {m : ℕ} (run : EscapeRun text m) (more : EscapeRun (text.drop m) n) :
  EscapeRun text (m + n)
  := by
  constructor
  · rw [take_add, length_append, run.length, more.length]
  · intro c mem
    rw [take_add, mem_append] at mem
    exact mem.elim (run.escape c) (more.escape c)

theorem EscapeRun.closed (run : EscapeRun text n) : '\n' ∉ text.take n :=
  fun mem => (run.escape _ mem).ne rfl

theorem EscapeRun.take {front : List Char} (run : EscapeRun text n) (heq : text.take n = front) :
  lenUtf8 front = n
  := by
  rw [← heq, lenUtf8_escape run.escape, run.length]

theorem codePoint_run (value : ℕ) (braced : Bool) (pos : 0 < length) (run : EscapeRun text length) :
  EscapeRun text (escapeLength (codePoint text value length braced))
  := by
  rw [codePoint]
  split
  · rw [escapeLength_error pos]
    exact run
  dsimp only
  split
  next pair =>
    obtain ⟨-, -, -, first, digits, -, -⟩ := pair
    rw [List.isPrefixOf_iff_prefix] at first
    obtain ⟨more, heq⟩ := first
    apply run.append
    rw [← heq] at digits ⊢
    apply EscapeRun.cons (by decide)
    apply EscapeRun.cons (by decide)
    have four := EscapeRun.hexRun more 4
    rw [show hexRun more 4 = 4 from digits] at four
    exact four
  next =>
    split
    · exact run
    · rw [escapeLength_error pos]
      exact run

theorem hexRun_le (text : List Char) (limit : ℕ) : hexRun text limit ≤ limit :=
  (List.takeWhile_prefix _).length_le.trans (length_take_le _ _)

/-- The digits behind the opening brace of an escape. -/
theorem EscapeRun.braced (text : List Char) (limit : ℕ) :
  EscapeRun ('\\' :: 'u' :: '{' :: text) (3 + Lexing.hexRun text limit)
  := by
  rw [Nat.add_comm 3]
  apply EscapeRun.cons (by decide)
  apply EscapeRun.cons (by decide)
  apply EscapeRun.cons (by decide)
  apply EscapeRun.hexRun

theorem EscapeRun.closing {text : List Char} {n : ℕ} (run : EscapeRun text n)
    (closed : ['}'].isPrefixOf (text.drop n) = true) :
  EscapeRun text (n + 1)
  := by
  apply run.append
  rw [List.isPrefixOf_iff_prefix] at closed
  obtain ⟨more, heq⟩ := closed
  rw [← heq]
  apply EscapeRun.cons (by decide)
  apply EscapeRun.zero

theorem EscapeRun.unbraced (text : List Char) (limit : ℕ) :
  EscapeRun ('\\' :: 'u' :: text) (2 + Lexing.hexRun text limit)
  := by
  rw [Nat.add_comm 2]
  apply EscapeRun.cons (by decide)
  apply EscapeRun.cons (by decide)
  apply EscapeRun.hexRun

theorem readUnicodeEscape_run (text : List Char) :
  EscapeRun ('\\' :: 'u' :: text) (escapeLength (readUnicodeEscape ('\\' :: 'u' :: text)))
  := by
  rw [readUnicodeEscape]
  have drop : ('\\' :: 'u' :: text).drop 2 = text := rfl
  rw [drop]
  split
  next brace =>
    rw [List.isPrefixOf_iff_prefix] at brace
    obtain ⟨text, rfl⟩ := brace
    have drop : ('\\' :: 'u' :: (['{'] ++ text)).drop 3 = text := rfl
    have digits := EscapeRun.braced text (usizeBound - 1)
    rw [drop]
    dsimp only
    split
    next =>
      rw [escapeLength_error (by omega)]
      exact digits
    next closed =>
      rw [not_or, not_not] at closed
      have closing := digits.closing closed.2
      split
      · rw [escapeLength_error (by omega)]
        exact closing
      · exact codePoint_run _ _ (by omega) closing
  next =>
    have digits := EscapeRun.unbraced text 4
    dsimp only
    split
    · rw [escapeLength_error (by omega)]
      exact digits
    next enough =>
      apply codePoint_run _ _ (by decide)
      have le := hexRun_le text 4
      have four : hexRun text 4 = 4 := by omega
      rw [four] at digits
      exact digits

theorem le_codePoint (text : List Char) (value length : ℕ) (braced : Bool) :
  length ≤ escapeLength (codePoint text value length braced)
  := by
  rw [codePoint]
  split
  · apply Nat.le_max_left
  dsimp only
  split
  · apply Nat.le_add_right
  · split
    · apply Nat.le_refl
    · apply Nat.le_max_left

theorem readUnicodeEscape_pos (text : List Char) : 0 < escapeLength (readUnicodeEscape text) := by
  have error : ∀ error, 0 < escapeLength (.error error) := fun error => Nat.le_max_right _ _
  have code : ∀ value length braced, 0 < length →
      0 < escapeLength (codePoint text value length braced) := fun value length braced pos =>
    Nat.lt_of_lt_of_le pos (le_codePoint text value length braced)
  rw [readUnicodeEscape]
  dsimp only
  split
  · split
    · apply error
    split
    · apply error
    · apply code
      omega
  · split
    · apply error
    · apply code
      decide

theorem utf8Size_of_simpleEscape {d : Char} (simple : simpleEscape c = some d) : c.utf8Size = 1 := by
  unfold simpleEscape at simple
  split at simple
  all_goals first | rfl | simp at simple

/-- What an escape takes off a text: its backslash, a character, and what has the form of digits. -/
theorem exists_escape_front (ne : c ≠ '\n') (text : List Char) :
  ∃ front back, '\\' :: c :: text = front ++ back ∧
    lenUtf8 front = escapeLength (readEscape ('\\' :: c :: text)) ∧ '\n' ∉ front ∧ front ≠ []
  := by
  have single : '\n' ∉ ['\\', c] := by simp [Ne.symm ne]
  have backslash : '\\'.utf8Size = 1 := rfl
  have run : ∀ {n : ℕ}, 0 < n → EscapeRun ('\\' :: c :: text) n →
      ∃ front back, '\\' :: c :: text = front ++ back ∧ lenUtf8 front = n ∧ '\n' ∉ front ∧
        front ≠ [] := by
    intro n pos run
    refine ⟨_, _, (take_append_drop n _).symm, run.take rfl, run.closed, ?_⟩
    intro empty
    have length := run.length
    rw [empty] at length
    rw [← length] at pos
    exact Nat.lt_irrefl 0 pos
  have drop : ('\\' :: c :: text).drop 1 = c :: text := rfl
  rw [readEscape, drop]
  dsimp only
  cases simple : simpleEscape c with
  | some d =>
    refine ⟨['\\', c], text, rfl, ?_, single, by simp⟩
    simp [lenUtf8, utf8Size_of_simpleEscape simple, escapeLength, backslash]
  | none =>
    dsimp only
    split
    next hex =>
      subst hex
      have digits : EscapeRun ('\\' :: 'x' :: text) (2 + hexRun text 2) := by
        rw [Nat.add_comm 2]
        apply EscapeRun.cons (by decide)
        apply EscapeRun.cons (by decide)
        apply EscapeRun.hexRun
      split
      · rw [escapeLength_error (by omega)]
        exact run (by omega) digits
      next enough =>
        have le := hexRun_le text 2
        have two : hexRun text 2 = 2 := by omega
        rw [two] at digits
        exact run (by simp [escapeLength]) digits
    split
    next unicode =>
      subst unicode
      exact run (readUnicodeEscape_pos _) (readUnicodeEscape_run text)
    next =>
      refine ⟨['\\', c], text, rfl, ?_, single, by simp⟩
      have size := c.utf8Size_pos
      rw [escapeLength_error (by omega)]
      simp [lenUtf8, backslash]

theorem take_hexRun_crlf {limit : ℕ} (digits : hexRun text limit = n) :
  (crlf text).take n = text.take n
  := by
  rw [← digits]
  exact take_crlf (EscapeRun.hexRun text limit).closed

theorem codePoint_crlf (value : ℕ) (braced : Bool) (run : EscapeRun text length) :
  codePoint (crlf text) value length braced = codePoint text value length braced
  := by
  rw [codePoint, codePoint, drop_crlf run.closed]
  dsimp only
  rw [isPrefixOf_crlf (by decide)]
  by_cases first : ['\\', 'u'].isPrefixOf (text.drop length) = true
  · rw [List.isPrefixOf_iff_prefix] at first
    obtain ⟨more, heq⟩ := first
    rw [← heq, crlf_line_append (by decide)]
    have drop : ∀ more : List Char, (['\\', 'u'] ++ more).drop 2 = more := fun _ => rfl
    rw [drop, drop, hexRun_crlf]
    by_cases digits : hexRun more 4 = 4
    · rw [take_hexRun_crlf digits]
    · simp [digits]
  · simp [first]

theorem readUnicodeEscape_crlf (text : List Char) :
  readUnicodeEscape ('\\' :: 'u' :: crlf text) = readUnicodeEscape ('\\' :: 'u' :: text)
  := by
  have crlf_eq : '\\' :: 'u' :: crlf text = crlf ('\\' :: 'u' :: text) := rfl
  have drop : ∀ text : List Char, ('\\' :: 'u' :: text).drop 2 = text := fun _ => rfl
  rw [readUnicodeEscape, readUnicodeEscape, drop, drop, isPrefixOf_crlf (by decide)]
  split
  next brace =>
    rw [List.isPrefixOf_iff_prefix] at brace
    obtain ⟨text, rfl⟩ := brace
    have drop : ∀ text : List Char, ('\\' :: 'u' :: (['{'] ++ text)).drop 3 = text := fun _ => rfl
    have crlf_eq : '\\' :: 'u' :: crlf (['{'] ++ text) = crlf ('\\' :: 'u' :: (['{'] ++ text)) := rfl
    have digits : EscapeRun ('\\' :: 'u' :: (['{'] ++ text)) _ := EscapeRun.braced text (usizeBound - 1)
    rw [crlf_eq, drop_crlf (n := 3) (by simp), drop, hexRun_crlf]
    dsimp only
    rw [drop_crlf digits.closed, isPrefixOf_crlf (by decide), take_hexRun_crlf rfl]
    split
    · rfl
    next closed =>
      rw [not_or, not_not] at closed
      rw [codePoint_crlf _ _ (digits.closing closed.2)]
  next =>
    rw [hexRun_crlf]
    dsimp only
    split
    · rfl
    next enough =>
      have le := hexRun_le text 4
      have four : hexRun text 4 = 4 := by omega
      have digits := EscapeRun.unbraced text 4
      rw [four] at digits
      rw [take_hexRun_crlf four, crlf_eq, codePoint_crlf _ _ digits]

/-- An escape is the same whatever the ends of the lines behind it. -/
theorem readEscape_crlf (ne : c ≠ '\n') (text : List Char) :
  readEscape (crlf ('\\' :: c :: text)) = readEscape ('\\' :: c :: text)
  := by
  have drop : ∀ text : List Char, ('\\' :: c :: text).drop 1 = c :: text := fun _ => rfl
  rw [crlf_cons (by decide), crlf_cons ne, readEscape, readEscape, drop, drop]
  dsimp only
  cases simple : simpleEscape c with
  | some d => rfl
  | none =>
    dsimp only
    rw [hexRun_crlf]
    split
    next hex =>
      split
      · rfl
      next enough =>
        have le := hexRun_le text 2
        have two : hexRun text 2 = 2 := by omega
        rw [take_hexRun_crlf two]
    split
    next unicode =>
      subst unicode
      apply readUnicodeEscape_crlf
    next => rfl

end Vilan.Core.Lexing
