import Vilan.Core.LineEnds

/-!
# Line ends never change a program

The same source with its lines ended by a carriage return and a line feed has the same tokens, once
each literal is read as its value, and the same errors, wherever they are.
-/

namespace Vilan.Core.Lexing

open List Option Search

open Vilan.Http (isWhitespace trimEnd)

/-- A token with its literal read as a value.  The text of a triple-quoted one may be refused, with a
message. -/
def Token.value : Token → Except String Token
  | .string body => .ok (.string (unescapeString body))
  | .multilineString raw =>
      match trimMultilineString raw with
      | .ok value => .ok (.multilineString value)
      | .error error => .error error.1
  | token => .ok token

/-- The values of tokens, wherever they are. -/
def values (tokens : List Spanned) : List (Except String Token) :=
  tokens.map fun spanned => spanned.1.value

/-- Errors, wherever they are. -/
def unplaced (errors : List LexError) : List (Char × Option LexRule) :=
  errors.map fun error => (error.character, error.rule)

/-! ### The values of literals -/

theorem normalizeNewlines_plain {text : List Char} (plain : '\r' ∉ text) :
  normalizeNewlines text = text
  := by
  induction text with
  | nil => rfl
  | cons c text ih =>
    rw [mem_cons, not_or] at plain
    rw [normalizeNewlines_cons (by simp [Ne.symm plain.1]), ih plain.2]

theorem normalizeNewlines_crlf {text : List Char} (plain : '\r' ∉ text) :
  normalizeNewlines (crlf text) = text
  := by
  induction text with
  | nil => rfl
  | cons c text ih =>
    rw [mem_cons, not_or] at plain
    by_cases feed : c = '\n'
    · subst feed
      rw [crlf_feed, normalizeNewlines, ih plain.2]
    · rw [crlf_cons feed, normalizeNewlines_cons (by simp [Ne.symm plain.1]), ih plain.2]

theorem unescapeString_crlf {text : List Char} (plain : '\r' ∉ text) :
  unescapeString (crlf text) = unescapeString text
  := by
  rw [unescapeString, unescapeString, normalizeNewlines_crlf plain, normalizeNewlines_plain plain]

theorem stripCarriageReturn_plain {line : List Char} (plain : '\r' ∉ line) :
  stripCarriageReturn line = line
  := by
  rw [stripCarriageReturn, if_neg]
  intro last
  exact plain (mem_of_getLast? last)

theorem stripCarriageReturn_carriage (line : List Char) : stripCarriageReturn (line ++ ['\r']) = line := by
  rw [stripCarriageReturn_append _ (by simp)]
  simp [stripCarriageReturn]

/-- The lines of a text that ends with a carriage return. -/
theorem splitOn_crlf (text : List Char) :
  (crlf text ++ ['\r']).splitOn '\n' = (text.splitOn '\n').map (· ++ ['\r'])
  := by
  induction text with
  | nil => rfl
  | cons c text ih =>
    by_cases feed : c = '\n'
    · subst feed
      rw [crlf_feed, cons_append, cons_append, splitOn_cons_eq_if_modifyHead,
        splitOn_cons_eq_if_modifyHead, splitOn_cons_eq_if_modifyHead, ih]
      rfl
    · have ne : (c == '\n') = false := by simpa using feed
      rw [crlf_cons feed, cons_append, splitOn_cons_eq_if_modifyHead,
        splitOn_cons_eq_if_modifyHead, ih, ne]
      cases text.splitOn '\n' <;> rfl

theorem cut_feed_crlf (text : List Char) :
  Search.cut ['\n'] (crlf text) =
    (Search.cut ['\n'] text).map fun parts => (parts.1 ++ ['\r'], crlf parts.2)
  := by
  induction text with
  | nil => rfl
  | cons c text ih =>
    by_cases feed : c = '\n'
    · subst feed
      rw [crlf_feed, cut_cons, if_neg (by simp), cut_cons, if_pos (by simp),
        cut_cons, if_pos (by simp)]
      rfl
    · rw [crlf_cons feed, cut_cons, if_neg (by simp [Ne.symm feed]), cut_cons,
        if_neg (by simp [Ne.symm feed]), ih, Option.map_map, Option.map_map]
      rfl

theorem rcutNewline_line {text : List Char} (closed : '\n' ∉ text) : rcutNewline text = none := by
  rw [rcutNewline, map_eq_none_iff, cut_eq_none_iff, find_eq_none_iff (by simp)]
  intro i first
  apply closed
  have mem := first.subset (mem_singleton_self '\n')
  exact mem_reverse.mp (mem_of_mem_drop mem)

theorem rcutNewline_append {content indentation : List Char} (closed : '\n' ∉ indentation) :
  rcutNewline (content ++ '\n' :: indentation) = some (content, indentation)
  := by
  have cut : Search.cut ['\n'] (content ++ '\n' :: indentation).reverse =
      some (indentation.reverse, content.reverse) := by
    rw [cut_eq_some_iff]
    use by simp
    intro i lt first
    rw [reverse_append, reverse_cons, append_assoc,
      drop_append_of_le_length (Nat.le_of_lt lt)] at first
    have some_ : indentation.reverse.drop i ≠ [] := by
      rw [ne_eq, drop_eq_nil_iff]
      omega
    obtain ⟨d, more, heq⟩ := exists_cons_of_ne_nil some_
    rw [heq, cons_append, cons_prefix_cons] at first
    apply closed
    rw [first.1, ← mem_reverse]
    apply mem_of_mem_drop (i := i)
    rw [heq]
    apply mem_cons_self
  rw [rcutNewline, cut]
  simp

theorem exists_rcutNewline (text : List Char) :
  '\n' ∉ text ∨ ∃ content indentation, text = content ++ '\n' :: indentation ∧ '\n' ∉ indentation
  := by
  by_cases mem : '\n' ∈ text
  · right
    obtain ⟨behind, before, heq, closed⟩ := eq_append_cons_of_mem (mem_reverse.mpr mem)
    refine ⟨before.reverse, behind.reverse, ?_, by simpa using closed⟩
    have := congrArg List.reverse heq
    simpa using this
  · exact Or.inl mem

theorem rcutNewline_crlf (text : List Char) :
  rcutNewline (crlf text) = (rcutNewline text).map fun parts => (crlf parts.1 ++ ['\r'], parts.2)
  := by
  obtain closed | ⟨content, indentation, rfl, closed⟩ := exists_rcutNewline text
  · rw [crlf_line closed, rcutNewline_line closed]
    rfl
  · rw [rcutNewline_append closed, crlf_append, crlf_feed, crlf_line closed, ← singleton_append,
      ← append_assoc, rcutNewline_append closed]
    rfl

theorem trimEnd_plain {text : List Char} (plain : '\r' ∉ text) : trimEnd (· = '\r') text = text := by
  rw [trimEnd]
  cases last : text.reverse with
  | nil => simpa using last.symm
  | cons c front =>
    have mem : c ∈ text := by
      rw [← mem_reverse, last]
      apply mem_cons_self
    have ne : c ≠ '\r' := by
      rintro rfl
      exact plain mem
    rw [dropWhile_cons_of_neg (by simpa using ne), ← last, reverse_reverse]

theorem trimEnd_carriage {text : List Char} (plain : '\r' ∉ text) :
  trimEnd (· = '\r') (text ++ ['\r']) = text
  := by
  have trimmed := trimEnd_plain plain
  rw [trimEnd] at trimmed ⊢
  rw [reverse_append, reverse_singleton, singleton_append, dropWhile_cons_of_pos (by simp), trimmed]

/-- Two refusals for one reason, or none of both. -/
def SameRefusal : Option LayoutError → Option LayoutError → Prop
  | none, none => True
  | some error, some error' => error.1 = error'.1
  | _, _ => False

theorem unindentedLine_crlf (indentation : List Char) {lines : List (List Char)}
    (plain : ∀ line ∈ lines, '\r' ∉ line) (index start start' : ℕ) :
  SameRefusal (unindentedLine indentation index start lines)
    (unindentedLine indentation index start' (lines.map (· ++ ['\r'])))
  := by
  induction lines generalizing index start start' with
  | nil => trivial
  | cons line lines ih =>
    obtain ⟨plain_line, plain⟩ := forall_mem_cons.mp plain
    rw [map_cons, unindentedLine, unindentedLine, stripCarriageReturn_carriage,
      stripCarriageReturn_plain plain_line]
    split
    · exact rfl
    · apply ih plain

/-- How the layouts of a text with line feeds, and with carriage returns before them, correspond. -/
inductive SameLayout : Except LayoutError MultilineLayout → Except LayoutError MultilineLayout → Prop
  | error {message : String} (range range' : ℕ × ℕ) :
      SameLayout (.error (message, range)) (.error (message, range'))
  | bare (opener indentation : List Char) :
      SameLayout (.ok ⟨opener, [], indentation⟩) (.ok ⟨opener ++ ['\r'], [], indentation⟩)
  | lines (before content indentation : List Char) :
      SameLayout (.ok ⟨before, content, indentation⟩)
        (.ok ⟨crlf before, crlf content ++ ['\r'], indentation⟩)

theorem multilineLayout_crlf {raw : List Char} (plain : '\r' ∉ raw) :
  SameLayout (multilineLayout raw) (multilineLayout (crlf raw))
  := by
  rw [multilineLayout, multilineLayout, cut_feed_crlf]
  cases cut : Search.cut ['\n'] raw with
  | none => apply SameLayout.error
  | some parts =>
    obtain ⟨opener, behind⟩ := parts
    obtain ⟨heq, first⟩ := cut_eq_some_iff.mp cut
    rw [heq, mem_append, mem_append, not_or, not_or] at plain
    obtain ⟨plain_opener, -, plain_behind⟩ := plain
    rw [map_some]
    dsimp only
    rw [trimEnd_plain plain_opener, trimEnd_carriage plain_opener]
    split
    · apply SameLayout.error
    rw [rcutNewline_crlf]
    cases rcut : rcutNewline behind with
    | none =>
      rw [map_none]
      dsimp only
      have closed : '\n' ∉ behind := by
        obtain closed | ⟨content, indentation, rfl, closed⟩ := exists_rcutNewline behind
        · exact closed
        · rw [rcutNewline_append closed] at rcut
          simp at rcut
      rw [crlf_line closed]
      split
      · apply SameLayout.error
      · apply SameLayout.bare
    | some parts =>
      obtain ⟨content, indentation⟩ := parts
      rw [map_some]
      dsimp only
      split
      · apply SameLayout.error
      have plain_lines : ∀ line ∈ content.splitOn '\n', '\r' ∉ line := by
        intro line mem carriage
        apply plain_behind
        rw [rcutNewline_eq_some rcut]
        exact mem_append_left _ ((not_mem_of_mem_splitOn mem).2 carriage)
      have same := unindentedLine_crlf indentation plain_lines 0 (lenUtf8 opener + 1)
        (lenUtf8 (opener ++ ['\r']) + 1)
      rw [← splitOn_crlf] at same
      have closed : '\n' ∉ opener := by
        intro mem
        obtain ⟨front, back, rfl⟩ := append_of_mem mem
        apply first front.length (by simp)
        rw [heq, append_assoc, drop_left]
        simp
      have before : opener ++ ['\r'] ++ ['\n'] = crlf (opener ++ ['\n']) := by
        rw [crlf_line_append closed, append_assoc]
        rfl
      cases refused : unindentedLine indentation 0 (lenUtf8 opener + 1) (content.splitOn '\n') with
      | none =>
        cases refused' : unindentedLine indentation 0 (lenUtf8 (opener ++ ['\r']) + 1)
            ((crlf content ++ ['\r']).splitOn '\n') with
        | none =>
          dsimp only
          rw [before]
          apply SameLayout.lines
        | some error' =>
          rw [refused, refused'] at same
          exact same.elim
      | some error =>
        cases refused' : unindentedLine indentation 0 (lenUtf8 (opener ++ ['\r']) + 1)
            ((crlf content ++ ['\r']).splitOn '\n') with
        | none =>
          rw [refused, refused'] at same
          exact same.elim
        | some error' =>
          rw [refused, refused'] at same
          obtain ⟨message, range⟩ := error
          obtain ⟨message', range'⟩ := error'
          obtain rfl : message = message' := same
          apply SameLayout.error

theorem splitOn_last (content : List Char) :
  ∃ lines last, content.splitOn '\n' = lines ++ [last]
  := ⟨_, _, (dropLast_append_getLast (splitOn_ne_nil '\n' content)).symm⟩

/-- A triple-quoted literal has the same value, or is refused with the same message. -/
theorem value_multilineString_crlf {raw : List Char} (plain : '\r' ∉ raw) :
  (Token.multilineString (crlf raw)).value = (Token.multilineString raw).value
  := by
  have same := multilineLayout_crlf plain
  have trim_error : ∀ {raw : List Char} {error : LayoutError}, multilineLayout raw = .error error →
      trimMultilineString raw = .error error := by
    intro raw error refused
    rw [trimMultilineString, refused]
  have trim_bare : ∀ {raw before indentation : List Char},
      multilineLayout raw = .ok ⟨before, [], indentation⟩ → trimMultilineString raw = .ok [] := by
    intro raw before indentation accepted
    rw [trimMultilineString, accepted]
    rfl
  rw [Token.value, Token.value]
  cases layout : multilineLayout raw with
  | error error =>
    cases layout' : multilineLayout (crlf raw) with
    | error error' =>
      rw [layout, layout'] at same
      cases same
      rw [trim_error layout, trim_error layout']
    | ok shape' =>
      rw [layout, layout'] at same
      cases same
  | ok shape =>
    cases layout' : multilineLayout (crlf raw) with
    | error error' =>
      rw [layout, layout'] at same
      cases same
    | ok shape' =>
      rw [layout, layout'] at same
      cases same with
      | bare opener indentation => rw [trim_bare layout, trim_bare layout']
      | lines before content indentation =>
        obtain ⟨lines, last, split⟩ := splitOn_last content
        have split' : (crlf content ++ ['\r']).splitOn '\n' =
            lines.map (· ++ ['\r']) ++ [last ++ ['\r']] := by
          rw [splitOn_crlf, split, map_append]
          rfl
        have plain_lines : ∀ line ∈ lines ++ [last], '\r' ∉ line := by
          rw [← split]
          intro line mem carriage
          apply plain
          rw [(multilineLayout_eq_ok layout).2]
          have inside := (not_mem_of_mem_splitOn mem).2 carriage
          simp [inside]
        have same_lines : (lines.map (· ++ ['\r'])).map
            (fun line => unindent indentation (stripCarriageReturn line)) =
              lines.map (fun line => unindent indentation (stripCarriageReturn line)) := by
          rw [List.map_map]
          apply map_congr_left
          intro line mem
          rw [Function.comp_apply, stripCarriageReturn_carriage,
            stripCarriageReturn_plain (plain_lines line (by simp [mem]))]
        rw [trimMultilineString_eq_ok layout split, trimMultilineString_eq_ok layout' split',
          same_lines, stripCarriageReturn_carriage,
          stripCarriageReturn_plain (plain_lines last (by simp))]

/-! ### Strings -/

theorem unplaced_checkEscapes (start start' : ℕ) (body : List Char) :
  unplaced (checkEscapes start' body) = unplaced (checkEscapes start body)
  := by
  rw [unplaced, unplaced, checkEscapes, checkEscapes, List.map_map, List.map_map]
  rfl

/-- How the scans of a string correspond. -/
inductive SameScan : StringScan → StringScan → Prop
  | string (body rest : List Char) :
      SameScan (.complete (.string body) rest) (.complete (.string body) (crlf rest))
  | multilineString {raw : List Char} (plain : '\r' ∉ raw) (rest : List Char) :
      SameScan (.complete (.multilineString raw) rest)
        (.complete (.multilineString (crlf raw)) (crlf rest))
  | lineBreak (content rest : List Char) :
      SameScan (.lineBreak content rest) (.lineBreak content (crlf rest))
  | unterminated : SameScan .unterminated .unterminated

theorem sameScan_string (scan : BodyScan) : SameScan scan.string scan.crlf.string := by
  cases scan with
  | complete content rest => apply SameScan.string
  | lineBreak content rest => apply SameScan.lineBreak
  | unterminated => apply SameScan.unterminated

variable {tail rest : List Char} {errors errors' : List LexError} {fuel fuel' : ℕ}
  {parts parts' : List IStringPart × List LexError}

theorem readString_crlf (plain : '\r' ∉ tail) :
  SameScan (readString ('"' :: tail)) (readString ('"' :: crlf tail))
  := by
  have crlf_eq : '"' :: crlf tail = crlf ('"' :: tail) := rfl
  rw [readString, readString, crlf_eq, isPrefixOf_crlf (by decide)]
  split
  next first =>
    rw [List.isPrefixOf_iff_prefix] at first
    obtain ⟨more, heq⟩ := first
    have plain' : '\r' ∉ quotes ++ more := by
      rw [heq]
      simpa using plain
    rw [← heq, crlf_line_append (by decide)]
    have drop : ∀ more : List Char, (quotes ++ more).drop 3 = more := fun _ => rfl
    rw [drop, drop, cut_crlf (by decide) (by decide)]
    cases cut : Search.cut quotes more with
    | none => apply SameScan.unterminated
    | some parts =>
      obtain ⟨content, behind⟩ := parts
      apply SameScan.multilineString
      intro mem
      apply plain'
      rw [(cut_eq_some_iff.mp cut).1]
      simp [mem]
  next =>
    have drop : (crlf ('"' :: tail)).drop 1 = crlf tail := rfl
    rw [drop, scanBody_crlf]
    apply sameScan_string

theorem readEscapedQuoteString_crlf (tail : List Char) :
  SameScan (readEscapedQuoteString ('\\' :: '"' :: tail))
    (readEscapedQuoteString ('\\' :: '"' :: crlf tail))
  := by
  have drop : ∀ tail : List Char, ('\\' :: '"' :: tail).drop 2 = tail := fun _ => rfl
  rw [readEscapedQuoteString, readEscapedQuoteString, drop, drop, scanBody_crlf]
  apply sameScan_string

theorem length_crlf_lt {text : List Char} (behind : Behind rest text) :
  (crlf rest).length < (crlf text).length
  := by
  obtain ⟨⟨front, rfl⟩, lt⟩ := behind
  have le := length_le_crlf front
  rw [length_append] at lt
  rw [crlf_append, length_append]
  omega

/-! ### Holes -/

/-- How what two parts of a scan yield corresponds. -/
structure SameLexed (lexed lexed' : Lexed) : Prop where
  tokens : values lexed'.tokens = values lexed.tokens
  errors : unplaced lexed'.errors = unplaced lexed.errors
  rest : lexed'.rest = crlf lexed.rest

/-- How two tokens in a hole correspond. -/
inductive SameHoleToken : Option (Spanned × List LexError × List Char) →
    Option (Spanned × List LexError × List Char) → Prop
  | none : SameHoleToken none none
  | some {token token' : Spanned} {errors errors' : List LexError} (rest : List Char)
      (value : token'.1.value = token.1.value) (same : unplaced errors' = unplaced errors) :
      SameHoleToken (some (token, errors, rest)) (some (token', errors', crlf rest))

theorem SameScan.holeToken {scan scan' : StringScan} (same : SameScan scan scan')
    (size size' start start' body body' : ℕ) :
  SameHoleToken (scan.holeToken size start body) (scan'.holeToken size' start' body')
  := by
  cases same with
  | string content rest =>
    exact SameHoleToken.some rest rfl (unplaced_checkEscapes body body' content)
  | multilineString plain rest =>
    exact SameHoleToken.some rest (value_multilineString_crlf plain) rfl
  | lineBreak => exact SameHoleToken.none
  | unterminated => exact SameHoleToken.none

theorem lexHoleToken_crlf (size size' : ℕ) {first : Char} (ne : first ≠ '\n')
    (plain : '\r' ∉ tail) :
  SameHoleToken (lexHoleToken size (first :: tail)) (lexHoleToken size' (first :: crlf tail))
  := by
  have read : ∀ {span span' : Span} {token : Token × List Char} {token' : Token × List Char},
      token' = (token.1, crlf token.2) →
      SameHoleToken (some ((token.1, span), [], token.2)) (some ((token'.1, span'), [], token'.2)) := by
    rintro span span' token _ rfl
    exact SameHoleToken.some _ rfl rfl
  rw [lexHoleToken, lexHoleToken]
  dsimp only
  rw [isPrefixOf_crlf (by decide)]
  split
  next quoted =>
    by_cases escaped : first = '\\' ∧ ['"'].isPrefixOf tail = true
    · obtain ⟨rfl, quote⟩ := escaped
      rw [List.isPrefixOf_iff_prefix] at quote
      obtain ⟨more, rfl⟩ := quote
      exact (readEscapedQuoteString_crlf more).holeToken ..
    · rw [if_neg escaped, if_neg escaped]
      obtain rfl : first = '"' := quoted.resolve_right escaped
      exact (readString_crlf plain).holeToken ..
  split
  · apply read
    rw [← crlf_cons ne, readNumber_crlf]
  split
  · apply read
    rw [← crlf_cons ne, readIdentifier_crlf ne]
  split
  · apply read
    rw [← crlf_cons ne, readOperator_crlf ne]
  split
  · exact SameHoleToken.some _ rfl rfl
  · exact SameHoleToken.none

/-- How the scans of a hole correspond. -/
structure SameHole (scan scan' : HoleScan) : Prop where
  tokens : values scan'.tokens = values scan.tokens
  errors : unplaced scan'.errors = unplaced scan.errors
  close : scan'.close = scan.close.map crlf

theorem SameHole.behind {token token' : Spanned} {scan scan' : HoleScan}
    (value : token'.1.value = token.1.value) (same : unplaced errors' = unplaced errors)
    (more : SameHole scan scan') :
  SameHole (scan.behind token errors) (scan'.behind token' errors')
  := by
  constructor
  · simp only [HoleScan.behind, values, map_cons, value, List.cons.injEq, true_and]
    exact more.tokens
  · simp only [HoleScan.behind, unplaced, map_append] at same ⊢
    rw [same]
    exact congrArg _ more.errors
  · exact more.close

/-- A hole that ends where nothing is read. -/
theorem SameHole.ends (rest : List Char) :
  SameHole ⟨[], [], some rest⟩ ⟨[], [], some (crlf rest)⟩
  := ⟨rfl, rfl, rfl⟩

theorem holeTokens_crlf (size size' : ℕ) (plain : '\r' ∉ rest) (enough : rest.length < fuel)
    (enough' : (crlf rest).length < fuel') :
  SameHole (holeTokens size fuel rest) (holeTokens size' fuel' (crlf rest))
  := by
  induction fuel generalizing rest fuel' with
  | zero => omega
  | succ fuel ih =>
    obtain ⟨fuel', rfl⟩ : ∃ less, fuel' = less + 1 := ⟨fuel' - 1, by omega⟩
    have suffix : rest.dropWhile isWhitespace <:+ rest := dropWhile_suffix _
    have first_ := head?_dropWhile_not isWhitespace rest
    cases left : rest.dropWhile isWhitespace with
    | nil =>
      rw [holeTokens, holeTokens, dropWhile_crlf rfl, left]
      apply SameHole.ends
    | cons first tail =>
      rw [left] at suffix first_
      have ne : first ≠ '\n' := by
        rintro rfl
        simp [isWhitespace] at first_
      have left' : (crlf rest).dropWhile isWhitespace = first :: crlf tail := by
        rw [dropWhile_crlf rfl, left, crlf_cons ne]
      by_cases close : first = '}'
      · subst close
        rw [holeTokens, holeTokens, left, left']
        apply SameHole.ends
      rw [holeTokens_token left close, holeTokens_token left' close]
      have plain' : '\r' ∉ first :: tail := fun mem => plain (suffix.subset mem)
      rw [mem_cons, not_or] at plain'
      have same := lexHoleToken_crlf size size' ne plain'.2
      cases read : lexHoleToken size (first :: tail) with
      | none =>
        cases read' : lexHoleToken size' (first :: crlf tail) with
        | none =>
          dsimp only
          rw [isPrefixOf_crlf (by decide)]
          split
          · rw [← crlf_cons ne]
            apply SameHole.ends
          split
          · apply SameHole.ends
          · exact ⟨rfl, rfl, rfl⟩
        | some token' =>
          rw [read, read'] at same
          cases same
      | some token =>
        cases read' : lexHoleToken size' (first :: crlf tail) with
        | none =>
          rw [read, read'] at same
          cases same
        | some token' =>
          rw [read, read'] at same
          cases same with
          | some behind value errors =>
            have less := (lexHoleToken_behind read).of_behind suffix
            have less' := length_crlf_lt less
            apply SameHole.behind value errors
            apply ih (fun mem => plain (less.1.subset mem)) (by have := less.2; omega)
              (by omega)

theorem resynchronize_crlf (depth : ℕ) (rest : List Char) :
  resynchronize depth (crlf rest) = crlf (resynchronize depth rest)
  := by
  induction rest generalizing depth with
  | nil => rfl
  | cons c rest ih =>
    by_cases feed : c = '\n'
    · subst feed
      rfl
    · rw [crlf_cons feed, resynchronize, resynchronize, ih, ih, ih, ← crlf_cons feed]
      split
      · rfl
      split
      · split <;> rfl
      split <;> rfl

theorem values_append (front back : List Spanned) :
  values (front ++ back) = values front ++ values back
  := map_append

theorem unplaced_append (front back : List LexError) :
  unplaced (front ++ back) = unplaced front ++ unplaced back
  := map_append

theorem lexHole_crlf (size size' : ℕ) (plain : '\r' ∉ tail) :
  SameLexed (lexHole size ('{' :: tail)) (lexHole size' (crlf ('{' :: tail)))
  := by
  have drop : (crlf ('{' :: tail)).drop 1 = crlf tail := rfl
  have drop' : ('{' :: tail).drop 1 = tail := rfl
  have length : (crlf ('{' :: tail)).length = (crlf tail).length + 1 := rfl
  have same := holeTokens_crlf size size' plain (Nat.lt_succ_self _) (Nat.lt_succ_self _)
  rw [lexHole, lexHole, drop, drop', length, length_cons]
  dsimp only
  cases close : (holeTokens size (tail.length + 1) tail).close with
  | none =>
    rw [same.close, close]
    dsimp only [map_none]
    rw [resynchronize_crlf]
    refine ⟨rfl, ?_, rfl⟩
    rw [unplaced_append, unplaced_append, same.errors]
    rfl
  | some close =>
    rw [same.close, close]
    dsimp only [map_some]
    constructor
    · rw [values_append, values_append]
      exact congrArg (fun tokens => _ :: tokens ++ _) same.tokens
    · exact same.errors
    · obtain rfl | ⟨more, rfl⟩ | ⟨more, rfl⟩ := holeTokens_ends (Nat.lt_succ_self _) ‹_› <;> rfl

/-! ### Interpolated strings on one line -/

/-- The values of the tokens of a part. -/
def IStringPart.values : IStringPart → List (Except String Token)
  | .text body => [.ok (.string (unescapeString body))]
  | .hole inner => Lexing.values inner

theorem values_emitInterpolated (parts : List IStringPart) (whole : Span) :
  values (emitInterpolated parts whole) =
    [.ok (.ctrl '('), .ok (.string (unescapeString []))] ++
      (parts.map IStringPart.values).flatMap (fun part => .ok (.op ['+']) :: part) ++ [.ok (.ctrl ')')]
  := by
  have inner : values (parts.flatMap (fun part => (.op ['+'], whole) :: part.tokens whole)) =
      (parts.map IStringPart.values).flatMap (fun part => .ok (.op ['+']) :: part) := by
    rw [values, map_flatMap, flatMap_map]
    congr 1
    funext part
    cases part <;> rfl
  rw [emitInterpolated, values_append, values_append, inner]
  rfl

/-- How the scans of the body of an interpolated string correspond. -/
structure SameBody (scan scan' : IStringScan) : Prop where
  parts : scan'.parts.map IStringPart.values = scan.parts.map IStringPart.values
  errors : unplaced scan'.errors = unplaced scan.errors
  ending : scan'.ending = scan.ending
  rest : scan'.rest = crlf scan.rest

theorem SameBody.behind {part part' : IStringPart} {scan scan' : IStringScan}
    (value : part'.values = part.values) (same : unplaced errors' = unplaced errors)
    (more : SameBody scan scan') :
  SameBody (scan.behind part errors) (scan'.behind part' errors')
  := by
  constructor
  · simp only [IStringScan.behind, map_cons, value, more.parts]
  · simp only [IStringScan.behind, unplaced_append, same, more.errors]
  · exact more.ending
  · exact more.rest

/-- A body that ends where nothing is read. -/
theorem SameBody.ends (ending : IStringEnd) (rest : List Char) :
  SameBody ⟨[], [], ending, rest⟩ ⟨[], [], ending, crlf rest⟩
  := ⟨rfl, rfl, rfl, rfl⟩

theorem interpolatedBody_crlf (size size' : ℕ) (plain : '\r' ∉ rest) (enough : rest.length < fuel)
    (enough' : (crlf rest).length < fuel') :
  SameBody (interpolatedBody size fuel rest) (interpolatedBody size' fuel' (crlf rest))
  := by
  induction fuel generalizing rest fuel' with
  | zero => omega
  | succ fuel ih =>
    obtain ⟨fuel', rfl⟩ : ∃ less, fuel' = less + 1 := ⟨fuel' - 1, by omega⟩
    have more : ∀ {behind : List Char}, Behind behind rest →
        SameBody (interpolatedBody size fuel behind) (interpolatedBody size' fuel' (crlf behind)) := by
      intro behind less
      have less' := length_crlf_lt less
      have lt := less.2
      exact ih (fun mem => plain (less.1.subset mem)) (by omega) (by omega)
    cases rest with
    | nil => apply SameBody.ends
    | cons c tail =>
      by_cases feed : c = '\n'
      · subst feed
        exact SameBody.ends .lineBreak ('\n' :: tail)
      have plain' := plain
      rw [mem_cons, not_or] at plain'
      rw [crlf_cons feed, interpolatedBody.eq_def, interpolatedBody.eq_def size']
      dsimp only
      split
      · rw [← crlf_cons feed]
        apply SameBody.ends
      split
      · rw [← crlf_cons feed]
        apply SameBody.ends
      split
      next brace =>
        subst brace
        have hole := lexHole_crlf size size' plain'.2
        have less := lexHole_behind size tail
        rw [← crlf_cons feed, hole.rest]
        exact SameBody.behind hole.tokens hole.errors (more less)
      split
      next backslash =>
        subst backslash
        cases tail with
        | nil => apply SameBody.ends
        | cons escaped behind =>
          by_cases feed' : escaped = '\n'
          · subst feed'
            exact SameBody.ends .lineBreak ('\n' :: behind)
          rw [crlf_cons feed']
          dsimp only
          split
          · apply SameBody.behind rfl rfl
            apply more
            apply Behind.cons _ (suffix_cons _ _)
          split
          · rw [← crlf_cons feed']
            apply SameBody.ends
          have read : readEscape ('\\' :: escaped :: crlf behind) =
              readEscape ('\\' :: escaped :: behind) := by
            rw [← readEscape_crlf feed' behind, crlf_cons feed, crlf_cons feed']
          obtain ⟨front, back, heq, length, closed, some_⟩ := exists_escape_front feed' behind
          have heq' : '\\' :: escaped :: crlf behind = front ++ crlf back := by
            rw [← crlf_line_append closed, ← heq, crlf_cons feed, crlf_cons feed']
          have less : Behind back ('\\' :: escaped :: behind) := by
            have pos := length_pos_iff.mpr some_
            rw [heq]
            use suffix_append _ _
            rw [length_append]
            omega
          rw [read]
          cases found : readEscape ('\\' :: escaped :: behind) with
          | ok escape =>
            obtain ⟨character, escape_length⟩ := escape
            rw [found] at length
            obtain rfl : lenUtf8 front = escape_length := length
            dsimp only
            rw [heq, heq', takeBytes_append, takeBytes_append, dropBytes_append, dropBytes_append]
            exact SameBody.behind rfl rfl (more less)
          | error error =>
            rw [found] at length
            have length' : lenUtf8 front = max error.length 1 := length
            dsimp only
            rw [← length', heq, heq', takeBytes_append, takeBytes_append, dropBytes_append,
              dropBytes_append]
            exact SameBody.behind rfl rfl (more less)
      split
      · exact ⟨rfl, rfl, rfl, rfl⟩
      next ne₁ ne₂ ne₃ ne₄ ne₅ =>
        have inside : endsText c = false := by
          simp [endsText, ne₁, ne₂, ne₃, ne₄, ne₅]
        rw [← crlf_cons feed, takeWhile_crlf rfl rfl, dropWhile_crlf rfl]
        apply SameBody.behind rfl rfl
        apply more
        rw [dropWhile_cons_of_pos (by simp [inside])]
        apply Behind.cons _ (dropWhile_suffix _)

theorem lexInterpolated_crlf (size size' : ℕ) (plain : '\r' ∉ rest) :
  SameLexed (lexInterpolated size ('i' :: '"' :: rest))
    (lexInterpolated size' (crlf ('i' :: '"' :: rest)))
  := by
  have drop : (crlf ('i' :: '"' :: rest)).drop 2 = crlf rest := rfl
  have drop' : ('i' :: '"' :: rest).drop 2 = rest := rfl
  have length : (crlf ('i' :: '"' :: rest)).length = (crlf rest).length + 2 := rfl
  have length' : ('i' :: '"' :: rest).length = rest.length + 2 := rfl
  have same : SameBody (interpolatedBody size (rest.length + 2) rest)
      (interpolatedBody size' ((crlf rest).length + 2) (crlf rest)) :=
    interpolatedBody_crlf size size' plain (by omega) (by omega)
  have closed : (interpolatedBody size (rest.length + 2) rest).ending = .close →
      ∃ tail, (interpolatedBody size (rest.length + 2) rest).rest = '"' :: tail :=
    interpolatedBody_close
  rw [lexInterpolated, lexInterpolated, drop, drop', length, length']
  dsimp only
  rw [same.ending]
  cases ending : (interpolatedBody size (rest.length + 2) rest).ending with
  | close =>
    constructor
    · dsimp only
      rw [values_emitInterpolated, values_emitInterpolated, same.parts]
    · exact same.errors
    · obtain ⟨tail, heq⟩ := closed ending
      dsimp only
      rw [same.rest, heq]
      rfl
  | lineBreak =>
    constructor
    · dsimp only
      rw [values_emitInterpolated, values_emitInterpolated, same.parts]
    · dsimp only
      rw [unplaced_append, unplaced_append, same.errors]
      rfl
    · exact same.rest
  | unterminated =>
    constructor
    · rfl
    · dsimp only
      rw [unplaced_append, unplaced_append, same.errors]
      rfl
    · exact same.rest

/-! ### Triple-quoted interpolated strings -/

theorem multilineText_prefix (text : List Char) : multilineText text <+: text := by
  induction text with
  | nil => apply prefix_rfl
  | cons c text ih =>
    rw [multilineText]
    split
    · apply nil_prefix
    split
    · simp
    · rw [cons_prefix_cons]
      exact ⟨rfl, ih⟩

theorem multilineText_crlf (text : List Char) : multilineText (crlf text) = crlf (multilineText text) := by
  induction text with
  | nil => rfl
  | cons c text ih =>
    by_cases feed : c = '\n'
    · subst feed
      simp [multilineText]
    · rw [crlf_cons feed, multilineText, multilineText]
      split
      · rfl
      · rw [crlf_cons feed, ih]

theorem getLast?_crlf (text : List Char) :
  (crlf text).getLast? = some '\n' ↔ text.getLast? = some '\n'
  := by
  induction text using List.reverseRecOn with
  | nil => simp
  | append_singleton text c ih =>
    rw [crlf_append]
    by_cases feed : c = '\n'
    · subst feed
      simp [crlf]
    · rw [crlf_cons feed]
      simp

/-- How the parts of a content correspond. -/
structure SameParts (parts parts' : List IStringPart × List LexError) : Prop where
  values : parts'.1.map IStringPart.values = parts.1.map IStringPart.values
  errors : unplaced parts'.2 = unplaced parts.2

theorem SameParts.behind {front front' : List IStringPart}
    (values : front'.map IStringPart.values = front.map IStringPart.values)
    (same : unplaced errors' = unplaced errors) (more : SameParts parts parts') :
  SameParts (front ++ parts.1, errors ++ parts.2) (front' ++ parts'.1, errors' ++ parts'.2)
  := by
  constructor
  · rw [map_append, map_append, values, more.values]
  · rw [unplaced_append, unplaced_append, same, more.errors]

theorem SameParts.fragments {front front' : List IStringPart}
    (values : front'.map IStringPart.values = front.map IStringPart.values)
    (more : SameParts parts parts') :
  SameParts (front ++ parts.1, parts.2) (front' ++ parts'.1, parts'.2)
  := SameParts.behind values (rfl : unplaced [] = unplaced []) more

theorem SameParts.text {body body' : List Char} (value : unescapeString body' = unescapeString body)
    (more : SameParts parts parts') :
  SameParts (.text body :: parts.1, parts.2) (.text body' :: parts'.1, parts'.2)
  := by
  constructor
  · simp only [map_cons, IStringPart.values, value, more.values]
  · exact more.errors

section Content

variable {size size' : ℕ} {indentation stop : List Char}

theorem SameParts.ended (fuel fuel' : ℕ) (atLineStart atLineStart' : Bool) :
  SameParts (multilineParts size indentation stop fuel atLineStart stop)
    (multilineParts size' indentation (crlf stop) fuel' atLineStart' (crlf stop))
  := by
  rw [multilineParts_stop, multilineParts_stop]
  exact ⟨rfl, rfl⟩

/-- The parts of a content correspond, wherever in a text it begins and however far it may go. -/
def SameContent (size size' : ℕ) (indentation stop whole : List Char) (fuel : ℕ) : Prop :=
  ∀ (fuel' : ℕ) (atLineStart : Bool) (rest : List Char), rest <:+ whole →
    2 * rest.length + atLineStart.toNat ≤ fuel → 2 * (crlf rest).length + atLineStart.toNat ≤ fuel' →
    SameParts (multilineParts size indentation stop fuel atLineStart rest)
      (multilineParts size' indentation (crlf stop) fuel' atLineStart (crlf rest))

theorem multilineParts_feed (fuel : ℕ) (tail : List Char) :
  multilineParts size indentation stop (fuel + 1) false ('\n' :: tail ++ stop) =
    (.text ['\n'] :: (multilineParts size indentation stop fuel true (tail ++ stop)).1,
      (multilineParts size indentation stop fuel true (tail ++ stop)).2)
  := by
  have run : multilineText ('\n' :: [] ++ tail) = '\n' :: [] := by simp [multilineText]
  exact multilineParts_text fuel run

theorem takeWhile_line {line : List Char} (closed : '\n' ∉ line) : line.takeWhile (· ≠ '\n') = line := by
  rw [takeWhile_eq_self_iff]
  intro c mem
  simp only [ne_eq, decide_eq_true_eq]
  rintro rfl
  exact closed mem

theorem takeWhile_feed {line : List Char} (closed : '\n' ∉ line) (text : List Char) :
  (line ++ '\n' :: text).takeWhile (· ≠ '\n') = line
  := by
  rw [takeWhile_append_of_pos]
  · simp
  · intro c mem
    simp only [ne_eq, decide_eq_true_eq]
    rintro rfl
    exact closed mem

theorem exists_feed (text : List Char) :
  '\n' ∉ text ∨ ∃ front tail, text = front ++ '\n' :: tail ∧ '\n' ∉ front
  := by
  by_cases mem : '\n' ∈ text
  · obtain ⟨front, tail, heq, closed⟩ := eq_append_cons_of_mem mem
    exact Or.inr ⟨front, tail, heq, closed⟩
  · exact Or.inl mem

/-- The indentation of a line, or the end of a line that is shorter. -/
theorem sameParts_start (line : OneLine indentation) {text : List Char} {fuel fuel' : ℕ}
    (some_ : text ≠ []) (less : ∀ n < fuel, SameContent size size' indentation stop (text ++ stop) n)
    (enough : 2 * (text ++ stop).length + 1 ≤ fuel)
    (enough' : 2 * (crlf (text ++ stop)).length + 1 ≤ fuel') :
  SameParts (multilineParts size indentation stop fuel true (text ++ stop))
    (multilineParts size' indentation (crlf stop) fuel' true (crlf (text ++ stop)))
  := by
  have some_' : crlf text ≠ [] := fun empty => some_ (crlf_eq_nil_iff.mp empty)
  have pos := length_pos_iff.mpr some_
  have pos' := length_pos_iff.mpr some_'
  rw [crlf_append, length_append] at enough'
  rw [length_append] at enough
  obtain ⟨fuel, rfl⟩ : ∃ n, fuel = n + 2 := ⟨fuel - 2, by omega⟩
  obtain ⟨fuel', rfl⟩ : ∃ n, fuel' = n + 2 := ⟨fuel' - 2, by omega⟩
  rw [crlf_append, multilineParts_start _ some_, multilineParts_start _ some_',
    skipMultilineIndentation, skipMultilineIndentation, within_append, within_append,
    isPrefixOf_crlf line]
  split
  next first =>
    rw [List.isPrefixOf_iff_prefix] at first
    obtain ⟨text, rfl⟩ := first
    rw [crlf_line_append line.1, length_append] at enough'
    rw [length_append] at enough
    rw [crlf_line_append line.1, append_assoc, append_assoc, drop_left, drop_left, ← crlf_append]
    apply less _ (by omega) _ _ _ ⟨indentation, by rw [append_assoc]⟩
    · rw [length_append]
      simp only [Bool.toNat_false]
      omega
    · rw [crlf_append, length_append]
      simp only [Bool.toNat_false]
      omega
  next =>
    obtain closed | ⟨front, tail, rfl, closed⟩ := exists_feed text
    · have taken : text.takeWhile (· ≠ '\n') = text := takeWhile_line closed
      rw [crlf_line closed, taken, drop_left, drop_left]
      apply SameParts.ended
    · have taken : (front ++ '\n' :: tail).takeWhile (· ≠ '\n') = front := takeWhile_feed closed tail
      have taken' : (crlf (front ++ '\n' :: tail)).takeWhile (· ≠ '\n') = front ++ ['\r'] := by
        rw [crlf_line_append closed, crlf_feed, ← singleton_append, ← append_assoc]
        apply takeWhile_feed
        simp [closed]
      have crlf_eq : crlf (front ++ '\n' :: tail) = front ++ ['\r'] ++ '\n' :: crlf tail := by
        rw [crlf_line_append closed, crlf_feed, append_assoc]
        rfl
      rw [taken, taken', crlf_eq, append_assoc, drop_left, append_assoc _ _ (crlf stop), drop_left]
      rw [crlf_eq] at enough'
      simp only [length_append, length_cons, length_nil] at enough enough'
      obtain ⟨fuel, rfl⟩ : ∃ n, fuel = n + 1 := ⟨fuel - 1, by omega⟩
      obtain ⟨fuel', rfl⟩ : ∃ n, fuel' = n + 1 := ⟨fuel' - 1, by omega⟩
      rw [multilineParts_feed, multilineParts_feed]
      apply SameParts.text rfl
      rw [← crlf_append]
      apply less _ (by omega)
      · use front ++ ['\n']
        simp
      · rw [length_append]
        simp only [Bool.toNat_true]
        omega
      · rw [crlf_append, length_append]
        simp only [Bool.toNat_true]
        omega

theorem multilineParts_hole (fuel : ℕ) (text : List Char) :
  multilineParts size indentation stop (fuel + 1) false ('{' :: text ++ stop) =
    let hole := lexHole size ('{' :: (text ++ stop))
    let behind := multilineParts size indentation stop fuel false hole.rest
    (.hole hole.tokens :: behind.1, hole.errors ++ behind.2)
  := by
  rw [multilineParts, if_neg (by rw [length_append, length_cons]; omega),
    if_neg Bool.false_ne_true, if_pos (by simp)]
  rfl

theorem multilineParts_brace (fuel : ℕ) (text : List Char) :
  multilineParts size indentation stop (fuel + 1) false ('}' :: text ++ stop) =
    let behind := multilineParts size indentation stop fuel false (text ++ stop)
    (.text ['}'] :: behind.1,
      ⟨position size ('}' :: text ++ stop), '}', some (.statement unescapedBrace)⟩ :: behind.2)
  := by
  rw [multilineParts, if_neg (by rw [length_append, length_cons]; omega),
    if_neg Bool.false_ne_true, if_neg (by simp), if_pos (by simp)]
  rfl

/-- The middle of a line of the content. -/
theorem sameParts_middle {c : Char} {text : List Char} {fuel fuel' : ℕ}
    (plain : '\r' ∉ c :: text ++ stop)
    (less : ∀ n < fuel, SameContent size size' indentation stop (c :: text ++ stop) n)
    (enough : 2 * (c :: text ++ stop).length ≤ fuel)
    (enough' : 2 * (crlf (c :: text ++ stop)).length ≤ fuel') :
  SameParts (multilineParts size indentation stop fuel false (c :: text ++ stop))
    (multilineParts size' indentation (crlf stop) fuel' false (crlf (c :: text ++ stop)))
  := by
  have length := length_le_crlf (c :: text ++ stop)
  simp only [cons_append, length_cons] at enough enough' length
  obtain ⟨fuel, rfl⟩ : ∃ n, fuel = n + 1 := ⟨fuel - 1, by omega⟩
  obtain ⟨fuel', rfl⟩ : ∃ n, fuel' = n + 1 := ⟨fuel' - 1, by omega⟩
  -- what is left behind a lexeme of this line
  have more : ∀ {rest : List Char} (atLineStart : Bool), Behind rest (c :: text ++ stop) →
      SameParts (multilineParts size indentation stop fuel atLineStart rest)
        (multilineParts size' indentation (crlf stop) fuel' atLineStart (crlf rest)) := by
    intro rest atLineStart behind
    have lt := behind.2
    have lt' := length_crlf_lt behind
    have start_le := Bool.toNat_le atLineStart
    simp only [cons_append, length_cons] at lt lt'
    apply less _ (by omega) _ _ _ behind.1 (by omega) (by omega)
  have some_ : Behind (text ++ stop) (c :: text ++ stop) := Behind.cons c suffix_rfl
  rw [cons_append, mem_cons, not_or] at plain
  by_cases hole : c = '{'
  · subst hole
    have same := lexHole_crlf size size' plain.2
    have crlf_eq : crlf ('{' :: text ++ stop) = '{' :: crlf text ++ crlf stop := by
      rw [crlf_append, crlf_cons (by decide)]
    have crlf_eq' : crlf ('{' :: (text ++ stop)) = '{' :: (crlf text ++ crlf stop) := crlf_eq
    rw [crlf_eq, multilineParts_hole, multilineParts_hole, ← crlf_eq']
    dsimp only
    rw [same.rest]
    have value : [IStringPart.hole (lexHole size' (crlf ('{' :: (text ++ stop)))).tokens].map
        IStringPart.values =
          [IStringPart.hole (lexHole size ('{' :: (text ++ stop))).tokens].map IStringPart.values := by
      simp only [map_cons, map_nil, IStringPart.values, same.tokens]
    exact SameParts.behind value same.errors (more false (lexHole_behind size (text ++ stop)))
  by_cases brace : c = '}'
  · subst brace
    have crlf_eq : crlf ('}' :: text ++ stop) = '}' :: crlf text ++ crlf stop := by
      rw [crlf_append, crlf_cons (by decide)]
    rw [crlf_eq, multilineParts_brace, multilineParts_brace, ← crlf_append]
    have same := more false some_
    constructor
    · simp only [map_cons, IStringPart.values, same.values]
    · exact congrArg (_ :: ·) same.errors
  by_cases backslash : c = '\\'
  · subst backslash
    have crlf_eq : crlf ('\\' :: text ++ stop) = '\\' :: crlf text ++ crlf stop := by
      rw [crlf_append, crlf_cons (by decide)]
    rw [crlf_eq, multilineParts_escape, multilineParts_escape, ← crlf_append]
    have same : ∀ {fragments fragments' : List (List Char)} (taken taken' : ℕ) {ended : Bool},
        multilineEscape text = (fragments, taken, ended) →
        multilineEscape (crlf text) = (fragments', taken', ended) →
        fragments'.map unescapeString = fragments.map unescapeString →
        (crlf (text ++ stop)).drop taken' = crlf ((text ++ stop).drop taken) →
        SameParts
          (let escape := multilineEscape text
            let behind := multilineParts size indentation stop fuel escape.2.2
              ((text ++ stop).drop escape.2.1)
            (escape.1.map .text ++ behind.1, behind.2))
          (let escape := multilineEscape (crlf text)
            let behind := multilineParts size' indentation (crlf stop) fuel' escape.2.2
              ((crlf (text ++ stop)).drop escape.2.1)
            (escape.1.map .text ++ behind.1, behind.2)) := by
      intro fragments fragments' taken taken' ended found found' value rest
      rw [found, found']
      dsimp only
      rw [rest]
      have behind : Behind ((text ++ stop).drop taken) ('\\' :: text ++ stop) :=
        Behind.of_suffix (drop_suffix _ _) some_
      apply SameParts.fragments _ (more ended behind)
      simp only [List.map_map]
      have lifted : ∀ fragments : List (List Char),
          fragments.map (IStringPart.values ∘ IStringPart.text) =
            (fragments.map unescapeString).map fun value => [.ok (.string value)] := by
        intro fragments
        rw [List.map_map]
        rfl
      rw [lifted, lifted, value]
    cases text with
    | nil => exact same 0 0 rfl rfl rfl rfl
    | cons d text =>
      by_cases feed : d = '\n'
      · subst feed
        exact same 1 2 rfl rfl rfl rfl
      · have single : d ≠ '\r' := by
          rintro rfl
          exact plain.2 (by simp)
        rw [crlf_cons feed] at same ⊢
        by_cases braces : d = '{' ∨ d = '}'
        · apply same 1 1
          · rw [multilineEscape, if_pos braces]
          · rw [multilineEscape, if_pos braces]
          · rfl
          · rw [cons_append, crlf_cons feed]
            rfl
        · apply same 1 1
          · rw [multilineEscape, if_neg braces, if_neg (by simp [single])]
            rfl
          · rw [multilineEscape, if_neg braces, if_neg (by simp [single])]
            rfl
          · rfl
          · rw [cons_append, crlf_cons feed]
            rfl
  · obtain ⟨front, first⟩ : ∃ front, multilineText (c :: text) = c :: front := by
      rw [multilineText, if_neg (by simp [hole, brace, backslash])]
      split
      · exact ⟨[], rfl⟩
      · exact ⟨multilineText text, rfl⟩
    obtain ⟨back, heq⟩ := multilineText_prefix (c :: text)
    rw [first] at heq
    obtain ⟨c', front', first'⟩ : ∃ c' front', crlf (c :: front) = c' :: front' :=
      exists_cons_of_ne_nil fun empty => cons_ne_nil c front (crlf_eq_nil_iff.mp empty)
    have run : multilineText (c :: front ++ back) = c :: front := by rw [heq, first]
    have run' : multilineText (c' :: front' ++ crlf back) = c' :: front' := by
      rw [← first', ← crlf_append, heq, multilineText_crlf, first]
    have crlf_eq : crlf (c :: text ++ stop) = c' :: front' ++ crlf back ++ crlf stop := by
      rw [← heq, crlf_append, crlf_append, first']
    have behind : Behind (back ++ stop) (c :: text ++ stop) := by
      rw [← heq, append_assoc]
      apply Behind.cons
      apply suffix_append
    have plain' : '\r' ∉ c :: front := by
      intro mem
      have mem' : '\r' ∈ c :: text := by
        rw [← heq]
        exact mem_append_left _ mem
      rw [mem_cons] at mem'
      obtain same | inside := mem'
      · exact plain.1 same
      · exact plain.2 (mem_append_left _ inside)
    rw [crlf_eq, ← heq, multilineParts_text fuel run, multilineParts_text fuel' run', ← crlf_append,
      ← first']
    simp only [getLast?_crlf]
    exact SameParts.text (unescapeString_crlf plain') (more _ behind)

/-- The parts of a content say the same, whatever the ends of its lines. -/
theorem multilineParts_crlf (line : OneLine indentation) {whole : List Char} (plain : '\r' ∉ whole)
    (stop_suffix : stop <:+ whole) (fuel : ℕ) :
  SameContent size size' indentation stop whole fuel
  := by
  induction fuel using Nat.strongRecOn with
  | ind fuel ih =>
    intro fuel' atLineStart rest suffix enough enough'
    by_cases le : rest.length ≤ stop.length
    · obtain ⟨front, heq⟩ := suffix_of_suffix_length_le suffix stop_suffix le
      have ended : ∀ {size fuel indentation} {stop rest : List Char}, rest.length ≤ stop.length →
          multilineParts size indentation stop fuel atLineStart rest = ([], []) := by
        intro size fuel indentation stop rest le
        cases fuel with
        | zero => rfl
        | succ fuel => rw [multilineParts, if_pos le]
      have le' : (crlf rest).length ≤ (crlf stop).length := by
        rw [← heq, crlf_append, length_append]
        omega
      rw [ended le, ended le']
      exact ⟨rfl, rfl⟩
    · obtain ⟨text, rfl⟩ := suffix_of_suffix_length_le stop_suffix suffix (Nat.le_of_not_le le)
      have less : ∀ n < fuel, SameContent size size' indentation stop (text ++ stop) n := by
        intro n lt fuel' start rest suffix' enough enough'
        exact ih n lt fuel' start rest (suffix'.trans suffix) enough enough'
      cases text with
      | nil => exact absurd (Nat.le_refl _) le
      | cons c text =>
        cases atLineStart with
        | true => exact sameParts_start line (cons_ne_nil c text) less enough enough'
        | false => exact sameParts_middle (fun mem => plain (suffix.subset mem)) less enough enough'

end Content

theorem oneLine_of_isIndentation {indentation : List Char}
    (indented : isIndentation indentation = true) :
  OneLine indentation
  := by
  have white := List.all_eq_true.mp indented
  constructor
  · intro mem
    simpa using white _ mem
  · intro mem
    simpa using white _ mem

theorem lexInterpolatedMultiline_crlf (size size' : ℕ) {inside : List Char} (plain : '\r' ∉ inside) :
  SameLexed (lexInterpolatedMultiline size ('i' :: (quotes ++ inside)))
    (lexInterpolatedMultiline size' (crlf ('i' :: (quotes ++ inside))))
  := by
  have drop : (crlf ('i' :: (quotes ++ inside))).drop 4 = crlf inside := rfl
  have drop' : ('i' :: (quotes ++ inside)).drop 4 = inside := rfl
  rw [lexInterpolatedMultiline, lexInterpolatedMultiline, drop, drop',
    cut_crlf (by decide) (by decide)]
  cases cut : Search.cut quotes inside with
  | none => exact ⟨rfl, rfl, rfl⟩
  | some parts =>
    obtain ⟨raw, behind⟩ := parts
    obtain ⟨heq, -⟩ := cut_eq_some_iff.mp cut
    have plain_raw : '\r' ∉ raw := by
      intro mem
      apply plain
      rw [heq]
      exact mem_append_left _ mem
    have same := multilineLayout_crlf plain_raw
    rw [map_some]
    dsimp only
    cases layout : multilineLayout raw with
    | error error =>
      cases layout' : multilineLayout (crlf raw) with
      | error error' =>
        refine ⟨?_, rfl, rfl⟩
        simp only [values, map_cons, map_nil, value_multilineString_crlf plain_raw]
      | ok shape' =>
        rw [layout, layout'] at same
        cases same
    | ok shape =>
      obtain ⟨indented, raw_eq⟩ := multilineLayout_eq_ok layout
      cases layout' : multilineLayout (crlf raw) with
      | error error' =>
        rw [layout, layout'] at same
        cases same
      | ok shape' =>
        rw [layout, layout'] at same
        have parts : ∀ {parts parts' : List IStringPart × List LexError} (whole whole' : Span),
            SameParts parts parts' →
            SameLexed ⟨emitInterpolated parts.1 whole, parts.2, behind⟩
              ⟨emitInterpolated parts'.1 whole', parts'.2, crlf behind⟩ := by
          intro parts parts' whole whole' same
          refine ⟨?_, same.errors, rfl⟩
          rw [values_emitInterpolated, values_emitInterpolated, same.values]
        apply parts
        cases same with
        | bare opener indentation =>
          have bare : stripCarriageReturn [] = [] := rfl
          dsimp only
          rw [bare, length_nil, drop_zero, drop_zero, multilineParts_stop, multilineParts_stop]
          exact ⟨rfl, rfl⟩
        | lines before content indentation =>
          have whole : inside.drop before.length =
              content ++ ('\n' :: indentation ++ (quotes ++ behind)) := by
            rw [heq, raw_eq, append_assoc, append_assoc, drop_left]
          have whole' : (crlf inside).drop (crlf before).length =
              crlf (content ++ ('\n' :: indentation ++ (quotes ++ behind))) := by
            rw [heq, raw_eq, append_assoc, append_assoc, crlf_append, drop_left]
          have plain_whole : '\r' ∉ content ++ ('\n' :: indentation ++ (quotes ++ behind)) := by
            rw [← whole]
            exact fun mem => plain (mem_of_mem_drop mem)
          have plain_content : '\r' ∉ content := fun mem =>
            plain_whole (mem_append_left _ mem)
          dsimp only
          rw [whole, whole', stripCarriageReturn_plain plain_content, stripCarriageReturn_carriage,
            crlf_append, drop_left, drop_left, ← crlf_append]
          apply multilineParts_crlf (oneLine_of_isIndentation indented) plain_whole
            (suffix_append _ _) _ _ _ _ suffix_rfl
          · simp only [Bool.toNat_true]
            omega
          · simp only [Bool.toNat_true]
            omega

/-! ### Lexemes -/

theorem lexString_crlf (size size' : ℕ) (plain : '\r' ∉ tail) :
  SameLexed (lexString size ('"' :: tail)) (lexString size' ('"' :: crlf tail))
  := by
  have same := readString_crlf plain
  rw [lexString, lexString]
  cases read : readString ('"' :: tail) with
  | complete token rest =>
    rw [read] at same
    cases read' : readString ('"' :: crlf tail) with
    | complete token' rest' =>
      rw [read'] at same
      cases same with
      | string body rest => exact ⟨rfl, unplaced_checkEscapes _ _ body, rfl⟩
      | multilineString plain_raw rest =>
        refine ⟨?_, rfl, rfl⟩
        simp only [values, map_cons, map_nil, value_multilineString_crlf plain_raw]
    | lineBreak content' rest' =>
      rw [read'] at same
      cases same
    | unterminated =>
      rw [read'] at same
      cases same
  | lineBreak content rest =>
    rw [read] at same
    generalize readString ('"' :: crlf tail) = scan' at same
    cases same
    refine ⟨rfl, ?_, rfl⟩
    exact congrArg (_ :: ·) (unplaced_checkEscapes _ _ content)
  | unterminated =>
    rw [read] at same
    generalize readString ('"' :: crlf tail) = scan' at same
    cases same
    exact ⟨rfl, rfl, rfl⟩

theorem SameLexed.read (size size' : ℕ) (rest rest' : List Char) {read read' : Token × List Char}
    (same : read' = (read.1, crlf read.2)) :
  SameLexed (Lexed.read size rest read) (Lexed.read size' rest' read')
  := by
  rw [same]
  exact ⟨rfl, rfl, rfl⟩

theorem lexOne_crlf (size size' : ℕ) {first : Char} (ne : first ≠ '\n') (plain : '\r' ∉ tail) :
  SameLexed (lexOne size (first :: tail)) (lexOne size' (crlf (first :: tail)))
  := by
  have letter : OneLine ['i', '"'] := by decide
  have three : OneLine quotes := by decide
  have interpolated := isPrefixOf_crlf letter (first :: tail)
  have triple := isPrefixOf_crlf three tail
  have drop : ∀ tail : List Char, (first :: tail).drop 1 = tail := fun _ => rfl
  rw [crlf_cons ne] at interpolated ⊢
  rw [lexOne, lexOne]
  rw [interpolated, drop, drop, triple]
  split
  next i_quote =>
    obtain ⟨more, heq⟩ := List.isPrefixOf_iff_prefix.mp i_quote
    obtain ⟨rfl, rfl⟩ := List.cons.inj heq
    split
    next quoted =>
      obtain ⟨inside, heq⟩ := List.isPrefixOf_iff_prefix.mp quoted
      rw [← heq] at plain ⊢
      exact lexInterpolatedMultiline_crlf size size' fun mem => plain (mem_append_right _ mem)
    next => exact lexInterpolated_crlf size size' fun mem => plain (mem_cons_of_mem _ mem)
  split
  next quote =>
    subst quote
    exact lexString_crlf size size' plain
  split
  · apply SameLexed.read
    rw [← crlf_cons ne, readNumber_crlf]
  split
  · exact SameLexed.read _ _ _ _ rfl
  split
  · apply SameLexed.read
    rw [← crlf_cons ne, readIdentifier_crlf ne]
  split
  · apply SameLexed.read
    rw [← crlf_cons ne, readOperator_crlf ne]
  split
  · exact SameLexed.read _ _ _ _ rfl
  · exact ⟨rfl, rfl, rfl⟩

/-- How the streams of two scans correspond. -/
structure SameStream (stream stream' : Stream) : Prop where
  tokens : values stream'.tokens = values stream.tokens
  errors : unplaced stream'.errors = unplaced stream.errors

theorem run_crlf (size size' : ℕ) (plain : '\r' ∉ rest) (enough : rest.length < fuel)
    (enough' : (crlf rest).length < fuel') :
  SameStream (run size fuel rest) (run size' fuel' (crlf rest))
  := by
  induction fuel generalizing rest fuel' with
  | zero => omega
  | succ fuel ih =>
    obtain ⟨fuel', rfl⟩ : ∃ n, fuel' = n + 1 := ⟨fuel' - 1, by omega⟩
    have suffix := skipTrivia_suffix (rest.length + 1) rest
    rw [run, run, skipTrivia_crlf (Nat.lt_succ_self _) (Nat.lt_succ_self _)]
    cases left : skipTrivia (rest.length + 1) rest with
    | nil => exact ⟨rfl, rfl⟩
    | cons first tail =>
      rw [left] at suffix
      have white := isWhitespace_skipTrivia (Nat.lt_succ_self _) left
      have ne : first ≠ '\n' := by
        rintro rfl
        simp [isWhitespace] at white
      have plain_left : '\r' ∉ first :: tail := fun mem => plain (suffix.subset mem)
      have same := lexOne_crlf size size' ne fun mem => plain_left (mem_cons_of_mem _ mem)
      have behind := (lexOne_behind size first tail).of_behind suffix
      have lt := behind.2
      have lt' := length_crlf_lt behind
      rw [crlf_cons ne] at same ⊢
      dsimp only
      rw [same.rest]
      have more := @ih _ fuel' (fun mem => plain (behind.1.subset mem)) (by omega) (by omega)
      constructor
      · rw [values_append, values_append, same.tokens, more.tokens]
      · rw [unplaced_append, unplaced_append, same.errors, more.errors]

/-- Line ends never change a program. -/
theorem tokenize_crlf {source : List Char} (plain : '\r' ∉ source) :
  values (tokenize (crlf source)).tokens = values (tokenize source).tokens ∧
    unplaced (tokenize (crlf source)).errors = unplaced (tokenize source).errors
  := by
  have same := run_crlf (lenUtf8 source) (lenUtf8 (crlf source)) plain (Nat.lt_succ_self _)
    (Nat.lt_succ_self _)
  exact ⟨same.tokens, same.errors⟩

/-- A triple-quoted text with a short line and a backslash before a line's end, and a string that is
not closed. -/
theorem tokenize_crlf_triple :
  let source := ['i', '"', '"', '"', '\n', ' ', 'a', '\\', '\n', '\n', ' ', '"', '"', '"', '\n', '"', 'b', '\n']
  values (tokenize (crlf source)).tokens = values (tokenize source).tokens ∧
    unplaced (tokenize (crlf source)).errors = unplaced (tokenize source).errors
  := tokenize_crlf (by decide)

end Vilan.Core.Lexing
