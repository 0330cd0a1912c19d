import Vilan.Core.Lexing

/-!
# What the readers leave

Every reader leaves an end of what it was given, and a reader of a lexeme leaves less.
-/

namespace Vilan.Core.Lexing

open List Option

/-- An end of a text that is not the whole of it. -/
def Behind (rest text : List Char) : Prop :=
  rest <:+ text ∧ rest.length < text.length

variable {rest text : List Char} {fuel size : ℕ}

theorem Behind.of_suffix {middle : List Char} (suffix : rest <:+ middle)
    (behind : Behind middle text) :
  Behind rest text
  := ⟨suffix.trans behind.1, Nat.lt_of_le_of_lt suffix.length_le behind.2⟩

theorem Behind.of_behind {middle : List Char} (behind : Behind rest middle)
    (suffix : middle <:+ text) :
  Behind rest text
  := ⟨behind.1.trans suffix, Nat.lt_of_lt_of_le behind.2 suffix.length_le⟩

/-- What is left of a text without its first character. -/
theorem Behind.cons (c : Char) (suffix : rest <:+ text) :
  Behind rest (c :: text)
  := ⟨suffix.trans (suffix_cons c text), Nat.lt_succ_of_le suffix.length_le⟩

theorem Behind.drop {n : ℕ} (pos : 0 < n) (some_ : text ≠ []) :
  Behind (text.drop n) text
  := by
  use drop_suffix n text
  have length := length_pos_iff.mpr some_
  rw [length_drop]
  omega

theorem dropBytes_suffix (length : ℕ) (text : List Char) : dropBytes length text <:+ text := by
  induction text generalizing length with
  | nil => cases length <;> simp [dropBytes]
  | cons c text ih =>
    cases length with
    | zero => apply suffix_rfl
    | succ length =>
      rw [dropBytes]
      apply (ih _).trans (suffix_cons c text)

theorem takeBytes_append (front back : List Char) :
  takeBytes (lenUtf8 front) (front ++ back) = front
  := by
  induction front with
  | nil => cases back <;> rfl
  | cons c front ih =>
    have length : lenUtf8 (c :: front) = lenUtf8 front + (c.utf8Size - 1) + 1 := by
      have pos := c.utf8Size_pos
      rw [lenUtf8, map_cons, sum_cons, lenUtf8]
      omega
    have less : lenUtf8 front + (c.utf8Size - 1) + 1 - c.utf8Size = lenUtf8 front := by
      have pos := c.utf8Size_pos
      omega
    rw [length, cons_append, takeBytes, less, ih]

theorem dropBytes_append (front back : List Char) :
  dropBytes (lenUtf8 front) (front ++ back) = back
  := by
  induction front with
  | nil => cases back <;> rfl
  | cons c front ih =>
    have length : lenUtf8 (c :: front) = lenUtf8 front + (c.utf8Size - 1) + 1 := by
      have pos := c.utf8Size_pos
      rw [lenUtf8, map_cons, sum_cons, lenUtf8]
      omega
    have less : lenUtf8 front + (c.utf8Size - 1) + 1 - c.utf8Size = lenUtf8 front := by
      have pos := c.utf8Size_pos
      omega
    rw [length, cons_append, dropBytes, less, ih]

/-! ### Readers -/

theorem skipTrivia_suffix (fuel : ℕ) (rest : List Char) : skipTrivia fuel rest <:+ rest := by
  induction fuel generalizing rest with
  | zero => apply suffix_rfl
  | succ fuel ih =>
    rw [skipTrivia]
    split
    · apply (ih _).trans
      apply (dropWhile_suffix _).trans
      apply (drop_suffix _ _).trans
      apply dropWhile_suffix
    · apply dropWhile_suffix

/-- Trivia is skipped to its end. -/
theorem isWhitespace_skipTrivia {first : Char} {tail : List Char} (enough : rest.length < fuel)
    (left : skipTrivia fuel rest = first :: tail) :
  Http.isWhitespace first = false
  := by
  induction fuel generalizing rest with
  | zero => omega
  | succ fuel ih =>
    rw [skipTrivia] at left
    split at left
    next comment =>
      apply ih _ left
      have le := (dropWhile_suffix (· ≠ '\n') (l := (rest.dropWhile Http.isWhitespace).drop 2)).length_le
      have some_ := (List.isPrefixOf_iff_prefix.mp comment).length_le
      have le' := (dropWhile_suffix Http.isWhitespace (l := rest)).length_le
      simp only [length_cons, length_nil, length_drop] at le some_
      omega
    next =>
      have head := head?_dropWhile_not Http.isWhitespace rest
      rw [left] at head
      simpa using head

theorem readOptionalSuffix_suffix (rest : List Char) : (readOptionalSuffix rest).2 <:+ rest := by
  cases rest with
  | nil => apply suffix_rfl
  | cons c tail =>
    rw [readOptionalSuffix]
    split
    · apply (dropWhile_suffix _).trans
      apply suffix_cons
    · apply suffix_rfl

theorem readFraction_suffix (rest : List Char) : (readFraction rest).2 <:+ rest := by
  rw [readFraction]
  split
  · apply (dropWhile_suffix _).trans
    apply drop_suffix
  · apply suffix_rfl

theorem readWhole_behind {c : Char} (digit : c.isDigit = true) :
  Behind (readWhole (c :: rest)).2 (c :: rest)
  := by
  rw [readWhole]
  split
  · apply Behind.cons
    apply suffix_rfl
  · rw [dropWhile_cons_of_pos digit]
    apply Behind.cons
    apply dropWhile_suffix

theorem readNumber_behind {c : Char} (digit : c.isDigit = true) :
  Behind (readNumber (c :: rest)).2 (c :: rest)
  := by
  rw [readNumber]
  split
  · apply Behind.cons
    apply (readOptionalSuffix_suffix _).trans
    apply (dropWhile_suffix _).trans
    apply drop_suffix 1
  · apply Behind.of_suffix _ (readWhole_behind digit)
    apply (readOptionalSuffix_suffix _).trans
    apply readFraction_suffix

theorem readIdentifier_behind (c : Char) (rest : List Char) :
  Behind (readIdentifier (c :: rest)).2 (c :: rest)
  := by
  apply Behind.cons
  apply dropWhile_suffix

theorem readOperator_behind (c : Char) (rest : List Char) (allowArrow : Bool) :
  Behind (readOperator (c :: rest) allowArrow).2 (c :: rest)
  := by
  rw [readOperator]
  split
  · apply Behind.drop (by decide) (cons_ne_nil c rest)
  · apply Behind.drop (by decide) (cons_ne_nil c rest)

/-- What the scan of a body leaves, where it leaves something. -/
def BodyScan.Leaves (text : List Char) : BodyScan → Prop
  | .complete _ rest => Behind rest text
  | .lineBreak _ rest => rest <:+ text
  | .unterminated => True

theorem BodyScan.Leaves.behind {front whole : List Char} {scan : BodyScan}
    (leaves : scan.Leaves text) (suffix : text <:+ whole) :
  (scan.behind front).Leaves whole
  := by
  cases scan with
  | complete content rest => exact Behind.of_behind leaves suffix
  | lineBreak content rest => exact List.IsSuffix.trans leaves suffix
  | unterminated => trivial

theorem scanBody_leaves (escaped : Bool) (text : List Char) :
  (scanBody escaped text).Leaves text
  := by
  fun_induction scanBody escaped text with
  | case1 => trivial
  | case2 => trivial
  | case3 c rest =>
    apply Behind.cons
    apply suffix_cons
  | case4 => apply suffix_cons
  | case5 c rest _ _ ih => 
    apply ih.behind
    apply (suffix_cons c rest).trans
    apply suffix_cons
  | case6 c rest =>
    apply Behind.cons
    apply suffix_rfl
  | case7 => apply suffix_rfl
  | case8 c rest _ _ _ _ ih => 
    apply ih.behind
    apply suffix_cons

/-- What the scan of a string leaves, where it leaves something. -/
def StringScan.Leaves (text : List Char) : StringScan → Prop
  | .complete _ rest => Behind rest text
  | .lineBreak _ rest => Behind rest text
  | .unterminated => True

theorem BodyScan.Leaves.string {whole : List Char} {scan : BodyScan} (leaves : scan.Leaves text)
    (behind : Behind text whole) :
  scan.string.Leaves whole
  := by
  cases scan with
  | complete content rest => exact Behind.of_suffix leaves.1 behind
  | lineBreak content rest => exact Behind.of_suffix leaves behind
  | unterminated => trivial

theorem readString_leaves (c : Char) (rest : List Char) :
  (readString (c :: rest)).Leaves (c :: rest)
  := by
  rw [readString]
  split
  · cases cut : Search.cut quotes ((c :: rest).drop 3) with
    | none => trivial
    | some parts =>
      obtain ⟨content, behind⟩ := parts
      obtain ⟨heq, -⟩ := Search.cut_eq_some_iff.mp cut
      have suffix : behind <:+ (c :: rest).drop 3 := by
        use content ++ quotes
        rw [heq, append_assoc]
      exact Behind.of_suffix suffix (Behind.drop (by decide) (cons_ne_nil c rest))
  · exact (scanBody_leaves false _).string (Behind.cons c suffix_rfl)

theorem readEscapedQuoteString_leaves (c : Char) (rest : List Char) :
  (readEscapedQuoteString (c :: rest)).Leaves (c :: rest)
  := (scanBody_leaves true _).string (Behind.drop (by decide) (cons_ne_nil c rest))

/-! ### Holes -/

theorem StringScan.Leaves.holeToken {scan : StringScan} (leaves : scan.Leaves text) {start body : ℕ}
    {behind : List Char} {token : Spanned} {errors : List LexError}
    (read : scan.holeToken size start body = some (token, errors, behind)) :
  Behind behind text
  := by
  cases scan with
  | complete _ rest =>
    obtain ⟨-, -, rfl⟩ := by simpa [StringScan.holeToken] using read
    exact leaves
  | lineBreak => simp [StringScan.holeToken] at read
  | unterminated => simp [StringScan.holeToken] at read

theorem lexHoleToken_behind {behind : List Char} {token : Spanned} {errors : List LexError}
    (read : lexHoleToken size rest = some (token, errors, behind)) :
  Behind behind rest
  := by
  cases rest with
  | nil => simp [lexHoleToken] at read
  | cons first tail =>
    rw [lexHoleToken] at read
    dsimp only at read
    split at read
    next =>
      split at read
      · exact (readEscapedQuoteString_leaves first tail).holeToken read
      · exact (readString_leaves first tail).holeToken read
    next =>
      split at read
      next digit =>
        obtain ⟨-, -, rfl⟩ := by simpa using read
        apply readNumber_behind digit
      next =>
        split at read
        next =>
          obtain ⟨-, -, rfl⟩ := by simpa using read
          apply readIdentifier_behind
        next =>
          split at read
          next =>
            obtain ⟨-, -, rfl⟩ := by simpa using read
            apply readOperator_behind
          next =>
            split at read
            next =>
              obtain ⟨-, -, rfl⟩ := by simpa using read
              apply Behind.cons
              apply suffix_rfl
            next => simp at read

theorem holeTokens_suffix {close : List Char}
    (closed : (holeTokens size fuel rest).close = some close) :
  close <:+ rest
  := by
  induction fuel generalizing rest with
  | zero =>
    rw [holeTokens, some_inj] at closed
    rw [closed]
  | succ fuel ih =>
    apply List.IsSuffix.trans _ (dropWhile_suffix Http.isWhitespace)
    rw [holeTokens] at closed
    split at closed
    next => 
      rw [some_inj] at closed
      rw [← closed]
      apply nil_suffix
    next heq =>
      rw [some_inj] at closed
      rw [heq, closed]
    next first tail heq =>
      rw [heq]
      split at closed
      next read => exact (ih closed).trans (lexHoleToken_behind read).1
      next =>
        split at closed
        next =>
          rw [some_inj] at closed
          rw [closed]
        next =>
          split at closed
          next =>
            rw [some_inj] at closed
            rw [← closed]
            apply suffix_cons
          next => simp at closed

theorem holeTokens_token {size fuel : ℕ} {rest : List Char} {first : Char} {tail : List Char}
    (left : rest.dropWhile Http.isWhitespace = first :: tail) (ne : first ≠ '}') :
  holeTokens size (fuel + 1) rest =
    match lexHoleToken size (first :: tail) with
    | some (token, errors, behind) => (holeTokens size fuel behind).behind token errors
    | none =>
        if first = '"' then ⟨[], [], some (first :: tail)⟩
        else if first = '\\' ∧ ['"'].isPrefixOf tail then ⟨[], [], some tail⟩
        else ⟨[], [], none⟩
  := by
  rw [holeTokens, left]
  split
  next heq => simp at heq
  next heq =>
    rw [List.cons.injEq] at heq
    exact absurd heq.1 ne
  next heq =>
    obtain ⟨rfl, rfl⟩ := List.cons.inj heq
    rfl

/-- A hole ends at its brace, at the quote of a string that does not close, or with the source. -/
theorem holeTokens_ends {close : List Char} (enough : rest.length < fuel)
    (closed : (holeTokens size fuel rest).close = some close) :
  close = [] ∨ (∃ tail, close = '}' :: tail) ∨ ∃ tail, close = '"' :: tail
  := by
  induction fuel generalizing rest with
  | zero => omega
  | succ fuel ih =>
    have suffix : rest.dropWhile Http.isWhitespace <:+ rest := dropWhile_suffix _
    cases left : rest.dropWhile Http.isWhitespace with
    | nil =>
      rw [holeTokens, left, some_inj] at closed
      exact Or.inl closed.symm
    | cons first tail =>
      rw [left] at suffix
      by_cases brace : first = '}'
      · subst brace
        rw [holeTokens, left] at closed
        exact Or.inr (Or.inl ⟨tail, (Option.some.inj closed).symm⟩)
      rw [holeTokens_token left brace] at closed
      split at closed
      next read =>
        have less := ((lexHoleToken_behind read).of_behind suffix).2
        exact ih (by omega) closed
      next =>
        split at closed
        next quote =>
          subst quote
          exact Or.inr (Or.inr ⟨tail, (Option.some.inj closed).symm⟩)
        next =>
          split at closed
          next quote =>
            obtain ⟨more, heq⟩ := List.isPrefixOf_iff_prefix.mp quote.2
            rw [some_inj] at closed
            exact Or.inr (Or.inr ⟨more, by rw [← closed, ← heq]; rfl⟩)
          next => simp at closed

theorem resynchronize_suffix (depth : ℕ) (rest : List Char) : resynchronize depth rest <:+ rest := by
  induction rest generalizing depth with
  | nil => apply suffix_rfl
  | cons c rest ih =>
    rw [resynchronize]
    split
    · apply (ih _).trans (suffix_cons c rest)
    split
    · split
      · apply suffix_cons
      · apply (ih _).trans (suffix_cons c rest)
    split
    · apply suffix_rfl
    · apply (ih _).trans (suffix_cons c rest)

theorem lexHole_behind (size : ℕ) (rest : List Char) :
  Behind (lexHole size ('{' :: rest)).rest ('{' :: rest)
  := by
  rw [lexHole]
  cases closed : (holeTokens size ('{' :: rest).length (('{' :: rest).drop 1)).close with
  | none =>
    have first : resynchronize 0 ('{' :: rest) = resynchronize 1 rest := rfl
    dsimp only
    rw [first]
    apply Behind.cons
    apply resynchronize_suffix
  | some close =>
    apply Behind.cons
    apply (drop_suffix 1 close).trans
    apply holeTokens_suffix closed

/-! ### Interpolated strings -/

theorem interpolatedBody_suffix (size fuel : ℕ) (text : List Char) :
  (interpolatedBody size fuel text).rest <:+ text
  := by
  induction fuel generalizing text with
  | zero => apply suffix_rfl
  | succ fuel ih =>
    cases text with
    | nil => apply suffix_rfl
    | cons c tail =>
      rw [interpolatedBody.eq_def]
      dsimp only
      split
      · apply suffix_rfl
      split
      · apply suffix_rfl
      split
      next brace =>
        subst brace
        exact (ih _).trans (lexHole_behind size tail).1
      split
      next =>
        cases tail with
        | nil => apply suffix_rfl
        | cons escaped behind =>
          dsimp only
          split
          · apply (ih _).trans
            apply (suffix_cons escaped behind).trans
            apply suffix_cons
          split
          · apply suffix_cons
          split
          · exact (ih _).trans (dropBytes_suffix _ _)
          · exact (ih _).trans (dropBytes_suffix _ _)
      split
      · apply suffix_cons
      · exact (ih _).trans (dropWhile_suffix _)

/-- A body that is closed ends at its quote. -/
theorem interpolatedBody_close (close : (interpolatedBody size fuel text).ending = .close) :
  ∃ tail, (interpolatedBody size fuel text).rest = '"' :: tail
  := by
  induction fuel generalizing text with
  | zero => cases close
  | succ fuel ih =>
    cases text with
    | nil => cases close
    | cons c tail =>
      rw [interpolatedBody.eq_def] at close ⊢
      dsimp only at close ⊢
      split at close
      next quote =>
        rw [if_pos quote, quote]
        exact ⟨tail, rfl⟩
      next quote =>
        rw [if_neg quote]
        split at close
        · cases close
        next same =>
          rw [if_neg same]
          split at close
          next brace =>
            rw [if_pos brace]
            exact ih close
          next brace =>
            rw [if_neg brace]
            split at close
            next backslash =>
              rw [if_pos backslash]
              cases tail with
              | nil => cases close
              | cons escaped behind =>
                dsimp only at close ⊢
                split at close
                next braces =>
                  rw [if_pos braces]
                  exact ih close
                next braces =>
                  rw [if_neg braces]
                  split at close
                  · cases close
                  next broken =>
                    rw [if_neg broken]
                    split at close
                    next read => exact ih close
                    next read => exact ih close
            next backslash =>
              rw [if_neg backslash]
              split at close
              · cases close
              next closing =>
                rw [if_neg closing]
                exact ih close

theorem lexInterpolated_behind (size : ℕ) (c d : Char) (rest : List Char) :
  Behind (lexInterpolated size (c :: d :: rest)).rest (c :: d :: rest)
  := by
  have suffix := interpolatedBody_suffix size (c :: d :: rest).length rest
  rw [lexInterpolated]
  dsimp only [drop_succ_cons, drop_zero]
  split
  · apply Behind.cons
    apply ((drop_suffix _ _).trans suffix).trans (suffix_cons d rest)
  · apply Behind.cons
    apply suffix.trans (suffix_cons d rest)
  · apply Behind.cons
    apply suffix.trans (suffix_cons d rest)

theorem lexInterpolatedMultiline_behind (size : ℕ) (c : Char) (rest : List Char) :
  Behind (lexInterpolatedMultiline size (c :: rest)).rest (c :: rest)
  := by
  rw [lexInterpolatedMultiline]
  dsimp only
  cases cut : Search.cut quotes ((c :: rest).drop 4) with
  | none =>
    use nil_suffix
    apply Nat.succ_pos
  | some parts =>
    obtain ⟨raw, behind⟩ := parts
    have suffix : behind <:+ (c :: rest).drop 4 := by
      use raw ++ quotes
      rw [(Search.cut_eq_some_iff.mp cut).1, append_assoc]
    have less : Behind behind (c :: rest) :=
      Behind.of_suffix suffix (Behind.drop (by decide) (cons_ne_nil c rest))
    dsimp only
    split
    · exact less
    · exact less

/-! ### Lexemes -/

theorem lexString_behind (size : ℕ) (c : Char) (rest : List Char) :
  Behind (lexString size (c :: rest)).rest (c :: rest)
  := by
  have leaves := readString_leaves c rest
  rw [lexString]
  split
  next complete =>
    rw [complete] at leaves
    exact leaves
  next broken =>
    rw [broken] at leaves
    exact leaves
  next =>
    apply Behind.cons
    apply suffix_rfl

/-- A lexeme is never empty. -/
theorem lexOne_behind (size : ℕ) (c : Char) (rest : List Char) :
  Behind (lexOne size (c :: rest)).rest (c :: rest)
  := by
  rw [lexOne]
  split
  next interpolated =>
    split
    · apply lexInterpolatedMultiline_behind
    · rw [List.isPrefixOf_iff_prefix] at interpolated
      obtain ⟨tail, heq⟩ := interpolated
      rw [← heq]
      apply lexInterpolated_behind
  split
  · apply lexString_behind
  split
  next digit => apply readNumber_behind digit
  split
  · apply Behind.cons
    apply suffix_rfl
  split
  · apply readIdentifier_behind
  split
  · apply readOperator_behind
  split
  · apply Behind.cons
    apply suffix_rfl
  · apply Behind.cons
    apply suffix_rfl

end Vilan.Core.Lexing
