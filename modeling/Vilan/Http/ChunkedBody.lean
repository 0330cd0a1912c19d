import Vilan.Http.Chunked
import Mathlib.Data.List.TakeWhile

/-!
# Chunked bodies

A chunked body is a sequence of chunks, each a size line, its data and a line end, then a size line
of zero and the trailer lines up to an empty one.  A line ends in a line feed, with or without a
carriage return before it.  The decoder ends where such a body ends, and has given its data.
-/

namespace Vilan.Http

open List

/-! ### Size lines -/

/-- A size line: digits with whitespace around them, and whatever follows a semicolon. -/
def SizeLine (line : Bytes) (size : ℕ) : Prop :=
  ∃ before digits after extensions,
    fromUtf8 line = some (before ++ digits ++ after ++ extensions) ∧
      (∀ c ∈ before, isWhitespace c = true) ∧ (∀ c ∈ after, isWhitespace c = true) ∧
        digits ≠ [] ∧ (∀ c ∈ digits, isHexDigit c = true) ∧
          (extensions = [] ∨ extensions.head? = some ';') ∧
            size = number 16 digits ∧ size < usizeBound

theorem trimEnd_append (p : Char → Bool) (text : List Char) :
  ∃ after, text = trimEnd p text ++ after ∧ ∀ c ∈ after, p c = true
  := by
  use (text.reverse.takeWhile p).reverse
  constructor
  · rw [trimEnd, ← reverse_append, takeWhile_append_dropWhile, reverse_reverse]
  · intro c mem
    apply mem_takeWhile_imp (mem_reverse.mp mem)

theorem trim_append (text : List Char) :
  ∃ before after, text = before ++ trim text ++ after ∧ (∀ c ∈ before, isWhitespace c = true) ∧
    ∀ c ∈ after, isWhitespace c = true
  := by
  obtain ⟨after, heq, white⟩ := trimEnd_append isWhitespace (text.dropWhile isWhitespace)
  use text.takeWhile isWhitespace, after
  constructor
  · rw [trim, append_assoc, ← heq, takeWhile_append_dropWhile]
  · use fun c mem => mem_takeWhile_imp mem, white

variable {line : Bytes}

theorem chunkSize_spec {size : ℕ} (h : chunkSize line = some size) :
  SizeLine line size
  := by
  obtain ⟨text, decoded, h⟩ := Option.bind_eq_some_iff.mp h
  obtain ⟨before, after, heq, white, white'⟩ := trim_append (text.takeWhile (· ≠ ';'))
  dsimp only at h
  split at h
  next => cases h
  next digits =>
    simp only [Bool.or_eq_true, List.isEmpty_iff, Bool.not_eq_true', not_or, Bool.not_eq_false,
      List.all_eq_true] at digits
    split at h
    next lt =>
      cases h
      use before, trim (text.takeWhile (· ≠ ';')), after, text.dropWhile (· ≠ ';')
      rw [← heq, takeWhile_append_dropWhile]
      use decoded, white, white', digits.1, digits.2
      constructor
      · cases rest : text.dropWhile (· ≠ ';') with
        | nil => apply Or.inl rfl
        | cons c others =>
          right
          have first := head?_dropWhile_not (· ≠ ';') text
          rw [rest] at first
          simpa using first
      · use rfl, lt
    next => cases h

/-! ### The turns that go on -/

theorem idxOf?_some {bytes : Bytes} {b : UInt8} {e : ℕ} (h : bytes.idxOf? b = some e) :
  b ∉ bytes.take e ∧ bytes = bytes.take e ++ b :: bytes.drop (e + 1)
  := by
  obtain ⟨lt, heq, before⟩ := idxOf?_eq_some_iff.mp h
  constructor
  · intro mem
    obtain ⟨j, hj, hb⟩ := mem_take_iff_getElem.mp mem
    apply before j (by omega)
    simpa using hb
  · rw [← heq, getElem_cons_drop, take_append_drop]

theorem idxOf?_line {b : UInt8} (h : b ∉ line) (rest : Bytes) :
  (line ++ b :: rest).idxOf? b = some line.length
  := by
  induction line with
  | nil => simp [idxOf?_cons]
  | cons c line ih =>
    simp only [mem_cons, not_or] at h
    have ne : (c == b) = false := by simpa using Ne.symm h.1
    rw [cons_append, idxOf?_cons, ne, ih h.2]
    rfl

/-- The turns that do not stop: what they take, and where they lead. -/
inductive Turned (limit : ℕ) : Feeding → Feeding → Prop
  | lastSize {trailerBytes : ℕ} {line rest output : Bytes} (ends : lineFeed ∉ line)
      (zero : chunkSize (stripReturn line) = some 0) :
      Turned limit ⟨⟨.size, trailerBytes⟩, line ++ lineFeed :: rest, output⟩
        ⟨⟨.trailers, trailerBytes⟩, rest, output⟩
  | size {trailerBytes size : ℕ} {line rest output : Bytes} (ends : lineFeed ∉ line)
      (spelled : chunkSize (stripReturn line) = some size) (positive : 0 < size)
      (fits : output.length + size ≤ limit) :
      Turned limit ⟨⟨.size, trailerBytes⟩, line ++ lineFeed :: rest, output⟩
        ⟨⟨.data size, trailerBytes⟩, rest, output⟩
  | dataEnd {trailerBytes : ℕ} {line rest output : Bytes} (ends : lineFeed ∉ line)
      (empty : stripReturn line = []) :
      Turned limit ⟨⟨.dataEnd, trailerBytes⟩, line ++ lineFeed :: rest, output⟩
        ⟨⟨.size, trailerBytes⟩, rest, output⟩
  | trailer {trailerBytes : ℕ} {line rest output : Bytes} (ends : lineFeed ∉ line)
      (spelled : stripReturn line ≠ [])
      (fits : trailerBytes + (line.length + 1) ≤ maxHead) :
      Turned limit ⟨⟨.trailers, trailerBytes⟩, line ++ lineFeed :: rest, output⟩
        ⟨⟨.trailers, trailerBytes + (line.length + 1)⟩, rest, output⟩
  | lastTrailer {trailerBytes : ℕ} {line rest output : Bytes} (ends : lineFeed ∉ line)
      (empty : stripReturn line = [])
      (fits : trailerBytes + (line.length + 1) ≤ maxHead) :
      Turned limit ⟨⟨.trailers, trailerBytes⟩, line ++ lineFeed :: rest, output⟩
        ⟨⟨.done, trailerBytes + (line.length + 1)⟩, rest, output⟩
  | data {trailerBytes : ℕ} {chunk rest output : Bytes} (some : chunk ++ rest ≠ []) :
      Turned limit ⟨⟨.data chunk.length, trailerBytes⟩, chunk ++ rest, output⟩
        ⟨⟨.dataEnd, trailerBytes⟩, rest, output ++ chunk⟩
  | part {trailerBytes remaining : ℕ} {chunk output : Bytes} (some : chunk ≠ [])
      (lt : chunk.length < remaining) :
      Turned limit ⟨⟨.data remaining, trailerBytes⟩, chunk, output⟩
        ⟨⟨.data (remaining - chunk.length), trailerBytes⟩, [], output ++ chunk⟩

namespace Feeding

theorem Turned.of_takeLine
    {stage : ChunkStage} {trailerBytes limit : ℕ} {line rest output : Bytes} {next : Feeding}
    (lines : ReadsLines ⟨⟨stage, trailerBytes⟩, line ++ lineFeed :: rest, output⟩)
    (ends : lineFeed ∉ line)
    (h : takeLine ⟨⟨stage, trailerBytes⟩, line ++ lineFeed :: rest, output⟩ limit line rest =
      .next next) :
  Turned limit ⟨⟨stage, trailerBytes⟩, line ++ lineFeed :: rest, output⟩ next
  := by
  obtain rfl | rfl | rfl : stage = .size ∨ stage = .dataEnd ∨ stage = .trailers := lines
  · simp only [takeLine] at h
    split at h
    next => cases h
    next zero =>
      cases h
      apply Turned.lastSize ends zero
    next size positive spelled =>
      split at h
      next fits =>
        cases h
        apply Turned.size ends spelled (Nat.pos_of_ne_zero positive) fits
      next => cases h
  · simp only [takeLine] at h
    split at h
    next => cases h
    next empty =>
      cases h
      apply Turned.dataEnd ends (not_not.mp empty)
  · simp only [takeLine] at h
    split at h
    next => cases h
    next fits =>
      split at h
      next empty =>
        cases h
        apply Turned.lastTrailer ends empty (Nat.le_of_not_lt fits)
      next spelled =>
        cases h
        apply Turned.trailer ends spelled (Nat.le_of_not_lt fits)

/-- A turn that does not stop is one of these. -/
theorem turned {limit : ℕ} {feeding next : Feeding} (h : feeding.turn limit = .next next) :
  Turned limit feeding next
  := by
  obtain stage | ⟨remaining, stage⟩ | lines := feeding.stage_cases
  · rw [turn_done stage] at h
    cases h
  · rw [turn_data stage, takeData] at h
    split at h
    next => cases h
    next some =>
      rw [List.isEmpty_iff] at some
      obtain ⟨⟨_, trailerBytes⟩, input, output⟩ := feeding
      dsimp only at stage some h
      subst stage
      obtain lt | le := Nat.lt_or_ge input.length remaining
      · have ne : input.length ≠ remaining := Nat.ne_of_lt lt
        simp only [Nat.min_eq_right (Nat.le_of_lt lt), ne, if_false, drop_length, take_length] at h
        cases h
        apply Turned.part some lt
      · have whole : (input.take remaining).length = remaining := by
          rw [length_take, Nat.min_eq_left le]
        have data : Turned limit
            ⟨⟨.data (input.take remaining).length, trailerBytes⟩,
              input.take remaining ++ input.drop remaining, output⟩ _ :=
          .data (by rw [take_append_drop]; apply some)
        rw [whole, take_append_drop] at data
        simp only [Nat.min_eq_left le, if_true] at h
        cases h
        apply data
  · cases closed : feeding.input.idxOf? lineFeed with
    | none =>
      rw [turn_wait lines limit closed] at h
      split at h
      all_goals cases h
    | some e =>
      rw [turn_line lines limit closed] at h
      obtain ⟨ends, heq⟩ := idxOf?_some closed
      obtain ⟨⟨stage, trailerBytes⟩, input, output⟩ := feeding
      dsimp only at heq h ends lines
      generalize input.take e = line at heq h ends
      generalize input.drop (e + 1) = rest at heq h
      subst heq
      apply Turned.of_takeLine lines ends h

end Feeding

/-! ### Bodies -/

/-- The end of a line. -/
def LineEnd (bytes : Bytes) : Prop :=
  bytes = [lineFeed] ∨ bytes = [carriageReturn, lineFeed]

theorem lineEnd_of_empty (h : stripReturn line = []) :
  LineEnd (line ++ [lineFeed])
  := by
  rw [stripReturn] at h
  split at h
  next last =>
    obtain ⟨b, rfl⟩ : ∃ b, line = [b] := by
      match line, h with
      | [], _ => cases last
      | [b], _ => use b
    cases last
    apply Or.inr rfl
  next =>
    subst h
    apply Or.inl rfl

/-- Lines up to an empty one. -/
inductive Trailers : Bytes → Prop
  | nil {ending : Bytes} : LineEnd ending → Trailers ending
  | cons {line rest : Bytes} : lineFeed ∉ line → Trailers rest →
      Trailers (line ++ lineFeed :: rest)

/-- Bytes are a chunked body with such data. -/
inductive ChunkedBody : Bytes → Bytes → Prop
  | last {line trailers : Bytes} (ends : lineFeed ∉ line) (zero : SizeLine (stripReturn line) 0) :
      Trailers trailers → ChunkedBody (line ++ lineFeed :: trailers) []
  | chunk {line chunk ending rest data : Bytes} (ends : lineFeed ∉ line)
      (size : SizeLine (stripReturn line) chunk.length) (positive : chunk ≠ [])
      (ended : LineEnd ending) :
      ChunkedBody rest data →
        ChunkedBody (line ++ lineFeed :: (chunk ++ (ending ++ rest))) (chunk ++ data)

/-- What is left of a body in a stage. -/
def ChunkStage.Left : ChunkStage → Bytes → Bytes → Prop
  | .size, bytes, given => ChunkedBody bytes given
  | .data remaining, bytes, given => ∃ chunk ending rest others,
      bytes = chunk ++ (ending ++ rest) ∧ given = chunk ++ others ∧ chunk.length = remaining ∧
        LineEnd ending ∧ ChunkedBody rest others
  | .dataEnd, bytes, given => ∃ ending rest, bytes = ending ++ rest ∧ LineEnd ending ∧
      ChunkedBody rest given
  | .trailers, bytes, given => Trailers bytes ∧ given = []
  | .done, bytes, given => bytes = [] ∧ given = []

/-- A turn takes a part of what is left of a body. -/
theorem Turned.left
    {limit : ℕ} {feeding next : Feeding} (h : Turned limit feeding next) {bytes rest data : Bytes}
    (input : next.input = bytes ++ rest) (left : next.decoder.stage.Left bytes data) :
  ∃ taken given, feeding.input = taken ++ rest ∧ next.output = feeding.output ++ given ∧
    feeding.decoder.stage.Left taken (given ++ data)
  := by
  cases h with
  | @lastSize trailerBytes line mid output ends zero =>
    obtain rfl : mid = bytes ++ rest := input
    obtain ⟨trailers, rfl⟩ : Trailers bytes ∧ data = [] := left
    use line ++ lineFeed :: bytes, []
    constructor
    · simp only [append_assoc, cons_append]
    · use by rw [append_nil], .last ends (chunkSize_spec zero) trailers
  | @size trailerBytes size line mid output ends spelled positive fits =>
    obtain rfl : mid = bytes ++ rest := input
    obtain ⟨chunk, ending, others, out, rfl, rfl, rfl, ended, body⟩ := left
    use line ++ lineFeed :: (chunk ++ (ending ++ others)), []
    constructor
    · simp only [append_assoc, cons_append]
    · use by rw [append_nil]
      apply ChunkedBody.chunk ends (chunkSize_spec spelled) _ ended body
      apply length_pos_iff.mp positive
  | @dataEnd trailerBytes line mid output ends empty =>
    obtain rfl : mid = bytes ++ rest := input
    use line ++ lineFeed :: bytes, []
    constructor
    · simp only [append_assoc, cons_append]
    · use by rw [append_nil], line ++ [lineFeed], bytes
      constructor
      · rw [append_assoc, singleton_append]
      · use lineEnd_of_empty empty, left
  | @trailer trailerBytes line mid output ends spelled fits =>
    obtain rfl : mid = bytes ++ rest := input
    obtain ⟨trailers, rfl⟩ : Trailers bytes ∧ data = [] := left
    use line ++ lineFeed :: bytes, []
    constructor
    · simp only [append_assoc, cons_append]
    · exact ⟨by rw [append_nil], .cons ends trailers, rfl⟩
  | @lastTrailer trailerBytes line mid output ends empty fits =>
    obtain rfl : mid = bytes ++ rest := input
    obtain ⟨rfl, rfl⟩ : bytes = [] ∧ data = [] := left
    use line ++ [lineFeed], []
    constructor
    · rw [nil_append, append_assoc, singleton_append]
    · exact ⟨by rw [append_nil], .nil (lineEnd_of_empty empty), rfl⟩
  | @data trailerBytes chunk mid output some =>
    obtain rfl : mid = bytes ++ rest := input
    obtain ⟨ending, others, rfl, ended, body⟩ := left
    use chunk ++ (ending ++ others), chunk
    constructor
    · simp only [append_assoc]
    · use rfl, chunk, ending, others, data
  | @part trailerBytes remaining chunk output some lt =>
    obtain ⟨chunk', ending, others, out, rfl, rfl, length, ended, body⟩ := left
    have input : [] = chunk' ++ (ending ++ others) ++ rest := input
    use chunk ++ (chunk' ++ (ending ++ others)), chunk
    constructor
    · rw [append_assoc, ← input, append_nil]
    · use rfl, chunk ++ chunk', ending, others, out
      constructor
      · rw [append_assoc]
      · constructor
        · rw [append_assoc]
        · use by rw [length_append]; omega, ended, body

namespace Feeding

variable {feeding : Feeding} {limit : ℕ}

/-- A line that stops a feed refuses the body. -/
theorem takeLine_stop {last : Feeding} {line rest : Bytes} {outcome : Decoded}
    (h : feeding.takeLine limit line rest = .stop outcome last) :
  outcome = .malformed ∨ outcome = .overLimit
  := by
  unfold takeLine at h
  dsimp only at h
  split at h
  all_goals
    repeat' split at h
    all_goals
      cases h
      try simp

/-- A feed that is done has taken what was left of a body, and given its data. -/
theorem feed_done {last : Feeding} (h : feeding.feed limit = (.done, last)) :
  ∃ bytes data, feeding.input = bytes ++ last.input ∧ last.output = feeding.output ++ data ∧
    feeding.decoder.stage.Left bytes data
  := by
  induction left : feeding.turnsLeft using Nat.strongRecOn generalizing feeding with
  | ind n ih =>
    cases turn : feeding.turn limit with
    | next next =>
      rw [feed_next turn] at h
      subst left
      obtain ⟨bytes, data, input, output, body⟩ := ih _ (turn_turnsLeft turn) h rfl
      obtain ⟨taken, given, input', output', body'⟩ := (turned turn).left input body
      use taken, given ++ data, input'
      rw [output, output', append_assoc]
      use rfl, body'
    | stop outcome last' =>
      rw [feed_stop turn] at h
      cases h
      obtain stage | ⟨remaining, stage⟩ | lines := feeding.stage_cases
      · rw [turn_done stage] at turn
        cases turn
        rw [stage]
        use [], [], rfl, by rw [append_nil], rfl
      · rw [turn_data stage, takeData] at turn
        split at turn
        all_goals cases turn
      · cases closed : feeding.input.idxOf? lineFeed with
        | none =>
          rw [turn_wait lines limit closed] at turn
          split at turn
          all_goals cases turn
        | some e =>
          rw [turn_line lines limit closed] at turn
          obtain refused | refused := takeLine_stop turn
          all_goals cases refused

/-! ### The limit -/

/-- What has been given and what is left of a chunk are within the limit. -/
def Within (limit : ℕ) (feeding : Feeding) : Prop :=
  match feeding.decoder.stage with
  | .data remaining => 0 < remaining ∧ feeding.output.length + remaining ≤ limit
  | _ => feeding.output.length ≤ limit

theorem Within.output (h : feeding.Within limit) :
  feeding.output.length ≤ limit
  := by
  rw [Within] at h
  split at h
  next => omega
  next => apply h

end Feeding

theorem Turned.within
    {limit : ℕ} {feeding next : Feeding} (h : Turned limit feeding next)
    (within : feeding.Within limit) :
  next.Within limit
  := by
  cases h with
  | size ends spelled positive fits => use positive, fits
  | data some =>
    obtain ⟨_, le⟩ := within
    simpa only [Feeding.Within, length_append] using le
  | part some lt =>
    obtain ⟨_, le⟩ := within
    simp only [Feeding.Within, length_append] at le ⊢
    omega
  | _ => apply within

namespace Feeding

variable {feeding : Feeding} {limit : ℕ}

theorem turn_stop_within {last : Feeding} {outcome : Decoded}
    (h : feeding.turn limit = .stop outcome last) (within : feeding.Within limit) :
  last.Within limit
  := by
  have same : last.decoder.stage = feeding.decoder.stage ∧ last.output = feeding.output := by
    unfold turn takeData takeLine at h
    dsimp only at h
    repeat' split at h
    all_goals
      cases h
      try exact ⟨rfl, rfl⟩
  rw [Within, same.1, same.2]
  apply within

theorem turn_stop_input {last : Feeding} {outcome : Decoded}
    (h : feeding.turn limit = .stop outcome last) :
  last.input.length ≤ feeding.input.length
  := by
  unfold turn takeData at h
  dsimp only at h
  repeat' split at h
  all_goals
    first
      | cases h; done
      | cases h; apply le_refl
      | rw [takeLine_stop_input h, length_drop]; omega

/-- A feed does not give more than the limit. -/
theorem feed_within (within : feeding.Within limit) :
  (feeding.feed limit).2.Within limit
  := by
  induction left : feeding.turnsLeft using Nat.strongRecOn generalizing feeding with
  | ind n ih =>
    cases turn : feeding.turn limit with
    | next next =>
      rw [feed_next turn]
      subst left
      apply ih _ (turn_turnsLeft turn) ((turned turn).within within) rfl
    | stop outcome last =>
      rw [feed_stop turn]
      apply turn_stop_within turn within

end Feeding

end Vilan.Http
