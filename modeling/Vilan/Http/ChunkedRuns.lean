import Vilan.Http.ChunkedBody

/-!
# The chunked decoder over pieces

Feeding the pieces of a byte string one after the other comes to the same as feeding it at once,
when no line that the decoder reads is longer than the longest line whose end has not arrived.
A longer line is let through when it arrives with its end, and refused when it does not.
-/

namespace Vilan.Http

open List Relation.ReflTransGen

namespace Feeding

/-! ### Bytes behind the inbox -/

/-- Append bytes to the inbox. -/
abbrev push (feeding : Feeding) (bytes : Bytes) : Feeding :=
  { feeding with input := feeding.input ++ bytes }

@[simp]
theorem push_input (feeding : Feeding) (bytes : Bytes) :
  (feeding.push bytes).input = feeding.input ++ bytes
  := rfl

@[simp]
theorem push_nil (feeding : Feeding) : feeding.push [] = feeding := by
  rw [push, append_nil]

theorem push_push (feeding : Feeding) (bytes more : Bytes) :
  (feeding.push bytes).push more = feeding.push (bytes ++ more)
  := by
  simp only [push, append_assoc]

/-- Put bytes before what has been given. -/
abbrev prepend (bytes : Bytes) (feeding : Feeding) : Feeding :=
  { feeding with output := bytes ++ feeding.output }

end Feeding

/-- What a turn does, with bytes behind the inbox. -/
def Turn.push (bytes : Bytes) : Turn → Turn
  | .stop outcome feeding => .stop outcome (feeding.push bytes)
  | .next feeding => .next (feeding.push bytes)

/-- What a turn does, with bytes before what has been given. -/
def Turn.prepend (bytes : Bytes) : Turn → Turn
  | .stop outcome feeding => .stop outcome (feeding.prepend bytes)
  | .next feeding => .next (feeding.prepend bytes)

namespace Feeding

/-! ### Turns with bytes behind -/

theorem idxOf?_append (bytes more : Bytes) (b : UInt8) :
  (bytes ++ more).idxOf? b = (bytes.idxOf? b).or ((more.idxOf? b).map (· + bytes.length))
  := by
  simp only [List.idxOf?, findIdx?_append]

theorem takeLine_push (feeding : Feeding) (limit : ℕ) (line rest bytes : Bytes) :
  (feeding.push bytes).takeLine limit line (rest ++ bytes) =
    (feeding.takeLine limit line rest).push bytes
  := by
  unfold takeLine
  dsimp only [push]
  split
  · split
    · rfl
    · rfl
    · split
      · rfl
      · rfl
  · split
    · rfl
    · rfl
  · split
    · rfl
    · split
      · rfl
      · rfl

variable {feeding last : Feeding} {limit : ℕ} {bytes : Bytes}

/-- A line that is there is taken whatever follows it. -/
theorem turn_push_line (h : feeding.ReadsLines) (limit : ℕ) {e : ℕ}
    (closed : feeding.input.idxOf? lineFeed = some e) (bytes : Bytes) :
  (feeding.push bytes).turn limit = (feeding.turn limit).push bytes
  := by
  have lt := idxOf_lt closed
  have closed' : (feeding.push bytes).input.idxOf? lineFeed = some e := by
    rw [push_input, idxOf?_append, closed, Option.some_or]
  have h' : (feeding.push bytes).ReadsLines := h
  rw [turn_line h limit closed, turn_line h' limit closed', push_input,
    take_append_of_le_length (by omega), drop_append_of_le_length (by omega), takeLine_push]

/-- Data that is all there is taken whatever follows it. -/
theorem takeData_push {remaining : ℕ} (le : remaining ≤ feeding.input.length)
    (nonempty : feeding.input ≠ []) (bytes : Bytes) :
  (feeding.push bytes).takeData remaining = (feeding.takeData remaining).push bytes
  := by
  have empty : feeding.input.isEmpty = false := by
    rw [isEmpty_eq_false_iff]
    apply nonempty
  have empty' : (feeding.push bytes).input.isEmpty = false := by
    rw [isEmpty_eq_false_iff, push_input]
    apply append_ne_nil_of_left_ne_nil nonempty
  have whole : min remaining (feeding.input ++ bytes).length = remaining := by
    rw [length_append]
    omega
  rw [takeData, takeData, empty, empty', push_input]
  simp only [Bool.false_eq_true, if_false, whole, Nat.min_eq_left le, if_true, Turn.push, push]
  rw [take_append_of_le_length le, drop_append_of_le_length le]

theorem feed_congr {other : Feeding} (h : feeding.turn limit = other.turn limit) :
  feeding.feed limit = other.feed limit
  := by
  cases heq : other.turn limit with
  | stop outcome last => rw [feed_stop heq, feed_stop (h.trans heq)]
  | next next => rw [feed_next heq, feed_next (h.trans heq)]

/-- The decoder when all there is has been taken, and the data goes on. -/
def cut (feeding : Feeding) (remaining : ℕ) : Feeding :=
  ⟨⟨.data (remaining - feeding.input.length), feeding.decoder.trailerBytes⟩, [],
    feeding.output ++ feeding.input⟩

section Cut

variable {feeding : Feeding} {remaining : ℕ} (stage : feeding.decoder.stage = .data remaining)
  (lt : feeding.input.length < remaining) (nonempty : feeding.input ≠ []) (limit : ℕ)

include stage lt nonempty

/-- Data that is not all there is taken. -/
theorem turn_cut : feeding.turn limit = .next (feeding.cut remaining) := by
  rw [turn_data stage, takeData, if_neg (by rw [List.isEmpty_iff]; apply nonempty)]
  have ne : feeding.input.length ≠ remaining := Nat.ne_of_lt lt
  simp only [ne, if_false, Nat.min_eq_right (Nat.le_of_lt lt), drop_length, take_length, cut]

/-- The rest of the data is taken from what follows. -/
theorem turn_push_cut {bytes : Bytes} (more : bytes ≠ []) :
  (feeding.push bytes).turn limit = ((feeding.cut remaining).push bytes).turn limit
  := by
  have taken : min remaining (feeding.input ++ bytes).length =
      feeding.input.length + min (remaining - feeding.input.length) bytes.length := by
    rw [length_append]
    omega
  have same : ∀ k, feeding.input.length + k = remaining ↔
      k = remaining - feeding.input.length := by
    intro k
    omega
  have stage' : (feeding.push bytes).decoder.stage = .data remaining := stage
  rw [turn_data stage', turn_data rfl, takeData, takeData, if_neg (by simp [nonempty]),
    if_neg (by simp [more])]
  dsimp only [push, cut]
  rw [taken, take_length_add_append, drop_length_add_append, append_assoc, Nat.sub_add_eq]
  simp only [same, nil_append]

end Cut

/-- A turn is taken with bytes behind as it is without them, unless it takes a part of the data. -/
theorem turn_push_next {next : Feeding} (h : feeding.turn limit = .next next) (bytes : Bytes) :
  (feeding.push bytes).turn limit = .next (next.push bytes) ∨
    ∃ remaining, feeding.decoder.stage = .data remaining ∧
      feeding.input.length < remaining ∧ feeding.input ≠ [] ∧ next = feeding.cut remaining
  := by
  obtain stage | ⟨remaining, stage⟩ | lines := feeding.stage_cases
  · rw [turn_done stage] at h
    cases h
  · have nonempty : feeding.input ≠ [] := by
      intro empty
      rw [turn_data stage, takeData, empty] at h
      cases h
    obtain lt | le := Nat.lt_or_ge feeding.input.length remaining
    · right
      rw [turn_cut stage lt nonempty] at h
      cases h
      use remaining
    · left
      have stage' : (feeding.push bytes).decoder.stage = .data remaining := stage
      rw [turn_data stage] at h
      rw [turn_data stage', takeData_push le nonempty, h]
      rfl
  · cases closed : feeding.input.idxOf? lineFeed with
    | none =>
      rw [turn_wait lines limit closed] at h
      split at h
      all_goals cases h
    | some e =>
      left
      rw [turn_push_line lines limit closed, h]
      rfl

theorem feed_push_next {next : Feeding} (h : feeding.turn limit = .next next) (bytes : Bytes) :
  (feeding.push bytes).feed limit = (next.push bytes).feed limit
  := by
  obtain turn | ⟨remaining, stage, lt, nonempty, rfl⟩ := turn_push_next h bytes
  · apply feed_next turn
  · cases bytes with
    | nil =>
      rw [push_nil, push_nil]
      apply feed_next h
    | cons b bytes => apply feed_congr (turn_push_cut stage lt nonempty limit (by simp))

/-! ### The lines that are read -/

/-- So many turns lead from one state to another. -/
def Reaches (limit : ℕ) : Feeding → Feeding → Prop :=
  Relation.ReflTransGen fun feeding next => feeding.turn limit = .next next

/-- No line that is read is longer than the longest line whose end has not arrived. -/
def Short (limit : ℕ) (feeding : Feeding) : Prop :=
  ∀ last e, Reaches limit feeding last → last.ReadsLines →
    last.input.idxOf? lineFeed = some e → e ≤ maxChunkLine

theorem ReadsLines.ne_data (h : feeding.ReadsLines) (remaining : ℕ) :
  feeding.decoder.stage ≠ .data remaining
  := by
  obtain h | h | h := h
  all_goals
    rw [h]
    nofun

/-- A line that is read is read with bytes behind it, too. -/
theorem Reaches.push (h : Reaches limit feeding last) (lines : last.ReadsLines) (bytes : Bytes) :
  Reaches limit (feeding.push bytes) (last.push bytes)
  := by
  induction h using head_induction_on with
  | refl => apply Relation.ReflTransGen.refl
  | head turn rest ih =>
    obtain turn | ⟨remaining, stage, lt, nonempty, rfl⟩ := turn_push_next turn bytes
    · exact Relation.ReflTransGen.head turn ih
    · -- nothing is left, so the data goes on and no line is read
      obtain rfl | ⟨next, turn, _⟩ := rest.cases_head
      · apply absurd rfl (lines.ne_data _)
      · cases turn

theorem Short.of_push (h : (feeding.push bytes).Short limit) :
  feeding.Short limit
  := by
  intro last e reaches lines closed
  apply h (last.push bytes) e (reaches.push lines bytes) lines
  rw [push_input, idxOf?_append, closed, Option.some_or]

theorem Short.next {next : Feeding} (h : (feeding.push bytes).Short limit)
    (turn : feeding.turn limit = .next next) :
  (next.push bytes).Short limit
  := by
  obtain turn' | ⟨remaining, stage, lt, nonempty, rfl⟩ := turn_push_next turn bytes
  · intro last e reaches
    apply h last e (Relation.ReflTransGen.head turn' reaches)
  · cases bytes with
    | nil =>
      rw [push_nil] at h ⊢
      intro last e reaches
      apply h last e (Relation.ReflTransGen.head turn reaches)
    | cons b bytes =>
      intro last e reaches lines
      obtain rfl | ⟨mid, turn', reaches⟩ := reaches.cases_head
      · apply absurd rfl (lines.ne_data _)
      · rw [← turn_push_cut stage lt nonempty limit (by simp)] at turn'
        apply h last e (Relation.ReflTransGen.head turn' reaches) lines

/-! ### What was given before -/

theorem turn_prepend (bytes : Bytes) (feeding : Feeding) (limit : ℕ) :
  (feeding.prepend bytes).turn (bytes.length + limit) = (feeding.turn limit).prepend bytes
  := by
  have fits : ∀ size, (bytes ++ feeding.output).length + size ≤ bytes.length + limit ↔
      feeding.output.length + size ≤ limit := by
    intro size
    rw [length_append]
    omega
  obtain ⟨⟨stage, trailerBytes⟩, input, output⟩ := feeding
  cases stage with
  | done => rfl
  | data remaining =>
    simp only [turn, takeData]
    split
    · rfl
    · simp only [append_assoc, Turn.prepend, prepend]
  | _ =>
    simp only [turn]
    cases input.idxOf? lineFeed with
    | none =>
      dsimp only
      split
      · rfl
      · rfl
    | some e =>
      simp only [takeLine, fits]
      repeat' split
      all_goals first | rfl | contradiction

/-- What was given before only counts against the limit. -/
theorem feed_prepend (bytes : Bytes) (feeding : Feeding) (limit : ℕ) :
  (feeding.prepend bytes).feed (bytes.length + limit) =
    ((feeding.feed limit).1, (feeding.feed limit).2.prepend bytes)
  := by
  have turn' := turn_prepend bytes feeding limit
  induction left : feeding.turnsLeft using Nat.strongRecOn generalizing feeding with
  | ind n ih =>
    cases turn : feeding.turn limit with
    | next next =>
      rw [turn] at turn'
      rw [feed_next turn, feed_next turn']
      subst left
      apply ih _ (turn_turnsLeft turn) next (turn_prepend bytes next limit) rfl
    | stop outcome last =>
      rw [turn] at turn'
      rw [feed_stop turn, feed_stop turn']

/-! ### Feeding in pieces -/

/-- A feed of more bytes goes on where the feed before it waits, and comes to what that came to
where it does not. -/
theorem feed_push (short : (feeding.push bytes).Short limit) :
  (feeding.push bytes).feed limit =
    if (feeding.feed limit).1 = .more then ((feeding.feed limit).2.push bytes).feed limit
    else ((feeding.feed limit).1, (feeding.feed limit).2.push bytes)
  := by
  induction left : feeding.turnsLeft using Nat.strongRecOn generalizing feeding with
  | ind n ih =>
    cases turn : feeding.turn limit with
    | next next =>
      rw [feed_push_next turn, feed_next turn]
      subst left
      apply ih _ (turn_turnsLeft turn) (short.next turn) rfl
    | stop outcome last =>
      rw [feed_stop turn]
      obtain stage | ⟨remaining, stage⟩ | lines := feeding.stage_cases
      · rw [turn_done stage] at turn
        cases turn
        have stage' : (feeding.push bytes).decoder.stage = .done := stage
        rw [feed_stop (turn_done stage' limit), if_neg (by simp)]
      · rw [turn_data stage, takeData] at turn
        split at turn
        next => cases turn; rfl
        next => cases turn
      · cases closed : feeding.input.idxOf? lineFeed with
        | some e =>
          have turn' := turn_push_line lines limit closed bytes
          rw [turn] at turn'
          rw [turn_line lines limit closed] at turn
          obtain rfl | rfl := takeLine_stop turn
          · rw [feed_stop turn', if_neg (by simp)]
          · rw [feed_stop turn', if_neg (by simp)]
        | none =>
          rw [turn_wait lines limit closed] at turn
          split at turn
          next long =>
            cases turn
            rw [if_neg (by simp)]
            have lines' : (feeding.push bytes).ReadsLines := lines
            cases closed' : bytes.idxOf? lineFeed with
            | some e =>
              have le := short _ (e + feeding.input.length) Relation.ReflTransGen.refl
                lines' (by
                  rw [push_input, idxOf?_append, closed, closed']
                  rfl)
              omega
            | none =>
              have open_ : (feeding.push bytes).input.idxOf? lineFeed = none := by
                rw [push_input, idxOf?_append, closed, closed']
                rfl
              have turn' := turn_wait lines' limit open_
              rw [if_pos (by rw [push_input, length_append]; omega)] at turn'
              apply feed_stop turn'
          next => cases turn; rfl

/-- A feed that waits is done with what has arrived. -/
theorem feed_more (more : (feeding.feed limit).1 = .more) :
  (feeding.feed limit).2.feed limit = feeding.feed limit
  := by
  induction left : feeding.turnsLeft using Nat.strongRecOn generalizing feeding with
  | ind n ih =>
    cases turn : feeding.turn limit with
    | next next =>
      rw [feed_next turn] at more ⊢
      subst left
      apply ih _ (turn_turnsLeft turn) more rfl
    | stop outcome last =>
      rw [feed_stop turn] at more ⊢
      obtain rfl : outcome = .more := more
      suffices last = feeding by
        rw [this]
        apply feed_stop
        rw [turn, this]
      obtain stage | ⟨remaining, stage⟩ | lines := feeding.stage_cases
      · rw [turn_done stage] at turn
        cases turn
      · rw [turn_data stage, takeData] at turn
        split at turn
        next => cases turn; rfl
        next => cases turn
      · cases closed : feeding.input.idxOf? lineFeed with
        | some e =>
          rw [turn_line lines limit closed] at turn
          obtain refused | refused := takeLine_stop turn
          all_goals cases refused
        | none =>
          rw [turn_wait lines limit closed] at turn
          split at turn
          next => cases turn
          next => cases turn; rfl

/-- A decoder before any bytes have arrived. -/
def start : Feeding :=
  ⟨.new, [], []⟩

/-- Feed pieces as they arrive, until a feed comes to something else than `more`.  The pieces after
it are left behind the inbox. -/
def feedAll (limit : ℕ) : List Bytes → Decoded × Feeding → Decoded × Feeding
  | [], fed => fed
  | piece :: pieces, (.more, feeding) => feedAll limit pieces ((feeding.push piece).feed limit)
  | piece :: pieces, (outcome, feeding) => feedAll limit pieces (outcome, feeding.push piece)

theorem feedAll_of_stopped {outcome : Decoded} (stopped : outcome ≠ .more) (pieces : List Bytes)
    (feeding : Feeding) :
  feedAll limit pieces (outcome, feeding) = (outcome, feeding.push pieces.flatten)
  := by
  induction pieces generalizing feeding with
  | nil => rw [feedAll, flatten_nil, push_nil]
  | cons piece pieces ih =>
    rw [flatten_cons, ← push_push, ← ih]
    cases outcome with
    | more => apply absurd rfl stopped
    | _ => rfl

/-- Pieces come to what they come to at once, when no line is too long. -/
theorem feedAll_feed (pieces : List Bytes) (short : (feeding.push pieces.flatten).Short limit) :
  feedAll limit pieces (feeding.feed limit) = (feeding.push pieces.flatten).feed limit
  := by
  induction pieces generalizing feeding with
  | nil => rw [feedAll, flatten_nil, push_nil]
  | cons piece pieces ih =>
    rw [flatten_cons, ← push_push] at short ⊢
    rw [← ih short, feed_push short.of_push]
    cases fed : feeding.feed limit with
    | mk outcome last =>
      cases outcome with
      | more => rfl
      | _ => rfl

theorem feedAll_append (limit : ℕ) (pieces others : List Bytes) (fed : Decoded × Feeding) :
  feedAll limit (pieces ++ others) fed = feedAll limit others (feedAll limit pieces fed)
  := by
  induction pieces generalizing fed with
  | nil => rfl
  | cons piece pieces ih =>
    obtain ⟨outcome, feeding⟩ := fed
    cases outcome with
    | more => apply ih
    | _ => apply ih

theorem feedAll_within (pieces : List Bytes) {fed : Decoded × Feeding}
    (within : fed.2.Within limit) :
  (feedAll limit pieces fed).2.Within limit
  := by
  induction pieces generalizing fed with
  | nil => apply within
  | cons piece pieces ih =>
    obtain ⟨outcome, feeding⟩ := fed
    have pushed : (feeding.push piece).Within limit := within
    cases outcome with
    | more => apply ih (feed_within pushed)
    | _ => apply ih pushed

theorem feed_start (limit : ℕ) : start.feed limit = (.more, start) := by
  apply feed_stop
  rfl

/-! ### Bytes that are cut behind a line -/

/-- The turns that go on are taken. -/
theorem turn_of_turned {next : Feeding} (h : Turned limit feeding next) :
  feeding.turn limit = .next next
  := by
  have taken : ∀ {stage : ChunkStage} {trailerBytes : ℕ} {line rest output : Bytes},
      ReadsLines ⟨⟨stage, trailerBytes⟩, line ++ lineFeed :: rest, output⟩ → lineFeed ∉ line →
        turn ⟨⟨stage, trailerBytes⟩, line ++ lineFeed :: rest, output⟩ limit =
          takeLine ⟨⟨stage, trailerBytes⟩, line ++ lineFeed :: rest, output⟩ limit line rest := by
    intro stage trailerBytes line rest output lines ends
    rw [turn_line lines limit (idxOf?_line ends rest)]
    dsimp only
    rw [take_left, drop_append, drop_of_length_le (by omega),
      Nat.add_sub_cancel_left, drop_one, tail_cons, nil_append]
  cases h with
  | lastSize ends zero =>
    rw [taken (.inl rfl) ends]
    simp only [takeLine, zero]
  | @size trailerBytes size line rest output ends spelled positive fits =>
    rw [taken (.inl rfl) ends]
    obtain _ | size := size
    · cases positive
    · simp only [takeLine, spelled, if_pos fits]
  | dataEnd ends empty =>
    rw [taken (.inr (.inl rfl)) ends]
    simp only [takeLine, empty, ne_eq, not_true_eq_false, if_false]
  | trailer ends spelled fits =>
    rw [taken (.inr (.inr rfl)) ends]
    simp only [takeLine, spelled, if_neg (Nat.not_lt_of_le fits), if_false]
  | lastTrailer ends empty fits =>
    rw [taken (.inr (.inr rfl)) ends]
    simp only [takeLine, empty, if_neg (Nat.not_lt_of_le fits), if_true]
  | @data trailerBytes chunk rest output some =>
    rw [turn_data rfl, takeData, if_neg (by rw [List.isEmpty_iff]; apply some)]
    dsimp only
    rw [length_append, Nat.min_eq_left (Nat.le_add_right _ _), if_pos rfl, take_left, drop_left]
  | part some lt => apply turn_cut rfl lt some

/-- A turn that leaves bytes, leaves others that stand in their place. -/
theorem turned_replace {next : Feeding} (h : Turned limit feeding next) {left : Bytes}
    (input : next.input = bytes ++ left) (some : left ≠ []) :
  ∃ taken, feeding.input = taken ++ left ∧ ∀ other, other ≠ [] →
    Turned limit ⟨feeding.decoder, taken ++ other, feeding.output⟩
      ⟨next.decoder, bytes ++ other, next.output⟩
  := by
  have line_append : ∀ line other : Bytes,
      (line ++ lineFeed :: bytes) ++ other = line ++ lineFeed :: (bytes ++ other) := by
    intro line other
    rw [append_assoc, cons_append]
  cases h with
  | @lastSize trailerBytes line rest output ends zero =>
    obtain rfl : rest = bytes ++ left := input
    refine ⟨line ++ lineFeed :: bytes, (line_append line left).symm, ?_⟩
    intro other _
    rw [line_append]
    apply Turned.lastSize ends zero
  | @size trailerBytes size line rest output ends spelled positive fits =>
    obtain rfl : rest = bytes ++ left := input
    refine ⟨line ++ lineFeed :: bytes, (line_append line left).symm, ?_⟩
    intro other _
    rw [line_append]
    apply Turned.size ends spelled positive fits
  | @dataEnd trailerBytes line rest output ends empty =>
    obtain rfl : rest = bytes ++ left := input
    refine ⟨line ++ lineFeed :: bytes, (line_append line left).symm, ?_⟩
    intro other _
    rw [line_append]
    apply Turned.dataEnd ends empty
  | @trailer trailerBytes line rest output ends spelled fits =>
    obtain rfl : rest = bytes ++ left := input
    refine ⟨line ++ lineFeed :: bytes, (line_append line left).symm, ?_⟩
    intro other _
    rw [line_append]
    apply Turned.trailer ends spelled fits
  | @lastTrailer trailerBytes line rest output ends empty fits =>
    obtain rfl : rest = bytes ++ left := input
    refine ⟨line ++ lineFeed :: bytes, (line_append line left).symm, ?_⟩
    intro other _
    rw [line_append]
    apply Turned.lastTrailer ends empty fits
  | @data trailerBytes chunk rest output _ =>
    obtain rfl : rest = bytes ++ left := input
    refine ⟨chunk ++ bytes, (append_assoc _ _ _).symm, ?_⟩
    intro other nonempty
    rw [append_assoc]
    apply Turned.data
    simp [nonempty]
  | part _ lt =>
    have empty : [] = bytes ++ left := input
    simp [some] at empty

/-- Bytes that are left are not looked at before. -/
theorem Reaches.replace (h : Reaches limit feeding last) (some : last.input ≠ []) :
  ∃ taken, feeding.input = taken ++ last.input ∧ ∀ other, other ≠ [] →
    Reaches limit ⟨feeding.decoder, taken ++ other, feeding.output⟩
      ⟨last.decoder, other, last.output⟩
  := by
  induction h using head_induction_on with
  | refl =>
    refine ⟨[], rfl, ?_⟩
    intro other _
    apply Relation.ReflTransGen.refl
  | head turn _ ih =>
    obtain ⟨bytes, input, reaches⟩ := ih
    obtain ⟨taken, input', replace⟩ := turned_replace (turned turn) input some
    refine ⟨taken, input', ?_⟩
    intro other nonempty
    exact Relation.ReflTransGen.head (turn_of_turned (replace other nonempty))
      (reaches other nonempty)

theorem Reaches.feed (h : Reaches limit feeding last) :
  feeding.feed limit = last.feed limit
  := by
  induction h using head_induction_on with
  | refl => rfl
  | head turn _ ih => rw [feed_next turn, ih]

theorem feed_input_le (feeding : Feeding) :
  (feeding.feed limit).2.input.length ≤ feeding.input.length
  := by
  induction left : feeding.turnsLeft using Nat.strongRecOn generalizing feeding with
  | ind n ih =>
    cases turn : feeding.turn limit with
    | next next =>
      rw [feed_next turn]
      subst left
      apply (ih _ (turn_turnsLeft turn) next rfl).trans
      cases turned turn with
      | part => apply Nat.zero_le
      | _ => simp only [length_append, length_cons]; omega
    | stop outcome last =>
      rw [feed_stop turn]
      apply turn_stop_input turn

/-- A line that is there is passed by a feed. -/
theorem feed_line_lt (lines : feeding.ReadsLines) {e : ℕ}
    (closed : feeding.input.idxOf? lineFeed = some e) :
  (feeding.feed limit).2.input.length < feeding.input.length
  := by
  have lt := idxOf_lt closed
  have shorter : (feeding.input.drop (e + 1)).length < feeding.input.length := by
    rw [length_drop]
    omega
  have turn := turn_line lines limit closed
  cases taken : feeding.takeLine limit (feeding.input.take e) (feeding.input.drop (e + 1)) with
  | stop outcome last =>
    rw [feed_stop (turn.trans taken), takeLine_stop_input taken]
    apply shorter
  | next next =>
    rw [feed_next (turn.trans taken)]
    apply lt_of_le_of_lt (feed_input_le next)
    rw [takeLine_next_input taken]
    apply shorter

/-! ### The decoder does not see the pieces -/

/-- What pieces come to is what their bytes come to at once, within the limit, and a body that has
ended has given its data. -/
def FeedsAlike (limit : ℕ) (bytes : Bytes) : Prop :=
  ∀ pieces : List Bytes, pieces.flatten = bytes →
    (feedAll limit pieces (.more, start)).1 = ((start.push bytes).feed limit).1 ∧
      (feedAll limit pieces (.more, start)).2.output = ((start.push bytes).feed limit).2.output ∧
      (feedAll limit pieces (.more, start)).2.input = ((start.push bytes).feed limit).2.input ∧
      (feedAll limit pieces (.more, start)).2.output.length ≤ limit ∧
      ((feedAll limit pieces (.more, start)).1 = .done → ∃ body,
        bytes = body ++ (feedAll limit pieces (.more, start)).2.input ∧
          ChunkedBody body (feedAll limit pieces (.more, start)).2.output)

/-- A line that is too long is seen when it is cut. -/
theorem FeedsAlike.short (alike : FeedsAlike limit bytes) :
  (start.push bytes).Short limit
  := by
  intro last e reaches lines closed
  by_contra long
  have lt := idxOf_lt closed
  have some : last.input ≠ [] := length_pos_iff.mp (by omega)
  obtain ⟨taken, input, replace⟩ := reaches.replace some
  obtain ⟨unended, _⟩ := idxOf?_some closed
  -- the line is cut where it is longer than a line whose end has not arrived
  have cut : last.input.take (maxChunkLine + 1) ≠ [] := by
    simp [some]
  have open_ : (last.input.take (maxChunkLine + 1)).idxOf? lineFeed = none := by
    rw [idxOf?_eq_none_iff]
    intro mem
    apply unended
    apply (take_sublist_take_left (by omega)).subset mem
  have refused : Feeding.feed ⟨last.decoder, last.input.take (maxChunkLine + 1), last.output⟩
      limit = (.malformed, ⟨last.decoder, last.input.take (maxChunkLine + 1), last.output⟩) := by
    apply feed_stop
    have lines' : ReadsLines
        ⟨last.decoder, last.input.take (maxChunkLine + 1), last.output⟩ := lines
    rw [turn_wait lines' limit open_, if_pos]
    rw [length_take]
    omega
  have bytes_eq : bytes = taken ++ last.input := input
  have run : feedAll limit [taken ++ last.input.take (maxChunkLine + 1),
      last.input.drop (maxChunkLine + 1)] (.more, start) = (.malformed, last) := by
    have first : (start.push (taken ++ last.input.take (maxChunkLine + 1))).feed limit = _ :=
      (replace _ cut).feed
    rw [feedAll, first, refused, feedAll_of_stopped (by simp)]
    simp only [push, flatten_cons, flatten_nil, append_nil, take_append_drop]
  obtain ⟨_, _, left, _⟩ := alike [taken ++ last.input.take (maxChunkLine + 1),
    last.input.drop (maxChunkLine + 1)] (by
      simp only [flatten_cons, flatten_nil, append_nil, append_assoc,
        take_append_drop, bytes_eq])
  have passed : (last.feed limit).2.input.length < _ := feed_line_lt lines closed
  rw [run, reaches.feed] at left
  rw [← left] at passed
  apply lt_irrefl _ passed

/-- An empty body whose size line has an extension of so many bytes. -/
def extendedBody (length : ℕ) : Bytes :=
  48 :: 59 :: List.replicate length 97 ++ [10, 13, 10]

end Feeding

end Vilan.Http
