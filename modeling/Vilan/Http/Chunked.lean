import Vilan.Http.Text

/-!
# The chunked decoder

A chunked body is decoded out of the connection's inbox as its bytes arrive.  The decoder is in
one of five stages, and a feed takes turns over what has arrived until it has to wait, or the body
has ended, or it is refused.
-/

namespace Vilan.Http

/-- The longest line whose end has not arrived. -/
def maxChunkLine : ℕ := 4 * 1024

/-- The largest head, and the most bytes of trailers. -/
def maxHead : ℕ := 64 * 1024

def lineFeed : UInt8 := 10

def carriageReturn : UInt8 := 13

/-- Where a chunked body's decoder is. -/
inductive ChunkStage where
  /-- Reading a chunk-size line. -/
  | size
  /-- Inside a chunk's data, with so many bytes of it left. -/
  | data (remaining : ℕ)
  /-- After a chunk's data. -/
  | dataEnd
  /-- After the last chunk. -/
  | trailers
  | done

/-- What a feed came to. -/
inductive Decoded where
  | more
  | done
  | overLimit
  | malformed
  deriving DecidableEq

structure ChunkDecoder where
  stage : ChunkStage
  /-- The trailer bytes taken so far. -/
  trailerBytes : ℕ

def ChunkDecoder.new : ChunkDecoder :=
  ⟨.size, 0⟩

/-- A line without the carriage return before its end. -/
def stripReturn (line : Bytes) : Bytes :=
  if line.getLast? = some carriageReturn then line.dropLast else line

/-- A chunk-size line's size: hexadecimal digits, then optional extensions. -/
def chunkSize (line : Bytes) : Option ℕ := do
  let text ← fromUtf8 line
  let digits := trim (text.takeWhile (· ≠ ';'))
  if digits.isEmpty || !digits.all isHexDigit then none
  else if number 16 digits < usizeBound then some (number 16 digits)
  else none

/-- The decoder, what it has not taken and what it has given. -/
structure Feeding where
  decoder : ChunkDecoder
  input : Bytes
  output : Bytes

/-- What one turn of a feed does. -/
inductive Turn where
  | stop (outcome : Decoded) (feeding : Feeding)
  | next (feeding : Feeding)

namespace Feeding

/-- A whole line, in one of the stages that read lines. -/
def takeLine (feeding : Feeding) (limit : ℕ) (line rest : Bytes) : Turn :=
  let taken := { feeding with input := rest }
  let content := stripReturn line
  match feeding.decoder.stage with
  | .size =>
      match chunkSize content with
      | none => .stop .malformed taken
      | some 0 => .next { taken with decoder.stage := .trailers }
      | some size =>
          -- a sum beyond a `usize` is beyond the limit, too
          if feeding.output.length + size ≤ limit then
            .next { taken with decoder.stage := .data size }
          else .stop .overLimit taken
  | .dataEnd =>
      if content ≠ [] then .stop .malformed taken
      else .next { taken with decoder.stage := .size }
  | _ =>
      let counted :=
        { taken with decoder.trailerBytes := feeding.decoder.trailerBytes + (line.length + 1) }
      if maxHead < counted.decoder.trailerBytes then .stop .malformed counted
      else if content = [] then .next { counted with decoder.stage := .done }
      else .next counted

/-- Bytes of a chunk's data. -/
def takeData (feeding : Feeding) (remaining : ℕ) : Turn :=
  if feeding.input.isEmpty then .stop .more feeding
  else
    let taken := min remaining feeding.input.length
    .next {
      decoder.stage := if taken = remaining then .dataEnd else .data (remaining - taken)
      decoder.trailerBytes := feeding.decoder.trailerBytes
      input := feeding.input.drop taken
      output := feeding.output ++ feeding.input.take taken }

/-- One turn of a feed. -/
def turn (feeding : Feeding) (limit : ℕ) : Turn :=
  match feeding.decoder.stage with
  | .done => .stop .done feeding
  | .data remaining => feeding.takeData remaining
  | _ =>
      match feeding.input.idxOf? lineFeed with
      | none =>
          if maxChunkLine < feeding.input.length then .stop .malformed feeding
          else .stop .more feeding
      | some e => feeding.takeLine limit (feeding.input.take e) (feeding.input.drop (e + 1))

/-- What bounds the turns that are left. -/
def turnsLeft (feeding : Feeding) : ℕ :=
  2 * feeding.input.length +
    match feeding.decoder.stage with
    | .data _ => 1
    | _ => 0

theorem idxOf_lt {bytes : Bytes} {b : UInt8} {e : ℕ} (h : bytes.idxOf? b = some e) :
  e < bytes.length
  := by
  rw [List.idxOf?, List.findIdx?_eq_some_iff_findIdx_eq] at h
  apply h.1

variable {limit : ℕ} {line rest : Bytes} {feeding next : Feeding}

/-- A line is taken off the inbox. -/
theorem takeLine_next_input (h : feeding.takeLine limit line rest = .next next) :
  next.input = rest
  := by
  unfold takeLine at h
  dsimp only at h
  repeat' split at h
  all_goals
    cases h
    try rfl

theorem takeLine_stop_input {last : Feeding} {outcome : Decoded}
    (h : feeding.takeLine limit line rest = .stop outcome last) :
  last.input = rest
  := by
  unfold takeLine at h
  dsimp only at h
  repeat' split at h
  all_goals
    cases h
    try rfl

theorem takeLine_turnsLeft (shorter : rest.length < feeding.input.length)
    (h : feeding.takeLine limit line rest = .next next) :
  next.turnsLeft < feeding.turnsLeft
  := by
  have input := takeLine_next_input h
  have le : next.turnsLeft ≤ 2 * next.input.length + 1 := by
    rw [turnsLeft]
    split
    all_goals omega
  have ge : 2 * feeding.input.length ≤ feeding.turnsLeft := Nat.le_add_right _ _
  rw [input] at le
  omega

theorem turn_turnsLeft (h : feeding.turn limit = .next next) :
  next.turnsLeft < feeding.turnsLeft
  := by
  unfold turn at h
  split at h
  next => cases h
  next remaining stage =>
    rw [takeData] at h
    split at h
    next => cases h
    next nonempty =>
      cases h
      have length : 0 < feeding.input.length := by
        rw [List.isEmpty_iff] at nonempty
        apply List.length_pos_iff.mpr nonempty
      simp only [turnsLeft, stage, List.length_drop]
      by_cases whole : min remaining feeding.input.length = remaining
      · rw [if_pos whole]
        dsimp only
        omega
      · rw [if_neg whole]
        dsimp only
        omega
  next =>
    split at h
    next =>
      split at h
      next => cases h
      next => cases h
    next e found =>
      have lt := idxOf_lt found
      apply takeLine_turnsLeft _ h
      rw [List.length_drop]
      omega

/-- Take what can be taken: turns until one stops. -/
def feed (feeding : Feeding) (limit : ℕ) : Decoded × Feeding :=
  match _h : feeding.turn limit with
  | .stop outcome feeding => (outcome, feeding)
  | .next next => next.feed limit
termination_by feeding.turnsLeft
decreasing_by exact turn_turnsLeft _h

/-! ### Turns -/

theorem feed_stop {last : Feeding} {outcome : Decoded}
    (h : feeding.turn limit = .stop outcome last) :
  feeding.feed limit = (outcome, last)
  := by
  rw [feed]
  split
  next heq => rw [h] at heq; cases heq; rfl
  next heq => rw [h] at heq; cases heq

theorem feed_next (h : feeding.turn limit = .next next) :
  feeding.feed limit = next.feed limit
  := by
  rw [feed]
  split
  next heq => rw [h] at heq; cases heq
  next heq => rw [h] at heq; cases heq; rfl

/-- The stages that read lines. -/
def ReadsLines (feeding : Feeding) : Prop :=
  feeding.decoder.stage = .size ∨ feeding.decoder.stage = .dataEnd ∨
    feeding.decoder.stage = .trailers

theorem turn_done (h : feeding.decoder.stage = .done) (limit : ℕ) :
  feeding.turn limit = .stop .done feeding
  := by
  rw [turn, h]

theorem turn_data {remaining : ℕ} (h : feeding.decoder.stage = .data remaining) (limit : ℕ) :
  feeding.turn limit = feeding.takeData remaining
  := by
  rw [turn, h]

theorem turn_wait (h : feeding.ReadsLines) (limit : ℕ)
    (open_ : feeding.input.idxOf? lineFeed = none) :
  feeding.turn limit =
    if maxChunkLine < feeding.input.length then .stop .malformed feeding else .stop .more feeding
  := by
  rw [turn]
  obtain h | h | h := h
  all_goals simp only [h, open_]

theorem turn_line (h : feeding.ReadsLines) (limit : ℕ) {e : ℕ}
    (closed : feeding.input.idxOf? lineFeed = some e) :
  feeding.turn limit =
    feeding.takeLine limit (feeding.input.take e) (feeding.input.drop (e + 1))
  := by
  rw [turn]
  obtain h | h | h := h
  all_goals simp only [h, closed]

theorem stage_cases (feeding : Feeding) :
  feeding.decoder.stage = .done ∨ (∃ remaining, feeding.decoder.stage = .data remaining) ∨
    feeding.ReadsLines
  := by
  unfold ReadsLines
  cases feeding.decoder.stage with
  | data remaining => simp
  | _ => simp

end Feeding

end Vilan.Http
