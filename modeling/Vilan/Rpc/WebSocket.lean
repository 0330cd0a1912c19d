import Vilan.Library.Scanner
import Vilan.Std.Text
import Mathlib.Data.Nat.Bitwise

/-!
# WebSocket frames

The frame layer of the socket: one complete frame as it is written, and a parser that is fed raw
chunks.  Partial frames wait in its buffer, and fragmented messages accumulate until their last
frame.
-/

namespace Vilan.Ws

open List

/-- One complete frame: the last of its message, not masked, the length in the shortest form. -/
def encodeFrame (opcode : ℕ) (payload : Bytes) : Bytes :=
  let length := payload.length
  let header : Bytes :=
    if length < 126 then [0, length.toUInt8]
    else if length < 65536 then [0, 126, (length >>> 8).toUInt8, length.toUInt8]
    else
      [0, 127, 0, 0, 0, 0, (length >>> 24).toUInt8, (length >>> 16).toUInt8, (length >>> 8).toUInt8,
        length.toUInt8]
  header.set 0 (0x80 ||| opcode).toUInt8 ++ payload

/-- What one feed can surface; a text is what a decoder makes of its payload. -/
inductive WsEvent (S : Type*) where
  | text (text : S)
  | binary (payload : Bytes)
  | ping (payload : Bytes)
  | closed
  deriving DecidableEq, Repr

/-- A pending fragmented message; the opcode 0 says that there is none. -/
structure Fragment where
  opcode : ℕ
  payload : Bytes
  deriving DecidableEq, Repr

def Fragment.none : Fragment where
  opcode := 0
  payload := []

/-- One frame, unmasked. -/
structure Frame where
  fin : Bool
  opcode : ℕ
  payload : Bytes
  deriving DecidableEq, Repr

/-! ### The front of the buffer -/

/-- What the length bytes say. -/
inductive Length where
  /-- They are not all there. -/
  | partly
  /-- The length exceeds 31 bits. -/
  | oversized
  /-- The length, and the end of the length bytes. -/
  | known (length header : ℕ)
  deriving DecidableEq, Repr

/-- The byte at an index. -/
def byteAt (buffer : Bytes) (index : ℕ) : ℕ :=
  (buffer.getD index 0).toNat

/-- The length in its 7, 16 or 64 bits. -/
def lengthOf (buffer : Bytes) : Length :=
  let length := byteAt buffer 1 &&& 0x7F
  if length = 126 then
    if buffer.length < 4 then .partly
    else .known (byteAt buffer 2 <<< 8 ||| byteAt buffer 3) 4
  else if length = 127 then
    if buffer.length < 10 then .partly
    else if byteAt buffer 2 ≠ 0 ∨ byteAt buffer 3 ≠ 0 ∨ byteAt buffer 4 ≠ 0 ∨ byteAt buffer 5 ≠ 0
        ∨ byteAt buffer 6 &&& 0x80 ≠ 0 then .oversized
    else .known (byteAt buffer 6 <<< 24 ||| byteAt buffer 7 <<< 16 ||| byteAt buffer 8 <<< 8
        ||| byteAt buffer 9) 10
  else .known length 2

/-- What stands at the front of a buffer. -/
inductive Front where
  | partly
  | oversized
  | frame (frame : Frame) (rest : Bytes)
  deriving DecidableEq, Repr

/-- The payload with each byte unmasked by the key at `maskAt`. -/
def unmask (buffer : Bytes) (maskAt : ℕ) (payload : Bytes) : Bytes :=
  payload.mapIdx fun index byte => byte ^^^ buffer.getD (maskAt + (index &&& 3)) 0

/-- Whether the frame at the front is masked. -/
def masked (buffer : Bytes) : Bool :=
  byteAt buffer 1 &&& 0x80 ≠ 0

/-- Where the payload starts: the key of a masked frame stands before it. -/
def payloadAt (buffer : Bytes) (header : ℕ) : ℕ :=
  if masked buffer then header + 4 else header

/-- The payload behind the length bytes, unmasked. -/
def payloadOf (buffer : Bytes) (header length : ℕ) : Bytes :=
  let payload := (buffer.drop (payloadAt buffer header)).take length
  if masked buffer then unmask buffer header payload else payload

/-- The frame at the front of a buffer, once it is all there. -/
def front (buffer : Bytes) : Front :=
  if buffer.length < 2 then .partly
  else
    match lengthOf buffer with
    | .partly => .partly
    | .oversized => .oversized
    | .known length header =>
        if buffer.length < payloadAt buffer header + length then .partly
        else
          .frame
            { fin := byteAt buffer 0 &&& 0x80 ≠ 0
              opcode := byteAt buffer 0 &&& 0x0F
              payload := payloadOf buffer header length }
            (buffer.drop (payloadAt buffer header + length))

/-! ### Dispatch -/

/-- What a frame reports: a message that is complete, a ping, or the end. -/
inductive Report where
  | message (opcode : ℕ) (payload : Bytes)
  | ping (payload : Bytes)
  | closed
  deriving DecidableEq, Repr

/-- What a dispatch leaves: its reports, the pending message, and whether the connection is over. -/
structure Dispatched where
  reports : List Report
  fragment : Fragment
  violated : Bool
  deriving DecidableEq, Repr

/-- Route one complete frame, reassembling fragments. -/
def dispatch (frame : Frame) (fragment : Fragment) : Dispatched :=
  if frame.opcode = 0x9 then ⟨[.ping frame.payload], fragment, false⟩
  else if frame.opcode = 0xA then ⟨[], fragment, false⟩
  else if frame.opcode = 0x8 then ⟨[.closed], fragment, true⟩
  else if frame.opcode = 0x0 then
    if fragment.opcode = 0 then ⟨[.closed], fragment, true⟩
    else
      let complete := fragment.payload ++ frame.payload
      if frame.fin then ⟨[.message fragment.opcode complete], .none, false⟩
      else ⟨[], { fragment with payload := complete }, false⟩
  else if frame.opcode = 0x1 ∨ frame.opcode = 0x2 then
    if frame.fin then ⟨[.message frame.opcode frame.payload], fragment, false⟩
    else ⟨[], { opcode := frame.opcode, payload := frame.payload }, false⟩
  else ⟨[.closed], fragment, true⟩

/-- The event of a report. -/
def emit {S : Type*} (decodeUtf8 : Bytes → S) : Report → WsEvent S
  | .message opcode payload => if opcode = 0x1 then .text (decodeUtf8 payload) else .binary payload
  | .ping payload => .ping payload
  | .closed => .closed

/-! ### The parser -/

/-- One turn of the loop: the frame taken, if the length was in bounds, the message pending before
it, and what it reported. -/
structure Turn where
  frame : Option Frame
  before : Fragment
  reports : List Report
  deriving DecidableEq, Repr

/-- One turn of the loop. -/
def turn (fragment : Fragment) (buffer : Bytes) : Scanner.Next Fragment UInt8 Turn :=
  match front buffer with
  | .partly => .wait
  | .oversized => .stop fragment [⟨none, fragment, [.closed]⟩] buffer
  | .frame frame rest =>
      let done := dispatch frame fragment
      if done.violated then .stop done.fragment [⟨some frame, fragment, done.reports⟩] rest
      else .take done.fragment [⟨some frame, fragment, done.reports⟩] rest

/-! ### What is at the front stays there -/

variable {buffer : Bytes} {header length : ℕ}

theorem byteAt_append {index : ℕ} (lt : index < buffer.length) (more : Bytes) :
  byteAt (buffer ++ more) index = byteAt buffer index
  := by
  rw [byteAt, byteAt, getD_append _ _ _ _ lt]

/-- The length bytes that are there do not change. -/
theorem lengthOf_append (two : 2 ≤ buffer.length) (there : lengthOf buffer ≠ .partly)
    (more : Bytes) :
  lengthOf (buffer ++ more) = lengthOf buffer
  := by
  rw [lengthOf] at there ⊢
  rw [lengthOf, byteAt_append (by omega)]
  have length : (buffer ++ more).length = buffer.length + more.length := length_append
  by_cases medium : byteAt buffer 1 &&& 0x7F = 126
  · rw [if_pos medium] at there ⊢
    rw [if_pos medium]
    split at there
    next => exact absurd rfl there
    next four =>
      rw [if_neg (by omega), if_neg four, byteAt_append (by omega), byteAt_append (by omega)]
  · rw [if_neg medium] at there ⊢
    rw [if_neg medium]
    by_cases long : byteAt buffer 1 &&& 0x7F = 127
    · rw [if_pos long] at there ⊢
      rw [if_pos long]
      split at there
      next => exact absurd rfl there
      next ten =>
        rw [if_neg (by omega), if_neg ten, byteAt_append (by omega), byteAt_append (by omega),
          byteAt_append (by omega), byteAt_append (by omega), byteAt_append (by omega),
          byteAt_append (by omega), byteAt_append (by omega), byteAt_append (by omega)]
    · rw [if_neg long, if_neg long]

/-- The length bytes end behind the first two. -/
theorem header_of_known (known : lengthOf buffer = .known length header) :
  2 ≤ header
  := by
  rw [lengthOf] at known
  split at known
  next =>
    split at known
    next => cases known
    next =>
      cases known
      decide
  next =>
    split at known
    next =>
      split at known
      next => cases known
      next =>
        split at known
        next => cases known
        next =>
          cases known
          decide
    next =>
      cases known
      decide

theorem front_oversized (h : front buffer = .oversized) :
  2 ≤ buffer.length ∧ lengthOf buffer = .oversized
  := by
  rw [front] at h
  split at h
  next => cases h
  next two =>
    split at h
    next => cases h
    next oversized => exact ⟨Nat.le_of_not_lt two, oversized⟩
    next =>
      split at h
      next => cases h
      next => cases h

theorem front_oversized_append (h : front buffer = .oversized) (more : Bytes) :
  front (buffer ++ more) = .oversized
  := by
  obtain ⟨two, oversized⟩ := front_oversized h
  have there : lengthOf buffer ≠ .partly := by
    rw [oversized]
    intro same
    cases same
  rw [front, if_neg (by rw [length_append]; omega), lengthOf_append two there, oversized]

/-- A frame of known length, all of which is there. -/
theorem front_of_known (two : 2 ≤ buffer.length) (known : lengthOf buffer = .known length header)
    (whole : payloadAt buffer header + length ≤ buffer.length) :
  front buffer = .frame
    { fin := byteAt buffer 0 &&& 0x80 ≠ 0
      opcode := byteAt buffer 0 &&& 0x0F
      payload := payloadOf buffer header length }
    (buffer.drop (payloadAt buffer header + length))
  := by
  rw [front, if_neg (by omega), known]
  dsimp only
  rw [if_neg (by omega)]

/-- What a frame at the front is. -/
theorem front_frame {rest : Bytes} {frame : Frame} (h : front buffer = .frame frame rest) :
  ∃ length header, 2 ≤ buffer.length ∧ lengthOf buffer = .known length header ∧
    payloadAt buffer header + length ≤ buffer.length ∧
    rest = buffer.drop (payloadAt buffer header + length)
  := by
  rw [front] at h
  split at h
  next => cases h
  next two =>
    split at h
    next => cases h
    next => cases h
    next length header known =>
      split at h
      next => cases h
      next whole =>
        cases h
        exact ⟨length, header, Nat.le_of_not_lt two, known, Nat.le_of_not_lt whole, rfl⟩

theorem le_payloadAt (buffer : Bytes) (header : ℕ) :
  header ≤ payloadAt buffer header
  := by
  rw [payloadAt]
  split <;> omega

theorem unmask_append {maskAt : ℕ} (le : maskAt + 4 ≤ buffer.length) (more payload : Bytes) :
  unmask (buffer ++ more) maskAt payload = unmask buffer maskAt payload
  := by
  rw [unmask, unmask]
  congr 1
  funext index byte
  have small : index &&& 3 ≤ 3 := Nat.and_le_right
  rw [getD_append _ _ _ _ (by omega)]

theorem masked_append (two : 2 ≤ buffer.length) (more : Bytes) :
  masked (buffer ++ more) = masked buffer
  := by
  rw [masked, masked, byteAt_append (by omega)]

theorem payloadOf_append (two : 2 ≤ buffer.length)
    (whole : payloadAt buffer header + length ≤ buffer.length) (more : Bytes) :
  payloadAt (buffer ++ more) header = payloadAt buffer header ∧
    payloadOf (buffer ++ more) header length = payloadOf buffer header length
  := by
  have start : payloadAt (buffer ++ more) header = payloadAt buffer header := by
    rw [payloadAt, payloadAt, masked_append two]
  use start
  rw [payloadOf, payloadOf, start, masked_append two, drop_append_of_le_length (by omega),
    take_append_of_le_length (by rw [length_drop]; omega)]
  cases flag : masked buffer with
  | true =>
    rw [payloadAt, flag, if_pos rfl] at whole
    apply unmask_append
    omega
  | false => rfl

theorem front_frame_append {rest : Bytes} {frame : Frame} (h : front buffer = .frame frame rest)
    (more : Bytes) :
  front (buffer ++ more) = .frame frame (rest ++ more)
  := by
  obtain ⟨length, header, two, known, whole, rest_eq⟩ := front_frame h
  have there : lengthOf buffer ≠ .partly := by
    rw [known]
    intro same
    cases same
  have known' := (lengthOf_append two there more).trans known
  have length_eq : (buffer ++ more).length = buffer.length + more.length := length_append
  obtain ⟨start, payload⟩ := payloadOf_append two whole more
  rw [front_of_known two known whole, Front.frame.injEq] at h
  rw [front_of_known (by omega) known' (by omega), start, payload, byteAt_append (by omega), ← h.1,
    ← h.2, drop_append_of_le_length (by omega)]

/-- The scanner of the parser. -/
def scanner : Scanner Fragment UInt8 Turn where
  next := turn
  nil fragment := rfl
  shorter := by
    intro fragment buffer fragment' turns rest h
    rw [turn] at h
    split at h
    next => cases h
    next => cases h
    next frame rest' found =>
      dsimp only at h
      split at h
      next => cases h
      next =>
        cases h
        obtain ⟨length, header, two, known, whole, rest_eq⟩ := front_frame found
        have header_le := header_of_known known
        have le := le_payloadAt buffer header
        rw [rest_eq, length_drop]
        omega
  take_append := by
    intro fragment buffer fragment' turns rest h more
    rw [turn] at h ⊢
    split at h
    next => cases h
    next => cases h
    next frame rest' found =>
      rw [front_frame_append found more]
      dsimp only at h ⊢
      split at h
      next => cases h
      next violated =>
        cases h
        rw [if_neg violated]
  stop_append := by
    intro fragment buffer fragment' turns rest h more
    rw [turn] at h ⊢
    split at h
    next => cases h
    next oversized =>
      cases h
      rw [front_oversized_append oversized more]
    next frame rest' found =>
      rw [front_frame_append found more]
      dsimp only at h ⊢
      split at h
      next violated =>
        cases h
        rw [if_pos violated]
      next => cases h

/-- A stateful frame parser. -/
structure WsParser where
  buffer : Bytes
  fragment : Fragment
  violated : Bool
  deriving DecidableEq, Repr

namespace WsParser

def new : WsParser where
  buffer := []
  fragment := .none
  violated := false

/-- Consume a chunk, with the turns of the loop. -/
def feedTurns (parser : WsParser) (chunk : Bytes) : List Turn × WsParser :=
  if parser.violated then ([], parser)
  else
    let scan := scanner.scan parser.fragment (parser.buffer ++ chunk)
    (scan.events, { buffer := scan.rest, fragment := scan.state, violated := scan.stopped })

/-- Consume a chunk, returning every event completed by it, in order. -/
def feed {S : Type*} (decodeUtf8 : Bytes → S) (parser : WsParser) (chunk : Bytes) :
    List (WsEvent S) × WsParser :=
  let turns := parser.feedTurns chunk
  ((turns.1.flatMap Turn.reports).map (emit decodeUtf8), turns.2)

/-- Consume chunks, with the turns of the loop. -/
def turns (parser : WsParser) : List Bytes → List Turn × WsParser
  | [] => ([], parser)
  | chunk :: chunks =>
      let first := parser.feedTurns chunk
      let rest := first.2.turns chunks
      (first.1 ++ rest.1, rest.2)

/-- Consume chunks: the events of one feed after the other. -/
def feeds {S : Type*} (decodeUtf8 : Bytes → S) (parser : WsParser) :
    List Bytes → List (WsEvent S) × WsParser
  | [] => ([], parser)
  | chunk :: chunks =>
      let first := parser.feed decodeUtf8 chunk
      let rest := first.2.feeds decodeUtf8 chunks
      (first.1 ++ rest.1, rest.2)

end WsParser

end Vilan.Ws
