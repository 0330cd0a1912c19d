import Vilan.Rpc.WebSocket

/-!
# Conforming conversations

The frames of a peer that keeps to the protocol, in any chunks, are read as the messages and pings
the peer sent, up to its first close; and the frames written here are read back.
-/

namespace Vilan.Ws

open List Option

/-! ### Chunks -/

namespace WsParser

/-- The parser of a scan. -/
def ofScan (scan : Scanner.Scan Fragment UInt8 Turn) : WsParser where
  buffer := scan.rest
  fragment := scan.state
  violated := scan.stopped

theorem turns_ofScan (fed : Scanner.Scan Fragment UInt8 Turn) (chunks : List Bytes) :
  (scanner.feeds fed chunks).events = fed.events ++ ((ofScan fed).turns chunks).1 ∧
    ofScan (scanner.feeds fed chunks) = ((ofScan fed).turns chunks).2
  := by
  induction chunks generalizing fed with
  | nil => exact ⟨(append_nil _).symm, rfl⟩
  | cons chunk chunks ih =>
    have step : (ofScan fed).feedTurns chunk
        = (if fed.stopped then [] else (scanner.scan fed.state (fed.rest ++ chunk)).events,
          ofScan (scanner.feed fed chunk)) := by
      rw [feedTurns, Scanner.feed]
      cases stopped : fed.stopped with
      | true =>
        have violated : (ofScan fed).violated = true := stopped
        rw [if_pos violated]
        rfl
      | false =>
        have running : (ofScan fed).violated ≠ true := by
          rw [ofScan, stopped]
          exact Bool.false_ne_true
        rw [if_neg running]
        rfl
    have first : (scanner.feed fed chunk).events
        = fed.events ++ ((ofScan fed).feedTurns chunk).1 := by
      rw [step, Scanner.feed]
      cases fed.stopped with
      | true => exact (append_nil _).symm
      | false => rfl
    obtain ⟨events, state⟩ := ih (scanner.feed fed chunk)
    have after : ((ofScan fed).feedTurns chunk).2 = ofScan (scanner.feed fed chunk) := by
      rw [step]
    rw [Scanner.feeds, foldl_cons, ← Scanner.feeds, events, state, turns, after, first,
      append_assoc]
    exact ⟨rfl, rfl⟩

/-- What the parser does with chunks is what it does with all their bytes at once. -/
theorem turns_flatten (chunks : List Bytes) :
  (new.turns chunks).1 = (scanner.scan .none chunks.flatten).events ∧
    (new.turns chunks).2.fragment = (scanner.scan .none chunks.flatten).state ∧
    (new.turns chunks).2.violated = (scanner.scan .none chunks.flatten).stopped
  := by
  have fed : (scanner.feeds (Scanner.fresh Fragment.none) chunks).events = _ ∧ _ :=
    Scanner.feeds_eq Fragment.none chunks
  obtain ⟨events, state, stopped, _⟩ := fed
  obtain ⟨events', state'⟩ := turns_ofScan (Scanner.fresh Fragment.none) chunks
  have fresh : ofScan (Scanner.fresh Fragment.none) = new := rfl
  rw [fresh] at events' state'
  rw [events', Scanner.fresh, nil_append] at events
  rw [← state']
  exact ⟨events, state, stopped⟩

/-- The events are what the turns report. -/
theorem feeds_eq {S : Type*} (decodeUtf8 : Bytes → S) (parser : WsParser) (chunks : List Bytes) :
  parser.feeds decodeUtf8 chunks
    = (((parser.turns chunks).1.flatMap Turn.reports).map (emit decodeUtf8),
      (parser.turns chunks).2)
  := by
  induction chunks generalizing parser with
  | nil => rfl
  | cons chunk chunks ih =>
    rw [feeds, turns, ih, flatMap_append, map_append]
    rfl

theorem feeds_singleton {S : Type*} (decodeUtf8 : Bytes → S) (parser : WsParser) (chunk : Bytes) :
  (parser.feeds decodeUtf8 [chunk]).1 = (parser.feed decodeUtf8 chunk).1
  := append_nil _

end WsParser

/-! ### The bytes of a frame -/

/-- The form of a length: in the second byte, or in two or eight bytes behind it. -/
inductive Form where
  | short
  | medium
  | long
  deriving DecidableEq, Repr

namespace Form

/-- The lengths below this one can be written in the form. -/
def bound : Form → ℕ
  | short => 126
  | medium => 2 ^ 16
  | long => 2 ^ 31

/-- What the second byte says. -/
def code (length : ℕ) : Form → ℕ
  | short => length
  | medium => 126
  | long => 127

/-- The bytes behind it. -/
def bytes (length : ℕ) : Form → Bytes
  | short => []
  | medium => [(length / 2 ^ 8).toUInt8, length.toUInt8]
  | long => [0, 0, 0, 0, (length / 2 ^ 24).toUInt8, (length / 2 ^ 16).toUInt8,
      (length / 2 ^ 8).toUInt8, length.toUInt8]

end Form

/-- The payload of a frame, and how it is written: masked by a key or bare, and with a form of its
length that can hold it. -/
structure Piece where
  payload : Bytes
  key : Option (Fin 4 → UInt8)
  form : Form
  fits : payload.length < form.bound

/-- The payload with each byte masked by the byte of the key that is its turn. -/
def mask (key : Fin 4 → UInt8) (payload : Bytes) : Bytes :=
  payload.mapIdx fun index byte => byte ^^^ key ⟨index % 4, Nat.mod_lt index (by decide)⟩

/-- The key and the masked payload, or the payload. -/
def Piece.body (piece : Piece) : Bytes :=
  match piece.key with
  | some key => List.ofFn key ++ mask key piece.payload
  | none => piece.payload

/-- The bytes of a frame. -/
def Piece.bytes (piece : Piece) (fin : Bool) (opcode : ℕ) : Bytes :=
  (fin.toNat * 128 + opcode).toUInt8
    :: (piece.key.isSome.toNat * 128 + piece.form.code piece.payload.length).toUInt8
    :: piece.form.bytes piece.payload.length ++ piece.body

@[simp]
theorem byteAt_cons_zero (byte : UInt8) (bytes : Bytes) :
  byteAt (byte :: bytes) 0 = byte.toNat
  := rfl

@[simp]
theorem byteAt_cons_succ (byte : UInt8) (bytes : Bytes) (index : ℕ) :
  byteAt (byte :: bytes) (index + 1) = byteAt bytes index
  := rfl

theorem toNat_toUInt8 (value : ℕ) :
  value.toUInt8.toNat = value % 256
  := by
  rw [Nat.toUInt8_eq, UInt8.toNat_ofNat']

/-- The bits of the first two bytes. -/
theorem flag_bits (flag : Bool) {low : ℕ} (lt : low < 128) :
  ((flag.toNat * 128 + low) &&& 0x80 ≠ 0 ↔ flag = true) ∧
    (flag.toNat * 128 + low) &&& 0x7F = low ∧
    (low < 16 → (flag.toNat * 128 + low) &&& 0x0F = low)
  := by
  have bits : ∀ (flag : Bool) (low : Fin 128),
      ((flag.toNat * 128 + low.val) &&& 0x80 ≠ 0 ↔ flag = true) ∧
        (flag.toNat * 128 + low.val) &&& 0x7F = low.val ∧
        (low.val < 16 → (flag.toNat * 128 + low.val) &&& 0x0F = low.val) := by
    decide
  apply bits flag ⟨low, lt⟩

theorem code_lt {form : Form} {length : ℕ} (fits : length < form.bound) :
  form.code length < 128
  := by
  cases form with
  | short =>
    rw [Form.code]
    rw [Form.bound] at fits
    omega
  | medium => exact Nat.lt_of_sub_eq_succ rfl
  | long => exact Nat.lt_succ_self 127

/-- One more byte at the end of a number. -/
theorem shiftLeft_or_byte (value : ℕ) {byte : ℕ} (lt : byte < 256) (bits : ℕ) :
  value <<< (bits + 8) ||| byte <<< bits = (value * 256 + byte) <<< bits
  := by
  have joined : value <<< 8 ||| byte = value * 256 + byte := by
    rw [← Nat.shiftLeft_add_eq_or_of_lt lt, Nat.shiftLeft_eq]
  rw [Nat.add_comm bits 8, Nat.shiftLeft_add, ← Nat.shiftLeft_or_distrib, joined]

/-- The length bytes are read back. -/
theorem lengthOf_bytes (first : UInt8) (masked : Bool) {form : Form} {length : ℕ}
    (fits : length < form.bound) (tail : Bytes) :
  lengthOf (first :: (masked.toNat * 128 + form.code length).toUInt8
      :: (form.bytes length ++ tail))
    = .known length (2 + (form.bytes length).length)
  := by
  have code := code_lt fits
  obtain ⟨_, low, _⟩ := flag_bits masked code
  have small : masked.toNat * 128 + form.code length < 256 := by
    cases masked <;> simp only [Bool.toNat_true, Bool.toNat_false] <;> omega
  rw [lengthOf, byteAt_cons_succ, byteAt_cons_zero, toNat_toUInt8, Nat.mod_eq_of_lt small, low]
  cases form with
  | short =>
    rw [Form.bound] at fits
    rw [Form.code, if_neg (by omega), if_neg (by omega)]
    rfl
  | medium =>
    rw [Form.bound] at fits
    rw [Form.code, if_pos rfl, if_neg, Form.bytes]
    · simp only [cons_append, byteAt_cons_succ, byteAt_cons_zero, toNat_toUInt8]
      rw [← Nat.shiftLeft_add_eq_or_of_lt (Nat.mod_lt _ (by decide)), Nat.shiftLeft_eq]
      congr 1
      omega
    · simp only [Form.bytes, length_cons, cons_append]
      omega
  | long =>
    rw [Form.bound] at fits
    have top : length / 2 ^ 24 < 128 := by omega
    obtain ⟨sign, _⟩ := flag_bits false top
    have zero : (length / 2 ^ 24 % 256 &&& 0x80 ≠ 0) ↔ False := by
      rw [Nat.mod_eq_of_lt (by omega)]
      rw [Bool.toNat_false, Nat.zero_mul, Nat.zero_add] at sign
      rw [sign]
      exact iff_of_false Bool.false_ne_true not_false
    have lt : ∀ value, value % 256 < 256 := fun value => Nat.mod_lt value (by decide)
    have last := shiftLeft_or_byte (((length / 2 ^ 24 % 256) * 256 + length / 2 ^ 16 % 256) * 256
      + length / 2 ^ 8 % 256) (lt length) 0
    rw [Form.code, if_neg (by decide), if_pos rfl, if_neg, if_neg, Form.bytes]
    · simp only [cons_append, byteAt_cons_succ, byteAt_cons_zero, toNat_toUInt8]
      rw [shiftLeft_or_byte _ (lt _) 16, shiftLeft_or_byte _ (lt _) 8]
      rw [Nat.shiftLeft_zero, Nat.shiftLeft_zero] at last
      rw [last]
      congr 1
      omega
    · simp only [Form.bytes, cons_append, byteAt_cons_succ, byteAt_cons_zero, toNat_toUInt8,
        zero]
      decide
    · simp only [Form.bytes, length_cons, cons_append]
      omega

theorem length_mask (key : Fin 4 → UInt8) (payload : Bytes) :
  (mask key payload).length = payload.length
  := length_mapIdx

/-- Masking twice by one key leaves the payload. -/
theorem unmask_mask {buffer : Bytes} {maskAt : ℕ} {key : Fin 4 → UInt8}
    (held : ∀ index : Fin 4, buffer.getD (maskAt + index) 0 = key index) (payload : Bytes) :
  unmask buffer maskAt (mask key payload) = payload
  := by
  apply ext_getElem
  · rw [unmask, length_mapIdx, length_mask]
  · intro index lt lt'
    have turn : index &&& 3 = index % 4 := Nat.and_two_pow_sub_one_eq_mod index 2
    have here := held ⟨index % 4, Nat.mod_lt index (by decide)⟩
    simp only [unmask, mask, getElem_mapIdx]
    rw [turn, here, UInt8.xor_assoc, UInt8.xor_self, UInt8.xor_zero]

/-- The payload behind the length bytes is read back. -/
theorem payloadOf_body {head : Bytes} {piece : Piece} {more : Bytes}
    (flag : masked (head ++ (piece.body ++ more)) = piece.key.isSome) :
  payloadAt (head ++ (piece.body ++ more)) head.length + piece.payload.length
      ≤ (head ++ (piece.body ++ more)).length ∧
    payloadOf (head ++ (piece.body ++ more)) head.length piece.payload.length = piece.payload ∧
    (head ++ (piece.body ++ more)).drop
      (payloadAt (head ++ (piece.body ++ more)) head.length + piece.payload.length) = more
  := by
  rw [payloadOf, payloadAt, flag]
  cases keyed : piece.key with
  | none =>
    have body : piece.body = piece.payload := by rw [Piece.body, keyed]
    rw [body, isSome_none, if_neg Bool.false_ne_true, if_neg Bool.false_ne_true,
      drop_left, take_left]
    refine ⟨?_, rfl, ?_⟩
    · simp only [length_append]
      omega
    · rw [← drop_drop, drop_left, drop_left]
  | some key =>
    have body : piece.body = List.ofFn key ++ mask key piece.payload := by
      rw [Piece.body, keyed]
    have four : (List.ofFn key).length = 4 := length_ofFn
    have held : ∀ index : Fin 4,
        (head ++ (List.ofFn key ++ mask key piece.payload ++ more)).getD (head.length + index) 0
          = key index := by
      intro index
      rw [getD_append_right _ _ _ _ (Nat.le_add_right _ _), Nat.add_sub_cancel_left,
        append_assoc, getD_append _ _ _ _ (by rw [four]; apply index.isLt),
        getD_eq_getElem _ _ (by rw [four]; apply index.isLt), List.getElem_ofFn]
    have whole := length_mask key piece.payload
    have payload : ((head ++ (List.ofFn key ++ mask key piece.payload ++ more)).drop
        (head.length + 4)).take piece.payload.length = mask key piece.payload := by
      rw [← drop_drop, drop_left, append_assoc, drop_left' four, take_left' whole]
    rw [body, isSome_some, if_pos rfl, if_pos rfl]
    refine ⟨?_, ?_, ?_⟩
    · simp only [length_append, four, whole]
      omega
    · rw [payload, unmask_mask held]
    · rw [← drop_drop, ← drop_drop, drop_left, append_assoc, drop_left' four, drop_left' whole]

/-- A frame at the front of a buffer is read back, whatever follows it. -/
theorem front_bytes (piece : Piece) (fin : Bool) {opcode : ℕ} (lt : opcode < 16) (more : Bytes) :
  front (piece.bytes fin opcode ++ more)
    = .frame { fin, opcode, payload := piece.payload } more
  := by
  have code := code_lt piece.fits
  obtain ⟨high, _⟩ := flag_bits piece.key.isSome code
  obtain ⟨fin_bit, _, opcode_bits⟩ := flag_bits fin (Nat.lt_trans lt (by decide : 16 < 128))
  have small : piece.key.isSome.toNat * 128 + piece.form.code piece.payload.length < 256 := by
    cases piece.key.isSome <;> simp only [Bool.toNat_true, Bool.toNat_false] <;> omega
  have small' : fin.toNat * 128 + opcode < 256 := by
    cases fin <;> simp only [Bool.toNat_true, Bool.toNat_false] <;> omega
  generalize first_eq : (fin.toNat * 128 + opcode).toUInt8 = first
  generalize second_eq : (piece.key.isSome.toNat * 128 + piece.form.code piece.payload.length).toUInt8
    = second
  have buffer_eq : piece.bytes fin opcode ++ more
      = first :: second :: (piece.form.bytes piece.payload.length ++ (piece.body ++ more)) := by
    rw [Piece.bytes, first_eq, second_eq, append_assoc]
    rfl
  have known := lengthOf_bytes first piece.key.isSome piece.fits (piece.body ++ more)
  rw [second_eq, ← buffer_eq] at known
  have fin_byte : byteAt (piece.bytes fin opcode ++ more) 0 = fin.toNat * 128 + opcode := by
    rw [buffer_eq, byteAt_cons_zero, ← first_eq, toNat_toUInt8, Nat.mod_eq_of_lt small']
  have masked_eq : masked (piece.bytes fin opcode ++ more) = piece.key.isSome := by
    rw [masked, buffer_eq, byteAt_cons_succ, byteAt_cons_zero, ← second_eq, toNat_toUInt8,
      Nat.mod_eq_of_lt small]
    exact Bool.eq_iff_iff.mpr (decide_eq_true_iff.trans high)
  have head_eq : piece.bytes fin opcode ++ more
      = (first :: second :: piece.form.bytes piece.payload.length) ++ (piece.body ++ more) :=
    buffer_eq
  have header : 2 + (piece.form.bytes piece.payload.length).length
      = (first :: second :: piece.form.bytes piece.payload.length).length := by
    rw [length_cons, length_cons]
    omega
  rw [header] at known
  have two : 2 ≤ (piece.bytes fin opcode ++ more).length := by
    rw [buffer_eq, length_cons, length_cons]
    omega
  rw [head_eq] at known masked_eq fin_byte two ⊢
  obtain ⟨whole, payload, rest⟩ := payloadOf_body masked_eq
  rw [front_of_known two known whole, payload, rest, fin_byte, opcode_bits lt]
  congr 2
  exact Bool.eq_iff_iff.mpr (decide_eq_true_iff.trans fin_bit)

/-! ### The frames written here -/

/-- A written frame is the frame of a piece. -/
theorem encodeFrame_eq {opcode : ℕ} (lt : opcode < 16) {payload : Bytes}
    (fits : payload.length < 2 ^ 31) :
  ∃ piece : Piece, piece.payload = payload ∧ encodeFrame opcode payload = piece.bytes true opcode
  := by
  have first : ∀ opcode : Fin 16,
      (0x80 ||| opcode.val).toUInt8 = (true.toNat * 128 + opcode.val).toUInt8 := by
    decide
  have first := first ⟨opcode, lt⟩
  rw [encodeFrame]
  by_cases short : payload.length < 126
  · use ⟨payload, none, .short, short⟩, rfl
    rw [if_pos short, first, Piece.bytes, Form.code, Form.bytes, Piece.body, isSome_none,
      Bool.toNat_false, Nat.zero_mul, Nat.zero_add]
    rfl
  · rw [if_neg short]
    by_cases medium : payload.length < 65536
    · use ⟨payload, none, .medium, medium⟩, rfl
      rw [if_pos medium, first, Piece.bytes, Form.code, Form.bytes, Piece.body, isSome_none,
        Nat.shiftRight_eq_div_pow]
      rfl
    · use ⟨payload, none, .long, fits⟩, rfl
      rw [if_neg medium, first, Piece.bytes, Form.code, Form.bytes, Piece.body, isSome_none,
        Nat.shiftRight_eq_div_pow, Nat.shiftRight_eq_div_pow, Nat.shiftRight_eq_div_pow]
      rfl

/-- A written frame is read back. -/
theorem front_encodeFrame {opcode : ℕ} (lt : opcode < 16) {payload : Bytes}
    (fits : payload.length < 2 ^ 31) (more : Bytes) :
  front (encodeFrame opcode payload ++ more) = .frame { fin := true, opcode, payload } more
  := by
  obtain ⟨piece, payload_eq, bytes⟩ := encodeFrame_eq lt fits
  rw [bytes, front_bytes piece true lt, payload_eq]

/-! ### Conversations -/

/-- A frame that is sent. -/
structure Sent where
  fin : Bool
  opcode : Fin 16
  piece : Piece

def Sent.bytes (sent : Sent) : Bytes :=
  sent.piece.bytes sent.fin sent.opcode

/-- The frame that a sent one is. -/
def Sent.frame (sent : Sent) : Frame where
  fin := sent.fin
  opcode := sent.opcode
  payload := sent.piece.payload

/-- The kinds of messages. -/
inductive Kind where
  | text
  | binary
  deriving DecidableEq, Repr

def Kind.opcode : Kind → Fin 16
  | text => 1
  | binary => 2

/-- The kinds of control frames. -/
inductive ControlKind where
  | close
  | ping
  | pong
  deriving DecidableEq, Repr

def ControlKind.opcode : ControlKind → Fin 16
  | close => 8
  | ping => 9
  | pong => 10

/-- A control frame. -/
structure Control where
  kind : ControlKind
  piece : Piece

/-- A message in one fragment or several, each but the first after some control frames. -/
structure Message where
  kind : Kind
  first : Piece
  rest : List (List Control × Piece)

/-- A control frame between messages, or a message. -/
inductive Item where
  | control (control : Control)
  | message (message : Message)

/-- What a peer sends, and the message it has not finished. -/
structure Conversation where
  items : List Item
  unfinished : Option Message

def Control.sent (control : Control) : Sent where
  fin := true
  opcode := control.kind.opcode
  piece := control.piece

/-- The frames of the fragments but the first; the last one is marked when the message is
finished. -/
def continued (finished : Bool) : List (List Control × Piece) → List Sent
  | [] => []
  | (controls, piece) :: rest =>
      controls.map Control.sent
        ++ { fin := finished && rest.isEmpty, opcode := 0, piece } :: continued finished rest

/-- The frames of a message. -/
def Message.sent (finished : Bool) (message : Message) : List Sent :=
  { fin := finished && message.rest.isEmpty, opcode := message.kind.opcode, piece := message.first }
    :: continued finished message.rest

def Item.sent : Item → List Sent
  | .control frame => [frame.sent]
  | .message whole => whole.sent true

/-- All the frames, in order. -/
def Conversation.sent (conversation : Conversation) : List Sent :=
  conversation.items.flatMap Item.sent
    ++ conversation.unfinished.elim [] (Message.sent false)

/-- All the bytes. -/
def Conversation.bytes (conversation : Conversation) : Bytes :=
  conversation.sent.flatMap Sent.bytes

/-- What a control frame should report. -/
def Control.reports (control : Control) : List Report :=
  match control.kind with
  | .close => [.closed]
  | .ping => [.ping control.piece.payload]
  | .pong => []

/-- What a message should report: the control frames inside it, then the whole of it. -/
def Message.reports (finished : Bool) (message : Message) : List Report :=
  (message.rest.flatMap fun part => part.1.flatMap Control.reports)
    ++ if finished then
        [.message message.kind.opcode
          (message.first.payload ++ message.rest.flatMap fun part => part.2.payload)]
      else []

def Item.reports : Item → List Report
  | .control frame => frame.reports
  | .message whole => whole.reports true

/-- The messages and pings sent, in order, and the closes. -/
def Conversation.reports (conversation : Conversation) : List Report :=
  conversation.items.flatMap Item.reports
    ++ conversation.unfinished.elim [] (Message.reports false)

/-- The reports up to and including the first close. -/
def upToClose : List Report → List Report
  | [] => []
  | .closed :: _ => [.closed]
  | report :: reports => report :: upToClose reports

/-! ### What the frames report -/

/-- What the parser reports on frames. -/
def reported (fragment : Fragment) : List Sent → List Report
  | [] => []
  | sent :: rest =>
      let done := dispatch sent.frame fragment
      done.reports ++ if done.violated then [] else reported done.fragment rest

/-- The parser reads the bytes of frames as the frames. -/
theorem scan_bytes (fragment : Fragment) (frames : List Sent) :
  (scanner.scan fragment (frames.flatMap Sent.bytes)).events.flatMap Turn.reports
    = reported fragment frames
  := by
  induction frames generalizing fragment with
  | nil =>
    rw [flatMap_nil, Scanner.scan_of_wait (scanner.nil fragment)]
    rfl
  | cons sent frames ih =>
    have found := front_bytes sent.piece sent.fin sent.opcode.isLt (frames.flatMap Sent.bytes)
    rw [flatMap_cons, reported, Sent.bytes]
    cases violated : (dispatch sent.frame fragment).violated with
    | true =>
      have next : scanner.next fragment
          (sent.piece.bytes sent.fin sent.opcode ++ frames.flatMap Sent.bytes)
            = .stop (dispatch sent.frame fragment).fragment
              [⟨some sent.frame, fragment, (dispatch sent.frame fragment).reports⟩]
              (frames.flatMap Sent.bytes) := by
        show turn _ _ = _
        rw [turn, found]
        dsimp only
        rw [← Sent.frame, violated, if_pos rfl]
      rw [Scanner.scan_of_stop next]
      rfl
    | false =>
      have next : scanner.next fragment
          (sent.piece.bytes sent.fin sent.opcode ++ frames.flatMap Sent.bytes)
            = .take (dispatch sent.frame fragment).fragment
              [⟨some sent.frame, fragment, (dispatch sent.frame fragment).reports⟩]
              (frames.flatMap Sent.bytes) := by
        show turn _ _ = _
        rw [turn, found]
        dsimp only
        rw [← Sent.frame, violated, if_neg Bool.false_ne_true]
      rw [Scanner.scan_of_take next, Scanner.Scan.after]
      dsimp only
      rw [flatMap_append, ih, if_neg Bool.false_ne_true]
      congr 1
      apply append_nil

/-- Reports, and what comes after them unless they close. -/
def upTo (reports after : List Report) : List Report :=
  if .closed ∈ reports then upToClose reports else reports ++ after

/-- A report other than a close, in front of others. -/
theorem upTo_cons {report : Report} (open_ : report ≠ .closed) (reports after : List Report) :
  upTo (report :: reports) after = report :: upTo reports after
  := by
  have head : upToClose (report :: reports) = report :: upToClose reports := by
    cases report with
    | closed => exact absurd rfl open_
    | message opcode payload => rfl
    | ping payload => rfl
  rw [upTo, upTo]
  by_cases closes : .closed ∈ reports
  · rw [if_pos (mem_cons_of_mem report closes), if_pos closes, head]
  · rw [if_neg, if_neg closes, cons_append]
    rw [mem_cons]
    rintro (same | mem)
    · exact open_ same.symm
    · exact closes mem

theorem upTo_closed (reports after : List Report) :
  upTo (.closed :: reports) after = [.closed]
  := by
  rw [upTo, if_pos mem_cons_self, upToClose]

theorem upToClose_append (reports more : List Report) :
  upToClose (reports ++ more) = upTo reports (upToClose more)
  := by
  induction reports with
  | nil => rfl
  | cons report reports ih =>
    cases report with
    | closed => rw [cons_append, upTo_closed, upToClose]
    | message opcode payload =>
      rw [upTo_cons Report.noConfusion, ← ih]
      rfl
    | ping payload =>
      rw [upTo_cons Report.noConfusion, ← ih]
      rfl

theorem upTo_append (reports more after : List Report) :
  upTo (reports ++ more) after = upTo reports (upTo more after)
  := by
  rw [upTo, upToClose_append, upTo, upTo]
  by_cases first : .closed ∈ reports
  · rw [if_pos (mem_append_left more first), if_pos first, if_pos first]
  · rw [if_neg first, if_neg first, upTo]
    by_cases second : .closed ∈ more
    · rw [if_pos (mem_append_right reports second), if_pos second]
    · rw [if_neg, if_neg second, append_assoc]
      rw [mem_append]
      rintro (mem | mem)
      · exact first mem
      · exact second mem

theorem reported_control (fragment : Fragment) (control : Control) (more : List Sent) :
  reported fragment (control.sent :: more) = upTo control.reports (reported fragment more)
  := by
  obtain ⟨kind, piece⟩ := control
  cases kind <;> rfl

theorem reported_controls (fragment : Fragment) (controls : List Control) (more : List Sent) :
  reported fragment (controls.map Control.sent ++ more)
    = upTo (controls.flatMap Control.reports) (reported fragment more)
  := by
  induction controls with
  | nil => rfl
  | cons control controls ih =>
    rw [map_cons, cons_append, reported_control, ih, flatMap_cons, upTo_append]

/-- A fragment after the first. -/
theorem dispatch_continuation {opcode : ℕ} (pending : opcode ≠ 0) (fin : Bool)
    (payload : Bytes) (piece : Piece) :
  dispatch (Sent.frame { fin, opcode := 0, piece }) ⟨opcode, payload⟩
    = if fin then ⟨[.message opcode (payload ++ piece.payload)], .none, false⟩
      else ⟨[], ⟨opcode, payload ++ piece.payload⟩, false⟩
  := by
  show (if opcode = 0 then _ else _ : Dispatched) = _
  rw [if_neg pending]
  rfl

/-- The fragments of a pending message: the last one of a finished message completes it, and an
unfinished message stays pending. -/
theorem reported_continued (finished : Bool) {opcode : ℕ} (pending : opcode ≠ 0) (payload : Bytes)
    {rest : List (List Control × Piece)} (some_ : rest ≠ []) (more : List Sent) :
  reported ⟨opcode, payload⟩ (continued finished rest ++ more)
    = upTo ((rest.flatMap fun part => part.1.flatMap Control.reports)
        ++ if finished then
            [.message opcode (payload ++ rest.flatMap fun part => part.2.payload)] else [])
      (reported (if finished then .none
        else ⟨opcode, payload ++ rest.flatMap fun part => part.2.payload⟩) more)
  := by
  induction rest generalizing payload with
  | nil => exact absurd rfl some_
  | cons part rest ih =>
    obtain ⟨controls, piece⟩ := part
    rw [continued, append_assoc, reported_controls, flatMap_cons, flatMap_cons,
      append_assoc, upTo_append]
    congr 1
    rw [cons_append, reported, dispatch_continuation pending]
    cases rest with
    | nil =>
      rw [flatMap_nil, flatMap_nil, append_nil, nil_append]
      cases finished with
      | true => rfl
      | false => rfl
    | cons part rest =>
      have ih := ih (payload ++ piece.payload) (cons_ne_nil part rest)
      rw [append_assoc] at ih
      rw [← ih]
      cases finished with
      | true => rfl
      | false => rfl

/-- The frames of a message: it is reported when it is finished, and pending otherwise. -/
theorem reported_message (finished : Bool) (message : Message) (more : List Sent) :
  ∃ fragment, (finished = true → fragment = .none) ∧
    reported .none (message.sent finished ++ more)
      = upTo (message.reports finished) (reported fragment more)
  := by
  obtain ⟨kind, first, rest⟩ := message
  have pending : (kind.opcode : ℕ) ≠ 0 := by cases kind <;> decide
  cases rest with
  | nil =>
    cases finished with
    | true =>
      use .none, fun _ => rfl
      rw [Message.reports, flatMap_nil, flatMap_nil, append_nil]
      cases kind <;> rfl
    | false =>
      use ⟨kind.opcode, first.payload⟩, fun absurd_ => Bool.noConfusion absurd_
      cases kind <;> rfl
  | cons part rest =>
    use if finished then .none
      else ⟨kind.opcode, first.payload ++ (part :: rest).flatMap fun part => part.2.payload⟩
    use fun done => if_pos done
    rw [Message.reports, ← reported_continued finished pending first.payload
      (cons_ne_nil part rest) more]
    cases finished <;> cases kind <;> rfl

/-- The frames of finished messages, and of control frames between them. -/
theorem reported_items (items : List Item) (more : List Sent) :
  reported .none (items.flatMap Item.sent ++ more)
    = upTo (items.flatMap Item.reports) (reported .none more)
  := by
  induction items with
  | nil => rfl
  | cons item items ih =>
    rw [flatMap_cons, flatMap_cons, append_assoc, upTo_append]
    cases item with
    | control control =>
      rw [Item.sent, Item.reports, singleton_append, reported_control, ih]
    | message message =>
      obtain ⟨fragment, finished, reports⟩ :=
        reported_message true message (items.flatMap Item.sent ++ more)
      rw [Item.sent, Item.reports, reports, finished rfl, ih]

/-- The parser reports what a conforming peer sent, up to its first close. -/
theorem reported_conversation (conversation : Conversation) :
  reported .none conversation.sent = upToClose conversation.reports
  := by
  rw [Conversation.sent, Conversation.reports, reported_items, upToClose_append]
  congr 1
  cases conversation.unfinished with
  | none => rfl
  | some message =>
    obtain ⟨fragment, _, reports⟩ := reported_message false message []
    have whole := upToClose_append (message.reports false) []
    rw [append_nil, upToClose] at whole
    rw [append_nil] at reports
    rw [elim_some, elim_some, reports, whole]
    rfl

/-! ### The parser does not see how the bytes arrived -/

/-- The bytes of a conversation, in any chunks, are read as they are read at once: as the messages
and pings that were sent, in order, up to and including the first close.  The frames written here
are read back as the frames they are. -/
theorem chunks_unseen {S : Type*} (decodeUtf8 : Bytes → S) (conversation : Conversation)
    {chunks : List Bytes} (cut : chunks.flatten = conversation.bytes) :
  (WsParser.new.feeds decodeUtf8 chunks).1
      = (WsParser.new.feed decodeUtf8 conversation.bytes).1 ∧
    (WsParser.new.feeds decodeUtf8 chunks).1
      = (upToClose conversation.reports).map (emit decodeUtf8) ∧
    ∀ opcode < 16, ∀ payload : Bytes, payload.length < 2 ^ 31 → ∀ more,
      front (encodeFrame opcode payload ++ more) = .frame { fin := true, opcode, payload } more
  := by
  have read : ∀ chunks : List Bytes, chunks.flatten = conversation.bytes →
      (WsParser.new.feeds decodeUtf8 chunks).1
        = (upToClose conversation.reports).map (emit decodeUtf8) := by
    intro chunks cut
    obtain ⟨turns, _⟩ := WsParser.turns_flatten chunks
    rw [WsParser.feeds_eq, turns, cut, Conversation.bytes, scan_bytes, reported_conversation]
  have whole := read [conversation.bytes] flatten_singleton
  rw [WsParser.feeds_singleton] at whole
  use (read chunks cut).trans whole.symm, read chunks cut
  intro opcode lt payload fits more
  apply front_encodeFrame lt fits

/-- A text in two fragments with a ping between them and then a close, fed byte by byte. -/
def greeting : Conversation where
  items := [
    .message {
      kind := .text
      first := ⟨[0x61], some fun index => index.val.toUInt8 + 7, .medium, by decide⟩
      rest := [([⟨.ping, ⟨[0x70], none, .short, by decide⟩⟩], ⟨[0x62], none, .long, by decide⟩)] },
    .control ⟨.close, ⟨[], none, .short, by decide⟩⟩]
  unfinished := none

theorem chunks_unseen_greeting :
  (WsParser.new.feeds (fun bytes : Bytes => bytes) (greeting.bytes.map List.singleton)).1
    = [.ping [0x70], .text [0x61, 0x62], .closed]
  := by
  have cut : (greeting.bytes.map List.singleton).flatten = greeting.bytes :=
    flatMap_singleton' greeting.bytes
  have read := (chunks_unseen (fun bytes : Bytes => bytes) greeting cut).2.1
  rw [read]
  decide

end Vilan.Ws
