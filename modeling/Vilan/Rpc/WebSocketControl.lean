import Vilan.Library.Utf8
import Vilan.Rpc.WebSocketKept

/-!
# Control frames

A control frame is final, and its payload takes at most 125 bytes.  A close frame carries its reason
cut at so many bytes, which is legal where the cut does not split a character; and a pong carries
the payload of the ping it answers, which the parser takes in any length.
-/

namespace Vilan.Ws

open List

/-- The answer to a ping. -/
def pongFrame (payload : Bytes) : Bytes :=
  encodeFrame 0xA payload

/-- A close frame carrying a status code and a reason. -/
def closeFrameWith (code : ℕ) (reason : List Char) : Bytes :=
  let head : Bytes := [((code >>> 8) &&& 0xFF).toUInt8, (code &&& 0xFF).toUInt8]
  let text := Utf8.encode reason
  let payload := if text.length > 123 then text.take 123 else text
  encodeFrame 0x8 (head ++ payload)

/-- A control frame as it stands in the stream, not masked. -/
structure ControlFrame (opcode : ℕ) (payload bytes : Bytes) : Prop where
  short : payload.length ≤ 125
  bytes_eq : bytes = (0x80 ||| opcode).toUInt8 :: payload.length.toUInt8 :: payload

/-- A close frame says its code and a prefix of its reason, which is the whole reason if it fits. -/
def ClosesLegally (code : ℕ) (reason : List Char) : Prop :=
  ∃ (high low : UInt8) (told : List Char),
    ControlFrame 0x8 (high :: low :: Utf8.encode told) (closeFrameWith code reason) ∧
      high.toNat * 256 + low.toNat = code ∧ told <+: reason ∧
      ((Utf8.encode reason).length ≤ 123 → told = reason)

/-- The pongs that answer the pings in a stream are control frames. -/
def PongsLegally {S : Type} (decodeUtf8 : Bytes → S) (chunks : List Bytes) : Prop :=
  ∀ payload, WsEvent.ping payload ∈ (WsParser.new.feeds decodeUtf8 chunks).1 →
    ControlFrame 0xA payload (pongFrame payload)

/-- The cut falls between two characters, or behind the last. -/
def CutsBetween (reason : List Char) : Prop :=
  ∃ told, told <+: reason ∧ (Utf8.encode told).length = min 123 (Utf8.encode reason).length

/-- The pings that the parser reads have the length of a control frame. -/
def PingsShort (chunks : List Bytes) : Prop :=
  ∀ turn ∈ (WsParser.new.turns chunks).1, ∀ frame, turn.frame = some frame → frame.opcode = 0x9 →
    frame.payload.length ≤ 125

variable {payload : Bytes} {reason told : List Char}

/-- A frame is written as a control frame exactly when its payload is short. -/
theorem controlFrame_iff {opcode : ℕ} :
  ControlFrame opcode payload (encodeFrame opcode payload) ↔ payload.length ≤ 125
  := by
  constructor
  · apply ControlFrame.short
  · intro short
    use short
    rw [encodeFrame, if_pos (Nat.lt_succ_of_le short)]
    rfl

/-! ### The reason of a close frame -/

/-- The bytes that are left of a reason. -/
theorem cut_eq (bytes : Bytes) :
  (if bytes.length > 123 then bytes.take 123 else bytes) = bytes.take (min 123 bytes.length)
  := by
  split
  next long => rw [min_eq_left long.le]
  next fits => rw [min_eq_right (not_lt.mp fits), take_length]

theorem encode_take (initial : told <+: reason)
    (length : (Utf8.encode told).length = min 123 (Utf8.encode reason).length) :
  (Utf8.encode reason).take (min 123 (Utf8.encode reason).length) = Utf8.encode told
  := by
  obtain ⟨rest, rfl⟩ := initial
  rw [← length, Utf8.encode_append, take_left]

/-- The bytes of a code spell it. -/
theorem code_bytes {code : ℕ} (lt : code < 65536) :
  ((code >>> 8) &&& 0xFF).toUInt8.toNat * 256 + (code &&& 0xFF).toUInt8.toNat = code
  := by
  have low : (code &&& 0xFF) = code % 256 := Nat.and_two_pow_sub_one_eq_mod code 8
  have high : (code >>> 8) &&& 0xFF = code / 256 % 256 := by
    rw [Nat.shiftRight_eq_div_pow]
    exact Nat.and_two_pow_sub_one_eq_mod _ 8
  rw [low, high, toNat_toUInt8, toNat_toUInt8]
  omega

theorem closesLegally_iff {code : ℕ} (lt : code < 65536) :
  ClosesLegally code reason ↔ CutsBetween reason
  := by
  have written : closeFrameWith code reason = encodeFrame 0x8
      (((code >>> 8) &&& 0xFF).toUInt8 :: (code &&& 0xFF).toUInt8 ::
        (Utf8.encode reason).take (min 123 (Utf8.encode reason).length)) := by
    rw [closeFrameWith, cut_eq]
    rfl
  have short : (((code >>> 8) &&& 0xFF).toUInt8 :: (code &&& 0xFF).toUInt8 ::
      (Utf8.encode reason).take (min 123 (Utf8.encode reason).length)).length ≤ 125 := by
    rw [length_cons, length_cons, length_take]
    omega
  obtain ⟨-, bytes_eq⟩ : ControlFrame 0x8 _ (closeFrameWith code reason) := by
    rw [written]
    exact controlFrame_iff.mpr short
  constructor
  · rintro ⟨high, low, told, ⟨-, told_eq⟩, -, initial, -⟩
    rw [bytes_eq] at told_eq
    simp only [List.cons.injEq] at told_eq
    use told, initial
    rw [← told_eq.2.2.2.2, length_take]
    omega
  · rintro ⟨told, initial, length⟩
    rw [encode_take initial length] at bytes_eq short
    refine ⟨_, _, told, ⟨short, bytes_eq⟩, code_bytes lt, initial, ?_⟩
    intro fits
    obtain ⟨rest, rfl⟩ := initial
    rw [min_eq_right fits] at length
    have whole : Utf8.encode told = Utf8.encode (told ++ rest) := by
      rw [← encode_take ⟨rest, rfl⟩ (by rw [min_eq_right fits, length]), min_eq_right fits,
        take_length]
    apply Utf8.encode_injective whole

/-! ### The pongs of a stream -/

theorem mem_dispatch_iff (frame : Frame) (fragment : Fragment) :
  Report.ping payload ∈ (dispatch frame fragment).reports ↔
    frame.opcode = 0x9 ∧ frame.payload = payload
  := by
  by_cases ping : frame.opcode = 0x9
  · rw [dispatch, if_pos ping]
    simp [ping, eq_comm]
  · have none : Report.ping payload ∉ (dispatch frame fragment).reports := by
      rw [dispatch, if_neg ping]
      repeat' split
      all_goals simp
    simp [ping, none]

/-- The pings of a run are the payloads of its ping frames. -/
theorem mem_reports_iff {fragment last : Fragment} {turns : List Turn}
    (reads : Reads fragment turns last) :
  Report.ping payload ∈ turns.flatMap Turn.reports ↔
    ∃ turn ∈ turns, ∃ frame, turn.frame = some frame ∧ frame.opcode = 0x9 ∧ frame.payload = payload
  := by
  induction reads with
  | idle fragment => simp
  | oversized fragment => simp
  | stop violated => simp [mem_dispatch_iff]
  | take running rest ih => simp [mem_dispatch_iff, ih]

theorem pongsLegally_iff {S : Type} (decodeUtf8 : Bytes → S) (chunks : List Bytes) :
  PongsLegally decodeUtf8 chunks ↔ PingsShort chunks
  := by
  have pings : ∀ payload, WsEvent.ping payload ∈ (WsParser.new.feeds decodeUtf8 chunks).1 ↔
      ∃ turn ∈ (WsParser.new.turns chunks).1, ∃ frame, turn.frame = some frame ∧
        frame.opcode = 0x9 ∧ frame.payload = payload := by
    intro payload
    rw [← mem_reports_iff (reads_turns chunks), WsParser.feeds_eq, List.mem_map]
    constructor
    · rintro ⟨report, mem, same⟩
      cases report with
      | message opcode payload =>
        rw [emit] at same
        split at same <;> cases same
      | ping payload =>
        cases same
        exact mem
      | closed => cases same
    · intro mem
      exact ⟨_, mem, rfl⟩
  constructor
  · intro legal turn mem frame held ping
    exact controlFrame_iff.mp (legal frame.payload ((pings _).mpr ⟨turn, mem, frame, held, ping, rfl⟩))
  · intro short payload reported
    obtain ⟨turn, mem, frame, held, ping, rfl⟩ := (pings payload).mp reported
    exact controlFrame_iff.mpr (short turn mem frame held ping)

/-! ### The control frames that are written -/

/-- The control frames written are legal exactly when the cut of a reason does not split a
character and no ping that the parser reads is longer than a control frame may be. -/
theorem controls_legal_iff {S : Type} (decodeUtf8 : Bytes → S) {code : ℕ} (lt : code < 65536)
    (reason : List Char) (chunks : List Bytes) :
  ClosesLegally code reason ∧ PongsLegally decodeUtf8 chunks ↔
    CutsBetween reason ∧ PingsShort chunks
  := and_congr (closesLegally_iff lt) (pongsLegally_iff decodeUtf8 chunks)

/-- The reason of a plain close is cut at its end, and without a ping there is no pong. -/
theorem controls_legal_plain :
  ClosesLegally 1000 [] ∧ PongsLegally id []
  := by
  rw [controls_legal_iff id (by decide)]
  constructor
  · use [], prefix_refl []
    rfl
  · intro turn mem
    cases mem

/-- A reason of characters of two bytes is cut within one. -/
theorem not_controls_legal_split :
  ¬ (ClosesLegally 1000 (List.replicate 62 'é') ∧ PongsLegally id [])
  := by
  have two : ∀ count, (Utf8.encode (List.replicate count 'é')).length = count * 2 := by
    intro count
    rw [Utf8.encode, length_flatMap, map_replicate, sum_replicate]
    rfl
  rw [closesLegally_iff (by decide)]
  rintro ⟨⟨told, initial, length⟩, _⟩
  obtain ⟨_, same⟩ := prefix_replicate_iff.mp initial
  rw [same, two, two] at length
  omega

end Vilan.Ws
