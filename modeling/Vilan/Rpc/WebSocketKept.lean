import Vilan.Rpc.WebSocketRuns

/-!
# What becomes of a payload

The payload of each data frame that is accepted is part of one message, or of the message that is
still pending.  A data frame that starts while a message is pending replaces that message, or is
delivered before it; and a control frame in fragments is taken for a whole one.
-/

namespace Vilan.Ws

open List

/-! ### Runs -/

/-- The turns from a pending message, and the message that is pending after them. -/
inductive Reads : Fragment → List Turn → Fragment → Prop where
  | idle (fragment : Fragment) : Reads fragment [] fragment
  | oversized (fragment : Fragment) : Reads fragment [⟨none, fragment, [.closed]⟩] fragment
  | stop {frame : Frame} {fragment : Fragment} (violated : (dispatch frame fragment).violated = true) :
      Reads fragment [⟨some frame, fragment, (dispatch frame fragment).reports⟩]
        (dispatch frame fragment).fragment
  | take {frame : Frame} {fragment last : Fragment} {turns : List Turn}
      (running : (dispatch frame fragment).violated = false)
      (rest : Reads (dispatch frame fragment).fragment turns last) :
      Reads fragment (⟨some frame, fragment, (dispatch frame fragment).reports⟩ :: turns) last

theorem reads_scan (fragment : Fragment) (buffer : Bytes) :
  Reads fragment (scanner.scan fragment buffer).events (scanner.scan fragment buffer).state
  := by
  induction h : buffer.length using Nat.strong_induction_on generalizing fragment buffer with
  | h _ ih =>
    subst h
    cases next : scanner.next fragment buffer with
    | wait =>
      rw [Scanner.scan_of_wait next]
      apply Reads.idle
    | take fragment' turns rest =>
      have later := ih rest.length (scanner.shorter next) fragment' rest rfl
      rw [Scanner.scan_of_take next]
      have taken : turn fragment buffer = .take fragment' turns rest := next
      rw [turn] at taken
      split at taken
      next => cases taken
      next => cases taken
      next frame rest' found =>
        dsimp only at taken
        split at taken
        next => cases taken
        next running =>
          cases taken
          apply Reads.take (Bool.eq_false_iff.mpr running) later
    | stop fragment' turns rest =>
      rw [Scanner.scan_of_stop next]
      have taken : turn fragment buffer = .stop fragment' turns rest := next
      rw [turn] at taken
      split at taken
      next => cases taken
      next oversized =>
        cases taken
        apply Reads.oversized
      next frame rest' found =>
        dsimp only at taken
        split at taken
        next violated =>
          cases taken
          apply Reads.stop violated
        next => cases taken

/-- The turns of a new parser, in any chunks. -/
theorem reads_turns (chunks : List Bytes) :
  Reads .none (WsParser.new.turns chunks).1 (WsParser.new.turns chunks).2.fragment
  := by
  obtain ⟨turns, fragment, _⟩ := WsParser.turns_flatten chunks
  rw [turns, fragment]
  apply reads_scan

/-! ### Payloads -/

/-- Text, binary or continuation. -/
def Frame.carries (frame : Frame) : Prop :=
  frame.opcode = 0x0 ∨ frame.opcode = 0x1 ∨ frame.opcode = 0x2

instance (frame : Frame) : Decidable frame.carries :=
  inferInstanceAs (Decidable (_ ∨ _ ∨ _))

/-- The payload of a message frame that is accepted: the turn does not end the connection. -/
def Turn.accepted (turn : Turn) : Option Bytes :=
  turn.frame.bind fun frame =>
    if frame.carries ∧ .closed ∉ turn.reports then some frame.payload else none

/-- The accepted payloads in the order of their arrival, each with its place in that order. -/
def arrived (turns : List Turn) : List (Bytes × ℕ) :=
  (turns.filterMap Turn.accepted).zipIdx

/-- The payload of a message. -/
def Report.payload? : Report → Option Bytes
  | .message _ payload => some payload
  | .ping _ => none
  | .closed => none

/-- The payloads of the messages, in order. -/
def delivered (turns : List Turn) : List Bytes :=
  (turns.flatMap Turn.reports).filterMap Report.payload?

/-- Each payload that has arrived is part of exactly one message or of the pending one, and the
parts of a message are in the order of their arrival. -/
def Kept (turns : List Turn) (pending : Bytes) : Prop :=
  ∃ (messages : List (List (Bytes × ℕ))) (fragments : List (Bytes × ℕ)),
    (messages.flatten ++ fragments).Perm (arrived turns) ∧
      (∀ parts ∈ fragments :: messages, parts.Sublist (arrived turns)) ∧
      messages.map (List.flatMap Prod.fst) = delivered turns ∧
      fragments.flatMap Prod.fst = pending

/-- A data frame that starts a message while another is pending. -/
def Turn.interrupts (turn : Turn) : Prop :=
  ∃ frame, turn.frame = some frame ∧ (frame.opcode = 0x1 ∨ frame.opcode = 0x2) ∧
    turn.before.opcode ≠ 0

/-- A control frame that is not the last of its message. -/
def Turn.splits (opcodes : List ℕ) (turn : Turn) : Prop :=
  ∃ frame, turn.frame = some frame ∧ frame.opcode ∈ opcodes ∧ frame.fin = false

/-- A new data frame while a message is pending ends the connection, and so does a control frame in
fragments. -/
def Guarded (turns : List Turn) : Prop :=
  ∀ turn ∈ turns, turn.interrupts ∨ turn.splits [0x8, 0x9, 0xA] → turn.reports = [.closed]

/-- The frame is neither a new data frame while a message is pending nor a ping or pong in
fragments. -/
def Turn.conforms (turn : Turn) : Prop :=
  ¬ turn.interrupts ∧ ¬ turn.splits [0x9, 0xA]

/-! ### What a dispatch does -/

/-- A frame that carries no message bytes, a continuation of nothing, a continuation of the pending
message, and a new data frame. -/
theorem dispatch_cases (frame : Frame) (fragment : Fragment) :
  (¬ frame.carries ∧ ∃ reports violated, dispatch frame fragment = ⟨reports, fragment, violated⟩ ∧
      reports.filterMap Report.payload? = []) ∨
    (dispatch frame fragment = ⟨[.closed], fragment, true⟩) ∨
    (frame.opcode = 0 ∧ fragment.opcode ≠ 0 ∧ dispatch frame fragment =
      if frame.fin then ⟨[.message fragment.opcode (fragment.payload ++ frame.payload)], .none, false⟩
      else ⟨[], ⟨fragment.opcode, fragment.payload ++ frame.payload⟩, false⟩) ∨
    ((frame.opcode = 1 ∨ frame.opcode = 2) ∧ dispatch frame fragment =
      if frame.fin then ⟨[.message frame.opcode frame.payload], fragment, false⟩
      else ⟨[], ⟨frame.opcode, frame.payload⟩, false⟩)
  := by
  rw [dispatch]
  by_cases ping : frame.opcode = 9
  · left
    rw [if_pos ping]
    refine ⟨?_, _, _, rfl, rfl⟩
    rw [Frame.carries]
    omega
  · rw [if_neg ping]
    by_cases pong : frame.opcode = 10
    · left
      rw [if_pos pong]
      refine ⟨?_, _, _, rfl, rfl⟩
      rw [Frame.carries]
      omega
    · rw [if_neg pong]
      by_cases close : frame.opcode = 8
      · rw [if_pos close]
        exact Or.inr (Or.inl rfl)
      · rw [if_neg close]
        by_cases continuation : frame.opcode = 0
        · rw [if_pos continuation]
          by_cases pending : fragment.opcode = 0
          · rw [if_pos pending]
            exact Or.inr (Or.inl rfl)
          · rw [if_neg pending]
            exact Or.inr (Or.inr (Or.inl ⟨continuation, pending, rfl⟩))
        · rw [if_neg continuation]
          by_cases data : frame.opcode = 1 ∨ frame.opcode = 2
          · rw [if_pos data]
            exact Or.inr (Or.inr (Or.inr ⟨data, rfl⟩))
          · rw [if_neg data]
            exact Or.inr (Or.inl rfl)

/-! ### Runs of frames that conform -/

/-- The parts of the pending message: there are none while none is pending. -/
structure Holds (fragment : Fragment) (parts : List (Bytes × ℕ)) : Prop where
  whole : parts.flatMap Prod.fst = fragment.payload
  idle : fragment.opcode = 0 → parts = []

/-- The parts that are held, and then those that arrive, make up the messages and what is pending
after them. -/
def Delivers (parts arrived : List (Bytes × ℕ)) (payloads : List Bytes) (last : Fragment) : Prop :=
  ∃ (messages : List (List (Bytes × ℕ))) (parts' : List (Bytes × ℕ)),
    messages.flatten ++ parts' = parts ++ arrived ∧
      messages.map (List.flatMap Prod.fst) = payloads ∧ Holds last parts'

variable {fragment last : Fragment} {parts : List (Bytes × ℕ)} {frame : Frame} {turns : List Turn}

theorem Holds.stays (held : Holds fragment parts) :
  Delivers parts [] [] fragment
  := by
  use [], parts, (append_nil parts).symm, rfl

theorem Delivers.append {arrived arrived' : List (Bytes × ℕ)} {payloads payloads' : List Bytes}
    {middle : Fragment} (first : Delivers parts arrived payloads middle)
    (next : ∀ parts', Holds middle parts' → Delivers parts' arrived' payloads' last) :
  Delivers parts (arrived ++ arrived') (payloads ++ payloads') last
  := by
  obtain ⟨messages, parts', split, emitted, held⟩ := first
  obtain ⟨messages', parts'', split', emitted', held'⟩ := next parts' held
  use messages ++ messages', parts''
  rw [flatten_append, append_assoc, split', ← append_assoc, split, append_assoc,
    map_append, emitted, emitted']
  use rfl, rfl

/-- What a turn does with the parts that are held, and with the one that arrives. -/
theorem delivers_dispatch {before : Fragment} (held : Holds before parts) (index : ℕ) {turn : Turn}
    (turn_eq : turn = ⟨some frame, before, (dispatch frame before).reports⟩)
    (conforms : turn.conforms) :
  Delivers parts (turn.accepted.toList.zipIdx index) (turn.reports.filterMap Report.payload?)
    (dispatch frame before).fragment
  := by
  subst turn_eq
  obtain ⟨refused, reports, violated, done, silent⟩ | done | ⟨opcode, pending, done⟩
    | ⟨opcode, done⟩ := dispatch_cases frame before
  · have accepted : Turn.accepted ⟨some frame, before, (dispatch frame before).reports⟩ = none :=
      if_neg fun both => refused both.1
    rw [accepted, done, silent]
    apply held.stays
  · have accepted : Turn.accepted ⟨some frame, before, (dispatch frame before).reports⟩ = none := by
      apply if_neg
      rw [done]
      rintro ⟨_, open_⟩
      exact open_ mem_cons_self
    rw [accepted, done]
    apply held.stays
  · have carries : frame.carries := Or.inl opcode
    have accepted : Turn.accepted ⟨some frame, before, (dispatch frame before).reports⟩
        = some frame.payload := by
      apply if_pos
      use carries
      rw [done]
      cases frame.fin <;> simp
    have whole : (parts ++ [(frame.payload, index)]).flatMap Prod.fst
        = before.payload ++ frame.payload := by
      rw [flatMap_append, held.whole]
      congr 1
      apply append_nil
    rw [accepted, done]
    cases frame.fin with
    | true =>
      use [parts ++ [(frame.payload, index)]], []
      refine ⟨?_, ?_, rfl, fun _ => rfl⟩
      · rw [append_nil, flatten_singleton]
        rfl
      · rw [map_singleton, whole]
        rfl
    | false =>
      use [], parts ++ [(frame.payload, index)]
      exact ⟨rfl, rfl, whole, fun idle => absurd idle pending⟩
  · have carries : frame.carries := Or.inr opcode
    have accepted : Turn.accepted ⟨some frame, before, (dispatch frame before).reports⟩
        = some frame.payload := by
      apply if_pos
      use carries
      rw [done]
      cases frame.fin <;> simp
    have idle : before.opcode = 0 := by
      by_contra pending
      exact conforms.1 ⟨frame, rfl, opcode, pending⟩
    have none_ := held.idle idle
    have payload := held.whole
    rw [none_] at payload
    have whole : [(frame.payload, index)].flatMap Prod.fst = frame.payload := append_nil _
    rw [accepted, done, none_]
    cases frame.fin with
    | true =>
      use [[(frame.payload, index)]], []
      refine ⟨rfl, ?_, payload, fun _ => rfl⟩
      rw [map_singleton, whole]
      rfl
    | false =>
      use [], [(frame.payload, index)]
      refine ⟨rfl, rfl, whole, ?_⟩
      intro absurd_
      have absurd_ : frame.opcode = 0 := absurd_
      omega

theorem delivers_run (reads : Reads fragment turns last) (conforms : ∀ turn ∈ turns, turn.conforms)
    (held : Holds fragment parts) (index : ℕ) :
  Delivers parts ((turns.filterMap Turn.accepted).zipIdx index) (delivered turns) last
  := by
  induction reads generalizing parts index with
  | idle fragment => apply held.stays
  | oversized fragment => apply held.stays
  | @stop frame fragment violated =>
    have here := delivers_dispatch held index rfl (conforms _ mem_cons_self)
    rw [filterMap_eq_flatMap_toList, delivered, flatMap_singleton, flatMap_singleton]
    apply here
  | @take frame fragment last turns running rest ih =>
    have here := delivers_dispatch held index rfl (conforms _ mem_cons_self)
    rw [filterMap_eq_flatMap_toList, delivered, flatMap_cons, flatMap_cons,
      zipIdx_append, filterMap_append]
    apply here.append
    intro parts' held'
    rw [← filterMap_eq_flatMap_toList]
    apply ih (fun turn mem => conforms turn (mem_cons_of_mem _ mem)) held'

/-- In a run of frames that conform, the payloads are kept. -/
theorem kept_of_conforms (reads : Reads .none turns last)
    (conforms : ∀ turn ∈ turns, turn.conforms) :
  Kept turns last.payload
  := by
  have fresh : Holds .none [] := ⟨rfl, fun _ => rfl⟩
  obtain ⟨messages, fragments, split, emitted, held⟩ := delivers_run reads conforms fresh 0
  rw [nil_append] at split
  use messages, fragments, List.Perm.of_eq split
  refine ⟨?_, emitted, held.whole⟩
  intro parts mem
  rw [arrived, ← split]
  obtain rfl | mem := mem_cons.mp mem
  · apply sublist_append_right
  · apply (sublist_flatten_of_mem mem).trans (sublist_append_left messages.flatten fragments)

/-! ### The guard -/

/-- What a turn reports is what the dispatch of its frame reports. -/
theorem reports_of_reads (reads : Reads fragment turns last) {turn : Turn} (mem : turn ∈ turns)
    (taken : turn.frame = some frame) :
  turn.reports = (dispatch frame turn.before).reports
  := by
  induction reads with
  | idle fragment => cases mem
  | oversized fragment =>
    rw [mem_singleton] at mem
    subst mem
    cases taken
  | stop violated =>
    rw [mem_singleton] at mem
    subst mem
    cases taken
    rfl
  | take running rest ih =>
    obtain rfl | mem := mem_cons.mp mem
    · cases taken
      rfl
    · apply ih mem

/-- No new data frame closes the connection, and neither does a ping or a pong. -/
theorem reports_ne_closed (fragment : Fragment)
    (opcode : frame.opcode = 0x1 ∨ frame.opcode = 0x2 ∨ frame.opcode = 0x9 ∨ frame.opcode = 0xA) :
  (dispatch frame fragment).reports ≠ [.closed]
  := by
  obtain opcode | opcode | opcode | opcode := opcode
  · rw [dispatch, opcode]
    cases frame.fin <;> simp
  · rw [dispatch, opcode]
    cases frame.fin <;> simp
  · rw [dispatch, if_pos opcode]
    simp
  · rw [dispatch, opcode]
    simp

/-- The guard holds of a turn just when nothing it should stop arrives. -/
theorem guarded_iff (reads : Reads .none turns last) :
  Guarded turns ↔ ∀ turn ∈ turns, turn.conforms
  := by
  constructor
  · intro guarded turn mem
    have guard := guarded turn mem
    constructor
    · rintro ⟨frame, taken, opcode, pending⟩
      have closed := guard (Or.inl ⟨frame, taken, opcode, pending⟩)
      rw [reports_of_reads reads mem taken] at closed
      exact reports_ne_closed _ (by omega) closed
    · rintro ⟨frame, taken, opcode, partly⟩
      have closed := guard (Or.inr ⟨frame, taken, mem_cons_of_mem _ opcode, partly⟩)
      rw [reports_of_reads reads mem taken] at closed
      rw [mem_cons, mem_singleton] at opcode
      exact reports_ne_closed _ (Or.inr (Or.inr opcode)) closed
  · rintro conforms turn mem (interrupts | ⟨frame, taken, opcode, partly⟩)
    · exact absurd interrupts (conforms turn mem).1
    · obtain close | opcode := mem_cons.mp opcode
      · rw [reports_of_reads reads mem taken, dispatch, close]
        rfl
      · exact absurd ⟨frame, taken, opcode, partly⟩ (conforms turn mem).2

/-- The events are what the turns of the parser report.  Each payload that is accepted is kept, and
what would replace or interleave the pending message ends the connection, just when nothing does so
and no ping or pong comes in fragments. -/
theorem payloads_kept_iff {S : Type*} (decodeUtf8 : Bytes → S) (chunks : List Bytes) :
  (WsParser.new.feeds decodeUtf8 chunks).1
      = ((WsParser.new.turns chunks).1.flatMap Turn.reports).map (emit decodeUtf8) ∧
    (WsParser.new.feeds decodeUtf8 chunks).2 = (WsParser.new.turns chunks).2 ∧
    (Kept (WsParser.new.turns chunks).1 (WsParser.new.turns chunks).2.fragment.payload ∧
        Guarded (WsParser.new.turns chunks).1 ↔
      ∀ turn ∈ (WsParser.new.turns chunks).1, turn.conforms)
  := by
  have reads := reads_turns chunks
  rw [WsParser.feeds_eq]
  refine ⟨rfl, rfl, ?_⟩
  rw [guarded_iff reads]
  constructor
  · rintro ⟨_, conforms⟩
    apply conforms
  · intro conforms
    use kept_of_conforms reads conforms

/-- A fragment that starts a message while another is pending: the first one is lost, and no event
tells. -/
theorem payloads_lost :
  ¬ Kept (WsParser.new.turns [[0x01, 1, 0x61], [0x01, 1, 0x62], [0x80, 1, 0x63]]).1
      (WsParser.new.turns [[0x01, 1, 0x61], [0x01, 1, 0x62], [0x80, 1, 0x63]]).2.fragment.payload ∧
    (WsParser.new.feeds (fun bytes : Bytes => bytes)
      [[0x01, 1, 0x61], [0x01, 1, 0x62], [0x80, 1, 0x63]]).1 = [.text [0x62, 0x63]]
  := by
  constructor
  · rintro ⟨messages, fragments, parts, _, emitted, pending⟩
    have three : arrived (WsParser.new.turns [[0x01, 1, 0x61], [0x01, 1, 0x62], [0x80, 1, 0x63]]).1
        = [([0x61], 0), ([0x62], 1), ([0x63], 2)] := by decide
    have two : delivered (WsParser.new.turns [[0x01, 1, 0x61], [0x01, 1, 0x62], [0x80, 1, 0x63]]).1
        = [[0x62, 0x63]] := by decide
    have none_ : (WsParser.new.turns
        [[0x01, 1, 0x61], [0x01, 1, 0x62], [0x80, 1, 0x63]]).2.fragment.payload = [] := by decide
    have emitted_bytes : messages.flatten.flatMap Prod.fst
        = (messages.map (List.flatMap Prod.fst)).flatten := by
      rw [← flatMap_def, ← flatMap_id, flatMap_assoc]
      rfl
    have bytes := (parts.flatMap_right Prod.fst).length_eq
    rw [three, flatMap_append, emitted_bytes, emitted, two, pending, none_] at bytes
    cases bytes
  · decide

end Vilan.Ws
