import Vilan.Library.Utf8Chunks
import Vilan.Rpc.SplitDuplex

/-!
# What an event stream dispatches

The frames of a stream are dispatched in order, however the stream is cut, as long as each chunk
decodes on its own and no frame that reads as an announcement ends in the chunk of the announcement.
-/

namespace Vilan.Sse

open List Utf8 Search

/-! ### Events -/

/-- A frame that fits on one line. -/
def OneLine (frame : Str) : Prop :=
  '\n' ∉ frame

theorem blankLine_ne : blankLine ≠ [] := by decide

theorem lineFeed_ne : lineFeed ≠ [] := by decide

/-- The parts of a text that events are split off. -/
def parts (text : Str) : List Str :=
  Search.split blankLine text

/-- The complete events of a text. -/
def complete (text : Str) : List Str :=
  (parts text).dropLast

/-- The text of the event that is not complete. -/
def remainder (text : Str) : Str :=
  (parts text).getLast (split_ne_nil blankLine_ne text)

theorem parts_ne_nil (text : Str) : parts text ≠ [] :=
  split_ne_nil blankLine_ne text

theorem parts_eq (text : Str) : parts text = complete text ++ [remainder text] :=
  (dropLast_append_getLast _).symm

theorem parts_append (text more : Str) :
  parts (text ++ more) = complete text ++ parts (remainder text ++ more)
  := split_append blankLine_ne text more

theorem complete_append (text more : Str) :
  complete (text ++ more) = complete text ++ complete (remainder text ++ more)
  := by
  rw [complete, parts_append, dropLast_append_of_ne_nil (parts_ne_nil _)]
  rfl

theorem remainder_append (text more : Str) :
  remainder (text ++ more) = remainder (remainder text ++ more)
  := by
  have whole := parts_eq (text ++ more)
  rw [parts_append, parts_eq (remainder text ++ more), ← append_assoc] at whole
  have last := congrArg List.getLast? whole
  rw [getLast?_concat, getLast?_concat, Option.some_inj] at last
  apply last.symm

variable {text frame : Str} {σ : Type}

theorem parts_of_no_blank (none_ : ∀ i, ¬ blankLine <+: text.drop i) :
  parts text = [text]
  := by
  apply split_of_cut_none
  rw [cut_eq_none_iff, find_eq_none_iff blankLine_ne]
  apply none_

/-- Two line feeds in a row are two of them. -/
theorem not_blank_of_count (count : text.count '\n' ≤ 1) (i : ℕ) :
  ¬ blankLine <+: text.drop i
  := by
  intro occurs
  have le := occurs.sublist.count_le '\n'
  have le' := (drop_sublist i text).count_le '\n'
  have two : blankLine.count '\n' = 2 := rfl
  omega

theorem oneLine_data (one : OneLine frame) : OneLine (dataField ++ frame) := by
  rw [OneLine, mem_append]
  rintro (mem | mem)
  · simp [dataField] at mem
  · apply one mem

/-- A line starts no blank line inside. -/
theorem not_blank_inside (one : OneLine text) (more : Str) {i : ℕ} (lt : i < text.length) :
  ¬ blankLine <+: (text ++ more).drop i
  := by
  rw [drop_append_of_le_length (le_of_lt lt), drop_eq_getElem_cons lt]
  intro occurs
  have first : '\n' = text[i] := (cons_prefix_cons.mp occurs).1
  apply one
  rw [first]
  apply getElem_mem

/-- An event is complete when all of it is there. -/
theorem parts_event (one : OneLine frame) (more : Str) :
  parts (event frame ++ more) = (dataField ++ frame) :: parts more
  := by
  apply split_of_cut_some blankLine_ne
  rw [cut_eq_some_iff]
  have same : event frame ++ more = (dataField ++ frame) ++ (blankLine ++ more) := by simp [event]
  constructor
  · apply same
  · intro i lt
    rw [same]
    apply not_blank_inside (oneLine_data one) _ lt

theorem parts_nil : parts [] = [[]] := by
  apply parts_of_no_blank
  intro i
  apply not_blank_of_count (by decide)

/-- An event of which something is missing is not complete. -/
theorem parts_of_part (one : OneLine frame) (part : text <+: event frame)
    (ne : text ≠ event frame) :
  parts text = [text]
  := by
  apply parts_of_no_blank
  apply not_blank_of_count
  have shorter : text <+: dataField ++ (frame ++ ['\n']) := by
    have whole : event frame = (dataField ++ (frame ++ ['\n'])) ++ ['\n'] := by
      simp [event, blankLine]
    rw [whole, prefix_concat_iff] at part
    rcases part with rfl | part
    · apply absurd whole.symm ne
    · apply part
  apply le_trans (shorter.sublist.count_le '\n')
  have none_ : (dataField ++ frame).count '\n' = 0 := count_eq_zero_of_not_mem (oneLine_data one)
  rw [← append_assoc, count_append, none_]
  decide

/-- The frames of a stream that have arrived whole with a part of its text. -/
structure Arrived (frames : List Str) (text : Str) (sent : List Str) : Prop where
  part : sent <+: frames
  complete_eq : complete text = sent.map (dataField ++ ·)
  most : ∀ other, other <+: frames →
    ((other.flatMap event).length ≤ text.length ↔ other.length ≤ sent.length)

/-- The complete events of a part of a stream are those that fit in it. -/
theorem exists_arrived {frames : List Str} (one : ∀ frame ∈ frames, OneLine frame)
    (part : text <+: frames.flatMap event) :
  ∃ sent, Arrived frames text sent
  := by
  induction frames generalizing text with
  | nil =>
    have nil : text = [] := prefix_nil.mp part
    refine ⟨[], nil_prefix, ?_, ?_⟩
    · rw [nil, complete, parts_nil]
      rfl
    · intro other other_part
      rw [prefix_nil.mp other_part]
      simp
  | cons frame frames ih =>
    have one_frame := one frame (mem_cons_self ..)
    rw [flatMap_cons] at part
    by_cases fits : event frame <+: text
    · obtain ⟨rest, rfl⟩ := fits
      rw [prefix_append_right_inj] at part
      obtain ⟨sent, ⟨sent_part, complete_eq, most⟩⟩ :=
        ih (fun frame mem => one frame (mem_cons_of_mem _ mem)) part
      refine ⟨frame :: sent, ?_, ?_, ?_⟩
      · rw [cons_prefix_cons]
        exact ⟨rfl, sent_part⟩
      · rw [complete, parts_event one_frame, dropLast_cons_of_ne_nil (parts_ne_nil rest)]
        rw [complete] at complete_eq
        rw [complete_eq, map_cons]
      · intro other other_part
        cases other with
        | nil => simp
        | cons first other =>
          obtain ⟨rfl, other_part'⟩ := cons_prefix_cons.mp other_part
          have most := most other other_part'
          simp only [flatMap_cons, length_append, length_cons]
          omega
    · have inside : text <+: event frame := by
        rcases prefix_or_prefix_of_prefix part (prefix_append _ _) with inside | inside
        · apply inside
        · apply absurd inside fits
      have shorter : text.length < (event frame).length := by
        by_contra le
        apply fits
        rw [inside.eq_of_length_le (Nat.le_of_not_lt le)]
      refine ⟨[], nil_prefix, ?_, ?_⟩
      · rw [complete, parts_of_part one_frame inside]
        · rfl
        · rintro rfl
          apply lt_irrefl _ shorter
      · intro other other_part
        cases other with
        | nil => simp
        | cons first other =>
          obtain ⟨rfl, -⟩ := cons_prefix_cons.mp other_part
          simp only [flatMap_cons, length_append, length_cons, length_nil]
          omega

/-! ### Draining -/

/-- An event of one line dispatches the frame. -/
theorem drainLines_data (one : OneLine frame) (dispatch : Str → σ → σ) (state : σ) :
  drainLines (dataField ++ frame) dispatch state = dispatch frame state
  := by
  have single : Search.split lineFeed (dataField ++ frame) = [dataField ++ frame] := by
    apply split_of_cut_none
    rw [cut_eq_none_iff, find_eq_none_iff lineFeed_ne]
    intro i occurs
    apply oneLine_data one
    apply mem_of_mem_drop (occurs.subset _)
    apply mem_singleton_self
  rw [drainLines, single, foldl_cons, foldl_nil, if_pos (prefix_append _ _)]
  rfl

theorem drainParts_concat (dispatch : Str → σ → σ) (events : List Str) (last : Str) (state : σ) :
  drainParts dispatch (events ++ [last]) state =
    (last, events.foldl (fun state part => drainLines part dispatch state) state)
  := by
  induction events generalizing state with
  | nil => rfl
  | cons part events ih =>
    cases events with
    | nil => rfl
    | cons next events =>
      rw [cons_append, cons_append, drainParts, ← cons_append, ih]
      · rfl
      · simp

/-- A buffer dispatches the frames that are complete in it. -/
theorem drainSse_eq {buffer : Str} {frames : List Str} (one : ∀ frame ∈ frames, OneLine frame)
    (complete_eq : complete buffer = frames.map (dataField ++ ·)) (dispatch : Str → σ → σ)
    (state : σ) :
  drainSse buffer dispatch state =
    (remainder buffer, frames.foldl (fun state frame => dispatch frame state) state)
  := by
  change drainParts dispatch (parts buffer) state = _
  rw [parts_eq, drainParts_concat, complete_eq, foldl_map]
  congr 1
  apply foldl_ext
  intro state frame mem
  apply drainLines_data (one frame mem)

namespace Split

/-- No frame waits once there is a handler. -/
def Ordered (split : Split) : Prop :=
  split.inbound ≠ none → split.early = []

variable {split : Split}

theorem dispatched_dispatch (ordered : split.Ordered) (frame : Str) :
  (split.dispatch frame).dispatched = split.dispatched ++ [frame]
  := by
  rw [dispatch]
  cases inbound : split.inbound with
  | none => simp [dispatched]
  | some handler =>
    have none_ : split.early = [] := ordered (by simp [inbound])
    simp [dispatched, none_]

theorem Ordered.dispatch (ordered : split.Ordered) (frame : Str) :
  (split.dispatch frame).Ordered
  := by
  rw [Split.dispatch]
  cases inbound : split.inbound with
  | none =>
    intro some_
    simp at some_
  | some handler =>
    intro _
    apply ordered
    simp [inbound]

theorem Ordered.handshake (ordered : split.Ordered) (frame : Str) :
  (split.handshake frame).Ordered
  := by
  rw [Split.handshake]
  split
  · apply ordered
  · apply ordered.dispatch

@[simp]
theorem connection_dispatch (split : Split) (frame : Str) :
  (split.dispatch frame).connection = split.connection
  := by
  rw [dispatch]
  split
  · rfl
  · rfl

/-- The pump dispatches every frame. -/
theorem foldl_dispatch (ordered : split.Ordered) (frames : List Str) :
  (frames.foldl (fun split frame => split.dispatch frame) split).Ordered ∧
    (frames.foldl (fun split frame => split.dispatch frame) split).connection = split.connection ∧
      (frames.foldl (fun split frame => split.dispatch frame) split).dispatched =
        split.dispatched ++ frames
  := by
  induction frames generalizing split with
  | nil =>
    use ordered, rfl
    rw [append_nil]
    rfl
  | cons frame frames ih =>
    obtain ⟨ordered', connection_eq, dispatched_eq⟩ := ih (ordered.dispatch frame)
    use ordered'
    rw [foldl_cons, connection_eq, dispatched_eq, dispatched_dispatch ordered,
      connection_dispatch, append_assoc]
    exact ⟨rfl, rfl⟩

/-- The handshake dispatches the frames that do not read as announcements. -/
theorem foldl_handshake (ordered : split.Ordered) (frames : List Str) :
  (frames.foldl (fun split frame => split.handshake frame) split).Ordered ∧
    (frames.foldl (fun split frame => split.handshake frame) split).dispatched =
      split.dispatched ++ frames.filter fun frame => ¬ connField <+: frame
  := by
  induction frames generalizing split with
  | nil =>
    use ordered
    rw [filter_nil, append_nil]
    rfl
  | cons frame frames ih =>
    obtain ⟨ordered', dispatched_eq⟩ := ih (ordered.handshake frame)
    use ordered'
    rw [foldl_cons, dispatched_eq, handshake]
    split
    next conn =>
      rw [filter_cons_of_neg (by simpa using conn)]
      rfl
    next conn =>
      rw [filter_cons_of_pos (by simpa using conn), dispatched_dispatch ordered, append_assoc]
      rfl

/-- The announced connection stays when no frame reads as an announcement. -/
theorem connection_foldl_handshake (split : Split) {frames : List Str}
    (none_ : ∀ frame ∈ frames, ¬ connField <+: frame) :
  (frames.foldl (fun split frame => split.handshake frame) split).connection = split.connection
  := by
  induction frames generalizing split with
  | nil => rfl
  | cons frame frames ih =>
    rw [foldl_cons, ih _ fun frame mem => none_ frame (mem_cons_of_mem _ mem), handshake,
      if_neg (none_ frame (mem_cons_self ..)), connection_dispatch]

/-- What a chunk does, by the frames that it completes. -/
theorem readChunk_eq {payload : Bytes} {frames : List Str} (one : ∀ frame ∈ frames, OneLine frame)
    (complete_eq : complete (split.buffer ++ decode payload) = frames.map (dataField ++ ·)) :
  split.readChunk payload =
    { (if split.connection = [] then
        frames.foldl (fun split frame => split.handshake frame) split
      else frames.foldl (fun split frame => split.dispatch frame) split) with
      buffer := remainder (split.buffer ++ decode payload) }
  := by
  rw [readChunk]
  by_cases waits : split.connection = []
  · simp only [if_pos waits, drainSse_eq one complete_eq]
  · simp only [if_neg waits, drainSse_eq one complete_eq]

end Split

end Vilan.Sse
