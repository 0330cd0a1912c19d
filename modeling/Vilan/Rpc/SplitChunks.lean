import Mathlib.Data.Bool.AllAny
import Vilan.Rpc.SplitRuns

/-!
# Event streams in chunks

Every frame is dispatched, in order and unchanged, exactly when each chunk decodes on its own and no
frame that reads as an announcement ends in the chunk that the announcement itself ends in.
-/

namespace Vilan.Sse

open List Utf8

/-- A frame that reads as an announcement ends in the text that the announcement ends in. -/
def OvertakenText (first : Str) (frames texts : List Str) : Prop :=
  ∃ before text behind sent frame later,
    texts = before ++ text :: behind ∧ frames = sent ++ frame :: later ∧ connField <+: frame ∧
      before.flatten.length < (event first).length ∧
        ((first :: sent ++ [frame]).flatMap event).length ≤ (before.flatten ++ text).length

section Texts

variable {first : Str} {frames texts : List Str}

theorem data_injective : Function.Injective fun frame : Str => dataField ++ frame :=
  fun _ _ same => append_cancel_left same

variable {sent : List Str} {text : Str}

theorem Arrived.unique {sent' : List Str} (arrived : Arrived frames text sent)
    (arrived' : Arrived frames text sent') :
  sent = sent'
  := by
  have le := (arrived'.most sent arrived.part).mp ((arrived.most sent arrived.part).mpr (le_refl _))
  have le' := (arrived.most sent' arrived'.part).mp ((arrived'.most sent' arrived'.part).mpr (le_refl _))
  apply List.IsPrefix.eq_of_length _ (le_antisymm le le')
  rcases prefix_or_prefix_of_prefix arrived.part arrived'.part with part | part
  · apply part
  · rw [part.eq_of_length_le le]

/-- More of a stream brings the frames that are completed by it. -/
theorem Arrived.append {more : Str} {sent' : List Str} (arrived : Arrived frames text sent)
    (arrived' : Arrived frames (text ++ more) sent') :
  ∃ group, sent' = sent ++ group ∧
    complete (remainder text ++ more) = group.map (dataField ++ ·)
  := by
  have whole := arrived'.complete_eq
  rw [complete_append, arrived.complete_eq] at whole
  obtain ⟨sent'', group, rfl, same, group_eq⟩ := map_eq_append_iff.mp whole.symm
  use group
  rw [map_injective_iff.mpr data_injective same]
  exact ⟨rfl, group_eq.symm⟩

/-- The announcement has arrived when its event fits. -/
theorem Arrived.first_fits_iff (arrived : Arrived (first :: frames) text sent) :
  (event first).length ≤ text.length ↔ sent ≠ []
  := by
  have most := arrived.most [first] (by simp)
  rw [flatMap_cons, flatMap_nil, append_nil] at most
  rw [most, length_singleton, Nat.one_le_iff_ne_zero, ne_eq, length_eq_zero_iff]

/-- The last text of some texts, or one before. -/
theorem concat_eq_append_cons {texts before behind : List Str} {text' : Str}
    (parts : texts ++ [text'] = before ++ text :: behind) :
  behind = [] ∧ before = texts ∧ text = text' ∨
    ∃ behind', behind = behind' ++ [text'] ∧ texts = before ++ text :: behind'
  := by
  obtain rfl | ⟨behind', last, rfl⟩ := eq_nil_or_concat behind
  · obtain ⟨rfl, same⟩ := append_inj' parts rfl
    cases same
    exact Or.inl ⟨rfl, rfl, rfl⟩
  · rw [concat_eq_append] at parts ⊢
    rw [← cons_append, ← append_assoc] at parts
    obtain ⟨rfl, same⟩ := append_inj' parts rfl
    cases same
    exact Or.inr ⟨behind', rfl, rfl⟩

/-- What fits in a text of some texts fits in all of them. -/
theorem length_le_flatten {before behind : List Str} (texts_eq : texts = before ++ text :: behind) :
  (before.flatten ++ text).length ≤ texts.flatten.length
  := by
  rw [texts_eq, flatten_append, flatten_cons]
  simp only [length_append]
  omega

theorem length_event_first_le (sent : List Str) :
  (event first).length ≤ ((first :: sent).flatMap event).length
  := by
  rw [flatMap_cons, length_append]
  omega

/-- What overtakes is in the text in which the announcement arrives. -/
theorem overtaken_arriving_iff {group : List Str}
    (quiet : Arrived (first :: frames) texts.flatten [])
    (arrives : Arrived (first :: frames) (texts ++ [text]).flatten (first :: group)) :
  OvertakenText first frames (texts ++ [text]) ↔ ∃ frame ∈ group, connField <+: frame
  := by
  have group_part : group <+: frames := (cons_prefix_cons.mp arrives.part).2
  have flatten_eq : (texts ++ [text]).flatten = texts.flatten ++ text := by simp
  constructor
  · rintro ⟨before, text', behind, sent, frame, later, texts_eq, frames_eq, conn, early, fits⟩
    obtain ⟨rfl, rfl, rfl⟩ | ⟨behind', rfl, earlier⟩ := concat_eq_append_cons texts_eq
    · rw [← flatten_eq] at fits
      have part : sent ++ [frame] <+: frames := by
        use later
        rw [frames_eq, append_assoc, singleton_append]
      have le := (arrives.most (first :: sent ++ [frame]) (by simpa using part)).mp fits
      simp only [cons_append, length_cons, Nat.add_le_add_iff_right] at le
      have inside := prefix_of_prefix_length_le part group_part le
      refine ⟨frame, inside.subset ?_, conn⟩
      apply mem_append_right _ (mem_singleton_self frame)
    · exfalso
      apply quiet.first_fits_iff.mp _ rfl
      apply le_trans (length_event_first_le (sent ++ [frame]))
      apply le_trans fits (length_le_flatten earlier)
  · rintro ⟨frame, mem, conn⟩
    obtain ⟨sent, behind, rfl⟩ := append_of_mem mem
    obtain ⟨later, rfl⟩ := group_part
    refine ⟨texts, text, [], sent, frame, behind ++ later, rfl, by simp, conn, ?_, ?_⟩
    · by_contra fits
      apply quiet.first_fits_iff.mp (Nat.le_of_not_lt fits) rfl
    · rw [← flatten_eq]
      apply (arrives.most _ _).mpr
      · simp
      · simp

/-- Nothing more overtakes an announcement that has arrived. -/
theorem overtaken_arrived_iff (arrived : Arrived (first :: frames) texts.flatten (first :: sent)) :
  OvertakenText first frames (texts ++ [text]) ↔ OvertakenText first frames texts
  := by
  constructor
  · rintro ⟨before, text', behind, sent, frame, later, texts_eq, rest⟩
    obtain ⟨rfl, rfl, rfl⟩ | ⟨behind', rfl, earlier⟩ := concat_eq_append_cons texts_eq
    · exfalso
      have fits := arrived.first_fits_iff.mpr (by simp)
      have early := rest.2.2.1
      omega
    · exact ⟨before, text', behind', sent, frame, later, earlier, rest⟩
  · rintro ⟨before, text', behind, sent, frame, later, rfl, rest⟩
    exact ⟨before, text', behind ++ [text], sent, frame, later, by simp, rest⟩

end Texts

/-- What holds of a connection after some texts. -/
structure Stands (first : Str) (frames texts : List Str) (split : Split) : Prop where
  ordered : split.Ordered
  buffer_eq : split.buffer = remainder texts.flatten
  quiet : Arrived (first :: frames) texts.flatten [] → split.connection = [] ∧ split.dispatched = []
  follows : ∀ sent, Arrived (first :: frames) texts.flatten (first :: sent) →
    (¬ OvertakenText first frames texts → split.connection ≠ [] ∧ split.dispatched = sent) ∧
      (OvertakenText first frames texts → split.dispatched.length < sent.length)

section Run

variable {first : Str} {frames texts : List Str} {split : Split}

theorem Stands.onFrame (stands : Stands first frames texts split) (handler : ℕ) :
  Stands first frames texts (split.onFrame handler)
  := by
  have same : (split.onFrame handler).dispatched = split.dispatched := by
    simp [Split.onFrame, Split.dispatched, Function.comp_def]
  constructor
  · intro _
    rfl
  · apply stands.buffer_eq
  · rw [same]
    apply stands.quiet
  · rw [same]
    apply stands.follows

/-- A chunk that decodes as the next text of the stream. -/
theorem Stands.readChunk (stands : Stands first frames texts split) (announces : connField <+: first)
    (some_ : first.drop 7 ≠ []) (one : ∀ frame ∈ first :: frames, OneLine frame) (payload : Bytes)
    (part : (texts ++ [decode payload]).flatten <+: (first :: frames).flatMap event) :
  Stands first frames (texts ++ [decode payload]) (split.readChunk payload)
  := by
  have flatten_eq : (texts ++ [decode payload]).flatten = texts.flatten ++ decode payload := by simp
  have part' : texts.flatten <+: (first :: frames).flatMap event := by
    rw [flatten_eq] at part
    apply (prefix_append _ _).trans part
  obtain ⟨sent, arrived⟩ := exists_arrived one part'
  obtain ⟨sent', arrived'⟩ := exists_arrived one part
  have arrived'' := arrived'
  rw [flatten_eq] at arrived''
  obtain ⟨group, rfl, complete_eq⟩ := arrived.append arrived''
  rw [← stands.buffer_eq] at complete_eq
  have one_group : ∀ frame ∈ group, OneLine frame := by
    intro frame mem
    apply one frame (arrived'.part.subset (mem_append_right _ mem))
  have buffer_eq : remainder (split.buffer ++ decode payload) =
      remainder (texts ++ [decode payload]).flatten := by
    rw [flatten_eq, stands.buffer_eq, ← remainder_append]
  rw [Split.readChunk_eq one_group complete_eq, buffer_eq]
  obtain ⟨ordered_handshake, dispatched_handshake⟩ := Split.foldl_handshake stands.ordered group
  obtain ⟨ordered_dispatch, connection_dispatch, dispatched_dispatch⟩ :=
    Split.foldl_dispatch stands.ordered group
  cases sent with
  | nil =>
    obtain ⟨connection_eq, dispatched_eq⟩ := stands.quiet arrived
    rw [if_pos connection_eq]
    rw [nil_append] at arrived'
    rw [dispatched_eq, nil_append] at dispatched_handshake
    cases group with
    | nil =>
      refine ⟨ordered_handshake, rfl, fun _ => ⟨connection_eq, dispatched_eq⟩, ?_⟩
      intro sent arrived''
      cases arrived'.unique arrived''
    | cons frame group =>
      obtain ⟨rfl, -⟩ := cons_prefix_cons.mp arrived'.part
      refine ⟨ordered_handshake, rfl, ?_, ?_⟩
      · intro quiet
        cases arrived'.unique quiet
      · intro sent arrived''
        cases arrived'.unique arrived''
        rw [overtaken_arriving_iff arrived arrived']
        rw [filter_cons_of_neg (by simpa using announces)] at dispatched_handshake
        constructor
        · intro none_
          simp only [not_exists, not_and] at none_
          constructor
          · change (group.foldl _ (split.handshake frame)).connection ≠ []
            rw [Split.connection_foldl_handshake _ none_, Split.handshake, if_pos announces]
            apply some_
          · change (List.foldl _ split (frame :: group)).dispatched = group
            rw [dispatched_handshake, filter_eq_self]
            intro other mem
            simpa using none_ other mem
        · rintro ⟨other, mem, conn⟩
          change (List.foldl _ split (frame :: group)).dispatched.length < group.length
          rw [dispatched_handshake]
          apply length_filter_lt_length_iff_exists.mpr
          exact ⟨other, mem, by simpa using conn⟩
  | cons frame sent =>
    obtain ⟨rfl, -⟩ := cons_prefix_cons.mp arrived.part
    obtain ⟨follows, loses⟩ := stands.follows sent arrived
    refine ⟨?_, rfl, ?_, ?_⟩
    · split
      · apply ordered_handshake
      · apply ordered_dispatch
    · intro quiet
      cases arrived'.unique quiet
    · intro sent' arrived''
      cases arrived'.unique arrived''
      rw [overtaken_arrived_iff arrived]
      constructor
      · intro none_
        obtain ⟨connected, dispatched_eq⟩ := follows none_
        rw [if_neg connected]
        constructor
        · change (List.foldl _ split group).connection ≠ []
          rw [connection_dispatch]
          apply connected
        · change (List.foldl _ split group).dispatched = sent ++ group
          rw [dispatched_dispatch, dispatched_eq]
      · intro overtaken
        have fewer := loses overtaken
        have le : (group.filter fun frame => ¬ connField <+: frame).length ≤ group.length :=
          length_filter_le _ _
        split
        · change (List.foldl _ split group).dispatched.length < (sent ++ group).length
          rw [dispatched_handshake, length_append, length_append]
          omega
        · change (List.foldl _ split group).dispatched.length < (sent ++ group).length
          rw [dispatched_dispatch, length_append, length_append]
          omega

theorem stands_new : Stands first frames [] Split.new := by
  refine ⟨fun _ => rfl, ?_, fun _ => ⟨rfl, rfl⟩, ?_⟩
  · have last : (parts []).getLast? = some (remainder []) := by
      rw [parts_eq, getLast?_concat]
    rw [parts_nil] at last
    apply Option.some.inj last
  · intro sent arrived
    have fits := arrived.first_fits_iff.mpr (by simp)
    simp [event, dataField] at fits

/-- A connection after events whose chunks decode as a part of the stream. -/
theorem stands_run (announces : connField <+: first) (some_ : first.drop 7 ≠ [])
    (one : ∀ frame ∈ first :: frames, OneLine frame) (events : List Split.Event)
    (part : ((events.filterMap Split.Event.payload).map decode).flatten <+:
      (first :: frames).flatMap event) :
  Stands first frames ((events.filterMap Split.Event.payload).map decode) (Split.run events)
  := by
  induction events using List.reverseRecOn with
  | nil => apply stands_new
  | append_singleton events happens ih =>
    rw [Split.run, foldl_append, foldl_cons, foldl_nil, ← Split.run]
    cases happens with
    | chunk payload =>
      rw [filterMap_append, map_append] at part ⊢
      apply Stands.readChunk _ announces some_ one payload part
      apply ih
      rw [flatten_append] at part
      apply (prefix_append _ _).trans part
    | onFrame handler =>
      rw [filterMap_append, map_append] at part ⊢
      simp only [Split.Event.payload, filterMap_cons, filterMap_nil, map_nil, append_nil] at part ⊢
      apply (ih part).onFrame

/-- With the whole stream, the frames are dispatched exactly when nothing overtakes the
announcement. -/
theorem dispatched_run_iff (announces : connField <+: first) (some_ : first.drop 7 ≠ [])
    (one : ∀ frame ∈ first :: frames, OneLine frame) {events : List Split.Event}
    (whole : ((events.filterMap Split.Event.payload).map decode).flatten =
      (first :: frames).flatMap event) :
  (Split.run events).dispatched.length ≤ frames.length ∧
    ((Split.run events).dispatched = frames ↔
      ¬ OvertakenText first frames ((events.filterMap Split.Event.payload).map decode)) ∧
    ((Split.run events).dispatched.length = frames.length → (Split.run events).dispatched = frames)
  := by
  have part : ((events.filterMap Split.Event.payload).map decode).flatten <+:
      (first :: frames).flatMap event := by rw [whole]
  have stands := stands_run announces some_ one events part
  obtain ⟨sent, arrived⟩ := exists_arrived one part
  have all_ : sent = first :: frames := by
    apply arrived.part.eq_of_length_le
    apply (arrived.most _ prefix_rfl).mp
    rw [whole]
  subst all_
  obtain ⟨follows, loses⟩ := stands.follows frames arrived
  by_cases overtaken : OvertakenText first frames ((events.filterMap Split.Event.payload).map decode)
  · have fewer := loses overtaken
    refine ⟨le_of_lt fewer, ?_, ?_⟩
    · simp only [overtaken, not_true_eq_false, iff_false]
      intro same
      rw [same] at fewer
      apply lt_irrefl _ fewer
    · intro same
      omega
  · have same := (follows overtaken).2
    rw [same]
    simp [overtaken]

end Run

/-! ### Altered streams -/

variable {text text' : Str} {frames : List Str} {id : ℕ}

theorem oneLine_of_altered (altered : Altered text text') (one : OneLine text) :
  OneLine text'
  := by
  induction altered with
  | nil => apply one
  | kept _ ih =>
    rw [OneLine, mem_cons, not_or] at one ⊢
    use one.1
    apply ih one.2
  | other high seen_high _ ih =>
    rw [OneLine, mem_append]
    rintro (mem | mem)
    · apply absurd (seen_high _ mem)
      decide
    · apply ih _ mem
      apply (not_or.mp fun mem => one (mem_cons.mpr mem)).2

/-- An event is altered in its frame. -/
theorem altered_event {frame more : Str} (altered : Altered (event frame ++ more) text') :
  ∃ frame' more', text' = event frame' ++ more' ∧ Altered frame frame' ∧ Altered more more'
  := by
  obtain ⟨whole, more', rfl, altered, altered_more⟩ := altered.append_inv
  rw [event] at altered
  obtain ⟨data, rest, rfl, altered_data, altered⟩ := altered.append_inv
  obtain ⟨frame', blank, rfl, altered_frame, altered_blank⟩ := altered.append_inv
  rw [altered_data.eq_of_ascii (all_iff_forall_prop.mp (by decide)),
    altered_blank.eq_of_ascii (all_iff_forall_prop.mp (by decide))]
  exact ⟨frame', more', rfl, altered_frame, altered_more⟩

/-- A stream is altered in its frames. -/
theorem altered_stream (altered : Altered (frames.flatMap event) text') :
  ∃ frames', text' = frames'.flatMap event ∧ List.Forall₂ Altered frames frames'
  := by
  induction frames generalizing text' with
  | nil =>
    cases altered
    exact ⟨[], rfl, List.Forall₂.nil⟩
  | cons frame frames ih =>
    rw [flatMap_cons] at altered
    obtain ⟨frame', more', rfl, altered_frame, altered⟩ := altered_event altered
    obtain ⟨frames', rfl, altered_frames⟩ := ih altered
    exact ⟨frame' :: frames', rfl, List.Forall₂.cons altered_frame altered_frames⟩

theorem digit_of_mem_announcement {c : Char} (mem : c ∈ announcement id) :
  c ∈ connField ∨ 48 ≤ c.toNat ∧ c.toNat ≤ 57
  := by
  rcases mem_append.mp mem with mem | mem
  · apply Or.inl mem
  · right
    have digit := Nat.isDigit_of_mem_toDigits (by decide) (by decide) mem
    rw [Char.isDigit, Bool.and_eq_true, decide_eq_true_eq, decide_eq_true_eq, ge_iff_le,
      UInt32.le_iff_toNat_le, UInt32.le_iff_toNat_le] at digit
    apply digit

theorem ascii_announcement : ∀ c ∈ announcement id, c.toNat < 128 := by
  intro c mem
  have field : ∀ c ∈ connField, c.toNat < 128 := all_iff_forall_prop.mp (by decide)
  rcases digit_of_mem_announcement mem with mem | ⟨-, le⟩
  · apply field c mem
  · omega

theorem oneLine_announcement (id : ℕ) : OneLine (announcement id) := by
  intro mem
  rcases digit_of_mem_announcement mem with mem | ⟨le, -⟩
  · revert mem
    decide
  · revert le
    decide

theorem announcement_drop_ne (id : ℕ) : (announcement id).drop 7 ≠ [] := by
  rw [announcement, drop_append_of_le_length (by decide)]
  apply Nat.toDigits_ne_nil

theorem oneLine_of_altered_all {frames' : List Str} (altered : List.Forall₂ Altered frames frames')
    (one : ∀ frame ∈ frames, OneLine frame) :
  ∀ frame ∈ frames', OneLine frame
  := by
  induction altered with
  | nil => apply one
  | cons altered_frame _ ih =>
    rw [forall_mem_cons] at one ⊢
    use oneLine_of_altered altered_frame one.1
    apply ih one.2

/-- What is decoded of the chunks of a stream is a stream of as many frames. -/
theorem exists_decoded (one : ∀ frame ∈ frames, OneLine frame) {chunks : List Bytes}
    (sent : chunks.flatten = encode (streamText id frames)) :
  ∃ frames', chunks.flatMap decode = streamText id frames' ∧
    (∀ frame ∈ frames', OneLine frame) ∧ frames'.length = frames.length
  := by
  have altered := altered_of_flatten_eq sent
  obtain ⟨all_, decoded, altered⟩ := altered_stream altered
  cases altered with
  | @cons _ first _ frames' altered_first altered =>
  rw [altered_first.eq_of_ascii ascii_announcement] at decoded
  exact ⟨frames', decoded, oneLine_of_altered_all altered one, altered.length_eq.symm⟩

/-- A frame that reads as an announcement ends in the chunk that the announcement itself ends in. -/
def Overtaken (id : ℕ) (frames : List Str) (chunks : List Bytes) : Prop :=
  ∃ before chunk behind sent frame later,
    chunks = before ++ chunk :: behind ∧ frames = sent ++ frame :: later ∧ connField <+: frame ∧
      before.flatten.length < (encode (event (announcement id))).length ∧
        (encode (streamText id (sent ++ [frame]))).length ≤ (before.flatten ++ chunk).length

theorem length_encode_lt_of_prefix {part : Str} (initial : part <+: text)
    (lt : part.length < text.length) :
  (encode part).length < (encode text).length
  := by
  obtain ⟨more, rfl⟩ := initial
  cases more with
  | nil => simp at lt
  | cons c more =>
    rw [encode_append, encode_cons, length_append, length_append, String.length_utf8EncodeChar]
    have pos := Char.utf8Size_pos c
    omega

/-- A part of a text is as long as another one when its encoding is. -/
theorem length_encode_le_iff {part other : Str} (initial : part <+: text)
    (initial' : other <+: text) :
  (encode part).length ≤ (encode other).length ↔ part.length ≤ other.length
  := by
  constructor
  · intro le
    by_contra lt
    have lt := Nat.lt_of_not_le lt
    have inside := prefix_of_prefix_length_le initial' initial (le_of_lt lt)
    have := length_encode_lt_of_prefix inside lt
    omega
  · intro le
    obtain ⟨more, rfl⟩ := prefix_of_prefix_length_le initial initial' le
    rw [encode_append, length_append]
    omega

theorem streamText_prefix {sent later : List Str} {frame : Str} :
  streamText id (sent ++ [frame]) <+: streamText id (sent ++ frame :: later)
  := by
  use later.flatMap event
  simp [streamText]

theorem overtaken_iff {texts : List Str} (whole : texts.flatten = streamText id frames) :
  Overtaken id frames (texts.map encode) ↔ OvertakenText (announcement id) frames texts
  := by
  have first_part : event (announcement id) <+: streamText id frames := prefix_append _ _
  have parts_of : ∀ {before : List Str} {text : Str} {behind : List Str},
      texts = before ++ text :: behind →
        before.flatten <+: streamText id frames ∧ before.flatten ++ text <+: streamText id frames := by
    rintro before text behind rfl
    rw [← whole, flatten_append, flatten_cons, ← append_assoc]
    use (prefix_append _ _).trans (prefix_append _ _)
    apply prefix_append
  -- The lengths of encodings compare as those of the texts.
  have same : ∀ {before : List Str} {text : Str} {behind sent later : List Str} {frame : Str},
      texts = before ++ text :: behind → frames = sent ++ frame :: later →
        ((before.map encode).flatten.length < (encode (event (announcement id))).length ↔
          before.flatten.length < (event (announcement id)).length) ∧
        ((encode (streamText id (sent ++ [frame]))).length ≤
            ((before.map encode).flatten ++ encode text).length ↔
          (streamText id (sent ++ [frame])).length ≤ (before.flatten ++ text).length) := by
    intro before text behind sent later frame texts_eq frames_eq
    obtain ⟨before_part, text_part⟩ := parts_of texts_eq
    rw [flatten_map_encode, ← encode_append]
    constructor
    · rw [← Nat.not_le, length_encode_le_iff first_part before_part, Nat.not_le]
    · apply length_encode_le_iff _ text_part
      rw [frames_eq]
      apply streamText_prefix
  constructor
  · rintro ⟨before, chunk, behind, sent, frame, later, chunks_eq, frames_eq, conn, early, fits⟩
    obtain ⟨before, rest, texts_eq, rfl, rest_eq⟩ := map_eq_append_iff.mp chunks_eq
    obtain ⟨text, behind, rfl, rfl, rfl⟩ := map_eq_cons_iff.mp rest_eq
    obtain ⟨early_iff, fits_iff⟩ := same texts_eq frames_eq
    exact ⟨before, text, behind, sent, frame, later, texts_eq, frames_eq, conn, early_iff.mp early,
      fits_iff.mp fits⟩
  · rintro ⟨before, text, behind, sent, frame, later, texts_eq, frames_eq, conn, early, fits⟩
    obtain ⟨early_iff, fits_iff⟩ := same texts_eq frames_eq
    refine ⟨before.map encode, encode text, behind.map encode, sent, frame, later, ?_, frames_eq, conn,
      early_iff.mpr early, fits_iff.mpr fits⟩
    rw [texts_eq, map_append, map_cons]

/-- A clean stream dispatches what was sent, unless the announcement is overtaken. -/
theorem dispatched_of_clean (one : ∀ frame ∈ frames, OneLine frame) {events : List Split.Event}
    (sent : (events.filterMap Split.Event.payload).flatten = encode (streamText id frames))
    (clean : Clean (events.filterMap Split.Event.payload)) :
  (Split.run events).dispatched = frames ↔
    ¬ Overtaken id frames (events.filterMap Split.Event.payload)
  := by
  have one_all : ∀ frame ∈ announcement id :: frames, OneLine frame :=
    forall_mem_cons.mpr ⟨oneLine_announcement id, one⟩
  obtain ⟨-, same_iff, -⟩ := dispatched_run_iff (prefix_append _ _) (announcement_drop_ne id)
    one_all ((flatMap_decode_eq_iff sent).mpr clean)
  obtain ⟨texts, chunks_eq, plain⟩ := clean
  have texts_eq : (texts.map encode).map decode = texts := by
    rw [List.map_map]
    conv_rhs => rw [← List.map_id texts]
    apply map_congr_left
    intro text mem
    apply decode_encode (plain text mem)
  rw [chunks_eq] at sent same_iff ⊢
  rw [flatten_map_encode] at sent
  rw [same_iff, texts_eq, overtaken_iff (encode_injective sent)]
  rfl

/-- What is dispatched is what was sent only if the stream is clean. -/
theorem clean_of_dispatched (one : ∀ frame ∈ frames, OneLine frame) {events : List Split.Event}
    (sent : (events.filterMap Split.Event.payload).flatten = encode (streamText id frames))
    (same : (Split.run events).dispatched = frames) :
  Clean (events.filterMap Split.Event.payload)
  := by
  obtain ⟨frames', decoded, one', length_eq⟩ := exists_decoded one sent
  have one_all : ∀ frame ∈ announcement id :: frames', OneLine frame :=
    forall_mem_cons.mpr ⟨oneLine_announcement id, one'⟩
  obtain ⟨-, -, same_of⟩ := dispatched_run_iff (prefix_append _ _) (announcement_drop_ne id)
    one_all decoded
  rw [same] at same_of
  rw [← flatMap_decode_eq_iff sent, decoded, same_of length_eq.symm]

/-- The frames of a stream are dispatched, in order and unchanged, exactly when each chunk encodes a
text without a byte order mark at the front, and no frame that reads as an announcement ends in the
chunk that the announcement itself ends in. -/
theorem dispatched_eq_iff {id : ℕ} {frames : List Str} (one : ∀ frame ∈ frames, OneLine frame)
    {events : List Split.Event}
    (sent : (events.filterMap Split.Event.payload).flatten = encode (streamText id frames)) :
  (Split.run events).dispatched = frames ↔
    Clean (events.filterMap Split.Event.payload) ∧
      ¬ Overtaken id frames (events.filterMap Split.Event.payload)
  := by
  constructor
  · intro same
    have clean := clean_of_dispatched one sent same
    use clean
    apply (dispatched_of_clean one sent clean).mp same
  · rintro ⟨clean, not_overtaken⟩
    apply (dispatched_of_clean one sent clean).mpr not_overtaken

/-- A frame in one chunk with the announcement. -/
theorem hi_dispatched :
  (Split.run [.chunk (encode (streamText 0 [['h', 'i']])), .onFrame 1]).dispatched = [['h', 'i']] ↔
    Clean [encode (streamText 0 [['h', 'i']])] ∧
      ¬ Overtaken 0 [['h', 'i']] [encode (streamText 0 [['h', 'i']])]
  := by
  apply dispatched_eq_iff
  · simp [OneLine]
  · rfl

/-- A chunk that ends inside a character alters the frame. -/
theorem cut_character_altered :
  [(encode (streamText 0 [['é']])).take 23, (encode (streamText 0 [['é']])).drop 23].flatten =
      encode (streamText 0 [['é']]) ∧
    (Split.run [.chunk ((encode (streamText 0 [['é']])).take 23),
      .chunk ((encode (streamText 0 [['é']])).drop 23), .onFrame 1]).dispatched =
        [[replacement, replacement]] ∧
      [[replacement, replacement]] ≠ [['é']]
  := by
  decide

end Vilan.Sse
