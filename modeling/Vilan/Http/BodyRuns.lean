import Vilan.Http.Body
import Vilan.Http.ChunkedRuns
import Vilan.Library.Machine

/-!
# Bodies that are read

Whatever the order of polls and arrivals, what a reader is handed is a part of the body that the
client sends, all of it once the read has ended, and no more than the cap.
-/

namespace Vilan.Http

open List Feeding

open Feeding (feedAll start)

/-! ### What is to be read -/

/-- How a read of all that the client sends comes out. -/
def verdict (framing : Framing) (limit : ℕ) (bytes : Bytes) : Decoded :=
  match framing with
  | .empty => .done
  | .length length =>
      if limit < length then .overLimit else if length ≤ bytes.length then .done else .more
  | .chunked => ((start.push bytes).feed limit).1

/-- The body at the start of what a client sends, and what follows it. -/
def Decodes (framing : Framing) (bytes body rest : Bytes) : Prop :=
  match framing with
  | .empty => body = [] ∧ rest = bytes
  | .length length => bytes = body ++ rest ∧ body.length = length
  | .chunked => ∃ taken, bytes = taken ++ rest ∧ ChunkedBody taken body

/-- No line of a chunked body is longer than the longest line whose end has not arrived. -/
def ShortLines (framing : Framing) (limit : ℕ) (bytes : Bytes) : Prop :=
  match framing with
  | .chunked => (start.push bytes).Short limit
  | _ => True

/-! ### How far a read has come -/

/-- What has been made of the bytes that were sent. -/
def Progress (limit : ℕ) (framing : Framing) (sent : Bytes) (outcome : Decoded)
    (chunks : ChunkDecoder) (inbox total : Bytes) : Prop :=
  match framing with
  | .empty => inbox = sent ∧ total = [] ∧ (outcome = .more ∨ outcome = .done)
  | .length length => length ≤ limit ∧ sent = total ++ inbox ∧ total.length ≤ length ∧
      (outcome = .more ∧ inbox = [] ∨ outcome = .done ∧ total.length = length)
  | .chunked => ∃ pieces, pieces.flatten = sent ∧
      feedAll limit pieces (.more, start) = (outcome, ⟨chunks, inbox, total⟩)

/-- Whether a body goes on. -/
def Waits (framing : Framing) (total : Bytes) : Prop :=
  match framing with
  | .empty => False
  | .length length => total.length < length
  | .chunked => True

namespace Progress

variable {limit : ℕ} {framing : Framing} {sent wire inbox total : Bytes} {outcome : Decoded}
  {chunks : ChunkDecoder}

theorem within (h : Progress limit framing sent outcome chunks inbox total) :
  total.length ≤ limit
  := by
  cases framing with
  | empty =>
    obtain ⟨_, rfl, _⟩ := h
    apply Nat.zero_le
  | length length =>
    obtain ⟨le, _, le', _⟩ := h
    omega
  | chunked =>
    obtain ⟨pieces, _, fed⟩ := h
    have within : (feedAll limit pieces (.more, start)).2.Within limit :=
      feedAll_within pieces (Nat.zero_le limit)
    rw [fed] at within
    apply within.output

/-- The pieces of a chunked body come to what they come to at once. -/
theorem fed
    (h : Progress limit .chunked sent outcome chunks inbox total)
    (short : ShortLines .chunked limit (sent ++ wire)) :
  (start.push sent).feed limit = (outcome, ⟨chunks, inbox, total⟩)
  := by
  obtain ⟨pieces, rfl, fed⟩ := h
  have short' : (start.push pieces.flatten).Short limit := by
    apply Feeding.Short.of_push
    rw [push_push]
    apply short
  rw [← feedAll_feed pieces short', feed_start, fed]

/-- What a read has come to is the verdict. -/
theorem verdict
    (h : Progress limit framing sent outcome chunks inbox total)
    (short : ShortLines framing limit (sent ++ wire))
    (settled : outcome ≠ .more ∨ wire = [] ∧ Waits framing total) :
  verdict framing limit (sent ++ wire) = outcome
  := by
  cases framing with
  | empty =>
    obtain ⟨_, _, rfl | rfl⟩ := h
    · obtain settled | ⟨_, waits⟩ := settled
      · apply absurd rfl settled
      · apply False.elim waits
    · rfl
  | length length =>
    obtain ⟨le, rfl, _, h⟩ := h
    rw [Http.verdict, if_neg (Nat.not_lt_of_le le)]
    obtain ⟨rfl, rfl⟩ | ⟨rfl, heq⟩ := h
    · obtain settled | ⟨rfl, waits⟩ := settled
      · apply absurd rfl settled
      · rw [if_neg]
        simpa [Waits] using waits
    · rw [if_pos]
      simp only [length_append]
      omega
  | chunked =>
    have fed := h.fed short
    rw [ShortLines, ← push_push] at short
    rw [Http.verdict, ← push_push, feed_push short, fed]
    obtain settled | ⟨rfl, _⟩ := settled
    · rw [if_neg settled]
    · split
      next more =>
        subst more
        have again := congrArg Prod.fst (feed_more (congrArg Prod.fst fed))
        rw [fed] at again
        rw [push_nil]
        apply again
      next => rfl

/-- A body that has been read is the body that was sent. -/
theorem decodes
    (h : Progress limit framing sent .done chunks inbox total)
    (short : ShortLines framing limit (sent ++ wire)) :
  Decodes framing (sent ++ wire) total (inbox ++ wire)
  := by
  cases framing with
  | empty =>
    obtain ⟨rfl, rfl, _⟩ := h
    use rfl
  | length length =>
    obtain ⟨_, rfl, _, ⟨more, _⟩ | ⟨_, heq⟩⟩ := h
    · cases more
    · use append_assoc _ _ _, heq
  | chunked =>
    obtain ⟨taken, data, input, output, left⟩ := feed_done (h.fed short)
    use taken
    have input : sent = taken ++ inbox := input
    have output : total = [] ++ data := output
    subst input output
    use append_assoc _ _ _, left

end Progress

/-! ### Taking what has arrived -/

/-- A body that is read, of which so much has been handed out. -/
structure Reads (limit : ℕ) (framing : Framing) (sent : Bytes) (outcome : Decoded)
    (cleared : Bytes) (body : Body) (inbox : Bytes) : Prop where
  framing_eq : body.framing = framing
  received : body.received = cleared.length + body.decoded.length
  progress : Progress limit framing sent outcome body.chunks inbox (cleared ++ body.decoded)

variable {limit : ℕ} {connection : Connection} {upload : Upload}

/-- A feed goes on with what was given before it. -/
theorem feed_prefix (feeding : Feeding) (le : feeding.output.length ≤ limit) :
  feeding.output <+: (feeding.feed limit).2.output
  := by
  have h := feed_prepend feeding.output { feeding with output := [] }
    (limit - feeding.output.length)
  rw [Feeding.prepend, append_nil, Nat.add_sub_cancel' le] at h
  rw [h]
  apply prefix_append

/-- What has arrived is taken, and the body has come so far. -/
theorem Reads.takeBody {framing : Framing} {sent cleared inbox : Bytes}
    (h : Reads limit framing sent .more cleared connection.body inbox) {bytes : Bytes}
    (arrived : connection.inbox = inbox ++ bytes) :
  ∃ outcome decoded received chunks rest,
    connection.takeBody limit =
      (outcome, { connection.body with decoded, received, chunks }, rest) ∧
    Reads limit framing (sent ++ bytes) outcome cleared
      { connection.body with decoded, received, chunks } rest ∧
    connection.body.decoded <+: decoded ∧ (outcome = .more → Waits framing (cleared ++ decoded))
  := by
  obtain ⟨stage, _, ⟨framing, state, decoded, taken, received, chunks, waiters⟩, answered⟩ :=
    connection
  obtain ⟨framing_eq, count, progress⟩ := h
  dsimp only at framing_eq count progress arrived ⊢
  subst framing_eq
  subst count arrived
  have within := progress.within
  rw [length_append] at within
  unfold Connection.takeBody
  cases framing with
  | empty =>
    obtain ⟨rfl, empty, _⟩ := progress
    refine ⟨.done, _, _, _, _, rfl, ⟨rfl, rfl, rfl, empty, .inr rfl⟩, prefix_rfl, nofun⟩
  | length length =>
    obtain ⟨le, rfl, le', ⟨_, rfl⟩ | ⟨more, _⟩⟩ := progress
    · rw [length_append] at le'
      dsimp only
      rw [nil_append]
      refine ⟨_, _, _, chunks, _, rfl, ⟨rfl, ?_, le, ?_, ?_, ?_⟩, prefix_append _ _, ?_⟩
      · simp only [length_append, length_take]
        omega
      · simp only [append_nil, append_assoc, take_append_drop]
      · simp only [length_append, length_take]
        omega
      · split
        next whole =>
          right
          use rfl
          simp only [length_append, length_take]
          omega
        next part =>
          left
          use rfl
          rw [drop_eq_nil_iff]
          omega
      · split
        next => nofun
        next part =>
          intro _
          simp only [Waits, length_append, length_take]
          omega
    · cases more
  | chunked =>
    obtain ⟨pieces, rfl, fed⟩ := progress
    have prepended := feed_prepend cleared ⟨chunks, inbox ++ bytes, decoded⟩
      (limit - cleared.length)
    have extends_ : decoded <+: (Feeding.feed ⟨chunks, inbox ++ bytes, decoded⟩
        (limit - cleared.length)).2.output := by
      apply feed_prefix ⟨chunks, inbox ++ bytes, decoded⟩
      dsimp only
      omega
    dsimp only
    rw [Nat.add_sub_cancel_right]
    rw [Nat.add_sub_cancel' (by omega)] at prepended
    generalize Feeding.feed ⟨chunks, inbox ++ bytes, decoded⟩ (limit - cleared.length) = moved
      at prepended extends_ ⊢
    have le := extends_.length_le
    refine ⟨_, _, _, _, _, rfl, ⟨rfl, ?_, pieces ++ [bytes], ?_, ?_⟩, extends_,
      fun _ => trivial⟩
    · dsimp only
      omega
    · rw [flatten_append, flatten_cons, flatten_nil, append_nil]
    · rw [feedAll_append, fed]
      apply prepended

/-! ### Where an upload stands -/

/-- A body that is asked for and has not settled. -/
def BodyState.Asked : BodyState → Prop
  | .reading _ | .streaming _ false => True
  | _ => False

/-- What a body's state says of the verdict. -/
def BodyState.Tells (verdict : Decoded) : BodyState → Prop
  | .read _ | .streaming _ true => verdict = .done
  | .refused => verdict = .overLimit ∨ verdict = .malformed
  | .gone => verdict = .more
  | .unread | .reading _ | .streaming _ false => True
  | .abandoned | .draining _ => False

/-- A body that is read as its bytes arrive: what was sent, and what was handed out of it. -/
structure Going (limit : ℕ) (framing : Framing) (bytes given : Bytes) (outcome : Decoded)
    (upload : Upload) (sent cleared : Bytes) : Prop where
  bytes_eq : bytes = sent ++ upload.wire
  stage : upload.connection.stage = .dispatched
  reads : Reads limit framing sent outcome cleared upload.connection.body upload.connection.inbox
  given_eq : given = cleared ++ upload.connection.body.decoded.take upload.connection.body.taken
  taken_le : upload.connection.body.taken ≤ upload.connection.body.decoded.length

/-- Where an upload stands, when so much has been handed out. -/
def Stands (limit : ℕ) (framing : Framing) (bytes given : Bytes) (upload : Upload) : Prop :=
  match upload.connection.body.state with
  | .unread =>
      given = [] ∧ upload.connection.stage = .dispatched ∧ upload.connection.answered = false ∧
        upload.connection.body = .new framing ∧ bytes = upload.connection.inbox ++ upload.wire
  | .reading cap =>
      cap = limit ∧ given = [] ∧
        ∃ sent, Going limit framing bytes given .more upload sent []
  | .streaming cap false =>
      cap = limit ∧ ∃ sent cleared, Going limit framing bytes given .more upload sent cleared
  | .streaming _ true =>
      ∃ sent cleared, Going limit framing bytes given .done upload sent cleared
  | .read body =>
      given = [] ∧ verdict framing limit bytes = .done ∧ body.length ≤ limit ∧
        Decodes framing bytes body (upload.connection.inbox ++ upload.wire)
  | .refused =>
      given.length ≤ limit ∧ upload.connection.stage ≠ .dispatched ∧
        (verdict framing limit bytes = .overLimit ∨ verdict framing limit bytes = .malformed)
  | .gone =>
      given.length ≤ limit ∧ upload.connection.stage ≠ .dispatched ∧
        verdict framing limit bytes = .more
  | .abandoned | .draining _ => False

section Stands

variable {limit : ℕ} {framing : Framing} {bytes given : Bytes}

variable {cleared sent wire : Bytes} {connection : Connection}

/-- What was handed out is within the limit. -/
theorem Going.within {outcome : Decoded} {upload : Upload}
    (h : Going limit framing bytes given outcome upload sent cleared) :
  given.length ≤ limit
  := by
  have within := h.reads.progress.within
  rw [h.given_eq]
  simp only [length_append, length_take] at within ⊢
  omega

theorem Stands.within {upload : Upload} (h : Stands limit framing bytes given upload) :
  given.length ≤ limit
  := by
  unfold Stands at h
  split at h
  next => simp only [h.1, length_nil, Nat.zero_le]
  next => simp only [h.2.1, length_nil, Nat.zero_le]
  next =>
    obtain ⟨_, _, _, going⟩ := h
    apply going.within
  next =>
    obtain ⟨_, _, going⟩ := h
    apply going.within
  next => simp only [h.1, length_nil, Nat.zero_le]
  next => apply h.1
  next => apply h.1
  next => apply False.elim h
  next => apply False.elim h

/-- A body that is read moves forward with what has arrived. -/
theorem moveBody_stands (short : ShortLines framing limit bytes) {inbox extra : Bytes}
    {streaming hungUp : Bool} (bytes_eq : bytes = sent ++ (extra ++ wire))
    (stage : connection.stage = .dispatched)
    (reads : Reads limit framing sent .more cleared connection.body inbox)
    (arrived : connection.inbox = inbox ++ extra)
    (given_eq : given = cleared ++ connection.body.decoded.take connection.body.taken)
    (taken_le : connection.body.taken ≤ connection.body.decoded.length)
    (state : connection.body.state =
      if streaming then .streaming limit false else .reading limit)
    (whole : streaming = false → given = [] ∧ cleared = []) (sent_all : hungUp = true → wire = []) :
  Stands limit framing bytes given ⟨connection.moveBody limit streaming hungUp, wire⟩
  := by
  obtain ⟨outcome, decoded, received, chunks, rest, taken_eq, reads', extended, waits⟩ :=
    reads.takeBody arrived
  have bytes_eq' : bytes = (sent ++ extra) ++ wire := by
    rw [bytes_eq, append_assoc]
  have within : given.length ≤ limit := by
    have within := reads.progress.within
    rw [given_eq]
    simp only [length_append, length_take] at within ⊢
    omega
  have kept : connection.body.decoded.take connection.body.taken =
      decoded.take connection.body.taken := by
    obtain ⟨more, rfl⟩ := extended
    rw [take_append_of_le_length taken_le]
  have taken_le' : connection.body.taken ≤ decoded.length := taken_le.trans extended.length_le
  have verdict_eq : outcome ≠ .more ∨ wire = [] ∧ outcome = .more →
      verdict framing limit bytes = outcome := by
    intro settled
    rw [bytes_eq'] at short ⊢
    apply reads'.progress.verdict short
    obtain settled | ⟨empty, more⟩ := settled
    · left
      apply settled
    · right
      use empty, waits more
  have going : ∀ state waiters, Going limit framing bytes given outcome
      ⟨{ connection with
          inbox := rest
          body := { connection.body with state, decoded, received, chunks, waiters } }, wire⟩
      (sent ++ extra) cleared := by
    intro state waiters
    refine ⟨bytes_eq', stage, ⟨reads'.framing_eq, reads'.received, reads'.progress⟩, ?_, taken_le'⟩
    rw [given_eq, kept]
  unfold Connection.moveBody
  rw [taken_eq]
  cases outcome with
  | done =>
    cases streaming with
    | true => exact ⟨_, _, going (.streaming limit true) 0⟩
    | false =>
      obtain ⟨rfl, rfl⟩ := whole rfl
      refine ⟨rfl, verdict_eq (.inl nofun), reads'.progress.within, ?_⟩
      rw [bytes_eq'] at short ⊢
      apply reads'.progress.decodes short
  | more =>
    cases hungUp with
    | true => exact ⟨within, nofun, verdict_eq (.inr ⟨sent_all rfl, rfl⟩)⟩
    | false =>
      have stands : ∀ waiters, Stands limit framing bytes given
          ⟨{ connection with
              inbox := rest
              body := { connection.body with decoded, received, chunks, waiters } }, wire⟩ := by
        intro waiters
        dsimp only
        rw [state]
        cases streaming with
        | true => exact ⟨rfl, _, _, going (.streaming limit false) waiters⟩
        | false =>
          obtain ⟨rfl, rfl⟩ := whole rfl
          exact ⟨rfl, rfl, _, going (.reading limit) waiters⟩
      simp only [Bool.false_eq_true, if_false]
      split
      next => apply stands 0
      next => apply stands connection.body.waiters
  | overLimit => exact ⟨within, nofun, .inl (verdict_eq (.inl nofun))⟩
  | malformed => exact ⟨within, nofun, .inr (verdict_eq (.inl nofun))⟩

/-- A turn of the loop in which nothing arrives leaves a body alone that is not read. -/
theorem service_idle (idle : ¬ connection.body.state.Asked) (hungUp : Bool) :
  connection.service [] hungUp = connection
  := by
  simp only [Connection.service, append_nil, Connection.advanceBody]
  split
  · split
    next state => simp [state, BodyState.Asked] at idle
    next state => simp [state, BodyState.Asked] at idle
    next => rfl
  · rfl

/-- A turn of the loop takes what has arrived. -/
theorem service_stands (short : ShortLines framing limit bytes) {arrived : Bytes} {hungUp : Bool}
    (h : Stands limit framing bytes given ⟨connection, arrived ++ wire⟩)
    (wants : connection.wantsBytes = false → arrived = [] ∧ hungUp = false)
    (sent : hungUp = true → wire = []) :
  Stands limit framing bytes given ⟨connection.service arrived hungUp, wire⟩
  := by
  have idle : connection.wantsBytes = false → ¬ connection.body.state.Asked →
      Stands limit framing bytes given ⟨connection.service arrived hungUp, wire⟩ := by
    intro unwanted asked
    obtain ⟨rfl, rfl⟩ := wants unwanted
    rw [service_idle asked]
    apply h
  obtain ⟨stage, inbox, ⟨framing', state, decoded, taken, received, chunks, waiters⟩, answered⟩ :=
    connection
  cases state with
  | reading cap =>
    obtain ⟨rfl, rfl, sent', bytes_eq, stage_eq, reads, given_eq, taken_le⟩ := h
    obtain rfl : stage = .dispatched := stage_eq
    simp only [Connection.service, Connection.advanceBody, if_true]
    exact moveBody_stands short bytes_eq rfl reads rfl given_eq taken_le rfl
      (fun _ => ⟨rfl, rfl⟩) sent
  | streaming cap ended =>
    cases ended with
    | true =>
      apply idle _ nofun
      cases stage
      all_goals rfl
    | false =>
      obtain ⟨rfl, sent', cleared, bytes_eq, stage_eq, reads, given_eq, taken_le⟩ := h
      obtain rfl : stage = .dispatched := stage_eq
      simp only [Connection.service, Connection.advanceBody, if_true]
      exact moveBody_stands short bytes_eq rfl reads rfl given_eq taken_le rfl nofun sent
  | abandoned => apply False.elim h
  | draining => apply False.elim h
  | _ =>
    apply idle _ nofun
    cases stage
    all_goals rfl

/-- A reader that waits changes nothing of what is read. -/
theorem Stands.park (h : Stands limit framing bytes given ⟨connection, wire⟩)
    (asked : connection.body.state.Asked) :
  Stands limit framing bytes given ⟨connection.park, wire⟩
  := by
  obtain ⟨stage, inbox, ⟨framing', state, decoded, taken, received, chunks, waiters⟩, answered⟩ :=
    connection
  cases state with
  | reading cap =>
    obtain ⟨rfl, rfl, sent', bytes_eq, stage_eq, reads, given_eq, taken_le⟩ := h
    exact ⟨rfl, rfl, sent', bytes_eq, stage_eq,
      ⟨reads.framing_eq, reads.received, reads.progress⟩, given_eq, taken_le⟩
  | streaming cap ended =>
    cases ended with
    | true => apply False.elim asked
    | false =>
      obtain ⟨rfl, sent', cleared, bytes_eq, stage_eq, reads, given_eq, taken_le⟩ := h
      exact ⟨rfl, sent', cleared, bytes_eq, stage_eq,
        ⟨reads.framing_eq, reads.received, reads.progress⟩, given_eq, taken_le⟩
  | _ => apply False.elim asked

/-- Nothing has been made of a body before any of its bytes are taken. -/
theorem Reads.new {inbox : Bytes} {stage : Stage} {answered : Bool}
    (fits : (Connection.mk stage inbox (.new framing) answered).declaredOver limit = false)
    (state : BodyState) :
  Reads limit framing [] .more [] { Body.new framing with state } []
  := by
  use rfl, rfl
  cases framing with
  | empty => exact ⟨rfl, rfl, .inl rfl⟩
  | length length =>
    have le : length ≤ limit := by
      simpa [Connection.declaredOver, Body.new] using fits
    exact ⟨le, rfl, Nat.zero_le _, .inl ⟨rfl, rfl⟩⟩
  | chunked => exact ⟨[], rfl, rfl⟩

/-- A body that is asked for moves forward with what has arrived before. -/
theorem ask_stands (short : ShortLines framing limit bytes)
    (h : Stands limit framing bytes given ⟨connection, wire⟩)
    (unread : connection.body.state = .unread) (fits : connection.declaredOver limit = false)
    {streaming : Bool} {asked : BodyState}
    (heq : asked = if streaming then .streaming limit false else .reading limit) :
  Stands limit framing bytes given
    ⟨{ connection with body.state := asked }.advanceBody false, wire⟩
  := by
  obtain ⟨stage, inbox, body, answered⟩ := connection
  dsimp only at unread
  rw [Stands, unread] at h
  obtain ⟨rfl, stage_eq, _, body_eq, bytes_eq⟩ := h
  dsimp only at stage_eq body_eq bytes_eq
  subst stage_eq body_eq
  have moved : Stands limit framing bytes []
      ⟨Connection.moveBody ⟨.dispatched, inbox, { Body.new framing with state := asked }, answered⟩
        limit streaming false, wire⟩ := by
    refine moveBody_stands short bytes_eq rfl (Reads.new fits asked) rfl rfl (Nat.le_refl _) heq
      (fun _ => ⟨rfl, rfl⟩) ?_
    intro hungUp
    cases hungUp
  cases streaming with
  | true =>
    subst heq
    apply moved
  | false =>
    subst heq
    apply moved

/-- A body is refused by its own declaration. -/
theorem declaredOver_stands (h : Stands limit framing bytes given ⟨connection, wire⟩)
    (unread : connection.body.state = .unread) (over_ : connection.declaredOver limit = true) :
  Stands limit framing bytes given
    ⟨{ connection with body := connection.body.settle .refused }.refuse, wire⟩
  := by
  obtain ⟨stage, inbox, body, answered⟩ := connection
  dsimp only at unread
  rw [Stands, unread] at h
  obtain ⟨rfl, _, _, body_eq, _⟩ := h
  dsimp only at body_eq
  subst body_eq
  refine ⟨Nat.zero_le _, nofun, .inl ?_⟩
  cases framing with
  | length length =>
    have lt : limit < length := by
      simpa [Connection.declaredOver, Body.new] using over_
    rw [verdict, if_pos lt]
  | _ => cases over_

/-- The read of a whole body looks at it. -/
theorem pollWhole_stands (short : ShortLines framing limit bytes)
    (h : Stands limit framing bytes given ⟨connection, wire⟩) :
  Stands limit framing bytes given ⟨(connection.pollWhole limit).2, wire⟩
  := by
  unfold Connection.pollWhole
  split
  next => apply h
  next unread =>
    have unanswered : connection.answered = false := by
      rw [Stands, unread] at h
      apply h.2.2.1
    rw [if_neg (by simp [unanswered])]
    split
    next over_ => apply declaredOver_stands h unread over_
    next fits =>
      have begun := ask_stands short h unread (Bool.eq_false_iff.mpr fits)
        (show BodyState.reading limit = if false then .streaming limit false else .reading limit
          from rfl)
      dsimp only
      split
      next => apply begun
      next reading =>
        apply Stands.park begun
        rw [reading]
        trivial
      next => apply begun
  next reading =>
    apply Stands.park h
    rw [reading]
    trivial
  next => apply h

/-- A piece that is taken is the next one. -/
theorem Going.takePiece {outcome : Decoded}
    (h : Going limit framing bytes given outcome ⟨connection, wire⟩ sent cleared) {size : ℕ}
    {piece : Bytes} {body : Body} (taken : connection.body.takePiece size = some (piece, body)) :
  body.state = connection.body.state ∧ ∃ cleared,
    Going limit framing bytes (given ++ piece) outcome ⟨{ connection with body }, wire⟩ sent cleared
  := by
  obtain ⟨bytes_eq, stage, ⟨framing_eq, received, progress⟩, rfl, taken_le⟩ := h
  dsimp only at bytes_eq stage framing_eq received progress taken_le ⊢
  unfold Body.takePiece at taken
  dsimp only at taken
  split at taken
  next => cases taken
  next available =>
    have bound : connection.body.taken +
        min (connection.body.decoded.length - connection.body.taken) (max size 1) ≤
          connection.body.decoded.length := by
      omega
    have more : connection.body.taken ≤ connection.body.taken +
        min (connection.body.decoded.length - connection.body.taken) (max size 1) :=
      Nat.le_add_right _ _
    generalize connection.body.taken +
        min (connection.body.decoded.length - connection.body.taken) (max size 1) = e
      at taken bound more
    have joined : connection.body.decoded.take connection.body.taken ++
        (connection.body.decoded.take e).drop connection.body.taken =
          connection.body.decoded.take e := by
      have cut := take_append_drop connection.body.taken (connection.body.decoded.take e)
      rw [take_take, Nat.min_eq_left more] at cut
      apply cut
    split at taken
    next all_ =>
      cases taken
      rw [append_assoc, joined, all_, take_length]
      refine ⟨rfl, cleared ++ connection.body.decoded, bytes_eq, stage, ⟨framing_eq, ?_, ?_⟩, ?_,
        Nat.le_refl _⟩
      · rw [received, length_append]
        rfl
      · rw [append_nil]
        apply progress
      · rw [take_nil, append_nil]
    next =>
      cases taken
      rw [append_assoc, joined]
      exact ⟨rfl, cleared, bytes_eq, stage, ⟨framing_eq, received, progress⟩, rfl, bound⟩

/-- A piece of a stream is taken, or waited for. -/
theorem handPiece_stands (h : Stands limit framing bytes given ⟨connection, wire⟩) (size : ℕ) :
  Stands limit framing bytes (given ++ handed [.polled (connection.handPiece size).1])
    ⟨(connection.handPiece size).2, wire⟩
  := by
  obtain ⟨stage, inbox, ⟨framing', state, decoded, taken, received, chunks, waiters⟩, answered⟩ :=
    connection
  cases state with
  | streaming cap ended =>
    unfold Connection.handPiece
    dsimp only
    split
    next piece body taken_eq =>
      simp only [handed, append_nil]
      cases ended with
      | true =>
        obtain ⟨sent, cleared, going⟩ := h
        obtain ⟨state, cleared', going'⟩ := going.takePiece taken_eq
        rw [Stands, state]
        exact ⟨sent, cleared', going'⟩
      | false =>
        obtain ⟨rfl, sent, cleared, going⟩ := h
        obtain ⟨state, cleared', going'⟩ := going.takePiece taken_eq
        rw [Stands, state]
        exact ⟨rfl, sent, cleared', going'⟩
    next none_ =>
      cases ended with
      | true =>
        simp only [handed, append_nil, if_true]
        apply h
      | false =>
        simp only [handed, append_nil, Bool.false_eq_true, if_false]
        apply Stands.park h
        trivial
  | _ =>
    simp only [Connection.handPiece, handed, append_nil]
    apply h

/-- The read of a piece looks at the body. -/
theorem pollPiece_stands (short : ShortLines framing limit bytes)
    (h : Stands limit framing bytes given ⟨connection, wire⟩) (size : ℕ) :
  Stands limit framing bytes (given ++ handed [.polled (connection.pollPiece limit size).1])
    ⟨(connection.pollPiece limit size).2, wire⟩
  := by
  unfold Connection.pollPiece
  split
  next unread =>
    have unanswered : connection.answered = false := by
      rw [Stands, unread] at h
      apply h.2.2.1
    rw [if_neg (by simp [unanswered])]
    split
    next over_ =>
      rw [handed, handed, append_nil]
      · apply declaredOver_stands h unread over_
      · nofun
    next fits =>
      apply handPiece_stands
      apply ask_stands short h unread (Bool.eq_false_iff.mpr fits)
      show BodyState.streaming limit false = if true then .streaming limit false else .reading limit
      rfl
  next => apply handPiece_stands h

end Stands

/-! ### The end of a read -/

/-- What an answer says of the connection from then on: a stream that has ended has nothing left,
and a body that was read whole stays. -/
def Seen.Holds (connection : Connection) : Seen → Prop
  | .polled .ended =>
      (∃ cap, connection.body.state = .streaming cap true) ∧
        connection.body.decoded.length ≤ connection.body.taken
  | .polled (.whole body) => connection.body.state = .read body
  | _ => True

theorem takePiece_none
    {body : Body} {size : ℕ} :
  body.takePiece size = none ↔ body.decoded.length ≤ body.taken
  := by
  unfold Body.takePiece
  dsimp only
  split
  next empty =>
    simp only [true_iff]
    omega
  next some =>
    split
    all_goals
      simp only [reduceCtorEq, false_iff]
      omega

/-- A stream is told to have ended when nothing is left of it. -/
theorem handPiece_ended {size : ℕ} (h : (connection.handPiece size).1 = .ended) :
  Seen.Holds (connection.handPiece size).2 (.polled .ended)
  := by
  unfold Connection.handPiece at h ⊢
  split at h
  next cap ended state =>
    split at h
    next => cases h
    next none_ =>
      split at h
      next all_ =>
        subst all_
        rw [if_pos rfl]
        exact ⟨⟨cap, state⟩, takePiece_none.mp none_⟩
      next => cases h
  next => cases h

/-- What a step answers holds after it. -/
theorem Upload.Step.holds {upload' : Upload} {seen : Seen} (h : Step limit upload seen upload') :
  seen.Holds upload'.connection
  := by
  cases h with
  | service => trivial
  | pollWhole =>
    dsimp only
    unfold Connection.pollWhole
    split
    next read => apply read
    next =>
      split
      next => trivial
      next =>
        split
        next => trivial
        next =>
          dsimp only
          split
          next read => apply read
          next => trivial
          next => trivial
    next => trivial
    next => trivial
  | pollPiece _ size =>
    have ended : ∀ connection : Connection,
        Seen.Holds (connection.handPiece size).2 (.polled (connection.handPiece size).1) := by
      intro connection
      cases answer : (connection.handPiece size).1 with
      | ended => apply handPiece_ended answer
      | whole body =>
        exfalso
        unfold Connection.handPiece at answer
        repeat' split at answer
        all_goals cases answer
      | _ => trivial
    dsimp only
    unfold Connection.pollPiece
    split
    next =>
      split
      next => trivial
      next =>
        split
        next => trivial
        next => apply ended
    next => apply ended

theorem service_body (idle : ¬ connection.body.state.Asked) (bytes : Bytes) (hungUp : Bool) :
  (connection.service bytes hungUp).body = connection.body
  := by
  simp only [Connection.service, Connection.advanceBody]
  split
  · split
    next state => simp [state, BodyState.Asked] at idle
    next state => simp [state, BodyState.Asked] at idle
    next => rfl
  · rfl

/-- What an answer says is kept by every step. -/
theorem Upload.Step.keeps {upload' : Upload} {event seen : Seen}
    (h : Step limit upload event upload') (holds : seen.Holds upload.connection) :
  seen.Holds upload'.connection
  := by
  match seen, holds with
  | .polled .ended, ⟨⟨cap, state⟩, le⟩ =>
      cases h with
      | service hungUp =>
        rw [Seen.Holds, service_body]
        · exact ⟨⟨cap, state⟩, le⟩
        · rw [state]
          nofun
      | pollWhole =>
        unfold Connection.pollWhole
        simp only [state]
        exact ⟨⟨cap, state⟩, le⟩
      | pollPiece _ size =>
        unfold Connection.pollPiece Connection.handPiece
        simp only [state, takePiece_none.mpr le]
        exact ⟨⟨cap, state⟩, le⟩
  | .polled (.whole bytes), state =>
      have state : upload.connection.body.state = .read bytes := state
      cases h with
      | service hungUp =>
        rw [Seen.Holds, service_body]
        · apply state
        · rw [state]
          nofun
      | pollWhole =>
        unfold Connection.pollWhole
        simp only [state]
        apply state
      | pollPiece _ size =>
        unfold Connection.pollPiece Connection.handPiece
        simp only [state]
        apply state
  | .polled (.piece _), _ => trivial
  | .polled .pending, _ => trivial
  | .polled .cancelled, _ => trivial
  | .serviced, _ => trivial

/-! ### Whole runs -/

theorem handed_append (trace others : List Seen) :
  handed (trace ++ others) = handed trace ++ handed others
  := by
  induction trace with
  | nil => rfl
  | cons seen trace ih =>
    match seen with
    | .polled (.piece piece) => simp only [cons_append, handed, ih, append_assoc]
    | .polled .ended | .polled (.whole _) | .polled .pending | .polled .cancelled | .serviced =>
        simp only [cons_append, handed, ih]

/-- A run of an upload whose body is at the start of so many bytes. -/
def Upload.Run (limit : ℕ) (framing : Framing) (bytes : Bytes) : List Seen → Upload → Prop :=
  Machine.Run (Upload.Start framing bytes) (Upload.Step limit)

/-- In every state a run comes to, it stands where what was handed out has brought it, and what
was answered holds. -/
theorem Upload.Run.stands {framing : Framing} {bytes : Bytes} {trace : List Seen}
    (run : Upload.Run limit framing bytes trace upload) (short : ShortLines framing limit bytes) :
  Stands limit framing bytes (handed trace) upload ∧
    ∀ seen ∈ trace, seen.Holds upload.connection
  := by
  apply run.history (P := fun trace upload => Stands limit framing bytes (handed trace) upload ∧
    ∀ seen ∈ trace, seen.Holds upload.connection)
  · rintro upload ⟨inbox, wire, rfl, rfl⟩
    constructor
    · exact ⟨rfl, rfl, rfl, rfl, rfl⟩
    · nofun
  · rintro trace upload event upload' _ ⟨stands, holds⟩ step
    constructor
    · rw [handed_append]
      cases step with
      | service hungUp wants sent =>
        rw [handed, handed, append_nil]
        · apply service_stands short stands wants sent
        · nofun
      | pollWhole =>
        have piece : handed [.polled (upload.connection.pollWhole limit).1] = [] := by
          cases answer : (upload.connection.pollWhole limit).1 with
          | piece bytes =>
            exfalso
            unfold Connection.pollWhole at answer
            dsimp only at answer
            repeat' split at answer
            all_goals cases answer
          | _ => rfl
        rw [piece, append_nil]
        apply pollWhole_stands short stands
      | pollPiece _ size => apply pollPiece_stands short stands size
    · intro seen mem
      rw [mem_append, mem_singleton] at mem
      obtain mem | rfl := mem
      · apply step.keeps (holds seen mem)
      · apply step.holds

/-- An upload is delivered as it should be: what was handed out is the body once its stream has
ended, or the whole of it was read, and what follows it is still in the inbox or on the wire; no
more than the cap is handed out; the body settles as all that the client sends has it, and it
settles once that has arrived; and what is subtracted is never more than what it is subtracted
from. -/
structure Delivers (limit : ℕ) (framing : Framing) (bytes : Bytes) (trace : List Seen)
    (upload : Upload) : Prop where
  ended : .polled .ended ∈ trace →
    Decodes framing bytes (handed trace) (upload.connection.inbox ++ upload.wire)
  whole : ∀ body, .polled (.whole body) ∈ trace → body.length ≤ limit ∧
    Decodes framing bytes body (upload.connection.inbox ++ upload.wire)
  within : (handed trace).length ≤ limit
  settled : upload.connection.body.state.Tells (verdict framing limit bytes)
  settles : upload.connection.body.state.Asked →
    ¬ (upload.connection.service upload.wire true).body.state.Asked
  wanted : upload.connection.body.state.Asked → ∀ length, framing = .length length →
    upload.connection.body.received ≤ length
  handedOut : upload.connection.body.state.Asked →
    upload.connection.body.decoded.length ≤ upload.connection.body.received
  allowed : upload.connection.body.state.Asked →
    upload.connection.body.received - upload.connection.body.decoded.length ≤ limit
  taken : ∀ cap ended, upload.connection.body.state = .streaming cap ended →
    upload.connection.body.taken ≤ upload.connection.body.decoded.length
  grows : upload.connection.body.state.Asked → ∀ arrived,
    upload.connection.body.decoded.length ≤
      (Connection.takeBody
        { upload.connection with inbox := upload.connection.inbox ++ arrived } limit).2.1.decoded.length

section Delivers

variable {limit : ℕ} {framing : Framing} {bytes given : Bytes} {upload : Upload}

theorem Stands.tells (h : Stands limit framing bytes given upload)
    (short : ShortLines framing limit bytes) :
  upload.connection.body.state.Tells (verdict framing limit bytes)
  := by
  unfold Stands at h
  split at h
  next state =>
    rw [state]
    trivial
  next state =>
    rw [state]
    trivial
  next state =>
    rw [state]
    trivial
  next state =>
    rw [state]
    obtain ⟨sent, cleared, rfl, _, reads, _⟩ := h
    apply reads.progress.verdict short (.inl nofun)
  next state =>
    rw [state]
    apply h.2.1
  next state =>
    rw [state]
    apply h.2.2
  next state =>
    rw [state]
    apply h.2.2
  next => apply False.elim h
  next => apply False.elim h

/-- A body that is asked for has come so far. -/
theorem Stands.going (h : Stands limit framing bytes given upload)
    (asked : upload.connection.body.state.Asked) :
  ∃ sent cleared, Going limit framing bytes given .more upload sent cleared
  := by
  unfold Stands at h
  split at h
  next state => simp [state, BodyState.Asked] at asked
  next =>
    obtain ⟨rfl, rfl, sent, going⟩ := h
    use sent, []
  next => apply h.2
  next state => simp [state, BodyState.Asked] at asked
  next state => simp [state, BodyState.Asked] at asked
  next state => simp [state, BodyState.Asked] at asked
  next state => simp [state, BodyState.Asked] at asked
  next => apply False.elim h
  next => apply False.elim h

/-- Once the client has hung up, a body that is read settles. -/
theorem moveBody_settles (connection : Connection) (limit : ℕ) (streaming : Bool) :
  ¬ (connection.moveBody limit streaming true).body.state.Asked
  := by
  unfold Connection.moveBody
  dsimp only
  split
  next =>
    split
    next => nofun
    next => nofun
  next => nofun
  next => nofun
  next => nofun

end Delivers

/-! ### A long trailer -/

/-- The end of a chunked body whose trailer is one line of so many bytes, up to that line's end. -/
def openTrailer (length : ℕ) : Bytes :=
  [48, lineFeed] ++ List.replicate length 97

/-- The rest of it: the end of the line, and the end of the trailers. -/
def closedTrailer : Bytes :=
  [lineFeed, lineFeed]

theorem feed_openTrailer (length limit : ℕ) (bytes : Bytes) :
  (start.push (openTrailer length ++ bytes)).feed limit =
    Feeding.feed ⟨⟨.trailers, 0⟩, List.replicate length 97 ++ bytes, []⟩ limit
  := by
  have ends : lineFeed ∉ [(48 : UInt8)] := by decide
  have zero : chunkSize (stripReturn [48]) = some 0 := by decide
  apply feed_next
  exact turn_of_turned (Turned.lastSize ends zero)

theorem lineFeed_notMem_replicate (length : ℕ) : lineFeed ∉ List.replicate length (97 : UInt8) := by
  rw [mem_replicate]
  rintro ⟨_, absurd_⟩
  cases absurd_

/-- The line is refused before its end has arrived. -/
theorem openTrailer_malformed {length : ℕ} (long : maxChunkLine < length) (limit : ℕ) :
  Feeding.feed ⟨.new, openTrailer length, []⟩ limit =
    (.malformed, ⟨⟨.trailers, 0⟩, List.replicate length 97, []⟩)
  := by
  have fed : Feeding.feed ⟨.new, openTrailer length ++ [], []⟩ limit = _ :=
    feed_openTrailer length limit []
  rw [append_nil, append_nil] at fed
  have open_ : (List.replicate length (97 : UInt8)).idxOf? lineFeed = none := by
    rw [idxOf?_eq_none_iff]
    apply lineFeed_notMem_replicate
  rw [fed]
  apply feed_stop
  rw [turn_wait (.inr (.inr rfl)) limit open_, if_pos]
  rw [length_replicate]
  apply long

/-- With its end, it is a trailer as any other. -/
theorem closedTrailer_done {length : ℕ} (some : 0 < length) (fits : length + 2 ≤ maxHead)
    (limit : ℕ) :
  verdict .chunked limit (openTrailer length ++ closedTrailer) = .done
  := by
  have ends := lineFeed_notMem_replicate length
  have spelled : stripReturn (List.replicate length 97) ≠ [] := by
    intro empty
    obtain ended | ended := lineEnd_of_empty empty
    all_goals
      obtain _ | length := length
      · cases some
      · cases ended
  have le : 0 + ((List.replicate length (97 : UInt8)).length + 1) ≤ maxHead := by
    rw [length_replicate]
    omega
  have le' : 0 + ((List.replicate length (97 : UInt8)).length + 1) + (([] : Bytes).length + 1) ≤
      maxHead := by
    rw [length_replicate, length_nil]
    omega
  have last : Turned limit
      ⟨⟨.trailers, 0 + ((List.replicate length (97 : UInt8)).length + 1)⟩, [lineFeed], []⟩ _ :=
    Turned.lastTrailer (not_mem_nil : lineFeed ∉ []) rfl le'
  rw [verdict, feed_openTrailer, closedTrailer,
    feed_next (turn_of_turned (Turned.trailer ends spelled le)), feed_next (turn_of_turned last),
    feed_stop (turn_done rfl limit)]

theorem pollWhole_chunked (limit : ℕ) :
  Connection.pollWhole ⟨.dispatched, [], .new .chunked, false⟩ limit =
    (.pending,
      ⟨.dispatched, [], ⟨.chunked, .reading limit, [], 0, 0, .new, 1⟩, false⟩)
  := by
  have fed : Feeding.feed ⟨.new, [], []⟩ limit = (.more, ⟨.new, [], []⟩) := feed_start limit
  simp [Connection.pollWhole, Connection.declaredOver, Body.new, Connection.advanceBody,
    Connection.moveBody, Connection.takeBody, fed, Connection.park]

end Vilan.Http
