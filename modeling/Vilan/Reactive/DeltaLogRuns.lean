import Vilan.Reactive.DeltaLog

/-!
# Runs of the op log

A log is used by a writer, which records ops, and by any number of consumers, which mint
cursors, drain them and retire them.  A run is any sequence of these calls.  What a cursor is
owed is read off the trace: the ops recorded since the cursor was minted or last drained.
-/

namespace Vilan

open List

namespace DeltaLog

variable {O : Type*}

/-- A call to a log, with what it answered. -/
inductive Event (O : Type*) where
  /-- An op was recorded; `full` when the record found the log at its limit, once it was
  trimmed. -/
  | record (op : O) (full : Bool)
  /-- A cursor was minted. -/
  | cursor (cursor : DeltaCursor)
  /-- A cursor was retired. -/
  | dropCursor (cursor : DeltaCursor)
  /-- A cursor was drained. -/
  | since (cursor : DeltaCursor) (answer : Option (List O))

/-- A log and the counter that fresh identities are drawn from. -/
structure Host (O : Type*) where
  log : DeltaLog O
  nextId : ℕ

/-- One call.  Identities are also drawn by others, so that a cursor may get any that is not
yet given out. -/
inductive Step : Host O → Event O → Host O → Prop
  | record (host : Host O) (op : O) (full : Bool)
      (h : decide (host.log.limit ≤ host.log.backlog) = full) :
      Step host (.record op full) { host with log := host.log.record op }
  | cursor (host : Host O) (id : ℕ) (fresh : host.nextId ≤ id) :
      Step host (.cursor (host.log.cursor id).2) ⟨(host.log.cursor id).1, id + 1⟩
  | dropCursor (host : Host O) (cursor : DeltaCursor) :
      Step host (.dropCursor cursor) { host with log := host.log.dropCursor cursor }
  | since (host : Host O) (cursor : DeltaCursor) (answer : Option (List O))
      (h : host.log.answer cursor = answer) :
      Step host (.since cursor answer) { host with log := (host.log.since cursor).1 }

/-- Runs of a log with the given limit. -/
def Run (limit : ℕ) : List (Event O) → Host O → Prop :=
  Machine.Run (fun host => host.log = withLimit limit) Step

/-! ### What a trace says -/

/-- Whether `cursor` is live after an event. -/
def liveAfter (cursor : DeltaCursor) (live : Bool) : Event O → Bool
  | .cursor minted => if minted = cursor then true else live
  | .dropCursor dropped => if dropped = cursor then false else live
  | .record _ _ => live
  | .since _ _ => live

/-- Whether `cursor` has been minted and not retired. -/
def live (cursor : DeltaCursor) (trace : List (Event O)) : Bool :=
  trace.foldl (liveAfter cursor) false

/-- What `cursor` is owed after an event. -/
def owedAfter (cursor : DeltaCursor) (owed : List O) : Event O → List O
  | .record op _ => owed ++ [op]
  | .cursor minted => if minted = cursor then [] else owed
  | .since drained _ => if drained = cursor then [] else owed
  | .dropCursor _ => owed

/-- The ops recorded since `cursor` was minted or last drained, in order. -/
def owed (cursor : DeltaCursor) (trace : List (Event O)) : List O :=
  trace.foldl (owedAfter cursor) []

/-- Whether `cursor` has lost history after an event. -/
def overflowedAfter (cursor : DeltaCursor) (overflowed : Bool) : Event O → Bool
  | .record _ full => overflowed || full
  | .cursor minted => if minted = cursor then false else overflowed
  | .since drained _ => if drained = cursor then false else overflowed
  | .dropCursor _ => overflowed

/-- Whether a record has found the log at its limit since `cursor` was minted or last
drained. -/
def overflowed (cursor : DeltaCursor) (trace : List (Event O)) : Bool :=
  trace.foldl (overflowedAfter cursor) false

/-- What the trace says `cursor` is to be answered. -/
def expected (cursor : DeltaCursor) (trace : List (Event O)) : Option (List O) :=
  if overflowed cursor trace then none else some (owed cursor trace)

theorem live_snoc (cursor : DeltaCursor) (trace : List (Event O)) (event : Event O) :
  live cursor (trace ++ [event]) = liveAfter cursor (live cursor trace) event
  := by
  rw [live, foldl_append]
  rfl

theorem overflowed_snoc (cursor : DeltaCursor) (trace : List (Event O)) (event : Event O) :
  overflowed cursor (trace ++ [event])
    = overflowedAfter cursor (overflowed cursor trace) event
  := by
  rw [overflowed, foldl_append]
  rfl

theorem expected_snoc (cursor : DeltaCursor) (trace : List (Event O)) (event : Event O) :
  expected cursor (trace ++ [event])
    = if overflowedAfter cursor (overflowed cursor trace) event then none
      else some (owedAfter cursor (owed cursor trace) event)
  := by
  rw [expected, overflowed_snoc, owed, foldl_append]
  rfl

theorem expected_record (cursor : DeltaCursor) (trace : List (Event O)) (op : O)
    (full : Bool) :
  expected cursor (trace ++ [.record op full])
    = if full then none else (expected cursor trace).map (· ++ [op])
  := by
  rw [expected_snoc, overflowedAfter, owedAfter, expected]
  cases overflowed cursor trace <;> cases full <;> rfl

theorem expected_cursor (cursor minted : DeltaCursor) (trace : List (Event O)) :
  expected cursor (trace ++ [.cursor minted])
    = if minted = cursor then some [] else expected cursor trace
  := by
  rw [expected_snoc, overflowedAfter, owedAfter]
  by_cases h : minted = cursor
  · simp [h]
  · simp [h, expected]

theorem expected_dropCursor (cursor dropped : DeltaCursor) (trace : List (Event O)) :
  expected cursor (trace ++ [.dropCursor dropped]) = expected cursor trace
  := expected_snoc cursor trace _

theorem expected_since (cursor drained : DeltaCursor) (answer : Option (List O))
    (trace : List (Event O)) :
  expected cursor (trace ++ [.since drained answer])
    = if drained = cursor then some [] else expected cursor trace
  := by
  rw [expected_snoc, overflowedAfter, owedAfter]
  by_cases h : drained = cursor
  · simp [h]
  · simp [h, expected]

/-! ### The log does as its trace says -/

/-- The log is well formed, its live cursors are those the trace says, and each of them
would be answered what the trace says. -/
structure Explained (trace : List (Event O)) (host : Host O) : Prop where
  wellFormed : host.log.WellFormed
  id_lt : ∀ cursor ∈ host.log.cursors, cursor.id < host.nextId
  mem_cursors : ∀ cursor, cursor ∈ host.log.cursors ↔ live cursor trace = true
  answer_eq : ∀ cursor ∈ host.log.cursors, host.log.answer cursor = expected cursor trace

variable {limit : ℕ} {host : Host O} {trace after : List (Event O)}

theorem explained_start (h : host.log = withLimit limit) :
  Explained [] host
  := by
  refine ⟨?_, ?_, ?_, ?_⟩ <;> rw [h]
  · apply wellFormed_withLimit
  · simp [withLimit]
  · simp [withLimit, live]
  · simp [withLimit]

theorem Explained.record (h : Explained trace host) (op : O) :
  Explained (trace ++ [.record op (decide (host.log.limit ≤ host.log.backlog))])
    { host with log := host.log.record op }
  := by
  constructor
  · apply h.wellFormed.record
  · rw [cursors_record]
    apply h.id_lt
  · intro cursor
    rw [cursors_record, h.mem_cursors, live_snoc, liveAfter]
  · intro cursor hcursor
    rw [cursors_record] at hcursor
    rw [answer_record h.wellFormed hcursor, expected_record, h.answer_eq cursor hcursor]
    simp only [decide_eq_true_iff]

theorem Explained.cursor (h : Explained trace host) {id : ℕ} (fresh : host.nextId ≤ id) :
  Explained (trace ++ [.cursor (host.log.cursor id).2]) ⟨(host.log.cursor id).1, id + 1⟩
  := by
  constructor
  · apply h.wellFormed.cursor
  · intro cursor hcursor
    rcases mem_cursors_cursor.mp hcursor with hold | rfl
    · have := h.id_lt cursor hold
      simp only
      omega
    · apply Nat.lt_succ_self
  · intro cursor
    rw [mem_cursors_cursor, h.mem_cursors, live_snoc, DeltaLog.cursor, liveAfter]
    by_cases heq : (⟨id⟩ : DeltaCursor) = cursor
    · simp [heq]
    · simp [heq, Ne.symm heq]
  · intro cursor hcursor
    rw [expected_cursor, DeltaLog.cursor]
    split
    case isTrue heq =>
      subst heq
      apply answer_cursor_self
    case isFalse hne =>
      rcases mem_cursors_cursor.mp hcursor with hold | rfl
      · rw [← h.answer_eq cursor hold]
        apply answer_cursor_of_ne
        have := h.id_lt cursor hold
        omega
      · contradiction

theorem Explained.dropCursor (h : Explained trace host) (dropped : DeltaCursor) :
  Explained (trace ++ [.dropCursor dropped]) { host with log := host.log.dropCursor dropped }
  := by
  constructor
  · apply h.wellFormed.dropCursor
  · intro cursor hcursor
    apply h.id_lt cursor (mem_cursors_dropCursor.mp hcursor).1
  · intro cursor
    rw [mem_cursors_dropCursor, h.mem_cursors, live_snoc, liveAfter]
    by_cases heq : dropped = cursor
    · simp [heq]
    · simp [heq, Ne.symm heq]
  · intro cursor hcursor
    rw [answer_dropCursor, expected_dropCursor]
    apply h.answer_eq cursor (mem_cursors_dropCursor.mp hcursor).1

theorem Explained.since (h : Explained trace host) (drained : DeltaCursor)
    (answer : Option (List O)) :
  Explained (trace ++ [.since drained answer])
    { host with log := (host.log.since drained).1 }
  := by
  have hcursors : (host.log.since drained).1.cursors = host.log.cursors := by
    rw [since_fst]
  constructor
  · apply h.wellFormed.since
  · rw [hcursors]
    apply h.id_lt
  · intro cursor
    rw [hcursors, h.mem_cursors, live_snoc, liveAfter]
  · intro cursor hcursor
    rw [hcursors] at hcursor
    rw [expected_since]
    split
    case isTrue heq =>
      subst heq
      apply answer_since_self
    case isFalse hne =>
      rw [answer_since_of_ne _ (Ne.symm hne), h.answer_eq cursor hcursor]

theorem Run.explained (run : Run limit trace host) :
  Explained trace host
  := by
  apply Machine.Run.history (P := Explained) _ _ run
  · intro host h
    apply explained_start h
  · intro trace host event host' _ h hstep
    cases hstep with
    | record op full hfull =>
      subst hfull
      apply h.record
    | cursor id fresh => apply h.cursor fresh
    | dropCursor cursor => apply h.dropCursor
    | since cursor answer => apply h.since

/-- The log delivers without loss, duplication or reordering: a live cursor is answered
exactly the ops recorded since it was minted or last drained, in order, unless a record has
found the log at its limit since then, and the log holds the ops from `base` to `version`. -/
theorem run_delivers {limit : ℕ} {trace : List (Event O)} {host : Host O}
    (run : Run limit trace host) :
  (host.log.base ≤ host.log.version
      ∧ (host.log.ops.length : ℤ) = host.log.version - host.log.base)
    ∧ ∀ cursor ∈ host.log.cursors,
        (host.log.since cursor).2
          = if overflowed cursor trace then none else some (owed cursor trace)
  := by
  obtain ⟨hlog, -, -, hanswer⟩ := run.explained
  exact ⟨⟨hlog.base_le, hlog.length_eq⟩, hanswer⟩

/-- A cursor is minted, an op recorded: the cursor is owed the op. -/
theorem run_delivers_one_op :
  ((((withLimit 8 : DeltaLog ℕ).cursor 0).1.record 5).since ⟨0⟩).2 = some [5]
  := by
  have run₀ : Run 8 [] (⟨withLimit 8, 0⟩ : Host ℕ) := Machine.Run.start rfl
  have run₁ := Machine.Run.step run₀ (.cursor _ 0 (le_refl 0))
  have run₂ : Run 8 _ _ := Machine.Run.step run₁ (.record _ 5 false (by decide))
  have h := (run_delivers run₂).2 ⟨0⟩ (by decide)
  rw [h]
  rfl

/-! ### A consumer that keeps up -/

/-- Whether an event is a record. -/
def Event.isRecord : Event O → Bool
  | .record _ _ => true
  | _ => false

/-- After every record of the trace, `cursor` is drained before the next. -/
def KeepsUp (cursor : DeltaCursor) (trace : List (Event O)) : Prop :=
  ∀ before op full after, trace = before ++ .record op full :: after →
    ∃ between answer rest, after = between ++ .since cursor answer :: rest
      ∧ ∀ event ∈ between, event.isRecord = false

theorem live_of_minted (cursor : DeltaCursor) (before : List (Event O))
    (hlive : .dropCursor cursor ∉ after) :
  live cursor (before ++ .cursor cursor :: after) = true
  := by
  induction after using List.reverseRecOn with
  | nil => rw [live_snoc, liveAfter, if_pos rfl]
  | append_singleton after event ih =>
    rw [mem_append, mem_singleton, not_or] at hlive
    rw [← cons_append, ← append_assoc, live_snoc, ih hlive.1]
    cases event with
    | record | since => rfl
    | cursor minted => simp [liveAfter]
    | dropCursor dropped =>
      have : dropped ≠ cursor := by
        rintro rfl
        exact hlive.2 rfl
      simp [liveAfter, this]

/-- A live cursor is answered what the trace before says. -/
theorem Run.answer_eq {before : List (Event O)} {cursor : DeltaCursor} {answer : Option (List O)}
    (run : Run limit (before ++ .since cursor answer :: after) host)
    (hlive : live cursor before = true) :
  answer = expected cursor before
  := by
  obtain ⟨host₁, host₂, run₁, hstep⟩ := Machine.Run.exists_step run
  have h := Run.explained run₁
  cases hstep with
  | since _ _ hanswer =>
    rw [← hanswer]
    apply h.answer_eq cursor ((h.mem_cursors cursor).mpr hlive)

theorem overflowed_of_not_full (cursor : DeltaCursor) (before : List (Event O))
    (h : ∀ op full, .record op full ∈ after → full = false) :
  overflowed cursor (before ++ .cursor cursor :: after) = false
  := by
  induction after using List.reverseRecOn with
  | nil => rw [overflowed_snoc, overflowedAfter, if_pos rfl]
  | append_singleton after event ih =>
    have hafter := ih (fun op full hmem => h op full (mem_append_left _ hmem))
    rw [← cons_append, ← append_assoc, overflowed_snoc, hafter]
    cases event with
    | record op full =>
      rw [h op full (by simp)]
      rfl
    | cursor | since => simp [overflowedAfter]
    | dropCursor => rfl

/-- A record that finds the log at its limit is owed to every cursor as a loss, until the
cursor is told of it. -/
theorem Run.overflowed_of_full {before : List (Event O)} {cursor : DeltaCursor}
    (run : Run limit (before ++ .cursor cursor :: after) host) (hlive : .dropCursor cursor ∉ after)
    (hanswered : .since cursor none ∉ after) {op : O} (hfull : .record op true ∈ after) :
  overflowed cursor (before ++ .cursor cursor :: after) = true
  := by
  induction after using List.reverseRecOn generalizing host with
  | nil => simp at hfull
  | append_singleton after event ih =>
    rw [mem_append, mem_singleton] at hlive hanswered hfull
    rw [not_or] at hlive hanswered
    rw [← cons_append, ← append_assoc] at run ⊢
    obtain ⟨host₁, host₂, run₁, hstep⟩ := Machine.Run.exists_step run
    have hminted := live_of_minted cursor before hlive.1
    have h := Run.explained run₁
    rw [overflowed_snoc]
    cases hstep with
    | record op' =>
      rcases hfull with hfull | hfull
      · rw [ih run₁ hlive.1 hanswered.1 hfull]
        rfl
      · rw [Event.record.injEq] at hfull
        rw [← hfull.2, overflowedAfter, Bool.or_true]
    | cursor id fresh =>
      have hfull := hfull.resolve_right (by simp)
      rw [ih run₁ hlive.1 hanswered.1 hfull, DeltaLog.cursor, overflowedAfter, if_neg]
      rintro rfl
      have := h.id_lt _ ((h.mem_cursors _).mpr hminted)
      simp only at this
      omega
    | dropCursor dropped =>
      have hfull := hfull.resolve_right (by simp)
      apply ih run₁ hlive.1 hanswered.1 hfull
    | since drained answer hanswer =>
      have hfull := hfull.resolve_right (by simp)
      have hlost := ih run₁ hlive.1 hanswered.1 hfull
      rw [hlost, overflowedAfter, if_neg]
      rintro rfl
      apply hanswered.2
      rw [← hanswer, h.answer_eq _ ((h.mem_cursors _).mpr hminted), expected, if_pos hlost]

/-- A consumer that keeps up is never answered `none` exactly when no record, while it is
live, finds that the log's laggiest consumer makes it hold as many ops as its limit. -/
theorem keepsUp_answered_iff {limit : ℕ} {before after : List (Event O)}
    {cursor : DeltaCursor} {host : Host O}
    (run : Run limit (before ++ .cursor cursor :: after) host)
    (hlive : .dropCursor cursor ∉ after) (hup : KeepsUp cursor after) :
  (∀ answer, .since cursor answer ∈ after → answer ≠ none)
    ↔ ∀ op full, .record op full ∈ after → full = false
  := by
  constructor
  · intro hanswered op full hrecord
    by_contra hfull
    rw [Bool.not_eq_false] at hfull
    subst hfull
    obtain ⟨first, last, rfl⟩ := append_of_mem hrecord
    obtain ⟨between, answer, rest, rfl, -⟩ := hup _ _ _ _ rfl
    have hsplit : first ++ .record op true :: (between ++ .since cursor answer :: rest)
        = first ++ .record op true :: between ++ .since cursor answer :: rest := by simp
    rw [hsplit] at run hlive hanswered
    rw [← cons_append, ← append_assoc] at run
    rw [mem_append, not_or] at hlive
    obtain ⟨host₁, -, run₁, -⟩ := Machine.Run.exists_step run
    apply hanswered answer (by simp)
    rw [Run.answer_eq run (live_of_minted cursor before hlive.1), expected, if_pos]
    have hfull : .record op true ∈ first ++ .record op true :: between := by simp
    apply Run.overflowed_of_full run₁ hlive.1 _ hfull
    intro hnone
    apply hanswered none (mem_append_left _ hnone) rfl
  · intro hroom answer hsince
    obtain ⟨first, last, rfl⟩ := append_of_mem hsince
    rw [mem_append, not_or] at hlive
    rw [← cons_append, ← append_assoc] at run
    rw [Run.answer_eq run (live_of_minted cursor before hlive.1), expected,
      overflowed_of_not_full cursor before
        (fun op full hmem => hroom op full (mem_append_left _ hmem))]
    simp

theorem keepsUp_answered_one_op :
  .since ⟨0⟩ (some [5]) ∈ [Event.record 5 false, .since ⟨0⟩ (some [5])] ∧
    ∀ answer, .since ⟨0⟩ answer ∈ [Event.record 5 false, .since ⟨0⟩ (some [5])] → answer ≠ none
  := by
  refine ⟨by simp, ?_⟩
  have run₀ : Run 1 [] (⟨withLimit 1, 0⟩ : Host ℕ) := Machine.Run.start rfl
  have run₁ := Machine.Run.step run₀ (.cursor _ 0 (by decide))
  have run₂ := Machine.Run.step run₁ (.record _ 5 false (by decide))
  have run₃ := Machine.Run.step run₂ (.since _ ⟨0⟩ (some [5]) (by decide))
  apply (@keepsUp_answered_iff ℕ 1 [] [.record 5 false, .since ⟨0⟩ (some [5])] ⟨0⟩ _ run₃
    (by simp) _).mpr
  · simp
  · rintro (_ | ⟨_, _ | ⟨_, before⟩⟩) op full after heq <;> simp at heq
    use [], some [5], []
    simp [← heq.2]

/-- One cursor that never drains takes the history of one that is drained after every
record: at limit `1`, the second record finds the log full. -/
theorem laggard_costs_current_consumer :
  ¬ ∀ (limit : ℕ) (before after : List (Event ℕ)) (cursor : DeltaCursor) (host : Host ℕ),
    1 ≤ limit → Run limit (before ++ .cursor cursor :: after) host →
    .dropCursor cursor ∉ after → KeepsUp cursor after →
    ∀ answer, .since cursor answer ∈ after → answer ≠ none
  := by
  intro h
  have run₀ : Run 1 [] (⟨withLimit 1, 0⟩ : Host ℕ) := Machine.Run.start rfl
  have run₁ := Machine.Run.step run₀ (.cursor _ 0 (by decide))
  have run₂ := Machine.Run.step run₁ (.cursor _ 1 (by decide))
  have run₃ := Machine.Run.step run₂ (.record _ 5 false (by decide))
  have run₄ := Machine.Run.step run₃ (.since _ ⟨1⟩ (some [5]) (by decide))
  have run₅ := Machine.Run.step run₄ (.record _ 6 true (by decide))
  have run₆ := Machine.Run.step run₅ (.since _ ⟨1⟩ none (by decide))
  apply h 1 [.cursor ⟨0⟩]
    [.record 5 false, .since ⟨1⟩ (some [5]), .record 6 true, .since ⟨1⟩ none] ⟨1⟩ _ le_rfl
    run₆ (by simp) _ none (by simp) rfl
  rintro (_ | ⟨_, _ | ⟨_, _ | ⟨_, _ | ⟨_, before⟩⟩⟩⟩) op full after heq <;> simp at heq
  · use [], some [5], [.record 6 true, .since ⟨1⟩ none]
    simp [← heq.2]
  · use [], none, []
    simp [← heq.2.2.2]

end DeltaLog

end Vilan
