import Vilan.Rpc.KeyedSource

/-!
# Keyed mirrors follow their cell

A keyed cell is written to, and any number of consumers read its log, each with a cursor of its own:
forwards, which send patches, and readers, which replay positional ops.  A notification may come
after any number of writes.  After each patch, a mirror holds the list that the cell held when the
patch was sent, and so does a reader.
-/

namespace Vilan

open List Function

/-- A consumer of a cell, with what it has been told and what the cell held each time. -/
inductive KeyedConsumer (T K : Type*) where
  | forward (sent : List (List (Delta K T) × List T))
  | reader (seed : List T) (drained : List (List (SeqOp T) × List T))

/-- A cell with its consumers, by the identities of their cursors, and the counter that fresh
identities are drawn from. -/
structure KeyedHost (T K H : Type*) where
  cell : KeyedCell T K H
  nextId : ℕ
  consumers : ℕ → Option (KeyedConsumer T K)

namespace KeyedHost

open Positions KeyedCell KeyedSource

variable {T K H : Type*} [DecidableEq H] (keying : Keying T K H)

/-- What is done to a cell. -/
inductive Event (T K : Type*) where
  | insert (value : T)
  | remove (key : K)
  | update (key : K) (mutate : T → T)
  | set (value : List T)
  /-- A forward subscribes and sends its seed. -/
  | forward (id : ℕ)
  /-- A reader takes its seed. -/
  | reader (id : ℕ)
  /-- A forward is notified. -/
  | notify (id : ℕ)
  /-- A reader drains its cursor. -/
  | drain (id : ℕ)
  | drop (id : ℕ)

/-- A consumer takes a cursor.  Identities are also drawn by others, so that it may get any that is
not yet given out. -/
def join (id : ℕ) (consumer : KeyedConsumer T K) (host : KeyedHost T K H) :
    Option (KeyedHost T K H) :=
  if host.nextId ≤ id then
    some
      { cell := host.cell.cursor id
        nextId := id + 1
        consumers := Function.update host.consumers id (some consumer) }
  else none

/-- A forward sends what its cursor has not been told, unless that is nothing. -/
def notify (id : ℕ) (sent : List (List (Delta K T) × List T)) (host : KeyedHost T K H) :
    KeyedHost T K H :=
  let (cell, ops) := host.cell.since ⟨id⟩
  { host with
    cell := cell
    consumers := Function.update host.consumers id
      (some (.forward (if ops.length > 0 then sent ++ [(ops, cell.elements)] else sent))) }

/-- A reader takes what its cursor has not been told. -/
def drain (id : ℕ) (seed : List T) (drained : List (List (SeqOp T) × List T))
    (host : KeyedHost T K H) : KeyedHost T K H :=
  let (cell, ops) := host.cell.keyedCellSince ⟨id⟩
  { host with
    cell := cell
    consumers := Function.update host.consumers id
      (some (.reader seed (drained ++ [(ops, cell.elements)]))) }

/-- What an event does, if it can happen and does not panic. -/
def step (host : KeyedHost T K H) : Event T K → Option (KeyedHost T K H)
  | .insert value => (host.cell.insert keying value).map fun cell => { host with cell := cell }
  | .remove key => (host.cell.remove keying key).map fun cell => { host with cell := cell }
  | .update key mutate =>
      (host.cell.update keying key mutate).map fun cell => { host with cell := cell }
  | .set value => some { host with cell := host.cell.set keying value }
  | .forward id => host.join id (.forward [([.reset host.cell.elements], host.cell.elements)])
  | .reader id => host.join id (.reader host.cell.elements [])
  | .notify id =>
      match host.consumers id with
      | some (.forward sent) => some (host.notify id sent)
      | _ => none
  | .drain id =>
      match host.consumers id with
      | some (.reader seed drained) => some (host.drain id seed drained)
      | _ => none
  | .drop id =>
      some
        { host with
          cell := host.cell.dropCursor ⟨id⟩
          consumers := Function.update host.consumers id none }

/-- An update leaves the key unchanged, and a wholesale write has distinct keys. -/
def Event.Keyed : Event T K → Prop
  | .update key mutate => ∀ value, keying.of value = keying.hash key →
      keying.of (mutate value) = keying.hash key
  | .set value => (value.map keying.of).Nodup
  | _ => True

/-- A cell with distinct keys and no consumers. -/
def Fresh (host : KeyedHost T K H) : Prop :=
  (∃ initial, (initial.map keying.of).Nodup ∧ host.cell = KeyedCell.new keying initial) ∧
    host.consumers = fun _ => none

/-- The steps of a cell and its consumers. -/
def Step (host : KeyedHost T K H) (event : Event T K) (next : KeyedHost T K H) : Prop :=
  event.Keyed keying ∧ host.step keying event = some next

/-! ### What a cursor is owed -/

variable {keying} {cell next : KeyedCell T K H} {id other : ℕ} {list : List T}

/-- A consumer that holds `list` is owed the ops that lead from there to the cell, or the whole
collection. -/
structure Owed (keying : Keying T K H) (cell : KeyedCell T K H) (id : ℕ) (list : List T) : Prop where
  mem : ⟨id⟩ ∈ cell.log.cursors
  answer : cell.log.answer ⟨id⟩ = none ∨ ∃ ops, cell.log.answer ⟨id⟩ = some ops ∧
    AllRecorded keying ops list ∧ replayed ops list = cell.elements

variable {op : SeqOp (KeyedElement K T)} {consumer : KeyedConsumer T K}

theorem Owed.write (owed : Owed keying cell id list) (wellFormed : cell.log.WellFormed)
    (writes : Writes keying cell next op) :
  Owed keying next id list
  := by
  constructor
  · rw [writes.log, DeltaLog.cursors_record]
    exact owed.mem
  · rw [writes.log, DeltaLog.answer_record wellFormed owed.mem]
    split
    · exact Or.inl rfl
    · rcases owed.answer with none | ⟨ops, some, recorded, replayed_eq⟩
      · left
        rw [none]
        rfl
      · right
        refine ⟨ops ++ [op], ?_, ?_, ?_⟩
        · rw [some]
          rfl
        · apply Replay.along_append.mpr
          refine ⟨recorded, ?_, trivial⟩
          have held : Replay.replay (fun op list => (strip op).apply list) ops list = cell.elements :=
            replayed_eq
          rw [held]
          exact writes.recorded
        · have held : replayed (ops ++ [op]) list = (strip op).apply (replayed ops list) :=
            Replay.replay_append ops [op] list
          rw [held, replayed_eq, writes.elements]

theorem Owed.cursor (owed : Owed keying cell id list) (ne : id ≠ other) :
  Owed keying (cell.cursor other) id list
  := by
  constructor
  · apply DeltaLog.mem_cursors_cursor.mpr (Or.inl owed.mem)
  · rw [KeyedCell.cursor, DeltaLog.answer_cursor_of_ne _ ne]
    exact owed.answer

/-- A new cursor is owed nothing. -/
theorem owed_cursor_self (cell : KeyedCell T K H) (id : ℕ) :
  Owed keying (cell.cursor id) id cell.elements
  := by
  constructor
  · apply DeltaLog.mem_cursors_cursor.mpr (Or.inr rfl)
  · right
    exact ⟨[], DeltaLog.answer_cursor_self _ _, trivial, rfl⟩

theorem Owed.dropCursor (owed : Owed keying cell id list) (ne : id ≠ other) :
  Owed keying (cell.dropCursor ⟨other⟩) id list
  := by
  constructor
  · apply DeltaLog.mem_cursors_dropCursor.mpr
    refine ⟨owed.mem, ?_⟩
    rw [ne_eq, DeltaCursor.mk.injEq]
    exact ne
  · rw [KeyedCell.dropCursor, DeltaLog.answer_dropCursor]
    exact owed.answer

/-- A cell whose cursor has been drained. -/
def drained (cell : KeyedCell T K H) (id : ℕ) : KeyedCell T K H :=
  { cell with log := (cell.log.since ⟨id⟩).1 }

theorem Owed.drained (owed : Owed keying cell id list) (ne : id ≠ other) :
  Owed keying (drained cell other) id list
  := by
  constructor
  · rw [KeyedHost.drained, DeltaLog.since_fst]
    exact owed.mem
  · rw [KeyedHost.drained, DeltaLog.answer_since_of_ne]
    · exact owed.answer
    · rw [ne_eq, DeltaCursor.mk.injEq]
      exact ne

/-- A drained cursor is owed nothing. -/
theorem Owed.drained_self (owed : Owed keying cell id list) :
  Owed keying (KeyedHost.drained cell id) id cell.elements
  := by
  constructor
  · rw [KeyedHost.drained, DeltaLog.since_fst]
    exact owed.mem
  · right
    exact ⟨[], DeltaLog.answer_since_self _ _, trivial, rfl⟩

theorem since_eq (cell : KeyedCell T K H) (id : ℕ) :
  cell.since ⟨id⟩ = (drained cell id,
    match cell.log.answer ⟨id⟩ with
    | none => [.reset cell.elements]
    | some recorded => recorded.flatMap (translate cell.elements))
  := by
  rw [since, drained, DeltaLog.answer]
  cases cell.log.since ⟨id⟩ with
  | mk log answer => cases answer <;> rfl

theorem keyedCellSince_eq (cell : KeyedCell T K H) (id : ℕ) :
  cell.keyedCellSince ⟨id⟩ = (drained cell id,
    match cell.log.answer ⟨id⟩ with
    | none => [.reset cell.elements]
    | some recorded => recorded.map strip)
  := by
  rw [keyedCellSince, drained, DeltaLog.answer]
  cases cell.log.since ⟨id⟩ with
  | mk log answer => cases answer <;> rfl

/-! ### What has been told -/

/-- What was told up to some time is related to what the cell held then. -/
def Tracks {Op : Type*} (P : List Op → List T → Prop) (sent : List (Op × List T)) : Prop :=
  ∀ n op list, sent[n]? = some (op, list) → P ((sent.take (n + 1)).map Prod.fst) list

theorem Tracks.snoc {Op : Type*} {P : List Op → List T → Prop} {sent : List (Op × List T)}
    (tracks : Tracks P sent) {op : Op} (h : P (sent.map Prod.fst ++ [op]) list) :
  Tracks P (sent ++ [(op, list)])
  := by
  intro n op' list' found
  rcases Nat.lt_trichotomy n sent.length with lt | rfl | gt
  · rw [getElem?_append_left lt] at found
    rw [take_append_of_le_length lt]
    apply tracks n op' list' found
  · rw [getElem?_append_right le_rfl, Nat.sub_self] at found
    cases found
    rw [take_of_length_le, map_append]
    · exact h
    · simp
  · rw [getElem?_eq_none] at found
    · cases found
    · simp
      omega

theorem Tracks.last {Op : Type*} {P : List Op → List T → Prop} {sent : List (Op × List T)}
    (tracks : Tracks P sent) {op : Op} (h : sent.getLast? = some (op, list)) :
  P (sent.map Prod.fst) list
  := by
  rw [getLast?_eq_getElem?] at h
  have lt := (List.getElem?_eq_some_iff.mp h).1
  have told := tracks _ op list h
  rw [Nat.sub_add_cancel (by omega), take_length] at told
  exact told

/-- Any mirror that applies the patches holds the list. -/
def Mirrored (keying : Keying T K H) (patches : List (List (Delta K T))) (list : List T) : Prop :=
  ∀ source : KeyedSource T H, source.fault = none →
    (patches.foldl (KeyedSource.apply keying) source).Follows keying list

/-- The ops make of the seed the list. -/
def Replays (seed : List T) (drained : List (List (SeqOp T))) (list : List T) : Prop :=
  SeqOp.replay drained.flatten seed = list

theorem mirrored_since {patches : List (List (Delta K T))} (mirrored : Mirrored keying patches list)
    (owed : Owed keying cell id list) (indexed : Indexed keying cell) :
  Mirrored keying (patches ++ [(cell.since ⟨id⟩).2]) cell.elements
  := by
  intro source fault
  have follows := mirrored source fault
  rw [foldl_append, foldl_cons, foldl_nil, since_eq]
  rcases owed.answer with none | ⟨ops, some, recorded, replayed_eq⟩
  · simp only [none]
    apply follows_reset follows.fault indexed.nodup
  · simp only [some]
    rw [← replayed_eq]
    exact follows.apply recorded

theorem replays_keyedCellSince {seed : List T} {told : List (List (SeqOp T))}
    (replays : Replays seed told list) (owed : Owed keying cell id list) :
  Replays seed (told ++ [(cell.keyedCellSince ⟨id⟩).2]) cell.elements
  := by
  rw [Replays, flatten_append, flatten_singleton, SeqOp.replay_append, replays, keyedCellSince_eq]
  rcases owed.answer with none | ⟨ops, some, recorded, replayed_eq⟩
  · simp only [none]
    rfl
  · simp only [some]
    rw [replay_strip, replayed_eq]

/-- A recorded op is told by at least one delta. -/
theorem translate_ne_nil (recorded : Recorded keying list op) (elements : List T) :
  translate elements op ≠ []
  := by
  cases recorded with
  | insert value fresh => exact cons_ne_nil _ _
  | remove key pos dropped found same => exact cons_ne_nil _ _
  | setAt key pos previous value found was same => exact cons_ne_nil _ _
  | reset items nodup => exact cons_ne_nil _ _

/-- A forward that has nothing to send holds what the cell holds. -/
theorem Owed.eq_of_since (owed : Owed keying cell id list) (h : (cell.since ⟨id⟩).2 = []) :
  list = cell.elements
  := by
  rw [since_eq] at h
  rcases owed.answer with none | ⟨ops, some, recorded, replayed_eq⟩
  · simp only [none] at h
    cases h
  · simp only [some] at h
    cases ops with
    | nil => exact replayed_eq
    | cons op ops =>
      rw [flatMap_cons, append_eq_nil_iff] at h
      cases translate_ne_nil recorded.1 _ h.1

/-! ### Runs -/

/-- A consumer has been told the truth, and is owed the rest. -/
inductive Told (keying : Keying T K H) (cell : KeyedCell T K H) (id : ℕ) : KeyedConsumer T K → Prop
  | forward (sent : List (List (Delta K T) × List T)) (patch : List (Delta K T)) (list : List T)
      (last : sent.getLast? = some (patch, list)) (owed : Owed keying cell id list)
      (tracks : Tracks (Mirrored keying) sent) :
      Told keying cell id (.forward sent)
  | reader (seed : List T) (drained : List (List (SeqOp T) × List T)) (list : List T)
      (holds : Replays seed (drained.map Prod.fst) list) (owed : Owed keying cell id list)
      (tracks : Tracks (Replays seed) drained) :
      Told keying cell id (.reader seed drained)

theorem Told.mono (told : Told keying cell id consumer)
    (h : ∀ list, Owed keying cell id list → Owed keying next id list) :
  Told keying next id consumer
  := by
  cases told with
  | forward sent patch list last owed tracks =>
    apply Told.forward sent patch list last (h list owed) tracks
  | reader seed drained list holds owed tracks =>
    apply Told.reader seed drained list holds (h list owed) tracks

/-- A forward's seed, or a notification with something to send. -/
theorem Told.notify {sent : List (List (Delta K T) × List T)}
    (told : Told keying cell id (.forward sent)) (indexed : Indexed keying cell) :
  Told keying (KeyedHost.drained cell id) id
    (.forward (if (cell.since ⟨id⟩).2.length > 0 then sent ++ [((cell.since ⟨id⟩).2, cell.elements)]
      else sent))
  := by
  cases told with
  | forward sent patch list last owed tracks =>
    split
    · apply Told.forward _ (cell.since ⟨id⟩).2 cell.elements
      · apply getLast?_concat
      · exact owed.drained_self
      · apply tracks.snoc
        apply mirrored_since (tracks.last last) owed indexed
    next none =>
      have same := owed.eq_of_since (length_eq_zero_iff.mp (Nat.eq_zero_of_not_pos none))
      subst same
      apply Told.forward sent patch cell.elements last owed.drained_self tracks

theorem Told.drain {seed : List T} {drained : List (List (SeqOp T) × List T)}
    (told : Told keying cell id (.reader seed drained)) :
  Told keying (KeyedHost.drained cell id) id
    (.reader seed (drained ++ [((cell.keyedCellSince ⟨id⟩).2, cell.elements)]))
  := by
  cases told with
  | reader seed drained list holds owed tracks =>
    have replays := replays_keyedCellSince holds owed
    apply Told.reader _ _ cell.elements
    · rw [map_append]
      exact replays
    · exact owed.drained_self
    · exact tracks.snoc replays

variable {host after : KeyedHost T K H}

/-- What holds of a cell and its consumers. -/
structure Sound (keying : Keying T K H) (host : KeyedHost T K H) : Prop where
  indexed : Indexed keying host.cell
  wellFormed : host.cell.log.WellFormed
  below : ∀ cursor ∈ host.cell.log.cursors, cursor.id < host.nextId
  told : ∀ id consumer, host.consumers id = some consumer → Told keying host.cell id consumer

theorem Sound.fresh (fresh : Fresh keying host) :
  Sound keying host
  := by
  obtain ⟨⟨initial, nodup, cell_eq⟩, none⟩ := fresh
  constructor
  · rw [cell_eq]
    apply new_indexed nodup
  · rw [cell_eq]
    apply DeltaLog.wellFormed_withLimit
  · rw [cell_eq]
    intro cursor mem
    cases mem
  · intro id consumer found
    rw [none] at found
    cases found

section

variable (sound : Sound keying host)
include sound

theorem Sound.write (writes : Writes keying host.cell next op) :
  Sound keying { host with cell := next }
  := by
  constructor
  · exact writes.indexed
  · simp only [writes.log]
    apply sound.wellFormed.record
  · simp only [writes.log, DeltaLog.cursors_record]
    exact sound.below
  · intro id consumer found
    apply (sound.told id consumer found).mono
    intro list owed
    apply owed.write sound.wellFormed writes

theorem Sound.join
    (told : Told keying (host.cell.cursor id) id consumer)
    (joins : host.join id consumer = some after) :
  Sound keying after
  := by
  rw [KeyedHost.join] at joins
  split at joins
  next fresh =>
    cases joins
    constructor
    · exact sound.indexed
    · apply sound.wellFormed.cursor
    · intro cursor mem
      rcases DeltaLog.mem_cursors_cursor.mp mem with mem | rfl
      · apply Nat.lt_succ_of_le (le_trans (sound.below cursor mem).le fresh)
      · apply Nat.lt_succ_self
    · intro other consumer' found
      by_cases same : other = id
      · subst same
        simp only [update_self, Option.some_inj] at found
        subst found
        exact told
      · simp only [update_of_ne same] at found
        apply (sound.told other consumer' found).mono
        intro list owed
        apply owed.cursor same
  · cases joins

/-- A consumer drains its cursor, which tells nobody else anything. -/
theorem Sound.drained
    (told : Told keying (KeyedHost.drained host.cell id) id consumer) :
  Sound keying { host with
    cell := KeyedHost.drained host.cell id
    consumers := Function.update host.consumers id (some consumer) }
  := by
  constructor
  · exact sound.indexed
  · apply sound.wellFormed.since
  · simp only [KeyedHost.drained, DeltaLog.since_fst]
    exact sound.below
  · intro other consumer' found
    by_cases same : other = id
    · subst same
      simp only [update_self, Option.some_inj] at found
      subst found
      exact told
    · simp only [update_of_ne same] at found
      apply (sound.told other consumer' found).mono
      intro list owed
      apply owed.drained same

theorem Sound.dropped (id : ℕ) :
  Sound keying { host with
    cell := host.cell.dropCursor ⟨id⟩
    consumers := Function.update host.consumers id none }
  := by
  constructor
  · exact sound.indexed
  · apply sound.wellFormed.dropCursor
  · intro cursor mem
    apply sound.below cursor (DeltaLog.mem_cursors_dropCursor.mp mem).1
  · intro other consumer found
    by_cases same : other = id
    · subst same
      simp only [update_self] at found
      cases found
    · simp only [update_of_ne same] at found
      apply (sound.told other consumer found).mono
      intro list owed
      apply owed.dropCursor same

end

theorem Sound.step {event : Event T K} (sound : Sound keying host)
    (step : Step keying host event after) :
  Sound keying after
  := by
  obtain ⟨keyed, step⟩ := step
  cases event with
  | insert value =>
    obtain ⟨next, op, insert_eq, writes⟩ := insert_writes sound.indexed value
    rw [KeyedHost.step, insert_eq] at step
    cases step
    apply sound.write writes
  | remove key =>
    rcases remove_writes sound.indexed key with ⟨-, remove_eq⟩ | ⟨next, op, remove_eq, writes⟩
    · rw [KeyedHost.step, remove_eq] at step
      cases step
      exact sound
    · rw [KeyedHost.step, remove_eq] at step
      cases step
      apply sound.write writes
  | update key mutate =>
    rcases update_writes sound.indexed key keyed with
      ⟨-, update_eq⟩ | ⟨next, op, update_eq, writes⟩
    · rw [KeyedHost.step, update_eq] at step
      cases step
      exact sound
    · rw [KeyedHost.step, update_eq] at step
      cases step
      apply sound.write writes
  | set value =>
    cases step
    obtain ⟨op, writes⟩ := set_writes keyed
    apply sound.write writes
  | forward id =>
    apply sound.join _ step
    apply Told.forward _ _ host.cell.elements rfl (owed_cursor_self _ _)
    intro n patch list found
    cases n with
    | zero =>
      cases found
      intro source fault
      apply follows_reset fault sound.indexed.nodup
    | succ n => cases found
  | reader id =>
    apply sound.join _ step
    have holds : Replays host.cell.elements [] host.cell.elements := rfl
    apply Told.reader _ _ _ holds (owed_cursor_self _ _)
    intro n ops list found
    cases found
  | notify id =>
    rw [KeyedHost.step] at step
    split at step
    next sent found =>
      cases step
      rw [KeyedHost.notify, since_eq]
      apply sound.drained
      have told := (sound.told id _ found).notify sound.indexed
      rw [since_eq] at told
      exact told
    · cases step
  | drain id =>
    rw [KeyedHost.step] at step
    split at step
    next seed drained found =>
      cases step
      rw [KeyedHost.drain, keyedCellSince_eq]
      apply sound.drained
      have told := (sound.told id _ found).drain
      rw [keyedCellSince_eq] at told
      exact told
    · cases step
  | drop id =>
    cases step
    apply sound.dropped

theorem Run.sound {trace : List (Event T K)}
    (run : Machine.Run (Fresh keying) (Step keying) trace host) :
  Sound keying host
  := by
  apply run.invariant
  · intro host fresh
    apply Sound.fresh fresh
  · intro host event after sound step
    apply sound.step step

/-- **A keyed mirror follows its cell.**  Whatever is written to a cell and whenever its consumers
are told, the index of the cell maps exactly its keys to their positions; a mirror that applies the
patches of a forward holds after each of them the list that the cell held when it was sent, with no
fault and an index that maps exactly its keys to their positions; and the positional ops replayed on
the seed of a reader make each time the list that the cell held. -/
theorem Run.mirrors_follow {trace : List (Event T K)}
    (run : Machine.Run (Fresh keying) (Step keying) trace host) :
  Indexed keying host.cell ∧
    (∀ id sent, host.consumers id = some (.forward sent) →
      ∀ source : KeyedSource T H, source.fault = none → ∀ n patch list, sent[n]? = some (patch, list) →
        let mirror := ((sent.take (n + 1)).map Prod.fst).foldl (KeyedSource.apply keying) source
        mirror.cache = some list ∧ mirror.fault = none ∧
          Indexes mirror.positions (list.map keying.of)) ∧
      ∀ id seed drained, host.consumers id = some (.reader seed drained) →
        ∀ n ops list, drained[n]? = some (ops, list) →
          SeqOp.replay ((drained.take (n + 1)).map Prod.fst).flatten seed = list
  := by
  have sound := Run.sound run
  refine ⟨sound.indexed, ?_, ?_⟩
  · intro id sent found source fault n patch list told
    cases sound.told id _ found with
    | forward sent patch' list' last owed tracks =>
      have follows := tracks n patch list told source fault
      exact ⟨follows.cache, follows.fault, follows.indexed⟩
  · intro id seed drained found n ops list told
    cases sound.told id _ found with
    | reader seed drained list' holds owed tracks => exact tracks n ops list told

/-- Rows keyed by a number. -/
def rows : Keying (ℕ × String) ℕ ℕ where
  key := Prod.fst
  hash := fun key => key

/-- A cell of one row that nobody reads. -/
def rowHost : KeyedHost (ℕ × String) ℕ ℕ where
  cell := KeyedCell.new rows [(1, "a")]
  nextId := 0
  consumers := fun _ => none

/-- A forward that is notified after a write and after a wholesale one. -/
def rowTrace : List (Event (ℕ × String) ℕ) :=
  [.forward 0, .insert (2, "b"), .notify 0, .remove 1, .set [(3, "c"), (2, "d")], .notify 0]

theorem rowTrace_follows :
  ∃ host sent, Machine.Run (Fresh rows) (Step rows) rowTrace host ∧
    host.consumers 0 = some (.forward sent) ∧ sent.length = 3 ∧
      ∀ n patch list, sent[n]? = some (patch, list) →
        (((sent.take (n + 1)).map Prod.fst).foldl (KeyedSource.apply rows)
          KeyedSource.waiting).cache = some list
  := by
  have fresh : Machine.Run (Fresh rows) (Step rows) [] rowHost :=
    .start ⟨⟨[(1, "a")], by decide, rfl⟩, rfl⟩
  have seeded : Machine.Run (Fresh rows) (Step rows) [.forward 0] _ := fresh.step ⟨trivial, rfl⟩
  have inserted : Machine.Run (Fresh rows) (Step rows) [.forward 0, .insert (2, "b")] _ :=
    seeded.step ⟨trivial, rfl⟩
  have told : Machine.Run (Fresh rows) (Step rows) [.forward 0, .insert (2, "b"), .notify 0] _ :=
    inserted.step ⟨trivial, rfl⟩
  have removed : Machine.Run (Fresh rows) (Step rows)
      [.forward 0, .insert (2, "b"), .notify 0, .remove 1] _ :=
    told.step ⟨trivial, rfl⟩
  have distinct : ([(3, "c"), (2, "d")].map rows.of).Nodup := by decide
  have replaced : Machine.Run (Fresh rows) (Step rows)
      [.forward 0, .insert (2, "b"), .notify 0, .remove 1, .set [(3, "c"), (2, "d")]] _ :=
    removed.step ⟨distinct, rfl⟩
  have done : Machine.Run (Fresh rows) (Step rows) rowTrace _ := replaced.step ⟨trivial, rfl⟩
  refine ⟨_, _, done, rfl, rfl, ?_⟩
  intro n patch list found
  exact ((Run.mirrors_follow done).2.1 0 _ rfl KeyedSource.waiting rfl n patch list found).1

end KeyedHost

end Vilan
