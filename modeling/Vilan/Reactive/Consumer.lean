import Vilan.Reactive.ListCell

/-!
# Consumers of a cell

A consumer mints a cursor, seeds itself from the list the cell holds at that moment, and is
then told, drain by drain, the ops its cursor has not been told.  Between two drains the cell
may be written any number of times, by any door, and other consumers come and go.

What a cursor is told takes the list its consumer has seen to the list the cell holds: op by
op when the log has kept them, and as a reset when it has not.  A consumer that is right
about the list it has seen is therefore right about the list of the cell once it has
drained.
-/

namespace Vilan

open DeltaLog

variable {T σ : Type*}

namespace ListCell

/-- An event that neither drains nor retires `cursor`. -/
def Event.Foreign (cursor : DeltaCursor) : Event T → Prop
  | since drained _ => drained ≠ cursor
  | dropCursor dropped => dropped ≠ cursor
  | _ => True

/-- A write whose positions do not make it panic after it has changed the list. -/
def Event.Placed (list : List T) : Event T → Prop
  | write call => call.WellPlaced list
  | _ => True

/-- What `cursor` has not been told takes `seen` to the list the cell holds. -/
structure Host.Tells (host : Host T) (cursor : DeltaCursor) (seen : List T) : Prop where
  wellFormed : host.WellFormed
  live : cursor ∈ host.cell.log.cursors
  explains : ∀ recorded, host.cell.log.answer cursor = some recorded →
    SeqOp.Along SeqOp.Accurate recorded seen ∧ SeqOp.replay recorded seen = host.cell.items

/-- A new cursor has been told the list its consumer is seeded from. -/
theorem Host.tells_cursor {host : Host T} (h : host.WellFormed) {id : ℕ}
    (fresh : host.nextId ≤ id) :
  Host.Tells ⟨(host.cell.cursor id).1, id + 1⟩ ⟨id⟩ host.cell.items
  := by
  refine ⟨⟨h.log.cursor id, ?_⟩, ?_, ?_⟩
  · intro cursor hcursor
    rcases mem_cursors_cursor.mp hcursor with hold | rfl
    · have := h.id_lt cursor hold
      simp only
      omega
    · apply Nat.lt_succ_self
  · apply mem_cursors_cursor.mpr
    right
    rfl
  · intro recorded hrecorded
    change (host.cell.log.cursor id).1.answer ⟨id⟩ = some recorded at hrecorded
    rw [answer_cursor_self, Option.some_inj] at hrecorded
    rw [← hrecorded]
    exact ⟨trivial, rfl⟩

/-- A step of a writer or of another consumer. -/
theorem Host.Tells.step [BEq T] {host host' : Host T} {event : Event T}
    {cursor : DeltaCursor} {seen : List T} (h : host.Tells cursor seen)
    (hstep : Step host event host') (hforeign : event.Foreign cursor)
    (hplaced : event.Placed host.cell.items) :
  host'.Tells cursor seen
  := by
  have hwellFormed := hstep.wellFormed h.wellFormed
  refine ⟨hwellFormed, ?_, ?_⟩
  · cases hstep with
    | write call =>
      obtain ⟨ops, hops⟩ := call_log host.cell call
      simp only [hops, cursors_records]
      apply h.live
    | notify => apply h.live
    | cursor id fresh =>
      apply mem_cursors_cursor.mpr
      left
      apply h.live
    | dropCursor dropped =>
      apply mem_cursors_dropCursor.mpr
      exact ⟨h.live, Ne.symm hforeign⟩
    | since drained =>
      rw [since_fst, DeltaLog.since_fst]
      apply h.live
  · cases hstep with
    | write call =>
      obtain ⟨ops, hrecords⟩ := call_records hplaced
      have hanswer := answer_records h.wellFormed.log h.live ops
      rw [← hrecords.log_eq] at hanswer
      intro recorded hrecorded
      rcases hanswer with hnone | hsome
      · rw [hnone] at hrecorded
        contradiction
      · rw [hsome, Option.map_eq_some_iff] at hrecorded
        obtain ⟨before, hbefore, rfl⟩ := hrecorded
        obtain ⟨haccurate, hreplay⟩ := h.explains before hbefore
        constructor
        · rw [SeqOp.along_append, hreplay]
          exact ⟨haccurate, hrecords.accurate⟩
        · rw [SeqOp.replay_append, hreplay]
          apply hrecords.items_eq.symm
    | notify => apply h.explains
    | cursor id fresh =>
      intro recorded hrecorded
      apply h.explains recorded
      rw [← hrecorded]
      symm
      apply answer_cursor_of_ne
      have := h.wellFormed.id_lt cursor h.live
      omega
    | dropCursor dropped =>
      intro recorded hrecorded
      apply h.explains recorded
      rw [← hrecorded]
      symm
      apply answer_dropCursor
    | since drained =>
      rw [since_fst]
      intro recorded hrecorded
      apply h.explains recorded
      rw [← hrecorded]
      symm
      apply answer_since_of_ne _ (Ne.symm hforeign)

/-- A drain tells the cursor what takes `seen` to the list the cell holds. -/
theorem Host.Tells.since {host : Host T} {cursor : DeltaCursor} {seen : List T}
    (h : host.Tells cursor seen) :
  SeqOp.Along SeqOp.Accurate (host.cell.since cursor).2 seen
    ∧ SeqOp.replay (host.cell.since cursor).2 seen = host.cell.items
    ∧ Host.Tells { host with cell := (host.cell.since cursor).1 } cursor host.cell.items
  := by
  have hops : (host.cell.since cursor).2
      = (host.cell.log.answer cursor).getD [.reset host.cell.items] := by
    rw [ListCell.since, DeltaLog.answer]
    split <;> simp only [*, Option.getD_none, Option.getD_some]
  have htells : SeqOp.Along SeqOp.Accurate (host.cell.since cursor).2 seen
      ∧ SeqOp.replay (host.cell.since cursor).2 seen = host.cell.items := by
    rw [hops]
    cases hanswer : host.cell.log.answer cursor with
    | none => exact ⟨⟨trivial, trivial⟩, rfl⟩
    | some recorded => apply h.explains recorded hanswer
  refine ⟨htells.1, htells.2, ?_⟩
  rw [since_fst]
  refine ⟨⟨h.wellFormed.log.since cursor, ?_⟩, ?_, ?_⟩
  · rw [DeltaLog.since_fst]
    apply h.wellFormed.id_lt
  · rw [DeltaLog.since_fst]
    apply h.live
  · intro recorded hrecorded
    rw [answer_since_self, Option.some_inj] at hrecorded
    rw [← hrecorded]
    exact ⟨trivial, rfl⟩

end ListCell

/-- A consumer of a list's ops: what it makes of a list it is seeded from, of ops it is
delivered (`none` on a panic), and how its state may change on its own. -/
structure Consumer (T σ : Type*) where
  seed : List T → σ → Prop
  deliver : σ → List (SeqOp T) → Option σ
  own : σ → σ → Prop

namespace Consumer

/-- A cell and a consumer of it. -/
structure Pair (T σ : Type*) where
  source : ListCell.Host T
  cursor : DeltaCursor
  state : σ

/-- The consumer drains its cursor. -/
def drain (consumer : Consumer T σ) (pair : Pair T σ) : Option (Pair T σ) :=
  let (cell, ops) := pair.source.cell.since pair.cursor
  match consumer.deliver pair.state ops with
  | some state => some { pair with source := { pair.source with cell }, state }
  | none => none

/-- What happens to a cell and its consumer. -/
inductive Event (T : Type*) where
  | source (event : ListCell.Event T)
  | own
  | drain

/-- The cursor is minted before the seed is read, on a cell with any past. -/
def Start [BEq T] (consumer : Consumer T σ) (pair : Pair T σ) : Prop :=
  ∃ elements limit trace host id, ListCell.Run elements limit trace host ∧ host.nextId ≤ id
    ∧ pair.source = ⟨(host.cell.cursor id).1, id + 1⟩
    ∧ pair.cursor = (host.cell.cursor id).2
    ∧ consumer.seed host.cell.items pair.state

/-- A step of the cell that leaves the consumer's cursor alone, a change of the consumer's
own, or a drain. -/
inductive Step [BEq T] (consumer : Consumer T σ) : Pair T σ → Event T → Pair T σ → Prop
  | source (pair : Pair T σ) (event : ListCell.Event T) (source : ListCell.Host T)
      (h : ListCell.Step pair.source event source) (hforeign : event.Foreign pair.cursor)
      (hplaced : event.Placed pair.source.cell.items) :
      Step consumer pair (.source event) { pair with source }
  | own (pair : Pair T σ) (state : σ) (h : consumer.own pair.state state) :
      Step consumer pair .own { pair with state }
  | drain (pair pair' : Pair T σ) (h : consumer.drain pair = some pair') :
      Step consumer pair .drain pair'

/-- Runs of a consumer. -/
def Run [BEq T] (consumer : Consumer T σ) : List (Event T) → Pair T σ → Prop :=
  Machine.Run consumer.Start consumer.Step

/-- `Right seen state` says that the consumer is right about a list it has seen, and
`Drained seen state` what it is besides, once it has just drained. -/
structure Law (consumer : Consumer T σ) (Right Drained : List T → σ → Prop) : Prop where
  seed : ∀ list state, consumer.seed list state → Right list state
  own : ∀ seen state state', Right seen state → consumer.own state state' →
    Right seen state'
  deliver : ∀ seen state ops, Right seen state → SeqOp.Along SeqOp.InRange ops seen →
    ∃ state', consumer.deliver state ops = some state' ∧ Right (SeqOp.replay ops seen) state'
      ∧ Drained (SeqOp.replay ops seen) state'

/-- A drain brings a consumer that is right about the list it has seen to the list of the
cell. -/
theorem Law.drain {consumer : Consumer T σ} {Right Drained : List T → σ → Prop}
    (law : consumer.Law Right Drained) {pair : Pair T σ} {seen : List T}
    (htells : pair.source.Tells pair.cursor seen) (hright : Right seen pair.state) :
  ∃ pair', consumer.drain pair = some pair'
    ∧ pair'.source.cell.items = pair.source.cell.items
    ∧ pair'.source.Tells pair'.cursor pair.source.cell.items
    ∧ Right pair.source.cell.items pair'.state ∧ Drained pair.source.cell.items pair'.state
  := by
  obtain ⟨haccurate, hreplay, htells'⟩ := htells.since
  obtain ⟨state, hdeliver, hright', hdrained⟩ := law.deliver seen pair.state _ hright
    (haccurate.mono fun _ _ => SeqOp.Accurate.inRange)
  rw [hreplay] at hright' hdrained
  let pair' : Pair T σ := { pair with
    source := { pair.source with cell := (pair.source.cell.since pair.cursor).1 }
    state := state }
  refine ⟨pair', ?_, ?_, htells', hright', hdrained⟩
  · rw [Consumer.drain]
    simp only [hdeliver]
    rfl
  · simp only [pair', ListCell.since_fst]

/-- Whatever is written, in whatever portions it is told, a consumer that has drained is
right about the list of the cell. -/
theorem Law.run_drain [BEq T] {consumer : Consumer T σ} {Right Drained : List T → σ → Prop}
    (law : consumer.Law Right Drained) {trace : List (Event T)} {pair : Pair T σ}
    (run : consumer.Run trace pair) :
  ∃ pair', consumer.drain pair = some pair'
    ∧ pair'.source.cell.items = pair.source.cell.items
    ∧ Drained pair.source.cell.items pair'.state
  := by
  have hinvariant : ∃ seen, pair.source.Tells pair.cursor seen ∧ Right seen pair.state := by
    apply Machine.Run.invariant
      (P := fun pair => ∃ seen, pair.source.Tells pair.cursor seen ∧ Right seen pair.state)
      _ _ run
    · rintro pair ⟨elements, limit, trace, host, id, hrun, hfresh, hsource, hcursor, hseed⟩
      refine ⟨host.cell.items, ?_, law.seed _ _ hseed⟩
      rw [hsource, hcursor]
      apply ListCell.Host.tells_cursor hrun.wellFormed hfresh
    · rintro pair event pair' ⟨seen, htells, hright⟩ hstep
      cases hstep with
      | source event source h hforeign hplaced =>
        exact ⟨seen, htells.step h hforeign hplaced, hright⟩
      | own state h => exact ⟨seen, htells, law.own _ _ _ hright h⟩
      | drain _ h =>
        obtain ⟨pair'', hdrain, -, htells', hright', -⟩ := law.drain htells hright
        rw [h, Option.some_inj] at hdrain
        rw [hdrain]
        exact ⟨_, htells', hright'⟩
  obtain ⟨seen, htells, hright⟩ := hinvariant
  obtain ⟨pair', hdrain, hitems, -, -, hdrained⟩ := law.drain htells hright
  exact ⟨pair', hdrain, hitems, hdrained⟩

end Consumer

end Vilan
