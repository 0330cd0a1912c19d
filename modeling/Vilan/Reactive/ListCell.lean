import Vilan.Reactive.SeqOp
import Vilan.Reactive.DeltaLog

/-!
# The sequence cell

A list whose writes are its ops: every write changes the list in place, records the op that
says what it did, and publishes the sequence number the log is at.

The write doors are described at once by `Records`: what a call leaves is the list that the
ops it recorded make of the list it found.  The one door that may fail to do so is
`moveRange`, which lifts and inserts element by element and panics on an index out of
bounds.
-/

namespace Vilan

open Splice

variable {T : Type*}

/-- A list, the notification of its writes and the log of its ops. -/
structure ListCell (T : Type*) where
  items : List T
  /-- What the last notification carried: the sequence number of the log. -/
  published : ℤ
  log : DeltaLog (SeqOp T)

/-- A recorder: a list and the ops that produced it. -/
structure Tracked (T : Type*) where
  elements : List T
  ops : List (SeqOp T)

namespace Tracked

/-- A recorder over `elements`, with nothing recorded yet. -/
def new (elements : List T) : Tracked T where
  elements := elements
  ops := []

/-- `removed` elements leave at `pos` and `inserted` arrive there. -/
def splice (recorder : Tracked T) (pos removed : ℕ) (inserted : List T) :
    Outcome (Tracked T) Unit :=
  let held := recorder.elements.length
  let start := spliceStart held pos
  let taking := spliceCount held start removed
  if taking = 0 ∧ inserted.length = 0 then .done recorder ()
  else
    match spliceInPlace recorder.elements start taking inserted with
    | .panic elements => .panic { recorder with elements }
    | .done elements op => .done { elements, ops := recorder.ops ++ [op] } ()

/-- One recorder is made of another by splices, the one mutation of a recorder. -/
def Reaches : Tracked T → Tracked T → Prop :=
  Relation.ReflTransGen fun recorder recorder' =>
    ∃ pos removed inserted, recorder' = (recorder.splice pos removed inserted).state

/-- A splice of a recorder does not panic; it records at most one op, which explains what it
did. -/
theorem splice_records (recorder : Tracked T) (pos removed : ℕ) (inserted : List T) :
  ∃ recorder' ops, recorder.splice pos removed inserted = .done recorder' ()
    ∧ recorder'.ops = recorder.ops ++ ops
    ∧ recorder'.elements = SeqOp.replay ops recorder.elements
    ∧ SeqOp.Along SeqOp.Accurate ops recorder.elements
  := by
  have hclamp := spliceStart_add_spliceCount_le recorder.elements.length pos removed
  rw [splice]
  split
  · exact ⟨recorder, [], rfl, by simp, rfl, trivial⟩
  · rw [spliceInPlace_of_le hclamp]
    obtain ⟨haccurate, helements⟩ := accurate_splice hclamp inserted
    exact ⟨_, [_], rfl, rfl, helements, haccurate, trivial⟩

/-- The ops a recorder gains explain what becomes of its elements. -/
theorem Reaches.exists_ops {recorder recorder' : Tracked T}
    (h : recorder.Reaches recorder') :
  ∃ ops, recorder'.ops = recorder.ops ++ ops
    ∧ recorder'.elements = SeqOp.replay ops recorder.elements
    ∧ SeqOp.Along SeqOp.Accurate ops recorder.elements
  := by
  induction h with
  | refl => exact ⟨[], by simp, rfl, trivial⟩
  | @tail middle last _ hstep ih =>
    obtain ⟨ops, hops, helements, haccurate⟩ := ih
    obtain ⟨pos, removed, inserted, rfl⟩ := hstep
    obtain ⟨recorder', more, hsplice, hops', helements', haccurate'⟩ :=
      middle.splice_records pos removed inserted
    rw [hsplice, Outcome.state]
    refine ⟨ops ++ more, ?_, ?_, ?_⟩
    · rw [hops', hops, List.append_assoc]
    · rw [helements', helements, SeqOp.replay_append]
    · rw [SeqOp.along_append, ← helements]
      exact ⟨haccurate, haccurate'⟩

end Tracked

/-- What `edit` is handed: a body that mutates the recorder it is lent, by splices of its own
choosing, and returns or panics. -/
structure EditBody (T : Type*) where
  run : Tracked T → Outcome (Tracked T) Unit
  reaches : ∀ recorder : Tracked T, recorder.Reaches (run recorder).state

namespace ListCell

/-- A cell over `elements`, with a log at `limit`. -/
def withLimit (elements : List T) (limit : ℕ) : ListCell T where
  items := elements
  published := 0
  log := DeltaLog.withLimit limit

/-- A cell holding `elements`, with nothing recorded. -/
def of (elements : List T) : ListCell T :=
  withLimit elements deltaLogLimit

/-- Fire a write's one notification. -/
def publish (cell : ListCell T) : ListCell T :=
  { cell with published := cell.log.version }

/-- Publish the current value without changing it, and record nothing. -/
def notify (cell : ListCell T) : ListCell T :=
  cell

/-- `removed` elements leave at `pos` and `inserted` arrive there, as one op. -/
def splice (cell : ListCell T) (pos removed : ℕ) (inserted : List T) :
    Outcome (ListCell T) Unit :=
  let held := cell.items.length
  let start := spliceStart held pos
  let taking := spliceCount held start removed
  if taking = 0 ∧ inserted.length = 0 then .done cell ()
  else
    match spliceInPlace cell.items start taking inserted with
    | .panic items => .panic { cell with items }
    | .done items op => .done (publish { cell with items, log := cell.log.record op }) ()

/-- The element at `pos` becomes `value`.  Out of range is a no-op. -/
def setAt (cell : ListCell T) (pos : ℕ) (value : T) : Outcome (ListCell T) Unit :=
  match cell.items[pos]? with
  | some previous =>
      .done (publish { cell with
        items := cell.items.set pos value
        log := cell.log.record (.setAt pos previous value) }) ()
  | none => .done cell ()

/-- `count` elements starting at `start` move to `dest`, unchanged. -/
def moveRange (cell : ListCell T) (start count dest : ℕ) : Outcome (ListCell T) Unit :=
  if count = 0 ∨ start = dest then .done cell ()
  else
    match moveEach cell.items start count dest with
    | .panic items => .panic { cell with items }
    | .done items () =>
        .done (publish { cell with items, log := cell.log.record (.move start count dest) }) ()

/-- Hand `body` a recorder, then publish its whole run as one value write and one op for each
mutation it made. -/
def edit (cell : ListCell T) (body : EditBody T) : Outcome (ListCell T) Unit :=
  match body.run (Tracked.new cell.items) with
  | .panic _ => .panic cell
  | .done recorder () =>
      .done (publish { cell with
        items := recorder.elements
        log := recorder.ops.foldl DeltaLog.record cell.log }) ()

/-- The wholesale write: the collection became `value`. -/
def set (cell : ListCell T) (value : List T) : Outcome (ListCell T) Unit :=
  .done (publish { cell with items := value, log := cell.log.record (.reset value) }) ()

/-- The loop over the common prefix of two lists, from `matched` on. -/
def commonPrefix [BEq T] (old new : List T) (matched : ℕ) : ℕ :=
  if h : matched < old.length ∧ matched < new.length then
    if old[matched] != new[matched] then matched else commonPrefix old new (matched + 1)
  else matched
termination_by old.length - matched

/-- The loop over the common suffix of what two lists hold after a prefix, from `matched`
on. -/
def commonSuffix [BEq T] (old new : List T) (before matched : ℕ) : ℕ :=
  if h : before + matched < old.length ∧ before + matched < new.length then
    if old[old.length - 1 - matched] != new[new.length - 1 - matched] then matched
    else commonSuffix old new before (matched + 1)
  else matched
termination_by old.length - matched

/-- Take a whole list and record what changed: one splice of what stands between the common
prefix and the common suffix. -/
def reconcileTo [BEq T] (cell : ListCell T) (items : List T) : Outcome (ListCell T) Unit :=
  let before := commonPrefix cell.items items 0
  let after := commonSuffix cell.items items before 0
  let removed := cell.items.length - before - after
  let arriving := block items before (items.length - after - before)
  if removed = 0 ∧ arriving.length = 0 then .done cell ()
  else cell.splice before removed arriving

/-- A cursor into the log, at the sequence number it is at now. -/
def cursor (cell : ListCell T) (id : ℕ) : ListCell T × DeltaCursor :=
  let (log, cursor) := cell.log.cursor id
  ({ cell with log }, cursor)

/-- Retire a cursor. -/
def dropCursor (cell : ListCell T) (cursor : DeltaCursor) : ListCell T :=
  { cell with log := cell.log.dropCursor cursor }

/-- What `cursor` has not been told: a cursor that has lost history is told the
collection. -/
def since (cell : ListCell T) (cursor : DeltaCursor) : ListCell T × List (SeqOp T) :=
  match cell.log.since cursor with
  | (log, none) => ({ cell with log }, [.reset cell.items])
  | (log, some recorded) => ({ cell with log }, recorded)

/-- A call of one of the write doors. -/
inductive Write (T : Type*) where
  | splice (pos removed : ℕ) (inserted : List T)
  | setAt (pos : ℕ) (value : T)
  | moveRange (start count dest : ℕ)
  | edit (body : EditBody T)
  | set (value : List T)
  | reconcileTo (items : List T)

/-- Make a call. -/
def Write.call [BEq T] (cell : ListCell T) : Write T → Outcome (ListCell T) Unit
  | splice pos removed inserted => cell.splice pos removed inserted
  | setAt pos value => cell.setAt pos value
  | moveRange start count dest => cell.moveRange start count dest
  | edit body => cell.edit body
  | set value => cell.set value
  | reconcileTo items => cell.reconcileTo items

/-! ### What a write records -/

/-- `cell'` is `cell` after `ops` were recorded: its list is what the ops make of the list of
`cell`, and each op is accurate where it applies. -/
structure Records (cell cell' : ListCell T) (ops : List (SeqOp T)) : Prop where
  items_eq : cell'.items = SeqOp.replay ops cell.items
  log_eq : cell'.log = ops.foldl DeltaLog.record cell.log
  accurate : SeqOp.Along SeqOp.Accurate ops cell.items

theorem Records.refl (cell : ListCell T) :
  Records cell cell []
  := ⟨rfl, rfl, trivial⟩

variable {cell : ListCell T}

/-- A write of one op. -/
theorem records_one {op : SeqOp T} (h : op.Accurate cell.items) {items : List T}
    (hitems : items = op.apply cell.items) :
  Records cell (publish { cell with items, log := cell.log.record op }) [op]
  := ⟨hitems, rfl, h, trivial⟩

theorem splice_records (cell : ListCell T) (pos removed : ℕ) (inserted : List T) :
  ∃ cell' ops, cell.splice pos removed inserted = .done cell' () ∧ Records cell cell' ops
    ∧ cell'.items = Splice.splice cell.items (spliceStart cell.items.length pos)
      (spliceCount cell.items.length (spliceStart cell.items.length pos) removed) inserted
  := by
  have hclamp := spliceStart_add_spliceCount_le cell.items.length pos removed
  rw [splice]
  split
  case isTrue h =>
    refine ⟨cell, [], rfl, Records.refl cell, ?_⟩
    rw [h.1, List.length_eq_zero_iff.mp h.2, splice_zero_nil]
  case isFalse =>
    rw [spliceInPlace_of_le hclamp]
    obtain ⟨haccurate, hitems⟩ := accurate_splice hclamp inserted
    exact ⟨_, _, rfl, records_one haccurate hitems, rfl⟩

theorem setAt_records (cell : ListCell T) (pos : ℕ) (value : T) :
  ∃ cell' ops, cell.setAt pos value = .done cell' () ∧ Records cell cell' ops
    ∧ cell'.items = cell.items.set pos value
  := by
  rw [setAt]
  split
  case h_1 previous h =>
    have haccurate : (SeqOp.setAt pos previous value).Accurate cell.items := h
    exact ⟨_, _, rfl, records_one haccurate rfl, rfl⟩
  case h_2 h =>
    refine ⟨cell, [], rfl, Records.refl cell, ?_⟩
    rw [List.set_eq_of_length_le (List.getElem?_eq_none_iff.mp h)]

theorem set_records (cell : ListCell T) (value : List T) :
  ∃ cell' ops, cell.set value = .done cell' () ∧ Records cell cell' ops
    ∧ cell'.items = value
  := by
  have haccurate : (SeqOp.reset value).Accurate cell.items := trivial
  exact ⟨_, _, rfl, records_one haccurate rfl, rfl⟩

theorem reconcileTo_records [BEq T] (cell : ListCell T) (items : List T) :
  ∃ cell' ops, cell.reconcileTo items = .done cell' () ∧ Records cell cell' ops
  := by
  rw [reconcileTo]
  split
  · exact ⟨cell, [], rfl, Records.refl cell⟩
  · obtain ⟨cell', ops, hcall, hrecords, -⟩ := cell.splice_records _ _ _
    exact ⟨cell', ops, hcall, hrecords⟩

theorem edit_records (cell : ListCell T) (body : EditBody T) :
  ∃ ops, Records cell (cell.edit body).state ops
  := by
  have hreaches := body.reaches (Tracked.new cell.items)
  rw [edit]
  cases hbody : body.run (Tracked.new cell.items) with
  | panic recorder => exact ⟨[], Records.refl cell⟩
  | done recorder =>
    rw [hbody] at hreaches
    obtain ⟨ops, hops, helements, haccurate⟩ := hreaches.exists_ops
    refine ⟨ops, helements, ?_, haccurate⟩
    change recorder.ops.foldl DeltaLog.record cell.log = ops.foldl DeltaLog.record cell.log
    rw [show recorder.ops = ops from hops]

/-- A move whose positions lie in the list is one op. -/
theorem moveRange_records {start count dest : ℕ} (h : start + count ≤ cell.items.length)
    (hdest : dest ≤ cell.items.length - count) :
  ∃ cell' ops, cell.moveRange start count dest = .done cell' () ∧ Records cell cell' ops
    ∧ cell'.items = move cell.items start count dest
  := by
  rw [moveRange]
  split
  case isTrue hnone =>
    refine ⟨cell, [], rfl, Records.refl cell, ?_⟩
    rcases hnone with rfl | rfl
    · rw [move_zero]
    · rw [move_self h]
  case isFalse =>
    rw [moveEach_of_le h hdest]
    have haccurate : (SeqOp.move start count dest).Accurate cell.items := ⟨h, hdest⟩
    exact ⟨_, _, rfl, records_one haccurate rfl, rfl⟩

/-! ### Writing ops into a cell -/

/-- Write one op into a cell as the same op. -/
def applyOp (cell : ListCell T) : SeqOp T → Outcome (ListCell T) Unit
  | .splice pos removed inserted => cell.splice pos removed.length inserted
  | .setAt pos _ value => cell.setAt pos value
  | .reset items => cell.set items
  | .move start count dest => cell.moveRange start count dest

/-- Write `ops` into a cell. -/
def applyOps (cell : ListCell T) (ops : List (SeqOp T)) : Outcome (ListCell T) Unit :=
  Outcome.forEach applyOp cell ops

theorem applyOp_of_inRange {op : SeqOp T} (h : op.InRange cell.items) :
  ∃ cell', cell.applyOp op = .done cell' () ∧ cell'.items = op.apply cell.items
  := by
  cases op with
  | splice pos removed inserted =>
    obtain ⟨cell', ops, hcall, -, hitems⟩ := cell.splice_records pos removed.length inserted
    obtain ⟨hstart, htaking⟩ := splice_clamp_of_le h
    rw [hstart, htaking] at hitems
    exact ⟨cell', hcall, hitems⟩
  | setAt pos was value =>
    obtain ⟨cell', ops, hcall, -, hitems⟩ := cell.setAt_records pos value
    exact ⟨cell', hcall, hitems⟩
  | reset items =>
    obtain ⟨cell', ops, hcall, -, hitems⟩ := cell.set_records items
    exact ⟨cell', hcall, hitems⟩
  | move start count dest =>
    obtain ⟨cell', ops, hcall, -, hitems⟩ := moveRange_records h.1 h.2
    exact ⟨cell', hcall, hitems⟩

/-- Ops that lie in the list of a cell turn it into what they make of it. -/
theorem applyOps_of_inRange {ops : List (SeqOp T)} (h : SeqOp.Along SeqOp.InRange ops cell.items) :
  ∃ cell', cell.applyOps ops = .done cell' () ∧ cell'.items = SeqOp.replay ops cell.items
  := by
  induction ops generalizing cell with
  | nil => exact ⟨cell, rfl, rfl⟩
  | cons op ops ih =>
    obtain ⟨cell₁, hop, hitems⟩ := applyOp_of_inRange h.1
    obtain ⟨cell₂, hops, hitems'⟩ := ih (by rw [hitems]; apply h.2)
    refine ⟨cell₂, ?_, ?_⟩
    · rw [applyOps, Outcome.forEach, hop]
      apply hops
    · rw [hitems', hitems, SeqOp.replay_cons]

/-! ### Which writes are explained -/

/-- The positions of a call are such that it does not panic after it has changed the list.
Only `moveRange` reads positions it does not clamp: they must lie in the list, unless it
moves nothing or already its first index is out of bounds. -/
def Write.WellPlaced (list : List T) : Write T → Prop
  | moveRange start count dest =>
      count = 0 ∨ start = dest ∨ list.length ≤ start
        ∨ start + count ≤ list.length ∧ dest ≤ list.length - count
  | _ => True

/-- The ops a call added to the log, when the log kept them, make of the list before the
call the list after it, and a call that recorded nothing leaves the list unchanged. -/
structure Explained (before after : ListCell T) : Prop where
  replay_eq : ∀ ops, after.log.opsAfter before.log.version = some ops →
    SeqOp.replay ops before.items = after.items
  unchanged : after.log.version = before.log.version → after.items = before.items

theorem call_records [BEq T] {call : Write T} (h : call.WellPlaced cell.items) :
  ∃ ops, Records cell (call.call cell).state ops
  := by
  cases call with
  | splice pos removed inserted =>
    obtain ⟨cell', ops, hcall, hrecords, -⟩ := cell.splice_records pos removed inserted
    rw [Write.call, hcall]
    exact ⟨ops, hrecords⟩
  | setAt pos value =>
    obtain ⟨cell', ops, hcall, hrecords, -⟩ := cell.setAt_records pos value
    rw [Write.call, hcall]
    exact ⟨ops, hrecords⟩
  | moveRange start count dest =>
    rw [Write.call]
    by_cases hin : start + count ≤ cell.items.length ∧ dest ≤ cell.items.length - count
    · obtain ⟨cell', ops, hcall, hrecords, -⟩ := moveRange_records hin.1 hin.2
      rw [hcall]
      exact ⟨ops, hrecords⟩
    · refine ⟨[], ?_⟩
      rw [moveRange]
      split
      case isTrue => apply Records.refl
      case isFalse hmoves =>
        -- what is left is a first index out of bounds: nothing is lifted
        rw [Write.WellPlaced] at h
        rw [moveEach_of_lift_lt (by omega) (by omega), List.take_of_length_le (by omega)]
        apply Records.refl
  | edit body => apply edit_records
  | set value =>
    obtain ⟨cell', ops, hcall, hrecords, -⟩ := cell.set_records value
    rw [Write.call, hcall]
    exact ⟨ops, hrecords⟩
  | reconcileTo items =>
    obtain ⟨cell', ops, hcall, hrecords⟩ := cell.reconcileTo_records items
    rw [Write.call, hcall]
    exact ⟨ops, hrecords⟩

/-- A call that is not well placed loses elements and records nothing. -/
theorem call_of_not_wellPlaced [BEq T] {call : Write T} (h : ¬ call.WellPlaced cell.items) :
  (call.call cell).state.log = cell.log
    ∧ (call.call cell).state.items.length < cell.items.length
  := by
  cases call with
  | moveRange start count dest =>
    simp only [Write.WellPlaced, not_or] at h
    obtain ⟨hcount, hne, hstart, hout⟩ := h
    rw [Write.call, moveRange, if_neg (by omega)]
    by_cases hlift : cell.items.length < start + count
    · rw [moveEach_of_lift_lt hlift (by omega)]
      refine ⟨rfl, ?_⟩
      simp only [Outcome.state, List.length_take]
      omega
    · have hlen := length_splice (show start + count ≤ cell.items.length by omega) []
      rw [moveEach_of_insert_lt (by omega) (by omega) (by omega)]
      refine ⟨rfl, ?_⟩
      simp only [Outcome.state, hlen, List.length_nil]
      omega
  | splice | setAt | edit | set | reconcileTo => exact absurd trivial h

theorem Records.explained {cell' : ListCell T} {ops : List (SeqOp T)} (h : Records cell cell' ops)
    (hlog : cell.log.WellFormed) :
  Explained cell cell'
  := by
  obtain ⟨-, hversion, hkept⟩ := DeltaLog.opsAfter_records hlog ops
  rw [← h.log_eq] at hversion hkept
  constructor
  · intro kept hops
    rw [h.items_eq]
    rcases hkept with hnone | hsome
    · rw [hnone] at hops
      contradiction
    · rw [hsome, Option.some_inj] at hops
      rw [hops]
  · intro hsame
    have hnil : ops = [] := by
      rw [← List.length_eq_zero_iff]
      omega
    rw [h.items_eq, hnil, SeqOp.replay_nil]

/-! ### Runs of a cell -/

/-- A call to a cell. -/
inductive Event (T : Type*) where
  | write (call : Write T)
  | notify
  | cursor (cursor : DeltaCursor)
  | dropCursor (cursor : DeltaCursor)
  | since (cursor : DeltaCursor) (ops : List (SeqOp T))

/-- A cell and the counter that fresh identities are drawn from. -/
structure Host (T : Type*) where
  cell : ListCell T
  nextId : ℕ

/-- One call of a writer or of a consumer. -/
inductive Step [BEq T] : Host T → Event T → Host T → Prop
  | write (host : Host T) (call : Write T) :
      Step host (.write call) { host with cell := (call.call host.cell).state }
  | notify (host : Host T) :
      Step host .notify { host with cell := host.cell.notify }
  | cursor (host : Host T) (id : ℕ) (fresh : host.nextId ≤ id) :
      Step host (.cursor (host.cell.cursor id).2) ⟨(host.cell.cursor id).1, id + 1⟩
  | dropCursor (host : Host T) (cursor : DeltaCursor) :
      Step host (.dropCursor cursor) { host with cell := host.cell.dropCursor cursor }
  | since (host : Host T) (cursor : DeltaCursor) :
      Step host (.since cursor (host.cell.since cursor).2)
        { host with cell := (host.cell.since cursor).1 }

/-- Runs of a cell over `elements` whose log has the given limit. -/
def Run [BEq T] (elements : List T) (limit : ℕ) : List (Event T) → Host T → Prop :=
  Machine.Run (fun host => host.cell = withLimit elements limit) Step

/-- The log of a cell is well formed, and its cursors have identities given out. -/
structure Host.WellFormed (host : Host T) : Prop where
  log : host.cell.log.WellFormed
  id_lt : ∀ cursor ∈ host.cell.log.cursors, cursor.id < host.nextId

theorem call_log [BEq T] (cell : ListCell T) (call : Write T) :
  ∃ ops : List (SeqOp T), (call.call cell).state.log = ops.foldl DeltaLog.record cell.log
  := by
  by_cases h : call.WellPlaced cell.items
  · obtain ⟨ops, hrecords⟩ := call_records h
    exact ⟨ops, hrecords.log_eq⟩
  · exact ⟨[], (call_of_not_wellPlaced h).1⟩

theorem since_fst (cell : ListCell T) (cursor : DeltaCursor) :
  (cell.since cursor).1 = { cell with log := (cell.log.since cursor).1 }
  := by
  rw [since]
  split <;> simp only [*]

theorem Step.wellFormed [BEq T] {host host' : Host T} {event : Event T}
    (h : host.WellFormed) (hstep : Step host event host') :
  host'.WellFormed
  := by
  obtain ⟨hlog, hid⟩ := h
  cases hstep with
  | write call =>
    obtain ⟨ops, hops⟩ := call_log host.cell call
    constructor
    · simp only [hops]
      apply (DeltaLog.opsAfter_records hlog ops).1
    · simp only [hops, DeltaLog.cursors_records]
      apply hid
  | notify => exact ⟨hlog, hid⟩
  | cursor id fresh =>
    constructor
    · apply hlog.cursor
    · intro cursor hcursor
      rcases DeltaLog.mem_cursors_cursor.mp hcursor with hold | rfl
      · have := hid cursor hold
        simp only
        omega
      · apply Nat.lt_succ_self
  | dropCursor cursor =>
    constructor
    · apply hlog.dropCursor
    · intro other hother
      apply hid other (DeltaLog.mem_cursors_dropCursor.mp hother).1
  | since cursor =>
    rw [since_fst]
    constructor
    · apply hlog.since
    · rw [DeltaLog.since_fst]
      apply hid

theorem Run.wellFormed [BEq T] {elements : List T} {limit : ℕ} {trace : List (Event T)}
    {host : Host T} (run : Run elements limit trace host) :
  host.WellFormed
  := by
  apply Machine.Run.invariant (P := Host.WellFormed) _ _ run
  · intro host h
    constructor <;> rw [h]
    · apply DeltaLog.wellFormed_withLimit
    · simp [withLimit, DeltaLog.withLimit]
  · intro host event host' h hstep
    apply hstep.wellFormed h

end ListCell

end Vilan
