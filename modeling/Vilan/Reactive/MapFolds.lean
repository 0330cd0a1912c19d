import Vilan.Reactive.KeyedResolve
import Vilan.Reactive.MapDoors
import Vilan.Reactive.Tally

/-!
# `count` and `sum_by` of a map

Two scalar stages over a map: a counter that the ops themselves move, and an accumulator over the
rows of a keyed core, so that each key's measure runs once for each of its values.
-/

namespace Vilan

open List Option

variable {K H F V N : Type*} {hash : K → H} [DecidableEq H]

/-! ### `count` -/

/-- A counting stage that has started: its upstream and its counter. -/
structure MapCount {K H : Type*} (hash : K → H) (V : Type*) where
  upstream : HashMap hash V
  held : ℕ

namespace MapCount

/-- What an op makes of the counter; `none` when it would go below zero. -/
def countOp (held : ℕ) : MapOp hash V → Option ℕ
  | .put _ was _ => some (if was.isNone then held + 1 else held)
  | .delete _ _ => Checked.sub held 1
  | .reset map => some map.len

/-- Start counting. -/
def opened (map : HashMap hash V) : MapCount hash V where
  upstream := map
  held := map.len

/-- Pull: deliver `ops` of the upstream and answer the count. -/
def pull (stage : MapCount hash V) (ops : List (MapOp hash V)) : Option (ℕ × MapCount hash V) :=
  (ops.foldlM countOp stage.held).map fun held =>
    (held, { upstream := MapOp.replay ops stage.upstream, held })

/-- Pulls, each of ops that say what the upstream held. -/
inductive Step : MapCount hash V → List (MapOp hash V) → MapCount hash V → Prop
  | pull (stage stage' : MapCount hash V) (ops : List (MapOp hash V)) (value : ℕ)
      (accurate : Replay.Along MapOp.apply MapOp.Accurate ops stage.upstream)
      (pulled : stage.pull ops = some (value, stage')) :
      Step stage ops stage'

/-- Runs of a count of a map. -/
def Run (map : HashMap hash V) : List (List (MapOp hash V)) → MapCount hash V → Prop :=
  Machine.Run (fun stage => stage = opened map) Step

/-- The law of one op: a counter that counts the map counts it after the op. -/
theorem countOp_eq {op : MapOp hash V} {map : HashMap hash V} (accurate : op.Accurate map) :
  countOp map.len op = some (op.apply map).len
  := by
  have len : ∀ map : HashMap hash V, map.len = map.table.values.length := by
    intro map
    rw [Table.values, length_map]
    rfl
  cases op with
  | put key was now =>
    have held : map.get key = was := accurate
    rw [countOp, MapOp.apply, len, len, HashMap.insert]
    dsimp only
    cases was with
    | none =>
      rw [HashMap.get, map_eq_none_iff] at held
      rw [Table.values_insert_of_not_mem (Table.get_eq_none_iff.mp held), length_append]
      rfl
    | some was =>
      rw [HashMap.get, map_eq_some_iff] at held
      obtain ⟨entry, held, _⟩ := held
      obtain ⟨before, after, split, inserted, _⟩ := Table.values_split held
      rw [inserted, split, length_append, length_append]
      rfl
  | delete key gone =>
    have held : map.get key = some gone := accurate
    rw [HashMap.get, map_eq_some_iff] at held
    obtain ⟨entry, held, _⟩ := held
    obtain ⟨before, after, split, _, removed⟩ := Table.values_split held
    rw [countOp, MapOp.apply, len, len, HashMap.remove]
    dsimp only
    rw [removed, split, length_append, length_append, length_cons, Checked.sub_of_le (by omega)]
    rfl
  | reset map => rfl

/-- The law of a drain. -/
theorem foldlM_countOp {ops : List (MapOp hash V)} {map : HashMap hash V}
    (accurate : Replay.Along MapOp.apply MapOp.Accurate ops map) :
  ops.foldlM countOp map.len = some (MapOp.replay ops map).len
  := by
  induction ops generalizing map with
  | nil => rfl
  | cons op ops ih =>
    obtain ⟨here, rest⟩ := accurate
    rw [foldlM_cons, countOp_eq here, MapOp.replay_cons]
    apply ih rest

theorem Run.held_eq {map : HashMap hash V} {trace : List (List (MapOp hash V))}
    {stage : MapCount hash V} (run : Run map trace stage) :
  stage.held = stage.upstream.len
  := by
  apply Machine.Run.invariant (P := fun stage => stage.held = stage.upstream.len) _ _ run
  · rintro stage rfl
    rfl
  · intro stage ops stage' held step
    cases step with
    | pull stage' ops value accurate pulled =>
      have counted := foldlM_countOp accurate
      rw [pull, held, counted, map_some, some_inj] at pulled
      cases pulled
      rfl

end MapCount

/-! ### `sum_by` -/

/-- A summing stage that has started: its upstream, the values of the flows, its core and its
accumulator. -/
structure MapSum {K H : Type*} (hash : K → H) (F V N : Type*) where
  upstream : HashMap hash V
  current : F → N
  keyed : KeyedCore K H F V N
  total : N

namespace MapSum

variable [AddCommGroup N]

/-- The total of the rows, from zero. -/
def totalOf (zero : N) (rows : List (KeyRow K V N)) : N :=
  rows.foldl (fun total row => total + row.value) zero

/-- What an event makes of the accumulator. -/
def sumEvent (total : N) : KeyEvent K V N → N
  | .arrived _ _ value => total + value
  | .changed _ before after _ => total - before.2 + after.2
  | .left _ _ value => total - value
  | .reset rows => totalOf 0 rows

/-- The run of a key: its measure reads the value alone. -/
def measured (measure : V → ElementRun F N × Bool) (entry : K × V) : ElementRun F N × Bool :=
  measure entry.2

/-- Start summing. -/
def opened (measure : V → ElementRun F N × Bool) (current : F → N) (map : HashMap hash V) :
    MapSum hash F V N :=
  let keyed := (KeyedCore.new (measured measure)).keyedSeed current map
  { upstream := map
    current := current
    keyed := keyed
    total := totalOf 0 keyed.keyedRows }

/-- Pull: deliver `ops` of the upstream, and what woke since the last drain, and answer the total. -/
def pull (stage : MapSum hash F V N) (ops : List (MapOp hash V)) : N × MapSum hash F V N :=
  let resolved := stage.keyed.keyedResolve stage.current ops
  let total := resolved.2.foldl sumEvent stage.total
  (total,
    { stage with
      upstream := MapOp.replay ops stage.upstream
      keyed := resolved.1
      total := total })

/-- What happens to a summing stage. -/
inductive Event {K H : Type*} (hash : K → H) (F V N : Type*) where
  /-- Flows change value, and slots wake. -/
  | flows (after : F → N) (woke : List ℕ)
  /-- The stage is pulled. -/
  | pull (ops : List (MapOp hash V))

/-- The slots that wake are all that follow a flow that has changed, and any others. -/
inductive Step : MapSum hash F V N → Event hash F V N → MapSum hash F V N → Prop
  | flows (stage : MapSum hash F V N) (after : F → N) (woke : List ℕ)
      (wakes : stage.keyed.Wakes stage.current after woke) :
      Step stage (.flows after woke)
        { stage with current := after, keyed := stage.keyed.wake woke }
  | pull (stage : MapSum hash F V N) (ops : List (MapOp hash V)) :
      Step stage (.pull ops) (stage.pull ops).2

/-- Runs of a sum of a map. -/
def Run (measure : V → ElementRun F N × Bool) (current : F → N) (map : HashMap hash V) :
    List (Event hash F V N) → MapSum hash F V N → Prop :=
  Machine.Run (fun stage => stage = opened measure current map) Step

/-- The sum of what the rows show. -/
def shownTotal (shown : Table H (K × (V × N))) : N :=
  (shown.values.map fun held => held.2.2).sum

omit [DecidableEq H] in
theorem totalOf_eq (zero : N) (rows : List (KeyRow K V N)) :
  totalOf zero rows = zero + (rows.map KeyRow.value).sum
  := by
  induction rows generalizing zero with
  | nil => exact (add_zero zero).symm
  | cons row rows ih =>
    have rest : totalOf zero (row :: rows) = totalOf (zero + row.value) rows := rfl
    rw [rest, ih, map_cons, sum_cons, add_assoc]

/-- The law of one event: an accumulator that is the sum of what the rows show is it after the
event. -/
theorem sumEvent_eq {event : KeyEvent K V N} {shown : Table H (K × (V × N))}
    (accurate : event.Accurate hash shown) :
  sumEvent (shownTotal shown) event = shownTotal (event.apply hash shown)
  := by
  cases event with
  | arrived key input value =>
    have fresh : shown.get (hash key) = none := accurate
    rw [sumEvent, KeyEvent.apply, shownTotal, shownTotal,
      Table.values_insert_of_not_mem (Table.get_eq_none_iff.mp fresh), map_append,
      sum_append, map_singleton, sum_singleton]
  | changed key before after rerun =>
    obtain ⟨held, get, _⟩ := accurate
    obtain ⟨front, back, split, inserted, _⟩ := Table.values_split get
    rw [sumEvent, KeyEvent.apply, shownTotal, shownTotal, inserted, split, map_append, map_append,
      sum_append, sum_append, map_cons, map_cons, sum_cons, sum_cons]
    abel
  | left key input value =>
    obtain ⟨held, get⟩ := accurate
    obtain ⟨front, back, split, _, removed⟩ := Table.values_split get
    rw [sumEvent, KeyEvent.apply, shownTotal, shownTotal, removed, split, map_append,
      map_append, sum_append, sum_append, map_cons, sum_cons]
    abel
  | reset rows =>
    have distinct : (rows.map fun row => hash row.key).Nodup := accurate
    rw [sumEvent, totalOf_eq, zero_add, KeyEvent.apply, shownTotal, Table.values,
      KeyEvent.entries_tableOf distinct, List.map_map, List.map_map]
    rfl

/-- The law of the events of a drain. -/
theorem foldl_sumEvent {events : List (KeyEvent K V N)} {shown : Table H (K × (V × N))}
    (accurate : KeyEvent.AllAccurate hash events shown) :
  events.foldl sumEvent (shownTotal shown) = shownTotal (KeyEvent.replay hash events shown)
  := by
  induction events generalizing shown with
  | nil => rfl
  | cons event events ih =>
    obtain ⟨here, rest⟩ := accurate
    rw [foldl_cons, sumEvent_eq here]
    apply ih rest

/-- The core holds the upstream, and the accumulator is the sum of its rows. -/
structure Follows (measure : V → ElementRun F N × Bool) (stage : MapSum hash F V N) : Prop where
  holds : KeyedCore.Holds hash stage.current stage.keyed stage.upstream
  run_eq : stage.keyed.core.run = measured measure
  total_eq : stage.total = shownTotal stage.keyed.shown

omit [DecidableEq H] in
theorem totalOf_keyedRows (keyed : KeyedCore K H F V N) :
  totalOf 0 keyed.keyedRows = shownTotal keyed.shown
  := by
  rw [totalOf_eq, zero_add, shownTotal, KeyedCore.shown, KeyedCore.keyedRows, Table.values,
    Table.values, Table.map, List.map_map, List.map_map, List.map_map]
  rfl

theorem follows_opened (measure : V → ElementRun F N × Bool) (current : F → N)
    (map : HashMap hash V) :
  Follows measure (opened measure current map)
  := by
  obtain ⟨holds, _, run⟩ := KeyedCore.keyedSeed_spec current (measured measure) map
  exact ⟨holds, run, totalOf_keyedRows _⟩

/-- The law of one pull: the accumulator is what a sum over the current entries, with what their
measures answer now, would be. -/
theorem Follows.pull {measure : V → ElementRun F N × Bool} {stage : MapSum hash F V N}
    (follows : Follows measure stage) (ops : List (MapOp hash V)) :
  Follows measure (stage.pull ops).2 ∧
    (stage.pull ops).1 = ((MapOp.replay ops stage.upstream).values.map
      fun value => (measure value).1.pull stage.current).sum
  := by
  obtain ⟨holds, settled, run, accurate, replayed⟩ :=
    KeyedCore.keyedResolve_spec follows.holds ops
  have total := foldl_sumEvent accurate
  rw [replayed, ← follows.total_eq] at total
  have shown := holds.shown_eq settled
  use ⟨holds, run.trans follows.run_eq, total⟩
  apply total.trans
  rw [shown, run, follows.run_eq, shownTotal, HashMap.values, HashMap.entries, Table.values,
    Table.values, Table.map, List.map_map, List.map_map, List.map_map, List.map_map]
  rfl

theorem Run.follows {measure : V → ElementRun F N × Bool} {current : F → N} {map : HashMap hash V}
    {trace : List (Event hash F V N)} {stage : MapSum hash F V N}
    (run : Run measure current map trace stage) :
  Follows measure stage
  := by
  apply Machine.Run.invariant (P := Follows measure) _ _ run
  · rintro stage rfl
    apply follows_opened
  · intro stage event stage' follows step
    cases step with
    | flows after woke wakes =>
      exact ⟨follows.holds.wake wakes, follows.run_eq, follows.total_eq⟩
    | pull ops => exact (follows.pull ops).1

end MapSum

/-! ### The folds follow -/

end Vilan
