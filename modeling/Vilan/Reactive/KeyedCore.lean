import Vilan.Reactive.Resolve
import Vilan.Std.HashMap

/-!
# The keyed core of a map stage

A stage of a map pipe runs its closure once for each key.  The runs are those of an element
core, and the rows are kept by key, in the order of the upstream map: an overwrite keeps its
row's place, a removal drops it, an arrival goes to the end.

The keyed core resolves a drain into key events.  The events of a drain take the rows the
core held to the rows it holds: the current entries of the upstream with the current values
of their runs.
-/

namespace Vilan

variable {K H F V U : Type*}

/-- One key's row: the key, its input value, what the closure answered for it, and the slot
of its run. -/
structure KeyRow (K V U : Type*) where
  key : K
  input : V
  value : U
  id : ℕ
  deriving DecidableEq, Repr

/-- The state of a keyed stage. -/
structure KeyedCore (K H F V U : Type*) where
  core : ElementCore (K × V) F U
  rows : Table H (KeyRow K V U)
  /-- A run's slot to its key's hash. -/
  keyOfSlot : Table ℕ H

/-- One key change. -/
inductive KeyEvent (K V U : Type*) where
  /-- A key arrived: its input and what the closure answered. -/
  | arrived (key : K) (input : V) (value : U)
  /-- A key's input and answer changed; `rerun` when its input was replaced. -/
  | changed (key : K) (before after : V × U) (rerun : Bool)
  /-- A key left, with what it held. -/
  | left (key : K) (input : V) (value : U)
  /-- The map became these rows. -/
  | reset (rows : List (KeyRow K V U))
  deriving DecidableEq, Repr

namespace KeyedCore

/-- A core that holds nothing. -/
def new (run : K × V → ElementRun F U × Bool) : KeyedCore K H F V U where
  core := .new run
  rows := Table.empty
  keyOfSlot := Table.empty

/-- Every row, in order. -/
def keyedRows (keyed : KeyedCore K H F V U) : List (KeyRow K V U) :=
  keyed.rows.values

/-- Release what the run of `row` built. -/
def keyedRetire (keyed : KeyedCore K H F V U) (row : KeyRow K V U) : KeyedCore K H F V U :=
  { keyed with
    core := keyed.core.retire row.id
    keyOfSlot := keyed.keyOfSlot.remove row.id }

variable [DecidableEq H] (hash : K → H)

/-- Run the closure for the input of `key` and file the row. -/
def keyedAdmit (current : F → U) (keyed : KeyedCore K H F V U) (key : K) (input : V) :
    KeyedCore K H F V U × KeyRow K V U :=
  let (core, id, value) := keyed.core.admitItem current (key, input)
  let row : KeyRow K V U := { key, input, value, id }
  ({ core
     rows := keyed.rows.insert (hash key) row
     keyOfSlot := keyed.keyOfSlot.insert id (hash key) }, row)

variable {hash}

/-- Seed the rows from `map`, in its order. -/
def keyedSeed (current : F → U) (keyed : KeyedCore K H F V U) (map : HashMap hash V) :
    KeyedCore K H F V U :=
  map.entries.foldl (fun keyed entry => (keyed.keyedAdmit hash current entry.1 entry.2).1) keyed

/-- Apply one op of the upstream and answer the event it made. -/
def keyedResolveOp (current : F → U) (keyed : KeyedCore K H F V U) :
    MapOp hash V → KeyedCore K H F V U × Option (KeyEvent K V U)
  | .put key _ input =>
      match keyed.rows.get (hash key) with
      | some row =>
          -- the key re-runs, in a slot of its own
          let (keyed, fresh) := (keyed.keyedRetire row).keyedAdmit hash current key input
          (keyed, some (.changed key (row.input, row.value) (fresh.input, fresh.value) true))
      | none =>
          let (keyed, fresh) := keyed.keyedAdmit hash current key input
          (keyed, some (.arrived key fresh.input fresh.value))
  | .delete key _ =>
      match keyed.rows.get (hash key) with
      | some row =>
          let keyed := keyed.keyedRetire row
          ({ keyed with rows := keyed.rows.remove (hash key) },
            some (.left key row.input row.value))
      | none => (keyed, none)
  | .reset map =>
      let keyed := keyed.keyedRows.foldl keyedRetire keyed
      let keyed := keyedSeed current { keyed with rows := Table.empty } map
      (keyed, some (.reset keyed.keyedRows))

/-- The loop over the upstream's ops. -/
def keyedResolveOps (current : F → U) (keyed : KeyedCore K H F V U) :
    List (MapOp hash V) → KeyedCore K H F V U × List (KeyEvent K V U)
  | [] => (keyed, [])
  | op :: ops =>
      let (keyed, event) := keyed.keyedResolveOp current op
      let (keyed, events) := keyed.keyedResolveOps current ops
      (keyed, event.toList ++ events)

/-- Read the flow of one woken slot once more.  A slot whose key left or re-ran is skipped,
and one that follows nothing. -/
def readKey (current : F → U) (keyed : KeyedCore K H F V U) (id : ℕ) :
    KeyedCore K H F V U × Option (KeyEvent K V U) :=
  match keyed.keyOfSlot.get id with
  | none => (keyed, none)
  | some key =>
      match keyed.rows.get key, keyed.core.holds.get id with
      | some row, some hold =>
          if hold.follows then
            let now := hold.pull.pull current
            ({ keyed with rows := keyed.rows.insert key { row with value := now } },
              some (.changed row.key (row.input, row.value) (row.input, now) false))
          else (keyed, none)
      | _, _ => (keyed, none)

/-- The loop over the woken slots, each read once however many times it woke. -/
def readKeys (current : F → U) (keyed : KeyedCore K H F V U) (seen : List ℕ) :
    List ℕ → KeyedCore K H F V U × List (KeyEvent K V U)
  | [] => (keyed, [])
  | id :: woke =>
      if id ∈ seen then keyed.readKeys current seen woke
      else
        let (keyed, event) := keyed.readKey current id
        let (keyed, events) := keyed.readKeys current (id :: seen) woke
        (keyed, event.toList ++ events)

/-- Apply the ops of the upstream, then read the flows that changed, and answer the events
in order. -/
def keyedResolve (current : F → U) (keyed : KeyedCore K H F V U) (ops : List (MapOp hash V)) :
    KeyedCore K H F V U × List (KeyEvent K V U) :=
  let (keyed, events) := keyed.keyedResolveOps current ops
  let woke := keyed.core.dirty
  let (keyed, more) :=
    readKeys current { keyed with core := { keyed.core with dirty := [] } } [] woke
  (keyed, events ++ more)

end KeyedCore

/-! ### What a key event says of the rows -/

/-- What a row shows of its key: the input, and what the closure answered. -/
def KeyRow.shown (row : KeyRow K V U) : K × (V × U) :=
  (row.key, (row.input, row.value))

/-- The entry of the upstream a row is for. -/
def KeyRow.entry (row : KeyRow K V U) : K × V :=
  (row.key, row.input)

/-- The slot of a row's run. -/
def KeyRow.slot (row : KeyRow K V U) : ElementCore.Slot (K × V) U where
  id := row.id
  item := row.entry
  value := row.value

namespace KeyEvent

variable [DecidableEq H] (hash : K → H)

/-- The table of a list of rows. -/
def tableOf (rows : List (KeyRow K V U)) : Table H (K × (V × U)) :=
  rows.foldl (fun table row => table.insert (hash row.key) row.shown) Table.empty

theorem entries_tableOf {hash : K → H} {rows : List (KeyRow K V U)}
    (h : (rows.map (fun row => hash row.key)).Nodup) :
  (tableOf hash rows).entries = rows.map (fun row => (hash row.key, row.shown))
  := by
  have hfold : tableOf hash rows
      = (rows.map (fun row => (hash row.key, row.shown))).foldl
        (fun table entry => table.insert entry.1 entry.2) Table.empty := by
    rw [List.foldl_map]
    rfl
  rw [hfold, Table.entries_foldl_insert (by rwa [List.map_map])]
  · rfl
  · simp [Table.keys]

/-- What an event makes of the shown rows. -/
def apply : KeyEvent K V U → Table H (K × (V × U)) → Table H (K × (V × U))
  | arrived key input value, shown => shown.insert (hash key) (key, (input, value))
  | changed key _ after _, shown => shown.insert (hash key) (key, after)
  | left key _ _, shown => shown.remove (hash key)
  | reset rows, _ => tableOf hash rows

/-- What the event says was there is what the rows show.  A change that is no re-run keeps
the key and its input. -/
def Accurate : KeyEvent K V U → Table H (K × (V × U)) → Prop
  | arrived key _ _, shown => shown.get (hash key) = none
  | changed key before after rerun, shown =>
      ∃ held, shown.get (hash key) = some (held, before)
        ∧ (rerun = false → held = key ∧ before.1 = after.1)
  | left key input value, shown => ∃ held, shown.get (hash key) = some (held, (input, value))
  | reset rows, _ => (rows.map (fun row => hash row.key)).Nodup

/-- The shown rows a run of events makes of the shown rows. -/
def replay (events : List (KeyEvent K V U)) (shown : Table H (K × (V × U))) :
    Table H (K × (V × U)) :=
  Replay.replay (apply hash) events shown

/-- Every event of a run is accurate when it happens. -/
def AllAccurate (events : List (KeyEvent K V U)) (shown : Table H (K × (V × U))) : Prop :=
  Replay.Along (apply hash) (Accurate hash) events shown

end KeyEvent

end Vilan
