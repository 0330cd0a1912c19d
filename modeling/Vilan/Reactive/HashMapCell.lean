import Vilan.Reactive.DeltaLog
import Vilan.Std.HashMap

/-!
# The map cell

A map whose writes are its ops, as the sequence cell is a list whose writes are.  A pipe's
seal applies the ops of a drain to it as one batch: each op changes the map in place and is
recorded with what the map held, whatever the op claimed.
-/

namespace Vilan

variable {K H V : Type*} {hash : K → H}

/-- A map, the notification of its writes and the log of its ops. -/
structure HashMapCell {K H : Type*} (hash : K → H) (V : Type*) where
  items : HashMap hash V
  /-- What the last notification carried: the sequence number of the log. -/
  published : ℤ
  log : DeltaLog (MapOp hash V)

namespace HashMapCell

/-- A cell holding `map`, with nothing recorded. -/
def of (map : HashMap hash V) : HashMapCell hash V where
  items := map
  published := 0
  log := DeltaLog.new

/-- Fire a write's one notification. -/
def publishMap (cell : HashMapCell hash V) : HashMapCell hash V :=
  { cell with published := cell.log.version }

variable [DecidableEq H]

/-- Change the map by one op, and answer the op to record.  A key that is not held does not
leave. -/
def applyMapOp (map : HashMap hash V) : MapOp hash V → HashMap hash V × Option (MapOp hash V)
  | .put key _ now => (map.insert key now, some (.put key (map.get key) now))
  | .delete key _ =>
      match map.get key with
      | some gone => (map.remove key, some (.delete key gone))
      | none => (map, none)
  | .reset target => (target, some (.reset target))

/-- The loop over the ops of a batch. -/
def applyEach (map : HashMap hash V) :
    List (MapOp hash V) → HashMap hash V × List (MapOp hash V)
  | [] => (map, [])
  | op :: ops =>
      let (map, recorded) := applyMapOp map op
      let (map, more) := applyEach map ops
      (map, recorded.toList ++ more)

/-- Apply `ops` as one batch. -/
def applyMapOps (cell : HashMapCell hash V) (ops : List (MapOp hash V)) :
    HashMapCell hash V :=
  let (items, recorded) := applyEach cell.items ops
  if recorded = [] then { cell with items }
  else publishMap { cell with items, log := recorded.foldl DeltaLog.record cell.log }

theorem applyMapOp_fst (map : HashMap hash V) (op : MapOp hash V) :
  (applyMapOp map op).1 = op.apply map
  := by
  cases op with
  | put => rfl
  | reset => rfl
  | delete key gone =>
    rw [applyMapOp]
    cases hget : map.get key with
    | some => rfl
    | none =>
      apply HashMap.ext
      rw [HashMap.get, Option.map_eq_none_iff, Table.get_eq_none_iff] at hget
      apply (Table.remove_of_not_mem hget).symm

theorem applyEach_fst (map : HashMap hash V) (ops : List (MapOp hash V)) :
  (applyEach map ops).1 = MapOp.replay ops map
  := by
  induction ops generalizing map with
  | nil => rfl
  | cons op ops ih =>
    rw [MapOp.replay_cons, ← applyMapOp_fst]
    apply ih

/-- A batch leaves the map its ops make of the map. -/
theorem items_applyMapOps (cell : HashMapCell hash V) (ops : List (MapOp hash V)) :
  (cell.applyMapOps ops).items = MapOp.replay ops cell.items
  := by
  rw [applyMapOps]
  simp only
  split
  · apply applyEach_fst
  · apply applyEach_fst

end HashMapCell

end Vilan
