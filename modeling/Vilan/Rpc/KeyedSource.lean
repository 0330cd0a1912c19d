import Vilan.Rpc.KeyedCell

/-!
# The keyed mirror

A mirror holds a list and an index of where each key stands, and patches both by deltas.  The deltas
a cell records against the list the mirror holds make of it the list that they made of the cell.
-/

namespace Vilan

/-- What a mirror is told: its elements, if it has been told any, and the first op that named a key
it does not hold. -/
structure KeyedSource (T H : Type*) where
  cache : Option (List T)
  fault : Option String
  positions : Table H ℕ

namespace KeyedSource

open Positions KeyedCell

variable {T K H : Type*} [DecidableEq H] (keying : Keying T K H)

/-- A mirror that has been told nothing. -/
def waiting : KeyedSource T H where
  cache := none
  fault := none
  positions := Table.empty

/-- Where a key stands in a list, if at all. -/
def indexOf (positions : Table H ℕ) (list : List T) (key : H) : Option ℕ :=
  match positions.get key with
  | none => none
  | some pos =>
      match list[pos]? with
      | some _ => some pos
      | none => none

/-- Keep the first fault. -/
def firstFault (held : Option String) (reason : String) : Option String :=
  match held with
  | some kept => some kept
  | none => some reason

/-- A patch under way. -/
structure Applied (T H : Type*) where
  list : List T
  positions : Table H ℕ
  fault : Option String

/-- Apply one op of a patch. -/
def applyOp (applied : Applied T H) : Delta K T → Applied T H
  | .reset items =>
      { applied with list := items, positions := reindex keying Table.empty items 0 }
  | .insert key value index =>
      match indexOf applied.positions applied.list (keying.hash key) with
      | some pos => { applied with list := applied.list.set pos value }
      | none =>
          let bounded := if index > applied.list.length then applied.list.length else index
          let list := applied.list.insertIdx bounded value
          { applied with list := list, positions := reindex keying applied.positions list bounded }
  | .update key value =>
      match indexOf applied.positions applied.list (keying.hash key) with
      | some pos => { applied with list := applied.list.set pos value }
      | none =>
          { applied with
            fault := firstFault applied.fault "an Update named a key the mirror does not hold" }
  | .remove key =>
      match indexOf applied.positions applied.list (keying.hash key) with
      | some pos =>
          let list := applied.list.eraseIdx pos
          { applied with
            list := list
            positions := reindex keying (applied.positions.remove (keying.hash key)) list pos }
      | none =>
          { applied with
            fault := firstFault applied.fault "a Remove named a key the mirror does not hold" }

/-- Apply one patch's ops in order. -/
def apply (source : KeyedSource T H) (ops : List (Delta K T)) : KeyedSource T H :=
  let applied := ops.foldl (applyOp keying) ⟨source.cache.getD [], source.positions, none⟩
  { cache := some applied.list
    positions := applied.positions
    fault :=
      match applied.fault with
      | none => source.fault
      | some reason => firstFault source.fault reason }

/-! ### Following a cell -/

/-- The index maps exactly the held keys to their positions. -/
def Applied.Indexed (applied : Applied T H) : Prop :=
  Indexes applied.positions (applied.list.map keying.of)

variable {keying} {applied : Applied T H}

theorem indexOf_eq_some {positions : Table H ℕ} {list : List T}
    (indexes : Indexes positions (list.map keying.of)) {pos : ℕ} {value : T}
    (found : list[pos]? = some value) :
  indexOf positions list (keying.of value) = some pos
  := by
  have get_eq : positions.get (keying.of value) = some pos := by
    rw [indexes, List.getElem?_map, found]
    rfl
  rw [indexOf, get_eq]
  simp only [found]

theorem indexOf_eq_none {positions : Table H ℕ} {list : List T}
    (indexes : Indexes positions (list.map keying.of)) {key : H} (h : key ∉ list.map keying.of) :
  indexOf positions list key = none
  := by
  rw [indexOf, indexes.get_eq_none_iff.mpr h]

/-- What the wire says of a recorded op does to a mirror what the op did to the cell. -/
theorem applied_translate {elements : List T} {op : SeqOp (KeyedElement K T)}
    (indexed : applied.Indexed keying) (recorded : Recorded keying applied.list op) :
  let next := (translate elements op).foldl (applyOp keying) applied
  next.list = (strip op).apply applied.list ∧ next.Indexed keying ∧ next.fault = applied.fault
  := by
  intro next
  cases recorded with
  | insert value fresh =>
    have absent : indexOf applied.positions applied.list (keying.hash (keying.key value)) = none :=
      indexOf_eq_none indexed fresh
    have next_eq : next = applyOp keying applied (.insert (keying.key value) value applied.list.length) :=
      rfl
    rw [applyOp, absent] at next_eq
    simp only [gt_iff_lt, lt_self_iff_false, if_false, List.insertIdx_length_self] at next_eq
    rw [next_eq]
    refine ⟨?_, ?_, rfl⟩
    · simp [strip, SeqOp.apply, Splice.splice]
    · have arrives := indexes_insertIdx indexed le_rfl fresh
      rw [List.insertIdx_length_self] at arrives
      exact arrives
  | remove key pos dropped found same =>
    have present := indexOf_eq_some indexed found
    have next_eq : next = applyOp keying applied (.remove key) := rfl
    rw [applyOp, ← same, present] at next_eq
    rw [next_eq]
    refine ⟨?_, ?_, rfl⟩
    · simp [strip, SeqOp.apply, Splice.splice, List.eraseIdx_eq_take_drop_succ]
    · apply indexes_eraseIdx indexed found
  | setAt key pos previous value found was same =>
    have present := indexOf_eq_some indexed found
    have next_eq : next = applyOp keying applied (.update key value) := rfl
    rw [applyOp, ← was, present] at next_eq
    rw [next_eq]
    refine ⟨rfl, ?_, rfl⟩
    apply indexes_set indexed found
    rw [same, was]
  | reset items nodup =>
    refine ⟨rfl, ?_, rfl⟩
    apply indexes_of_nodup nodup

/-- Ops recorded one after the other, from a list on. -/
def AllRecorded (keying : Keying T K H) (ops : List (SeqOp (KeyedElement K T))) (list : List T) :
    Prop :=
  Replay.Along (fun op list => (strip op).apply list) (fun op list => Recorded keying list op) ops list

/-- The list a run of recorded ops makes of a list. -/
def replayed (ops : List (SeqOp (KeyedElement K T))) (list : List T) : List T :=
  Replay.replay (fun op list => (strip op).apply list) ops list

theorem replay_strip (ops : List (SeqOp (KeyedElement K T))) (list : List T) :
  SeqOp.replay (ops.map strip) list = replayed ops list
  := List.foldl_map

/-- The deltas of a run of recorded ops make of a mirror what the run made of the cell. -/
theorem applied_translates (elements : List T) {ops : List (SeqOp (KeyedElement K T))}
    (indexed : applied.Indexed keying) (recorded : AllRecorded keying ops applied.list) :
  let next := (ops.flatMap (translate elements)).foldl (applyOp keying) applied
  next.list = replayed ops applied.list ∧ next.Indexed keying ∧ next.fault = applied.fault
  := by
  induction ops generalizing applied with
  | nil => exact ⟨rfl, indexed, rfl⟩
  | cons op ops ih =>
    obtain ⟨first, rest⟩ := recorded
    obtain ⟨list_eq, indexed', fault_eq⟩ := applied_translate indexed first
    have recorded : AllRecorded keying ops ((strip op).apply applied.list) := rest
    rw [← list_eq] at recorded
    obtain ⟨list_eq', indexed'', fault_eq'⟩ := ih indexed' recorded
    intro next
    have next_eq : next = (ops.flatMap (translate elements)).foldl (applyOp keying)
        ((translate elements op).foldl (applyOp keying) applied) := by
      rw [← List.foldl_append]
      rfl
    rw [next_eq]
    refine ⟨?_, indexed'', fault_eq'.trans fault_eq⟩
    rw [list_eq', list_eq]
    rfl

/-- A mirror holds a list, and nothing has gone wrong. -/
structure Follows (keying : Keying T K H) (source : KeyedSource T H) (list : List T) : Prop where
  cache : source.cache = some list
  fault : source.fault = none
  indexed : Indexes source.positions (list.map keying.of)

variable {source : KeyedSource T H}

theorem follows_reset (fault : source.fault = none) {items : List T}
    (nodup : (items.map keying.of).Nodup) :
  (source.apply keying [.reset items]).Follows keying items
  := by
  constructor
  · rfl
  · exact fault
  · apply indexes_of_nodup nodup

/-- A mirror that is told what a cell has recorded follows the cell. -/
theorem Follows.apply {list elements : List T} {ops : List (SeqOp (KeyedElement K T))}
    (follows : source.Follows keying list) (recorded : AllRecorded keying ops list) :
  (source.apply keying (ops.flatMap (translate elements))).Follows keying (replayed ops list)
  := by
  obtain ⟨cache, fault, indexed⟩ := follows
  have start : source.cache.getD [] = list := by
    rw [cache]
    rfl
  have indexed : Applied.Indexed keying ⟨list, source.positions, none⟩ := indexed
  obtain ⟨list_eq, indexed', fault_eq⟩ := applied_translates elements indexed recorded
  rw [KeyedSource.apply, start]
  constructor
  · simp only [list_eq]
  · simp only [fault_eq, fault]
  · simp only [← list_eq]
    exact indexed'

end KeyedSource

end Vilan
