import Vilan.Library.Positions
import Vilan.Reactive.DeltaLog
import Vilan.Reactive.SeqOp

/-!
# A keyed collection whose writes are its deltas

The cell holds a list, an index of where each key stands, and a log of the positional ops of its
writes, each over the element and its key.  The log is read in two ways: as the deltas of the wire,
which name elements by their key, and as the positional ops themselves.
-/

namespace Vilan

open List

/-- How the elements of a collection are keyed, and keys hashed.  Keys are told apart by their
hash. -/
structure Keying (T K H : Type*) where
  key : T → K
  hash : K → H

/-- The hash of the key of an element. -/
def Keying.of {T K H : Type*} (keying : Keying T K H) (value : T) : H :=
  keying.hash (keying.key value)

/-- An element beside its key. -/
structure KeyedElement (K T : Type*) where
  key : K
  value : T
  deriving DecidableEq

/-- A change of a keyed collection, as it is sent. -/
inductive Delta (K T : Type*) where
  | reset (items : List T)
  | insert (key : K) (value : T) (index : ℕ)
  | update (key : K) (value : T)
  | remove (key : K)
  deriving DecidableEq

structure KeyedCell (T K H : Type*) where
  elements : List T
  positions : Table H ℕ
  log : DeltaLog (SeqOp (KeyedElement K T))

namespace KeyedCell

open Positions

variable {T K H : Type*} [DecidableEq H] (keying : Keying T K H)

/-- Record again the position of every element from a position on. -/
def reindex (positions : Table H ℕ) (list : List T) (start : ℕ) : Table H ℕ :=
  Positions.reindex positions ((list.drop start).map keying.of) start

/-- A cell that holds `initial`. -/
def new (initial : List T) : KeyedCell T K H where
  elements := initial
  positions := reindex keying Table.empty initial 0
  log := DeltaLog.new

/-- Add an element, or replace what is held under its key.  A position that is not in the list
panics. -/
def insert (value : T) (cell : KeyedCell T K H) : Option (KeyedCell T K H) :=
  match cell.positions.get (keying.of value) with
  | some pos =>
      match cell.elements[pos]? with
      | some previous =>
          some { cell with
            elements := cell.elements.set pos value
            log := cell.log.record
              (.setAt pos ⟨keying.key value, previous⟩ ⟨keying.key value, value⟩) }
      | none => none
  | none =>
      some
        { elements := cell.elements ++ [value]
          positions := cell.positions.insert (keying.of value) cell.elements.length
          log := cell.log.record (.splice cell.elements.length [] [⟨keying.key value, value⟩]) }

/-- Drop the element under a key, if there is one. -/
def remove (key : K) (cell : KeyedCell T K H) : Option (KeyedCell T K H) :=
  match cell.positions.get (keying.hash key) with
  | none => some cell
  | some pos =>
      match cell.elements[pos]? with
      | some dropped =>
          some
            { elements := cell.elements.eraseIdx pos
              positions := reindex keying (cell.positions.remove (keying.hash key))
                (cell.elements.eraseIdx pos) pos
              log := cell.log.record (.splice pos [⟨key, dropped⟩] []) }
      | none => none

/-- Mutate the element under a key in place, if there is one. -/
def update (key : K) (mutate : T → T) (cell : KeyedCell T K H) : Option (KeyedCell T K H) :=
  match cell.positions.get (keying.hash key) with
  | none => some cell
  | some pos =>
      match cell.elements[pos]? with
      | some previous =>
          some { cell with
            elements := cell.elements.set pos (mutate previous)
            log := cell.log.record (.setAt pos ⟨key, previous⟩ ⟨key, mutate previous⟩) }
      | none => none

/-- Replace the whole collection. -/
def set (value : List T) (cell : KeyedCell T K H) : KeyedCell T K H where
  elements := value
  positions := reindex keying Table.empty value 0
  log := cell.log.record (.reset (value.map fun element => ⟨keying.key element, element⟩))

/-- The element under a key, and where it stands. -/
def locate (key : K) (cell : KeyedCell T K H) : Option (ℕ × T) :=
  match cell.positions.get (keying.hash key) with
  | none => none
  | some pos =>
      match cell.elements[pos]? with
      | none => none
      | some element => some (pos, element)

/-- Register a cursor. -/
def cursor (id : ℕ) (cell : KeyedCell T K H) : KeyedCell T K H :=
  { cell with log := (cell.log.cursor id).1 }

/-- Retire a cursor. -/
def dropCursor (cursor : DeltaCursor) (cell : KeyedCell T K H) : KeyedCell T K H :=
  { cell with log := cell.log.dropCursor cursor }

/-- What the wire says of a recorded op: removals go first, and the insertions then name the
positions they are inserted at. -/
def translate (elements : List T) : SeqOp (KeyedElement K T) → List (Delta K T)
  | .splice pos removed inserted =>
      removed.map (fun gone => .remove gone.key) ++
        inserted.mapIdx fun offset element => .insert element.key element.value (pos + offset)
  | .setAt _ _ element => [.update element.key element.value]
  | .reset items => [.reset (items.map KeyedElement.value)]
  | .move _ _ _ => [.reset elements]

/-- Everything a cursor has not been told, as deltas.  A cursor that is left behind is told the
collection. -/
def since (cursor : DeltaCursor) (cell : KeyedCell T K H) : KeyedCell T K H × List (Delta K T) :=
  let (log, answer) := cell.log.since cursor
  match answer with
  | none => ({ cell with log := log }, [.reset cell.elements])
  | some recorded => ({ cell with log := log }, recorded.flatMap (translate cell.elements))

/-- A recorded op without its keys. -/
def strip : SeqOp (KeyedElement K T) → SeqOp T
  | .splice pos removed inserted =>
      .splice pos (removed.map KeyedElement.value) (inserted.map KeyedElement.value)
  | .setAt pos previous element => .setAt pos previous.value element.value
  | .reset items => .reset (items.map KeyedElement.value)
  | .move start count dest => .move start count dest

/-- The same log read positionally. -/
def keyedCellSince (cursor : DeltaCursor) (cell : KeyedCell T K H) :
    KeyedCell T K H × List (SeqOp T) :=
  let (log, answer) := cell.log.since cursor
  match answer with
  | none => ({ cell with log := log }, [.reset cell.elements])
  | some recorded => ({ cell with log := log }, recorded.map strip)

/-! ### What a write records -/

/-- What a write of the cell records against a list. -/
inductive Recorded (list : List T) : SeqOp (KeyedElement K T) → Prop
  | insert (value : T) (fresh : keying.of value ∉ list.map keying.of) :
      Recorded list (.splice list.length [] [⟨keying.key value, value⟩])
  | remove (key : K) (pos : ℕ) (dropped : T) (found : list[pos]? = some dropped)
      (same : keying.of dropped = keying.hash key) :
      Recorded list (.splice pos [⟨key, dropped⟩] [])
  | setAt (key : K) (pos : ℕ) (previous value : T) (found : list[pos]? = some previous)
      (was : keying.of previous = keying.hash key) (same : keying.of value = keying.hash key) :
      Recorded list (.setAt pos ⟨key, previous⟩ ⟨key, value⟩)
  | reset (items : List (KeyedElement K T))
      (nodup : ((items.map KeyedElement.value).map keying.of).Nodup) :
      Recorded list (.reset items)

/-- The index of a cell maps exactly its keys to their positions. -/
def Indexed (cell : KeyedCell T K H) : Prop :=
  Indexes cell.positions (cell.elements.map keying.of)

/-- A write records an op that makes of the list of the cell the list it leaves. -/
structure Writes (cell next : KeyedCell T K H) (op : SeqOp (KeyedElement K T)) : Prop where
  recorded : Recorded keying cell.elements op
  elements : next.elements = (strip op).apply cell.elements
  log : next.log = cell.log.record op
  indexed : Indexed keying next

variable {keying} {cell : KeyedCell T K H}

theorem new_indexed {initial : List T} (nodup : (initial.map keying.of).Nodup) :
  Indexed keying (new keying initial)
  := indexes_of_nodup nodup

variable {pos : ℕ} {list : List T} {positions : Table H ℕ}

/-- The index leads to an element with the key it was asked for. -/
theorem exists_of_get (indexes : Indexes positions (list.map keying.of)) {key : H}
    (h : positions.get key = some pos) :
  ∃ value, list[pos]? = some value ∧ keying.of value = key
  := by
  rw [indexes key pos, getElem?_map, Option.map_eq_some_iff] at h
  exact h

/-- An index is not changed by a write in place that keeps the key. -/
theorem indexes_set (indexes : Indexes positions (list.map keying.of)) {previous value : T}
    (found : list[pos]? = some previous) (same : keying.of value = keying.of previous) :
  Indexes positions ((list.set pos value).map keying.of)
  := by
  have kept : (list.set pos value).map keying.of = list.map keying.of := by
    apply ext_getElem?
    intro other
    rw [getElem?_map, getElem?_map, getElem?_set]
    split
    next eq =>
      subst eq
      have lt := (List.getElem?_eq_some_iff.mp found).1
      rw [if_pos lt, found, Option.map_some, Option.map_some, same]
    · rfl
  rw [kept]
  exact indexes

theorem insertIdx_eq_append (le : pos ≤ list.length) (value : T) :
  list.insertIdx pos value = list.take pos ++ value :: list.drop pos
  := by
  rw [insertIdx_eq_splice le, Splice.splice, Nat.add_zero, append_assoc, singleton_append]

/-- An arrival moves what stands after it. -/
theorem indexes_insertIdx (indexes : Indexes positions (list.map keying.of))
    (le : pos ≤ list.length) {value : T} (fresh : keying.of value ∉ list.map keying.of) :
  Indexes (reindex keying positions (list.insertIdx pos value) pos)
    ((list.insertIdx pos value).map keying.of)
  := by
  have arrived := insertIdx_eq_append le value
  have keys : list.map keying.of =
      (list.take pos).map keying.of ++ ([] ++ (list.drop pos).map keying.of) := by
    rw [nil_append, ← map_append, take_append_drop]
  have index : Indexes positions
      ((list.take pos).map keying.of ++ ([] ++ (list.drop pos).map keying.of)) := by
    rw [← keys]
    exact indexes
  have nodup : ((list.take pos).map keying.of ++
      ([keying.of value] ++ (list.drop pos).map keying.of)).Nodup := by
    rw [singleton_append, nodup_middle, ← map_append, take_append_drop, nodup_cons]
    exact ⟨fresh, indexes.nodup⟩
  have spliced := index.splice nodup fun key => (if_neg not_mem_nil).symm
  rw [length_map, length_take_of_le le] at spliced
  rw [arrived, reindex, drop_left' (length_take_of_le le), map_append]
  exact spliced

/-- A departure moves what stands after it. -/
theorem indexes_eraseIdx (indexes : Indexes positions (list.map keying.of)) {dropped : T}
    (found : list[pos]? = some dropped) :
  Indexes (reindex keying (positions.remove (keying.of dropped)) (list.eraseIdx pos) pos)
    ((list.eraseIdx pos).map keying.of)
  := by
  obtain ⟨lt, at_pos⟩ := List.getElem?_eq_some_iff.mp found
  have keys : list.map keying.of = (list.take pos).map keying.of ++
      ([keying.of dropped] ++ (list.drop (pos + 1)).map keying.of) := by
    rw [← at_pos, singleton_append, ← map_cons, getElem_cons_drop, ← map_append, take_append_drop]
  have left : (list.eraseIdx pos).map keying.of = (list.take pos).map keying.of ++
      ([] ++ (list.drop (pos + 1)).map keying.of) := by
    rw [eraseIdx_eq_take_drop_succ, map_append, nil_append]
  have index : Indexes positions ((list.take pos).map keying.of ++
      ([keying.of dropped] ++ (list.drop (pos + 1)).map keying.of)) := by
    rw [← keys]
    exact indexes
  have nodup : ((list.take pos).map keying.of ++
      ([] ++ (list.drop (pos + 1)).map keying.of)).Nodup := by
    rw [← left]
    apply List.Nodup.sublist _ indexes.nodup
    apply (eraseIdx_sublist _ _).map
  have forgets : ∀ other, (positions.remove (keying.of dropped)).get other =
      if other ∈ [keying.of dropped] then none else positions.get other := by
    simp
  have spliced := index.splice nodup forgets
  rw [length_map, length_take_of_le lt.le] at spliced
  rw [left, reindex, eraseIdx_eq_take_drop_succ, drop_left' (length_take_of_le lt.le)]
  exact spliced

theorem insert_writes (indexed : Indexed keying cell) (value : T) :
  ∃ next op, cell.insert keying value = some next ∧ Writes keying cell next op
  := by
  rw [insert]
  cases get_eq : cell.positions.get (keying.of value) with
  | some pos =>
    obtain ⟨previous, found, same⟩ := exists_of_get indexed get_eq
    simp only [found]
    refine ⟨_, _, rfl, ?_, rfl, rfl, ?_⟩
    · apply Recorded.setAt _ _ _ _ found same rfl
    · apply indexes_set indexed found same.symm
  | none =>
    have fresh := indexed.get_eq_none_iff.mp get_eq
    have arrives := indexes_insertIdx indexed le_rfl fresh
    rw [insertIdx_length_self, reindex, drop_left] at arrives
    refine ⟨_, _, rfl, Recorded.insert value fresh, ?_, rfl, arrives⟩
    simp [strip, SeqOp.apply, Splice.splice]

theorem remove_writes (indexed : Indexed keying cell) (key : K) :
  (keying.hash key ∉ cell.elements.map keying.of ∧ cell.remove keying key = some cell) ∨
    ∃ next op, cell.remove keying key = some next ∧ Writes keying cell next op
  := by
  rw [remove]
  cases get_eq : cell.positions.get (keying.hash key) with
  | none =>
    left
    exact ⟨indexed.get_eq_none_iff.mp get_eq, rfl⟩
  | some pos =>
    right
    obtain ⟨dropped, found, same⟩ := exists_of_get indexed get_eq
    have departs := indexes_eraseIdx indexed found
    rw [same] at departs
    simp only [found]
    refine ⟨_, _, rfl, Recorded.remove key pos dropped found same, ?_, rfl, departs⟩
    simp [strip, SeqOp.apply, Splice.splice, eraseIdx_eq_take_drop_succ]

theorem update_writes (indexed : Indexed keying cell) (key : K) {mutate : T → T}
    (keeps : ∀ value, keying.of value = keying.hash key → keying.of (mutate value) = keying.hash key) :
  (keying.hash key ∉ cell.elements.map keying.of ∧ cell.update keying key mutate = some cell) ∨
    ∃ next op, cell.update keying key mutate = some next ∧ Writes keying cell next op
  := by
  rw [update]
  cases get_eq : cell.positions.get (keying.hash key) with
  | none =>
    left
    exact ⟨indexed.get_eq_none_iff.mp get_eq, rfl⟩
  | some pos =>
    right
    obtain ⟨previous, found, same⟩ := exists_of_get indexed get_eq
    simp only [found]
    refine ⟨_, _, rfl, ?_, rfl, rfl, ?_⟩
    · apply Recorded.setAt _ _ _ _ found same (keeps previous same)
    · apply indexes_set indexed found
      rw [keeps previous same, same]

theorem set_writes {value : List T} (nodup : (value.map keying.of).Nodup) :
  ∃ op, Writes keying cell (cell.set keying value) op
  := by
  have values : (value.map fun element => KeyedElement.mk (keying.key element) element).map
      KeyedElement.value = value := by
    simp [Function.comp_def]
  refine ⟨_, Recorded.reset _ ?_, ?_, rfl, ?_⟩
  rotate_left
  · rw [strip, values]
    rfl
  · apply indexes_of_nodup nodup
  · rw [values]
    exact nodup

end KeyedCell

end Vilan
