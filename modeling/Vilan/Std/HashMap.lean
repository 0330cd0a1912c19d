import Vilan.Library.Replay
import Vilan.Library.Table

/-!
# Hash maps

A hash map keys by the hash of a key and walks its entries in the order their keys arrived:
an overwrite keeps its key's place, a key removed and inserted again goes to the end.  The
table under it holds the key beside the value.
-/

namespace Vilan

/-- A map from keys to values, over a table from hashes to the keys and values held under
them. -/
@[ext]
structure HashMap {K H : Type*} (hash : K → H) (V : Type*) where
  table : Table H (K × V)
  hash_eq : ∀ entry ∈ table.entries, hash entry.2.1 = entry.1

/-- A map's change. -/
inductive MapOp {K H : Type*} (hash : K → H) (V : Type*) where
  /-- The key, what was there, and what is there now. -/
  | put (key : K) (was : Option V) (now : V)
  /-- The key and the value that left. -/
  | delete (key : K) (gone : V)
  /-- The collection became this map. -/
  | reset (map : HashMap hash V)

namespace HashMap

variable {K H V U : Type*} {hash : K → H}

/-- The map that holds nothing. -/
def new : HashMap hash V where
  table := Table.empty
  hash_eq := by simp

/-- The held keys and values, in order. -/
def entries (map : HashMap hash V) : List (K × V) :=
  map.table.values

/-- The held keys, in order. -/
def keys (map : HashMap hash V) : List K :=
  map.entries.map Prod.fst

/-- The held values, in order. -/
def values (map : HashMap hash V) : List V :=
  map.entries.map Prod.snd

/-- What `out` makes of the held keys and values, in order. -/
def elements (out : K → V → U) (map : HashMap hash V) : List U :=
  map.entries.map (fun entry => out entry.1 entry.2)

theorem elements_value (map : HashMap hash V) :
  map.elements (fun _ value => value) = map.values
  := rfl

theorem elements_entry (map : HashMap hash V) :
  map.elements (fun key value => (key, value)) = map.entries
  := List.map_id _

/-- The hashes of the keys, in order. -/
def hashesOf (map : HashMap hash V) : List H :=
  map.keys.map hash

@[simp]
theorem hashesOf_eq (map : HashMap hash V) :
  map.hashesOf = map.table.keys
  := by
  rw [hashesOf, keys, entries, Table.values, List.map_map, List.map_map, Table.keys,
    List.map_inj_left]
  intro entry hentry
  apply map.hash_eq entry hentry

theorem hashesOf_entries (map : HashMap hash V) :
  map.hashesOf = map.entries.map (fun entry => hash entry.1)
  := by
  rw [hashesOf, keys, List.map_map]
  rfl

theorem nodup_hashesOf (map : HashMap hash V) :
  map.hashesOf.Nodup
  := by
  rw [hashesOf_eq]
  apply map.table.nodup

variable [DecidableEq H]

/-- Hold `value` under `key`: a held key keeps its place, and both it and its value are
replaced. -/
def insert (map : HashMap hash V) (key : K) (value : V) : HashMap hash V where
  table := map.table.insert (hash key) (key, value)
  hash_eq := by
    intro entry hentry
    have hget := Table.get_eq_some_iff.mpr hentry
    rw [Table.get_insert] at hget
    split at hget
    case isTrue h =>
      rw [Option.some_inj] at hget
      rw [← hget, h]
    case isFalse => apply map.hash_eq entry (Table.get_eq_some_iff.mp hget)

/-- Remove `key`. -/
def remove (map : HashMap hash V) (key : K) : HashMap hash V where
  table := map.table.remove (hash key)
  hash_eq := fun entry hentry => map.hash_eq entry (List.mem_of_mem_filter hentry)

/-- The value held under `key`. -/
def get (map : HashMap hash V) (key : K) : Option V :=
  (map.table.get (hash key)).map Prod.snd

theorem get_insert (map : HashMap hash V) (key other : K) (value : V) :
  (map.insert key value).get other
    = if hash other = hash key then some value else map.get other
  := by
  change (Table.get (Table.insert _ _ _) _).map _ = _
  rw [Table.get_insert]
  split
  · rfl
  · rfl

theorem get_remove (map : HashMap hash V) (key other : K) :
  (map.remove key).get other = if hash other = hash key then none else map.get other
  := by
  change (Table.get (Table.remove _ _) _).map _ = _
  rw [Table.get_remove]
  split
  · rfl
  · rfl

theorem get_eq_none_iff {map : HashMap hash V} {key : K} :
  map.get key = none ↔ hash key ∉ map.hashesOf
  := by
  rw [get, Option.map_eq_none_iff, Table.get_eq_none_iff, hashesOf_eq]

/-- A map answers the value of each of its entries. -/
theorem get_of_mem {map : HashMap hash V} {entry : K × V} (h : entry ∈ map.entries) :
  map.get entry.1 = some entry.2
  := by
  obtain ⟨held, hheld, rfl⟩ := List.mem_map.mp h
  rw [get, map.hash_eq held hheld, Table.get_eq_some_iff.mpr hheld]
  rfl

/-- A key that is not held goes to the end. -/
theorem entries_insert_of_not_mem {map : HashMap hash V} {key : K}
    (h : hash key ∉ map.hashesOf) (value : V) :
  (map.insert key value).entries = map.entries ++ [(key, value)]
  := by
  rw [hashesOf_eq] at h
  apply Table.values_insert_of_not_mem h

/-- A held key splits the entries around its place: overwriting it changes the entry there,
and removing it takes the entry out. -/
theorem exists_split {map : HashMap hash V} {key : K} (h : hash key ∈ map.hashesOf) :
  ∃ before held after, map.entries = before ++ held :: after
    ∧ hash held.1 = hash key
    ∧ (∀ value, (map.insert key value).entries = before ++ (key, value) :: after)
    ∧ (map.remove key).entries = before ++ after
  := by
  rw [hashesOf_eq] at h
  obtain ⟨held, hget⟩ : ∃ held, map.table.get (hash key) = some held := by
    rw [← Option.ne_none_iff_exists']
    intro hnone
    exact Table.get_eq_none_iff.mp hnone h
  obtain ⟨before, after, hsplit, hinsert, hremove⟩ := Table.values_split hget
  refine ⟨before, held, after, hsplit, ?_, fun value => hinsert (key, value), hremove⟩
  apply map.hash_eq _ (Table.get_eq_some_iff.mp hget)

/-- Removing a key that is not held changes nothing. -/
theorem entries_remove_of_not_mem {map : HashMap hash V} {key : K}
    (h : hash key ∉ map.hashesOf) :
  (map.remove key).entries = map.entries
  := by
  rw [hashesOf_eq] at h
  change (map.table.remove (hash key)).values = map.table.values
  rw [Table.remove_of_not_mem h]

end HashMap

namespace MapOp

variable {K H V : Type*} {hash : K → H} [DecidableEq H]

/-- What an op makes of a map. -/
def apply : MapOp hash V → HashMap hash V → HashMap hash V
  | put key _ now, map => map.insert key now
  | delete key _, map => map.remove key
  | reset map, _ => map

/-- The map a run of ops makes of a map. -/
def replay (ops : List (MapOp hash V)) (map : HashMap hash V) : HashMap hash V :=
  Replay.replay apply ops map

@[simp]
theorem replay_nil (map : HashMap hash V) :
  replay [] map = map
  := rfl

@[simp]
theorem replay_cons (op : MapOp hash V) (ops : List (MapOp hash V)) (map : HashMap hash V) :
  replay (op :: ops) map = replay ops (op.apply map)
  := rfl

end MapOp

end Vilan
