import Mathlib
import Vilan.Library.Table

/-!
# Position indices

A table that says where each key of a list stands.  A list that changes in the middle repairs its
index from there on: what stood before keeps its position, what left is forgotten, and the rest is
recorded again.
-/

namespace Positions

open List

variable {H : Type*}

variable {before keys : List H} {key : H} {positions : Table H ℕ}

/-- A key stands before `rest` exactly where it stands in the whole list, unless it is in `rest`. -/
theorem getElem?_append_iff {rest : List H} (h : key ∉ rest) {pos : ℕ} :
  (before ++ rest)[pos]? = some key ↔ before[pos]? = some key
  := by
  rw [getElem?_append]
  split
  · rfl
  next le =>
    constructor
    · intro found
      have mem := mem_of_getElem? found
      contradiction
    · rw [getElem?_eq_none (not_lt.mp le)]
      nofun

variable [DecidableEq H]

/-- The table maps exactly the keys of the list to their positions. -/
def Indexes (positions : Table H ℕ) (keys : List H) : Prop :=
  ∀ key pos, positions.get key = some pos ↔ keys[pos]? = some key

/-- Record the positions of keys, the first of which stands at `pos`. -/
def reindex (positions : Table H ℕ) : List H → ℕ → Table H ℕ
  | [], _ => positions
  | key :: keys, pos => reindex (positions.insert key pos) keys (pos + 1)

theorem Indexes.nodup (h : Indexes positions keys) :
  keys.Nodup
  := by
  rw [nodup_iff_getElem?_ne_getElem?]
  intro i j lt bound same
  have first : keys[i]? = some keys[i] := getElem?_eq_getElem _
  have again : keys[j]? = some keys[i] := by rw [← same, first]
  rw [← h] at first again
  rw [first, Option.some_inj] at again
  omega

/-- An index holds a key when the list does. -/
theorem Indexes.get_eq_none_iff (h : Indexes positions keys) :
  positions.get key = none ↔ key ∉ keys
  := by
  rw [mem_iff_getElem?, Option.eq_none_iff_forall_ne_some, not_exists]
  constructor
  · intro none pos found
    apply none pos
    rw [h]
    exact found
  · intro none pos found
    rw [h] at found
    apply none pos found

theorem get_reindex_of_not_mem (positions : Table H ℕ) (h : key ∉ keys) (pos : ℕ) :
  (reindex positions keys pos).get key = positions.get key
  := by
  induction keys generalizing positions pos with
  | nil => rfl
  | cons head keys ih =>
    rw [mem_cons, not_or] at h
    rw [reindex, ih _ h.2, Table.get_insert, if_neg h.1]

theorem get_reindex_of_mem (positions : Table H ℕ) (nodup : keys.Nodup) {offset : ℕ}
    (h : keys[offset]? = some key) (pos : ℕ) :
  (reindex positions keys pos).get key = some (pos + offset)
  := by
  induction keys generalizing positions pos offset with
  | nil => cases h
  | cons head keys ih =>
    obtain ⟨apart, nodup⟩ := nodup_cons.mp nodup
    rw [reindex]
    cases offset with
    | zero =>
      cases h
      rw [get_reindex_of_not_mem _ apart, Table.get_insert, if_pos rfl]
      rfl
    | succ offset =>
      rw [ih _ nodup h, Nat.add_right_comm, Nat.add_assoc]

/-- To index a list it is enough to index a prefix and to record the rest again. -/
theorem indexes_reindex {rest : List H} (nodup : (before ++ rest).Nodup)
    (h : ∀ key ∉ rest, ∀ pos, positions.get key = some pos ↔ before[pos]? = some key) :
  Indexes (reindex positions rest before.length) (before ++ rest)
  := by
  intro key pos
  by_cases mem : key ∈ rest
  · obtain ⟨offset, found⟩ := mem_iff_getElem?.mp mem
    have whole : (before ++ rest)[before.length + offset]? = some key := by
      rw [getElem?_append_right (Nat.le_add_right _ _), Nat.add_sub_cancel_left, found]
    rw [get_reindex_of_mem _ nodup.of_append_right found, Option.some_inj]
    constructor
    · rintro rfl
      exact whole
    · intro found'
      obtain ⟨lt, at_pos⟩ := List.getElem?_eq_some_iff.mp found'
      obtain ⟨lt', at_whole⟩ := List.getElem?_eq_some_iff.mp whole
      apply (nodup.getElem_inj_iff).mp
      rw [at_pos, at_whole]
  · rw [get_reindex_of_not_mem _ mem, h key mem, getElem?_append_iff mem]

/-- A list is indexed from nothing. -/
theorem indexes_of_nodup (nodup : keys.Nodup) :
  Indexes (reindex Table.empty keys 0) keys
  := by
  have nodup' : ([] ++ keys).Nodup := nodup
  apply indexes_reindex nodup'
  intro key mem pos
  rw [Table.get_empty, getElem?_nil]
  simp

/-- Where the middle of a list is replaced, the index forgets the keys that left and records again
the positions from there on. -/
theorem Indexes.splice {spared : Table H ℕ} {removed inserted after : List H}
    (h : Indexes positions (before ++ (removed ++ after)))
    (nodup : (before ++ (inserted ++ after)).Nodup)
    (forgets : ∀ key, spared.get key = if key ∈ removed then none else positions.get key) :
  Indexes (reindex spared (inserted ++ after) before.length) (before ++ (inserted ++ after))
  := by
  apply indexes_reindex nodup
  intro key mem pos
  rw [mem_append, not_or] at mem
  rw [forgets]
  split
  next left =>
    constructor
    · intro found
      cases found
    · intro found
      have disjoint := disjoint_of_nodup_append h.nodup
      cases disjoint (mem_of_getElem? found) (mem_append_left _ left)
  next stays =>
    rw [h, getElem?_append_iff]
    rw [mem_append, not_or]
    exact ⟨stays, mem.2⟩

end Positions
