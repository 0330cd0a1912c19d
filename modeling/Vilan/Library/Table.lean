import Mathlib.Tactic

/-!
# Insertion-ordered tables

A table from keys to values that is walked in the order its keys arrived: writing a key
that is held keeps its place, a key that is removed and written again goes to the end.
-/

/-- A table whose entries stand in the order their keys arrived, each key once. -/
@[ext]
structure Table (κ : Type*) (α : Type*) where
  entries : List (κ × α)
  nodup : (entries.map Prod.fst).Nodup

namespace Table

open List Option

variable {κ α β : Type*}

/-- The held keys, in order. -/
def keys (table : Table κ α) : List κ :=
  table.entries.map Prod.fst

/-- The held values, in order. -/
def values (table : Table κ α) : List α :=
  table.entries.map Prod.snd

/-- How many keys are held. -/
def size (table : Table κ α) : ℕ :=
  table.entries.length

/-- The table that holds nothing. -/
def empty : Table κ α where
  entries := []
  nodup := nodup_nil

@[simp]
theorem entries_empty :
  (empty : Table κ α).entries = []
  := rfl

/-- The table with its values mapped, each in its place. -/
def map (f : α → β) (table : Table κ α) : Table κ β where
  entries := table.entries.map (fun entry => (entry.1, f entry.2))
  nodup := by
    rw [List.map_map]
    apply table.nodup

@[simp]
theorem map_empty (f : α → β) :
  (empty : Table κ α).map f = empty
  := rfl

theorem map_map {γ : Type*} (g : β → γ) (f : α → β) (table : Table κ α) :
  (table.map f).map g = table.map (g ∘ f)
  := by
  apply Table.ext
  simp [map]

/-- The entries of a list that `f` selects. -/
def select (f : α → Option β) (entries : List (κ × α)) : List (κ × β) :=
  entries.filterMap (fun entry => (f entry.2).map (Prod.mk entry.1))

variable {entries : List (κ × α)} {f : α → Option β} {key : κ} {selected : β} {value : α}
  {table : Table κ α}

theorem mem_select :
  (key, selected) ∈ select f entries ↔ ∃ value, (key, value) ∈ entries ∧ f value = some selected
  := by
  rw [select, mem_filterMap]
  constructor
  · rintro ⟨⟨key', value⟩, hmem, hselected⟩
    obtain ⟨selected', hf, heq⟩ := map_eq_some_iff.mp hselected
    rw [Prod.mk.injEq] at heq
    obtain ⟨rfl, rfl⟩ := heq
    exact ⟨value, hmem, hf⟩
  · rintro ⟨value, hmem, hf⟩
    refine ⟨(key, value), hmem, ?_⟩
    rw [hf, map_some]

theorem keys_select_sublist (f : α → Option β) (entries : List (κ × α)) :
  ((select f entries).map Prod.fst).Sublist (entries.map Prod.fst)
  := by
  induction entries with
  | nil => apply List.Sublist.refl
  | cons entry rest ih =>
    rw [map_cons, select]
    cases h : f entry.2 with
    | none =>
      rw [filterMap_cons_none (by rw [h, map_none])]
      apply List.Sublist.cons _ ih
    | some value =>
      rw [filterMap_cons_some (by rw [h, map_some]), map_cons]
      apply List.Sublist.cons_cons _ ih

theorem select_append (f : α → Option β) (entries more : List (κ × α)) :
  select f (entries ++ more) = select f entries ++ select f more
  := filterMap_append

theorem select_cons_some (h : f value = some selected) (entries : List (κ × α)) :
  select f ((key, value) :: entries) = (key, selected) :: select f entries
  := by
  rw [select, filterMap_cons_some (by rw [h, map_some]), select]

theorem select_cons_none (h : f value = none) (entries : List (κ × α)) :
  select f ((key, value) :: entries) = select f entries
  := by
  rw [select, filterMap_cons_none (by rw [h, map_none]), select]

/-- The entries of a table that `f` selects, each in its place. -/
def filterMap (f : α → Option β) (table : Table κ α) : Table κ β where
  entries := select f table.entries
  nodup := table.nodup.sublist (keys_select_sublist f table.entries)

variable [DecidableEq κ]

/-- The value a list of entries holds under `key`. -/
def find (key : κ) : List (κ × α) → Option α
  | [] => none
  | entry :: rest => if entry.1 = key then some entry.2 else find key rest

/-- The entries with `value` written under `key`: in the place of `key` when it is held, at
the end when it is not. -/
def write (key : κ) (value : α) : List (κ × α) → List (κ × α)
  | [] => [(key, value)]
  | entry :: rest =>
      if entry.1 = key then (key, value) :: rest else entry :: write key value rest

theorem keys_write (key : κ) (value : α) (entries : List (κ × α)) :
  (write key value entries).map Prod.fst
    = if key ∈ entries.map Prod.fst then entries.map Prod.fst
      else entries.map Prod.fst ++ [key]
  := by
  induction entries with
  | nil => simp [write]
  | cons entry rest ih =>
    rw [write]
    split
    case isTrue h => simp [h]
    case isFalse h =>
      rw [map_cons, ih]
      by_cases hmem : key ∈ rest.map Prod.fst
      · simp only [hmem, if_true, map_cons, mem_cons, or_true]
      · simp only [hmem, if_false, map_cons, mem_cons, or_false, Ne.symm h, cons_append]

/-- The value held under `key`. -/
def get (table : Table κ α) (key : κ) : Option α :=
  find key table.entries

/-- Write `value` under `key`. -/
def insert (table : Table κ α) (key : κ) (value : α) : Table κ α where
  entries := write key value table.entries
  nodup := by
    rw [keys_write]
    split
    case isTrue => apply table.nodup
    case isFalse h =>
      rw [nodup_append]
      refine ⟨table.nodup, nodup_singleton _, ?_⟩
      rintro a ha b hb rfl
      rw [mem_singleton] at hb
      subst hb
      contradiction

/-- Remove `key`. -/
def remove (table : Table κ α) (key : κ) : Table κ α where
  entries := table.entries.filter (fun entry => entry.1 ≠ key)
  nodup := by
    apply List.Nodup.sublist _ table.nodup
    apply List.Sublist.map
    apply filter_sublist

/-- Whether `key` is held. -/
def contains (table : Table κ α) (key : κ) : Bool :=
  (table.get key).isSome

/-! ### What a table holds -/

theorem find_eq_some_iff (h : (entries.map Prod.fst).Nodup) :
  find key entries = some value ↔ (key, value) ∈ entries
  := by
  induction entries with
  | nil => simp [find]
  | cons entry rest ih =>
    rw [map_cons, nodup_cons] at h
    rw [find, mem_cons]
    split
    case isTrue heq =>
      subst heq
      constructor
      · intro hv
        left
        rw [some_inj] at hv
        rw [← hv]
      · rintro (hv | hv)
        · rw [← hv]
        · have := List.mem_map_of_mem (f := Prod.fst) hv
          have := h.1 this
          contradiction
    case isFalse hne =>
      rw [ih h.2]
      constructor
      · apply Or.inr
      · rintro (hv | hv)
        · rw [← hv] at hne
          contradiction
        · apply hv

theorem find_eq_none_iff :
  find key entries = none ↔ key ∉ entries.map Prod.fst
  := by
  induction entries with
  | nil => simp [find]
  | cons entry rest ih =>
    rw [find, map_cons, mem_cons]
    split
    case isTrue h => simp [h]
    case isFalse h => simp [ih, Ne.symm h]

theorem get_eq_some_iff :
  table.get key = some value ↔ (key, value) ∈ table.entries
  := find_eq_some_iff table.nodup

theorem get_eq_none_iff :
  table.get key = none ↔ key ∉ table.keys
  := find_eq_none_iff

theorem contains_iff :
  table.contains key = true ↔ key ∈ table.keys
  := by
  rw [contains, isSome_iff_ne_none, ne_eq, get_eq_none_iff, not_not]

@[simp]
theorem get_empty (key : κ) :
  (empty : Table κ α).get key = none
  := rfl

@[simp]
theorem find_write (key other : κ) (value : α) (entries : List (κ × α)) :
  find other (write key value entries)
    = if other = key then some value else find other entries
  := by
  induction entries with
  | nil =>
    rw [write, find, find, find]
    simp only [eq_comm]
  | cons entry rest ih =>
    rw [write]
    split
    case isTrue h =>
      rw [find, find, h]
      by_cases hkey : key = other
      · simp [hkey]
      · simp [hkey, Ne.symm hkey]
    case isFalse h =>
      rw [find, find, ih]
      by_cases hkey : entry.1 = other
      · have : other ≠ key := by
          rintro rfl
          contradiction
        simp [hkey, this]
      · simp [hkey]

@[simp]
theorem get_insert (table : Table κ α) (key other : κ) (value : α) :
  (table.insert key value).get other = if other = key then some value else table.get other
  := find_write _ _ _ _

theorem find_filter (key other : κ) (entries : List (κ × α)) :
  find other (entries.filter fun entry => entry.1 ≠ key)
    = if other = key then none else find other entries
  := by
  induction entries with
  | nil => simp [find]
  | cons entry rest ih =>
    rw [filter_cons]
    by_cases h : entry.1 = key
    · rw [if_neg (by simp [h]), ih, find, h]
      by_cases hkey : key = other
      · simp [hkey]
      · simp [hkey]
    · rw [if_pos (by simp [h]), find, find, ih]
      by_cases hkey : entry.1 = other
      · have : other ≠ key := by
          rintro rfl
          contradiction
        simp [hkey, this]
      · simp [hkey]

@[simp]
theorem get_remove (table : Table κ α) (key other : κ) :
  (table.remove key).get other = if other = key then none else table.get other
  := find_filter _ _ _

theorem get_foldl_remove (keys : List κ) (table : Table κ α) (key : κ) :
  (keys.foldl remove table).get key = if key ∈ keys then none else table.get key
  := by
  induction keys generalizing table with
  | nil => simp
  | cons first rest ih =>
    rw [foldl_cons, ih, get_remove]
    by_cases hrest : key ∈ rest
    · simp [hrest]
    · by_cases hfirst : key = first
      · simp [hfirst]
      · simp [hrest, hfirst]

/-- What a run of writes of distinct keys leaves. -/
theorem get_foldl_insert (h : (entries.map Prod.fst).Nodup) (table : Table κ α) (key : κ) :
  (entries.foldl (fun table entry => table.insert entry.1 entry.2) table).get key
    = (find key entries).or (table.get key)
  := by
  induction entries generalizing table with
  | nil => rfl
  | cons entry rest ih =>
    rw [map_cons, nodup_cons] at h
    rw [foldl_cons, ih h.2, get_insert, find]
    by_cases hkey : entry.1 = key
    · subst hkey
      rw [if_pos rfl, if_pos rfl, find_eq_none_iff.mpr h.1]
      rfl
    · rw [if_neg (Ne.symm hkey), if_neg hkey]

/-- The places of a list of distinct keys, written in order. -/
theorem get_foldl_insert_zipIdx {keys : List κ} (h : keys.Nodup) {pos : ℕ} :
  ((keys.zipIdx).foldl (fun table entry => table.insert entry.1 entry.2) empty).get key
      = some pos
    ↔ keys[pos]? = some key
  := by
  have hnodup : (keys.zipIdx.map Prod.fst).Nodup := by
    rwa [zipIdx_map_fst]
  rw [get_foldl_insert hnodup, get_empty, or_none, find_eq_some_iff hnodup, mem_zipIdx_iff_getElem?]

/-! ### Mapping the values -/

@[simp]
theorem get_map (f : α → β) (table : Table κ α) (key : κ) :
  (table.map f).get key = (table.get key).map f
  := by
  change find key (table.entries.map _) = (find key table.entries).map f
  induction table.entries with
  | nil => rfl
  | cons entry rest ih =>
    rw [map_cons, find, find, ih]
    split <;> rfl

@[simp]
theorem map_insert (f : α → β) (table : Table κ α) (key : κ) (value : α) :
  (table.insert key value).map f = (table.map f).insert key (f value)
  := by
  apply Table.ext
  change (write key value table.entries).map _ = write key (f value) (table.entries.map _)
  induction table.entries with
  | nil => rfl
  | cons entry rest ih =>
    rw [write, map_cons, write]
    split
    case isTrue => rfl
    case isFalse => rw [map_cons, ih]

@[simp]
theorem map_remove (f : α → β) (table : Table κ α) (key : κ) :
  (table.remove key).map f = (table.map f).remove key
  := by
  apply Table.ext
  change (table.entries.filter _).map _ = (table.entries.map _).filter _
  rw [List.filter_map]
  rfl

/-! ### Entries -/

/-- A new key goes to the end. -/
theorem write_of_not_mem (h : key ∉ entries.map Prod.fst) (value : α) :
  write key value entries = entries ++ [(key, value)]
  := by
  induction entries with
  | nil => rfl
  | cons entry rest ih =>
    rw [map_cons, mem_cons, not_or] at h
    rw [write, if_neg (Ne.symm h.1), ih h.2, cons_append]

/-- A held key keeps its place. -/
theorem write_append_cons {before after : List (κ × α)} (h : key ∉ before.map Prod.fst)
    (old value : α) :
  write key value (before ++ (key, old) :: after) = before ++ (key, value) :: after
  := by
  induction before with
  | nil => simp [write]
  | cons entry rest ih =>
    rw [map_cons, mem_cons, not_or] at h
    rw [cons_append, write, if_neg (Ne.symm h.1), ih h.2, cons_append]

theorem entries_insert_of_not_mem (h : key ∉ table.keys) (value : α) :
  (table.insert key value).entries = table.entries ++ [(key, value)]
  := write_of_not_mem h value

/-- A run of writes of distinct keys that are not held leaves them at the end, in order. -/
theorem entries_foldl_insert (h : (entries.map Prod.fst).Nodup)
    (hnew : ∀ key ∈ entries.map Prod.fst, key ∉ table.keys) :
  (entries.foldl (fun table entry => table.insert entry.1 entry.2) table).entries
    = table.entries ++ entries
  := by
  induction entries generalizing table with
  | nil => rw [foldl_nil, append_nil]
  | cons entry rest ih =>
    rw [map_cons, nodup_cons] at h
    have hlast := entries_insert_of_not_mem (hnew entry.1 mem_cons_self) entry.2
    rw [foldl_cons, ih h.2, hlast, append_assoc, singleton_append]
    intro key hkey
    rw [keys, hlast, map_append, mem_append, not_or]
    refine ⟨hnew key (mem_cons_of_mem _ hkey), ?_⟩
    rw [map_singleton, mem_singleton]
    rintro rfl
    exact h.1 hkey

@[simp]
theorem keys_insert (table : Table κ α) (key : κ) (value : α) :
  (table.insert key value).keys
    = if key ∈ table.keys then table.keys else table.keys ++ [key]
  := keys_write key value table.entries

@[simp]
theorem keys_remove (table : Table κ α) (key : κ) :
  (table.remove key).keys = table.keys.filter (· ≠ key)
  := by
  rw [keys, keys, remove, List.filter_map]
  rfl

/-- A held key splits the entries around its place. -/
theorem exists_split (h : table.get key = some value) :
  ∃ before after, table.entries = before ++ (key, value) :: after
    ∧ key ∉ before.map Prod.fst ∧ key ∉ after.map Prod.fst
  := by
  rw [get_eq_some_iff] at h
  obtain ⟨before, after, hsplit⟩ := append_of_mem h
  refine ⟨before, after, hsplit, ?_⟩
  have hnodup := table.nodup
  rw [hsplit, map_append, map_cons] at hnodup
  have := nodup_middle.mp hnodup
  rw [nodup_cons, mem_append, not_or] at this
  apply this.1

theorem filter_append_cons {before after : List (κ × α)} (hbefore : key ∉ before.map Prod.fst)
    (hafter : key ∉ after.map Prod.fst) :
  (before ++ (key, value) :: after).filter (fun entry => entry.1 ≠ key) = before ++ after
  := by
  have hkeep : ∀ list : List (κ × α), key ∉ list.map Prod.fst →
      list.filter (fun entry => entry.1 ≠ key) = list := by
    intro list hlist
    rw [filter_eq_self]
    intro entry hentry
    rw [decide_eq_true_iff]
    rintro rfl
    exact hlist (List.mem_map_of_mem hentry)
  rw [filter_append, hkeep before hbefore, filter_cons_of_neg (by simp), hkeep after hafter]

theorem values_insert_of_not_mem (h : key ∉ table.keys) (value : α) :
  (table.insert key value).values = table.values ++ [value]
  := by
  rw [values, entries_insert_of_not_mem h, map_append, map_singleton, values]

/-- Removing a key that is not held changes nothing. -/
theorem remove_of_not_mem (h : key ∉ table.keys) :
  table.remove key = table
  := by
  apply Table.ext
  rw [remove, filter_eq_self]
  intro entry hentry
  rw [decide_eq_true_iff]
  intro heq
  rw [← heq] at h
  apply h (List.mem_map_of_mem hentry)

/-- A held key splits the values around its place: overwriting it changes the value there,
and removing it takes the value out. -/
theorem values_split (h : table.get key = some value) :
  ∃ before after, table.values = before ++ value :: after
    ∧ (∀ new, (table.insert key new).values = before ++ new :: after)
    ∧ (table.remove key).values = before ++ after
  := by
  obtain ⟨before, after, hsplit, hbefore, hafter⟩ := exists_split h
  refine ⟨before.map Prod.snd, after.map Prod.snd, ?_, ?_, ?_⟩
  · rw [values, hsplit, map_append, map_cons]
  · intro new
    change (write key new table.entries).map Prod.snd = _
    rw [hsplit, write_append_cons hbefore, map_append, map_cons]
  · change (table.entries.filter _).map Prod.snd = _
    rw [hsplit, filter_append_cons hbefore hafter, map_append]

theorem mem_values_iff :
  value ∈ table.values ↔ ∃ key, table.get key = some value
  := by
  rw [values, List.mem_map]
  constructor
  · rintro ⟨⟨key, value⟩, hmem, rfl⟩
    use key
    rwa [get_eq_some_iff]
  · rintro ⟨key, hget⟩
    exact ⟨(key, value), get_eq_some_iff.mp hget, rfl⟩

/-! ### Selecting entries -/

@[simp]
theorem get_filterMap (f : α → Option β) (table : Table κ α) (key : κ) :
  (table.filterMap f).get key = (table.get key).bind f
  := by
  apply Option.ext
  intro selected
  rw [get_eq_some_iff, bind_eq_some_iff, filterMap, mem_select]
  simp only [get_eq_some_iff]

omit [DecidableEq κ] in
theorem not_mem_select (h : key ∉ entries.map Prod.fst) (f : α → Option β) :
  key ∉ (select f entries).map Prod.fst
  := by
  intro hmem
  apply h
  apply (keys_select_sublist f entries).subset hmem

/-- Writing a value that is selected, where none or a selected one is held, writes what is
selected. -/
theorem filterMap_insert_some (h : ∀ old, table.get key = some old → (f old).isSome)
    (hvalue : f value = some selected) :
  (table.insert key value).filterMap f = (table.filterMap f).insert key selected
  := by
  apply Table.ext
  change select f (write key value table.entries) = write key selected (select f table.entries)
  cases hget : table.get key with
  | none =>
    rw [get_eq_none_iff] at hget
    rw [write_of_not_mem hget, write_of_not_mem (not_mem_select hget f), select_append,
      select_cons_some hvalue]
    rfl
  | some old =>
    obtain ⟨before, after, hsplit, hbefore, -⟩ := exists_split hget
    obtain ⟨was, hwas⟩ := isSome_iff_exists.mp (h old hget)
    rw [hsplit, write_append_cons hbefore, select_append, select_append, select_cons_some hvalue,
      select_cons_some hwas, write_append_cons (not_mem_select hbefore f)]

theorem filterMap_remove (f : α → Option β) (table : Table κ α) (key : κ) :
  (table.remove key).filterMap f = (table.filterMap f).remove key
  := by
  apply Table.ext
  change select f (table.entries.filter _) = (select f table.entries).filter _
  induction table.entries with
  | nil => rfl
  | cons entry rest ih =>
    obtain ⟨other, value⟩ := entry
    by_cases hkey : other = key
    · rw [filter_cons_of_neg (by simp [hkey]), ih]
      cases hvalue : f value with
      | none => rw [select_cons_none hvalue]
      | some selected =>
        rw [select_cons_some hvalue, filter_cons_of_neg (by simp [hkey])]
    · rw [filter_cons_of_pos (by simp [hkey])]
      cases hvalue : f value with
      | none => rw [select_cons_none hvalue, select_cons_none hvalue, ih]
      | some selected =>
        rw [select_cons_some hvalue, select_cons_some hvalue, ih,
          filter_cons_of_pos (by simp [hkey])]

/-- Writing a value that is not selected removes its key from what is selected. -/
theorem filterMap_insert_none (key : κ) (hvalue : f value = none) :
  (table.insert key value).filterMap f = (table.filterMap f).remove key
  := by
  rw [← filterMap_remove]
  apply Table.ext
  change select f (write key value table.entries) = select f (table.remove key).entries
  cases hget : table.get key with
  | none =>
    have hkey := get_eq_none_iff.mp hget
    rw [remove_of_not_mem hkey, write_of_not_mem hkey, select_append, select_cons_none hvalue]
    apply append_nil
  | some old =>
    obtain ⟨before, after, hsplit, hbefore, hafter⟩ := exists_split hget
    have hremove : (table.remove key).entries = before ++ after := by
      simp only [remove]
      rw [hsplit, filter_append_cons hbefore hafter]
    rw [hremove, hsplit, write_append_cons hbefore, select_append, select_append,
      select_cons_none hvalue]

/-- Tables that hold the same values under the same keys in the same key order are
equal. -/
theorem ext_keys {other : Table κ α} (hkeys : table.keys = other.keys)
    (hget : ∀ key, table.get key = other.get key) :
  table = other
  := by
  apply Table.ext
  apply ext_getElem
  · have := congrArg List.length hkeys
    rwa [keys, keys, length_map, length_map] at this
  · intro i hi hj
    have hkey : table.entries[i].1 = other.entries[i].1 := by
      have := getElem_of_eq hkeys (i := i) (by rwa [keys, length_map])
      simpa [keys] using this
    have hmem : table.get table.entries[i].1 = some table.entries[i].2 := by
      rw [get_eq_some_iff]
      apply getElem_mem
    have hmem' : other.get other.entries[i].1 = some other.entries[i].2 := by
      rw [get_eq_some_iff]
      apply getElem_mem
    rw [hget, hkey, hmem'] at hmem
    apply Prod.ext hkey
    rw [some_inj] at hmem
    rw [hmem]

/-- Tables that hold the same values under the same keys hold the same entries, each in an
order of its own. -/
theorem perm_of_get {other : Table κ α} (h : ∀ key, table.get key = other.get key) :
  table.entries.Perm other.entries
  := by
  rw [perm_ext_iff_of_nodup (List.Nodup.of_map _ table.nodup) (List.Nodup.of_map _ other.nodup)]
  rintro ⟨key, value⟩
  rw [← get_eq_some_iff, ← get_eq_some_iff, h]

/-- Writing what is held changes nothing. -/
theorem insert_of_get (h : table.get key = some value) :
  table.insert key value = table
  := by
  have hmem : key ∈ table.keys := by
    by_contra hnot
    rw [get_eq_none_iff.mpr hnot] at h
    contradiction
  apply ext_keys
  · rw [keys_insert, if_pos hmem]
  · intro other
    rw [get_insert]
    split
    case isTrue heq => rw [heq, h]
    case isFalse => rfl

end Table
