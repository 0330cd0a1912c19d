import Mathlib.Tactic

/-!
# Splices and moves of lists

A splice takes a run of elements out of a list and puts another run in its place; a move
takes a run out and puts it back elsewhere.  Both commute with mapping a list and with
selecting from it, where a position of the list becomes the number of elements selected
before it.
-/

namespace Splice

open List

variable {α β : Type*}

/-- The list with `removed` elements at `pos` replaced by `inserted`. -/
def splice (list : List α) (pos removed : ℕ) (inserted : List α) : List α :=
  list.take pos ++ inserted ++ list.drop (pos + removed)

/-- The `count` elements of the list that begin at `pos`. -/
def block (list : List α) (pos count : ℕ) : List α :=
  (list.drop pos).take count

/-- The list with the `count` elements at `start` moved to `dest`, a position of the list
they have left. -/
def move (list : List α) (start count dest : ℕ) : List α :=
  splice (splice list start count []) dest 0 (block list start count)

/-- How many of the elements before `pos` are selected by `f`. -/
def rank (f : α → Option β) (list : List α) (pos : ℕ) : ℕ :=
  ((list.take pos).filterMap f).length

/-! ### Splices -/

variable {pos count dest start : ℕ} {list : List α}

theorem length_splice {removed : ℕ} (h : pos + removed ≤ list.length) (inserted : List α) :
  (splice list pos removed inserted).length = list.length - removed + inserted.length
  := by
  simp only [splice, length_append, length_take, length_drop]
  omega

theorem length_block (h : pos + count ≤ list.length) :
  (block list pos count).length = count
  := by
  rw [block, length_take, length_drop]
  omega

theorem append_block_append (list : List α) (pos count : ℕ) :
  list.take pos ++ block list pos count ++ list.drop (pos + count) = list
  := by
  rw [block, append_assoc, ← drop_drop, take_append_drop, take_append_drop]

/-- A splice of the middle of three lists replaces it. -/
theorem splice_append (before middle after inserted : List α) :
  splice (before ++ middle ++ after) before.length middle.length inserted
    = before ++ inserted ++ after
  := by
  rw [splice, append_assoc before, take_left, ← drop_drop, drop_left, drop_left]

theorem splice_zero_nil (list : List α) (pos : ℕ) :
  splice list pos 0 [] = list
  := by
  rw [splice, append_nil, Nat.add_zero, take_append_drop]

theorem splice_one (h : pos < list.length) (value : α) :
  splice list pos 1 [value] = list.set pos value
  := by
  rw [splice, set_eq_take_append_cons_drop, if_pos h, append_assoc, singleton_append]

/-- Taking a run out and putting another in its place is one splice. -/
theorem splice_splice_nil (h : pos ≤ list.length) (removed : ℕ) (inserted : List α) :
  splice (splice list pos removed []) pos 0 inserted = splice list pos removed inserted
  := by
  have hsplice := splice_append (list.take pos) [] (list.drop (pos + removed)) inserted
  rw [append_nil, length_take, min_eq_left h, length_nil] at hsplice
  rw [show splice list pos removed [] = list.take pos ++ list.drop (pos + removed) by
    rw [splice, append_nil], hsplice, splice]

theorem map_splice (f : α → β) (list : List α) (pos removed : ℕ) (inserted : List α) :
  (splice list pos removed inserted).map f
    = splice (list.map f) pos removed (inserted.map f)
  := by
  simp only [splice, map_append, map_take, map_drop]

theorem map_set_eq_splice (f : α → β) (h : pos < list.length) (value : α) :
  (list.map f).set pos (f value) = splice (list.map f) pos 1 ([value].map f)
  := by
  rw [map_singleton, splice_one (by rwa [length_map])]

theorem map_block (f : α → β) (list : List α) (pos count : ℕ) :
  (block list pos count).map f = block (list.map f) pos count
  := by
  rw [block, block, map_take, map_drop]

/-- The elements before a splice are the elements before it in the list. -/
theorem take_splice (h : pos ≤ list.length) (removed : ℕ) (inserted : List α) :
  (splice list pos removed inserted).take pos = list.take pos
  := by
  rw [splice, append_assoc, take_append_of_le_length, take_take, min_self]
  rw [length_take]
  omega

theorem take_splice_of_le {n : ℕ} (h : pos ≤ list.length) (hn : n ≤ pos) (removed : ℕ)
    (inserted : List α) :
  (splice list pos removed inserted).take n = list.take n
  := by
  have htake := congrArg (List.take n) (take_splice h removed inserted)
  rwa [take_take, take_take, min_eq_left hn] at htake

/-! ### Moves -/

theorem length_move (h : start + count ≤ list.length) (hdest : dest ≤ list.length - count) :
  (move list start count dest).length = list.length
  := by
  have hrest := length_splice h []
  rw [length_nil, Nat.add_zero] at hrest
  rw [move, length_splice (by omega), hrest, length_block h]
  omega

theorem map_move (f : α → β) (list : List α) (start count dest : ℕ) :
  (move list start count dest).map f = move (list.map f) start count dest
  := by
  rw [move, map_splice, map_splice, map_block, map_nil, ← move]

/-- What a splice leaves and what it takes are what there was and what it puts in. -/
theorem perm_splice (list : List α) (pos removed : ℕ) (inserted : List α) :
  (splice list pos removed inserted ++ block list pos removed).Perm (list ++ inserted)
  := by
  have parts := append_block_append list pos removed
  have taken : (inserted ++ (list.drop (pos + removed) ++ block list pos removed)).Perm
      (block list pos removed ++ list.drop (pos + removed) ++ inserted) :=
    perm_append_comm.trans (List.Perm.append_right _ perm_append_comm)
  have whole := taken.append_left (list.take pos)
  rw [append_assoc] at parts
  rw [← append_assoc (list.take pos) (block _ _ _ ++ _), parts] at whole
  rw [splice, append_assoc, append_assoc]
  apply whole

/-- A run moved to where it stands leaves the list as it is. -/
theorem move_self (h : start + count ≤ list.length) :
  move list start count start = list
  := by
  rw [move, splice_splice_nil (by omega), splice, append_block_append]

theorem move_zero (list : List α) (start dest : ℕ) :
  move list start 0 dest = list
  := by
  rw [move, splice_zero_nil, block, take_zero, splice_zero_nil]

/-- A move to the front of the run before it. -/
theorem move_append (before middle run after : List α) :
  move (before ++ middle ++ run ++ after) (before.length + middle.length) run.length before.length
    = before ++ run ++ middle ++ after
  := by
  have out := splice_append (before ++ middle) run after []
  rw [append_nil, length_append] at out
  have lifted : block (before ++ middle ++ run ++ after) (before.length + middle.length) run.length
      = run := by
    rw [block, ← length_append, append_assoc (before ++ middle), drop_left, take_left]
  have put := splice_append before [] (middle ++ after) run
  rw [append_nil, length_nil] at put
  rw [move, out, lifted, append_assoc before middle after, put, append_assoc _ middle]

/-! ### What a splice and a move hold -/

theorem splice_perm (list : List α) (pos removed : ℕ) (inserted : List α) :
  (splice list pos removed inserted).Perm (splice list pos removed [] ++ inserted)
  := by
  rw [splice, splice, append_nil, append_assoc, append_assoc]
  apply List.Perm.append_left
  apply perm_append_comm

/-- What a splice takes out and what it leaves are the list. -/
theorem splice_append_block_perm (list : List α) (pos removed : ℕ) :
  (splice list pos removed [] ++ block list pos removed).Perm list
  := by
  have h := splice_perm list pos removed (block list pos removed)
  rw [splice, append_block_append] at h
  apply h.symm

theorem move_perm (list : List α) (start count dest : ℕ) :
  (move list start count dest).Perm list
  := by
  have h := splice_perm (splice list start count []) dest 0 (block list start count)
  rw [splice_zero_nil] at h
  apply h.trans (splice_append_block_perm list start count)

theorem splice_nil_sublist (list : List α) (pos removed : ℕ) :
  (splice list pos removed []).Sublist list
  := by
  rw [splice, append_nil]
  conv_rhs => rw [← take_append_drop pos list]
  apply List.Sublist.append_left
  rw [← drop_drop]
  apply drop_sublist

/-! ### Selecting -/

variable (f : α → Option β)

theorem filterMap_split (list : List α) (pos count : ℕ) :
  list.filterMap f = (list.take pos).filterMap f ++ (block list pos count).filterMap f
    ++ (list.drop (pos + count)).filterMap f
  := by
  rw [← filterMap_append, ← filterMap_append, append_block_append]

/-- Selecting from a spliced list splices what is selected from the list. -/
theorem filterMap_splice (list : List α) (pos removed : ℕ) (inserted : List α) :
  (splice list pos removed inserted).filterMap f
    = splice (list.filterMap f) (rank f list pos)
        ((block list pos removed).filterMap f).length (inserted.filterMap f)
  := by
  rw [filterMap_split f list pos removed, rank, splice_append, splice,
    filterMap_append, filterMap_append]

theorem rank_add (list : List α) (pos count : ℕ) :
  rank f list (pos + count) = rank f list pos + ((block list pos count).filterMap f).length
  := by
  rw [rank, rank, take_add, filterMap_append, length_append, ← block]

theorem rank_le_length (list : List α) (pos : ℕ) :
  rank f list pos ≤ (list.filterMap f).length
  := by
  have h := congrArg List.length (filterMap_split f list pos 0)
  rw [length_append, length_append] at h
  rw [rank]
  omega

/-- The selected elements of a run are a run of what is selected. -/
theorem filterMap_block (list : List α) (pos count : ℕ) :
  (block list pos count).filterMap f
    = block (list.filterMap f) (rank f list pos) ((block list pos count).filterMap f).length
  := by
  conv_rhs => rw [block, filterMap_split f list pos count, rank, append_assoc,
    drop_left, take_left]

theorem block_one {value : α} (h : list[pos]? = some value) :
  block list pos 1 = [value]
  := by
  obtain ⟨hlt, hget⟩ := List.getElem?_eq_some_iff.mp h
  rw [block, drop_eq_getElem_cons hlt, hget, take_succ_cons, take_zero]

/-- A selected element stands among what is selected at the number of elements selected
before it. -/
theorem filterMap_getElem?_rank {value : α} (h : list[pos]? = some value) {selected : β}
    (hselected : f value = some selected) :
  (list.filterMap f)[rank f list pos]? = some selected
  := by
  have hout := filterMap_block f list pos 1
  rw [block_one h, filterMap_cons_some hselected, filterMap_nil, length_singleton, block] at hout
  have hget : ((list.filterMap f).drop (rank f list pos))[0]? = some selected := by
    rw [← getElem?_take_of_lt Nat.one_pos, ← hout]
    rfl
  rwa [getElem?_drop, Nat.add_zero] at hget

/-- Before the place a run was moved to stand the elements that stood there without the
run. -/
theorem rank_move (h : start + count ≤ list.length) (hdest : dest ≤ list.length - count) :
  rank f (move list start count dest) dest = rank f (splice list start count []) dest
  := by
  have hrest := length_splice h []
  rw [length_nil, Nat.add_zero] at hrest
  rw [rank, move, take_splice (by omega), rank]

/-- The selected elements of a moved run find place after those that stand before it. -/
theorem rank_move_le (h : start + count ≤ list.length) (hdest : dest ≤ list.length - count) :
  rank f (move list start count dest) dest
    ≤ (list.filterMap f).length - ((block list start count).filterMap f).length
  := by
  have hle := rank_le_length f (splice list start count []) dest
  have hadd := rank_add f list start count
  have hfits := rank_le_length f list (start + count)
  rw [filterMap_splice, length_splice (by omega), filterMap_nil, length_nil] at hle
  rw [rank_move f h hdest]
  omega

/-- Selecting from a list with a run moved moves what is selected of the run. -/
theorem filterMap_move (h : start + count ≤ list.length) (hdest : dest ≤ list.length - count) :
  (move list start count dest).filterMap f
    = move (list.filterMap f) (rank f list start)
        ((block list start count).filterMap f).length
        (rank f (move list start count dest) dest)
  := by
  rw [rank_move f h hdest, move, filterMap_splice, filterMap_splice, move,
    filterMap_nil, ← filterMap_block]
  congr 1

end Splice
