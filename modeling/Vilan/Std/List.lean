import Vilan.Library.Splice

/-!
# The list built-ins that panic

`List::remove` and `List::insert` panic on an index out of bounds.  A call that changes a
list element by element may so end in a panic after it has changed the list, therefore the
outcome of a call keeps the state it leaves in either case.
-/

namespace Vilan

open List

/-- How a call ends: it returns a value, or it panics.  Either way it leaves a state. -/
inductive Outcome (σ α : Type*) where
  | done (state : σ) (value : α)
  | panic (state : σ)
  deriving DecidableEq, Repr

namespace Outcome

variable {σ α : Type*}

/-- The state a call leaves. -/
def state : Outcome σ α → σ
  | done state _ => state
  | panic state => state

/-- The state a call leaves when it returns. -/
def returned : Outcome σ α → Option σ
  | done state _ => some state
  | panic _ => none

/-- The loop that calls `body` for each of a list of values, until one call panics. -/
def forEach (body : σ → α → Outcome σ Unit) (state : σ) : List α → Outcome σ Unit
  | [] => .done state ()
  | value :: values =>
      match body state value with
      | .done state () => forEach body state values
      | .panic state => .panic state

end Outcome

open Splice

variable {T : Type*}

/-- `List::remove`: the element at `index` leaves the list and is returned. -/
def listRemove (list : List T) (index : ℕ) : Outcome (List T) T :=
  match list[index]? with
  | some value => .done (list.eraseIdx index) value
  | none => .panic list

/-- `List::insert`: `value` arrives at `index`, which may be one past the last element. -/
def listInsert (list : List T) (index : ℕ) (value : T) : Outcome (List T) Unit :=
  if index ≤ list.length then .done (list.insertIdx index value) () else .panic list

/-- The loop that removes `count` elements at `start`, one by one, and pushes them on
`lifted`. -/
def liftEach (list : List T) (start : ℕ) (lifted : List T) : ℕ → Outcome (List T) (List T)
  | 0 => .done list lifted
  | count + 1 =>
      match listRemove list start with
      | .done rest value => liftEach rest start (lifted ++ [value]) count
      | .panic list => .panic list

/-- The loop that inserts `values` from `start` on, one by one. -/
def insertEach (list : List T) (start : ℕ) : List T → Outcome (List T) Unit
  | [] => .done list ()
  | value :: values =>
      match listInsert list start value with
      | .done list () => insertEach list (start + 1) values
      | .panic list => .panic list

/-- The two loops of a move: `count` elements are lifted at `start`, then inserted from
`dest` on. -/
def moveEach (list : List T) (start count dest : ℕ) : Outcome (List T) Unit :=
  match liftEach list start [] count with
  | .done list lifted => insertEach list dest lifted
  | .panic list => .panic list

/-! ### In bounds -/

variable {index count start dest : ℕ} {list : List T}

theorem listRemove_of_lt (h : index < list.length) :
  listRemove list index = .done (splice list index 1 []) list[index]
  := by
  rw [listRemove, getElem?_eq_getElem h, splice, append_nil, eraseIdx_eq_take_drop_succ]

theorem insertIdx_eq_splice (h : index ≤ list.length) (value : T) :
  list.insertIdx index value = splice list index 0 [value]
  := by
  induction index generalizing list with
  | zero => simp [splice]
  | succ index ih =>
    cases list with
    | nil => simp at h
    | cons head tail =>
      rw [insertIdx_succ_cons, ih (Nat.le_of_succ_le_succ h)]
      rfl

theorem listInsert_of_le (h : index ≤ list.length) (value : T) :
  listInsert list index value = .done (splice list index 0 [value]) ()
  := by
  rw [listInsert, if_pos h, insertIdx_eq_splice h]

/-- In bounds, the loop takes out the run that begins at `start`. -/
theorem liftEach_of_le (h : start + count ≤ list.length) (lifted : List T) :
  liftEach list start lifted count
    = .done (splice list start count []) (lifted ++ block list start count)
  := by
  induction count generalizing list lifted with
  | zero => rw [liftEach, splice_zero_nil, block, take_zero, append_nil]
  | succ count ih =>
    have hlt : start < list.length := by omega
    have hlen := length_splice (show start + 1 ≤ list.length by omega) []
    rw [length_nil] at hlen
    have htake : (list.take start).length = start := by
      rw [length_take]
      omega
    have hdrop : (splice list start 1 []).drop start = list.drop (start + 1) := by
      rw [splice, append_nil, drop_append_of_le_length htake.ge, drop_take_self, nil_append]
    rw [liftEach, listRemove_of_lt hlt]
    simp only
    rw [ih (by omega)]
    congr 1
    · rw [splice, take_splice (by omega), ← drop_drop, hdrop, drop_drop, splice]
      congr 2
      omega
    · rw [block, hdrop, block, drop_eq_getElem_cons hlt, take_succ_cons,
        append_assoc, singleton_append]

/-- In bounds, the loop inserts all the values at `start`. -/
theorem insertEach_of_le (h : start ≤ list.length) (values : List T) :
  insertEach list start values = .done (splice list start 0 values) ()
  := by
  induction values generalizing list start with
  | nil => rw [insertEach, splice_zero_nil]
  | cons value values ih =>
    have hlen := length_splice (show start + 0 ≤ list.length by omega) [value]
    rw [length_singleton] at hlen
    have htake : (list.take start ++ [value]).length = start + 1 := by
      rw [length_append, length_take, length_singleton]
      omega
    rw [insertEach, listInsert_of_le h]
    simp only
    rw [ih (by omega)]
    congr 1
    rw [splice, splice, take_left' htake, Nat.add_zero, Nat.add_zero,
      drop_left' htake, splice, Nat.add_zero]
    simp only [append_assoc, singleton_append]

theorem moveEach_of_le (h : start + count ≤ list.length) (hdest : dest ≤ list.length - count) :
  moveEach list start count dest = .done (move list start count dest) ()
  := by
  have hlen := length_splice h []
  rw [length_nil, Nat.add_zero] at hlen
  rw [moveEach, liftEach_of_le h]
  simp only
  rw [insertEach_of_le (by omega), nil_append, move]

theorem moveEach_map_of_le {U : Type*} (f : T → U) (h : start + count ≤ list.length)
    (hdest : dest ≤ list.length - count) :
  moveEach (list.map f) start count dest = .done (move (list.map f) start count dest) ()
  := by
  apply moveEach_of_le <;> rwa [length_map]

/-! ### Out of bounds -/

/-- A run that ends past the end is lifted as far as the list goes, then the loop
panics. -/
theorem liftEach_of_lt (h : list.length < start + count) (lifted : List T) (hcount : 0 < count) :
  liftEach list start lifted count = .panic (list.take start)
  := by
  induction count generalizing list lifted with
  | zero => contradiction
  | succ count ih =>
    rw [liftEach]
    by_cases hlt : start < list.length
    · have hlen := length_splice (show start + 1 ≤ list.length by omega) []
      rw [length_nil] at hlen
      rw [listRemove_of_lt hlt]
      simp only
      rw [ih (by omega) _ (by omega), take_splice (by omega)]
    · rw [listRemove, getElem?_eq_none (by omega)]
      simp only
      rw [take_of_length_le (by omega)]

/-- No value is inserted past the end. -/
theorem insertEach_of_lt (h : list.length < start) {values : List T} (hvalues : values ≠ []) :
  insertEach list start values = .panic list
  := by
  cases values with
  | nil => contradiction
  | cons value values =>
    rw [insertEach, listInsert, if_neg (by omega)]

/-- A move that lifts past the end leaves what stands before `start`. -/
theorem moveEach_of_lift_lt (h : list.length < start + count) (hcount : 0 < count) (dest : ℕ) :
  moveEach list start count dest = .panic (list.take start)
  := by
  rw [moveEach, liftEach_of_lt h [] hcount]

/-- A move that inserts past the end leaves the list without what it has lifted. -/
theorem moveEach_of_insert_lt (h : start + count ≤ list.length) (hcount : 0 < count)
    (hdest : list.length - count < dest) :
  moveEach list start count dest = .panic (splice list start count [])
  := by
  have hlen := length_splice h []
  rw [length_nil, Nat.add_zero] at hlen
  have hblock := length_block h
  rw [moveEach, liftEach_of_le h]
  simp only
  rw [insertEach_of_lt (by omega)]
  rintro heq
  rw [nil_append] at heq
  rw [heq, length_nil] at hblock
  omega

end Vilan
