import Mathlib.Data.List.Perm.Basic
import Vilan.Core.LiveRanges

/-!
# The entries of a table that are live

The cursor over the live ids yields each of them once, in order.  The live entries of a table are found
by sweeping the table or by walking the ids, and both forms yield the same entries.
-/

namespace Vilan.Core

open List Option Ranges Iterators

/-! ### The cursor -/

/-- The cursor over the live ids: the ranges from the one it stands in, and the id it yields next. -/
structure LiveIds where
  ranges : List (ℕ × ℕ)
  next : ℕ

namespace LiveRanges

/-- The start of the first range. -/
def firstStart (ranges : List (ℕ × ℕ)) (next : ℕ) : ℕ :=
  match ranges with
  | (start, _) :: _ => start
  | [] => next

/-- Every live id, ascending. -/
def ids (live : LiveRanges) : LiveIds :=
  ⟨live.ranges, firstStart live.ranges 0⟩

end LiveRanges

namespace LiveIds

/-- The next id of the range that the cursor stands in, or of the ranges behind it. -/
def step : List (ℕ × ℕ) → ℕ → Option (ℕ × LiveIds)
  | [], _ => none
  | (start, stop) :: rest, id =>
      if id < stop then some (id, ⟨(start, stop) :: rest, id + 1⟩)
      else step rest (LiveRanges.firstStart rest id)

/-- The next live id. -/
def advance (ids : LiveIds) : Option (ℕ × LiveIds) :=
  step ids.ranges ids.next

/-- The ids of the ranges, where those before the cursor are gone from the first one. -/
def rest : List (ℕ × ℕ) → ℕ → List ℕ
  | [], _ => []
  | (_, stop) :: ranges, id => List.range' id (stop - id) ++ Ranges.ids ranges

theorem rest_firstStart (ranges : List (ℕ × ℕ)) (id : ℕ) :
  rest ranges (LiveRanges.firstStart ranges id) = Ranges.ids ranges
  := by
  cases ranges with
  | nil => rfl
  | cons range ranges => rfl

/-- The cursor yields what is left of the ranges. -/
theorem yields_rest (ranges : List (ℕ × ℕ)) (id : ℕ) :
  Yields advance ⟨ranges, id⟩ (rest ranges id)
  := by
  induction ranges generalizing id with
  | nil => exact Yields.done rfl
  | cons range ranges ih =>
    obtain ⟨start, stop⟩ := range
    rw [rest]
    generalize count : stop - id = n
    induction n generalizing id with
    | zero =>
      have passed : ¬ id < stop := by omega
      have rest' := ih (LiveRanges.firstStart ranges id)
      rw [rest_firstStart] at rest'
      rw [range'_zero, nil_append]
      refine rest'.of_eq ?_
      rw [advance, step, if_neg passed, advance]
    | succ n ihn =>
      have lt : id < stop := by omega
      rw [range'_succ, cons_append]
      have stepped : advance ⟨(start, stop) :: ranges, id⟩ =
          some (id, ⟨(start, stop) :: ranges, id + 1⟩) := by rw [advance, step, if_pos lt]
      exact Yields.more stepped (ihn (id + 1) (by omega))

end LiveIds

/-- The cursor yields the live ids. -/
theorem LiveRanges.yields_ids (live : LiveRanges) :
  Yields LiveIds.advance live.ids (Ranges.ids live.ranges)
  := by
  rw [← LiveIds.rest_firstStart live.ranges 0]
  exact LiveIds.yields_rest live.ranges _

/-! ### The entries -/

variable {V : Type*}

/-- A table keyed by ids, in the order in which it is swept. -/
structure IdTable (V : Type*) where
  entries : List (ℕ × V)
  distinct : (entries.map Prod.fst).Nodup

/-- The entry of an id. -/
def IdTable.entry (table : IdTable V) (id : ℕ) : Option (ℕ × V) :=
  table.entries.find? fun entry => entry.1 == id

/-- The table has at most one entry for an id, and looking it up finds it. -/
theorem IdTable.entry_eq_some (table : IdTable V) (id : ℕ) (entry : ℕ × V) :
  table.entry id = some entry ↔ entry ∈ table.entries ∧ entry.1 = id
  := by
  constructor
  · intro found
    rw [IdTable.entry] at found
    have same := find?_some found
    exact ⟨mem_of_find?_eq_some found, beq_iff_eq.mp same⟩
  · rintro ⟨mem, rfl⟩
    have distinct := table.distinct
    rw [IdTable.entry]
    generalize table.entries = entries at mem distinct ⊢
    induction entries with
    | nil => cases mem
    | cons head entries ih =>
      rw [map_cons, nodup_cons] at distinct
      rw [find?_cons]
      obtain rfl | mem := mem_cons.mp mem
      · rw [beq_self_eq_true]
      · have other : (head.1 == entry.1) = false := by
          rw [beq_eq_false_iff_ne]
          intro heq
          exact distinct.1 (heq ▸ List.mem_map_of_mem mem)
        rw [other]
        exact ih mem distinct.2

/-- The entries that a pass visits. -/
inductive LiveEntries (V : Type*) where
  /-- Sweep the table, ask each entry. -/
  | sweep (entries : List (ℕ × V)) (live : LiveRanges) (keep : V → Bool)
  /-- Walk the live ids, look each one up. -/
  | walk (ids : LiveIds) (table : IdTable V) (keep : V → Bool)

/-- Whether a pass walks the live ids rather than sweep a table of so many entries. -/
def LiveRanges.walks (live : LiveRanges) (len : ℕ) : Bool :=
  live.count * 1000 < len * 200

namespace LiveEntries

/-- The form of a pass over a table that is cheaper. -/
def overWhere (table : IdTable V) (live : LiveRanges) (keep : V → Bool) : LiveEntries V :=
  if live.walks table.entries.length then walk live.ids table keep
  else sweep table.entries live keep

/-- What a sweep makes of an entry. -/
def sweepTest (live : LiveRanges) (keep : V → Bool) (entry : ℕ × V) : Option (ℕ × V) :=
  if keep entry.2 && live.covers entry.1 then some entry else none

/-- What a walk makes of an id. -/
def walkTest (table : IdTable V) (keep : V → Bool) (id : ℕ) : Option (ℕ × V) :=
  match table.entry id with
  | some entry => if keep entry.2 then some entry else none
  | none => none

/-- The next entry. -/
def next : LiveEntries V → Option ((ℕ × V) × LiveEntries V)
  | sweep entries live keep =>
      (find listNext (sweepTest live keep) (entries.length + 1) entries).map
        fun found => (found.1, sweep found.2 live keep)
  | walk ids table keep =>
      (find LiveIds.advance (walkTest table keep)
        ((LiveIds.rest ids.ranges ids.next).length + 1) ids).map
        fun found => (found.1, walk found.2 table keep)

theorem yields_sweep (entries : List (ℕ × V)) (live : LiveRanges) (keep : V → Bool) :
  Yields next (sweep entries live keep) (entries.filterMap (sweepTest live keep))
  := by
  have searched := Yields.searched (sweepTest live keep) (fun entries : List (ℕ × V) => entries.length + 1)
    (fun {state items} yields => by
      rw [yields.unique (yields_list state)]
      exact Nat.lt_succ_self _)
    (yields_list entries)
  exact searched.wrap (fun entries => sweep entries live keep) fun _ => rfl

theorem yields_walk (live : LiveRanges) (table : IdTable V) (keep : V → Bool) :
  Yields next (walk live.ids table keep)
    ((Ranges.ids live.ranges).filterMap (walkTest table keep))
  := by
  have searched := Yields.searched (walkTest table keep)
    (fun ids : LiveIds => (LiveIds.rest ids.ranges ids.next).length + 1)
    (fun {state items} yields => by
      rw [yields.unique (LiveIds.yields_rest state.ranges state.next)]
      exact Nat.lt_succ_self _)
    live.yields_ids
  exact searched.wrap (fun ids => walk ids table keep) fun _ => rfl

theorem mem_sweep (table : IdTable V) (live : LiveRanges) (keep : V → Bool) (entry : ℕ × V) :
  entry ∈ table.entries.filterMap (sweepTest live keep) ↔
    entry ∈ table.entries ∧ keep entry.2 = true ∧ live.covers entry.1 = true
  := by
  rw [mem_filterMap]
  constructor
  · rintro ⟨entry', mem, test⟩
    rw [sweepTest] at test
    split at test
    next both =>
      obtain rfl := Option.some.inj test
      exact ⟨mem, (Bool.and_eq_true _ _).mp both⟩
    next => cases test
  · rintro ⟨mem, kept, covered⟩
    use entry, mem
    rw [sweepTest, kept, covered]
    rfl

theorem mem_walk (table : IdTable V) (live : LiveRanges) (keep : V → Bool) (entry : ℕ × V) :
  entry ∈ (Ranges.ids live.ranges).filterMap (walkTest table keep) ↔
    entry ∈ table.entries ∧ keep entry.2 = true ∧ live.covers entry.1 = true
  := by
  rw [mem_filterMap]
  constructor
  · rintro ⟨id, mem, test⟩
    rw [walkTest] at test
    split at test
    next entry' found =>
      split at test
      next kept =>
        obtain rfl := Option.some.inj test
        obtain ⟨mem', rfl⟩ := (table.entry_eq_some _ _).mp found
        exact ⟨mem', kept, (live.covers_iff _).mpr (mem_ids.mp mem)⟩
      next => cases test
    next => cases test
  · rintro ⟨mem, kept, covered⟩
    refine ⟨entry.1, mem_ids.mpr ((live.covers_iff _).mp covered), ?_⟩
    rw [walkTest, (table.entry_eq_some _ _).mpr ⟨mem, rfl⟩]
    dsimp only
    rw [if_pos kept]

theorem sweep_nodup (table : IdTable V) (live : LiveRanges) (keep : V → Bool) :
  (table.entries.filterMap (sweepTest live keep)).Nodup
  := by
  apply table.distinct.of_map.filterMap
  intro entry entry' found mem mem'
  rw [mem_def, sweepTest, ite_none_right_eq_some, some_inj] at mem mem'
  rw [mem.2, mem'.2]

theorem walk_nodup (table : IdTable V) (live : LiveRanges) (keep : V → Bool) :
  ((Ranges.ids live.ranges).filterMap (walkTest table keep)).Nodup
  := by
  have nodup : (Ranges.ids live.ranges).Nodup := live.ascending.ids.imp fun lt => Nat.ne_of_lt lt
  have of_test {id : ℕ} {found : ℕ × V} (mem : found ∈ walkTest table keep id) : found.1 = id := by
    rw [mem_def, walkTest] at mem
    split at mem
    next entry looked =>
      rw [ite_none_right_eq_some, some_inj] at mem
      obtain ⟨_, rfl⟩ := mem
      exact ((table.entry_eq_some _ _).mp looked).2
    next => cases mem
  apply nodup.filterMap
  intro id id' found mem mem'
  rw [← of_test mem, of_test mem']

end LiveEntries

/-- The live ranges are the complement of the reused ones, the ids are listed once and in order, a split
divides them, and the live entries of a table are the same in both forms. -/
theorem live_exact (reused : List (ℕ × ℕ)) (high : ℕ) :
  (∀ id, (LiveRanges.complement reused high).covers id = true ↔ id < high ∧ ¬ Within reused id) ∧
    (∃ ids, Yields LiveIds.advance (LiveRanges.complement reused high).ids ids ∧
      ids.Pairwise (· < ·) ∧ (∀ id, id ∈ ids ↔ id < high ∧ ¬ Within reused id) ∧
      (LiveRanges.complement reused high).count = ids.length) ∧
    (∀ within, Sorted within → ∀ id,
      (((LiveRanges.complement reused high).splitBy within true).covers id = true ↔
        (LiveRanges.complement reused high).covers id = true ∧ Within within id) ∧
      (((LiveRanges.complement reused high).splitBy within false).covers id = true ↔
        (LiveRanges.complement reused high).covers id = true ∧ ¬ Within within id)) ∧
    ∀ (live : LiveRanges) (table : IdTable V) (keep : V → Bool), ∃ swept walked,
      Yields LiveEntries.next (.sweep table.entries live keep) swept ∧
      Yields LiveEntries.next (.walk live.ids table keep) walked ∧
      swept.Nodup ∧ walked.Nodup ∧ swept.Perm walked ∧
      (∀ entry, entry ∈ walked ↔
        entry ∈ table.entries ∧ keep entry.2 = true ∧ live.covers entry.1 = true) ∧
      (LiveEntries.overWhere table live keep = .sweep table.entries live keep ∨
        LiveEntries.overWhere table live keep = .walk live.ids table keep)
  := by
  refine ⟨LiveRanges.covers_complement reused high, ?_, ?_, ?_⟩
  · refine ⟨_, LiveRanges.yields_ids _, (LiveRanges.complement reused high).ascending.ids, ?_, ?_⟩
    · intro id
      rw [mem_ids, ← LiveRanges.covers_iff, LiveRanges.covers_complement]
    · rw [length_ids]
      exact (LiveRanges.complement reused high).counted
  · intro within sorted id
    rw [LiveRanges.covers_splitBy _ sorted, LiveRanges.covers_splitBy _ sorted]
    simp only [iff_true, Bool.false_eq_true, iff_false, and_self]
  · intro live table keep
    refine ⟨_, _, LiveEntries.yields_sweep _ _ _, LiveEntries.yields_walk _ _ _,
      LiveEntries.sweep_nodup _ _ _, LiveEntries.walk_nodup _ _ _, ?_,
      LiveEntries.mem_walk table live keep, ?_⟩
    · rw [perm_ext_iff_of_nodup (LiveEntries.sweep_nodup _ _ _) (LiveEntries.walk_nodup _ _ _)]
      intro entry
      rw [LiveEntries.mem_sweep, LiveEntries.mem_walk]
    · rw [LiveEntries.overWhere]
      split
      · exact Or.inr rfl
      · exact Or.inl rfl

/-- At touching and overlapping ranges, one of them past the end. -/
theorem live_exact_touching :
  let live := LiveRanges.complement [(10, 20), (5, 12), (20, 25), (40, 60)] 50
  live.covers 4 = true ∧ live.covers 5 = false ∧
    (live.splitBy [(3, 30)] true).covers 29 = true ∧ live.count = 20
  :=
  have split := (live_exact (V := Unit) [(10, 20), (5, 12), (20, 25), (40, 60)] 50).2.2.1 [(3, 30)]
    ⟨by decide, by decide⟩ 29
  ⟨by decide, by decide, split.1.mpr ⟨by decide, ⟨(3, 30), by decide⟩⟩, by decide⟩

end Vilan.Core
