import Vilan.Library.Machine
import Mathlib.Tactic

/-!
# The op log

A bounded log of ops with a cursor for each consumer.  The log keeps the ops some consumer
has not been told, up to a limit; past the limit it drops its history, and a cursor that is
left behind is answered with `none`, which a cell turns into the whole collection.
-/

namespace Vilan

open List

/-- How many ops a log holds unless a cell asked for another limit. -/
def deltaLogLimit : ℕ := 1024

/-- One consumer's place in a log.  Its `at` cell is the entry of `DeltaLog.told` under its
identity. -/
@[ext]
structure DeltaCursor where
  id : ℕ
  deriving DecidableEq, Repr

/-- An op log. -/
structure DeltaLog (O : Type*) where
  /-- The ops worth keeping, oldest first. -/
  ops : List O
  /-- The sequence number of the newest op. -/
  version : ℤ
  /-- The sequence number before the oldest op the log holds. -/
  base : ℤ
  /-- One for each live consumer. -/
  cursors : List DeltaCursor
  /-- What the `at` cell of each cursor holds: the sequence number its consumer has been
  told through. -/
  told : ℕ → ℤ
  /-- How many ops the log holds for a consumer that has stopped draining. -/
  limit : ℕ

namespace DeltaLog

variable {O : Type*}

/-- An empty log at a limit of its caller's choosing. -/
def withLimit (limit : ℕ) : DeltaLog O where
  ops := []
  version := 0
  base := 0
  cursors := []
  told := fun _ => 0
  limit := limit

/-- An empty log at `deltaLogLimit`. -/
def new : DeltaLog O :=
  withLimit deltaLogLimit

/-- The sequence number the laggiest of the live cursors has been told through. -/
def lowest (log : DeltaLog O) : ℤ :=
  log.cursors.foldl
    (fun lowest cursor => if log.told cursor.id < lowest then log.told cursor.id else lowest)
    log.version

/-- Drop the ops every live cursor has been told. -/
def trim (log : DeltaLog O) : DeltaLog O :=
  if log.lowest > log.base then
    { log with ops := log.ops.drop (log.lowest - log.base).toNat, base := log.lowest }
  else log

/-- Append an op, after the trim.  A log at its limit drops its history instead. -/
def record (log : DeltaLog O) (op : O) : DeltaLog O :=
  let log := log.trim
  let next := log.version + 1
  if log.limit ≤ log.ops.length then
    { log with ops := [], base := next, version := next }
  else
    { log with ops := log.ops ++ [op], version := next }

/-- Register a consumer's cursor, at the sequence number the log is at now.  The cursor's
identity is the fresh one its caller has drawn. -/
def cursor (log : DeltaLog O) (id : ℕ) : DeltaLog O × DeltaCursor :=
  ({ log with
      cursors := log.cursors ++ [⟨id⟩]
      told := Function.update log.told id log.version },
    ⟨id⟩)

/-- Retire a cursor. -/
def dropCursor (log : DeltaLog O) (cursor : DeltaCursor) : DeltaLog O :=
  { log with cursors := log.cursors.filter (fun held => held.id ≠ cursor.id) }

/-- Everything `cursor` has not been told, and advance it; `none` when it is behind
`base`. -/
def since (log : DeltaLog O) (cursor : DeltaCursor) : DeltaLog O × Option (List O) :=
  let told := log.told cursor.id
  if told ≥ log.version then (log, some [])
  else
    let advanced := { log with told := Function.update log.told cursor.id log.version }
    if told < log.base then (advanced, none)
    else (advanced, some (log.ops.drop (told - log.base).toNat))

/-- How many ops the log is holding. -/
def held (log : DeltaLog O) : ℕ :=
  log.ops.length

/-- What `since` answers to a cursor. -/
def answer (log : DeltaLog O) (cursor : DeltaCursor) : Option (List O) :=
  (log.since cursor).2

/-- The ops after a sequence number; `none` when the log does not hold them all. -/
def opsAfter (log : DeltaLog O) (sequence : ℤ) : Option (List O) :=
  if sequence < log.base then none else some (log.ops.drop (sequence - log.base).toNat)

/-- How many ops the log has to go on holding for its laggiest consumer. -/
def backlog (log : DeltaLog O) : ℕ :=
  (log.version - max log.base log.lowest).toNat

/-- A log holds the ops numbered `base + 1` through `version`, and nobody has been told
more. -/
structure WellFormed (log : DeltaLog O) : Prop where
  base_le : log.base ≤ log.version
  length_eq : (log.ops.length : ℤ) = log.version - log.base
  told_le : ∀ cursor ∈ log.cursors, log.told cursor.id ≤ log.version

theorem wellFormed_withLimit (limit : ℕ) :
  (withLimit limit : DeltaLog O).WellFormed
  := by
  constructor <;> simp [withLimit]

/-! ### Trimming -/

theorem foldl_lowest_le (told : ℕ → ℤ) (cursors : List DeltaCursor) (start : ℤ) :
  let lowest := cursors.foldl
    (fun lowest cursor => if told cursor.id < lowest then told cursor.id else lowest) start
  lowest ≤ start ∧ ∀ cursor ∈ cursors, lowest ≤ told cursor.id
  := by
  induction cursors generalizing start with
  | nil => simp
  | cons cursor cursors ih =>
    obtain ⟨hstart, hcursors⟩ := ih (if told cursor.id < start then told cursor.id else start)
    rw [foldl_cons]
    constructor
    · apply le_trans hstart
      split <;> omega
    · intro other hother
      rcases mem_cons.mp hother with rfl | hother
      · apply le_trans hstart
        split <;> omega
      · apply hcursors _ hother

section

variable (log : DeltaLog O)

theorem lowest_le_version :
  log.lowest ≤ log.version
  := (foldl_lowest_le _ _ _).1

theorem lowest_le_told {cursor : DeltaCursor} (h : cursor ∈ log.cursors) :
  log.lowest ≤ log.told cursor.id
  := (foldl_lowest_le _ _ _).2 cursor h

@[simp]
theorem version_trim :
  log.trim.version = log.version
  := by
  rw [trim]
  split <;> rfl

@[simp]
theorem told_trim :
  log.trim.told = log.told
  := by
  rw [trim]
  split <;> rfl

@[simp]
theorem cursors_trim :
  log.trim.cursors = log.cursors
  := by
  rw [trim]
  split <;> rfl

@[simp]
theorem limit_trim :
  log.trim.limit = log.limit
  := by
  rw [trim]
  split <;> rfl

theorem base_trim :
  log.trim.base = max log.base log.lowest
  := by
  rw [trim]
  split
  case isTrue h => exact (max_eq_right (le_of_lt h)).symm
  case isFalse h => exact (max_eq_left (not_lt.mp h)).symm

end

variable {log : DeltaLog O}

theorem WellFormed.trim (h : log.WellFormed) :
  log.trim.WellFormed
  := by
  have hlowest := log.lowest_le_version
  have hlen := h.length_eq
  constructor
  · rw [base_trim, version_trim]
    apply max_le h.base_le hlowest
  · rw [DeltaLog.trim]
    split
    · simp only [length_drop]
      omega
    · apply hlen
  · rw [version_trim, told_trim, cursors_trim]
    apply h.told_le

/-- After the trim the log holds its backlog. -/
theorem length_trim (h : log.WellFormed) :
  log.trim.ops.length = log.backlog
  := by
  have hlen := h.trim.length_eq
  rw [base_trim, version_trim] at hlen
  rw [backlog, ← hlen, Int.toNat_natCast]

/-- The trim changes nothing of what is held after the laggiest cursor's place. -/
theorem opsAfter_trim (log : DeltaLog O) {sequence : ℤ} (h : log.trim.base ≤ sequence) :
  log.trim.opsAfter sequence = log.opsAfter sequence
  := by
  rw [opsAfter, if_neg (by omega), opsAfter, if_neg]
  · rw [trim] at h ⊢
    split
    case isFalse => rfl
    case isTrue hlt =>
      rw [if_pos hlt] at h
      simp only [drop_drop] at h ⊢
      congr 2
      omega
  · rw [base_trim] at h
    omega

/-- The trim takes from no live cursor what it is owed. -/
theorem opsAfter_told_trim {cursor : DeltaCursor} (h : cursor ∈ log.cursors) :
  log.trim.opsAfter (log.told cursor.id) = log.opsAfter (log.told cursor.id)
  := by
  have htold := log.lowest_le_told h
  by_cases hbase : log.trim.base ≤ log.told cursor.id
  · apply opsAfter_trim log hbase
  · have hlost : log.told cursor.id < log.base := by
      rw [base_trim] at hbase
      omega
    rw [opsAfter, if_pos (by omega), opsAfter, if_pos hlost]

/-! ### What a cursor is owed, call by call -/

/-- A cursor is answered the ops after its place. -/
theorem WellFormed.answer_eq (h : log.WellFormed) {cursor : DeltaCursor}
    (htold : log.told cursor.id ≤ log.version) :
  log.answer cursor = log.opsAfter (log.told cursor.id)
  := by
  have hbase := h.base_le
  have hlen := h.length_eq
  rw [answer, since]
  split
  case isTrue hge =>
    rw [opsAfter, if_neg (by omega), drop_eq_nil_of_le (by omega)]
  case isFalse =>
    rw [opsAfter]
    split <;> rfl

theorem WellFormed.record (h : log.WellFormed) (op : O) :
  (log.record op).WellFormed
  := by
  obtain ⟨hbase, hlen, htold⟩ := h.trim
  rw [DeltaLog.record]
  split
  · refine ⟨le_rfl, by simp, ?_⟩
    intro cursor hcursor
    have := htold cursor hcursor
    simp only
    omega
  · refine ⟨by simp only; omega, by simp only [length_append, length_singleton]; omega, ?_⟩
    intro cursor hcursor
    have := htold cursor hcursor
    simp only
    omega

@[simp]
theorem version_record (log : DeltaLog O) (op : O) :
  (log.record op).version = log.version + 1
  := by
  rw [record]
  split <;> rw [version_trim]

@[simp]
theorem cursors_record (log : DeltaLog O) (op : O) :
  (log.record op).cursors = log.cursors
  := by
  rw [record]
  split <;> apply cursors_trim

@[simp]
theorem told_record (log : DeltaLog O) (op : O) :
  (log.record op).told = log.told
  := by
  rw [record]
  split <;> apply told_trim

/-- A record joins what is held, unless it finds the log at its limit. -/
theorem opsAfter_record (h : log.WellFormed) {sequence : ℤ} (hsequence : sequence ≤ log.version)
    (op : O) :
  (log.record op).opsAfter sequence
    = if log.limit ≤ log.backlog then none
      else (log.trim.opsAfter sequence).map (· ++ [op])
  := by
  have hlen := h.trim.length_eq
  rw [version_trim] at hlen
  rw [← length_trim h, record, limit_trim]
  split
  case isTrue =>
    rw [version_trim, opsAfter, if_pos (Int.lt_add_one_of_le hsequence)]
  case isFalse =>
    rw [opsAfter, opsAfter]
    simp only
    split
    · rfl
    · rw [Option.map_some, drop_append_of_le_length (by omega)]

/-- A record is owed to every live cursor.  One that finds the log at its limit takes
their history from all of them, whether they lag or not. -/
theorem answer_record (h : log.WellFormed) {cursor : DeltaCursor} (hcursor : cursor ∈ log.cursors)
    (op : O) :
  (log.record op).answer cursor
    = if log.limit ≤ log.backlog then none else (log.answer cursor).map (· ++ [op])
  := by
  have htold := h.told_le cursor hcursor
  rw [(h.record op).answer_eq (by rw [told_record, version_record]; omega), told_record,
    opsAfter_record h htold, opsAfter_told_trim hcursor, h.answer_eq htold]

/-- A run of records is kept whole or not at all. -/
theorem opsAfter_records (h : log.WellFormed) (ops : List O) :
  (ops.foldl record log).WellFormed
    ∧ (ops.foldl record log).version = log.version + ops.length
    ∧ ((ops.foldl record log).opsAfter log.version = none
      ∨ (ops.foldl record log).opsAfter log.version = some ops)
  := by
  induction ops using List.reverseRecOn with
  | nil =>
    have hbase := h.base_le
    have hlen := h.length_eq
    refine ⟨h, by simp, .inr ?_⟩
    rw [foldl_nil, opsAfter, if_neg (by omega), drop_eq_nil_of_le (by omega)]
  | append_singleton ops op ih =>
    obtain ⟨hlog, hversion, hops⟩ := ih
    rw [foldl_append, foldl_cons, foldl_nil]
    refine ⟨hlog.record op, ?_, ?_⟩
    · rw [version_record, hversion, length_append, length_singleton]
      push_cast
      ring
    · rw [opsAfter_record hlog (by omega)]
      split
      · left
        rfl
      · by_cases hbase : (ops.foldl record log).trim.base ≤ log.version
        · rw [opsAfter_trim _ hbase]
          rcases hops with hops | hops
          · left
            rw [hops, Option.map_none]
          · right
            rw [hops, Option.map_some]
        · left
          rw [opsAfter, if_pos (by omega), Option.map_none]

@[simp]
theorem cursors_records (log : DeltaLog O) (ops : List O) :
  (ops.foldl record log).cursors = log.cursors
  := by
  induction ops generalizing log with
  | nil => rfl
  | cons op ops ih => rw [foldl_cons, ih, cursors_record]

/-- A run of records is owed to every live cursor, unless one of them finds the log at its
limit. -/
theorem answer_records (h : log.WellFormed) {cursor : DeltaCursor} (hcursor : cursor ∈ log.cursors)
    (ops : List O) :
  (ops.foldl record log).answer cursor = none
    ∨ (ops.foldl record log).answer cursor = (log.answer cursor).map (· ++ ops)
  := by
  induction ops using List.reverseRecOn with
  | nil =>
    right
    simp
  | append_singleton ops op ih =>
    have hlog := (opsAfter_records h ops).1
    rw [foldl_append, foldl_cons, foldl_nil, answer_record hlog (by rwa [cursors_records])]
    split
    · left
      rfl
    · rcases ih with hnone | hsome
      · left
        rw [hnone, Option.map_none]
      · right
        rw [hsome, Option.map_map]
        congr 1
        funext recorded
        simp

theorem mem_cursors_cursor {id : ℕ} {cursor : DeltaCursor} :
  cursor ∈ (log.cursor id).1.cursors ↔ cursor ∈ log.cursors ∨ cursor = ⟨id⟩
  := by
  rw [DeltaLog.cursor, mem_append, mem_singleton]

theorem WellFormed.cursor (h : log.WellFormed) (id : ℕ) :
  (log.cursor id).1.WellFormed
  := by
  refine ⟨h.base_le, h.length_eq, ?_⟩
  intro cursor hcursor
  simp only [DeltaLog.cursor, mem_append, mem_singleton] at hcursor ⊢
  by_cases hid : cursor.id = id
  · rw [hid, Function.update_self]
  · rw [Function.update_of_ne hid]
    rcases hcursor with hcursor | rfl
    · apply h.told_le _ hcursor
    · contradiction

/-- A new cursor is owed nothing. -/
theorem answer_cursor_self (log : DeltaLog O) (id : ℕ) :
  (log.cursor id).1.answer ⟨id⟩ = some []
  := by
  rw [answer, since, cursor]
  simp only [Function.update_self]
  rw [if_pos le_rfl]

theorem answer_cursor_of_ne (log : DeltaLog O) {id : ℕ} {cursor : DeltaCursor}
    (h : cursor.id ≠ id) :
  (log.cursor id).1.answer cursor = log.answer cursor
  := by
  rw [answer, answer, since, since, DeltaLog.cursor]
  simp only [Function.update_of_ne h]
  split
  · rfl
  · split <;> rfl

theorem WellFormed.dropCursor (h : log.WellFormed) (cursor : DeltaCursor) :
  (log.dropCursor cursor).WellFormed
  := by
  refine ⟨h.base_le, h.length_eq, ?_⟩
  intro other hother
  apply h.told_le other
  apply mem_of_mem_filter hother

theorem mem_cursors_dropCursor {cursor other : DeltaCursor} :
  other ∈ (log.dropCursor cursor).cursors ↔ other ∈ log.cursors ∧ other ≠ cursor
  := by
  rw [dropCursor, mem_filter, decide_eq_true_iff, ne_eq, ne_eq, DeltaCursor.ext_iff]

theorem answer_dropCursor (log : DeltaLog O) (cursor other : DeltaCursor) :
  (log.dropCursor cursor).answer other = log.answer other
  := by
  rw [answer, answer, since, since, dropCursor]
  simp only
  split
  · rfl
  · split <;> rfl

theorem since_fst (log : DeltaLog O) (cursor : DeltaCursor) :
  (log.since cursor).1
    = { log with
        told := Function.update log.told cursor.id (max (log.told cursor.id) log.version) }
  := by
  rw [since]
  split
  case isTrue h =>
    rw [max_eq_left h, Function.update_eq_self]
  case isFalse h =>
    rw [max_eq_right (by omega)]
    split <;> rfl

theorem WellFormed.since (h : log.WellFormed) (cursor : DeltaCursor) :
  (log.since cursor).1.WellFormed
  := by
  rw [since_fst]
  refine ⟨h.base_le, h.length_eq, ?_⟩
  intro other hother
  have hle := h.told_le other hother
  simp only
  by_cases hid : other.id = cursor.id
  · rw [hid] at hle
    rw [hid, Function.update_self]
    apply max_le hle le_rfl
  · rw [Function.update_of_ne hid]
    apply hle

/-- A drained cursor is owed nothing. -/
theorem answer_since_self (log : DeltaLog O) (cursor : DeltaCursor) :
  (log.since cursor).1.answer cursor = some []
  := by
  rw [since_fst, answer, DeltaLog.since]
  simp only [Function.update_self]
  rw [if_pos (le_max_right _ _)]

theorem answer_since_of_ne (log : DeltaLog O) {cursor other : DeltaCursor}
    (h : other ≠ cursor) :
  (log.since cursor).1.answer other = log.answer other
  := by
  have hid : other.id ≠ cursor.id := by
    rwa [ne_eq, ← DeltaCursor.ext_iff]
  rw [since_fst, answer, answer, DeltaLog.since, DeltaLog.since]
  simp only [Function.update_of_ne hid]
  split
  · rfl
  · split <;> rfl

end DeltaLog

end Vilan
