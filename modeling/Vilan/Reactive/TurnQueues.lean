import Mathlib.Data.List.Induction
import Vilan.Reactive.TurnRuns

/-!
# The queues and their tables

The effects of a turn are queued in ascending order of their ids, and each table holds exactly the
ids of its queue.  This holds of every turn in every state that a run reaches, whatever a
notification enqueues or disposes.
-/

namespace Vilan

open List

namespace Turn

/-- The effects are queued in ascending order, no derivation is queued twice, and each table holds
exactly the ids of its queue. -/
structure Ordered (turn : Turn) : Prop where
  ascending : (turn.pending.map Subscriber.id).Pairwise (· < ·)
  queued : ∀ id, id ∈ turn.queued ↔ id ∈ turn.pending.map Subscriber.id
  nodup : (turn.pendingDerived.map Subscriber.id).Nodup
  queuedDerived : ∀ id, id ∈ turn.queuedDerived ↔ id ∈ turn.pendingDerived.map Subscriber.id

/-! ### The backward scan -/

variable {turn next : Turn} {pending : List Subscriber} {added : Subscriber}

/-- The scan looks at nothing behind where it starts. -/
theorem scan_append (more : List Subscriber) (id : ℤ) {index : ℕ} (le : index ≤ pending.length) :
  scan (pending ++ more) id index = scan pending id index
  := by
  induction index with
  | zero => rfl
  | succ index ih =>
    rw [scan, scan, getElem?_append_left le, ih (Nat.le_of_succ_le le)]

theorem insertIdx_append (more : List Subscriber) {index : ℕ} (le : index ≤ pending.length) :
  (pending ++ more).insertIdx index added = pending.insertIdx index added ++ more
  := by
  induction pending generalizing index with
  | nil =>
    obtain rfl := Nat.le_zero.mp le
    rfl
  | cons head pending ih =>
    cases index with
    | zero => rfl
    | succ index =>
      rw [cons_append, insertIdx_succ_cons, insertIdx_succ_cons,
        ih (Nat.le_of_succ_le_succ le), cons_append]

/-- A new id is put in its place. -/
theorem ascending_insertIdx (ascending : (pending.map Subscriber.id).Pairwise (· < ·))
    (fresh : added.id ∉ pending.map Subscriber.id) :
  ((pending.insertIdx (scan pending added.id pending.length) added).map Subscriber.id).Pairwise (· < ·)
  := by
  induction pending using List.reverseRecOn with
  | nil => simp [scan]
  | append_singleton front last ih =>
    have ordered := ascending
    rw [map_append, pairwise_append] at ascending
    obtain ⟨ascending, -, before⟩ := ascending
    have before : ∀ id ∈ front.map Subscriber.id, id < last.id := by
      intro id mem
      apply before id mem last.id (by simp)
    rw [map_append, mem_append, not_or] at fresh
    have ne : added.id ≠ last.id := by simpa using fresh.2
    have count : (front ++ [last]).length = front.length + 1 := length_append
    have at_last : (front ++ [last])[front.length]? = some last := getElem?_concat_length
    rw [count, scan, at_last]
    dsimp only
    split
    next lt =>
      rw [scan_append _ _ (Nat.le_refl _), insertIdx_append _ (scan_le front added.id front.length),
        map_append, pairwise_append]
      use ih ascending fresh.1, pairwise_singleton _ _
      intro id mem id' mem'
      obtain rfl : id' = last.id := by simpa using mem'
      obtain ⟨subscriber, held, rfl⟩ := List.mem_map.mp mem
      obtain rfl | held := mem_insertIdx_scan.mp held
      · exact lt
      · exact before _ (List.mem_map_of_mem held)
    next ge =>
      have above : last.id < added.id := by omega
      rw [← count, insertIdx_length_self, map_append, pairwise_append]
      use ordered, pairwise_singleton _ _
      intro id mem id' mem'
      obtain rfl : id' = added.id := by simpa using mem'
      rw [map_append, mem_append] at mem
      obtain mem | mem := mem
      · exact lt_trans (before id mem) above
      · obtain rfl : id = last.id := by simpa using mem
        exact above

/-! ### What the operations keep -/

theorem Ordered.new : Turn.new.Ordered := by
  constructor <;> simp [Turn.new]

/-- Nothing but the queues and their tables matter to the order. -/
theorem Ordered.of_eq (ordered : turn.Ordered) (pending : next.pending = turn.pending)
    (pendingDerived : next.pendingDerived = turn.pendingDerived) (queued : next.queued = turn.queued)
    (queuedDerived : next.queuedDerived = turn.queuedDerived) :
  next.Ordered
  := by
  constructor
  · rw [pending]
    exact ordered.ascending
  · rw [queued, pending]
    exact ordered.queued
  · rw [pendingDerived]
    exact ordered.nodup
  · rw [queuedDerived, pendingDerived]
    exact ordered.queuedDerived

theorem Ordered.enqueueOne (ordered : turn.Ordered) (subscriber : Subscriber) :
  (turn.enqueueOne subscriber).Ordered
  := by
  obtain ⟨ascending, queued, nodup, queuedDerived⟩ := ordered
  rw [Turn.enqueueOne]
  split
  · split
    · exact ⟨ascending, queued, nodup, queuedDerived⟩
    next fresh =>
      rw [queuedDerived] at fresh
      use ascending, queued
      · rw [map_append, List.perm_append_comm.nodup_iff]
        exact nodup_cons.mpr ⟨fresh, nodup⟩
      · intro id
        rw [mem_cons, queuedDerived, map_append, mem_append, map_singleton, mem_singleton, or_comm]
  · split
    · exact ⟨ascending, queued, nodup, queuedDerived⟩
    next fresh =>
      rw [queued] at fresh
      refine ⟨ascending_insertIdx ascending fresh, ?_, nodup, queuedDerived⟩
      intro id
      rw [mem_cons, queued, List.mem_map, List.mem_map]
      simp only [mem_insertIdx_scan, or_and_right, exists_or, exists_eq_left, eq_comm (a := id)]

theorem Ordered.enqueue (ordered : turn.Ordered) (subscribers : List Subscriber) :
  (turn.enqueue subscribers).Ordered
  := by
  have all : (turn.enqueueAll subscribers).Ordered := by
    induction subscribers generalizing turn with
    | nil => exact ordered
    | cons subscriber subscribers ih => exact ih (ordered.enqueueOne subscriber)
  rw [Turn.enqueue, schedule]
  split
  · apply all.of_eq <;> rfl
  · exact all

theorem mem_filter_ids (queue : List Subscriber) (id other : ℤ) :
  other ∈ (queue.filter fun subscriber => subscriber.id ≠ id).map Subscriber.id ↔
    other ∈ queue.map Subscriber.id ∧ other ≠ id
  := by
  simp only [List.mem_map, mem_filter, decide_eq_true_iff]
  constructor
  · rintro ⟨subscriber, ⟨mem, ne⟩, rfl⟩
    exact ⟨⟨subscriber, mem, rfl⟩, ne⟩
  · rintro ⟨⟨subscriber, mem, rfl⟩, ne⟩
    exact ⟨subscriber, ⟨mem, ne⟩, rfl⟩

theorem Ordered.scrub (ordered : turn.Ordered) (id : ℤ) :
  (turn.scrub id).Ordered
  := by
  constructor
  · exact ordered.ascending.sublist (List.filter_sublist.map _)
  · intro other
    rw [Turn.scrub, mem_filter_ids, mem_filter, ordered.queued, decide_eq_true_iff]
  · exact ordered.nodup.sublist (List.filter_sublist.map _)
  · intro other
    rw [Turn.scrub, mem_filter_ids, mem_filter, ordered.queuedDerived, decide_eq_true_iff]

theorem Ordered.takeDerivations (ordered : turn.Ordered) :
  turn.takeDerivations.Ordered
  := by
  use ordered.ascending, ordered.queued
  · exact nodup_nil
  · simp [Turn.takeDerivations]

theorem Ordered.takeWave (ordered : turn.Ordered) :
  turn.takeWave.Ordered
  := by
  refine ⟨List.Pairwise.nil, ?_, ordered.nodup, ordered.queuedDerived⟩
  simp [Turn.takeWave]

end Turn

namespace Scheduler

variable {s s' : Scheduler} {event : Event} {trace : List Event}

theorem ordered_drain (ordered : ∀ t, (s.turns t).Ordered) (turn : ℕ) (settles : Bool) (t : ℕ) :
  ((s.drain turn settles).turns t).Ordered
  := by
  rw [Scheduler.drain]
  split
  · apply ordered
  · rw [turns_push]
    apply forall_turns_modify ordered
    apply (ordered turn).of_eq <;> rfl

theorem ordered_leave (ordered : ∀ t, (s.turns t).Ordered) (turn t : ℕ) :
  ((s.leave turn).turns t).Ordered
  := by
  rw [leave, turns_pop]
  apply forall_turns_modify ordered
  apply (ordered turn).of_eq <;> rfl

/-- Every step keeps the queues in order. -/
theorem Step.ordered (hstep : Step s event s') (ordered : ∀ t, (s.turns t).Ordered) (t : ℕ) :
  (s'.turns t).Ordered
  := by
  cases hstep with
  | establish => apply ordered
  | @endExtent turn =>
    rw [Scheduler.endExtent]
    split
    · apply forall_turns_modify
      · exact ordered
      · apply (ordered turn).of_eq <;> rfl
    · apply ordered_drain
      exact ordered
  | abandon => apply ordered
  | drain => apply ordered_drain ordered
  | @enqueue turn subscribers =>
    rw [(enqueue_spec s turn subscribers).1]
    apply forall_turns_modify ordered
    apply (ordered turn).enqueue
  | lower => apply ordered
  | scrub =>
    apply forall_turns_modify ordered
    apply (ordered _).scrub
  | @microtask turn =>
    apply ordered_drain
    apply forall_turns_modify
    · exact ordered
    · apply (ordered turn).of_eq <;> rfl
  | move => apply ordered
  | derivations =>
    apply forall_turns_modify ordered
    apply (ordered _).takeDerivations
  | wave =>
    apply forall_turns_modify ordered
    apply (ordered _).takeWave
  | @finished drain =>
    rw [finish]
    split
    · apply forall_turns_modify (ordered_leave ordered drain.turn)
      apply (ordered_leave ordered drain.turn drain.turn).of_eq <;> rfl
    · apply ordered_leave ordered
  | threw => apply ordered_leave ordered

/-- In every state that a run reaches the queues are in order and their tables exact. -/
theorem queues_ordered (run : Run trace s) (turn : ℕ) :
  (s.turns turn).Ordered
  := by
  have all : ∀ t, (s.turns t).Ordered := by
    apply Machine.Run.invariant (P := fun s => ∀ t, (s.turns t).Ordered) _ _ run
    · rintro s rfl t
      apply Turn.Ordered.new
    · intro s event s' ordered hstep t
      apply hstep.ordered ordered
  exact all turn

/-- Two effects that are enqueued out of order are queued in order. -/
theorem queues_ordered_two :
  ∃ trace s, Run trace s ∧ (s.turns 0).Ordered ∧ (s.turns 0).pending.map Subscriber.id = [1, 2]
  := by
  have run₀ : Run [] init := Machine.Run.start rfl
  have run₁ := Machine.Run.step run₀ (Step.establish (by simp [codeRuns, init]))
  have run₂ := Machine.Run.step run₁ (@Step.enqueue _ 0 [⟨2, 0, false⟩, ⟨1, 1, false⟩]
    (by simp [codeRuns, init]) (by decide))
  exact ⟨_, _, run₂, queues_ordered run₂ 0, rfl⟩

end Scheduler

end Vilan
