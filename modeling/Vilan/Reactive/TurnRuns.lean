import Vilan.Reactive.Turn

/-!
# Runs of the scheduler

What holds of the queues, of the stack of drains and of the extents in every state that a run
of the scheduler reaches.
-/

namespace Vilan

open List

namespace Turn

/-! ### The queues -/

/-- The queues of a turn hold subscribers of their class, and their tables hold no id that is
not queued. -/
structure Sound (turn : Turn) : Prop where
  pending : ∀ subscriber ∈ turn.pending, subscriber.derived = false
  pendingDerived : ∀ subscriber ∈ turn.pendingDerived, subscriber.derived = true
  queued : ∀ id ∈ turn.queued, ∃ subscriber ∈ turn.pending, subscriber.id = id
  queuedDerived :
    ∀ id ∈ turn.queuedDerived, ∃ subscriber ∈ turn.pendingDerived, subscriber.id = id

theorem scan_le (pending : List Subscriber) (id : ℤ) (index : ℕ) :
  scan pending id index ≤ index
  := by
  induction index with
  | zero => apply Nat.le_refl
  | succ index ih =>
    rw [scan]
    split
    · split
      · omega
      · apply Nat.le_refl
    · apply Nat.le_refl

theorem mem_insertIdx_scan {pending : List Subscriber} {new subscriber : Subscriber} :
  subscriber ∈ pending.insertIdx (scan pending new.id pending.length) new
    ↔ subscriber = new ∨ subscriber ∈ pending
  := mem_insertIdx (scan_le _ _ _)

theorem Sound.new : Turn.new.Sound := by
  constructor <;> simp [Turn.new]

theorem Sound.enqueueOne {turn : Turn} (sound : turn.Sound) (subscriber : Subscriber) :
  (turn.enqueueOne subscriber).Sound
  := by
  unfold Turn.enqueueOne
  split
  next hderived =>
    split
    · apply sound
    · constructor
      · apply sound.pending
      · intro other hother
        rw [mem_append, mem_singleton] at hother
        obtain hother | rfl := hother
        · apply sound.pendingDerived _ hother
        · apply hderived
      · apply sound.queued
      · intro id hid
        obtain rfl | hid := List.mem_cons.1 hid
        · use subscriber
          simp
        · obtain ⟨other, hother, rfl⟩ := sound.queuedDerived id hid
          use other
          simp [hother]
  next hderived =>
    split
    · apply sound
    · constructor
      · intro other hother
        obtain rfl | hother := mem_insertIdx_scan.1 hother
        · simpa using hderived
        · apply sound.pending _ hother
      · apply sound.pendingDerived
      · intro id hid
        obtain rfl | hid := List.mem_cons.1 hid
        · use subscriber
          simp [mem_insertIdx_scan]
        · obtain ⟨other, hother, rfl⟩ := sound.queued id hid
          use other
          simp [mem_insertIdx_scan, hother]
      · apply sound.queuedDerived

theorem Sound.enqueueAll {turn : Turn} (sound : turn.Sound) (subscribers : List Subscriber) :
  (turn.enqueueAll subscribers).Sound
  := by
  induction subscribers generalizing turn with
  | nil => apply sound
  | cons subscriber subscribers ih => apply ih (sound.enqueueOne subscriber)

/-- Nothing but the queues and their tables matter to soundness. -/
theorem Sound.of_eq {turn next : Turn} (sound : turn.Sound)
    (hpending : next.pending = turn.pending)
    (hpendingDerived : next.pendingDerived = turn.pendingDerived)
    (hqueued : next.queued = turn.queued)
    (hqueuedDerived : next.queuedDerived = turn.queuedDerived) :
  next.Sound
  := by
  constructor
  · rw [hpending]
    apply sound.pending
  · rw [hpendingDerived]
    apply sound.pendingDerived
  · rw [hqueued, hpending]
    apply sound.queued
  · rw [hqueuedDerived, hpendingDerived]
    apply sound.queuedDerived

theorem Sound.enqueue {turn : Turn} (sound : turn.Sound) (subscribers : List Subscriber) :
  (turn.enqueue subscribers).Sound
  := by
  unfold Turn.enqueue schedule
  split
  · apply Sound.of_eq (sound.enqueueAll subscribers) <;> rfl
  · apply sound.enqueueAll

theorem Sound.scrub {turn : Turn} (sound : turn.Sound) (id : ℤ) :
  (turn.scrub id).Sound
  := by
  constructor
  · intro subscriber hsubscriber
    apply sound.pending _ (mem_of_mem_filter hsubscriber)
  · intro subscriber hsubscriber
    apply sound.pendingDerived _ (mem_of_mem_filter hsubscriber)
  · intro other hother
    simp only [Turn.scrub, mem_filter, decide_eq_true_eq] at hother ⊢
    obtain ⟨subscriber, hsubscriber, rfl⟩ := sound.queued _ hother.1
    use subscriber
    simp [hsubscriber, hother.2]
  · intro other hother
    simp only [Turn.scrub, mem_filter, decide_eq_true_eq] at hother ⊢
    obtain ⟨subscriber, hsubscriber, rfl⟩ := sound.queuedDerived _ hother.1
    use subscriber
    simp [hsubscriber, hother.2]

theorem Sound.takeDerivations {turn : Turn} (sound : turn.Sound) :
  turn.takeDerivations.Sound
  := by
  constructor
  · apply sound.pending
  · simp [Turn.takeDerivations]
  · apply sound.queued
  · simp [Turn.takeDerivations]

theorem Sound.takeWave {turn : Turn} (sound : turn.Sound) :
  turn.takeWave.Sound
  := by
  constructor
  · simp [Turn.takeWave]
  · apply sound.pendingDerived
  · simp [Turn.takeWave]
  · apply sound.queuedDerived

/-! ### What the operations leave alone -/

theorem flags_enqueueOne (turn : Turn) (subscriber : Subscriber) :
  (turn.enqueueOne subscriber).draining = turn.draining
    ∧ (turn.enqueueOne subscriber).settled = turn.settled
    ∧ (turn.enqueueOne subscriber).scheduled = turn.scheduled
  := by
  unfold enqueueOne
  split <;> split <;> simp

theorem flags_enqueueAll (turn : Turn) (subscribers : List Subscriber) :
  (turn.enqueueAll subscribers).draining = turn.draining
    ∧ (turn.enqueueAll subscribers).settled = turn.settled
    ∧ (turn.enqueueAll subscribers).scheduled = turn.scheduled
  := by
  induction subscribers generalizing turn with
  | nil => simp [enqueueAll]
  | cons subscriber subscribers ih =>
    obtain ⟨hdraining, hsettled, hscheduled⟩ := flags_enqueueOne turn subscriber
    obtain ⟨hdraining', hsettled', hscheduled'⟩ := ih (turn.enqueueOne subscriber)
    exact ⟨hdraining'.trans hdraining, hsettled'.trans hsettled,
      hscheduled'.trans hscheduled⟩

theorem draining_enqueue (turn : Turn) (subscribers : List Subscriber) :
  (turn.enqueue subscribers).draining = turn.draining
  := by
  unfold enqueue schedule
  split
  · apply (flags_enqueueAll turn subscribers).1
  · apply (flags_enqueueAll turn subscribers).1

theorem settled_enqueue (turn : Turn) (subscribers : List Subscriber) :
  (turn.enqueue subscribers).settled = turn.settled
  := by
  unfold enqueue schedule
  split
  · apply (flags_enqueueAll turn subscribers).2.1
  · apply (flags_enqueueAll turn subscribers).2.1

theorem pendingDerived_enqueue (turn : Turn) (subscribers : List Subscriber) :
  (turn.enqueue subscribers).pendingDerived = (turn.enqueueAll subscribers).pendingDerived
  := by
  unfold enqueue schedule
  split <;> rfl

theorem pending_enqueue (turn : Turn) (subscribers : List Subscriber) :
  (turn.enqueue subscribers).pending = (turn.enqueueAll subscribers).pending
  := by
  unfold enqueue schedule
  split <;> rfl

/-- A derivation that is queued after an enqueue was queued before or is one enqueued. -/
theorem mem_pendingDerived_enqueueAll {turn : Turn} {subscribers : List Subscriber}
    {subscriber : Subscriber}
    (h : subscriber ∈ (turn.enqueueAll subscribers).pendingDerived) :
  subscriber ∈ turn.pendingDerived ∨ subscriber ∈ subscribers
  := by
  induction subscribers generalizing turn with
  | nil =>
    left
    apply h
  | cons first subscribers ih =>
    obtain hqueued | hlater := @ih (turn.enqueueOne first) h
    · unfold enqueueOne at hqueued
      split at hqueued <;> split at hqueued
      · left
        apply hqueued
      · rw [mem_append, mem_singleton] at hqueued
        obtain hqueued | rfl := hqueued
        · left
          apply hqueued
        · right
          apply mem_cons_self
      · left
        apply hqueued
      · left
        apply hqueued
    · right
      apply mem_cons_of_mem _ hlater

/-! ### What an enqueue leaves to run -/

theorem isQuiescent_iff {turn : Turn} :
  turn.isQuiescent = true ↔ turn.pending = [] ∧ turn.pendingDerived = []
  := by
  simp [isQuiescent]

/-- A round of `enqueue` leaves the turn with something to run. -/
theorem Sound.not_isQuiescent_enqueueOne {turn : Turn} (sound : turn.Sound)
    (subscriber : Subscriber) :
  (turn.enqueueOne subscriber).isQuiescent = false
  := by
  rw [← Bool.not_eq_true, isQuiescent_iff]
  unfold Turn.enqueueOne
  split
  · split
    next hqueued =>
      obtain ⟨other, hother, -⟩ := sound.queuedDerived _ hqueued
      rintro ⟨-, hempty⟩
      simp [hempty] at hother
    · simp
  · split
    next hqueued =>
      obtain ⟨other, hother, -⟩ := sound.queued _ hqueued
      rintro ⟨hempty, -⟩
      simp [hempty] at hother
    · rintro ⟨hempty, -⟩
      have hmem := @mem_insertIdx_scan turn.pending subscriber subscriber
      dsimp only at hempty
      rw [hempty] at hmem
      simp at hmem

/-- An enqueue of some subscriber leaves the turn with something to run. -/
theorem Sound.not_isQuiescent_enqueue {turn : Turn} (sound : turn.Sound)
    {subscribers : List Subscriber} (h : subscribers ≠ []) :
  (turn.enqueue subscribers).isQuiescent = false
  := by
  have hall : (turn.enqueueAll subscribers).isQuiescent = false := by
    obtain ⟨before, last, rfl⟩ := eq_nil_or_concat subscribers |>.resolve_left h
    rw [concat_eq_append, Turn.enqueueAll, foldl_append, foldl_cons, foldl_nil]
    apply (sound.enqueueAll before).not_isQuiescent_enqueueOne
  rw [isQuiescent, pending_enqueue, pendingDerived_enqueue]
  apply hall

end Turn

namespace Scheduler

/-- An enqueue changes one turn and perhaps the microtasks. -/
theorem enqueue_spec (s : Scheduler) (turn : ℕ) (subscribers : List Subscriber) :
  (s.enqueue turn subscribers).turns = (s.modify turn (fun t => t.enqueue subscribers)).turns
    ∧ (s.enqueue turn subscribers).minted = s.minted
    ∧ (s.enqueue turn subscribers).extents = s.extents
    ∧ (s.enqueue turn subscribers).drains = s.drains
    ∧ (∀ t ∈ (s.enqueue turn subscribers).microtasks,
        t ∈ s.microtasks ∨ t = turn ∧ (s.turns turn).settled = true)
  := by
  unfold enqueue
  split
  next hlate =>
    refine ⟨rfl, rfl, rfl, rfl, ?_⟩
    intro t ht
    rw [queueMicrotask, mem_append, mem_singleton] at ht
    obtain ht | rfl := ht
    · left
      apply ht
    · right
      have hsettled := (Turn.flags_enqueueAll (s.turns t) subscribers).2.1
      simp only [Turn.late, Bool.and_eq_true] at hlate
      exact ⟨rfl, hsettled ▸ hlate.1.1⟩
  · refine ⟨rfl, rfl, rfl, rfl, ?_⟩
    intro t ht
    left
    apply ht

/-! ### The queues -/

/-- The list a drain walks in a phase is of one class. -/
def Phase.Sound : Phase → Prop
  | .loop => True
  | .derive => True
  | .derivations rest => ∀ subscriber ∈ rest, subscriber.derived = true
  | .effects rest => ∀ subscriber ∈ rest, subscriber.derived = false

/-- Whether a drain stands at a subscriber of a list. -/
def Phase.AtSubscriber : Phase → Prop
  | .loop => False
  | .derive => False
  | .derivations rest => rest ≠ []
  | .effects rest => rest ≠ []

/-- A drain walks a list of one class, and it notifies the subscriber it stands at. -/
structure Drain.Sound (drain : Drain) : Prop where
  walk : Phase.Sound drain.phase
  notifying : drain.notifying = true → Phase.AtSubscriber drain.phase

/-- The queues of all turns are sound, and so are all drains. -/
structure Queued (s : Scheduler) : Prop where
  turns : ∀ t, (s.turns t).Sound
  walks : ∀ drain ∈ s.drains, Drain.Sound drain

/-- A drain that stands at no subscriber is not notifying. -/
theorem Drain.Sound.idle {drain : Drain} (sound : Drain.Sound drain)
    (h : ¬ Phase.AtSubscriber drain.phase) :
  drain.notifying = false
  := by
  rw [← Bool.not_eq_true]
  intro hnotifying
  apply h (sound.notifying hnotifying)

variable {event : Event} {live : ℕ → Bool} {next : Drain} {f : Turn → Turn} {s s' : Scheduler}
  {trace : List Event} {outer : List Drain}

theorem Move.sound {turn : Turn} {drain : Drain} (hmove : Move turn live drain event next)
    (sound : Drain.Sound drain) :
  Drain.Sound next
  := by
  obtain ⟨walk, hnotifying⟩ := sound
  cases hmove with
  | enter hphase =>
    rw [hphase] at hnotifying
    exact ⟨trivial, hnotifying⟩
  | endDerivations hphase =>
    rw [hphase] at hnotifying
    exact ⟨trivial, fun h => hnotifying h rfl⟩
  | endEffects hphase =>
    rw [hphase] at hnotifying
    exact ⟨trivial, fun h => hnotifying h rfl⟩
  | notifyDerivation hphase =>
    use walk
    simp [hphase, Phase.AtSubscriber]
  | notifyEffect hphase =>
    use walk
    simp [hphase, Phase.AtSubscriber]
  | skipDerivation hphase hidle =>
    rw [hphase] at walk
    use (List.forall_mem_cons.1 walk).2
    simp [hidle]
  | skipEffect hphase hidle =>
    rw [hphase] at walk
    use (List.forall_mem_cons.1 walk).2
    simp [hidle]
  | notifiedDerivation hphase =>
    rw [hphase] at walk
    use (List.forall_mem_cons.1 walk).2
    simp
  | notifiedEffect hphase =>
    rw [hphase] at walk
    use (List.forall_mem_cons.1 walk).2
    simp

section

variable (queued : s.Queued)
include queued

theorem Queued.modify {turn : ℕ} (hf : (f (s.turns turn)).Sound) :
  (s.modify turn f).Queued
  := by
  constructor
  · apply forall_turns_modify queued.turns hf
  · apply queued.walks

theorem Queued.push {drain : Drain} (sound : Drain.Sound drain) :
  (s.push drain).Queued
  := by
  constructor
  · apply queued.turns
  · intro other hother
    obtain rfl | hother := List.mem_cons.1 hother
    · apply sound
    · apply queued.walks _ hother

theorem Queued.pop :
  s.pop.Queued
  := by
  constructor
  · apply queued.turns
  · intro drain hdrain
    apply queued.walks _ (mem_of_mem_tail hdrain)

theorem Queued.drain (turn : ℕ) (settles : Bool) :
  (s.drain turn settles).Queued
  := by
  unfold Scheduler.drain
  split
  · apply queued
  · apply Queued.push
    · apply queued.modify
      apply Turn.Sound.of_eq (queued.turns turn) <;> rfl
    · constructor
      · trivial
      · simp [Drain.start]

theorem Queued.leave (turn : ℕ) :
  (s.leave turn).Queued
  := by
  apply Queued.pop
  apply queued.modify
  apply Turn.Sound.of_eq (queued.turns turn) <;> rfl

theorem Queued.become {drain : Drain} (sound : Drain.Sound drain) :
  (s.become drain).Queued
  := by
  apply queued.pop.push sound

/-- Every step keeps the queues sound. -/
theorem Queued.step (hstep : Step s event s') :
  s'.Queued
  := by
  cases hstep with
  | establish => exact ⟨queued.turns, queued.walks⟩
  | @endExtent turn =>
    have closed : (s.close turn).Queued := ⟨queued.turns, queued.walks⟩
    unfold Scheduler.endExtent
    split
    · apply closed.modify
      apply Turn.Sound.of_eq (queued.turns turn) <;> rfl
    · apply closed.drain
  | abandon => exact ⟨queued.turns, queued.walks⟩
  | drain => apply queued.drain
  | @enqueue turn subscribers =>
    obtain ⟨hturns, -, -, hdrains, -⟩ := enqueue_spec s turn subscribers
    constructor
    · rw [hturns]
      apply forall_turns_modify queued.turns
      apply (queued.turns turn).enqueue
    · rw [hdrains]
      apply queued.walks
  | lower => exact ⟨queued.turns, queued.walks⟩
  | scrub =>
    apply queued.modify
    apply (queued.turns _).scrub
  | @microtask turn later =>
    have taken : Queued { s with microtasks := later } := ⟨queued.turns, queued.walks⟩
    apply Queued.drain
    apply taken.modify
    apply Turn.Sound.of_eq (queued.turns turn) <;> rfl
  | @move _ drain next outer htop hmove =>
    apply queued.become
    apply hmove.sound
    apply queued.walks
    simp [htop]
  | @derivations drain outer htop hphase =>
    have hidle := (queued.walks drain (by simp [htop])).idle (by simp [hphase, Phase.AtSubscriber])
    apply Queued.modify
    · apply queued.become
      use (queued.turns drain.turn).pendingDerived
      simp [hidle]
    · apply (queued.turns drain.turn).takeDerivations
  | @wave drain outer htop hphase =>
    have hidle := (queued.walks drain (by simp [htop])).idle (by simp [hphase, Phase.AtSubscriber])
    apply Queued.modify
    · apply queued.become
      use (queued.turns drain.turn).pending
      simp [hidle]
    · apply (queued.turns drain.turn).takeWave
  | @finished drain =>
    unfold finish
    split
    · apply (queued.leave drain.turn).modify
      apply Turn.Sound.of_eq ((queued.leave drain.turn).turns drain.turn) <;> rfl
    · apply queued.leave
  | @threw drain => apply queued.leave

end

theorem Run.queued (run : Run trace s) :
  s.Queued
  := by
  apply Machine.Run.invariant (P := Queued) _ _ run
  · rintro s rfl
    constructor
    · intro t
      apply Turn.Sound.new
    · intro drain hdrain
      cases hdrain
  · intro s event s' queued hstep
    apply queued.step hstep

/-! ### The stack of drains -/

/-- The turns of the drains under way, innermost first. -/
def drainTurns (s : Scheduler) : List ℕ :=
  s.drains.map Drain.turn

/-- A turn is draining exactly when a drain of it is under way, there is at most one, and all
drains but the innermost are in the middle of a notification. -/
structure Stacked (s : Scheduler) : Prop where
  nodup : s.drainTurns.Nodup
  draining : ∀ t, (s.turns t).draining = true ↔ t ∈ s.drainTurns
  outer : ∀ drain ∈ s.drains.tail, drain.notifying = true

section

variable (stacked : s.Stacked)
include stacked

/-- A step that leaves the stack and the flags alone. -/
theorem Stacked.of_eq
    (hturns : ∀ t, (s'.turns t).draining = (s.turns t).draining) (hdrains : s'.drains = s.drains) :
  s'.Stacked
  := by
  constructor
  · rw [drainTurns, hdrains]
    apply stacked.nodup
  · intro t
    rw [drainTurns, hturns, hdrains]
    apply stacked.draining
  · rw [hdrains]
    apply stacked.outer

theorem Stacked.modify {turn : ℕ}
    (hf : (f (s.turns turn)).draining = (s.turns turn).draining) :
  (s.modify turn f).Stacked
  := by
  apply stacked.of_eq
  · apply turns_modify_eq (g := Turn.draining) hf
  · rfl

theorem Stacked.drain (hcode : s.codeRuns) (turn : ℕ) (settles : Bool) :
  (s.drain turn settles).Stacked
  := by
  unfold Scheduler.drain
  split
  · apply stacked
  next hidle =>
    have hnew : turn ∉ s.drainTurns := by
      rw [← stacked.draining]
      apply hidle
    constructor
    · apply List.nodup_cons.2 ⟨hnew, stacked.nodup⟩
    · intro t
      change _ ↔ t ∈ turn :: s.drainTurns
      rw [turns_push, mem_cons, ← stacked.draining]
      by_cases heq : t = turn
      · subst heq
        simp
      · rw [turns_modify_of_ne s _ heq]
        simp [heq]
    · intro drain hdrain
      change drain ∈ s.drains at hdrain
      unfold codeRuns at hcode
      rcases hlist : s.drains with _ | ⟨first, rest⟩
      · simp [hlist] at hdrain
      · have houter := stacked.outer
        rw [hlist] at hdrain hcode houter
        obtain rfl | hdrain := List.mem_cons.1 hdrain
        · apply hcode _ rfl
        · apply houter _ hdrain

theorem Stacked.leave {drain : Drain} (htop : s.drains = drain :: outer) :
  (s.leave drain.turn).Stacked
  := by
  have hnodup := stacked.nodup
  rw [drainTurns, htop, map_cons, nodup_cons] at hnodup
  constructor
  · rw [Scheduler.leave, drainTurns, drains_pop, drains_modify, htop]
    apply hnodup.2
  · intro t
    rw [Scheduler.leave, drainTurns, drains_pop, drains_modify, htop, tail_cons, turns_pop]
    by_cases heq : t = drain.turn
    · subst heq
      rw [turns_modify_self]
      simp [hnodup.1]
    · rw [turns_modify_of_ne s _ heq, stacked.draining, drainTurns, htop, map_cons, mem_cons]
      simp [heq]
  · intro other hother
    apply stacked.outer
    rw [Scheduler.leave, drains_pop, drains_modify] at hother
    apply mem_of_mem_tail hother

theorem Stacked.become {drain : Drain} (htop : s.drains = drain :: outer)
    (hturn : next.turn = drain.turn) :
  (s.become next).Stacked
  := by
  have hturns : (s.become next).drainTurns = s.drainTurns := by
    simp [drainTurns, Scheduler.become, htop, hturn]
  constructor
  · rw [hturns]
    apply stacked.nodup
  · intro t
    rw [hturns]
    apply stacked.draining
  · apply stacked.outer

end

theorem Move.turn {turn : Turn} {drain : Drain} (hmove : Move turn live drain event next) :
  next.turn = drain.turn
  := by
  cases hmove <;> rfl

/-- Every step keeps the stack of drains in order. -/
theorem Stacked.step (stacked : s.Stacked) (hstep : Step s event s') :
  s'.Stacked
  := by
  cases hstep with
  | establish => exact stacked.of_eq (fun _ => rfl) rfl
  | @endExtent turn hcode =>
    have closed : (s.close turn).Stacked := stacked.of_eq (fun _ => rfl) rfl
    unfold Scheduler.endExtent
    split
    · apply closed.modify
      rfl
    · apply closed.drain hcode
  | abandon => exact stacked.of_eq (fun _ => rfl) rfl
  | drain hcode => apply stacked.drain hcode
  | @enqueue turn subscribers =>
    obtain ⟨hturns, -, -, hdrains, -⟩ := enqueue_spec s turn subscribers
    apply stacked.of_eq _ hdrains
    rw [hturns]
    apply turns_modify_eq (g := Turn.draining)
    apply Turn.draining_enqueue
  | lower => exact stacked.of_eq (fun _ => rfl) rfl
  | scrub =>
    apply stacked.modify
    rfl
  | @microtask turn later hidle =>
    apply Stacked.drain
    · apply stacked.of_eq
      · apply turns_modify_eq (g := Turn.draining)
        rfl
      · rfl
    · intro drain hdrain
      simp [hidle] at hdrain
  | move htop hmove => apply stacked.become htop hmove.turn
  | derivations htop =>
    apply Stacked.modify
    · exact stacked.become htop rfl
    · rfl
  | wave htop =>
    apply Stacked.modify
    · exact stacked.become htop rfl
    · rfl
  | finished htop =>
    unfold finish
    split
    · apply (stacked.leave htop).modify
      rfl
    · apply stacked.leave htop
  | threw htop => apply stacked.leave htop

theorem Run.stacked (run : Run trace s) :
  s.Stacked
  := by
  apply Machine.Run.invariant (P := Stacked) _ _ run
  · rintro s rfl
    constructor
    · apply nodup_nil
    · intro t
      simp [init, Turn.new, drainTurns]
    · intro drain hdrain
      cases hdrain
  · intro s event s' stacked hstep
    apply stacked.step hstep

/-! ### Extents -/

/-- Only turns that were made are used, a microtask is scheduled for settled turns only, and a
turn settles when its extent ends: not while it is open, nor while the drain that ends it is
under way. -/
structure Ended (s : Scheduler) : Prop where
  minted : ∀ t ∈ s.extents, t < s.minted
  drains : ∀ t ∈ s.drainTurns, t < s.minted
  fresh : ∀ t, s.minted ≤ t → (s.turns t).settled = false
  microtasks : ∀ t ∈ s.microtasks, (s.turns t).settled = true
  extents : ∀ t ∈ s.extents, (s.turns t).settled = false
  settling : ∀ drain ∈ s.drains, drain.settles = true →
    (s.turns drain.turn).settled = false ∧ drain.turn ∉ s.extents

section

variable (ended : s.Ended)
include ended

/-- A change of a turn that does not settle it. -/
theorem Ended.modify {turn : ℕ}
    (hf : (f (s.turns turn)).settled = (s.turns turn).settled) :
  (s.modify turn f).Ended
  := by
  have hsettled := turns_modify_eq (g := Turn.settled) hf
  constructor
  · apply ended.minted
  · apply ended.drains
  · intro t ht
    rw [hsettled]
    apply ended.fresh t ht
  · intro t ht
    rw [hsettled]
    apply ended.microtasks t ht
  · intro t ht
    rw [hsettled]
    apply ended.extents t ht
  · intro drain hdrain
    rw [hsettled]
    apply ended.settling drain hdrain

theorem Ended.push {drain : Drain} (hminted : drain.turn < s.minted)
    (hsettles : drain.settles = true →
      (s.turns drain.turn).settled = false ∧ drain.turn ∉ s.extents) :
  (s.push drain).Ended
  := by
  constructor
  · apply ended.minted
  · intro t ht
    obtain rfl | ht := List.mem_cons.1 ht
    · apply hminted
    · apply ended.drains t ht
  · apply ended.fresh
  · apply ended.microtasks
  · apply ended.extents
  · intro other hother
    obtain rfl | hother := List.mem_cons.1 hother
    · apply hsettles
    · apply ended.settling other hother

theorem Ended.pop :
  s.pop.Ended
  := by
  constructor
  · apply ended.minted
  · intro t ht
    apply ended.drains
    rw [drainTurns, drains_pop, map_tail] at ht
    apply mem_of_mem_tail ht
  · apply ended.fresh
  · apply ended.microtasks
  · apply ended.extents
  · intro drain hdrain
    apply ended.settling drain (mem_of_mem_tail hdrain)

theorem Ended.drain {turn : ℕ} {settles : Bool} (hminted : turn < s.minted)
    (hsettles : settles = true → (s.turns turn).settled = false ∧ turn ∉ s.extents) :
  (s.drain turn settles).Ended
  := by
  unfold Scheduler.drain
  split
  · apply ended
  · apply Ended.push
    · apply ended.modify
      rfl
    · apply hminted
    · simp only [Drain.start, turns_modify_self, extents_modify]
      apply hsettles

theorem Ended.close (turn : ℕ) :
  (s.close turn).Ended
  := by
  constructor
  · intro t ht
    apply ended.minted t (mem_extents_close.1 ht).1
  · apply ended.drains
  · apply ended.fresh
  · apply ended.microtasks
  · intro t ht
    apply ended.extents t (mem_extents_close.1 ht).1
  · intro drain hdrain hsettles
    obtain ⟨hsettled, hclosed⟩ := ended.settling drain hdrain hsettles
    use hsettled
    intro hopen
    apply hclosed (mem_extents_close.1 hopen).1

/-- A turn whose extent is closed, with no drain to end it, settles. -/
theorem Ended.settle {turn : ℕ} (hminted : turn < s.minted)
    (hclosed : turn ∉ s.extents) (hdrains : ∀ drain ∈ s.drains, drain.settles = true →
      drain.turn ≠ turn) :
  (s.modify turn (fun turn => { turn with settled := true })).Ended
  := by
  have hother : ∀ t, t ≠ turn →
      ((s.modify turn (fun turn => { turn with settled := true })).turns t).settled
        = (s.turns t).settled := by
    intro t ht
    rw [turns_modify_of_ne s _ ht]
  constructor
  · apply ended.minted
  · apply ended.drains
  · intro t ht
    rw [minted_modify] at ht
    rw [hother t (by omega)]
    apply ended.fresh t ht
  · intro t ht
    by_cases heq : t = turn
    · subst heq
      simp
    · rw [hother t heq]
      apply ended.microtasks t ht
  · intro t ht
    rw [hother t (fun heq => hclosed (heq ▸ ht))]
    apply ended.extents t ht
  · intro drain hdrain hsettles
    rw [hother _ (hdrains drain hdrain hsettles)]
    apply ended.settling drain hdrain hsettles

theorem Ended.become {drain : Drain} (htop : s.drains = drain :: outer)
    (hturn : next.turn = drain.turn) (hsettles : next.settles = drain.settles) :
  (s.become next).Ended
  := by
  have hdrain : drain ∈ s.drains := by
    rw [htop]
    apply mem_cons_self
  apply ended.pop.push
  · rw [hturn]
    apply ended.drains
    apply List.mem_map_of_mem hdrain
  · rw [hturn, hsettles]
    apply ended.settling drain hdrain

end

theorem Move.settles {turn : Turn} {drain : Drain} (hmove : Move turn live drain event next) :
  next.settles = drain.settles
  := by
  cases hmove <;> rfl

/-- The other drains under way are of other turns. -/
theorem Stacked.turn_ne (stacked : s.Stacked) {drain other : Drain}
    (htop : s.drains = drain :: outer) (hother : other ∈ outer) :
  other.turn ≠ drain.turn
  := by
  have hnodup := stacked.nodup
  rw [drainTurns, htop, map_cons, nodup_cons] at hnodup
  intro heq
  apply hnodup.1
  rw [← heq]
  apply List.mem_map_of_mem hother

/-- Every step keeps the extents in order. -/
theorem Ended.step (ended : s.Ended) (stacked : s.Stacked) (hstep : Step s event s') :
  s'.Ended
  := by
  cases hstep with
  | establish =>
    constructor
    · intro t ht
      obtain rfl | ht := List.mem_cons.1 ht
      · apply Nat.lt_succ_self
      · apply Nat.lt_succ_of_lt (ended.minted t ht)
    · intro t ht
      apply Nat.lt_succ_of_lt (ended.drains t ht)
    · intro t ht
      apply ended.fresh t (Nat.le_of_succ_le ht)
    · apply ended.microtasks
    · intro t ht
      obtain rfl | ht := List.mem_cons.1 ht
      · apply ended.fresh
        apply Nat.le_refl
      · apply ended.extents t ht
    · intro drain hdrain hsettles
      obtain ⟨hsettled, hclosed⟩ := ended.settling drain hdrain hsettles
      use hsettled
      intro hopen
      obtain heq | hopen := List.mem_cons.1 hopen
      · have hlt := ended.drains drain.turn (List.mem_map_of_mem hdrain)
        omega
      · apply hclosed hopen
  | @endExtent turn hcode hopen =>
    have hclosed : turn ∉ (s.close turn).extents := by simp
    unfold Scheduler.endExtent
    split
    · apply (ended.close turn).settle (ended.minted turn hopen) hclosed
      intro drain hdrain hsettles
      rintro rfl
      apply (ended.settling drain hdrain hsettles).2 hopen
    · apply (ended.close turn).drain (ended.minted turn hopen)
      intro _
      exact ⟨ended.extents turn hopen, hclosed⟩
  | abandon => apply ended.close
  | drain hcode hturn =>
    apply ended.drain hturn
    simp
  | @enqueue turn subscribers hcode hturn =>
    obtain ⟨hturns, hminted, hextents, hdrains, hmicrotasks⟩ :=
      enqueue_spec s turn subscribers
    have hsettled : ∀ t, ((s.enqueue turn subscribers).turns t).settled
        = (s.turns t).settled := by
      rw [hturns]
      apply turns_modify_eq (g := Turn.settled)
      apply Turn.settled_enqueue
    constructor
    · rw [hextents, hminted]
      apply ended.minted
    · rw [drainTurns, hdrains, hminted]
      apply ended.drains
    · intro t ht
      rw [hminted] at ht
      rw [hsettled]
      apply ended.fresh t ht
    · intro t ht
      rw [hsettled]
      obtain ht | ⟨rfl, ht⟩ := hmicrotasks t ht
      · apply ended.microtasks t ht
      · apply ht
    · intro t ht
      rw [hextents] at ht
      rw [hsettled]
      apply ended.extents t ht
    · intro drain hdrain
      rw [hdrains] at hdrain
      rw [hsettled, hextents]
      apply ended.settling drain hdrain
  | lower =>
    exact ⟨ended.minted, ended.drains, ended.fresh, ended.microtasks, ended.extents,
      ended.settling⟩
  | scrub =>
    apply ended.modify
    rfl
  | @microtask turn later hidle hqueue =>
    have hsettled : (s.turns turn).settled = true := by
      apply ended.microtasks
      simp [hqueue]
    have taken : Ended { s with microtasks := later } := by
      refine ⟨ended.minted, ended.drains, ended.fresh, ?_, ended.extents, ended.settling⟩
      intro t ht
      apply ended.microtasks
      rw [hqueue]
      apply mem_cons_of_mem _ ht
    apply Ended.drain
    · apply taken.modify
      rfl
    · rw [minted_modify]
      by_contra hfresh
      simp [ended.fresh turn (Nat.le_of_not_lt hfresh)] at hsettled
    · simp
  | move htop hmove => apply ended.become htop hmove.turn hmove.settles
  | derivations htop =>
    apply Ended.modify
    · exact ended.become htop rfl rfl
    · rfl
  | wave htop =>
    apply Ended.modify
    · exact ended.become htop rfl rfl
    · rfl
  | @finished drain outer htop =>
    have hmem : drain ∈ s.drains := by simp [htop]
    have left : (s.leave drain.turn).Ended := by
      apply Ended.pop
      apply ended.modify
      rfl
    unfold finish
    split
    next hsettles =>
      apply left.settle
      · apply ended.drains
        apply List.mem_map_of_mem hmem
      · apply (ended.settling drain hmem hsettles).2
      · intro other hother _
        apply stacked.turn_ne htop
        simpa [Scheduler.leave, htop] using hother
    · apply left
  | threw htop =>
    apply Ended.pop
    apply ended.modify
    rfl

theorem Run.ended (run : Run trace s) :
  s.Ended
  := by
  apply Machine.Run.history (P := fun _ => Ended) _ _ run
  · rintro s rfl
    constructor <;> simp [init, Turn.new, drainTurns]
  · intro trace s event s' run ended hstep
    apply ended.step (Run.stacked run) hstep

end Scheduler

end Vilan
