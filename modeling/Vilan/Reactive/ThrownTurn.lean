import Vilan.Reactive.Waves

/-!
# A turn whose drain was thrown out of

A late enqueue, made after the extent of its turn has ended, schedules a drain of its own when
the turn has settled.  The turn settles when the drain that ends its extent returns.  When a
subscriber throws out of that drain the turn never settles, and nothing schedules a drain for
what is enqueued later.
-/

namespace Vilan

open List

namespace Scheduler

/-- What is queued in the turn is run: a drain of the turn is under way or scheduled, or
nothing is queued. -/
def Served (s : Scheduler) (turn : ℕ) : Prop :=
  turn ∈ s.drainTurns ∨ turn ∈ s.microtasks ∨ (s.turns turn).isQuiescent = true

/-- The step leaves nothing behind in the turn: subscribers are enqueued into it only while a
drain of it is under way, and a drain of it leaves, by its end or by a throw, with its queues
empty. -/
def Clears (turn : ℕ) (s : Scheduler) : Event → Prop
  | .enqueue other subscribers => other = turn → subscribers = [] ∨ turn ∈ s.drainTurns
  | .finished other => other = turn → (s.turns turn).isQuiescent = true
  | .threw other => other = turn → (s.turns turn).isQuiescent = true
  | _ => True

/-- The extent of the turn has ended without the turn settling. -/
structure Thrown (s : Scheduler) (turn : ℕ) : Prop where
  minted : turn < s.minted
  closed : turn ∉ s.extents
  unsettled : (s.turns turn).settled = false
  drains : ∀ drain ∈ s.drains, drain.turn = turn → drain.settles = false

variable {s s' : Scheduler} {turn : ℕ} {outer : List Drain} {event : Event}

theorem Thrown.drain {other : ℕ} {settles : Bool} (thrown : s.Thrown turn)
    (hsettles : settles = true → other ≠ turn) :
  (s.drain other settles).Thrown turn
  := by
  unfold Scheduler.drain
  split
  · apply thrown
  · constructor
    · apply thrown.minted
    · apply thrown.closed
    · rw [turns_push, turns_modify_eq (g := Turn.settled) rfl]
      apply thrown.unsettled
    · intro drain hdrain hturn
      obtain rfl | hdrain := List.mem_cons.1 hdrain
      · rw [← Bool.not_eq_true]
        intro h
        apply hsettles h hturn
      · apply thrown.drains drain hdrain hturn

theorem Thrown.modify {other : ℕ} {f : Turn → Turn} (thrown : s.Thrown turn)
    (hf : other = turn → (f (s.turns other)).settled = (s.turns other).settled) :
  (s.modify other f).Thrown turn
  := by
  constructor
  · apply thrown.minted
  · apply thrown.closed
  · by_cases heq : turn = other
    · subst heq
      rw [turns_modify_self, hf rfl]
      apply thrown.unsettled
    · rw [turns_modify_of_ne s _ heq]
      apply thrown.unsettled
  · apply thrown.drains

theorem Thrown.pop (thrown : s.Thrown turn) :
  s.pop.Thrown turn
  := by
  refine ⟨thrown.minted, thrown.closed, thrown.unsettled, ?_⟩
  intro drain hdrain
  apply thrown.drains drain (mem_of_mem_tail hdrain)

theorem Thrown.become (thrown : s.Thrown turn) {drain next : Drain}
    (htop : s.drains = drain :: outer) (hturn : next.turn = drain.turn)
    (hsettles : next.settles = drain.settles) :
  (s.become next).Thrown turn
  := by
  refine ⟨thrown.minted, thrown.closed, thrown.unsettled, ?_⟩
  intro other hother heq
  rw [Scheduler.become, drains_push, drains_pop] at hother
  obtain rfl | hother := List.mem_cons.1 hother
  · rw [hsettles]
    apply thrown.drains drain (by simp [htop])
    rw [← hturn, heq]
  · apply thrown.drains other (mem_of_mem_tail hother) heq

/-- Nothing settles a turn whose extent has ended. -/
theorem Thrown.step (thrown : s.Thrown turn) (hstep : Step s event s') :
  s'.Thrown turn
  := by
  cases hstep with
  | establish =>
    refine ⟨Nat.lt_succ_of_lt thrown.minted, ?_, thrown.unsettled, thrown.drains⟩
    intro hopen
    obtain heq | hopen := List.mem_cons.1 hopen
    · have hminted := thrown.minted
      omega
    · apply thrown.closed hopen
  | @endExtent other hcode hopen =>
    have hne : other ≠ turn := by
      rintro rfl
      apply thrown.closed hopen
    have closed : (s.close other).Thrown turn := by
      refine ⟨thrown.minted, ?_, thrown.unsettled, thrown.drains⟩
      simp [thrown.closed]
    unfold Scheduler.endExtent
    split
    · apply closed.modify
      intro heq
      exact (hne heq).elim
    · apply closed.drain
      intro _
      apply hne
  | abandon =>
    refine ⟨thrown.minted, ?_, thrown.unsettled, thrown.drains⟩
    simp [thrown.closed]
  | drain =>
    apply thrown.drain
    simp
  | @enqueue other subscribers =>
    obtain ⟨hturns, hminted, hextents, hdrains, -⟩ := enqueue_spec s other subscribers
    constructor
    · rw [hminted]
      apply thrown.minted
    · rw [hextents]
      apply thrown.closed
    · rw [hturns, turns_modify_eq (g := Turn.settled)]
      · apply thrown.unsettled
      · apply Turn.settled_enqueue
    · rw [hdrains]
      apply thrown.drains
  | lower => exact ⟨thrown.minted, thrown.closed, thrown.unsettled, thrown.drains⟩
  | scrub =>
    apply thrown.modify
    intro _
    rfl
  | @microtask other later =>
    have taken : Thrown { s with microtasks := later } turn :=
      ⟨thrown.minted, thrown.closed, thrown.unsettled, thrown.drains⟩
    apply Thrown.drain
    · apply taken.modify
      intro _
      rfl
    · simp
  | move htop hmove => apply thrown.become htop hmove.turn hmove.settles
  | derivations htop =>
    apply Thrown.modify
    · exact thrown.become htop rfl rfl
    · intro _
      rfl
  | wave htop =>
    apply Thrown.modify
    · exact thrown.become htop rfl rfl
    · intro _
      rfl
  | @finished drain outer htop =>
    have left : (s.leave drain.turn).Thrown turn := by
      apply Thrown.pop
      apply thrown.modify
      intro _
      rfl
    unfold finish
    split
    next hsettles =>
      apply left.modify
      intro heq
      rw [thrown.drains drain (by simp [htop]) heq] at hsettles
      cases hsettles
    · apply left
  | threw =>
    apply Thrown.pop
    apply thrown.modify
    intro _
    rfl

/-- A throw out of the drain that ends the extent of a turn leaves the turn unsettled. -/
theorem thrown_of_threw (ended : s.Ended) (stacked : s.Stacked) {drain : Drain}
    (htop : s.drains = drain :: outer) (hsettles : drain.settles = true) :
  (s.leave drain.turn).Thrown drain.turn
  := by
  have hmem : drain ∈ s.drains := by simp [htop]
  obtain ⟨hunsettled, hclosed⟩ := ended.settling drain hmem hsettles
  constructor
  · apply ended.drains
    apply List.mem_map_of_mem hmem
  · apply hclosed
  · rw [leave, turns_pop, turns_modify_eq (g := Turn.settled) rfl]
    apply hunsettled
  · intro other hother heq
    rw [leave, drains_pop, drains_modify, htop, tail_cons] at hother
    exact (stacked.turn_ne htop hother heq).elim

/-! ### What a step leaves behind -/

/-- A turn that never settles is served exactly while it drains or has nothing queued. -/
theorem served_iff (ended : s.Ended) (thrown : s.Thrown turn) :
  s.Served turn ↔ turn ∈ s.drainTurns ∨ (s.turns turn).isQuiescent = true
  := by
  have hnone : turn ∉ s.microtasks := by
    intro h
    have hsettled := ended.microtasks turn h
    rw [thrown.unsettled] at hsettled
    cases hsettled
  simp [Served, hnone]

theorem drainTurns_drain (stacked : s.Stacked) (turn : ℕ) (settles : Bool) (t : ℕ) :
  t ∈ (s.drain turn settles).drainTurns ↔ t = turn ∨ t ∈ s.drainTurns
  := by
  unfold Scheduler.drain
  split
  next hdraining =>
    rw [stacked.draining] at hdraining
    constructor
    · apply Or.inr
    · rintro (rfl | h)
      · apply hdraining
      · apply h
  · apply mem_cons

theorem isQuiescent_drain (s : Scheduler) (turn : ℕ) (settles : Bool) (t : ℕ) :
  ((s.drain turn settles).turns t).isQuiescent = (s.turns t).isQuiescent
  := by
  unfold Scheduler.drain
  split
  · rfl
  · rw [turns_push]
    apply turns_modify_eq (g := Turn.isQuiescent)
    rfl

theorem isQuiescent_leave (s : Scheduler) (turn t : ℕ) :
  ((s.leave turn).turns t).isQuiescent = (s.turns t).isQuiescent
  := by
  rw [leave, turns_pop]
  apply turns_modify_eq (g := Turn.isQuiescent)
  rfl

theorem isQuiescent_finish (s : Scheduler) (drain : Drain) (t : ℕ) :
  ((s.finish drain).turns t).isQuiescent = (s.turns t).isQuiescent
  := by
  rw [← isQuiescent_leave s drain.turn t]
  unfold finish
  split
  · apply turns_modify_eq (g := Turn.isQuiescent)
    rfl
  · rfl

theorem drainTurns_finish (s : Scheduler) (drain : Drain) :
  (s.finish drain).drainTurns = s.drainTurns.tail
  := by
  unfold finish drainTurns
  split <;> simp [leave]

theorem drainTurns_leave (s : Scheduler) (turn : ℕ) :
  (s.leave turn).drainTurns = s.drainTurns.tail
  := by
  simp [drainTurns, leave]

/-- Once the innermost drain has left, its turn is not draining. -/
theorem Stacked.mem_tail (stacked : s.Stacked) {drain : Drain} (htop : s.drains = drain :: outer) :
  turn ∈ s.drainTurns.tail ↔ turn ∈ s.drainTurns ∧ turn ≠ drain.turn
  := by
  have hnodup := stacked.nodup
  rw [drainTurns, htop, map_cons, nodup_cons] at hnodup
  rw [drainTurns, htop, map_cons, tail_cons, mem_cons]
  constructor
  · intro h
    use Or.inr h
    rintro rfl
    apply hnodup.1 h
  · rintro ⟨heq | h, hne⟩
    · exact (hne heq).elim
    · apply h

/-- A drain that leaves serves its turn when it leaves nothing queued, and the other turns as
before. -/
theorem left_serves_iff (stacked : s.Stacked) {drain : Drain} (htop : s.drains = drain :: outer)
    (hdrains : s'.drainTurns = s.drainTurns.tail)
    (hturns : (s'.turns turn).isQuiescent = (s.turns turn).isQuiescent)
    (served : turn ∈ s.drainTurns ∨ (s.turns turn).isQuiescent = true) :
  (turn ∈ s'.drainTurns ∨ (s'.turns turn).isQuiescent = true)
    ↔ (drain.turn = turn → (s.turns turn).isQuiescent = true)
  := by
  rw [hdrains, hturns, stacked.mem_tail htop]
  constructor
  · rintro (⟨-, hne⟩ | hquiescent) heq
    · exact (hne heq.symm).elim
    · apply hquiescent
  · intro h
    by_cases heq : drain.turn = turn
    · right
      apply h heq
    · obtain hdraining | hquiescent := served
      · left
        exact ⟨hdraining, Ne.symm heq⟩
      · right
        apply hquiescent

/-- A step keeps a turn served that never settles exactly when it leaves nothing behind in
it. -/
theorem Step.served_iff (queued : s.Queued) (stacked : s.Stacked) (thrown : s.Thrown turn)
    (served : turn ∈ s.drainTurns ∨ (s.turns turn).isQuiescent = true) (hstep : Step s event s') :
  (turn ∈ s'.drainTurns ∨ (s'.turns turn).isQuiescent = true) ↔ Clears turn s event
  := by
  cases hstep with
  | establish => exact iff_of_true served trivial
  | @endExtent other hcode hopen =>
    have hne : turn ≠ other := by
      rintro rfl
      apply thrown.closed hopen
    apply iff_of_true _ trivial
    unfold Scheduler.endExtent
    split
    · rw [turns_modify_of_ne _ _ hne]
      apply served
    · have closed : (s.close other).Stacked := by
        exact stacked.of_eq (fun _ => rfl) rfl
      rw [drainTurns_drain closed, isQuiescent_drain]
      obtain hdraining | hquiescent := served
      · left
        right
        apply hdraining
      · right
        apply hquiescent
  | abandon => exact iff_of_true served trivial
  | @drain other =>
    apply iff_of_true _ trivial
    rw [drainTurns_drain stacked, isQuiescent_drain]
    obtain hdraining | hquiescent := served
    · left
      right
      apply hdraining
    · right
      apply hquiescent
  | @enqueue other subscribers =>
    obtain ⟨hturns, -, -, hdrains, -⟩ := enqueue_spec s other subscribers
    rw [drainTurns, hdrains, hturns]
    change turn ∈ s.drainTurns ∨ _ ↔ (other = turn → subscribers = [] ∨ turn ∈ s.drainTurns)
    by_cases heq : turn = other
    · subst heq
      rw [turns_modify_self]
      by_cases hempty : subscribers = []
      · subst hempty
        apply iff_of_true
        · obtain hdraining | hquiescent := served
          · left
            apply hdraining
          · right
            rw [Turn.isQuiescent, Turn.pending_enqueue, Turn.pendingDerived_enqueue]
            apply hquiescent
        · intro _
          left
          rfl
      · simp [(queued.turns turn).not_isQuiescent_enqueue hempty, hempty]
    · rw [turns_modify_of_ne s _ heq]
      apply iff_of_true served
      intro h
      exact (heq h.symm).elim
  | lower => exact iff_of_true served trivial
  | @scrub other id =>
    apply iff_of_true _ trivial
    obtain hdraining | hquiescent := served
    · left
      apply hdraining
    · right
      revert hquiescent
      apply forall_turns_modify (P := fun t turn' =>
        (s.turns t).isQuiescent = true → turn'.isQuiescent = true)
      · intro t h
        apply h
      · rw [Turn.isQuiescent_iff, Turn.isQuiescent_iff]
        rintro ⟨hpending, hderived⟩
        simp [Turn.scrub, hpending, hderived]
  | @microtask other later hidle =>
    apply iff_of_true _ trivial
    rw [isQuiescent_drain]
    obtain hdraining | hquiescent := served
    · simp [drainTurns, hidle] at hdraining
    · right
      rw [turns_modify_eq (g := Turn.isQuiescent) rfl]
      apply hquiescent
  | @move _ drain next outer htop hmove =>
    have hdrains : (s.become next).drainTurns = s.drainTurns := by
      simp [drainTurns, become, htop, hmove.turn]
    have hclears : Clears turn s event := by
      cases hmove <;> trivial
    apply iff_of_true _ hclears
    rw [hdrains]
    apply served
  | @derivations drain outer htop =>
    apply iff_of_true _ trivial
    by_cases heq : turn = drain.turn
    · left
      simp [drainTurns, become, heq]
    · rw [turns_modify_of_ne _ _ heq]
      obtain hdraining | hquiescent := served
      · left
        simpa [drainTurns, become, htop] using hdraining
      · right
        apply hquiescent
  | @wave drain outer htop =>
    apply iff_of_true _ trivial
    by_cases heq : turn = drain.turn
    · left
      simp [drainTurns, become, heq]
    · rw [turns_modify_of_ne _ _ heq]
      obtain hdraining | hquiescent := served
      · left
        simpa [drainTurns, become, htop] using hdraining
      · right
        apply hquiescent
  | @finished drain outer htop =>
    apply left_serves_iff stacked htop _ _ served
    · apply drainTurns_finish
    · apply isQuiescent_finish
  | @threw drain outer htop =>
    apply left_serves_iff stacked htop _ _ served
    · apply drainTurns_leave
    · apply isQuiescent_leave

/-! ### Runs after a throw -/

/-- What every state after the throw is known by. -/
structure After (s : Scheduler) (turn : ℕ) : Prop where
  ended : s.Ended
  stacked : s.Stacked
  queued : s.Queued
  thrown : s.Thrown turn

theorem After.step (h : s.After turn) (hstep : Step s event s') :
  s'.After turn
  := ⟨h.ended.step h.stacked hstep, h.stacked.step hstep, h.queued.step hstep,
    h.thrown.step hstep⟩

theorem After.served_iff (h : s.After turn) (served : s.Served turn) (hstep : Step s event s') :
  s'.Served turn ↔ Clears turn s event
  := by
  rw [Scheduler.served_iff (h.step hstep).ended (h.step hstep).thrown]
  apply hstep.served_iff h.queued h.stacked h.thrown
  rw [← Scheduler.served_iff h.ended h.thrown]
  apply served

/-- After a throw out of the drain that ends the extent of a turn, the turn is served in every
state that a run goes through exactly when the throw and every step of the run leave nothing
behind in the turn. -/
theorem thrown_turn_served_iff {trace later : List Event} {s s₁ s' : Scheduler} {drain : Drain}
    {outer : List Drain} (run : Run trace s) (htop : s.drains = drain :: outer)
    (hsettles : drain.settles = true) (hthrow : Step s (.threw drain.turn) s₁) :
  s₁.Served drain.turn
      ∧ Machine.Run (· = s₁) (fun s event s' => Step s event s' ∧ s'.Served drain.turn) later s'
    ↔ Clears drain.turn s (.threw drain.turn)
      ∧ Machine.Run (· = s₁) (fun s event s' => Step s event s' ∧ Clears drain.turn s event)
          later s'
  := by
  have hs₁ : s₁ = s.leave drain.turn := by
    generalize hevent : Event.threw drain.turn = event at hthrow
    cases hthrow with
    | @threw drain' =>
      injection hevent with hturn
      rw [hturn]
    | move _ hmove => cases hmove <;> cases hevent
    | _ => cases hevent
  have after : s₁.After drain.turn := by
    refine ⟨run.ended.step run.stacked hthrow, run.stacked.step hthrow,
      run.queued.step hthrow, ?_⟩
    rw [hs₁]
    apply thrown_of_threw run.ended run.stacked htop hsettles
  have hthrown : s₁.Served drain.turn ↔ Clears drain.turn s (.threw drain.turn) := by
    rw [served_iff after.ended after.thrown, hs₁]
    apply left_serves_iff run.stacked htop
    · apply drainTurns_leave
    · apply isQuiescent_leave
    · left
      simp [drainTurns, htop]
  rw [← hthrown]
  apply and_congr_right
  intro served
  apply Machine.Run.congr (P := fun s => s.After drain.turn ∧ s.Served drain.turn)
  · rintro s rfl
    exact ⟨after, served⟩
  · rintro s event s' ⟨hafter, -⟩ ⟨hstep, hserved⟩
    exact ⟨hafter.step hstep, hserved⟩
  · rintro s event s' ⟨hafter, hserved⟩
    apply and_congr_right
    intro hstep
    apply hafter.served_iff hserved hstep

/-- An effect is enqueued in an extent and throws when it is notified, and then another is
enqueued. -/
theorem run_throw :
  ∃ trace s s₁ s₂ drain, Run trace s ∧ s.drains = [drain] ∧ drain.settles = true
    ∧ Step s (.threw drain.turn) s₁ ∧ Step s₁ (.enqueue drain.turn [⟨2, 1, false⟩]) s₂
    ∧ s₂.drainTurns = [] ∧ s₂.microtasks = [] ∧ (s₂.turns drain.turn).isQuiescent = false
  := by
  have run₀ : Run [] init := Machine.Run.start rfl
  have run₁ := Machine.Run.step run₀ (Step.establish (codeRuns_nil rfl))
  have run₂ := Machine.Run.step run₁ (@Step.enqueue _ 0
    [⟨1, 0, false⟩] (codeRuns_nil rfl) (by decide))
  have run₃ := Machine.Run.step run₂ (@Step.endExtent _ 0 (codeRuns_nil rfl) (by decide))
  have run₄ := Machine.Run.step run₃ (Step.move rfl (Move.enter rfl rfl (by decide)))
  have run₅ := Machine.Run.step run₄ (Step.wave rfl rfl (Or.inl rfl))
  have run₆ := Machine.Run.step run₅ (Step.move rfl (Move.notifyEffect rfl rfl rfl))
  refine ⟨_, _, _, _, _, run₆, rfl, rfl, Step.threw rfl rfl,
    Step.enqueue (codeRuns_nil rfl) Nat.zero_lt_one, ?_, ?_, ?_⟩ <;> rfl

/-- What is enqueued after a throw is not run. -/
theorem enqueue_after_throw_stranded :
  ¬ ∀ trace later s s₁ s' drain outer, Run trace s → s.drains = drain :: outer →
      drain.settles = true → Step s (.threw drain.turn) s₁ →
      Machine.Run (· = s₁) Step later s' → s'.Served drain.turn
  := by
  intro h
  obtain ⟨trace, s, s₁, s₂, drain, run, htop, hsettles, hthrow, henqueue, hdrains, hmicrotasks,
    hqueued⟩ := run_throw
  have hserved := h trace _ s s₁ s₂ drain [] run htop hsettles hthrow
    (Machine.Run.step (Machine.Run.start rfl) henqueue)
  simp [Served, hdrains, hmicrotasks, hqueued] at hserved

/-- The throw of `run_throw` leaves nothing behind, and what comes after it is served until
something is enqueued. -/
theorem thrown_turn_served_iff_throw :
  ∃ trace s s₁ drain outer, Run trace s ∧ s.drains = drain :: outer ∧ drain.settles = true
    ∧ Step s (.threw drain.turn) s₁ ∧ ∀ later s',
      (s₁.Served drain.turn
          ∧ Machine.Run (· = s₁) (fun s event s' => Step s event s' ∧ s'.Served drain.turn)
              later s'
        ↔ Clears drain.turn s (.threw drain.turn)
          ∧ Machine.Run (· = s₁) (fun s event s' => Step s event s' ∧ Clears drain.turn s event)
              later s')
  := by
  obtain ⟨trace, s, s₁, s₂, drain, run, htop, hsettles, hthrow, -⟩ := run_throw
  exact ⟨trace, s, s₁, drain, [], run, htop, hsettles, hthrow,
    fun later s' => thrown_turn_served_iff run htop hsettles hthrow⟩

end Scheduler

end Vilan
