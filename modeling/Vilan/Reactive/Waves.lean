import Vilan.Reactive.TurnRuns

/-!
# What an effect finds owed

A drain takes a whole wave of effects out of the queue once no derivation is pending, and walks
it.  An effect of the wave may write a signal and so enqueue derivations, which stay pending
while the rest of the wave is notified.
-/

namespace Vilan

open List

namespace Scheduler

/-- The derivation was enqueued into the turn after an effect had been notified. -/
def Cascaded (turn : ℕ) (after : List Event) (derivation : Subscriber) : Prop :=
  ∃ first subscribers later effect, after = first ++ .enqueue turn subscribers :: later
    ∧ derivation ∈ subscribers ∧ .notify turn effect ∈ first

/-- The wave that a drain is walking: `after` is what has happened since the wave was taken out,
from a state in which no derivation was pending, and what is pending now was enqueued by
effects of the wave.  A drain that has used its budget up takes waves out without this. -/
def Walks (trace : List Event) (s : Scheduler) (turn : ℕ) (rest : List Subscriber)
    (notifying : Bool) : Prop :=
  ∃ before after s₀ drain outer, trace = before ++ .wave turn :: after ∧ Run before s₀
    ∧ s₀.drains = drain :: outer ∧ drain.turn = turn ∧ .wave turn ∉ after
    ∧ rest <:+ (s₀.turns turn).pending
    ∧ ((s₀.turns turn).pendingDerived = []
          ∧ (∀ derivation ∈ (s.turns turn).pendingDerived, Cascaded turn after derivation)
        ∨ drain.budget ≤ 0)
    ∧ (notifying = true → ∃ effect, .notify turn effect ∈ after)

/-- All drains that are walking effects walk a wave. -/
def Waves (trace : List Event) (s : Scheduler) : Prop :=
  ∀ drain ∈ s.drains, ∀ rest, drain.phase = .effects rest →
    Walks trace s drain.turn rest drain.notifying

/-! ### One step -/

variable {s s' : Scheduler} {turn : ℕ} {rest : List Subscriber} {trace : List Event} {drain : Drain}

/-- A change of a turn that queues no derivation. -/
theorem mem_pendingDerived_modify {f : Turn → Turn}
    (hf : ∀ derivation ∈ (f (s.turns turn)).pendingDerived,
      derivation ∈ (s.turns turn).pendingDerived) (t : ℕ) :
  ∀ derivation ∈ ((s.modify turn f).turns t).pendingDerived,
    derivation ∈ (s.turns t).pendingDerived
  := by
  apply forall_turns_modify (P := fun t turn =>
    ∀ derivation ∈ turn.pendingDerived, derivation ∈ (s.turns t).pendingDerived)
  · intro t derivation h
    apply h
  · apply hf

theorem pendingDerived_drain (s : Scheduler) (turn : ℕ) (settles : Bool) (t : ℕ) :
  ((s.drain turn settles).turns t).pendingDerived = (s.turns t).pendingDerived
  := by
  unfold Scheduler.drain
  split
  · rfl
  · rw [turns_push]
    apply turns_modify_eq (g := Turn.pendingDerived)
    rfl

theorem pendingDerived_leave (s : Scheduler) (turn : ℕ) (t : ℕ) :
  ((s.leave turn).turns t).pendingDerived = (s.turns t).pendingDerived
  := by
  rw [leave, turns_pop]
  apply turns_modify_eq (g := Turn.pendingDerived)
  rfl

/-- A derivation that is pending after a step was pending before or has been enqueued. -/
theorem Step.pendingDerived {event : Event} (hstep : Step s event s') {t : ℕ}
    {derivation : Subscriber} (h : derivation ∈ (s'.turns t).pendingDerived) :
  derivation ∈ (s.turns t).pendingDerived
    ∨ ∃ subscribers, event = .enqueue t subscribers ∧ derivation ∈ subscribers
  := by
  cases hstep with
  | @enqueue turn subscribers =>
    rw [(enqueue_spec s turn subscribers).1] at h
    by_cases heq : t = turn
    · subst heq
      rw [turns_modify_self, Turn.pendingDerived_enqueue] at h
      obtain hbefore | hmem := Turn.mem_pendingDerived_enqueueAll h
      · left
        apply hbefore
      · right
        use subscribers
    · left
      rw [turns_modify_of_ne s _ heq] at h
      apply h
  | establish =>
    left
    apply h
  | @endExtent turn =>
    left
    unfold Scheduler.endExtent at h
    split at h
    · apply mem_pendingDerived_modify (s := s.close turn) _ t derivation h
      simp
    · rw [pendingDerived_drain] at h
      apply h
  | abandon =>
    left
    apply h
  | drain =>
    left
    rw [pendingDerived_drain] at h
    apply h
  | lower =>
    left
    apply h
  | scrub =>
    left
    apply mem_pendingDerived_modify _ t derivation h
    intro derivation h
    apply mem_of_mem_filter h
  | @microtask turn later =>
    left
    rw [pendingDerived_drain] at h
    apply mem_pendingDerived_modify (s := { s with microtasks := later }) _ t derivation h
    simp
  | move =>
    left
    apply h
  | @derivations drain =>
    left
    apply mem_pendingDerived_modify (s := s.become
      { drain with phase := .derivations (s.turns drain.turn).pendingDerived }) _ t derivation h
    simp [Turn.takeDerivations]
  | @wave drain =>
    left
    apply mem_pendingDerived_modify (s := s.become
      { drain with phase := .effects (s.turns drain.turn).pending }) _ t derivation h
    simp [Turn.takeWave]
  | @finished drain =>
    left
    rw [← pendingDerived_leave s drain.turn t]
    unfold finish at h
    split at h
    · apply mem_pendingDerived_modify _ t derivation h
      simp
    · apply h
  | threw =>
    left
    rw [pendingDerived_leave] at h
    apply h

theorem Cascaded.append {after : List Event} {derivation : Subscriber}
    (h : Cascaded turn after derivation) (later : List Event) :
  Cascaded turn (after ++ later) derivation
  := by
  obtain ⟨first, subscribers, rest, effect, rfl, hmem, hnotify⟩ := h
  use first, subscribers, rest ++ later, effect
  simp [hmem, hnotify]

/-- A step that takes no wave of the turn out, and enqueues only while the drain of the turn is
notifying, goes on with the walk. -/
theorem Walks.step {event : Event} {rest' : List Subscriber} {notifying notifying' : Bool}
    (walks : Walks trace s turn rest notifying) (hstep : Step s event s')
    (hwave : event ≠ .wave turn)
    (henqueue : ∀ subscribers, event = .enqueue turn subscribers → notifying = true)
    (hrest : rest' <:+ rest) (hnotifying : notifying' = true →
      notifying = true ∨ ∃ effect, event = .notify turn effect) :
  Walks (trace ++ [event]) s' turn rest' notifying'
  := by
  obtain ⟨before, after, s₀, drain, outer, rfl, run, htop, hturn, hnone, hpending, howed,
    hnotified⟩ := walks
  refine ⟨before, after ++ [event], s₀, drain, outer, by simp, run, htop, hturn, ?_,
    hrest.trans hpending, ?_, ?_⟩
  · rw [mem_append, mem_singleton, not_or]
    exact ⟨hnone, Ne.symm hwave⟩
  · obtain ⟨hempty, hcascaded⟩ | hbudget := howed
    · left
      use hempty
      intro derivation hderivation
      obtain hbefore | ⟨subscribers, rfl, hmem⟩ := hstep.pendingDerived hderivation
      · apply (hcascaded derivation hbefore).append
      · obtain ⟨effect, heffect⟩ := hnotified (henqueue subscribers rfl)
        exact ⟨after, subscribers, [], effect, rfl, hmem, heffect⟩
    · right
      apply hbudget
  · intro h
    obtain hbefore | ⟨effect, rfl⟩ := hnotifying h
    · obtain ⟨effect, heffect⟩ := hnotified hbefore
      use effect
      rw [mem_append]
      left
      apply heffect
    · use effect
      simp

/-- A drain under way whose top the step does not touch goes on with its walk. -/
theorem Waves.keep {event : Event} (waves : Waves trace s) (hstep : Step s event s')
    (hmem : drain ∈ s.drains) (hwave : event ≠ .wave drain.turn)
    (henqueue : ∀ turn subscribers, event = .enqueue turn subscribers → drain.notifying = true)
    (hphase : drain.phase = .effects rest) :
  Walks (trace ++ [event]) s' drain.turn rest drain.notifying
  := by
  apply (waves drain hmem rest hphase).step hstep hwave
  · intro subscribers
    apply henqueue
  · apply suffix_refl
  · apply Or.inl

theorem drains_drain (s : Scheduler) (turn : ℕ) (settles : Bool) :
  (s.drain turn settles).drains = s.drains
    ∨ (s.drain turn settles).drains = .start turn settles :: s.drains
  := by
  unfold Scheduler.drain
  split
  · left
    rfl
  · right
    rfl

/-- Program code runs only while all drains under way are notifying. -/
theorem Stacked.notifying (stacked : s.Stacked) (hcode : s.codeRuns) (hmem : drain ∈ s.drains) :
  drain.notifying = true
  := by
  rcases hlist : s.drains with _ | ⟨first, rest⟩
  · simp [hlist] at hmem
  · have houter := stacked.outer
    unfold codeRuns at hcode
    rw [hlist] at hmem hcode houter
    obtain rfl | hmem := List.mem_cons.1 hmem
    · apply hcode _ rfl
    · apply houter _ hmem

/-- A drain that is walking effects after it has moved was walking them before. -/
theorem Move.effects {turn : Turn} {live : ℕ → Bool} {next : Drain} {event : Event}
    (hmove : Move turn live drain event next) {rest' : List Subscriber}
    (hphase : next.phase = .effects rest') :
  ∃ rest, drain.phase = .effects rest ∧ rest' <:+ rest
    ∧ (next.notifying = true →
        drain.notifying = true ∨ ∃ effect, event = .notify drain.turn effect)
  := by
  cases hmove with
  | enter => cases hphase
  | endDerivations => cases hphase
  | endEffects => cases hphase
  | notifyDerivation hphase' =>
    rw [hphase'] at hphase
    cases hphase
  | @notifyEffect subscriber rest hphase' =>
    rw [hphase'] at hphase
    cases hphase
    refine ⟨_, hphase', suffix_refl _, ?_⟩
    intro _
    right
    use subscriber
  | skipDerivation => cases hphase
  | skipEffect hphase' =>
    cases hphase
    refine ⟨_, hphase', suffix_cons _ _, ?_⟩
    apply Or.inl
  | notifiedDerivation => cases hphase
  | notifiedEffect hphase' =>
    cases hphase
    refine ⟨_, hphase', suffix_cons _ _, ?_⟩
    simp

theorem Move.event {turn : Turn} {live : ℕ → Bool} {next : Drain} {event : Event}
    (hmove : Move turn live drain event next) (t : ℕ) :
  event ≠ .wave t ∧ ∀ subscribers, event ≠ .enqueue t subscribers
  := by
  cases hmove <;> simp

/-- A step of program code goes on with all walks. -/
theorem Waves.code {event : Event} (waves : Waves trace s) (stacked : s.Stacked)
    (hcode : s.codeRuns) (hstep : Step s event s') (hwave : ∀ t, event ≠ .wave t)
    (hdrains : ∀ drain ∈ s'.drains, drain ∈ s.drains ∨ drain.phase = .loop) :
  Waves (trace ++ [event]) s'
  := by
  intro drain hmem rest hphase
  obtain hmem | hloop := hdrains drain hmem
  · apply waves.keep hstep hmem (hwave _) _ hphase
    intro _ _ _
    apply stacked.notifying hcode hmem
  · rw [hloop] at hphase
    cases hphase

/-- A step of the innermost drain goes on with the walks of the others. -/
theorem Waves.outer {event : Event} (waves : Waves trace s) (stacked : s.Stacked)
    (hstep : Step s event s') {outer : List Drain} (htop : s.drains = drain :: outer)
    (hwave : ∀ t, event = .wave t → t = drain.turn)
    (henqueue : ∀ t subscribers, event ≠ .enqueue t subscribers) {other : Drain}
    (hother : other ∈ outer) (hphase : other.phase = .effects rest) :
  Walks (trace ++ [event]) s' other.turn rest other.notifying
  := by
  apply waves.keep hstep
  · rw [htop]
    apply mem_cons_of_mem _ hother
  · intro heq
    apply stacked.turn_ne htop hother (hwave _ heq)
  · intro t subscribers heq
    exact (henqueue t subscribers heq).elim
  · apply hphase

/-- Every step goes on with all walks. -/
theorem Waves.step {event : Event} (run : Run trace s) (waves : Waves trace s)
    (hstep : Step s event s') :
  Waves (trace ++ [event]) s'
  := by
  have stacked := run.stacked
  have entered : ∀ (s₁ : Scheduler) (turn : ℕ) (settles : Bool), s₁.drains = s.drains →
      ∀ drain ∈ (s₁.drain turn settles).drains, drain ∈ s.drains ∨ drain.phase = .loop := by
    intro s₁ turn settles heq drain hdrain
    obtain hsame | hpush := drains_drain s₁ turn settles
    · left
      rw [hsame, heq] at hdrain
      apply hdrain
    · rw [hpush, heq] at hdrain
      obtain rfl | hdrain := List.mem_cons.1 hdrain
      · right
        rfl
      · left
        apply hdrain
  have same : ∀ drain ∈ s.drains, drain ∈ s.drains ∨ drain.phase = .loop :=
    fun _ hdrain => Or.inl hdrain
  cases hstep' : hstep with
  | establish hcode => apply waves.code stacked hcode hstep (by simp) same
  | @endExtent turn hcode =>
    apply waves.code stacked hcode hstep (by simp)
    unfold Scheduler.endExtent
    split
    · apply same
    · apply entered
      rfl
  | abandon hcode => apply waves.code stacked hcode hstep (by simp) same
  | drain hcode =>
    apply waves.code stacked hcode hstep (by simp)
    apply entered
    rfl
  | @enqueue turn subscribers hcode =>
    apply waves.code stacked hcode hstep (by simp)
    rw [(enqueue_spec s turn subscribers).2.2.2.1]
    apply same
  | lower hcode => apply waves.code stacked hcode hstep (by simp) same
  | scrub hcode => apply waves.code stacked hcode hstep (by simp) same
  | microtask hidle =>
    apply waves.code stacked _ hstep (by simp)
    · apply entered
      rfl
    · intro drain hdrain
      simp [hidle] at hdrain
  | @move _ drain next outer htop hmove =>
    intro other hother rest hphase
    simp only [become, drains_push, drains_pop, htop, tail_cons] at hother
    obtain rfl | hother := List.mem_cons.1 hother
    · obtain ⟨rest₀, hphase₀, hrest, hnotifying⟩ := hmove.effects hphase
      rw [hmove.turn]
      apply (waves drain (by simp [htop]) rest₀ hphase₀).step hstep
      · apply (hmove.event _).1
      · intro subscribers heq
        exact ((hmove.event _).2 subscribers heq).elim
      · apply hrest
      · apply hnotifying
    · apply waves.outer stacked hstep htop _ _ hother hphase
      · intro t heq
        exact ((hmove.event t).1 heq).elim
      · intro t
        apply (hmove.event t).2
  | @derivations drain outer htop =>
    intro other hother rest hphase
    simp only [become, drains_modify, drains_push, drains_pop, htop, tail_cons] at hother
    obtain rfl | hother := List.mem_cons.1 hother
    · cases hphase
    · apply waves.outer stacked hstep htop (by simp) (by simp) hother hphase
  | @wave drain outer htop hphase₀ hdone =>
    intro other hother rest hphase
    simp only [become, drains_modify, drains_push, drains_pop, htop, tail_cons] at hother
    obtain rfl | hother := List.mem_cons.1 hother
    · cases hphase
      refine ⟨trace, [], s, drain, outer, rfl, run, htop, rfl, by simp,
        suffix_refl _, ?_, ?_⟩
      · obtain hempty | hbudget := hdone
        · left
          use hempty
          intro derivation hderivation
          exfalso
          simp [Turn.takeWave, become, hempty] at hderivation
        · right
          apply hbudget
      · intro hnotifying
        have sound := run.queued.walks drain (by simp [htop])
        rw [sound.idle (by simp [hphase₀, Phase.AtSubscriber])] at hnotifying
        cases hnotifying
    · apply waves.outer stacked hstep htop _ (by simp) hother hphase
      intro t heq
      cases heq
      rfl
  | @finished drain outer htop =>
    intro other hother rest hphase
    have hdrains : (s.finish drain).drains = outer := by
      unfold finish
      split <;> simp [leave, htop]
    rw [hdrains] at hother
    apply waves.outer stacked hstep htop (by simp) (by simp) hother hphase
  | @threw drain outer htop =>
    intro other hother rest hphase
    simp only [leave, drains_pop, drains_modify, htop, tail_cons] at hother
    apply waves.outer stacked hstep htop (by simp) (by simp) hother hphase

theorem Run.waves (run : Run trace s) :
  Waves trace s
  := by
  apply Machine.Run.history (P := Waves) _ _ run
  · rintro s rfl drain hdrain
    cases hdrain
  · intro trace s event s' run waves hstep
    apply waves.step run hstep

theorem codeRuns_nil (h : s.drains = []) :
  s.codeRuns
  := by
  simp [codeRuns, h]

theorem codeRuns_cons {outer : List Drain} (h : s.drains = drain :: outer)
    (hnotifying : drain.notifying = true) :
  s.codeRuns
  := by
  simp [codeRuns, h, hnotifying]

/-- Two effects are enqueued in an extent.  The first one notified enqueues a derivation, and
then the second is notified. -/
theorem run_cascade :
  ∃ trace s s', Run trace s ∧ Step s (.notify 0 ⟨2, 1, false⟩) s'
    ∧ (s.turns 0).pendingDerived = [⟨3, 2, true⟩]
  := by
  have run₀ : Run [] init := Machine.Run.start rfl
  have run₁ := Machine.Run.step run₀ (Step.establish (codeRuns_nil rfl))
  have run₂ := Machine.Run.step run₁ (@Step.enqueue _ 0
    [⟨1, 0, false⟩, ⟨2, 1, false⟩] (codeRuns_nil rfl) (by decide))
  have run₃ := Machine.Run.step run₂ (@Step.endExtent _ 0 (codeRuns_nil rfl) (by decide))
  have run₄ := Machine.Run.step run₃ (Step.move rfl (Move.enter rfl rfl (by decide)))
  have run₅ := Machine.Run.step run₄ (Step.wave rfl rfl (Or.inl rfl))
  have run₆ := Machine.Run.step run₅ (Step.move rfl (Move.notifyEffect rfl rfl rfl))
  have run₇ := Machine.Run.step run₆ (@Step.enqueue _ 0
    [⟨3, 2, true⟩] (codeRuns_cons rfl rfl) (by decide))
  have run₈ := Machine.Run.step run₇ (Step.move rfl (Move.notifiedEffect rfl rfl))
  exact ⟨_, _, _, run₈, Step.move rfl (Move.notifyEffect rfl rfl rfl), rfl⟩

end Scheduler

end Vilan
