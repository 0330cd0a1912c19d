import Vilan.Executor.Lives

/-!
# What the log says of the tasks

The log names every task that was spawned and every task that has settled, with how it ended.
Every leaf future that is waited for was begun under a number of its own.
-/

namespace Vilan.Executor

open List Function

variable {V : Type*}

/-- How a settled task ended. -/
def TaskNode.outcome (node : TaskNode V) : Option (Outcome V) :=
  if node.settled then
    match node.failure, node.value with
    | some failure, _ => some (.failure failure)
    | none, value => value.map .value
  else none

/-- A leaf future that has been polled is the one that was begun, but for what it keeps
between polls. -/
def Leaf.Becomes : Leaf → Leaf → Prop
  | .sleep signal _, .sleep signal' _ => signal = signal'
  | .timerWait timer signal _, .timerWait timer' signal' _ => timer = timer' ∧ signal = signal'
  | .yieldOnce _, .yieldOnce _ => True
  | leaf, leaf' => leaf = leaf'

/-- The leaf future a task is to poll was begun. -/
def Control.Begun (log : List (Event V)) : Control V → Prop
  | .leaf call polled => ∃ begun, .awaited call begun ∈ log ∧ begun.Becomes polled
  | _ => True

/-- The log and the tasks agree, and leaf futures are begun once. -/
structure Logged (s : Runtime V) : Prop where
  fresh : ∀ task, s.madeNodes ≤ task → (s.nodes task).settled = false
  spawned : ∀ task origin nursery, .spawned task origin nursery ∈ s.log
    ↔ task < s.madeNodes ∧ (s.nodes task).origin = origin ∧ (s.nodes task).nursery = nursery
  outcomes : ∀ task outcome, .settled task outcome ∈ s.log
    ↔ (s.nodes task).outcome = some outcome
  ends : ∀ task, (s.nodes task).settled = true → (s.nodes task).outcome.isSome = true
  running : ∀ task, (s.nodes task).settled = false → (s.nodes task).failure = none
  called : ∀ call leaf, .awaited call leaf ∈ s.log → call < s.calls
  awaited : ∀ call leaf leaf', .awaited call leaf ∈ s.log → .awaited call leaf' ∈ s.log →
    leaf = leaf'
  polling : ∀ polling ∈ s.polling, polling.control.Begun s.log
  suspended : ∀ task driver, (s.nodes task).driver = some driver → driver.control.Begun s.log

theorem Leaf.Becomes.refl (leaf : Leaf) :
  leaf.Becomes leaf
  := by
  cases leaf with
  | timerWait => exact ⟨rfl, rfl⟩
  | yieldOnce => trivial
  | sleep => apply Eq.refl
  | _ => apply Eq.refl

theorem Leaf.Becomes.trans {first second third : Leaf} (h : first.Becomes second)
    (h' : second.Becomes third) :
  first.Becomes third
  := by
  cases first <;> cases second <;> cases third <;> simp_all [Leaf.Becomes]

/-- A poll that is pending leaves the leaf future it polled. -/
theorem becomes_pollLeaf {s : Runtime V} {id : TaskId} {leaf leaf' : Leaf}
    (h : (s.pollLeaf id leaf).2 = .pending leaf') :
  leaf.Becomes leaf'
  := by
  cases leaf with
  | taskJoin task =>
    simp only [Runtime.pollLeaf, Runtime.pollTaskJoin] at h
    split at h
    · contradiction
    · rw [Polled.pending.injEq] at h
      apply h
  | nodeJoin node nursery =>
    simp only [Runtime.pollLeaf, Runtime.pollNodeJoin] at h
    split at h
    · contradiction
    · rw [Polled.pending.injEq] at h
      apply h
  | sleep signal slot =>
    simp only [Runtime.pollLeaf] at h
    unfold Runtime.pollSleep at h
    split at h
    · contradiction
    · split at h
      · split at h
        · contradiction
        · rw [Polled.pending.injEq] at h
          rw [← h]
          apply Eq.refl
      · rw [Polled.pending.injEq] at h
        rw [← h]
        apply Eq.refl
  | timerWait timer signal parked =>
    simp only [Runtime.pollLeaf, Runtime.pollTimerWait] at h
    split at h
    · contradiction
    · split at h
      · contradiction
      · rw [Polled.pending.injEq] at h
        rw [← h]
        exact ⟨rfl, rfl⟩
  | allSettledOrAnyFailed nodes =>
    simp only [Runtime.pollLeaf, Runtime.pollSettleAll] at h
    split at h
    · contradiction
    · rw [Polled.pending.injEq] at h
      apply h
  | anySettled nodes =>
    simp only [Runtime.pollLeaf, Runtime.pollRace] at h
    split at h
    · contradiction
    · rw [Polled.pending.injEq] at h
      apply h
  | yieldOnce yielded =>
    simp only [Runtime.pollLeaf, Runtime.pollYieldOnce] at h
    split at h
    · contradiction
    · rw [Polled.pending.injEq] at h
      rw [← h]
      trivial

theorem Control.Begun.mono {log log' : List (Event V)} {control : Control V}
    (h : control.Begun log) (hlog : ∀ event ∈ log, event ∈ log') :
  control.Begun log'
  := by
  cases control with
  | leaf call leaf =>
    obtain ⟨begun, hbegun, hbecomes⟩ := h
    exact ⟨begun, hlog _ hbegun, hbecomes⟩
  | _ => trivial

namespace Logged

theorem new :
  Logged (Runtime.new : Runtime V)
  where
  fresh := by simp [Runtime.new]
  spawned := by simp [Runtime.new]
  outcomes := by simp [Runtime.new, TaskNode.outcome]
  ends := by simp [Runtime.new]
  running := by simp [Runtime.new]
  called := by simp [Runtime.new]
  awaited := by simp [Runtime.new]
  polling := by simp [Runtime.new]
  suspended := by simp [Runtime.new]

theorem outcome_eq {node node' : TaskNode V} (h : SameTask node node') :
  node'.outcome = node.outcome
  := by
  rw [TaskNode.outcome, TaskNode.outcome, h.settled, h.failure, h.value]

variable {s s' : Runtime V} {rest : List (Polling V)} {top : Polling V} {calls : ℕ}
  {control : Control V} {events : List (Event V)} {frames : List (Frame V)}

section

variable (logged : Logged s)
include logged

theorem calm (h : Calm s s') :
  Logged s'
  where
  fresh := by
    intro task htask
    rw [h.madeNodes] at htask
    rw [(h.nodes task).settled]
    apply logged.fresh task htask
  spawned := by
    intro task origin nursery
    rw [h.log, h.madeNodes, (h.nodes task).origin, (h.nodes task).nursery]
    apply logged.spawned
  outcomes := by
    intro task outcome
    rw [h.log, outcome_eq (h.nodes task)]
    apply logged.outcomes
  ends := by
    intro task hsettled
    rw [(h.nodes task).settled] at hsettled
    rw [outcome_eq (h.nodes task)]
    apply logged.ends task hsettled
  running := by
    intro task hsettled
    rw [(h.nodes task).settled] at hsettled
    rw [(h.nodes task).failure]
    apply logged.running task hsettled
  called := by
    rw [h.log, h.calls]
    apply logged.called
  awaited := by
    rw [h.log]
    apply logged.awaited
  polling := by
    rw [h.log, h.polling]
    apply logged.polling
  suspended := by
    intro task driver hdriver
    rw [(h.nodes task).driver] at hdriver
    rw [h.log]
    apply logged.suspended task driver hdriver

/-- A change of one task's driver, and of the polls. -/
theorem redriven {task : ℕ} {driver : Option (Driver V)}
    (hnodes : s'.nodes = Function.update s.nodes task { s.nodes task with driver := driver })
    (hmadeNodes : s'.madeNodes = s.madeNodes) (hcalls : s'.calls = s.calls) (hlog : s'.log = s.log)
    (hpolling : ∀ polling ∈ s'.polling, polling.control.Begun s.log)
    (hdriver : ∀ held, driver = some held → held.control.Begun s.log) :
  Logged s'
  := by
  have hnode : ∀ other, (s'.nodes other).settled = (s.nodes other).settled
      ∧ (s'.nodes other).origin = (s.nodes other).origin
      ∧ (s'.nodes other).nursery = (s.nodes other).nursery
      ∧ (s'.nodes other).outcome = (s.nodes other).outcome
      ∧ (s'.nodes other).failure = (s.nodes other).failure := by
    intro other
    rw [hnodes]
    by_cases hne : other = task
    · subst hne
      rw [update_self]
      exact ⟨rfl, rfl, rfl, rfl, rfl⟩
    · rw [update_of_ne hne]
      exact ⟨rfl, rfl, rfl, rfl, rfl⟩
  refine ⟨?_, ?_, ?_, ?_, ?_, ?_, ?_, ?_, ?_⟩
  · intro other hother
    rw [hmadeNodes] at hother
    rw [(hnode other).1]
    apply logged.fresh other hother
  · intro other origin nursery
    rw [hlog, hmadeNodes, (hnode other).2.1, (hnode other).2.2.1]
    apply logged.spawned
  · intro other outcome
    rw [hlog, (hnode other).2.2.2.1]
    apply logged.outcomes
  · intro other hsettled
    rw [(hnode other).1] at hsettled
    rw [(hnode other).2.2.2.1]
    apply logged.ends other hsettled
  · intro other hsettled
    rw [(hnode other).1] at hsettled
    rw [(hnode other).2.2.2.2]
    apply logged.running other hsettled
  · rw [hlog, hcalls]
    apply logged.called
  · rw [hlog]
    apply logged.awaited
  · rw [hlog]
    apply hpolling
  · intro other held hheld
    rw [hlog]
    rw [hnodes] at hheld
    by_cases hne : other = task
    · subst hne
      rw [update_self] at hheld
      apply hdriver held hheld
    · rw [update_of_ne hne] at hheld
      apply logged.suspended other held hheld

theorem takes (id : TaskId) {task : ℕ} {driver : Driver V}
    (hdriver : (s.nodes task).driver = some driver) :
  Logged (s.takes id task driver)
  := by
  refine logged.redriven rfl rfl rfl rfl ?_ ?_
  · intro polling hpolling
    rcases mem_cons.mp hpolling with rfl | hpolling
    · apply logged.suspended task driver hdriver
    · apply logged.polling polling hpolling
  · simp

theorem enters (origin : String) (nursery : Option ℕ) :
  Logged (s.enters origin nursery)
  := by
  have hself : (s.enters origin nursery).nodes s.madeNodes
      = ⟨origin, some ⟨[], .code⟩, false, none, false, nursery, [], false, none⟩ :=
    update_self _ _ _
  have hother : ∀ other, other ≠ s.madeNodes →
      (s.enters origin nursery).nodes other = s.nodes other :=
    fun other hne => update_of_ne hne _ _
  have hlog : (s.enters origin nursery).log = s.log ++ [.spawned s.madeNodes origin nursery] := rfl
  have hmade : (s.enters origin nursery).madeNodes = s.madeNodes + 1 := rfl
  refine ⟨?_, ?_, ?_, ?_, ?_, ?_, ?_, ?_, ?_⟩
  · intro task htask
    rw [hmade] at htask
    rw [hother _ (by omega)]
    apply logged.fresh task (by omega)
  · intro task origin' nursery'
    rw [hlog, mem_append, logged.spawned, mem_singleton, Event.spawned.injEq, hmade]
    by_cases hne : task = s.madeNodes
    · subst hne
      rw [hself]
      constructor
      · rintro (⟨hlt, -⟩ | ⟨-, rfl, rfl⟩)
        · omega
        · exact ⟨by omega, rfl, rfl⟩
      · rintro ⟨-, rfl, rfl⟩
        exact Or.inr ⟨rfl, rfl, rfl⟩
    · rw [hother _ hne]
      constructor
      · rintro (⟨hlt, h⟩ | ⟨rfl, -⟩)
        · exact ⟨by omega, h⟩
        · contradiction
      · rintro ⟨hlt, h⟩
        exact Or.inl ⟨by omega, h⟩
  · intro task outcome
    have hmem : Event.settled task outcome ∈ (s.enters origin nursery).log
        ↔ Event.settled task outcome ∈ s.log := by
      rw [hlog, mem_append]
      simp
    rw [hmem, logged.outcomes]
    by_cases hne : task = s.madeNodes
    · subst hne
      rw [hself, TaskNode.outcome, logged.fresh _ (Nat.le_refl _)]
      simp [TaskNode.outcome]
    · rw [hother _ hne]
  · intro task hsettled
    by_cases hne : task = s.madeNodes
    · subst hne
      rw [hself] at hsettled
      contradiction
    · rw [hother _ hne] at hsettled ⊢
      apply logged.ends task hsettled
  · intro task hsettled
    by_cases hne : task = s.madeNodes
    · subst hne
      rw [hself]
    · rw [hother _ hne] at hsettled ⊢
      apply logged.running task hsettled
  · intro call leaf hmem
    apply logged.called call leaf
    simpa [hlog] using hmem
  · intro call leaf leaf' hmem hmem'
    apply logged.awaited call leaf leaf'
    · simpa [hlog] using hmem
    · simpa [hlog] using hmem'
  · intro polling hpolling
    apply (logged.polling polling hpolling).mono
    intro event hevent
    rw [hlog]
    apply mem_append_left _ hevent
  · intro task driver hdriver
    by_cases hne : task = s.madeNodes
    · subst hne
      rw [hself, Option.some_inj] at hdriver
      rw [← hdriver]
      trivial
    · rw [hother _ hne] at hdriver
      apply (logged.suspended task driver hdriver).mono
      intro event hevent
      rw [hlog]
      apply mem_append_left _ hevent

theorem begins (origin : String) (nursery : Option ℕ) :
  Logged (s.begins origin nursery)
  := by
  apply (logged.enters origin nursery).takes
  change ((Function.update s.nodes s.madeNodes _) s.madeNodes).driver = _
  rw [update_self]

theorem opens (parent : Option ℕ) (detached : Bool) :
  Logged (s.opens parent detached)
  := ⟨logged.fresh, logged.spawned, logged.outcomes, logged.ends, logged.running, logged.called,
    logged.awaited, logged.polling, logged.suspended⟩

theorem ended (hpolling : s.polling = top :: rest)
    (hunsettled : (s.nodes top.node).settled = false) (hmade : top.node < s.madeNodes)
    (outcome : Outcome V) :
  Logged (s.ended top.node rest outcome)
  := by
  have hself : (s.ended top.node rest outcome).nodes top.node
      = { s.nodes top.node with
          settled := true
          driver := none
          failure := outcome.failure?
          value := outcome.valueOr (s.nodes top.node).value } :=
    update_self _ _ _
  have hother : ∀ other, other ≠ top.node →
      (s.ended top.node rest outcome).nodes other = s.nodes other :=
    fun other hne => update_of_ne hne _ _
  have hlog : (s.ended top.node rest outcome).log = s.log ++ [.settled top.node outcome] := rfl
  have houtcome : ((s.ended top.node rest outcome).nodes top.node).outcome = some outcome := by
    rw [hself, TaskNode.outcome]
    cases outcome with
    | value => rfl
    | failure => rfl
  refine ⟨?_, ?_, ?_, ?_, ?_, ?_, ?_, ?_, ?_⟩
  · intro task htask
    change s.madeNodes ≤ task at htask
    rw [hother _ (by omega)]
    apply logged.fresh task htask
  · intro task origin nursery
    have hmem : Event.spawned task origin nursery ∈ (s.ended top.node rest outcome).log
        ↔ Event.spawned task origin nursery ∈ s.log := by
      rw [hlog, mem_append]
      simp
    rw [hmem, logged.spawned]
    by_cases hne : task = top.node
    · subst hne
      rw [hself]
      rfl
    · rw [hother _ hne]
      rfl
  · intro task outcome'
    rw [hlog, mem_append, mem_singleton, Event.settled.injEq, logged.outcomes]
    by_cases hne : task = top.node
    · subst hne
      rw [houtcome, TaskNode.outcome, hunsettled]
      simp only [Bool.false_eq_true, if_false, reduceCtorEq, false_or, true_and, Option.some_inj]
      exact eq_comm
    · rw [hother _ hne]
      simp [hne]
  · intro task hsettled
    by_cases hne : task = top.node
    · subst hne
      rw [houtcome]
      rfl
    · rw [hother _ hne] at hsettled ⊢
      apply logged.ends task hsettled
  · intro task hsettled
    by_cases hne : task = top.node
    · subst hne
      rw [hself] at hsettled
      contradiction
    · rw [hother _ hne] at hsettled ⊢
      apply logged.running task hsettled
  · intro call leaf hmem
    apply logged.called call leaf
    simpa [hlog] using hmem
  · intro call leaf leaf' hmem hmem'
    apply logged.awaited call leaf leaf'
    · simpa [hlog] using hmem
    · simpa [hlog] using hmem'
  · intro polling hmem
    apply (logged.polling polling _).mono
    · intro event hevent
      rw [hlog]
      apply mem_append_left _ hevent
    · rw [hpolling]
      apply mem_cons_of_mem _ hmem
  · intro task driver hdriver
    by_cases hne : task = top.node
    · subst hne
      rw [hself] at hdriver
      contradiction
    · rw [hother _ hne] at hdriver
      apply (logged.suspended task driver hdriver).mono
      intro event hevent
      rw [hlog]
      apply mem_append_left _ hevent

theorem suspend (hpolling : s.polling = top :: rest) {call : ℕ}
    {leaf leaf' : Leaf} (hleaf : top.control = .leaf call leaf) (hbecomes : leaf.Becomes leaf') :
  Logged (s.suspend top rest call leaf')
  := by
  have hpolled := logged.polling
  rw [hpolling, forall_mem_cons, hleaf] at hpolled
  refine @redriven _ s _ logged top.node (some ⟨top.frames, .leaf call leaf'⟩) rfl rfl rfl rfl
    ?_ ?_
  · intro polling hmem
    apply hpolled.2 polling hmem
  · intro held hheld
    rw [Option.some_inj] at hheld
    subst hheld
    obtain ⟨begun, hbegun, hbegunBecomes⟩ := hpolled.1
    exact ⟨begun, hbegun, hbegunBecomes.trans hbecomes⟩

end

/-- What the current task logs when it goes on is no spawn and no settling, and a leaf future it
begins has the next number. -/
theorem goes_events (h : Goes s top frames control events calls) :
  s.calls ≤ calls
    ∧ (∀ task origin nursery, .spawned task origin nursery ∉ events)
    ∧ (∀ task outcome, .settled task outcome ∉ events)
    ∧ (∀ call leaf, .awaited call leaf ∈ events → call = s.calls ∧ s.calls < calls)
    ∧ (∀ call leaf leaf', .awaited call leaf ∈ events → .awaited call leaf' ∈ events →
        leaf = leaf')
  := by
  cases h with
  | awaits leaf => simp +contextual
  | joinsChild => simp +contextual
  | runs => simp
  | _ => simp

/-- The leaf future that is to be polled next was begun. -/
theorem goes_begun (h : Goes s top frames control events calls) :
  control.Begun (s.log ++ events)
  := by
  cases h with
  | awaits leaf =>
    refine ⟨leaf, ?_, Leaf.Becomes.refl _⟩
    simp
  | @joinsChild join child =>
    refine ⟨.nodeJoin child join.nursery, ?_, Leaf.Becomes.refl _⟩
    simp
  | leaves _ _ _ hcontrol =>
    rcases hcontrol with rfl | ⟨failure, rfl⟩
    · trivial
    · trivial
  | _ => trivial

theorem goesOn (logged : Logged s) (hpolling : s.polling = top :: rest)
    (hgoes : Goes s top frames control events calls) :
  Logged ({ s with log := s.log ++ events, calls := calls }.goesOn top rest frames control)
  := by
  obtain ⟨hcalls, hspawned, hsettled, hawaited, hawaitedOnce⟩ := goes_events hgoes
  have hmono : ∀ event ∈ s.log, event ∈ s.log ++ events := by
    intro event hevent
    apply mem_append_left _ hevent
  refine ⟨logged.fresh, ?_, ?_, logged.ends, logged.running, ?_, ?_, ?_, ?_⟩
  · intro task origin nursery
    change _ ∈ s.log ++ events ↔ _
    rw [mem_append, or_iff_left (hspawned _ _ _)]
    apply logged.spawned
  · intro task outcome
    change _ ∈ s.log ++ events ↔ _
    rw [mem_append, or_iff_left (hsettled _ _)]
    apply logged.outcomes
  · intro call leaf hmem
    change call < calls
    rcases mem_append.mp hmem with hmem | hmem
    · have := logged.called call leaf hmem
      omega
    · have := hawaited call leaf hmem
      omega
  · intro call leaf leaf' hmem hmem'
    rcases mem_append.mp hmem with hmem | hmem
    · rcases mem_append.mp hmem' with hmem' | hmem'
      · apply logged.awaited call leaf leaf' hmem hmem'
      · have := logged.called call leaf hmem
        have := hawaited call leaf' hmem'
        omega
    · rcases mem_append.mp hmem' with hmem' | hmem'
      · have := logged.called call leaf' hmem'
        have := hawaited call leaf hmem
        omega
      · apply hawaitedOnce call leaf leaf' hmem hmem'
  · intro polling hmem
    rcases mem_cons.mp hmem with rfl | hmem
    · apply goes_begun hgoes
    · apply (logged.polling polling _).mono hmono
      rw [hpolling]
      apply mem_cons_of_mem _ hmem
  · intro task driver hdriver
    apply (logged.suspended task driver hdriver).mono hmono

theorem moved (logged : Logged s) (lives : Lives s) (h : Moved s s') :
  Logged s'
  := by
  cases h with
  | quiet hquiet => apply logged.calm hquiet.toCalm
  | polled _ _ hdriver _ hquiet => apply (logged.takes _ hdriver).calm hquiet.toCalm
  | reaped _ heq =>
    rw [heq]
    exact ⟨logged.fresh, logged.spawned, logged.outcomes, logged.ends, logged.running,
      logged.called, logged.awaited, logged.polling, logged.suspended⟩
  | spawned _ hquiet => apply (logged.begins _ _).calm hquiet.toCalm
  | opened hquiet => apply (logged.opens _ _).calm hquiet.toCalm
  | suspended hpolling hleaf hpending hquiet =>
    apply (logged.suspend hpolling hleaf (becomes_pollLeaf hpending)).calm hquiet.toCalm
  | @settled top rest outcome hpolling _ _ hquiet =>
    have hmem : top ∈ s.polling := by
      rw [hpolling]
      apply mem_cons_self
    apply (logged.ended hpolling (lives.unsettled top hmem) _ outcome).calm hquiet.toCalm
    apply lives.minted _ _ (lives.named top hmem)
  | gone hpolling hgoes hquiet => apply (logged.goesOn hpolling hgoes).calm hquiet.toCalm

end Logged

end Vilan.Executor
