import Vilan.Executor.Steps

/-!
# What wakes a task

A leaf future that is pending has parked its task's id: on the wake list of a task, of a nursery's
latch, of a signal or of a timer, or in an entry of the deadline list.  Whatever makes one of these
ready takes the ids off and enqueues them.
-/

namespace Vilan.Executor

open Function

variable {V : Type*}

/-! ### Parked ids -/

namespace Runtime

/-- The id is parked on a task that has not settled. -/
def AwaitsTask (s : Runtime V) (id : TaskId) (task : ℕ) : Prop :=
  (s.nodes task).settled = false ∧ id ∈ (s.nodes task).waiters

/-- The id is parked on the latch of a nursery that has not failed. -/
def AwaitsLatch (s : Runtime V) (id : TaskId) (nursery : ℕ) : Prop :=
  (s.nurseries nursery).failed = none ∧ id ∈ (s.nurseries nursery).failWaiters

/-- The id is parked on the signal of a nursery, which has not been cancelled, unless the nursery is
gone. -/
def AwaitsSignal (s : Runtime V) (id : TaskId) (nursery : ℕ) : Prop :=
  (s.nurseries nursery).held = true →
    (s.nurseries nursery).cancelled = false ∧ id ∈ (s.nurseries nursery).cancelWaiters

/-- The id is parked on a timer that has not settled. -/
def AwaitsTimer (s : Runtime V) (id : TaskId) (timer : ℕ) : Prop :=
  (s.timers timer).settled = false ∧ id ∈ (s.timers timer).waiters

/-- The id is what an entry of the deadline list enqueues, which has not fired. -/
def AwaitsSlot (s : Runtime V) (id : TaskId) (slot : ℕ) : Prop :=
  (s.slots slot).fired = false ∧ (s.slots slot).action = some (.enqueue (some id))

/-- An entry of the deadline list is the id's: it enqueues the id when it fires, if it has not. -/
def Times (s : Runtime V) (id : TaskId) (slot : ℕ) : Prop :=
  (s.slots slot).fired = true ∨ s.AwaitsSlot id slot

end Runtime

namespace Leaf

/-- What a leaf future names has been made, and the timer of a sleep is for the id. -/
def Named (s : Runtime V) (id : TaskId) : Leaf → Prop
  | .taskJoin task => task < s.madeNodes
  | .nodeJoin node nursery => node < s.madeNodes ∧ nursery < s.madeNurseries
  | .sleep signal slot =>
      (∀ nursery ∈ signal, nursery < s.madeNurseries) ∧
        ∀ entry ∈ slot, entry < s.sequence ∧ s.Times id entry
  | .timerWait timer signal _ =>
      timer < s.madeTimers ∧ ∀ nursery ∈ signal, nursery < s.madeNurseries
  | .allSettledOrAnyFailed nodes => ∀ task ∈ nodes, task < s.madeNodes
  | .anySettled nodes => ∀ task ∈ nodes, task < s.madeNodes
  | .yieldOnce _ => True

/-- A leaf future that is pending has parked the id on everything that can make it ready. -/
def Parked (s : Runtime V) (id : TaskId) : Leaf → Prop
  | .taskJoin task => s.AwaitsTask id task
  | .nodeJoin node nursery => s.AwaitsTask id node ∧ s.AwaitsLatch id nursery
  | .sleep signal slot =>
      (∃ entry, slot = some entry ∧ s.AwaitsSlot id entry) ∧
        ∀ nursery ∈ signal, s.AwaitsSignal id nursery
  | .timerWait timer signal _ =>
      s.AwaitsTimer id timer ∧ ∀ nursery ∈ signal, s.AwaitsSignal id nursery
  | .allSettledOrAnyFailed nodes =>
      (∃ task ∈ nodes, s.AwaitsTask id task) ∧ ∀ task ∈ nodes, s.AwaitsTask id task ∨
        (s.nodes task).settled = true ∧ (s.nodes task).failure = none
  | .anySettled nodes => ∀ task ∈ nodes, s.AwaitsTask id task
  | .yieldOnce _ => False

end Leaf

/-! ### Steps that wake -/

/-- An id is in the microtask queue, or it is owed a place there. -/
def Woken (owed : List TaskId) (s : Runtime V) (id : TaskId) : Prop :=
  id ∈ s.microtasks ∨ id ∈ owed

/-- No id comes off a wake list without being enqueued, but for those owed, and nothing else that
bears on them changes. -/
structure Wakes (owed : List TaskId) (s s' : Runtime V) : Prop where
  madeNodes : s.madeNodes ≤ s'.madeNodes
  madeNurseries : s.madeNurseries ≤ s'.madeNurseries
  madeTimers : s.madeTimers ≤ s'.madeTimers
  sequence : s.sequence ≤ s'.sequence
  microtasks : ∀ id ∈ s.microtasks, Woken owed s' id
  named : ∀ id task, s.taskAt id = some task → s'.taskAt id = some task
  drivers : ∀ task driver, (s'.nodes task).driver = some driver →
    (s.nodes task).driver = some driver
  settled : ∀ task < s.madeNodes, (s.nodes task).settled = true →
    (s'.nodes task).settled = true ∧ (s'.nodes task).failure = (s.nodes task).failure
  tasks : ∀ task < s.madeNodes, ∀ id, s.AwaitsTask id task → Woken owed s' id ∨ s'.AwaitsTask id task
  latches : ∀ nursery < s.madeNurseries, ∀ id, s.AwaitsLatch id nursery →
    Woken owed s' id ∨ s'.AwaitsLatch id nursery
  signals : ∀ nursery < s.madeNurseries, ∀ id, s.AwaitsSignal id nursery →
    Woken owed s' id ∨ s'.AwaitsSignal id nursery
  timers : ∀ timer < s.madeTimers, ∀ id, s.AwaitsTimer id timer →
    Woken owed s' id ∨ s'.AwaitsTimer id timer
  slots : ∀ slot < s.sequence, ∀ id, s.AwaitsSlot id slot → Woken owed s' id ∨ s'.AwaitsSlot id slot
  times : ∀ slot < s.sequence, ∀ id, s.Times id slot → s'.Times id slot

namespace Wakes

theorem refl (owed : List TaskId) (s : Runtime V) :
  Wakes owed s s
  := ⟨Nat.le_refl _, Nat.le_refl _, Nat.le_refl _, Nat.le_refl _, fun _ mem => Or.inl mem,
    fun _ _ held => held, fun _ _ held => held, fun _ _ settled => ⟨settled, rfl⟩,
    fun _ _ _ awaits => Or.inr awaits, fun _ _ _ awaits => Or.inr awaits,
    fun _ _ _ awaits => Or.inr awaits, fun _ _ _ awaits => Or.inr awaits,
    fun _ _ _ awaits => Or.inr awaits, fun _ _ _ times => times⟩

variable {s s' : Runtime V} {owed : List TaskId}

/-- More may be owed. -/
theorem more (wakes : Wakes [] s s') (owed : List TaskId) :
  Wakes owed s s'
  := by
  have woken : ∀ {id}, Woken [] s' id → Woken owed s' id := by
    rintro id (mem | mem)
    · exact Or.inl mem
    · cases mem
  have more : ∀ {id} {P : Prop}, Woken [] s' id ∨ P → Woken owed s' id ∨ P :=
    fun either => either.imp_left woken
  exact ⟨wakes.madeNodes, wakes.madeNurseries, wakes.madeTimers, wakes.sequence,
    fun id mem => woken (wakes.microtasks id mem), wakes.named, wakes.drivers, wakes.settled,
    fun task lt id awaits => more (wakes.tasks task lt id awaits),
    fun nursery lt id awaits => more (wakes.latches nursery lt id awaits),
    fun nursery lt id awaits => more (wakes.signals nursery lt id awaits),
    fun timer lt id awaits => more (wakes.timers timer lt id awaits),
    fun slot lt id awaits => more (wakes.slots slot lt id awaits), wakes.times⟩

theorem trans {s₁ s₂ s₃ : Runtime V} (first : Wakes owed s₁ s₂) (second : Wakes owed s₂ s₃) :
  Wakes owed s₁ s₃
  := by
  have woken : ∀ {id}, Woken owed s₂ id → Woken owed s₃ id := by
    rintro id (mem | mem)
    · apply second.microtasks id mem
    · exact Or.inr mem
  have chain : ∀ {id} {P Q : Prop}, Woken owed s₂ id ∨ P → (P → Woken owed s₃ id ∨ Q) →
      Woken owed s₃ id ∨ Q := by
    rintro id P Q (mem | kept) next_
    · exact Or.inl (woken mem)
    · apply next_ kept
  refine ⟨Nat.le_trans first.madeNodes second.madeNodes,
    Nat.le_trans first.madeNurseries second.madeNurseries,
    Nat.le_trans first.madeTimers second.madeTimers, Nat.le_trans first.sequence second.sequence,
    fun id mem => woken (first.microtasks id mem),
    fun id task held => second.named id task (first.named id task held),
    fun task driver held => first.drivers task driver (second.drivers task driver held),
    ?_, ?_, ?_, ?_, ?_, ?_, ?_⟩
  · intro task lt settled
    obtain ⟨settled', failure⟩ := first.settled task lt settled
    obtain ⟨settled'', failure'⟩ :=
      second.settled task (Nat.lt_of_lt_of_le lt first.madeNodes) settled'
    exact ⟨settled'', failure'.trans failure⟩
  · intro task lt id awaits
    apply chain (first.tasks task lt id awaits)
    apply second.tasks task (Nat.lt_of_lt_of_le lt first.madeNodes)
  · intro nursery lt id awaits
    apply chain (first.latches nursery lt id awaits)
    apply second.latches nursery (Nat.lt_of_lt_of_le lt first.madeNurseries)
  · intro nursery lt id awaits
    apply chain (first.signals nursery lt id awaits)
    apply second.signals nursery (Nat.lt_of_lt_of_le lt first.madeNurseries)
  · intro timer lt id awaits
    apply chain (first.timers timer lt id awaits)
    apply second.timers timer (Nat.lt_of_lt_of_le lt first.madeTimers)
  · intro slot lt id awaits
    apply chain (first.slots slot lt id awaits)
    apply second.slots slot (Nat.lt_of_lt_of_le lt first.sequence)
  · intro slot lt id times
    apply second.times slot (Nat.lt_of_lt_of_le lt first.sequence) id (first.times slot lt id times)

/-- What is owed is paid when it is enqueued. -/
theorem enqueue (wakes : Wakes owed s s') :
  Wakes [] s (s'.enqueue owed)
  := by
  have paid : ∀ {id} {P : Prop}, Woken owed s' id ∨ P → Woken [] (s'.enqueue owed) id ∨ P := by
    rintro id P (woken | kept)
    · exact Or.inl (Or.inl (List.mem_append.mpr woken))
    · exact Or.inr kept
  exact ⟨wakes.madeNodes, wakes.madeNurseries, wakes.madeTimers, wakes.sequence,
    fun id mem => Or.inl (List.mem_append.mpr (wakes.microtasks id mem)),
    wakes.named, wakes.drivers, wakes.settled,
    fun task lt id awaits => paid (wakes.tasks task lt id awaits),
    fun nursery lt id awaits => paid (wakes.latches nursery lt id awaits),
    fun nursery lt id awaits => paid (wakes.signals nursery lt id awaits),
    fun timer lt id awaits => paid (wakes.timers timer lt id awaits),
    fun slot lt id awaits => paid (wakes.slots slot lt id awaits), wakes.times⟩

/-- What is parked stays so, or is woken. -/
theorem parked (wakes : Wakes owed s s') {id : TaskId} {leaf : Leaf} (named : leaf.Named s id)
    (parked : leaf.Parked s id) :
  Woken owed s' id ∨ leaf.Parked s' id
  := by
  by_cases woken : Woken owed s' id
  · exact Or.inl woken
  have kept : ∀ {P : Prop}, Woken owed s' id ∨ P → P := by
    rintro P (absurd_ | kept)
    · exact absurd absurd_ woken
    · exact kept
  right
  cases leaf with
  | taskJoin task => apply kept (wakes.tasks task named id parked)
  | nodeJoin node nursery =>
    exact ⟨kept (wakes.tasks node named.1 id parked.1),
      kept (wakes.latches nursery named.2 id parked.2)⟩
  | sleep signal slot =>
    obtain ⟨⟨entry, rfl, awaits⟩, heard⟩ := parked
    refine ⟨⟨entry, rfl, kept (wakes.slots entry (named.2 entry rfl).1 id awaits)⟩, ?_⟩
    intro nursery held
    apply kept (wakes.signals nursery (named.1 nursery held) id (heard nursery held))
  | timerWait timer signal _ =>
    use kept (wakes.timers timer named.1 id parked.1)
    intro nursery held
    apply kept (wakes.signals nursery (named.2 nursery held) id (parked.2 nursery held))
  | allSettledOrAnyFailed nodes =>
    obtain ⟨⟨task, listed, awaits⟩, all⟩ := parked
    refine ⟨⟨task, listed, kept (wakes.tasks task (named task listed) id awaits)⟩, ?_⟩
    intro task listed
    obtain awaits | ⟨settled, failure⟩ := all task listed
    · exact Or.inl (kept (wakes.tasks task (named task listed) id awaits))
    · obtain ⟨settled', failure'⟩ := wakes.settled task (named task listed) settled
      exact Or.inr ⟨settled', failure'.trans failure⟩
  | anySettled nodes =>
    intro task listed
    apply kept (wakes.tasks task (named task listed) id (parked task listed))
  | yieldOnce _ => exact parked

/-- What a leaf future names stays made. -/
theorem namedLeaf (wakes : Wakes owed s s') {id : TaskId} {leaf : Leaf} (named : leaf.Named s id) :
  leaf.Named s' id
  := by
  cases leaf with
  | taskJoin task => apply Nat.lt_of_lt_of_le named wakes.madeNodes
  | nodeJoin node nursery =>
    exact ⟨Nat.lt_of_lt_of_le named.1 wakes.madeNodes,
      Nat.lt_of_lt_of_le named.2 wakes.madeNurseries⟩
  | sleep signal slot =>
    exact ⟨fun nursery held => Nat.lt_of_lt_of_le (named.1 nursery held) wakes.madeNurseries,
      fun entry held => ⟨Nat.lt_of_lt_of_le (named.2 entry held).1 wakes.sequence,
        wakes.times entry (named.2 entry held).1 id (named.2 entry held).2⟩⟩
  | timerWait timer signal _ =>
    exact ⟨Nat.lt_of_lt_of_le named.1 wakes.madeTimers,
      fun nursery held => Nat.lt_of_lt_of_le (named.2 nursery held) wakes.madeNurseries⟩
  | allSettledOrAnyFailed nodes =>
    exact fun task listed => Nat.lt_of_lt_of_le (named task listed) wakes.madeNodes
  | anySettled nodes =>
    exact fun task listed => Nat.lt_of_lt_of_le (named task listed) wakes.madeNodes
  | yieldOnce _ => trivial

/-! ### Single changes -/

/-- A change of what no wake list is part of. -/
theorem aside (s : Runtime V) {microtasks : List TaskId}
    (mem : ∀ id ∈ s.microtasks, id ∈ microtasks ∨ id ∈ owed) (polling : List (Polling V))
    (calls : ℕ) (stderr : List String) (log : List (Event V)) :
  Wakes owed s { s with
    microtasks := microtasks, polling := polling, calls := calls, stderr := stderr, log := log }
  := by
  have same := refl owed s
  exact ⟨same.madeNodes, same.madeNurseries, same.madeTimers, same.sequence, mem, same.named,
    same.drivers, same.settled, fun _ _ _ awaits => Or.inr awaits,
    fun _ _ _ awaits => Or.inr awaits, fun _ _ _ awaits => Or.inr awaits,
    fun _ _ _ awaits => Or.inr awaits, fun _ _ _ awaits => Or.inr awaits, same.times⟩

/-- A change that only an observer sees. -/
theorem unseen (s : Runtime V) (polling : List (Polling V)) (calls : ℕ) (stderr : List String)
    (log : List (Event V)) :
  Wakes [] s { s with polling := polling, calls := calls, stderr := stderr, log := log }
  := aside s (fun _ mem => Or.inl mem) polling calls stderr log

/-- A task's record changes: whoever is parked on it stays parked, or is owed a wake. -/
theorem setNode (s : Runtime V) (task : ℕ) {f : TaskNode V → TaskNode V}
    (awaits : ∀ id, s.AwaitsTask id task →
      id ∈ owed ∨ (f (s.nodes task)).settled = false ∧ id ∈ (f (s.nodes task)).waiters)
    (settled : (s.nodes task).settled = true → (f (s.nodes task)).settled = true ∧
      (f (s.nodes task)).failure = (s.nodes task).failure)
    (drivers : ∀ driver, (f (s.nodes task)).driver = some driver →
      (s.nodes task).driver = some driver) :
  Wakes owed s (s.setNode task f)
  := by
  have old : ∀ other, other ≠ task → (s.setNode task f).nodes other = s.nodes other :=
    fun other ne => update_of_ne ne _ _
  have new : (s.setNode task f).nodes task = f (s.nodes task) := update_self _ _ _
  refine ⟨Nat.le_refl _, Nat.le_refl _, Nat.le_refl _, Nat.le_refl _, fun _ mem => Or.inl mem,
    fun _ _ held => held, ?_, ?_, ?_, fun _ _ _ awaits => Or.inr awaits,
    fun _ _ _ awaits => Or.inr awaits, fun _ _ _ awaits => Or.inr awaits,
    fun _ _ _ awaits => Or.inr awaits, fun _ _ _ times => times⟩
  · intro other driver held
    by_cases same : other = task
    · subst same
      rw [new] at held
      apply drivers driver held
    · rwa [old other same] at held
  · intro other _ done
    by_cases same : other = task
    · subst same
      rw [new]
      apply settled done
    · rw [old other same]
      exact ⟨done, rfl⟩
  · intro other _ id waits
    rw [Runtime.AwaitsTask]
    by_cases same : other = task
    · subst same
      rw [new]
      obtain mem | kept := awaits id waits
      · exact Or.inl (Or.inr mem)
      · exact Or.inr kept
    · rw [old other same]
      exact Or.inr waits

/-- A nursery's body changes. -/
theorem setNursery (s : Runtime V) (nursery : ℕ) {f : NurseryBody → NurseryBody}
    (latch : ∀ id, s.AwaitsLatch id nursery →
      id ∈ owed ∨ (f (s.nurseries nursery)).failed = none ∧ id ∈ (f (s.nurseries nursery)).failWaiters)
    (signal : ∀ id, s.AwaitsSignal id nursery → id ∈ owed ∨
      ((f (s.nurseries nursery)).held = true → (f (s.nurseries nursery)).cancelled = false ∧
        id ∈ (f (s.nurseries nursery)).cancelWaiters)) :
  Wakes owed s (s.setNursery nursery f)
  := by
  have old : ∀ other, other ≠ nursery → (s.setNursery nursery f).nurseries other = s.nurseries other :=
    fun other ne => update_of_ne ne _ _
  have new : (s.setNursery nursery f).nurseries nursery = f (s.nurseries nursery) :=
    update_self _ _ _
  refine ⟨Nat.le_refl _, Nat.le_refl _, Nat.le_refl _, Nat.le_refl _, fun _ mem => Or.inl mem,
    fun _ _ held => held, fun _ _ held => held, fun _ _ settled => ⟨settled, rfl⟩,
    fun _ _ _ awaits => Or.inr awaits, ?_, ?_, fun _ _ _ awaits => Or.inr awaits,
    fun _ _ _ awaits => Or.inr awaits, fun _ _ _ times => times⟩
  · intro other _ id waits
    rw [Runtime.AwaitsLatch]
    by_cases same : other = nursery
    · subst same
      rw [new]
      obtain mem | kept := latch id waits
      · exact Or.inl (Or.inr mem)
      · exact Or.inr kept
    · rw [old other same]
      exact Or.inr waits
  · intro other _ id waits
    rw [Runtime.AwaitsSignal]
    by_cases same : other = nursery
    · subst same
      rw [new]
      obtain mem | kept := signal id waits
      · exact Or.inl (Or.inr mem)
      · exact Or.inr kept
    · rw [old other same]
      exact Or.inr waits

/-- A timer's body changes. -/
theorem setTimer (s : Runtime V) (timer : ℕ) {f : TimerBody → TimerBody}
    (awaits : ∀ id, s.AwaitsTimer id timer →
      id ∈ owed ∨ (f (s.timers timer)).settled = false ∧ id ∈ (f (s.timers timer)).waiters) :
  Wakes owed s (s.setTimer timer f)
  := by
  refine ⟨Nat.le_refl _, Nat.le_refl _, Nat.le_refl _, Nat.le_refl _, fun _ mem => Or.inl mem,
    fun _ _ held => held, fun _ _ held => held, fun _ _ settled => ⟨settled, rfl⟩,
    fun _ _ _ awaits => Or.inr awaits, fun _ _ _ awaits => Or.inr awaits,
    fun _ _ _ awaits => Or.inr awaits, ?_, fun _ _ _ awaits => Or.inr awaits,
    fun _ _ _ times => times⟩
  intro other _ id waits
  change _ ∨ ((Function.update s.timers timer _ other).settled = false ∧
    id ∈ (Function.update s.timers timer _ other).waiters)
  by_cases same : other = timer
  · subst same
    rw [update_self]
    obtain mem | kept := awaits id waits
    · exact Or.inl (Or.inr mem)
    · exact Or.inr kept
  · rw [update_of_ne same]
    exact Or.inr waits

/-- An entry of the deadline list changes. -/
theorem setSlot (s : Runtime V) (slot : ℕ) {f : TimerSlot → TimerSlot}
    (awaits : ∀ id, s.AwaitsSlot id slot → id ∈ owed ∧ (f (s.slots slot)).fired = true ∨
      (f (s.slots slot)).fired = false ∧ (f (s.slots slot)).action = some (.enqueue (some id)))
    (fired : (s.slots slot).fired = true → (f (s.slots slot)).fired = true) :
  Wakes owed s (s.setSlot slot f)
  := by
  have old : ∀ other, other ≠ slot → (s.setSlot slot f).slots other = s.slots other :=
    fun other ne => update_of_ne ne _ _
  have new : (s.setSlot slot f).slots slot = f (s.slots slot) := update_self _ _ _
  refine ⟨Nat.le_refl _, Nat.le_refl _, Nat.le_refl _, Nat.le_refl _, fun _ mem => Or.inl mem,
    fun _ _ held => held, fun _ _ held => held, fun _ _ settled => ⟨settled, rfl⟩,
    fun _ _ _ awaits => Or.inr awaits, fun _ _ _ awaits => Or.inr awaits,
    fun _ _ _ awaits => Or.inr awaits, fun _ _ _ awaits => Or.inr awaits, ?_, ?_⟩
  · intro other _ id waits
    rw [Runtime.AwaitsSlot]
    by_cases same : other = slot
    · subst same
      rw [new]
      obtain ⟨mem, _⟩ | kept := awaits id waits
      · exact Or.inl (Or.inr mem)
      · exact Or.inr kept
    · rw [old other same]
      exact Or.inr waits
  · intro other _ id times
    rw [Runtime.Times, Runtime.AwaitsSlot]
    by_cases same : other = slot
    · subst same
      rw [new]
      obtain done | waits := times
      · exact Or.inl (fired done)
      · exact (awaits id waits).imp_left And.right
    · rw [old other same]
      exact times

theorem foldl {A : Type*} {f : Runtime V → A → Runtime V} (step : ∀ s item, Wakes [] s (f s item))
    (items : List A) (s : Runtime V) :
  Wakes [] s (items.foldl f s)
  := by
  induction items generalizing s with
  | nil => apply refl
  | cons item items ih => exact (step s item).trans (ih (f s item))

end Wakes

end Vilan.Executor
