import Vilan.Executor.Cancelled
import Vilan.Executor.Owning

/-!
# No lost wake-up

A task that is suspended is in the microtask queue, or parked on everything that can make its leaf
future ready.  So nothing that it waits for has happened while the queue is empty.
-/

namespace Vilan.Executor

open List Option Function

variable {V : Type*}

/-! ### What a step wakes -/

/-- The code of a task that begins to be polled: it was suspended, or it is at no leaf future that
has not been made. -/
def Begins (s s' : Runtime V) (polling : Polling V) : Prop :=
  (∃ driver, (s.nodes polling.node).driver = some driver ∧ s.taskAt polling.id = some polling.node ∧
      driver.control = polling.control) ∨
    ∀ call leaf, polling.control = .leaf call leaf → leaf.Named s' polling.id

/-- What a step does to wake lists: it wakes whoever it takes off one, but for tasks that it does not
leave suspended; or the current task suspends; or the slab is reaped. -/
inductive Woke (s s' : Runtime V) : Prop
  | turns {owed : List TaskId} (wakes : Wakes owed s s') (tree : Tree s → Tree s')
      (owing : ∀ id ∈ owed, ∀ task, s.taskAt id = some task → (s'.nodes task).driver = none)
      (polling : ∀ polling ∈ s'.polling, polling ∈ s.polling ∨ Begins s s' polling)
  | suspends {top : Polling V} {rest : List (Polling V)} {call : ℕ} {leaf leaf' : Leaf}
      (running : s.polling = top :: rest) (control : top.control = .leaf call leaf)
      (pending : (s.pollLeaf top.id leaf).2 = .pending leaf')
      (h : s' = (s.pollLeaf top.id leaf).1.suspend top rest call leaf')
  | reaps (h : s' = s.reapSettled)

namespace Woke

variable {s s' : Runtime V} {rest : List (Polling V)} {top : Polling V}

/-- Nothing is polled, or stops being polled. -/
theorem quiet (wakes : Wakes [] s s') (tree : Tree s → Tree s') (polling : s'.polling = s.polling) :
  Woke s s'
  := by
  apply Woke.turns wakes tree
  · intro id mem
    cases mem
  · intro other mem
    rw [polling] at mem
    exact Or.inl mem

/-- The current task goes on. -/
theorem goes (running : s.polling = top :: rest) (wakes : Wakes [] s s') (tree : Tree s → Tree s')
    {frames : List (Frame V)} {control : Control V}
    (polling : s'.polling = ⟨top.id, top.node, frames, control⟩ :: rest)
    (named : ∀ call leaf, control = .leaf call leaf → leaf.Named s' top.id) :
  Woke s s'
  := by
  apply Woke.turns wakes tree
  · intro id mem
    cases mem
  · intro other mem
    rw [polling] at mem
    obtain rfl | mem := mem_cons.mp mem
    · exact Or.inr (Or.inr named)
    · rw [running]
      exact Or.inl (mem_cons_of_mem top mem)

/-- The current task ends. -/
theorem settleTop (lives : Lives s) (logged : Logged s) (owning : Owning s)
    (running : s.polling = top :: rest) (outcome : Outcome V) :
  Woke s (s.settleTop top rest outcome)
  := by
  have top_mem : top ∈ s.polling := by
    rw [running]
    apply mem_cons_self
  have unsettled := lives.unsettled top top_mem
  have made : ∀ nursery, (s.nodes top.node).nursery = some nursery → nursery < s.madeNurseries := by
    intro nursery nursery_eq
    apply owning.owners nursery top.node
    have minted := lives.minted _ _ (lives.named top top_mem)
    exact ⟨_, (logged.spawned top.node _ (some nursery)).mpr ⟨minted, rfl, nursery_eq⟩⟩
  have polling : (s.settleTop top rest outcome).polling = rest :=
    (Runtime.quiet_settleTop unsettled rest outcome).polling
  have told : ∀ outcome, Wakes [] s
      { s.happened (.settled top.node outcome) with polling := rest } :=
    fun outcome => Wakes.unseen s rest s.calls s.stderr _
  have tree_told : ∀ outcome, Tree s → Tree
      ({ s.happened (.settled top.node outcome) with polling := rest } : Runtime V) :=
    fun outcome tree => tree.same (.of_eq rfl rfl)
  refine Woke.turns (?_ : Wakes [] _ _) ?_ ?_ ?_
  · cases outcome with
    | value value =>
      refine ((told (.value value)).trans (Wakes.setNode _ top.node ?_ ?_ ?_)).trans
        (Wakes.settle _ top.node none)
      · exact fun id awaits => Or.inr awaits
      · exact fun settled => ⟨settled, rfl⟩
      · exact fun driver held => held
    | failure failure => exact (told (.failure failure)).trans (Wakes.settle _ top.node _)
  · intro tree
    cases outcome with
    | value value =>
      have same : SameTree { s.happened (.settled top.node (.value value)) with polling := rest }
          (({ s.happened (.settled top.node (.value value)) with polling := rest }
            : Runtime V).setNode top.node fun node => { node with value := some value }) :=
        SameTree.of_eq rfl rfl
      have valued := (tree_told (.value value) tree).same same
      refine valued.settle top.node none ?_
      intro nursery nursery_eq
      apply made
      change (Function.update s.nodes top.node _ top.node).nursery = some nursery at nursery_eq
      rw [update_self] at nursery_eq
      exact nursery_eq
    | failure failure => exact (tree_told (.failure failure) tree).settle top.node _ made
  · intro id mem
    cases mem
  · intro other mem
    rw [polling] at mem
    rw [running]
    exact Or.inl (mem_cons_of_mem top mem)

/-- A `nursery_run` takes one turn of its loop. -/
theorem joinTop (logged : Logged s) (owning : Owning s) (running : s.polling = top :: rest)
    {join : Join V} (control : top.control = .join join) :
  Woke s (s.joinTop top rest join)
  := by
  have top_mem : top ∈ s.polling := by
    rw [running]
    apply mem_cons_self
  have raises : ∀ failure, Woke s (s.joinRaises top rest join failure) := by
    intro failure
    refine goes running ((Wakes.observeAll s _).trans (Wakes.unseen _ _ _ _ _)) ?_ rfl ?_
    · intro tree
      exact (tree.same (.observeAll s _)).same (.of_eq rfl rfl)
    · intro call leaf absurd_
      cases absurd_
  rw [Runtime.joinTop]
  split
  · apply raises
  · apply raises
  · split
    next _ child held =>
      refine goes running (Wakes.unseen s _ _ _ _) (fun tree => tree.same (.of_eq rfl rfl)) rfl ?_
      intro call leaf leaf_eq
      rw [Control.leaf.injEq] at leaf_eq
      obtain ⟨_, rfl⟩ := leaf_eq
      have holds := (owning.polling top top_mem).joins join control
      obtain ⟨lt, held⟩ := List.getElem?_eq_some_iff.mp held
      have mem : child ∈ (s.nurseries join.nursery).children := by
        rw [← held]
        apply getElem_mem
      obtain ⟨origin, spawned⟩ := (owning.owned join.nursery child).mp mem
      exact ⟨((logged.spawned child origin _).mp spawned).1, holds.made⟩
    next value _ _ =>
      refine goes running (Wakes.unseen s _ _ _ _) (fun tree => tree.same (.of_eq rfl rfl)) rfl ?_
      intro call leaf absurd_
      cases absurd_
    next =>
      refine goes running (Wakes.unseen s _ _ _ _) (fun tree => tree.same (.of_eq rfl rfl)) rfl ?_
      intro call leaf absurd_
      cases absurd_

/-- The current task goes on in code, or a failure of it is raised. -/
theorem goesOn (running : s.polling = top :: rest) (frames : List (Frame V)) (calls : ℕ)
    (log : List (Event V)) {control : Control V} (code : ∀ call leaf, control ≠ .leaf call leaf) :
  Woke s ({ s with calls := calls, log := log }.goesOn top rest frames control)
  := by
  refine goes running (Wakes.unseen s _ _ _ _) (fun tree => tree.same (.of_eq rfl rfl)) rfl ?_
  intro call leaf absurd_
  exact absurd absurd_ (code call leaf)

/-- A failure is raised past one frame. -/
theorem unwindTop (lives : Lives s) (logged : Logged s) (owning : Owning s)
    (running : s.polling = top :: rest) (failure : Failure) :
  Woke s (s.unwindTop top rest failure)
  := by
  have top_mem : top ∈ s.polling := by
    rw [running]
    apply mem_cons_self
  rw [Runtime.unwindTop]
  split
  next => exact settleTop lives logged owning running (.failure failure)
  next call nursery frames frames_eq =>
    have made := (owning.polling top top_mem).bodies call nursery (by
      rw [frames_eq]
      apply mem_cons_self)
    have told : Wakes [] s (s.happened (.bodyEnded top.node call (.failure failure))) :=
      Wakes.unseen s s.polling s.calls s.stderr _
    refine goes running ((told.trans (Wakes.cancel _ nursery)).trans (Wakes.unseen _ _ _ _ _)) ?_
      rfl ?_
    · intro tree
      have told : Tree (s.happened (.bodyEnded top.node call (.failure failure))) :=
        tree.same (.of_eq rfl rfl)
      have made_told : nursery <
          (s.happened (.bodyEnded top.node call (.failure failure))).madeNurseries := made
      exact (told.cancel made_told).same (.of_eq rfl rfl)
    · intro call leaf absurd_
      cases absurd_
  next => exact goesOn running _ s.calls s.log fun _ _ same => by cases same
  next => exact goesOn running _ s.calls s.log fun _ _ same => by cases same

/-- The innermost code ends with a value. -/
theorem finishTop (lives : Lives s) (logged : Logged s) (owning : Owning s)
    (running : s.polling = top :: rest) (value : V) :
  Woke s (s.finishTop top rest value)
  := by
  rw [Runtime.finishTop]
  split
  next => exact settleTop lives logged owning running (.value value)
  next => exact goesOn running _ s.calls _ fun _ _ same => by cases same
  next => exact goesOn running _ s.calls s.log fun _ _ same => by cases same
  next => exact goesOn running _ s.calls s.log fun _ _ same => by cases same

/-- Code that may await a leaf future has all it names. -/
theorem named_of_canAwait (id : TaskId) {leaf : Leaf} (can : s.canAwait leaf = true) :
  leaf.Named s id
  := by
  cases leaf with
  | taskJoin task =>
    rw [Runtime.canAwait, decide_eq_true_iff] at can
    exact can
  | nodeJoin node nursery => cases can
  | sleep signal slot =>
    cases slot with
    | none =>
      rw [Runtime.canAwait, Option.all_eq_true] at can
      refine ⟨fun nursery held => of_decide_eq_true (can nursery held), ?_⟩
      intro entry absurd_
      cases absurd_
    | some slot => cases can
  | timerWait timer signal parked =>
    cases parked with
    | false =>
      rw [Runtime.canAwait, Bool.and_eq_true, decide_eq_true_iff, Option.all_eq_true] at can
      exact ⟨can.1, fun nursery held => of_decide_eq_true (can.2 nursery held)⟩
    | true => cases can
  | allSettledOrAnyFailed nodes =>
    rw [Runtime.canAwait, List.all_eq_true] at can
    exact fun task listed => of_decide_eq_true (can task listed)
  | anySettled nodes =>
    rw [Runtime.canAwait, List.all_eq_true] at can
    exact fun task listed => of_decide_eq_true (can task listed)
  | yieldOnce yielded => trivial

/-- Code does something to its own task. -/
theorem codeTop (lives : Lives s) (logged : Logged s) (owning : Owning s)
    (running : s.polling = top :: rest) {action : Action V}
    (h : s.codeTop top rest action = some s') :
  Woke s s'
  := by
  unfold Runtime.codeTop at h
  split at h
  next leaf =>
    split at h
    next can =>
      rw [some_inj] at h
      subst h
      refine goes running (Wakes.unseen s _ _ _ _) (fun tree => tree.same (.of_eq rfl rfl)) rfl ?_
      intro call leaf' leaf_eq
      rw [Control.leaf.injEq] at leaf_eq
      obtain ⟨_, rfl⟩ := leaf_eq
      exact (Wakes.unseen s _ _ s.stderr _).namedLeaf (named_of_canAwait top.id can)
    next => cases h
  next nursery =>
    split at h
    next =>
      rw [some_inj] at h
      subst h
      exact goesOn running _ _ s.log fun _ _ same => by cases same
    next => cases h
  next =>
    rw [some_inj] at h
    subst h
    exact goesOn running _ s.calls s.log fun _ _ same => by cases same
  next value =>
    rw [some_inj] at h
    subst h
    exact finishTop lives logged owning running value
  next failure =>
    rw [some_inj] at h
    subst h
    exact goesOn running _ s.calls s.log fun _ _ same => by cases same
  next => cases h

/-- A leaf future of the current task is polled. -/
theorem pollTop (lives : Lives s) (running : s.polling = top :: rest) {call : ℕ} {leaf : Leaf}
    (control : top.control = .leaf call leaf) :
  Woke s (s.pollTop top rest call leaf)
  := by
  have top_mem : top ∈ s.polling := by
    rw [running]
    apply mem_cons_self
  rw [Runtime.pollTop]
  split
  next leaf' pending => exact Woke.suspends running control pending rfl
  next answer ready =>
    have quiet := Quiet.pollLeaf s top.id leaf
    have answers : ∀ frames control', (∀ call leaf, control' ≠ .leaf call leaf) →
        Woke s (((s.pollLeaf top.id leaf).1.happened (.answered call answer)).goesOn top rest frames
          control') := by
      intro frames control' code
      refine Woke.turns ((Wakes.pollLeaf s top.id leaf).trans ((Wakes.unseen _ _ _ _ _).more _))
        (fun tree => (tree.same (.pollLeaf s top.id leaf)).same (.of_eq rfl rfl)) ?_ ?_
      · intro id mem task named
        rw [mem_singleton] at mem
        rw [mem, lives.named top top_mem, some_inj] at named
        rw [← named]
        exact (quiet.nodes top.node).driver.trans (lives.taken top top_mem)
      · intro other mem
        obtain rfl | mem := mem_cons.mp mem
        · exact Or.inr (Or.inr fun call leaf same => absurd same (code call leaf))
        · rw [running]
          exact Or.inl (mem_cons_of_mem top mem)
    unfold Runtime.answerLeaf
    split
    next => exact answers _ _ fun _ _ same => by cases same
    next => exact answers _ _ fun _ _ same => by cases same
    next => exact answers _ _ fun _ _ same => by cases same

/-- A task that is spawned begins to be polled. -/
theorem begins (lives : Lives s) (origin : String) (nursery : Option ℕ) :
  Woke s (s.begins origin nursery)
  := by
  have node : ∀ task, task ≠ s.madeNodes → (s.begins origin nursery).nodes task = s.nodes task := by
    intro task ne
    change Function.update (Function.update s.nodes s.madeNodes _) s.madeNodes _ task = _
    rw [update_of_ne ne, update_of_ne ne]
  have new : ((s.begins origin nursery).nodes s.madeNodes).driver = none := by
    change (Function.update (Function.update s.nodes s.madeNodes _) s.madeNodes _ s.madeNodes).driver
      = _
    rw [update_self]
  have body : ∀ owner, ∃ children, (s.begins origin nursery).nurseries owner
      = { s.nurseries owner with children := children } := by
    intro owner
    change ∃ children, (if nursery = some owner then _ else s.nurseries owner) = _
    split
    · exact ⟨_, rfl⟩
    · exact ⟨(s.nurseries owner).children, rfl⟩
  have same := Wakes.refl [] s
  refine Woke.turns (⟨Nat.le_succ _, same.madeNurseries, same.madeTimers, same.sequence,
    same.microtasks, ?_, ?_, ?_, ?_, ?_, ?_, same.timers, same.slots, same.times⟩ :
      Wakes [] s (s.begins origin nursery)) ?_ ?_ ?_
  · exact (Runtime.taskAt_registerTask lives.free s.madeNodes).2.1
  · intro task driver held
    by_cases fresh : task = s.madeNodes
    · rw [fresh, new] at held
      cases held
    · rwa [node task fresh] at held
  · intro task lt settled
    rw [node task (Nat.ne_of_lt lt)]
    exact ⟨settled, rfl⟩
  · intro task lt id awaits
    rw [Runtime.AwaitsTask, node task (Nat.ne_of_lt lt)]
    exact Or.inr awaits
  · intro owner _ id awaits
    obtain ⟨children, body_eq⟩ := body owner
    rw [Runtime.AwaitsLatch, body_eq]
    exact Or.inr awaits
  · intro owner _ id awaits
    obtain ⟨children, body_eq⟩ := body owner
    rw [Runtime.AwaitsSignal, body_eq]
    exact Or.inr awaits
  · intro tree
    apply tree.same
    refine ⟨rfl, ?_, ?_, ?_, ?_⟩
    all_goals
      intro owner
      obtain ⟨children, body_eq⟩ := body owner
      rw [body_eq]
    exact fun held => held
  · intro id mem
    cases mem
  · intro polling mem
    obtain rfl | mem := mem_cons.mp mem
    · right
      right
      intro call leaf absurd_
      cases absurd_
    · exact Or.inl mem

/-- **What a step wakes.** -/
theorem step (lives : Lives s) (logged : Logged s) (owning : Owning s) {action : Action V}
    (h : s.step action = some s') :
  Woke s s'
  := by
  unfold Runtime.step at h
  split at h
  next =>
    split at h
    next id microtasks idle microtasks_eq =>
      rw [some_inj] at h
      subst h
      have popped : Wakes [id] s { s with microtasks := microtasks } := by
        refine Wakes.aside s ?_ s.polling s.calls s.stderr s.log
        intro other mem
        rw [microtasks_eq, mem_cons] at mem
        rw [mem_singleton]
        exact mem.symm
      have unmoved : Tree s → Tree ({ s with microtasks := microtasks } : Runtime V) :=
        fun tree => tree.same (.of_eq rfl rfl)
      -- A task the id names is polled, or has not been suspended.
      have stays : (∀ task, s.taskAt id = some task → (s.nodes task).driver = none) →
          Woke s { s with microtasks := microtasks } := by
        intro undriven
        refine Woke.turns popped unmoved ?_ fun polling mem => Or.inl mem
        intro other mem task named
        rw [mem_singleton] at mem
        rw [mem] at named
        exact undriven task named
      rw [Runtime.pollTask]
      split
      next none_ =>
        apply stays
        intro task named
        rw [show s.taskAt id = none from none_] at named
        cases named
      next task named =>
        have named : s.taskAt id = some task := named
        have only : ∀ other, s.taskAt id = some other → other = task := by
          intro other named'
          rw [named, some_inj] at named'
          exact named'.symm
        split
        next settled =>
          apply stays
          intro other named'
          rw [only other named']
          cases driver_eq : (s.nodes task).driver with
          | none => rfl
          | some driver =>
            rw [(lives.suspended task driver driver_eq).1] at settled
            cases settled
        next =>
          split
          next undriven =>
            apply stays
            intro other named'
            rw [only other named']
            exact undriven
          next driver held =>
            have held : (s.nodes task).driver = some driver := held
            have self : (Function.update s.nodes task { s.nodes task with driver := none } task).driver
                = none := by
              rw [update_self]
            refine Woke.turns (popped.trans ((Wakes.setNode _ task ?_ ?_ ?_).trans
              (Wakes.unseen _ _ _ _ _ |>.more _))) (fun tree => tree.same (.of_eq rfl rfl)) ?_ ?_
            · exact fun other awaits => Or.inr awaits
            · exact fun settled => ⟨settled, rfl⟩
            · intro driver absurd_
              cases absurd_
            · intro other mem task' named'
              rw [mem_singleton] at mem
              rw [mem] at named'
              rw [only task' named']
              exact self
            · intro polling mem
              obtain rfl | mem := mem_cons.mp mem
              · exact Or.inr (Or.inl ⟨driver, held, named, rfl⟩)
              · exact Or.inl mem
    next => cases h
  next slot =>
    split at h
    next =>
      rw [some_inj] at h
      subst h
      exact quiet (Wakes.fireTimer s slot) (fun tree => tree.same (.fireTimer s slot))
        (Quiet.fireTimer s slot).polling
    next => cases h
  next =>
    split at h
    next =>
      rw [some_inj] at h
      subst h
      exact quiet (Wakes.reportUnobservedFailures s)
        (fun tree => tree.same (.reportUnobservedFailures s))
        (Quiet.reportUnobservedFailures s).polling
    next => cases h
  next =>
    split at h
    next =>
      rw [some_inj] at h
      exact Woke.reaps h.symm
    next => cases h
  next nursery =>
    split at h
    next =>
      rw [some_inj] at h
      subst h
      refine quiet (Wakes.setNursery s nursery ?_ ?_)
        (fun tree => tree.same (.setNursery s nursery rfl rfl rfl ?_)) rfl
      · exact fun id awaits => Or.inr awaits
      · exact fun id awaits => Or.inr fun absurd_ => by cases absurd_
      · exact fun absurd_ => by cases absurd_
    next => cases h
  next =>
    split at h
    next => cases h
    next top rest running =>
      unfold Runtime.goTop at h
      split at h
      next => cases h
      next control =>
        rw [some_inj] at h
        subst h
        exact pollTop lives running control
      next control =>
        rw [some_inj] at h
        subst h
        exact joinTop logged owning running control
      next =>
        rw [some_inj] at h
        subst h
        exact unwindTop lives logged owning running _
  next origin nursery =>
    split at h
    next =>
      rw [some_inj] at h
      subst h
      rw [Runtime.spawnIn_eq lives.free]
      exact begins lives origin nursery
    next => cases h
  next parent =>
    split at h
    next guard =>
      rw [some_inj] at h
      subst h
      rw [Bool.and_eq_true, Option.all_eq_true] at guard
      refine quiet (Wakes.nurseryNew s parent) (fun tree => tree.nurseryNew ?_)
        (Runtime.quiet_nurseryNew s parent).polling
      intro nursery held
      have reach := guard.2 nursery held
      rw [Runtime.reaches, Bool.and_eq_true, decide_eq_true_iff] at reach
      exact reach.1
    next => cases h
  next =>
    split at h
    next =>
      rw [some_inj] at h
      subst h
      exact quiet (Wakes.opens s _) (fun tree => tree.opens rfl rfl) rfl
    next => cases h
  next nursery =>
    split at h
    next guard =>
      rw [some_inj] at h
      subst h
      rw [Bool.and_eq_true, Runtime.reaches, Bool.and_eq_true, decide_eq_true_iff] at guard
      exact quiet (Wakes.cancel s nursery) (fun tree => tree.cancel guard.2.1)
        (Quiet.cancel s nursery).polling
    next => cases h
  next =>
    split at h
    next =>
      rw [some_inj] at h
      subst h
      exact quiet (Wakes.timer s) (fun tree => tree.same (.of_eq rfl rfl)) rfl
    next => cases h
  next timer =>
    split at h
    next =>
      rw [some_inj] at h
      subst h
      exact quiet (Wakes.cancelTimer s timer) (fun tree => tree.same (.cancelTimer s timer))
        (Quiet.cancelTimer s timer).polling
    next => cases h
  next =>
    split at h
    next => cases h
    next top rest running =>
      split at h
      next => exact codeTop lives logged owning running h
      next => cases h

end Woke

variable {s : Runtime V} {id : TaskId}

theorem TreeBut.step {s' : Runtime V} (tree : Tree s) (woke : Woke s s') :
  Tree s'
  := by
  cases woke with
  | turns _ kept => exact kept tree
  | suspends _ _ _ eq =>
    rw [eq]
    exact (tree.same (.pollLeaf s _ _)).same (.of_eq rfl rfl)
  | reaps eq =>
    rw [eq]
    exact tree.same (.of_eq rfl rfl)

/-! ### One id for each task -/

/-- No two ids name one task. -/
def Unique (s : Runtime V) : Prop :=
  ∀ id id' task, s.taskAt id = some task → s.taskAt id' = some task → id = id'

theorem Unique.moved {s' : Runtime V} (unique : Unique s) (lives : Lives s) (moved : Moved s s') :
  Unique s'
  := by
  have same : ∀ {s s' : Runtime V}, Unique s → s'.tasks = s.tasks → Unique s' := by
    intro s s' unique tasks id id' task named named'
    rw [Runtime.taskAt_congr tasks] at named named'
    exact unique id id' task named named'
  cases moved with
  | quiet quiet => exact same unique quiet.tasks
  | polled _ _ _ _ quiet => exact same unique quiet.tasks
  | reaped _ eq =>
    rw [eq]
    intro id id' task named named'
    exact unique id id' task (Runtime.taskAt_reapSettled.mp named).1
      (Runtime.taskAt_reapSettled.mp named').1
  | @spawned origin nursery _ quiet =>
    have registered : Unique (s.registerTask s.madeNodes).1 := by
      have minted : ∀ id, s.taskAt id ≠ some s.madeNodes := by
        intro id named
        exact Nat.lt_irrefl _ (lives.minted id _ named)
      have either := (Runtime.taskAt_registerTask lives.free s.madeNodes).2.2
      intro id id' task named named'
      obtain ⟨task_eq, id_eq⟩ | old := either id task named
      · obtain ⟨_, id_eq'⟩ | old' := either id' task named'
        · rw [id_eq, id_eq']
        · rw [task_eq] at old'
          exact absurd old' (minted id')
      · obtain ⟨task_eq, _⟩ | old' := either id' task named'
        · rw [task_eq] at old
          exact absurd old (minted id)
        · exact unique id id' task old old'
    exact same registered quiet.tasks
  | opened quiet => exact same unique quiet.tasks
  | suspended _ _ _ quiet => exact same unique quiet.tasks
  | settled _ _ _ quiet => exact same unique quiet.tasks
  | gone _ _ quiet => exact same unique quiet.tasks

/-! ### Leaf futures that are pending -/

/-- A task that is parked on another awaits it, and whoever did still does. -/
theorem Runtime.awaitsTask_parkNode {other : TaskId} {task parked : ℕ}
    (awaits : s.AwaitsTask other task ∨
      other = id ∧ task = parked ∧ (s.nodes task).settled = false) :
  (s.parkNode id parked).AwaitsTask other task
  := by
  change (Function.update s.nodes parked _ task).settled = false ∧
    other ∈ (Function.update s.nodes parked _ task).waiters
  by_cases same : task = parked
  · subst same
    rw [update_self]
    obtain awaits | ⟨rfl, _, unsettled⟩ := awaits
    · exact ⟨awaits.1, mem_append_left _ awaits.2⟩
    · exact ⟨unsettled, mem_append_right _ mem_cons_self⟩
  · rw [update_of_ne same]
    obtain awaits | ⟨_, same', _⟩ := awaits
    · exact awaits
    · exact absurd same' same

/-- Parking changes no outcome. -/
theorem Runtime.parkNode_outcome (s : Runtime V) (id : TaskId) (parked task : ℕ) :
  ((s.parkNode id parked).nodes task).settled = (s.nodes task).settled ∧
    ((s.parkNode id parked).nodes task).failure = (s.nodes task).failure
  := by
  change (Function.update s.nodes parked _ task).settled = _ ∧
    (Function.update s.nodes parked _ task).failure = _
  by_cases same : task = parked
  · subst same
    rw [update_self]
    exact ⟨rfl, rfl⟩
  · rw [update_of_ne same]
    exact ⟨rfl, rfl⟩

/-- Observing changes no outcome. -/
theorem Runtime.observe_outcome (s : Runtime V) (observed task : ℕ) :
  ((s.observe observed).nodes task).settled = (s.nodes task).settled ∧
    ((s.observe observed).nodes task).failure = (s.nodes task).failure
  := by
  change (Function.update s.nodes observed _ task).settled = _ ∧
    (Function.update s.nodes observed _ task).failure = _
  by_cases same : task = observed
  · subst same
    rw [update_self]
    exact ⟨rfl, rfl⟩
  · rw [update_of_ne same]
    exact ⟨rfl, rfl⟩

theorem Runtime.observeAll_outcome (s : Runtime V) (tasks : List ℕ) (task : ℕ) :
  ((s.observeAll tasks).nodes task).settled = (s.nodes task).settled ∧
    ((s.observeAll tasks).nodes task).failure = (s.nodes task).failure
  := by
  induction tasks generalizing s with
  | nil => exact ⟨rfl, rfl⟩
  | cons observed tasks ih =>
    obtain ⟨settled, failure⟩ := ih (s.observe observed)
    obtain ⟨settled', failure'⟩ := s.observe_outcome observed task
    exact ⟨settled.trans settled', failure.trans failure'⟩

/-- Parking on a list of tasks parks on every one that has not settled, when none is left out but
settled ones. -/
theorem Runtime.parkAll (id : TaskId) (f : Runtime V → ℕ → Runtime V)
    (step : ∀ s task, f s task = s.parkNode id task ∨ f s task = s ∧ (s.nodes task).settled = true)
    (nodes : List ℕ) (s : Runtime V) :
  (∀ task, ((nodes.foldl f s).nodes task).settled = (s.nodes task).settled ∧
      ((nodes.foldl f s).nodes task).failure = (s.nodes task).failure) ∧
    (∀ task, s.AwaitsTask id task → (nodes.foldl f s).AwaitsTask id task) ∧
    ∀ task ∈ nodes, (s.nodes task).settled = false → (nodes.foldl f s).AwaitsTask id task
  := by
  induction nodes generalizing s with
  | nil =>
    refine ⟨fun task => ⟨rfl, rfl⟩, fun task awaits => awaits, ?_⟩
    intro task absurd_
    cases absurd_
  | cons first nodes ih =>
    obtain ⟨outcome, kept, parked⟩ := ih (f s first)
    rw [foldl_cons]
    obtain parks | ⟨skips, settled⟩ := step s first
    · rw [parks] at outcome kept parked ⊢
      refine ⟨?_, ?_, ?_⟩
      · intro task
        obtain ⟨settled, failure⟩ := outcome task
        obtain ⟨settled', failure'⟩ := s.parkNode_outcome id first task
        exact ⟨settled.trans settled', failure.trans failure'⟩
      · exact fun task awaits => kept task (awaitsTask_parkNode (Or.inl awaits))
      · intro task listed unsettled
        obtain rfl | listed := mem_cons.mp listed
        · exact kept task (awaitsTask_parkNode (Or.inr ⟨rfl, rfl, unsettled⟩))
        · apply parked task listed
          rw [(s.parkNode_outcome id first task).1]
          exact unsettled
    · rw [skips] at outcome kept parked ⊢
      refine ⟨outcome, kept, ?_⟩
      intro task listed unsettled
      obtain rfl | listed := mem_cons.mp listed
      · rw [unsettled] at settled
        cases settled
      · exact parked task listed unsettled

/-- A signal that is not aborted is not of a nursery that is there and cancelled. -/
theorem Runtime.alive_of_abortedBy {signal : Option ℕ} (alive : s.abortedBy signal = false) :
  ∀ nursery ∈ signal, (s.nurseries nursery).held = true → (s.nurseries nursery).cancelled = false
  := by
  intro nursery held there
  rw [mem_def] at held
  rw [held, Runtime.abortedBy, any_some, Runtime.aborted, there, Bool.true_and,
    Runtime.isCancelled, Runtime.isCancelledWithin, Bool.or_eq_false_iff] at alive
  exact alive.1

/-- Who is parked on a signal that is not aborted hears of it. -/
theorem Runtime.awaitsSignal_parkSignal {signal : Option ℕ}
    (alive : ∀ nursery ∈ signal, (s.nurseries nursery).held = true →
      (s.nurseries nursery).cancelled = false) :
  ∀ nursery ∈ signal, (s.parkSignal id signal).AwaitsSignal id nursery
  := by
  rintro nursery held
  have uncancelled := alive nursery held
  rw [mem_def] at held
  subst held
  rw [Runtime.parkSignal]
  split
  next there =>
    intro _
    change (Function.update s.nurseries nursery _ nursery).cancelled = false ∧
      id ∈ (Function.update s.nurseries nursery _ nursery).cancelWaiters
    rw [update_self]
    exact ⟨uncancelled there, mem_append_right _ mem_cons_self⟩
  next gone => exact fun there => absurd there gone

/-- Parking on a signal changes no timer. -/
theorem Runtime.parkSignal_timers (s : Runtime V) (id : TaskId) (signal : Option ℕ) :
  (s.parkSignal id signal).timers = s.timers ∧ (s.parkSignal id signal).slots = s.slots
  := by
  cases signal with
  | none => exact ⟨rfl, rfl⟩
  | some nursery =>
    rw [Runtime.parkSignal]
    split
    · exact ⟨rfl, rfl⟩
    · exact ⟨rfl, rfl⟩

/-- A leaf future that is pending has parked the task that polled it, or enqueued it. -/
theorem parked_of_pending {leaf leaf' : Leaf} (named : leaf.Named s id)
    (pending : (s.pollLeaf id leaf).2 = .pending leaf') :
  leaf'.Named (s.pollLeaf id leaf).1 id ∧ (id ∈ (s.pollLeaf id leaf).1.microtasks ∨
    leaf'.Parked (s.pollLeaf id leaf).1 id)
  := by
  have named' := (Wakes.pollLeaf s id leaf).namedLeaf named
  cases leaf with
  | taskJoin task =>
    rw [Runtime.pollLeaf, Runtime.pollTaskJoin] at pending named' ⊢
    split at pending
    next => cases pending
    next unsettled =>
      rw [if_neg unsettled] at named' ⊢
      rw [Polled.pending.injEq] at pending
      subst pending
      rw [Bool.not_eq_true] at unsettled
      exact ⟨named', Or.inr (Runtime.awaitsTask_parkNode (Or.inr ⟨rfl, rfl, unsettled⟩))⟩
  | nodeJoin node nursery =>
    rw [Runtime.pollLeaf, Runtime.pollNodeJoin] at pending named' ⊢
    split at pending
    next => cases pending
    next unready =>
      rw [if_neg unready] at named' ⊢
      rw [Polled.pending.injEq] at pending
      subst pending
      rw [Bool.or_eq_true, not_or, Bool.not_eq_true, Bool.not_eq_true,
        isSome_eq_false_iff, isNone_iff_eq_none] at unready
      refine ⟨named', Or.inr ⟨Runtime.awaitsTask_parkNode (Or.inr ⟨rfl, rfl, unready.1⟩), ?_⟩⟩
      change (Function.update s.nurseries nursery _ nursery).failed = none ∧
        id ∈ (Function.update s.nurseries nursery _ nursery).failWaiters
      rw [update_self]
      exact ⟨unready.2, mem_append_right _ mem_cons_self⟩
  | sleep signal slot =>
    cases slot with
    | none =>
      rw [Runtime.pollLeaf, Runtime.pollSleep] at pending named' ⊢
      split at pending
      next => cases pending
      next alive =>
        rw [if_neg alive] at named' ⊢
        rw [Polled.pending.injEq] at pending
        subst pending
        rw [Bool.not_eq_true] at alive
        have alive := Runtime.alive_of_abortedBy alive
        have awaits : ((s.registerTimer (.enqueue (some id))).1.parkSignal id signal).AwaitsSlot id
            s.sequence := by
          rw [Runtime.AwaitsSlot, (Runtime.parkSignal_timers _ id signal).2]
          change (Function.update s.slots s.sequence _ s.sequence).fired = false ∧
            (Function.update s.slots s.sequence _ s.sequence).action = _
          rw [update_self]
          exact ⟨rfl, rfl⟩
        refine ⟨⟨named'.1, ?_⟩, Or.inr ⟨⟨s.sequence, rfl, awaits⟩, ?_⟩⟩
        · intro entry held
          rw [mem_def, some_inj] at held
          subst held
          refine ⟨?_, Or.inr awaits⟩
          exact Nat.lt_of_lt_of_le (Nat.lt_succ_self s.sequence)
            (Wakes.parkSignal (s.registerTimer (.enqueue (some id))).1 id signal).sequence
        · exact Runtime.awaitsSignal_parkSignal alive
    | some slot =>
      rw [Runtime.pollLeaf, Runtime.pollSleep] at pending named' ⊢
      split at pending
      next => cases pending
      next alive =>
        rw [if_neg alive] at named' ⊢
        split at pending
        next => cases pending
        next unfired =>
          rw [if_neg unfired] at named' ⊢
          rw [Polled.pending.injEq] at pending
          subst pending
          rw [Bool.not_eq_true] at alive
          have alive := Runtime.alive_of_abortedBy alive
          refine ⟨named', Or.inr ⟨⟨slot, rfl, ?_⟩, Runtime.awaitsSignal_parkSignal alive⟩⟩
          rw [Runtime.AwaitsSlot, (Runtime.parkSignal_timers s id signal).2]
          exact (named.2 slot rfl).2.resolve_left unfired
  | timerWait timer signal parked =>
    rw [Runtime.pollLeaf, Runtime.pollTimerWait] at pending named' ⊢
    split at pending
    next => cases pending
    next unsettled =>
      rw [if_neg unsettled] at named' ⊢
      split at pending
      next => cases pending
      next alive =>
        rw [if_neg alive] at named' ⊢
        rw [Polled.pending.injEq] at pending
        subst pending
        rw [Bool.not_eq_true] at alive unsettled
        have alive := Runtime.alive_of_abortedBy alive
        refine ⟨named', Or.inr ⟨?_, Runtime.awaitsSignal_parkSignal alive⟩⟩
        rw [Runtime.AwaitsTimer, (Runtime.parkSignal_timers _ id signal).1]
        change (Function.update s.timers timer _ timer).settled = false ∧
          id ∈ (Function.update s.timers timer _ timer).waiters
        rw [update_self]
        exact ⟨unsettled, mem_append_right _ mem_cons_self⟩
  | allSettledOrAnyFailed nodes =>
    have observed := s.observeAll_outcome nodes
    rw [Runtime.pollLeaf, Runtime.pollSettleAll] at pending named' ⊢
    split at pending
    next => cases pending
    next unready =>
      rw [if_neg unready] at named' ⊢
      rw [Polled.pending.injEq] at pending
      subst pending
      rw [Bool.or_eq_true, not_or, List.any_eq_true, List.all_eq_true] at unready
      obtain ⟨outcome, _, parks⟩ := Runtime.parkAll id (fun s task =>
        if (s.nodes task).settled then s else s.parkNode id task) (by
          intro s task
          split
          next settled => exact Or.inr ⟨rfl, settled⟩
          next => exact Or.inl rfl) nodes (s.observeAll nodes)
      refine ⟨named', Or.inr ⟨?_, ?_⟩⟩
      · obtain ⟨task, unsettled⟩ := not_forall.mp unready.2
        rw [Classical.not_imp, Bool.not_eq_true] at unsettled
        exact ⟨task, unsettled.1, parks task unsettled.1 unsettled.2⟩
      · intro task listed
        by_cases settled : ((s.observeAll nodes).nodes task).settled = true
        · refine Or.inr ⟨(outcome task).1.trans settled, (outcome task).2.trans ?_⟩
          by_contra failed
          apply unready.1
          refine ⟨task, listed, ?_⟩
          rw [settled, Bool.true_and, isSome_iff_ne_none]
          exact failed
        · rw [Bool.not_eq_true] at settled
          exact Or.inl (parks task listed settled)
  | anySettled nodes =>
    rw [Runtime.pollLeaf, Runtime.pollRace] at pending named' ⊢
    split at pending
    next => cases pending
    next unready =>
      rw [if_neg unready] at named' ⊢
      rw [Polled.pending.injEq] at pending
      subst pending
      rw [List.any_eq_true, not_exists] at unready
      obtain ⟨_, _, parks⟩ := Runtime.parkAll id (fun s task => s.parkNode id task)
        (fun s task => Or.inl rfl) nodes (s.observeAll nodes)
      refine ⟨named', Or.inr ?_⟩
      intro task listed
      apply parks task listed
      rw [← Bool.not_eq_true]
      exact fun settled => unready task ⟨listed, settled⟩
  | yieldOnce yielded =>
    rw [Runtime.pollLeaf, Runtime.pollYieldOnce] at pending ⊢
    split at pending
    next => cases pending
    next unyielded =>
      rw [if_neg unyielded]
      rw [Polled.pending.injEq] at pending
      subst pending
      exact ⟨trivial, Or.inl (mem_append_right _ mem_cons_self)⟩

/-- Suspending the current task unparks nobody. -/
theorem Leaf.Parked.suspend {leaf : Leaf} (parked : leaf.Parked s id) (top : Polling V)
    (rest : List (Polling V)) (call : ℕ) (leaf' : Leaf) :
  leaf.Parked (s.suspend top rest call leaf') id
  := by
  have node : ∀ task, ∃ driver, (s.suspend top rest call leaf').nodes task
      = { s.nodes task with driver := driver } := by
    intro task
    change ∃ driver, Function.update s.nodes top.node _ task = _
    by_cases same : task = top.node
    · subst same
      rw [update_self]
      exact ⟨_, rfl⟩
    · rw [update_of_ne same]
      exact ⟨(s.nodes task).driver, rfl⟩
  have awaits : ∀ task, s.AwaitsTask id task →
      (s.suspend top rest call leaf').AwaitsTask id task := by
    intro task awaits
    obtain ⟨driver, node_eq⟩ := node task
    rw [Runtime.AwaitsTask, node_eq]
    exact awaits
  cases leaf with
  | taskJoin task => exact awaits task parked
  | nodeJoin node nursery => exact ⟨awaits node parked.1, parked.2⟩
  | sleep signal slot => exact parked
  | timerWait timer signal _ => exact parked
  | allSettledOrAnyFailed nodes =>
    obtain ⟨⟨task, listed, waits⟩, all⟩ := parked
    refine ⟨⟨task, listed, awaits task waits⟩, ?_⟩
    intro task listed
    obtain ⟨driver, node_eq⟩ := node task
    rw [node_eq]
    exact (all task listed).imp_left (awaits task)
  | anySettled nodes => exact fun task listed => awaits task (parked task listed)
  | yieldOnce _ => exact parked

/-! ### The invariant -/

/-- Every suspended task is at a leaf future, and in the microtask queue or parked; and whatever a
leaf future that is being polled names was made. -/
structure Armed (s : Runtime V) : Prop where
  polling : ∀ polling ∈ s.polling, ∀ call leaf, polling.control = .leaf call leaf →
    leaf.Named s polling.id
  suspended : ∀ task driver, (s.nodes task).driver = some driver → ∃ id call leaf,
    s.taskAt id = some task ∧ driver.control = .leaf call leaf ∧ leaf.Named s id ∧
      (id ∈ s.microtasks ∨ leaf.Parked s id)

namespace Armed

theorem new :
  Armed (Runtime.new : Runtime V)
  where
  polling := by simp [Runtime.new]
  suspended := by simp [Runtime.new]

/-- What a step wakes leaves every suspended task armed. -/
theorem wakes {owed : List TaskId} {s s' : Runtime V} (armed : Armed s) (unique : Unique s)
    (wakes : Wakes owed s s')
    (owing : ∀ id ∈ owed, ∀ task, s.taskAt id = some task → (s'.nodes task).driver = none)
    (polling : ∀ polling ∈ s'.polling, polling ∈ s.polling ∨ Begins s s' polling) :
  Armed s'
  := by
  refine ⟨?_, ?_⟩
  · intro other mem call leaf control
    obtain mem | ⟨driver, held, named, control_eq⟩ | made := polling other mem
    · exact wakes.namedLeaf (armed.polling other mem call leaf control)
    · obtain ⟨id, call', leaf', named', leaf_eq, made, _⟩ := armed.suspended _ driver held
      rw [control_eq, control, Control.leaf.injEq] at leaf_eq
      obtain ⟨_, rfl⟩ := leaf_eq
      rw [unique _ _ _ named named']
      exact wakes.namedLeaf made
    · exact made call leaf control
  · intro task driver held
    obtain ⟨id, call, leaf, named, control, made, queued⟩ :=
      armed.suspended task driver (wakes.drivers task driver held)
    refine ⟨id, call, leaf, wakes.named id task named, control, wakes.namedLeaf made, ?_⟩
    have woken : Woken owed s' id → id ∈ s'.microtasks := by
      rintro (mem | mem)
      · exact mem
      · have undriven := owing id mem task named
        rw [held] at undriven
        cases undriven
    obtain mem | parked := queued
    · exact Or.inl (woken (wakes.microtasks id mem))
    · exact (wakes.parked made parked).imp_left woken

theorem step {s s' : Runtime V} (armed : Armed s) (unique : Unique s) (lives : Lives s)
    (woke : Woke s s') :
  Armed s'
  := by
  cases woke with
  | turns wakes _ owing polling => exact armed.wakes unique wakes owing polling
  | reaps eq =>
    rw [eq]
    refine ⟨armed.polling, ?_⟩
    intro task driver held
    obtain ⟨id, call, leaf, named, control, made, queued⟩ := armed.suspended task driver held
    have unsettled := (lives.suspended task driver held).1
    exact ⟨id, call, leaf, Runtime.taskAt_reapSettled.mpr ⟨named, unsettled⟩, control, made, queued⟩
  | @suspends top rest call leaf leaf' running control pending eq =>
    have top_mem : top ∈ s.polling := by
      rw [running]
      apply mem_cons_self
    have quiet := Quiet.pollLeaf s top.id leaf
    have wakes := Wakes.pollLeaf s top.id leaf
    have named := lives.named top top_mem
    have polled : Armed (s.pollLeaf top.id leaf).1 := by
      apply armed.wakes unique wakes
      · intro id mem task named'
        rw [mem_singleton] at mem
        rw [mem, named, some_inj] at named'
        rw [← named']
        exact (quiet.nodes top.node).driver.trans (lives.taken top top_mem)
      · intro other mem
        rw [quiet.polling] at mem
        exact Or.inl mem
    obtain ⟨made, parked⟩ :=
      parked_of_pending (armed.polling top top_mem call leaf control) pending
    rw [eq]
    refine ⟨?_, ?_⟩
    · intro other mem call' leaf'' control'
      have mem' : other ∈ (s.pollLeaf top.id leaf).1.polling := by
        rw [quiet.polling, running]
        exact mem_cons_of_mem top mem
      exact polled.polling other mem' call' leaf'' control'
    · intro task driver held
      change (Function.update (s.pollLeaf top.id leaf).1.nodes top.node _ task).driver = _ at held
      by_cases same : task = top.node
      · subst same
        rw [update_self, some_inj] at held
        rw [← held]
        refine ⟨top.id, call, leaf', ?_, rfl, made, ?_⟩
        · exact wakes.named top.id top.node named
        · exact parked.imp_right fun parked => parked.suspend top rest call leaf'
      · rw [update_of_ne same] at held
        obtain ⟨id, call', leaf'', named', control', made', queued⟩ :=
          polled.suspended task driver held
        exact ⟨id, call', leaf'', named', control', made',
          queued.imp_right fun parked => parked.suspend top rest call leaf'⟩

end Armed

/-! ### Runs -/

theorem Run.armed {actions : List (Action V)} (run : Run actions s) :
  Armed s ∧ Tree s
  := by
  apply (Machine.Run.invariant (P := fun s =>
    (Lives s ∧ Logged s ∧ Owning s) ∧ Unique s ∧ Armed s ∧ Tree s) _ _ run).2.2
  · rintro s rfl
    refine ⟨⟨Lives.new, Logged.new, Owning.new⟩, ?_, Armed.new, TreeBut.new⟩
    intro id id' task named
    rw [Runtime.taskAt_eq_some_iff] at named
    cases named
  · rintro s action s' ⟨⟨lives, logged, owning⟩, unique, armed, tree⟩ h
    have moved := lives.moved h
    have woke := Woke.step lives logged owning h
    exact ⟨⟨lives.step h, logged.moved lives moved, owning.moved lives logged moved⟩,
      unique.moved lives moved, armed.step unique lives woke, tree.step woke⟩

/-- What a leaf future waits for has happened. -/
def Leaf.Holds (s : Runtime V) : Leaf → Prop
  | .taskJoin task => (s.nodes task).settled = true
  | .nodeJoin node nursery =>
      (s.nodes node).settled = true ∨ (s.nurseries nursery).failed ≠ none
  | .sleep signal slot =>
      (∃ entry ∈ slot, (s.slots entry).fired = true) ∨ s.abortedBy signal = true
  | .timerWait timer signal _ => (s.timers timer).settled = true ∨ s.abortedBy signal = true
  | .allSettledOrAnyFailed nodes =>
      (∃ task ∈ nodes, (s.nodes task).settled = true ∧ (s.nodes task).failure ≠ none) ∨
        ∀ task ∈ nodes, (s.nodes task).settled = true
  | .anySettled nodes => ∃ task ∈ nodes, (s.nodes task).settled = true
  | .yieldOnce yielded => yielded = true

/-- **No lost wake-up.**  Whenever the microtask queue is empty, no suspended task waits for what has
happened already; and a task is suspended at a leaf future only. -/
theorem no_lost_wakeup {actions : List (Action V)} {s : Runtime V} (run : Run actions s)
    (drained : s.microtasks = []) {task : ℕ} {driver : Driver V}
    (suspended : (s.nodes task).driver = some driver) :
  ∃ call leaf, driver.control = .leaf call leaf ∧ ¬ leaf.Holds s
  := by
  obtain ⟨armed, tree⟩ := run.armed
  obtain ⟨id, call, leaf, _, control, named, queued⟩ := armed.suspended task driver suspended
  refine ⟨call, leaf, control, ?_⟩
  rw [drained] at queued
  have parked := queued.resolve_left not_mem_nil
  have unaborted : ∀ signal, (∀ nursery ∈ signal, nursery < s.madeNurseries) →
      (∀ nursery ∈ signal, s.AwaitsSignal id nursery) → ¬ s.abortedBy signal = true := by
    intro signal made heard aborted
    rw [Runtime.abortedBy, Option.any_eq_true] at aborted
    obtain ⟨nursery, held, aborted⟩ := aborted
    rw [Runtime.aborted, Bool.and_eq_true] at aborted
    have cancelled := tree.cancelled_of_isCancelledWithin (made nursery held) aborted.1 aborted.2
    rw [(heard nursery held aborted.1).1] at cancelled
    cases cancelled
  have unsettled : ∀ task, s.AwaitsTask id task → ¬ (s.nodes task).settled = true := by
    intro task awaits settled
    rw [awaits.1] at settled
    cases settled
  cases leaf with
  | taskJoin task => exact unsettled task parked
  | nodeJoin node nursery =>
    rintro (settled | failed)
    · exact unsettled node parked.1 settled
    · exact failed parked.2.1
  | sleep signal slot =>
    obtain ⟨⟨entry, rfl, awaits⟩, heard⟩ := parked
    rintro (⟨fired, held, done⟩ | aborted)
    · rw [mem_def, some_inj] at held
      rw [← held, awaits.1] at done
      cases done
    · exact unaborted signal named.1 heard aborted
  | timerWait timer signal _ =>
    rintro (settled | aborted)
    · rw [parked.1.1] at settled
      cases settled
    · exact unaborted signal named.2 parked.2 aborted
  | allSettledOrAnyFailed nodes =>
    obtain ⟨⟨waited, listed, awaits⟩, all⟩ := parked
    rintro (⟨task, listed, settled, failed⟩ | settled)
    · obtain awaits | ⟨_, succeeded⟩ := all task listed
      · exact unsettled task awaits settled
      · exact failed succeeded
    · exact unsettled waited awaits (settled waited listed)
  | anySettled nodes =>
    rintro ⟨task, listed, settled⟩
    exact unsettled task (parked task listed) settled
  | yieldOnce yielded => exact fun _ => parked

/-- A task sleeps under the signal of a nursery, whose parent is cancelled, and is polled again
before the queue is empty; another waits for a timer. -/
def wakingRun : List (Action ℕ) :=
  [.nurseryNew none, .nurseryNew (some 0), .timer, .spawn "sleeper" none,
    .await (.sleep (some 1) none), .go, .spawn "waiter" none, .await (.timerWait 0 (some 1) false), .go,
    .spawn "other" none, .await (.timerWait 0 none false), .go, .cancel 0, .poll, .go, .go,
    .poll, .go, .go]

/-- The task that still waits is one whose timer has not settled. -/
theorem no_lost_wakeup_other :
  ∃ (s : Runtime ℕ) (driver : Driver ℕ), Run wakingRun s ∧ (s.nodes 2).driver = some driver ∧
    ∃ call leaf, driver.control = .leaf call leaf ∧ ¬ leaf.Holds s
  := by
  obtain ⟨s, driver, run, drained, suspended⟩ : ∃ s driver,
      wakingRun.foldlM Runtime.step .new = some s ∧ s.microtasks = [] ∧
        (s.nodes 2).driver = some driver := ⟨_, _, rfl, rfl, rfl⟩
  exact ⟨s, driver, Run.of_foldlM run, suspended,
    no_lost_wakeup (Run.of_foldlM run) drained suspended⟩

/-- Whether a nursery that is there is cancelled is its own flag in every run: cancelling one has
reached all those below it. -/
theorem isCancelled_eq_cancelled {actions : List (Action V)} {s : Runtime V} (run : Run actions s)
    {nursery : ℕ} (made : nursery < s.madeNurseries)
    (held : (s.nurseries nursery).held = true) :
  s.isCancelled nursery = (s.nurseries nursery).cancelled
  := by
  rw [Bool.eq_iff_iff]
  constructor
  · apply run.armed.2.cancelled_of_isCancelledWithin made held
  · intro cancelled
    rw [Runtime.isCancelled, Runtime.isCancelledWithin, cancelled, Bool.true_or]

/-- The sleeper's nursery, after its parent was cancelled. -/
theorem isCancelled_eq_cancelled_waking :
  ∃ s, Run wakingRun s ∧ s.isCancelled 1 = (s.nurseries 1).cancelled
  := by
  obtain ⟨s, run, made, held⟩ : ∃ s, wakingRun.foldlM Runtime.step .new = some s ∧
      1 < s.madeNurseries ∧ (s.nurseries 1).held = true := ⟨_, rfl, by decide, rfl⟩
  exact ⟨s, Run.of_foldlM run, isCancelled_eq_cancelled (Run.of_foldlM run) made held⟩

end Vilan.Executor
