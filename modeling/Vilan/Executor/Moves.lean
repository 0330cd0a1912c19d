import Vilan.Executor.Quiet

/-!
# What a step does

Up to a quiet change a step is one of a few: a task is polled, spawned, suspends or settles, a
nursery is made, or the current task goes on, with other frames and another control.
-/

namespace Vilan.Executor

variable {V : Type*}

namespace Outcome

/-- The failure of an outcome. -/
def failure? : Outcome V → Option Failure
  | .value _ => none
  | .failure cause => some cause

/-- What a value's cell holds after an outcome. -/
def valueOr (held : Option V) : Outcome V → Option V
  | .value found => some found
  | .failure _ => held

/-- Whether an outcome is a real error. -/
def isPanic : Outcome V → Bool
  | .failure (.panic _ _) => true
  | _ => false

end Outcome

namespace Runtime

/-- A task's driver is taken to be polled. -/
def takes (s : Runtime V) (id : TaskId) (task : ℕ) (driver : Driver V) : Runtime V :=
  { s.setNode task fun node => { node with driver := none } with
    polling := ⟨id, task, driver.frames, driver.control⟩ :: s.polling }

/-- A new task, in a slot of the slab and among the children of its nursery. -/
def enters (s : Runtime V) (origin : String) (nursery : Option ℕ) : Runtime V :=
  { s with
    nodes := (s.makeNode origin nursery).nodes
    madeNodes := s.madeNodes + 1
    nurseries := fun other =>
      if nursery = some other then
        { s.nurseries other with children := (s.nurseries other).children ++ [s.madeNodes] }
      else s.nurseries other
    tasks := (s.registerTask s.madeNodes).1.tasks
    freeSlots := (s.registerTask s.madeNodes).1.freeSlots
    log := s.log ++ [.spawned s.madeNodes origin nursery] }

/-- A new task is being polled. -/
def begins (s : Runtime V) (origin : String) (nursery : Option ℕ) : Runtime V :=
  (s.enters origin nursery).takes (s.registerTask s.madeNodes).2 s.madeNodes ⟨[], .code⟩

/-- Whether a task that ends latches its nursery. -/
def latches (s : Runtime V) (task : ℕ) (outcome : Outcome V) (nursery : ℕ) : Prop :=
  outcome.isPanic = true ∧ (s.nodes task).nursery = some nursery
    ∧ (s.nurseries nursery).detached = false ∧ (s.nurseries nursery).failed = none

instance (s : Runtime V) (task : ℕ) (outcome : Outcome V) (nursery : ℕ) :
    Decidable (s.latches task outcome nursery) :=
  inferInstanceAs (Decidable (_ ∧ _ ∧ _ ∧ _))

/-- A task that was being polled has ended. -/
def ended (s : Runtime V) (task : ℕ) (rest : List (Polling V)) (outcome : Outcome V) :
    Runtime V :=
  { s with
    nodes := Function.update s.nodes task
      { s.nodes task with
        settled := true
        driver := none
        failure := outcome.failure?
        value := outcome.valueOr (s.nodes task).value }
    nurseries := fun nursery =>
      if s.latches task outcome nursery then { s.nurseries nursery with failed := some task }
      else s.nurseries nursery
    polling := rest
    log := s.log ++ [.settled task outcome] }

/-- A new nursery. -/
def opens (s : Runtime V) (parent : Option ℕ) (detached : Bool) : Runtime V :=
  { s with
    nurseries := Function.update s.nurseries s.madeNurseries
      ⟨[], false, none, [], [], [], parent, detached, true⟩
    madeNurseries := s.madeNurseries + 1 }

end Runtime

/-- How the current task can go on: its frames and its control from then on, what it logs, and
the number of the next call. -/
inductive Goes (s : Runtime V) (top : Polling V) :
    List (Frame V) → Control V → List (Event V) → ℕ → Prop
  | awaits (leaf : Leaf) (hcode : top.control = .code) (hleaf : s.canAwait leaf = true) :
      Goes s top top.frames (.leaf s.calls leaf) [.awaited s.calls leaf] (s.calls + 1)
  | runs (nursery : ℕ) (hcode : top.control = .code) (hreach : s.reaches nursery = true) :
      Goes s top (.body s.calls nursery :: top.frames) .code [] (s.calls + 1)
  | catches (hcode : top.control = .code) :
      Goes s top (.catch :: top.frames) .code [] s.calls
  | raises (failure : Failure) (hcode : top.control = .code) :
      Goes s top top.frames (.unwind failure) [] s.calls
  | bodyEnds {call nursery : ℕ} {frames : List (Frame V)} (value : V)
      (hcode : top.control = .code) (hframes : top.frames = .body call nursery :: frames) :
      Goes s top frames (.join ⟨call, nursery, some value, none, 0⟩)
        [.bodyEnded top.node call (.value value)] s.calls
  | bodyFails {call nursery : ℕ} {frames : List (Frame V)} {failure : Failure}
      (hunwind : top.control = .unwind failure)
      (hframes : top.frames = .body call nursery :: frames) :
      Goes s top frames (.join ⟨call, nursery, none, some failure, 0⟩)
        [.bodyEnded top.node call (.failure failure)] s.calls
  | leaves {frame : Frame V} {frames : List (Frame V)}
      (hframe : frame = .catch ∨ ∃ join, frame = .drain join)
      (hframes : top.frames = frame :: frames)
      (hcontrol : top.control = .code ∨ ∃ failure, top.control = .unwind failure)
      {control : Control V} (h : control = .code ∨ ∃ failure, control = .unwind failure) :
      Goes s top frames control [] s.calls
  | fails {call : ℕ} {leaf : Leaf} {failure : Failure} (hleaf : top.control = .leaf call leaf)
      (hready : (s.pollLeaf top.id leaf).2 = .ready (.failure failure)) :
      Goes s top top.frames (.unwind failure) [.answered call (.failure failure)] s.calls
  | answers {call : ℕ} {leaf : Leaf} {answer : Answer V} (hleaf : top.control = .leaf call leaf)
      (hready : (s.pollLeaf top.id leaf).2 = .ready answer)
      (hframes : ∀ join frames, top.frames ≠ .drain join :: frames) :
      Goes s top top.frames .code [.answered call answer] s.calls
  | drains {call : ℕ} {leaf : Leaf} {answer : Answer V} {join : Join V}
      {frames : List (Frame V)} (hleaf : top.control = .leaf call leaf)
      (hready : (s.pollLeaf top.id leaf).2 = .ready answer)
      (hframes : top.frames = .drain join :: frames) :
      Goes s top frames
        (.join { join with
          index :=
            if (s.nurseries join.nursery).failed.isNone then join.index + 1 else join.index })
        [.answered call answer] s.calls
  | joinsChild {join : Join V} {child : ℕ} (hjoin : top.control = .join join)
      (hbody : join.bodyFailure = none) (hfailed : (s.nurseries join.nursery).failed = none)
      (hchild : (s.nurseries join.nursery).children[join.index]? = some child) :
      Goes s top (.drain join :: top.frames) (.leaf s.calls (.nodeJoin child join.nursery))
        [.awaited s.calls (.nodeJoin child join.nursery)] (s.calls + 1)
  | joinReturns {join : Join V} {value : V} (hjoin : top.control = .join join)
      (hbody : join.bodyFailure = none) (hfailed : (s.nurseries join.nursery).failed = none)
      (hchildren : (s.nurseries join.nursery).children[join.index]? = none)
      (hresult : join.result = some value) :
      Goes s top top.frames .code [.joined top.node join.call join.nursery (.value value)] s.calls
  | joinBreaks {join : Join V} (failure : Failure) (hjoin : top.control = .join join)
      (hbody : join.bodyFailure = none) (hresult : join.result = none) :
      Goes s top top.frames (.unwind failure) [] s.calls
  | joinRaisesOwn {join : Join V} {failure : Failure} (hjoin : top.control = .join join)
      (hbody : join.bodyFailure = some failure) :
      Goes s top top.frames (.unwind failure)
        [.joined top.node join.call join.nursery (.failure failure)] s.calls
  | joinRaises {join : Join V} {winner : ℕ} (hjoin : top.control = .join join)
      (hbody : join.bodyFailure = none)
      (hfailed : (s.nurseries join.nursery).failed = some winner) :
      Goes s top top.frames (.unwind (Runtime.inTask (s.nodes winner)))
        [.joined top.node join.call join.nursery (.failure (Runtime.inTask (s.nodes winner)))]
        s.calls

/-- What a step does, up to a quiet change. -/
inductive Moved (s s' : Runtime V) : Prop
  | quiet (h : Quiet s s')
  | polled {id : TaskId} {task : ℕ} {driver : Driver V} (hid : s.taskAt id = some task)
      (hunsettled : (s.nodes task).settled = false)
      (hdriver : (s.nodes task).driver = some driver) (hidle : s.polling = [])
      (h : Quiet (s.takes id task driver) s')
  | reaped (hidle : s.polling = []) (h : s' = s.reapSettled)
  | spawned {origin : String} {nursery : Option ℕ} (hreach : nursery.all s.reaches = true)
      (h : Quiet (s.begins origin nursery) s')
  | opened {parent : Option ℕ} {detached : Bool} (h : Quiet (s.opens parent detached) s')
  | suspended {top : Polling V} {rest : List (Polling V)} {call : ℕ} {leaf leaf' : Leaf}
      (hpolling : s.polling = top :: rest) (hleaf : top.control = .leaf call leaf)
      (hpending : (s.pollLeaf top.id leaf).2 = .pending leaf')
      (h : Quiet (s.suspend top rest call leaf') s')
  | settled {top : Polling V} {rest : List (Polling V)} {outcome : Outcome V}
      (hpolling : s.polling = top :: rest) (hframes : top.frames = [])
      (hcontrol : top.control = .code ∨ ∃ failure, top.control = .unwind failure)
      (h : Quiet (s.ended top.node rest outcome) s')
  | gone {top : Polling V} {rest : List (Polling V)} {frames : List (Frame V)}
      {control : Control V} {events : List (Event V)} {calls : ℕ}
      (hpolling : s.polling = top :: rest) (hgoes : Goes s top frames control events calls)
      (h : Quiet ({ s with log := s.log ++ events, calls := calls }.goesOn top rest frames control)
        s')

end Vilan.Executor
