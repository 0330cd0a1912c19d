import Vilan.Library.Accounts

/-!
# Tracked dependencies

A stage whose body tracks what it reads follows exactly what its last run read: when a run closes,
its reads are compared with the edges held, an edge to the same source is kept, a read without an
edge attaches one, and an edge no read kept is detached.

Attaching takes the next handle, and may notify inside the call; the log tells in order what was
attached, detached and woken.
-/

namespace Vilan

namespace Tracking

/-- A source that is read: one that can name its state, or one that cannot. -/
inductive Source where
  | named (identity : ℤ)
  | unnamed (name : ℕ)
  deriving DecidableEq, Repr

/-- One number for every handle to the same state, if there is one. -/
def Source.identity : Source → Option ℤ
  | named identity => some identity
  | unnamed _ => none

/-- A dependency's live registration. -/
structure Edge where
  identity : Option ℤ
  handle : ℕ
  deriving DecidableEq, Repr

/-- The dependency lists: the reads of the run in progress, the last run's reads while nothing is
attached, and the edges while something is. -/
structure Lists where
  reading : List Source
  read : List Source
  edges : List Edge
  deriving DecidableEq, Repr

inductive Event where
  | attach (handle : ℕ) (source : Source)
  | detach (handle : ℕ)
  | wake (target : ℕ)
  deriving DecidableEq, Repr

/-- Where the runs of a stage stand, the lists from its first tracked read on, the next handle and
the log. -/
structure Stage where
  epoch : ℤ
  running : Bool
  dirty : Bool
  connecting : Bool
  missed : Bool
  target : Option ℕ
  lists : Option Lists
  nextHandle : ℕ
  log : List Event
  deriving DecidableEq, Repr

/-- A fresh tracker: no runs, nothing attached, and no lists. -/
def newTracker : Stage where
  epoch := 0
  running := false
  dirty := false
  connecting := false
  missed := false
  target := none
  lists := none
  nextHandle := 0
  log := []

namespace Stage

/-- The tracker's lists, made now if this is the first tracked read. -/
def listsOf (stage : Stage) : Lists :=
  stage.lists.getD { reading := [], read := [], edges := [] }

/-- The reads of the run in progress. -/
def reading (stage : Stage) : List Source :=
  stage.listsOf.reading

/-- The last run's reads that nothing follows. -/
def read (stage : Stage) : List Source :=
  stage.listsOf.read

/-- The edges held. -/
def edges (stage : Stage) : List Edge :=
  stage.listsOf.edges

/-- A relay fires: while edges go up the wake is noted for when they stand. -/
def relay (target : ℕ) (stage : Stage) : Stage :=
  if stage.connecting then { stage with dirty := true, missed := true }
  else { stage with dirty := true, log := stage.log ++ [.wake target] }

/-- Whether a read through the scope of a run is news to it: the run is in progress, and has not
read this source already. -/
def admits (stage : Stage) (epoch : ℤ) (identity : Option ℤ) : Bool :=
  if !stage.running || stage.epoch != epoch then false
  else
    match stage.lists with
    | none => true
    | some lists =>
        match identity with
        | some wanted => !lists.reading.any fun source => source.identity = some wanted
        | none => true

/-- A source is read through the scope of a run. -/
def track (epoch : ℤ) (source : Source) (stage : Stage) : Stage :=
  if stage.admits epoch source.identity then
    { stage with
      lists := some { stage.listsOf with reading := stage.listsOf.reading ++ [source] } }
  else stage

/-- The next run begins: a fresh epoch, no reads yet, nothing changed since. -/
def openRun (stage : Stage) : Stage :=
  { stage with
    epoch := stage.epoch + 1
    running := true
    dirty := false
    lists := stage.lists.map fun lists => { lists with reading := [] } }

/-- Release one handle after the other. -/
def detachEach (edges : List Edge) (stage : Stage) : Stage :=
  { stage with log := stage.log ++ edges.map fun edge => .detach edge.handle }

section

variable (notifies : ℕ → Bool)

/-- Attach to a source: the call may notify. -/
def attach (target : ℕ) (source : Source) (stage : Stage) : Stage :=
  let attached : Stage :=
    { stage with
      nextHandle := stage.nextHandle + 1
      log := stage.log ++ [.attach stage.nextHandle source] }
  if notifies stage.nextHandle then relay target attached else attached

end

end Stage

/-- The held edge that a read of `identity` reuses: the one at its own position first, then any
other not yet reused. -/
def reusable (held : List Edge) (kept : List Bool) (identity : Option ℤ) (position : ℕ) :
    Option ℕ :=
  match identity with
  | some wanted =>
      let free index := kept[index]? = some false ∧
        (held[index]?.bind Edge.identity) = some wanted
      if position < held.length ∧ free position then some position
      else (List.range held.length).find? fun index => free index
  | none => none

section

variable (notifies : ℕ → Bool) (target : ℕ)

/-- The reads in order: each reuses an edge, or attaches one. -/
def connect (held : List Edge) : ℕ → List Source → List Bool → List Edge → Stage →
    List Bool × List Edge × Stage
  | _, [], kept, next, stage => (kept, next, stage)
  | position, source :: reading, kept, next, stage =>
      match reusable held kept source.identity position with
      | some index =>
          connect held (position + 1) reading (kept.set index true) (next ++ held[index]?.toList)
            stage
      | none =>
          connect held (position + 1) reading kept
            (next ++ [{ identity := source.identity, handle := stage.nextHandle }])
            (stage.attach notifies target source)

/-- The edges that no read kept. -/
def unkept (held : List Edge) (kept : List Bool) : List Edge :=
  ((held.zip kept).filter fun entry => !entry.2).map Prod.fst

/-- Compare the run's reads with the edges held, in order. -/
def reconnect (lists : Lists) (stage : Stage) : Stage :=
  if lists.reading.isEmpty ∧ lists.edges.isEmpty then stage
  else
    let connected := connect notifies target lists.edges 0 lists.reading
      (lists.edges.map fun _ => false) [] { stage with connecting := true }
    { Stage.detachEach (unkept lists.edges connected.1)
        { connected.2.2 with lists := some { lists with edges := connected.2.1 } } with
      connecting := false }

/-- Attach to each of the last run's reads. -/
def attachEach : List Source → List Edge → Stage → List Edge × Stage
  | [], edges, stage => (edges, stage)
  | source :: read, edges, stage =>
      attachEach read (edges ++ [{ identity := source.identity, handle := stage.nextHandle }])
        (stage.attach notifies target source)

end

namespace Stage

section

variable (notifies : ℕ → Bool)

/-- The run in progress ends: its reads become the dependencies. -/
def closeRun (stage : Stage) : Stage :=
  let closed : Stage := { stage with running := false }
  match stage.lists with
  | none => closed
  | some lists =>
      let wired :=
        match stage.target with
        | some target => reconnect notifies target lists closed
        | none =>
            if !lists.reading.isEmpty || !lists.read.isEmpty then
              { closed with lists := some { lists with read := lists.reading } }
            else closed
      { wired with lists := wired.lists.map fun lists => { lists with reading := [] } }

/-- Follow the dependencies from now on. -/
def attachTracker (target : ℕ) (stage : Stage) : Stage :=
  let aimed : Stage := { stage with target := some target }
  match stage.lists with
  | none => aimed
  | some lists =>
      if lists.read.isEmpty then aimed
      else
        let attached := attachEach notifies target lists.read []
          { aimed with lists := some { lists with read := [] }, connecting := true }
        let wired : Stage :=
          { attached.2 with
            lists := some { lists with read := [], edges := attached.1 }
            connecting := false }
        if wired.missed then { wired with missed := false, log := wired.log ++ [.wake target] }
        else wired

end

/-- Detach every edge and forget the last run's reads, still attached. -/
def forgetReads (stage : Stage) : Stage :=
  match stage.lists with
  | none => stage
  | some lists =>
      detachEach lists.edges { stage with lists := some { lists with edges := [], read := [] } }

/-- Stop following. -/
def detachTracker (stage : Stage) : Stage :=
  forgetReads { stage with target := none }

end Stage

/-- What may happen to a stage. -/
inductive Call where
  | openRun
  | track (epoch : ℤ) (source : Source)
  | closeRun
  | attachTracker (target : ℕ)
  | forgetReads
  | detachTracker
  /-- The relay of an edge fires. -/
  | fire (target : ℕ)
  /-- A missed wake is answered by another run. -/
  | answer
  deriving DecidableEq, Repr

/-- A call. -/
def Call.make (notifies : ℕ → Bool) : Call → Stage → Stage
  | openRun, stage => stage.openRun
  | track epoch source, stage => stage.track epoch source
  | closeRun, stage => stage.closeRun notifies
  | attachTracker target, stage => stage.attachTracker notifies target
  | forgetReads, stage => stage.forgetReads
  | detachTracker, stage => stage.detachTracker
  | fire target, stage => stage.relay target
  | answer, stage => { stage with missed := false }

/-- The calls in order. -/
def run (notifies : ℕ → Bool) (calls : List Call) (stage : Stage) : Stage :=
  calls.foldl (fun stage call => call.make notifies stage) stage

end Tracking

end Vilan
