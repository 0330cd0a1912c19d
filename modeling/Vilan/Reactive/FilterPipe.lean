import Vilan.Reactive.Consumer
import Vilan.Reactive.Kept

/-!
# Runs of a sealed `filter` or `filter_map`

A keeping stage is opened over an upstream and sealed: its output is seeded from the
snapshot, and every drain applies the ops the stage answers.  Between drains the flows its
elements follow may change value, which wakes their slots.
-/

namespace Vilan

variable {T F V U : Type*}

/-- A sealed keeping stage: its upstream, the values of the flows, its state, and the cell it
is sealed into. -/
structure KeptPipe (T F V U : Type*) where
  upstream : List T
  current : F → V
  core : ElementCore T F V
  mirror : KeptMirror
  sealed : ListCell U

namespace KeptPipe

/-- Open a stage over `items`, and seal it. -/
def opened (stage : KeptStage T V U) (run : T → ElementRun F V × Bool) (current : F → V)
    (items : List T) : KeptPipe T F V U :=
  let core := ElementCore.seed current (.new run) items
  let kept := core.values.map stage.flag
  { upstream := items
    current := current
    core := core
    mirror := ⟨kept, rebuildKept kept⟩
    sealed := ListCell.of (stage.output core.allPairs) }

/-- Deliver `ops` of the upstream, and what woke since the last drain; `none` on a panic. -/
def drain (stage : KeptStage T V U) (pipe : KeptPipe T F V U) (ops : List (SeqOp T)) :
    Option (KeptPipe T F V U) :=
  match pipe.core.resolve pipe.current ops with
  | none => none
  | some (core, events) =>
      match stage.keptOps pipe.mirror events with
      | none => none
      | some (mirror, answered) =>
          match pipe.sealed.applyOps answered with
          | .panic _ => none
          | .done sealed () =>
              some { pipe with
                upstream := SeqOp.replay ops pipe.upstream
                core := core
                mirror := mirror
                sealed := sealed }

/-- What happens to a sealed stage. -/
inductive Event (T F V : Type*) where
  /-- Flows change value, and slots wake. -/
  | flows (after : F → V) (woke : List ℕ)
  /-- The stage is drained. -/
  | drain (ops : List (SeqOp T))

/-- The slots that wake are all that follow a flow that has changed, and any others; the ops
a drain delivers lie in the upstream as they apply. -/
inductive Step (stage : KeptStage T V U) :
    KeptPipe T F V U → Event T F V → KeptPipe T F V U → Prop
  | flows (pipe : KeptPipe T F V U) (after : F → V) (woke : List ℕ)
      (h : pipe.core.Wakes pipe.current after woke) :
      Step stage pipe (.flows after woke)
        { pipe with current := after, core := pipe.core.wake woke }
  | drain (pipe pipe' : KeptPipe T F V U) (ops : List (SeqOp T))
      (hin : SeqOp.Along SeqOp.InRange ops pipe.upstream)
      (h : pipe.drain stage ops = some pipe') :
      Step stage pipe (.drain ops) pipe'

/-- Runs of a sealed stage over an initial list. -/
def Run (stage : KeptStage T V U) (run : T → ElementRun F V × Bool) (current : F → V)
    (items : List T) : List (Event T F V) → KeptPipe T F V U → Prop :=
  Machine.Run (fun pipe => pipe = opened stage run current items) (Step stage)

/-- The core holds the upstream, the mirror agrees with it and the cell holds its output. -/
structure Follows (stage : KeptStage T V U) (run : T → ElementRun F V × Bool)
    (pipe : KeptPipe T F V U) : Prop where
  holds : pipe.core.Holds pipe.current pipe.upstream
  run_eq : pipe.core.run = run
  agrees : stage.Agrees pipe.mirror pipe.core.allPairs
  sealed_eq : pipe.sealed.items = stage.output pipe.core.allPairs

/-- A drain that delivers `ops` leaves `output` in the cell; after each of its events the
mirror and the index agree with the pairs, and the ops answered so far take the cell to
their output. -/
def DrainsTo (stage : KeptStage T V U) (pipe : KeptPipe T F V U) (ops : List (SeqOp T))
    (output : List U) : Prop :=
  ∃ core events pipe', pipe.core.resolve pipe.current ops = some (core, events)
    ∧ pipe.drain stage ops = some pipe'
    ∧ pipe'.upstream = SeqOp.replay ops pipe.upstream
    ∧ pipe'.sealed.items = output
    ∧ ∀ n, ∃ mirror answered, stage.keptOps pipe.mirror (events.take n) = some (mirror, answered)
      ∧ let pairs := SeqOp.replay ((events.take n).map ElementEvent.toSeqOp) pipe.core.allPairs
        stage.Agrees mirror pairs
          ∧ SeqOp.replay answered pipe.sealed.items = stage.output pairs

theorem follows_opened (stage : KeptStage T V U) (run : T → ElementRun F V × Bool)
    (current : F → V) (items : List T) :
  Follows stage run (opened stage run current items)
  := by
  obtain ⟨hholds, hpairs⟩ := ElementCore.seed_spec current run items
  have hkept : (ElementCore.seed current (.new run) items).values.map stage.flag
      = stage.flags (ElementCore.seed current (.new run) items).allPairs := by
    obtain ⟨slots, hkeeps, -, -⟩ := hholds.exists_slots
    rw [hkeeps.values_eq, hkeeps.allPairs, KeptStage.flags, List.map_map, List.map_map]
    apply List.map_congr_left
    intro slot _
    apply stage.flag_eq slot.pair
  refine ⟨hholds, ?_, ?_, rfl⟩
  · obtain ⟨arrived, hadmits, -⟩ :=
      ElementCore.exists_admitEach current (ElementCore.new run) items
    apply hadmits.run_eq
  · rw [opened]
    simp only
    rw [hkept]
    apply stage.agrees_rebuilt

variable {run : T → ElementRun F V × Bool} {stage : KeptStage T V U} {pipe : KeptPipe T F V U}

/-- The law of one drain. -/
theorem Follows.drain (h : Follows stage run pipe) {ops : List (SeqOp T)}
    (hin : SeqOp.Along SeqOp.InRange ops pipe.upstream) :
  ∃ core events pipe', pipe.core.resolve pipe.current ops = some (core, events)
    ∧ pipe.drain stage ops = some pipe'
    ∧ Follows stage run pipe'
    ∧ pipe'.upstream = SeqOp.replay ops pipe.upstream
    ∧ pipe'.core.allPairs = pipe'.upstream.map
        (fun item => (item, (run item).1.pull pipe.current))
    ∧ ∀ n, ∃ mirror answered, stage.keptOps pipe.mirror (events.take n) = some (mirror, answered)
      ∧ let pairs := SeqOp.replay ((events.take n).map ElementEvent.toSeqOp) pipe.core.allPairs
        stage.Agrees mirror pairs
          ∧ SeqOp.replay answered pipe.sealed.items = stage.output pairs
  := by
  obtain ⟨core, events, hresolve, hholds, hrun, hpairs, haccurate, hreplay, hkeeps⟩ :=
    ElementCore.resolve_spec h.holds hin
  obtain ⟨mirror, answered, hkept, hagrees, haccurate', hreplay'⟩ :=
    stage.keptOps_translates h.agrees haccurate hkeeps
  rw [← h.sealed_eq] at haccurate' hreplay'
  obtain ⟨sealed, happly, hsealed⟩ := ListCell.applyOps_of_inRange
    (haccurate'.mono fun _ _ => SeqOp.Accurate.inRange)
  have hdrain : pipe.drain stage ops = some { pipe with
      upstream := SeqOp.replay ops pipe.upstream, core, mirror, sealed } := by
    rw [KeptPipe.drain, hresolve]
    simp only [hkept, happly]
  refine ⟨core, events, _, hresolve, hdrain, ⟨hholds, ?_, ?_, ?_⟩, rfl, ?_, ?_⟩
  · rw [hrun, h.run_eq]
  · rwa [hreplay] at hagrees
  · rw [hsealed, hreplay', hreplay]
  · rw [hpairs]
    simp only [ElementCore.answerOf, h.run_eq]
  · intro n
    have hsplit := List.take_append_drop n events
    rw [← hsplit, List.map_append, SeqOp.along_append] at haccurate
    obtain ⟨mirror', answered', hkept', hagrees', -, hout⟩ :=
      stage.keptOps_translates h.agrees haccurate.1
        (fun event hevent => hkeeps event (List.mem_of_mem_take hevent))
    rw [← h.sealed_eq] at hout
    exact ⟨mirror', answered', hkept', hagrees', hout⟩

theorem Run.follows {current : F → V} {items : List T} {trace : List (Event T F V)}
    (hrun : Run stage run current items trace pipe) :
  Follows stage run pipe
  := by
  apply Machine.Run.invariant (P := Follows stage run) _ _ hrun
  · rintro pipe rfl
    apply follows_opened
  · intro pipe event pipe' h hstep
    cases hstep with
    | flows after woke hwoke => exact ⟨h.holds.wake hwoke, h.run_eq, h.agrees, h.sealed_eq⟩
    | drain pipe' ops hin hdrain =>
      obtain ⟨-, -, pipe'', -, hdrain', hfollows, -⟩ := h.drain hin
      rw [hdrain, Option.some_inj] at hdrain'
      rw [hdrain']
      apply hfollows

theorem Run.drainsTo {current : F → V} {items : List T} {trace : List (Event T F V)}
    (hrun : Run stage run current items trace pipe) {ops : List (SeqOp T)}
    (hin : SeqOp.Along SeqOp.InRange ops pipe.upstream) :
  pipe.DrainsTo stage ops (stage.output ((SeqOp.replay ops pipe.upstream).map
    (fun item => (item, (run item).1.pull pipe.current))))
  := by
  obtain ⟨core, events, pipe', hresolve, hdrain, hfollows, hupstream, hpairs, hevents⟩ :=
    hrun.follows.drain hin
  refine ⟨core, events, pipe', hresolve, hdrain, hupstream, ?_, hevents⟩
  rw [hfollows.sealed_eq, hpairs, hupstream]

/-- The derivative law of `filter` and `filter_map`: whatever the drains before, a drain
leaves in the cell what the stage makes of the current upstream from scratch, with the
values the flows have now. -/
theorem derivative_law :
  (∀ (run : T → ElementRun F Bool × Bool) (current : F → Bool) (items : List T)
      (trace : List (Event T F Bool)) (pipe : KeptPipe T F Bool T),
    Run filterStage run current items trace pipe →
    ∀ ops, SeqOp.Along SeqOp.InRange ops pipe.upstream →
      pipe.DrainsTo filterStage ops ((SeqOp.replay ops pipe.upstream).filter
        (fun item => (run item).1.pull pipe.current)))
  ∧ (∀ (run : T → ElementRun F (Option U) × Bool) (current : F → Option U) (items : List T)
      (trace : List (Event T F (Option U))) (pipe : KeptPipe T F (Option U) U),
    Run filterMapStage run current items trace pipe →
    ∀ ops, SeqOp.Along SeqOp.InRange ops pipe.upstream →
      pipe.DrainsTo filterMapStage ops ((SeqOp.replay ops pipe.upstream).filterMap
        (fun item => (run item).1.pull pipe.current)))
  := by
  constructor
  · intro run current items trace pipe hrun ops hin
    have h := hrun.drainsTo hin
    rw [KeptStage.output, List.filterMap_map] at h
    have hout : filterStage.out ∘ (fun item => (item, (run item).1.pull pipe.current))
        = Option.guard (fun item => (run item).1.pull pipe.current) := by
      funext item
      simp [filterStage, Option.guard]
    rw [hout, List.filterMap_eq_filter] at h
    apply h
  · intro run current items trace pipe hrun ops hin
    have h := hrun.drainsTo hin
    rw [KeptStage.output, List.filterMap_map] at h
    apply h

/-- Keeping the elements above `2` of a list an element is moved in and one is added to. -/
theorem derivative_law_above_two :
  (opened filterStage (fun item => (.constant (decide (2 < item)), false))
      (fun _ : Unit => true) [1, 3, 5]).DrainsTo filterStage
    [.move 1 1 0, .splice 3 [] [4]]
    ((SeqOp.replay [.move 1 1 0, .splice 3 [] [4]] [1, 3, 5]).filter
      (fun item => decide (2 < item)))
  := by
  apply (derivative_law (T := ℕ) (F := Unit) (U := ℕ)).1 _ (fun _ => true) [1, 3, 5] [] _
    (Machine.Run.start rfl)
  exact ⟨by decide, by decide, trivial⟩

/-! ### Over a cell -/

/-- A sealed keeping stage as a consumer of a cell. -/
def kept (stage : KeptStage T V U) (run : T → ElementRun F V × Bool) :
    Consumer T (KeptPipe T F V U) where
  seed list pipe := pipe = opened stage run pipe.current list
  deliver := drain stage
  own pipe pipe' := ∃ after woke, Step stage pipe (.flows after woke) pipe'

theorem kept_law :
  (kept stage run).Law (fun seen pipe => Follows stage run pipe ∧ pipe.upstream = seen)
    (fun seen pipe => pipe.sealed.items
      = stage.output (seen.map (fun item => (item, (run item).1.pull pipe.current))))
  := by
  constructor
  · intro list pipe hseed
    rw [hseed]
    exact ⟨follows_opened .., rfl⟩
  · rintro seen pipe pipe' ⟨h, rfl⟩ ⟨after, woke, hstep⟩
    cases hstep with
    | flows _ _ hwoke => exact ⟨⟨h.holds.wake hwoke, h.run_eq, h.agrees, h.sealed_eq⟩, rfl⟩
  · rintro seen pipe ops ⟨h, rfl⟩ hin
    obtain ⟨core, events, pipe', hresolve, hdrain, hfollows, hupstream, hpairs, -⟩ := h.drain hin
    refine ⟨pipe', hdrain, ⟨hfollows, hupstream⟩, ?_⟩
    have hcurrent : pipe'.current = pipe.current := by
      grind [drain]
    rw [hfollows.sealed_eq, hpairs, hupstream, hcurrent]

end KeptPipe

end Vilan
