import Vilan.Reactive.Consumer
import Vilan.Reactive.Resolve

/-!
# `map_each`, `map` and `flatten`

Three derivations of a list that keep one output element for each element: `map_each`, which
translates the ops themselves, and the collection stages `map` and `flatten`, which go
through the element core and are sealed into a cell of their own.
-/

namespace Vilan

variable {T F U V : Type*}

/-- An op with a function applied to every element it carries. -/
def SeqOp.map (g : T → U) : SeqOp T → SeqOp U
  | splice pos removed inserted => splice pos (removed.map g) (inserted.map g)
  | setAt pos was value => setAt pos (g was) (g value)
  | reset items => reset (items.map g)
  | move start count dest => move start count dest

theorem SeqOp.inRange_map (g : T → U) {op : SeqOp T} {list : List T} (h : op.InRange list) :
  (op.map g).InRange (list.map g)
  := by
  cases op <;> simpa only [SeqOp.map, InRange, List.length_map] using h

theorem SeqOp.apply_map (g : T → U) (op : SeqOp T) (list : List T) :
  (op.map g).apply (list.map g) = (op.apply list).map g
  := by
  cases op with
  | splice pos removed inserted =>
    rw [apply, Splice.map_splice, SeqOp.map, apply, List.length_map]
  | setAt pos was value => rw [apply, List.map_set, SeqOp.map, apply]
  | reset items => rfl
  | move start count dest => rw [apply, Splice.map_move, SeqOp.map, apply]

theorem SeqOp.along_map (g : T → U) {ops : List (SeqOp T)} {list : List T}
    (h : Along InRange ops list) :
  Along InRange (ops.map (SeqOp.map g)) (list.map g)
  := by
  induction ops generalizing list with
  | nil => trivial
  | cons op ops ih =>
    refine ⟨inRange_map g h.1, ?_⟩
    rw [apply_map]
    apply ih h.2

theorem SeqOp.replay_map (g : T → U) (ops : List (SeqOp T)) (list : List T) :
  replay (ops.map (SeqOp.map g)) (list.map g) = (replay ops list).map g
  := by
  induction ops generalizing list with
  | nil => rfl
  | cons op ops ih => rw [List.map_cons, replay_cons, replay_cons, apply_map, ih]

/-! ### `map_each` -/

namespace MapEach

/-- What the handler of `map_each` does with one op: the derivative of `map g`. -/
def mapOp (g : T → U) (out : ListCell U) : SeqOp T → Outcome (ListCell U) Unit
  | .splice pos removed inserted => out.splice pos removed.length (inserted.map g)
  | .setAt pos _ value => out.setAt pos (g value)
  | .reset items => out.set (items.map g)
  | .move start count dest => out.moveRange start count dest

/-- `map_each` as a consumer: its state is the derived cell. -/
def mapEach (g : T → U) : Consumer T (ListCell U) where
  seed list out := out = ListCell.of (list.map g)
  deliver out ops := (Outcome.forEach (mapOp g) out ops).returned
  own _ _ := False

theorem mapOp_eq (g : T → U) (out : ListCell U) (op : SeqOp T) :
  mapOp g out op = out.applyOp (op.map g)
  := by
  cases op with
  | splice => rw [mapOp, SeqOp.map, ListCell.applyOp, List.length_map]
  | setAt | reset | move => rfl

theorem forEach_mapOp_eq (g : T → U) (out : ListCell U) (ops : List (SeqOp T)) :
  Outcome.forEach (mapOp g) out ops = out.applyOps (ops.map (SeqOp.map g))
  := by
  induction ops generalizing out with
  | nil => rfl
  | cons op ops ih =>
    rw [List.map_cons, ListCell.applyOps, Outcome.forEach, Outcome.forEach, mapOp_eq]
    cases out.applyOp (op.map g) with
    | done out' => apply ih
    | panic out' => rfl

/-- The derived cell holds the list the handler has seen, mapped. -/
theorem mapEach_law (g : T → U) :
  (mapEach g).Law (fun seen out => out.items = seen.map g)
    (fun seen out => out.items = seen.map g)
  := by
  constructor
  · rintro list out rfl
    rfl
  · rintro seen out out' - ⟨⟩
  · intro seen out ops hright hin
    have hops := SeqOp.along_map g hin
    rw [← hright] at hops
    obtain ⟨out', happly, hitems⟩ := ListCell.applyOps_of_inRange hops
    rw [hright, SeqOp.replay_map] at hitems
    refine ⟨out', ?_, hitems, hitems⟩
    rw [mapEach]
    simp only [forEach_mapOp_eq, happly, Outcome.returned]

end MapEach

/-! ### `map` and `flatten`, sealed -/

namespace CollMap

open ElementCore

/-- A sealed mapping stage: the values of the flows, its core, and the cell it is sealed
into. -/
structure State (T F V : Type*) where
  current : F → V
  core : ElementCore T F V
  sealed : ListCell V

/-- `map`'s derivative of one event: its values. -/
def mappedOp : ElementEvent T V → SeqOp V
  | .spliced pos left arrived => .splice pos (left.map Prod.snd) (arrived.map Prod.snd)
  | .changed pos before after _ => .setAt pos before.2 after.2
  | .reset _ now => .reset (now.map Prod.snd)
  | .moved start count dest => .move start count dest

/-- `map`'s derivative. -/
def mappedOps (events : List (ElementEvent T V)) : List (SeqOp V) :=
  events.map mappedOp

/-- A mapping stage over a run, sealed, as a consumer. -/
def collMap (run : T → ElementRun F V × Bool) : Consumer T (State T F V) where
  seed list state :=
    state.core = seed state.current (.new run) list
      ∧ state.sealed = ListCell.of state.core.values
  deliver state ops :=
    match state.core.resolve state.current ops with
    | none => none
    | some (core, events) =>
        match state.sealed.applyOps (mappedOps events) with
        | .panic _ => none
        | .done sealed () => some { state with core, sealed }
  own state state' :=
    ∃ after woke, state.core.Wakes state.current after woke
      ∧ state' = { state with current := after, core := state.core.wake woke }

/-- `map` over a closure that answers a plain value; `registers` tells the elements whose run
registers something with an owner. -/
def mapRun (g : T → V) (registers : T → Bool) (item : T) : ElementRun F V × Bool :=
  (.constant (g item), registers item)

/-- `flatten`: every element is a source, and is followed. -/
def flattenRun (source : F) : ElementRun F V × Bool :=
  (.live source, false)

theorem mappedOps_eq (events : List (ElementEvent T V)) :
  mappedOps events = (events.map ElementEvent.toSeqOp).map (SeqOp.map Prod.snd)
  := by
  rw [mappedOps, List.map_map]
  apply List.map_congr_left
  intro event _
  cases event <;> rfl

theorem Holds_values {current : F → V} {core : ElementCore T F V} {upstream : List T}
    (h : core.Holds current upstream) :
  core.values = core.allPairs.map Prod.snd
  := by
  obtain ⟨slots, hkeeps, -, -⟩ := h.exists_slots
  rw [hkeeps.values_eq, hkeeps.allPairs, List.map_map]
  rfl

/-- The stage is right when its core holds the list it has seen and its cell holds the
core's values; once it has drained they are what the runs answer now. -/
theorem collMap_law (run : T → ElementRun F V × Bool) :
  (collMap run).Law
    (fun seen state => state.core.Holds state.current seen ∧ state.core.run = run
      ∧ state.sealed.items = state.core.allPairs.map Prod.snd)
    (fun seen state => state.sealed.items
      = seen.map (fun item => (run item).1.pull state.current))
  := by
  constructor
  · rintro list ⟨current, core, sealed⟩ ⟨hcore, hsealed⟩
    simp only at hcore hsealed
    subst hcore hsealed
    obtain ⟨hholds, hpairs⟩ := seed_spec current run list
    refine ⟨hholds, ?_, ?_⟩
    · obtain ⟨arrived, hadmits, -⟩ :=
        exists_admitEach current (ElementCore.new run) list
      apply hadmits.run_eq
    · apply Holds_values hholds
  · rintro seen state state' ⟨hholds, hrun, hsealed⟩ ⟨after, woke, hwakes, rfl⟩
    exact ⟨hholds.wake hwakes, hrun, hsealed⟩
  · rintro seen state ops ⟨hholds, hrun, hsealed⟩ hin
    obtain ⟨core, events, hresolve, hholds', hrun', hpairs, haccurate, hreplay, -⟩ :=
      resolve_spec hholds hin
    have hops := SeqOp.along_map Prod.snd (haccurate.mono fun _ _ => SeqOp.Accurate.inRange)
    rw [← hsealed, ← mappedOps_eq] at hops
    obtain ⟨sealed, happly, hitems⟩ := ListCell.applyOps_of_inRange hops
    rw [hsealed, mappedOps_eq, SeqOp.replay_map, hreplay] at hitems
    refine ⟨{ state with core, sealed }, ?_, ⟨hholds', ?_, hitems⟩, ?_⟩
    · rw [collMap]
      simp only [hresolve, happly]
    · rw [hrun', hrun]
    · rw [hitems, hpairs, List.map_map]
      simp only [answerOf, hrun]
      rfl

/-- A drain leaves the values of the flows alone. -/
theorem current_drain {run : T → ElementRun F V × Bool}
    {pair pair' : Consumer.Pair T (State T F V)} (h : (collMap run).drain pair = some pair') :
  pair'.state.current = pair.state.current
  := by
  rw [Consumer.drain] at h
  simp only at h
  split at h
  case h_1 state hdeliver =>
    rw [Option.some_inj] at h
    rw [← h]
    simp only [collMap] at hdeliver
    split at hdeliver
    · contradiction
    · split at hdeliver
      · contradiction
      · rw [Option.some_inj] at hdeliver
        rw [← hdeliver]
  case h_2 => contradiction

end CollMap

/-! ### The derivative law -/

/-- The derivative law of `map_each`, `map` and `flatten`: whatever is written to the source,
in whatever portions it is told, and also when the log has lost history, a derived list that
has drained is the list of the source, mapped. -/
theorem derived_lists_follow [BEq T] [BEq F] :
  (∀ (g : T → U) (trace : List (Consumer.Event T)) (pair : Consumer.Pair T (ListCell U)),
    (MapEach.mapEach g).Run trace pair →
    ∃ pair', (MapEach.mapEach g).drain pair = some pair'
      ∧ pair'.source.cell.items = pair.source.cell.items
      ∧ pair'.state.items = pair.source.cell.items.map g)
  ∧ (∀ (g : T → V) (registers : T → Bool) (trace : List (Consumer.Event T))
      (pair : Consumer.Pair T (CollMap.State T F V)),
    (CollMap.collMap (CollMap.mapRun g registers)).Run trace pair →
    ∃ pair', (CollMap.collMap (CollMap.mapRun g registers)).drain pair = some pair'
      ∧ pair'.source.cell.items = pair.source.cell.items
      ∧ pair'.state.sealed.items = pair.source.cell.items.map g)
  ∧ (∀ (trace : List (Consumer.Event F)) (pair : Consumer.Pair F (CollMap.State F F V)),
    (CollMap.collMap CollMap.flattenRun).Run trace pair →
    ∃ pair', (CollMap.collMap CollMap.flattenRun).drain pair = some pair'
      ∧ pair'.source.cell.items = pair.source.cell.items
      ∧ pair'.state.sealed.items = pair.source.cell.items.map pair.state.current)
  := by
  refine ⟨?_, ?_, ?_⟩
  · intro g trace pair run
    apply (MapEach.mapEach_law g).run_drain run
  · intro g registers trace pair run
    apply (CollMap.collMap_law _).run_drain run
  · intro trace pair run
    obtain ⟨pair', hdrain, hitems, hsealed⟩ := (CollMap.collMap_law _).run_drain run
    refine ⟨pair', hdrain, hitems, ?_⟩
    rw [hsealed, ← CollMap.current_drain hdrain]
    rfl

/-- A list that was pushed to, doubled. -/
theorem derived_lists_follow_doubling :
  ∃ pair', (MapEach.mapEach (fun n => 2 * n)).drain
      ⟨⟨((ListCell.Write.splice 2 0 [3]).call ((ListCell.of [1, 2]).cursor 0).1).state, 1⟩,
        ⟨0⟩, ListCell.of [2, 4]⟩ = some pair'
    ∧ pair'.source.cell.items = [1, 2, 3]
    ∧ pair'.state.items = [1, 2, 3].map (fun n => 2 * n)
  := by
  have run₀ : (MapEach.mapEach (fun n => 2 * n)).Run []
      ⟨⟨((ListCell.of [1, 2]).cursor 0).1, 1⟩, ⟨0⟩, ListCell.of [2, 4]⟩ :=
    Machine.Run.start ⟨[1, 2], deltaLogLimit, [], ⟨ListCell.of [1, 2], 0⟩, 0,
      Machine.Run.start rfl, le_rfl, rfl, rfl, rfl⟩
  have run₁ := Machine.Run.step run₀
    (.source _ _ _ (.write _ (.splice 2 0 [3])) trivial trivial)
  apply (derived_lists_follow (T := ℕ) (F := Unit) (U := ℕ) (V := ℕ)).1 _ _ _ run₁

end Vilan
