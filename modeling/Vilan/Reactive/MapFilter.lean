import Vilan.Reactive.HashMapCell
import Vilan.Reactive.KeyedResolve
import Vilan.Reactive.RankFace

/-!
# `filter` of a map

The stage that keeps some of the entries of its upstream map.  A key that arrives kept is
a put on the output, one that flips in is a put and one that flips out a delete.  The rows
of the stage stand in the upstream's order, while the map the stage is sealed into appends
what is put to it: a key joins the output at its end.

The sealed map always holds what the rows keep.  Its order is the order in which its keys
joined it, which is the order of the rows as long as no key flips in after it has arrived.
-/

namespace Vilan

open List Table

variable {K H F V : Type*}

/-! ### The stage -/

section Stage

variable [DecidableEq H] (hash : K → H)

/-- The kept rows, as a map in their order. -/
def keptMap (rows : List (KeyRow K V Bool)) : HashMap hash V :=
  rows.foldl (fun out row => if row.value then out.insert row.key row.input else out) .new

/-- Translate one key event into the ops it makes on the output. -/
def filteredMapOp : KeyEvent K V Bool → List (MapOp hash V)
  | .arrived key input kept => if kept then [.put key none input] else []
  | .changed key before after rerun =>
      if before.2 && after.2 then
        -- a predicate that answers `true` once more has moved nothing
        if rerun then [.put key (some before.1) after.1] else []
      else if before.2 then [.delete key before.1]
      else if after.2 then [.put key none after.1]
      else []
  | .left key input kept => if kept then [.delete key input] else []
  | .reset rows => [.reset (keptMap hash rows)]

/-- Translate the events of a drain. -/
def filteredMapOps (events : List (KeyEvent K V Bool)) : List (MapOp hash V) :=
  events.flatMap (filteredMapOp hash)

end Stage

/-! ### What the rows keep -/

/-- The entry a row shows, when it is kept. -/
def keptEntry : K × (V × Bool) → Option (K × V)
  | (key, (input, true)) => some (key, input)
  | (_, (_, false)) => none

/-- What the shown rows keep. -/
def kept (shown : Table H (K × (V × Bool))) : Table H (K × V) :=
  shown.filterMap keptEntry

variable [DecidableEq H] {hash : K → H}

/-- A row's key is spliced into the output after it had been kept out. -/
def KeyEvent.FlipsIn : KeyEvent K V Bool → Prop
  | .changed _ before after _ => before.2 = false ∧ after.2 = true
  | _ => False

@[simp]
theorem get_kept (shown : Table H (K × (V × Bool))) (key : H) :
  (kept shown).get key = (shown.get key).bind keptEntry
  := get_filterMap _ _ _

theorem kept_remove (shown : Table H (K × (V × Bool))) (key : H) :
  kept (shown.remove key) = (kept shown).remove key
  := filterMap_remove _ _ _

variable {shown : Table H (K × (V × Bool))} {event : KeyEvent K V Bool} {sealed : HashMap hash V}
  {members order : List H}

/-- A kept entry written where nothing was, or a kept one, is written to what is kept. -/
theorem kept_insert_true {key : H} (h : ∀ old, shown.get key = some old → (keptEntry old).isSome)
    (held : K) (input : V) :
  kept (shown.insert key (held, (input, true))) = (kept shown).insert key (held, input)
  := filterMap_insert_some h rfl

/-- A dropped entry is taken out of what is kept. -/
theorem kept_insert_false (shown : Table H (K × (V × Bool))) (key : H) (held : K)
    (input : V) :
  kept (shown.insert key (held, (input, false))) = (kept shown).remove key
  := filterMap_insert_none key rfl

/-- What is not kept is not taken out. -/
theorem remove_kept_of_get {key : H} (h : (shown.get key).bind keptEntry = none) :
  (kept shown).remove key = kept shown
  := by
  apply remove_of_not_mem
  apply get_eq_none_iff.mp
  rwa [get_kept]

theorem table_keptEach {rows : List (KeyRow K V Bool)}
    (h : (rows.map (fun row => hash row.key)).Nodup) {out : HashMap hash V}
    (hout : out.table = kept shown) (hnew : ∀ row ∈ rows, shown.get (hash row.key) = none) :
  (rows.foldl (fun out row => if row.value then out.insert row.key row.input else out)
      out).table
    = kept (rows.foldl (fun shown row => shown.insert (hash row.key) row.shown) shown)
  := by
  induction rows generalizing out shown with
  | nil => apply hout
  | cons row rest ih =>
    rw [map_cons, nodup_cons] at h
    apply ih h.2
    · have hnone := hnew row mem_cons_self
      obtain ⟨key, input, value, id⟩ := row
      cases value with
      | true =>
        simp only [KeyRow.shown]
        rw [kept_insert_true (by simp [hnone]), ← hout]
        rfl
      | false =>
        simp only [KeyRow.shown]
        rw [kept_insert_false, remove_kept_of_get (by simp [hnone]), ← hout]
        rfl
    · intro other hother
      have hne : hash other.key ≠ hash row.key := by
        intro heq
        apply h.1
        rw [← heq]
        apply List.mem_map_of_mem (f := fun row : KeyRow K V Bool => hash row.key) hother
      rw [get_insert, if_neg hne, hnew other (mem_cons_of_mem _ hother)]

/-- The map of the kept rows. -/
theorem table_keptMap {rows : List (KeyRow K V Bool)}
    (h : (rows.map (fun row => hash row.key)).Nodup) :
  (keptMap hash rows).table = kept (KeyEvent.tableOf hash rows)
  := by
  apply table_keptEach h
  · rfl
  · simp

/-! ### The law of one event -/

/-- The sealed map holds what the rows keep, in whatever order. -/
def SealsKept (sealed : HashMap hash V) (shown : Table H (K × (V × Bool))) : Prop :=
  ∀ key, sealed.table.get key = (kept shown).get key

theorem SealsKept.step (h : SealsKept sealed shown) (haccurate : event.Accurate hash shown) :
  SealsKept (MapOp.replay (filteredMapOp hash event) sealed) (event.apply hash shown)
  := by
  intro other
  have hother := h other
  rw [get_kept] at hother ⊢
  cases event with
  | arrived key input kept =>
    have hnone : shown.get (hash key) = none := haccurate
    by_cases heq : other = hash key
    · subst heq
      rw [hnone] at hother
      cases kept <;> simp [filteredMapOp, KeyEvent.apply, MapOp.apply, HashMap.insert,
        keptEntry, hother]
    · cases kept <;> simp [filteredMapOp, KeyEvent.apply, MapOp.apply, HashMap.insert,
        hother, heq]
  | changed key before after rerun =>
    obtain ⟨held, hget, hsame⟩ := haccurate
    obtain ⟨was, before⟩ := before
    obtain ⟨now, after⟩ := after
    by_cases heq : other = hash key
    · subst heq
      rw [hget] at hother
      cases before <;> cases after <;> cases rerun <;>
        simp_all [filteredMapOp, KeyEvent.apply, MapOp.apply, HashMap.insert, HashMap.remove,
          keptEntry]
    · cases before <;> cases after <;> cases rerun <;>
        simp [filteredMapOp, KeyEvent.apply, MapOp.apply, HashMap.insert, HashMap.remove,
          hother, heq]
  | left key input kept =>
    obtain ⟨held, hget⟩ := haccurate
    by_cases heq : other = hash key
    · subst heq
      rw [hget] at hother
      cases kept <;> simp [filteredMapOp, KeyEvent.apply, MapOp.apply, HashMap.remove,
        keptEntry, hother]
    · cases kept <;> simp [filteredMapOp, KeyEvent.apply, MapOp.apply, HashMap.remove,
        hother, heq]
  | reset rows =>
    have hnodup : (rows.map (fun row => hash row.key)).Nodup := haccurate
    rw [KeyEvent.apply, ← get_kept, ← table_keptMap hnodup]
    rfl

/-- An output that stands in the rows' order goes on standing in it, unless a key flips
in. -/
theorem step_of_not_flipsIn (h : sealed.table = kept shown) (haccurate : event.Accurate hash shown)
    (hflips : ¬ event.FlipsIn) :
  (MapOp.replay (filteredMapOp hash event) sealed).table = kept (event.apply hash shown)
  := by
  cases event with
  | arrived key input value =>
    have hnone : shown.get (hash key) = none := haccurate
    cases value with
    | true =>
      rw [KeyEvent.apply, kept_insert_true (by simp [hnone]), ← h]
      rfl
    | false =>
      rw [KeyEvent.apply, kept_insert_false, remove_kept_of_get (by simp [hnone]), ← h]
      rfl
  | changed key before after rerun =>
    obtain ⟨held, hget, hsame⟩ := haccurate
    obtain ⟨was, before⟩ := before
    obtain ⟨now, after⟩ := after
    cases before with
    | true =>
      have hkept : ∀ old, shown.get (hash key) = some old → (keptEntry old).isSome := by
        intro old hold
        rw [hget, Option.some_inj] at hold
        rw [← hold]
        rfl
      cases after with
      | false =>
        rw [KeyEvent.apply, kept_insert_false, ← h]
        rfl
      | true =>
        rw [KeyEvent.apply, kept_insert_true hkept]
        cases rerun with
        | true =>
          rw [← h]
          rfl
        | false =>
          obtain ⟨rfl, rfl⟩ := hsame rfl
          rw [insert_of_get, ← h]
          · rfl
          · rw [get_kept, hget]
            rfl
    | false =>
      cases after with
      | true => exact absurd ⟨rfl, rfl⟩ hflips
      | false =>
        rw [KeyEvent.apply, kept_insert_false, remove_kept_of_get (by rw [hget]; rfl), ← h]
        rfl
  | left key input value =>
    obtain ⟨held, hget⟩ := haccurate
    rw [KeyEvent.apply, kept_remove, ← h]
    cases value with
    | true => rfl
    | false =>
      rw [h, remove_kept_of_get (by rw [hget]; rfl), ← h]
      rfl
  | reset rows => apply table_keptMap haccurate

/-! ### The order of the output -/

/-- What an output becomes when it is to hold `members`: the keys that stay, in the order
they had, then those that join. -/
def joinOrder (order members : List H) : List H :=
  order.filter (· ∈ members) ++ members.filter (· ∉ order)

theorem joinOrder_stay (h : ∀ key, key ∈ members ↔ key ∈ order) :
  joinOrder order members = order
  := by
  have hstay : order.filter (· ∈ members) = order := by
    rw [filter_eq_self]
    intro key hkey
    rwa [decide_eq_true_iff, h]
  have hjoin : members.filter (· ∉ order) = [] := by
    rw [filter_eq_nil_iff]
    intro key hkey
    rwa [decide_eq_true_iff, not_not, ← h]
  rw [joinOrder, hstay, hjoin, append_nil]

theorem joinOrder_join (hnodup : members.Nodup) {joined : H} (hjoined : joined ∉ order)
    (h : ∀ key, key ∈ members ↔ key ∈ order ++ [joined]) :
  joinOrder order members = order ++ [joined]
  := by
  have hstay : order.filter (· ∈ members) = order := by
    rw [filter_eq_self]
    intro key hkey
    rw [decide_eq_true_iff, h]
    apply mem_append_left _ hkey
  have hjoin : members.filter (· ∉ order) = [joined] := by
    rw [← perm_singleton, perm_ext_iff_of_nodup (hnodup.filter _) (nodup_singleton _)]
    intro key
    rw [mem_filter, decide_eq_true_iff, h, mem_append, mem_singleton]
    constructor
    · rintro ⟨hin | rfl, hnot⟩
      · contradiction
      · rfl
    · rintro rfl
      exact ⟨.inr rfl, hjoined⟩
  rw [joinOrder, hstay, hjoin]

theorem joinOrder_leave {gone : H} (h : ∀ key, key ∈ members ↔ key ∈ order.filter (· ≠ gone)) :
  joinOrder order members = order.filter (· ≠ gone)
  := by
  have hstay : order.filter (· ∈ members) = order.filter (· ≠ gone) := by
    apply filter_congr
    intro key hkey
    simp [h, hkey]
  have hjoin : members.filter (· ∉ order) = [] := by
    rw [filter_eq_nil_iff]
    intro key hkey
    rw [decide_eq_true_iff, not_not]
    apply mem_of_mem_filter ((h key).mp hkey)
  rw [joinOrder, hstay, hjoin, append_nil]

/-- The order an event gives to an output that is to hold `members`: a replacement of the
whole map brings its own. -/
def KeyEvent.join (order members : List H) : KeyEvent K V Bool → List H
  | .reset _ => members
  | _ => joinOrder order members

/-- What an event makes of the shown rows and of the order of the output. -/
def joinStep (hash : K → H) (event : KeyEvent K V Bool)
    (state : Table H (K × (V × Bool)) × List H) : Table H (K × (V × Bool)) × List H :=
  let after := event.apply hash state.1
  (after, event.join state.2 (kept after).keys)

/-- The order in which keys joined an output, over a run of events from the shown rows. -/
def joinedOrder (hash : K → H) (events : List (KeyEvent K V Bool))
    (shown : Table H (K × (V × Bool))) : List H :=
  (Replay.replay (joinStep hash) events (shown, (kept shown).keys)).2

theorem SealsKept.mem_keys_iff (h : SealsKept sealed shown) (key : H) :
  key ∈ (kept shown).keys ↔ key ∈ sealed.table.keys
  := by
  rw [← not_iff_not, ← get_eq_none_iff, ← get_eq_none_iff, h key]

/-- One put or one delete orders a map as its keys joined it. -/
theorem joinOrder_replay (hnodup : members.Nodup) {ops : List (MapOp hash V)}
    (hops : ops = [] ∨ (∃ key was now, ops = [.put key was now])
      ∨ ∃ key gone, ops = [.delete key gone])
    (hmem : ∀ key, key ∈ members ↔ key ∈ (MapOp.replay ops sealed).table.keys) :
  joinOrder sealed.table.keys members = (MapOp.replay ops sealed).table.keys
  := by
  rcases hops with rfl | ⟨key, was, now, rfl⟩ | ⟨key, gone, rfl⟩
  · apply joinOrder_stay hmem
  · have hkeys : (MapOp.replay [.put key was now] sealed).table.keys = _ :=
      keys_insert _ _ _
    rw [hkeys] at hmem ⊢
    split at hmem
    case isTrue hin =>
      rw [if_pos hin]
      apply joinOrder_stay hmem
    case isFalse hout =>
      rw [if_neg hout]
      apply joinOrder_join hnodup hout hmem
  · have hkeys : (MapOp.replay [.delete key gone] sealed).table.keys = _ :=
      keys_remove _ _
    rw [hkeys] at hmem ⊢
    apply joinOrder_leave hmem

/-- One event orders the output as its keys joined it. -/
theorem SealsKept.join_eq (h : SealsKept sealed shown) (haccurate : event.Accurate hash shown) :
  (MapOp.replay (filteredMapOp hash event) sealed).table.keys
    = event.join sealed.table.keys (kept (event.apply hash shown)).keys
  := by
  have hmem := (h.step haccurate).mem_keys_iff
  have hnodup := (kept (event.apply hash shown)).nodup
  symm
  cases event with
  | arrived key input kept =>
    apply joinOrder_replay hnodup _ hmem
    cases kept <;> simp [filteredMapOp]
  | changed key before after rerun =>
    obtain ⟨was, before⟩ := before
    obtain ⟨now, after⟩ := after
    apply joinOrder_replay hnodup _ hmem
    cases before <;> cases after <;> cases rerun <;> simp [filteredMapOp]
  | left key input kept =>
    apply joinOrder_replay hnodup _ hmem
    cases kept <;> simp [filteredMapOp]
  | reset rows =>
    have hrows : (rows.map (fun row => hash row.key)).Nodup := haccurate
    change (kept (KeyEvent.tableOf hash rows)).keys = (keptMap hash rows).table.keys
    rw [table_keptMap hrows]

/-- A run of events: the sealed map holds what the rows keep, in the order its keys joined
it, which is the rows' order if it was and no key flips in. -/
theorem SealsKept.replay (h : SealsKept sealed shown) {events : List (KeyEvent K V Bool)}
    (haccurate : KeyEvent.AllAccurate hash events shown) :
  SealsKept (MapOp.replay (filteredMapOps hash events) sealed)
      (KeyEvent.replay hash events shown)
    ∧ (MapOp.replay (filteredMapOps hash events) sealed).table.keys
      = (Replay.replay (joinStep hash) events (shown, sealed.table.keys)).2
    ∧ (sealed.table = kept shown → (∀ event ∈ events, ¬ event.FlipsIn) →
      (MapOp.replay (filteredMapOps hash events) sealed).table
        = kept (KeyEvent.replay hash events shown))
  := by
  induction events generalizing sealed shown with
  | nil => exact ⟨h, rfl, fun heq _ => heq⟩
  | cons event events ih =>
    have hsplit : MapOp.replay (filteredMapOps hash (event :: events)) sealed
        = MapOp.replay (filteredMapOps hash events)
          (MapOp.replay (filteredMapOp hash event) sealed) := by
      rw [filteredMapOps, flatMap_cons]
      apply Replay.replay_append
    obtain ⟨hseals, hkeys, hexact⟩ := ih (h.step haccurate.1) haccurate.2
    rw [hsplit]
    refine ⟨hseals, ?_, ?_⟩
    · rw [hkeys, h.join_eq haccurate.1]
      rfl
    · intro heq hflips
      apply hexact
      · apply step_of_not_flipsIn heq haccurate.1 (hflips event mem_cons_self)
      · intro event hevent
        apply hflips event (mem_cons_of_mem _ hevent)

/-! ### Runs of a sealed stage -/

/-- A sealed `filter` of a map: its upstream, the values of the flows, its state, and the
cell it is sealed into. -/
structure MapFilter {K H : Type*} (hash : K → H) (F V : Type*) where
  upstream : HashMap hash V
  current : F → Bool
  keyed : KeyedCore K H F V Bool
  sealed : HashMapCell hash V

namespace MapFilter

/-- Open a stage over `map`, and seal it. -/
def opened (run : K × V → ElementRun F Bool × Bool) (current : F → Bool)
    (map : HashMap hash V) : MapFilter hash F V :=
  let keyed := (KeyedCore.new run).keyedSeed current map
  { upstream := map
    current := current
    keyed := keyed
    sealed := HashMapCell.of (keptMap hash keyed.keyedRows) }

/-- Deliver `ops` of the upstream, and what woke since the last drain; the events they
resolved into are answered. -/
def drain (stage : MapFilter hash F V) (ops : List (MapOp hash V)) :
    MapFilter hash F V × List (KeyEvent K V Bool) :=
  let (keyed, events) := stage.keyed.keyedResolve stage.current ops
  ({ stage with
      upstream := MapOp.replay ops stage.upstream
      keyed := keyed
      sealed := stage.sealed.applyMapOps (filteredMapOps hash events) }, events)

/-- What happens to a sealed stage. -/
inductive Event {K H : Type*} (hash : K → H) (F V : Type*) where
  /-- Flows change value, and slots wake. -/
  | flows (after : F → Bool) (woke : List ℕ)
  /-- The stage is drained: what it is delivered, and the key events this makes. -/
  | drain (ops : List (MapOp hash V)) (events : List (KeyEvent K V Bool))

/-- The key events of an event. -/
def Event.keyEvents : Event hash F V → List (KeyEvent K V Bool)
  | .flows _ _ => []
  | .drain _ events => events

/-- The slots that wake are all that follow a flow that has changed, and any others. -/
inductive Step : MapFilter hash F V → Event hash F V → MapFilter hash F V → Prop
  | flows (stage : MapFilter hash F V) (after : F → Bool) (woke : List ℕ)
      (h : stage.keyed.Wakes stage.current after woke) :
      Step stage (.flows after woke)
        { stage with current := after, keyed := stage.keyed.wake woke }
  | drain (stage : MapFilter hash F V) (ops : List (MapOp hash V)) :
      Step stage (.drain ops (stage.drain ops).2) (stage.drain ops).1

/-- Runs of a sealed stage over an initial map. -/
def Run (run : K × V → ElementRun F Bool × Bool) (current : F → Bool)
    (map : HashMap hash V) : List (Event hash F V) → MapFilter hash F V → Prop :=
  Machine.Run (fun stage => stage = opened run current map) Step

/-- The stage holds the upstream, its rows show what the key events so far have made of the
seeded rows, and the sealed map is what their translation has made of the seed. -/
structure Follows (run : K × V → ElementRun F Bool × Bool) (current : F → Bool)
    (map : HashMap hash V) (events : List (KeyEvent K V Bool)) (stage : MapFilter hash F V) :
    Prop where
  holds : stage.keyed.Holds hash stage.current stage.upstream
  run_eq : stage.keyed.core.run = run
  accurate : KeyEvent.AllAccurate hash events (opened run current map).keyed.shown
  shown_eq : KeyEvent.replay hash events (opened run current map).keyed.shown
    = stage.keyed.shown
  sealed_eq : stage.sealed.items
    = MapOp.replay (filteredMapOps hash events) (opened run current map).sealed.items

theorem Run.follows {run : K × V → ElementRun F Bool × Bool} {current : F → Bool}
    {map : HashMap hash V} {trace : List (Event hash F V)} {stage : MapFilter hash F V}
    (hrun : Run run current map trace stage) :
  Follows run current map (trace.flatMap Event.keyEvents) stage
  := by
  apply Machine.Run.history
    (P := fun trace stage => Follows run current map (trace.flatMap Event.keyEvents) stage)
    _ _ hrun
  · rintro stage rfl
    obtain ⟨hholds, -, hrun⟩ := KeyedCore.keyedSeed_spec current run map
    exact ⟨hholds, hrun, trivial, rfl, rfl⟩
  · intro trace stage event stage' _ h hstep
    rw [flatMap_append, flatMap_singleton]
    cases hstep with
    | flows after woke hwoke =>
      rw [Event.keyEvents, append_nil]
      exact ⟨h.holds.wake hwoke, h.run_eq, h.accurate, h.shown_eq, h.sealed_eq⟩
    | drain ops =>
      obtain ⟨hholds, -, hrun, haccurate, hreplay⟩ := KeyedCore.keyedResolve_spec h.holds ops
      have hshown := h.shown_eq
      have hrun₀ := h.run_eq
      refine ⟨hholds, hrun.trans hrun₀, ?_, ?_, ?_⟩
      · apply Replay.along_append.mpr ⟨h.accurate, _⟩
        change KeyEvent.AllAccurate hash _ (KeyEvent.replay hash _ _)
        rw [hshown]
        apply haccurate
      · rw [KeyEvent.replay, Replay.replay_append]
        change KeyEvent.replay hash _ (KeyEvent.replay hash _ _) = _
        rw [hshown]
        apply hreplay
      · rw [filteredMapOps, flatMap_append, MapOp.replay, Replay.replay_append]
        change (stage.sealed.applyMapOps _).items = MapOp.replay _ (MapOp.replay _ _)
        rw [HashMapCell.items_applyMapOps, h.sealed_eq]
        rfl

/-- The rows keep what the shown rows keep. -/
theorem Follows.table_snapshot {run : K × V → ElementRun F Bool × Bool} {current : F → Bool}
    {map : HashMap hash V} {events : List (KeyEvent K V Bool)} {stage : MapFilter hash F V}
    (h : Follows run current map events stage) :
  (keptMap hash stage.keyed.keyedRows).table = kept stage.keyed.shown
  := by
  rw [table_keptMap h.holds.backs.nodup_hashes, h.holds.backs.tableOf_keyedRows]

/-- In every run, the sealed map holds the entries of the kept rows, in the order in which
their keys joined the output, and the values are produced in that order.  It is the rows'
order if no key flips in after it has arrived.  With nothing dirty, the kept rows are what a
stage opened now would be seeded with. -/
theorem sealed_in_join_order {run : K × V → ElementRun F Bool × Bool} {current : F → Bool}
    {map : HashMap hash V} {trace : List (Event hash F V)} {stage : MapFilter hash F V}
    (hrun : Run run current map trace stage) :
  let events := trace.flatMap Event.keyEvents
  let seeded := opened run current map
  let snapshot := keptMap hash stage.keyed.keyedRows
  stage.sealed.items.entries.Perm snapshot.entries
    ∧ stage.sealed.items.hashesOf = joinedOrder hash events seeded.keyed.shown
    ∧ ((∀ event ∈ events, ¬ event.FlipsIn) → stage.sealed.items = snapshot)
    ∧ (stage.keyed.core.dirty = [] →
      snapshot = (opened run stage.current stage.upstream).sealed.items)
    ∧ ∃ face produced, RankFace.rankedOps hash (fun _ value => value)
          (RankFace.rankFace seeded.sealed.items.hashesOf) (filteredMapOps hash events)
        = some (face, produced)
      ∧ SeqOp.replay produced seeded.sealed.items.values = stage.sealed.items.values
  := by
  intro events seeded snapshot
  have hfollows := hrun.follows
  have hseeded : seeded.sealed.items.table = kept seeded.keyed.shown :=
    (Run.follows (Machine.Run.start rfl)).table_snapshot
  have hseals : SealsKept seeded.sealed.items seeded.keyed.shown := by
    intro key
    rw [hseeded]
  have hsnapshot : snapshot.table = kept stage.keyed.shown := hfollows.table_snapshot
  obtain ⟨hkept, hkeys, hexact⟩ := hseals.replay hfollows.accurate
  rw [hfollows.shown_eq, ← hfollows.sealed_eq] at hkept hexact
  rw [← hfollows.sealed_eq] at hkeys
  refine ⟨?_, ?_, ?_, ?_, ?_⟩
  · apply List.Perm.map Prod.snd
    apply perm_of_get
    intro key
    rw [hkept key, hsnapshot]
  · rw [HashMap.hashesOf_eq, hkeys, hseeded]
    rfl
  · intro hflips
    apply HashMap.ext
    rw [hexact hseeded hflips, hsnapshot]
  · intro hdirty
    obtain ⟨hholds, hdirty', hrun'⟩ :=
      KeyedCore.keyedSeed_spec stage.current run stage.upstream
    apply HashMap.ext
    rw [hsnapshot, hfollows.holds.shown_eq hdirty, hfollows.run_eq]
    have hopened := (Run.follows (Machine.Run.start (Eq.refl
      (opened run stage.current stage.upstream)))).table_snapshot
    change _ = (keptMap hash (opened run stage.current stage.upstream).keyed.keyedRows).table
    have hshown : (opened run stage.current stage.upstream).keyed.shown = _ :=
      hholds.shown_eq hdirty'
    rw [hopened, hshown, hrun']
  · have hface : (RankFace.rankFace seeded.sealed.items.hashesOf).Orders
        seeded.sealed.items.hashesOf :=
      RankFace.orders_faceRebuild (HashMap.nodup_hashesOf _)
    obtain ⟨face, produced, hops, -, -, hreplay⟩ := RankFace.rankedOps_follow
      (fun _ value => value) hface (filteredMapOps hash events)
    rw [← hfollows.sealed_eq] at hreplay
    exact ⟨face, produced, hops, hreplay⟩

/-- How many of what are in stock. -/
def stock : HashMap (id : String → String) ℕ :=
  (HashMap.new.insert "pens" 3).insert "ink" 0

/-- Keep what is low. -/
def low (entry : String × ℕ) : ElementRun Empty Bool × Bool :=
  (.constant (decide (entry.2 < 2)), false)

/-- A stock of which the pens run low, after the ink. -/
def restocked : MapFilter (id : String → String) Empty ℕ :=
  ((opened low (fun _ => true) stock).drain [.put "pens" (some 3) 1]).1

theorem run_restocked :
  ∃ events, Run low (fun _ => true) stock [.drain [.put "pens" (some 3) 1] events] restocked
  := by
  have run₀ : Run low (fun _ => true) stock [] (opened low (fun _ => true) stock) :=
    Machine.Run.start rfl
  have run₁ := Machine.Run.step run₀ (Step.drain _ [.put "pens" (some 3) 1])
  exact ⟨_, run₁⟩

/-- The pens join the output after the ink. -/
theorem sealed_in_join_order_restocked :
  restocked.sealed.items.entries.Perm (keptMap id restocked.keyed.keyedRows).entries
    ∧ restocked.sealed.items.keys = ["ink", "pens"]
  := by
  obtain ⟨events, run⟩ := run_restocked
  obtain ⟨hperm, -⟩ := sealed_in_join_order run
  exact ⟨hperm, by decide⟩

/-- The rows keep the pens before the ink, and the sealed map holds them after it. -/
theorem late_join_out_of_order :
  ¬ ∀ (trace : List (Event (id : String → String) Empty ℕ)) stage,
    Run low (fun _ => true) stock trace stage →
      stage.sealed.items.entries = (keptMap id stage.keyed.keyedRows).entries
  := by
  intro h
  obtain ⟨events, run⟩ := run_restocked
  have horder := h _ _ run
  revert horder
  decide

end MapFilter

end Vilan
