import Vilan.Library.Checked
import Vilan.Library.Machine
import Vilan.Reactive.Resolve

/-!
# `any`, `all` and `count` of a collection

A tally is a stage with a counter: what arrived is added, what left is subtracted, and a flip moves
it by one.  Every pull finishes the counter into the answer.
-/

namespace Vilan

open List Splice

variable {T F U : Type*}

/-- A tally that has started: its upstream, the values of the flows, its core and its counter. -/
structure CollTally (T F : Type*) where
  upstream : List T
  current : F → Bool
  core : ElementCore T F Bool
  kept : ℕ

namespace CollTally

/-! ### The counter -/

/-- One pair that leaves; `none` when the counter would go below zero. -/
def subtract (count : ℕ) (pair : T × Bool) : Option ℕ :=
  if pair.2 then Checked.sub count 1 else some count

/-- One pair that arrives. -/
def add (count : ℕ) (pair : T × Bool) : ℕ :=
  if pair.2 then count + 1 else count

/-- What an event makes of the counter. -/
def tallyEvent (kept : ℕ) : ElementEvent T Bool → Option ℕ
  | .spliced _ left arrived => (left.foldlM subtract kept).map (arrived.foldl add)
  | .changed _ before after _ =>
      if before.2 && !after.2 then Checked.sub kept 1
      else if !before.2 && after.2 then some (kept + 1)
      else some kept
  | .reset _ now => some (now.foldl add 0)
  | .moved _ _ _ => some kept

/-- How many of the pairs answer `true`. -/
def tallied (pairs : List (T × Bool)) : ℕ :=
  pairs.countP Prod.snd

theorem foldl_add (pairs : List (T × Bool)) (count : ℕ) :
  pairs.foldl add count = count + tallied pairs
  := by
  induction pairs generalizing count with
  | nil => rfl
  | cons pair pairs ih =>
    rw [foldl_cons, ih, tallied, tallied, countP_cons, add]
    split <;> omega

theorem foldlM_subtract {pairs : List (T × Bool)} {count : ℕ} (le : tallied pairs ≤ count) :
  pairs.foldlM subtract count = some (count - tallied pairs)
  := by
  induction pairs generalizing count with
  | nil => rfl
  | cons pair pairs ih =>
    rw [tallied, countP_cons, ← tallied] at le ⊢
    rw [foldlM_cons, subtract]
    by_cases kept : pair.2 = true
    · rw [if_pos kept] at le ⊢
      rw [if_pos kept, Checked.sub_of_le (by omega)]
      have rest : pairs.foldlM subtract (count - 1) = some (count - 1 - tallied pairs) :=
        ih (by omega)
      have same : count - 1 - tallied pairs = count - (tallied pairs + 1) := by omega
      rw [same] at rest
      apply rest
    · rw [if_neg kept] at le ⊢
      rw [if_neg kept]
      apply ih le

theorem tallied_append (pairs more : List (T × Bool)) :
  tallied (pairs ++ more) = tallied pairs + tallied more
  := countP_append

/-- The law of one event: a counter that counts the pairs counts them after the event. -/
theorem tallyEvent_eq {event : ElementEvent T Bool} {pairs : List (T × Bool)}
    (accurate : event.toSeqOp.Accurate pairs) :
  tallyEvent (tallied pairs) event = some (tallied (event.toSeqOp.apply pairs))
  := by
  cases event with
  | spliced pos left arrived =>
    obtain ⟨_, left_eq⟩ := accurate
    have balance := (perm_splice pairs pos left.length arrived).countP_eq Prod.snd
    rw [left_eq, ← tallied, ← tallied, tallied_append, tallied_append] at balance
    have whole := append_block_append pairs pos left.length
    rw [left_eq] at whole
    have le : tallied left ≤ tallied pairs := by
      rw [← whole, tallied_append, tallied_append]
      omega
    rw [tallyEvent, foldlM_subtract le, Option.map_some, foldl_add, ElementEvent.toSeqOp,
      SeqOp.apply]
    congr 1
    omega
  | changed pos before after rerun =>
    have held : pairs[pos]? = some before := accurate
    obtain ⟨lt, held⟩ := List.getElem?_eq_some_iff.mp held
    have counted : tallied (pairs.set pos after) = _ := countP_set lt
    have pos_of_kept : before.2 = true → 0 < tallied pairs := by
      intro kept
      apply countP_pos_iff.mpr
      use before, held ▸ getElem_mem lt
    rw [held] at counted
    rw [ElementEvent.toSeqOp, SeqOp.apply, counted, tallyEvent, ← tallied]
    cases was : before.2 with
    | true =>
      have positive := pos_of_kept was
      cases now : after.2 with
      | true => simp; omega
      | false => simp [Checked.sub_of_le positive]
    | false => cases now : after.2 <;> simp
  | reset left now =>
    rw [tallyEvent, foldl_add, Nat.zero_add]
    rfl
  | moved start count dest =>
    rw [tallyEvent, ElementEvent.toSeqOp, SeqOp.apply, tallied, tallied,
      (move_perm pairs start count dest).countP_eq]

/-- The law of a drain. -/
theorem foldlM_tallyEvent {events : List (ElementEvent T Bool)} {pairs : List (T × Bool)}
    (accurate : SeqOp.Along SeqOp.Accurate (events.map ElementEvent.toSeqOp) pairs) :
  events.foldlM tallyEvent (tallied pairs)
    = some (tallied (SeqOp.replay (events.map ElementEvent.toSeqOp) pairs))
  := by
  induction events generalizing pairs with
  | nil => rfl
  | cons event events ih =>
    obtain ⟨here, rest⟩ := accurate
    rw [foldlM_cons, tallyEvent_eq here, map_cons, SeqOp.replay_cons]
    apply ih rest

/-! ### The stage -/

/-- Start a tally over `items`. -/
def opened (test : T → ElementRun F Bool × Bool) (current : F → Bool) (items : List T) :
    CollTally T F :=
  let core := ElementCore.seed current (.new test) items
  { upstream := items
    current := current
    core := core
    kept := core.values.foldl (fun seeded flag => if flag then seeded + 1 else seeded) 0 }

/-- Deliver `ops` of the upstream, and what woke since the last drain, to the counter; `none` on a
panic, or where the counter would go below zero. -/
def drain (stage : CollTally T F) (ops : List (SeqOp T)) : Option (CollTally T F) :=
  match stage.core.resolve stage.current ops with
  | none => none
  | some (core, events) =>
      (events.foldlM tallyEvent stage.kept).map fun kept =>
        { stage with
          upstream := SeqOp.replay ops stage.upstream
          core := core
          kept := kept }

/-- Pull: drain, and finish. -/
def pull (finish : ℕ → ℕ → U) (stage : CollTally T F) (ops : List (SeqOp T)) :
    Option (U × CollTally T F) :=
  (stage.drain ops).map fun stage => (finish stage.kept stage.core.ids.length, stage)

/-- How `any` finishes. -/
def any (kept _total : ℕ) : Bool :=
  kept > 0

/-- How `all` finishes. -/
def all (kept total : ℕ) : Bool :=
  kept = total

/-- How `count` finishes. -/
def count (kept _total : ℕ) : ℕ :=
  kept

/-- What happens to a tally. -/
inductive Event (T F : Type*) where
  /-- Flows change value, and slots wake. -/
  | flows (after : F → Bool) (woke : List ℕ)
  /-- The tally is pulled. -/
  | pull (ops : List (SeqOp T))

/-- The slots that wake are all that follow a flow that has changed, and any others; the ops a drain
delivers lie in the upstream as they apply. -/
inductive Step (finish : ℕ → ℕ → U) : CollTally T F → Event T F → CollTally T F → Prop
  | flows (stage : CollTally T F) (after : F → Bool) (woke : List ℕ)
      (wakes : stage.core.Wakes stage.current after woke) :
      Step finish stage (.flows after woke)
        { stage with current := after, core := stage.core.wake woke }
  | pull (stage stage' : CollTally T F) (ops : List (SeqOp T)) (value : U)
      (along : SeqOp.Along SeqOp.InRange ops stage.upstream)
      (pulled : stage.pull finish ops = some (value, stage')) :
      Step finish stage (.pull ops) stage'

/-- Runs of a tally over an initial list. -/
def Run (finish : ℕ → ℕ → U) (test : T → ElementRun F Bool × Bool) (current : F → Bool)
    (items : List T) : List (Event T F) → CollTally T F → Prop :=
  Machine.Run (fun stage => stage = opened test current items) (Step finish)

/-- The core holds the upstream, and the counter counts its pairs. -/
structure Follows (test : T → ElementRun F Bool × Bool) (stage : CollTally T F) : Prop where
  holds : stage.core.Holds stage.current stage.upstream
  run_eq : stage.core.run = test
  kept_eq : stage.kept = tallied stage.core.allPairs

theorem follows_opened (test : T → ElementRun F Bool × Bool) (current : F → Bool)
    (items : List T) :
  Follows test (opened test current items)
  := by
  obtain ⟨holds, pairs⟩ := ElementCore.seed_spec current test items
  obtain ⟨arrived, admits, _⟩ := ElementCore.exists_admitEach current (ElementCore.new test) items
  refine ⟨holds, admits.run_eq, ?_⟩
  obtain ⟨slots, keeps, _⟩ := holds.exists_slots
  have values : (ElementCore.seed current (.new test) items).values
      = (ElementCore.seed current (.new test) items).allPairs.map Prod.snd := by
    rw [keeps.values_eq, keeps.allPairs, List.map_map]
    rfl
  rw [opened]
  dsimp only
  rw [values, foldl_map]
  apply (foldl_add _ 0).trans (Nat.zero_add _)

/-- The law of one drain: the counter is what a count of the current elements, with what the test
answers now, would be. -/
theorem Follows.drain {test : T → ElementRun F Bool × Bool} {stage : CollTally T F}
    (follows : Follows test stage) {ops : List (SeqOp T)}
    (along : SeqOp.Along SeqOp.InRange ops stage.upstream) :
  ∃ stage', stage.drain ops = some stage' ∧ Follows test stage' ∧
    stage'.upstream = SeqOp.replay ops stage.upstream ∧ stage'.current = stage.current ∧
    stage'.kept = stage'.upstream.countP (fun item => (test item).1.pull stage.current) ∧
    stage'.core.ids.length = stage'.upstream.length
  := by
  obtain ⟨core, events, resolved, holds, run, pairs, accurate, replayed, _⟩ :=
    ElementCore.resolve_spec follows.holds along
  have kept := foldlM_tallyEvent accurate
  rw [replayed, ← follows.kept_eq] at kept
  have length : core.ids.length = (SeqOp.replay ops stage.upstream).length := by
    obtain ⟨slots, keeps, _, items⟩ := holds.exists_slots
    rw [keeps.ids_eq, ← items, length_map, length_map]
  have counted : tallied core.allPairs = (SeqOp.replay ops stage.upstream).countP
      (fun item => (test item).1.pull stage.current) := by
    rw [pairs, tallied, countP_map]
    simp only [ElementCore.answerOf, follows.run_eq]
    rfl
  use { stage with
    upstream := SeqOp.replay ops stage.upstream
    core := core
    kept := tallied core.allPairs }
  refine ⟨?_, ⟨holds, run.trans follows.run_eq, rfl⟩, rfl, rfl, counted, length⟩
  rw [CollTally.drain, resolved]
  dsimp only
  rw [kept]
  rfl

theorem Run.follows {finish : ℕ → ℕ → U} {test : T → ElementRun F Bool × Bool}
    {current : F → Bool} {items : List T} {trace : List (Event T F)} {stage : CollTally T F}
    (run : Run finish test current items trace stage) :
  Follows test stage
  := by
  apply Machine.Run.invariant (P := Follows test) _ _ run
  · rintro stage rfl
    apply follows_opened
  · intro stage event stage' follows step
    cases step with
    | flows after woke wakes =>
      exact ⟨follows.holds.wake wakes, follows.run_eq, follows.kept_eq⟩
    | pull stage' ops value along pulled =>
      obtain ⟨stage'', drained, follows', _⟩ := follows.drain along
      rw [CollTally.pull, drained, Option.map_some, Option.some_inj] at pulled
      cases pulled
      apply follows'

/-- How `any` and `all` finish a count of a list. -/
theorem finish_countP (test : T → Bool) (items : List T) :
  any (items.countP test) items.length = items.any test ∧
    all (items.countP test) items.length = items.all test
  := by
  constructor
  · rw [any, Bool.eq_iff_iff, decide_eq_true_iff, gt_iff_lt, countP_pos_iff, List.any_eq_true]
  · rw [all, Bool.eq_iff_iff, decide_eq_true_iff, countP_eq_length, List.all_eq_true]

end CollTally

end Vilan
