import Mathlib.Data.List.InsertIdx
import Mathlib.Data.Int.Order.Basic
import Vilan.Library.Machine

/-!
# Turns and their drain

A turn holds the notifications of an extent back until the extent ends.  It has two queues,
of derivations and of effects, that a drain empties: derivations first, to a fixpoint, and
then one wave of effects.  The subscribers a drain notifies are arbitrary closures.  They
write signals, which enqueues more subscribers, open extents of their own, whose drains nest
in the one under way, and throw.

The stack of drains under way is part of the state.  Program code runs when no drain is under
way, or from the notification that the innermost drain is making.
-/

namespace Vilan

/-- A subscriber.  `live` names the liveness cell that all copies of it share. -/
structure Subscriber where
  id : ℤ
  live : ℕ
  derived : Bool
deriving DecidableEq

/-- A turn.  The tables `queued` and `queuedDerived` are keyed by subscriber ids. -/
structure Turn where
  pending : List Subscriber
  pendingDerived : List Subscriber
  queued : List ℤ
  queuedDerived : List ℤ
  draining : Bool
  settled : Bool
  scheduled : Bool

namespace Turn

/-- A fresh turn. -/
def new : Turn where
  pending := []
  pendingDerived := []
  queued := []
  queuedDerived := []
  draining := false
  settled := false
  scheduled := false

/-- Nothing is left to run. -/
def isQuiescent (turn : Turn) : Bool :=
  turn.pending.isEmpty && turn.pendingDerived.isEmpty

/-- Where the backward scan from `index` for the place of `id` stops. -/
def scan (pending : List Subscriber) (id : ℤ) : ℕ → ℕ
  | 0 => 0
  | index + 1 =>
      match pending[index]? with
      | some other => if id < other.id then scan pending id index else index + 1
      | none => index + 1

/-- One round of the loop of `enqueue`. -/
def enqueueOne (turn : Turn) (subscriber : Subscriber) : Turn :=
  if subscriber.derived then
    if subscriber.id ∈ turn.queuedDerived then turn
    else
      { turn with
        queuedDerived := subscriber.id :: turn.queuedDerived
        pendingDerived := turn.pendingDerived ++ [subscriber] }
  else if subscriber.id ∈ turn.queued then turn
  else
    { turn with
      queued := subscriber.id :: turn.queued
      pending :=
        turn.pending.insertIdx (scan turn.pending subscriber.id turn.pending.length) subscriber }

/-- The loop of `enqueue`. -/
def enqueueAll (turn : Turn) (subscribers : List Subscriber) : Turn :=
  subscribers.foldl enqueueOne turn

/-- Whether an enqueue schedules a drain of its own: the extent has settled, and neither a
drain nor a microtask for one is under way. -/
def late (turn : Turn) : Bool :=
  turn.settled && !turn.scheduled && !turn.draining

/-- The mark that a drain is scheduled on a microtask. -/
def schedule (turn : Turn) : Turn :=
  if turn.late then { turn with scheduled := true } else turn

/-- `enqueue`, without the microtask. -/
def enqueue (turn : Turn) (subscribers : List Subscriber) : Turn :=
  (turn.enqueueAll subscribers).schedule

/-- The scrub of a released subscription. -/
def scrub (turn : Turn) (id : ℤ) : Turn :=
  { turn with
    pending := turn.pending.filter (fun subscriber => subscriber.id ≠ id)
    queued := turn.queued.filter (· ≠ id)
    pendingDerived := turn.pendingDerived.filter (fun subscriber => subscriber.id ≠ id)
    queuedDerived := turn.queuedDerived.filter (· ≠ id) }

/-- The derivations are taken out to be run. -/
def takeDerivations (turn : Turn) : Turn :=
  { turn with pendingDerived := [], queuedDerived := [] }

/-- A wave of effects is taken out to be run. -/
def takeWave (turn : Turn) : Turn :=
  { turn with pending := [], queued := [] }

end Turn

/-- Where a drain stands: at the condition of its loop, at that of the loop of its first
phase, or in the walk of a list of derivations or of effects that are still to be run.  While
a subscriber is being notified it is the head of the list. -/
inductive Phase where
  | loop
  | derive
  | derivations (rest : List Subscriber)
  | effects (rest : List Subscriber)

/-- A drain under way: the turn, the budget left, whether the drain is the one that ends the
extent of the turn (the one of `turn` and `batch`), where it stands, and whether it is
notifying. -/
structure Drain where
  turn : ℕ
  budget : ℤ
  settles : Bool
  phase : Phase
  notifying : Bool

/-- The number of notifications a drain makes at most. -/
def Drain.budgetLimit : ℤ := 100000

/-- A drain as it starts. -/
def Drain.start (turn : ℕ) (settles : Bool) : Drain where
  turn := turn
  budget := Drain.budgetLimit
  settles := settles
  phase := .loop
  notifying := false

/-- All turns, those whose extent is open, the liveness cells, the drains under way, innermost
first, and the turns whose drain is scheduled on a microtask. -/
structure Scheduler where
  turns : ℕ → Turn
  minted : ℕ
  extents : List ℕ
  live : ℕ → Bool
  drains : List Drain
  microtasks : List ℕ

namespace Scheduler

/-- No turn has been made. -/
def init : Scheduler where
  turns := fun _ => Turn.new
  minted := 0
  extents := []
  live := fun _ => true
  drains := []
  microtasks := []

/-- Changes one turn. -/
def modify (s : Scheduler) (turn : ℕ) (f : Turn → Turn) : Scheduler :=
  { s with turns := Function.update s.turns turn (f (s.turns turn)) }

/-- Whether program code runs: at the top, or from the notification that the innermost drain
is making. -/
def codeRuns (s : Scheduler) : Prop :=
  ∀ drain ∈ s.drains.head?, drain.notifying = true

/-- A drain is under way, inside all others. -/
def push (s : Scheduler) (drain : Drain) : Scheduler :=
  { s with drains := drain :: s.drains }

/-- The innermost drain is under way no more. -/
def pop (s : Scheduler) : Scheduler :=
  { s with drains := s.drains.tail }

/-- A drain of a turn is scheduled on a microtask. -/
def queueMicrotask (s : Scheduler) (turn : ℕ) : Scheduler :=
  { s with microtasks := s.microtasks ++ [turn] }

/-- The extent of a turn is no more open. -/
def close (s : Scheduler) (turn : ℕ) : Scheduler :=
  { s with extents := s.extents.filter (· ≠ turn) }

/-- `drain`, up to its loop.  A turn that is draining is left to the drain under way. -/
def drain (s : Scheduler) (turn : ℕ) (settles : Bool) : Scheduler :=
  if (s.turns turn).draining then s
  else (s.modify turn (fun turn => { turn with draining := true })).push (.start turn settles)

/-- `enqueue`, the microtask included. -/
def enqueue (s : Scheduler) (turn : ℕ) (subscribers : List Subscriber) : Scheduler :=
  if ((s.turns turn).enqueueAll subscribers).late then
    (s.modify turn (fun turn => turn.enqueue subscribers)).queueMicrotask turn
  else s.modify turn (fun turn => turn.enqueue subscribers)

/-- The end of an extent: `drain`, and, when that has nothing to do, the write of `settled`
after it. -/
def endExtent (s : Scheduler) (turn : ℕ) : Scheduler :=
  if (s.turns turn).draining then
    (s.close turn).modify turn (fun turn => { turn with settled := true })
  else (s.close turn).drain turn true

/-- The innermost drain leaves, by its end or by a throw: the finally of `drain`. -/
def leave (s : Scheduler) (turn : ℕ) : Scheduler :=
  (s.modify turn (fun turn => { turn with draining := false })).pop

/-- The innermost drain leaves by its end.  The one that ends an extent settles the turn. -/
def finish (s : Scheduler) (drain : Drain) : Scheduler :=
  if drain.settles then
    (s.leave drain.turn).modify drain.turn (fun turn => { turn with settled := true })
  else s.leave drain.turn

/-- The innermost drain goes on as `drain`. -/
def become (s : Scheduler) (drain : Drain) : Scheduler :=
  s.pop.push drain

/-- What happens in a step. -/
inductive Event where
  /-- `turn` or `batch` makes a fresh turn and enters its extent. -/
  | establish (turn : ℕ)
  /-- The body of an extent has returned. -/
  | endExtent (turn : ℕ)
  /-- The body of an extent has thrown. -/
  | abandon (turn : ℕ)
  /-- Program code calls `drain`. -/
  | drain (turn : ℕ)
  /-- Program code enqueues subscribers. -/
  | enqueue (turn : ℕ) (subscribers : List Subscriber)
  /-- A subscription is disposed: its liveness goes down. -/
  | lower (cell : ℕ)
  /-- A subscription is disposed: its subscriber leaves the queues of a turn. -/
  | scrub (turn : ℕ) (id : ℤ)
  /-- The microtask of a turn runs. -/
  | microtask (turn : ℕ)
  /-- A drain passes the condition of a loop, or ends the walk of a list. -/
  | pass (turn : ℕ)
  /-- A drain takes the derivations out. -/
  | derivations (turn : ℕ)
  /-- A drain takes a wave of effects out. -/
  | wave (turn : ℕ)
  /-- A drain calls a subscriber's `notify`. -/
  | notify (turn : ℕ) (subscriber : Subscriber)
  /-- A drain passes a subscriber over whose subscription is disposed. -/
  | skip (turn : ℕ) (subscriber : Subscriber)
  /-- A `notify` has returned. -/
  | notified (turn : ℕ)
  /-- A drain has ended. -/
  | finished (turn : ℕ)
  /-- A `notify` has thrown, out of the drain that made it. -/
  | threw (turn : ℕ)

/-- What a drain does between two uses of the queues of its turn. -/
inductive Move (turn : Turn) (live : ℕ → Bool) : Drain → Event → Drain → Prop
  | enter {drain : Drain} (hphase : drain.phase = .loop) (hwork : turn.isQuiescent = false)
      (hbudget : 0 < drain.budget) :
      Move turn live drain (.pass drain.turn) { drain with phase := .derive }
  | endDerivations {drain : Drain} (hphase : drain.phase = .derivations []) :
      Move turn live drain (.pass drain.turn) { drain with phase := .derive }
  | endEffects {drain : Drain} (hphase : drain.phase = .effects []) :
      Move turn live drain (.pass drain.turn) { drain with phase := .loop }
  | notifyDerivation {drain : Drain} {subscriber : Subscriber} {rest : List Subscriber}
      (hphase : drain.phase = .derivations (subscriber :: rest))
      (hidle : drain.notifying = false) (hlive : live subscriber.live = true) :
      Move turn live drain (.notify drain.turn subscriber) { drain with notifying := true }
  | notifyEffect {drain : Drain} {subscriber : Subscriber} {rest : List Subscriber}
      (hphase : drain.phase = .effects (subscriber :: rest))
      (hidle : drain.notifying = false) (hlive : live subscriber.live = true) :
      Move turn live drain (.notify drain.turn subscriber) { drain with notifying := true }
  | skipDerivation {drain : Drain} {subscriber : Subscriber} {rest : List Subscriber}
      (hphase : drain.phase = .derivations (subscriber :: rest))
      (hidle : drain.notifying = false) (hlive : live subscriber.live = false) :
      Move turn live drain (.skip drain.turn subscriber)
        { drain with phase := .derivations rest, budget := drain.budget - 1 }
  | skipEffect {drain : Drain} {subscriber : Subscriber} {rest : List Subscriber}
      (hphase : drain.phase = .effects (subscriber :: rest))
      (hidle : drain.notifying = false) (hlive : live subscriber.live = false) :
      Move turn live drain (.skip drain.turn subscriber)
        { drain with phase := .effects rest, budget := drain.budget - 1 }
  | notifiedDerivation {drain : Drain} {subscriber : Subscriber} {rest : List Subscriber}
      (hphase : drain.phase = .derivations (subscriber :: rest))
      (hnotifying : drain.notifying = true) :
      Move turn live drain (.notified drain.turn)
        { drain with
          phase := .derivations rest, budget := drain.budget - 1, notifying := false }
  | notifiedEffect {drain : Drain} {subscriber : Subscriber} {rest : List Subscriber}
      (hphase : drain.phase = .effects (subscriber :: rest))
      (hnotifying : drain.notifying = true) :
      Move turn live drain (.notified drain.turn)
        { drain with phase := .effects rest, budget := drain.budget - 1, notifying := false }

/-- One step of program code or of the innermost drain. -/
inductive Step : Scheduler → Event → Scheduler → Prop
  | establish {s : Scheduler} (hcode : s.codeRuns) :
      Step s (.establish s.minted)
        { s with extents := s.minted :: s.extents, minted := s.minted + 1 }
  | endExtent {s : Scheduler} {turn : ℕ} (hcode : s.codeRuns) (hopen : turn ∈ s.extents) :
      Step s (.endExtent turn) (s.endExtent turn)
  | abandon {s : Scheduler} {turn : ℕ} (hcode : s.codeRuns) (hopen : turn ∈ s.extents) :
      Step s (.abandon turn) (s.close turn)
  | drain {s : Scheduler} {turn : ℕ} (hcode : s.codeRuns) (hturn : turn < s.minted) :
      Step s (.drain turn) (s.drain turn false)
  | enqueue {s : Scheduler} {turn : ℕ} {subscribers : List Subscriber} (hcode : s.codeRuns)
      (hturn : turn < s.minted) :
      Step s (.enqueue turn subscribers) (s.enqueue turn subscribers)
  | lower {s : Scheduler} {cell : ℕ} (hcode : s.codeRuns) :
      Step s (.lower cell) { s with live := Function.update s.live cell false }
  | scrub {s : Scheduler} {turn : ℕ} {id : ℤ} (hcode : s.codeRuns) (hturn : turn < s.minted) :
      Step s (.scrub turn id) (s.modify turn (fun turn => turn.scrub id))
  | microtask {s : Scheduler} {turn : ℕ} {later : List ℕ} (hidle : s.drains = [])
      (hqueue : s.microtasks = turn :: later) :
      Step s (.microtask turn)
        (({ s with microtasks := later }.modify turn
          (fun turn => { turn with scheduled := false })).drain turn false)
  | move {s : Scheduler} {event : Event} {drain next : Drain} {outer : List Drain}
      (htop : s.drains = drain :: outer)
      (hmove : Move (s.turns drain.turn) s.live drain event next) :
      Step s event (s.become next)
  | derivations {s : Scheduler} {drain : Drain} {outer : List Drain}
      (htop : s.drains = drain :: outer) (hphase : drain.phase = .derive)
      (hwork : (s.turns drain.turn).pendingDerived ≠ []) (hbudget : 0 < drain.budget) :
      Step s (.derivations drain.turn)
        ((s.become
          { drain with phase := .derivations (s.turns drain.turn).pendingDerived }).modify
            drain.turn Turn.takeDerivations)
  | wave {s : Scheduler} {drain : Drain} {outer : List Drain}
      (htop : s.drains = drain :: outer) (hphase : drain.phase = .derive)
      (hdone : (s.turns drain.turn).pendingDerived = [] ∨ drain.budget ≤ 0) :
      Step s (.wave drain.turn)
        ((s.become { drain with phase := .effects (s.turns drain.turn).pending }).modify
          drain.turn Turn.takeWave)
  | finished {s : Scheduler} {drain : Drain} {outer : List Drain}
      (htop : s.drains = drain :: outer) (hphase : drain.phase = .loop)
      (hdone : (s.turns drain.turn).isQuiescent = true ∨ drain.budget ≤ 0) :
      Step s (.finished drain.turn) (s.finish drain)
  | threw {s : Scheduler} {drain : Drain} {outer : List Drain}
      (htop : s.drains = drain :: outer) (hnotifying : drain.notifying = true) :
      Step s (.threw drain.turn) (s.leave drain.turn)

/-- Runs of the scheduler. -/
def Run : List Event → Scheduler → Prop :=
  Machine.Run (· = init) Step

/-! ### Reading a changed state -/

@[simp]
theorem turns_modify_self (s : Scheduler) (turn : ℕ) (f : Turn → Turn) :
  (s.modify turn f).turns turn = f (s.turns turn)
  := by
  simp [modify]

theorem turns_modify_of_ne (s : Scheduler) {turn other : ℕ} (f : Turn → Turn)
    (h : other ≠ turn) :
  (s.modify turn f).turns other = s.turns other
  := by
  simp [modify, Function.update_of_ne h]

/-- What holds of every turn holds after one is changed to another it holds of. -/
theorem forall_turns_modify {P : ℕ → Turn → Prop} {s : Scheduler} (h : ∀ t, P t (s.turns t))
    {turn : ℕ} {f : Turn → Turn} (hf : P turn (f (s.turns turn))) (t : ℕ) :
  P t ((s.modify turn f).turns t)
  := by
  by_cases heq : t = turn
  · subst heq
    rw [turns_modify_self]
    apply hf
  · rw [turns_modify_of_ne s f heq]
    apply h

/-- What a change of a turn leaves alone is the same in all turns. -/
theorem turns_modify_eq {β : Type*} {s : Scheduler} {turn : ℕ} {f : Turn → Turn} {g : Turn → β}
    (h : g (f (s.turns turn)) = g (s.turns turn)) (t : ℕ) :
  g ((s.modify turn f).turns t) = g (s.turns t)
  := by
  apply forall_turns_modify (P := fun t turn => g turn = g (s.turns t))
  · intro t
    rfl
  · apply h

section

variable (s : Scheduler)

@[simp]
theorem minted_modify (turn : ℕ) (f : Turn → Turn) :
  (s.modify turn f).minted = s.minted
  := rfl

@[simp]
theorem extents_modify (turn : ℕ) (f : Turn → Turn) :
  (s.modify turn f).extents = s.extents
  := rfl

@[simp]
theorem drains_modify (turn : ℕ) (f : Turn → Turn) :
  (s.modify turn f).drains = s.drains
  := rfl

@[simp]
theorem turns_push (drain : Drain) : (s.push drain).turns = s.turns := rfl

@[simp]
theorem drains_push (drain : Drain) :
  (s.push drain).drains = drain :: s.drains
  := rfl

@[simp]
theorem turns_pop : s.pop.turns = s.turns := rfl

@[simp]
theorem drains_pop : s.pop.drains = s.drains.tail := rfl

end

@[simp]
theorem mem_extents_close {s : Scheduler} {turn other : ℕ} :
  other ∈ (s.close turn).extents ↔ other ∈ s.extents ∧ other ≠ turn
  := by
  simp [close]

end Scheduler

end Vilan
