import Mathlib.Data.Int.Order.Basic
import Vilan.Library.Machine

/-!
# Drafts

A draft is a local value over a remote one.  A push writes the local value at once and commits
it, now or when a coalescing window has run out.  Commits complete in any order, and only the
completion of the newest one settles the draft's state.  A remote value is adopted into a local
value that matches what is known of the remote.

A push runs observers between its two halves, the local write and the commit.  They may use the
draft themselves, so that the halves are steps of their own.
-/

namespace Vilan

/-- The sync status of a draft. -/
inductive DraftState where
  | synced
  | dirty
  | failed (reason : String)
deriving DecidableEq

/-- A draft.  `pending` names the outstanding coalescing timer. -/
structure Draft (T : Type*) where
  localValue : T
  state : DraftState
  synced : T
  generation : ℕ
  debounceMillis : ℤ
  pending : Option ℕ

namespace Draft

variable {T : Type*}

/-- `draft`: a cell seeded with `initial`. -/
def new (initial : T) : Draft T where
  localValue := initial
  state := .synced
  synced := initial
  generation := 0
  debounceMillis := 0
  pending := none

/-- A draft with the timers it has started (their verdicts, once they have settled), the tasks
that wait for a timer, the pushes that are between their halves, and the commits in flight with
the generations they claimed. -/
structure Host (T : Type*) where
  draft : Draft T
  timers : ℕ → Option Bool
  started : ℕ
  waiting : List ℕ
  pushes : List T
  inFlight : List (T × ℕ)

namespace Host

/-- Changes the draft. -/
def modify (host : Host T) (f : Draft T → Draft T) : Host T :=
  { host with draft := f host.draft }

/-- The first half of `push`: the value and the state are published as one wave. -/
def push (host : Host T) (value : T) : Host T :=
  { host with
    draft := { host.draft with localValue := value, state := .dirty }
    pushes := host.pushes ++ [value] }

/-- `send`: the newest generation is claimed and the commit spawned. -/
def send (host : Host T) (value : T) : Host T :=
  { host with
    draft := { host.draft with generation := host.draft.generation + 1 }
    inFlight := host.inFlight ++ [(value, host.draft.generation + 1)] }

/-- `Timer::cancel`: a timer that has settled is left alone. -/
def cancelTimer (host : Host T) (timer : ℕ) : Host T :=
  match host.timers timer with
  | none => { host with timers := Function.update host.timers timer (some false) }
  | some _ => host

/-- `cancel_pending`. -/
def cancelPending (host : Host T) : Host T :=
  match host.draft.pending with
  | some timer => (host.cancelTimer timer).modify (fun draft => { draft with pending := none })
  | none => host.modify (fun draft => { draft with pending := none })

/-- A fresh timer is started, recorded as pending, and waited for. -/
def startTimer (host : Host T) : Host T :=
  { host with
    draft := { host.draft with pending := some host.started }
    started := host.started + 1
    waiting := host.waiting ++ [host.started] }

/-- `arm`. -/
def arm (host : Host T) : Host T :=
  host.cancelPending.startTimer

/-- The second half of `push`. -/
def pushed (host : Host T) (value : T) : Host T :=
  if 0 < host.draft.debounceMillis then host.arm else host.send value

/-- The rest of `fire`, once the timer has settled. -/
def fire (host : Host T) (verdict : Bool) : Host T :=
  if verdict then
    (host.modify (fun draft => { draft with pending := none })).send host.draft.localValue
  else host

/-- `commit`. -/
def commit (host : Host T) : Host T :=
  host.cancelPending.send host.draft.localValue

/-- `repush`. -/
def repush [BEq T] (host : Host T) : Host T :=
  if host.draft.localValue != host.draft.synced then
    host.cancelPending.send host.draft.localValue
  else host

/-- The rest of `settle`, once the commit has completed: `none` is success. -/
def settle (host : Host T) (value : T) (mine : ℕ) (outcome : Option String) : Host T :=
  if host.draft.generation = mine then
    match outcome with
    | none => host.modify (fun draft => { draft with synced := value, state := .synced })
    | some reason => host.modify (fun draft => { draft with state := .failed reason })
  else host

/-- `adopt`. -/
def adopt [BEq T] (host : Host T) (remote : T) : Host T :=
  if remote == host.draft.synced then host
  else if host.draft.localValue == host.draft.synced then
    host.modify (fun draft =>
      { draft with synced := remote, localValue := remote, state := .synced })
  else host.modify (fun draft => { draft with synced := remote })

end Host

/-- What happens to a draft. -/
inductive Event (T : Type*) where
  | push (value : T)
  | pushed (value : T)
  | debounce (millis : ℤ)
  | commit
  | repush
  | adopt (remote : T)
  /-- A timer runs out. -/
  | ranOut (timer : ℕ)
  /-- The task that waits for a timer goes on. -/
  | woken (timer : ℕ)
  /-- The commit of `value` under the generation `mine` completes. -/
  | settled (value : T) (mine : ℕ) (outcome : Option String)

inductive Step [BEq T] : Host T → Event T → Host T → Prop
  | push (host : Host T) (value : T) : Step host (.push value) (host.push value)
  | pushed (host : Host T) (value : T) (before after : List T)
      (h : host.pushes = before ++ value :: after) :
      Step host (.pushed value) ({ host with pushes := before ++ after }.pushed value)
  | debounce (host : Host T) (millis : ℤ) :
      Step host (.debounce millis)
        (host.modify (fun draft => { draft with debounceMillis := millis }))
  | commit (host : Host T) : Step host .commit host.commit
  | repush (host : Host T) : Step host .repush host.repush
  | adopt (host : Host T) (remote : T) : Step host (.adopt remote) (host.adopt remote)
  | ranOut (host : Host T) (timer : ℕ) (hstarted : timer < host.started)
      (h : host.timers timer = none) :
      Step host (.ranOut timer)
        { host with timers := Function.update host.timers timer (some true) }
  | woken (host : Host T) (timer : ℕ) (verdict : Bool) (hwaiting : timer ∈ host.waiting)
      (h : host.timers timer = some verdict) :
      Step host (.woken timer)
        ({ host with waiting := host.waiting.filter (· ≠ timer) }.fire verdict)
  | settled (host : Host T) (value : T) (mine : ℕ) (outcome : Option String)
      (h : (value, mine) ∈ host.inFlight) :
      Step host (.settled value mine outcome)
        ({ host with
          inFlight := host.inFlight.filter (fun flight => flight.2 ≠ mine) }.settle
            value mine outcome)

/-- A draft over `initial`, before anything has happened to it. -/
def Host.new (initial : T) : Host T where
  draft := Draft.new initial
  timers := fun _ => none
  started := 0
  waiting := []
  pushes := []
  inFlight := []

/-- A draft that says it is synced is. -/
def Honest [BEq T] (host : Host T) : Prop :=
  host.draft.state = .synced → (host.draft.localValue == host.draft.synced) = true

/-- The step tells the truth about the local value: the success of the newest commit finds the
local value that was committed, and a value adopted into a clean draft equals itself. -/
def Agrees [BEq T] (host : Host T) : Event T → Prop
  | .settled value mine outcome =>
      outcome = none → host.draft.generation = mine → (host.draft.localValue == value) = true
  | .adopt remote =>
      (remote == host.draft.synced) = false →
        (host.draft.localValue == host.draft.synced) = true → (remote == remote) = true
  | _ => True

/-! ### What the operations leave alone -/

/-- The operation leaves the local value, what is known of the remote and the state alone. -/
structure Keeps (host host' : Host T) : Prop where
  localValue : host'.draft.localValue = host.draft.localValue
  synced : host'.draft.synced = host.draft.synced
  state : host'.draft.state = host.draft.state

theorem Keeps.trans {host host' host'' : Host T} (h : Keeps host host')
    (h' : Keeps host' host'') :
  Keeps host host''
  := ⟨h'.localValue.trans h.localValue, h'.synced.trans h.synced, h'.state.trans h.state⟩

theorem keeps_send (host : Host T) (value : T) :
  Keeps host (host.send value)
  := ⟨rfl, rfl, rfl⟩

theorem keeps_cancelPending (host : Host T) :
  Keeps host host.cancelPending
  := by
  unfold Host.cancelPending Host.cancelTimer
  split
  · split <;> exact ⟨rfl, rfl, rfl⟩
  · exact ⟨rfl, rfl, rfl⟩

theorem keeps_arm (host : Host T) :
  Keeps host host.arm
  := (keeps_cancelPending host).trans ⟨rfl, rfl, rfl⟩

theorem keeps_pushed (host : Host T) (value : T) :
  Keeps host (host.pushed value)
  := by
  unfold Host.pushed
  split
  · apply keeps_arm
  · apply keeps_send

theorem keeps_fire (host : Host T) (verdict : Bool) :
  Keeps host (host.fire verdict)
  := by
  unfold Host.fire
  split <;> exact ⟨rfl, rfl, rfl⟩

theorem keeps_commit (host : Host T) :
  Keeps host host.commit
  := (keeps_cancelPending host).trans (keeps_send _ _)

theorem keeps_repush [BEq T] (host : Host T) :
  Keeps host host.repush
  := by
  unfold Host.repush
  split
  · apply keeps_commit
  · exact ⟨rfl, rfl, rfl⟩

theorem Keeps.honest [BEq T] {host host' : Host T} (keeps : Keeps host host')
    (honest : Honest host) :
  Honest host'
  := by
  unfold Honest
  rw [keeps.localValue, keeps.synced, keeps.state]
  apply honest

/-! ### One step -/

/-- A draft stays honest in a step exactly when the step tells the truth. -/
theorem Step.honest_iff [BEq T] {host host' : Host T} {event : Event T} (honest : Honest host)
    (hstep : Step host event host') :
  Honest host' ↔ Agrees host event
  := by
  cases hstep with
  | push value =>
    apply iff_of_true _ trivial
    rintro ⟨⟩
  | pushed value before after =>
    apply iff_of_true _ trivial
    exact (keeps_pushed _ value).honest honest
  | debounce millis =>
    apply iff_of_true _ trivial
    apply honest
  | commit =>
    apply iff_of_true _ trivial
    apply (keeps_commit host).honest honest
  | repush =>
    apply iff_of_true _ trivial
    apply (keeps_repush host).honest honest
  | adopt remote =>
    change _ ↔ ((remote == host.draft.synced) = false →
      (host.draft.localValue == host.draft.synced) = true → (remote == remote) = true)
    unfold Host.adopt
    split
    next hecho =>
      apply iff_of_true honest
      simp [hecho]
    next hnew =>
      rw [Bool.not_eq_true] at hnew
      split
      next hclean => simp [Honest, Host.modify, hnew, hclean]
      next hdirty =>
        apply iff_of_true
        · intro hsynced
          exact (hdirty (honest hsynced)).elim
        · intro _ hclean
          exact (hdirty hclean).elim
  | ranOut timer =>
    apply iff_of_true _ trivial
    apply honest
  | woken timer verdict =>
    apply iff_of_true _ trivial
    exact (keeps_fire _ verdict).honest honest
  | settled value mine outcome =>
    change _ ↔ (outcome = none → host.draft.generation = mine →
      (host.draft.localValue == value) = true)
    unfold Host.settle
    split
    next hnewest =>
      change host.draft.generation = mine at hnewest
      cases outcome with
      | none => simp [Honest, Host.modify, hnewest]
      | some reason =>
        apply iff_of_true
        · rintro ⟨⟩
        · simp
    next hstale =>
      apply iff_of_true
      · apply honest
      · intro _ hnewest
        exact (hstale hnewest).elim

/-! ### Runs -/

/-- A draft is honest in every state that a run goes through exactly when the value it starts
with equals itself and every step of the run tells the truth. -/
theorem synced_draft_is_synced_iff [BEq T] (initial : T) (trace : List (Event T))
    (host : Host T) :
  Honest (Host.new initial)
      ∧ Machine.Run (· = Host.new initial)
          (fun host event host' => Step host event host' ∧ Honest host') trace host
    ↔ (initial == initial) = true
      ∧ Machine.Run (· = Host.new initial)
          (fun host event host' => Step host event host' ∧ Agrees host event) trace host
  := by
  have hnew : Honest (Host.new initial) ↔ (initial == initial) = true := by
    simp [Honest, Host.new, Draft.new]
  rw [← hnew]
  apply and_congr_right
  intro honest
  apply Machine.Run.congr (P := Honest)
  · rintro host rfl
    apply honest
  · rintro host event host' - ⟨-, honest⟩
    apply honest
  · rintro host event host' honest
    apply and_congr_right
    intro hstep
    apply hstep.honest_iff honest

/-- A value is pushed under a window of time, which runs out, and while it is committed another
is pushed.  The success of the commit finds the second value in the draft. -/
theorem pushed_over_a_commit_is_synced :
  ¬ ∀ (initial : ℕ) trace host, Machine.Run (· = Host.new initial) Step trace host → Honest host
  := by
  intro h
  have run₀ : Machine.Run (· = Host.new 0) Step [] (Host.new 0) := Machine.Run.start rfl
  have run₁ := run₀.step (Step.debounce _ 300)
  have run₂ := run₁.step (Step.push _ 1)
  have run₃ := run₂.step (Step.pushed _ 1 [] [] rfl)
  have run₄ := run₃.step (Step.ranOut _ 0 (by decide) rfl)
  have run₅ := run₄.step (Step.woken _ 0 true (by decide) rfl)
  have run₆ := run₅.step (Step.push _ 2)
  have run₇ := run₆.step (Step.pushed _ 2 [] [] rfl)
  have run₈ := run₇.step (Step.settled _ 1 1 none (by decide))
  have honest := h 0 _ _ run₈ rfl
  revert honest
  decide

end Draft

end Vilan
