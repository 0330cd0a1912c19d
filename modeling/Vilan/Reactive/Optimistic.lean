import Mathlib
import Vilan.Library.Machine

/-!
# Optimistic cells

An optimistic cell paints the value of a write at once and learns from the outcome of the
write's commit what the server holds.  Writes may overlap, and their commits complete in any
order.  Only the newest write paints its outcome, and what is known of the server is the answer
to the newest write that has succeeded.
-/

namespace Vilan

open List

/-- Where a write made through an optimistic cell stands. -/
inductive WriteState where
  | confirmed
  | pending
  | rejected (reason : String)

/-- An optimistic cell.  `value` is what was last painted into the signal that it wraps. -/
structure Optimistic (T : Type*) where
  value : T
  state : WriteState
  confirmed : T
  generation : ℕ
  confirmedGeneration : ℕ

namespace Optimistic

variable {T : Type*}

/-- The cell over a signal that holds `value`. -/
def optimistic (value : T) : Optimistic T where
  value := value
  state := .confirmed
  confirmed := value
  generation := 0
  confirmedGeneration := 0

/-- `write` up to its commit: a generation is claimed and the value painted. -/
def paint (cell : Optimistic T) (value : T) : Optimistic T :=
  { cell with generation := cell.generation + 1, value := value, state := .pending }

/-- What the outcome of the write `mine` says about the server. -/
def learn (cell : Optimistic T) (mine : ℕ) : Except String T → Optimistic T
  | .ok serverValue =>
      if cell.confirmedGeneration < mine then
        { cell with confirmed := serverValue, confirmedGeneration := mine }
      else cell
  | .error _ => cell

/-- The outcome of the write `mine` is painted, if that is the newest. -/
def repaint (cell : Optimistic T) (mine : ℕ) (outcome : Except String T) : Optimistic T :=
  if cell.generation = mine then
    match outcome with
    | .ok serverValue => { cell with value := serverValue, state := .confirmed }
    | .error reason => { cell with value := cell.confirmed, state := .rejected reason }
  else cell

/-- `write` from its commit on. -/
def settle (cell : Optimistic T) (mine : ℕ) (outcome : Except String T) : Optimistic T :=
  (cell.learn mine outcome).repaint mine outcome

/-! ### Runs -/

/-- A cell with the writes whose commits have not completed. -/
structure Host (T : Type*) where
  cell : Optimistic T
  inFlight : List ℕ

/-- What happens to a cell. -/
inductive Event (T : Type*) where
  /-- A write is made. -/
  | write (value : T)
  /-- The commit of the write `mine` completes. -/
  | settled (mine : ℕ) (outcome : Except String T)

inductive Step : Host T → Event T → Host T → Prop
  | write (host : Host T) (value : T) :
      Step host (.write value)
        ⟨host.cell.paint value, host.inFlight ++ [host.cell.generation + 1]⟩
  | settled (host : Host T) (mine : ℕ) (outcome : Except String T) (h : mine ∈ host.inFlight) :
      Step host (.settled mine outcome)
        ⟨host.cell.settle mine outcome, host.inFlight.filter (· ≠ mine)⟩

/-- Runs of a cell over a signal that holds `initial`. -/
def Run (initial : T) : List (Event T) → Host T → Prop :=
  Machine.Run (· = ⟨optimistic initial, []⟩) Step

/-! ### What a trace says -/

/-- How many writes an event is. -/
def Event.writes : Event T → ℕ
  | .write _ => 1
  | .settled _ _ => 0

/-- The number of writes made, which is the generation of the newest. -/
def newest (trace : List (Event T)) : ℕ :=
  (trace.map Event.writes).sum

/-- The server answered the write `mine` with a value. -/
def Succeeded (trace : List (Event T)) (mine : ℕ) (value : T) : Prop :=
  .settled mine (.ok value) ∈ trace

/-- What the server is known to hold: its answer to the newest write that has succeeded. -/
def ServerHolds (initial : T) (trace : List (Event T)) (value : T) : Prop :=
  (∃ mine, Succeeded trace mine value ∧ ∀ other v, Succeeded trace other v → other ≤ mine)
    ∨ (∀ other v, ¬ Succeeded trace other v) ∧ value = initial

theorem newest_append (trace later : List (Event T)) :
  newest (trace ++ later) = newest trace + newest later
  := by
  simp [newest]

variable {mine : ℕ} {value initial : T} {event : Event T} {trace : List (Event T)}
  {outcome : Except String T} {host : Host T} {cell : Optimistic T}

theorem succeeded_append :
  Succeeded (trace ++ [event]) mine value
    ↔ Succeeded trace mine value ∨ event = .settled mine (.ok value)
  := by
  simp [Succeeded, eq_comm]

theorem succeeded_append_of_ne (h : ∀ mine value, event ≠ .settled mine (.ok value)) :
  Succeeded (trace ++ [event]) mine value ↔ Succeeded trace mine value
  := by
  simp [succeeded_append, h mine value]

/-! ### The writes in flight -/

/-- Every write has a generation of its own, and it is in flight until its commit completes. -/
structure Flying (trace : List (Event T)) (host : Host T) : Prop where
  generation : host.cell.generation = newest trace
  nodup : host.inFlight.Nodup
  claimed : ∀ mine ∈ host.inFlight, 0 < mine ∧ mine ≤ host.cell.generation
  settled : ∀ mine outcome, .settled mine outcome ∈ trace →
    0 < mine ∧ mine ≤ host.cell.generation ∧ mine ∉ host.inFlight
  once : ∀ mine before after outcome outcome',
    trace = before ++ .settled mine outcome :: after →
      .settled mine outcome' ∉ before ∧ .settled mine outcome' ∉ after

theorem generation_settle (cell : Optimistic T) (mine : ℕ) (outcome : Except String T) :
  (cell.settle mine outcome).generation = cell.generation
  := by
  have hlearn : (cell.learn mine outcome).generation = cell.generation := by
    cases outcome with
    | ok serverValue =>
      rw [learn]
      split <;> rfl
    | error reason => rfl
  unfold settle repaint
  split
  · cases outcome <;> apply hlearn
  · apply hlearn

/-- The completions of writes that are not in flight, and are no more, stay the only ones. -/
theorem Flying.once_append (flying : Flying trace host)
    (hevent : ∀ mine outcome, event = .settled mine outcome →
      mine ∈ host.inFlight) {before after : List (Event T)} (outcome' : Except String T)
    (htrace : trace ++ [event] = before ++ .settled mine outcome :: after) :
  .settled mine outcome' ∉ before ∧ .settled mine outcome' ∉ after
  := by
  obtain rfl | ⟨after, last, rfl⟩ := eq_nil_or_concat after
  · obtain ⟨rfl, heq⟩ := append_inj' htrace rfl
    rw [singleton_inj] at heq
    constructor
    · intro h
      apply (flying.settled mine outcome' h).2.2 (hevent mine outcome heq)
    · simp
  · rw [concat_eq_append, ← cons_append, ← append_assoc] at htrace
    obtain ⟨rfl, heq⟩ := append_inj' htrace rfl
    rw [singleton_inj] at heq
    subst heq
    obtain ⟨hbefore, hafter⟩ := flying.once mine before after outcome outcome' rfl
    use hbefore
    rw [concat_eq_append, mem_append, mem_singleton, not_or]
    use hafter
    intro heq
    apply (flying.settled mine outcome _).2.2 (hevent mine outcome' heq.symm)
    simp

theorem Flying.step {host' : Host T} (flying : Flying trace host) (hstep : Step host event host') :
  Flying (trace ++ [event]) host'
  := by
  cases hstep with
  | write value =>
    constructor
    · rw [newest_append, ← flying.generation]
      rfl
    · apply flying.nodup.append (nodup_singleton _)
      rw [disjoint_singleton]
      intro h
      have hle := (flying.claimed _ h).2
      omega
    · intro mine hmine
      change 0 < mine ∧ mine ≤ host.cell.generation + 1
      rw [mem_append, mem_singleton] at hmine
      obtain hmine | rfl := hmine
      · have hclaimed := flying.claimed mine hmine
        omega
      · omega
    · intro mine outcome hmem
      have hmem' : .settled mine outcome ∈ trace := by simpa using hmem
      obtain ⟨hpos, hle, hnot⟩ := flying.settled mine outcome hmem'
      refine ⟨hpos, Nat.le_succ_of_le hle, ?_⟩
      rw [mem_append, mem_singleton, not_or]
      use hnot
      omega
    · intro mine before after outcome outcome' htrace
      apply flying.once_append _ outcome' htrace
      simp
  | settled mine outcome hmine =>
    constructor
    · rw [newest_append, generation_settle, flying.generation]
      rfl
    · apply flying.nodup.filter
    · intro other hother
      rw [generation_settle]
      apply flying.claimed other (mem_of_mem_filter hother)
    · intro other outcome' hmem
      rw [generation_settle, mem_filter]
      rw [mem_append, mem_singleton] at hmem
      obtain hmem | heq := hmem
      · obtain ⟨hpos, hle, hnot⟩ := flying.settled other outcome' hmem
        refine ⟨hpos, hle, ?_⟩
        rintro ⟨h, -⟩
        apply hnot h
      · cases heq
        have hclaimed := flying.claimed mine hmine
        simp [hclaimed]
    · intro other before after outcome₁ outcome₂ htrace
      apply flying.once_append _ outcome₂ htrace
      intro other' outcome' heq
      cases heq
      apply hmine

theorem Run.flying (run : Run initial trace host) :
  Flying trace host
  := by
  apply Machine.Run.history (P := Flying) _ _ run
  · rintro host rfl
    constructor <;> simp [optimistic, newest]
  · intro trace host event host' _ flying hstep
    apply flying.step hstep

/-- A write completes in one way. -/
theorem Flying.outcome_unique (flying : Flying trace host) {outcome' : Except String T}
    (h : .settled mine outcome ∈ trace) (h' : .settled mine outcome' ∈ trace) :
  outcome = outcome'
  := by
  obtain ⟨before, after, rfl⟩ := append_of_mem h
  obtain ⟨hbefore, hafter⟩ := flying.once mine before after outcome outcome' rfl
  rw [mem_append, mem_cons] at h'
  obtain h' | h' | h' := h'
  · exact (hbefore h').elim
  · injection h' with _ h'
    apply h'.symm
  · exact (hafter h').elim

theorem Flying.succeeded_unique (flying : Flying trace host) {value' : T}
    (h : Succeeded trace mine value) (h' : Succeeded trace mine value') :
  value = value'
  := by
  injection flying.outcome_unique h h'

/-- A trace that holds on after a completion of a write was the same before it, however it is
taken apart. -/
theorem Flying.before_unique {before before' after after' : List (Event T)}
    (flying : Flying trace host) {outcome' : Except String T}
    (h : trace = before ++ .settled mine outcome :: after)
    (h' : trace = before' ++ .settled mine outcome' :: after') :
  before = before'
  := by
  obtain ⟨hbefore, hafter⟩ := flying.once mine before after outcome outcome' h
  rw [h] at h'
  apply ((append_cons_inj_of_notMem hbefore hafter).1 h').1

/-- What the server is known to hold is determined by a trace in which a write succeeds in one
way. -/
theorem serverHolds_unique
    (once : ∀ mine v v', Succeeded trace mine v → Succeeded trace mine v' → v = v') {value' : T}
    (h : ServerHolds initial trace value) (h' : ServerHolds initial trace value') :
  value = value'
  := by
  obtain ⟨mine, hmine, hmax⟩ | ⟨hnone, rfl⟩ := h <;>
    obtain ⟨mine', hmine', hmax'⟩ | ⟨hnone', rfl⟩ := h'
  · have heq : mine = mine' := by
      have hle := hmax mine' value' hmine'
      have hle' := hmax' mine value hmine
      omega
    subst heq
    apply once mine value value' hmine hmine'
  · exact (hnone' mine value hmine).elim
  · exact (hnone mine' value' hmine').elim
  · rfl

/-! ### What is confirmed -/

/-- `confirmed` is what the server is known to hold, and `confirmedGeneration` is the write it
answered. -/
def Confirms (initial : T) (trace : List (Event T)) (cell : Optimistic T) : Prop :=
  (Succeeded trace cell.confirmedGeneration cell.confirmed
      ∧ ∀ other v, Succeeded trace other v → other ≤ cell.confirmedGeneration)
    ∨ (∀ other v, ¬ Succeeded trace other v) ∧ cell.confirmed = initial
      ∧ cell.confirmedGeneration = 0

theorem Confirms.serverHolds (confirms : Confirms initial trace cell) :
  ServerHolds initial trace cell.confirmed
  := by
  obtain h | ⟨hnone, heq, -⟩ := confirms
  · left
    use cell.confirmedGeneration
  · right
    exact ⟨hnone, heq⟩

theorem confirmed_repaint (cell : Optimistic T) (mine : ℕ) (outcome : Except String T) :
  (cell.repaint mine outcome).confirmed = cell.confirmed
    ∧ (cell.repaint mine outcome).confirmedGeneration = cell.confirmedGeneration
  := by
  unfold repaint
  split
  · cases outcome <;> simp
  · simp

theorem Confirms.of_eq {cell' : Optimistic T} (confirms : Confirms initial trace cell)
    (hconfirmed : cell'.confirmed = cell.confirmed)
    (hgeneration : cell'.confirmedGeneration = cell.confirmedGeneration) :
  Confirms initial trace cell'
  := by
  rw [Confirms, hconfirmed, hgeneration]
  apply confirms

/-- An event that is no success confirms nothing. -/
theorem Confirms.append_of_ne (confirms : Confirms initial trace cell)
    (h : ∀ mine value, event ≠ .settled mine (.ok value)) :
  Confirms initial (trace ++ [event]) cell
  := by
  simpa [Confirms, succeeded_append_of_ne h] using confirms

theorem Confirms.learn (confirms : Confirms initial trace cell) (mine : ℕ) (hmine : 0 < mine)
    (outcome : Except String T) :
  Confirms initial (trace ++ [.settled mine outcome]) (cell.learn mine outcome)
  := by
  cases outcome with
  | error reason => apply confirms.append_of_ne (by simp)
  | ok serverValue =>
    left
    rw [Optimistic.learn]
    split
    next hlt =>
      constructor
      · rw [succeeded_append]
        right
        rfl
      · intro other v hother
        obtain hother | heq := succeeded_append.1 hother
        · obtain ⟨-, hmax⟩ | ⟨hnone, -⟩ := confirms
          · have hle := hmax other v hother
            change other ≤ mine
            omega
          · exact (hnone other v hother).elim
        · cases heq
          apply Nat.le_refl
    next hge =>
      obtain ⟨hsucceeded, hmax⟩ | ⟨-, -, hzero⟩ := confirms
      · constructor
        · rw [succeeded_append]
          left
          apply hsucceeded
        · intro other v hother
          obtain hother | heq := succeeded_append.1 hother
          · apply hmax other v hother
          · cases heq
            omega
      · omega

theorem Run.confirms (run : Run initial trace host) :
  Confirms initial trace host.cell
  := by
  apply Machine.Run.history (P := fun trace host => Confirms initial trace host.cell) _ _ run
  · rintro host rfl
    right
    simp [optimistic, Succeeded]
  · intro trace host event host' run confirms hstep
    cases hstep with
    | write value =>
      apply (confirms.append_of_ne (by simp)).of_eq
      · rfl
      · rfl
    | settled mine outcome hmine =>
      have hpos := ((Run.flying run).claimed mine hmine).1
      obtain ⟨hconfirmed, hgeneration⟩ :=
        confirmed_repaint (host.cell.learn mine outcome) mine outcome
      apply (confirms.learn mine hpos outcome).of_eq hconfirmed hgeneration

/-! ### What is painted -/

/-- What the cell shows, once its newest write is in flight no more: the answer to it, which is
what the server is known to hold, or what the server was known to hold when the newest write
was refused. -/
def Paints (initial : T) (trace : List (Event T)) (host : Host T) : Prop :=
  host.cell.generation ∈ host.inFlight
    ∨ host.cell.generation = 0 ∧ host.cell.value = initial
    ∨ Succeeded trace host.cell.generation host.cell.value
    ∨ ∃ before after reason,
      trace = before ++ .settled host.cell.generation (.error reason) :: after
        ∧ ServerHolds initial before host.cell.value

theorem value_repaint_of_ne (h : cell.generation ≠ mine) (outcome : Except String T) :
  cell.repaint mine outcome = cell
  := by
  rw [Optimistic.repaint.eq_def, if_neg h]

theorem learn_generation (cell : Optimistic T) (mine : ℕ) (outcome : Except String T) :
  (cell.learn mine outcome).generation = cell.generation
    ∧ (cell.learn mine outcome).value = cell.value
  := by
  cases outcome with
  | ok serverValue =>
    rw [learn]
    split <;> simp
  | error reason => simp [learn]

theorem Paints.step {host' : Host T} (flying : Flying trace host)
    (confirms : Confirms initial trace host.cell) (paints : Paints initial trace host)
    (hstep : Step host event host') :
  Paints initial (trace ++ [event]) host'
  := by
  cases hstep with
  | write value =>
    left
    apply mem_append_right
    apply mem_singleton_self
  | settled mine outcome hmine =>
    obtain ⟨hgeneration, hvalue⟩ := learn_generation host.cell mine outcome
    have hkept := generation_settle host.cell mine outcome
    rw [Paints, hkept]
    by_cases heq : host.cell.generation = mine
    · right
      right
      subst heq
      cases outcome with
      | ok serverValue =>
        left
        rw [settle, repaint.eq_def, if_pos hgeneration, succeeded_append]
        right
        rfl
      | error reason =>
        right
        use trace, [], reason
        use rfl
        rw [settle, repaint.eq_def, if_pos hgeneration]
        apply confirms.serverHolds
    · have hsettle : (host.cell.settle mine outcome).value = host.cell.value := by
        rw [settle, value_repaint_of_ne (hgeneration ▸ heq), hvalue]
      rw [hsettle]
      obtain hflying | ⟨hzero, -⟩ | hsucceeded | ⟨before, after, reason, rfl, hholds⟩ :=
        paints
      · left
        simp [hflying, heq]
      · have hclaimed := flying.claimed mine hmine
        omega
      · right
        right
        left
        rw [succeeded_append]
        left
        apply hsucceeded
      · right
        right
        right
        use before, after ++ [.settled mine outcome], reason
        simp [hholds]

theorem Run.paints (run : Run initial trace host) :
  Paints initial trace host
  := by
  apply Machine.Run.history (P := Paints initial) _ _ run
  · rintro host rfl
    right
    left
    exact ⟨rfl, rfl⟩
  · intro trace host event host' run paints hstep
    apply paints.step (Run.flying run) (Run.confirms run) hstep

/-- A cell with no write in flight has confirmed what the server is known to hold.  It shows
that exactly when nothing learned after the newest write was refused, if it was, has changed
what the server is known to hold. -/
theorem settled_shows_confirmed_iff {initial : T} {trace : List (Event T)} {host : Host T}
    (run : Run initial trace host) (hidle : host.inFlight = []) :
  ServerHolds initial trace host.cell.confirmed
    ∧ (host.cell.value = host.cell.confirmed
      ↔ ∀ before after reason, trace = before ++ .settled (newest trace) (.error reason) :: after →
          ∃ value, ServerHolds initial before value ∧ ServerHolds initial trace value)
  := by
  have flying := Run.flying run
  have once : ∀ mine v v', Succeeded trace mine v → Succeeded trace mine v' → v = v' :=
    fun mine v v' => flying.succeeded_unique
  have hholds := (Run.confirms run).serverHolds
  use hholds
  rw [← flying.generation]
  obtain hflying | ⟨hzero, hinitial⟩ | hsucceeded | ⟨before, after, reason, htrace, hbefore⟩ :=
    Run.paints run
  · rw [hidle] at hflying
    cases hflying
  · -- no write was ever made
    have hnone : ∀ mine outcome, .settled mine outcome ∉ trace := by
      intro mine outcome h
      have hsettled := flying.settled mine outcome h
      omega
    apply iff_of_true
    · apply serverHolds_unique once _ hholds
      right
      exact ⟨fun mine value => hnone mine (.ok value), hinitial⟩
    · intro before after reason htrace
      exfalso
      apply hnone host.cell.generation (.error reason)
      rw [htrace]
      simp
  · -- the newest write succeeded
    apply iff_of_true
    · apply serverHolds_unique once _ hholds
      left
      use host.cell.generation, hsucceeded
      intro other v hother
      apply (flying.settled other (.ok v) hother).2.1
    · intro before after reason htrace
      have hrefused : .settled host.cell.generation (.error reason) ∈ trace := by
        rw [htrace]
        simp
      cases flying.outcome_unique hsucceeded hrefused
  · -- the newest write was refused
    constructor
    · intro heq before' after' reason' htrace'
      rw [← flying.before_unique htrace htrace']
      use host.cell.value, hbefore
      rw [heq]
      apply hholds
    · intro h
      obtain ⟨value, hvalue, hvalue'⟩ := h before after reason htrace
      have hpainted : host.cell.value = value := by
        apply serverHolds_unique _ hbefore hvalue
        intro mine v v' hv hv'
        apply once mine v v'
        · rw [htrace]
          apply mem_append_left _ hv
        · rw [htrace]
          apply mem_append_left _ hv'
      rw [hpainted]
      apply serverHolds_unique once hvalue' hholds

/-- Two writes overlap.  The newer is refused, and then the older succeeds. -/
theorem run_refused_first :
  ∃ trace host, Run 0 trace host ∧ host.inFlight = [] ∧ host.cell.value = 0
    ∧ host.cell.confirmed = 1
  := by
  have run₀ : Run 0 [] ⟨optimistic 0, []⟩ := Machine.Run.start rfl
  have run₁ := Machine.Run.step run₀ (Step.write _ 1)
  have run₂ := Machine.Run.step run₁ (Step.write _ 2)
  have run₃ := Machine.Run.step run₂ (Step.settled _ 2 (.error "refused") (by decide))
  have run₄ := Machine.Run.step run₃ (Step.settled _ 1 (.ok 1) (by decide))
  exact ⟨_, _, run₄, rfl, rfl, rfl⟩

/-- A cell with no write in flight may show what the server does not hold. -/
theorem settled_shows_stale :
  ¬ ∀ (initial : ℕ) trace host, Run initial trace host → host.inFlight = [] →
      host.cell.value = host.cell.confirmed ∧ ServerHolds initial trace host.cell.confirmed
  := by
  intro h
  obtain ⟨trace, host, run, hidle, hvalue, hconfirmed⟩ := run_refused_first
  have heq := (h 0 trace host run hidle).1
  omega

/-- In `run_refused_first` the cell knows what the server holds, and shows something else. -/
theorem settled_shows_confirmed_iff_refused_first :
  ∃ trace host, Run 0 trace host ∧ host.inFlight = []
    ∧ ServerHolds 0 trace host.cell.confirmed
    ∧ (host.cell.value = host.cell.confirmed
      ↔ ∀ before after reason, trace = before ++ .settled (newest trace) (.error reason) :: after →
          ∃ value, ServerHolds 0 before value ∧ ServerHolds 0 trace value)
  := by
  obtain ⟨trace, host, run, hidle, -⟩ := run_refused_first
  exact ⟨trace, host, run, hidle, settled_shows_confirmed_iff run hidle⟩

end Optimistic

end Vilan
