import Mathlib.Data.List.Basic

/-!
# The analysis scheduler

Which analysis each open document owes, and how the ones it no longer does are stopped.  Every edit
supersedes: it bumps the generation of its document and cancels the analyses of older generations.
The entry of a document is removed when the document closes and made afresh, with its counters at
zero, when it is edited again, while its callers may still hold what they were given before.
-/

namespace Vilan.Lsp

/-- One analysis in flight: the ticket that retires it, the generation it was started for, and the
token it runs under. -/
structure Running where
  ticket : ℕ
  generation : ℕ
  token : ℕ
  deriving DecidableEq

/-- The scheduling state of one document. -/
structure DocumentSchedule where
  generation : ℕ
  running : List Running
  nextTicket : ℕ
  deriving DecidableEq

/-- The state of a document that was never edited. -/
def DocumentSchedule.default : DocumentSchedule where
  generation := 0
  running := []
  nextTicket := 0

/-- What `start` hands back.  Ticket zero stands for no registration. -/
structure Started where
  ticket : ℕ
  token : ℕ
  deriving DecidableEq

/-- The state of the scheduler, and the tokens it has handed out with what they say. -/
structure Schedule (Url : Type*) where
  documents : Url → Option DocumentSchedule
  cancelled : ℕ → Bool

section

variable {Url : Type*} [DecidableEq Url]

/-- The tokens with those of the running analyses that satisfy a predicate cancelled. -/
def cancelThose (cancelled : ℕ → Bool) (running : List Running) (those : Running → Bool) :
    ℕ → Bool :=
  fun token => cancelled token || running.any fun analysis => analysis.token = token ∧ those analysis

/-- Record an edit of a document: bump its generation and cancel what runs for an older one. -/
def Schedule.supersede (s : Schedule Url) (uri : Url) : Schedule Url × ℕ :=
  let entry := (s.documents uri).getD .default
  let generation := entry.generation + 1
  ({ documents := Function.update s.documents uri (some { entry with generation := generation })
     cancelled := cancelThose s.cancelled entry.running (·.generation < generation) },
    generation)

/-- Register an analysis for a generation of a document under a new token, which is cancelled at
once when the generation is not the current one. -/
def Schedule.start (s : Schedule Url) (token : ℕ) (uri : Url) (generation : ℕ) :
    Schedule Url × Started :=
  let stillborn := ({ s with cancelled := Function.update s.cancelled token true }, ⟨0, token⟩)
  match s.documents uri with
  | none => stillborn
  | some entry =>
      if entry.generation ≠ generation then stillborn
      else
        let ticket := entry.nextTicket + 1
        ({ documents := Function.update s.documents uri (some { entry with
             nextTicket := ticket
             running := entry.running ++ [⟨ticket, generation, token⟩] })
           cancelled := Function.update s.cancelled token false },
          ⟨ticket, token⟩)

/-- Retire the analysis that a `start` registered. -/
def Schedule.finish (s : Schedule Url) (uri : Url) (started : Started) : Schedule Url :=
  match s.documents uri with
  | none => s
  | some entry =>
      { s with documents := Function.update s.documents uri (some { entry with
          running := entry.running.filter (·.ticket ≠ started.ticket) }) }

/-- Forget a document and cancel whatever it had running. -/
def Schedule.close (s : Schedule Url) (uri : Url) : Schedule Url :=
  match s.documents uri with
  | none => s
  | some entry =>
      { documents := Function.update s.documents uri none
        cancelled := cancelThose s.cancelled entry.running fun _ => true }

/-! ### Runs -/

/-- A call of the scheduler.  A generation or a `Started` is passed by naming the call that returned
it, by its position in the run. -/
inductive Op (Url : Type*) where
  | supersede (uri : Url)
  | start (uri : Url) (held : ℕ)
  | finish (uri : Url) (held : ℕ)
  | close (uri : Url)
  deriving DecidableEq

/-- The scheduler with what its calls have returned: the generation of the `supersede` and the
`Started` of the `start` at each position of the run so far. -/
structure Session (Url : Type*) where
  schedule : Schedule Url
  clock : ℕ
  generations : ℕ → Option ℕ
  starteds : ℕ → Option Started

/-- Before the first call. -/
def Session.fresh : Session Url where
  schedule := ⟨fun _ => none, fun _ => false⟩
  clock := 0
  generations := fun _ => none
  starteds := fun _ => none

/-- One call.  A call with a value that nobody was given cannot be made, and does nothing.  The
token of a `start` is named by the position of the call. -/
def Session.step (s : Session Url) : Op Url → Session Url
  | .supersede uri =>
      { s with
        schedule := (s.schedule.supersede uri).1
        clock := s.clock + 1
        generations := Function.update s.generations s.clock (some (s.schedule.supersede uri).2) }
  | .start uri held =>
      match s.generations held with
      | none => { s with clock := s.clock + 1 }
      | some generation =>
          { s with
            schedule := (s.schedule.start s.clock uri generation).1
            clock := s.clock + 1
            starteds :=
              Function.update s.starteds s.clock (some (s.schedule.start s.clock uri generation).2) }
  | .finish uri held =>
      match s.starteds held with
      | none => { s with clock := s.clock + 1 }
      | some started =>
          { s with schedule := s.schedule.finish uri started, clock := s.clock + 1 }
  | .close uri => { s with schedule := s.schedule.close uri, clock := s.clock + 1 }

/-- A run, the first call first. -/
def run (calls : List (Op Url)) : Session Url :=
  calls.foldl Session.step .fresh

theorem run_append (calls : List (Op Url)) (op : Op Url) :
  run (calls ++ [op]) = (run calls).step op
  := by
  rw [run, List.foldl_append]
  rfl

/-! ### What a run is to do -/

/-- A call that supersedes what a document has running. -/
def Op.Retires (uri : Url) (op : Op Url) : Prop :=
  op = .supersede uri ∨ op = .close uri

instance (uri : Url) : DecidablePred (Op.Retires uri) :=
  fun op => inferInstanceAs (Decidable (op = .supersede uri ∨ op = .close uri))

/-- The most recent `supersede` or `close` of a document is the call at a position. -/
def Latest (calls : List (Op Url)) (uri : Url) (position : ℕ) : Prop :=
  (∃ op, calls[position]? = some op ∧ op.Retires uri) ∧
    ∀ later op, position < later → calls[later]? = some op → ¬ op.Retires uri

/-- A document has not been closed since a position. -/
def OpenSince (calls : List (Op Url)) (uri : Url) (position : ℕ) : Prop :=
  ∀ later, position < later → calls[later]? ≠ some (.close uri)

/-- Nobody finished the analysis that was started at a position. -/
def Unfinished (calls : List (Op Url)) (uri : Url) (position : ℕ) : Prop :=
  .finish uri position ∉ calls

/-- What the document has registered. -/
def Session.registered (s : Session Url) (uri : Url) : List Running :=
  ((s.schedule.documents uri).map (·.running)).getD []

/-- A call does what it is to do.  A `start` answers a token that is not cancelled exactly when the
`supersede` that returned its generation is the most recent `supersede` or `close` of the document;
the token of a started analysis that nobody finished is cancelled by every `supersede` and `close`
of its document, and by no other call; and a `finish` retires exactly the registration of the
`start` whose answer it is given. -/
structure Exact (before : List (Op Url)) (op : Op Url) : Prop where
  starts : ∀ uri held, op = .start uri held → (run before).generations held ≠ none →
    ∃ started, (run (before ++ [op])).starteds before.length = some started ∧
      ((run (before ++ [op])).schedule.cancelled started.token = false ↔ Latest before uri held)
  cancels : ∀ uri held position started, before[position]? = some (.start uri held) →
    (run before).starteds position = some started → Unfinished before uri position →
    op.Retires uri → (run (before ++ [op])).schedule.cancelled started.token = true
  onlyThose : ∀ uri held position started, before[position]? = some (.start uri held) →
    (run before).starteds position = some started →
    (run before).schedule.cancelled started.token = false →
    (run (before ++ [op])).schedule.cancelled started.token = true → op.Retires uri
  retires : ∀ uri held started, op = .finish uri held →
    (run before).starteds held = some started →
    (run (before ++ [op])).registered uri =
      ((run before).registered uri).filter (·.token ≠ started.token) ∧
    ∀ other, other ≠ uri → (run (before ++ [op])).registered other = (run before).registered other

/-- Every call of a run does what it is to do. -/
def ExactRun (calls : List (Op Url)) : Prop :=
  ∀ before op after, calls = before ++ op :: after → Exact before op

/-- A call does not mistake what it holds.  A generation that is the one the document counts now was
returned for that document since it was last closed, and a ticket that a running analysis of the
document carries was handed out for it since then. -/
structure Fits (before : List (Op Url)) (op : Op Url) : Prop where
  generation : ∀ uri held entry, op = .start uri held →
    (run before).schedule.documents uri = some entry →
    (run before).generations held = some entry.generation →
    before[held]? = some (.supersede uri) ∧ OpenSince before uri held
  ticket : ∀ uri held started analysis, op = .finish uri held →
    (run before).starteds held = some started → analysis ∈ (run before).registered uri →
    analysis.ticket = started.ticket →
    (∃ generation, before[held]? = some (.start uri generation)) ∧ OpenSince before uri held

/-- No call of a run mistakes what it holds. -/
def FitsRun (calls : List (Op Url)) : Prop :=
  ∀ before op after, calls = before ++ op :: after → Fits before op

end

end Vilan.Lsp
