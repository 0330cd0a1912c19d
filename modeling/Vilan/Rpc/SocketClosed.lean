import Vilan.Rpc.SocketSteps

/-!
# A duplex that is closed stays closed

A duplex that is connected has no socket open but its own, one that redials no socket open but that
of the attempt, and one that is closed none.  This holds as long as teardowns and refused re-attaches
find the duplex connected, and as long as the sockets that were replaced are silent.  Then a duplex
that is closed has run its teardowns once, and nothing opens it again.
-/

namespace Vilan.Socket

open List

namespace Duplex

variable {F : Type} {duplex next : Duplex F}

/-- A teardown or a refused re-attach finds the duplex connected, and so does a drop, on the socket of
the duplex. -/
structure Safe (service : Service F) (duplex : Duplex F) (event : Event F) : Prop where
  closes : duplex.Closes service event → duplex.state = .connected
  drops : ∀ socket ∈ duplex.watched, event = .socketEvent socket → duplex.state = .connected →
    socket = duplex.socket

/-- The sockets that are open are those that the state of the duplex accounts for. -/
structure Tidy (duplex : Duplex F) : Prop where
  redials : duplex.redial ≠ none ↔ duplex.state = .reconnecting
  accounted : ∀ socket ∈ duplex.openSockets, (duplex.state = .connected ∧ socket = duplex.socket) ∨
    ∃ attempt, duplex.redial = some ⟨attempt, some socket⟩
  closings : duplex.closings.length = if duplex.state = .closed then 1 else 0

theorem Tidy.dialSocket (connection : ℤ) (hmrActive : Bool) :
  (dialSocket connection hmrActive : Duplex F).Tidy
  := by
  constructor
  · constructor
    · intro redial
      cases redial rfl
    · intro state
      cases state
  · intro socket mem
    left
    constructor
    · rfl
    · apply mem_singleton.mp mem
  · rfl

theorem Tidy.reconnecting (tidy : duplex.Tidy) {attempt : ℕ} {socket : Option ℕ}
    (redial : duplex.redial = some ⟨attempt, socket⟩) :
  duplex.state = .reconnecting
  := by
  apply tidy.redials.1
  simp [redial]

/-- While a redial is on, its socket is the only one that may be open. -/
theorem Tidy.eq_of_redial (tidy : duplex.Tidy) {attempt : ℕ} {dialling : Option ℕ}
    (redial : duplex.redial = some ⟨attempt, dialling⟩) {socket : ℕ}
    (mem : socket ∈ duplex.openSockets) :
  dialling = some socket
  := by
  rcases tidy.accounted socket mem with ⟨connected, -⟩ | ⟨attempt', redial'⟩
  · rw [tidy.reconnecting redial] at connected
    cases connected
  · rw [redial] at redial'
    cases redial'
    rfl

theorem Tidy.congr (tidy : duplex.Tidy) (same : SameSockets duplex next) : next.Tidy := by
  constructor
  · rw [same.redial, same.state]
    exact tidy.redials
  · intro socket mem
    rw [same.redial, same.state, same.socket]
    apply tidy.accounted socket (same.openSockets mem)
  · rw [same.closings, same.state]
    exact tidy.closings

theorem Tidy.closeForGood (tidy : duplex.Tidy) (connected : duplex.state = .connected) :
  duplex.closeForGood.Tidy
  := by
  have still : ¬ duplex.redial ≠ none := by
    rw [tidy.redials, connected]
    apply ConnectionState.noConfusion
  constructor
  · constructor
    · intro redial
      cases still redial
    · apply ConnectionState.noConfusion
  · intro socket mem
    obtain ⟨mem, apart⟩ := mem_filter.mp mem
    rcases tidy.accounted socket mem with ⟨-, same⟩ | ⟨attempt, redial⟩
    · cases of_decide_eq_true apart same
    · cases still (by simp [redial])
  · have closings := tidy.closings
    rw [connected, if_neg (by decide)] at closings
    simp [Duplex.closeForGood, closings]

/-- A step that is safe keeps the sockets accounted for. -/
theorem Tidy.effect {service : Service F} {event : Event F} (tidy : duplex.Tidy)
    (effect : Effect service duplex event next) (safe : duplex.Safe service event) :
  next.Tidy
  := by
  cases effect with
  | keeps calls same => apply tidy.congr same
  | calls calls same => apply tidy.congr same
  | replies socket request frame event_eq next_eq =>
    subst next_eq
    exact tidy.congr (.of_eq rfl rfl rfl rfl rfl rfl rfl)
  | waits attempt socket redial next_eq =>
    subst next_eq
    have reconnecting := tidy.reconnecting redial
    constructor
    · constructor
      · intro redials
        exact reconnecting
      · intro state
        apply Option.some_ne_none
    · intro other mem
      obtain ⟨mem, apart⟩ := mem_filter.mp mem
      cases tidy.eq_of_redial redial mem
      cases of_decide_eq_true apart rfl
    · exact tidy.closings
  | dials attempt redial next_eq =>
    subst next_eq
    have reconnecting := tidy.reconnecting redial
    constructor
    · constructor
      · intro redials
        exact reconnecting
      · intro state
        apply Option.some_ne_none
    · intro socket mem
      rcases mem_append.mp mem with mem | mem
      · cases tidy.eq_of_redial redial mem
      · right
        use attempt
        rw [mem_singleton.mp mem]
        rfl
    · exact tidy.closings
  | opens attempt socket connection redial next_eq =>
    subst next_eq
    have reconnecting := tidy.reconnecting redial
    constructor
    · constructor
      · intro redials
        cases redials rfl
      · apply ConnectionState.noConfusion
    · intro other mem
      left
      constructor
      · rfl
      · cases tidy.eq_of_redial redial mem
        rfl
    · have closings := tidy.closings
      rw [reconnecting] at closings
      exact closings
  | drops socket event_eq watched connected next_eq =>
    subst next_eq
    have current := safe.drops socket watched event_eq connected
    constructor
    · constructor
      · intro redials
        rfl
      · intro state
        apply Option.some_ne_none
    · intro other mem
      rcases mem_append.mp mem with mem | mem
      · obtain ⟨mem, apart⟩ := mem_filter.mp mem
        rcases tidy.accounted other mem with ⟨-, same⟩ | ⟨attempt, redial⟩
        · rw [current] at apart
          cases of_decide_eq_true apart same
        · rw [tidy.reconnecting redial] at connected
          cases connected
      · right
        use 0
        rw [mem_singleton.mp mem]
        rfl
    · have closings := tidy.closings
      rw [connected] at closings
      exact closings
  | givesUp attempt socket redial next_eq =>
    subst next_eq
    have reconnecting := tidy.reconnecting redial
    constructor
    · constructor
      · intro redials
        cases redials rfl
      · apply ConnectionState.noConfusion
    · intro other mem
      obtain ⟨mem, -⟩ := mem_filter.mp mem
      obtain ⟨mem, apart⟩ := mem_filter.mp mem
      cases tidy.eq_of_redial redial mem
      cases of_decide_eq_true apart rfl
    · have closings := tidy.closings
      rw [reconnecting, if_neg (by decide)] at closings
      simp [Duplex.closeForGood, Duplex.closeSocket, closings]
  | closes why calls same => apply (tidy.closeForGood (safe.closes why)).congr same

/-- A step that is safe, from a duplex that is closed, does nothing to its sockets. -/
theorem Effect.of_closed {service : Service F} {event : Event F} (tidy : duplex.Tidy)
    (closed : duplex.state = .closed) (effect : Effect service duplex event next)
    (safe : duplex.Safe service event) :
  SameSockets duplex next
  := by
  have still : ∀ {redial}, duplex.redial ≠ some redial := by
    intro redial some_redial
    have reconnecting := tidy.redials.1 (by simp [some_redial])
    rw [closed] at reconnecting
    cases reconnecting
  cases effect with
  | keeps calls same => exact same
  | calls calls same => exact same
  | replies socket request frame event_eq next_eq =>
    subst next_eq
    exact .of_eq rfl rfl rfl rfl rfl rfl rfl
  | waits attempt socket redial next_eq => cases still redial
  | dials attempt redial next_eq => cases still redial
  | opens attempt socket connection redial next_eq => cases still redial
  | drops socket event_eq watched connected next_eq =>
    rw [closed] at connected
    cases connected
  | givesUp attempt socket redial next_eq => cases still redial
  | closes why calls same =>
    have connected := safe.closes why
    rw [closed] at connected
    cases connected

/-- A step of a duplex that is safe. -/
def SafeStep (service : Service F) (duplex : Duplex F) (event : Event F) (next : Duplex F) : Prop :=
  Step service duplex event next ∧ duplex.Safe service event

theorem Run.tidy {service : Service F} {trace : List (Event F)}
    (run : Machine.Run Fresh (SafeStep service) trace duplex) :
  duplex.Tidy
  := by
  apply run.invariant
  · rintro duplex ⟨connection, hmrActive, rfl⟩
    apply Tidy.dialSocket
  · rintro duplex event next tidy ⟨step, safe⟩
    apply tidy.effect step.effect safe

/-- **Closed is terminal.**  However a run goes on once the duplex is closed, if every teardown and
every refused re-attach finds the duplex connected, and so does every drop, on the socket of the
duplex, then the duplex stays closed, its teardowns have run once, none of its sockets is open, and
none is dialled or installed any more. -/
theorem Run.closed_terminal {service : Service F} {before after : List (Event F)}
    {closed later : Duplex F} (run : Machine.Run Fresh (SafeStep service) before closed)
    (is_closed : closed.state = .closed)
    (rest : Machine.Run (· = closed) (SafeStep service) after later) :
  later.state = .closed ∧ (∃ teardowns, later.closings = [teardowns]) ∧
    later.closings = closed.closings ∧ later.openSockets = [] ∧ later.socket = closed.socket ∧
      later.connection = closed.connection ∧ later.dialled = closed.dialled
  := by
  have kept : later.Tidy ∧ SameSockets closed later := by
    apply rest.invariant (P := fun later => later.Tidy ∧ SameSockets closed later)
    · rintro duplex rfl
      exact ⟨Run.tidy run, SameSockets.refl duplex⟩
    · rintro duplex event next ⟨tidy, same⟩ ⟨step, safe⟩
      constructor
      · apply tidy.effect step.effect safe
      · apply same.trans
        apply Effect.of_closed tidy _ step.effect safe
        rw [same.state]
        exact is_closed
  obtain ⟨tidy, same⟩ := kept
  have still_closed : later.state = .closed := by
    rw [same.state]
    exact is_closed
  refine ⟨still_closed, ?_, same.closings, ?_, same.socket, same.connection, same.dialled⟩
  · have closings := tidy.closings
    rw [if_pos still_closed] at closings
    apply length_eq_one_iff.mp closings
  · rw [eq_nil_iff_forall_not_mem]
    intro socket mem
    rcases tidy.accounted socket mem with ⟨connected, -⟩ | ⟨attempt, redial⟩
    · rw [still_closed] at connected
      cases connected
    · have reconnecting := tidy.reconnecting redial
      rw [still_closed] at reconnecting
      cases reconnecting

/-- A server that refuses nothing. -/
def lenient : Service String where
  hash := some
  channels := fun _ => some []
  expectedContract := ""

/-- A duplex whose redial was refused. -/
def cutOff : Duplex String :=
  { (dialSocket 7 false : Duplex String) with
    state := .closed
    openSockets := []
    dialled := 2
    closings := [[]] }

theorem cutOff_terminal :
  Machine.Run Fresh (SafeStep lenient) [.socketEvent 0, .refused] cutOff ∧
    ∃ later, Machine.Run (· = cutOff) (SafeStep lenient) [.call, .socketEvent 1] later ∧
      later.state = .closed ∧ later.openSockets = []
  := by
  have fresh : Machine.Run Fresh (SafeStep lenient) [] (dialSocket 7 false) :=
    .start ⟨7, false, rfl⟩
  have dropped : Machine.Run Fresh (SafeStep lenient) [.socketEvent 0] _ :=
    fresh.step ⟨rfl, False.elim, fun _ mem _ _ => mem_singleton.mp mem⟩
  have refused : Machine.Run Fresh (SafeStep lenient) [.socketEvent 0, .refused] cutOff :=
    dropped.step ⟨rfl, False.elim, nofun⟩
  have begun : Machine.Run (· = cutOff) (SafeStep lenient) [] cutOff := .start rfl
  have called : Machine.Run (· = cutOff) (SafeStep lenient) [.call] _ :=
    begun.step ⟨rfl, False.elim, nofun⟩
  have late : Machine.Run (· = cutOff) (SafeStep lenient) [.call, .socketEvent 1] _ :=
    called.step ⟨rfl, False.elim, fun _ _ _ connected => nomatch connected⟩
  have terminal := Run.closed_terminal refused rfl late
  exact ⟨refused, _, late, terminal.1, terminal.2.2.2.1⟩

/-- A teardown in the middle of a redial does not stop it: its socket is installed when it opens. -/
theorem redial_reopens :
  ¬ ∀ trace (duplex next : Duplex String) event, Machine.Run Fresh (Step lenient) trace duplex →
    duplex.state = .closed → Step lenient duplex event next → next.state = .closed
  := by
  intro stays
  have fresh : Machine.Run Fresh (Step lenient) [] (dialSocket 7 true) := .start ⟨7, true, rfl⟩
  have dropped : Machine.Run Fresh (Step lenient) [.socketEvent 0] _ := fresh.step rfl
  have closed : Machine.Run Fresh (Step lenient) [.socketEvent 0, .hmrTeardown] _ := dropped.step rfl
  have reopened := stays _ _ _ (.announced 8) closed rfl rfl
  cases reopened

end Duplex

end Vilan.Socket
