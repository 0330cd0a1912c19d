import Vilan.Rpc.SocketSteps
import Mathlib.Data.List.Nodup

/-!
# Every call settles once

Each call of a duplex is in flight or completed, once, with the reply that carries its own id or
with an error.  A duplex that is closed for good has no call in flight if none was in flight when it
was closed.
-/

namespace Vilan.Socket

open List

namespace Duplex

variable {F : Type} {duplex next : Duplex F}

/-! ### Calls -/

/-- Each call is in flight or completed, once, and completed with the reply to its own request or
with an error. -/
structure Calls (duplex : Duplex F) : Prop where
  once : ∀ call, (duplex.settled.map Prod.fst).count call +
    (duplex.pending.map PendingCall.call).count call = if call < duplex.calls then 1 else 0
  own : ∀ call request frame, (call, .reply request frame) ∈ duplex.settled →
    (request, call) ∈ duplex.sent
  pending_sent : ∀ pending ∈ duplex.pending, (pending.request, pending.call) ∈ duplex.sent
  fresh : ∀ entry ∈ duplex.sent, entry.1 < duplex.nextRequest
  apart : (duplex.sent.map Prod.fst).Nodup

theorem Calls.congr (calls : duplex.Calls) (same : SameCalls duplex next) : next.Calls := by
  obtain ⟨pending, nextRequest, calls_eq, sent, settled⟩ := same
  constructor
  · rw [settled, pending, calls_eq]
    apply calls.once
  · rw [settled, sent]
    apply calls.own
  · rw [pending, sent]
    apply calls.pending_sent
  · rw [sent, nextRequest]
    apply calls.fresh
  · rw [sent]
    apply calls.apart

theorem Calls.call (calls : duplex.Calls) : duplex.call.Calls := by
  have below : ∀ call, (if call < duplex.calls + 1 then 1 else 0) =
      (if call < duplex.calls then 1 else 0) + [duplex.calls].count call := by
    intro call
    rw [count_singleton]
    by_cases same : duplex.calls = call
    · subst same
      simp
    · simp only [beq_iff_eq, same, if_false, Nat.add_zero]
      by_cases lt : call < duplex.calls
      · rw [if_pos lt, if_pos (by omega)]
      · rw [if_neg lt, if_neg (by omega)]
  rw [Duplex.call]
  split
  · constructor
    · intro call
      dsimp only
      rw [map_append, count_append, ← Nat.add_assoc, calls.once, below]
      rfl
    · intro call request frame mem
      apply mem_append_left
      apply calls.own call request frame mem
    · intro pending mem
      rcases mem_append.mp mem with mem | mem
      · apply mem_append_left _ (calls.pending_sent pending mem)
      · rw [mem_singleton.mp mem]
        apply mem_append_right _ (mem_singleton_self _)
    · intro entry mem
      rcases mem_append.mp mem with mem | mem
      · apply Nat.lt_succ_of_lt (calls.fresh entry mem)
      · rw [mem_singleton.mp mem]
        apply Nat.lt_succ_self
    · dsimp only
      rw [map_append, nodup_append']
      refine ⟨calls.apart, nodup_singleton _, ?_⟩
      intro request mem mem'
      obtain ⟨entry, found, rfl⟩ := List.mem_map.mp mem
      have lt := calls.fresh entry found
      rw [mem_singleton.mp mem'] at lt
      apply Nat.lt_irrefl _ lt
  · constructor
    · intro call
      dsimp only
      rw [map_append, count_append, Nat.add_right_comm, calls.once, below]
      rfl
    · intro call request frame mem
      rcases mem_append.mp mem with mem | mem
      · apply calls.own call request frame mem
      · cases mem_singleton.mp mem
    · apply calls.pending_sent
    · apply calls.fresh
    · apply calls.apart

theorem Calls.rejectPending (calls : duplex.Calls) (reason : String) :
  (duplex.rejectPending reason).Calls
  := by
  constructor
  · intro call
    have once := calls.once call
    simp only [Duplex.rejectPending, map_append, List.map_map, count_append,
      map_nil, count_nil, Nat.add_zero]
    exact once
  · intro call request frame mem
    rcases mem_append.mp mem with mem | mem
    · apply calls.own call request frame mem
    · obtain ⟨pending, -, same⟩ := List.mem_map.mp mem
      cases same
  · intro pending mem
    cases mem
  · apply calls.fresh
  · apply calls.apart

theorem count_filter_add (request : ℕ) (pending : List PendingCall) (call : ℕ) :
  ((pending.filter fun entry => entry.request = request).map PendingCall.call).count call +
    ((pending.filter fun entry => entry.request ≠ request).map PendingCall.call).count call =
      (pending.map PendingCall.call).count call
  := by
  have perm := (filter_append_perm (fun entry => decide (entry.request = request)) pending).map
    PendingCall.call
  have same := perm.count_eq call
  rw [map_append, count_append] at same
  simpa using same

theorem Calls.settlePending (calls : duplex.Calls) (request : ℕ) (frame : F) :
  (duplex.settlePending request frame).Calls
  := by
  constructor
  · intro call
    have once := calls.once call
    rw [← count_filter_add request] at once
    simp only [Duplex.settlePending, map_append, List.map_map, count_append, Nat.add_assoc]
    exact once
  · intro call request' frame' mem
    rcases mem_append.mp mem with mem | mem
    · apply calls.own call request' frame' mem
    · obtain ⟨pending, found, same⟩ := List.mem_map.mp mem
      cases same
      obtain ⟨mem, same⟩ := mem_filter.mp found
      rw [← of_decide_eq_true same]
      apply calls.pending_sent pending mem
  · intro pending mem
    apply calls.pending_sent pending (mem_of_mem_filter mem)
  · apply calls.fresh
  · apply calls.apart

/-! ### Runs -/

/-- What holds of a duplex that is closed for good only when no call is in flight. -/
structure Sound (duplex : Duplex F) : Prop where
  calls : duplex.Calls
  /-- No call is in flight unless the duplex is connected. -/
  idle : duplex.state ≠ .connected → duplex.pending = []
  redials : duplex.redial ≠ none → duplex.state ≠ .connected

theorem Sound.dialSocket (connection : ℤ) (hmrActive : Bool) :
  (dialSocket connection hmrActive : Duplex F).Sound
  := by
  constructor
  · constructor
    · intro call
      simp [Duplex.dialSocket]
    · intro call request frame mem
      cases mem
    · intro pending mem
      cases mem
    · intro entry mem
      cases mem
    · apply nodup_nil
  · intro state
    rfl
  · intro redial
    cases redial rfl

theorem Sound.effect {service : Service F} {event : Event F} (sound : duplex.Sound)
    (effect : Effect service duplex event next)
    (guard : duplex.Closes service event → duplex.pending = []) :
  next.Sound
  := by
  obtain ⟨calls, idle, redials⟩ := sound
  have unconnected : ∀ {attempt socket}, duplex.redial = some ⟨attempt, socket⟩ →
      duplex.state ≠ .connected := by
    intro attempt socket redial
    apply redials
    simp [redial]
  cases effect with
  | keeps same sockets =>
    constructor
    · apply calls.congr same
    · rw [sockets.state, same.pending]
      exact idle
    · rw [sockets.redial, sockets.state]
      exact redials
  | calls same sockets =>
    constructor
    · apply calls.call.congr same
    · intro away
      rw [sockets.state] at away
      rw [same.pending, Duplex.call, if_neg away]
      apply idle away
    · rw [sockets.redial, sockets.state]
      exact redials
  | replies socket request frame event_eq next_eq =>
    subst next_eq
    constructor
    · apply calls.settlePending
    · intro away
      rw [Duplex.settlePending, idle away]
      rfl
    · exact redials
  | waits attempt socket redial next_eq =>
    subst next_eq
    constructor
    · exact calls.congr ⟨rfl, rfl, rfl, rfl, rfl⟩
    · exact idle
    · intro some_redial
      apply unconnected redial
  | dials attempt redial next_eq =>
    subst next_eq
    constructor
    · exact calls.congr ⟨rfl, rfl, rfl, rfl, rfl⟩
    · exact idle
    · intro some_redial
      apply unconnected redial
  | opens attempt socket connection redial next_eq =>
    subst next_eq
    constructor
    · exact calls.congr ⟨rfl, rfl, rfl, rfl, rfl⟩
    · intro away
      cases away rfl
    · intro some_redial
      cases some_redial rfl
  | drops socket event_eq watched connected next_eq =>
    subst next_eq
    constructor
    · exact (calls.rejectPending "connection lost").congr ⟨rfl, rfl, rfl, rfl, rfl⟩
    · intro away
      rfl
    · intro some_redial
      apply ConnectionState.noConfusion
  | givesUp attempt socket redial next_eq =>
    subst next_eq
    constructor
    · exact calls.congr ⟨rfl, rfl, rfl, rfl, rfl⟩
    · intro away
      apply idle (unconnected redial)
    · intro some_redial
      cases some_redial rfl
  | closes why same sockets =>
    constructor
    · apply calls.congr same
    · intro away
      rw [same.pending]
      apply guard why
    · intro some_redial
      rw [sockets.state]
      apply ConnectionState.noConfusion

/-- The replies that calls are completed with have arrived. -/
def Arrived (trace : List (Event F)) (duplex : Duplex F) : Prop :=
  ∀ call request frame, (call, .reply request frame) ∈ duplex.settled →
    ∃ socket, .reply socket request frame ∈ trace

theorem Arrived.effect {service : Service F} {event : Event F} {trace : List (Event F)}
    (arrived : Arrived trace duplex) (effect : Effect service duplex event next) :
  Arrived (trace ++ [event]) next
  := by
  intro call request frame mem
  have earlier : (call, .reply request frame) ∈ duplex.settled →
      ∃ socket, .reply socket request frame ∈ trace ++ [event] := by
    intro mem
    obtain ⟨socket, mem⟩ := arrived call request frame mem
    exact ⟨socket, mem_append_left _ mem⟩
  cases effect with
  | keeps same sockets =>
    rw [same.settled] at mem
    apply earlier mem
  | calls same sockets =>
    rw [same.settled, Duplex.call] at mem
    split at mem
    · apply earlier mem
    · rcases mem_append.mp mem with mem | mem
      · apply earlier mem
      · cases mem_singleton.mp mem
  | replies socket request' frame' event_eq next_eq =>
    subst next_eq
    rcases mem_append.mp mem with mem | mem
    · apply earlier mem
    · obtain ⟨pending, found, same⟩ := List.mem_map.mp mem
      cases same
      use socket
      rw [event_eq]
      apply mem_append_right _ (mem_singleton_self _)
  | waits attempt socket redial next_eq =>
    subst next_eq
    apply earlier mem
  | dials attempt redial next_eq =>
    subst next_eq
    apply earlier mem
  | opens attempt socket connection redial next_eq =>
    subst next_eq
    apply earlier mem
  | drops socket event_eq watched connected next_eq =>
    subst next_eq
    rcases mem_append.mp mem with mem | mem
    · apply earlier mem
    · obtain ⟨pending, found, same⟩ := List.mem_map.mp mem
      cases same
  | givesUp attempt socket redial next_eq =>
    subst next_eq
    apply earlier mem
  | closes why same sockets =>
    rw [same.settled] at mem
    apply earlier mem

/-- A step of a duplex that closes it for good, from outside the redial, only when no call is in
flight. -/
def IdleStep (service : Service F) (duplex : Duplex F) (event : Event F) (next : Duplex F) : Prop :=
  Step service duplex event next ∧ (duplex.Closes service event → duplex.pending = [])

theorem Run.sound {service : Service F} {trace : List (Event F)}
    (run : Machine.Run Fresh (IdleStep service) trace duplex) :
  duplex.Sound ∧ Arrived trace duplex
  := by
  apply run.history (P := fun trace duplex => duplex.Sound ∧ Arrived trace duplex)
  · rintro duplex ⟨connection, hmrActive, rfl⟩
    constructor
    · apply Sound.dialSocket
    · intro call request frame mem
      cases mem
  · rintro trace duplex event next run ⟨sound, arrived⟩ ⟨step, guard⟩
    constructor
    · apply sound.effect step.effect guard
    · apply arrived.effect step.effect

/-- **Every call settles once.**  However calls, replies, socket events, redials, refused
re-attaches and teardowns interleave, if no call is in flight when a teardown or a refused re-attach
closes the duplex for good, then every call that has been made is in flight or completed, once; it
is completed with an error or with a reply that has arrived and carries the request id that this
call alone has been transmitted with; and when the duplex is closed no call is in flight. -/
theorem Run.settles_once {service : Service F} {trace : List (Event F)}
    (run : Machine.Run Fresh (IdleStep service) trace duplex) :
  (∀ call, (duplex.settled.map Prod.fst).count call +
      (duplex.pending.map PendingCall.call).count call = if call < duplex.calls then 1 else 0) ∧
    (∀ call request frame, (call, .reply request frame) ∈ duplex.settled →
      (∀ other, (request, other) ∈ duplex.sent ↔ other = call) ∧
        ∃ socket, .reply socket request frame ∈ trace) ∧
      (duplex.state = .closed → duplex.pending = [] ∧
        ∀ call < duplex.calls, (duplex.settled.map Prod.fst).count call = 1)
  := by
  obtain ⟨sound, arrived⟩ := Run.sound run
  have calls := sound.calls
  refine ⟨calls.once, ?_, ?_⟩
  · intro call request frame mem
    have sent := calls.own call request frame mem
    constructor
    · intro other
      constructor
      · intro sent'
        have same := inj_on_of_nodup_map calls.apart sent' sent rfl
        apply congrArg Prod.snd same
      · rintro rfl
        exact sent
    · apply arrived call request frame mem
  · intro closed
    have empty : duplex.pending = [] := by
      apply sound.idle
      rw [closed]
      decide
    constructor
    · exact empty
    · intro call lt
      have once := calls.once call
      rw [empty, if_pos lt] at once
      exact once

/-- A server whose replies are what they say. -/
def echo : Service String where
  hash := some
  channels := fun _ => some []
  expectedContract := "v1"

/-- A reply, a drop with a call in flight, and a teardown before the redial is over. -/
def dropTrace : List (Event String) :=
  [.call, .reply 0 0 "one", .call, .socketEvent 0, .call, .hmrTeardown]

theorem dropTrace_settles :
  ∃ duplex, Machine.Run Fresh (IdleStep echo) dropTrace duplex ∧ duplex.state = .closed ∧
    duplex.calls = 3 ∧ ∀ call < duplex.calls, (duplex.settled.map Prod.fst).count call = 1
  := by
  have fresh : Machine.Run Fresh (IdleStep echo) [] (dialSocket 7 true) := .start ⟨7, true, rfl⟩
  have called : Machine.Run Fresh (IdleStep echo) [.call] _ := fresh.step ⟨rfl, False.elim⟩
  have replied : Machine.Run Fresh (IdleStep echo) [.call, .reply 0 0 "one"] _ :=
    called.step ⟨rfl, False.elim⟩
  have recalled : Machine.Run Fresh (IdleStep echo) [.call, .reply 0 0 "one", .call] _ :=
    replied.step ⟨rfl, False.elim⟩
  have dropped : Machine.Run Fresh (IdleStep echo) [.call, .reply 0 0 "one", .call, .socketEvent 0] _ :=
    recalled.step ⟨rfl, False.elim⟩
  have failed : Machine.Run Fresh (IdleStep echo)
      [.call, .reply 0 0 "one", .call, .socketEvent 0, .call] _ :=
    dropped.step ⟨rfl, False.elim⟩
  have closed : Machine.Run Fresh (IdleStep echo) dropTrace _ := failed.step ⟨rfl, fun _ => rfl⟩
  exact ⟨_, closed, rfl, rfl, ((Run.settles_once closed).2.2 rfl).2⟩

/-- A teardown forgets the call that is in flight: its caller waits forever. -/
theorem teardown_forgets :
  ¬ ∀ trace (duplex : Duplex String), Machine.Run Fresh (Step echo) trace duplex →
    duplex.state = .closed → duplex.pending = []
  := by
  intro empties
  have fresh : Machine.Run Fresh (Step echo) [] (dialSocket 7 true) := .start ⟨7, true, rfl⟩
  have called : Machine.Run Fresh (Step echo) [.call] _ := fresh.step rfl
  have closed : Machine.Run Fresh (Step echo) [.call, .hmrTeardown] _ := called.step rfl
  have empty := empties _ _ closed rfl
  cases empty

end Duplex

end Vilan.Socket
