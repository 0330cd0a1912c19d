import Vilan.Rpc.Socket

/-!
# What a step of a duplex does

A step keeps the calls and the sockets, makes a call, completes calls, goes on with a redial, begins
one, or closes the duplex for good.
-/

namespace Vilan.Socket

namespace Duplex

variable {F : Type} {duplex next : Duplex F}

/-- The calls of two duplexes are the same. -/
structure SameCalls (duplex next : Duplex F) : Prop where
  pending : next.pending = duplex.pending
  nextRequest : next.nextRequest = duplex.nextRequest
  calls : next.calls = duplex.calls
  sent : next.sent = duplex.sent
  settled : next.settled = duplex.settled

theorem SameCalls.refl (duplex : Duplex F) : SameCalls duplex duplex :=
  ⟨rfl, rfl, rfl, rfl, rfl⟩

/-- The sockets of two duplexes are the same, but some may have closed. -/
structure SameSockets (duplex next : Duplex F) : Prop where
  state : next.state = duplex.state
  redial : next.redial = duplex.redial
  socket : next.socket = duplex.socket
  connection : next.connection = duplex.connection
  dialled : next.dialled = duplex.dialled
  openSockets : next.openSockets ⊆ duplex.openSockets
  closings : next.closings = duplex.closings

theorem SameSockets.of_eq (state : next.state = duplex.state) (redial : next.redial = duplex.redial)
    (socket : next.socket = duplex.socket) (connection : next.connection = duplex.connection)
    (dialled : next.dialled = duplex.dialled) (openSockets : next.openSockets = duplex.openSockets)
    (closings : next.closings = duplex.closings) :
  SameSockets duplex next
  := by
  constructor
  · exact state
  · exact redial
  · exact socket
  · exact connection
  · exact dialled
  · rw [openSockets]
    apply List.Subset.refl
  · exact closings

theorem SameSockets.refl (duplex : Duplex F) : SameSockets duplex duplex :=
  .of_eq rfl rfl rfl rfl rfl rfl rfl

theorem SameSockets.trans {later : Duplex F} (same : SameSockets duplex next)
    (same' : SameSockets next later) :
  SameSockets duplex later
  := by
  constructor
  · rw [same'.state, same.state]
  · rw [same'.redial, same.redial]
  · rw [same'.socket, same.socket]
  · rw [same'.connection, same.connection]
  · rw [same'.dialled, same.dialled]
  · apply List.Subset.trans same'.openSockets same.openSockets
  · rw [same'.closings, same.closings]

theorem SameSockets.closeSocket (duplex : Duplex F) (socket : ℕ) :
  SameSockets duplex (duplex.closeSocket socket)
  := by
  constructor
  · rfl
  · rfl
  · rfl
  · rfl
  · rfl
  · apply List.filter_sublist.subset
  · rfl

theorem SameSockets.call (duplex : Duplex F) : SameSockets duplex duplex.call := by
  rw [Duplex.call]
  split
  · exact .of_eq rfl rfl rfl rfl rfl rfl rfl
  · exact .of_eq rfl rfl rfl rfl rfl rfl rfl

theorem SameSockets.setRun (same : SameSockets duplex next) (index : ℕ) (run : HookRun) :
  SameSockets duplex (next.setRun index run)
  := by
  obtain ⟨state, redial, socket, connection, dialled, openSockets, closings⟩ := same
  exact ⟨state, redial, socket, connection, dialled, openSockets, closings⟩

/-- What a step does. -/
inductive Effect (service : Service F) (duplex : Duplex F) (event : Event F) (next : Duplex F) : Prop
  | keeps (calls : SameCalls duplex next) (sockets : SameSockets duplex next)
  | calls (calls : SameCalls duplex.call next) (sockets : SameSockets duplex next)
  | replies (socket request : ℕ) (frame : F) (event_eq : event = .reply socket request frame)
      (next_eq : next = duplex.settlePending request frame)
  | waits (attempt socket : ℕ) (redial : duplex.redial = some ⟨attempt, some socket⟩)
      (next_eq : next = { duplex.closeSocket socket with redial := some ⟨attempt + 1, none⟩ })
  | dials (attempt : ℕ) (redial : duplex.redial = some ⟨attempt, none⟩)
      (next_eq : next = duplex.dialAttempt attempt)
  | opens (attempt socket : ℕ) (connection : ℤ) (redial : duplex.redial = some ⟨attempt, some socket⟩)
      (next_eq : next = duplex.dialOpened socket connection)
  | drops (socket : ℕ) (event_eq : event = .socketEvent socket) (watched : socket ∈ duplex.watched)
      (connected : duplex.state = .connected)
      (next_eq : next = ({ duplex.closeSocket socket with state := .reconnecting }.rejectPending
        "connection lost").dialAttempt 0)
  | givesUp (attempt socket : ℕ) (redial : duplex.redial = some ⟨attempt, some socket⟩)
      (next_eq : next = { duplex.closeSocket socket with redial := none }.closeForGood)
  | closes (why : duplex.Closes service event) (calls : SameCalls duplex next)
      (sockets : SameSockets duplex.closeForGood next)

theorem Effect.setRun (service : Service F) (event : Event F) (index : ℕ) (run : HookRun) :
  Effect service duplex event (duplex.setRun index run)
  := by
  apply Effect.keeps
  · exact ⟨rfl, rfl, rfl, rfl, rfl⟩
  · apply (SameSockets.refl duplex).setRun

theorem Effect.call_setRun (service : Service F) (event : Event F) (index : ℕ) (run : HookRun) :
  Effect service duplex event (duplex.call.setRun index run)
  := by
  apply Effect.calls
  · exact ⟨rfl, rfl, rfl, rfl, rfl⟩
  · apply (SameSockets.call duplex).setRun

theorem Effect.closeForGood_setRun {service : Service F} {event : Event F}
    (why : duplex.Closes service event) (index : ℕ) (run : HookRun) :
  Effect service duplex event (duplex.closeForGood.setRun index run)
  := by
  apply Effect.closes why
  · exact ⟨rfl, rfl, rfl, rfl, rfl⟩
  · apply (SameSockets.refl duplex.closeForGood).setRun

theorem Effect.handleDrop {service : Service F} {socket : ℕ} (watched : socket ∈ duplex.watched) :
  Effect service duplex (.socketEvent socket) (duplex.closeSocket socket).handleDrop
  := by
  rw [Duplex.handleDrop]
  split
  next connected =>
    apply Effect.drops socket rfl watched connected rfl
  · apply Effect.keeps
    · exact ⟨rfl, rfl, rfl, rfl, rfl⟩
    · apply SameSockets.closeSocket

theorem Effect.socketEvent (service : Service F) (socket : ℕ) :
  Effect service duplex (.socketEvent socket) (duplex.socketEvent socket)
  := by
  have closed : Effect service duplex (.socketEvent socket) (duplex.closeSocket socket) := by
    apply Effect.keeps
    · exact ⟨rfl, rfl, rfl, rfl, rfl⟩
    · apply SameSockets.closeSocket
  rw [Duplex.socketEvent]
  split
  next attempt dialling redial_eq =>
    have redial : duplex.redial = some ⟨attempt, some dialling⟩ := redial_eq
    split
    next same =>
      subst same
      rw [dialFailed]
      split
      · exact .waits attempt dialling redial rfl
      · exact .givesUp attempt dialling redial rfl
    · split
      next watched => exact Effect.handleDrop watched
      · exact closed
  · split
    next watched => exact Effect.handleDrop watched
    · exact closed

theorem Effect.resumeHooks {service : Service F} {index : ℕ}
    (resumes : duplex.resumeHooks service index = some next) :
  Effect service duplex (.resumeHooks index) next
  := by
  rw [Duplex.resumeHooks] at resumes
  split at resumes
  · cases resumes
  · cases resumes
  · cases resumes
    apply Effect.setRun
  · cases resumes
    apply Effect.call_setRun
  · cases resumes
    apply Effect.setRun
  next call rest run_eq =>
    split at resumes
    · cases resumes
    · cases resumes
      apply Effect.setRun
    next request frame settled_eq =>
      split at resumes
      · cases resumes
        apply Effect.setRun
      next hash hash_eq =>
        split at resumes
        · cases resumes
          apply Effect.call_setRun
        next drifted =>
          cases resumes
          apply Effect.closeForGood_setRun
          exact ⟨_, run_eq, request, frame, hash, settled_eq, hash_eq, drifted⟩
  next call rest run_eq =>
    split at resumes
    · cases resumes
    next reason settled_eq =>
      cases resumes
      apply Effect.closeForGood_setRun
      exact ⟨_, run_eq, Or.inl ⟨reason, settled_eq⟩⟩
    next request frame settled_eq =>
      split at resumes
      next none_eq =>
        cases resumes
        apply Effect.closeForGood_setRun
        exact ⟨_, run_eq, Or.inr ⟨request, frame, settled_eq, none_eq⟩⟩
      · cases resumes
        apply Effect.setRun

/-- Every step has one of the effects. -/
theorem Step.effect {service : Service F} {event : Event F} (step : Step service duplex event next) :
  Effect service duplex event next
  := by
  rw [Step] at step
  cases event with
  | call =>
    cases step
    apply Effect.calls (SameCalls.refl _) (SameSockets.call duplex)
  | reply socket request frame =>
    rw [Duplex.step] at step
    split at step
    · cases step
      apply Effect.replies socket request frame rfl rfl
    · cases step
  | socketEvent socket =>
    rw [Duplex.step] at step
    split at step
    · cases step
      apply Effect.socketEvent
    · cases step
  | backoff =>
    rw [Duplex.step] at step
    split at step
    next attempt redial =>
      cases step
      apply Effect.dials attempt redial rfl
    · cases step
  | announced connection =>
    rw [Duplex.step] at step
    split at step
    next attempt socket redial =>
      cases step
      apply Effect.opens attempt socket connection redial rfl
    · cases step
  | refused =>
    rw [Duplex.step] at step
    split at step
    next attempt socket redial =>
      cases step
      apply Effect.givesUp attempt socket redial rfl
    · cases step
  | resumeHooks index => apply Effect.resumeHooks step
  | hmrTeardown =>
    rw [Duplex.step] at step
    split at step
    · cases step
      exact .closes trivial ⟨rfl, rfl, rfl, rfl, rfl⟩ (.of_eq rfl rfl rfl rfl rfl rfl rfl)
    · cases step
  | onReconnect hook =>
    cases step
    apply Effect.keeps
    · exact ⟨rfl, rfl, rfl, rfl, rfl⟩
    · exact .of_eq rfl rfl rfl rfl rfl rfl rfl
  | onTerminal teardown =>
    cases step
    apply Effect.keeps
    · exact ⟨rfl, rfl, rfl, rfl, rfl⟩
    · exact .of_eq rfl rfl rfl rfl rfl rfl rfl

end Duplex

end Vilan.Socket
