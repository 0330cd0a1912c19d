import Vilan.Library.Machine
import Mathlib.Data.Int.Notation

/-!
# A duplex that survives dropped connections

A duplex over a socket multiplexes the calls of a client.  When its socket drops it rejects the
calls in flight and dials again, with a bounded number of attempts; when a dial succeeds the hooks
of a reconnect run, one of which attaches the mirrors of the client again.  A spent budget, a refusal
and a teardown close the duplex for good.
-/

namespace Vilan.Socket

inductive ConnectionState where
  | connected
  | reconnecting
  | closed
  deriving DecidableEq

/-- A call in flight: its id on the wire, and which call its resolver completes. -/
structure PendingCall where
  request : ℕ
  call : ℕ
  deriving DecidableEq

/-- What a call is completed with: the reply that carries a request id, or an error. -/
inductive Outcome (F : Type) where
  | reply (request : ℕ) (frame : F)
  | failed (reason : String)
  deriving DecidableEq

/-- What runs after a reconnect: the generated hook, or one of the app. -/
inductive Hook where
  | reattach
  | other
  deriving DecidableEq

/-- How far a run of hooks is. -/
inductive Phase where
  /-- The next hook is to run. -/
  | next
  /-- A hook of the app runs. -/
  | running
  /-- The contract is asked for. -/
  | contract (call : ℕ)
  /-- The mirrors are attached again. -/
  | attach (call : ℕ)
  deriving DecidableEq

/-- The hooks that run after one reconnect, in order. -/
structure HookRun where
  phase : Phase
  rest : List Hook
  deriving DecidableEq

/-- A redial: how many attempts have failed, and the socket of the one that is made, if it does not
wait for the next one. -/
structure Redial where
  attempt : ℕ
  socket : Option ℕ
  deriving DecidableEq

/-- What the codec reads in the replies of the two calls of a re-attach. -/
structure Service (F : Type) where
  hash : F → Option String
  channels : F → Option (List ℤ)
  expectedContract : String

/-- A duplex, with the sockets it has dialled and what has been done to its calls. -/
structure Duplex (F : Type) where
  socket : ℕ
  connection : ℤ
  state : ConnectionState
  pending : List PendingCall
  nextRequest : ℕ
  onReconnect : List Hook
  onTerminal : List ℕ
  /-- Whether a teardown of the page is registered. -/
  teardown : Bool
  /-- How many sockets have been dialled. -/
  dialled : ℕ
  /-- The sockets that are not closed. -/
  openSockets : List ℕ
  /-- The sockets whose failures are drops. -/
  watched : List ℕ
  redial : Option Redial
  hookRuns : List HookRun
  /-- How many calls have been made. -/
  calls : ℕ
  /-- The requests that have been transmitted, each with its call. -/
  sent : List (ℕ × ℕ)
  settled : List (ℕ × Outcome F)
  /-- The teardowns that each closing has run. -/
  closings : List (List ℕ)
  deriving DecidableEq

namespace Duplex

variable {F : Type}

/-- A duplex over a socket that is open. -/
def dialSocket (connection : ℤ) (hmrActive : Bool) : Duplex F where
  socket := 0
  connection := connection
  state := .connected
  pending := []
  nextRequest := 0
  onReconnect := []
  onTerminal := []
  teardown := hmrActive
  dialled := 1
  openSockets := [0]
  watched := [0]
  redial := none
  hookRuns := []
  calls := 0
  sent := []
  settled := []
  closings := []

/-! ### Calls -/

/-- Reject every call in flight. -/
def rejectPending (reason : String) (duplex : Duplex F) : Duplex F :=
  { duplex with
    settled := duplex.settled ++ duplex.pending.map fun pending => (pending.call, .failed reason)
    pending := [] }

/-- A reply arrived: complete and forget the calls with its id. -/
def settlePending (request : ℕ) (reply : F) (duplex : Duplex F) : Duplex F :=
  { duplex with
    settled := duplex.settled ++
      (duplex.pending.filter fun pending => pending.request = request).map fun pending =>
        (pending.call, .reply request reply)
    pending := duplex.pending.filter fun pending => pending.request ≠ request }

/-- Make a call: it is transmitted when the duplex is connected, and fails at once otherwise. -/
def call (duplex : Duplex F) : Duplex F :=
  if duplex.state = .connected then
    { duplex with
      calls := duplex.calls + 1
      nextRequest := duplex.nextRequest + 1
      pending := duplex.pending ++ [⟨duplex.nextRequest, duplex.calls⟩]
      sent := duplex.sent ++ [(duplex.nextRequest, duplex.calls)] }
  else
    { duplex with
      calls := duplex.calls + 1
      settled := duplex.settled ++ [(duplex.calls, .failed "not connected")] }

/-! ### Sockets -/

/-- A socket is not open any more. -/
def closeSocket (socket : ℕ) (duplex : Duplex F) : Duplex F :=
  { duplex with openSockets := duplex.openSockets.filter fun other => other ≠ socket }

/-- The terminal treatment: the socket is closed, and what is registered for it runs. -/
def closeForGood (duplex : Duplex F) : Duplex F :=
  { duplex.closeSocket duplex.socket with
    state := .closed
    closings := duplex.closings ++ [duplex.onTerminal] }

/-- One attempt of a redial: a fresh socket. -/
def dialAttempt (attempt : ℕ) (duplex : Duplex F) : Duplex F :=
  { duplex with
    dialled := duplex.dialled + 1
    openSockets := duplex.openSockets ++ [duplex.dialled]
    redial := some ⟨attempt, some duplex.dialled⟩ }

/-- The connection dropped: reject the calls in flight, and dial again. -/
def handleDrop (duplex : Duplex F) : Duplex F :=
  if duplex.state = .connected then
    ({ duplex with state := .reconnecting }.rejectPending "connection lost").dialAttempt 0
  else duplex

/-- An attempt did not open: wait for the next one, or give up. -/
def dialFailed (attempt : ℕ) (duplex : Duplex F) : Duplex F :=
  if attempt + 1 < 10 then { duplex with redial := some ⟨attempt + 1, none⟩ }
  else { duplex with redial := none }.closeForGood

/-- The attempt was refused, which ends the redial. -/
def dialRefused (socket : ℕ) (duplex : Duplex F) : Duplex F :=
  { duplex.closeSocket socket with redial := none }.closeForGood

/-- The attempt opened: its socket takes over, and the hooks are to run. -/
def dialOpened (socket : ℕ) (connection : ℤ) (duplex : Duplex F) : Duplex F :=
  { duplex with
    socket := socket
    connection := connection
    watched := duplex.watched ++ [socket]
    state := .connected
    redial := none
    hookRuns := duplex.hookRuns ++ [⟨.next, duplex.onReconnect⟩] }

/-- A socket closes or errors: the dial of it fails, or its connection drops. -/
def socketEvent (socket : ℕ) (duplex : Duplex F) : Duplex F :=
  let duplex := duplex.closeSocket socket
  match duplex.redial with
  | some ⟨attempt, some dialling⟩ =>
      if dialling = socket then duplex.dialFailed attempt
      else if socket ∈ duplex.watched then duplex.handleDrop
      else duplex
  | _ => if socket ∈ duplex.watched then duplex.handleDrop else duplex

/-! ### Hooks -/

def setRun (index : ℕ) (run : HookRun) (duplex : Duplex F) : Duplex F :=
  { duplex with hookRuns := duplex.hookRuns.set index run }

/-- A run of hooks goes on, unless it waits for a call that is not completed. -/
def resumeHooks (service : Service F) (index : ℕ) (duplex : Duplex F) : Option (Duplex F) :=
  match duplex.hookRuns[index]? with
  | none => none
  | some ⟨.next, []⟩ => none
  | some ⟨.next, .other :: rest⟩ => some (duplex.setRun index ⟨.running, rest⟩)
  | some ⟨.next, .reattach :: rest⟩ =>
      some (duplex.call.setRun index ⟨.contract duplex.calls, rest⟩)
  | some ⟨.running, rest⟩ => some (duplex.setRun index ⟨.next, rest⟩)
  | some ⟨.contract call, rest⟩ =>
      match duplex.settled.lookup call with
      | none => none
      | some (.failed _) => some (duplex.setRun index ⟨.next, rest⟩)
      | some (.reply _ frame) =>
          match service.hash frame with
          | none => some (duplex.setRun index ⟨.next, rest⟩)
          | some hash =>
              if hash = service.expectedContract then
                some (duplex.call.setRun index ⟨.attach duplex.calls, rest⟩)
              else some (duplex.closeForGood.setRun index ⟨.next, rest⟩)
  | some ⟨.attach call, rest⟩ =>
      match duplex.settled.lookup call with
      | none => none
      | some (.failed _) => some (duplex.closeForGood.setRun index ⟨.next, rest⟩)
      | some (.reply _ frame) =>
          match service.channels frame with
          | none => some (duplex.closeForGood.setRun index ⟨.next, rest⟩)
          | some _ => some (duplex.setRun index ⟨.next, rest⟩)

/-! ### Steps -/

/-- What happens to a duplex. -/
inductive Event (F : Type) where
  | call
  /-- A reply arrives on a socket. -/
  | reply (socket request : ℕ) (frame : F)
  /-- A socket closes or errors, or says so once more. -/
  | socketEvent (socket : ℕ)
  /-- The wait before an attempt is over. -/
  | backoff
  /-- The server announces the connection of the attempt. -/
  | announced (connection : ℤ)
  /-- The server refuses the attempt. -/
  | refused
  | resumeHooks (index : ℕ)
  /-- The page is swapped. -/
  | hmrTeardown
  | onReconnect (hook : Hook)
  | onTerminal (teardown : ℕ)
  deriving DecidableEq

/-- What an event does, if it can happen. -/
def step (service : Service F) (duplex : Duplex F) : Event F → Option (Duplex F)
  | .call => some duplex.call
  | .reply socket request frame =>
      if socket ∈ duplex.openSockets then some (duplex.settlePending request frame) else none
  | .socketEvent socket =>
      if socket < duplex.dialled then some (duplex.socketEvent socket) else none
  | .backoff =>
      match duplex.redial with
      | some ⟨attempt, none⟩ => some (duplex.dialAttempt attempt)
      | _ => none
  | .announced connection =>
      match duplex.redial with
      | some ⟨_, some socket⟩ => some (duplex.dialOpened socket connection)
      | _ => none
  | .refused =>
      match duplex.redial with
      | some ⟨_, some socket⟩ => some (duplex.dialRefused socket)
      | _ => none
  | .resumeHooks index => duplex.resumeHooks service index
  | .hmrTeardown =>
      if duplex.teardown then some { duplex.closeForGood with teardown := false } else none
  | .onReconnect hook => some { duplex with onReconnect := duplex.onReconnect ++ [hook] }
  | .onTerminal teardown => some { duplex with onTerminal := duplex.onTerminal ++ [teardown] }

/-- The duplexes that are dialled. -/
def Fresh (duplex : Duplex F) : Prop :=
  ∃ connection hmrActive, duplex = dialSocket connection hmrActive

/-- The steps of a duplex. -/
def Step (service : Service F) (duplex : Duplex F) (event : Event F) (next : Duplex F) : Prop :=
  duplex.step service event = some next

/-- A run of hooks is about to close the duplex for good: the contract drifted, or the mirrors are
not attached. -/
def Refuses (service : Service F) (duplex : Duplex F) (run : HookRun) : Prop :=
  match run.phase with
  | .next => False
  | .running => False
  | .contract call => ∃ request frame hash, duplex.settled.lookup call = some (.reply request frame) ∧
      service.hash frame = some hash ∧ hash ≠ service.expectedContract
  | .attach call => (∃ reason, duplex.settled.lookup call = some (.failed reason)) ∨
      ∃ request frame, duplex.settled.lookup call = some (.reply request frame) ∧
        service.channels frame = none

/-- An event closes the duplex for good from outside the redial: a teardown, or a refused
re-attach. -/
def Closes (service : Service F) (duplex : Duplex F) : Event F → Prop
  | .hmrTeardown => True
  | .resumeHooks index => ∃ run, duplex.hookRuns[index]? = some run ∧ duplex.Refuses service run
  | _ => False

end Duplex

end Vilan.Socket
