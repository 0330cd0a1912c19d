import Vilan.Http.Chunked

/-!
# Request bodies

A request's body stays on the wire until a handler asks for it, whole or as a stream of pieces.
Then each turn of the loop takes what has arrived into the inbox, and moves the body forward with
it: a body of a declared length is cut off the inbox, and a chunked one is decoded.
-/

namespace Vilan.Http

/-- How a request's body is delimited on the wire. -/
inductive Framing where
  | empty
  | length (length : ℕ)
  | chunked

/-- Where a request's body stands. -/
inductive BodyState where
  /-- Nobody has asked for it. -/
  | unread
  /-- A handler asked for the whole of it. -/
  | reading (limit : ℕ)
  /-- A handler reads it as a stream, which has ended once the framing says so. -/
  | streaming (limit : ℕ) (ended : Bool)
  /-- A stream that the handler's answer left unfinished. -/
  | abandoned
  /-- Read whole. -/
  | read (bytes : Bytes)
  /-- Discarded before the connection closes. -/
  | draining (remaining : ℕ)
  /-- Over the cap or malformed. -/
  | refused
  /-- The client went away, or the request was answered before it was asked for. -/
  | gone

structure Body where
  framing : Framing
  state : BodyState
  /-- Decoded and not yet handed out, from `taken` on. -/
  decoded : Bytes
  taken : ℕ
  /-- How many bytes the framing has produced. -/
  received : ℕ
  chunks : ChunkDecoder
  /-- How many readers wait. -/
  waiters : ℕ

namespace Body

def new (framing : Framing) : Body :=
  ⟨framing, .unread, [], 0, 0, .new, 0⟩

/-- Wake everyone waiting. -/
def wake (body : Body) : Body :=
  { body with waiters := 0 }

/-- Settle the body and wake everyone waiting for it. -/
def settle (body : Body) (state : BodyState) : Body :=
  wake { body with state := state, decoded := [], taken := 0 }

/-- The next piece of a stream: up to so many of the bytes that are decoded and not yet taken. -/
def takePiece (body : Body) (size : ℕ) : Option (Bytes × Body) :=
  let available := body.decoded.length - body.taken
  if available = 0 then none
  else
    let e := body.taken + min available (max size 1)
    let piece := (body.decoded.take e).drop body.taken
    if e = body.decoded.length then some (piece, { body with decoded := [], taken := 0 })
    else some (piece, { body with taken := e })

end Body

/-- What a connection with a request is doing. -/
inductive Stage where
  | dispatched
  | closing
  | closed
  deriving DecidableEq

structure Connection where
  stage : Stage
  inbox : Bytes
  body : Body
  /-- Whether a response head has gone out. -/
  answered : Bool

namespace Connection

variable (connection : Connection)

/-- Whether bytes are taken off the socket this turn. -/
def wantsBytes : Bool :=
  match connection.stage with
  | .dispatched | .closing =>
      match connection.body.state with
      | .reading _ | .draining _ => true
      | .streaming _ false => connection.body.waiters ≠ 0
      | _ => false
  | .closed => false

/-- A refusal: answered once, and closing. -/
def refuse : Connection :=
  { connection with answered := true, stage := .closing }

/-- What the framing makes of the inbox: how it came out, and the body and the inbox after. -/
def takeBody (limit : ℕ) : Decoded × Body × Bytes :=
  let body := connection.body
  let inbox := connection.inbox
  match body.framing with
  | .empty => (.done, body, inbox)
  | .length length =>
      let taken := min (length - body.received) inbox.length
      ( if body.received + taken = length then .done else .more,
        { body with
          decoded := body.decoded ++ inbox.take taken
          received := body.received + taken },
        inbox.drop taken )
  | .chunked =>
      -- the cap counts what the body has produced, some of which has been handed out
      let handedOut := body.received - body.decoded.length
      let (outcome, fed) :=
        Feeding.feed ⟨body.chunks, inbox, body.decoded⟩ (limit - handedOut)
      ( outcome,
        { body with
          decoded := fed.output
          chunks := fed.decoder
          received := body.received + (fed.output.length - body.decoded.length) },
        fed.input )

/-- Move a body that is read forward with what the inbox holds. -/
def moveBody (limit : ℕ) (streaming hungUp : Bool) : Connection :=
  let (outcome, body, inbox) := connection.takeBody limit
  let moved := { connection with inbox := inbox }
  match outcome with
  | .done =>
      if streaming then { moved with body := { body with state := .streaming limit true }.wake }
      else { moved with body := body.settle (.read body.decoded) }
  | .more =>
      if hungUp then { moved with body := body.settle .gone, stage := .closed }
      else if body.decoded.length ≠ connection.body.decoded.length then
        { moved with body := body.wake }
      else { moved with body := body }
  | .overLimit | .malformed => { moved with body := body.settle .refused }.refuse

/-- Move the body forward, if it is read. -/
def advanceBody (hungUp : Bool) : Connection :=
  match connection.body.state with
  | .reading limit => connection.moveBody limit false hungUp
  | .streaming limit false => connection.moveBody limit true hungUp
  | _ => connection

/-- One turn of the loop, in which so many bytes arrived. -/
def service (bytes : Bytes) (hungUp : Bool) : Connection :=
  let taken := { connection with inbox := connection.inbox ++ bytes }
  if connection.stage = .dispatched then taken.advanceBody hungUp else taken

/-- What a poll answers. -/
inductive Polled where
  | whole (bytes : Bytes)
  | piece (bytes : Bytes)
  | ended
  | pending
  | cancelled

/-- A reader waits for the body. -/
def park : Connection :=
  { connection with body.waiters := connection.body.waiters + 1 }

/-- Whether the body is over the cap by its own declaration. -/
def declaredOver (limit : ℕ) : Bool :=
  match connection.body.framing with
  | .length length => limit < length
  | _ => false

/-- The read of a whole body looks at it. -/
def pollWhole (limit : ℕ) : Polled × Connection :=
  match connection.body.state with
  | .read bytes => (.whole bytes, connection)
  | .unread =>
      if connection.answered then
        (.cancelled, { connection with body := connection.body.settle .gone })
      else if connection.declaredOver limit then
        (.cancelled, { connection with body := connection.body.settle .refused }.refuse)
      else
        let begun := { connection with body.state := .reading limit }.advanceBody false
        match begun.body.state with
        | .read bytes => (.whole bytes, begun)
        | .reading _ => (.pending, begun.park)
        | _ => (.cancelled, begun)
  | .reading _ => (.pending, connection.park)
  | _ => (.cancelled, connection)

/-- A piece of a stream is taken, or waited for. -/
def handPiece (size : ℕ) : Polled × Connection :=
  match connection.body.state with
  | .streaming _ ended =>
      match connection.body.takePiece size with
      | some (piece, body) => (.piece piece, { connection with body := body })
      | none => if ended then (.ended, connection) else (.pending, connection.park)
  | _ => (.cancelled, connection)

/-- The read of a piece looks at the body. -/
def pollPiece (limit size : ℕ) : Polled × Connection :=
  match connection.body.state with
  | .unread =>
      if connection.answered then
        (.cancelled, { connection with body := connection.body.settle .gone })
      else if connection.declaredOver limit then
        (.cancelled, { connection with body := connection.body.settle .refused }.refuse)
      else
        ({ connection with body.state := .streaming limit false }.advanceBody false).handPiece size
  | _ => connection.handPiece size

end Connection

/-! ### Uploads -/

/-- A connection and what its client has still to send. -/
structure Upload where
  connection : Connection
  wire : Bytes

/-- What is seen of a step. -/
inductive Seen where
  | serviced
  | polled (answer : Connection.Polled)

/-- The steps: a turn of the loop takes what has arrived, while the connection wants bytes, and
sees that the client has hung up once it has sent everything; readers of the whole body and of its
pieces poll it. -/
inductive Upload.Step (limit : ℕ) : Upload → Seen → Upload → Prop
  | service {connection : Connection} {bytes wire : Bytes} (hungUp : Bool)
      (wants : connection.wantsBytes = false → bytes = [] ∧ hungUp = false)
      (sent : hungUp = true → wire = []) :
      Step limit ⟨connection, bytes ++ wire⟩ .serviced ⟨connection.service bytes hungUp, wire⟩
  | pollWhole (upload : Upload) :
      Step limit upload (.polled (upload.connection.pollWhole limit).1)
        ⟨(upload.connection.pollWhole limit).2, upload.wire⟩
  | pollPiece (upload : Upload) (size : ℕ) :
      Step limit upload (.polled (upload.connection.pollPiece limit size).1)
        ⟨(upload.connection.pollPiece limit size).2, upload.wire⟩

/-- A request has been dispatched, and a part of its body may have arrived with its head. -/
def Upload.Start (framing : Framing) (bytes : Bytes) (upload : Upload) : Prop :=
  ∃ inbox wire, bytes = inbox ++ wire ∧ upload = ⟨⟨.dispatched, inbox, .new framing, false⟩, wire⟩

/-- What the pieces that were handed out hold, one after the other. -/
def handed : List Seen → Bytes
  | [] => []
  | .polled (.piece piece) :: trace => piece ++ handed trace
  | _ :: trace => handed trace

end Vilan.Http
