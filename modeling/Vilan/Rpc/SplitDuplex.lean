import Vilan.Library.Search
import Vilan.Library.Utf8Decoder

/-!
# A duplex over an event stream

Frames arrive as the events of a stream, behind the announcement of the connection.  The stream
arrives in chunks, each of which is decoded on its own, and events are split off a buffer of text,
first in the loop that waits for the announcement and then in a pump.
-/

namespace Vilan.Sse

abbrev Bytes := List UInt8

abbrev Str := List Char

def lineFeed : Str := ['\n']

/-- What ends an event. -/
def blankLine : Str := ['\n', '\n']

/-- What a line of data starts with. -/
def dataField : Str := ['d', 'a', 't', 'a', ':', ' ']

/-- What an announcement starts with. -/
def connField : Str := ['_', '_', 'c', 'o', 'n', 'n', ':']

/-! ### The server -/

/-- A frame as an event of the stream. -/
def event (body : Str) : Str :=
  dataField ++ (body ++ blankLine)

/-- The announcement of a connection. -/
def announcement (id : ℕ) : Str :=
  connField ++ Nat.toDigits 10 id

/-- The text of a stream: the announcement, and then the frames. -/
def streamText (id : ℕ) (frames : List Str) : Str :=
  (announcement id :: frames).flatMap event

/-! ### The client -/

section Drain

variable {σ : Type}

/-- Dispatch the lines of an event that carry data. -/
def drainLines (part : Str) (dispatch : Str → σ → σ) (state : σ) : σ :=
  (Search.split lineFeed part).foldl (fun state line =>
    if dataField <+: line then dispatch (line.drop 6) state else state) state

/-- Dispatch the parts of a buffer but the last, which is the remainder. -/
def drainParts (dispatch : Str → σ → σ) : List Str → σ → Str × σ
  | [], state => ([], state)
  | [part], state => (part, state)
  | part :: parts, state => drainParts dispatch parts (drainLines part dispatch state)

/-- Split the complete events off a buffer, and dispatch what they carry. -/
def drainSse (buffer : Str) (dispatch : Str → σ → σ) (state : σ) : Str × σ :=
  drainParts dispatch (Search.split blankLine buffer) state

end Drain

/-- A connection over a stream.  What the handlers have been given is kept with the handler. -/
structure Split where
  /-- The id that was announced, once it was. -/
  connection : Str
  /-- The text of the event that is not complete. -/
  buffer : Str
  inbound : Option ℕ
  early : List Str
  handled : List (ℕ × Str)
  deriving DecidableEq

namespace Split

def new : Split :=
  ⟨[], [], none, [], []⟩

/-- Route an inbound frame: to the handler if there is one, or to the early queue. -/
def dispatch (payload : Str) (split : Split) : Split :=
  match split.inbound with
  | some handler => { split with handled := split.handled ++ [(handler, payload)] }
  | none => { split with early := split.early ++ [payload] }

/-- Route a frame that arrives before the announcement. -/
def handshake (frame : Str) (split : Split) : Split :=
  if connField <+: frame then { split with connection := frame.drop 7 } else split.dispatch frame

/-- A chunk of the stream: the handshake reads it as long as no connection is announced, and then
the pump does. -/
def readChunk (payload : Bytes) (split : Split) : Split :=
  let buffer := split.buffer ++ Utf8.decode payload
  let (rest, split) :=
    if split.connection = [] then drainSse buffer handshake split
    else drainSse buffer dispatch split
  { split with buffer := rest }

/-- Set the handler, and give it the frames that came early. -/
def onFrame (handler : ℕ) (split : Split) : Split :=
  { split with
    inbound := some handler
    handled := split.handled ++ split.early.map fun frame => (handler, frame)
    early := [] }

/-- What happens to a connection: a chunk arrives, or a handler is set. -/
inductive Event where
  | chunk (payload : Bytes)
  | onFrame (handler : ℕ)

def Event.payload : Event → Option Bytes
  | .chunk payload => some payload
  | .onFrame _ => none

def step (split : Split) : Event → Split
  | .chunk payload => split.readChunk payload
  | .onFrame handler => split.onFrame handler

/-- A connection after some events. -/
def run (events : List Event) : Split :=
  events.foldl step new

/-- The frames that have been dispatched, in order. -/
def dispatched (split : Split) : List Str :=
  split.handled.map Prod.snd ++ split.early

end Split

end Vilan.Sse
