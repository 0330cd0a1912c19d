import Vilan.Library.Machine
import Vilan.Rpc.Holds

/-!
# The server's half of a reactive session

A server keeps the capabilities of the channels it has minted and the forwards that a client's
demands have started.  A channel of a field keeps its capability when it is not demanded any more,
and a channel that was minted inside a reply is revoked.
-/

namespace Vilan.Rpc

/-- What one channel can start. -/
structure Capability where
  /-- Whether it reads the key of a demand. -/
  keyed : Bool
  /-- Whether it was minted inside a reply. -/
  dynamic : Bool
  /-- The source it carries, where one cell is that. -/
  identity : Option ℕ
  /-- Whether its owner reads its control frames. -/
  controlled : Bool
  deriving DecidableEq

/-- A running forward: one demand on a channel, for the whole collection or for one key, by the
hash of the key. -/
structure LiveForward (H : Type*) where
  channel : ℕ
  key : Option H
  holds : ℕ
  deriving DecidableEq

structure Server (H : Type*) where
  sources : List (ℕ × Capability)
  live : List (LiveForward H)
  /-- The next channel id of the program. -/
  nextChannel : ℕ
  deriving DecidableEq

/-- A control frame of a client: it subscribes or unsubscribes one demand. -/
structure ControlFrame (H : Type*) where
  subscribes : Bool
  channel : ℕ
  key : Option H
  deriving DecidableEq

variable {H : Type*} [DecidableEq H]

/-- Whether a forward is for a demand. -/
def LiveForward.carries (forward : LiveForward H) (channel : ℕ) (key : Option H) : Bool :=
  forward.channel = channel ∧ forward.key = key

/-- A hold more on the first forward for a demand. -/
def joinForward (channel : ℕ) (key : Option H) : List (LiveForward H) → List (LiveForward H)
  | [] => []
  | forward :: live =>
      if forward.carries channel key then { forward with holds := forward.holds + 1 } :: live
      else forward :: joinForward channel key live

namespace Server

/-- A server before anything is exposed. -/
def new (nextChannel : ℕ) : Server H :=
  ⟨[], [], nextChannel⟩

variable (server : Server H)

/-- Export a source under a fresh channel id. -/
def expose (keyed : Bool) : ℕ × Server H :=
  ( server.nextChannel,
    { server with
      sources := server.sources ++ [(server.nextChannel, ⟨keyed, false, none, false⟩)]
      nextChannel := server.nextChannel + 1 } )

/-- The dynamic channel that carries a source in the shape of its frames, if there is one. -/
def dynamicChannelFor (identity : ℕ) (keyed : Bool) : Option ℕ :=
  (server.sources.find? fun entry =>
    entry.2.dynamic && entry.2.identity = some identity && !entry.2.controlled &&
      entry.2.keyed == keyed).map Prod.fst

/-- Export a source inside a reply, under the channel that carries it already, if there is one. -/
def exposeDynamic (identity : ℕ) (keyed : Bool) : ℕ × Server H :=
  match server.dynamicChannelFor identity keyed with
  | some held => (held, server)
  | none =>
      ( server.nextChannel,
        { server with
          sources := server.sources ++ [(server.nextChannel, ⟨keyed, true, some identity, false⟩)]
          nextChannel := server.nextChannel + 1 } )

/-- Open a channel whose control frames its owner reads. -/
def openControlled (identity : ℕ) : ℕ × Server H :=
  ( server.nextChannel,
    { server with
      sources := server.sources ++ [(server.nextChannel, ⟨false, true, some identity, true⟩)]
      nextChannel := server.nextChannel + 1 } )

/-- The capability of a channel, if the server still holds one. -/
def capabilityOf (channel : ℕ) : Option Capability :=
  (server.sources.find? (·.1 = channel)).map Prod.snd

/-- The forward that runs for a demand, if there is one. -/
def forwardFor (channel : ℕ) (key : Option H) : Option (LiveForward H) :=
  server.live.find? (·.carries channel key)

/-- Start the forward for a demand, or join it. -/
def openForward (channel : ℕ) (key : Option H) : Server H :=
  match server.forwardFor channel key with
  | some _ => { server with live := joinForward channel key server.live }
  | none => { server with live := server.live ++ [⟨channel, key, 1⟩] }

/-- Release one hold on a demand: whether the channel carries no forward any more, and the server
after. -/
def closeForward (channel : ℕ) (key : Option H) : Bool × Server H :=
  let kept := server.live.filterMap fun forward =>
    if forward.carries channel key then
      if forward.holds - 1 = 0 then none else some { forward with holds := forward.holds - 1 }
    else some forward
  (kept.all (·.channel ≠ channel), { server with live := kept })

/-- A client subscribed to the whole channel. -/
def start (channel : ℕ) : Server H :=
  match server.capabilityOf channel with
  | some _ => server.openForward channel none
  | none => server

/-- The key of a demand, if the channel reads keys. -/
def resolveKey (channel : ℕ) (key : H) : Option H :=
  match server.capabilityOf channel with
  | none => none
  | some capability => if capability.keyed then some key else none

/-- A client subscribed to a key. -/
def startKey (channel : ℕ) (key : H) : Server H :=
  match server.resolveKey channel key with
  | none => server
  | some key => server.openForward channel (some key)

/-- Withdraw a channel: its forwards and its capability. -/
def revoke (channel : ℕ) : Server H :=
  { server with
    live := server.live.filter (·.channel ≠ channel)
    sources := server.sources.filter (·.1 ≠ channel) }

/-- Whether a channel was minted inside a reply. -/
def dynamicChannel (channel : ℕ) : Bool :=
  match server.capabilityOf channel with
  | some capability => capability.dynamic
  | none => false

/-- Release a hold, and withdraw a dynamic channel that carries no forward any more. -/
def releaseHold (channel : ℕ) (key : Option H) : Server H :=
  let (drained, closed) := server.closeForward channel key
  if drained && closed.dynamicChannel channel then closed.revoke channel else closed

/-- A client unsubscribed from a key. -/
def stopKey (channel : ℕ) (key : H) : Server H :=
  match server.resolveKey channel key with
  | none => server
  | some key => server.releaseHold channel (some key)

/-- One control frame.  The owner of a controlled channel reads its own. -/
def receive (frame : ControlFrame H) : Server H :=
  if (server.capabilityOf frame.channel).any (·.controlled) then server
  else
    match frame.key with
    | none =>
        if frame.subscribes then server.start frame.channel
        else server.releaseHold frame.channel none
    | some key =>
        if frame.subscribes then server.startKey frame.channel key
        else server.stopKey frame.channel key

/-- Control frames, one after the other. -/
def receiveAll (frames : List (ControlFrame H)) : Server H :=
  frames.foldl receive server

/-! ### What holds of a server -/

/-- How many holds a demand has. -/
def holdsOf (channel : ℕ) (key : Option H) : ℕ :=
  match server.forwardFor channel key with
  | some forward => forward.holds
  | none => 0

/-- Each demand has one forward, with a hold, and each forward a channel that the server has not
withdrawn; and no channel to come has been minted. -/
structure Sound : Prop where
  single : server.live.Pairwise fun forward other => other.carries forward.channel forward.key = false
  held : ∀ forward ∈ server.live, 0 < forward.holds
  owned : ∀ forward ∈ server.live, (server.capabilityOf forward.channel).isSome
  minted : ∀ entry ∈ server.sources, entry.1 < server.nextChannel

end Server

end Vilan.Rpc
