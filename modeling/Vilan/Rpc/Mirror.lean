import Vilan.Library.Machine
import Vilan.Rpc.MirrorView

/-!
# Mirrored stores over a connection

A client mints mirrors of a server's stores.  A mint that is held asks its call; the reply
binds it to the base that the server granted, and from then on the patches of the base follow
the server's value into the replica of the mint.  Its last hold gone, the mint releases its
base.  Two calls that answer one path are granted one base, with two holds.
-/

namespace Vilan

namespace Mirror

variable {T P : Type}

/-- A hold taken through a mint: its boundary, and, once it is on a channel, the view it is on
and the slot its release is for. -/
structure MintHold (T P : Type) where
  boundary : MirrorBoundary T P
  release : Option (ℕ × Option ℤ)

/-- A mint: its replica, the view and the base it is bound to, whether its call is out, its
holds, and how many of them stand on each boundary. -/
structure StoreMint (T P : Type) where
  replica : Option T
  bound : Option (ℕ × ℤ)
  asking : Bool
  holds : Table ℕ (MintHold T P)
  holding : Table Identity ℕ

/-- A mint as it is minted: unbound, holding nothing. -/
def StoreMint.new : StoreMint T P where
  replica := none
  bound := none
  asking := false
  holds := Table.empty
  holding := Table.empty

/-- Count one hold more on a boundary. -/
def StoreMint.countHold (self : StoreMint T P) (identity : Identity) : Table Identity ℕ :=
  self.holding.insert identity ((self.holding.get identity).getD 0 + 1)

/-- Count one hold fewer on a boundary. -/
def StoreMint.uncountHold (self : StoreMint T P) (identity : Identity) : Table Identity ℕ :=
  if (self.holding.get identity).getD 0 ≤ 1 then self.holding.remove identity
  else self.holding.insert identity ((self.holding.get identity).getD 0 - 1)

/-- A control frame of the client. -/
inductive Control where
  | subscribe (channel : ℕ) (entries : List SubscribeEntry)
  | unsubscribe (channel : ℕ) (slots : List ℤ)

/-- What a mint's call is answered with. -/
inductive Reply (T : Type) where
  | granted (mint channel : ℕ) (base : ℤ) (seed : Option T)
  | failed (mint : ℕ)

/-- A connection: the server's channels, what is under way in both directions, and the client's
views and mints.  The views that the client's frames are routed to are `mirrorViews`. -/
structure Connection (T P : Type) where
  channels : Table ℕ MirrorChannel
  nextChannel : ℕ
  calls : List ℕ
  controls : List Control
  replies : List (Reply T)
  patches : List (ℕ × List (PatchOp P))
  views : ℕ → MirrorView T P
  mirrorViews : List ℕ
  nextView : ℕ
  mints : ℕ → StoreMint T P
  nextId : ℕ

namespace Connection

/-- A connection on which nothing has happened yet. -/
def fresh : Connection T P where
  channels := Table.empty
  nextChannel := 0
  calls := []
  controls := []
  replies := []
  patches := []
  views _ := .new 0
  mirrorViews := []
  nextView := 0
  mints _ := .new
  nextId := 0

/-- The connection with one of its views changed. -/
def setView (self : Connection T P) (view : ℕ) (moved : MirrorView T P) : Connection T P :=
  { self with views := Function.update self.views view moved }

/-- The connection with one of its mints changed. -/
def setMint (self : Connection T P) (mint : ℕ) (moved : StoreMint T P) : Connection T P :=
  { self with mints := Function.update self.mints mint moved }

@[simp]
theorem views_setView (self : Connection T P) (view other : ℕ) (moved : MirrorView T P) :
  (self.setView view moved).views other = if other = view then moved else self.views other
  := Function.update_apply _ _ _ _

@[simp]
theorem mints_setMint (self : Connection T P) (mint other : ℕ) (moved : StoreMint T P) :
  (self.setMint mint moved).mints other = if other = mint then moved else self.mints other
  := Function.update_apply _ _ _ _

@[simp]
theorem views_setMint (self : Connection T P) (mint : ℕ) (moved : StoreMint T P) :
  (self.setMint mint moved).views = self.views
  := rfl

@[simp]
theorem mints_setView (self : Connection T P) (view : ℕ) (moved : MirrorView T P) :
  (self.setView view moved).mints = self.mints
  := rfl

/-- The view that frames of a channel are routed to. -/
def viewOf (self : Connection T P) (channel : ℕ) : Option ℕ :=
  self.mirrorViews.find? (fun view => decide ((self.views view).channel = channel))

/-! ### The client -/

/-- Issue the call of a mint, unless it is out. -/
def ask (self : Connection T P) (mint : ℕ) : Connection T P :=
  if (self.mints mint).asking then self
  else
    { self.setMint mint { self.mints mint with asking := true } with
      calls := self.calls ++ [mint] }

/-- Hold a boundary through a mint; a hold of an unbound mint asks. -/
def hold (self : Connection T P) (mint : ℕ) (boundary : MirrorBoundary T P) : Connection T P :=
  let held := self.mints mint
  let counted := { self with nextId := self.nextId + 1 }
  match held.bound with
  | some (view, base) =>
      let onto := (self.views view).hold boundary base
      (counted.setView view onto.1).setMint mint
        { held with
          holds := held.holds.insert self.nextId ⟨boundary, some (view, onto.2)⟩
          holding := held.countHold boundary.identity }
  | none =>
      (counted.setMint mint
        { held with
          holds := held.holds.insert self.nextId ⟨boundary, none⟩
          holding := held.countHold boundary.identity }).ask mint

/-- Release one hold of a mint.  A hold that is on no channel has nothing to send, but its
value leaves the replica with the last hold on its boundary. -/
def release (self : Connection T P) (mint id : ℕ) : Connection T P :=
  let held := self.mints mint
  match held.holds.get id with
  | none => self
  | some out =>
      let left : StoreMint T P :=
        { held with
          holds := held.holds.remove id
          holding := held.uncountHold out.boundary.identity }
      match out.release with
      | some (view, some slot) =>
          (self.setMint mint left).setView view ((self.views view).release slot)
      | some (_, none) => self.setMint mint left
      | none =>
          if out.boundary.path = [] ∨ (left.holding.get out.boundary.identity).isSome then
            self.setMint mint left
          else self.setMint mint { left with replica := out.boundary.gone left.replica }

/-- The last hold of a mint went and none came back: its base goes. -/
def letGo (self : Connection T P) (mint : ℕ) : Connection T P :=
  let held := self.mints mint
  if held.holds.entries = [] then
    match held.bound with
    | some (view, base) =>
        (self.setMint mint { held with bound := none }).setView view
          ((self.views view).releaseBase base)
    | none => self
  else self

/-- The settle of a turn, for a view: what it owes goes out, and a view that names no slot any
more is taken off the client. -/
def flush (self : Connection T P) (view : ℕ) : Connection T P :=
  let flushed := (self.views view).flush
  let channel := (self.views view).channel
  { self.setView view flushed.view with
    controls := self.controls
      ++ (if flushed.subscribe.isEmpty then [] else [.subscribe channel flushed.subscribe])
      ++ (if flushed.unsubscribe.isEmpty then []
        else [.unsubscribe channel flushed.unsubscribe])
    mirrorViews :=
      if flushed.view.slots.entries.isEmpty then
        self.mirrorViews.filter (fun other => other ≠ view)
      else self.mirrorViews }

/-- The view of a channel, made with its first grant. -/
def mirrorView (self : Connection T P) (channel : ℕ) : Connection T P × ℕ :=
  match self.viewOf channel with
  | some view => (self, view)
  | none =>
      ({ self.setView self.nextView (.new channel) with
          mirrorViews := self.mirrorViews ++ [self.nextView]
          nextView := self.nextView + 1 },
        self.nextView)

/-- A reply's seed over what the replica holds. -/
def landedOver [StoreWire T P] (held seed : Option T) : Option T :=
  match held, seed with
  | none, seed => seed
  | some _, none => none
  | some current, some fresh => some (StoreWire.applyAt current [] (StoreWire.describe fresh))

/-- Put the holds that a mint took while its call was out onto the channel, one by one. -/
def rehold (view : ℕ) (base : ℤ) (state : MirrorView T P × Table ℕ (MintHold T P))
    (entry : ℕ × MintHold T P) : MirrorView T P × Table ℕ (MintHold T P) :=
  let onto := state.1.hold entry.2.boundary base
  (onto.1, state.2.insert entry.1 { entry.2 with release := some (view, onto.2) })

/-- Bind a mint on a view: adopt the base, seed the replica, and put every hold taken meanwhile
onto the channel. -/
def bindOn [StoreWire T P] (self : Connection T P) (mint view : ℕ) (base : ℤ)
    (seed : Option T) : Connection T P :=
  let held := self.mints mint
  let adopted := (self.views view).adoptBase base (baseBoundary mint)
  let onto := held.holds.entries.foldl (rehold view base) (adopted, held.holds)
  (self.setView view onto.1).setMint mint
    { held with
      asking := false
      replica := landedOver held.replica seed
      bound := some (view, base)
      holds := onto.2 }

/-- The reply landed: bind the mint on the view of its channel; if every hold went meanwhile,
the base goes at once. -/
def bind [StoreWire T P] (self : Connection T P) (mint channel : ℕ) (base : ℤ)
    (seed : Option T) : Connection T P :=
  let routed := self.mirrorView channel
  (routed.1.bindOn mint routed.2 base seed).letGo mint

/-- What an op does to the replica it lands in. -/
def landIn (self : Connection T P) : Option (MirrorView.Landing T) → Connection T P
  | none => self
  | some landing =>
      self.setMint landing.mint
        { self.mints landing.mint with
          replica := landing.change (self.mints landing.mint).replica }

/-- The ops of a frame, in order.  A slot the client never named stops the frame. -/
def land (self : Connection T P) (view : ℕ) : List (PatchOp P) → Connection T P
  | [] => self
  | op :: rest =>
      match (self.views view).land op with
      | none => self
      | some (moved, landing) => ((self.setView view moved).landIn landing).land view rest

/-- A `Patch` frame, at the view its channel is routed to. -/
def receive (self : Connection T P) (channel : ℕ) (ops : List (PatchOp P)) : Connection T P :=
  match self.viewOf channel with
  | some view => self.land view ops
  | none => self

/-! ### The server -/

/-- The open channel of a store. -/
def channelFor (self : Connection T P) (root : ℕ) : Option ℕ :=
  (self.channels.entries.find? (fun entry => decide (entry.2.root = root))).map Prod.fst

/-- The channel of a store, opened with its first grant. -/
def mirrorChannel (self : Connection T P) (root : ℕ) : Connection T P × ℕ :=
  match self.channelFor root with
  | some channel => (self, channel)
  | none =>
      ({ self with
          channels := self.channels.insert self.nextChannel (.opened self.nextChannel root)
          nextChannel := self.nextChannel + 1 },
        self.nextChannel)

/-- The reply of a call that hands out a store: a grant on the store's channel. -/
def reply (self : Connection T P) (mint : ℕ) (handle : StoreHandle) (seed : Option T) :
    Connection T P :=
  let (opened, channel) := self.mirrorChannel handle.root
  match opened.channels.get channel with
  | none => opened
  | some held =>
      let granted := held.grant handle
      { opened with
        channels := opened.channels.insert channel granted.1
        calls := opened.calls.erase mint
        replies := opened.replies ++ [.granted mint channel granted.2 seed] }

/-- A control frame, at the channel it names.  A channel whose last grant goes is revoked. -/
def served (channels : Table ℕ MirrorChannel) : Control → Table ℕ MirrorChannel
  | .subscribe channel entries =>
      match channels.get channel with
      | none => channels
      | some held => channels.insert channel (held.subscribe entries)
  | .unsubscribe channel slots =>
      match channels.get channel with
      | none => channels
      | some held =>
          let left := held.unsubscribe slots
          if left.revoked then channels.remove channel else channels.insert channel left

/-- The server takes up a control frame. -/
def serve (self : Connection T P) (control : Control) : Connection T P :=
  { self with channels := served self.channels control }

/-- A turn of the server settled: the ops of the slots it touched, and then the releases that
are to be acknowledged, go out in one frame. -/
def send (self : Connection T P) (channel : ℕ) (ops : List (PatchOp P)) : Connection T P :=
  match self.channels.get channel with
  | none => self
  | some held =>
      let sent := ops ++ held.acked.map PatchOp.gone
      if sent.isEmpty then self
      else
        { self with
          channels := self.channels.insert channel { held with acked := [] }
          patches := self.patches ++ [(channel, sent)] }

end Connection

/-! ### Runs -/

/-- A step of a connection. -/
inductive Event (T P : Type) where
  | hold (mint : ℕ) (boundary : MirrorBoundary T P)
  | release (mint id : ℕ)
  | letGo (mint : ℕ)
  | flush (view : ℕ)
  | reply (mint : ℕ) (handle : StoreHandle)
  | refuse (mint : ℕ)
  | serve
  | send (channel : ℕ) (ops : List (PatchOp P))
  | bind (mint channel : ℕ) (base : ℤ)
  | fail (mint : ℕ)
  | receive (channel : ℕ) (ops : List (PatchOp P))

/-- One step.  The client holds and releases as it likes, a turn settles at any time after
something was owed to it, a call is answered with any store, a turn of the server sends any ops
for slots that stand, and a reply is taken up at any time, as the call goes on in its own turn;
control frames and patches keep their order. -/
inductive Step [StoreWire T P] : Connection T P → Event T P → Connection T P → Prop
  | hold (s : Connection T P) (mint : ℕ) (boundary : MirrorBoundary T P)
      (h : boundary.mint = mint) :
      Step s (.hold mint boundary) (s.hold mint boundary)
  | release (s : Connection T P) (mint id : ℕ) : Step s (.release mint id) (s.release mint id)
  | letGo (s : Connection T P) (mint : ℕ) : Step s (.letGo mint) (s.letGo mint)
  | flush (s : Connection T P) (view : ℕ) (h : view ∈ s.mirrorViews)
      (hpending : (s.views view).pending = true) :
      Step s (.flush view) (s.flush view)
  | reply (s : Connection T P) (mint : ℕ) (handle : StoreHandle) (seed : Option T)
      (h : mint ∈ s.calls) :
      Step s (.reply mint handle) (s.reply mint handle seed)
  | refuse (s : Connection T P) (mint : ℕ) (h : mint ∈ s.calls) :
      Step s (.refuse mint)
        { s with calls := s.calls.erase mint, replies := s.replies ++ [.failed mint] }
  | serve (s : Connection T P) (control : Control) (rest : List Control)
      (h : s.controls = control :: rest) :
      Step s .serve ({ s with controls := rest }.serve control)
  | send (s : Connection T P) (channel : ℕ) (ops : List (PatchOp P))
      (h : ∀ held, s.channels.get channel = some held →
        ∀ op ∈ ops, held.slots.get op.slot ≠ none) :
      Step s (.send channel ops) (s.send channel ops)
  | bind (s : Connection T P) (before after : List (Reply T)) (mint channel : ℕ) (base : ℤ)
      (seed : Option T) (h : s.replies = before ++ .granted mint channel base seed :: after) :
      Step s (.bind mint channel base)
        ({ s with replies := before ++ after }.bind mint channel base seed)
  | fail (s : Connection T P) (before after : List (Reply T)) (mint : ℕ)
      (h : s.replies = before ++ .failed mint :: after) :
      Step s (.fail mint)
        ({ s with replies := before ++ after }.setMint mint
          { s.mints mint with asking := false })
  | receive (s : Connection T P) (channel : ℕ) (ops : List (PatchOp P))
      (rest : List (ℕ × List (PatchOp P))) (h : s.patches = (channel, ops) :: rest) :
      Step s (.receive channel ops) ({ s with patches := rest }.receive channel ops)

/-- Runs of a connection. -/
def Run [StoreWire T P] : List (Event T P) → Connection T P → Prop :=
  Machine.Run (fun s => s = Connection.fresh) Step

/-- A step in which a reply finds its base unknown to the view that it binds to: no slot is
named by it, and none that was is still to be acknowledged. -/
def FreshStep [StoreWire T P] (s : Connection T P) (event : Event T P)
    (s' : Connection T P) : Prop :=
  Step s event s' ∧
    ∀ mint channel base, event = .bind mint channel base →
      ∀ view, s.viewOf channel = some view → (s.views view).slotNamed base = none

/-- Runs in which every reply finds its base unknown. -/
def FreshRun [StoreWire T P] : List (Event T P) → Connection T P → Prop :=
  Machine.Run (fun s => s = Connection.fresh) FreshStep

end Mirror

end Vilan
