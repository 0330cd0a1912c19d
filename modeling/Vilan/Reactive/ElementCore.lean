import Vilan.Reactive.SeqOp
import Vilan.Library.Table

/-!
# The element core of a collection stage

A stage of a collection pipe runs its closure once for each element.  A run answers a plain
value, or a flow that is followed: a change of the flow marks the element's slot dirty, and
the next drain reads the slots that are dirty once more.

The core resolves a drain into events, each in the positions of the moment it happens.  An
event is a sequence op on the list of elements paired with their values, and the events of
a drain take the pairs the core held to the pairs it holds: the current elements of the
upstream with the current values of their runs.
-/

namespace Vilan

open Splice

variable {T F V : Type*}

/-- The answer of one run: a plain value, or a started flow. -/
inductive ElementRun (F V : Type*) where
  | constant (value : V)
  | live (flow : F)

/-- What an answer's `pull` reads, when the flows have the values `current`. -/
def ElementRun.pull (current : F → V) : ElementRun F V → V
  | constant value => value
  | live flow => current flow

/-- The live parts of an element that follows a flow, or of one whose run registered
something. -/
structure ElementHold (F V : Type*) where
  follows : Bool
  pull : ElementRun F V

/-- The state a stage keeps for its elements, as parallel lists. -/
structure ElementCore (T F V : Type*) where
  /-- The slots of the elements. -/
  ids : List ℕ
  items : List T
  values : List V
  holds : Table ℕ (ElementHold F V)
  /-- Slots whose flow changed since the last drain, in arrival order. -/
  dirty : List ℕ
  nextId : ℕ
  /-- The run of an element: its answer, and whether it registered anything. -/
  run : T → ElementRun F V × Bool

/-- One element change, in the positions of the core at that moment. -/
inductive ElementEvent (T V : Type*) where
  /-- At `pos`, the elements and values that left, and those that arrived. -/
  | spliced (pos : ℕ) (left arrived : List (T × V))
  /-- The element at `pos` changed; `rerun` when its input was replaced. -/
  | changed (pos : ℕ) (before after : T × V) (rerun : Bool)
  /-- The collection became `now`, and `left` left. -/
  | reset (left now : List (T × V))
  /-- `count` elements moved from `start` to `dest`. -/
  | moved (start count dest : ℕ)

namespace ElementCore

/-- A core that holds nothing. -/
def new (run : T → ElementRun F V × Bool) : ElementCore T F V where
  ids := []
  items := []
  values := []
  holds := Table.empty
  dirty := []
  nextId := 0
  run := run

/-- What a slot's run keeps: nothing for a plain answer that registered nothing. -/
def holdOf : ElementRun F V × Bool → Option (ElementHold F V)
  | (.constant _, false) => none
  | (.constant value, true) => some ⟨false, .constant value⟩
  | (.live flow, _) => some ⟨true, .live flow⟩

/-- Run the closure for `item` and admit the answer: a slot, and the value now.  The source calls
it `admit`. -/
def admitItem (current : F → V) (core : ElementCore T F V) (item : T) :
    ElementCore T F V × ℕ × V :=
  let id := core.nextId
  let answer := core.run item
  let holds :=
    match holdOf answer with
    | some hold => core.holds.insert id hold
    | none => core.holds
  ({ core with holds, nextId := id + 1 }, id, answer.1.pull current)

/-- Release what the run of a slot built. -/
def retire (core : ElementCore T F V) (id : ℕ) : ElementCore T F V :=
  match core.holds.get id with
  | some _ => { core with holds := core.holds.remove id }
  | none => core

/-- The loop that admits `items` one by one, answering their slots and values. -/
def admitEach (current : F → V) (core : ElementCore T F V) :
    List T → ElementCore T F V × List (ℕ × V)
  | [] => (core, [])
  | item :: items =>
      let (core, slot) := core.admitItem current item
      let (core, slots) := core.admitEach current items
      (core, slot :: slots)

/-- Seed the core from `items`, in order. -/
def seed (current : F → V) (core : ElementCore T F V) (items : List T) :
    ElementCore T F V :=
  let (core, slots) := core.admitEach current items
  { core with
    ids := core.ids ++ slots.map Prod.fst
    items := core.items ++ items
    values := core.values ++ slots.map Prod.snd }

/-- The pairs the core holds. -/
def allPairs (core : ElementCore T F V) : List (T × V) :=
  core.items.zip core.values

/-- The pairs the core holds at `pos .. pos + count`. -/
def heldPairs (core : ElementCore T F V) (pos count : ℕ) : List (T × V) :=
  (block core.items pos count).zip (block core.values pos count)

/-- Apply one op of the upstream and answer the event it made; `none` on a panic. -/
def resolveOp (current : F → V) (core : ElementCore T F V) :
    SeqOp T → Option (ElementCore T F V × Option (ElementEvent T V))
  | .splice pos removed inserted =>
      let held := core.ids.length
      let start := spliceStart held pos
      let taking := spliceCount held start removed.length
      let left := core.heldPairs start taking
      let leaving := block core.ids start taking
      let core := leaving.foldl retire { core with
        ids := splice core.ids start taking []
        items := splice core.items start taking []
        values := splice core.values start taking [] }
      let (core, slots) := core.admitEach current inserted
      let core := { core with
        ids := splice core.ids start 0 (slots.map Prod.fst)
        items := splice core.items start 0 inserted
        values := splice core.values start 0 (slots.map Prod.snd) }
      some (core, some (.spliced start left (inserted.zip (slots.map Prod.snd))))
  | .setAt pos _ item =>
      match core.ids[pos]?, core.items[pos]?, core.values[pos]? with
      | some id, some oldItem, some oldValue =>
          -- the element re-runs, in a slot of its own
          let (core, id, value) := (core.retire id).admitItem current item
          let core := { core with
            ids := core.ids.set pos id
            items := core.items.set pos item
            values := core.values.set pos value }
          some (core, some (.changed pos (oldItem, oldValue) (item, value) true))
      | none, _, _ => some (core, none)
      | some _, _, _ => none
  | .reset items =>
      let left := core.allPairs
      let core := core.ids.foldl retire core
      let core := seed current { core with ids := [], items := [], values := [] } items
      some (core, some (.reset left core.allPairs))
  | .move start count dest =>
      match (moveEach core.ids start count dest).returned,
        (moveEach core.items start count dest).returned,
        (moveEach core.values start count dest).returned with
      | some ids, some items, some values =>
          some ({ core with ids, items, values }, some (.moved start count dest))
      | _, _, _ => none

/-- The loop over the upstream's ops. -/
def resolveOps (current : F → V) (core : ElementCore T F V) :
    List (SeqOp T) → Option (ElementCore T F V × List (ElementEvent T V))
  | [] => some (core, [])
  | op :: ops => do
      let (core, event) ← core.resolveOp current op
      let (core, events) ← core.resolveOps current ops
      some (core, event.toList ++ events)

/-- Where each slot stands. -/
def positions (ids : List ℕ) : Table ℕ ℕ :=
  (ids.zipIdx).foldl (fun positions slot => positions.insert slot.1 slot.2) Table.empty

/-- Read the flow of one woken slot once more.  A slot that has left is skipped, and one
that follows nothing. -/
def readSlot (current : F → V) (positions : Table ℕ ℕ) (core : ElementCore T F V) (id : ℕ) :
    ElementCore T F V × Option (ElementEvent T V) :=
  match positions.get id with
  | none => (core, none)
  | some pos =>
      match core.holds.get id with
      | none => (core, none)
      | some hold =>
          match hold.follows, core.items[pos]?, core.values[pos]? with
          -- `pos` is a position of `ids`, which is one of all three lists
          | true, some item, some before =>
              let now := hold.pull.pull current
              ({ core with values := core.values.set pos now },
                some (.changed pos (item, before) (item, now) false))
          | _, _, _ => (core, none)

/-- The loop over the woken slots, each read once however many times it woke. -/
def readSlots (current : F → V) (positions : Table ℕ ℕ) (core : ElementCore T F V)
    (seen : List ℕ) : List ℕ → ElementCore T F V × List (ElementEvent T V)
  | [] => (core, [])
  | id :: woke =>
      if id ∈ seen then core.readSlots current positions seen woke
      else
        let (core, event) := core.readSlot current positions id
        let (core, events) := core.readSlots current positions (id :: seen) woke
        (core, event.toList ++ events)

/-- Apply the ops of the upstream, then read the flows that changed, and answer the events
in order; `none` on a panic. -/
def resolve (current : F → V) (core : ElementCore T F V) (ops : List (SeqOp T)) :
    Option (ElementCore T F V × List (ElementEvent T V)) := do
  let (core, events) ← core.resolveOps current ops
  let woke := core.dirty
  let (core, more) :=
    readSlots current (positions core.ids) { core with dirty := [] } [] woke
  some (core, events ++ more)

end ElementCore

end Vilan
