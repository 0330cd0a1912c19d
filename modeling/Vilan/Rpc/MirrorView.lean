import Vilan.Rpc.MirrorChannel

/-!
# The client's half of a mirrored store

A client has one view for each mirrored channel it hears.  The view names the slots that the
client subscribes, each with the boundary through which a frame for it lands in a replica.
The base of a grant is a slot of its own, subscribed by the reply that handed it out.
-/

namespace Vilan

open List Table

namespace Mirror

/-- How the values of a mirrored type cross: described whole, read fresh, and read into a
held value at a path. -/
class StoreWire (T : Type) (P : outParam Type) where
  describe : T → P
  fresh : P → T
  applyAt : T → List StoreStep → P → T

/-- What a boundary is known by: its place in the replica of a mint, or the identity of a cell
of its own, as the key set of a collection has. -/
inductive Identity where
  | node (mint : ℕ) (place : List StoreStep)
  | cell (number : ℕ)
  deriving DecidableEq

/-- A demand boundary: the mint in whose replica it lies, its path from the base of the grant,
what it is known by, and how a frame for its slot lands in the replica.  The root of a replica
is the base of its grant. -/
structure MirrorBoundary (T P : Type) where
  mint : ℕ
  path : List StoreStep
  identity : Identity
  apply : List StoreStep → P → Option T → Option T
  gone : Option T → Option T
  path_of_root : ∀ mint, identity = .node mint [] → path = []

variable {T P : Type}

/-- The boundary of the base over the replica of `mint`. -/
def baseBoundary [StoreWire T P] (mint : ℕ) : MirrorBoundary T P where
  mint := mint
  path := []
  identity := .node mint []
  apply rel value replica :=
    match replica with
    | some held => some (StoreWire.applyAt held rel value)
    | none => if rel = [] then some (StoreWire.fresh value) else none
  gone _ := none
  path_of_root _ _ := rfl

/-- An op of a `Patch` frame. -/
inductive PatchOp (P : Type) where
  | seed (slot : ℤ) (value : P)
  | set (slot : ℤ) (rel : List StoreStep) (value : P)
  | seq (slot : ℤ) (rel : List StoreStep) (start removed : ℕ) (inserted : P)
  | keys (slot : ℤ) (reset : P)
  | gone (slot : ℤ)

namespace PatchOp

/-- The slot an op names. -/
def slot : PatchOp P → ℤ
  | seed slot _ => slot
  | set slot _ _ => slot
  | seq slot _ _ _ _ => slot
  | keys slot _ => slot
  | gone slot => slot

/-- What an op does to a replica through a boundary. -/
def through (boundary : MirrorBoundary T P) : PatchOp P → Option T → Option T
  | seed _ value => boundary.apply [] value
  | set _ rel value => boundary.apply rel value
  | seq _ rel start removed inserted =>
      boundary.apply (rel ++ [.field start, .field removed]) inserted
  | keys _ reset => boundary.apply [] reset
  | gone _ => boundary.gone

end PatchOp

/-- A slot the client named: the grant it stands under, its boundary, how many holds it has,
and its place in the naming order. -/
structure ClientSlot (T P : Type) where
  slot : ℤ
  base : ℤ
  boundary : MirrorBoundary T P
  holds : ℤ
  stamp : ℕ

/-- The client's end of a mirrored channel: the slots it names, by number and by identity, the
released slots whose frames may still be under way, and the demand of the turn. -/
structure MirrorView (T P : Type) where
  channel : ℕ
  slots : Table ℤ (ClientSlot T P)
  named : Table Identity ℤ
  retired : Table ℤ (ClientSlot T P)
  nextSlot : ℤ
  nextStamp : ℕ
  subscribing : List ℤ
  unsubscribing : List ℤ
  pending : Bool

namespace MirrorView

/-- The view of a channel as it is made. -/
def new (channel : ℕ) : MirrorView T P where
  channel := channel
  slots := Table.empty
  named := Table.empty
  retired := Table.empty
  nextSlot := 0
  nextStamp := 0
  subscribing := []
  unsubscribing := []
  pending := false

/-- Stand a slot in the table, next in the naming order. -/
def nameSlot (self : MirrorView T P) (slot base : ℤ) (boundary : MirrorBoundary T P) :
    MirrorView T P :=
  { self with
    nextStamp := self.nextStamp + 1
    named := self.named.insert boundary.identity slot
    slots := self.slots.insert slot
      { slot := slot, base := base, boundary := boundary, holds := 1
        stamp := self.nextStamp } }

/-- Take a slot out of the table. -/
def unnameSlot (self : MirrorView T P) (held : ClientSlot T P) : MirrorView T P :=
  { self with
    slots := self.slots.remove held.slot
    named := self.named.remove held.boundary.identity }

/-- The base of a grant that a reply handed out. -/
def adoptBase (self : MirrorView T P) (base : ℤ) (boundary : MirrorBoundary T P) :
    MirrorView T P :=
  match self.slots.get base with
  | some held =>
      { self with slots := self.slots.insert base { held with holds := held.holds + 1 } }
  | none => self.nameSlot base base boundary

/-- Name a boundary under its next free slot, to be subscribed with the turn. -/
def openBoundary (self : MirrorView T P) (boundary : MirrorBoundary T P) (base : ℤ) :
    MirrorView T P × Option ℤ :=
  let slot := self.nextSlot
  let named := { self with nextSlot := slot + 1 }.nameSlot slot base boundary
  ({ named with subscribing := named.subscribing ++ [slot], pending := true }, some slot)

/-- Hold a boundary under a grant, and answer the slot that the release is for: none at the
base, whose holds cost nothing. -/
def hold (self : MirrorView T P) (boundary : MirrorBoundary T P) (base : ℤ) :
    MirrorView T P × Option ℤ :=
  if boundary.path = [] then (self, none)
  else
    match self.named.get boundary.identity with
    | none => self.openBoundary boundary base
    | some slot =>
        match self.slots.get slot with
        | none => self.openBoundary boundary base
        | some held =>
            ({ self with slots := self.slots.insert slot { held with holds := held.holds + 1 } },
              some slot)

/-- The last hold of a mint went: its base is released with the turn. -/
def releaseBase (self : MirrorView T P) (base : ℤ) : MirrorView T P :=
  { self with
    slots :=
      match self.slots.get base with
      | some held => self.slots.insert base { held with holds := 0 }
      | none => self.slots
    unsubscribing := self.unsubscribing ++ [base]
    pending := true }

/-- Release one hold on a slot. -/
def release (self : MirrorView T P) (slot : ℤ) : MirrorView T P :=
  match self.slots.get slot with
  | none => self
  | some held =>
      let left := held.holds - 1
      let released : MirrorView T P :=
        { self with slots := self.slots.insert slot { held with holds := left } }
      if left = 0 then
        { released with unsubscribing := released.unsubscribing ++ [slot], pending := true }
      else released

/-- Let go of one slot of a turn, if it has no hold left.  It is told off when its
subscription went out before this turn. -/
def letGoSlot (opened : List ℤ) (state : MirrorView T P × List (ℕ × ℤ)) (slot : ℤ) :
    MirrorView T P × List (ℕ × ℤ) :=
  match state.1.slots.get slot with
  | none => state
  | some held =>
      if 0 < held.holds then state
      else if slot ∈ opened then (state.1.unnameSlot held, state.2)
      else
        ({ state.1.unnameSlot held with retired := state.1.retired.insert slot held },
          state.2 ++ [(held.stamp, slot)])

/-- What the settle of a turn sends for a view. -/
structure Flushed (T P : Type) where
  view : MirrorView T P
  subscribe : List SubscribeEntry
  unsubscribe : List ℤ

/-- The turn settled: subscribe the slots named in it and still held, and tell off those that
reached zero and stayed there, in the order they were named. -/
def flush (self : MirrorView T P) : Flushed T P :=
  let opened := self.subscribing
  let subscribe := opened.filterMap (fun slot =>
    match self.slots.get slot with
    | some held =>
        if 0 < held.holds then
          some { slot := held.slot, base := held.base, path := held.boundary.path }
        else none
    | none => none)
  let closed := self.unsubscribing.foldl (letGoSlot opened)
    ({ self with pending := false, subscribing := [], unsubscribing := [] }, [])
  { view := closed.1
    subscribe := subscribe
    unsubscribe := (closed.2.insertionSort (fun a b => a.1 ≤ b.1)).map Prod.snd }

/-- The slot a frame is read with: one that is named, or one that was let go of and whose
release is not yet acknowledged. -/
def slotNamed (self : MirrorView T P) (slot : ℤ) : Option (ClientSlot T P) :=
  match self.slots.get slot with
  | some held => some held
  | none => self.retired.get slot

/-- A change to the replica of a mint. -/
structure Landing (T : Type) where
  mint : ℕ
  change : Option T → Option T

/-- One op of a frame: the view it leaves and what it does to a replica, or nothing when the
slot was never named, as its value cannot be read. -/
def land (self : MirrorView T P) (op : PatchOp P) :
    Option (MirrorView T P × Option (Landing T)) :=
  match op with
  | .gone slot =>
      if (self.retired.get slot).isSome then
        some ({ self with retired := self.retired.remove slot }, none)
      else
        some (self, (self.slotNamed slot).map (fun held =>
          ⟨held.boundary.mint, op.through held.boundary⟩))
  | op =>
      (self.slotNamed op.slot).map (fun held =>
        (self, some ⟨held.boundary.mint, op.through held.boundary⟩))

/-! ### What a view keeps to -/

/-- What every view keeps to. -/
structure Sound (view : MirrorView T P) : Prop where
  /-- A slot of the table knows its number. -/
  slot_eq : ∀ slot held, view.slots.get slot = some held → held.slot = slot
  /-- Only the root of a replica is known under a base. -/
  root_of_base : ∀ identity slot, view.named.get identity = some slot → slot < 0 →
    ∃ mint, identity = .node mint []
  /-- The client numbers its own slots from zero. -/
  nextSlot_nonneg : 0 ≤ view.nextSlot
  subscribing_nonneg : ∀ slot ∈ view.subscribing, 0 ≤ slot

/-- A view that names the bases as another does, and lets go of the same. -/
structure SameBases (view moved : MirrorView T P) : Prop where
  channel_eq : moved.channel = view.channel
  get_eq : ∀ base, base < 0 → moved.slots.get base = view.slots.get base
  count_eq : ∀ base, base < 0 →
    moved.unsubscribing.count base = view.unsubscribing.count base
  retired_none : ∀ base, view.retired.get base = none → moved.retired.get base = none

theorem sound_new (channel : ℕ) :
  Sound (new channel : MirrorView T P)
  := by
  constructor <;> simp [new]

theorem SameBases.refl (view : MirrorView T P) :
  SameBases view view
  := ⟨rfl, fun _ _ => rfl, fun _ _ => rfl, fun _ hnone => hnone⟩

theorem SameBases.trans {view moved last : MirrorView T P} (h : SameBases view moved)
    (h' : SameBases moved last) :
  SameBases view last
  where
  channel_eq := h'.channel_eq.trans h.channel_eq
  get_eq base hbase := (h'.get_eq base hbase).trans (h.get_eq base hbase)
  count_eq base hbase := (h'.count_eq base hbase).trans (h.count_eq base hbase)
  retired_none base hnone := h'.retired_none base (h.retired_none base hnone)

/-! ### Holding and releasing a client's slot -/

variable {self : MirrorView T P} {opened : List ℤ} {state : MirrorView T P × List (ℕ × ℤ)}

section

variable (h : self.Sound)
include h

theorem Sound.openBoundary (boundary : MirrorBoundary T P) (base : ℤ) :
  (self.openBoundary boundary base).1.Sound
  where
  slot_eq := by
    intro slot held hget
    simp only [MirrorView.openBoundary, nameSlot, get_insert] at hget
    split at hget
    next heq =>
      rw [Option.some_inj] at hget
      rw [← hget]
      apply heq.symm
    next => apply h.slot_eq slot held hget
  root_of_base := by
    intro identity slot hget hslot
    simp only [MirrorView.openBoundary, nameSlot, get_insert] at hget
    split at hget
    next =>
      rw [Option.some_inj] at hget
      have hnonneg := h.nextSlot_nonneg
      omega
    next => apply h.root_of_base identity slot hget hslot
  nextSlot_nonneg := by
    have hnonneg := h.nextSlot_nonneg
    simp only [MirrorView.openBoundary, nameSlot]
    omega
  subscribing_nonneg := by
    intro slot hslot
    simp only [MirrorView.openBoundary, nameSlot, mem_append, mem_singleton] at hslot
    rcases hslot with hslot | rfl
    · apply h.subscribing_nonneg slot hslot
    · apply h.nextSlot_nonneg

theorem sameBases_openBoundary (boundary : MirrorBoundary T P) (base : ℤ) :
  SameBases self (self.openBoundary boundary base).1
  where
  channel_eq := rfl
  get_eq := by
    intro key hkey
    have hnonneg := h.nextSlot_nonneg
    simp only [MirrorView.openBoundary, nameSlot, get_insert]
    rw [if_neg (by omega)]
  count_eq _ _ := rfl
  retired_none _ hnone := hnone

/-- A slot of the client's whose entry is written again under its own number. -/
theorem Sound.rewrite {slot : ℤ} {held : ClientSlot T P}
    (hheld : held.slot = slot) :
  Sound { self with slots := self.slots.insert slot held }
  where
  slot_eq := by
    intro key other hget
    rw [get_insert] at hget
    split at hget
    next heq =>
      rw [Option.some_inj] at hget
      rw [← hget, hheld, heq]
    next => apply h.slot_eq key other hget
  root_of_base := h.root_of_base
  nextSlot_nonneg := h.nextSlot_nonneg
  subscribing_nonneg := h.subscribing_nonneg

/-- Holding a boundary leaves the bases as they were, and its release is for a slot of the
client's. -/
theorem Sound.hold (boundary : MirrorBoundary T P) (base : ℤ) :
  (self.hold boundary base).1.Sound ∧ SameBases self (self.hold boundary base).1 ∧
    ∀ slot, (self.hold boundary base).2 = some slot → 0 ≤ slot
  := by
  have hopen : (self.openBoundary boundary base).1.Sound ∧
      SameBases self (self.openBoundary boundary base).1 ∧
      ∀ slot, (self.openBoundary boundary base).2 = some slot → 0 ≤ slot := by
    refine ⟨h.openBoundary boundary base, sameBases_openBoundary h boundary base, ?_⟩
    rintro slot ⟨⟩
    apply h.nextSlot_nonneg
  rw [MirrorView.hold]
  split
  next => exact ⟨h, SameBases.refl self, by simp⟩
  next hpath =>
    split
    next => apply hopen
    next slot hnamed =>
      -- A boundary below the base is never known under a base.
      have hslot : 0 ≤ slot := by
        by_contra hneg
        obtain ⟨mint, hroot⟩ := h.root_of_base _ slot hnamed (by omega)
        apply hpath
        apply boundary.path_of_root mint hroot
      split
      next => apply hopen
      next held hget =>
        refine ⟨h.rewrite (h.slot_eq slot held hget), ⟨rfl, ?_, fun _ _ => rfl, fun _ hnone => hnone⟩, ?_⟩
        · intro key hkey
          rw [get_insert, if_neg (by omega)]
        · rintro _ ⟨⟩
          apply hslot

/-- Releasing one hold on a slot; on a slot of the client's, it leaves the bases as they
were. -/
theorem Sound.release (slot : ℤ) :
  (self.release slot).Sound ∧ (0 ≤ slot → SameBases self (self.release slot))
  := by
  rw [MirrorView.release]
  split
  next => exact ⟨h, fun _ => SameBases.refl self⟩
  next held hget =>
    have hsound : Sound
        { self with slots := self.slots.insert slot { held with holds := held.holds - 1 } } := by
      apply h.rewrite
      apply h.slot_eq slot held hget
    have hsame : 0 ≤ slot → ∀ key, key < 0 →
        (self.slots.insert slot { held with holds := held.holds - 1 }).get key
          = self.slots.get key := by
      intro hslot key hkey
      rw [get_insert, if_neg (by omega)]
    simp only
    split
    next =>
      refine ⟨⟨hsound.1, hsound.2, hsound.3, hsound.4⟩, ?_⟩
      intro hslot
      refine ⟨rfl, hsame hslot, ?_, fun _ hnone => hnone⟩
      intro key hkey
      rw [count_append, count_singleton, if_neg (by simp; omega), Nat.add_zero]
    next => exact ⟨hsound, fun hslot => ⟨rfl, hsame hslot, fun _ _ => rfl, fun _ hnone => hnone⟩⟩

/-! ### The bases -/

theorem Sound.adoptBase (base : ℤ) {boundary : MirrorBoundary T P} {mint : ℕ}
    (hroot : boundary.identity = .node mint []) :
  (self.adoptBase base boundary).Sound
  := by
  rw [MirrorView.adoptBase]
  split
  next held hget =>
    apply h.rewrite
    apply h.slot_eq base held hget
  next =>
    refine ⟨?_, ?_, h.nextSlot_nonneg, h.subscribing_nonneg⟩
    · intro slot held hget
      simp only [nameSlot, get_insert] at hget
      split at hget
      next hslot =>
        rw [Option.some_inj] at hget
        rw [← hget]
        apply hslot.symm
      next => apply h.slot_eq slot held hget
    · intro identity slot hget hslot
      simp only [nameSlot, get_insert] at hget
      split at hget
      next hidentity => exact ⟨mint, hidentity.trans hroot⟩
      next => apply h.root_of_base identity slot hget hslot

end

/-- A reply's base that no slot names is named by the boundary it comes with. -/
theorem get_adoptBase {base : ℤ} (hfresh : self.slots.get base = none)
    (boundary : MirrorBoundary T P) (key : ℤ) :
  (self.adoptBase base boundary).slots.get key
    = if key = base then
        some { slot := base, base := base, boundary := boundary, holds := 1
               stamp := self.nextStamp }
      else self.slots.get key
  := by
  rw [adoptBase, hfresh]
  simp only [nameSlot, get_insert]

/-- Adopting a base moves nothing but what is named. -/
theorem adoptBase_frame (self : MirrorView T P) (base : ℤ) (boundary : MirrorBoundary T P) :
  (self.adoptBase base boundary).channel = self.channel ∧
    (self.adoptBase base boundary).unsubscribing = self.unsubscribing ∧
    (self.adoptBase base boundary).retired = self.retired
  := by
  rw [adoptBase]
  split
  · exact ⟨rfl, rfl, rfl⟩
  · exact ⟨rfl, rfl, rfl⟩

theorem get_releaseBase (self : MirrorView T P) (base key : ℤ) :
  (self.releaseBase base).slots.get key
    = (self.slots.get key).map (fun held =>
        if key = base then { held with holds := 0 } else held)
  := by
  rw [releaseBase]
  cases hget : self.slots.get base with
  | none =>
    by_cases hkey : key = base
    · simp [hkey, hget]
    · simp [hkey]
  | some held =>
    by_cases hkey : key = base
    · simp [hkey, hget]
    · simp [hkey]

theorem Sound.releaseBase (h : self.Sound) (base : ℤ) :
  (self.releaseBase base).Sound
  where
  slot_eq := by
    intro slot held hget
    rw [get_releaseBase] at hget
    obtain ⟨held', hget', rfl⟩ := Option.map_eq_some_iff.mp hget
    have hslot := h.slot_eq slot held' hget'
    split
    · apply hslot
    · apply hslot
  root_of_base := h.root_of_base
  nextSlot_nonneg := h.nextSlot_nonneg
  subscribing_nonneg := h.subscribing_nonneg

/-! ### The settle of a turn -/

/-- Whether a base is let go of when its number is among those the turn released. -/
def leaves (self : MirrorView T P) (base : ℤ) : Bool :=
  match self.slots.get base with
  | some held => decide (held.holds ≤ 0)
  | none => false

/-- What letting go of one slot does to the slots of a view. -/
theorem get_letGoSlot (h : state.1.Sound) (slot key : ℤ) :
  (letGoSlot opened state slot).1.slots.get key
    = if key = slot ∧ state.1.leaves slot = true then none else state.1.slots.get key
  := by
  rw [letGoSlot, leaves]
  cases hget : state.1.slots.get slot with
  | none => simp
  | some held =>
    have hnumber := h.slot_eq slot held hget
    by_cases hholds : 0 < held.holds
    · simp [hholds]
    · by_cases hopened : slot ∈ opened
      · simp [hholds, hopened, unnameSlot, hnumber, Int.not_lt.mp hholds]
      · simp [hholds, hopened, unnameSlot, hnumber, Int.not_lt.mp hholds]

theorem Sound.letGoSlot (h : state.1.Sound) (opened : List ℤ) (slot : ℤ) :
  (letGoSlot opened state slot).1.Sound
  := by
  have hunnamed : ∀ held, (state.1.unnameSlot held).Sound := by
    intro held
    refine ⟨?_, ?_, h.nextSlot_nonneg, h.subscribing_nonneg⟩
    · intro key other hget
      simp only [unnameSlot, get_remove] at hget
      split at hget
      next => cases hget
      next => apply h.slot_eq key other hget
    · intro identity key hget hkey
      simp only [unnameSlot, get_remove] at hget
      split at hget
      next => cases hget
      next => apply h.root_of_base identity key hget hkey
  rw [MirrorView.letGoSlot]
  split
  next => apply h
  next held _ =>
    split
    next => apply h
    next =>
      split
      next => apply hunnamed
      next =>
        have hsound := hunnamed held
        exact ⟨hsound.1, hsound.2, hsound.3, hsound.4⟩

/-- A base is told off exactly when it is let go of. -/
theorem count_letGoSlot {slot key : ℤ} (hkey : key ∉ opened) :
  ((letGoSlot opened state slot).2.map Prod.snd).count key
    = (state.2.map Prod.snd).count key
      + if key = slot ∧ state.1.leaves slot = true then 1 else 0
  := by
  rw [letGoSlot, leaves]
  cases hget : state.1.slots.get slot with
  | none => simp
  | some held =>
    by_cases hholds : 0 < held.holds
    · simp [hholds]
    · by_cases hslot : key = slot
      · subst hslot
        simp [hholds, hkey, Int.not_lt.mp hholds]
      · by_cases hopened : slot ∈ opened
        · simp [hholds, hopened, hslot]
        · simp [hholds, hopened, hslot, Ne.symm hslot]

/-- Which slots stay to be let go of after one was. -/
theorem leaves_letGoSlot (h : state.1.Sound) (slot key : ℤ) :
  (letGoSlot opened state slot).1.leaves key
    = (state.1.leaves key && !decide (key = slot ∧ state.1.leaves slot = true))
  := by
  by_cases hboth : key = slot ∧ state.1.leaves slot = true
  · rw [leaves, get_letGoSlot h, if_pos hboth, decide_eq_true hboth, Bool.not_true, Bool.and_false]
  · have hsame : (letGoSlot opened state slot).1.slots.get key = state.1.slots.get key := by
      rw [get_letGoSlot h, if_neg hboth]
    rw [decide_eq_false hboth, Bool.not_false, Bool.and_true, leaves, hsame, leaves]

/-- Letting go of all the slots a turn released unnames those among them that have no hold
left. -/
theorem get_letGoSlots (opened closed : List ℤ) (state : MirrorView T P × List (ℕ × ℤ))
    (h : state.1.Sound) :
  (closed.foldl (letGoSlot opened) state).1.Sound ∧
    ∀ key, (closed.foldl (letGoSlot opened) state).1.slots.get key
      = if key ∈ closed ∧ state.1.leaves key = true then none else state.1.slots.get key
  := by
  induction closed generalizing state with
  | nil => exact ⟨h, fun key => by simp⟩
  | cons slot rest ih =>
    obtain ⟨hsound, hget⟩ := ih _ (h.letGoSlot opened slot)
    refine ⟨hsound, ?_⟩
    intro key
    rw [foldl_cons, hget, get_letGoSlot h, leaves_letGoSlot h]
    by_cases hslot : key = slot
    · subst hslot
      cases hheld : state.1.leaves key
      · simp
      · simp
    · simp [hslot]

/-- Each base that is let go of is told off once. -/
theorem count_letGoSlots (opened closed : List ℤ) (state : MirrorView T P × List (ℕ × ℤ))
    (h : state.1.Sound) {key : ℤ} (hkey : key ∉ opened) :
  ((closed.foldl (letGoSlot opened) state).2.map Prod.snd).count key
    = (state.2.map Prod.snd).count key
      + if key ∈ closed ∧ state.1.leaves key = true then 1 else 0
  := by
  induction closed generalizing state with
  | nil => simp
  | cons slot rest ih =>
    rw [foldl_cons, ih _ (h.letGoSlot opened slot), count_letGoSlot hkey, leaves_letGoSlot h]
    by_cases hslot : key = slot
    · subst hslot
      cases hheld : state.1.leaves key
      · simp
      · simp
    · simp [hslot]

/-- Letting go of slots moves neither the channel of a view nor what it has released, and
retires only what it lets go of. -/
theorem letGoSlots_frame (opened closed : List ℤ) (state : MirrorView T P × List (ℕ × ℤ)) :
  (closed.foldl (letGoSlot opened) state).1.channel = state.1.channel ∧
    (closed.foldl (letGoSlot opened) state).1.unsubscribing = state.1.unsubscribing ∧
    ∀ key, key ∉ closed → state.1.retired.get key = none →
      (closed.foldl (letGoSlot opened) state).1.retired.get key = none
  := by
  induction closed generalizing state with
  | nil => exact ⟨rfl, rfl, fun _ _ hnone => hnone⟩
  | cons slot rest ih =>
    have hstep : (letGoSlot opened state slot).1.channel = state.1.channel ∧
        (letGoSlot opened state slot).1.unsubscribing = state.1.unsubscribing ∧
        ∀ key, key ≠ slot → state.1.retired.get key = none →
          (letGoSlot opened state slot).1.retired.get key = none := by
      rw [letGoSlot]
      split
      · exact ⟨rfl, rfl, fun _ _ hnone => hnone⟩
      · split
        · exact ⟨rfl, rfl, fun _ _ hnone => hnone⟩
        · split
          · exact ⟨rfl, rfl, fun _ _ hnone => hnone⟩
          · refine ⟨rfl, rfl, ?_⟩
            intro key hkey hnone
            rw [get_insert, if_neg hkey]
            apply hnone
    obtain ⟨hchannel, hunsubscribing, hretired⟩ := ih (letGoSlot opened state slot)
    refine ⟨hchannel.trans hstep.1, hunsubscribing.trans hstep.2.1, ?_⟩
    intro key hkey hnone
    rw [mem_cons, not_or] at hkey
    apply hretired key hkey.2
    apply hstep.2.2 key hkey.1 hnone

/-- The settle of a turn unnames the slots that the turn released and that have no hold left. -/
theorem Sound.flush (h : self.Sound) :
  self.flush.view.Sound ∧
    ∀ key, self.flush.view.slots.get key
      = if key ∈ self.unsubscribing ∧ self.leaves key = true then none else self.slots.get key
  := by
  have hstart : Sound
      { self with pending := false, subscribing := [], unsubscribing := [] } :=
    ⟨h.slot_eq, h.root_of_base, h.nextSlot_nonneg, by simp⟩
  exact get_letGoSlots self.subscribing self.unsubscribing (_, []) hstart

/-- The settle of a turn tells each base that it unnames off once. -/
theorem count_flush (h : self.Sound) {base : ℤ} (hbase : base < 0) :
  self.flush.unsubscribe.count base
    = if base ∈ self.unsubscribing ∧ self.leaves base = true then 1 else 0
  := by
  have hstart : Sound
      { self with pending := false, subscribing := [], unsubscribing := [] } :=
    ⟨h.slot_eq, h.root_of_base, h.nextSlot_nonneg, by simp⟩
  have hopened : base ∉ self.subscribing := by
    intro hmem
    have hnonneg := h.subscribing_nonneg base hmem
    omega
  have hcount := count_letGoSlots self.subscribing self.unsubscribing (_, []) hstart hopened
  rw [map_nil, count_nil, Nat.zero_add] at hcount
  rw [MirrorView.flush]
  exact (((perm_insertionSort _ _).map Prod.snd).count_eq base).trans hcount

/-- The settle of a turn leaves the channel of a view, lets go of nothing afterwards, and
retires only what the turn released. -/
theorem flush_frame (self : MirrorView T P) :
  self.flush.view.channel = self.channel ∧ self.flush.view.unsubscribing = [] ∧
    ∀ key, key ∉ self.unsubscribing → self.retired.get key = none →
      self.flush.view.retired.get key = none
  := letGoSlots_frame self.subscribing self.unsubscribing _

/-! ### Landing -/

/-- An op of a frame leaves the slots of a view as they are. -/
theorem Sound.land {moved : MirrorView T P} (h : self.Sound) {op : PatchOp P}
    {landing : Option (Landing T)} (hland : self.land op = some (moved, landing)) :
  moved.Sound ∧ SameBases self moved
  := by
  unfold MirrorView.land at hland
  split at hland
  next slot =>
    split at hland
    next =>
      rw [Option.some_inj, Prod.mk.injEq] at hland
      obtain ⟨rfl, -⟩ := hland
      refine ⟨⟨h.1, h.2, h.3, h.4⟩, ⟨rfl, fun _ _ => rfl, fun _ _ => rfl, ?_⟩⟩
      intro base hnone
      rw [get_remove, hnone, ite_self]
    next =>
      rw [Option.some_inj, Prod.mk.injEq] at hland
      obtain ⟨rfl, -⟩ := hland
      exact ⟨h, SameBases.refl self⟩
  next =>
    obtain ⟨held, -, heq⟩ := Option.map_eq_some_iff.mp hland
    rw [Prod.mk.injEq] at heq
    obtain ⟨rfl, -⟩ := heq
    exact ⟨h, SameBases.refl self⟩

/-- An op for a slot that is named, and that was not let go of before, lands through the
boundary it is named with. -/
theorem land_named {op : PatchOp P} {held : ClientSlot T P}
    (hget : self.slots.get op.slot = some held) (hretired : self.retired.get op.slot = none) :
  self.land op = some (self, some ⟨held.boundary.mint, op.through held.boundary⟩)
  := by
  have hnamed : self.slotNamed op.slot = some held := by
    rw [slotNamed, hget]
  cases op with
  | gone slot =>
    rw [PatchOp.slot] at hretired hnamed
    simp [land, hretired, hnamed]
  | seed slot value => simp [land, hnamed]
  | set slot rel value => simp [land, hnamed]
  | seq slot rel start removed inserted => simp [land, hnamed]
  | keys slot reset => simp [land, hnamed]

end MirrorView

end Mirror

end Vilan
