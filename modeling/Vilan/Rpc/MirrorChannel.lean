import Vilan.Library.Table

/-!
# The server's half of a mirrored store

A server's store crosses to a client over one channel.  Every reply that hands the store out
at a path adds a *grant* for the path, or one more hold on the grant already there, and names
the grant by its base slot, a negative number of the server's.  Under a grant the client
subscribes further slots, named by non-negative numbers of its own.
-/

namespace Vilan

open Table

namespace Mirror

/-- A step of a path into a store. -/
inductive StoreStep where
  | field (index : ℕ)
  | key (hash : ℕ)
  deriving DecidableEq

/-- What a service hands out: the root of a store, a path below it, and how a subscription
path is read at the type found there. -/
structure StoreHandle where
  root : ℕ
  path : List StoreStep
  readPath : List StoreStep → Option (List StoreStep)

/-- A base path that replies handed out, with how many of them did, less the releases of the
base, and the slots that stand under it. -/
structure MirrorGrant where
  base : ℤ
  path : List StoreStep
  holds : ℤ
  readPath : List StoreStep → Option (List StoreStep)
  under : List ℤ

/-- A subscribed boundary: its grant, its path below the grant and from the root, how many
subscriptions hold it, and its place in the opening order. -/
structure MirrorSlot where
  slot : ℤ
  base : ℤ
  rel : List StoreStep
  path : List StoreStep
  holds : ℤ
  stamp : ℕ

/-- An entry of a `Subscribe` frame. -/
structure SubscribeEntry where
  slot : ℤ
  base : ℤ
  path : List StoreStep

/-- One store mirrored on one connection.  The base of a grant is found by the identity of its
path, which is the path itself. -/
structure MirrorChannel where
  channel : ℕ
  root : ℕ
  grants : Table ℤ MirrorGrant
  bases : Table (List StoreStep) ℤ
  slots : Table ℤ MirrorSlot
  nextBase : ℤ
  nextStamp : ℕ
  acked : List ℤ

namespace MirrorChannel

/-- A channel as it is opened. -/
def opened (channel root : ℕ) : MirrorChannel where
  channel := channel
  root := root
  grants := Table.empty
  bases := Table.empty
  slots := Table.empty
  nextBase := -1
  nextStamp := 0
  acked := []

/-- The grants with the slots under one of them changed, if it is there. -/
def changeUnder (grants : Table ℤ MirrorGrant) (base : ℤ) (change : List ℤ → List ℤ) :
    Table ℤ MirrorGrant :=
  match grants.get base with
  | some grant => grants.insert base { grant with under := change grant.under }
  | none => grants

/-- Stand a boundary: it goes under its grant and into the table. -/
def openSlot (self : MirrorChannel) (slot base : ℤ) (rel path : List StoreStep) :
    MirrorChannel :=
  { self with
    grants := changeUnder self.grants base (List.insert slot)
    slots := self.slots.insert slot
      { slot := slot, base := base, rel := rel, path := path, holds := 1
        stamp := self.nextStamp }
    nextStamp := self.nextStamp + 1 }

/-- A grant that is not yet there, with its base subscribed. -/
def newGrant (self : MirrorChannel) (handle : StoreHandle) : MirrorChannel × ℤ :=
  let base := self.nextBase
  let added : MirrorChannel :=
    { self with
      nextBase := base - 1
      grants := self.grants.insert base
        { base := base, path := handle.path, holds := 1, readPath := handle.readPath
          under := [] }
      bases := self.bases.insert handle.path base }
  (added.openSlot base base [] handle.path, base)

/-- Add a grant for the path of a handle, or hold the one that is there, and answer its base. -/
def grant (self : MirrorChannel) (handle : StoreHandle) : MirrorChannel × ℤ :=
  match self.bases.get handle.path with
  | none => self.newGrant handle
  | some base =>
      match self.grants.get base with
      | none => self.newGrant handle
      | some held =>
          ({ self with grants := self.grants.insert base { held with holds := held.holds + 1 } },
            held.base)

/-- Hold a client's slot once more, or stand it under its grant. -/
def holdSlot (self : MirrorChannel) (slot base : ℤ) (rel : List StoreStep) : MirrorChannel :=
  match self.slots.get slot with
  | some held =>
      { self with slots := self.slots.insert slot { held with holds := held.holds + 1 } }
  | none =>
      match self.grants.get base with
      | some held => self.openSlot slot base rel (held.path ++ rel)
      | none => self

/-- A `Subscribe` frame.  A path that no grant can walk drops the rest of the frame. -/
def subscribe (self : MirrorChannel) : List SubscribeEntry → MirrorChannel
  | [] => self
  | entry :: rest =>
      match (self.grants.get entry.base).bind (fun grant => grant.readPath entry.path) with
      | none => self
      | some rel =>
          if 0 ≤ entry.slot then (self.holdSlot entry.slot entry.base rel).subscribe rest
          else self.subscribe rest

/-- Take a slot down: out of its grant and out of the table. -/
def closeSlot (self : MirrorChannel) (held : MirrorSlot) : MirrorChannel :=
  { self with
    slots := self.slots.remove held.slot
    grants := changeUnder self.grants held.base (fun under => under.erase held.slot) }

/-- Release one hold on a slot; with its last the slot goes, and the client is owed the `Gone`
that acknowledges it. -/
def releaseSlot (self : MirrorChannel) (slot : ℤ) : MirrorChannel :=
  match self.slots.get slot with
  | none => self
  | some held =>
      let left := held.holds - 1
      if left ≤ 0 then
        let closed := self.closeSlot held
        { closed with acked := closed.acked ++ [slot] }
      else { self with slots := self.slots.insert slot { held with holds := left } }

/-- Release one hold on a grant; with its last the grant goes, and every slot under it. -/
def releaseGrant (self : MirrorChannel) (base : ℤ) : MirrorChannel :=
  match self.grants.get base with
  | none => self
  | some held =>
      let left := held.holds - 1
      if left ≤ 0 then
        { self with
          slots := held.under.foldl Table.remove self.slots
          grants := self.grants.remove base
          bases := self.bases.remove held.path }
      else { self with grants := self.grants.insert base { held with holds := left } }

/-- One entry of an `Unsubscribe` frame. -/
def release (self : MirrorChannel) (slot : ℤ) : MirrorChannel :=
  if slot < 0 then self.releaseGrant slot else self.releaseSlot slot

/-- An `Unsubscribe` frame, up to what becomes of the channel. -/
def unsubscribe (self : MirrorChannel) (released : List ℤ) : MirrorChannel :=
  released.foldl release self

/-- Whether the last grant has gone, so that the channel is revoked. -/
def revoked (self : MirrorChannel) : Bool :=
  self.grants.entries.isEmpty

/-! ### Holds on a grant -/

/-- How many holds a base has on this channel. -/
def holdsOf (self : MirrorChannel) (base : ℤ) : ℤ :=
  match self.grants.get base with
  | some held => held.holds
  | none => 0

/-- What every channel keeps to. -/
structure Sound (channel : MirrorChannel) : Prop where
  /-- New bases are negative and below all the others. -/
  nextBase_neg : channel.nextBase < 0
  below : ∀ base held, channel.grants.get base = some held → channel.nextBase < base
  /-- A grant is found by its base and by its path, is held, and its base is subscribed. -/
  base_eq : ∀ base held, channel.grants.get base = some held → held.base = base
  base_neg : ∀ base held, channel.grants.get base = some held → base < 0
  held : ∀ base held, channel.grants.get base = some held → 0 < held.holds
  found : ∀ base held, channel.grants.get base = some held → channel.bases.get held.path = some base
  granted : ∀ path base, channel.bases.get path = some base →
    ∃ held, channel.grants.get base = some held ∧ held.path = path
  stands : ∀ base held, channel.grants.get base = some held → channel.slots.get base ≠ none
  /-- Under a grant stand its own base and slots of the client's. -/
  under : ∀ base held, channel.grants.get base = some held →
    ∀ slot ∈ held.under, slot = base ∨ 0 ≤ slot
  /-- A slot of the table knows its number. -/
  slot_eq : ∀ slot held, channel.slots.get slot = some held → held.slot = slot

theorem sound_opened (channel root : ℕ) :
  Sound (opened channel root)
  := by
  constructor <;> simp [opened]

variable {self : MirrorChannel} {base slot : ℤ}

/-- A channel whose grants moved only in their holds and in the client's slots under them. -/
theorem Sound.of_grants {moved : MirrorChannel} (h : self.Sound)
    (hnext : moved.nextBase = self.nextBase) (hbases : moved.bases = self.bases)
    (hfrom : ∀ base held', moved.grants.get base = some held' →
      ∃ held, self.grants.get base = some held ∧ held'.base = held.base ∧
        held'.path = held.path ∧ 0 < held'.holds ∧
        ∀ slot ∈ held'.under, slot = base ∨ 0 ≤ slot)
    (hto : ∀ base held, self.grants.get base = some held →
      ∃ held', moved.grants.get base = some held' ∧ held'.path = held.path)
    (hstands : ∀ base, base < 0 → self.slots.get base ≠ none → moved.slots.get base ≠ none)
    (hslot : ∀ slot held, moved.slots.get slot = some held → held.slot = slot) :
  moved.Sound
  where
  nextBase_neg := by
    rw [hnext]
    apply h.nextBase_neg
  below := by
    intro base held' hget
    obtain ⟨held, hheld, -⟩ := hfrom base held' hget
    rw [hnext]
    apply h.below base held hheld
  base_eq := by
    intro base held' hget
    obtain ⟨held, hheld, hbase, -⟩ := hfrom base held' hget
    rw [hbase]
    apply h.base_eq base held hheld
  base_neg := by
    intro base held' hget
    obtain ⟨held, hheld, -⟩ := hfrom base held' hget
    apply h.base_neg base held hheld
  held := by
    intro base held' hget
    obtain ⟨held, -, -, -, hheld, -⟩ := hfrom base held' hget
    apply hheld
  found := by
    intro base held' hget
    obtain ⟨held, hheld, -, hpath, -⟩ := hfrom base held' hget
    rw [hbases, hpath]
    apply h.found base held hheld
  granted := by
    intro path base hget
    rw [hbases] at hget
    obtain ⟨held, hheld, rfl⟩ := h.granted path base hget
    apply hto base held hheld
  stands := by
    intro base held' hget
    obtain ⟨held, hheld, -⟩ := hfrom base held' hget
    apply hstands base (h.base_neg base held hheld) (h.stands base held hheld)
  under := by
    intro base held' hget
    obtain ⟨held, -, -, -, -, hunder⟩ := hfrom base held' hget
    apply hunder
  slot_eq := hslot

/-! ### Standing a client's slot -/

theorem get_changeUnder (grants : Table ℤ MirrorGrant) (base key : ℤ)
    (change : List ℤ → List ℤ) :
  (changeUnder grants base change).get key
    = (grants.get key).map (fun grant =>
        if key = base then { grant with under := change grant.under } else grant)
  := by
  rw [changeUnder]
  cases hget : grants.get base with
  | none =>
    by_cases hkey : key = base
    · rw [hkey, hget]
      rfl
    · simp [hkey]
  | some grant =>
    by_cases hkey : key = base
    · simp [hkey, hget]
    · simp [hkey]

/-- A channel that changed the slots under a grant, and its own slots. -/
theorem Sound.changeUnder (h : self.Sound) {change : List ℤ → List ℤ} {slots : Table ℤ MirrorSlot}
    {nextStamp : ℕ} {acked : List ℤ}
    (hchange : ∀ under slot, slot ∈ change under → slot ∈ under ∨ 0 ≤ slot)
    (hstands : ∀ base, base < 0 → self.slots.get base ≠ none → slots.get base ≠ none)
    (hslot : ∀ slot held, slots.get slot = some held → held.slot = slot) :
  Sound
    { self with
      grants := MirrorChannel.changeUnder self.grants base change
      slots := slots, nextStamp := nextStamp, acked := acked }
  := by
  apply Sound.of_grants h
  · rfl
  · rfl
  · intro key held' hget
    rw [get_changeUnder] at hget
    obtain ⟨held, hheld, rfl⟩ := Option.map_eq_some_iff.mp hget
    refine ⟨held, hheld, ?_⟩
    by_cases hkey : key = base
    · rw [if_pos hkey]
      refine ⟨rfl, rfl, h.held key held hheld, ?_⟩
      intro other hother
      rcases hchange _ other hother with hunder | hpos
      · apply h.under key held hheld other hunder
      · right
        apply hpos
    · rw [if_neg hkey]
      exact ⟨rfl, rfl, h.held key held hheld, h.under key held hheld⟩
  · intro key held hget
    rw [get_changeUnder, hget, Option.map_some]
    refine ⟨_, rfl, ?_⟩
    by_cases hkey : key = base
    · simp [hkey]
    · simp [hkey]
  · apply hstands
  · apply hslot

/-- The holds of a base only depend on the grants, and not on what is under them. -/
theorem holdsOf_changeUnder {moved : MirrorChannel} (base : ℤ) (change : List ℤ → List ℤ)
    (h : moved.grants = changeUnder self.grants base change) (key : ℤ) :
  moved.holdsOf key = self.holdsOf key
  := by
  rw [holdsOf, holdsOf, h, get_changeUnder]
  cases self.grants.get key with
  | none => rfl
  | some grant =>
    rw [Option.map_some]
    by_cases hkey : key = base
    · simp [hkey]
    · simp [hkey]

theorem Sound.openSlot (h : self.Sound) (hslot : 0 ≤ slot) (base : ℤ) (rel path : List StoreStep) :
  (self.openSlot slot base rel path).Sound
  := by
  apply h.changeUnder
  · intro under other hother
    rw [List.mem_insert_iff] at hother
    rcases hother with rfl | hother
    · right
      apply hslot
    · left
      apply hother
  · intro key _ hstands
    rw [get_insert]
    split
    · simp
    · apply hstands
  · intro key held hget
    rw [get_insert] at hget
    split at hget
    next heq =>
      rw [Option.some_inj] at hget
      rw [← hget]
      apply heq.symm
    next => apply h.slot_eq key held hget

/-! ### Granting -/

theorem get_grants_newGrant (self : MirrorChannel) (handle : StoreHandle) (key : ℤ) :
  (self.newGrant handle).1.grants.get key
    = if key = self.nextBase then
        some { base := self.nextBase, path := handle.path, holds := 1
               readPath := handle.readPath, under := [self.nextBase] }
      else self.grants.get key
  := by
  rw [newGrant]
  simp only [openSlot, get_changeUnder, get_insert]
  by_cases hkey : key = self.nextBase
  · simp [hkey]
  · simp [hkey]

section

variable (h : self.Sound)
include h

theorem Sound.newGrant {handle : StoreHandle}
    (hfresh : self.bases.get handle.path = none) :
  (self.newGrant handle).1.Sound
  where
  nextBase_neg := by
    have hneg := h.nextBase_neg
    simp only [MirrorChannel.newGrant, MirrorChannel.openSlot]
    omega
  below := by
    intro base held hget
    rw [get_grants_newGrant] at hget
    simp only [MirrorChannel.newGrant, MirrorChannel.openSlot]
    split at hget
    next hbase => omega
    next =>
      have hbelow := h.below base held hget
      omega
  base_eq := by
    intro base held hget
    rw [get_grants_newGrant] at hget
    split at hget
    next hbase =>
      rw [Option.some_inj] at hget
      rw [← hget]
      apply hbase.symm
    next => apply h.base_eq base held hget
  base_neg := by
    intro base held hget
    rw [get_grants_newGrant] at hget
    split at hget
    next hbase =>
      rw [hbase]
      apply h.nextBase_neg
    next => apply h.base_neg base held hget
  held := by
    intro base held hget
    rw [get_grants_newGrant] at hget
    split at hget
    next =>
      rw [Option.some_inj] at hget
      simp [← hget]
    next => apply h.held base held hget
  found := by
    intro base held hget
    rw [get_grants_newGrant] at hget
    simp only [MirrorChannel.newGrant, MirrorChannel.openSlot, get_insert]
    split at hget
    next hbase =>
      rw [Option.some_inj] at hget
      simp [← hget, hbase]
    next =>
      have hfound := h.found base held hget
      rw [if_neg]
      · apply hfound
      · intro hpath
        rw [hpath, hfresh] at hfound
        cases hfound
  granted := by
    intro path base hget
    simp only [MirrorChannel.newGrant, MirrorChannel.openSlot, get_insert] at hget
    rw [get_grants_newGrant]
    split at hget
    next hpath =>
      rw [Option.some_inj] at hget
      rw [if_pos hget.symm]
      exact ⟨_, rfl, hpath.symm⟩
    next =>
      obtain ⟨held, hheld, hpath⟩ := h.granted path base hget
      have hbelow := h.below base held hheld
      rw [if_neg (by omega)]
      exact ⟨held, hheld, hpath⟩
  stands := by
    intro base held hget
    rw [get_grants_newGrant] at hget
    simp only [MirrorChannel.newGrant, MirrorChannel.openSlot, get_insert]
    split at hget
    next hbase => simp [hbase]
    next hbase =>
      rw [if_neg hbase]
      apply h.stands base held hget
  under := by
    intro base held hget slot hslot
    rw [get_grants_newGrant] at hget
    split at hget
    next hbase =>
      rw [Option.some_inj] at hget
      rw [← hget, List.mem_singleton] at hslot
      left
      rw [hslot, hbase]
    next => apply h.under base held hget slot hslot
  slot_eq := by
    intro slot held hget
    simp only [MirrorChannel.newGrant, MirrorChannel.openSlot, get_insert] at hget
    split at hget
    next heq =>
      rw [Option.some_inj] at hget
      rw [← hget]
      apply heq.symm
    next => apply h.slot_eq slot held hget

theorem holdsOf_newGrant (handle : StoreHandle) (key : ℤ) :
  (self.newGrant handle).1.holdsOf key
    = self.holdsOf key + if key = self.nextBase then 1 else 0
  := by
  rw [holdsOf, holdsOf, get_grants_newGrant]
  by_cases hkey : key = self.nextBase
  · cases hget : self.grants.get key with
    | none => simp [hkey]
    | some held =>
      have hbelow := h.below key held hget
      omega
  · simp [hkey]

/-- A grant takes the channel to a sound one. -/
theorem Sound.grant (handle : StoreHandle) :
  (self.grant handle).1.Sound
  := by
  rw [MirrorChannel.grant]
  cases hbases : self.bases.get handle.path with
  | none => apply h.newGrant hbases
  | some base =>
    obtain ⟨held, hheld, -⟩ := h.granted _ _ hbases
    simp only [hheld]
    apply Sound.of_grants h
    · rfl
    · rfl
    · intro key held' hget
      rw [get_insert] at hget
      split at hget
      next hkey =>
        rw [Option.some_inj] at hget
        subst hget hkey
        have hpos := h.held _ held hheld
        exact ⟨held, hheld, rfl, rfl, by simp only; omega, h.under _ held hheld⟩
      next => exact ⟨held', hget, rfl, rfl, h.held _ held' hget, h.under _ held' hget⟩
    · intro key held' hget
      rw [get_insert]
      split
      next hkey =>
        subst hkey
        rw [hheld, Option.some_inj] at hget
        subst hget
        exact ⟨_, rfl, rfl⟩
      next => exact ⟨held', hget, rfl⟩
    · intro key _ hstands
      apply hstands
    · apply h.slot_eq

/-- A grant adds one hold to the base that it answers. -/
theorem holdsOf_grant (handle : StoreHandle) (key : ℤ) :
  (self.grant handle).1.holdsOf key
    = self.holdsOf key + if key = (self.grant handle).2 then 1 else 0
  := by
  rw [MirrorChannel.grant]
  cases hbases : self.bases.get handle.path with
  | none => apply holdsOf_newGrant h
  | some base =>
    obtain ⟨held, hheld, -⟩ := h.granted _ _ hbases
    simp only [hheld, h.base_eq base held hheld, holdsOf, get_insert]
    by_cases hkey : key = base
    · simp [hkey, hheld]
    · simp [hkey]

theorem grant_neg (handle : StoreHandle) :
  (self.grant handle).2 < 0
  := by
  rw [MirrorChannel.grant]
  cases hbases : self.bases.get handle.path with
  | none => apply h.nextBase_neg
  | some base =>
    obtain ⟨held, hheld, -⟩ := h.granted _ _ hbases
    simp only [hheld, h.base_eq base held hheld]
    apply h.base_neg base held hheld

/-! ### Subscribing -/

theorem Sound.holdSlot (hslot : 0 ≤ slot) (base : ℤ) (rel : List StoreStep) :
  (self.holdSlot slot base rel).Sound
  := by
  rw [MirrorChannel.holdSlot]
  cases hget : self.slots.get slot with
  | none =>
    cases self.grants.get base with
    | none => apply h
    | some grant => apply h.openSlot hslot
  | some held =>
    apply Sound.of_grants h
    · rfl
    · rfl
    · intro key held' hheld'
      exact ⟨held', hheld', rfl, rfl, h.held _ held' hheld', h.under _ held' hheld'⟩
    · intro key held' hheld'
      exact ⟨held', hheld', rfl⟩
    · intro key _ hstands
      simp only [get_insert]
      split
      · simp
      · apply hstands
    · intro key other hother
      simp only [get_insert] at hother
      split at hother
      next hkey =>
        rw [Option.some_inj] at hother
        subst hother hkey
        apply h.slot_eq _ held hget
      next => apply h.slot_eq key other hother

end

theorem holdsOf_holdSlot (self : MirrorChannel) (slot base : ℤ) (rel : List StoreStep)
    (key : ℤ) :
  (self.holdSlot slot base rel).holdsOf key = self.holdsOf key
  := by
  rw [MirrorChannel.holdSlot]
  cases self.slots.get slot with
  | none =>
    cases self.grants.get base with
    | none => rfl
    | some grant => apply holdsOf_changeUnder base (List.insert slot) rfl
  | some held => rfl

section

variable (h : self.Sound)
include h

/-- A `Subscribe` frame leaves the channel sound and the holds of its grants as they were. -/
theorem Sound.subscribe (entries : List SubscribeEntry) :
  (self.subscribe entries).Sound ∧
    ∀ key, (self.subscribe entries).holdsOf key = self.holdsOf key
  := by
  induction entries generalizing self with
  | nil => exact ⟨h, fun _ => rfl⟩
  | cons entry rest ih =>
    rw [MirrorChannel.subscribe]
    split
    next => exact ⟨h, fun _ => rfl⟩
    next rel _ =>
      split
      next hslot =>
        obtain ⟨hsound, hholds⟩ := ih (h.holdSlot hslot entry.base rel)
        refine ⟨hsound, ?_⟩
        intro key
        rw [hholds, holdsOf_holdSlot]
      next => apply ih h

/-! ### Releasing -/

theorem Sound.releaseSlot (hslot : 0 ≤ slot) :
  (self.releaseSlot slot).Sound ∧ ∀ key, (self.releaseSlot slot).holdsOf key = self.holdsOf key
  := by
  rw [MirrorChannel.releaseSlot]
  cases hget : self.slots.get slot with
  | none => exact ⟨h, fun _ => rfl⟩
  | some held =>
    have hnumber := h.slot_eq slot held hget
    simp only [closeSlot]
    split
    next =>
      constructor
      · apply h.changeUnder
        · intro under other hother
          left
          apply List.mem_of_mem_erase hother
        · intro base hbase hstands
          rw [get_remove, if_neg (by omega)]
          apply hstands
        · intro other held' hget'
          rw [get_remove] at hget'
          split at hget'
          next => cases hget'
          next => apply h.slot_eq other held' hget'
      · intro key
        apply holdsOf_changeUnder held.base (fun under => under.erase held.slot) rfl
    next =>
      refine ⟨?_, fun _ => rfl⟩
      apply Sound.of_grants h
      · rfl
      · rfl
      · intro key grant hgrant
        exact ⟨grant, hgrant, rfl, rfl, h.held _ grant hgrant, h.under _ grant hgrant⟩
      · intro key grant hgrant
        exact ⟨grant, hgrant, rfl⟩
      · intro base _ hstands
        simp only [get_insert]
        split
        · simp
        · apply hstands
      · intro other held' hget'
        simp only [get_insert] at hget'
        split at hget'
        next hother =>
          rw [Option.some_inj] at hget'
          subst hget' hother
          apply hnumber
        next => apply h.slot_eq other held' hget'

/-- A grant that has holds left after a release keeps its place. -/
theorem Sound.lessHeld {held : MirrorGrant}
    (hget : self.grants.get base = some held) {left : ℤ} (hleft : 0 < left) :
  Sound { self with grants := self.grants.insert base { held with holds := left } }
  := by
  apply Sound.of_grants h
  · rfl
  · rfl
  · intro key held' hget'
    rw [get_insert] at hget'
    split at hget'
    next hkey =>
      rw [Option.some_inj] at hget'
      subst hget' hkey
      exact ⟨held, hget, rfl, rfl, hleft, h.under _ held hget⟩
    next => exact ⟨held', hget', rfl, rfl, h.held _ held' hget', h.under _ held' hget'⟩
  · intro key held' hget'
    rw [get_insert]
    split
    next hkey =>
      subst hkey
      rw [hget, Option.some_inj] at hget'
      subst hget'
      exact ⟨_, rfl, rfl⟩
    next => exact ⟨held', hget', rfl⟩
  · intro key _ hstands
    apply hstands
  · apply h.slot_eq

/-- A grant whose last hold went leaves the others as they were. -/
theorem Sound.withdraw {held : MirrorGrant}
    (hget : self.grants.get base = some held) :
  Sound
    { self with
      slots := held.under.foldl Table.remove self.slots
      grants := self.grants.remove base
      bases := self.bases.remove held.path }
  where
  nextBase_neg := h.nextBase_neg
  below := by
    intro key held' hget'
    rw [get_remove] at hget'
    split at hget'
    next => cases hget'
    next => apply h.below key held' hget'
  base_eq := by
    intro key held' hget'
    rw [get_remove] at hget'
    split at hget'
    next => cases hget'
    next => apply h.base_eq key held' hget'
  base_neg := by
    intro key held' hget'
    rw [get_remove] at hget'
    split at hget'
    next => cases hget'
    next => apply h.base_neg key held' hget'
  held := by
    intro key held' hget'
    rw [get_remove] at hget'
    split at hget'
    next => cases hget'
    next => apply h.held key held' hget'
  found := by
    intro key held' hget'
    rw [get_remove] at hget'
    split at hget'
    next => cases hget'
    next hkey =>
      -- Another grant has another path, as its path finds another base.
      have hfound := h.found key held' hget'
      rw [get_remove, if_neg]
      · apply hfound
      · intro hpath
        rw [hpath, h.found base held hget, Option.some_inj] at hfound
        apply hkey hfound.symm
  granted := by
    intro path key hget'
    rw [get_remove] at hget'
    split at hget'
    next => cases hget'
    next hpath =>
      obtain ⟨held', hheld', hpath'⟩ := h.granted path key hget'
      refine ⟨held', ?_, hpath'⟩
      rw [get_remove, if_neg]
      · apply hheld'
      · rintro rfl
        rw [hget, Option.some_inj] at hheld'
        subst hheld'
        apply hpath hpath'.symm
  stands := by
    intro key held' hget'
    rw [get_remove] at hget'
    split at hget'
    next => cases hget'
    next hkey =>
      rw [get_foldl_remove, if_neg]
      · apply h.stands key held' hget'
      · intro hmem
        have hneg := h.base_neg key held' hget'
        rcases h.under base held hget key hmem with heq | hpos
        · apply hkey heq
        · omega
  under := by
    intro key held' hget'
    rw [get_remove] at hget'
    split at hget'
    next => cases hget'
    next => apply h.under key held' hget'
  slot_eq := by
    intro slot held' hget'
    rw [get_foldl_remove] at hget'
    split at hget'
    next => cases hget'
    next => apply h.slot_eq slot held' hget'

theorem Sound.releaseGrant (base : ℤ) :
  (self.releaseGrant base).Sound
  := by
  rw [MirrorChannel.releaseGrant]
  cases hget : self.grants.get base with
  | none => apply h
  | some held =>
    simp only
    split
    next => apply h.withdraw hget
    next hleft => apply h.lessHeld hget (by omega)

/-- Releasing a base that is granted takes one hold off it. -/
theorem holdsOf_releaseGrant (base key : ℤ) :
  (self.releaseGrant base).holdsOf key
    = if key = base ∧ 0 < self.holdsOf base then self.holdsOf key - 1 else self.holdsOf key
  := by
  rw [MirrorChannel.releaseGrant]
  cases hget : self.grants.get base with
  | none => simp [holdsOf, hget]
  | some held =>
    have hpos := h.held base held hget
    have hholds : self.holdsOf base = held.holds := by
      rw [holdsOf, hget]
    by_cases hkey : key = base
    · subst hkey
      rw [if_pos ⟨rfl, by omega⟩, hholds]
      simp only
      split
      next hleft =>
        rw [holdsOf, get_remove, if_pos rfl]
        simp only
        omega
      next =>
        rw [holdsOf, get_insert, if_pos rfl]
    · rw [if_neg (fun hboth => hkey hboth.1)]
      simp only
      split
      next => rw [holdsOf, get_remove, if_neg hkey, holdsOf]
      next => rw [holdsOf, get_insert, if_neg hkey, holdsOf]

/-- An entry of an `Unsubscribe` frame leaves the channel sound. -/
theorem Sound.release (slot : ℤ) :
  (self.release slot).Sound
  := by
  rw [MirrorChannel.release]
  split
  next => apply h.releaseGrant
  next hslot => apply (h.releaseSlot (by omega)).1

theorem holdsOf_release (slot : ℤ) {key : ℤ} (hkey : key < 0) :
  (self.release slot).holdsOf key
    = if key = slot ∧ 0 < self.holdsOf key then self.holdsOf key - 1 else self.holdsOf key
  := by
  rw [MirrorChannel.release]
  split
  next hslot =>
    rw [holdsOf_releaseGrant h]
    by_cases heq : key = slot
    · rw [heq]
    · simp [heq]
  next hslot =>
    rw [(h.releaseSlot (by omega)).2, if_neg]
    rintro ⟨rfl, -⟩
    omega

/-- An `Unsubscribe` frame leaves the channel sound, and takes off every base as many holds as
it names it, when it has them. -/
theorem Sound.unsubscribe (released : List ℤ) :
  (self.unsubscribe released).Sound ∧
    ∀ key, key < 0 → (released.count key : ℤ) ≤ self.holdsOf key →
      (self.unsubscribe released).holdsOf key = self.holdsOf key - released.count key
  := by
  induction released generalizing self with
  | nil => exact ⟨h, fun key _ _ => by simp [MirrorChannel.unsubscribe]⟩
  | cons slot rest ih =>
    obtain ⟨hsound, hholds⟩ := ih (h.release slot)
    refine ⟨hsound, ?_⟩
    intro key hkey hcount
    rw [List.count_cons] at hcount ⊢
    have hstep := holdsOf_release h slot hkey
    by_cases heq : key = slot
    · subst heq
      rw [if_pos (by simp), Nat.cast_add, Nat.cast_one] at hcount ⊢
      rw [if_pos ⟨rfl, by omega⟩] at hstep
      have hrest := hholds key hkey (by omega)
      rw [MirrorChannel.unsubscribe, List.foldl_cons]
      rw [MirrorChannel.unsubscribe] at hrest
      omega
    · rw [if_neg (by simp [Ne.symm heq]), Nat.add_zero] at hcount ⊢
      rw [if_neg (fun hboth => heq hboth.1)] at hstep
      have hrest := hholds key hkey (by omega)
      rw [MirrorChannel.unsubscribe, List.foldl_cons]
      rw [MirrorChannel.unsubscribe] at hrest
      omega

end

end MirrorChannel

end Mirror

end Vilan
