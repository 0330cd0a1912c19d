import Vilan.Reactive.ElementCore

/-!
# What a drain of the core resolves to

The parallel lists of the core are one list of slots, and a slot is settled when its value
is what its run answers now.  The events of a drain, read as sequence ops on the pairs of
elements and values, take the pairs of the slots before to the pairs of the slots after,
and after it every slot is settled.
-/

namespace Vilan

open List Option Splice

variable {T F V : Type*}

/-- An event as an op on the pairs. -/
def ElementEvent.toSeqOp : ElementEvent T V → SeqOp (T × V)
  | spliced pos left arrived => .splice pos left arrived
  | changed pos before after _ => .setAt pos before after
  | reset _ now => .reset now
  | moved start count dest => .move start count dest

/-- An element that changed without a re-run has kept its input. -/
def ElementEvent.KeepsInput : ElementEvent T V → Prop
  | changed _ before after rerun => rerun = false → before.1 = after.1
  | _ => True

namespace ElementCore

/-- One slot: its identity, its element and the value of its run. -/
structure Slot (T V : Type*) where
  id : ℕ
  item : T
  value : V

/-- The element of a slot with its value. -/
def Slot.pair (slot : Slot T V) : T × V :=
  (slot.item, slot.value)

/-- What the run of `item` answers when the flows have the values `current`. -/
def answerOf (current : F → V) (core : ElementCore T F V) (item : T) : V :=
  (core.run item).1.pull current

/-- The value of a slot is what its run answers now. -/
def Settled (current : F → V) (core : ElementCore T F V) (slot : Slot T V) : Prop :=
  slot.value = core.answerOf current slot.item

/-- The slots of a core are backed by what it keeps for them: identities are distinct and
given out, each run's record is kept under its identity, and a slot that is not settled
follows a flow and is among those that woke. -/
structure Backed (current : F → V) (core : ElementCore T F V) (woke : List ℕ)
    (slots : List (Slot T V)) : Prop where
  nodup : (slots.map Slot.id).Nodup
  id_lt : ∀ slot ∈ slots, slot.id < core.nextId
  hold_lt : ∀ id hold, core.holds.get id = some hold → id < core.nextId
  hold : ∀ slot ∈ slots, core.holds.get slot.id = holdOf (core.run slot.item)
  settled : ∀ slot ∈ slots, Settled current core slot
    ∨ slot.id ∈ woke ∧ ∃ flow, (core.run slot.item).1 = .live flow

/-- The core keeps `slots` in its lists. -/
structure Keeps (core : ElementCore T F V) (slots : List (Slot T V)) : Prop where
  ids_eq : core.ids = slots.map Slot.id
  items_eq : core.items = slots.map Slot.item
  values_eq : core.values = slots.map Slot.value

variable {core core' : ElementCore T F V} {slots slots' arrived : List (Slot T V)}
  {woke gone : List ℕ} {current : F → V} {pos id : ℕ} {slot : Slot T V}

theorem Keeps.allPairs (h : core.Keeps slots) :
  core.allPairs = slots.map Slot.pair
  := by
  rw [ElementCore.allPairs, h.items_eq, h.values_eq, zip_map']
  rfl

theorem Keeps.heldPairs (h : core.Keeps slots) (pos count : ℕ) :
  core.heldPairs pos count = block (slots.map Slot.pair) pos count
  := by
  rw [ElementCore.heldPairs, h.items_eq, h.values_eq, ← map_block, ← map_block,
    ← map_block, zip_map']
  rfl

theorem Backed.perm (h : Backed current core woke slots) (hperm : slots'.Perm slots) :
  Backed current core woke slots'
  := by
  obtain ⟨hnodup, hid, hlt, hhold, hsettled⟩ := h
  refine ⟨?_, ?_, hlt, ?_, ?_⟩
  · rwa [(hperm.map Slot.id).nodup_iff]
  all_goals
    intro slot hslot
    rw [hperm.mem_iff] at hslot
  · apply hid slot hslot
  · apply hhold slot hslot
  · apply hsettled slot hslot

/-! ### Retiring and admitting -/

/-- `core'` is `core` after it has retired the slots `gone` and admitted `arrived`, apart
from its lists. -/
structure Admits (current : F → V) (core core' : ElementCore T F V) (gone : List ℕ)
    (arrived : List (Slot T V)) : Prop where
  run_eq : core'.run = core.run
  dirty_eq : core'.dirty = core.dirty
  nextId_le : core.nextId ≤ core'.nextId
  hold_lt : (∀ id hold, core.holds.get id = some hold → id < core.nextId) →
    ∀ id hold, core'.holds.get id = some hold → id < core'.nextId
  holds_eq : ∀ id, id < core.nextId →
    core'.holds.get id = if id ∈ gone then none else core.holds.get id
  nodup : (arrived.map Slot.id).Nodup
  arrived_id : ∀ slot ∈ arrived, core.nextId ≤ slot.id ∧ slot.id < core'.nextId
  arrived_hold : (∀ id hold, core.holds.get id = some hold → id < core.nextId) →
    ∀ slot ∈ arrived, core'.holds.get slot.id = holdOf (core.run slot.item)
  arrived_settled : ∀ slot ∈ arrived, Settled current core slot

theorem Admits.refl (current : F → V) (core : ElementCore T F V) :
  Admits current core core [] []
  := by
  constructor <;> simp

theorem Admits.trans {core'' : ElementCore T F V} {more : List (Slot T V)}
    (h : Admits current core core' gone arrived) (h' : Admits current core' core'' [] more) :
  Admits current core core'' gone (arrived ++ more)
  := by
  have hrun := h.run_eq
  have hle := h.nextId_le
  have hle' := h'.nextId_le
  constructor
  · rw [h'.run_eq, hrun]
  · rw [h'.dirty_eq, h.dirty_eq]
  · omega
  · intro hlt
    apply h'.hold_lt (h.hold_lt hlt)
  · intro id hid
    rw [h'.holds_eq id (by omega), if_neg (by simp), h.holds_eq id hid]
  · rw [map_append, nodup_append]
    refine ⟨h.nodup, h'.nodup, ?_⟩
    intro a ha b hb
    obtain ⟨slot, hslot, rfl⟩ := List.mem_map.mp ha
    obtain ⟨slot', hslot', rfl⟩ := List.mem_map.mp hb
    have := (h.arrived_id slot hslot).2
    have := (h'.arrived_id slot' hslot').1
    omega
  · intro slot hslot
    rcases mem_append.mp hslot with hold | hnew
    · have := h.arrived_id slot hold
      omega
    · have := h'.arrived_id slot hnew
      omega
  · intro hlt slot hslot
    rcases mem_append.mp hslot with hold | hnew
    · rw [h'.holds_eq _ (h.arrived_id slot hold).2, if_neg (by simp)]
      apply h.arrived_hold hlt slot hold
    · rw [h'.arrived_hold (h.hold_lt hlt) slot hnew, hrun]
  · intro slot hslot
    rcases mem_append.mp hslot with hold | hnew
    · apply h.arrived_settled slot hold
    · have := h'.arrived_settled slot hnew
      rwa [Settled, answerOf, hrun] at this

/-- Admission does not read the lists. -/
theorem Admits.setLists (h : Admits current core core' gone arrived) (ids ids' : List ℕ)
    (items items' : List T) (values values' : List V) :
  Admits current { core with ids, items, values }
    { core' with ids := ids', items := items', values := values' } gone arrived
  := ⟨h.run_eq, h.dirty_eq, h.nextId_le, h.hold_lt, h.holds_eq, h.nodup, h.arrived_id,
    h.arrived_hold, h.arrived_settled⟩

section

variable (core : ElementCore T F V)

@[simp]
theorem get_retire (id other : ℕ) :
  (core.retire id).holds.get other = if other = id then none else core.holds.get other
  := by
  rw [retire]
  split
  case h_1 => apply Table.get_remove
  case h_2 h =>
    split
    case isTrue heq => rw [heq, h]
    case isFalse => rfl

theorem retire_eq (id : ℕ) :
  core.retire id = { core with holds := (core.retire id).holds }
  := by
  rw [retire]
  split <;> rfl

theorem run_retire (id : ℕ) :
  (core.retire id).run = core.run
  := by
  rw [retire_eq]

theorem dirty_retire (id : ℕ) :
  (core.retire id).dirty = core.dirty
  := by
  rw [retire_eq]

theorem retireEach_eq (gone : List ℕ) :
  gone.foldl retire core = { core with holds := (gone.foldl retire core).holds }
  := by
  induction gone generalizing core with
  | nil => rfl
  | cons id gone ih =>
    rw [foldl_cons, ih, retire_eq]

@[simp]
theorem ids_retireEach (gone : List ℕ) :
  (gone.foldl retire core).ids = core.ids
  := by
  rw [retireEach_eq]

@[simp]
theorem items_retireEach (gone : List ℕ) :
  (gone.foldl retire core).items = core.items
  := by
  rw [retireEach_eq]

@[simp]
theorem values_retireEach (gone : List ℕ) :
  (gone.foldl retire core).values = core.values
  := by
  rw [retireEach_eq]

theorem get_retireEach (gone : List ℕ) (other : ℕ) :
  (gone.foldl retire core).holds.get other
    = if other ∈ gone then none else core.holds.get other
  := by
  induction gone generalizing core with
  | nil => rfl
  | cons id gone ih =>
    rw [foldl_cons, ih, get_retire]
    by_cases hmem : other ∈ gone
    · simp [hmem]
    · simp [hmem]

end

section

variable (current : F → V)

theorem admits_retireEach (core : ElementCore T F V) (gone : List ℕ) :
  Admits current core (gone.foldl retire core) gone []
  := by
  have heq := retireEach_eq core gone
  constructor
  · rw [heq]
  · rw [heq]
  · rw [heq]
  · intro hlt id hold hget
    rw [get_retireEach] at hget
    split at hget
    · contradiction
    · rw [heq]
      apply hlt id hold hget
  · intro id _
    apply get_retireEach
  all_goals simp

theorem admits_admitItem (core : ElementCore T F V) (item : T) :
  Admits current core (core.admitItem current item).1 []
    [⟨(core.admitItem current item).2.1, item, (core.admitItem current item).2.2⟩]
  := by
  have hget : ∀ other, (core.admitItem current item).1.holds.get other
      = if other = core.nextId then (holdOf (core.run item)).or (core.holds.get other)
        else core.holds.get other := by
    intro other
    rw [admitItem]
    cases holdOf (core.run item) with
    | none => simp
    | some hold => simp
  constructor
  · rfl
  · rfl
  · apply Nat.le_succ
  · intro hlt id hold h
    rw [hget] at h
    change id < core.nextId + 1
    split at h
    case isTrue heq => omega
    case isFalse =>
      have := hlt id hold h
      omega
  · intro id hid
    rw [hget, if_neg (by omega), if_neg (by simp)]
  · simp
  · intro slot hslot
    rw [mem_singleton] at hslot
    subst hslot
    exact ⟨le_rfl, Nat.lt_succ_self _⟩
  · intro hlt slot hslot
    rw [mem_singleton] at hslot
    subst hslot
    have hnone : core.holds.get core.nextId = none := by
      cases h : core.holds.get core.nextId with
      | none => rfl
      | some hold =>
        have := hlt _ _ h
        omega
    rw [hget]
    simp only [admitItem, if_true, hnone, or_none]
  · intro slot hslot
    rw [mem_singleton] at hslot
    subst hslot
    rfl

@[simp]
theorem ids_admitEach (core : ElementCore T F V) (items : List T) :
  (core.admitEach current items).1.ids = core.ids
  := by
  induction items generalizing core with
  | nil => rfl
  | cons item items ih => apply ih

@[simp]
theorem items_admitEach (core : ElementCore T F V) (items : List T) :
  (core.admitEach current items).1.items = core.items
  := by
  induction items generalizing core with
  | nil => rfl
  | cons item items ih => apply ih

@[simp]
theorem values_admitEach (core : ElementCore T F V) (items : List T) :
  (core.admitEach current items).1.values = core.values
  := by
  induction items generalizing core with
  | nil => rfl
  | cons item items ih => apply ih

/-- The slots of the admitted elements. -/
theorem exists_admitEach (core : ElementCore T F V) (items : List T) :
  ∃ arrived, Admits current core (core.admitEach current items).1 [] arrived
    ∧ (core.admitEach current items).2.map Prod.fst = arrived.map Slot.id
    ∧ (core.admitEach current items).2.map Prod.snd = arrived.map Slot.value
    ∧ items = arrived.map Slot.item
  := by
  induction items generalizing core with
  | nil => exact ⟨[], Admits.refl current core, rfl, rfl, rfl⟩
  | cons item items ih =>
    obtain ⟨arrived, hadmits, hids, hvalues, hitems⟩ := ih (core.admitItem current item).1
    refine ⟨_ :: arrived, (admits_admitItem current core item).trans hadmits, ?_, ?_, ?_⟩
    · rw [admitEach, map_cons, map_cons, hids]
    · rw [admitEach, map_cons, map_cons, hvalues]
    · rw [map_cons, ← hitems]

end

/-- What is kept of the slots, and what arrived, is backed. -/
theorem Backed.admits {kept : List (Slot T V)} (h : Backed current core woke slots)
    (hadmits : Admits current core core' gone arrived) (hkept : kept.Sublist slots)
    (hgone : ∀ slot ∈ kept, slot.id ∉ gone) :
  Backed current core' woke (kept ++ arrived)
  := by
  have hrun := hadmits.run_eq
  have hmem := hkept.subset
  constructor
  · rw [map_append, nodup_append]
    refine ⟨h.nodup.sublist (hkept.map Slot.id), hadmits.nodup, ?_⟩
    intro a ha b hb
    obtain ⟨slot, hslot, rfl⟩ := List.mem_map.mp ha
    obtain ⟨slot', hslot', rfl⟩ := List.mem_map.mp hb
    have := h.id_lt slot (hmem hslot)
    have := (hadmits.arrived_id slot' hslot').1
    omega
  · intro slot hslot
    rcases mem_append.mp hslot with hold | hnew
    · have := h.id_lt slot (hmem hold)
      have := hadmits.nextId_le
      omega
    · apply (hadmits.arrived_id slot hnew).2
  · apply hadmits.hold_lt h.hold_lt
  · intro slot hslot
    rw [hrun]
    rcases mem_append.mp hslot with hold | hnew
    · rw [hadmits.holds_eq _ (h.id_lt slot (hmem hold)), if_neg (hgone slot hold)]
      apply h.hold slot (hmem hold)
    · apply hadmits.arrived_hold h.hold_lt slot hnew
  · intro slot hslot
    rw [Settled, answerOf, hrun]
    rcases mem_append.mp hslot with hold | hnew
    · apply h.settled slot (hmem hold)
    · left
      apply hadmits.arrived_settled slot hnew

/-! ### One op of the upstream -/

/-- The core keeps the slots, they are backed, and the events take the pairs of the slots
before to the pairs of the slots after. -/
structure Resolves (current : F → V) (core core' : ElementCore T F V) (woke : List ℕ)
    (slots slots' : List (Slot T V)) (events : List (ElementEvent T V)) : Prop where
  keeps : core'.Keeps slots'
  backed : Backed current core' woke slots'
  run_eq : core'.run = core.run
  dirty_eq : core'.dirty = core.dirty
  accurate : SeqOp.Along SeqOp.Accurate (events.map ElementEvent.toSeqOp)
    (slots.map Slot.pair)
  replay_eq : SeqOp.replay (events.map ElementEvent.toSeqOp) (slots.map Slot.pair)
    = slots'.map Slot.pair
  keepsInput : ∀ event ∈ events, event.KeepsInput

theorem Resolves.trans {core'' : ElementCore T F V} {woke' : List ℕ} {slots'' : List (Slot T V)}
    {events more : List (ElementEvent T V)}
    (h : Resolves current core core' woke slots slots' events)
    (h' : Resolves current core' core'' woke' slots' slots'' more) :
  Resolves current core core'' woke' slots slots'' (events ++ more)
  := by
  refine ⟨h'.keeps, h'.backed, ?_, ?_, ?_, ?_, ?_⟩
  · rw [h'.run_eq, h.run_eq]
  · rw [h'.dirty_eq, h.dirty_eq]
  · rw [map_append, SeqOp.along_append, h.replay_eq]
    exact ⟨h.accurate, h'.accurate⟩
  · rw [map_append, SeqOp.replay_append, h.replay_eq, h'.replay_eq]
  · intro event hevent
    rcases mem_append.mp hevent with hold | hnew
    · apply h.keepsInput event hold
    · apply h'.keepsInput event hnew

/-- A run of slots leaves at `pos` and the admitted slots arrive there. -/
theorem Backed.splice {removed : ℕ} (h : Backed current core woke slots)
    (hadmits : Admits current core core'
      ((block slots pos removed).map Slot.id) arrived) :
  Backed current core' woke (splice slots pos removed arrived)
  := by
  apply Backed.perm _ (splice_perm slots pos removed arrived)
  apply h.admits hadmits (splice_nil_sublist slots pos removed)
  intro slot hslot hgone
  obtain ⟨slot', hslot', heq⟩ := List.mem_map.mp hgone
  have hnodup := h.nodup
  rw [← ((splice_append_block_perm slots pos removed).map Slot.id).nodup_iff,
    map_append, nodup_append] at hnodup
  apply hnodup.2.2 _ (List.mem_map_of_mem hslot) _ (List.mem_map_of_mem hslot') heq.symm

/-- One slot leaves and the admitted slots arrive in its place. -/
theorem Backed.replace {before after : List (Slot T V)}
    (h : Backed current core woke (before ++ slot :: after))
    (hadmits : Admits current core core' [slot.id] arrived) :
  Backed current core' woke (before ++ arrived ++ after)
  := by
  have hlist : before ++ slot :: after = before ++ [slot] ++ after := by
    rw [append_assoc, singleton_append]
  have hblock : block (before ++ [slot] ++ after) before.length 1 = [slot] := by
    apply block_one
    simp
  rw [hlist] at h
  have hsplice := splice_append before [slot] after arrived
  rw [length_singleton] at hsplice
  rw [← hsplice]
  apply h.splice
  rw [hblock]
  apply hadmits

/-- The lists of a core whose run of slots was replaced. -/
theorem Keeps.splice {removed : ℕ} (h : core.Keeps slots)
    (hids : core'.ids = splice core.ids pos removed (arrived.map Slot.id))
    (hitems : core'.items = splice core.items pos removed (arrived.map Slot.item))
    (hvalues : core'.values = splice core.values pos removed (arrived.map Slot.value)) :
  core'.Keeps (splice slots pos removed arrived)
  := by
  constructor
  · rw [hids, h.ids_eq, map_splice]
  · rw [hitems, h.items_eq, map_splice]
  · rw [hvalues, h.values_eq, map_splice]

theorem resolve_splice (hkeeps : core.Keeps slots) (hbacked : Backed current core woke slots)
    {removed : List T} (h : pos + removed.length ≤ slots.length) (inserted : List T) :
  ∃ core' event slots', core.resolveOp current (.splice pos removed inserted)
      = some (core', some event)
    ∧ Resolves current core core' woke slots slots' [event]
    ∧ slots'.map Slot.item
      = (SeqOp.splice pos removed inserted).apply (slots.map Slot.item)
  := by
  have hheld : core.ids.length = slots.length := by
    rw [hkeeps.ids_eq, length_map]
  have hitem : core.items.length = slots.length := by
    rw [hkeeps.items_eq, length_map]
  have hvalue : core.values.length = slots.length := by
    rw [hkeeps.values_eq, length_map]
  obtain ⟨hstart, htaking⟩ := splice_clamp_of_le h
  -- the core without the run that leaves, which is retired
  let base : ElementCore T F V := { core with
    ids := splice core.ids pos removed.length []
    items := splice core.items pos removed.length []
    values := splice core.values pos removed.length [] }
  let gone := block core.ids pos removed.length
  let retired := gone.foldl retire base
  obtain ⟨arrived, hadmits, hids, hvalues, hitems⟩ := exists_admitEach current retired inserted
  have hgone : gone = (block slots pos removed.length).map Slot.id := by
    rw [map_block, ← hkeeps.ids_eq]
  let admitted := (retired.admitEach current inserted).1
  let core' : ElementCore T F V := { admitted with
    ids := splice admitted.ids pos 0 (arrived.map Slot.id)
    items := splice admitted.items pos 0 inserted
    values := splice admitted.values pos 0 (arrived.map Slot.value) }
  have hall : Admits current core core' gone arrived :=
    ((admits_retireEach current base gone).trans hadmits).setLists _ _ _ _ _ _
  let left := core.heldPairs pos removed.length
  let event : ElementEvent T V :=
    .spliced pos left (inserted.zip (arrived.map Slot.value))
  have hleft : left = block (slots.map Slot.pair) pos removed.length :=
    hkeeps.heldPairs _ _
  have harrived : inserted.zip (arrived.map Slot.value) = arrived.map Slot.pair := by
    rw [hitems, zip_map']
    rfl
  have hfits : pos + removed.length ≤ (slots.map Slot.pair).length := by
    rwa [length_map]
  have hevent := accurate_splice hfits (arrived.map Slot.pair)
  refine ⟨core', event, splice slots pos removed.length arrived, ?_, ?_, ?_⟩
  · rw [resolveOp]
    simp only [hheld, hstart, htaking, core', event, ← hvalues, ← hids]
    rfl
  · refine ⟨?_, ?_, hall.run_eq, hall.dirty_eq, ⟨?_, trivial⟩, ?_, ?_⟩
    · apply hkeeps.splice
      · simp only [core', admitted, retired, ids_admitEach, ids_retireEach, base]
        apply splice_splice_nil (by omega)
      · simp only [core', admitted, retired, items_admitEach, items_retireEach, base]
        rw [hitems, splice_splice_nil (by omega)]
      · simp only [core', admitted, retired, values_admitEach, values_retireEach, base]
        apply splice_splice_nil (by omega)
    · rw [hgone] at hall
      apply hbacked.splice hall
    · simp only [event, ElementEvent.toSeqOp, hleft, harrived]
      apply hevent.1
    · simp only [event, map_cons, map_nil, ElementEvent.toSeqOp, hleft, harrived]
      rw [SeqOp.replay_singleton, ← hevent.2, map_splice]
    · simp [event, ElementEvent.KeepsInput]
  · rw [map_splice, SeqOp.apply, hitems]

theorem Keeps.getElem? (h : core.Keeps slots) (hslot : slots[pos]? = some slot) :
  core.ids[pos]? = some slot.id ∧ core.items[pos]? = some slot.item
    ∧ core.values[pos]? = some slot.value
  := by
  rw [h.ids_eq, h.items_eq, h.values_eq]
  simp [hslot]

theorem resolve_setAt (hkeeps : core.Keeps slots) (hbacked : Backed current core woke slots)
    (h : pos < slots.length) (was item : T) :
  ∃ core' event slots', core.resolveOp current (.setAt pos was item)
      = some (core', some event)
    ∧ Resolves current core core' woke slots slots' [event]
    ∧ slots'.map Slot.item = (SeqOp.setAt pos was item).apply (slots.map Slot.item)
  := by
  have hget := getElem?_eq_getElem h
  obtain ⟨hid, hitem, hvalue⟩ := hkeeps.getElem? hget
  have hblock := block_one hget
  let admitted := (core.retire slots[pos].id).admitItem current item
  let slot : Slot T V := ⟨admitted.2.1, item, admitted.2.2⟩
  let core' : ElementCore T F V := { admitted.1 with
    ids := admitted.1.ids.set pos slot.id
    items := admitted.1.items.set pos slot.item
    values := admitted.1.values.set pos slot.value }
  let event : ElementEvent T V := .changed pos slots[pos].pair slot.pair true
  have hall : Admits current core core' [slots[pos].id] [slot] :=
    ((admits_retireEach current core [slots[pos].id]).trans
      (admits_admitItem current _ item)).setLists _ _ _ _ _ _
  have hretire := retire_eq core slots[pos].id
  refine ⟨core', event, splice slots pos 1 [slot], ?_, ?_, ?_⟩
  · rw [resolveOp, hid, hitem, hvalue]
    rfl
  · refine ⟨?_, ?_, hall.run_eq, hall.dirty_eq, ⟨?_, trivial⟩, ?_, ?_⟩
    · apply hkeeps.splice
      · change (core.retire slots[pos].id).ids.set pos slot.id = _
        rw [hretire, hkeeps.ids_eq, map_set_eq_splice _ h]
      · change (core.retire slots[pos].id).items.set pos slot.item = _
        rw [hretire, hkeeps.items_eq]
        apply map_set_eq_splice Slot.item h slot
      · change (core.retire slots[pos].id).values.set pos slot.value = _
        rw [hretire, hkeeps.values_eq, map_set_eq_splice _ h]
    · apply hbacked.splice
      rw [hblock]
      apply hall
    · change (slots.map Slot.pair)[pos]? = some slots[pos].pair
      rw [getElem?_map, hget, map_some]
    · rw [map_splice, ← map_set_eq_splice _ h]
      rfl
    · simp [event, ElementEvent.KeepsInput]
  · rw [map_splice, ← map_set_eq_splice _ h]
    rfl

theorem resolve_reset (hbacked : Backed current core woke slots) (items : List T) :
  ∃ core' event slots', core.resolveOp current (.reset items) = some (core', some event)
    ∧ Resolves current core core' woke slots slots' [event]
    ∧ slots'.map Slot.item = (SeqOp.reset items).apply (slots.map Slot.item)
  := by
  let retired := core.ids.foldl retire core
  let emptied : ElementCore T F V := { retired with ids := [], items := [], values := [] }
  obtain ⟨arrived, hadmits, hids, hvalues, hitems⟩ := exists_admitEach current emptied items
  let core' := seed current emptied items
  let event : ElementEvent T V := .reset core.allPairs core'.allPairs
  have hall : Admits current core core' core.ids arrived :=
    (((admits_retireEach current core core.ids).setLists core.ids [] core.items []
      core.values []).trans hadmits).setLists _ _ _ _ _ _
  have hkeeps' : core'.Keeps arrived := by
    constructor
    · simp only [core', seed, ids_admitEach, emptied, nil_append, hids]
    · simp only [core', seed, items_admitEach, emptied, nil_append, ← hitems]
    · simp only [core', seed, values_admitEach, emptied, nil_append, hvalues]
  refine ⟨core', event, arrived, rfl, ?_, hitems.symm⟩
  refine ⟨hkeeps', ?_, hall.run_eq, hall.dirty_eq, ⟨trivial, trivial⟩, ?_, ?_⟩
  · have := hbacked.admits hall (nil_sublist slots) (by simp)
    rwa [nil_append] at this
  · simp only [event, map_cons, map_nil, ElementEvent.toSeqOp, SeqOp.replay_singleton, SeqOp.apply]
    apply hkeeps'.allPairs
  · simp [event, ElementEvent.KeepsInput]

theorem resolve_move (hkeeps : core.Keeps slots) (hbacked : Backed current core woke slots)
    {start count dest : ℕ} (h : start + count ≤ slots.length)
    (hdest : dest ≤ slots.length - count) :
  ∃ core' event slots', core.resolveOp current (.move start count dest)
      = some (core', some event)
    ∧ Resolves current core core' woke slots slots' [event]
    ∧ slots'.map Slot.item
      = (SeqOp.move start count dest).apply (slots.map Slot.item)
  := by
  let core' : ElementCore T F V := { core with
    ids := move core.ids start count dest
    items := move core.items start count dest
    values := move core.values start count dest }
  refine ⟨core', .moved start count dest, move slots start count dest, ?_, ?_, ?_⟩
  · simp only [resolveOp, core', hkeeps.ids_eq, hkeeps.items_eq, hkeeps.values_eq,
      moveEach_map_of_le _ h hdest, Outcome.returned]
  · have hall := (Admits.refl current core).setLists core.ids core'.ids core.items
      core'.items core.values core'.values
    refine ⟨?_, ?_, rfl, rfl, ⟨?_, trivial⟩, ?_, ?_⟩
    · constructor
      · rw [map_move, ← hkeeps.ids_eq]
      · rw [map_move, ← hkeeps.items_eq]
      · rw [map_move, ← hkeeps.values_eq]
    · apply Backed.perm _ (move_perm slots start count dest)
      have := hbacked.admits hall (List.Sublist.refl slots) (by simp)
      rwa [append_nil] at this
    · simp only [ElementEvent.toSeqOp, SeqOp.Accurate, SeqOp.InRange, length_map]
      exact ⟨h, hdest⟩
    · rw [map_move]
      rfl
    · simp [ElementEvent.KeepsInput]
  · rw [map_move]
    rfl

/-! ### The ops of a drain -/

theorem resolveOp_resolves (hkeeps : core.Keeps slots) (hbacked : Backed current core woke slots)
    {op : SeqOp T} (h : op.InRange (slots.map Slot.item)) :
  ∃ core' event slots', core.resolveOp current op = some (core', some event)
    ∧ Resolves current core core' woke slots slots' [event]
    ∧ slots'.map Slot.item = op.apply (slots.map Slot.item)
  := by
  cases op with
  | splice pos removed inserted =>
    rw [SeqOp.InRange, length_map] at h
    apply resolve_splice hkeeps hbacked h
  | setAt pos was item =>
    rw [SeqOp.InRange, length_map] at h
    apply resolve_setAt hkeeps hbacked h
  | reset items => apply resolve_reset hbacked
  | move start count dest =>
    rw [SeqOp.InRange, length_map] at h
    apply resolve_move hkeeps hbacked h.1 h.2

theorem resolveOps_resolves (hkeeps : core.Keeps slots) (hbacked : Backed current core woke slots)
    {ops : List (SeqOp T)} (h : SeqOp.Along SeqOp.InRange ops (slots.map Slot.item)) :
  ∃ core' events slots', core.resolveOps current ops = some (core', events)
    ∧ Resolves current core core' woke slots slots' events
    ∧ slots'.map Slot.item = SeqOp.replay ops (slots.map Slot.item)
  := by
  induction ops generalizing core slots with
  | nil =>
    refine ⟨core, [], slots, rfl, ?_, rfl⟩
    exact ⟨hkeeps, hbacked, rfl, rfl, trivial, rfl, by simp⟩
  | cons op ops ih =>
    obtain ⟨core₁, event, slots₁, hop, hresolves, hitems⟩ :=
      resolveOp_resolves hkeeps hbacked h.1
    obtain ⟨core₂, events, slots₂, hops, hresolves', hitems'⟩ :=
      ih hresolves.keeps hresolves.backed (by rw [hitems]; apply h.2)
    refine ⟨core₂, [event] ++ events, slots₂, ?_, hresolves.trans hresolves', ?_⟩
    · rw [resolveOps, hop]
      simp only [bind_eq_bind, bind_some, hops]
      rfl
    · rw [hitems', hitems, SeqOp.replay_cons]

/-! ### The flows that changed -/

theorem get_positions {ids : List ℕ} (h : ids.Nodup) :
  (positions ids).get id = some pos ↔ ids[pos]? = some id
  := Table.get_foldl_insert_zipIdx h

theorem Backed.forget (h : Backed current core (id :: woke) slots)
    (hsettled : ∀ slot ∈ slots, slot.id = id → Settled current core slot) :
  Backed current core woke slots
  := by
  refine ⟨h.nodup, h.id_lt, h.hold_lt, h.hold, ?_⟩
  intro slot hslot
  rcases h.settled slot hslot with hnow | ⟨hwoke, hlive⟩
  · left
    apply hnow
  · rcases mem_cons.mp hwoke with heq | hwoke
    · left
      apply hsettled slot hslot heq
    · right
      exact ⟨hwoke, hlive⟩

/-- A slot that follows nothing is settled. -/
theorem Backed.settled_of_hold (h : Backed current core woke slots) (hslot : slot ∈ slots)
    (hhold : ∀ hold, core.holds.get slot.id = some hold → hold.follows = false) :
  Settled current core slot
  := by
  rcases h.settled slot hslot with hnow | ⟨-, flow, hlive⟩
  · apply hnow
  · have hget := h.hold slot hslot
    rw [holdOf.eq_def] at hget
    rw [← Prod.eta (core.run slot.item), hlive] at hget
    have := hhold _ hget
    contradiction

theorem pull_of_holdOf {answer : ElementRun F V × Bool} {hold : ElementHold F V}
    (h : holdOf answer = some hold) :
  hold.pull = answer.1
  := by
  rw [holdOf.eq_def] at h
  split at h
  · contradiction
  all_goals
    rw [some_inj] at h
    rw [← h]

/-- What the read of one woken slot makes of the slots. -/
structure Reread (current : F → V) (core : ElementCore T F V) (id : ℕ)
    (slots slots' : List (Slot T V)) : Prop where
  ids_eq : slots'.map Slot.id = slots.map Slot.id
  items_eq : slots'.map Slot.item = slots.map Slot.item
  settled : ∀ slot ∈ slots', slot.id = id → Settled current core slot
  kept : ∀ slot ∈ slots', slot ∈ slots ∨ Settled current core slot

/-- Slots of which one was read once more are backed without its wake. -/
theorem Backed.reread (h : Backed current core (id :: woke) slots)
    (hreread : Reread current core id slots slots') :
  Backed current core woke slots'
  := by
  have hback : ∀ slot ∈ slots', ∃ slot₀ ∈ slots, slot₀.id = slot.id
      ∧ slot₀.item = slot.item := by
    intro slot hslot
    obtain ⟨i, hi, rfl⟩ := getElem_of_mem hslot
    have hlen := congrArg List.length hreread.ids_eq
    rw [length_map, length_map] at hlen
    have hid := getElem_of_eq hreread.ids_eq (i := i) (by rwa [length_map])
    have hitem := getElem_of_eq hreread.items_eq (i := i) (by rwa [length_map])
    rw [getElem_map, getElem_map] at hid hitem
    exact ⟨slots[i], getElem_mem _, hid.symm, hitem.symm⟩
  apply Backed.forget _ hreread.settled
  refine ⟨?_, ?_, h.hold_lt, ?_, ?_⟩
  · rw [hreread.ids_eq]
    apply h.nodup
  · intro slot hslot
    obtain ⟨slot₀, hslot₀, hid, -⟩ := hback slot hslot
    rw [← hid]
    apply h.id_lt slot₀ hslot₀
  · intro slot hslot
    obtain ⟨slot₀, hslot₀, hid, hitem⟩ := hback slot hslot
    rw [← hid, ← hitem]
    apply h.hold slot₀ hslot₀
  · intro slot hslot
    rcases hreread.kept slot hslot with hold | hsettled
    · apply h.settled slot hold
    · left
      apply hsettled

/-- A woken slot that has left, or follows nothing, is skipped. -/
theorem readSlot_skips (hkeeps : core.Keeps slots)
    (hbacked : Backed current core (id :: woke) slots)
    (hsettled : ∀ slot ∈ slots, slot.id = id → Settled current core slot) :
  Resolves current core core woke slots slots [] ∧ Reread current core id slots slots
  := by
  constructor
  · exact ⟨hkeeps, hbacked.forget hsettled, rfl, rfl, trivial, rfl, by simp⟩
  · exact ⟨rfl, rfl, hsettled, fun slot => Or.inl⟩

/-- A woken slot that follows a flow takes the value the flow has now. -/
theorem readSlot_reads (hkeeps : core.Keeps slots) (hpos : pos < slots.length)
    (hbacked : Backed current core (slots[pos].id :: woke) slots) {now : V}
    (hnow : now = core.answerOf current slots[pos].item) :
  let slots' := slots.set pos ⟨slots[pos].id, slots[pos].item, now⟩
  Resolves current core { core with values := core.values.set pos now } woke slots slots'
      [.changed pos slots[pos].pair (slots[pos].item, now) false]
    ∧ Reread current core slots[pos].id slots slots'
  := by
  intro slots'
  have hmem : ∀ slot ∈ slots', slot = ⟨slots[pos].id, slots[pos].item, now⟩
      ∨ ∃ i, ∃ h : i < slots.length, i ≠ pos ∧ slots[i] = slot := by
    intro slot hslot
    obtain ⟨i, hi, hget⟩ := getElem_of_mem hslot
    rw [getElem_set] at hget
    split at hget
    · left
      apply hget.symm
    · right
      rw [length_set] at hi
      exact ⟨i, hi, by omega, hget⟩
  have hids : slots'.map Slot.id = slots.map Slot.id := by
    rw [map_set, ← getElem_map Slot.id (h := by rwa [length_map]),
      set_getElem_self]
  have hitems : slots'.map Slot.item = slots.map Slot.item := by
    rw [map_set, ← getElem_map Slot.item (h := by rwa [length_map]),
      set_getElem_self]
  have hreread : Reread current core slots[pos].id slots slots' := by
    refine ⟨hids, hitems, ?_, ?_⟩
    · intro slot hslot hid
      rcases hmem slot hslot with rfl | ⟨i, hi, hne, rfl⟩
      · apply hnow
      · have hinj := nodup_iff_injective_getElem.mp hbacked.nodup
        have := @hinj ⟨i, by rwa [length_map]⟩ ⟨pos, by rwa [length_map]⟩
          (by simpa using hid)
        rw [Fin.mk.injEq] at this
        contradiction
    · intro slot hslot
      rcases hmem slot hslot with rfl | ⟨i, hi, -, rfl⟩
      · right
        apply hnow
      · left
        apply getElem_mem
  refine ⟨⟨?_, ?_, rfl, rfl, ⟨?_, trivial⟩, ?_, ?_⟩, hreread⟩
  · refine ⟨?_, ?_, ?_⟩
    · rw [hids, ← hkeeps.ids_eq]
    · rw [hitems, ← hkeeps.items_eq]
    · rw [map_set, ← hkeeps.values_eq]
  · have hback := hbacked.reread hreread
    exact ⟨hback.nodup, hback.id_lt, hback.hold_lt, hback.hold, hback.settled⟩
  · change (slots.map Slot.pair)[pos]? = some slots[pos].pair
    rw [getElem?_map, getElem?_eq_getElem hpos, map_some]
  · rw [map_set]
    rfl
  · simp [ElementEvent.KeepsInput, Slot.pair]

theorem readSlot_resolves (hkeeps : core.Keeps slots)
    (hbacked : Backed current core (id :: woke) slots) :
  ∃ slots', Resolves current core (core.readSlot current (positions core.ids) id).1 woke
      slots slots' (core.readSlot current (positions core.ids) id).2.toList
    ∧ Reread current core id slots slots'
  := by
  have hids := hkeeps.ids_eq
  cases hpos : (positions core.ids).get id with
  | none =>
    rw [readSlot, hpos]
    use slots
    apply readSlot_skips hkeeps hbacked
    intro slot hslot heq
    obtain ⟨pos, hlt, hget⟩ := getElem_of_mem hslot
    have : (positions core.ids).get id = some pos := by
      rw [hids, get_positions hbacked.nodup, getElem?_map,
        getElem?_eq_getElem hlt, hget, map_some, heq]
    rw [this] at hpos
    contradiction
  | some pos =>
    have hslot := hpos
    rw [hids, get_positions hbacked.nodup, getElem?_map, map_eq_some_iff] at hslot
    obtain ⟨slot, hget, rfl⟩ := hslot
    obtain ⟨hlt, rfl⟩ := List.getElem?_eq_some_iff.mp hget
    obtain ⟨-, hitem, hvalue⟩ := hkeeps.getElem? hget
    have hhold := hbacked.hold slots[pos] (getElem_mem hlt)
    by_cases hfollows : ∃ hold, core.holds.get slots[pos].id = some hold ∧ hold.follows = true
    · obtain ⟨hold, hget, hfollows⟩ := hfollows
      have hpull := pull_of_holdOf (hhold.symm.trans hget)
      rw [readSlot, hpos]
      simp only [hget, hfollows, hitem, hvalue]
      rw [hpull]
      exact ⟨_, readSlot_reads hkeeps hlt hbacked rfl⟩
    · have hnone : ∀ hold, core.holds.get slots[pos].id = some hold →
          hold.follows = false := by
        intro hold hget
        by_contra hne
        rw [Bool.not_eq_false] at hne
        exact hfollows ⟨hold, hget, hne⟩
      have hskip : core.readSlot current (positions core.ids) slots[pos].id
          = (core, none) := by
        rw [readSlot, hpos]
        cases hget : core.holds.get slots[pos].id with
        | none => rfl
        | some hold => simp only [hnone hold hget]
      rw [hskip]
      use slots
      apply readSlot_skips hkeeps hbacked
      intro slot hslot heq
      apply hbacked.settled_of_hold hslot
      rwa [heq]

theorem readSlots_resolves {seen : List ℕ} (hkeeps : core.Keeps slots)
    (hbacked : Backed current core woke slots)
    (hseen : ∀ slot ∈ slots, slot.id ∈ seen → Settled current core slot) :
  ∃ slots', Resolves current core
      (core.readSlots current (positions core.ids) seen woke).1 [] slots slots'
      (core.readSlots current (positions core.ids) seen woke).2
    ∧ slots'.map Slot.item = slots.map Slot.item
  := by
  induction woke generalizing core seen slots with
  | nil => exact ⟨slots, ⟨hkeeps, hbacked, rfl, rfl, trivial, rfl, by simp [readSlots]⟩, rfl⟩
  | cons id woke ih =>
    rw [readSlots]
    split
    case isTrue hmem =>
      apply ih hkeeps _ hseen
      apply hbacked.forget
      rintro slot hslot rfl
      apply hseen slot hslot hmem
    case isFalse hmem =>
      obtain ⟨slots₁, hresolves, hreread⟩ := readSlot_resolves hkeeps hbacked
      have hids : core.ids = (core.readSlot current (positions core.ids) id).1.ids := by
        rw [hresolves.keeps.ids_eq, hreread.ids_eq, ← hkeeps.ids_eq]
      have hseen' : ∀ slot ∈ slots₁, slot.id ∈ id :: seen →
          Settled current (core.readSlot current (positions core.ids) id).1 slot := by
        intro slot hslot hin
        rw [Settled, answerOf, hresolves.run_eq]
        rcases mem_cons.mp hin with heq | hin
        · apply hreread.settled slot hslot heq
        · rcases hreread.kept slot hslot with hold | hsettled
          · apply hseen slot hold hin
          · apply hsettled
      obtain ⟨slots₂, hresolves', hitems⟩ := ih hresolves.keeps hresolves.backed hseen'
      rw [← hids] at hresolves'
      refine ⟨slots₂, hresolves.trans hresolves', ?_⟩
      rw [hitems, hreread.items_eq]

/-! ### A drain -/

/-- The core holds `upstream`, each element with a value that is its run's answer now, or
with a flow that has woken its slot. -/
structure Holds (current : F → V) (core : ElementCore T F V) (upstream : List T) : Prop where
  exists_slots : ∃ slots, core.Keeps slots ∧ Backed current core core.dirty slots
    ∧ slots.map Slot.item = upstream

/-- A drain resolves into events that take the pairs the core held to the elements of the
upstream, each with what its run answers now. -/
theorem resolve_spec {upstream : List T} (h : Holds current core upstream) {ops : List (SeqOp T)}
    (hops : SeqOp.Along SeqOp.InRange ops upstream) :
  ∃ core' events, core.resolve current ops = some (core', events)
    ∧ Holds current core' (SeqOp.replay ops upstream)
    ∧ core'.run = core.run
    ∧ core'.allPairs
      = (SeqOp.replay ops upstream).map (fun item => (item, core.answerOf current item))
    ∧ SeqOp.Along SeqOp.Accurate (events.map ElementEvent.toSeqOp) core.allPairs
    ∧ SeqOp.replay (events.map ElementEvent.toSeqOp) core.allPairs = core'.allPairs
    ∧ ∀ event ∈ events, event.KeepsInput
  := by
  obtain ⟨slots, hkeeps, hbacked, rfl⟩ := h.exists_slots
  obtain ⟨core₁, events, slots₁, hresolve, hresolves, hitems⟩ :=
    resolveOps_resolves hkeeps hbacked hops
  let emptied : ElementCore T F V := { core₁ with dirty := [] }
  have hdirty := hresolves.dirty_eq
  have hkeeps₁ : emptied.Keeps slots₁ :=
    ⟨hresolves.keeps.ids_eq, hresolves.keeps.items_eq, hresolves.keeps.values_eq⟩
  have hbacked₁ : Backed current emptied core₁.dirty slots₁ := by
    rw [hdirty]
    have := hresolves.backed
    exact ⟨this.nodup, this.id_lt, this.hold_lt, this.hold, this.settled⟩
  have hnone : ∀ slot ∈ slots₁, slot.id ∈ ([] : List ℕ) → Settled current emptied slot := by
    simp
  obtain ⟨slots₂, hresolves', hitems'⟩ := readSlots_resolves hkeeps₁ hbacked₁ hnone
  let core₂ := (emptied.readSlots current (positions emptied.ids) [] core₁.dirty).1
  let more := (emptied.readSlots current (positions emptied.ids) [] core₁.dirty).2
  have hrun : core₂.run = core.run := by
    rw [hresolves'.run_eq, ← hresolves.run_eq]
  have hpairs : core₂.allPairs = slots₂.map Slot.pair := hresolves'.keeps.allPairs
  refine ⟨core₂, events ++ more, ?_, ⟨slots₂, hresolves'.keeps, ?_, ?_⟩, hrun, ?_, ?_, ?_, ?_⟩
  · rw [resolve, hresolve]
    rfl
  · rw [hresolves'.dirty_eq]
    apply hresolves'.backed
  · rw [hitems', hitems]
  · rw [hpairs, ← hitems, ← hitems', List.map_map]
    apply map_congr_left
    intro slot hslot
    rcases hresolves'.backed.settled slot hslot with hsettled | ⟨hwoke, -⟩
    · rw [Settled, answerOf, hrun] at hsettled
      rw [Slot.pair, hsettled]
      rfl
    · contradiction
  · rw [hkeeps.allPairs, map_append, SeqOp.along_append, hresolves.replay_eq]
    exact ⟨hresolves.accurate, hresolves'.accurate⟩
  · rw [hkeeps.allPairs, hpairs, map_append, SeqOp.replay_append, hresolves.replay_eq,
      hresolves'.replay_eq]
  · intro event hevent
    rcases mem_append.mp hevent with hold | hnew
    · apply hresolves.keepsInput event hold
    · apply hresolves'.keepsInput event hnew

/-- A seeded core holds what it was seeded from, with what each run answers. -/
theorem seed_spec (current : F → V) (run : T → ElementRun F V × Bool) (items : List T) :
  Holds current (seed current (new run) items) items
    ∧ (seed current (new run) items).allPairs
      = items.map (fun item => (item, (run item).1.pull current))
  := by
  obtain ⟨arrived, hadmits, hids, hvalues, hitems⟩ :=
    exists_admitEach current (new run) items
  have hkeeps : (seed current (new run) items).Keeps arrived := by
    constructor
    · simp only [seed, ids_admitEach, new, nil_append]
      apply hids
    · simp only [seed, items_admitEach, new, nil_append]
      apply hitems
    · simp only [seed, values_admitEach, new, nil_append]
      apply hvalues
  have hnew : Backed current (new run) [] [] := by
    constructor <;> simp [new]
  have hadmits' : Admits current (new run) (seed current (new run) items) [] arrived :=
    hadmits.setLists _ _ _ _ _ _
  have hbacked := hnew.admits hadmits' (List.Sublist.refl []) (by simp)
  rw [nil_append] at hbacked
  constructor
  · refine ⟨arrived, hkeeps, ?_, hitems.symm⟩
    rw [hadmits'.dirty_eq]
    apply hbacked
  · rw [hkeeps.allPairs, hitems, List.map_map]
    apply map_congr_left
    intro slot hslot
    have hsettled := hadmits.arrived_settled slot hslot
    rw [Slot.pair, show slot.value = _ from hsettled]
    rfl

/-! ### Between drains -/

/-- The flows change value: the slots in `woke` are marked dirty. -/
def wake (core : ElementCore T F V) (woke : List ℕ) : ElementCore T F V :=
  { core with dirty := core.dirty ++ woke }

/-- The slots in `woke` include every slot that follows a flow whose value has changed. -/
def Wakes (before after : F → V) (core : ElementCore T F V) (woke : List ℕ) : Prop :=
  ∀ (pos id : ℕ) (item : T) (flow : F), core.ids[pos]? = some id → core.items[pos]? = some item →
    (core.run item).1 = .live flow → before flow ≠ after flow → id ∈ woke

/-- Slots that are woken when their flows change stay backed. -/
theorem Backed.wake {before after : F → V} {dirty : List ℕ} (h : Backed before core dirty slots)
    (hwoke : ∀ slot ∈ slots, ∀ flow, (core.run slot.item).1 = .live flow →
      before flow ≠ after flow → slot.id ∈ woke) :
  Backed after (core.wake woke) (dirty ++ woke) slots
  := by
  refine ⟨h.nodup, h.id_lt, h.hold_lt, h.hold, ?_⟩
  intro slot hslot
  change slot.value = (core.run slot.item).1.pull after ∨ slot.id ∈ dirty ++ woke ∧ _
  rcases h.settled slot hslot with hsettled | ⟨hdirty, hlive⟩
  · rw [Settled, answerOf] at hsettled
    cases hanswer : (core.run slot.item).1 with
    | constant value =>
      left
      rw [hsettled, hanswer]
      rfl
    | live flow =>
      by_cases hsame : before flow = after flow
      · left
        rw [hsettled, hanswer]
        apply hsame
      · right
        refine ⟨?_, flow, hanswer⟩
        apply mem_append_right
        apply hwoke slot hslot flow hanswer hsame
  · right
    exact ⟨mem_append_left _ hdirty, hlive⟩

/-- A core whose slots are woken when their flows change goes on holding its upstream. -/
theorem Holds.wake {before after : F → V} {upstream : List T} (h : Holds before core upstream)
    (hwoke : Wakes before after core woke) :
  Holds after (core.wake woke) upstream
  := by
  obtain ⟨slots, hkeeps, hbacked, hitems⟩ := h.exists_slots
  refine ⟨slots, ⟨hkeeps.ids_eq, hkeeps.items_eq, hkeeps.values_eq⟩, hbacked.wake ?_, hitems⟩
  intro slot hslot flow hanswer hchanged
  obtain ⟨pos, hpos, hget⟩ := getElem_of_mem hslot
  obtain ⟨hid, hitem, -⟩ := hkeeps.getElem? (List.getElem?_eq_some_iff.mpr ⟨hpos, hget⟩)
  apply hwoke pos slot.id slot.item flow hid hitem hanswer hchanged

end ElementCore

end Vilan
