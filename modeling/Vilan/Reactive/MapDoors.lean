import Vilan.Reactive.HashMapCell

/-!
# The write doors of the map cell

Every write of a map cell changes the map, records the ops that say how, and wakes the slots
of the keys they name.  A door is explained when the ops it recorded make the new map of the
old one, each of them says what the map held when it was applied, and the watched keys whose
values changed have been woken.

Two doors run a closure of their caller, which may write the cell through any door.
`getOrInsert` reads the map again once its closure has returned; `update` does not, and
records the value that it handed out.
-/

namespace Vilan

variable {K H V : Type*} {hash : K → H}

namespace HashMap

/-- How many keys are held. -/
def len (map : HashMap hash V) : ℕ :=
  map.table.size

variable [DecidableEq H]

/-- Whether `key` is held. -/
def containsKey (map : HashMap hash V) (key : K) : Bool :=
  map.table.contains (hash key)

/-- Two maps are equal when they hold the same keys with equal values under each, in any
order. -/
def eq [BEq V] (map other : HashMap hash V) : Bool :=
  map.len == other.len
    && map.table.keys.all fun hashed =>
      match map.table.get hashed, other.table.get hashed with
      | some mine, some theirs => mine.2 == theirs.2
      | _, _ => false

/-- Equal maps hold as many keys, and every key of the first is held by the second with an
equal value. -/
theorem eq_spec [BEq V] {map other : HashMap hash V} (h : map.eq other = true) :
  map.len = other.len
    ∧ ∀ key mine, map.get key = some mine →
        ∃ theirs, other.get key = some theirs ∧ (mine == theirs) = true
  := by
  rw [eq, Bool.and_eq_true, beq_iff_eq, List.all_eq_true] at h
  use h.1
  intro key mine hmine
  obtain ⟨held, hheld, rfl⟩ := Option.map_eq_some_iff.mp hmine
  have hkey : hash key ∈ map.table.keys := by
    rw [← not_not (a := _ ∈ _), ← Table.get_eq_none_iff, hheld]
    simp
  have heq := h.2 _ hkey
  simp only [hheld] at heq
  cases htheirs : other.table.get (hash key) with
  | none =>
    rw [htheirs] at heq
    contradiction
  | some theirs =>
    rw [htheirs] at heq
    exact ⟨theirs.2, by rw [get, htheirs, Option.map_some], heq⟩

/-- A map that holds every key of another and no more keys holds no other key. -/
theorem hashesOf_subset_of_len {map other : HashMap hash V} (hlen : map.len = other.len)
    (hheld : ∀ key mine, map.get key = some mine → ∃ theirs, other.get key = some theirs) :
  other.hashesOf ⊆ map.hashesOf
  := by
  have hsub : map.hashesOf ⊆ other.hashesOf := by
    intro hashed hmem
    obtain ⟨key, _, rfl⟩ := List.mem_map.mp hmem
    cases hget : map.get key with
    | none =>
      have := get_eq_none_iff.mp hget
      contradiction
    | some mine =>
      obtain ⟨theirs, htheirs⟩ := hheld key mine hget
      rw [← not_not (a := _ ∈ _), ← get_eq_none_iff, htheirs]
      simp
  have hperm := (List.subperm_of_subset map.nodup_hashesOf hsub).perm_of_length_le (by
    rw [hashesOf_eq, hashesOf_eq, Table.keys, Table.keys, List.length_map, List.length_map]
    apply hlen.ge)
  apply hperm.symm.subset

end HashMap

/-- A plain map and the ops that produced it. -/
structure TrackedHashMap {K H : Type*} (hash : K → H) (V : Type*) where
  map : HashMap hash V
  ops : List (MapOp hash V)

namespace TrackedHashMap

variable [DecidableEq H]

/-- `key` holds `value` now. -/
def insert (recorder : TrackedHashMap hash V) (key : K) (value : V) :
    TrackedHashMap hash V where
  map := recorder.map.insert key value
  ops := recorder.ops ++ [.put key (recorder.map.get key) value]

/-- `key` leaves; an absent key records nothing. -/
def remove (recorder : TrackedHashMap hash V) (key : K) : TrackedHashMap hash V :=
  match recorder.map.get key with
  | some gone =>
      { map := recorder.map.remove key, ops := recorder.ops ++ [.delete key gone] }
  | none => recorder

omit [DecidableEq H] in
/-- Everything leaves, as one `reset`; an empty map is left alone. -/
def clear (recorder : TrackedHashMap hash V) : TrackedHashMap hash V :=
  if recorder.map.len = 0 then recorder
  else { map := HashMap.new, ops := recorder.ops ++ [.reset HashMap.new] }

end TrackedHashMap

/-- One call a body makes of its recorder. -/
inductive Edit (K V : Type*) where
  | insert (key : K) (value : V)
  | remove (key : K)
  | clear

/-- What a call makes of the recorder. -/
def Edit.apply [DecidableEq H] : Edit K V → TrackedHashMap hash V → TrackedHashMap hash V
  | insert key value, recorder => recorder.insert key value
  | remove key, recorder => recorder.remove key
  | clear, recorder => recorder.clear

namespace HashMapCell

/-- What a call told: the ops it recorded, and the hashes of the watched keys it woke. -/
structure Told {K H : Type*} (hash : K → H) (V : Type*) where
  recorded : List (MapOp hash V)
  woken : List H

/-- Nothing. -/
def Told.nothing : Told hash V where
  recorded := []
  woken := []

/-- What one call told, and then another. -/
def Told.append (told more : Told hash V) : Told hash V where
  recorded := told.recorded ++ more.recorded
  woken := told.woken ++ more.woken

/-- Record `ops` over a map that has become `items`, and fire the one notification. -/
def record (cell : HashMapCell hash V) (items : HashMap hash V) (ops : List (MapOp hash V)) :
    HashMapCell hash V :=
  publishMap { cell with items, log := ops.foldl DeltaLog.record cell.log }

variable [DecidableEq H]

/-! ### Waking -/

/-- Wake the slot of one key, if it has one. -/
def wake (slots : List H) (hashed : H) : List H :=
  if hashed ∈ slots then [hashed] else []

/-- Note a key the first time an op names it. -/
def noteNamed (order : List H) (hashed : H) : List H :=
  if hashed ∈ order then order else order ++ [hashed]

/-- The loop over the ops: wake the slot of every key they name, once, and every slot for
a `reset`. -/
def wakeLoop (slots order : List H) : List (MapOp hash V) → List H
  | [] => order.flatMap (wake slots)
  | .put key _ _ :: ops => wakeLoop slots (noteNamed order (hash key)) ops
  | .delete key _ :: ops => wakeLoop slots (noteNamed order (hash key)) ops
  | .reset _ :: _ => slots

/-- Wake the slots of the keys that `ops` name. -/
def wakeFor (slots : List H) (ops : List (MapOp hash V)) : List H :=
  wakeLoop slots [] ops

/-! ### The doors -/

/-- `key` holds `value` now. -/
def insert (slots : List H) (cell : HashMapCell hash V) (key : K) (value : V) :
    HashMapCell hash V × Told hash V :=
  let op := .put key (cell.items.get key) value
  (cell.record (cell.items.insert key value) [op], ⟨[op], wake slots (hash key)⟩)

/-- `key` leaves; an absent key records nothing. -/
def remove (slots : List H) (cell : HashMapCell hash V) (key : K) :
    HashMapCell hash V × Told hash V :=
  match cell.items.get key with
  | some gone =>
      (cell.record (cell.items.remove key) [.delete key gone],
        ⟨[.delete key gone], wake slots (hash key)⟩)
  | none => (cell, .nothing)

/-- Put back the value of `key` once the closure that was handed `before` has left
`after`. -/
def putBack (slots : List H) (cell : HashMapCell hash V) (key : K) (before after : V) :
    HashMapCell hash V × Told hash V :=
  let op := .put key (some before) after
  (cell.record (cell.items.insert key after) [op], ⟨[op], wake slots (hash key)⟩)

/-- Change the value `key` holds.  While it runs, the closure does `within` to the cell; it
leaves `after` in the copy it was handed. -/
def update (slots : List H) (cell : HashMapCell hash V) (key : K)
    (within : HashMapCell hash V → HashMapCell hash V × Told hash V) (after : V) :
    HashMapCell hash V × Told hash V :=
  match cell.items.get key with
  | some before =>
      let ran := within cell
      let wrote := putBack slots ran.1 key before after
      (wrote.1, ran.2.append wrote.2)
  | none => (cell, .nothing)

/-- The value `key` holds, or the one its closure makes.  While it runs, the closure does
`within` to the cell. -/
def getOrInsert (slots : List H) (cell : HashMapCell hash V) (key : K)
    (within : HashMapCell hash V → HashMapCell hash V × Told hash V) (made : V) :
    V × HashMapCell hash V × Told hash V :=
  match cell.items.get key with
  | some held => (held, cell, .nothing)
  | none =>
      let ran := within cell
      let wrote := insert slots ran.1 key made
      (made, wrote.1, ran.2.append wrote.2)

omit [DecidableEq H] in
/-- The map became this one: every slot wakes. -/
def set (slots : List H) (cell : HashMapCell hash V) (value : HashMap hash V) :
    HashMapCell hash V × Told hash V :=
  (cell.record value [.reset value], ⟨[.reset value], slots⟩)

omit [DecidableEq H] in
/-- Everything leaves; an empty map is left alone. -/
def clear (slots : List H) (cell : HashMapCell hash V) : HashMapCell hash V × Told hash V :=
  if cell.items.len = 0 then (cell, .nothing)
  else set slots cell HashMap.new

/-- Hand a body a recorder over a copy of the map, and record what it did. -/
def edit (slots : List H) (cell : HashMapCell hash V) (body : List (Edit K V)) :
    HashMapCell hash V × Told hash V :=
  let recorder := body.foldl (fun recorder call => call.apply recorder) ⟨cell.items, []⟩
  if recorder.ops = [] then (cell, .nothing)
  else (cell.record recorder.map recorder.ops, ⟨recorder.ops, wakeFor slots recorder.ops⟩)

/-- The ops of the keys that leave for `target`, in the map's order. -/
def leaving (items target : HashMap hash V) : List (MapOp hash V) :=
  items.entries.filterMap fun entry =>
    if target.containsKey entry.1 then none else some (.delete entry.1 entry.2)

/-- The ops of the keys that arrive with `target` or change for it, in its order. -/
def arriving [BEq V] (items target : HashMap hash V) : List (MapOp hash V) :=
  target.entries.filterMap fun entry =>
    match items.get entry.1 with
    | none => some (.put entry.1 none entry.2)
    | some was => if was != entry.2 then some (.put entry.1 (some was) entry.2) else none

/-- Take a whole map and record what changed. -/
def reconcileTo [BEq V] (slots : List H) (cell : HashMapCell hash V)
    (target : HashMap hash V) : HashMapCell hash V × Told hash V :=
  let ops := leaving cell.items target ++ arriving cell.items target
  if ops = [] then (cell, .nothing)
  else (cell.record (MapOp.replay ops cell.items) ops, ⟨ops, wakeFor slots ops⟩)

/-- Apply `ops` as one batch, each recorded with what the map held. -/
def applyOps (slots : List H) (cell : HashMapCell hash V) (ops : List (MapOp hash V)) :
    HashMapCell hash V × Told hash V :=
  let recorded := (applyEach cell.items ops).2
  (cell.applyMapOps ops, ⟨recorded, wakeFor slots recorded⟩)

end HashMapCell

/-- A call of a write door.  A closure is given by the calls it makes of the cell's doors
while it runs and the value it leaves. -/
inductive Door {K H : Type*} (hash : K → H) (V : Type*) where
  | insert (key : K) (value : V)
  | remove (key : K)
  | update (key : K) (within : List (Door hash V)) (after : V)
  | getOrInsert (key : K) (within : List (Door hash V)) (made : V)
  | clear
  | set (value : HashMap hash V)
  | edit (body : List (Edit K V))
  | reconcileTo (target : HashMap hash V)
  | applyMapOps (ops : List (MapOp hash V))

namespace Door

variable [DecidableEq H] [BEq V]

open HashMapCell

mutual

/-- Call a door of a cell whose keys with hashes `slots` are watched throughout. -/
def call (slots : List H) :
    Door hash V → HashMapCell hash V → HashMapCell hash V × Told hash V
  | .insert key value, cell => cell.insert slots key value
  | .remove key, cell => cell.remove slots key
  | .update key within after, cell => cell.update slots key (callAll slots within) after
  | .getOrInsert key within made, cell =>
      (cell.getOrInsert slots key (callAll slots within) made).2
  | .clear, cell => cell.clear slots
  | .set value, cell => cell.set slots value
  | .edit body, cell => cell.edit slots body
  | .reconcileTo target, cell => cell.reconcileTo slots target
  | .applyMapOps ops, cell => cell.applyOps slots ops

/-- Call doors one after another. -/
def callAll (slots : List H) :
    List (Door hash V) → HashMapCell hash V → HashMapCell hash V × Told hash V
  | [], cell => (cell, .nothing)
  | door :: doors, cell =>
      let ran := call slots door cell
      let more := callAll slots doors ran.1
      (more.1, ran.2.append more.2)

end

end Door

/-! ### What the ops say -/

namespace MapOp

open List

/-- The hash of the key an op names. -/
def names : MapOp hash V → Option H
  | put key _ _ => some (hash key)
  | delete key _ => some (hash key)
  | reset _ => none

variable [DecidableEq H]

/-- An op says what a map holds under its key. -/
def Accurate : MapOp hash V → HashMap hash V → Prop
  | put key was _, map => map.get key = was
  | delete key gone, map => map.get key = some gone
  | reset _, _ => True

theorem replay_append (ops more : List (MapOp hash V)) (map : HashMap hash V) :
  replay (ops ++ more) map = replay more (replay ops map)
  := Replay.replay_append ops more map

variable {key : K} {op : MapOp hash V} {named : List H} {ops : List (MapOp hash V)}

/-- An op changes no value but that of the key it names. -/
theorem get_apply {named : H} (h : op.names = some named) (map : HashMap hash V)
    (hkey : hash key ≠ named) :
  (op.apply map).get key = map.get key
  := by
  cases op with
  | put changed was now =>
    rw [names, Option.some_inj] at h
    rw [apply, HashMap.get_insert, if_neg (by rw [h]; exact hkey)]
  | delete changed gone =>
    rw [names, Option.some_inj] at h
    rw [apply, HashMap.get_remove, if_neg (by rw [h]; exact hkey)]
  | reset => simp [names] at h

/-- An op says of a map what it says of one that holds the same under the key it names. -/
theorem Accurate.of_get {map other : HashMap hash V}
    (hget : ∀ key, op.names = some (hash key) → other.get key = map.get key) (h : op.Accurate map) :
  op.Accurate other
  := by
  cases op with
  | put key was now =>
    rw [Accurate, hget key rfl]
    apply h
  | delete key gone =>
    rw [Accurate, hget key rfl]
    apply h
  | reset => trivial

/-- Ops that name different keys, each accurate to begin with, are accurate one after
another. -/
theorem along_of_names (hnames : ops.map names = named.map some) (hnodup : named.Nodup)
    {map : HashMap hash V} (h : ∀ op ∈ ops, op.Accurate map) :
  Replay.Along apply Accurate ops map
  := by
  induction ops generalizing named map with
  | nil => trivial
  | cons op ops ih =>
    cases named with
    | nil => simp at hnames
    | cons first rest =>
      rw [map_cons, map_cons, List.cons.injEq] at hnames
      rw [nodup_cons] at hnodup
      constructor
      · apply h op mem_cons_self
      · apply ih hnames.2 hnodup.2
        intro later hlater
        apply Accurate.of_get _ (h later (mem_cons_of_mem _ hlater))
        intro key hkey
        apply get_apply hnames.1
        rintro rfl
        have : some (hash key) ∈ rest.map some := by
          rw [← hnames.2, ← hkey]
          apply List.mem_map_of_mem hlater
        simp only [List.mem_map, Option.some_inj, exists_eq_right] at this
        apply hnodup.1 this

/-- Ops change no value but those of the keys they name. -/
theorem get_replay (hnames : ops.map names = named.map some) (map : HashMap hash V)
    (hkey : hash key ∉ named) :
  (replay ops map).get key = map.get key
  := by
  induction ops generalizing named map with
  | nil => rfl
  | cons op ops ih =>
    cases named with
    | nil => simp at hnames
    | cons first rest =>
      rw [map_cons, map_cons, List.cons.injEq] at hnames
      rw [mem_cons, not_or] at hkey
      rw [replay_cons, ih hnames.2 _ hkey.2, get_apply hnames.1 _ hkey.1]

/-- Of ops that name different keys, each has the last word on its own. -/
theorem get_replay_of_mem (hnames : ops.map names = named.map some) (hnodup : named.Nodup)
    (map : HashMap hash V) (hop : op ∈ ops) (hkey : op.names = some (hash key)) :
  ∃ before, (replay ops map).get key = (op.apply before).get key
  := by
  induction ops generalizing named map with
  | nil => contradiction
  | cons first ops ih =>
    cases named with
    | nil => simp at hnames
    | cons held rest =>
      rw [map_cons, map_cons, List.cons.injEq] at hnames
      rw [nodup_cons] at hnodup
      rw [replay_cons]
      rcases mem_cons.mp hop with rfl | hop
      · use map
        rw [hkey, Option.some_inj] at hnames
        apply get_replay hnames.2
        rw [hnames.1]
        apply hnodup.1
      · apply ih hnames.2 hnodup.2 _ hop

omit [DecidableEq H] in
/-- When each op comes of an entry and names its key, the ops name different keys, all among
the entries'. -/
theorem exists_names {f : K × V → Option (MapOp hash V)}
    (hf : ∀ entry op, f entry = some op → op.names = some (hash entry.1))
    (entries : List (K × V)) :
  ∃ named : List H, (entries.filterMap f).map names = named.map some
    ∧ named.Sublist (entries.map fun entry => hash entry.1)
  := by
  induction entries with
  | nil => exact ⟨[], rfl, List.Sublist.refl _⟩
  | cons entry rest ih =>
    obtain ⟨named, hnames, hsub⟩ := ih
    cases hop : f entry with
    | none =>
      rw [filterMap_cons_none hop]
      exact ⟨named, hnames, hsub.cons _⟩
    | some op =>
      rw [filterMap_cons_some hop, map_cons, hf entry op hop, hnames]
      exact ⟨hash entry.1 :: named, rfl, hsub.cons_cons _⟩

end MapOp

namespace TrackedHashMap

variable [DecidableEq H]

/-- A recorder's ops make its map of the map it started from, and say what they found. -/
structure Tracks (start : HashMap hash V) (recorder : TrackedHashMap hash V) : Prop where
  replays : MapOp.replay recorder.ops start = recorder.map
  accurate : Replay.Along MapOp.apply MapOp.Accurate recorder.ops start

theorem tracks_start (start : HashMap hash V) :
  Tracks start { map := start, ops := [] }
  where
  replays := rfl
  accurate := trivial

variable {start : HashMap hash V} {recorder : TrackedHashMap hash V}

/-- A recorder that notes an op accurate of its map, and makes the op's map, still
tracks. -/
theorem Tracks.push (h : recorder.Tracks start) (op : MapOp hash V)
    (hop : op.Accurate recorder.map) :
  Tracks start { map := op.apply recorder.map, ops := recorder.ops ++ [op] }
  := by
  constructor
  · rw [MapOp.replay_append, h.replays]
    rfl
  · rw [Replay.along_append]
    refine ⟨h.accurate, ?_, trivial⟩
    change op.Accurate (MapOp.replay recorder.ops start)
    rw [h.replays]
    apply hop

theorem Tracks.apply (h : recorder.Tracks start) (call : Edit K V) :
  (call.apply recorder).Tracks start
  := by
  cases call with
  | insert key value =>
    apply h.push (.put key (recorder.map.get key) value)
    rfl
  | remove key =>
    rw [Edit.apply, remove]
    split
    next gone hget => exact h.push (.delete key gone) hget
    next => apply h
  | clear =>
    rw [Edit.apply, clear]
    split
    · apply h
    · exact h.push (.reset HashMap.new) trivial

/-- A recorder tracks through a body. -/
theorem Tracks.foldl (h : recorder.Tracks start) (body : List (Edit K V)) :
  (body.foldl (fun recorder call => call.apply recorder) recorder).Tracks start
  := by
  induction body generalizing recorder with
  | nil => apply h
  | cons call rest ih => apply ih (h.apply call)

end TrackedHashMap

namespace HashMapCell

open List

variable [DecidableEq H]

/-! ### What a door wrote -/

/-- What a call told explains what it made of the cell: its ops make the new map of the old
one and are what it logged, and every watched key whose value changed was woken. -/
structure Written (slots : List H) (cell : HashMapCell hash V)
    (result : HashMapCell hash V × Told hash V) : Prop where
  replays : MapOp.replay result.2.recorded cell.items = result.1.items
  logged : result.1.log = result.2.recorded.foldl DeltaLog.record cell.log
  wakes : ∀ key, hash key ∈ slots → result.1.items.get key ≠ cell.items.get key →
    hash key ∈ result.2.woken

theorem written_nothing (slots : List H) (cell : HashMapCell hash V) :
  Written slots cell (cell, .nothing)
  where
  replays := rfl
  logged := rfl
  wakes := by
    intro key _ h
    contradiction

variable {cell : HashMapCell hash V} {slots : List H} {op : MapOp hash V} {key : K}
  {items target : HashMap hash V}

/-- A call that wrote to what another call left. -/
theorem Written.append {result more : HashMapCell hash V × Told hash V}
    (h : Written slots cell result) (hmore : Written slots result.1 more) :
  Written slots cell (more.1, result.2.append more.2)
  where
  replays := by
    rw [Told.append, MapOp.replay_append, h.replays, hmore.replays]
  logged := by
    rw [Told.append, foldl_append, ← h.logged, hmore.logged]
  wakes := by
    intro key hslot hchanged
    rw [Told.append, mem_append]
    by_cases hget : result.1.items.get key = cell.items.get key
    · right
      apply hmore.wakes key hslot
      rw [hget]
      apply hchanged
    · left
      apply h.wakes key hslot hget

theorem mem_noteNamed {order : List H} {hashed other : H} :
  other ∈ noteNamed order hashed ↔ other ∈ order ∨ other = hashed
  := by
  rw [noteNamed]
  split
  case isTrue h =>
    constructor
    · apply Or.inl
    · rintro (hother | rfl)
      · apply hother
      · apply h
  case isFalse => simp

theorem wakeLoop_cons {named : H} (h : op.names = some named) (slots order : List H)
    (ops : List (MapOp hash V)) :
  wakeLoop slots order (op :: ops) = wakeLoop slots (noteNamed order named) ops
  := by
  cases op with
  | put key was now =>
    rw [MapOp.names, Option.some_inj] at h
    rw [wakeLoop, h]
  | delete key gone =>
    rw [MapOp.names, Option.some_inj] at h
    rw [wakeLoop, h]
  | reset => simp [MapOp.names] at h

/-- The wake loop reaches every slot that was named before and every slot whose key the ops
change. -/
theorem mem_wakeLoop {order : List H} {ops : List (MapOp hash V)} (map : HashMap hash V)
    (hslot : hash key ∈ slots)
    (h : hash key ∈ order ∨ (MapOp.replay ops map).get key ≠ map.get key) :
  hash key ∈ wakeLoop slots order ops
  := by
  induction ops generalizing order map with
  | nil =>
    rcases h with h | h
    · rw [wakeLoop, mem_flatMap]
      use hash key, h
      simp [wake, hslot]
    · contradiction
  | cons op ops ih =>
    cases hnames : op.names with
    | none =>
      -- Only a reset names no key, and it stops the loop.
      cases op with
      | reset => apply hslot
      | put => simp [MapOp.names] at hnames
      | delete => simp [MapOp.names] at hnames
    | some named =>
      rw [wakeLoop_cons hnames]
      apply ih (op.apply map)
      rw [mem_noteNamed, or_assoc]
      by_cases hkey : hash key = named
      · right
        left
        apply hkey
      · rcases h with h | h
        · left
          apply h
        · right
          right
          rw [MapOp.get_apply hnames map hkey]
          apply h

/-- Recording ops over the map they make, and waking the keys they name, explains the
write. -/
theorem written_record {ops : List (MapOp hash V)} (h : MapOp.replay ops cell.items = items) :
  Written slots cell (cell.record items ops, ⟨ops, wakeFor slots ops⟩)
  where
  replays := h
  logged := rfl
  wakes := by
    intro key hslot hchanged
    apply mem_wakeLoop cell.items hslot
    right
    rw [h]
    apply hchanged

/-- Recording one op. -/
theorem written_op (slots : List H) (cell : HashMapCell hash V) (op : MapOp hash V) :
  Written slots cell (cell.record (op.apply cell.items) [op], ⟨[op], wakeFor slots [op]⟩)
  := written_record rfl

theorem wakeFor_put (slots : List H) (key : K) (was : Option V) (now : V) :
  wakeFor slots [(.put key was now : MapOp hash V)] = wake slots (hash key)
  := by
  simp [wakeFor, wakeLoop, noteNamed]

theorem wakeFor_delete (slots : List H) (key : K) (gone : V) :
  wakeFor slots [(.delete key gone : MapOp hash V)] = wake slots (hash key)
  := by
  simp [wakeFor, wakeLoop, noteNamed]

/-- An op of a batch is recorded as what it does to the map, with what the map held. -/
theorem applyMapOp_snd (map : HashMap hash V) (op : MapOp hash V) :
  MapOp.replay (applyMapOp map op).2.toList map = (applyMapOp map op).1
    ∧ Replay.Along MapOp.apply MapOp.Accurate (applyMapOp map op).2.toList map
  := by
  cases op with
  | put key was now => exact ⟨rfl, rfl, trivial⟩
  | reset target => exact ⟨rfl, trivial, trivial⟩
  | delete key claimed =>
    rw [applyMapOp]
    split
    next gone hget => exact ⟨rfl, hget, trivial⟩
    next => exact ⟨rfl, trivial⟩

/-- What a batch records makes its map, and says what it found. -/
theorem applyEach_snd (map : HashMap hash V) (ops : List (MapOp hash V)) :
  MapOp.replay (applyEach map ops).2 map = (applyEach map ops).1
    ∧ Replay.Along MapOp.apply MapOp.Accurate (applyEach map ops).2 map
  := by
  induction ops generalizing map with
  | nil => exact ⟨rfl, trivial⟩
  | cons op ops ih =>
    obtain ⟨hreplay, halong⟩ := applyMapOp_snd map op
    obtain ⟨ihreplay, ihalong⟩ := ih (applyMapOp map op).1
    constructor
    · rw [applyEach, MapOp.replay_append, hreplay]
      apply ihreplay
    · rw [applyEach, Replay.along_append]
      use halong
      change Replay.Along _ _ _ (MapOp.replay (applyMapOp map op).2.toList map)
      rw [hreplay]
      apply ihalong

/-! ### Reconciling -/

theorem mem_leaving :
  op ∈ leaving items target
    ↔ ∃ entry ∈ items.entries, hash entry.1 ∉ target.hashesOf ∧ op = .delete entry.1 entry.2
  := by
  rw [leaving, mem_filterMap]
  constructor
  · rintro ⟨entry, hentry, h⟩
    split at h
    case isTrue => contradiction
    case isFalse hheld =>
      rw [HashMap.containsKey, Table.contains_iff, ← HashMap.hashesOf_eq] at hheld
      rw [Option.some_inj] at h
      exact ⟨entry, hentry, hheld, h.symm⟩
  · rintro ⟨entry, hentry, hheld, rfl⟩
    use entry, hentry
    rw [if_neg]
    rw [HashMap.containsKey, Table.contains_iff, ← HashMap.hashesOf_eq]
    apply hheld

theorem mem_arriving [BEq V] :
  op ∈ arriving items target
    ↔ ∃ entry ∈ target.entries, op = .put entry.1 (items.get entry.1) entry.2
        ∧ ∀ was, items.get entry.1 = some was → (was != entry.2) = true
  := by
  rw [arriving, mem_filterMap]
  constructor
  · rintro ⟨entry, hentry, h⟩
    use entry, hentry
    cases hget : items.get entry.1 with
    | none =>
      rw [hget, Option.some_inj] at h
      simp [h]
    | some was =>
      rw [hget] at h
      simp only at h
      split at h
      case isTrue hne =>
        rw [Option.some_inj] at h
        use h.symm
        rintro _ ⟨⟩
        apply hne
      case isFalse => contradiction
  · rintro ⟨entry, hentry, rfl, hne⟩
    use entry, hentry
    cases hget : items.get entry.1 with
    | none => rfl
    | some was =>
      simp only
      rw [if_pos (hne was hget)]

/-- The ops of a reconciliation name different keys. -/
theorem reconcile_names [BEq V] (items target : HashMap hash V) :
  ∃ named : List H, (leaving items target ++ arriving items target).map MapOp.names
      = named.map some
    ∧ named.Nodup
  := by
  obtain ⟨gone, hgone, hgonesub⟩ := MapOp.exists_names
    (f := fun entry => if target.containsKey entry.1 then none
      else some (.delete entry.1 entry.2 : MapOp hash V))
    (by
      intro entry op h
      split at h
      · contradiction
      · rw [← Option.some.inj h, MapOp.names])
    items.entries
  obtain ⟨come, hcome, hcomesub⟩ := MapOp.exists_names
    (f := fun entry => match items.get entry.1 with
      | none => some (.put entry.1 none entry.2 : MapOp hash V)
      | some was => if was != entry.2 then some (.put entry.1 (some was) entry.2) else none)
    (by
      intro entry op h
      split at h
      · rw [← Option.some.inj h, MapOp.names]
      · split at h
        · rw [← Option.some.inj h, MapOp.names]
        · contradiction)
    target.entries
  rw [← HashMap.hashesOf_entries] at hgonesub hcomesub
  use gone ++ come
  constructor
  · rw [map_append, map_append, ← hgone, ← hcome]
    rfl
  · rw [nodup_append]
    refine ⟨items.nodup_hashesOf.sublist hgonesub, target.nodup_hashesOf.sublist hcomesub, ?_⟩
    rintro hashed hleft _ harrived rfl
    have hnamed : some hashed ∈ (leaving items target).map MapOp.names := by
      change _ ∈ (List.filterMap _ _).map _
      rw [hgone]
      apply List.mem_map_of_mem hleft
    obtain ⟨op, hop, hopnames⟩ := List.mem_map.mp hnamed
    obtain ⟨entry, _, hheld, rfl⟩ := mem_leaving.mp hop
    rw [MapOp.names, Option.some_inj] at hopnames
    apply hheld
    rw [hopnames]
    apply hcomesub.subset harrived

/-- Every op of a reconciliation says what the map holds. -/
theorem accurate_reconcile [BEq V] (h : op ∈ leaving items target ++ arriving items target) :
  op.Accurate items
  := by
  rcases mem_append.mp h with h | h
  · obtain ⟨entry, hentry, _, rfl⟩ := mem_leaving.mp h
    apply HashMap.get_of_mem hentry
  · obtain ⟨entry, _, rfl, _⟩ := mem_arriving.mp h
    rfl

/-- A reconciliation that records anything leaves a map that is not equal to the old one. -/
theorem reconcile_ne [BEq V] (h : op ∈ leaving items target ++ arriving items target) :
  items.eq (MapOp.replay (leaving items target ++ arriving items target) items) = false
  := by
  rw [Bool.eq_false_iff]
  intro heq
  obtain ⟨named, hnames, hnodup⟩ := reconcile_names items target
  obtain ⟨hlen, hsame⟩ := HashMap.eq_spec heq
  rcases mem_append.mp h with hop | hop
  · obtain ⟨entry, hentry, _, rfl⟩ := mem_leaving.mp hop
    -- The key has left.
    obtain ⟨before, hget⟩ := MapOp.get_replay_of_mem hnames hnodup items h rfl
    obtain ⟨theirs, htheirs, _⟩ := hsame entry.1 _ (HashMap.get_of_mem hentry)
    rw [hget, MapOp.apply, HashMap.get_remove, if_pos rfl] at htheirs
    contradiction
  · obtain ⟨entry, _, rfl, hne⟩ := mem_arriving.mp hop
    obtain ⟨before, hget⟩ := MapOp.get_replay_of_mem hnames hnodup items h rfl
    rw [MapOp.apply, HashMap.get_insert, if_pos rfl] at hget
    cases hwas : items.get entry.1 with
    | none =>
      -- The key has arrived, and the old map's keys are as many and all still held.
      apply HashMap.get_eq_none_iff.mp hwas
      apply HashMap.hashesOf_subset_of_len hlen
      · intro key mine hmine
        obtain ⟨theirs, htheirs, _⟩ := hsame key mine hmine
        exact ⟨theirs, htheirs⟩
      · rw [← not_not (a := _ ∈ _), ← HashMap.get_eq_none_iff, hget]
        simp
    | some was =>
      obtain ⟨theirs, htheirs, hbeq⟩ := hsame entry.1 was hwas
      rw [hget, Option.some_inj] at htheirs
      have := hne was hwas
      rw [htheirs, bne, hbeq] at this
      contradiction

/-! ### Each door -/

theorem written_insert (slots : List H) (cell : HashMapCell hash V) (key : K) (value : V) :
  Written slots cell (cell.insert slots key value)
  := by
  rw [insert, ← wakeFor_put slots key (cell.items.get key) value]
  exact written_op slots cell (.put key (cell.items.get key) value)

theorem written_remove (slots : List H) (cell : HashMapCell hash V) (key : K) :
  Written slots cell (cell.remove slots key)
  := by
  rw [remove]
  split
  next gone _ =>
    rw [← wakeFor_delete slots key gone]
    exact written_op slots cell (.delete key gone)
  next => apply written_nothing

theorem written_set (slots : List H) (cell : HashMapCell hash V) (value : HashMap hash V) :
  Written slots cell (cell.set slots value)
  := written_op slots cell (.reset value)

theorem written_clear (slots : List H) (cell : HashMapCell hash V) :
  Written slots cell (cell.clear slots)
  := by
  rw [clear]
  split
  · apply written_nothing
  · apply written_set

/-- What a body does to a recorder over the cell's map. -/
theorem tracks_edit (cell : HashMapCell hash V) (body : List (Edit K V)) :
  TrackedHashMap.Tracks cell.items
    (body.foldl (fun recorder call => call.apply recorder) ⟨cell.items, []⟩)
  := (TrackedHashMap.tracks_start cell.items).foldl body

theorem written_edit (slots : List H) (cell : HashMapCell hash V) (body : List (Edit K V)) :
  Written slots cell (cell.edit slots body)
  := by
  rw [edit]
  split
  · apply written_nothing
  · apply written_record (tracks_edit cell body).replays

theorem written_reconcileTo [BEq V] (slots : List H) (cell : HashMapCell hash V)
    (target : HashMap hash V) :
  Written slots cell (cell.reconcileTo slots target)
  := by
  rw [reconcileTo]
  split
  · apply written_nothing
  · apply written_record rfl

theorem written_applyOps (slots : List H) (cell : HashMapCell hash V)
    (ops : List (MapOp hash V)) :
  Written slots cell (cell.applyOps slots ops)
  := by
  obtain ⟨hreplay, _⟩ := applyEach_snd cell.items ops
  rw [applyOps, applyMapOps]
  simp only
  split
  next hnone =>
    rw [hnone] at hreplay
    rw [hnone]
    constructor
    · apply hreplay
    · rfl
    · intro key _ hchanged
      exfalso
      apply hchanged
      rw [← hreplay]
      rfl
  next => apply written_record hreplay

/-- An update explains what it wrote when what its closure did does. -/
theorem written_update {within : HashMapCell hash V → HashMapCell hash V × Told hash V} {after : V}
    (h : Written slots cell (within cell)) :
  Written slots cell (cell.update slots key within after)
  := by
  rw [update]
  split
  next before _ =>
    apply h.append
    rw [putBack, ← wakeFor_put slots key (some before) after]
    exact written_op slots (within cell).1 (.put key (some before) after)
  next => apply written_nothing

theorem written_getOrInsert {within : HashMapCell hash V → HashMapCell hash V × Told hash V}
    {made : V} (h : Written slots cell (within cell)) :
  Written slots cell (cell.getOrInsert slots key within made).2
  := by
  rw [getOrInsert]
  split
  · apply written_nothing
  · apply h.append
    apply written_insert

end HashMapCell

namespace Door

variable [DecidableEq H] [BEq V]

open HashMapCell

mutual

theorem written_call (slots : List H) (door : Door hash V) (cell : HashMapCell hash V) :
  Written slots cell (door.call slots cell)
  := by
  cases door with
  | insert key value => apply written_insert
  | remove key => apply written_remove
  | update key within after =>
    apply written_update
    apply written_callAll slots within cell
  | getOrInsert key within made =>
    apply written_getOrInsert
    apply written_callAll slots within cell
  | clear => apply written_clear
  | set value => apply written_set
  | edit body => apply written_edit
  | reconcileTo target => apply written_reconcileTo
  | applyMapOps ops => apply written_applyOps

theorem written_callAll (slots : List H) (doors : List (Door hash V))
    (cell : HashMapCell hash V) :
  Written slots cell (callAll slots doors cell)
  := by
  cases doors with
  | nil => apply written_nothing
  | cons door doors =>
    apply (written_call slots door cell).append
    apply written_callAll slots doors

end

mutual

/-- Whenever an update runs its closure, the closure leaves the cell holding, under the key
that is being updated, the value it was handed. -/
def Undisturbed (slots : List H) : Door hash V → HashMapCell hash V → Prop
  | .update key within _, cell =>
      match cell.items.get key with
      | some before =>
          AllUndisturbed slots within cell
            ∧ (callAll slots within cell).1.items.get key = some before
      | none => True
  | .getOrInsert key within _, cell =>
      match cell.items.get key with
      | some _ => True
      | none => AllUndisturbed slots within cell
  | _, _ => True

/-- `Undisturbed` of each of several calls, one after another. -/
def AllUndisturbed (slots : List H) : List (Door hash V) → HashMapCell hash V → Prop
  | [], _ => True
  | door :: doors, cell =>
      Undisturbed slots door cell ∧ AllUndisturbed slots doors (call slots door cell).1

end

end Door

namespace HashMapCell

variable [DecidableEq H]

/-! ### What the ops found -/

/-- Each op that was recorded says what the map held when it was applied. -/
def Told.Exact (told : Told hash V) (cell : HashMapCell hash V) : Prop :=
  Replay.Along MapOp.apply MapOp.Accurate told.recorded cell.items

theorem Told.exact_append {slots : List H} {cell : HashMapCell hash V}
    {result : HashMapCell hash V × Told hash V} (h : Written slots cell result)
    (more : Told hash V) :
  (result.2.append more).Exact cell ↔ result.2.Exact cell ∧ more.Exact result.1
  := by
  rw [Exact, Told.append, Replay.along_append]
  change _ ∧ Replay.Along _ _ _ (MapOp.replay _ _) ↔ _
  rw [h.replays]
  rfl

theorem exact_insert (slots : List H) (cell : HashMapCell hash V) (key : K) (value : V) :
  (cell.insert slots key value).2.Exact cell
  := ⟨rfl, trivial⟩

theorem exact_remove (slots : List H) (cell : HashMapCell hash V) (key : K) :
  (cell.remove slots key).2.Exact cell
  := by
  rw [remove]
  split
  next gone hget => exact ⟨hget, trivial⟩
  next => trivial

theorem exact_set (slots : List H) (cell : HashMapCell hash V) (value : HashMap hash V) :
  (cell.set slots value).2.Exact cell
  := ⟨trivial, trivial⟩

theorem exact_clear (slots : List H) (cell : HashMapCell hash V) :
  (cell.clear slots).2.Exact cell
  := by
  rw [clear]
  split
  · trivial
  · apply exact_set

theorem exact_edit (slots : List H) (cell : HashMapCell hash V) (body : List (Edit K V)) :
  (cell.edit slots body).2.Exact cell
  := by
  rw [edit]
  split
  · trivial
  · apply (tracks_edit cell body).accurate

theorem exact_reconcileTo [BEq V] (slots : List H) (cell : HashMapCell hash V)
    (target : HashMap hash V) :
  (cell.reconcileTo slots target).2.Exact cell
  := by
  rw [reconcileTo]
  split
  · trivial
  · obtain ⟨named, hnames, hnodup⟩ := reconcile_names cell.items target
    apply MapOp.along_of_names hnames hnodup
    apply fun op hop => accurate_reconcile hop

theorem exact_applyOps (slots : List H) (cell : HashMapCell hash V)
    (ops : List (MapOp hash V)) :
  (cell.applyOps slots ops).2.Exact cell
  := (applyEach_snd cell.items ops).2

/-- Putting a value back is exact when the key still holds what the closure was handed. -/
theorem exact_putBack_iff (slots : List H) (cell : HashMapCell hash V) (key : K)
    (before after : V) :
  (cell.putBack slots key before after).2.Exact cell ↔ cell.items.get key = some before
  := by
  change _ ∧ True ↔ _
  rw [and_true]
  rfl

end HashMapCell

namespace Door

variable [DecidableEq H] [BEq V]

open HashMapCell

mutual

theorem exact_call_iff (slots : List H) (door : Door hash V) (cell : HashMapCell hash V) :
  (door.call slots cell).2.Exact cell ↔ door.Undisturbed slots cell
  := by
  cases door with
  | insert key value => exact iff_of_true (exact_insert _ _ _ _) trivial
  | remove key => exact iff_of_true (exact_remove _ _ _) trivial
  | clear => exact iff_of_true (exact_clear _ _) trivial
  | set value => exact iff_of_true (exact_set _ _ _) trivial
  | edit body => exact iff_of_true (exact_edit _ _ _) trivial
  | reconcileTo target => exact iff_of_true (exact_reconcileTo _ _ _) trivial
  | applyMapOps ops => exact iff_of_true (exact_applyOps _ _ _) trivial
  | update key within after =>
    rw [call, HashMapCell.update, Undisturbed]
    cases hget : cell.items.get key with
    | none => exact iff_of_true trivial trivial
    | some before =>
      simp only
      rw [Told.exact_append (written_callAll slots within cell), exact_putBack_iff,
        exact_callAll_iff slots within cell]
  | getOrInsert key within made =>
    rw [call, HashMapCell.getOrInsert, Undisturbed]
    cases hget : cell.items.get key with
    | some held => exact iff_of_true trivial trivial
    | none =>
      simp only
      rw [Told.exact_append (written_callAll slots within cell),
        exact_callAll_iff slots within cell]
      apply and_iff_left
      apply exact_insert

theorem exact_callAll_iff (slots : List H) (doors : List (Door hash V))
    (cell : HashMapCell hash V) :
  (callAll slots doors cell).2.Exact cell ↔ AllUndisturbed slots doors cell
  := by
  cases doors with
  | nil => exact iff_of_true trivial trivial
  | cons door doors =>
    rw [callAll, AllUndisturbed]
    simp only
    rw [Told.exact_append (written_call slots door cell), exact_call_iff slots door cell,
      exact_callAll_iff slots doors (door.call slots cell).1]

end

/-! ### The contract of a door -/

/-- The log explains what a call of a door did, and the call woke the right keys. -/
structure Explained (slots : List H) (door : Door hash V) (cell : HashMapCell hash V) :
    Prop where
  /-- The ops it recorded make the new map of the old one, order and all. -/
  replays : MapOp.replay (door.call slots cell).2.recorded cell.items
    = (door.call slots cell).1.items
  /-- They are what it added to the log. -/
  logged : (door.call slots cell).1.log
    = (door.call slots cell).2.recorded.foldl DeltaLog.record cell.log
  /-- Each says what the map held when it was applied. -/
  exact : (door.call slots cell).2.Exact cell
  /-- Every watched key whose value changed has been woken. -/
  wakes : ∀ key, hash key ∈ slots →
    (door.call slots cell).1.items.get key ≠ cell.items.get key →
    hash key ∈ (door.call slots cell).2.woken
  /-- A reconciliation that leaves the map equal records nothing and wakes nothing. -/
  quiet : ∀ target, door = .reconcileTo target →
    cell.items.eq (door.call slots cell).1.items = true →
    (door.call slots cell).2 = .nothing

/-- A reconciliation that leaves the map equal is quiet. -/
theorem quiet_reconcileTo {slots : List H} {cell : HashMapCell hash V}
    {target : HashMap hash V}
    (h : cell.items.eq (cell.reconcileTo slots target).1.items = true) :
  (cell.reconcileTo slots target).2 = .nothing
  := by
  rw [HashMapCell.reconcileTo] at h ⊢
  split
  case isTrue => rfl
  case isFalse hops =>
    rw [if_neg hops] at h
    obtain ⟨op, hop⟩ := List.exists_mem_of_ne_nil _ hops
    have := reconcile_ne hop
    change cell.items.eq (MapOp.replay _ _) = true at h
    rw [h] at this
    contradiction

/-- **A call of a write door is explained exactly when no closure disturbs the update that
runs it.**  Whatever the door, the cell and what the closures do, the map is what the
recorded ops make of the old one, and the watched keys that changed are woken; only what an
update says its key held can be stale. -/
theorem door_explained_iff (slots : List H) (door : Door hash V) (cell : HashMapCell hash V) :
  Explained slots door cell ↔ door.Undisturbed slots cell
  := by
  have hwritten := written_call slots door cell
  rw [← exact_call_iff]
  constructor
  · intro h
    apply h.exact
  · intro h
    refine ⟨hwritten.replays, hwritten.logged, h, hwritten.wakes, ?_⟩
    rintro target rfl hsame
    apply quiet_reconcileTo hsame

/-- The closure of an update inserts another value under the key: the update records that
the key held what the closure was handed. -/
theorem disturbed_update_is_not_explained :
  ¬ Explained [1] (.update 1 [.insert 1 7] 9)
    (HashMapCell.of (HashMap.new.insert 1 5) : HashMapCell (fun key : ℕ => key) ℕ)
  := by
  intro h
  have hstale : (some 7 : Option ℕ) = some 5 := h.exact.2.1
  contradiction

end Door

end Vilan
