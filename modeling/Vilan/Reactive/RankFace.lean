import Vilan.Library.Fenwick
import Vilan.Reactive.SeqOp
import Vilan.Std.HashMap

/-!
# The positional face of a map

The order of a map's keys as positions: one slot for each key that ever arrived, a Fenwick
tree over the live slots, and the slot of each live key.  The position of a key is the
number of live slots before its own.  An arrival appends a slot, a removal leaves a dead
one, and the dead slots are compacted once they outnumber the live ones.

The face translates the ops of a map into ops of the sequence of its entries.
-/

namespace Vilan

open List Option Splice HashMap

variable {K H V U : Type*}

/-- The insertion order of a map's keys as positions. -/
structure RankFace (H : Type*) where
  /-- The key hash each slot was made for, live or dead, in arrival order. -/
  slots : List H
  alive : List Bool
  /-- A live key's slot. -/
  slotOf : Table H ℕ
  tree : List ℤ
  live : ℕ

namespace RankFace

/-- The slots with their flags. -/
def marks (face : RankFace H) : List (H × Bool) :=
  face.slots.zip face.alive

/-- The key of a live slot. -/
def liveKey (mark : H × Bool) : Option H :=
  if mark.2 then some mark.1 else none

/-- The number of live slots before `slot`; `none` on a panic. -/
def faceLiveBefore (face : RankFace H) (slot : ℕ) : Option ℕ :=
  (Fenwick.prefixFrom face.tree slot 0).map Int.toNat

variable [DecidableEq H]

/-- The face replaced by one over `keys`, all live. -/
def faceRebuild (keys : List H) : RankFace H where
  slots := keys
  alive := keys.map (fun _ => true)
  slotOf := keys.zipIdx.foldl (fun table entry => table.insert entry.1 entry.2) Table.empty
  tree := Fenwick.buildFrom (0 :: keys.map (fun _ => 1)) 1
  live := keys.length

/-- A face over `keys`, in order, all live. -/
def rankFace (keys : List H) : RankFace H :=
  faceRebuild keys

/-- The rank of a live key, or `none` when it holds no live slot; the outer `none` is a
panic. -/
def faceRank (face : RankFace H) (key : H) : Option (Option ℕ) :=
  match face.slotOf.get key with
  | some slot => (face.faceLiveBefore slot).map some
  | none => some none

/-- A key arrives at the end: one slot is appended, and its rank is answered. -/
def faceAppend (face : RankFace H) (key : H) : Option (RankFace H × ℕ) :=
  let slot := face.slots.length
  let rank := face.live
  let node := slot + 1
  let coveredFrom := node - Fenwick.lowbit node
  -- the new node covers itself, and the slots below it in its range
  match face.faceLiveBefore slot, face.faceLiveBefore coveredFrom with
  | some upTo, some before =>
      let below := upTo - before
      some ({
        slots := face.slots ++ [key]
        alive := face.alive ++ [true]
        slotOf := face.slotOf.insert key slot
        tree := face.tree ++ [((below + 1 : ℕ) : ℤ)]
        live := rank + 1 }, rank)
  | _, _ => none

/-- A live key leaves: its slot goes dead, and the rank it had is answered.  Dead slots are
compacted once they outnumber the live ones. -/
def faceRemove (face : RankFace H) (key : H) : Option (RankFace H × Option ℕ) :=
  match face.slotOf.get key with
  | none => some (face, none)
  | some slot =>
      match face.faceLiveBefore slot with
      | none => none
      | some rank =>
          let live := face.live - 1
          let removed : RankFace H := {
            slots := face.slots
            alive := face.alive.set slot false
            slotOf := face.slotOf.remove key
            tree := Fenwick.addFrom face.tree (slot + 1) (-1)
            live }
          let dead := removed.slots.length - live
          if dead > live ∧ dead > 32 then
            some (faceRebuild (removed.marks.filterMap liveKey), some rank)
          else some (removed, some rank)

/-- Translate one map op into the sequence op it is at its key's rank; `none` on a
panic. -/
def rankedOp (hash : K → H) (out : K → V → U) (face : RankFace H) :
    MapOp hash V → Option (RankFace H × List (SeqOp U))
  | .put key was now =>
      match face.faceRank (hash key) with
      | none => none
      | some (some rank) =>
          match was with
          | some before => some (face, [.setAt rank (out key before) (out key now)])
          -- the old element is not known, and the new one stands in for it
          | none => some (face, [.setAt rank (out key now) (out key now)])
      | some none =>
          match face.faceAppend (hash key) with
          | none => none
          | some (face, rank) => some (face, [.splice rank [] [out key now]])
  | .delete key gone =>
      match face.faceRemove (hash key) with
      | none => none
      | some (face, some rank) => some (face, [.splice rank [out key gone] []])
      | some (face, none) => some (face, [])
  | .reset map =>
      some (faceRebuild map.hashesOf, [.reset (map.elements out)])

/-- Translate the ops of a drain. -/
def rankedOps (hash : K → H) (out : K → V → U) (face : RankFace H) :
    List (MapOp hash V) → Option (RankFace H × List (SeqOp U))
  | [] => some (face, [])
  | op :: ops =>
      match rankedOp hash out face op with
      | none => none
      | some (face, produced) =>
          match rankedOps hash out face ops with
          | none => none
          | some (face, more) => some (face, produced ++ more)

/-! ### What a face orders -/

/-- The face orders `keys`: they are the keys of its live slots, in order, and the table and
the tree say which slots these are. -/
structure Orders (face : RankFace H) (keys : List H) : Prop where
  length_eq : face.alive.length = face.slots.length
  keys_eq : face.marks.filterMap liveKey = keys
  /-- The table maps the live keys, and no others, to their slots. -/
  slotOf_iff : ∀ key slot, face.slotOf.get key = some slot ↔ face.marks[slot]? = some (key, true)
  tree_represents : Fenwick.Represents face.tree (face.alive.map Fenwick.weight)
  live_eq : face.live = face.alive.count true

variable {face : RankFace H} {key : H}

omit [DecidableEq H] in
theorem slots_eq (h : face.alive.length = face.slots.length) :
  face.slots = face.marks.map Prod.fst
  := by
  rw [marks, map_fst_zip h.ge]

omit [DecidableEq H] in
theorem alive_eq (h : face.alive.length = face.slots.length) :
  face.alive = face.marks.map (fun mark => (liveKey mark).isSome)
  := by
  have hsnd : face.marks.map Prod.snd = face.alive := by
    rw [marks, map_snd_zip h.le]
  rw [← hsnd, map_inj_left]
  rintro ⟨key, _ | _⟩ - <;> rfl

omit [DecidableEq H] in
theorem length_marks (h : face.alive.length = face.slots.length) :
  face.marks.length = face.slots.length
  := by
  rw [marks, length_zip, h, min_self]

omit [DecidableEq H] in
/-- Setting the flag of a slot keeps its key. -/
theorem zip_set (h : face.alive.length = face.slots.length) {slot : ℕ} {flag : Bool}
    (hmark : face.marks[slot]? = some (key, flag)) (new : Bool) :
  face.slots.zip (face.alive.set slot new) = face.marks.set slot (key, new)
  := by
  have hkey : face.slots[slot]? = some key := by
    rw [slots_eq h, getElem?_map, hmark]
    rfl
  obtain ⟨hlt, rfl⟩ := List.getElem?_eq_some_iff.mp hkey
  symm
  apply zip_of_prod
  · rw [map_set, ← slots_eq h, set_getElem_self]
  · rw [map_set, marks, map_snd_zip h.le]

omit [DecidableEq H] in
/-- As many flags are set as keys are live. -/
theorem count_alive (h : face.alive.length = face.slots.length) :
  face.alive.count true = (face.marks.filterMap liveKey).length
  := by
  rw [alive_eq h]
  induction face.marks with
  | nil => rfl
  | cons mark rest ih =>
    obtain ⟨key, _ | _⟩ := mark
    · rw [map_cons, count_cons_of_ne (by simp [liveKey]), ih]
      rfl
    · have hlive : liveKey (key, true) = some key := rfl
      rw [filterMap_cons_some hlive, length_cons, map_cons, ← ih]
      apply count_cons_self

namespace Orders

variable {face : RankFace H} {keys : List H}

theorem live_eq_length (h : face.Orders keys) :
  face.live = keys.length
  := by
  rw [h.live_eq, count_alive h.length_eq, h.keys_eq]

variable {slot : ℕ} {key : H}

section

variable (h : face.Orders keys)
include h

/-- The walk answers how many live keys stand before a slot. -/
theorem faceLiveBefore_eq (hslot : slot ≤ face.slots.length) :
  face.faceLiveBefore slot = some (rank liveKey face.marks slot)
  := by
  have htree := h.tree_represents
  rw [alive_eq h.length_eq] at htree
  rw [faceLiveBefore, htree.prefixFrom_rank (by rwa [length_marks h.length_eq]),
    map_some, Int.toNat_natCast]

/-- A key the table holds is live, at the rank of its slot. -/
theorem getElem?_rank (hslot : face.slotOf.get key = some slot) :
  keys[rank liveKey face.marks slot]? = some key
  := by
  have hmark := (h.slotOf_iff key slot).mp hslot
  have hlive : liveKey (key, true) = some key := rfl
  have hget := filterMap_getElem?_rank liveKey hmark hlive
  rwa [h.keys_eq] at hget

theorem slot_lt (hslot : face.slotOf.get key = some slot) :
  slot < face.slots.length
  := by
  obtain ⟨hlt, -⟩ := List.getElem?_eq_some_iff.mp ((h.slotOf_iff key slot).mp hslot)
  rwa [length_marks h.length_eq] at hlt

/-- The table holds exactly the live keys. -/
theorem exists_slot_iff :
  (∃ slot, face.slotOf.get key = some slot) ↔ key ∈ keys
  := by
  constructor
  · rintro ⟨slot, hslot⟩
    apply mem_of_getElem? (h.getElem?_rank hslot)
  · intro hkey
    rw [← h.keys_eq, mem_filterMap] at hkey
    obtain ⟨⟨held, flag⟩, hmem, hlive⟩ := hkey
    obtain ⟨slot, hget⟩ := mem_iff_getElem?.mp hmem
    use slot
    rw [h.slotOf_iff, hget]
    cases flag with
    | false => simp [liveKey] at hlive
    | true =>
      simp only [liveKey, if_true, some_inj] at hlive
      rw [hlive]

theorem slotOf_eq_none (hkey : key ∉ keys) :
  face.slotOf.get key = none
  := by
  rw [← h.exists_slot_iff, ← ne_none_iff_exists', not_not] at hkey
  apply hkey

/-- Distinct keys stand at distinct ranks, therefore the rank of a slot is its key's
position. -/
theorem rank_eq (hnodup : keys.Nodup) {before after : List H}
    (hkeys : keys = before ++ key :: after) (hslot : face.slotOf.get key = some slot) :
  rank liveKey face.marks slot = before.length
  := by
  have hrank := h.getElem?_rank hslot
  have hplace : keys[before.length]? = some key := by
    rw [hkeys]
    simp
  have hlt := (List.getElem?_eq_some_iff.mp hrank).1
  apply (getElem?_inj hlt hnodup).mp (hrank.trans hplace.symm)

theorem faceRank_eq (hnodup : keys.Nodup) {before after : List H}
    (hkeys : keys = before ++ key :: after) :
  face.faceRank key = some (some before.length)
  := by
  obtain ⟨slot, hslot⟩ := h.exists_slot_iff.mpr
    (show key ∈ keys by rw [hkeys]; exact mem_append_right _ mem_cons_self)
  rw [faceRank, hslot]
  simp only
  rw [h.faceLiveBefore_eq (h.slot_lt hslot).le, h.rank_eq hnodup hkeys hslot, map_some]

theorem faceRank_of_not_mem (hkey : key ∉ keys) :
  face.faceRank key = some none
  := by
  rw [faceRank, h.slotOf_eq_none hkey]

end

end Orders

/-! ### Rebuilding -/

theorem marks_faceRebuild (keys : List H) :
  (faceRebuild keys).marks = keys.map (fun key => (key, true))
  := by
  simp only [marks, faceRebuild]
  induction keys with
  | nil => rfl
  | cons key keys ih => rw [map_cons, zip_cons_cons, ih, map_cons]

/-- A rebuilt face orders its keys. -/
theorem orders_faceRebuild {keys : List H} (h : keys.Nodup) :
  (faceRebuild keys).Orders keys
  := by
  refine ⟨length_map _, ?_, ?_, ?_, ?_⟩
  · rw [marks_faceRebuild, filterMap_map]
    apply filterMap_some
  · intro key slot
    rw [marks_faceRebuild, getElem?_map, map_eq_some_iff]
    simp only [faceRebuild]
    rw [Table.get_foldl_insert_zipIdx h]
    simp
  · have hweights : (keys.map (fun _ => true)).map Fenwick.weight = keys.map (fun _ => 1) := by
      rw [List.map_map]
      rfl
    simp only [faceRebuild]
    rw [hweights]
    apply Fenwick.represents_buildFrom
  · simp [faceRebuild]

/-! ### Arrivals -/

/-- An arriving key is ordered last, and its rank is the number of keys before it. -/
theorem Orders.faceAppend {keys : List H} (h : face.Orders keys) (hkey : key ∉ keys) :
  ∃ appended, face.faceAppend key = some (appended, keys.length)
    ∧ appended.Orders (keys ++ [key])
  := by
  have hbit := Fenwick.lowbit_pos (n := face.slots.length + 1) (by omega)
  have hlen := length_marks h.length_eq
  have hmono : rank liveKey face.marks
        (face.slots.length + 1 - Fenwick.lowbit (face.slots.length + 1))
      ≤ rank liveKey face.marks face.slots.length := by
    have hadd := rank_add liveKey face.marks
      (face.slots.length + 1 - Fenwick.lowbit (face.slots.length + 1))
      (Fenwick.lowbit (face.slots.length + 1) - 1)
    have := Fenwick.lowbit_le (face.slots.length + 1)
    rw [show face.slots.length + 1 - Fenwick.lowbit (face.slots.length + 1)
      + (Fenwick.lowbit (face.slots.length + 1) - 1) = face.slots.length by omega] at hadd
    omega
  rw [RankFace.faceAppend]
  simp only
  rw [h.faceLiveBefore_eq le_rfl, h.faceLiveBefore_eq (by omega), ← h.live_eq_length]
  refine ⟨_, rfl, ?_⟩
  have hmarks : (face.slots ++ [key]).zip (face.alive ++ [true]) = face.marks ++ [(key, true)] := by
    rw [zip_append h.length_eq.symm]
    rfl
  constructor
  · simp [h.length_eq]
  · simp only [marks]
    rw [hmarks, filterMap_append, h.keys_eq]
    rfl
  · intro other slot
    simp only [marks, Table.get_insert]
    rw [hmarks, ← hlen]
    by_cases heq : other = key
    · subst heq
      have hnone : ¬ face.marks[slot]? = some (other, true) := by
        rw [← h.slotOf_iff other slot, h.slotOf_eq_none hkey]
        simp
      rw [if_pos rfl, some_inj, getElem?_append]
      split
      case isTrue hlt =>
        constructor
        · omega
        · intro hmark
          contradiction
      case isFalse hge => simp [getElem?_singleton]; omega
    · rw [if_neg heq, h.slotOf_iff, getElem?_append]
      split
      case isTrue => rfl
      case isFalse hge =>
        rw [getElem?_eq_none (by omega)]
        simp [getElem?_singleton, Ne.symm heq]
  · have htree := h.tree_represents.append 1
    have hweight : Fenwick.prefixSum (face.alive.map Fenwick.weight) = fun pos =>
        (rank liveKey face.marks pos : ℤ) := by
      funext pos
      rw [alive_eq h.length_eq, Fenwick.prefixSum_weight]
    rw [hweight, length_map, h.length_eq] at htree
    have hnode : ((rank liveKey face.marks face.slots.length - rank liveKey face.marks
          (face.slots.length + 1 - Fenwick.lowbit (face.slots.length + 1)) + 1 : ℕ) : ℤ)
        = 1 + (rank liveKey face.marks face.slots.length : ℤ) - (rank liveKey face.marks
          (face.slots.length + 1 - Fenwick.lowbit (face.slots.length + 1)) : ℤ) := by
      omega
    simp only [map_append, map_singleton]
    rw [hnode]
    apply htree
  · simp [h.live_eq]

/-! ### Removals -/

/-- A live key leaves the order, and its rank is the number of keys before it. -/
theorem Orders.faceRemove {before after : List H} (h : face.Orders (before ++ key :: after))
    (hnodup : (before ++ key :: after).Nodup) :
  ∃ removed, face.faceRemove key = some (removed, some before.length)
    ∧ removed.Orders (before ++ after)
  := by
  obtain ⟨slot, hslot⟩ := h.exists_slot_iff.mpr
    (mem_append_right before (mem_cons_self (a := key) (l := after)))
  have hlt := h.slot_lt hslot
  have hlen := length_marks h.length_eq
  have hmark := (h.slotOf_iff key slot).mp hslot
  have hrank := h.rank_eq hnodup rfl hslot
  have hflag : face.alive[slot]? = some true := by
    rw [alive_eq h.length_eq, getElem?_map, hmark]
    rfl
  -- the face with the slot dead
  let removed : RankFace H := {
    slots := face.slots
    alive := face.alive.set slot false
    slotOf := face.slotOf.remove key
    tree := Fenwick.addFrom face.tree (slot + 1) (-1)
    live := face.live - 1 }
  have hmarks : removed.marks = face.marks.set slot (key, false) :=
    zip_set h.length_eq hmark false
  have hkeys : removed.marks.filterMap liveKey = before ++ after := by
    rw [hmarks, ← splice_one (by omega), filterMap_splice, h.keys_eq, block_one hmark, hrank]
    have hsplice := splice_append before [key] after []
    rw [append_nil, append_assoc, singleton_append] at hsplice
    apply hsplice
  have horders : removed.Orders (before ++ after) := by
    constructor
    · simp [removed, h.length_eq]
    · apply hkeys
    · intro other slot'
      have hother := h.slotOf_iff other slot'
      simp only [hmarks, removed, Table.get_remove, getElem?_set]
      by_cases heq : other = key
      · subst heq
        rw [if_pos rfl]
        split
        case isTrue => simp [hlen, hlt]
        case isFalse hne =>
          rw [← hother, hslot]
          simp [hne]
      · rw [if_neg heq, hother]
        split
        case isTrue hsame =>
          subst hsame
          rw [hmark]
          simp [hlen, hlt, Ne.symm heq]
        case isFalse => rfl
    · have hweight : (face.alive.map Fenwick.weight)[slot]? = some 1 := by
        rw [getElem?_map, hflag]
        rfl
      have hset := h.tree_represents.addFrom_set hweight 0
      simp only [removed]
      rw [map_set]
      apply hset
    · rw [count_alive (by simp [removed, h.length_eq]), hkeys]
      simp only [removed, h.live_eq_length, length_append, length_cons]
      omega
  rw [RankFace.faceRemove, hslot]
  simp only
  rw [h.faceLiveBefore_eq hlt.le, hrank]
  simp only
  split
  case isTrue =>
    refine ⟨_, rfl, ?_⟩
    rw [show (RankFace.marks _).filterMap liveKey = before ++ after from hkeys]
    apply orders_faceRebuild
    apply List.Nodup.sublist _ hnodup
    apply List.Sublist.append_left
    apply sublist_cons_self
  case isFalse => exact ⟨removed, rfl, horders⟩

/-! ### The derivative -/

variable {hash : K → H}

/-- What the translation of an op must be: the face orders the keys of the map after the
op, and the produced op takes the sequence of the entries to the sequence after it. -/
def Follows (out : K → V → U) (face : RankFace H) (map : HashMap hash V)
    (op : MapOp hash V) : Prop :=
  ∃ face' produced, rankedOp hash out face op = some (face', produced)
    ∧ face'.Orders (op.apply map).hashesOf
    ∧ SeqOp.Along SeqOp.InRange produced (map.elements out)
    ∧ SeqOp.replay produced (map.elements out) = (op.apply map).elements out

variable {map : HashMap hash V}

/-- An overwrite sets the element at its key's rank. -/
theorem follows_overwrite (out : K → V → U) (h : face.Orders map.hashesOf) {key : K}
    (hheld : hash key ∈ map.hashesOf) (was : Option V) (now : V) :
  Follows out face map (.put key was now)
  := by
  obtain ⟨before, held, after, hentries, hhash, hinsert, -⟩ := exists_split hheld
  have hkeys : map.hashesOf = before.map (fun entry => hash entry.1)
      ++ hash key :: after.map (fun entry => hash entry.1) := by
    rw [hashesOf_entries, hentries, map_append, map_cons, hhash]
  have hsame : (map.insert key now).hashesOf = map.hashesOf := by
    rw [hashesOf_entries, hinsert, map_append, map_cons, hkeys]
  have hrank := h.faceRank_eq map.nodup_hashesOf hkeys
  rw [length_map] at hrank
  have hlt : before.length < (map.elements out).length := by
    rw [HashMap.elements, length_map, hentries, length_append, length_cons]
    omega
  have hset : (map.elements out).set before.length (out key now)
      = (map.insert key now).elements out := by
    rw [HashMap.elements, HashMap.elements, hinsert, hentries]
    simp
  rw [Follows, rankedOp, hrank]
  cases was <;>
    exact ⟨face, _, rfl, by rwa [MapOp.apply, hsame], ⟨hlt, trivial⟩, hset⟩

/-- An arrival is spliced in at the end. -/
theorem follows_arrival (out : K → V → U) (h : face.Orders map.hashesOf) {key : K}
    (hnew : hash key ∉ map.hashesOf) (was : Option V) (now : V) :
  Follows out face map (.put key was now)
  := by
  obtain ⟨appended, happend, horders⟩ := h.faceAppend hnew
  have hinsert := entries_insert_of_not_mem hnew now
  have hlen : map.hashesOf.length = (map.elements out).length := by
    rw [hashesOf_entries, HashMap.elements, length_map, length_map]
  rw [Follows, rankedOp, h.faceRank_of_not_mem hnew]
  simp only
  rw [happend, hlen]
  refine ⟨appended, _, rfl, ?_, ⟨Nat.le_refl _, trivial⟩, ?_⟩
  · rwa [MapOp.apply, hashesOf_entries, hinsert, map_append,
      ← hashesOf_entries, map_singleton]
  · have hsplice := splice_append (map.elements out) [] [] [out key now]
    simp only [append_nil, length_nil] at hsplice
    simp only [SeqOp.replay_cons, SeqOp.replay_nil, SeqOp.apply, length_nil, MapOp.apply]
    rw [hsplice, HashMap.elements, HashMap.elements, hinsert, map_append, map_singleton]

/-- A removal is spliced out at its key's rank, and a key that is not held changes
nothing. -/
theorem follows_delete (out : K → V → U) (h : face.Orders map.hashesOf) (key : K) (gone : V) :
  Follows out face map (.delete key gone)
  := by
  rw [Follows, rankedOp]
  simp only [MapOp.apply]
  by_cases hheld : hash key ∈ map.hashesOf
  · obtain ⟨before, held, after, hentries, hhash, -, hremove⟩ := exists_split hheld
    have hkeys : map.hashesOf = before.map (fun entry => hash entry.1)
        ++ hash key :: after.map (fun entry => hash entry.1) := by
      rw [hashesOf_entries, hentries, map_append, map_cons, hhash]
    have hnodup := map.nodup_hashesOf
    rw [hkeys] at h hnodup
    obtain ⟨removed, hface, horders⟩ := h.faceRemove hnodup
    rw [hface]
    simp only
    refine ⟨removed, _, rfl, ?_, ⟨?_, trivial⟩, ?_⟩
    · rwa [hashesOf_entries, hremove, map_append]
    · rw [HashMap.elements, SeqOp.InRange, length_map, length_map, hentries,
        length_append, length_cons]
      simp
    · have hsplice := splice_append (before.map fun entry => out entry.1 entry.2)
        [out held.1 held.2] (after.map fun entry => out entry.1 entry.2) []
      simp only [SeqOp.replay_cons, SeqOp.replay_nil, SeqOp.apply, length_singleton]
      rw [HashMap.elements, HashMap.elements, hremove, hentries, map_append, map_append,
        map_cons, length_map]
      simpa using hsplice
  · have hentries := entries_remove_of_not_mem hheld
    rw [RankFace.faceRemove, h.slotOf_eq_none hheld]
    refine ⟨face, [], rfl, ?_, trivial, ?_⟩
    · rwa [hashesOf_entries, hentries, ← hashesOf_entries]
    · rw [HashMap.elements, HashMap.elements, hentries, SeqOp.replay_nil]

theorem rankedOp_follows (out : K → V → U) (h : face.Orders map.hashesOf) (op : MapOp hash V) :
  Follows out face map op
  := by
  cases op with
  | put key was now =>
    by_cases hheld : hash key ∈ map.hashesOf
    · apply follows_overwrite out h hheld
    · apply follows_arrival out h hheld
  | delete key gone => apply follows_delete out h
  | reset map' =>
    exact ⟨_, _, rfl, orders_faceRebuild map'.nodup_hashesOf, ⟨trivial, trivial⟩, rfl⟩

/-- The translation of a run of ops. -/
theorem rankedOps_follow (out : K → V → U) (h : face.Orders map.hashesOf)
    (ops : List (MapOp hash V)) :
  ∃ face' produced, rankedOps hash out face ops = some (face', produced)
    ∧ face'.Orders (MapOp.replay ops map).hashesOf
    ∧ SeqOp.Along SeqOp.InRange produced (map.elements out)
    ∧ SeqOp.replay produced (map.elements out) = (MapOp.replay ops map).elements out
  := by
  induction ops generalizing face map with
  | nil => exact ⟨face, [], rfl, h, trivial, rfl⟩
  | cons op ops ih =>
    obtain ⟨face₁, produced, hop, horders, hrange, hreplay⟩ := rankedOp_follows out h op
    obtain ⟨face₂, more, hops, horders', hrange', hreplay'⟩ := ih horders
    refine ⟨face₂, produced ++ more, ?_, horders', ?_, ?_⟩
    · rw [rankedOps, hop]
      simp only [hops]
    · rw [SeqOp.along_append, hreplay]
      exact ⟨hrange, hrange'⟩
    · rw [SeqOp.replay_append, hreplay, hreplay', MapOp.replay_cons]

/-- A key's rank is the number of live keys that arrived before it. -/
def RanksByArrival (face : RankFace H) (keys : List H) : Prop :=
  (∀ before key after, keys = before ++ key :: after →
      face.faceRank key = some (some before.length))
    ∧ ∀ key, key ∉ keys → face.faceRank key = some none

/-- After every run of ops of a map, the values and the entries that its positional faces
have produced are those of the map, in its order, and each face ranks the keys of the map
by their arrival. -/
theorem faces_follow (map : HashMap hash V) (ops : List (MapOp hash V)) :
  (∃ face produced,
    rankedOps hash (fun _ value => value) (rankFace map.hashesOf) ops = some (face, produced)
      ∧ SeqOp.Along SeqOp.InRange produced map.values
      ∧ SeqOp.replay produced map.values = (MapOp.replay ops map).values
      ∧ face.Orders (MapOp.replay ops map).hashesOf
      ∧ face.RanksByArrival (MapOp.replay ops map).hashesOf)
  ∧ ∃ face produced,
    rankedOps hash (fun key value => (key, value)) (rankFace map.hashesOf) ops
        = some (face, produced)
      ∧ SeqOp.Along SeqOp.InRange produced map.entries
      ∧ SeqOp.replay produced map.entries = (MapOp.replay ops map).entries
      ∧ face.Orders (MapOp.replay ops map).hashesOf
      ∧ face.RanksByArrival (MapOp.replay ops map).hashesOf
  := by
  have hseed : (rankFace map.hashesOf).Orders map.hashesOf :=
    orders_faceRebuild map.nodup_hashesOf
  have hranks : ∀ {face : RankFace H}, face.Orders (MapOp.replay ops map).hashesOf →
      face.RanksByArrival (MapOp.replay ops map).hashesOf := by
    intro face h
    exact ⟨fun before key after hkeys => h.faceRank_eq (nodup_hashesOf _) hkeys,
      fun key hkey => h.faceRank_of_not_mem hkey⟩
  constructor
  · obtain ⟨face, produced, hops, horders, hrange, hreplay⟩ :=
      rankedOps_follow (fun _ value => value) hseed ops
    simp only [elements_value] at hrange hreplay
    exact ⟨face, produced, hops, hrange, hreplay, horders, hranks horders⟩
  · obtain ⟨face, produced, hops, horders, hrange, hreplay⟩ :=
      rankedOps_follow (fun key value => (key, value)) hseed ops
    simp only [elements_entry] at hrange hreplay
    exact ⟨face, produced, hops, hrange, hreplay, horders, hranks horders⟩

end RankFace

end Vilan
