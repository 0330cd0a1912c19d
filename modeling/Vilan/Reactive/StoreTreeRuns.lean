import Vilan.Reactive.StoreTree

/-!
# What a store's slot tree holds

Subscriptions come and go in any order, and so do feeds.  A subscription's handle carries a
release hook that counts it down, and the last one at a path drops the slot.  Whatever was
done, the tree has a node for exactly the paths on which something stands, or above it.
-/

namespace Vilan

open List Function

variable {H R : Type*}

/-- A subscription that has not been disposed of: the handle, and what its release hook
captured. -/
structure StoreHandle (H : Type*) where
  id : ℕ
  path : List (StoreStep H)
  slot : StoreSlot

/-- A store's slot tree, the cells its slots count in, and the live handles. -/
structure SlotTree (H R : Type*) where
  root : StoreNode H R
  /-- The count cell of each slot, by the identity of its signal. -/
  watchers : ℕ → ℤ
  /-- The next identity. -/
  fresh : ℕ
  handles : List (StoreHandle H)

namespace SlotTree

/-- A new store's tree. -/
def new : SlotTree H R where
  root := StoreNode.empty
  watchers := fun _ => 0
  fresh := 0
  handles := []

/-- What becomes of a store's tree. -/
inductive Event (H R : Type*) where
  /-- A subscription at a path. -/
  | watch (path : List (StoreStep H))
  /-- A handle is disposed of. -/
  | dispose (id : ℕ)
  | attachFeed (path : List (StoreStep H)) (feed : StoreFeed R)
  | detachFeed (path : List (StoreStep H)) (id : ℕ)

variable [DecidableEq H]

/-- The slot at a path. -/
def slotAt (tree : SlotTree H R) (path : List (StoreStep H)) : Option StoreSlot :=
  (tree.root.standsAt path).me

/-- The feeds at a path. -/
def feedsAt (tree : SlotTree H R) (path : List (StoreStep H)) : List (StoreFeed R) :=
  (tree.root.standsAt path).feeds

/-- How many live subscriptions stand at a path. -/
def live (tree : SlotTree H R) (path : List (StoreStep H)) : ℕ :=
  tree.handles.countP fun handle => handle.path = path

/-- The slot at a path, made with the nodes on the way down if there is none. -/
def slotMade (tree : SlotTree H R) (path : List (StoreStep H)) : SlotTree H R × StoreSlot :=
  match tree.slotAt path with
  | some held => (tree, held)
  | none =>
      let made : StoreSlot := ⟨tree.fresh⟩
      ({ tree with
          root := tree.root.holdMade (fun held => { held with me := some made }) path
          watchers := Function.update tree.watchers made.signal 0
          fresh := tree.fresh + 1 },
        made)

/-- Count a subscription onto a slot, and chain its release onto its handle. -/
def counted (tree : SlotTree H R) (path : List (StoreStep H)) (slot : StoreSlot) :
    SlotTree H R :=
  { tree with
    watchers := Function.update tree.watchers slot.signal (tree.watchers slot.signal + 1)
    fresh := tree.fresh + 1
    handles := tree.handles ++ [⟨tree.fresh, path, slot⟩] }

/-- Subscribe at a path. -/
def watchAt (tree : SlotTree H R) (path : List (StoreStep H)) : SlotTree H R :=
  let made := tree.slotMade path
  made.1.counted path made.2

/-- The last subscription at a path left: drop its slot and every node left empty. -/
def prune (root : StoreNode H R) (path : List (StoreStep H)) : StoreNode H R :=
  root.release (fun held => { held with me := none }) path

/-- Dispose of a handle, once: count its subscription down. -/
def dispose (tree : SlotTree H R) (id : ℕ) : SlotTree H R :=
  match tree.handles.find? (fun handle => handle.id = id) with
  | none => tree
  | some handle =>
      let left := tree.watchers handle.slot.signal - 1
      { tree with
        root := if left = 0 then prune tree.root handle.path else tree.root
        watchers := Function.update tree.watchers handle.slot.signal left
        handles := tree.handles.filter fun other => other.id ≠ id }

/-- Stand a feed on the node at a path. -/
def attachFeed (tree : SlotTree H R) (path : List (StoreStep H)) (feed : StoreFeed R) :
    SlotTree H R :=
  { tree with
    root := tree.root.holdMade (fun held => { held with feeds := held.feeds ++ [feed] }) path }

/-- Take a feed off the node at a path. -/
def detachFeed (tree : SlotTree H R) (path : List (StoreStep H)) (id : ℕ) : SlotTree H R :=
  { tree with
    root := tree.root.release
      (fun held => { held with feeds := held.feeds.filter fun feed => feed.id ≠ id }) path }

/-- What an event makes of a tree. -/
def step (tree : SlotTree H R) : Event H R → SlotTree H R
  | .watch path => tree.watchAt path
  | .dispose id => tree.dispose id
  | .attachFeed path feed => tree.attachFeed path feed
  | .detachFeed path id => tree.detachFeed path id

/-- The tree a sequence of events leaves. -/
def run (events : List (Event H R)) : SlotTree H R :=
  events.foldl step new

/-- The feeds that have been attached and not detached, each with its path. -/
def standing (events : List (Event H R)) : List (List (StoreStep H) × StoreFeed R) :=
  events.foldl
    (fun standing event =>
      match event with
      | .attachFeed path feed => standing ++ [(path, feed)]
      | .detachFeed path id => standing.filter fun entry => ¬ (entry.1 = path ∧ entry.2.id = id)
      | _ => standing)
    []

/-- The feeds that stand at a path. -/
def standingAt (standing : List (List (StoreStep H) × StoreFeed R))
    (path : List (StoreStep H)) : List (StoreFeed R) :=
  (standing.filter fun entry => entry.1 = path).map Prod.snd

/-! ### The invariant -/

/-- What a tree holds, beside the feeds that should stand in it. -/
structure Exact (tree : SlotTree H R)
    (standing : List (List (StoreStep H) × StoreFeed R)) : Prop where
  tidy : tree.root.Tidy
  keys : tree.root.WellKeyed
  /-- Handles have identities of their own. -/
  ids : (tree.handles.map StoreHandle.id).Nodup
  minted : ∀ handle ∈ tree.handles, handle.id < tree.fresh
  /-- A handle's slot stands at its path. -/
  slots : ∀ handle ∈ tree.handles, tree.slotAt handle.path = some handle.slot
  /-- A slot counts the live subscriptions at its path, and there is one. -/
  counts : ∀ path slot, tree.slotAt path = some slot →
    tree.watchers slot.signal = tree.live path ∧ 0 < tree.live path
  /-- Slots have identities of their own. -/
  made : ∀ path slot, tree.slotAt path = some slot → slot.signal < tree.fresh
  distinct : ∀ path other slot, tree.slotAt path = some slot → tree.slotAt other = some slot →
    path = other
  feeds : ∀ path, tree.feedsAt path = standingAt standing path

theorem exact_new :
  Exact (new : SlotTree H R) []
  where
  tidy := StoreNode.tidy_empty
  keys := StoreNode.wellKeyed_empty
  ids := nodup_nil
  minted := by simp [new]
  slots := by simp [new]
  counts := by
    intro path slot h
    cases path with
    | nil => contradiction
    | cons => simp [slotAt, StoreNode.standsAt, new, StoreNode.Held.nothing] at h
  made := by
    intro path slot h
    cases path with
    | nil => contradiction
    | cons => simp [slotAt, StoreNode.standsAt, new, StoreNode.Held.nothing] at h
  distinct := by
    intro path other slot h
    cases path with
    | nil => contradiction
    | cons => simp [slotAt, StoreNode.standsAt, new, StoreNode.Held.nothing] at h
  feeds := by
    intro path
    cases path with
    | nil => rfl
    | cons => simp [feedsAt, StoreNode.standsAt, new, StoreNode.Held.nothing, standingAt]

variable {tree : SlotTree H R} {handle : StoreHandle H} {id : ℕ}

/-- A path with a live handle has a slot, and one with a slot has a live handle. -/
theorem Exact.isSome_slotAt_iff {standing : List (List (StoreStep H) × StoreFeed R)}
    (h : tree.Exact standing) (path : List (StoreStep H)) :
  (tree.slotAt path).isSome ↔ 0 < tree.live path
  := by
  constructor
  · intro hsome
    obtain ⟨slot, hslot⟩ := Option.isSome_iff_exists.mp hsome
    apply (h.counts path slot hslot).2
  · intro hlive
    obtain ⟨handle, hhandle, hpath⟩ := countP_pos_iff.mp hlive
    rw [decide_eq_true_eq] at hpath
    rw [← hpath, h.slots handle hhandle]
    rfl

/-! ### Subscribing -/

/-- What stands where, once the slot at a path has been made. -/
theorem standsAt_slotMade (tree : SlotTree H R) (path other : List (StoreStep H)) :
  (tree.slotMade path).1.root.standsAt other
    = if other = path then { tree.root.standsAt path with me := some (tree.slotMade path).2 }
      else tree.root.standsAt other
  := by
  rw [slotMade]
  split
  next slot hslot =>
    split
    case isTrue h =>
      subst h
      apply StoreNode.Held.ext
      · apply hslot
      · rfl
    case isFalse => rfl
  next => apply StoreNode.standsAt_holdMade

theorem slotAt_slotMade (tree : SlotTree H R) (path other : List (StoreStep H)) :
  (tree.slotMade path).1.slotAt other
    = if other = path then some (tree.slotMade path).2 else tree.slotAt other
  := by
  rw [slotAt, standsAt_slotMade]
  split
  · rfl
  · rfl

theorem feedsAt_slotMade (tree : SlotTree H R) (path other : List (StoreStep H)) :
  (tree.slotMade path).1.feedsAt other = tree.feedsAt other
  := by
  rw [feedsAt, standsAt_slotMade]
  split
  case isTrue h =>
    subst h
    rfl
  case isFalse => rfl

/-- A slot that has been made counts the live subscriptions at its path. -/
theorem Exact.watchers_slotMade {standing : List (List (StoreStep H) × StoreFeed R)}
    (h : tree.Exact standing) (path : List (StoreStep H)) :
  (tree.slotMade path).1.watchers (tree.slotMade path).2.signal = tree.live path
  := by
  rw [slotMade]
  split
  next slot hslot => apply (h.counts path slot hslot).1
  next hnone =>
    have hlive : tree.live path = 0 := by
      have := h.isSome_slotAt_iff path
      rw [hnone] at this
      simpa using this
    simp [hlive]

theorem handles_slotMade (tree : SlotTree H R) (path : List (StoreStep H)) :
  (tree.slotMade path).1.handles = tree.handles
  := by
  rw [slotMade]
  split
  · rfl
  · rfl

theorem fresh_le_slotMade (tree : SlotTree H R) (path : List (StoreStep H)) :
  tree.fresh ≤ (tree.slotMade path).1.fresh
  := by
  rw [slotMade]
  split
  · rfl
  · apply Nat.le_succ

/-- The slot that is made at a path is no other path's. -/
theorem Exact.signal_ne_slotMade {standing : List (List (StoreStep H) × StoreFeed R)}
    (h : tree.Exact standing) {path other : List (StoreStep H)} (hne : other ≠ path)
    {slot : StoreSlot} (hslot : tree.slotAt other = some slot) :
  slot.signal ≠ (tree.slotMade path).2.signal
  := by
  intro heq
  rw [slotMade] at heq
  split at heq
  next held hheld =>
    have : slot = held := by
      cases slot
      cases held
      rw [StoreSlot.mk.injEq]
      apply heq
    rw [← this] at hheld
    apply hne (h.distinct _ _ _ hslot hheld)
  next =>
    have := h.made _ _ hslot
    simp only at heq
    omega

theorem Exact.watchers_slotMade_of_ne {standing : List (List (StoreStep H) × StoreFeed R)}
    (h : tree.Exact standing) (path : List (StoreStep H)) {other : List (StoreStep H)}
    {slot : StoreSlot} (hslot : tree.slotAt other = some slot) :
  (tree.slotMade path).1.watchers slot.signal = tree.watchers slot.signal
  := by
  rw [slotMade]
  split
  · rfl
  · have := h.made _ _ hslot
    apply update_of_ne
    simp only
    omega

theorem Exact.made_slotMade {standing : List (List (StoreStep H) × StoreFeed R)}
    (h : tree.Exact standing) (path : List (StoreStep H)) :
  (tree.slotMade path).2.signal < (tree.slotMade path).1.fresh
  := by
  rw [slotMade]
  split
  next slot hslot => apply h.made _ _ hslot
  next => apply Nat.lt_succ_self

theorem Exact.tidy_slotMade {standing : List (List (StoreStep H) × StoreFeed R)}
    (h : tree.Exact standing) (path : List (StoreStep H)) :
  (tree.slotMade path).1.root.Tidy
  := by
  rw [slotMade]
  split
  · apply h.tidy
  · apply h.tidy.holdMade
    intro held hnothing
    have := congrArg StoreNode.Held.me hnothing
    contradiction

theorem Exact.keys_slotMade {standing : List (List (StoreStep H) × StoreFeed R)}
    (h : tree.Exact standing) (path : List (StoreStep H)) :
  (tree.slotMade path).1.root.WellKeyed
  := by
  rw [slotMade]
  split
  · apply h.keys
  · apply h.keys.holdMade

theorem slotAt_watchAt (tree : SlotTree H R) (path other : List (StoreStep H)) :
  (tree.watchAt path).slotAt other
    = if other = path then some (tree.slotMade path).2 else tree.slotAt other
  := slotAt_slotMade tree path other

theorem live_watchAt (tree : SlotTree H R) (path other : List (StoreStep H)) :
  (tree.watchAt path).live other = tree.live other + if other = path then 1 else 0
  := by
  rw [live, watchAt, counted, handles_slotMade, countP_append, countP_singleton, live]
  by_cases h : other = path
  · simp [h]
  · simp [h, Ne.symm h]

/-- A subscription keeps the invariant. -/
theorem Exact.watchAt {standing : List (List (StoreStep H) × StoreFeed R)} (h : tree.Exact standing)
    (path : List (StoreStep H)) :
  (tree.watchAt path).Exact standing
  where
  tidy := h.tidy_slotMade path
  keys := h.keys_slotMade path
  ids := by
    rw [SlotTree.watchAt, counted, handles_slotMade, map_append, nodup_append]
    refine ⟨h.ids, nodup_singleton _, ?_⟩
    rintro id hid other hother rfl
    obtain ⟨handle, hhandle, rfl⟩ := List.mem_map.mp hid
    have := h.minted handle hhandle
    have := fresh_le_slotMade tree path
    rw [map_singleton, mem_singleton] at hother
    simp only at hother
    omega
  minted := by
    intro handle hhandle
    rw [SlotTree.watchAt, counted, handles_slotMade] at hhandle
    rcases mem_append.mp hhandle with hhandle | hhandle
    · have := h.minted handle hhandle
      have := fresh_le_slotMade tree path
      simp only [SlotTree.watchAt, counted]
      omega
    · rw [mem_singleton] at hhandle
      subst hhandle
      apply Nat.lt_succ_self
  slots := by
    intro handle hhandle
    rw [slotAt_watchAt]
    rw [SlotTree.watchAt, counted, handles_slotMade] at hhandle
    rcases mem_append.mp hhandle with hhandle | hhandle
    · have hslot := h.slots handle hhandle
      split
      case isTrue heq =>
        rw [heq] at hslot
        rw [slotMade, hslot]
      case isFalse => apply hslot
    · rw [mem_singleton] at hhandle
      subst hhandle
      rw [if_pos rfl]
  counts := by
    intro other slot hslot
    rw [slotAt_watchAt] at hslot
    rw [live_watchAt]
    split at hslot
    case isTrue heq =>
      rw [Option.some_inj] at hslot
      subst heq hslot
      rw [if_pos rfl]
      constructor
      · simp [SlotTree.watchAt, counted, h.watchers_slotMade]
      · omega
    case isFalse hne =>
      rw [if_neg hne, add_zero]
      obtain ⟨hcount, hlive⟩ := h.counts other slot hslot
      refine ⟨?_, hlive⟩
      rw [← hcount, ← h.watchers_slotMade_of_ne path hslot]
      apply update_of_ne (h.signal_ne_slotMade hne hslot)
  made := by
    intro other slot hslot
    rw [slotAt_watchAt] at hslot
    have hle := fresh_le_slotMade tree path
    have hlt := h.made_slotMade path
    simp only [SlotTree.watchAt, counted]
    split at hslot
    case isTrue =>
      rw [← Option.some.inj hslot]
      omega
    case isFalse =>
      have := h.made other slot hslot
      omega
  distinct := by
    intro first second slot hfirst hsecond
    rw [slotAt_watchAt] at hfirst hsecond
    split at hfirst
    case isTrue heq =>
      split at hsecond
      case isTrue heq' => rw [heq, heq']
      case isFalse hne =>
        exfalso
        apply h.signal_ne_slotMade hne hsecond
        rw [Option.some.inj hfirst]
    case isFalse hne =>
      split at hsecond
      case isTrue =>
        exfalso
        apply h.signal_ne_slotMade hne hfirst
        rw [Option.some.inj hsecond]
      case isFalse => apply h.distinct _ _ _ hfirst hsecond
  feeds := by
    intro other
    change (tree.slotMade path).1.feedsAt other = _
    rw [feedsAt_slotMade]
    apply h.feeds

/-! ### Disposing -/

theorem slotAt_prune (root : StoreNode H R) (path other : List (StoreStep H)) :
  ((prune root path).standsAt other).me
    = if other = path then none else (root.standsAt other).me
  := by
  rw [prune, StoreNode.standsAt_release (by rfl)]
  split
  · rfl
  · rfl

theorem feedsAt_prune (root : StoreNode H R) (path other : List (StoreStep H)) :
  ((prune root path).standsAt other).feeds = (root.standsAt other).feeds
  := by
  rw [prune, StoreNode.standsAt_release (by rfl)]
  split
  case isTrue h => rw [h]
  case isFalse => rfl

/-- A disposal takes one of the live subscriptions at its handle's path. -/
theorem Exact.live_filter {standing : List (List (StoreStep H) × StoreFeed R)}
    (h : tree.Exact standing) (hhandle : handle ∈ tree.handles) (path : List (StoreStep H)) :
  tree.live path
    = (tree.handles.filter fun other => other.id ≠ handle.id).countP
        (fun other => other.path = path)
      + if path = handle.path then 1 else 0
  := by
  obtain ⟨before, after, hsplit⟩ := append_of_mem hhandle
  have hids := h.ids
  rw [hsplit, map_append, map_cons, nodup_append, nodup_cons] at hids
  have hbefore : ∀ other ∈ before, decide (other.id ≠ handle.id) = true := by
    intro other hother
    rw [decide_eq_true_eq]
    apply hids.2.2 _ (List.mem_map_of_mem hother) _ mem_cons_self
  have hafter : ∀ other ∈ after, decide (other.id ≠ handle.id) = true := by
    intro other hother
    rw [decide_eq_true_eq]
    intro heq
    apply hids.2.1.1
    rw [← heq]
    apply List.mem_map_of_mem hother
  rw [live, hsplit, filter_append, filter_cons, if_neg (by simp), filter_eq_self.mpr hbefore,
    filter_eq_self.mpr hafter, countP_append, countP_append, countP_cons]
  by_cases hpath : path = handle.path
  · simp [hpath, Nat.add_assoc]
  · simp [hpath, Ne.symm hpath]

/-- What is left of a tree when a live handle is disposed of. -/
theorem dispose_eq (h : tree.handles.find? (fun handle => handle.id = id) = some handle) :
  tree.dispose id =
    { tree with
      root := if tree.watchers handle.slot.signal - 1 = 0 then prune tree.root handle.path
        else tree.root
      watchers := Function.update tree.watchers handle.slot.signal
        (tree.watchers handle.slot.signal - 1)
      handles := tree.handles.filter fun other => other.id ≠ handle.id }
  := by
  have hid := find?_some h
  rw [decide_eq_true_eq] at hid
  subst hid
  rw [dispose, h]

theorem watchers_dispose (h : tree.handles.find? (fun handle => handle.id = id) = some handle) :
  (tree.dispose id).watchers
    = Function.update tree.watchers handle.slot.signal (tree.watchers handle.slot.signal - 1)
  := by
  rw [dispose_eq h]

/-- A disposal leaves the feeds. -/
theorem feedsAt_dispose (tree : SlotTree H R) (id : ℕ) (path : List (StoreStep H)) :
  (tree.dispose id).feedsAt path = tree.feedsAt path
  := by
  cases hfind : tree.handles.find? (fun handle => handle.id = id) with
  | none => rw [dispose, hfind]
  | some handle =>
    rw [dispose_eq hfind, feedsAt]
    simp only
    split
    · apply feedsAt_prune
    · rfl

/-- The slot at the path of a disposed handle goes when the handle was its last; every other
slot stays. -/
theorem Exact.slotAt_dispose {standing : List (List (StoreStep H) × StoreFeed R)}
    (h : tree.Exact standing)
    (hfind : tree.handles.find? (fun handle => handle.id = id) = some handle)
    (path : List (StoreStep H)) :
  (tree.dispose id).slotAt path
    = if path = handle.path ∧ tree.live path = 1 then none else tree.slotAt path
  := by
  have hhandle := mem_of_find?_eq_some hfind
  have hcount := (h.counts _ _ (h.slots handle hhandle)).1
  rw [dispose_eq hfind, slotAt]
  simp only
  rw [hcount]
  split
  case isTrue hlast =>
    rw [slotAt_prune]
    by_cases hpath : path = handle.path
    · subst hpath
      have : tree.live handle.path = 1 := by omega
      rw [if_pos rfl, if_pos ⟨rfl, this⟩]
    · rw [if_neg hpath, if_neg (by simp [hpath])]
      rfl
  case isFalse hmore =>
    rw [if_neg]
    · rfl
    · rintro ⟨rfl, hone⟩
      rw [hone] at hmore
      simp at hmore

theorem Exact.live_dispose {standing : List (List (StoreStep H) × StoreFeed R)}
    (h : tree.Exact standing)
    (hfind : tree.handles.find? (fun handle => handle.id = id) = some handle)
    (path : List (StoreStep H)) :
  tree.live path = (tree.dispose id).live path + if path = handle.path then 1 else 0
  := by
  rw [h.live_filter (mem_of_find?_eq_some hfind), dispose_eq hfind]
  rfl

/-- A disposal keeps the invariant. -/
theorem Exact.dispose {standing : List (List (StoreStep H) × StoreFeed R)} (h : tree.Exact standing)
    (id : ℕ) :
  (tree.dispose id).Exact standing
  := by
  cases hfind : tree.handles.find? (fun handle => handle.id = id) with
  | none =>
    rw [SlotTree.dispose, hfind]
    apply h
  | some handle =>
    have hhandle := mem_of_find?_eq_some hfind
    have hslotAt := h.slotAt_dispose hfind
    -- A slot that is left was there before.
    have hleft : ∀ path slot, (tree.dispose id).slotAt path = some slot →
        tree.slotAt path = some slot ∧ ¬ (path = handle.path ∧ tree.live path = 1) := by
      intro path slot hslot
      rw [hslotAt] at hslot
      split at hslot
      · contradiction
      · exact ⟨hslot, ‹_›⟩
    refine ⟨?_, ?_, ?_, ?_, ?_, ?_, ?_, ?_, ?_⟩
    · rw [dispose_eq hfind]
      simp only
      split
      · apply h.tidy.release
      · apply h.tidy
    · rw [dispose_eq hfind]
      simp only
      split
      · apply h.keys.release
      · apply h.keys
    · rw [dispose_eq hfind]
      apply List.Nodup.sublist _ h.ids
      apply List.Sublist.map
      apply filter_sublist
    · intro other hother
      rw [dispose_eq hfind] at hother ⊢
      apply h.minted other (mem_of_mem_filter hother)
    · intro other hother
      have hlive : 0 < (tree.dispose id).live other.path := by
        apply countP_pos_iff.mpr
        exact ⟨other, hother, by simp⟩
      have hcount := h.live_dispose hfind other.path
      rw [hslotAt, if_neg]
      · rw [dispose_eq hfind] at hother
        apply h.slots other (mem_of_mem_filter hother)
      · rintro ⟨hpath, hone⟩
        rw [if_pos hpath] at hcount
        omega
    · intro path slot hslot
      obtain ⟨hwas, hnot⟩ := hleft path slot hslot
      obtain ⟨hcount, hlive⟩ := h.counts path slot hwas
      have hdrop := h.live_dispose hfind path
      rw [watchers_dispose hfind]
      by_cases hpath : path = handle.path
      · have hslots := h.slots handle hhandle
        rw [← hpath, hwas, Option.some_inj] at hslots
        rw [if_pos hpath] at hdrop
        rw [← hslots, update_self, hcount]
        constructor
        · omega
        · by_contra hzero
          apply hnot
          refine ⟨hpath, ?_⟩
          omega
      · rw [if_neg hpath, add_zero] at hdrop
        have hne : slot.signal ≠ handle.slot.signal := by
          intro heq
          apply hpath
          apply h.distinct _ _ _ hwas
          rw [h.slots handle hhandle]
          cases slot
          cases hs : handle.slot
          rw [hs] at heq
          rw [Option.some_inj, StoreSlot.mk.injEq]
          apply heq.symm
        rw [update_of_ne hne, hcount, ← hdrop]
        exact ⟨rfl, hlive⟩
    · intro path slot hslot
      have := h.made path slot (hleft path slot hslot).1
      rw [dispose_eq hfind]
      apply this
    · intro path other slot hpath hother
      apply h.distinct path other slot (hleft path slot hpath).1 (hleft other slot hother).1
    · intro path
      rw [feedsAt_dispose]
      apply h.feeds

/-! ### Feeds -/

theorem slotAt_attachFeed (tree : SlotTree H R) (path other : List (StoreStep H))
    (feed : StoreFeed R) :
  (tree.attachFeed path feed).slotAt other = tree.slotAt other
  := by
  rw [slotAt, attachFeed]
  simp only
  rw [StoreNode.standsAt_holdMade]
  split
  case isTrue h => rw [h, slotAt]
  case isFalse => rfl

theorem feedsAt_attachFeed (tree : SlotTree H R) (path other : List (StoreStep H))
    (feed : StoreFeed R) :
  (tree.attachFeed path feed).feedsAt other
    = tree.feedsAt other ++ if other = path then [feed] else []
  := by
  rw [feedsAt, attachFeed]
  simp only
  rw [StoreNode.standsAt_holdMade]
  split
  case isTrue h => rw [h, feedsAt]
  case isFalse => rw [append_nil, feedsAt]

theorem slotAt_detachFeed (tree : SlotTree H R) (path other : List (StoreStep H)) (id : ℕ) :
  (tree.detachFeed path id).slotAt other = tree.slotAt other
  := by
  rw [slotAt, detachFeed]
  simp only
  rw [StoreNode.standsAt_release (by rfl)]
  split
  case isTrue h => rw [h, slotAt]
  case isFalse => rfl

theorem feedsAt_detachFeed (tree : SlotTree H R) (path other : List (StoreStep H)) (id : ℕ) :
  (tree.detachFeed path id).feedsAt other
    = if other = path then (tree.feedsAt other).filter (fun feed => feed.id ≠ id)
      else tree.feedsAt other
  := by
  rw [feedsAt, detachFeed]
  simp only
  rw [StoreNode.standsAt_release (by rfl)]
  split
  case isTrue h => rw [h, feedsAt]
  case isFalse => rfl

/-- An event that leaves the slots, the handles and their cells keeps the invariant when the
feeds are those that should stand. -/
theorem Exact.of_slotAt {after : SlotTree H R}
    {standing standing' : List (List (StoreStep H) × StoreFeed R)} (h : tree.Exact standing)
    (htidy : after.root.Tidy) (hkeys : after.root.WellKeyed)
    (hhandles : after.handles = tree.handles) (hwatchers : after.watchers = tree.watchers)
    (hfresh : after.fresh = tree.fresh) (hslotAt : ∀ path, after.slotAt path = tree.slotAt path)
    (hfeeds : ∀ path, after.feedsAt path = standingAt standing' path) :
  after.Exact standing'
  where
  tidy := htidy
  keys := hkeys
  ids := by
    rw [hhandles]
    apply h.ids
  minted := by
    rw [hhandles, hfresh]
    apply h.minted
  slots := by
    rw [hhandles]
    intro handle hhandle
    rw [hslotAt]
    apply h.slots handle hhandle
  counts := by
    intro path slot hslot
    rw [hslotAt] at hslot
    rw [hwatchers, live, hhandles]
    apply h.counts path slot hslot
  made := by
    intro path slot hslot
    rw [hslotAt] at hslot
    rw [hfresh]
    apply h.made path slot hslot
  distinct := by
    intro path other slot hpath hother
    rw [hslotAt] at hpath hother
    apply h.distinct path other slot hpath hother
  feeds := hfeeds

theorem Exact.attachFeed {standing : List (List (StoreStep H) × StoreFeed R)}
    (h : tree.Exact standing) (path : List (StoreStep H)) (feed : StoreFeed R) :
  (tree.attachFeed path feed).Exact (standing ++ [(path, feed)])
  := by
  refine h.of_slotAt ?_ (h.keys.holdMade _ _) rfl rfl rfl
    (fun other => slotAt_attachFeed tree path other feed) ?_
  · apply h.tidy.holdMade
    intro held hnothing
    have := congrArg StoreNode.Held.feeds hnothing
    simp [StoreNode.Held.nothing] at this
  · intro other
    rw [feedsAt_attachFeed, h.feeds, standingAt, standingAt, filter_append,
      map_append, filter_singleton]
    by_cases heq : other = path
    · simp [heq]
    · simp [heq, Ne.symm heq]

theorem Exact.detachFeed {standing : List (List (StoreStep H) × StoreFeed R)}
    (h : tree.Exact standing) (path : List (StoreStep H)) (id : ℕ) :
  (tree.detachFeed path id).Exact
    (standing.filter fun entry => ¬ (entry.1 = path ∧ entry.2.id = id))
  := by
  refine h.of_slotAt ?_ (h.keys.release _ _) rfl rfl rfl
    (fun other => slotAt_detachFeed tree path other id) ?_
  · apply h.tidy.release
  · intro other
    rw [feedsAt_detachFeed, h.feeds, standingAt, standingAt, List.filter_filter]
    split
    case isTrue heq =>
      subst heq
      rw [List.filter_map, List.filter_filter]
      congr 1
      apply filter_congr
      intro entry _
      by_cases hentry : entry.1 = other
      · simp [hentry]
      · simp [hentry]
    case isFalse hne =>
      congr 1
      apply filter_congr
      intro entry _
      by_cases hentry : entry.1 = other
      · simp [hentry, hne]
      · simp [hentry]

/-! ### Every run -/

theorem run_append (events : List (Event H R)) (event : Event H R) :
  run (events ++ [event]) = (run events).step event
  := by
  rw [run, foldl_append]
  rfl

/-- After any events, a tree is exact for the feeds that they left standing. -/
theorem exact_run (events : List (Event H R)) :
  (run events).Exact (standing events)
  := by
  induction events using List.reverseRecOn with
  | nil => apply exact_new
  | append_singleton events event ih =>
    rw [run_append, standing, foldl_append]
    cases event with
    | watch path => apply ih.watchAt
    | dispose id => apply ih.dispose
    | attachFeed path feed => apply ih.attachFeed
    | detachFeed path id => apply ih.detachFeed

/-- **The slot tree is exactly what is watched.**  After any sequence of subscriptions,
disposals, attached and detached feeds: the nodes are the root and those on the way to a live
subscription or feed; a path has a slot exactly while subscriptions stand there, and the slot
counts them; the feeds at a path are those attached there and not detached; every live handle
finds its slot at its path; and a further disposal leaves the slots of the other handles, and
every feed. -/
theorem slot_tree_is_exact (events : List (Event H R)) :
  (∀ path, ((run events).root.nodeAt path).isSome
      ↔ path = [] ∨ ∃ more, path <+: more
          ∧ (0 < (run events).live more ∨ standingAt (standing events) more ≠ []))
    ∧ (∀ path, ((run events).slotAt path).isSome ↔ 0 < (run events).live path)
    ∧ (∀ path slot, (run events).slotAt path = some slot →
        (run events).watchers slot.signal = (run events).live path)
    ∧ (∀ path, (run events).feedsAt path = standingAt (standing events) path)
    ∧ (∀ handle ∈ (run events).handles, (run events).slotAt handle.path = some handle.slot)
    ∧ ∀ id, (∀ handle ∈ ((run events).dispose id).handles,
          ((run events).dispose id).slotAt handle.path = (run events).slotAt handle.path
          ∧ (run events).slotAt handle.path = some handle.slot)
        ∧ ∀ path, ((run events).dispose id).feedsAt path = (run events).feedsAt path
  := by
  have h := exact_run events
  refine ⟨?_, h.isSome_slotAt_iff, fun path slot hslot => (h.counts path slot hslot).1,
    h.feeds, h.slots, ?_⟩
  · intro path
    have hnode : ((run events).root.nodeAt path).isSome = ((run events).root.heldAt path).isSome := by
      rw [StoreNode.heldAt, Option.isSome_map]
    rw [hnode, h.tidy.isSome_heldAt_iff]
    have hstands : ∀ more, (run events).root.standsAt more ≠ .nothing
        ↔ 0 < (run events).live more ∨ standingAt (standing events) more ≠ [] := by
      intro more
      rw [← h.isSome_slotAt_iff, ← h.feeds, slotAt, feedsAt, ne_eq, StoreNode.Held.ext_iff,
        not_and_or, Option.isSome_iff_ne_none]
      rfl
    simp only [hstands]
  · intro id
    constructor
    · intro handle hhandle
      have hafter := (h.dispose id).slots handle hhandle
      have hmem : handle ∈ (run events).handles := by
        rw [dispose] at hhandle
        split at hhandle
        · apply hhandle
        · apply mem_of_mem_filter hhandle
      rw [hafter, h.slots handle hmem]
      exact ⟨rfl, rfl⟩
    · intro path
      apply feedsAt_dispose

end SlotTree

end Vilan
