import Vilan.Library.Table

/-!
# The slot tree of a store

A store keeps one tree of what is watched.  A path of the store leads down it, by fields and
by keys; the node at a path holds the slot of the subscriptions that stand there and the
feeds of the open flows.  Nodes are made on the way down to a subscription or a feed, and go
with the last one at or below them.
-/

namespace Vilan

open List Option

/-- One step of a store's path: a field, by its child index, or a key, by its hash. -/
inductive StoreStep (H : Type*) where
  | field (index : ℕ)
  | key (hash : H)
  deriving DecidableEq

/-- One watched path's notification, by the identity of its cell.  The count of its
subscriptions is a cell of its own, `SlotTree.watchers`. -/
structure StoreSlot where
  signal : ℕ
  deriving DecidableEq

/-- One open flow's recorder: its identity, and the closures that record. -/
structure StoreFeed (R : Type*) where
  id : ℕ
  recorder : R

/-- One level of a slot tree: the slot at this path, a child for each field and each key
below it that anything watches, and the feeds that stand on it. -/
inductive StoreNode (H R : Type*) where
  | mk (me : Option StoreSlot) (kids : List (Option (StoreNode H R)))
      (keyed : List (H × StoreNode H R)) (feeds : List (StoreFeed R))

namespace StoreNode

variable {H R : Type*}

/-- The slot at this path. -/
def me : StoreNode H R → Option StoreSlot
  | mk me _ _ _ => me

/-- The children by field. -/
def kids : StoreNode H R → List (Option (StoreNode H R))
  | mk _ kids _ _ => kids

/-- The children by key. -/
def keyed : StoreNode H R → List (H × StoreNode H R)
  | mk _ _ keyed _ => keyed

/-- The feeds at this path. -/
def feeds : StoreNode H R → List (StoreFeed R)
  | mk _ _ _ feeds => feeds

/-- A node that holds nothing. -/
def empty : StoreNode H R :=
  mk none [] [] []

/-- What stands at a node itself: its slot and its feeds. -/
@[ext]
structure Held (R : Type*) where
  me : Option StoreSlot
  feeds : List (StoreFeed R)

/-- Nothing. -/
def Held.nothing : Held R where
  me := none
  feeds := []

/-- What stands at a node itself. -/
def held (node : StoreNode H R) : Held R where
  me := node.me
  feeds := node.feeds

/-- Change what stands at a node itself. -/
def hold (node : StoreNode H R) (held : Held R) : StoreNode H R :=
  mk held.me node.kids node.keyed held.feeds

/-- A list of children with `kid` at `index`, grown to it. -/
def growTo (index : ℕ) (kids : List (Option (StoreNode H R))) :
    List (Option (StoreNode H R)) :=
  kids ++ List.replicate (index + 1 - kids.length) none

variable [DecidableEq H]

/-! ### One step down -/

/-- The child one step below, if anything watches there. -/
def stepKid (node : StoreNode H R) : StoreStep H → Option (StoreNode H R)
  | .field index => node.kids[index]?.join
  | .key hash => Table.find hash node.keyed

/-- Put a child one step below. -/
def setKid (node : StoreNode H R) (step : StoreStep H) (kid : StoreNode H R) :
    StoreNode H R :=
  match step with
  | .field index => mk node.me ((growTo index node.kids).set index (some kid)) node.keyed node.feeds
  | .key hash => mk node.me node.kids (Table.write hash kid node.keyed) node.feeds

/-- Drop the child one step below. -/
def dropKid (node : StoreNode H R) : StoreStep H → StoreNode H R
  | .field index => mk node.me (node.kids.set index none) node.keyed node.feeds
  | .key hash =>
      mk node.me node.kids (node.keyed.filter fun entry => entry.1 ≠ hash) node.feeds

/-- The child one step below, made if nothing watches there. -/
def kidMade (node : StoreNode H R) (step : StoreStep H) : StoreNode H R :=
  (node.stepKid step).getD empty

omit [DecidableEq H] in
/-- Whether a node holds nothing: no slot, no feed and no child. -/
def isEmpty (node : StoreNode H R) : Bool :=
  node.me.isNone && node.feeds.isEmpty && node.kids.all Option.isNone && node.keyed.isEmpty

/-! ### Along a path -/

/-- The node at a path, if there is one. -/
def nodeAt : StoreNode H R → List (StoreStep H) → Option (StoreNode H R)
  | node, [] => some node
  | node, step :: path => (node.stepKid step).bind fun kid => nodeAt kid path

/-- Make the node at a path, with every node on the way down, and change what stands
there. -/
def holdMade (f : Held R → Held R) : StoreNode H R → List (StoreStep H) → StoreNode H R
  | node, [] => node.hold (f node.held)
  | node, step :: path => node.setKid step (holdMade f (node.kidMade step) path)

/-- Change what stands at the node at a path, and drop it and every node above it that this
leaves empty; nothing when there is no such node.  The source collects the nodes on the path,
changes the last and drops empty ones from the bottom up, until one is not empty: a node
whose child stays is not empty. -/
def holdPruned (f : Held R → Held R) :
    StoreNode H R → List (StoreStep H) → Option (StoreNode H R)
  | node, [] => some (node.hold (f node.held))
  | node, step :: path =>
      match node.stepKid step with
      | none => none
      | some kid =>
          match holdPruned f kid path with
          | none => none
          | some kid =>
              if kid.isEmpty then some (node.dropKid step) else some (node.setKid step kid)

/-- What stands at a path; `none` when there is no node. -/
def heldAt (node : StoreNode H R) (path : List (StoreStep H)) : Option (Held R) :=
  (node.nodeAt path).map held

/-! ### Lookups -/

@[simp]
theorem stepKid_hold (node : StoreNode H R) (held : Held R) (step : StoreStep H) :
  (node.hold held).stepKid step = node.stepKid step
  := by
  cases step with
  | field => rfl
  | key => rfl

@[simp]
theorem stepKid_empty (step : StoreStep H) :
  (empty : StoreNode H R).stepKid step = none
  := by
  cases step with
  | field => rfl
  | key => rfl

@[simp]
theorem held_setKid (node : StoreNode H R) (step : StoreStep H) (kid : StoreNode H R) :
  (node.setKid step kid).held = node.held
  := by
  cases step with
  | field => rfl
  | key => rfl

@[simp]
theorem held_dropKid (node : StoreNode H R) (step : StoreStep H) :
  (node.dropKid step).held = node.held
  := by
  cases step with
  | field => rfl
  | key => rfl

omit [DecidableEq H] in
/-- Growing a list of children adds none. -/
theorem getElem?_growTo (index at' : ℕ) (kids : List (Option (StoreNode H R))) :
  (growTo index kids)[at']?.join = kids[at']?.join
  := by
  rw [growTo, getElem?_append]
  split
  case isTrue => rfl
  case isFalse h =>
    rw [getElem?_replicate, getElem?_eq_none (not_lt.mp h)]
    split
    · rfl
    · rfl

omit [DecidableEq H] in
theorem lt_length_growTo (index : ℕ) (kids : List (Option (StoreNode H R))) :
  index < (growTo index kids).length
  := by
  rw [growTo, length_append, length_replicate]
  omega

theorem stepKid_setKid (node : StoreNode H R) (step other : StoreStep H)
    (kid : StoreNode H R) :
  (node.setKid step kid).stepKid other = if other = step then some kid else node.stepKid other
  := by
  cases step with
  | field index =>
    cases other with
    | key => simp [setKid, stepKid, keyed]
    | field at' =>
      change ((growTo index node.kids).set index (some kid))[at']?.join = _
      rw [getElem?_set]
      by_cases h : index = at'
      · subst h
        rw [if_pos rfl, if_pos (lt_length_growTo index node.kids), if_pos rfl]
        rfl
      · rw [if_neg h, if_neg (by simpa using Ne.symm h), getElem?_growTo]
        rfl
  | key hash =>
    cases other with
    | field => simp [setKid, stepKid, kids]
    | key at' =>
      change Table.find at' (Table.write hash kid node.keyed) = _
      rw [Table.find_write]
      simp only [StoreStep.key.injEq]
      rfl

theorem stepKid_dropKid (node : StoreNode H R) (step other : StoreStep H) :
  (node.dropKid step).stepKid other = if other = step then none else node.stepKid other
  := by
  cases step with
  | field index =>
    cases other with
    | key => simp [dropKid, stepKid, keyed]
    | field at' =>
      change (node.kids.set index none)[at']?.join = _
      rw [getElem?_set]
      by_cases h : index = at'
      · subst h
        rw [if_pos rfl, if_pos rfl]
        split
        · rfl
        · rfl
      · rw [if_neg h, if_neg (by simpa using Ne.symm h)]
        rfl
  | key hash =>
    cases other with
    | field => simp [dropKid, stepKid, kids]
    | key at' =>
      change Table.find at' (node.keyed.filter _) = _
      rw [Table.find_filter]
      simp only [StoreStep.key.injEq]
      rfl

variable {node after : StoreNode H R} {path other : List (StoreStep H)} {step : StoreStep H}
  {f : Held R → Held R}

/-- A node is empty when nothing stands at it and it has no child. -/
theorem isEmpty_iff :
  node.isEmpty = true ↔ node.held = .nothing ∧ ∀ step, node.stepKid step = none
  := by
  obtain ⟨me, kids, keyed, feeds⟩ := node
  simp only [isEmpty, Bool.and_eq_true, isNone_iff_eq_none, List.isEmpty_iff, List.all_eq_true]
  constructor
  · rintro ⟨⟨⟨hme, hfeeds⟩, hkids⟩, hkeyed⟩
    constructor
    · apply Held.ext
      · apply hme
      · apply hfeeds
    · intro step
      cases step with
      | field index =>
        change kids[index]?.join = none
        cases hget : kids[index]? with
        | none => rfl
        | some kid => apply hkids kid (mem_of_getElem? hget)
      | key hash =>
        change Table.find hash keyed = none
        change keyed = [] at hkeyed
        rw [hkeyed]
        rfl
  · rintro ⟨hheld, hkids⟩
    refine ⟨⟨⟨congrArg Held.me hheld, congrArg Held.feeds hheld⟩, ?_⟩, ?_⟩
    · intro kid hkid
      change kid ∈ kids at hkid
      obtain ⟨index, hget⟩ := mem_iff_getElem?.mp hkid
      have := hkids (.field index)
      change kids[index]?.join = none at this
      rw [hget] at this
      apply this
    · change keyed = []
      cases keyed with
      | nil => rfl
      | cons entry rest =>
        have := hkids (.key entry.1)
        simp [stepKid, StoreNode.keyed, Table.find] at this

/-! ### What stands where -/

@[simp]
theorem heldAt_nil (node : StoreNode H R) :
  node.heldAt [] = some node.held
  := rfl

theorem heldAt_cons (node : StoreNode H R) (step : StoreStep H) (path : List (StoreStep H)) :
  node.heldAt (step :: path) = (node.stepKid step).bind fun kid => kid.heldAt path
  := by
  rw [heldAt, nodeAt]
  cases node.stepKid step with
  | none => rfl
  | some kid => rfl

@[simp]
theorem heldAt_empty_cons (step : StoreStep H) (path : List (StoreStep H)) :
  (empty : StoreNode H R).heldAt (step :: path) = none
  := by
  rw [heldAt_cons, stepKid_empty]
  rfl

/-- The nodes above a node are there. -/
theorem isSome_heldAt_of_prefix {more : List (StoreStep H)} (hpre : path <+: more)
    (h : (node.heldAt more).isSome) :
  (node.heldAt path).isSome
  := by
  induction path generalizing node more with
  | nil => rfl
  | cons step path ih =>
    obtain ⟨rest, rfl⟩ := hpre
    rw [cons_append, heldAt_cons] at h
    rw [heldAt_cons]
    cases hkid : node.stepKid step with
    | none =>
      rw [hkid] at h
      contradiction
    | some kid =>
      rw [hkid] at h
      apply ih ⟨rest, rfl⟩ h

/-- The child that is made where there was none has nothing below it. -/
theorem heldAt_kidMade (node : StoreNode H R) (step : StoreStep H) (h : path ≠ []) :
  (node.kidMade step).heldAt path = node.heldAt (step :: path)
  := by
  rw [heldAt_cons, kidMade]
  cases hkid : node.stepKid step with
  | some => rfl
  | none =>
    cases path with
    | nil => contradiction
    | cons => apply heldAt_empty_cons

/-- Making the node at a path changes what stands there, makes the nodes above it, and leaves
everything else. -/
theorem heldAt_holdMade (f : Held R → Held R) (node : StoreNode H R)
    (path other : List (StoreStep H)) :
  (node.holdMade f path).heldAt other
    = if other = path then some (f ((node.heldAt path).getD .nothing))
      else if other <+: path then some ((node.heldAt other).getD .nothing)
      else node.heldAt other
  := by
  induction path generalizing node other with
  | nil =>
    cases other with
    | nil => rfl
    | cons step other =>
      rw [holdMade, heldAt_cons, stepKid_hold, ← heldAt_cons, if_neg (by simp), if_neg (by simp)]
  | cons step path ih =>
    cases other with
    | nil => simp [holdMade]
    | cons first other =>
      rw [holdMade, heldAt_cons, stepKid_setKid]
      by_cases hfirst : first = step
      · subst hfirst
        rw [if_pos rfl, bind_some, ih]
        simp only [List.cons.injEq, true_and, cons_prefix_cons]
        have hmade : ∀ more, ((node.kidMade first).heldAt more).getD .nothing
            = (node.heldAt (first :: more)).getD .nothing := by
          intro more
          cases more with
          | nil =>
            rw [heldAt_cons, kidMade]
            cases node.stepKid first with
            | none => rfl
            | some => rfl
          | cons => rw [heldAt_kidMade _ _ (by simp)]
        split
        · rw [hmade]
        · split
          · rw [hmade]
          · rw [heldAt_kidMade]
            rintro rfl
            have : ¬ [] <+: path := by assumption
            apply this nil_prefix
      · rw [if_neg hfirst, ← heldAt_cons]
        simp [hfirst]

/-- What stands at a path once a change has been made at another. -/
def changedAt (f : Held R → Held R) (node : StoreNode H R) (path other : List (StoreStep H)) :
    Option (Held R) :=
  if other = path then (node.heldAt other).map f else node.heldAt other

theorem changedAt_cons (f : Held R → Held R) {kid : StoreNode H R}
    (hkid : node.stepKid step = some kid) (path other : List (StoreStep H)) :
  node.changedAt f (step :: path) (step :: other) = kid.changedAt f path other
  := by
  rw [changedAt, changedAt, heldAt_cons, hkid]
  simp

theorem changedAt_of_ne (f : Held R → Held R) (node : StoreNode H R) {first : StoreStep H}
    (h : first ≠ step) (path other : List (StoreStep H)) :
  node.changedAt f (step :: path) (first :: other) = node.heldAt (first :: other)
  := if_neg (by simp [h])

/-- A pruned change is made wherever there is a node. -/
theorem holdPruned_isSome :
  (node.holdPruned f path).isSome = (node.heldAt path).isSome
  := by
  induction path generalizing node with
  | nil => rfl
  | cons step path ih =>
    rw [holdPruned, heldAt_cons]
    cases hkid : node.stepKid step with
    | none => rfl
    | some kid =>
      simp only [bind_some]
      rw [← ih]
      cases kid.holdPruned f path with
      | none => rfl
      | some changed =>
        simp only
        split
        · rfl
        · rfl

/-- A pruned change at a child: the child that is left is put back, or dropped when it holds
nothing. -/
theorem holdPruned_cons (h : node.holdPruned f (step :: path) = some after) :
  ∃ kid changed, node.stepKid step = some kid ∧ kid.holdPruned f path = some changed
    ∧ after = if changed.isEmpty then node.dropKid step else node.setKid step changed
  := by
  rw [holdPruned] at h
  split at h
  next => contradiction
  next kid hkid =>
    split at h
    next => contradiction
    next changed hchanged =>
      refine ⟨kid, changed, hkid, hchanged, ?_⟩
      split at h
      · rw [if_pos ‹_›]
        exact (Option.some.inj h).symm
      · rw [if_neg ‹_›]
        exact (Option.some.inj h).symm

/-- What stands below a child that a pruned change has put back or dropped. -/
theorem heldAt_pruned_kid {changed : StoreNode H R} {first : StoreStep H} :
  (if changed.isEmpty then node.dropKid step else node.setKid step changed).heldAt
      (first :: other)
    = if first = step then (if changed.isEmpty then none else changed.heldAt other)
      else node.heldAt (first :: other)
  := by
  rw [heldAt_cons, heldAt_cons]
  by_cases hempty : changed.isEmpty
  · rw [if_pos hempty, if_pos hempty, stepKid_dropKid]
    split
    · rfl
    · rfl
  · rw [if_neg hempty, if_neg hempty, stepKid_setKid]
    split
    · rfl
    · rfl

/-- What is left after a pruned change is what the change made of it. -/
theorem heldAt_holdPruned {held : Held R} (h : node.holdPruned f path = some after)
    (hheld : after.heldAt other = some held) :
  node.changedAt f path other = some held
  := by
  induction path generalizing node after other with
  | nil =>
    rw [holdPruned, some_inj] at h
    subst h
    cases other with
    | nil => apply hheld
    | cons first other =>
      rw [heldAt_cons, stepKid_hold, ← heldAt_cons] at hheld
      apply hheld
  | cons step path ih =>
    obtain ⟨kid, changed, hkid, hchanged, rfl⟩ := holdPruned_cons h
    cases other with
    | nil =>
      rw [changedAt, if_neg (by simp), ← hheld]
      split
      · simp
      · simp
    | cons first other =>
      rw [heldAt_pruned_kid] at hheld
      split at hheld
      case isFalse hne =>
        rw [changedAt_of_ne f node hne]
        apply hheld
      case isTrue heq =>
        subst heq
        split at hheld
        · contradiction
        · rw [changedAt_cons f hkid]
          apply ih hchanged hheld

/-- A pruned change keeps what still stands somewhere. -/
theorem heldAt_holdPruned_of_ne {held : Held R} (h : node.holdPruned f path = some after)
    (hheld : node.changedAt f path other = some held) (hne : held ≠ .nothing) :
  after.heldAt other = some held
  := by
  induction path generalizing node after other with
  | nil =>
    rw [holdPruned, some_inj] at h
    subst h
    cases other with
    | nil => apply hheld
    | cons first other =>
      rw [heldAt_cons, stepKid_hold, ← heldAt_cons]
      apply hheld
  | cons step path ih =>
    obtain ⟨kid, changed, hkid, hchanged, rfl⟩ := holdPruned_cons h
    cases other with
    | nil =>
      rw [changedAt, if_neg (by simp)] at hheld
      rw [← hheld]
      split
      · simp
      · simp
    | cons first other =>
      rw [heldAt_pruned_kid]
      by_cases heq : first = step
      · subst heq
        rw [changedAt_cons f hkid] at hheld
        have hbelow := ih hchanged hheld
        rw [if_pos rfl, if_neg]
        · apply hbelow
        · intro hempty
          obtain ⟨hnothing, hkids⟩ := isEmpty_iff.mp hempty
          cases other with
          | nil =>
            rw [heldAt_nil, hnothing, some_inj] at hbelow
            apply hne hbelow.symm
          | cons =>
            rw [heldAt_cons, hkids] at hbelow
            contradiction
      · rw [if_neg heq]
        rw [changedAt_of_ne f node heq] at hheld
        apply hheld

/-! ### Tidy trees -/

/-- Something stands at or below every node but the root. -/
def Tidy (node : StoreNode H R) : Prop :=
  ∀ path, path ≠ [] → (node.heldAt path).isSome →
    ∃ more held, path <+: more ∧ node.heldAt more = some held ∧ held ≠ .nothing

theorem tidy_empty :
  (empty : StoreNode H R).Tidy
  := by
  intro path hpath h
  cases path with
  | nil => contradiction
  | cons =>
    rw [heldAt_empty_cons] at h
    contradiction

theorem Tidy.kid {kid : StoreNode H R} (h : node.Tidy) (hkid : node.stepKid step = some kid) :
  kid.Tidy
  := by
  intro path hpath hsome
  obtain ⟨more, held, hpre, hheld, hne⟩ := h (step :: path) (by simp)
    (by rw [heldAt_cons, hkid]; apply hsome)
  obtain ⟨rest, rfl⟩ := hpre
  refine ⟨path ++ rest, held, ⟨rest, rfl⟩, ?_, hne⟩
  rw [cons_append, heldAt_cons, hkid] at hheld
  apply hheld

/-- Something stands at or below a node that is not empty, in a tidy tree. -/
theorem Tidy.exists_held (h : node.Tidy) (hempty : ¬ node.isEmpty) :
  ∃ more held, node.heldAt more = some held ∧ held ≠ .nothing
  := by
  by_cases hheld : node.held = .nothing
  · have hkid : ∃ step, node.stepKid step ≠ none := by
      by_contra hnone
      push Not at hnone
      apply hempty
      rw [isEmpty_iff]
      exact ⟨hheld, hnone⟩
    obtain ⟨step, hkid⟩ := hkid
    obtain ⟨kid, hkid⟩ := ne_none_iff_exists'.mp hkid
    obtain ⟨more, held, _, hmore, hne⟩ := h [step] (by simp) (by rw [heldAt_cons, hkid]; rfl)
    exact ⟨more, held, hmore, hne⟩
  · exact ⟨[], node.held, rfl, hheld⟩

/-- Making a node where something then stands keeps a tree tidy. -/
theorem Tidy.holdMade (h : node.Tidy) (path : List (StoreStep H)) (hf : ∀ held, f held ≠ .nothing) :
  (node.holdMade f path).Tidy
  := by
  intro other hother hsome
  by_cases hpre : other <+: path
  · refine ⟨path, f ((node.heldAt path).getD .nothing), hpre, ?_, hf _⟩
    rw [heldAt_holdMade, if_pos rfl]
  · have hne : other ≠ path := by
      rintro rfl
      apply hpre prefix_rfl
    rw [heldAt_holdMade, if_neg hne, if_neg hpre] at hsome
    obtain ⟨more, held, hmore, hheld, hstands⟩ := h other hother hsome
    refine ⟨more, ?_⟩
    rw [heldAt_holdMade, hheld]
    split
    case isTrue => exact ⟨_, hmore, rfl, hf _⟩
    case isFalse =>
      split
      case isTrue => exact ⟨held, hmore, rfl, hstands⟩
      case isFalse => exact ⟨held, hmore, rfl, hstands⟩

/-- A pruned change keeps a tree tidy. -/
theorem Tidy.holdPruned (h : node.Tidy) (hafter : node.holdPruned f path = some after) :
  after.Tidy
  := by
  induction path generalizing node after with
  | nil =>
    rw [StoreNode.holdPruned, some_inj] at hafter
    subst hafter
    intro other hother hsome
    cases other with
    | nil => contradiction
    | cons first other =>
      rw [heldAt_cons, stepKid_hold, ← heldAt_cons] at hsome
      obtain ⟨more, held, hpre, hheld, hne⟩ := h _ hother hsome
      obtain ⟨rest, rfl⟩ := hpre
      refine ⟨_, held, ⟨rest, rfl⟩, ?_, hne⟩
      rw [cons_append, heldAt_cons, stepKid_hold, ← heldAt_cons]
      apply hheld
  | cons step path ih =>
    obtain ⟨kid, changed, hkid, hchanged, rfl⟩ := holdPruned_cons hafter
    have htidy := ih (h.kid hkid) hchanged
    intro other hother hsome
    cases other with
    | nil => contradiction
    | cons first other =>
      rw [heldAt_pruned_kid] at hsome
      by_cases heq : first = step
      · subst heq
        rw [if_pos rfl] at hsome
        split at hsome
        · contradiction
        next hempty =>
          -- Below the child, its own tree is tidy; at the child, it is not empty.
          have hbelow : ∃ more held, other <+: more ∧ changed.heldAt more = some held
              ∧ held ≠ .nothing := by
            cases other with
            | nil =>
              obtain ⟨more, held, hmore, hne⟩ := htidy.exists_held hempty
              exact ⟨more, held, nil_prefix, hmore, hne⟩
            | cons => exact htidy _ (by simp) hsome
          obtain ⟨more, held, hpre, hheld, hne⟩ := hbelow
          refine ⟨first :: more, held, ?_, ?_, hne⟩
          · rw [cons_prefix_cons]
            exact ⟨rfl, hpre⟩
          · rw [heldAt_pruned_kid, if_pos rfl, if_neg hempty]
            apply hheld
      · rw [if_neg heq] at hsome
        obtain ⟨more, held, hpre, hheld, hne⟩ := h _ hother hsome
        obtain ⟨rest, rfl⟩ := hpre
        refine ⟨_, held, ⟨rest, rfl⟩, ?_, hne⟩
        rw [cons_append, heldAt_pruned_kid, if_neg heq]
        apply hheld

/-- What stands at a path: nothing where there is no node. -/
def standsAt (node : StoreNode H R) (path : List (StoreStep H)) : Held R :=
  (node.heldAt path).getD .nothing

/-- Change what stands at a path, and drop the nodes that this leaves empty. -/
def release (f : Held R → Held R) (node : StoreNode H R) (path : List (StoreStep H)) :
    StoreNode H R :=
  (node.holdPruned f path).getD node

/-- In a tidy tree the nodes are the root and those on the way to where something stands. -/
theorem Tidy.isSome_heldAt_iff (h : node.Tidy) :
  (node.heldAt path).isSome
    ↔ path = [] ∨ ∃ more, path <+: more ∧ node.standsAt more ≠ .nothing
  := by
  constructor
  · intro hsome
    by_cases hpath : path = []
    · left
      apply hpath
    · right
      obtain ⟨more, held, hpre, hheld, hne⟩ := h path hpath hsome
      refine ⟨more, hpre, ?_⟩
      rw [standsAt, hheld]
      apply hne
  · rintro (rfl | ⟨more, hpre, hne⟩)
    · rfl
    · apply isSome_heldAt_of_prefix hpre
      rw [isSome_iff_ne_none]
      intro hnone
      rw [standsAt, hnone] at hne
      contradiction

theorem Tidy.release (h : node.Tidy) (path : List (StoreStep H)) :
  (node.release f path).Tidy
  := by
  rw [StoreNode.release]
  cases hafter : node.holdPruned f path with
  | none => apply h
  | some after => apply h.holdPruned hafter

theorem standsAt_holdMade (f : Held R → Held R) (node : StoreNode H R)
    (path other : List (StoreStep H)) :
  (node.holdMade f path).standsAt other
    = if other = path then f (node.standsAt path) else node.standsAt other
  := by
  rw [standsAt, heldAt_holdMade]
  split
  · rfl
  · split
    · rfl
    · rfl

/-- Releasing changes what stands at the one path. -/
theorem standsAt_release (hf : f .nothing = .nothing) (node : StoreNode H R)
    (path other : List (StoreStep H)) :
  (node.release f path).standsAt other
    = if other = path then f (node.standsAt path) else node.standsAt other
  := by
  have hchanged : (node.changedAt f path other).getD .nothing
      = if other = path then f (node.standsAt path) else node.standsAt other := by
    rw [changedAt]
    split
    case isTrue h =>
      subst h
      rw [standsAt]
      cases node.heldAt other with
      | none => apply hf.symm
      | some => rfl
    case isFalse => rfl
  rw [← hchanged, release]
  cases hafter : node.holdPruned f path with
  | none =>
    have hnone : node.heldAt path = none := by
      rw [← not_isSome_iff_eq_none, ← holdPruned_isSome (f := f), hafter]
      simp
    rw [getD_none, standsAt, changedAt]
    split
    case isTrue h => rw [h, hnone, map_none]
    case isFalse => rfl
  | some after =>
    rw [getD_some, standsAt]
    cases hheld : after.heldAt other with
    | some held => rw [heldAt_holdPruned hafter hheld]
    | none =>
      -- What the change made of it is nothing: anything else would be left.
      cases hwas : node.changedAt f path other with
      | none => rfl
      | some held =>
        by_contra hne
        rw [heldAt_holdPruned_of_ne hafter hwas (Ne.symm hne)] at hheld
        contradiction

/-! ### Keys -/

/-- Every node holds each of its keys once. -/
def WellKeyed (node : StoreNode H R) : Prop :=
  ∀ path below, node.nodeAt path = some below → (below.keyed.map Prod.fst).Nodup

theorem wellKeyed_iff :
  node.WellKeyed
    ↔ (node.keyed.map Prod.fst).Nodup
      ∧ ∀ step kid, node.stepKid step = some kid → kid.WellKeyed
  := by
  constructor
  · intro h
    constructor
    · apply h [] node rfl
    · intro step kid hkid path below hbelow
      apply h (step :: path) below
      rw [nodeAt, hkid]
      apply hbelow
  · rintro ⟨hnode, hkids⟩ path below hbelow
    cases path with
    | nil =>
      rw [nodeAt, some_inj] at hbelow
      rw [← hbelow]
      apply hnode
    | cons step path =>
      rw [nodeAt, bind_eq_some_iff] at hbelow
      obtain ⟨kid, hkid, hbelow⟩ := hbelow
      apply hkids step kid hkid path below hbelow

theorem wellKeyed_empty :
  (empty : StoreNode H R).WellKeyed
  := by
  rw [wellKeyed_iff]
  constructor
  · apply nodup_nil
  · intro step kid hkid
    rw [stepKid_empty] at hkid
    contradiction

theorem WellKeyed.hold (h : node.WellKeyed) (held : Held R) :
  (node.hold held).WellKeyed
  := by
  rw [wellKeyed_iff] at h ⊢
  simp only [stepKid_hold]
  apply h

theorem WellKeyed.setKid {kid : StoreNode H R} (h : node.WellKeyed) (step : StoreStep H)
    (hkid : kid.WellKeyed) :
  (node.setKid step kid).WellKeyed
  := by
  rw [wellKeyed_iff] at h ⊢
  constructor
  · cases step with
    | field => apply h.1
    | key hash =>
      change ((Table.write hash kid node.keyed).map Prod.fst).Nodup
      rw [Table.keys_write]
      split
      · apply h.1
      · rw [nodup_append]
        refine ⟨h.1, nodup_singleton _, ?_⟩
        rintro key hkey _ hhash rfl
        rw [mem_singleton] at hhash
        subst hhash
        contradiction
  · intro other below hbelow
    rw [stepKid_setKid] at hbelow
    split at hbelow
    · rw [← Option.some.inj hbelow]
      apply hkid
    · apply h.2 other below hbelow

theorem WellKeyed.dropKid (h : node.WellKeyed) (step : StoreStep H) :
  (node.dropKid step).WellKeyed
  := by
  rw [wellKeyed_iff] at h ⊢
  constructor
  · cases step with
    | field => apply h.1
    | key hash =>
      apply List.Nodup.sublist _ h.1
      apply List.Sublist.map
      apply filter_sublist
  · intro other below hbelow
    rw [stepKid_dropKid] at hbelow
    split at hbelow
    · contradiction
    · apply h.2 other below hbelow

theorem WellKeyed.holdMade (h : node.WellKeyed) (f : Held R → Held R) (path : List (StoreStep H)) :
  (node.holdMade f path).WellKeyed
  := by
  induction path generalizing node with
  | nil => apply h.hold
  | cons step path ih =>
    apply h.setKid
    apply ih
    rw [kidMade]
    cases hkid : node.stepKid step with
    | none => apply wellKeyed_empty
    | some kid => apply (wellKeyed_iff.mp h).2 step kid hkid

theorem WellKeyed.release (h : node.WellKeyed) (f : Held R → Held R) (path : List (StoreStep H)) :
  (node.release f path).WellKeyed
  := by
  rw [StoreNode.release]
  cases hafter : node.holdPruned f path with
  | none => apply h
  | some after =>
    rw [getD_some]
    induction path generalizing node after with
    | nil =>
      rw [holdPruned, some_inj] at hafter
      rw [← hafter]
      apply h.hold
    | cons step path ih =>
      obtain ⟨kid, changed, hkid, hchanged, rfl⟩ := holdPruned_cons hafter
      have hkeyed := ih ((wellKeyed_iff.mp h).2 step kid hkid) changed hchanged
      split
      · apply h.dropKid
      · apply h.setKid step hkeyed

end StoreNode

end Vilan
