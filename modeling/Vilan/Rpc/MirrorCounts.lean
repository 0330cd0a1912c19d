import Vilan.Rpc.MirrorRuns

/-!
# The two ends of a base

What ties the client to the server is a count: a base is held on the server once for every
reply under way that hands it out, once for every release of it under way, and once when the
client names it.  The count, and with it that a mint that is bound has its base named for it,
holds in the runs in which every reply finds its base unknown to the view that it binds to.
-/

namespace Vilan

open List Option

namespace Mirror

variable {T P : Type}

namespace Connection

/-! ### Counting the holds of a base -/

/-- How many holds a base has on one of the server's channels. -/
def holdsOf (channels : Table ℕ MirrorChannel) (channel : ℕ) (base : ℤ) : ℤ :=
  match channels.get channel with
  | some held => held.holdsOf base
  | none => 0

end Connection

/-- Whether a reply hands out a base. -/
def Reply.names (channel : ℕ) (base : ℤ) : Reply T → Bool
  | .granted _ channel' base' _ => decide (channel' = channel ∧ base' = base)
  | .failed _ => false

/-- How often a control frame releases a base. -/
def Control.releases (channel : ℕ) (base : ℤ) : Control → ℕ
  | .subscribe _ _ => 0
  | .unsubscribe channel' slots => if channel' = channel then slots.count base else 0

namespace Connection

/-- How many replies under way hand out a base. -/
def granted (replies : List (Reply T)) (channel : ℕ) (base : ℤ) : ℕ :=
  replies.countP (Reply.names channel base)

/-- How many releases of a base are under way. -/
def released (controls : List Control) (channel : ℕ) (base : ℤ) : ℕ :=
  (controls.map (Control.releases channel base)).sum

/-- Whether the client names a base. -/
def named (s : Connection T P) (channel : ℕ) (base : ℤ) : Bool :=
  match s.viewOf channel with
  | some view => ((s.views view).slots.get base).isSome
  | none => false

/-- What a view holds of a base: nothing, the one hold of the mint that is bound to it, or a
base let go of and not yet told off. -/
inductive BaseState (view : MirrorView T P) (base : ℤ) : Prop
  | unnamed (h : view.slots.get base = none) (hcount : view.unsubscribing.count base = 0)
  | held (held : ClientSlot T P) (h : view.slots.get base = some held) (hholds : held.holds = 1)
      (hcount : view.unsubscribing.count base = 0)
  | left (held : ClientSlot T P) (h : view.slots.get base = some held) (hholds : held.holds = 0)
      (hcount : view.unsubscribing.count base = 1)

/-- A view names a base for a mint. -/
structure NamedFor [StoreWire T P] (view : MirrorView T P) (mint : ℕ) (base : ℤ) : Prop where
  neg : base < 0
  get : ∃ held, view.slots.get base = some held ∧ held.boundary = baseBoundary mint ∧
    held.holds = 1
  retired : view.retired.get base = none

/-- What the client keeps to when every reply finds its base unknown. -/
structure Routed [StoreWire T P] (s : Connection T P) : Prop where
  /-- Frames of a channel are routed to one view. -/
  lt : ∀ view ∈ s.mirrorViews, view < s.nextView
  unique : ∀ view ∈ s.mirrorViews, ∀ other ∈ s.mirrorViews,
    (s.views view).channel = (s.views other).channel → view = other
  bases : ∀ view ∈ s.mirrorViews, ∀ base, base < 0 → BaseState (s.views view) base
  /-- A mint that is bound has its base named for it, in a view that frames are routed to. -/
  bound : ∀ mint view base, (s.mints mint).bound = some (view, base) →
    view ∈ s.mirrorViews ∧ NamedFor (s.views view) mint base
  /-- The releases of holds are for slots of the client's. -/
  releases : ∀ mint id held view slot, (s.mints mint).holds.get id = some held →
    held.release = some (view, some slot) → 0 ≤ slot

/-- The holds of every base on the server are the replies and the releases under way, and the
client's naming of it. -/
structure Counted (s : Connection T P) : Prop where
  neg : ∀ channel base, 0 < granted s.replies channel base → base < 0
  lt : ∀ channel held, s.channels.get channel = some held → channel < s.nextChannel
  count : ∀ channel base, base < 0 →
    holdsOf s.channels channel base
      = granted s.replies channel base + released s.controls channel base
        + if s.named channel base = true then 1 else 0

/-! ### Steps that leave the bases alone -/

/-- The client moved without touching a base. -/
structure Quiet (s moved : Connection T P) : Prop where
  mirrorViews : moved.mirrorViews = s.mirrorViews
  nextView : moved.nextView = s.nextView
  views : ∀ view, MirrorView.SameBases (s.views view) (moved.views view)
  bound : ∀ mint, (moved.mints mint).bound = (s.mints mint).bound
  releases : ∀ mint id held view slot, (moved.mints mint).holds.get id = some held →
    held.release = some (view, some slot) →
      0 ≤ slot ∨ ∃ held', (s.mints mint).holds.get id = some held' ∧
        held'.release = some (view, some slot)

variable {base : ℤ} {mint channel view other : ℕ} {moved s : Connection T P}
  {after before : List (Reply T)}

theorem BaseState.of_eq {view moved : MirrorView T P} (h : BaseState view base)
    (hget : moved.slots.get base = view.slots.get base)
    (hcount : moved.unsubscribing.count base = view.unsubscribing.count base) :
  BaseState moved base
  := by
  cases h with
  | unnamed h hc => exact .unnamed (hget.trans h) (hcount.trans hc)
  | held held h hholds hc => exact .held held (hget.trans h) hholds (hcount.trans hc)
  | left held h hholds hc => exact .left held (hget.trans h) hholds (hcount.trans hc)

theorem NamedFor.of_sameBases [StoreWire T P] {view moved : MirrorView T P}
    (h : NamedFor view mint base) (hsame : MirrorView.SameBases view moved) :
  NamedFor moved mint base
  where
  neg := h.neg
  get := by
    rw [hsame.get_eq base h.neg]
    apply h.get
  retired := hsame.retired_none base h.retired

theorem Routed.quiet [StoreWire T P] (h : s.Routed) (hquiet : Quiet s moved) :
  moved.Routed
  where
  lt := by
    rw [hquiet.mirrorViews, hquiet.nextView]
    apply h.lt
  unique := by
    intro view hview other hother hchannel
    rw [hquiet.mirrorViews] at hview hother
    rw [(hquiet.views view).channel_eq, (hquiet.views other).channel_eq] at hchannel
    apply h.unique view hview other hother hchannel
  bases := by
    intro view hview base hbase
    rw [hquiet.mirrorViews] at hview
    apply (h.bases view hview base hbase).of_eq ((hquiet.views view).get_eq base hbase)
      ((hquiet.views view).count_eq base hbase)
  bound := by
    intro mint view base hbound
    rw [hquiet.bound] at hbound
    obtain ⟨hview, hnamed⟩ := h.bound mint view base hbound
    rw [hquiet.mirrorViews]
    exact ⟨hview, hnamed.of_sameBases (hquiet.views view)⟩
  releases := by
    intro mint id held view slot hget hrelease
    rcases hquiet.releases mint id held view slot hget hrelease with hslot | hheld
    · apply hslot
    · obtain ⟨held', hget', hrelease'⟩ := hheld
      apply h.releases mint id held' view slot hget' hrelease'

theorem viewOf_quiet (h : Quiet s moved) (channel : ℕ) :
  moved.viewOf channel = s.viewOf channel
  := by
  rw [viewOf, viewOf, h.mirrorViews]
  congr 1
  funext view
  rw [(h.views view).channel_eq]

theorem named_quiet (h : Quiet s moved) (channel : ℕ) (hbase : base < 0) :
  moved.named channel base = s.named channel base
  := by
  rw [named, named, viewOf_quiet h]
  cases s.viewOf channel with
  | none => rfl
  | some view => simp only [(h.views view).get_eq base hbase]

theorem Quiet.trans {last : Connection T P} (h : Quiet s moved) (h' : Quiet moved last) :
  Quiet s last
  where
  mirrorViews := h'.mirrorViews.trans h.mirrorViews
  nextView := h'.nextView.trans h.nextView
  views view := (h.views view).trans (h'.views view)
  bound mint := (h'.bound mint).trans (h.bound mint)
  releases := by
    intro mint id held view slot hget hrelease
    rcases h'.releases mint id held view slot hget hrelease with hslot | hheld
    · left
      apply hslot
    · obtain ⟨held', hget', hrelease'⟩ := hheld
      apply h.releases mint id held' view slot hget' hrelease'

/-- Changing one view without touching its bases, and one mint without binding it. -/
theorem Quiet.of_update (view mint : ℕ) (hmirrorViews : moved.mirrorViews = s.mirrorViews)
    (hnextView : moved.nextView = s.nextView)
    (hviews : ∀ other, other ≠ view → moved.views other = s.views other)
    (hview : MirrorView.SameBases (s.views view) (moved.views view))
    (hmints : ∀ other, other ≠ mint → moved.mints other = s.mints other)
    (hbound : (moved.mints mint).bound = (s.mints mint).bound)
    (hreleases : ∀ id held view slot, (moved.mints mint).holds.get id = some held →
      held.release = some (view, some slot) →
        0 ≤ slot ∨ ∃ held', (s.mints mint).holds.get id = some held' ∧
          held'.release = some (view, some slot)) :
  Quiet s moved
  where
  mirrorViews := hmirrorViews
  nextView := hnextView
  views := by
    intro other
    by_cases hother : other = view
    · rw [hother]
      apply hview
    · rw [hviews other hother]
      apply MirrorView.SameBases.refl
  bound := by
    intro other
    by_cases hother : other = mint
    · rw [hother]
      apply hbound
    · rw [hmints other hother]
  releases := by
    intro other id held view' slot hget hrelease
    by_cases hother : other = mint
    · rw [hother] at hget ⊢
      apply hreleases id held view' slot hget hrelease
    · rw [hmints other hother] at hget
      right
      exact ⟨held, hget, hrelease⟩

/-- Changing one mint without binding it. -/
theorem Quiet.setMint (s : Connection T P) {moved : StoreMint T P}
    (hbound : moved.bound = (s.mints mint).bound)
    (hreleases : ∀ id held view slot, moved.holds.get id = some held →
      held.release = some (view, some slot) →
        0 ≤ slot ∨ ∃ held', (s.mints mint).holds.get id = some held' ∧
          held'.release = some (view, some slot)) :
  Quiet s (s.setMint mint moved)
  := by
  apply Quiet.of_update 0 mint
  · rfl
  · rfl
  · intro other _
    rfl
  · apply MirrorView.SameBases.refl
  · intro other hother
    rw [mints_setMint, if_neg hother]
  · rw [mints_setMint, if_pos rfl]
    apply hbound
  · rw [mints_setMint, if_pos rfl]
    apply hreleases

/-- The client is as it was. -/
theorem Quiet.of_eq (hmirrorViews : moved.mirrorViews = s.mirrorViews)
    (hnextView : moved.nextView = s.nextView) (hviews : moved.views = s.views)
    (hmints : moved.mints = s.mints) :
  Quiet s moved
  where
  mirrorViews := hmirrorViews
  nextView := hnextView
  views := by
    intro view
    rw [hviews]
    apply MirrorView.SameBases.refl
  bound := by
    intro mint
    rw [hmints]
  releases := by
    intro mint id held view slot hget hrelease
    rw [hmints] at hget
    right
    exact ⟨held, hget, hrelease⟩

/-- What is under way, and what the server holds, is as it was. -/
structure Local (s moved : Connection T P) : Prop where
  channels : moved.channels = s.channels
  nextChannel : moved.nextChannel = s.nextChannel
  replies : moved.replies = s.replies
  controls : moved.controls = s.controls

theorem Local.trans {last : Connection T P} (h : Local s moved) (h' : Local moved last) :
  Local s last
  where
  channels := h'.channels.trans h.channels
  nextChannel := h'.nextChannel.trans h.nextChannel
  replies := h'.replies.trans h.replies
  controls := h'.controls.trans h.controls

theorem Counted.of_named (h : s.Counted) (hlocal : Local s moved)
    (hnamed : ∀ channel base, base < 0 → moved.named channel base = s.named channel base) :
  moved.Counted
  where
  neg := by
    intro channel base hgranted
    rw [hlocal.replies] at hgranted
    apply h.neg channel base hgranted
  lt := by
    rw [hlocal.channels, hlocal.nextChannel]
    apply h.lt
  count := by
    intro channel base hbase
    rw [hnamed channel base hbase, hlocal.channels, hlocal.replies, hlocal.controls]
    apply h.count channel base hbase

theorem Counted.quiet (h : s.Counted) (hquiet : Quiet s moved) (hlocal : Local s moved) :
  moved.Counted
  := h.of_named hlocal (fun channel _ hbase => named_quiet hquiet channel hbase)

theorem quiet_ask (s : Connection T P) (mint : ℕ) :
  Quiet s (s.ask mint)
  := by
  rw [ask]
  split
  next => exact Quiet.of_eq rfl rfl rfl rfl
  next =>
    apply Quiet.of_update 0 mint
    · rfl
    · rfl
    · intro other _
      rfl
    · apply MirrorView.SameBases.refl
    · intro other hother
      simp [hother]
    · simp
    · intro id held view slot hget hrelease
      right
      rw [mints_setMint, if_pos rfl] at hget
      exact ⟨held, hget, hrelease⟩

theorem local_ask (s : Connection T P) (mint : ℕ) :
  Local s (s.ask mint)
  := by
  rw [ask]
  split
  · exact ⟨rfl, rfl, rfl, rfl⟩
  · exact ⟨rfl, rfl, rfl, rfl⟩

theorem quiet_hold (h : s.Sound) (mint : ℕ) (boundary : MirrorBoundary T P) :
  Quiet s (s.hold mint boundary)
  := by
  -- The release of a new hold is the view's, if it is on a channel.
  have hreleases : ∀ (taken : Option (ℕ × Option ℤ)),
      (∀ view slot, taken = some (view, some slot) → 0 ≤ slot) →
      ∀ id held view slot,
        ((s.mints mint).holds.insert s.nextId ⟨boundary, taken⟩).get id = some held →
        held.release = some (view, some slot) →
          0 ≤ slot ∨ ∃ held', (s.mints mint).holds.get id = some held' ∧
            held'.release = some (view, some slot) := by
    intro taken htaken id held view slot hget hrelease
    rw [Table.get_insert] at hget
    split at hget
    next =>
      rw [some_inj] at hget
      subst hget
      left
      apply htaken view slot hrelease
    next =>
      right
      exact ⟨held, hget, hrelease⟩
  rw [hold]
  split
  next view base hbound =>
    obtain ⟨-, hsame, hslot⟩ := (h.views view).hold boundary base
    apply Quiet.of_update view mint
    · rfl
    · rfl
    · intro other hother
      rw [views_setMint, views_setView, if_neg hother]
    · rw [views_setMint, views_setView, if_pos rfl]
      apply hsame
    · intro other hother
      rw [mints_setMint, if_neg hother]
      rfl
    · rw [mints_setMint, if_pos rfl]
    · rw [mints_setMint, if_pos rfl]
      apply hreleases
      intro view' slot heq
      rw [some_inj, Prod.mk.injEq] at heq
      apply hslot slot heq.2
  next hbound =>
    refine Quiet.trans ?_ (quiet_ask _ mint)
    apply Quiet.of_update 0 mint
    · rfl
    · rfl
    · intro other _
      rfl
    · apply MirrorView.SameBases.refl
    · intro other hother
      rw [mints_setMint, if_neg hother]
    · rw [mints_setMint, if_pos rfl]
    · rw [mints_setMint, if_pos rfl]
      apply hreleases
      intro view slot heq
      cases heq

theorem local_hold (s : Connection T P) (mint : ℕ) (boundary : MirrorBoundary T P) :
  Local s (s.hold mint boundary)
  := by
  rw [hold]
  split
  next => exact ⟨rfl, rfl, rfl, rfl⟩
  next =>
    refine Local.trans ?_ (local_ask _ mint)
    exact ⟨rfl, rfl, rfl, rfl⟩

theorem quiet_release [StoreWire T P] (h : s.Sound) (hrouted : s.Routed) (mint id : ℕ) :
  Quiet s (s.release mint id)
  := by
  -- The holds that are left were there before.
  have hreleases : ∀ other held view slot,
      ((s.mints mint).holds.remove id).get other = some held →
      held.release = some (view, some slot) →
        0 ≤ slot ∨ ∃ held', (s.mints mint).holds.get other = some held' ∧
          held'.release = some (view, some slot) := by
    intro other held view slot hget hrelease
    rw [Table.get_remove] at hget
    split at hget
    next => cases hget
    next =>
      right
      exact ⟨held, hget, hrelease⟩
  rw [release]
  split
  next => exact Quiet.of_eq rfl rfl rfl rfl
  next out hout =>
    simp only
    split
    next view slot htaken =>
      have hslot := hrouted.releases mint id out view slot hout htaken
      apply Quiet.of_update view mint
      · rfl
      · rfl
      · intro other hother
        rw [views_setView, if_neg hother, views_setMint]
      · rw [views_setView, if_pos rfl]
        apply ((h.views view).release slot).2 hslot
      · intro other hother
        rw [mints_setView, mints_setMint, if_neg hother]
      · rw [mints_setView, mints_setMint, if_pos rfl]
      · rw [mints_setView, mints_setMint, if_pos rfl]
        apply hreleases
    next => exact Quiet.setMint s rfl hreleases
    next =>
      split
      next => exact Quiet.setMint s rfl hreleases
      next => exact Quiet.setMint s rfl hreleases

theorem local_release (s : Connection T P) (mint id : ℕ) :
  Local s (s.release mint id)
  := by
  rw [release]
  split
  next => exact ⟨rfl, rfl, rfl, rfl⟩
  next =>
    simp only
    split
    next => exact ⟨rfl, rfl, rfl, rfl⟩
    next => exact ⟨rfl, rfl, rfl, rfl⟩
    next =>
      split
      · exact ⟨rfl, rfl, rfl, rfl⟩
      · exact ⟨rfl, rfl, rfl, rfl⟩

theorem quiet_landIn (s : Connection T P) (landing : Option (MirrorView.Landing T)) :
  Quiet s (s.landIn landing)
  := by
  cases landing with
  | none => exact Quiet.of_eq rfl rfl rfl rfl
  | some landing =>
    apply Quiet.setMint
    · rfl
    · intro id held view slot hget hrelease
      right
      exact ⟨held, hget, hrelease⟩

theorem local_landIn (s : Connection T P) (landing : Option (MirrorView.Landing T)) :
  Local s (s.landIn landing)
  := by
  cases landing with
  | none => exact ⟨rfl, rfl, rfl, rfl⟩
  | some landing => exact ⟨rfl, rfl, rfl, rfl⟩

/-- Landing the ops of a frame touches no base. -/
theorem quiet_land (h : s.Sound) (view : ℕ) (ops : List (PatchOp P)) :
  Quiet s (s.land view ops) ∧ Local s (s.land view ops)
  := by
  induction ops generalizing s with
  | nil => exact ⟨Quiet.of_eq rfl rfl rfl rfl, ⟨rfl, rfl, rfl, rfl⟩⟩
  | cons op rest ih =>
    rw [land]
    split
    next => exact ⟨Quiet.of_eq rfl rfl rfl rfl, ⟨rfl, rfl, rfl, rfl⟩⟩
    next moved landing hland =>
      obtain ⟨hsound, hsame⟩ := (h.views view).land hland
      have hset : Quiet s (s.setView view moved) := by
        apply Quiet.of_update view 0
        · rfl
        · rfl
        · intro other hother
          rw [views_setView, if_neg hother]
        · rw [views_setView, if_pos rfl]
          apply hsame
        · intro other _
          rfl
        · rfl
        · intro id held view' slot hget hrelease
          right
          exact ⟨held, hget, hrelease⟩
      obtain ⟨hquiet, hlocal⟩ := ih ((h.setView view hsound).landIn landing)
      constructor
      · apply hset.trans ((quiet_landIn _ landing).trans hquiet)
      · refine Local.trans ?_ ((local_landIn _ landing).trans hlocal)
        exact ⟨rfl, rfl, rfl, rfl⟩

theorem quiet_receive (h : s.Sound) (channel : ℕ) (ops : List (PatchOp P)) :
  Quiet s (s.receive channel ops) ∧ Local s (s.receive channel ops)
  := by
  rw [receive]
  split
  next view _ => apply quiet_land h
  next => exact ⟨Quiet.of_eq rfl rfl rfl rfl, ⟨rfl, rfl, rfl, rfl⟩⟩

/-! ### Letting go of a base -/

theorem mem_of_viewOf (h : s.viewOf channel = some view) :
  view ∈ s.mirrorViews ∧ (s.views view).channel = channel
  := by
  rw [viewOf] at h
  refine ⟨mem_of_find?_eq_some h, ?_⟩
  have hchannel := find?_some h
  apply of_decide_eq_true hchannel

/-- Frames of a channel are routed to the view that has it. -/
theorem Routed.viewOf_eq [StoreWire T P] (h : s.Routed) (hview : view ∈ s.mirrorViews) :
  s.viewOf (s.views view).channel = some view
  := by
  cases hfound : s.viewOf (s.views view).channel with
  | none =>
    rw [viewOf, find?_eq_none] at hfound
    have hchannel := hfound view hview
    simp at hchannel
  | some other =>
    obtain ⟨hother, hchannel⟩ := mem_of_viewOf hfound
    rw [h.unique other hother view hview hchannel]

/-- Two mints have different boundaries at their bases. -/
theorem baseBoundary_injective [StoreWire T P]
    (h : (baseBoundary mint : MirrorBoundary T P) = baseBoundary other) :
  mint = other
  := by
  have hmint := congrArg MirrorBoundary.mint h
  apply hmint

/-- A base that is named for a mint is held, and not let go of. -/
theorem NamedFor.count_eq_zero [StoreWire T P] {view : MirrorView T P} (h : NamedFor view mint base)
    (hbase : BaseState view base) :
  view.unsubscribing.count base = 0
  := by
  obtain ⟨held, hget, -, hholds⟩ := h.get
  cases hbase with
  | unnamed _ hcount => apply hcount
  | held _ _ _ hcount => apply hcount
  | left held' hget' hholds' _ =>
    rw [hget, some_inj] at hget'
    subst hget'
    omega

/-- A view keeps its channel. -/
theorem channel_setView {moved : MirrorView T P} (h : moved.channel = (s.views view).channel)
    (other : ℕ) :
  ((s.setView view moved).views other).channel = (s.views other).channel
  := by
  rw [views_setView]
  split
  next hother => rw [hother, h]
  next => rfl

/-- Releasing a base that is named for a mint leaves it let go of, and the other bases as they
were. -/
theorem BaseState.releaseBase [StoreWire T P] {view : MirrorView T P} {key : ℤ}
    (h : BaseState view key) (hnamed : NamedFor view mint base) (hbase : BaseState view base) :
  BaseState (view.releaseBase base) key
  := by
  have hcount : (view.releaseBase base).unsubscribing.count key
      = view.unsubscribing.count key + if key = base then 1 else 0 := by
    rw [MirrorView.releaseBase, count_append, count_singleton]
    by_cases hkey : key = base
    · simp [hkey]
    · simp [hkey, Ne.symm hkey]
  have hget := MirrorView.get_releaseBase view base key
  by_cases hkey : key = base
  · subst hkey
    obtain ⟨held, hheld, -, -⟩ := hnamed.get
    rw [hheld, map_some, if_pos rfl] at hget
    rw [if_pos rfl, hnamed.count_eq_zero hbase] at hcount
    exact .left _ hget rfl hcount
  · simp only [hkey, if_false, Option.map_id'] at hget
    rw [if_neg hkey, Nat.add_zero] at hcount
    apply h.of_eq hget hcount

/-- Releasing the base of one mint leaves the bases of the others named for them. -/
theorem NamedFor.releaseBase [StoreWire T P] {view : MirrorView T P} {key : ℤ}
    (h : NamedFor view other key) (hnamed : NamedFor view mint base) (hother : other ≠ mint) :
  NamedFor (view.releaseBase base) other key
  where
  neg := h.neg
  get := by
    obtain ⟨held, hget, hboundary, hholds⟩ := h.get
    have hkey : key ≠ base := by
      rintro rfl
      obtain ⟨held', hget', hboundary', -⟩ := hnamed.get
      rw [hget, some_inj] at hget'
      subst hget'
      apply hother
      apply baseBoundary_injective (hboundary.symm.trans hboundary')
    refine ⟨held, ?_, hboundary, hholds⟩
    rw [MirrorView.get_releaseBase, hget, map_some, if_neg hkey]
  retired := h.retired

theorem routed_letGo [StoreWire T P] (h : s.Routed) (mint : ℕ) :
  (s.letGo mint).Routed
  := by
  rw [letGo]
  split
  next => 
    split
    next view base hbound =>
      obtain ⟨hview, hnamed⟩ := h.bound mint view base hbound
      have hbases := h.bases view hview base hnamed.neg
      refine ⟨h.lt, ?_, ?_, ?_, ?_⟩
      · intro other hother last hlast heq
        rw [channel_setView, channel_setView] at heq
        · apply h.unique other hother last hlast heq
        · rfl
        · rfl
      · intro other hother key hkey
        rw [views_setView]
        split
        next hother' => apply (h.bases view hview key hkey).releaseBase hnamed hbases
        next => apply h.bases other hother key hkey
      · intro other view' base' hbound'
        rw [mints_setView, mints_setMint] at hbound'
        split at hbound'
        next => cases hbound'
        next hother =>
          obtain ⟨hview', hnamed'⟩ := h.bound other view' base' hbound'
          refine ⟨hview', ?_⟩
          rw [views_setView]
          split
          next heq =>
            subst heq
            apply hnamed'.releaseBase hnamed hother
          next => apply hnamed'
      · intro other id held view' slot hget hrelease
        rw [mints_setView, mints_setMint] at hget
        split at hget
        next => apply h.releases mint id held view' slot hget hrelease
        next => apply h.releases other id held view' slot hget hrelease
    next => apply h
  next => apply h

theorem named_congr (hviewOf : moved.viewOf channel = s.viewOf channel)
    (hget : ∀ view, s.viewOf channel = some view →
      ((moved.views view).slots.get base).isSome = ((s.views view).slots.get base).isSome) :
  moved.named channel base = s.named channel base
  := by
  rw [named, named, hviewOf]
  cases hview : s.viewOf channel with
  | none => rfl
  | some view => apply hget view hview

theorem viewOf_congr (hmirrorViews : moved.mirrorViews = s.mirrorViews)
    (hchannel : ∀ view, (moved.views view).channel = (s.views view).channel) (channel : ℕ) :
  moved.viewOf channel = s.viewOf channel
  := by
  rw [viewOf, viewOf, hmirrorViews]
  congr 1
  funext view
  rw [hchannel]

theorem counted_letGo (h : s.Counted) (mint : ℕ) :
  (s.letGo mint).Counted
  := by
  rw [letGo]
  split
  next =>
    split
    next view base hbound =>
      apply Counted.of_named h
      · exact ⟨rfl, rfl, rfl, rfl⟩
      · intro channel key _
        apply named_congr
        · apply viewOf_congr
          · rfl
          · intro other
            rw [channel_setView]
            · rfl
            · rfl
        intro other _
        rw [views_setView]
        split
        next hother => rw [hother, MirrorView.get_releaseBase, isSome_map]
        next => rfl
    next => apply h
  next => apply h

/-! ### The settle of a turn -/

theorem BaseState.flush {view : MirrorView T P} (h : BaseState view base) (hsound : view.Sound) :
  BaseState view.flush.view base
  := by
  obtain ⟨-, hget⟩ := hsound.flush
  obtain ⟨-, hunsubscribing, -⟩ := view.flush_frame
  have hcount : view.flush.view.unsubscribing.count base = 0 := by
    rw [hunsubscribing, count_nil]
  cases h with
  | unnamed h _ =>
    apply BaseState.unnamed _ hcount
    rw [hget, h, ite_self]
  | held held h hholds _ =>
    apply BaseState.held held _ hholds hcount
    rw [hget, if_neg]
    · apply h
    · rintro ⟨-, hleaves⟩
      rw [MirrorView.leaves, h] at hleaves
      simp [hholds] at hleaves
  | left held h hholds hleft =>
    apply BaseState.unnamed _ hcount
    rw [hget, if_pos]
    constructor
    · rw [← count_pos_iff]
      omega
    · rw [MirrorView.leaves, h]
      simp [hholds]

theorem NamedFor.flush [StoreWire T P] {view : MirrorView T P} (h : NamedFor view mint base)
    (hbase : BaseState view base) (hsound : view.Sound) :
  NamedFor view.flush.view mint base
  where
  neg := h.neg
  get := by
    obtain ⟨held, hget, hboundary, hholds⟩ := h.get
    refine ⟨held, ?_, hboundary, hholds⟩
    rw [hsound.flush.2, if_neg]
    · apply hget
    · rintro ⟨-, hleaves⟩
      rw [MirrorView.leaves, hget] at hleaves
      simp [hholds] at hleaves
  retired := by
    apply view.flush_frame.2.2 base _ h.retired
    rw [← List.count_eq_zero]
    apply h.count_eq_zero hbase

theorem mirrorViews_flush (s : Connection T P) (view : ℕ) (h : other ∈ (s.flush view).mirrorViews) :
  other ∈ s.mirrorViews
  := by
  simp only [flush] at h
  split at h
  next => apply mem_of_mem_filter h
  next => apply h

theorem routed_flush [StoreWire T P] (h : s.Routed) (hsound : s.Sound) (view : ℕ) :
  (s.flush view).Routed
  where
  lt := by
    intro other hother
    apply h.lt other (mirrorViews_flush s view hother)
  unique := by
    intro other hother last hlast heq
    apply h.unique other (mirrorViews_flush s view hother) last (mirrorViews_flush s view hlast)
    have hchannel := (s.views view).flush_frame.1
    exact ((channel_setView hchannel other).symm.trans heq).trans (channel_setView hchannel last)
  bases := by
    intro other hother base hbase
    have hstate := h.bases other (mirrorViews_flush s view hother) base hbase
    change BaseState ((s.setView view _).views other) base
    rw [views_setView]
    split
    next heq =>
      subst heq
      apply hstate.flush (hsound.views other)
    next => apply hstate
  bound := by
    intro mint other base hbound
    obtain ⟨hother, hnamed⟩ := h.bound mint other base hbound
    have hstate := h.bases other hother base hnamed.neg
    have hviews : (s.flush view).views other
        = if other = view then (s.views view).flush.view else s.views other :=
      views_setView s view other _
    by_cases heq : other = view
    · subst heq
      have hflushed := hnamed.flush hstate (hsound.views other)
      rw [if_pos rfl] at hviews
      rw [hviews]
      refine ⟨?_, hflushed⟩
      obtain ⟨held, hget, -⟩ := hflushed.get
      -- The view still names a slot, so that it stays.
      simp only [Connection.flush]
      rw [if_neg]
      · apply hother
      · intro hempty
        rw [List.isEmpty_iff] at hempty
        rw [Table.get, hempty] at hget
        cases hget
    · rw [if_neg heq] at hviews
      rw [hviews]
      refine ⟨?_, hnamed⟩
      simp only [Connection.flush]
      split
      · rw [mem_filter]
        exact ⟨hother, decide_eq_true heq⟩
      · apply hother
  releases := h.releases

/-- The releases of a base that the settle of a turn puts under way. -/
theorem released_flush (s : Connection T P) (view channel : ℕ) (base : ℤ) :
  released (s.flush view).controls channel base
    = released s.controls channel base
      + if (s.views view).channel = channel then (s.views view).flush.unsubscribe.count base
        else 0
  := by
  rw [released, released]
  simp only [flush, map_append, sum_append]
  have hsubscribe : ((if (s.views view).flush.subscribe.isEmpty = true then []
      else [Control.subscribe (s.views view).channel (s.views view).flush.subscribe]).map
        (Control.releases channel base)).sum = 0 := by
    split
    · rfl
    · rfl
  have hunsubscribe : ((if (s.views view).flush.unsubscribe.isEmpty = true then []
      else [Control.unsubscribe (s.views view).channel (s.views view).flush.unsubscribe]).map
        (Control.releases channel base)).sum
      = if (s.views view).channel = channel then (s.views view).flush.unsubscribe.count base
        else 0 := by
    split
    next hempty =>
      rw [List.isEmpty_iff] at hempty
      simp [hempty]
    next => simp [Control.releases]
  rw [hsubscribe, hunsubscribe, Nat.add_zero]

/-- Where the frames of a channel are routed once the turn of a view has settled. -/
theorem viewOf_flush [StoreWire T P] (h : s.Routed) (hview : view ∈ s.mirrorViews) (channel : ℕ) :
  (s.flush view).viewOf channel
    = if channel = (s.views view).channel ∧ (s.views view).flush.view.slots.entries = [] then
        none
      else s.viewOf channel
  := by
  have hchannels : ∀ other, ((s.flush view).views other).channel = (s.views other).channel :=
    channel_setView (s.views view).flush_frame.1
  by_cases hempty : (s.views view).flush.view.slots.entries = []
  · have hmirrorViews : (s.flush view).mirrorViews
        = s.mirrorViews.filter (fun other => other ≠ view) := by
      simp only [flush, hempty, isEmpty_nil, if_true]
    rw [viewOf, hmirrorViews, find?_filter]
    by_cases hchannel : channel = (s.views view).channel
    · rw [if_pos ⟨hchannel, hempty⟩, find?_eq_none]
      intro other hother hfound
      simp only [decide_eq_true_eq, hchannels] at hfound
      apply hfound.1
      apply h.unique other hother view hview (hfound.2.trans hchannel)
    · rw [if_neg (fun hboth => hchannel hboth.1), viewOf]
      congr 1
      funext other
      rw [hchannels]
      by_cases heq : other = view
      · subst heq
        simp [Ne.symm hchannel]
      · simp [heq]
  · rw [if_neg (fun hboth => hempty hboth.2)]
    apply viewOf_congr
    · simp [flush, hempty]
    · apply hchannels

/-- What the client names once the turn of a view has settled. -/
theorem named_flush [StoreWire T P] (h : s.Routed) (hview : view ∈ s.mirrorViews) (channel : ℕ)
    (base : ℤ) :
  (s.flush view).named channel base
    = if channel = (s.views view).channel then
        ((s.views view).flush.view.slots.get base).isSome
      else s.named channel base
  := by
  have hviews : ∀ other, (s.flush view).views other
      = if other = view then (s.views view).flush.view else s.views other :=
    fun other => views_setView s view other _
  have hviewOf := viewOf_flush h hview channel
  by_cases hchannel : channel = (s.views view).channel
  · rw [if_pos hchannel, named, hviewOf]
    by_cases hempty : (s.views view).flush.view.slots.entries = []
    · rw [if_pos ⟨hchannel, hempty⟩, Table.get, hempty]
      rfl
    · rw [if_neg (fun hboth => hempty hboth.2), hchannel, h.viewOf_eq hview]
      simp only
      rw [hviews, if_pos rfl]
  · rw [if_neg hchannel]
    rw [if_neg (fun hboth => hchannel hboth.1)] at hviewOf
    apply named_congr hviewOf
    intro other hother
    rw [hviews, if_neg]
    rintro rfl
    apply hchannel (mem_of_viewOf hother).2.symm

theorem named_of_mem [StoreWire T P] (h : s.Routed) (hview : view ∈ s.mirrorViews) (base : ℤ) :
  s.named (s.views view).channel base = ((s.views view).slots.get base).isSome
  := by
  rw [named, h.viewOf_eq hview]

/-- A base that the settle of a turn unnames is told off. -/
theorem counted_flush [StoreWire T P] (h : s.Counted) (hrouted : s.Routed) (hsound : s.Sound)
    (hview : view ∈ s.mirrorViews) :
  (s.flush view).Counted
  where
  neg := h.neg
  lt := h.lt
  count := by
    intro channel base hbase
    have hcount := h.count channel base hbase
    change holdsOf s.channels channel base = granted s.replies channel base + _ + _
    rw [hcount, released_flush, named_flush hrouted hview]
    by_cases hchannel : channel = (s.views view).channel
    · subst hchannel
      rw [if_pos rfl, if_pos rfl, named_of_mem hrouted hview,
        MirrorView.count_flush (hsound.views view) hbase, (hsound.views view).flush.2]
      cases hrouted.bases view hview base hbase with
      | unnamed hget _ => simp [hget, MirrorView.leaves]
      | held held hget hholds _ => simp [hget, MirrorView.leaves, hholds]
      | left held hget hholds hleft =>
        have hmem : base ∈ (s.views view).unsubscribing := by
          rw [← count_pos_iff]
          omega
        simp only [hget, MirrorView.leaves, hholds, hmem]
        simp [add_assoc]
    · rw [if_neg (Ne.symm hchannel), if_neg hchannel, Nat.add_zero]

/-! ### The server -/

theorem channels_get_of_lt (h : s.Counted) (hchannel : s.nextChannel ≤ channel) :
  s.channels.get channel = none
  := by
  cases hget : s.channels.get channel with
  | none => rfl
  | some held =>
    have hlt := h.lt channel held hget
    omega

theorem holdsOf_insert (channels : Table ℕ MirrorChannel) (channel other : ℕ)
    (held : MirrorChannel) (base : ℤ) :
  holdsOf (channels.insert channel held) other base
    = if other = channel then held.holdsOf base else holdsOf channels other base
  := by
  rw [holdsOf, holdsOf, Table.get_insert]
  by_cases hother : other = channel
  · rw [if_pos hother, if_pos hother]
  · rw [if_neg hother, if_neg hother]

theorem holdsOf_get {channels : Table ℕ MirrorChannel} {held : MirrorChannel}
    (h : channels.get channel = some held) (base : ℤ) :
  holdsOf channels channel base = held.holdsOf base
  := by
  rw [holdsOf, h]

theorem lt_insert (h : s.Counted) {held : MirrorChannel} {next : ℕ} (hchannel : channel < next)
    (hnext : s.nextChannel ≤ next) :
  ∀ other held', (s.channels.insert channel held).get other = some held' → other < next
  := by
  intro other held' hget
  rw [Table.get_insert] at hget
  split at hget
  next heq =>
    rw [heq]
    apply hchannel
  next =>
    have hlt := h.lt other held' hget
    omega

/-- A step of the server and of what is under way, of which the client sees nothing. -/
theorem Counted.of_change (h : s.Counted) (hquiet : Quiet s moved)
    (hneg : ∀ channel base, 0 < granted moved.replies channel base → base < 0)
    (hlt : ∀ channel held, moved.channels.get channel = some held →
      channel < moved.nextChannel) (hchange : ∀ channel base, base < 0 →
      holdsOf moved.channels channel base + granted s.replies channel base + released s.controls channel base
        = holdsOf s.channels channel base + granted moved.replies channel base
          + released moved.controls channel base) :
  moved.Counted
  where
  neg := hneg
  lt := hlt
  count := by
    intro channel base hbase
    have hcount := h.count channel base hbase
    have hstep := hchange channel base hbase
    rw [named_quiet hquiet channel hbase]
    omega

/-- Opening a channel takes no hold. -/
theorem counted_mirrorChannel (h : s.Counted) (root : ℕ) :
  (s.mirrorChannel root).1.Counted
  := by
  rw [mirrorChannel]
  split
  next => apply h
  next =>
    apply Counted.of_change h
    · exact Quiet.of_eq rfl rfl rfl rfl
    · apply h.neg
    · apply lt_insert h
      · apply Nat.lt_succ_self
      · apply Nat.le_succ
    · intro channel base hbase
      rw [holdsOf_insert]
      split
      next hchannel =>
        have hnone : holdsOf s.channels channel base = 0 := by
          rw [holdsOf, channels_get_of_lt h (by omega)]
        rw [hnone]
        rfl
      next => rfl

theorem granted_append (replies : List (Reply T)) (reply : Reply T) (channel : ℕ) (base : ℤ) :
  granted (replies ++ [reply]) channel base
    = granted replies channel base + if reply.names channel base = true then 1 else 0
  := by
  rw [granted, granted, countP_append, countP_singleton]

/-- A reply that hands out a store takes one hold, and goes under way with it. -/
theorem counted_reply (h : s.Counted) (hsound : s.Sound) (mint : ℕ) (handle : StoreHandle)
    (seed : Option T) :
  (s.reply mint handle seed).Counted
  := by
  have hopened := counted_mirrorChannel h handle.root
  have hsopened := hsound.mirrorChannel handle.root
  rw [reply]
  generalize s.mirrorChannel handle.root = opened at hopened hsopened
  obtain ⟨opened, channel⟩ := opened
  simp only at hopened hsopened ⊢
  split
  next => apply hopened
  next held hget =>
    have hheld := hsopened.channels channel held hget
    apply Counted.of_change hopened
    · exact Quiet.of_eq rfl rfl rfl rfl
    · intro other base hpos
      rw [granted_append] at hpos
      simp only [Reply.names, decide_eq_true_eq] at hpos
      by_cases hnames : channel = other ∧ (held.grant handle).2 = base
      · rw [← hnames.2]
        apply MirrorChannel.grant_neg hheld
      · rw [if_neg hnames] at hpos
        apply hopened.neg other base hpos
    · apply lt_insert hopened (hopened.lt channel held hget) (Nat.le_refl _)
    · intro other base _
      rw [holdsOf_insert, granted_append]
      simp only [Reply.names, decide_eq_true_eq]
      by_cases hother : other = channel
      · subst hother
        rw [if_pos rfl, MirrorChannel.holdsOf_grant hheld, holdsOf_get hget]
        by_cases hbase : base = (held.grant handle).2
        · rw [if_pos hbase, if_pos ⟨rfl, hbase.symm⟩]
          push_cast
          ring
        · rw [if_neg hbase, if_neg (fun hboth => hbase hboth.2.symm)]
          push_cast
          ring
      · rw [if_neg hother, if_neg (fun hboth => hother hboth.1.symm), Nat.add_zero]

/-- A control frame takes off a base the holds it releases, when it has them. -/
theorem holdsOf_served {channels : Table ℕ MirrorChannel}
    (h : ∀ channel held, channels.get channel = some held → held.Sound) {control : Control}
    (hbase : base < 0)
    (hcovered : (control.releases channel base : ℤ) ≤ holdsOf channels channel base) :
  holdsOf (served channels control) channel base
    = holdsOf channels channel base - control.releases channel base
  := by
  cases control with
  | subscribe other entries =>
    rw [served, Control.releases, Nat.cast_zero, Int.sub_zero]
    split
    next => rfl
    next held hget =>
      rw [holdsOf_insert, ((h other held hget).subscribe entries).2]
      split
      next heq => rw [heq, holdsOf_get hget]
      next => rfl
  | unsubscribe other slots =>
    rw [Control.releases] at hcovered ⊢
    rw [served]
    split
    next hget =>
      split at hcovered
      next heq =>
        subst heq
        rw [holdsOf, hget] at hcovered
        simp only at hcovered
        rw [if_pos rfl]
        omega
      next hne =>
        rw [if_neg hne]
        simp
    next held hget =>
      have hleft := ((h other held hget).unsubscribe slots).2 base hbase
      simp only
      by_cases heq : other = channel
      · subst heq
        rw [if_pos rfl, holdsOf_get hget] at hcovered ⊢
        split
        next hrevoked =>
          rw [← hleft hcovered, holdsOf, Table.get_remove, if_pos rfl, MirrorChannel.holdsOf]
          rw [MirrorChannel.revoked, List.isEmpty_iff] at hrevoked
          rw [Table.get, hrevoked]
          rfl
        next => rw [holdsOf_insert, if_pos rfl, hleft hcovered]
      · rw [if_neg heq, Nat.cast_zero, Int.sub_zero]
        split
        next => rw [holdsOf, Table.get_remove, if_neg (Ne.symm heq), holdsOf]
        next => rw [holdsOf_insert, if_neg (Ne.symm heq)]

/-- A control frame takes off the server's holds what it takes off the wire. -/
theorem counted_serve (h : s.Counted) (hsound : s.Sound) {control : Control} {rest : List Control}
    (hcontrols : s.controls = control :: rest) :
  (serve { s with controls := rest } control).Counted
  := by
  have hreleased : ∀ channel base, released s.controls channel base
      = control.releases channel base + released rest channel base := by
    intro channel base
    rw [hcontrols, released, map_cons, sum_cons, released]
  apply Counted.of_change h
  · exact Quiet.of_eq rfl rfl rfl rfl
  · apply h.neg
  · intro channel held hget
    obtain ⟨-, hopen⟩ := sound_served hsound.channels control channel held hget
    obtain ⟨held', hget'⟩ := ne_none_iff_exists'.mp hopen
    apply h.lt channel held' hget'
  · intro channel base hbase
    have hcount := h.count channel base hbase
    have hstep := hreleased channel base
    have hcovered : (control.releases channel base : ℤ) ≤ holdsOf s.channels channel base := by
      rw [hcount, hstep]
      push_cast
      split
      · omega
      · omega
    simp only [serve]
    rw [holdsOf_served hsound.channels hbase hcovered, hstep]
    push_cast
    ring

/-- A failed call takes no hold. -/
theorem counted_refuse (h : s.Counted) (mint : ℕ) :
  Counted { s with calls := s.calls.erase mint, replies := s.replies ++ [.failed mint] }
  := by
  have hgranted : ∀ channel base, granted (s.replies ++ [.failed mint]) channel base
      = granted s.replies channel base := by
    intro channel base
    rw [granted_append, Reply.names, if_neg (by simp), Nat.add_zero]
  apply Counted.of_change h
  · exact Quiet.of_eq rfl rfl rfl rfl
  · intro channel base hpos
    rw [hgranted] at hpos
    apply h.neg channel base hpos
  · apply h.lt
  · intro channel base _
    rw [hgranted]

theorem counted_send (h : s.Counted) (channel : ℕ) (ops : List (PatchOp P)) :
  (s.send channel ops).Counted
  := by
  rw [send]
  split
  next => apply h
  next held hget =>
    simp only
    split
    next => apply h
    next =>
      apply Counted.of_change h
      · exact Quiet.of_eq rfl rfl rfl rfl
      · apply h.neg
      · apply lt_insert h (h.lt channel held hget) (Nat.le_refl _)
      · intro other base _
        rw [holdsOf_insert]
        split
        next hother =>
          rw [hother, holdsOf_get hget]
          rfl
        next => rfl

/-! ### A reply that finds its base unknown -/

/-- The view of a channel, and what is known of it, once it is made. -/
structure MadeFor [StoreWire T P] (s : Connection T P) (channel view : ℕ) (base : ℤ) : Prop where
  routed : s.Routed
  counted : s.Counted
  sound : s.Sound
  mem : view ∈ s.mirrorViews
  channel_eq : (s.views view).channel = channel
  unnamed : (s.views view).slots.get base = none
  retired : (s.views view).retired.get base = none

theorem routed_mirrorView [StoreWire T P] (h : s.Routed) (channel : ℕ) :
  (s.mirrorView channel).1.Routed
  := by
  rw [mirrorView]
  split
  next => apply h
  next hnone =>
    have hother : ∀ view ∈ s.mirrorViews, view ≠ s.nextView := by
      intro view hview
      have hlt := h.lt view hview
      omega
    have hchannel : ∀ view ∈ s.mirrorViews, (s.views view).channel ≠ channel := by
      rw [viewOf, find?_eq_none] at hnone
      intro view hview heq
      apply hnone view hview
      apply decide_eq_true heq
    refine ⟨?_, ?_, ?_, ?_, h.releases⟩
    · intro view hview
      simp only [mem_append, mem_singleton] at hview ⊢
      rcases hview with hview | rfl
      · have hlt := h.lt view hview
        omega
      · omega
    · intro view hview other hmem heq
      simp only [mem_append, mem_singleton] at hview hmem
      simp only [views_setView] at heq
      rcases hview with hview | rfl
      · rw [if_neg (hother view hview)] at heq
        rcases hmem with hmem | rfl
        · rw [if_neg (hother other hmem)] at heq
          apply h.unique view hview other hmem heq
        · rw [if_pos rfl] at heq
          cases hchannel view hview heq
      · rw [if_pos rfl] at heq
        rcases hmem with hmem | rfl
        · rw [if_neg (hother other hmem)] at heq
          cases hchannel other hmem heq.symm
        · rfl
    · intro view hview base hbase
      simp only [mem_append, mem_singleton] at hview
      simp only [views_setView]
      rcases hview with hview | rfl
      · rw [if_neg (hother view hview)]
        apply h.bases view hview base hbase
      · rw [if_pos rfl]
        apply BaseState.unnamed
        · simp [MirrorView.new]
        · simp [MirrorView.new]
    · intro mint view base hbound
      obtain ⟨hview, hnamed⟩ := h.bound mint view base hbound
      simp only [mem_append, views_setView]
      rw [if_neg (hother view hview)]
      exact ⟨.inl hview, hnamed⟩

theorem named_iff [StoreWire T P] (h : s.Routed) :
  s.named channel base = true ↔
    ∃ view ∈ s.mirrorViews, (s.views view).channel = channel ∧
      ((s.views view).slots.get base).isSome = true
  := by
  constructor
  · intro hnamed
    rw [named] at hnamed
    split at hnamed
    next view hview =>
      obtain ⟨hmem, hchannel⟩ := mem_of_viewOf hview
      exact ⟨view, hmem, hchannel, hnamed⟩
    next => cases hnamed
  · rintro ⟨view, hview, rfl, hget⟩
    rw [named_of_mem h hview, hget]

theorem counted_mirrorView [StoreWire T P] (h : s.Counted) (hrouted : s.Routed) (channel : ℕ) :
  (s.mirrorView channel).1.Counted
  := by
  have hmade := routed_mirrorView hrouted channel
  rw [mirrorView] at hmade ⊢
  split at hmade
  next => apply h
  next hnone =>
    apply Counted.of_named h
    · exact ⟨rfl, rfl, rfl, rfl⟩
    · intro other base _
      rw [Bool.eq_iff_iff, named_iff hmade, named_iff hrouted]
      simp only [mem_append, mem_singleton, views_setView]
      constructor
      · rintro ⟨view, hview, hchannel, hget⟩
        by_cases heq : view = s.nextView
        · -- The new view names nothing.
          rw [if_pos heq] at hget
          simp [MirrorView.new] at hget
        · rw [if_neg heq] at hchannel hget
          exact ⟨view, hview.resolve_right heq, hchannel, hget⟩
      · rintro ⟨view, hview, hchannel, hget⟩
        have hlt := hrouted.lt view hview
        refine ⟨view, .inl hview, ?_⟩
        rw [if_neg (by omega)]
        exact ⟨hchannel, hget⟩

theorem madeFor_mirrorView [StoreWire T P] (hrouted : s.Routed) (hcounted : s.Counted)
    (hsound : s.Sound)
    (hfresh : ∀ view, s.viewOf channel = some view → (s.views view).slotNamed base = none) :
  MadeFor (s.mirrorView channel).1 channel (s.mirrorView channel).2 base
  where
  routed := routed_mirrorView hrouted channel
  counted := counted_mirrorView hcounted hrouted channel
  sound := hsound.mirrorView channel
  mem := by
    rw [mirrorView]
    split
    next view hview => apply (mem_of_viewOf hview).1
    next => simp
  channel_eq := by
    rw [mirrorView]
    split
    next view hview => apply (mem_of_viewOf hview).2
    next =>
      simp only [views_setView, if_true]
      rfl
  unnamed := by
    rw [mirrorView]
    split
    next view hview =>
      have hnone := hfresh view hview
      rw [MirrorView.slotNamed] at hnone
      split at hnone
      next => cases hnone
      next hget => apply hget
    next =>
      simp only [views_setView, if_true]
      simp [MirrorView.new]
  retired := by
    rw [mirrorView]
    split
    next view hview =>
      have hnone := hfresh view hview
      rw [MirrorView.slotNamed] at hnone
      split at hnone
      next => cases hnone
      next => apply hnone
    next =>
      simp only [views_setView, if_true]
      simp [MirrorView.new]

/-- The holds that are put onto a channel keep the releases of the mint for slots of the
client's. -/
theorem rehold_releases (entries : List (ℕ × MintHold T P))
    {state : MirrorView T P × Table ℕ (MintHold T P)} (hsound : state.1.Sound)
    (h : ∀ id held view slot, state.2.get id = some held →
      held.release = some (view, some slot) → 0 ≤ slot) :
  ∀ id held view' slot, (entries.foldl (rehold view base) state).2.get id = some held →
    held.release = some (view', some slot) → 0 ≤ slot
  := by
  induction entries generalizing state with
  | nil => apply h
  | cons entry rest ih =>
    obtain ⟨honto, -, hslot⟩ := hsound.hold entry.2.boundary base
    apply ih
    · apply honto
    · intro id held view' slot hget hrelease
      rw [rehold, Table.get_insert] at hget
      split at hget
      next =>
        rw [some_inj] at hget
        subst hget
        simp only [some_inj, Prod.mk.injEq] at hrelease
        apply hslot slot hrelease.2
      next => apply h id held view' slot hget hrelease

/-- The view that a mint is bound on names its base for it, and the other bases as before. -/
structure Seated [StoreWire T P] (view moved : MirrorView T P) (mint : ℕ) (base : ℤ) :
    Prop where
  channel_eq : moved.channel = view.channel
  get_eq : ∀ key, key < 0 → key ≠ base → moved.slots.get key = view.slots.get key
  count_eq : ∀ key, key < 0 → moved.unsubscribing.count key = view.unsubscribing.count key
  retired_none : ∀ key, view.retired.get key = none → moved.retired.get key = none
  get : ∃ held, moved.slots.get base = some held ∧ held.boundary = baseBoundary mint ∧
    held.holds = 1

theorem seated_rehold [StoreWire T P] (h : MadeFor s channel view base) (hbase : base < 0)
    (mint : ℕ) :
  Seated (s.views view)
    ((s.mints mint).holds.entries.foldl (rehold view base)
      ((s.views view).adoptBase base (baseBoundary mint), (s.mints mint).holds)).1 mint base
  := by
  obtain ⟨hchannel, hunsubscribing, hretired⟩ :=
    (s.views view).adoptBase_frame base (baseBoundary mint)
  have hget := MirrorView.get_adoptBase h.unnamed (baseBoundary mint)
  have hadopted : ((s.views view).adoptBase base (baseBoundary mint)).Sound := by
    apply (h.sound.views view).adoptBase
    rfl
  have hsame : MirrorView.Sound _ ∧
      MirrorView.SameBases ((s.views view).adoptBase base (baseBoundary mint)) _ :=
    rehold_induction view base
      (p := fun held => held.Sound ∧
        MirrorView.SameBases ((s.views view).adoptBase base (baseBoundary mint)) held)
      (fun held boundary hheld => by
        obtain ⟨honto, hstep, -⟩ := hheld.1.hold boundary base
        exact ⟨honto, hheld.2.trans hstep⟩)
      (s.mints mint).holds.entries
      ((s.views view).adoptBase base (baseBoundary mint), (s.mints mint).holds)
      ⟨hadopted, MirrorView.SameBases.refl _⟩
  replace hsame := hsame.2
  refine ⟨hsame.channel_eq.trans hchannel, ?_, ?_, ?_, ?_⟩
  · intro key hkey hne
    rw [hsame.get_eq key hkey, hget, if_neg hne]
  · intro key hkey
    rw [hsame.count_eq key hkey, hunsubscribing]
  · intro key hnone
    apply hsame.retired_none
    rw [hretired]
    apply hnone
  · exact ⟨_, (hsame.get_eq base hbase).trans ((hget base).trans (if_pos rfl)), rfl, rfl⟩

theorem routed_bindOn [StoreWire T P] (h : MadeFor s channel view base) (hbase : base < 0)
    (mint : ℕ) (seed : Option T) :
  (s.bindOn mint view base seed).Routed
  := by
  have hseated := seated_rehold h hbase mint
  have hcount : (s.views view).unsubscribing.count base = 0 := by
    cases h.routed.bases view h.mem base hbase with
    | unnamed _ hc => apply hc
    | held held hget _ _ =>
      rw [h.unnamed] at hget
      cases hget
    | left held hget _ _ =>
      rw [h.unnamed] at hget
      cases hget
  refine ⟨h.routed.lt, ?_, ?_, ?_, ?_⟩
  · intro other hother last hlast heq
    rw [bindOn, views_setMint, channel_setView hseated.channel_eq,
      channel_setView hseated.channel_eq] at heq
    apply h.routed.unique other hother last hlast heq
  · intro other hother key hkey
    have hstate := h.routed.bases other hother key hkey
    rw [bindOn, views_setMint, views_setView]
    split
    next heq =>
      subst heq
      by_cases hne : key = base
      · subst hne
        obtain ⟨held, hget, -, hholds⟩ := hseated.get
        exact .held held hget hholds ((hseated.count_eq key hkey).trans hcount)
      · apply hstate.of_eq (hseated.get_eq key hkey hne) (hseated.count_eq key hkey)
    next => apply hstate
  · intro other view' base' hbound
    rw [bindOn, mints_setMint] at hbound
    rw [bindOn, views_setMint, views_setView]
    split at hbound
    next heq =>
      simp only [some_inj, Prod.mk.injEq] at hbound
      obtain ⟨rfl, rfl⟩ := hbound
      rw [if_pos rfl, heq]
      exact ⟨h.mem, ⟨hbase, hseated.get, hseated.retired_none base h.retired⟩⟩
    next =>
      obtain ⟨hview', hnamed⟩ := h.routed.bound other view' base' hbound
      refine ⟨hview', ?_⟩
      split
      next heq =>
        subst heq
        obtain ⟨held, hget, hboundary, hholds⟩ := hnamed.get
        have hne : base' ≠ base := by
          rintro rfl
          rw [h.unnamed] at hget
          cases hget
        refine ⟨hnamed.neg, ⟨held, ?_, hboundary, hholds⟩,
          hseated.retired_none base' hnamed.retired⟩
        rw [hseated.get_eq base' hnamed.neg hne, hget]
      next => apply hnamed
  · intro other id held view' slot hget hrelease
    rw [bindOn, mints_setMint] at hget
    split at hget
    next =>
      revert hrelease
      apply rehold_releases _ _ _ id held view' slot hget
      · apply (h.sound.views view).adoptBase
        rfl
      · apply h.routed.releases mint
    next => apply h.routed.releases other id held view' slot hget hrelease

/-- A reply that binds a mint hands its hold to the client's naming of the base. -/
theorem counted_bindOn [StoreWire T P] {seed : Option T} (h : MadeFor s channel view base)
    (hreplies : s.replies = before ++ .granted mint channel base seed :: after) (hbase : base < 0) :
  (bindOn { s with replies := before ++ after } mint view base seed).Counted
  := by
  have hseated := seated_rehold h hbase mint
  have hrouted := routed_bindOn h hbase mint seed
  have hgranted : ∀ other key, granted s.replies other key
      = granted (before ++ after) other key
        + if channel = other ∧ base = key then 1 else 0 := by
    intro other key
    rw [hreplies, granted, granted, countP_append, countP_append, countP_cons]
    simp only [Reply.names, decide_eq_true_eq]
    omega
  have hnamed : ∀ other key, key < 0 →
      (bindOn { s with replies := before ++ after } mint view base seed).named other key
        = (s.named other key || decide (channel = other ∧ base = key)) := by
    intro other key hkey
    change (s.bindOn mint view base seed).named other key = _
    rw [Bool.eq_iff_iff, Bool.or_eq_true, decide_eq_true_eq, named_iff hrouted, named_iff h.routed]
    constructor
    · rintro ⟨other', hother, hchannel, hget⟩
      rw [bindOn, views_setMint, channel_setView hseated.channel_eq] at hchannel
      rw [bindOn, views_setMint, views_setView] at hget
      split at hget
      next heq =>
        rw [heq, h.channel_eq] at hchannel
        by_cases hne : key = base
        · right
          exact ⟨hchannel, hne.symm⟩
        · left
          rw [hseated.get_eq key hkey hne] at hget
          exact ⟨view, h.mem, h.channel_eq.trans hchannel, hget⟩
      next =>
        left
        exact ⟨other', hother, hchannel, hget⟩
    · rintro (⟨other', hother, hchannel, hget⟩ | ⟨rfl, rfl⟩)
      · refine ⟨other', hother, ?_, ?_⟩
        · rw [bindOn, views_setMint, channel_setView hseated.channel_eq, hchannel]
        · rw [bindOn, views_setMint, views_setView]
          split
          next heq =>
            rw [heq] at hget
            have hne : key ≠ base := by
              rintro rfl
              rw [h.unnamed] at hget
              cases hget
            rw [hseated.get_eq key hkey hne, hget]
          next => apply hget
      · refine ⟨view, h.mem, ?_, ?_⟩
        · rw [bindOn, views_setMint, channel_setView hseated.channel_eq, h.channel_eq]
        · obtain ⟨held, hget, -⟩ := hseated.get
          rw [bindOn, views_setMint, views_setView, if_pos rfl, hget]
          rfl
  refine ⟨?_, h.counted.lt, ?_⟩
  · intro other key hpos
    apply h.counted.neg other key
    rw [hgranted]
    change 0 < granted (before ++ after) other key at hpos
    omega
  · intro other key hkey
    have hcount := h.counted.count other key hkey
    rw [hgranted] at hcount
    rw [hnamed other key hkey]
    change holdsOf s.channels other key
      = granted (before ++ after) other key + released s.controls other key + _
    by_cases hsame : channel = other ∧ base = key
    · have hunnamed : s.named other key = false := by
        rw [← hsame.1, ← hsame.2, ← h.channel_eq, named_of_mem h.routed h.mem, h.unnamed]
        rfl
      rw [if_pos hsame, hunnamed] at hcount
      simp only [hsame, hunnamed]
      push_cast at hcount
      simp at hcount ⊢
      omega
    · rw [if_neg hsame] at hcount
      simp only [hsame]
      simpa using hcount

/-! ### Runs in which every reply finds its base unknown -/

/-- What a connection keeps to in these runs. -/
structure Good [StoreWire T P] (s : Connection T P) : Prop where
  sound : s.Sound
  routed : s.Routed
  counted : s.Counted

theorem Good.quiet [StoreWire T P] (h : s.Good) (hsound : moved.Sound) (hquiet : Quiet s moved)
    (hlocal : Local s moved) :
  moved.Good
  where
  sound := hsound
  routed := h.routed.quiet hquiet
  counted := h.counted.quiet hquiet hlocal

theorem mirrorView_replies (s : Connection T P) (replies : List (Reply T)) (channel : ℕ) :
  (mirrorView { s with replies := replies } channel).2 = (s.mirrorView channel).2 ∧
    (mirrorView { s with replies := replies } channel).1
      = { (s.mirrorView channel).1 with replies := replies } ∧
    (s.mirrorView channel).1.replies = s.replies
  := by
  have hviewOf : viewOf { s with replies := replies } channel = s.viewOf channel := rfl
  rw [mirrorView, mirrorView, hviewOf]
  cases s.viewOf channel with
  | none => exact ⟨rfl, rfl, rfl⟩
  | some view => exact ⟨rfl, rfl, rfl⟩

/-- A reply that finds its base unknown binds its mint to it. -/
theorem bind_spec [StoreWire T P] (h : s.Good) {seed : Option T}
    (hreplies : s.replies = before ++ .granted mint channel base seed :: after)
    (hfresh : ∀ view, s.viewOf channel = some view → (s.views view).slotNamed base = none) :
  (bind { s with replies := before ++ after } mint channel base seed).Routed ∧
    (bind { s with replies := before ++ after } mint channel base seed).Counted
  := by
  have hbase : base < 0 := by
    apply h.counted.neg channel base
    rw [hreplies, granted, countP_append, countP_cons]
    simp [Reply.names]
  have hmade := madeFor_mirrorView h.routed h.counted h.sound hfresh
  obtain ⟨hview, hrouted, hkept⟩ := mirrorView_replies s (before ++ after) channel
  rw [bind, hview, hrouted]
  constructor
  · apply routed_letGo
    exact (routed_bindOn hmade hbase mint seed).quiet (Quiet.of_eq rfl rfl rfl rfl)
  · apply counted_letGo
    apply counted_bindOn hmade (hkept.trans hreplies) hbase

theorem quiet_reply (s : Connection T P) (mint : ℕ) (handle : StoreHandle) (seed : Option T) :
  Quiet s (s.reply mint handle seed)
  := by
  have hopened : Quiet s (s.mirrorChannel handle.root).1 := by
    rw [mirrorChannel]
    split
    · exact Quiet.of_eq rfl rfl rfl rfl
    · exact Quiet.of_eq rfl rfl rfl rfl
  rw [reply]
  generalize s.mirrorChannel handle.root = opened at hopened
  obtain ⟨opened, channel⟩ := opened
  simp only at hopened ⊢
  split
  · apply hopened
  · apply hopened.trans
    exact Quiet.of_eq rfl rfl rfl rfl

theorem quiet_send (s : Connection T P) (channel : ℕ) (ops : List (PatchOp P)) :
  Quiet s (s.send channel ops)
  := by
  rw [send]
  split
  · exact Quiet.of_eq rfl rfl rfl rfl
  · simp only
    split
    · exact Quiet.of_eq rfl rfl rfl rfl
    · exact Quiet.of_eq rfl rfl rfl rfl

/-- Taking up a failed call takes no hold. -/
theorem counted_fail (h : s.Counted) (hreplies : s.replies = before ++ .failed mint :: after) :
  Counted { s with replies := before ++ after }
  := by
  have hgranted : ∀ channel base, granted (before ++ after) channel base
      = granted s.replies channel base := by
    intro channel base
    rw [hreplies, granted, granted, countP_append, countP_append, countP_cons,
      Reply.names, if_neg (by simp), Nat.add_zero]
  apply Counted.of_change h
  · exact Quiet.of_eq rfl rfl rfl rfl
  · intro channel base hpos
    rw [hgranted] at hpos
    apply h.neg channel base hpos
  · apply h.lt
  · intro channel base _
    rw [hgranted]

theorem Good.step [StoreWire T P] {s' : Connection T P} (h : s.Good) {event : Event T P}
    (hstep : FreshStep s event s') :
  s'.Good
  := by
  obtain ⟨hstep, hfresh⟩ := hstep
  have hsound := h.sound.step hstep
  cases hstep with
  | hold mint boundary =>
    apply h.quiet hsound
    · apply quiet_hold h.sound
    · apply local_hold
  | release mint id =>
    apply h.quiet hsound
    · apply quiet_release h.sound h.routed
    · apply local_release
  | letGo mint => exact ⟨hsound, routed_letGo h.routed mint, counted_letGo h.counted mint⟩
  | flush view hview _ =>
    refine ⟨hsound, routed_flush h.routed h.sound view, ?_⟩
    apply counted_flush h.counted h.routed h.sound hview
  | reply mint handle seed =>
    refine ⟨hsound, h.routed.quiet (quiet_reply s mint handle seed), ?_⟩
    apply counted_reply h.counted h.sound
  | refuse mint =>
    exact ⟨hsound, h.routed.quiet (Quiet.of_eq rfl rfl rfl rfl), counted_refuse h.counted mint⟩
  | serve control rest hcontrols =>
    exact ⟨hsound, h.routed.quiet (Quiet.of_eq rfl rfl rfl rfl),
      counted_serve h.counted h.sound hcontrols⟩
  | send channel ops =>
    exact ⟨hsound, h.routed.quiet (quiet_send s channel ops), counted_send h.counted channel ops⟩
  | bind before after mint channel base seed hreplies =>
    obtain ⟨hrouted, hcounted⟩ := bind_spec h hreplies (hfresh mint channel base rfl)
    exact ⟨hsound, hrouted, hcounted⟩
  | fail before after mint hreplies =>
    have hquiet : Quiet { s with replies := before ++ after }
        (setMint { s with replies := before ++ after } mint
          { s.mints mint with asking := false }) := by
      apply Quiet.setMint
      · rfl
      · intro id held view slot hget hrelease
        right
        exact ⟨held, hget, hrelease⟩
    have hrouted : Routed { s with replies := before ++ after } :=
      h.routed.quiet (Quiet.of_eq rfl rfl rfl rfl)
    refine ⟨hsound, hrouted.quiet hquiet, (counted_fail h.counted hreplies).quiet hquiet ?_⟩
    exact ⟨rfl, rfl, rfl, rfl⟩
  | receive channel ops rest hpatches =>
    have htaken : Good { s with patches := rest } :=
      ⟨⟨h.sound.channels, h.sound.views⟩, h.routed.quiet (Quiet.of_eq rfl rfl rfl rfl),
        h.counted.quiet (Quiet.of_eq rfl rfl rfl rfl) ⟨rfl, rfl, rfl, rfl⟩⟩
    obtain ⟨hquiet, hlocal⟩ := quiet_receive htaken.sound channel ops
    apply htaken.quiet hsound hquiet hlocal

/-- A connection on which nothing has happened yet. -/
theorem good_fresh [StoreWire T P] :
  (fresh : Connection T P).Good
  where
  sound := by
    refine ⟨?_, fun _ => MirrorView.sound_new 0⟩
    intro channel held hget
    rw [fresh, Table.get_empty] at hget
    cases hget
  routed := by
    constructor <;> simp [fresh, StoreMint.new]
  counted := by
    constructor <;> simp [fresh, granted, released, holdsOf, named, viewOf]

/-- In the runs in which every reply finds its base unknown, the two ends of every base
agree. -/
theorem run_good [StoreWire T P] {trace : List (Event T P)} (run : FreshRun trace s) :
  s.Good
  := by
  apply run.invariant
  · rintro s rfl
    apply good_fresh
  · intro s event s' h hstep
    apply h.step hstep

end Connection

end Mirror

end Vilan
