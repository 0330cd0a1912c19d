import Vilan.Rpc.MirrorCounts

/-!
# Which mints follow their base

A view has one boundary for each slot, so that an op for a base lands in one replica.  A second
mint that binds at a base the view already names adds a hold to the slot and no boundary: its
replica is not written, and the first of the two to let go takes the base out of the view.
A mint whose base was unknown when its reply bound it follows the base until it lets go.
-/

namespace Vilan

namespace Mirror

variable {T P : Type}

namespace Connection

/-- A mint is bound to a base of a channel. -/
def BoundAt (s : Connection T P) (mint channel : ℕ) (base : ℤ) : Prop :=
  ∃ view, (s.mints mint).bound = some (view, base) ∧ (s.views view).channel = channel

/-- Whether a view reads the ops of a frame to the last of them. -/
def reads (s : Connection T P) (view : ℕ) : List (PatchOp P) → Bool
  | [] => true
  | op :: rest =>
      match (s.views view).land op with
      | none => false
      | some (moved, landing) => ((s.setView view moved).landIn landing).reads view rest

/-- The client names a base, and an op for it that the client comes to read in a frame lands in
the replica of a mint. -/
structure Follows [StoreWire T P] (s : Connection T P) (mint channel : ℕ) (base : ℤ) :
    Prop where
  named : s.named channel base = true
  lands : ∀ view, s.viewOf channel = some view →
    ∀ (before : List (PatchOp P)) (op : PatchOp P), s.reads view before = true →
      op.slot = base →
      ((s.receive channel (before ++ [op])).mints mint).replica
        = op.through (baseBoundary mint) ((s.receive channel before).mints mint).replica

/-- The server holds a base, so that its patches are sent. -/
def Granted (s : Connection T P) (channel : ℕ) (base : ℤ) : Prop :=
  ∃ held, s.channels.get channel = some held ∧ held.slots.get base ≠ none

/-! ### One op, one replica -/

theorem replica_land_single (s : Connection T P) (view : ℕ) (op : PatchOp P) (mint : ℕ) :
  ((s.land view [op]).mints mint).replica
    = match (s.views view).land op with
      | some (_, some landing) =>
          if mint = landing.mint then landing.change (s.mints mint).replica
          else (s.mints mint).replica
      | _ => (s.mints mint).replica
  := by
  rw [land]
  cases hland : (s.views view).land op with
  | none => rfl
  | some landed =>
    obtain ⟨moved, landing⟩ := landed
    cases landing with
    | none => rfl
    | some landing =>
      simp only [land, landIn, mints_setMint, mints_setView]
      by_cases hmint : mint = landing.mint
      · rw [if_pos hmint, if_pos hmint, hmint]
      · rw [if_neg hmint, if_neg hmint]

/-- A frame is landed up to the first op that cannot be read. -/
theorem land_append (s : Connection T P) (view : ℕ) (before ops : List (PatchOp P)) :
  s.land view (before ++ ops)
    = if s.reads view before = true then (s.land view before).land view ops
      else s.land view before
  := by
  induction before generalizing s with
  | nil => simp [reads, land]
  | cons op rest ih =>
    rw [List.cons_append, land, land, reads]
    cases (s.views view).land op with
    | none => simp
    | some landed => exact ih _

/-- An op lands in at most one of two replicas. -/
theorem receive_misses {mint other : ℕ} (s : Connection T P) (hne : mint ≠ other)
    (channel : ℕ) (before : List (PatchOp P)) (op : PatchOp P) :
  ((s.receive channel (before ++ [op])).mints mint).replica
      = ((s.receive channel before).mints mint).replica ∨
    ((s.receive channel (before ++ [op])).mints other).replica
      = ((s.receive channel before).mints other).replica
  := by
  rw [receive, receive]
  split
  next view _ =>
    rw [land_append]
    split
    next =>
      rw [replica_land_single, replica_land_single]
      split
      next landing _ =>
        by_cases hmint : mint = landing.mint
        · right
          rw [if_neg]
          rintro rfl
          apply hne hmint
        · left
          rw [if_neg hmint]
      next =>
        left
        rfl
    next =>
      left
      rfl
  next =>
    left
    rfl

/-! ### Letting go of a shared base -/

/-- A mint that lets go takes its base out of the view with the settle, whoever else is bound
to it. -/
theorem unnamed_of_letGo {s : Connection T P} (h : s.Sound) {mint other view : ℕ} {base : ℤ}
    (hne : mint ≠ other) (hbound : (s.mints mint).bound = some (view, base))
    (hother : (s.mints other).bound = some (view, base))
    (hholds : (s.mints mint).holds.entries = []) :
  ((((s.letGo mint).flush view).views view).slots.get base = none) ∧
    (((s.letGo mint).flush view).mints other).bound = some (view, base)
  := by
  have hlet : s.letGo mint
      = (s.setMint mint { s.mints mint with bound := none }).setView view
        ((s.views view).releaseBase base) := by
    rw [letGo, if_pos hholds, hbound]
  constructor
  · have hsound : (s.letGo mint).Sound := h.letGo mint
    have hview : (s.letGo mint).views view = (s.views view).releaseBase base := by
      rw [hlet, views_setView, if_pos rfl]
    have hflush := (hsound.views view).flush.2 base
    have hget := MirrorView.get_releaseBase (s.views view) base base
    have hviews : ((s.letGo mint).flush view).views view = ((s.letGo mint).views view).flush.view :=
      (views_setView _ view view _).trans (if_pos rfl)
    rw [hviews, hflush]
    split
    next => rfl
    next hstays =>
      rw [hview] at hstays ⊢
      rw [hget]
      cases hslot : (s.views view).slots.get base with
      | none => rfl
      | some held =>
        exfalso
        apply hstays
        constructor
        · simp [MirrorView.releaseBase]
        · rw [MirrorView.leaves, hget, hslot]
          simp
  · change ((s.letGo mint).mints other).bound = _
    rw [hlet, mints_setView, mints_setMint, if_neg (Ne.symm hne), hother]

/-! ### A mint that is alone at its base -/

/-- An op for a base that is named for a mint lands in its replica. -/
theorem Good.follows [StoreWire T P] {s : Connection T P} (h : s.Good) {mint channel : ℕ}
    {base : ℤ} (hbound : s.BoundAt mint channel base) :
  s.Follows mint channel base ∧ s.Granted channel base
  := by
  obtain ⟨view, hbound, rfl⟩ := hbound
  obtain ⟨hview, hnamedFor⟩ := h.routed.bound mint view base hbound
  obtain ⟨held, hget, hboundary, hholds⟩ := hnamedFor.get
  have hnamed : s.named (s.views view).channel base = true := by
    rw [named_of_mem h.routed hview, hget]
    rfl
  refine ⟨⟨hnamed, ?_⟩, ?_⟩
  · intro other hother before op hreads hop
    rw [h.routed.viewOf_eq hview, Option.some_inj] at hother
    subst hother hop
    rw [receive, receive, h.routed.viewOf_eq hview]
    simp only
    rw [land_append, if_pos hreads, replica_land_single]
    -- The ops read before it touch no base.
    obtain ⟨hquiet, -⟩ := quiet_land h.sound view before
    have hstill := hnamedFor.of_sameBases (hquiet.views view)
    obtain ⟨held', hget', hboundary', -⟩ := hstill.get
    rw [MirrorView.land_named hget' hstill.retired, hboundary']
    simp [baseBoundary]
  · have hcount := h.counted.count (s.views view).channel base hnamedFor.neg
    rw [hnamed, if_pos rfl, holdsOf] at hcount
    split at hcount
    next server hserver =>
      refine ⟨server, hserver, ?_⟩
      have hsound := h.sound.channels _ server hserver
      rw [MirrorChannel.holdsOf] at hcount
      split at hcount
      next grant hgrant => apply hsound.stands base grant hgrant
      next => omega
    next => omega

end Connection

open Connection

/-- Two mints that are bound to one base never both follow it: every op for the base, wherever
it stands in its frame, misses one of their replicas, and the settle after one of them let go leaves the base unnamed in the view
the other is bound to.  A mint does follow its base, and the server holds the base for it, in
every run in which every reply finds its base unknown to the view that it binds to. -/
theorem shared_base_starves_one [StoreWire T P] :
  (∀ {trace : List (Event T P)} {s : Connection T P}, Run trace s →
    ∀ mint other channel base, mint ≠ other →
      s.BoundAt mint channel base → s.BoundAt other channel base →
      (∀ (before : List (PatchOp P)) (op : PatchOp P), op.slot = base →
        ((s.receive channel (before ++ [op])).mints mint).replica
            = ((s.receive channel before).mints mint).replica ∨
          ((s.receive channel (before ++ [op])).mints other).replica
            = ((s.receive channel before).mints other).replica) ∧
      (∀ view, (s.mints mint).bound = some (view, base) →
        (s.mints other).bound = some (view, base) → (s.mints mint).holds.entries = [] →
        ∀ s₁ s₂, Step s (.letGo mint) s₁ → Step s₁ (.flush view) s₂ →
          (s₂.views view).slots.get base = none ∧
            (s₂.mints other).bound = some (view, base))) ∧
  (∀ {trace : List (Event T P)} {s : Connection T P}, FreshRun trace s →
    ∀ mint channel base, s.BoundAt mint channel base →
      s.Follows mint channel base ∧ s.Granted channel base)
  := by
  constructor
  · intro trace s run mint other channel base hne _ _
    constructor
    · intro before op _
      apply receive_misses s hne
    · intro view hbound hother hholds s₁ s₂ hletGo hflush
      cases hletGo
      cases hflush
      apply unnamed_of_letGo (run_sound run) hne hbound hother hholds
  · intro trace s run mint channel base hbound
    apply (run_good run).follows hbound

/-! ### Two calls at one path -/

/-- A counter crosses as its value. -/
instance : StoreWire ℕ ℕ where
  describe count := count
  fresh count := count
  applyAt _ _ count := count

/-- A service's counter, at the first field of its store. -/
def counter : StoreHandle where
  root := 0
  path := [.field 0]
  readPath path := some path

/-- A mint of a counter that is alone at its base follows it. -/
theorem lone_mint_follows :
  ∃ trace s, FreshRun trace s ∧ s.BoundAt 0 0 (-1) ∧ (s : Connection ℕ ℕ).Follows 0 0 (-1)
  := by
  have run₀ : FreshRun [] (Connection.fresh : Connection ℕ ℕ) := Machine.Run.start rfl
  have run₁ := Machine.Run.step run₀ ⟨Step.hold _ 0 (baseBoundary 0) rfl, by simp⟩
  have run₂ := Machine.Run.step run₁ ⟨Step.reply _ 0 counter (some 5) (by decide), by simp⟩
  have run₃ := Machine.Run.step run₂ ⟨Step.bind _ [] [] 0 0 (-1) (some 5) rfl, by
    rintro mint channel base ⟨⟩ view hview
    cases hview⟩
  exact ⟨_, _, run₃, ⟨0, by decide, by decide⟩,
    (shared_base_starves_one.2 run₃ 0 0 (-1) ⟨0, by decide, by decide⟩).1⟩

/-- Two mints are held, both calls answer the counter at five, and both replies bind. -/
def bothBound : Connection ℕ ℕ :=
  let asked := ((Connection.fresh.hold 0 (baseBoundary 0)).hold 1 (baseBoundary 1))
  let replied := (asked.reply 0 counter (some 5)).reply 1 counter (some 5)
  let bound := { replied with replies := [.granted 1 0 (-1) (some 5)] }.bind 0 0 (-1) (some 5)
  { bound with replies := [] }.bind 1 0 (-1) (some 5)

theorem run_bothBound :
  ∃ trace, Run trace bothBound
  := by
  have run₀ : Run [] (Connection.fresh : Connection ℕ ℕ) := Machine.Run.start rfl
  have run₁ := Machine.Run.step run₀ (Step.hold _ 0 (baseBoundary 0) rfl)
  have run₂ := Machine.Run.step run₁ (Step.hold _ 1 (baseBoundary 1) rfl)
  have run₃ := Machine.Run.step run₂ (Step.reply _ 0 counter (some 5) (by decide))
  have run₄ := Machine.Run.step run₃ (Step.reply _ 1 counter (some 5) (by decide))
  have run₅ := Machine.Run.step run₄
    (Step.bind _ [] [.granted 1 0 (-1) (some 5)] 0 0 (-1) (some 5) rfl)
  have run₆ := Machine.Run.step run₅ (Step.bind _ [] [] 1 0 (-1) (some 5) rfl)
  exact ⟨_, run₆⟩

/-- Two mints of one counter: the patch to six lands in the replica of the first alone. -/
theorem second_mint_stays_behind :
  ¬ ∀ (trace : List (Event ℕ ℕ)) (s : Connection ℕ ℕ), Run trace s →
    ∀ mint other channel base, mint ≠ other →
      s.BoundAt mint channel base → s.BoundAt other channel base →
      s.Follows mint channel base ∧ s.Follows other channel base
  := by
  intro hfollow
  obtain ⟨trace, run⟩ := run_bothBound
  obtain ⟨-, hsecond⟩ := hfollow trace bothBound run 0 1 0 (-1) (by decide)
    ⟨0, by decide, by decide⟩ ⟨0, by decide, by decide⟩
  have hlands := hsecond.lands 0 (by decide) [] (.set (-1) [] 6) rfl rfl
  revert hlands
  decide

end Mirror

end Vilan
