import Vilan.Executor.Waking
import Vilan.Executor.Lives

/-!
# Cancelling reaches every descendant

A nursery made under another is listed there, unless it was cancelled at birth.  Cancelling goes
down these lists, and so a nursery that is there is cancelled as soon as any nursery above it is,
as far up as they are there.
-/

namespace Vilan.Executor

open List Function

variable {V : Type*}

/-- Nurseries are younger than their parents, and one that is not cancelled is listed by its
parent, which is not cancelled either unless its own cancelling is under way. -/
structure TreeBut (under : ℕ → Prop) (s : Runtime V) : Prop where
  descendants : ∀ parent, ∀ nursery ∈ (s.nurseries parent).descendants,
    parent < nursery ∧ nursery < s.madeNurseries
  parents : ∀ nursery < s.madeNurseries, ∀ parent, (s.nurseries nursery).parent = some parent →
    parent < s.madeNurseries ∧ ((s.nurseries parent).held = true →
      (s.nurseries nursery).held = true → (s.nurseries nursery).cancelled = true ∨
        ((s.nurseries parent).cancelled = false ∨ under parent) ∧
          nursery ∈ (s.nurseries parent).descendants)

/-- No cancelling is under way. -/
abbrev Tree (s : Runtime V) : Prop :=
  TreeBut (fun _ => False) s

namespace TreeBut

theorem new :
  Tree (Runtime.new : Runtime V)
  where
  descendants := by simp [Runtime.new]
  parents := by simp [Runtime.new]

variable {under : ℕ → Prop} {s : Runtime V}

/-- A nursery is marked, and its own cancelling is under way. -/
theorem mark (tree : TreeBut under s) (nursery : ℕ) :
  TreeBut (fun other => under other ∨ other = nursery)
    ((s.setNursery nursery fun body =>
      { body with cancelled := true, cancelWaiters := [] }).enqueue
        (s.nurseries nursery).cancelWaiters)
  := by
  have only := OnlyCancels.mark s nursery
  have old : ∀ other, other ≠ nursery → ((s.setNursery nursery fun body =>
      { body with cancelled := true, cancelWaiters := [] }).enqueue
        (s.nurseries nursery).cancelWaiters).nurseries other = s.nurseries other :=
    fun other ne => update_of_ne ne _ _
  refine ⟨?_, ?_⟩
  · intro parent other listed
    rw [only.descendants] at listed
    rw [only.madeNurseries]
    apply tree.descendants parent other listed
  · intro other lt parent parent_eq
    rw [only.madeNurseries] at lt ⊢
    rw [only.parent] at parent_eq
    rw [only.held, only.held, only.descendants]
    obtain ⟨made, listed⟩ := tree.parents other lt parent parent_eq
    use made
    intro held held'
    obtain cancelled | ⟨either, mem⟩ := listed held held'
    · exact Or.inl (only.cancelled other cancelled)
    · refine Or.inr ⟨?_, mem⟩
      by_cases same : parent = nursery
      · exact Or.inr (Or.inr same)
      · rw [old parent same]
        exact either.imp_right Or.inl

/-- The cancelling of a nursery is over when its descendants that are there are cancelled. -/
theorem close {nursery : ℕ} (tree : TreeBut (fun other => under other ∨ other = nursery) s)
    (reached : ∀ descendant ∈ (s.nurseries nursery).descendants,
      (s.nurseries descendant).held = true → (s.nurseries descendant).cancelled = true) :
  TreeBut under s
  := by
  refine ⟨tree.descendants, ?_⟩
  intro other lt parent parent_eq
  obtain ⟨made, listed⟩ := tree.parents other lt parent parent_eq
  use made
  intro held held'
  obtain cancelled | ⟨either, mem⟩ := listed held held'
  · exact Or.inl cancelled
  · obtain uncancelled | below | rfl := either
    · exact Or.inr ⟨Or.inl uncancelled, mem⟩
    · exact Or.inr ⟨Or.inr below, mem⟩
    · exact Or.inl (reached other mem held')

/-- Cancelling keeps the tree and cancels the nursery, when it may look far enough down. -/
theorem cancelWithin {fuel : ℕ} (tree : TreeBut under s) {nursery : ℕ}
    (made : nursery < s.madeNurseries) (deep : s.madeNurseries - nursery ≤ fuel) :
  TreeBut under (Runtime.cancelWithin fuel s nursery) ∧
    ((Runtime.cancelWithin fuel s nursery).nurseries nursery).cancelled = true
  := by
  induction fuel generalizing s nursery under with
  | zero => omega
  | succ fuel ih =>
    rw [Runtime.cancelWithin]
    split
    next cancelled => exact ⟨tree, cancelled⟩
    next =>
      have marked := tree.mark nursery
      have only := OnlyCancels.mark s nursery
      have self : (((s.setNursery nursery fun body =>
          { body with cancelled := true, cancelWaiters := [] }).enqueue
            (s.nurseries nursery).cancelWaiters).nurseries nursery).cancelled = true := by
        change (Function.update s.nurseries nursery _ nursery).cancelled = true
        rw [update_self]
      have younger := tree.descendants nursery
      -- Each descendant that is there is cancelled in its turn, and stays so.
      have all : ∀ (descendants : List ℕ) (t : Runtime V),
          (∀ descendant ∈ descendants, nursery < descendant ∧ descendant < s.madeNurseries) →
          TreeBut (fun other => under other ∨ other = nursery) t →
          t.madeNurseries = s.madeNurseries →
          TreeBut (fun other => under other ∨ other = nursery)
            (descendants.foldl (fun s descendant =>
              if (s.nurseries descendant).held then Runtime.cancelWithin fuel s descendant
              else s) t) ∧
          ∀ descendant ∈ descendants,
            ((descendants.foldl (fun s descendant =>
              if (s.nurseries descendant).held then Runtime.cancelWithin fuel s descendant
              else s) t).nurseries descendant).held = true →
            ((descendants.foldl (fun s descendant =>
              if (s.nurseries descendant).held then Runtime.cancelWithin fuel s descendant
              else s) t).nurseries descendant).cancelled = true := by
        intro descendants
        induction descendants with
        | nil =>
          intro t _ tree_t _
          refine ⟨tree_t, ?_⟩
          intro descendant mem
          cases mem
        | cons first more ihMore =>
          intro t below tree_t made_t
          obtain ⟨lt, lt'⟩ := below first mem_cons_self
          have step : OnlyCancels t (if (t.nurseries first).held then
              Runtime.cancelWithin fuel t first else t) ∧
              TreeBut (fun other => under other ∨ other = nursery)
                (if (t.nurseries first).held then Runtime.cancelWithin fuel t first else t) ∧
              ((t.nurseries first).held = true →
                ((if (t.nurseries first).held then Runtime.cancelWithin fuel t first
                  else t).nurseries first).cancelled = true) := by
            split
            next held =>
              have made_first : first < t.madeNurseries := by omega
              obtain ⟨kept, cancelled⟩ := ih tree_t made_first (by omega)
              exact ⟨OnlyCancels.cancelWithin fuel t first, kept, fun _ => cancelled⟩
            next unheld => exact ⟨OnlyCancels.refl t, tree_t, fun held => absurd held unheld⟩
          obtain ⟨only_t, tree_t', cancelled⟩ := step
          obtain ⟨tree_all, reached⟩ := ihMore _
            (fun descendant mem => below descendant (mem_cons_of_mem first mem)) tree_t'
            (only_t.madeNurseries.trans made_t)
          refine ⟨tree_all, ?_⟩
          intro descendant mem held
          obtain rfl | mem := mem_cons.mp mem
          · have only_more := OnlyCancels.foldl (f := fun s descendant =>
              if (s.nurseries descendant).held then Runtime.cancelWithin fuel s descendant
              else s) (fun s item => by
                split
                · apply OnlyCancels.cancelWithin
                · apply OnlyCancels.refl) more
              (if (t.nurseries descendant).held then Runtime.cancelWithin fuel t descendant
                else t)
            apply only_more.cancelled
            apply cancelled
            rw [foldl_cons, only_more.held, only_t.held] at held
            exact held
          · apply reached descendant mem held
      obtain ⟨tree', reached⟩ := all _ _ younger marked only.madeNurseries
      have only' := OnlyCancels.foldl (f := fun s descendant =>
        if (s.nurseries descendant).held then Runtime.cancelWithin fuel s descendant
        else s) (fun s item => by
          split
          · apply OnlyCancels.cancelWithin
          · apply OnlyCancels.refl) (s.nurseries nursery).descendants
        ((s.setNursery nursery fun body =>
          { body with cancelled := true, cancelWaiters := [] }).enqueue
            (s.nurseries nursery).cancelWaiters)
      refine ⟨tree'.close ?_, only'.cancelled nursery self⟩
      intro descendant mem
      rw [only'.descendants, only.descendants] at mem
      apply reached descendant mem

end TreeBut

/-! ### Every step keeps the tree -/

/-- Nothing of what the tree is made of changed. -/
structure SameTree (s s' : Runtime V) : Prop where
  madeNurseries : s'.madeNurseries = s.madeNurseries
  descendants : ∀ nursery, (s'.nurseries nursery).descendants = (s.nurseries nursery).descendants
  parent : ∀ nursery, (s'.nurseries nursery).parent = (s.nurseries nursery).parent
  cancelled : ∀ nursery, (s'.nurseries nursery).cancelled = (s.nurseries nursery).cancelled
  held : ∀ nursery, (s'.nurseries nursery).held = true → (s.nurseries nursery).held = true

namespace SameTree

theorem refl (s : Runtime V) :
  SameTree s s
  := ⟨rfl, fun _ => rfl, fun _ => rfl, fun _ => rfl, fun _ held => held⟩

theorem trans {s₁ s₂ s₃ : Runtime V} (first : SameTree s₁ s₂) (second : SameTree s₂ s₃) :
  SameTree s₁ s₃
  := ⟨second.madeNurseries.trans first.madeNurseries,
    fun nursery => (second.descendants nursery).trans (first.descendants nursery),
    fun nursery => (second.parent nursery).trans (first.parent nursery),
    fun nursery => (second.cancelled nursery).trans (first.cancelled nursery),
    fun nursery held => first.held nursery (second.held nursery held)⟩

theorem of_eq {s s' : Runtime V} (nurseries : s'.nurseries = s.nurseries)
    (madeNurseries : s'.madeNurseries = s.madeNurseries) :
  SameTree s s'
  := by
  refine ⟨madeNurseries, ?_, ?_, ?_, ?_⟩
  all_goals
    intro nursery
    rw [nurseries]
  exact fun held => held

theorem setNursery (s : Runtime V) (nursery : ℕ) {f : NurseryBody → NurseryBody}
    (descendants : (f (s.nurseries nursery)).descendants = (s.nurseries nursery).descendants)
    (parent : (f (s.nurseries nursery)).parent = (s.nurseries nursery).parent)
    (cancelled : (f (s.nurseries nursery)).cancelled = (s.nurseries nursery).cancelled)
    (held : (f (s.nurseries nursery)).held = true → (s.nurseries nursery).held = true) :
  SameTree s (s.setNursery nursery f)
  := by
  have old : ∀ other, other ≠ nursery → (s.setNursery nursery f).nurseries other = s.nurseries other :=
    fun other ne => update_of_ne ne _ _
  have new : (s.setNursery nursery f).nurseries nursery = f (s.nurseries nursery) :=
    update_self _ _ _
  refine ⟨rfl, ?_, ?_, ?_, ?_⟩
  all_goals
    intro other
    by_cases same : other = nursery
  · rw [same, new, descendants]
  · rw [old other same]
  · rw [same, new, parent]
  · rw [old other same]
  · rw [same, new, cancelled]
  · rw [old other same]
  · rw [same, new]
    exact held
  · rw [old other same]
    exact fun held => held

theorem foldl {A : Type*} {f : Runtime V → A → Runtime V} (step : ∀ s item, SameTree s (f s item))
    (items : List A) (s : Runtime V) :
  SameTree s (items.foldl f s)
  := by
  induction items generalizing s with
  | nil => apply refl
  | cons item items ih => exact (step s item).trans (ih (f s item))

section

variable (s : Runtime V)

theorem reportUnobserved (task : ℕ) :
  SameTree s (s.reportUnobserved task)
  := by
  rw [Runtime.reportUnobserved]
  split
  · apply refl
  · exact of_eq rfl rfl

theorem settleTimer (timer : ℕ) (verdict : Bool) :
  SameTree s (s.settleTimer timer verdict)
  := by
  rw [Runtime.settleTimer]
  split
  · apply refl
  · exact of_eq rfl rfl

theorem cancelSlot (slot : Option ℕ) :
  SameTree s (s.cancelSlot slot)
  := by
  cases slot with
  | none => apply refl
  | some slot => exact of_eq rfl rfl

theorem cancelTimer (timer : ℕ) :
  SameTree s (s.cancelTimer timer)
  := by
  rw [Runtime.cancelTimer]
  split
  · apply refl
  · exact (cancelSlot s _).trans (settleTimer _ timer false)

theorem fireTimer (slot : ℕ) :
  SameTree s (s.fireTimer slot)
  := by
  have fired : SameTree s (s.setSlot slot fun _ => ⟨true, (s.slots slot).cancelled, none⟩) :=
    of_eq rfl rfl
  rw [Runtime.fireTimer]
  split
  · exact of_eq rfl rfl
  · exact fired.trans (settleTimer _ _ true)
  · exact fired

theorem reportUnobservedFailures :
  SameTree s s.reportUnobservedFailures
  := by
  rw [Runtime.reportUnobservedFailures]
  apply foldl
  intro s task
  split
  · apply reportUnobserved
  · apply refl

theorem observeAll (tasks : List ℕ) :
  SameTree s (s.observeAll tasks)
  := by
  apply foldl
  intro s task
  exact of_eq rfl rfl

theorem parkFail (id : TaskId) (nursery : ℕ) :
  SameTree s (s.parkFail id nursery)
  := setNursery s nursery rfl rfl rfl fun held => held

theorem parkSignal (id : TaskId) (signal : Option ℕ) :
  SameTree s (s.parkSignal id signal)
  := by
  cases signal with
  | none => apply refl
  | some nursery =>
    rw [Runtime.parkSignal]
    split
    · exact setNursery s nursery rfl rfl rfl fun held => held
    · apply refl

theorem pollLeaf (id : TaskId) (leaf : Leaf) :
  SameTree s (s.pollLeaf id leaf).1
  := by
  cases leaf with
  | taskJoin task =>
    rw [Runtime.pollLeaf, Runtime.pollTaskJoin]
    split
    · exact of_eq rfl rfl
    · exact of_eq rfl rfl
  | nodeJoin node nursery =>
    rw [Runtime.pollLeaf, Runtime.pollNodeJoin]
    split
    · exact of_eq rfl rfl
    · have observed : SameTree s (s.observe node) := of_eq rfl rfl
      apply (observed.trans (parkFail _ id nursery)).trans
      exact of_eq rfl rfl
  | sleep signal slot =>
    cases slot with
    | none =>
      rw [Runtime.pollLeaf, Runtime.pollSleep]
      split
      · exact cancelSlot s none
      · have registered : SameTree s (s.registerTimer (.enqueue (some id))).1 := of_eq rfl rfl
        exact registered.trans (parkSignal _ id signal)
    | some slot =>
      rw [Runtime.pollLeaf, Runtime.pollSleep]
      split
      · exact cancelSlot s (some slot)
      split
      · apply refl
      · apply parkSignal
  | timerWait timer signal parked =>
    rw [Runtime.pollLeaf, Runtime.pollTimerWait]
    split
    · apply refl
    split
    · dsimp only
      split
      · exact of_eq rfl rfl
      · apply refl
    · have parked : SameTree s (s.parkTimer id timer) := of_eq rfl rfl
      exact parked.trans (parkSignal _ id signal)
  | allSettledOrAnyFailed nodes =>
    rw [Runtime.pollLeaf, Runtime.pollSettleAll]
    split
    · apply observeAll
    · apply (observeAll s nodes).trans
      apply foldl
      intro s task
      split
      · apply refl
      · exact of_eq rfl rfl
  | anySettled nodes =>
    rw [Runtime.pollLeaf, Runtime.pollRace]
    split
    · apply observeAll
    · apply (observeAll s nodes).trans
      apply foldl
      intro s task
      exact of_eq rfl rfl
  | yieldOnce yielded =>
    rw [Runtime.pollLeaf, Runtime.pollYieldOnce]
    split
    · apply refl
    · exact of_eq rfl rfl

end

end SameTree

namespace TreeBut

variable {s : Runtime V} {nursery : ℕ}

/-- A tree whose parts have not changed, or of whose nurseries some have gone. -/
theorem same {s' : Runtime V} (tree : Tree s) (same : SameTree s s') :
  Tree s'
  := by
  refine ⟨?_, ?_⟩
  · intro parent nursery listed
    rw [same.descendants] at listed
    rw [same.madeNurseries]
    apply tree.descendants parent nursery listed
  · intro nursery lt parent parent_eq
    rw [same.madeNurseries] at lt ⊢
    rw [same.parent] at parent_eq
    rw [same.cancelled, same.cancelled, same.descendants]
    obtain ⟨made, listed⟩ := tree.parents nursery lt parent parent_eq
    use made
    intro held held'
    apply listed (same.held parent held) (same.held nursery held')

theorem cancel (tree : Tree s) (made : nursery < s.madeNurseries) :
  Tree (s.cancel nursery)
  := (tree.cancelWithin made (Nat.sub_le _ _)).1

theorem fail (tree : Tree s) (made : nursery < s.madeNurseries) (task : ℕ) :
  Tree (s.fail nursery task)
  := by
  rw [Runtime.fail]
  split
  · split
    · exact tree
    · exact tree.same (.reportUnobserved s task)
  split
  · exact tree
  · have latched : Tree (s.setNursery nursery fun body => { body with failed := some task }) :=
      tree.same (.setNursery s nursery rfl rfl rfl fun held => held)
    have made_latched : nursery <
        (s.setNursery nursery fun body => { body with failed := some task }).madeNurseries := made
    have cancelled := latched.cancel made_latched
    have cleared := SameTree.setNursery
      ((s.setNursery nursery fun body => { body with failed := some task }).cancel nursery) nursery
      (f := fun body => { body with failWaiters := [] }) rfl rfl rfl fun held => held
    exact (cancelled.same cleared).same (.of_eq rfl rfl)

theorem settle (tree : Tree s) (task : ℕ) (failure : Option Failure)
    (made : ∀ nursery, (s.nodes task).nursery = some nursery → nursery < s.madeNurseries) :
  Tree (s.settle task failure)
  := by
  rw [Runtime.settle]
  split
  · exact tree
  · have marked : Tree (s.setNode task fun node =>
        { node with settled := true, driver := none, failure := failure }) :=
      tree.same (.of_eq rfl rfl)
    dsimp only
    split
    next nursery nursery_eq =>
      exact (marked.fail (made nursery nursery_eq) task).same (.of_eq rfl rfl)
    next => exact marked.same (.of_eq rfl rfl)

/-- A nursery that is made under none. -/
theorem opens (tree : Tree s) {body : NurseryBody} (alone : body.parent = none)
    (empty : body.descendants = []) :
  Tree { s with
    nurseries := Function.update s.nurseries s.madeNurseries body
    madeNurseries := s.madeNurseries + 1 }
  := by
  have old : ∀ nursery, nursery ≠ s.madeNurseries →
      Function.update s.nurseries s.madeNurseries body nursery = s.nurseries nursery :=
    fun nursery ne => update_of_ne ne _ _
  have new : Function.update s.nurseries s.madeNurseries body s.madeNurseries = body :=
    update_self _ _ _
  refine ⟨?_, ?_⟩
  · intro parent nursery listed
    dsimp only at listed ⊢
    by_cases same : parent = s.madeNurseries
    · rw [same, new, empty] at listed
      cases listed
    · rw [old parent same] at listed
      have younger := tree.descendants parent nursery listed
      omega
  · intro nursery lt parent parent_eq
    dsimp only at lt parent_eq ⊢
    by_cases same : nursery = s.madeNurseries
    · rw [same, new, alone] at parent_eq
      cases parent_eq
    · rw [old nursery same] at parent_eq ⊢
      obtain ⟨made, listed⟩ := tree.parents nursery (by omega) parent parent_eq
      rw [old parent (by omega)]
      exact ⟨by omega, listed⟩

/-- While the tree is in order, a nursery that is there is cancelled when any of those above it is,
as far up as they are there. -/
theorem cancelled_of_isCancelledWithin (tree : Tree s) {fuel : ℕ} (made : nursery < s.madeNurseries)
    (held : (s.nurseries nursery).held = true)
    (isCancelled : s.isCancelledWithin fuel nursery = true) :
  (s.nurseries nursery).cancelled = true
  := by
  induction fuel generalizing nursery with
  | zero => cases isCancelled
  | succ fuel ih =>
    rw [Runtime.isCancelledWithin, Bool.or_eq_true] at isCancelled
    obtain cancelled | above := isCancelled
    · exact cancelled
    · rw [Option.any_eq_true] at above
      obtain ⟨parent, parent_eq, both⟩ := above
      rw [Bool.and_eq_true] at both
      obtain ⟨made_parent, listed⟩ := tree.parents nursery made parent parent_eq
      have cancelled := ih made_parent both.1 both.2
      obtain done | ⟨either, _⟩ := listed both.1 held
      · exact done
      · rw [cancelled] at either
        obtain absurd_ | absurd_ := either
        · cases absurd_
        · cases absurd_

/-- A nursery is made under another: it is cancelled, or it is listed there and the other is not. -/
theorem grows {s' : Runtime V} (tree : Tree s) {parent : ℕ} (made : parent < s.madeNurseries)
    (madeNurseries : s'.madeNurseries = s.madeNurseries + 1)
    (kept : ∀ nursery, nursery ≠ s.madeNurseries →
      (s'.nurseries nursery).parent = (s.nurseries nursery).parent ∧
        (s'.nurseries nursery).cancelled = (s.nurseries nursery).cancelled ∧
        (s'.nurseries nursery).held = (s.nurseries nursery).held ∧
        (s'.nurseries nursery).descendants = (s.nurseries nursery).descendants
          ++ if nursery = parent ∧ (s'.nurseries s.madeNurseries).cancelled = false then
            [s.madeNurseries] else []) (fresh : (s'.nurseries s.madeNurseries).descendants = [])
    (under : (s'.nurseries s.madeNurseries).parent = some parent)
    (linked : (s'.nurseries s.madeNurseries).cancelled = false →
      (s.nurseries parent).cancelled = false) :
  Tree s'
  := by
  refine ⟨?_, ?_⟩
  · intro nursery descendant listed
    rw [madeNurseries]
    by_cases new : nursery = s.madeNurseries
    · rw [new, fresh] at listed
      cases listed
    · rw [(kept nursery new).2.2.2, mem_append] at listed
      obtain listed | listed := listed
      · have younger := tree.descendants nursery descendant listed
        omega
      · split at listed
        next same =>
          rw [mem_singleton] at listed
          omega
        next => cases listed
  · intro nursery lt above above_eq
    rw [madeNurseries] at lt ⊢
    by_cases new : nursery = s.madeNurseries
    · rw [new, under, Option.some_inj] at above_eq
      subst above_eq
      use Nat.lt_succ_of_lt made
      intro _ _
      rw [new]
      by_cases cancelled : (s'.nurseries s.madeNurseries).cancelled = true
      · exact Or.inl cancelled
      · rw [Bool.not_eq_true] at cancelled
        have old := kept parent (by omega)
        refine Or.inr ⟨Or.inl ?_, ?_⟩
        · rw [old.2.1]
          apply linked cancelled
        · rw [old.2.2.2, if_pos ⟨rfl, cancelled⟩]
          apply mem_append_right _ mem_cons_self
    · rw [(kept nursery new).1] at above_eq
      obtain ⟨made_above, listed⟩ := tree.parents nursery (by omega) above above_eq
      obtain ⟨_, cancelled, held, descendants⟩ := kept above (by omega)
      rw [(kept nursery new).2.1, (kept nursery new).2.2.1, cancelled, held, descendants]
      use Nat.lt_succ_of_lt made_above
      intro held_above held_nursery
      obtain done | ⟨either, mem⟩ := listed held_above held_nursery
      · exact Or.inl done
      · exact Or.inr ⟨either, mem_append_left _ mem⟩

/-- Cancelling a nursery that has no descendants only marks it. -/
theorem cancel_eq (made : nursery < s.madeNurseries)
    (alive : (s.nurseries nursery).cancelled = false)
    (leaf : (s.nurseries nursery).descendants = []) :
  s.cancel nursery = (s.setNursery nursery fun body =>
    { body with cancelled := true, cancelWaiters := [] }).enqueue (s.nurseries nursery).cancelWaiters
  := by
  rw [Runtime.cancel]
  cases fuel_eq : s.madeNurseries with
  | zero => omega
  | succ fuel =>
    rw [Runtime.cancelWithin, if_neg (by rw [alive]; exact Bool.false_ne_true), leaf]
    rfl

theorem nurseryNew (tree : Tree s) {parent : Option ℕ}
    (made : ∀ nursery ∈ parent, nursery < s.madeNurseries) :
  Tree (s.nurseryNew parent)
  := by
  cases parent with
  | none => exact tree.opens rfl rfl
  | some parent =>
    have lt := made parent rfl
    have ne : parent ≠ s.madeNurseries := Nat.ne_of_lt lt
    rw [Runtime.nurseryNew]
    generalize opened_eq : ({ s with
      nurseries := Function.update s.nurseries s.madeNurseries
        ⟨[], false, none, [], [], [], some parent, false, true⟩
      madeNurseries := s.madeNurseries + 1 } : Runtime V) = opened
    have opened_made : opened.madeNurseries = s.madeNurseries + 1 := by rw [← opened_eq]
    have new : opened.nurseries s.madeNurseries
        = ⟨[], false, none, [], [], [], some parent, false, true⟩ := by
      rw [← opened_eq]
      apply update_self
    have old : ∀ nursery, nursery ≠ s.madeNurseries →
        opened.nurseries nursery = s.nurseries nursery := by
      intro nursery ne
      rw [← opened_eq]
      apply update_of_ne ne
    split
    next =>
      rw [cancel_eq (by omega) (by rw [new]) (by rw [new])]
      have only := OnlyCancels.mark opened s.madeNurseries
      have marked : (((opened.setNursery s.madeNurseries fun body =>
          { body with cancelled := true, cancelWaiters := [] }).enqueue
            (opened.nurseries s.madeNurseries).cancelWaiters).nurseries
              s.madeNurseries).cancelled = true := by
        change (Function.update opened.nurseries s.madeNurseries _ s.madeNurseries).cancelled = true
        rw [update_self]
      apply tree.grows lt (only.madeNurseries.trans opened_made)
      · intro nursery ne
        rw [only.parent, only.held, only.descendants, old nursery ne, marked,
          if_neg (fun both => Bool.noConfusion both.2), append_nil]
        refine ⟨rfl, ?_, rfl, rfl⟩
        change (Function.update opened.nurseries s.madeNurseries _ nursery).cancelled = _
        rw [update_of_ne ne, old nursery ne]
      · rw [only.descendants, new]
      · rw [only.parent, new]
      · rw [marked]
        intro absurd_
        cases absurd_
    next alive =>
      have listed : ∀ nursery, (opened.setNursery parent fun body =>
          { body with descendants := body.descendants ++ [s.madeNurseries] }).nurseries nursery
            = if nursery = parent then
                { opened.nurseries parent with
                  descendants := (opened.nurseries parent).descendants ++ [s.madeNurseries] }
              else opened.nurseries nursery := fun nursery => update_apply _ _ _ _
      have grown : (opened.setNursery parent fun body =>
          { body with descendants := body.descendants ++ [s.madeNurseries] }).madeNurseries
            = s.madeNurseries + 1 := opened_made
      apply tree.grows lt grown
      · intro nursery ne_new
        rw [listed, listed, if_neg (Ne.symm ne), new]
        split
        next same =>
          subst same
          rw [old nursery ne, if_pos ⟨rfl, rfl⟩]
          exact ⟨rfl, rfl, rfl, rfl⟩
        next other =>
          rw [old nursery ne_new, if_neg (fun both => other both.1), append_nil]
          exact ⟨rfl, rfl, rfl, rfl⟩
      · rw [listed, if_neg (Ne.symm ne), new]
      · rw [listed, if_neg (Ne.symm ne), new]
      · intro _
        rw [Runtime.isCancelled, Runtime.isCancelledWithin, old parent ne, Bool.or_eq_true,
          not_or, Bool.not_eq_true] at alive
        exact alive.1

end TreeBut

end Vilan.Executor
