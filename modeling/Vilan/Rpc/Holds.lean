import Mathlib

/-!
# Holds on a channel

What a channel carries is counted per demand: a subscription adds a hold, and the end of one takes a
hold off, if there is one.  A channel that is withdrawn when it is drained is gone from then on.  The
order in which these arrive matters for some of them.
-/

namespace Vilan.Holds

open List Function

variable {D : Type*} [DecidableEq D]

/-- What is asked of a channel for a demand. -/
inductive Ask (D : Type*) where
  | subscribe (demand : D)
  | unsubscribe (demand : D)
  deriving DecidableEq

/-- One hold more. -/
def hold (holds : D → ℕ) (demand : D) : D → ℕ :=
  Function.update holds demand (holds demand + 1)

/-- One hold fewer. -/
def release (holds : D → ℕ) (demand : D) : D → ℕ :=
  Function.update holds demand (holds demand - 1)

open Classical in
/-- The holds of a channel after one more ask, unless it is gone. -/
noncomputable def step (withdrawn : Bool) : Option (D → ℕ) → Ask D → Option (D → ℕ)
  | none, _ => none
  | some holds, .subscribe demand => some (hold holds demand)
  | some holds, .unsubscribe demand =>
      if withdrawn = true ∧ release holds demand = 0 then none else some (release holds demand)

/-- The holds of a channel after a list of asks. -/
noncomputable def after (withdrawn : Bool) (holds : Option (D → ℕ)) (asks : List (Ask D)) :
    Option (D → ℕ) :=
  asks.foldl (step withdrawn) holds

/-- Two channels carry the same demands. -/
def Same : Option (D → ℕ) → Option (D → ℕ) → Prop
  | none, none => True
  | some holds, some holds' => ∀ demand, 0 < holds demand ↔ 0 < holds' demand
  | _, _ => False

/-- The order of the asks does not matter. -/
def Unordered (withdrawn : Bool) (holds : D → ℕ) (asks : List (Ask D)) : Prop :=
  ∀ order : List (Ask D), order.Perm asks →
    Same (after withdrawn (some holds) order) (after withdrawn (some holds) asks)

/-- How often a demand is subscribed. -/
def subscribed (asks : List (Ask D)) (demand : D) : ℕ :=
  asks.count (.subscribe demand)

/-- How often a demand is unsubscribed. -/
def unsubscribed (asks : List (Ask D)) (demand : D) : ℕ :=
  asks.count (.unsubscribe demand)

/-- Each demand that is subscribed keeps a hold whatever the order. -/
def Kept (holds : D → ℕ) (asks : List (Ask D)) : Prop :=
  ∀ demand, subscribed asks demand = 0 ∨
    unsubscribed asks demand < holds demand + subscribed asks demand

/-- The channel is drained whatever the order: every hold is released, and no demand is held while
another one is subscribed. -/
def Drained (holds : D → ℕ) (asks : List (Ask D)) : Prop :=
  (∀ demand, holds demand + subscribed asks demand ≤ unsubscribed asks demand) ∧
    ∀ demand other, demand ≠ other →
      subscribed asks demand = 0 ∨ holds other + subscribed asks other = 0

/-! ### A channel that stays -/

theorem hold_apply (holds : D → ℕ) (demand other : D) :
  hold holds demand other = holds other + if other = demand then 1 else 0
  := by
  rw [hold, update_apply]
  split
  next h => rw [h]
  next => rfl

theorem release_apply (holds : D → ℕ) (demand other : D) :
  release holds demand other = holds other - if other = demand then 1 else 0
  := by
  rw [release, update_apply]
  split
  next h => rw [h]
  next => rfl

theorem subscribed_cons (ask : Ask D) (asks : List (Ask D)) (demand : D) :
  subscribed (ask :: asks) demand =
    subscribed asks demand + if ask = .subscribe demand then 1 else 0
  := by
  rw [subscribed, count_cons]
  simp [subscribed]

theorem unsubscribed_cons (ask : Ask D) (asks : List (Ask D)) (demand : D) :
  unsubscribed (ask :: asks) demand =
    unsubscribed asks demand + if ask = .unsubscribe demand then 1 else 0
  := by
  rw [unsubscribed, count_cons]
  simp [unsubscribed]

theorem after_cons (withdrawn : Bool) (holds : Option (D → ℕ)) (ask : Ask D) (asks : List (Ask D)) :
  after withdrawn holds (ask :: asks) = after withdrawn (step withdrawn holds ask) asks
  := rfl

theorem after_append (withdrawn : Bool) (holds : Option (D → ℕ)) (asks others : List (Ask D)) :
  after withdrawn holds (asks ++ others) = after withdrawn (after withdrawn holds asks) others
  := foldl_append

theorem after_none (withdrawn : Bool) (asks : List (Ask D)) :
  after withdrawn none asks = none
  := by
  induction asks with
  | nil => rfl
  | cons ask asks ih => apply ih

/-- A channel that stays has holds: none fewer than are left of those that were taken, and, where
nothing is subscribed, none more. -/
theorem after_kept (holds : D → ℕ) (asks : List (Ask D)) :
  ∃ holds', after false (some holds) asks = some holds' ∧
    (∀ demand, holds demand + subscribed asks demand ≤ holds' demand + unsubscribed asks demand) ∧
      ∀ demand, subscribed asks demand = 0 → holds' demand = holds demand - unsubscribed asks demand
  := by
  induction asks generalizing holds with
  | nil =>
    refine ⟨holds, rfl, ?_, ?_⟩
    · intro demand
      apply Nat.le_refl
    · intro demand _
      rfl
  | cons ask asks ih =>
    cases ask with
    | subscribe demand =>
      obtain ⟨holds', heq, least, rest⟩ := ih (hold holds demand)
      refine ⟨holds', heq, ?_, ?_⟩
      · intro other
        have le := least other
        rw [hold_apply] at le
        rw [subscribed_cons, unsubscribed_cons]
        simp only [Ask.subscribe.injEq, reduceCtorEq, if_false, eq_comm (a := demand)] at le ⊢
        omega
      · intro other none_
        rw [subscribed_cons] at none_
        rw [unsubscribed_cons]
        have ne : ¬ demand = other := by
          rintro rfl
          simp at none_
        have eq' := rest other (by omega)
        rw [hold_apply, if_neg (Ne.symm ne)] at eq'
        rw [eq']
        simp
    | unsubscribe demand =>
      obtain ⟨holds', heq, least, rest⟩ := ih (release holds demand)
      refine ⟨holds', ?_, ?_, ?_⟩
      · rw [after_cons, step, if_neg (by simp), heq]
      · intro other
        have le := least other
        rw [release_apply] at le
        rw [subscribed_cons, unsubscribed_cons]
        simp only [Ask.unsubscribe.injEq, reduceCtorEq, if_false, eq_comm (a := demand)] at le ⊢
        omega
      · intro other none_
        rw [subscribed_cons] at none_
        rw [unsubscribed_cons]
        have eq' := rest other (by omega)
        rw [release_apply] at eq'
        simp only [Ask.unsubscribe.injEq, eq_comm (a := demand)]
        omega

/-- Whether an ask adds a hold. -/
def Ask.adds : Ask D → Bool
  | .subscribe _ => true
  | .unsubscribe _ => false

theorem subscribed_adds (asks : List (Ask D)) (demand : D) :
  subscribed (asks.filter (·.adds)) demand = subscribed asks demand ∧
    unsubscribed (asks.filter (·.adds)) demand = 0
  := by
  constructor
  · apply count_filter
    rfl
  · rw [unsubscribed, List.count_eq_zero]
    intro mem
    cases (mem_filter.mp mem).2

theorem unsubscribed_takes (asks : List (Ask D)) (demand : D) :
  unsubscribed (asks.filter (!·.adds)) demand = unsubscribed asks demand ∧
    subscribed (asks.filter (!·.adds)) demand = 0
  := by
  constructor
  · apply count_filter
    rfl
  · rw [subscribed, List.count_eq_zero]
    intro mem
    cases (mem_filter.mp mem).2

theorem perm_adds_first (asks : List (Ask D)) :
  (asks.filter (·.adds) ++ asks.filter (!·.adds)).Perm asks
  := filter_append_perm _ _

theorem perm_takes_first (asks : List (Ask D)) :
  (asks.filter (!·.adds) ++ asks.filter (·.adds)).Perm asks
  := perm_append_comm.trans (perm_adds_first asks)

variable {asks : List (Ask D)} {demand : D} {holds : D → ℕ}

/-- Subscriptions only add holds. -/
theorem after_added (withdrawn : Bool) (holds : D → ℕ)
    (none_ : ∀ demand, unsubscribed asks demand = 0) :
  after withdrawn (some holds) asks = some fun demand => holds demand + subscribed asks demand
  := by
  induction asks generalizing holds with
  | nil => rfl
  | cons ask asks ih =>
    cases ask with
    | subscribe demand =>
      rw [after_cons, step, ih]
      · congr
        funext other
        rw [hold_apply, subscribed_cons]
        simp only [Ask.subscribe.injEq, eq_comm (a := demand)]
        omega
      · intro other
        have zero := none_ other
        rw [unsubscribed_cons] at zero
        omega
    | unsubscribe demand =>
      have zero := none_ demand
      rw [unsubscribed_cons, if_pos rfl] at zero
      omega

/-- On a channel that stays the order does not matter exactly when each demand that is subscribed
keeps a hold. -/
theorem unordered_kept_iff (holds : D → ℕ) (asks : List (Ask D)) :
  Unordered false holds asks ↔ Kept holds asks
  := by
  constructor
  · intro unordered demand
    by_contra lost
    rw [not_or, Nat.not_lt, ← ne_eq] at lost
    obtain ⟨some_, le⟩ := lost
    obtain ⟨zero, added⟩ := subscribed_adds asks demand
    obtain ⟨taken, zero'⟩ := unsubscribed_takes asks demand
    have adds : ∀ demand, unsubscribed (asks.filter (·.adds)) demand = 0 :=
      fun demand => (subscribed_adds asks demand).2
    obtain ⟨holds', heq, _⟩ := after_kept holds asks
    have first := unordered _ (perm_adds_first asks)
    rw [after_append, after_added false holds adds, heq] at first
    have second := unordered _ (perm_takes_first asks)
    obtain ⟨least, heq', _⟩ := after_kept holds (asks.filter (!·.adds))
    rw [after_append, heq', after_added false least adds, heq] at second
    obtain ⟨most, heq'', _, rest⟩ := after_kept
      (fun demand => holds demand + subscribed (asks.filter (·.adds)) demand)
      (asks.filter (!·.adds))
    rw [heq''] at first
    have gone := rest demand zero'
    have live := (second demand).trans (first demand).symm
    dsimp only at gone live
    omega
  · intro kept order perm
    obtain ⟨holds₁, heq₁, least₁, rest₁⟩ := after_kept holds order
    obtain ⟨holds₂, heq₂, least₂, rest₂⟩ := after_kept holds asks
    rw [heq₁, heq₂]
    intro demand
    have subscribed_eq : subscribed order demand = subscribed asks demand := perm.count_eq _
    have unsubscribed_eq : unsubscribed order demand = unsubscribed asks demand := perm.count_eq _
    have le₁ := least₁ demand
    have le₂ := least₂ demand
    obtain none_ | lt := kept demand
    · rw [rest₁ demand (subscribed_eq.trans none_), rest₂ demand none_, unsubscribed_eq]
    · omega

/-! ### A channel that is withdrawn when it is drained -/

/-- A demand that is released less often than it is held keeps the channel. -/
theorem after_withdrawn_eq (kept : unsubscribed asks demand < holds demand) :
  after true (some holds) asks = after false (some holds) asks
  := by
  induction asks generalizing holds with
  | nil => rfl
  | cons ask asks ih =>
    rw [unsubscribed_cons] at kept
    cases ask with
    | subscribe other =>
      apply ih
      rw [hold_apply]
      omega
    | unsubscribe other =>
      have kept' : unsubscribed asks demand < release holds other demand := by
        rw [release_apply]
        simp only [Ask.unsubscribe.injEq, eq_comm (a := other)] at kept
        omega
      have some_ : release holds other ≠ 0 := by
        intro zero
        rw [zero] at kept'
        apply Nat.not_lt_zero _ kept'
      rw [after_cons, after_cons, step, step, if_neg (by simp [some_]), if_neg (by simp)]
      apply ih kept'

/-- A channel none of whose demands is subscribed is gone once all are released. -/
theorem after_drained (some_ : asks ≠ []) (none_ : ∀ demand, subscribed asks demand = 0)
    (released : ∀ demand, holds demand ≤ unsubscribed asks demand) :
  after true (some holds) asks = none
  := by
  induction asks generalizing holds with
  | nil => apply absurd rfl some_
  | cons ask asks ih =>
    cases ask with
    | subscribe demand =>
      have zero := none_ demand
      rw [subscribed_cons, if_pos rfl] at zero
      omega
    | unsubscribe demand =>
      rw [after_cons, step]
      split
      next => apply after_none
      next left =>
        have left : release holds demand ≠ 0 := by simpa using left
        obtain ⟨other, held⟩ := ne_iff.mp left
        have released' : ∀ demand', release holds demand demand' ≤ unsubscribed asks demand' := by
          intro demand'
          have le := released demand'
          rw [unsubscribed_cons] at le
          rw [release_apply]
          simp only [Ask.unsubscribe.injEq, eq_comm (a := demand)] at le
          omega
        apply ih
        · rintro rfl
          have le := released' other
          apply held
          apply Nat.eq_zero_of_le_zero le
        · intro other
          have zero := none_ other
          rw [subscribed_cons] at zero
          omega
        · apply released'

/-- A channel of one demand is gone once all of its holds are released. -/
theorem after_single (some_ : asks ≠ [])
    (single : ∀ other, other ≠ demand → holds other + subscribed asks other = 0)
    (released : holds demand + subscribed asks demand ≤ unsubscribed asks demand) :
  after true (some holds) asks = none
  := by
  induction asks generalizing holds with
  | nil => apply absurd rfl some_
  | cons ask asks ih =>
    rw [subscribed_cons, unsubscribed_cons] at released
    have single' : ∀ other, other ≠ demand →
        holds other = 0 ∧ subscribed asks other = 0 ∧ ask ≠ .subscribe other := by
      intro other ne
      have zero := single other ne
      rw [subscribed_cons] at zero
      refine ⟨by omega, by omega, ?_⟩
      rintro rfl
      simp at zero
    cases ask with
    | subscribe other =>
      obtain rfl : other = demand := by
        by_contra ne
        apply (single' other ne).2.2 rfl
      rw [if_pos rfl, if_neg (by simp)] at released
      apply ih
      · rintro rfl
        simp [unsubscribed] at released
      · intro demand ne
        obtain ⟨zero, zero', _⟩ := single' demand ne
        rw [hold_apply, if_neg ne, zero, zero']
      · rw [hold_apply, if_pos rfl]
        omega
    | unsubscribe other =>
      rw [after_cons, step]
      split
      next => apply after_none
      next left =>
        have left : release holds other ≠ 0 := by simpa using left
        obtain ⟨held, ne_zero⟩ := ne_iff.mp left
        rw [Pi.zero_apply, release_apply] at ne_zero
        obtain rfl : held = demand := by
          by_contra ne
          obtain ⟨zero, _⟩ := single' held ne
          omega
        apply ih
        · rintro rfl
          simp [unsubscribed, subscribed] at released
          split at released
          next same =>
            subst same
            simp at ne_zero
            omega
          next => omega
        · intro demand ne
          obtain ⟨zero, zero', _⟩ := single' demand ne
          rw [release_apply, zero, zero', Nat.zero_sub]
        · rw [release_apply]
          simp only [Ask.unsubscribe.injEq, eq_comm (a := other), reduceCtorEq, if_false] at released
          omega

theorem same_refl (holds : Option (D → ℕ)) : Same holds holds := by
  cases holds with
  | none => trivial
  | some holds =>
    intro demand
    rfl

/-- When the order does not matter on a channel that is withdrawn when it is drained. -/
def Settled (holds : D → ℕ) (asks : List (Ask D)) : Prop :=
  (∀ demand, unsubscribed asks demand = 0) ∨ (∀ demand, subscribed asks demand = 0) ∨
    ((∃ demand, unsubscribed asks demand < holds demand) ∧ Kept holds asks) ∨ Drained holds asks

theorem Settled.unordered (h : Settled holds asks) :
  Unordered true holds asks
  := by
  intro order perm
  have subscribed_eq : ∀ demand, subscribed order demand = subscribed asks demand :=
    fun demand => perm.count_eq _
  have unsubscribed_eq : ∀ demand, unsubscribed order demand = unsubscribed asks demand :=
    fun demand => perm.count_eq _
  have gone : (∀ asks' : List (Ask D), asks'.Perm asks → after true (some holds) asks' = none) →
      Same (after true (some holds) order) (after true (some holds) asks) := by
    intro gone
    rw [gone order perm, gone asks (List.Perm.refl asks)]
    trivial
  have kept : ∀ demand, unsubscribed asks demand < holds demand → Kept holds asks →
      Same (after true (some holds) order) (after true (some holds) asks) := by
    intro demand lt kept
    rw [after_withdrawn_eq lt, after_withdrawn_eq (unsubscribed_eq demand ▸ lt)]
    apply (unordered_kept_iff holds asks).mpr kept order perm
  have released : (∀ demand, subscribed asks demand = 0) →
      Same (after true (some holds) order) (after true (some holds) asks) := by
    intro none_
    by_cases lt : ∃ demand, unsubscribed asks demand < holds demand
    · obtain ⟨demand, lt⟩ := lt
      apply kept demand lt
      intro demand
      apply Or.inl (none_ demand)
    · simp only [not_exists, Nat.not_lt] at lt
      by_cases empty : asks = []
      · subst empty
        rw [perm_nil.mp perm]
        apply same_refl
      · apply gone
        intro asks' perm'
        apply after_drained
        · rintro rfl
          apply empty (nil_perm.mp perm')
        · intro demand
          rw [subscribed, perm'.count_eq]
          apply none_
        · intro demand
          rw [unsubscribed, perm'.count_eq]
          apply lt
  obtain none_ | none_ | ⟨⟨demand, lt⟩, least⟩ | ⟨all_, single⟩ := h
  · rw [after_added true holds none_, after_added true holds]
    · intro demand
      dsimp only
      rw [subscribed_eq]
    · intro demand
      rw [unsubscribed_eq, none_]
  · apply released none_
  · apply kept demand lt least
  · by_cases some_ : ∃ demand, subscribed asks demand ≠ 0
    · obtain ⟨demand, some_⟩ := some_
      apply gone
      intro asks' perm'
      have subscribed_eq' : ∀ demand, subscribed asks' demand = subscribed asks demand :=
        fun demand => perm'.count_eq _
      apply after_single
      · rintro rfl
        apply some_
        rw [← subscribed_eq']
        rfl
      · intro other ne
        rw [subscribed_eq']
        obtain zero | zero := single demand other (Ne.symm ne)
        · apply absurd zero some_
        · apply zero
      · rw [subscribed_eq', unsubscribed, perm'.count_eq]
        apply all_
    · simp only [not_exists, not_not] at some_
      apply released some_

theorem after_ne_none (kept : unsubscribed asks demand < holds demand) :
  ∃ holds', after true (some holds) asks = some holds'
  := by
  obtain ⟨holds', heq, _⟩ := after_kept holds asks
  use holds'
  rw [after_withdrawn_eq kept, heq]

/-- An order in which the channel is not withdrawn: a demand is held while another one is released
in full, which is subscribed only then. -/
theorem exists_alive {other : D} (ne : demand ≠ other) (some_ : subscribed asks demand ≠ 0)
    (held : holds other + subscribed asks other ≠ 0) :
  ∃ order : List (Ask D), order.Perm asks ∧ after true (some holds) order ≠ none
  := by
  let others := asks.filter (· ≠ .subscribe other)
  let kept := others.filter (· ≠ .unsubscribe demand)
  have perm : (asks.filter (· = .subscribe other) ++ (others.filter (· = .unsubscribe demand) ++
      (kept.filter (· = .subscribe demand) ++ kept.filter (· ≠ .subscribe demand)))).Perm asks := by
    have split : ∀ (asks : List (Ask D)) (ask : Ask D),
        (asks.filter (· = ask) ++ asks.filter (· ≠ ask)).Perm asks := by
      intro asks ask
      simpa using filter_append_perm (fun ask' => decide (ask' = ask)) asks
    apply List.Perm.trans _ (split asks (.subscribe other))
    apply List.Perm.append_left
    apply List.Perm.trans _ (split others (.unsubscribe demand))
    apply List.Perm.append_left
    apply split
  refine ⟨_, perm, ?_⟩
  have only : ∀ (asks : List (Ask D)) (ask ask' : Ask D), ask' ≠ ask →
      (asks.filter (· = ask)).count ask' = 0 := by
    intro asks ask ask' ne
    rw [List.count_eq_zero]
    intro mem
    apply ne
    simpa using (mem_filter.mp mem).2
  -- the other demand is held, while the demand is released
  rw [after_append, after_added true holds (fun _ => only asks _ _ (by simp)), after_append]
  have released : unsubscribed (others.filter (· = .unsubscribe demand)) other <
      holds other + subscribed (asks.filter (· = .subscribe other)) other := by
    rw [unsubscribed, only others _ _ (by simpa using Ne.symm ne), subscribed,
      count_filter (by simp)]
    apply Nat.pos_of_ne_zero held
  obtain ⟨left, heq⟩ : ∃ left, after true
      (some fun other' => holds other' + subscribed (asks.filter (· = .subscribe other)) other')
      (others.filter (· = .unsubscribe demand)) = some left :=
    after_ne_none released
  rw [heq, after_append, after_added true left (fun _ => only kept _ _ (by simp))]
  -- then the demand is subscribed, and not released any more
  have kept' : unsubscribed (kept.filter (· ≠ .subscribe demand)) demand <
      left demand + subscribed (kept.filter (· = .subscribe demand)) demand := by
    have zero : unsubscribed (kept.filter (· ≠ .subscribe demand)) demand = 0 := by
      rw [unsubscribed, List.count_eq_zero]
      intro mem
      simpa [kept] using (mem_filter.mp mem).1
    have all_ : subscribed (kept.filter (· = .subscribe demand)) demand = subscribed asks demand := by
      rw [subscribed, count_filter (by simp), count_filter (by simp),
        count_filter (by simpa using ne)]
      rfl
    rw [zero, all_]
    omega
  obtain ⟨last, heq'⟩ : ∃ last, after true
      (some fun other' => left other' + subscribed (kept.filter (· = .subscribe demand)) other')
      (kept.filter (· ≠ .subscribe demand)) = some last :=
    after_ne_none kept'
  rw [heq']
  nofun

theorem settled_of_unordered (h : Unordered true holds asks) :
  Settled holds asks
  := by
  by_cases added : ∀ demand, unsubscribed asks demand = 0
  · apply Or.inl added
  by_cases taken : ∀ demand, subscribed asks demand = 0
  · apply Or.inr (.inl taken)
  right
  right
  by_cases lt : ∃ demand, unsubscribed asks demand < holds demand
  · left
    use lt
    obtain ⟨demand, lt⟩ := lt
    apply (unordered_kept_iff holds asks).mp
    intro order perm
    have same := h order perm
    have lt' : unsubscribed order demand < holds demand := by
      rw [unsubscribed, perm.count_eq]
      apply lt
    rw [after_withdrawn_eq lt, after_withdrawn_eq lt'] at same
    apply same
  · right
    simp only [not_exists, Nat.not_lt] at lt
    -- released first, the channel is gone, and so it is in every order
    have gone : after true (some holds) asks = none := by
      have same := h _ (perm_takes_first asks)
      rw [after_append, after_drained, after_none] at same
      · cases last : after true (some holds) asks with
        | none => rfl
        | some => rw [last] at same; apply False.elim same
      · obtain ⟨demand, some_⟩ := not_forall.mp added
        intro empty
        apply some_
        rw [← (unsubscribed_takes asks demand).1, empty]
        rfl
      · intro demand
        apply (unsubscribed_takes asks demand).2
      · intro demand
        rw [(unsubscribed_takes asks demand).1]
        apply lt
    have never : ∀ order : List (Ask D), order.Perm asks →
        after true (some holds) order = none := by
      intro order perm
      have same := h order perm
      rw [gone] at same
      cases last : after true (some holds) order with
      | none => rfl
      | some => rw [last] at same; apply False.elim same
    constructor
    · intro demand
      by_contra more
      rw [Nat.not_le] at more
      have none_ := never _ (perm_adds_first asks)
      rw [after_append, after_added true holds (fun demand => (subscribed_adds asks demand).2)]
        at none_
      have alive : unsubscribed (asks.filter (!·.adds)) demand <
          holds demand + subscribed (asks.filter (·.adds)) demand := by
        rw [(unsubscribed_takes asks demand).1, (subscribed_adds asks demand).1]
        apply more
      obtain ⟨left, heq⟩ : ∃ left, after true
          (some fun other => holds other + subscribed (asks.filter (·.adds)) other)
          (asks.filter (!·.adds)) = some left :=
        after_ne_none alive
      rw [heq] at none_
      cases none_
    · intro demand other ne
      by_contra both
      rw [not_or] at both
      obtain ⟨order, perm, alive⟩ := exists_alive ne both.1 both.2
      apply alive (never order perm)

/-- On a channel that is withdrawn when it is drained the order does not matter exactly when the
asks are settled. -/
theorem unordered_settled_iff (holds : D → ℕ) (asks : List (Ask D)) :
  Unordered true holds asks ↔ Settled holds asks
  := by
  constructor
  · apply settled_of_unordered
  · apply Settled.unordered

end Vilan.Holds
