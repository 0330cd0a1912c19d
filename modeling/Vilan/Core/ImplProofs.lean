import Vilan.Core.ImplSelect
import Vilan.Library.Blocked

/-!
# The answers that are kept are the least fixpoint

Which type provides which trait, and which subject applies to which type, is the least fixpoint of
two rules.  A search that answers no has refuted its question when the open questions from the
lowest cut on are blocked; so a no with no cut below the question is the answer of the least
fixpoint, and so is every answer to a question that is asked with nothing open.
-/

namespace Vilan.ImplSelect

open List Blocked

namespace Program

variable (program : Program) (walk : WalkOrder)

/-- What follows from what is proved: a type provides a trait if an implementation that provides
the trait applies to it, and a subject applies to a type if its shape matches and the bounds of its
binders are provided. -/
def Follows (proved : Set ProofKey) : ProofKey → Prop
  | .applies subject target =>
      (program.subjectShapeMatches recursionLimit subject target).1 = true ∧
        ∀ binding ∈ program.bindings walk subject target,
          program.tupleBoundHolds binding.1 binding.2 = true ∧
            ∀ traitId ∈ program.boundTraitIds binding.1, .provides binding.2 traitId ∈ proved
  | .provides typeId traitId =>
      program.providesAtOnce typeId traitId = true ∨
        ∃ implementation ∈ program.providersOf traitId,
          .applies implementation.subject typeId ∈ proved

/-- The rules, as an operator on sets of questions. -/
def rules : Set ProofKey →o Set ProofKey where
  toFun proved := { key | program.Follows walk proved key }
  monotone' := by
    intro proved more le key follows
    cases key with
    | applies subject target =>
      obtain ⟨shape, bounds⟩ := follows
      refine ⟨shape, ?_⟩
      intro binding mem
      obtain ⟨tuple, traits⟩ := bounds binding mem
      exact ⟨tuple, fun traitId mem => le (traits traitId mem)⟩
    | provides typeId traitId =>
      rcases follows with once | ⟨implementation, mem, applies⟩
      · exact Or.inl once
      · exact Or.inr ⟨implementation, mem, le applies⟩

/-- The questions that have a proof. -/
def Proved : Set ProofKey :=
  (program.rules walk).lfp

/-- The questions that have a proof without the blocked ones. -/
def Provable (blocked : Set ProofKey) : Set ProofKey :=
  provable (program.rules walk) blocked

variable {program walk}

theorem proved_iff {key : ProofKey} :
  key ∈ program.Proved walk ↔ program.Follows walk (program.Proved walk) key
  := by
  conv_lhs => rw [Proved, ← OrderHom.map_lfp]
  rfl

end Program

/-! ### What a search does -/

section Asks

variable (program : Program) (walk : WalkOrder)

/-- Every answer that is kept, and was ever kept, is that of the least fixpoint. -/
def Sound (proofs : List (ProofKey × Bool)) : Prop :=
  ∀ entry ∈ proofs, entry.2 = true ↔ entry.1 ∈ program.Proved walk

/-- The open questions from a place on. -/
def openFrom (stack : List (TypeId × Id)) (cut : WithTop ℕ) : Set ProofKey :=
  { key | ∃ (position : ℕ) (question : TypeId × Id), stack[position]? = some question ∧
      cut ≤ position ∧ key = .provides question.1 question.2 }

/-- A search leaves the open questions as they were, keeps sound answers, and has cut no cycle
below `cut`. -/
structure Ends (before after : Proving) (cut : WithTop ℕ) : Prop where
  proving : after.proving = before.proving
  sound : Sound program walk after.proofs
  lowestCut : after.lowestCut = min before.lowestCut cut

/-- A search ends from every state with these open questions: with a yes where `yes` holds, or with
a no where `no` holds when the open questions from its lowest cut on are blocked. -/
def Asks (stack : List (TypeId × Id)) (prove : Prove) (yes : Prop) (no : Set ProofKey → Prop) : Prop :=
  ∀ state : Proving, state.proving = stack → Sound program walk state.proofs →
    ∃ answer after cut, prove state = some (answer, after) ∧ Ends program walk state after cut ∧
      (answer = true → yes) ∧ (answer = false → no (openFrom stack cut))

/-- A search answers a question. -/
def Answers (stack : List (TypeId × Id)) (prove : Prove) (key : ProofKey) : Prop :=
  Asks program walk stack prove (key ∈ program.Proved walk)
    fun blocked => key ∉ program.Provable walk blocked

variable {program walk} {stack : List (TypeId × Id)}

variable {cut : WithTop ℕ} {prove : Prove} {traitId : Id} {steps : ℕ} {traits : List Id}

theorem openFrom_anti {more : WithTop ℕ} (le : cut ≤ more) :
  openFrom stack more ⊆ openFrom stack cut
  := by
  rintro key ⟨position, question, found, above, rfl⟩
  exact ⟨position, question, found, le_trans le above, rfl⟩

theorem openFrom_of_length_le (le : (stack.length : WithTop ℕ) ≤ cut) :
  openFrom stack cut = ∅
  := by
  rw [Set.eq_empty_iff_forall_notMem]
  rintro key ⟨position, question, found, above, rfl⟩
  have lt := (List.getElem?_eq_some_iff.mp found).1
  have le' := le_trans le above
  rw [Nat.cast_withTop, Nat.cast_withTop, WithTop.coe_le_coe] at le'
  omega

theorem openFrom_concat_subset {question : TypeId × Id} :
  openFrom (stack ++ [question]) cut ⊆
    insert (.provides question.1 question.2) (openFrom stack cut)
  := by
  rintro key ⟨position, other, found, above, rfl⟩
  rcases Nat.lt_or_ge position stack.length with lt | ge
  · right
    rw [getElem?_append_left lt] at found
    exact ⟨position, other, found, above, rfl⟩
  · left
    rw [getElem?_append_right ge] at found
    obtain ⟨-, rfl⟩ := List.getElem?_eq_some_iff.mp found
    simp

theorem Asks.mono {yes yes' : Prop} {no no' : Set ProofKey → Prop}
    (asks : Asks program walk stack prove yes no) (yes_imp : yes → yes')
    (no_imp : ∀ blocked, no blocked → no' blocked) :
  Asks program walk stack prove yes' no'
  := by
  intro state opened sound
  obtain ⟨answer, after, cut, prove_eq, ends, true_imp, false_imp⟩ := asks state opened sound
  exact ⟨answer, after, cut, prove_eq, ends, fun h => yes_imp (true_imp h),
    fun h => no_imp _ (false_imp h)⟩

theorem Asks.anyOf {α : Type} {prove : α → Prove} {list : List α} {yes : α → Prop}
    {no : α → Set ProofKey → Prop} (mono : ∀ a, ∀ ⦃blocked more⦄, blocked ⊆ more → no a blocked → no a more)
    (asks : ∀ a ∈ list, Asks program walk stack (prove a) (yes a) (no a)) :
  Asks program walk stack (anyOf prove list) (∃ a ∈ list, yes a) fun blocked => ∀ a ∈ list, no a blocked
  := by
  induction list with
  | nil =>
    intro state opened sound
    refine ⟨false, state, ⊤, rfl, ⟨rfl, sound, (min_top_right _).symm⟩, nofun, ?_⟩
    intro _ a mem
    cases mem
  | cons head rest ih =>
    intro state opened sound
    obtain ⟨answer, after, cut, prove_eq, ends, yes_head, no_head⟩ :=
      asks head mem_cons_self state opened sound
    rw [ImplSelect.anyOf, prove_eq]
    cases answer with
    | true =>
      refine ⟨true, after, cut, rfl, ends, ?_, nofun⟩
      intro _
      exact ⟨head, mem_cons_self, yes_head rfl⟩
    | false =>
      obtain ⟨answer, later, cut', prove_eq', ends', yes_rest, no_rest⟩ :=
        ih (fun a mem => asks a (mem_cons_of_mem _ mem)) after
          (ends.proving.trans opened) ends.sound
      refine ⟨answer, later, min cut cut', prove_eq', ?_, ?_, ?_⟩
      · constructor
        · rw [ends'.proving, ends.proving]
        · exact ends'.sound
        · rw [ends'.lowestCut, ends.lowestCut, min_assoc]
      · intro is_true
        obtain ⟨a, mem, yes_a⟩ := yes_rest is_true
        exact ⟨a, mem_cons_of_mem _ mem, yes_a⟩
      · intro is_false a mem
        rcases mem_cons.mp mem with rfl | mem
        · apply mono _ (openFrom_anti (min_le_left _ _)) (no_head rfl)
        · apply mono _ (openFrom_anti (min_le_right _ _)) (no_rest is_false a mem)

theorem Asks.allOf {α : Type} {prove : α → Prove} {list : List α} {yes : α → Prop}
    {no : α → Set ProofKey → Prop} (mono : ∀ a, ∀ ⦃blocked more⦄, blocked ⊆ more → no a blocked → no a more)
    (asks : ∀ a ∈ list, Asks program walk stack (prove a) (yes a) (no a)) :
  Asks program walk stack (allOf prove list) (∀ a ∈ list, yes a) fun blocked => ∃ a ∈ list, no a blocked
  := by
  induction list with
  | nil =>
    intro state opened sound
    refine ⟨true, state, ⊤, rfl, ⟨rfl, sound, (min_top_right _).symm⟩, ?_, nofun⟩
    intro _ a mem
    cases mem
  | cons head rest ih =>
    intro state opened sound
    obtain ⟨answer, after, cut, prove_eq, ends, yes_head, no_head⟩ :=
      asks head mem_cons_self state opened sound
    rw [ImplSelect.allOf, prove_eq]
    cases answer with
    | false =>
      refine ⟨false, after, cut, rfl, ends, nofun, ?_⟩
      intro _
      exact ⟨head, mem_cons_self, no_head rfl⟩
    | true =>
      obtain ⟨answer, later, cut', prove_eq', ends', yes_rest, no_rest⟩ :=
        ih (fun a mem => asks a (mem_cons_of_mem _ mem)) after
          (ends.proving.trans opened) ends.sound
      refine ⟨answer, later, min cut cut', prove_eq', ?_, ?_, ?_⟩
      · constructor
        · rw [ends'.proving, ends.proving]
        · exact ends'.sound
        · rw [ends'.lowestCut, ends.lowestCut, min_assoc]
      · intro is_true a mem
        rcases mem_cons.mp mem with rfl | mem
        · apply yes_head rfl
        · apply yes_rest is_true a mem
      · intro is_false
        obtain ⟨a, mem, no_a⟩ := no_rest is_false
        exact ⟨a, mem_cons_of_mem _ mem, mono _ (openFrom_anti (min_le_right _ _)) no_a⟩

theorem Answers.memoizedProof {key : ProofKey} (answers : Answers program walk stack prove key) :
  Answers program walk stack (memoizedProof key prove) key
  := by
  intro state opened sound
  rw [ImplSelect.memoizedProof]
  cases lookup_eq : state.proofs.lookup key with
  | some answer =>
    obtain ⟨newer, older, proofs_eq, -⟩ := lookup_eq_some_iff.mp lookup_eq
    have kept := sound (key, answer) (by simp [proofs_eq])
    refine ⟨answer, state, ⊤, rfl, ⟨rfl, sound, (min_top_right _).symm⟩, kept.mp, ?_⟩
    rintro rfl mem
    cases kept.mpr (provable_subset _ mem)
  | none =>
    obtain ⟨answer, after, cut, prove_eq, ends, yes, no⟩ :=
      answers { state with lowestCut := ⊤ } opened sound
    have cut_eq : after.lowestCut = cut := by
      rw [ends.lowestCut]
      apply min_top_left
    simp only [prove_eq]
    refine ⟨answer, _, cut, rfl, ⟨ends.proving, ?_, ?_⟩, yes, no⟩
    · intro entry mem
      split at mem
      next stored =>
        rcases mem_cons.mp mem with rfl | mem
        · refine ⟨yes, ?_⟩
          intro proved
          -- A no is kept only when the cut is not below the question, so that nothing is blocked.
          by_contra is_false
          have above := stored.1.resolve_left is_false
          rw [opened, cut_eq] at above
          apply no (Bool.eq_false_of_not_eq_true is_false)
          rw [openFrom_of_length_le above, Program.Provable, provable_empty]
          exact proved
        · apply ends.sound entry mem
      · apply ends.sound entry mem
    · simp only [cut_eq]

/-- A question that is open is refuted while it is blocked; one that is not is opened. -/
theorem Answers.proving {typeId : TypeId} (asks : (typeId, traitId) ∉ stack →
      Asks program walk (stack ++ [(typeId, traitId)]) prove
        (.provides typeId traitId ∈ program.Proved walk)
        fun blocked => .provides typeId traitId ∉ program.rules walk (program.Provable walk blocked)) :
  Answers program walk stack (proving typeId traitId prove) (.provides typeId traitId)
  := by
  intro state opened sound
  rw [ImplSelect.proving]
  cases find_eq : state.proving.findIdx? (fun question => question = (typeId, traitId)) with
  | some position =>
    refine ⟨false, _, position, rfl, ⟨rfl, sound, rfl⟩, nofun, ?_⟩
    intro _
    apply not_mem_provable_of_mem
    obtain ⟨lt, found, -⟩ := findIdx?_eq_some_iff_getElem.mp find_eq
    refine ⟨position, (typeId, traitId), ?_, le_rfl, rfl⟩
    rw [← opened, getElem?_eq_getElem lt, of_decide_eq_true found]
  | none =>
    have fresh : (typeId, traitId) ∉ stack := by
      intro mem
      rw [← opened] at mem
      have apart := findIdx?_eq_none_iff.mp find_eq _ mem
      simp at apart
    obtain ⟨answer, after, cut, prove_eq, ends, yes, no⟩ := asks fresh
      { state with proving := state.proving ++ [(typeId, traitId)] } (by rw [opened]) sound
    simp only [prove_eq]
    refine ⟨answer, _, cut, rfl, ⟨?_, ends.sound, ends.lowestCut⟩, yes, ?_⟩
    · simp only [ends.proving, dropLast_concat]
    · intro is_false
      apply not_mem_provable_of_insert
      intro follows
      apply no is_false
      have subset : openFrom (stack ++ [(typeId, traitId)]) cut ⊆
          insert (.provides typeId traitId) (openFrom stack cut) :=
        openFrom_concat_subset
      exact (program.rules walk).monotone (provable_anti subset) follows

/-- The bounds of a subject hold when its shape matches and it applies. -/
theorem Asks.subjectBoundsHold {provides : TypeId → Id → Prove} {subject target : TypeId}
    (shape : (program.subjectShapeMatches Program.recursionLimit subject target).1 = true)
    (answers : ∀ typeId traitId, (∃ constraint, traitId ∈ program.boundTraitIds constraint) →
      Answers program walk stack (provides typeId traitId) (.provides typeId traitId)) :
  Answers program walk stack (program.subjectBoundsHold walk provides subject target)
    (.applies subject target)
  := by
  have bounds : ∀ binding ∈ program.bindings walk subject target,
      Asks program walk stack
        (fun state =>
          if program.tupleBoundHolds binding.1 binding.2 then
            ImplSelect.allOf (provides binding.2) (program.boundTraitIds binding.1) state
          else some (false, state))
        (program.tupleBoundHolds binding.1 binding.2 = true ∧
          ∀ traitId ∈ program.boundTraitIds binding.1,
            .provides binding.2 traitId ∈ program.Proved walk)
        (fun blocked => program.tupleBoundHolds binding.1 binding.2 = true →
          ∃ traitId ∈ program.boundTraitIds binding.1,
            .provides binding.2 traitId ∉ program.Provable walk blocked) := by
    intro binding mem
    cases tuple : program.tupleBoundHolds binding.1 binding.2 with
    | false =>
      intro state opened sound
      refine ⟨false, state, ⊤, rfl, ⟨rfl, sound, (min_top_right _).symm⟩, nofun, ?_⟩
      intro _ holds
      cases holds
    | true =>
      have traits := Asks.allOf (fun traitId blocked more le refuted mem =>
          refuted (provable_anti le mem))
        fun traitId mem => answers binding.2 traitId ⟨binding.1, mem⟩
      apply traits.mono
      · intro all
        exact ⟨rfl, all⟩
      · intro blocked refuted _
        exact refuted
  have all := Asks.allOf (fun binding blocked more le refuted holds => by
    obtain ⟨traitId, mem, refuted⟩ := refuted holds
    exact ⟨traitId, mem, fun mem => refuted (provable_anti le mem)⟩) bounds
  apply all.mono
  · intro holds
    rw [Program.proved_iff]
    exact ⟨shape, holds⟩
  · rintro blocked ⟨binding, mem, refuted⟩ provable
    rw [Program.Provable, mem_provable_iff] at provable
    obtain ⟨⟨-, holds⟩, -⟩ := provable
    obtain ⟨tuple, traits⟩ := holds binding mem
    obtain ⟨traitId, mem_traits, refuted⟩ := refuted tuple
    apply refuted (traits traitId mem_traits)

theorem Answers.subjectApplies {provides : TypeId → Id → Prove} (subject target : TypeId)
    (answers : ∀ typeId traitId, (∃ constraint, traitId ∈ program.boundTraitIds constraint) →
      Answers program walk stack (provides typeId traitId) (.provides typeId traitId)) :
  Answers program walk stack (program.subjectApplies walk provides subject target)
    (.applies subject target)
  := by
  intro state opened sound
  rw [Program.subjectApplies]
  cases shape_eq : program.subjectShapeMatches Program.recursionLimit subject target with
  | mk shape refused =>
    cases shape with
    | false =>
      refine ⟨false, _, ⊤, rfl, ⟨rfl, sound, (min_top_right _).symm⟩, nofun, ?_⟩
      intro _ provable
      rw [Program.Provable, mem_provable_iff] at provable
      have shape := provable.1.1
      rw [shape_eq] at shape
      cases shape
    | true =>
      have shape : (program.subjectShapeMatches Program.recursionLimit subject target).1 = true := by
        rw [shape_eq]
      obtain ⟨answer, after, cut, prove_eq, ends, yes, no⟩ :=
        (Asks.subjectBoundsHold shape answers).memoizedProof
          { state with trips := state.trips + refused } opened sound
      exact ⟨answer, after, cut, prove_eq, ⟨ends.proving, ends.sound, ends.lowestCut⟩, yes, no⟩

/-! ### The depth of a search -/

/-- The traits that some type of the program names. -/
def traitIds (program : Program) : List Id :=
  program.types.filterMap fun type =>
    match type with
    | .trait traitId _ => some traitId
    | _ => none

theorem mem_traitIds_of_bound {constraint : TypeId}
    (mem : traitId ∈ program.boundTraitIds constraint) :
  traitId ∈ traitIds program
  := by
  obtain ⟨typeId, -, named⟩ := mem_filterMap.mp mem
  split at named
  next traitId' arguments found =>
    cases named
    apply mem_filterMap.mpr
    exact ⟨_, mem_of_getElem? found, rfl⟩
  · cases named

/-- The open questions are different questions about the types of the program and these traits, and
enough steps are left for all the others. -/
structure Deep (program : Program) (traits : List Id) (stack : List (TypeId × Id)) (steps : ℕ) :
    Prop where
  nodup : stack.Nodup
  known : ∀ question ∈ stack, question.1 < program.types.length ∧ question.2 ∈ traits
  enough : program.types.length * traits.length < steps + stack.length

theorem Deep.steps_pos (deep : Deep program traits stack steps) :
  0 < steps
  := by
  have subset : stack ⊆ List.range program.types.length ×ˢ traits := by
    intro question mem
    obtain ⟨type_lt, trait_mem⟩ := deep.known question mem
    exact mem_product.mpr ⟨mem_range.mpr type_lt, trait_mem⟩
  have le := (subperm_of_subset deep.nodup subset).length_le
  rw [length_product, length_range] at le
  have enough := deep.enough
  omega

theorem Deep.open (deep : Deep program traits stack (steps + 1)) {typeId : TypeId}
    (fresh : (typeId, traitId) ∉ stack) (type_lt : typeId < program.types.length)
    (trait_mem : traitId ∈ traits) :
  Deep program traits (stack ++ [(typeId, traitId)]) steps
  := by
  constructor
  · rw [nodup_append_comm, singleton_append, nodup_cons]
    exact ⟨fresh, deep.nodup⟩
  · intro question mem
    rcases mem_append.mp mem with mem | mem
    · apply deep.known question mem
    · rw [mem_singleton.mp mem]
      exact ⟨type_lt, trait_mem⟩
  · have enough := deep.enough
    rw [length_append, length_singleton]
    omega

/-- With enough steps, the search answers whether a type provides a trait. -/
theorem providesTrait_answers
    (bounds : ∀ constraint, ∀ traitId ∈ program.boundTraitIds constraint, traitId ∈ traits)
    (deep : Deep program traits stack steps) (typeId : TypeId) (trait_mem : traitId ∈ traits) :
  Answers program walk stack (program.providesTrait walk steps typeId traitId)
    (.provides typeId traitId)
  := by
  induction steps generalizing stack typeId traitId with
  | zero => cases Nat.lt_irrefl 0 deep.steps_pos
  | succ steps ih =>
    intro state opened sound
    rw [Program.providesTrait]
    split
    next once =>
      refine ⟨true, state, ⊤, rfl, ⟨rfl, sound, (min_top_right _).symm⟩, ?_, nofun⟩
      intro _
      rw [Program.proved_iff]
      exact Or.inl once
    next impls =>
      have type_lt : typeId < program.types.length := by
        by_contra ge
        apply impls
        rw [Program.providesAtOnce, getElem?_eq_none (Nat.not_lt.mp ge)]
      apply Answers.memoizedProof (Answers.proving _) state opened sound
      intro fresh
      have deeper := deep.open fresh type_lt trait_mem
      have subjects : ∀ implementation ∈ program.providersOf traitId,
          Asks program walk (stack ++ [(typeId, traitId)])
            (program.subjectApplies walk (program.providesTrait walk steps) implementation.subject
              typeId)
            (.applies implementation.subject typeId ∈ program.Proved walk)
            (fun blocked => .applies implementation.subject typeId ∉
              program.Provable walk blocked) := by
        intro implementation _
        apply Answers.subjectApplies
        rintro other otherTrait ⟨constraint, named⟩
        exact ih deeper other (bounds constraint otherTrait named)
      have providers := Asks.anyOf (fun implementation blocked more le refuted mem =>
        refuted (provable_anti le mem)) subjects
      apply providers.mono
      · rintro ⟨implementation, mem, applies⟩
        rw [Program.proved_iff]
        exact Or.inr ⟨implementation, mem, applies⟩
      · rintro blocked refuted (once | ⟨implementation, mem, applies⟩)
        · apply impls once
        · apply refuted implementation mem applies

/-- A question that is asked with nothing open is answered. -/
theorem ask_answers (key : ProofKey) :
  Answers program walk [] (program.ask walk key) key
  := by
  have named : (traitIds program).length ≤ program.types.length := length_filterMap_le _ _
  have deep : ∀ traitId, Deep program (traitId :: traitIds program) [] program.provingSteps := by
    intro traitId
    refine ⟨nodup_nil, nofun, ?_⟩
    rw [length_cons, Program.provingSteps, length_nil, Nat.add_zero, Nat.lt_succ_iff]
    apply Nat.mul_le_mul_left
    omega
  have bounds : ∀ traitId constraint, ∀ bound ∈ program.boundTraitIds constraint,
      bound ∈ traitId :: traitIds program := by
    intro traitId constraint bound mem
    apply mem_cons_of_mem _ (mem_traitIds_of_bound mem)
  cases key with
  | applies subject target =>
    apply Answers.subjectApplies
    rintro typeId traitId ⟨constraint, mem⟩
    apply providesTrait_answers (bounds 0) (deep 0)
    apply bounds 0 constraint traitId mem
  | provides typeId traitId =>
    apply providesTrait_answers (bounds traitId) (deep traitId)
    apply mem_cons_self

end Asks

/-! ### Questions one after the other -/

/-- **The memo never changes an answer.**  Whatever questions are asked one after the other with
nothing open, and in whatever order hash maps are walked, the answer of each is the least fixpoint's,
and so is every answer that was ever kept. -/
theorem answers_are_least (program : Program) (walk : WalkOrder) (questions : List ProofKey) :
  ∃ answers after, program.askAll walk questions Proving.fresh = some (answers, after) ∧
    List.Forall₂ (fun question answer => answer = true ↔ question ∈ program.Proved walk)
      questions answers ∧
      ∀ entry ∈ after.proofs, entry.2 = true ↔ entry.1 ∈ program.Proved walk
  := by
  suffices asked : ∀ state : Proving, state.proving = [] → Sound program walk state.proofs →
      ∃ answers after, program.askAll walk questions state = some (answers, after) ∧
        List.Forall₂ (fun question answer => answer = true ↔ question ∈ program.Proved walk)
          questions answers ∧ Sound program walk after.proofs by
    apply asked Proving.fresh rfl nofun
  induction questions with
  | nil =>
    intro state opened sound
    exact ⟨[], state, rfl, List.Forall₂.nil, sound⟩
  | cons question questions ih =>
    intro state opened sound
    obtain ⟨answer, after, cut, ask_eq, ends, yes, no⟩ := ask_answers question state opened sound
    obtain ⟨answers, later, all_eq, least, sound'⟩ :=
      ih after (ends.proving.trans opened) ends.sound
    refine ⟨answer :: answers, later, ?_, List.Forall₂.cons ⟨yes, ?_⟩ least, sound'⟩
    · rw [Program.askAll, ask_eq]
      simp only [all_eq]
    · intro proved
      by_contra is_false
      apply no (Bool.eq_false_of_not_eq_true is_false)
      have nothing : openFrom [] cut = ∅ := by
        rw [Set.eq_empty_iff_forall_notMem]
        rintro key ⟨position, other, found, -⟩
        cases found
      rw [nothing, Program.Provable, provable_empty]
      exact proved

end Vilan.ImplSelect
