import Mathlib

/-!
# Least fixpoints with some questions blocked

A monotone operator on sets of questions says which questions follow from which.  Its least fixpoint
holds the questions that have a proof.  When some questions are blocked, that is, taken to have no
proof, the least fixpoint shrinks; a question that does not follow while it is blocked itself has no
proof at all, since a proof need not use the question it proves.
-/

namespace Blocked

variable {Q : Type*} (rules : Set Q →o Set Q)

/-- The rules where the questions in `blocked` never follow. -/
def block (blocked : Set Q) : Set Q →o Set Q where
  toFun proved := rules proved \ blocked
  monotone' := by
    intro proved more le
    apply Set.sdiff_subset_sdiff_left (rules.monotone le)

/-- The questions that have a proof without the blocked ones. -/
def provable (blocked : Set Q) : Set Q :=
  (block rules blocked).lfp

variable {rules}

theorem mem_provable_iff {blocked : Set Q} {question : Q} :
  question ∈ provable rules blocked ↔
    question ∈ rules (provable rules blocked) ∧ question ∉ blocked
  := by
  conv_lhs => rw [provable, ← OrderHom.map_lfp]
  rfl

theorem provable_empty :
  provable rules ∅ = rules.lfp
  := by
  have same : block rules ∅ = rules := by
    ext proved : 2
    apply Set.sdiff_empty
  rw [provable, same]

/-- The more is blocked, the less is proved. -/
theorem provable_anti {blocked more : Set Q} (le : blocked ⊆ more) :
  provable rules more ⊆ provable rules blocked
  := by
  apply OrderHom.lfp_le
  intro question follows
  rw [mem_provable_iff]
  exact ⟨follows.1, fun mem => follows.2 (le mem)⟩

/-- What is proved with some questions blocked is proved. -/
theorem provable_subset (blocked : Set Q) :
  provable rules blocked ⊆ rules.lfp
  := by
  rw [← provable_empty]
  apply provable_anti (Set.empty_subset _)

theorem not_mem_provable_of_mem {blocked : Set Q} {question : Q} (mem : question ∈ blocked) :
  question ∉ provable rules blocked
  := by
  rw [mem_provable_iff]
  rintro ⟨-, not_mem⟩
  apply not_mem mem

/-- A question that does not follow while it is blocked need not be blocked. -/
theorem not_mem_provable_of_insert {blocked : Set Q} {question : Q}
    (h : question ∉ rules (provable rules (insert question blocked))) :
  question ∉ provable rules blocked
  := by
  have least : provable rules blocked ⊆ provable rules (insert question blocked) := by
    apply OrderHom.lfp_le
    rintro other ⟨follows, free⟩
    rw [mem_provable_iff]
    refine ⟨follows, ?_⟩
    rintro (rfl | mem)
    · apply h follows
    · apply free mem
  intro mem
  apply not_mem_provable_of_mem (Set.mem_insert _ _) (least mem)

end Blocked
