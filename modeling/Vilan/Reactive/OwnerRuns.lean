import Mathlib.Data.List.Induction
import Vilan.Reactive.Owner

/-!
# Every cleanup runs once

A registered cleanup stands in one place: in the list of a live epoch, in a release under way,
or among the cleanups that have been started.  Releases move the list of an epoch to the stack,
splits move it to a fresh owner, and nothing else takes a cleanup out of its place.
-/

namespace Vilan

open List

namespace Owners

/-- Where the registrations of a trace stand. -/
structure Accounted (trace : List Event) (s : Owners) : Prop where
  nodup : ∀ cell, (s.cells cell).cleanups.Nodup
  listed : ∀ cell, (s.cells cell).listed = false → (s.cells cell).cleanups = []
  parked : ∀ cell, ∀ cleanup ∈ (s.cells cell).cleanups,
    belongs trace cleanup = some (s.live cell) ∧ cleanup ∉ started trace ∧ cleanup ∉ s.due
  once : (started trace ++ s.due).Nodup
  numbered : ∀ cleanup, s.registered ≤ cleanup →
    belongs trace cleanup = none ∧ cleanup ∉ started trace ∧ cleanup ∉ s.due
  made : ∀ cleanup owner, belongs trace cleanup = some owner →
    owner.cell < s.made ∧ owner.epoch ≤ (s.cells owner.cell).epoch
  ended : ∀ release ∈ s.releases, ∀ owner, release.owner = some owner →
    owner.cell < s.made ∧ owner.epoch < (s.cells owner.cell).epoch
  rest : ∀ release ∈ s.releases, ∀ cleanup ∈ release.rest,
    belongs trace cleanup = release.owner
  gone : ∀ cleanup ∈ started trace, ∀ owner, belongs trace cleanup = some owner →
    owner.epoch < (s.cells owner.cell).epoch
  owned : ∀ cleanup owner, belongs trace cleanup = some owner →
    owner = s.live owner.cell ∧ cleanup ∈ (s.cells owner.cell).cleanups
      ∨ (∃ release ∈ s.releases, release.owner = some owner ∧ cleanup ∈ release.rest)
      ∨ cleanup ∈ started trace

theorem Accounted.init : Accounted [] init := by
  constructor <;> simp [Owners.init, OwnerCell.new, belongs, started, due]

/-! ### One step -/

variable {s s' : Owners} {trace : List Event} {event : Event} {cleanup cell : ℕ} {owner : Owner}

theorem Accounted.make (acc : Accounted trace s) :
  Accounted (trace ++ [.make ⟨s.made, 0⟩]) s.make
  := by
  have hbelongs : ∀ cleanup, belongs (trace ++ [.make ⟨s.made, 0⟩]) cleanup
      = belongs trace cleanup := by
    intro cleanup
    rw [belongs_append]
    rfl
  have hstarted : started (trace ++ [.make ⟨s.made, 0⟩]) = started trace := by
    simp [started_append, Event.started]
  have hnew : s.make.cells s.made = OwnerCell.new := by simp [Owners.make]
  have hold : ∀ cell, cell ≠ s.made → s.make.cells cell = s.cells cell := by
    intro cell hne
    simp [Owners.make, cells_setCell_of_ne s _ hne]
  constructor
  · intro cell
    by_cases heq : cell = s.made
    · rw [heq, hnew]
      apply nodup_nil
    · rw [hold cell heq]
      apply acc.nodup
  · intro cell
    by_cases heq : cell = s.made
    · rw [heq, hnew]
      intro _
      rfl
    · rw [hold cell heq]
      apply acc.listed
  · intro cell cleanup hmem
    rw [hbelongs, hstarted]
    by_cases heq : cell = s.made
    · rw [heq, hnew] at hmem
      cases hmem
    · rw [live, hold cell heq]
      rw [hold cell heq] at hmem
      apply acc.parked cell cleanup hmem
  · rw [hstarted]
    apply acc.once
  · intro cleanup hge
    rw [hbelongs, hstarted]
    apply acc.numbered cleanup hge
  · intro cleanup owner howner
    rw [hbelongs] at howner
    obtain ⟨hlt, hle⟩ := acc.made cleanup owner howner
    rw [hold owner.cell (by omega)]
    exact ⟨Nat.lt_succ_of_lt hlt, hle⟩
  · intro release hrelease owner howner
    obtain ⟨hlt, hlt'⟩ := acc.ended release hrelease owner howner
    rw [hold owner.cell (by omega)]
    exact ⟨Nat.lt_succ_of_lt hlt, hlt'⟩
  · intro release hrelease cleanup hmem
    rw [hbelongs]
    apply acc.rest release hrelease cleanup hmem
  · intro cleanup hmem owner howner
    rw [hbelongs] at howner
    rw [hstarted] at hmem
    have hlt := (acc.made cleanup owner howner).1
    rw [hold owner.cell (by omega)]
    apply acc.gone cleanup hmem owner howner
  · intro cleanup owner howner
    rw [hbelongs] at howner
    have hlt := (acc.made cleanup owner howner).1
    rw [live, hold owner.cell (by omega), hstarted]
    apply acc.owned cleanup owner howner

/-- An event that registers nothing, splits nothing off and starts no cleanup. -/
structure Silent (event : Event) : Prop where
  belongs : ∀ cleanup owner, belongsAfter cleanup owner event = owner
  started : event.started = none

theorem Silent.belongs_append (silent : Silent event) (trace : List Event) (cleanup : ℕ) :
  Owners.belongs (trace ++ [event]) cleanup = Owners.belongs trace cleanup
  := by
  rw [Owners.belongs_append, silent.belongs]

theorem Silent.started_append (silent : Silent event) (trace : List Event) :
  Owners.started (trace ++ [event]) = Owners.started trace
  := by
  simp [Owners.started_append, silent.started]

/-- Only what is registered and started matters of a trace. -/
theorem Accounted.silent (acc : Accounted trace s) (silent : Silent event) :
  Accounted (trace ++ [event]) s
  := by
  have hbelongs := silent.belongs_append trace
  have hstarted := silent.started_append trace
  constructor
  · apply acc.nodup
  · apply acc.listed
  · intro cell cleanup
    rw [hbelongs, hstarted]
    apply acc.parked cell cleanup
  · rw [hstarted]
    apply acc.once
  · intro cleanup
    rw [hbelongs, hstarted]
    apply acc.numbered cleanup
  · intro cleanup owner
    rw [hbelongs]
    apply acc.made cleanup owner
  · apply acc.ended
  · intro release hrelease cleanup
    rw [hbelongs]
    apply acc.rest release hrelease cleanup
  · rw [hstarted]
    intro cleanup hmem owner
    rw [hbelongs]
    apply acc.gone cleanup hmem owner
  · intro cleanup owner
    rw [hbelongs, hstarted]
    apply acc.owned cleanup owner

/-- A cleanup that is to run on the spot. -/
theorem Accounted.defer_late (acc : Accounted trace s) (owner : Owner) :
  Accounted (trace ++ [.defer owner s.registered true])
    (s.number.push ⟨none, [s.registered], false, false⟩)
  := by
  have hbelongs : ∀ cleanup, belongs (trace ++ [.defer owner s.registered true]) cleanup
      = belongs trace cleanup := by
    intro cleanup
    rw [belongs_append]
    simp [belongsAfter]
  have hstarted : started (trace ++ [.defer owner s.registered true]) = started trace := by
    simp [started_append, Event.started]
  have hdue : (s.number.push ⟨none, [s.registered], false, false⟩).due = s.registered :: s.due := by
    simp [due]
  obtain ⟨hnone, hnot, hnotdue⟩ := acc.numbered s.registered (Nat.le_refl _)
  constructor
  · apply acc.nodup
  · apply acc.listed
  · intro cell cleanup hmem
    rw [hbelongs, hstarted, hdue, mem_cons, not_or]
    obtain ⟨hsome, hns, hnd⟩ := acc.parked cell cleanup hmem
    refine ⟨hsome, hns, ?_, hnd⟩
    rintro rfl
    rw [hnone] at hsome
    cases hsome
  · rw [hstarted, hdue]
    rw [(perm_middle).nodup_iff, nodup_cons, mem_append, not_or]
    exact ⟨⟨hnot, hnotdue⟩, acc.once⟩
  · intro cleanup hge
    rw [registered_push, registered_number] at hge
    rw [hbelongs, hstarted, hdue, mem_cons, not_or]
    obtain ⟨hnone', hns, hnd⟩ := acc.numbered cleanup (by omega)
    exact ⟨hnone', hns, by omega, hnd⟩
  · intro cleanup owner'
    rw [hbelongs]
    apply acc.made cleanup owner'
  · intro release hrelease owner' howner
    obtain rfl | hrelease := List.mem_cons.1 hrelease
    · cases howner
    · apply acc.ended release hrelease owner' howner
  · intro release hrelease cleanup hmem
    rw [hbelongs]
    obtain rfl | hrelease := List.mem_cons.1 hrelease
    · rw [mem_singleton] at hmem
      subst hmem
      apply hnone
    · apply acc.rest release hrelease cleanup hmem
  · intro cleanup hmem owner' howner
    rw [hbelongs] at howner
    rw [hstarted] at hmem
    apply acc.gone cleanup hmem owner' howner
  · intro cleanup owner' howner
    rw [hbelongs] at howner
    rw [hstarted]
    obtain hparked | ⟨release, hrelease, hdue'⟩ | hrun := acc.owned cleanup owner' howner
    · left
      apply hparked
    · right
      left
      use release, mem_cons_of_mem _ hrelease
    · right
      right
      apply hrun

theorem mem_register {cell : OwnerCell} (hlisted : cell.listed = false → cell.cleanups = [])
    {other : ℕ} :
  other ∈ (cell.register cleanup).cleanups ↔ other ∈ cell.cleanups ∨ other = cleanup
  := by
  unfold OwnerCell.register
  split
  · simp
  next hnot =>
    rw [Bool.not_eq_true] at hnot
    simp [hlisted hnot]

theorem register_epoch (cell : OwnerCell) (cleanup : ℕ) :
  (cell.register cleanup).epoch = cell.epoch ∧ (cell.register cleanup).listed = true
  := by
  unfold OwnerCell.register
  split
  next h => exact ⟨rfl, h⟩
  · exact ⟨rfl, rfl⟩

theorem nodup_register {cell : OwnerCell} (hnodup : cell.cleanups.Nodup)
    (hnew : cleanup ∉ cell.cleanups) :
  (cell.register cleanup).cleanups.Nodup
  := by
  unfold OwnerCell.register
  split
  · apply hnodup.append (nodup_singleton _)
    rw [disjoint_singleton]
    apply hnew
  · apply nodup_singleton

section

variable (acc : Accounted trace s)
include acc

/-- A cleanup that is registered in the live epoch of a cell. -/
theorem Accounted.defer_live (hcell : cell < s.made) :
  Accounted (trace ++ [.defer (s.live cell) s.registered false])
    (s.number.setCell cell ((s.cells cell).register s.registered))
  := by
  obtain ⟨hnone, hnot, hnotdue⟩ := acc.numbered s.registered (Nat.le_refl _)
  have hother : ∀ cleanup, cleanup ≠ s.registered →
      belongs (trace ++ [.defer (s.live cell) s.registered false]) cleanup
        = belongs trace cleanup := by
    intro cleanup hne
    rw [belongs_append]
    simp [belongsAfter, Ne.symm hne]
  have hself : belongs (trace ++ [.defer (s.live cell) s.registered false]) s.registered
      = some (s.live cell) := by
    rw [belongs_append]
    simp [belongsAfter]
  have hstarted : started (trace ++ [.defer (s.live cell) s.registered false])
      = started trace := by
    simp [started_append, Event.started]
  have hepoch : ∀ other, ((s.number.setCell cell
      ((s.cells cell).register s.registered)).cells other).epoch = (s.cells other).epoch := by
    intro other
    by_cases heq : other = cell
    · rw [heq, cells_setCell_self]
      apply (register_epoch _ _).1
    · rw [cells_setCell_of_ne _ _ heq, cells_number]
  have hlive : ∀ other, (s.number.setCell cell
      ((s.cells cell).register s.registered)).live other = s.live other := by
    intro other
    rw [live, hepoch, live]
  have hnew : ∀ other, s.registered ∉ (s.cells other).cleanups := by
    intro other hmem
    have hsome := (acc.parked other _ hmem).1
    rw [hnone] at hsome
    cases hsome
  have hmem : ∀ other cleanup, cleanup ∈ ((s.number.setCell cell
      ((s.cells cell).register s.registered)).cells other).cleanups
        ↔ cleanup ∈ (s.cells other).cleanups ∨ other = cell ∧ cleanup = s.registered := by
    intro other cleanup
    by_cases heq : other = cell
    · rw [heq, cells_setCell_self, mem_register (acc.listed cell)]
      simp
    · rw [cells_setCell_of_ne _ _ heq, cells_number]
      simp [heq]
  constructor
  · intro other
    by_cases heq : other = cell
    · rw [heq, cells_setCell_self]
      apply nodup_register (acc.nodup cell) (hnew cell)
    · rw [cells_setCell_of_ne _ _ heq]
      apply acc.nodup
  · intro other
    by_cases heq : other = cell
    · rw [heq, cells_setCell_self, (register_epoch _ _).2]
      simp
    · rw [cells_setCell_of_ne _ _ heq]
      apply acc.listed
  · intro other cleanup hcleanup
    rw [hlive, hstarted]
    obtain hcleanup | ⟨rfl, rfl⟩ := (hmem other cleanup).1 hcleanup
    · rw [hother cleanup (fun heq => hnew other (heq ▸ hcleanup))]
      apply acc.parked other cleanup hcleanup
    · exact ⟨hself, hnot, hnotdue⟩
  · rw [hstarted]
    apply acc.once
  · intro cleanup hge
    rw [registered_setCell, registered_number] at hge
    rw [hother cleanup (by omega), hstarted]
    apply acc.numbered cleanup (by omega)
  · intro cleanup owner howner
    rw [hepoch]
    by_cases heq : cleanup = s.registered
    · rw [heq, hself, Option.some_inj] at howner
      subst howner
      exact ⟨hcell, Nat.le_refl _⟩
    · rw [hother cleanup heq] at howner
      apply acc.made cleanup owner howner
  · intro release hrelease owner howner
    rw [hepoch]
    apply acc.ended release hrelease owner howner
  · intro release hrelease cleanup hcleanup
    rw [hother]
    · apply acc.rest release hrelease cleanup hcleanup
    · rintro rfl
      apply hnotdue
      apply List.mem_flatMap.2 ⟨release, hrelease, hcleanup⟩
  · intro cleanup hcleanup owner howner
    rw [hstarted] at hcleanup
    rw [hother cleanup (fun heq => hnot (heq ▸ hcleanup))] at howner
    rw [hepoch]
    apply acc.gone cleanup hcleanup owner howner
  · intro cleanup owner howner
    rw [hlive, hmem, hstarted]
    by_cases heq : cleanup = s.registered
    · rw [heq, hself, Option.some_inj] at howner
      subst howner
      left
      exact ⟨rfl, Or.inr ⟨rfl, heq⟩⟩
    · rw [hother cleanup heq] at howner
      obtain ⟨hlive, hparked⟩ | hlater := acc.owned cleanup owner howner
      · left
        exact ⟨hlive, Or.inl hparked⟩
      · right
        apply hlater

/-- The live epoch of a cell is released: the next epoch is open, and what the epoch listed is
to be run. -/
theorem Accounted.advance (owner : Owner) (howner : owner.cell < s.made) :
  Accounted trace (s.advance owner)
  := by
  unfold Owners.advance
  split
  · apply acc
  next hlive =>
    rw [Bool.not_eq_true] at hlive
    have hself : owner = s.live owner.cell := live_of_not_isDisposed hlive
    have hnext : ∀ other, other ≠ owner.cell →
        (s.setCell owner.cell (s.cells owner.cell).next).cells other = s.cells other := by
      intro other hne
      rw [cells_setCell_of_ne _ _ hne]
    have hepoch : ∀ other, (s.cells other).epoch
        ≤ ((s.setCell owner.cell (s.cells owner.cell).next).cells other).epoch := by
      intro other
      by_cases heq : other = owner.cell
      · rw [heq, cells_setCell_self]
        apply Nat.le_succ
      · apply Nat.le_of_eq
        rw [hnext other heq]
    have hnodup : ∀ other,
        ((s.setCell owner.cell (s.cells owner.cell).next).cells other).cleanups.Nodup := by
      intro other
      by_cases heq : other = owner.cell
      · rw [heq, cells_setCell_self]
        apply nodup_nil
      · rw [hnext other heq]
        apply acc.nodup
    have hlisted : ∀ other,
        ((s.setCell owner.cell (s.cells owner.cell).next).cells other).listed = false →
          ((s.setCell owner.cell (s.cells owner.cell).next).cells other).cleanups = [] := by
      intro other
      by_cases heq : other = owner.cell
      · rw [heq, cells_setCell_self]
        intro _
        rfl
      · rw [hnext other heq]
        apply acc.listed
    have hparked : ∀ other cleanup, cleanup ∈
        ((s.setCell owner.cell (s.cells owner.cell).next).cells other).cleanups →
          cleanup ∈ (s.cells other).cleanups ∧ other ≠ owner.cell := by
      intro other cleanup hmem
      by_cases heq : other = owner.cell
      · rw [heq, cells_setCell_self] at hmem
        cases hmem
      · rw [hnext other heq] at hmem
        exact ⟨hmem, heq⟩
    have hmade : ∀ cleanup other, belongs trace cleanup = some other → other.cell < s.made
        ∧ other.epoch
          ≤ ((s.setCell owner.cell (s.cells owner.cell).next).cells other.cell).epoch := by
      intro cleanup other hother
      obtain ⟨hlt, hle⟩ := acc.made cleanup other hother
      exact ⟨hlt, Nat.le_trans hle (hepoch other.cell)⟩
    have hover : ∀ release ∈ s.releases, ∀ other, release.owner = some other →
        other.cell < s.made ∧ other.epoch
          < ((s.setCell owner.cell (s.cells owner.cell).next).cells other.cell).epoch := by
      intro release hrelease other hother
      obtain ⟨hlt, hlt'⟩ := acc.ended release hrelease other hother
      exact ⟨hlt, Nat.lt_of_lt_of_le hlt' (hepoch other.cell)⟩
    have hgone : ∀ cleanup ∈ started trace, ∀ other, belongs trace cleanup = some other →
        other.epoch
          < ((s.setCell owner.cell (s.cells owner.cell).next).cells other.cell).epoch := by
      intro cleanup hmem other hother
      apply Nat.lt_of_lt_of_le (acc.gone cleanup hmem other hother) (hepoch other.cell)
    split
    next hlists =>
      have hdue : ((s.setCell owner.cell (s.cells owner.cell).next).push
          ⟨some owner, (s.cells owner.cell).cleanups, false, false⟩).due
            = (s.cells owner.cell).cleanups ++ s.due := by
        simp [due]
      constructor
      · apply hnodup
      · apply hlisted
      · intro other cleanup hmem
        obtain ⟨hmem, hne⟩ := hparked other cleanup hmem
        obtain ⟨hsome, hnot, hnotdue⟩ := acc.parked other cleanup hmem
        refine ⟨?_, hnot, ?_⟩
        · rw [live, cells_push, hnext other hne]
          apply hsome
        · rw [hdue, mem_append, not_or]
          refine ⟨?_, hnotdue⟩
          intro hmem'
          have hsome' := (acc.parked owner.cell cleanup hmem').1
          rw [hsome, Option.some_inj] at hsome'
          apply hne
          simpa [live] using congrArg Owner.cell hsome'
      · rw [hdue, ← append_assoc]
        have hcomm : (started trace ++ (s.cells owner.cell).cleanups).Perm
            ((s.cells owner.cell).cleanups ++ started trace) := perm_append_comm
        have hperm := hcomm.append_right s.due
        rw [hperm.nodup_iff, append_assoc, nodup_append']
        refine ⟨acc.nodup owner.cell, acc.once, ?_⟩
        intro cleanup hmem hmem'
        obtain ⟨-, hnot, hnotdue⟩ := acc.parked owner.cell cleanup hmem
        rw [mem_append] at hmem'
        obtain hmem' | hmem' := hmem'
        · apply hnot hmem'
        · apply hnotdue hmem'
      · intro cleanup hge
        obtain ⟨hnone, hnot, hnotdue⟩ := acc.numbered cleanup hge
        refine ⟨hnone, hnot, ?_⟩
        rw [hdue, mem_append, not_or]
        refine ⟨?_, hnotdue⟩
        intro hmem
        rw [(acc.parked owner.cell cleanup hmem).1] at hnone
        cases hnone
      · apply hmade
      · intro release hrelease other hother
        obtain rfl | hrelease := List.mem_cons.1 hrelease
        · rw [Option.some_inj] at hother
          subst hother
          use howner
          rw [cells_push, cells_setCell_self, hself]
          apply Nat.lt_succ_self
        · apply hover release hrelease other hother
      · intro release hrelease cleanup hmem
        obtain rfl | hrelease := List.mem_cons.1 hrelease
        · rw [(acc.parked owner.cell cleanup hmem).1, ← hself]
        · apply acc.rest release hrelease cleanup hmem
      · apply hgone
      · intro cleanup other hother
        obtain ⟨hother', hmem⟩ | ⟨release, hrelease, hrest⟩ | hstarted :=
          acc.owned cleanup other hother
        · by_cases heq : other.cell = owner.cell
          · right
            left
            use ⟨some owner, (s.cells owner.cell).cleanups, false, false⟩, mem_cons_self
            rw [heq] at hmem hother'
            exact ⟨congrArg some (hself.trans hother'.symm), hmem⟩
          · left
            rw [live, cells_push, hnext _ heq]
            exact ⟨hother', hmem⟩
        · right
          left
          use release, mem_cons_of_mem _ hrelease
        · right
          right
          apply hstarted
    next hlists =>
      rw [Bool.not_eq_true] at hlists
      constructor
      · apply hnodup
      · apply hlisted
      · intro other cleanup hmem
        obtain ⟨hmem, hne⟩ := hparked other cleanup hmem
        rw [live, hnext other hne]
        apply acc.parked other cleanup hmem
      · apply acc.once
      · apply acc.numbered
      · apply hmade
      · apply hover
      · apply acc.rest
      · apply hgone
      · intro cleanup other hother
        obtain ⟨hother', hmem⟩ | hlater := acc.owned cleanup other hother
        · left
          have hne : other.cell ≠ owner.cell := by
            intro heq
            rw [heq, acc.listed owner.cell hlists] at hmem
            cases hmem
          rw [live, hnext _ hne]
          exact ⟨hother', hmem⟩
        · right
          apply hlater

/-- What the live epoch of a cell lists moves into a fresh owner. -/
theorem Accounted.split (owner : Owner) (howner : owner.cell < s.made)
    (hsplits : s.splits owner = true) :
  Accounted (trace ++ [.split owner (some ⟨s.made, 0⟩)]) (s.split owner)
  := by
  rw [splits, Bool.and_eq_true, Bool.not_eq_true'] at hsplits
  obtain ⟨hlists, hdisposed⟩ := hsplits
  have hself : owner = s.live owner.cell := live_of_not_isDisposed hdisposed
  have hbelongs : ∀ cleanup, belongs (trace ++ [.split owner (some ⟨s.made, 0⟩)]) cleanup
      = if belongs trace cleanup = some owner then some ⟨s.made, 0⟩
        else belongs trace cleanup := by
    intro cleanup
    rw [belongs_append]
    rfl
  have hstarted : started (trace ++ [.split owner (some ⟨s.made, 0⟩)]) = started trace := by
    simp [started_append, Event.started]
  have hfresh : (s.split owner).cells s.made = (s.cells owner.cell).splitOff := by
    simp [Owners.split]
  have hold : (s.split owner).cells owner.cell = (s.cells owner.cell).emptied := by
    simp only [Owners.split]
    rw [cells_setCell_of_ne _ _ (by omega), cells_setCell_self]
  have hother : ∀ cell, cell ≠ s.made → cell ≠ owner.cell →
      (s.split owner).cells cell = s.cells cell := by
    intro cell hne hne'
    simp only [Owners.split]
    rw [cells_setCell_of_ne _ _ hne, cells_setCell_of_ne _ _ hne']
  have hreleased : ∀ release ∈ s.releases, release.owner ≠ some owner := by
    intro release hrelease hsome
    have hlt := (acc.ended release hrelease owner hsome).2
    rw [hself] at hlt
    apply Nat.lt_irrefl _ hlt
  have hepoch : ∀ cell, cell ≠ s.made →
      ((s.split owner).cells cell).epoch = (s.cells cell).epoch := by
    intro cell hne
    by_cases heq : cell = owner.cell
    · rw [heq, hold]
      rfl
    · rw [hother cell hne heq]
  constructor
  · intro cell
    by_cases hmade : cell = s.made
    · rw [hmade, hfresh]
      apply acc.nodup owner.cell
    · by_cases heq : cell = owner.cell
      · rw [heq, hold]
        apply nodup_nil
      · rw [hother cell hmade heq]
        apply acc.nodup
  · intro cell
    by_cases hmade : cell = s.made
    · rw [hmade, hfresh]
      rintro ⟨⟩
    · by_cases heq : cell = owner.cell
      · rw [heq, hold]
        intro _
        rfl
      · rw [hother cell hmade heq]
        apply acc.listed
  · intro cell cleanup hmem
    rw [hbelongs, hstarted]
    by_cases hmade : cell = s.made
    · rw [hmade, hfresh] at hmem
      obtain ⟨hsome, hnot, hnotdue⟩ := acc.parked owner.cell cleanup hmem
      rw [← hself] at hsome
      refine ⟨?_, hnot, hnotdue⟩
      rw [if_pos hsome, live, hmade, hfresh]
      rfl
    · by_cases heq : cell = owner.cell
      · rw [heq, hold] at hmem
        cases hmem
      · rw [hother cell hmade heq] at hmem
        obtain ⟨hsome, hnot, hnotdue⟩ := acc.parked cell cleanup hmem
        refine ⟨?_, hnot, hnotdue⟩
        rw [if_neg, live, hepoch cell hmade]
        · apply hsome
        · rw [hsome, Option.some_inj]
          intro h
          apply heq
          simpa [live] using congrArg Owner.cell h
  · rw [hstarted]
    apply acc.once
  · intro cleanup hge
    obtain ⟨hnone, hnot, hnotdue⟩ := acc.numbered cleanup hge
    rw [hbelongs, hstarted, hnone, if_neg (by simp)]
    exact ⟨rfl, hnot, hnotdue⟩
  · intro cleanup other hsome
    rw [hbelongs] at hsome
    split at hsome
    · rw [Option.some_inj] at hsome
      subst hsome
      rw [hfresh]
      exact ⟨Nat.lt_succ_self _, Nat.le_refl _⟩
    · obtain ⟨hlt, hle⟩ := acc.made cleanup other hsome
      rw [hepoch _ (by omega)]
      exact ⟨Nat.lt_succ_of_lt hlt, hle⟩
  · intro release hrelease other hsome
    obtain ⟨hlt, hlt'⟩ := acc.ended release hrelease other hsome
    rw [hepoch _ (by omega)]
    exact ⟨Nat.lt_succ_of_lt hlt, hlt'⟩
  · intro release hrelease cleanup hmem
    rw [hbelongs, if_neg, acc.rest release hrelease cleanup hmem]
    rw [acc.rest release hrelease cleanup hmem]
    apply hreleased release hrelease
  · intro cleanup hmem other hsome
    rw [hstarted] at hmem
    rw [hbelongs] at hsome
    split at hsome
    next hmoved =>
      have hlt := acc.gone cleanup hmem owner hmoved
      rw [hself] at hlt
      exact (Nat.lt_irrefl _ hlt).elim
    next hkept =>
      have hlt := (acc.made cleanup other hsome).1
      rw [hepoch _ (by omega)]
      apply acc.gone cleanup hmem other hsome
  · intro cleanup other hsome
    rw [hbelongs] at hsome
    rw [hstarted]
    split at hsome
    next hmoved =>
      rw [Option.some_inj] at hsome
      subst hsome
      obtain ⟨-, hmem⟩ | ⟨release, hrelease, hsome', -⟩ | hrun :=
        acc.owned cleanup owner hmoved
      · left
        rw [live, hfresh]
        exact ⟨rfl, hmem⟩
      · exact (hreleased release hrelease hsome').elim
      · right
        right
        apply hrun
    next hkept =>
      have hlt := (acc.made cleanup other hsome).1
      obtain ⟨hother', hmem⟩ | hlater := acc.owned cleanup other hsome
      · left
        have hne : other.cell ≠ owner.cell := by
          intro heq
          apply hkept
          rw [hsome, hself, hother', heq]
        rw [live, hother other.cell (by omega) hne]
        exact ⟨hother', hmem⟩
      · right
        apply hlater

/-- A cleanup starts to run. -/
theorem Accounted.run {release : Release} {rest : List ℕ}
    {outer : List Release} (htop : s.releases = release :: outer)
    (hrest : release.rest = cleanup :: rest) :
  Accounted (trace ++ [.run cleanup])
    { s with releases := { release with rest := rest, running := true } :: outer }
  := by
  have hbelongs : ∀ other, belongs (trace ++ [.run cleanup]) other = belongs trace other := by
    intro other
    rw [belongs_append]
    rfl
  have hstarted : started (trace ++ [.run cleanup]) = started trace ++ [cleanup] := by
    rw [started_append]
    rfl
  have hdue : s.due
      = cleanup :: Owners.due
        { s with releases := { release with rest := rest, running := true } :: outer } := by
    simp [due, htop, hrest]
  have hdue' : cleanup ∈ s.due := by simp [hdue]
  constructor
  · apply acc.nodup
  · apply acc.listed
  · intro cell other hmem
    obtain ⟨hsome, hnot, hnotdue⟩ := acc.parked cell other hmem
    rw [hbelongs, hstarted, mem_append, mem_singleton, not_or]
    refine ⟨hsome, ⟨hnot, fun heq => hnotdue (heq ▸ hdue')⟩, ?_⟩
    rw [hdue, mem_cons, not_or] at hnotdue
    apply hnotdue.2
  · have honce := acc.once
    rw [hdue] at honce
    rw [hstarted, append_assoc]
    apply honce
  · intro other hge
    obtain ⟨hnone, hnot, hnotdue⟩ := acc.numbered other hge
    rw [hbelongs, hstarted, mem_append, mem_singleton, not_or]
    refine ⟨hnone, ⟨hnot, fun heq => hnotdue (heq ▸ hdue')⟩, ?_⟩
    rw [hdue, mem_cons, not_or] at hnotdue
    apply hnotdue.2
  · intro other owner howner
    rw [hbelongs] at howner
    apply acc.made other owner howner
  · intro released hreleased owner howner
    obtain rfl | hreleased := List.mem_cons.1 hreleased
    · apply acc.ended release _ owner howner
      simp [htop]
    · apply acc.ended released _ owner howner
      simp [htop, hreleased]
  · intro released hreleased other hmem
    rw [hbelongs]
    obtain rfl | hreleased := List.mem_cons.1 hreleased
    · apply acc.rest release (by simp [htop])
      rw [hrest]
      apply mem_cons_of_mem _ hmem
    · apply acc.rest released (by simp [htop, hreleased]) other hmem
  · intro other hmem owner howner
    rw [hbelongs] at howner
    rw [hstarted, mem_append, mem_singleton] at hmem
    obtain hmem | rfl := hmem
    · apply acc.gone other hmem owner howner
    · have hmem : release ∈ s.releases := by simp [htop]
      rw [acc.rest release hmem _ (by simp [hrest])] at howner
      apply (acc.ended release hmem owner howner).2
  · intro other owner howner
    rw [hbelongs] at howner
    rw [hstarted, mem_append, mem_singleton]
    obtain hparked | ⟨released, hreleased, hsome, hmem⟩ | hrun := acc.owned other owner howner
    · left
      apply hparked
    · right
      rw [htop] at hreleased
      obtain rfl | hreleased := List.mem_cons.1 hreleased
      · rw [hrest] at hmem
        obtain rfl | hmem := List.mem_cons.1 hmem
        · right
          right
          rfl
        · left
          exact ⟨_, mem_cons_self, hsome, hmem⟩
      · left
        exact ⟨released, mem_cons_of_mem _ hreleased, hsome, hmem⟩
    · right
      right
      left
      apply hrun

/-- A change of the stack that keeps what is to be run. -/
theorem Accounted.stack {releases : List Release}
    (hdue : releases.flatMap Release.rest = s.due)
    (hover : ∀ release ∈ releases, ∃ before ∈ s.releases,
      release.owner = before.owner ∧ release.rest = before.rest)
    (howned : ∀ before ∈ s.releases, ∀ cleanup ∈ before.rest,
      ∃ release ∈ releases, release.owner = before.owner ∧ cleanup ∈ release.rest) :
  Accounted trace { s with releases := releases }
  := by
  constructor
  · apply acc.nodup
  · apply acc.listed
  · intro cell cleanup hmem
    rw [due, hdue]
    apply acc.parked cell cleanup hmem
  · rw [due, hdue]
    apply acc.once
  · intro cleanup hge
    rw [due, hdue]
    apply acc.numbered cleanup hge
  · apply acc.made
  · intro release hrelease owner howner
    obtain ⟨before, hbefore, heq, -⟩ := hover release hrelease
    apply acc.ended before hbefore owner
    rw [← heq, howner]
  · intro release hrelease cleanup hmem
    obtain ⟨before, hbefore, heq, heq'⟩ := hover release hrelease
    rw [heq]
    apply acc.rest before hbefore
    rw [← heq']
    apply hmem
  · apply acc.gone
  · intro cleanup owner howner
    obtain hparked | ⟨before, hbefore, hsome, hmem⟩ | hrun := acc.owned cleanup owner howner
    · left
      apply hparked
    · right
      left
      obtain ⟨release, hrelease, heq, hmem'⟩ := howned before hbefore cleanup hmem
      exact ⟨release, hrelease, heq.trans hsome, hmem'⟩
    · right
      right
      apply hrun

/-- A change of the innermost release that keeps its owner and what it has still to run. -/
theorem Accounted.top {release next : Release} {outer : List Release}
    (htop : s.releases = release :: outer) (howner : next.owner = release.owner)
    (hrest : next.rest = release.rest) :
  Accounted trace { s with releases := next :: outer }
  := by
  apply acc.stack
  · simp [due, htop, hrest]
  · intro other hother
    obtain rfl | hother := List.mem_cons.1 hother
    · use release
      simp [htop, howner, hrest]
    · use other
      simp [htop, hother]
  · intro before hbefore cleanup hmem
    rw [htop] at hbefore
    obtain rfl | hbefore := List.mem_cons.1 hbefore
    · use next
      simp [howner, hrest, hmem]
    · use before
      simp [hbefore, hmem]

/-- Every step keeps every registration in its place or moves it on. -/
theorem Accounted.step (hstep : Step s event s') :
  Accounted (trace ++ [event]) s'
  := by
  cases hstep with
  | make => apply acc.make
  | @defer owner late hcode howner hlate =>
    unfold Owners.defer
    split
    next hdisposed =>
      rw [hdisposed] at hlate
      subst hlate
      apply acc.defer_late
    next hlive =>
      rw [Bool.not_eq_true] at hlive
      rw [hlive] at hlate
      subst hlate
      have h := acc.defer_live howner
      rw [← live_of_not_isDisposed hlive] at h
      apply h
  | @renew cell hcode hcell =>
    apply (acc.advance _ hcell).silent
    exact ⟨fun _ _ => rfl, rfl⟩
  | @split owner hcode howner hsplits => apply acc.split owner howner hsplits
  | splitNone =>
    apply acc.silent
    exact ⟨fun _ _ => rfl, rfl⟩
  | @dispose owner hcode howner =>
    apply (acc.advance owner howner).silent
    exact ⟨fun _ _ => rfl, rfl⟩
  | run htop hidle hrest => apply acc.run htop hrest
  | ran htop =>
    apply Accounted.silent
    · apply acc.top htop <;> rfl
    · exact ⟨fun _ _ => rfl, rfl⟩
  | threw htop =>
    apply Accounted.silent
    · apply acc.top htop <;> rfl
    · exact ⟨fun _ _ => rfl, rfl⟩
  | @released release outer htop hidle hrest =>
    apply Accounted.silent
    · apply acc.stack
      · simp [due, htop, hrest]
      · intro other hother
        use other
        simp [htop, hother]
      · intro before hbefore cleanup hmem
        rw [htop] at hbefore
        obtain rfl | hbefore := List.mem_cons.1 hbefore
        · rw [hrest] at hmem
          cases hmem
        · use before
    · exact ⟨fun _ _ => rfl, rfl⟩

end

theorem Run.accounted (run : Run trace s) :
  Accounted trace s
  := by
  apply Machine.Run.history (P := Accounted) _ _ run
  · rintro s rfl
    apply Accounted.init
  · intro trace s event s' _ acc hstep
    apply acc.step hstep

/-! ### Epochs -/

theorem epoch_advance_le (s : Owners) (owner : Owner) (cell : ℕ) :
  (s.cells cell).epoch ≤ ((s.advance owner).cells cell).epoch
  := by
  have hnext : (s.cells cell).epoch
      ≤ ((s.setCell owner.cell (s.cells owner.cell).next).cells cell).epoch := by
    by_cases heq : cell = owner.cell
    · rw [heq, cells_setCell_self]
      apply Nat.le_succ
    · apply Nat.le_of_eq
      rw [cells_setCell_of_ne _ _ heq]
  unfold Owners.advance
  split
  · apply Nat.le_refl
  · split
    · apply hnext
    · apply hnext

/-- No epoch comes back. -/
theorem Step.epoch_le (hstep : Step s event s') (hcell : cell < s.made) :
  cell < s'.made ∧ (s.cells cell).epoch ≤ (s'.cells cell).epoch
  := by
  have hmade : ∀ owner, (s.advance owner).made = s.made := by
    intro owner
    unfold Owners.advance
    split
    · rfl
    · split <;> rfl
  cases hstep with
  | make =>
    use Nat.lt_succ_of_lt hcell
    simp only [Owners.make]
    apply Nat.le_of_eq
    rw [cells_setCell_of_ne _ _ (by omega)]
  | @defer owner =>
    unfold Owners.defer
    split
    · exact ⟨hcell, Nat.le_refl _⟩
    · use hcell
      by_cases heq : cell = owner.cell
      · apply Nat.le_of_eq
        rw [heq, cells_setCell_self, (register_epoch _ _).1]
      · apply Nat.le_of_eq
        rw [cells_setCell_of_ne _ _ heq]
        rfl
  | renew =>
    rw [hmade]
    exact ⟨hcell, epoch_advance_le s _ cell⟩
  | @split owner =>
    use Nat.lt_succ_of_lt hcell
    simp only [Owners.split]
    rw [cells_setCell_of_ne _ _ (by omega)]
    by_cases heq : cell = owner.cell
    · apply Nat.le_of_eq
      rw [heq, cells_setCell_self]
      rfl
    · apply Nat.le_of_eq
      rw [cells_setCell_of_ne _ _ heq]
  | splitNone => exact ⟨hcell, Nat.le_refl _⟩
  | dispose =>
    rw [hmade]
    exact ⟨hcell, epoch_advance_le s _ cell⟩
  | run => exact ⟨hcell, Nat.le_refl _⟩
  | ran => exact ⟨hcell, Nat.le_refl _⟩
  | threw => exact ⟨hcell, Nat.le_refl _⟩
  | released => exact ⟨hcell, Nat.le_refl _⟩

/-- A disposed owner has been left behind. -/
theorem Step.dispose_over (hstep : Step s (.dispose owner) s')
    (hepoch : owner.epoch ≤ (s.cells owner.cell).epoch) :
  owner.epoch < (s'.cells owner.cell).epoch
  := by
  generalize hevent : Event.dispose owner = event at hstep
  cases hstep with
  | dispose =>
    cases hevent
    unfold Owners.advance
    split
    next hdisposed =>
      rw [isDisposed, bne_iff_ne] at hdisposed
      omega
    · split <;> simp [OwnerCell.next] <;> omega
  | _ => cases hevent

/-- What is split off goes into an owner of its own. -/
theorem Step.split_made {fresh : Owner} (hstep : Step s (.split owner (some fresh)) s')
    (hcell : cell < s.made) :
  fresh.cell ≠ cell ∧ fresh.cell < s'.made ∧ fresh.epoch ≤ (s'.cells fresh.cell).epoch
  := by
  generalize hevent : Event.split owner (some fresh) = event at hstep
  cases hstep with
  | split =>
    cases hevent
    refine ⟨by simp only; omega, ?_, Nat.zero_le _⟩
    apply Nat.lt_succ_self
  | _ => cases hevent

/-! ### Late registrations -/

/-- A late registration is followed by the run of its cleanup, and until then its cleanup is what
the innermost release runs next. -/
def Prompt (trace : List Event) (s : Owners) : Prop :=
  ∀ before owner cleanup after, trace = before ++ .defer owner cleanup true :: after →
    after = [] ∧ s.releases.head? = some ⟨none, [cleanup], false, false⟩
      ∨ ∃ later, after = .run cleanup :: later

theorem Prompt.step (prompt : Prompt trace s) (hstep : Step s event s') :
  Prompt (trace ++ [event]) s'
  := by
  intro before owner cleanup after htrace
  obtain rfl | ⟨after, last, rfl⟩ := eq_nil_or_concat after
  · left
    use rfl
    obtain ⟨rfl, hevent⟩ := append_inj' htrace rfl
    rw [singleton_inj] at hevent
    cases hstep with
    | @defer owner' late hcode howner hlate =>
      cases hevent
      simp [Owners.defer, hlate]
    | _ => cases hevent
  · right
    rw [concat_eq_append, ← cons_append, ← append_assoc] at htrace
    obtain ⟨rfl, hevent⟩ := append_inj' htrace rfl
    rw [singleton_inj] at hevent
    obtain ⟨rfl, htop⟩ | ⟨later, rfl⟩ := prompt before owner cleanup after rfl
    · -- the innermost release is idle, with the one cleanup to run
      have hcode : ¬ s.codeRuns := by
        intro hcode
        cases hcode _ htop
      cases hstep with
      | @run release other rest outer htop' hidle hrest =>
        rw [htop', head?_cons, Option.some_inj] at htop
        subst htop
        cases hrest
        subst hevent
        exact ⟨[], rfl⟩
      | ran htop' hrunning =>
        rw [htop', head?_cons, Option.some_inj] at htop
        subst htop
        cases hrunning
      | threw htop' hrunning =>
        rw [htop', head?_cons, Option.some_inj] at htop
        subst htop
        cases hrunning
      | released htop' hidle hrest =>
        rw [htop', head?_cons, Option.some_inj] at htop
        subst htop
        cases hrest
      | make h => exact (hcode h).elim
      | defer h => exact (hcode h).elim
      | renew h => exact (hcode h).elim
      | split h => exact (hcode h).elim
      | splitNone h => exact (hcode h).elim
      | dispose h => exact (hcode h).elim
    · use later ++ [last]
      simp

theorem Run.prompt (run : Run trace s) :
  Prompt trace s
  := by
  apply Machine.Run.history (P := Prompt) _ _ run
  · rintro s rfl before owner cleanup after htrace
    simp at htrace
  · intro trace s event s' _ prompt hstep
    apply prompt.step hstep

/-! ### The registrations of an owner -/

/-- A registration that belongs to an owner goes on belonging to one. -/
theorem isSome_belongsAfter {owner : Option Owner} (h : owner.isSome) (event : Event) :
  (belongsAfter cleanup owner event).isSome
  := by
  unfold belongsAfter
  split
  · split
    · rfl
    · apply h
  · split
    · rfl
    · apply h
  · apply h

theorem isSome_belongs (h : .defer owner cleanup false ∈ trace) :
  (belongs trace cleanup).isSome
  := by
  induction trace using List.reverseRecOn with
  | nil => cases h
  | append_singleton trace event ih =>
    rw [belongs_append]
    rw [mem_append, mem_singleton] at h
    obtain h | rfl := h
    · apply isSome_belongsAfter (ih h)
    · simp [belongsAfter]

/-- No cleanup is started twice.  A late registration is followed at once by the run of its
cleanup.  Every other registration belongs to an owner, and once that is disposed and its
release is under way no more, the cleanup has been started. -/
theorem cleanups_run_once {trace : List Event} {s : Owners} (run : Run trace s) :
  (started trace).Nodup
    ∧ (∀ before owner cleanup after, trace = before ++ .defer owner cleanup true :: after →
        after = [] ∨ ∃ later, after = .run cleanup :: later)
    ∧ (∀ owner cleanup, .defer owner cleanup false ∈ trace → (belongs trace cleanup).isSome)
    ∧ ∀ cleanup owner, belongs trace cleanup = some owner → s.isDisposed owner = true →
        (∀ release ∈ s.releases, release.owner ≠ some owner) → cleanup ∈ started trace
  := by
  have acc := run.accounted
  refine ⟨(List.nodup_append'.1 acc.once).1, ?_, fun owner cleanup => isSome_belongs, ?_⟩
  · intro before owner cleanup after htrace
    obtain ⟨hempty, -⟩ | hrun := run.prompt before owner cleanup after htrace
    · left
      apply hempty
    · right
      apply hrun
  · intro cleanup owner hbelongs hdisposed hreleases
    obtain ⟨hlive, -⟩ | ⟨release, hrelease, hsome, -⟩ | hstarted :=
      acc.owned cleanup owner hbelongs
    · exact (isDisposed_iff.1 hdisposed hlive).elim
    · exact (hreleases release hrelease hsome).elim
    · apply hstarted

/-- Two cleanups are registered, and the owner is disposed.  The first throws, and the second
runs all the same. -/
theorem cleanups_run_once_past_throw :
  ∃ trace s, Run trace s ∧ started trace = [0, 1]
    ∧ (started trace).Nodup
    ∧ (∀ before owner cleanup after, trace = before ++ .defer owner cleanup true :: after →
        after = [] ∨ ∃ later, after = .run cleanup :: later)
    ∧ (∀ owner cleanup, .defer owner cleanup false ∈ trace → (belongs trace cleanup).isSome)
    ∧ ∀ cleanup owner, belongs trace cleanup = some owner → s.isDisposed owner = true →
        (∀ release ∈ s.releases, release.owner ≠ some owner) → cleanup ∈ started trace
  := by
  have code : ∀ s : Owners, s.releases = [] → s.codeRuns := by
    intro s h
    simp [codeRuns, h]
  have run₀ : Run [] init := Machine.Run.start rfl
  have run₁ := Machine.Run.step run₀ (Step.make (code _ rfl))
  have run₂ := Machine.Run.step run₁
    (@Step.defer _ ⟨0, 0⟩ false (code _ rfl) (by decide) (by decide))
  have run₃ := Machine.Run.step run₂
    (@Step.defer _ ⟨0, 0⟩ false (code _ rfl) (by decide) (by decide))
  have run₄ := Machine.Run.step run₃ (@Step.dispose _ ⟨0, 0⟩ (code _ rfl) (by decide))
  have run₅ := Machine.Run.step run₄ (Step.run rfl rfl rfl)
  have run₆ := Machine.Run.step run₅ (Step.threw rfl rfl)
  have run₇ := Machine.Run.step run₆ (Step.run rfl rfl rfl)
  exact ⟨_, _, run₇, rfl, cleanups_run_once run₇⟩

end Owners

end Vilan
