import Mathlib.Data.List.Nodup
import Vilan.Library.Machine

/-!
# Owners

An owner is an epoch of a cell.  The cell holds the number of the live epoch and the cleanups
registered in it.  Releasing an epoch opens the next one and runs the cleanups of the old one,
past those that throw.  A cleanup registered through an epoch that is over runs on the spot.

Cleanups are arbitrary closures that use owners themselves.  The releases under way form a
stack, and program code runs when it is empty or from the cleanup that the innermost release is
running.  Every registration has a number of its own.
-/

namespace Vilan

/-- One epoch of a cell. -/
structure Owner where
  cell : ℕ
  epoch : ℕ
deriving DecidableEq

/-- The live epoch of a cell and the cleanups registered in it.  `listed` says whether the
epoch has a list of its own. -/
structure OwnerCell where
  epoch : ℕ
  cleanups : List ℕ
  listed : Bool
deriving DecidableEq

namespace OwnerCell

/-- The cell of `Owner::new`. -/
def new : OwnerCell where
  epoch := 0
  cleanups := []
  listed := false

/-- The registration of a cleanup in the live epoch. -/
def register (cell : OwnerCell) (cleanup : ℕ) : OwnerCell :=
  if cell.listed then { cell with cleanups := cell.cleanups ++ [cleanup] }
  else { cell with cleanups := [cleanup], listed := true }

/-- The next epoch. -/
def next (cell : OwnerCell) : OwnerCell where
  epoch := cell.epoch + 1
  cleanups := []
  listed := false

/-- The live epoch once its registrations have been split off. -/
def emptied (cell : OwnerCell) : OwnerCell where
  epoch := cell.epoch
  cleanups := []
  listed := false

/-- The cell of an owner that registrations are split off into. -/
def splitOff (cell : OwnerCell) : OwnerCell where
  epoch := 0
  cleanups := cell.cleanups
  listed := true

end OwnerCell

/-- A run of cleanups under way: the epoch that is released (none for a cleanup that runs on
the spot), the cleanups still to be run, whether one is running, and whether one has thrown. -/
structure Release where
  owner : Option Owner
  rest : List ℕ
  running : Bool
  failed : Bool

/-- All cells, the number of registrations, and the releases under way, innermost first. -/
structure Owners where
  cells : ℕ → OwnerCell
  made : ℕ
  registered : ℕ
  releases : List Release

namespace Owners

/-- No owner has been made. -/
def init : Owners where
  cells := fun _ => OwnerCell.new
  made := 0
  registered := 0
  releases := []

/-- `is_disposed`. -/
def isDisposed (s : Owners) (owner : Owner) : Bool :=
  (s.cells owner.cell).epoch != owner.epoch

/-- Whether program code runs: at the top, or from the cleanup that the innermost release is
running. -/
def codeRuns (s : Owners) : Prop :=
  ∀ release ∈ s.releases.head?, release.running = true

/-- Sets a cell. -/
def setCell (s : Owners) (cell : ℕ) (value : OwnerCell) : Owners :=
  { s with cells := Function.update s.cells cell value }

/-- Cleanups are to be run, inside all releases under way. -/
def push (s : Owners) (release : Release) : Owners :=
  { s with releases := release :: s.releases }

/-- `Owner::new`. -/
def make (s : Owners) : Owners :=
  { s.setCell s.made OwnerCell.new with made := s.made + 1 }

/-- A registration is given its number. -/
def number (s : Owners) : Owners :=
  { s with registered := s.registered + 1 }

/-- `defer`. -/
def defer (s : Owners) (owner : Owner) : Owners :=
  if s.isDisposed owner then
    s.number.push ⟨none, [s.registered], false, false⟩
  else s.number.setCell owner.cell ((s.cells owner.cell).register s.registered)

/-- `advance`. -/
def advance (s : Owners) (owner : Owner) : Owners :=
  if s.isDisposed owner then s
  else if (s.cells owner.cell).listed then
    (s.setCell owner.cell (s.cells owner.cell).next).push
      ⟨some owner, (s.cells owner.cell).cleanups, false, false⟩
  else s.setCell owner.cell (s.cells owner.cell).next

/-- The live epoch of a cell, as an owner. -/
def live (s : Owners) (cell : ℕ) : Owner :=
  ⟨cell, (s.cells cell).epoch⟩

/-- Whether `split_registrations` finds something to split off. -/
def splits (s : Owners) (owner : Owner) : Bool :=
  (s.cells owner.cell).listed && !s.isDisposed owner

/-- `split_registrations`, when it finds something. -/
def split (s : Owners) (owner : Owner) : Owners :=
  { (s.setCell owner.cell (s.cells owner.cell).emptied).setCell s.made
      (s.cells owner.cell).splitOff with made := s.made + 1 }

/-- What happens in a step. -/
inductive Event where
  /-- An owner is made. -/
  | make (owner : Owner)
  /-- A cleanup is registered, through an epoch that is over when `late`. -/
  | defer (owner : Owner) (cleanup : ℕ) (late : Bool)
  /-- The live epoch of a cell is released for the cell's next run. -/
  | renew (released : Owner)
  /-- What an epoch has registered moves into a fresh owner, if that is anything. -/
  | split (owner : Owner) (fresh : Option Owner)
  /-- An owner is disposed. -/
  | dispose (owner : Owner)
  /-- A cleanup starts to run. -/
  | run (cleanup : ℕ)
  /-- A cleanup has returned. -/
  | ran
  /-- A cleanup has thrown. -/
  | threw
  /-- The last cleanup of a release has run. -/
  | released (owner : Option Owner) (failed : Bool)

/-- One step of program code or of the innermost release. -/
inductive Step : Owners → Event → Owners → Prop
  | make {s : Owners} (hcode : s.codeRuns) : Step s (.make ⟨s.made, 0⟩) s.make
  | defer {s : Owners} {owner : Owner} {late : Bool} (hcode : s.codeRuns)
      (howner : owner.cell < s.made) (hlate : s.isDisposed owner = late) :
      Step s (.defer owner s.registered late) (s.defer owner)
  | renew {s : Owners} {cell : ℕ} (hcode : s.codeRuns) (hcell : cell < s.made) :
      Step s (.renew (s.live cell)) (s.advance (s.live cell))
  | split {s : Owners} {owner : Owner} (hcode : s.codeRuns) (howner : owner.cell < s.made)
      (hsplits : s.splits owner = true) :
      Step s (.split owner (some ⟨s.made, 0⟩)) (s.split owner)
  | splitNone {s : Owners} {owner : Owner} (hcode : s.codeRuns) (howner : owner.cell < s.made)
      (hsplits : s.splits owner = false) :
      Step s (.split owner none) s
  | dispose {s : Owners} {owner : Owner} (hcode : s.codeRuns) (howner : owner.cell < s.made) :
      Step s (.dispose owner) (s.advance owner)
  | run {s : Owners} {release : Release} {cleanup : ℕ} {rest : List ℕ} {outer : List Release}
      (htop : s.releases = release :: outer) (hidle : release.running = false)
      (hrest : release.rest = cleanup :: rest) :
      Step s (.run cleanup)
        { s with releases := { release with rest := rest, running := true } :: outer }
  | ran {s : Owners} {release : Release} {outer : List Release}
      (htop : s.releases = release :: outer) (hrunning : release.running = true) :
      Step s .ran { s with releases := { release with running := false } :: outer }
  | threw {s : Owners} {release : Release} {outer : List Release}
      (htop : s.releases = release :: outer) (hrunning : release.running = true) :
      Step s .threw
        { s with releases := { release with running := false, failed := true } :: outer }
  | released {s : Owners} {release : Release} {outer : List Release}
      (htop : s.releases = release :: outer) (hidle : release.running = false)
      (hrest : release.rest = []) :
      Step s (.released release.owner release.failed) { s with releases := outer }

/-- Runs of owners. -/
def Run : List Event → Owners → Prop :=
  Machine.Run (· = init) Step

/-! ### What a trace says -/

/-- The owner a registration belongs to after an event. -/
def belongsAfter (cleanup : ℕ) (owner : Option Owner) : Event → Option Owner
  | .defer through registered late =>
      if registered = cleanup ∧ late = false then some through else owner
  | .split through (some fresh) => if owner = some through then some fresh else owner
  | _ => owner

/-- The owner a registration belongs to: the one it was made through, and, when registrations
were split off, the one they were split into.  A late registration belongs to none. -/
def belongs (trace : List Event) (cleanup : ℕ) : Option Owner :=
  trace.foldl (belongsAfter cleanup) none

/-- The cleanup that an event starts to run. -/
def Event.started : Event → Option ℕ
  | .run cleanup => some cleanup
  | _ => none

/-- The cleanups that have been started, oldest first. -/
def started (trace : List Event) : List ℕ :=
  trace.filterMap Event.started

theorem belongs_append (trace : List Event) (event : Event) (cleanup : ℕ) :
  belongs (trace ++ [event]) cleanup = belongsAfter cleanup (belongs trace cleanup) event
  := by
  simp [belongs]

theorem started_append (trace : List Event) (event : Event) :
  started (trace ++ [event]) = started trace ++ event.started.toList
  := by
  cases h : event.started <;> simp [started, h]

/-- The cleanups that releases under way have still to run. -/
def due (s : Owners) : List ℕ :=
  s.releases.flatMap Release.rest

/-! ### Reading a changed state -/

section

variable (s : Owners)

@[simp]
theorem cells_setCell_self (cell : ℕ) (value : OwnerCell) :
  (s.setCell cell value).cells cell = value
  := by
  simp [setCell]

theorem cells_setCell_of_ne {cell other : ℕ} (value : OwnerCell)
    (h : other ≠ cell) :
  (s.setCell cell value).cells other = s.cells other
  := by
  simp [setCell, Function.update_of_ne h]

@[simp]
theorem registered_setCell (cell : ℕ) (value : OwnerCell) :
  (s.setCell cell value).registered = s.registered
  := rfl

@[simp]
theorem releases_setCell (cell : ℕ) (value : OwnerCell) :
  (s.setCell cell value).releases = s.releases
  := rfl

@[simp]
theorem cells_push (release : Release) : (s.push release).cells = s.cells := rfl

@[simp]
theorem registered_push (release : Release) :
  (s.push release).registered = s.registered
  := rfl

@[simp]
theorem releases_push (release : Release) :
  (s.push release).releases = release :: s.releases
  := rfl

@[simp]
theorem cells_number : s.number.cells = s.cells := rfl

@[simp]
theorem registered_number : s.number.registered = s.registered + 1 := rfl

@[simp]
theorem releases_number : s.number.releases = s.releases := rfl

end

theorem isDisposed_iff {s : Owners} {owner : Owner} :
  s.isDisposed owner = true ↔ owner ≠ s.live owner.cell
  := by
  rw [isDisposed, bne_iff_ne, live]
  constructor
  · intro h heq
    rw [Owner.mk.injEq] at heq
    exact h heq.2.symm
  · intro h heq
    apply h
    rw [heq]

theorem live_of_not_isDisposed {s : Owners} {owner : Owner} (h : s.isDisposed owner = false) :
  owner = s.live owner.cell
  := by
  by_contra hne
  have hdisposed := isDisposed_iff.2 hne
  rw [h] at hdisposed
  cases hdisposed

end Owners

end Vilan
