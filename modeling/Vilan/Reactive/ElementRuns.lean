import Vilan.Reactive.OwnerRuns

/-!
# The runs of a stage's elements

A collection stage runs its closure once for each element that it admits.  All runs share one
scratch owner, the stage's: when a run ends, what the scratch owner lists is split off into an
owner of the element's own, and that is disposed when the element is retired.  Code of a run may
register a cleanup with the scratch owner while the run is in progress, and its continuations at
any later time.
-/

namespace Vilan

open List Function

/-- A collection stage, as far as it owns: all owners, the next slot id, the elements whose run
is in progress, innermost first, the owners of the elements held, and, to tell what follows,
the element whose run registered a cleanup. -/
structure Stage where
  owners : Owners
  nextId : ℕ
  runs : List ℕ
  holds : ℕ → Option Owner
  registrant : ℕ → Option ℕ

namespace Stage

open Owners (belongs started)

/-- The stage's scratch owner. -/
def scratch : Owner := ⟨0, 0⟩

/-- A stage that has run no element. -/
def new : Stage where
  owners := Owners.init.make
  nextId := 0
  runs := []
  holds := fun _ => none
  registrant := fun _ => none

/-- What happens in a step. -/
inductive Event where
  /-- Owners are used otherwise than by the stage, or a release goes on. -/
  | owners (event : Owners.Event)
  /-- Code of an element's run, or of a continuation of it, registers a cleanup. -/
  | register (element cleanup : ℕ) (late : Bool)
  /-- The run of an element begins. -/
  | begin (element : ℕ)
  /-- The run of an element has ended, and what it registered is split off. -/
  | finish (element : ℕ) (owner : Option Owner)
  /-- The run of an element has thrown. -/
  | threw (element : ℕ)
  /-- An element is retired. -/
  | retire (element : ℕ) (owner : Option Owner)
  /-- The stage is released. -/
  | release

/-- What a step does to the owners. -/
def Event.toOwners : Event → Option Owners.Event
  | .owners event => some event
  | .register _ cleanup late => some (.defer scratch cleanup late)
  | .begin _ => none
  | .finish _ owner => some (.split scratch owner)
  | .threw _ => none
  | .retire _ owner => owner.map .dispose
  | .release => some (.dispose scratch)

/-- The owner that a use of owners is through. -/
def through : Owners.Event → Option Owner
  | .defer owner _ _ => some owner
  | .renew owner => some owner
  | .split owner _ => some owner
  | .dispose owner => some owner
  | _ => none

/-- The use of owners is not through the scratch owner nor through an owner of an element. -/
def Foreign (stage : Stage) (event : Owners.Event) : Prop :=
  ∀ owner, through event = some owner →
    owner.cell ≠ scratch.cell ∧ ∀ element own, stage.holds element = some own →
      owner.cell ≠ own.cell

inductive Step : Stage → Event → Stage → Prop
  | owners {stage : Stage} {event : Owners.Event} {owners : Owners}
      (hstep : Owners.Step stage.owners event owners) (hforeign : stage.Foreign event) :
      Step stage (.owners event) { stage with owners := owners }
  | register {stage : Stage} {element cleanup : ℕ} {late : Bool} {owners : Owners}
      (helement : element < stage.nextId)
      (hstep : Owners.Step stage.owners (.defer scratch cleanup late) owners) :
      Step stage (.register element cleanup late)
        { stage with
          owners := owners
          registrant := Function.update stage.registrant cleanup (some element) }
  | begin {stage : Stage} (hcode : stage.owners.codeRuns) :
      Step stage (.begin stage.nextId)
        { stage with nextId := stage.nextId + 1, runs := stage.nextId :: stage.runs }
  | finish {stage : Stage} {element : ℕ} {outer : List ℕ} {owner : Option Owner}
      {owners : Owners} (hruns : stage.runs = element :: outer)
      (hstep : Owners.Step stage.owners (.split scratch owner) owners) :
      Step stage (.finish element owner)
        { stage with
          owners := owners
          runs := outer
          holds := Function.update stage.holds element owner }
  | threw {stage : Stage} {element : ℕ} {outer : List ℕ} (hcode : stage.owners.codeRuns)
      (hruns : stage.runs = element :: outer) :
      Step stage (.threw element) { stage with runs := outer }
  | retire {stage : Stage} {element : ℕ} {owner : Owner} {owners : Owners}
      (hholds : stage.holds element = some owner)
      (hstep : Owners.Step stage.owners (.dispose owner) owners) :
      Step stage (.retire element (some owner))
        { stage with
          owners := owners
          holds := Function.update stage.holds element none }
  | retireNone {stage : Stage} {element : ℕ} (hcode : stage.owners.codeRuns)
      (hholds : stage.holds element = none) :
      Step stage (.retire element none) stage
  | release {stage : Stage} {owners : Owners}
      (hstep : Owners.Step stage.owners (.dispose scratch) owners) :
      Step stage .release { stage with owners := owners }

/-- Runs of a stage. -/
def Run : List Event → Stage → Prop :=
  Machine.Run (· = new) Step

/-- When the run of an element ends, all that the scratch owner lists was registered by it. -/
def Alone (stage : Stage) : Event → Prop
  | .finish element _ =>
      ∀ cleanup ∈ (stage.owners.cells scratch.cell).cleanups,
        stage.registrant cleanup = some element
  | _ => True

/-- Runs of a stage in which the scratch owner lists what one element registered whenever a run
ends. -/
def AloneRun : List Event → Stage → Prop :=
  Machine.Run (· = new) (fun stage event stage' => Step stage event stage' ∧ Alone stage event)

/-- What has happened to the owners. -/
def ownersTrace (trace : List Event) : List Owners.Event :=
  .make scratch :: trace.filterMap Event.toOwners

variable {event : Event} {use : Owners.Event} {stage stage' : Stage} {trace : List Event}
  {s : Owners} {cleanup : ℕ}

theorem ownersTrace_append_some (h : event.toOwners = some use) (trace : List Event) :
  ownersTrace (trace ++ [event]) = ownersTrace trace ++ [use]
  := by
  simp [ownersTrace, h]

theorem ownersTrace_append_none (h : event.toOwners = none) (trace : List Event) :
  ownersTrace (trace ++ [event]) = ownersTrace trace
  := by
  simp [ownersTrace, h]

theorem AloneRun.run (run : AloneRun trace stage) :
  Run trace stage
  := by
  induction run with
  | start h => exact Machine.Run.start h
  | step _ h ih => exact Machine.Run.step ih h.1

/-- The owners of a stage are used in a run of owners. -/
theorem Run.owners (run : Run trace stage) :
  Owners.Run (ownersTrace trace) stage.owners
  := by
  induction run with
  | start h =>
    subst h
    have run : Owners.Run [] Owners.init := Machine.Run.start rfl
    have hmake : Owners.Step Owners.init (.make scratch) Owners.init.make := by
      apply Owners.Step.make
      simp [Owners.codeRuns, Owners.init]
    exact Machine.Run.step run hmake
  | step run hstep ih =>
    cases hstep with
    | owners hstep =>
      rw [ownersTrace_append_some rfl]
      apply Machine.Run.step ih hstep
    | register helement hstep =>
      rw [ownersTrace_append_some rfl]
      apply Machine.Run.step ih hstep
    | begin =>
      rw [ownersTrace_append_none rfl]
      apply ih
    | finish hruns hstep =>
      rw [ownersTrace_append_some rfl]
      apply Machine.Run.step ih hstep
    | threw =>
      rw [ownersTrace_append_none rfl]
      apply ih
    | retire hholds hstep =>
      rw [ownersTrace_append_some rfl]
      apply Machine.Run.step ih hstep
    | retireNone =>
      rw [ownersTrace_append_none rfl]
      apply ih
    | release hstep =>
      rw [ownersTrace_append_some rfl]
      apply Machine.Run.step ih hstep

theorem Run.accounted (run : Run trace stage) :
  Owners.Accounted (ownersTrace trace) stage.owners
  := Owners.Run.accounted run.owners

/-! ### Elements and their owners -/

/-- Elements run once, and what an element's run was split off into is its own until it is
retired, and disposed from then on. -/
structure Held (trace : List Event) (stage : Stage) : Prop where
  made : scratch.cell < stage.owners.made
  running : ∀ element ∈ stage.runs,
    element < stage.nextId ∧ ∀ owner, .finish element owner ∉ trace
  nodup : stage.runs.Nodup
  finished : ∀ element owner, .finish element owner ∈ trace → element < stage.nextId
  holds : ∀ element owner, stage.holds element = some owner →
    .finish element (some owner) ∈ trace
  own : ∀ element owner, .finish element (some owner) ∈ trace →
    owner.cell ≠ scratch.cell ∧ owner.cell < stage.owners.made
      ∧ owner.epoch ≤ (stage.owners.cells owner.cell).epoch
      ∧ (stage.holds element = some owner
        ∨ owner.epoch < (stage.owners.cells owner.cell).epoch)
  registrant : ∀ cleanup element, stage.registrant cleanup = some element ↔
    ∃ late, .register element cleanup late ∈ trace
  registered : ∀ cleanup element, stage.registrant cleanup = some element →
    cleanup < stage.owners.registered

/-- The number of registrations only grows, and a registration takes the next number. -/
theorem registered_le {s' : Owners} {event : Owners.Event} (hstep : Owners.Step s event s') :
  s.registered ≤ s'.registered
    ∧ ∀ owner cleanup late, event = .defer owner cleanup late →
      cleanup = s.registered ∧ cleanup < s'.registered
  := by
  have hadvance : ∀ owner, (s.advance owner).registered = s.registered := by
    intro owner
    unfold Owners.advance
    split
    · rfl
    · split <;> rfl
  cases hstep with
  | @defer owner late =>
    have hdefer : (s.defer owner).registered = s.registered + 1 := by
      unfold Owners.defer
      split <;> rfl
    rw [hdefer]
    use Nat.le_succ _
    rintro owner' cleanup late' ⟨⟩
    exact ⟨rfl, Nat.lt_succ_self _⟩
  | renew =>
    rw [hadvance]
    simp
  | dispose =>
    rw [hadvance]
    simp
  | _ => exact ⟨Nat.le_refl _, by simp⟩

/-- A step that ends no run keeps what holds of elements. -/
theorem Held.keep (held : Held trace stage)
    (hfinish : ∀ element owner, event ≠ .finish element owner)
    (hnumber : ∀ element cleanup late, event = .register element cleanup late →
      cleanup < stage'.owners.registered)
    (hcells : ∀ cell < stage.owners.made, cell < stage'.owners.made
      ∧ (stage.owners.cells cell).epoch ≤ (stage'.owners.cells cell).epoch)
    (hregistered : stage.owners.registered ≤ stage'.owners.registered)
    (hruns : ∀ element ∈ stage'.runs, element ∈ stage.runs ∨ element = stage.nextId)
    (hnodup : stage'.runs.Nodup) (hnextId : stage.nextId ≤ stage'.nextId)
    (hnew : stage.nextId ∈ stage'.runs → stage.nextId < stage'.nextId)
    (hholds : ∀ element owner, stage'.holds element = some owner →
      stage.holds element = some owner)
    (hreleased : ∀ element owner, stage.holds element = some owner →
      stage'.holds element = some owner
        ∨ owner.epoch < (stage'.owners.cells owner.cell).epoch)
    (hregistrant : ∀ cleanup element, stage'.registrant cleanup = some element ↔
      stage.registrant cleanup = some element
        ∨ ∃ late, event = .register element cleanup late) :
  Held (trace ++ [event]) stage'
  := by
  have hmem : ∀ element owner,
      .finish element owner ∈ trace ++ [event] ↔ .finish element owner ∈ trace := by
    intro element owner
    simp [(hfinish element owner).symm]
  constructor
  · apply (hcells _ held.made).1
  · intro element helement
    obtain hold | rfl := hruns element helement
    · obtain ⟨hlt, hnone⟩ := held.running element hold
      use Nat.lt_of_lt_of_le hlt hnextId
      intro owner
      rw [hmem]
      apply hnone
    · use hnew helement
      intro owner
      rw [hmem]
      intro h
      exact Nat.lt_irrefl _ (held.finished _ owner h)
  · apply hnodup
  · intro element owner h
    rw [hmem] at h
    exact Nat.lt_of_lt_of_le (held.finished element owner h) hnextId
  · intro element owner h
    rw [hmem]
    apply held.holds element owner (hholds element owner h)
  · intro element owner h
    rw [hmem] at h
    obtain ⟨hne, hmade, hle, hown⟩ := held.own element owner h
    obtain ⟨hmade', hle'⟩ := hcells owner.cell hmade
    refine ⟨hne, hmade', Nat.le_trans hle hle', ?_⟩
    obtain hown | hover := hown
    · apply hreleased element owner hown
    · right
      exact Nat.lt_of_lt_of_le hover hle'
  · intro cleanup element
    rw [hregistrant, held.registrant, ← exists_or]
    simp [eq_comm]
  · intro cleanup element h
    obtain h | ⟨late, h⟩ := (hregistrant cleanup element).1 h
    · exact Nat.lt_of_lt_of_le (held.registered cleanup element h) hregistered
    · apply hnumber element cleanup late h

theorem Held.step (held : Held trace stage) (hstep : Step stage event stage') :
  Held (trace ++ [event]) stage'
  := by
  cases hstep with
  | owners hstep =>
    refine held.keep (by simp) (by simp) (fun _ => hstep.epoch_le) (registered_le hstep).1
      ?_ ?_ ?_ ?_ ?_ ?_ (by simp)
    · exact fun _ => Or.inl
    · apply held.nodup
    · apply Nat.le_refl
    · exact fun h => (held.running _ h).1
    · exact fun _ _ h => h
    · exact fun _ _ => Or.inl
  | @register element cleanup late owners helement hstep =>
    obtain ⟨hle, hdefer⟩ := registered_le hstep
    obtain ⟨hnumber, hlt⟩ := hdefer _ _ _ rfl
    have hnew : stage.registrant cleanup = none := by
      rw [Option.eq_none_iff_forall_ne_some]
      intro other h
      have hlt' := held.registered cleanup other h
      omega
    refine held.keep (by simp) ?_ (fun _ => hstep.epoch_le) hle ?_ ?_ ?_ ?_ ?_ ?_ ?_
    · rintro element' cleanup' late' ⟨⟩
      apply hlt
    · exact fun _ => Or.inl
    · apply held.nodup
    · apply Nat.le_refl
    · exact fun h => (held.running _ h).1
    · exact fun _ _ h => h
    · exact fun _ _ => Or.inl
    · intro other element'
      by_cases heq : other = cleanup
      · subst heq
        simp [hnew]
      · simp [update_of_ne heq, Ne.symm heq]
  | begin =>
    refine held.keep (by simp) (by simp) (fun _ h => ⟨h, Nat.le_refl _⟩) (Nat.le_refl _)
      ?_ ?_ ?_ ?_ ?_ ?_ (by simp)
    · intro element h
      rw [mem_cons] at h
      apply h.symm
    · rw [nodup_cons]
      refine ⟨?_, held.nodup⟩
      intro h
      exact Nat.lt_irrefl _ (held.running _ h).1
    · apply Nat.le_succ
    · exact fun _ => Nat.lt_succ_self _
    · exact fun _ _ h => h
    · exact fun _ _ => Or.inl
  | @finish element outer owner owners hruns hstep =>
    obtain ⟨hlt, hnone⟩ := held.running element (by simp [hruns])
    have hnodup := held.nodup
    rw [hruns, nodup_cons] at hnodup
    have hmem : ∀ other own, .finish other own ∈ trace ++ [.finish element owner] ↔
        .finish other own ∈ trace ∨ other = element ∧ own = owner := by
      intro other own
      simp
    constructor
    · apply (hstep.epoch_le held.made).1
    · intro other hother
      obtain ⟨hlt', hnone'⟩ := held.running other (by simp [hruns, hother])
      use hlt'
      intro own
      rw [hmem, not_or]
      use hnone' own
      rintro ⟨rfl, -⟩
      apply hnodup.1 hother
    · apply hnodup.2
    · intro other own h
      obtain h | ⟨rfl, -⟩ := (hmem other own).1 h
      · apply held.finished other own h
      · apply hlt
    · intro other own h
      rw [hmem]
      by_cases heq : other = element
      · right
        simp only [heq, update_self] at h
        exact ⟨heq, h.symm⟩
      · left
        simp only [update_of_ne heq] at h
        apply held.holds other own h
    · intro other own h
      obtain hbefore | ⟨rfl, howner⟩ := (hmem other (some own)).1 h
      · obtain ⟨hne, hmade, hle, hown⟩ := held.own other own hbefore
        obtain ⟨hmade', hle'⟩ := hstep.epoch_le hmade
        refine ⟨hne, hmade', Nat.le_trans hle hle', ?_⟩
        obtain hown | hover := hown
        · left
          have hne' : other ≠ element := by
            rintro rfl
            apply hnone _ hbefore
          simpa [update_of_ne hne'] using hown
        · right
          exact Nat.lt_of_lt_of_le hover hle'
      · subst howner
        simp only [update_self, true_or, and_true]
        apply hstep.split_made held.made
    · intro cleanup other
      rw [held.registrant]
      simp
    · intro cleanup other h
      exact Nat.lt_of_lt_of_le (held.registered cleanup other h) (registered_le hstep).1
  | @threw element outer hcode hruns =>
    refine held.keep (by simp) (by simp) (fun _ h => ⟨h, Nat.le_refl _⟩) (Nat.le_refl _)
      ?_ ?_ ?_ ?_ ?_ ?_ (by simp)
    · intro other h
      left
      rw [hruns]
      apply mem_cons_of_mem _ h
    · have hnodup := held.nodup
      rw [hruns] at hnodup
      apply hnodup.of_cons
    · apply Nat.le_refl
    · intro h
      apply (held.running _ _).1
      rw [hruns]
      apply mem_cons_of_mem _ h
    · exact fun _ _ h => h
    · exact fun _ _ => Or.inl
  | @retire element owner owners hholds hstep =>
    refine held.keep (by simp) (by simp) (fun _ => hstep.epoch_le) (registered_le hstep).1
      ?_ ?_ ?_ ?_ ?_ ?_ (by simp)
    · exact fun _ => Or.inl
    · apply held.nodup
    · apply Nat.le_refl
    · exact fun h => (held.running _ h).1
    · intro other own h
      by_cases heq : other = element
      · simp [heq] at h
      · simpa [update_of_ne heq] using h
    · intro other own h
      by_cases heq : other = element
      · right
        rw [heq, hholds, Option.some_inj] at h
        subst h
        apply hstep.dispose_over
        apply (held.own element owner (held.holds element owner hholds)).2.2.1
      · left
        simpa [update_of_ne heq] using h
  | retireNone =>
    refine held.keep (by simp) (by simp) (fun _ h => ⟨h, Nat.le_refl _⟩) (Nat.le_refl _)
      ?_ ?_ ?_ ?_ ?_ ?_ (by simp)
    · exact fun _ => Or.inl
    · apply held.nodup
    · apply Nat.le_refl
    · exact fun h => (held.running _ h).1
    · exact fun _ _ h => h
    · exact fun _ _ => Or.inl
  | release hstep =>
    refine held.keep (by simp) (by simp) (fun _ => hstep.epoch_le) (registered_le hstep).1
      ?_ ?_ ?_ ?_ ?_ ?_ (by simp)
    · exact fun _ => Or.inl
    · apply held.nodup
    · apply Nat.le_refl
    · exact fun h => (held.running _ h).1
    · exact fun _ _ h => h
    · exact fun _ _ => Or.inl

theorem Run.held (run : Run trace stage) :
  Held trace stage
  := by
  apply Machine.Run.history (P := Held) _ _ run
  · rintro stage rfl
    constructor <;> simp [new, Owners.init, Owners.make, scratch]
  · intro trace stage event stage' _ held hstep
    apply held.step hstep

/-! ### Where the registrations of an element go -/

/-- What an element's run registered belongs to the scratch owner or to the element's own, or it
ran on the spot. -/
def Attributed (trace : List Event) : Prop :=
  ∀ element cleanup late, .register element cleanup late ∈ trace →
    belongs (ownersTrace trace) cleanup = none
      ∨ belongs (ownersTrace trace) cleanup = some scratch
      ∨ ∃ owner, belongs (ownersTrace trace) cleanup = some owner
        ∧ .finish element (some owner) ∈ trace

/-- What an element's run registered before it ended belongs to the element's own owner. -/
def SplitOff (trace : List Event) : Prop :=
  ∀ before element owner after, trace = before ++ .finish element (some owner) :: after →
    ∀ cleanup, .register element cleanup false ∈ before →
      belongs (ownersTrace trace) cleanup = some owner

/-- A use of owners other than a split leaves the registrations made before it where they
are. -/
theorem belongsAfter_of_not_split {s' : Owners} {event : Owners.Event}
    (hstep : Owners.Step s event s') (hcleanup : cleanup < s.registered) {owner : Option Owner}
    (hsplit : ∀ split fresh, event = .split split (some fresh) → owner ≠ some split) :
  Owners.belongsAfter cleanup owner event = owner
  := by
  have hnumber := (registered_le hstep).2
  cases event with
  | defer through number late =>
    obtain ⟨heq, -⟩ := hnumber _ _ _ rfl
    simp only [Owners.belongsAfter]
    rw [if_neg]
    omega
  | split split fresh =>
    cases fresh with
    | none => rfl
    | some fresh =>
      simp only [Owners.belongsAfter]
      rw [if_neg (hsplit _ _ rfl)]
  | _ => rfl

/-- A use of owners that is foreign to the stage takes nothing from an owner of an element or
from the scratch owner. -/
theorem belongs_foreign {owners : Owners} {event : Owners.Event} (held : Held trace stage)
    (hstep : Owners.Step stage.owners event owners) (hforeign : stage.Foreign event)
    (hcleanup : cleanup < stage.owners.registered) {owner : Option Owner}
    (howner : ∀ own, owner = some own →
      own = scratch ∨ ∃ element, .finish element (some own) ∈ trace) :
  Owners.belongsAfter cleanup owner event = owner
  := by
  apply belongsAfter_of_not_split hstep hcleanup
  rintro split fresh rfl rfl
  obtain ⟨hscratch, hholds⟩ := hforeign split rfl
  obtain rfl | ⟨element, hfinish⟩ := howner split rfl
  · apply hscratch rfl
  · obtain ⟨-, -, -, hown | hover⟩ := held.own element split hfinish
    · apply hholds element split hown rfl
    · -- only a live epoch is split
      generalize hevent : Owners.Event.split split (some fresh) = event at hstep
      cases hstep with
      | split hcode howner hsplits =>
        cases hevent
        rw [Owners.splits, Bool.and_eq_true, Bool.not_eq_true'] at hsplits
        have hlive := Owners.live_of_not_isDisposed hsplits.2
        rw [hlive] at hover
        apply Nat.lt_irrefl _ hover
      | _ => cases hevent

theorem belongs_append_some (h : event.toOwners = some use) (trace : List Event) (cleanup : ℕ) :
  belongs (ownersTrace (trace ++ [event])) cleanup
    = Owners.belongsAfter cleanup (belongs (ownersTrace trace) cleanup) use
  := by
  rw [ownersTrace_append_some h, Owners.belongs_append]

theorem Held.registered_of_mem (held : Held trace stage) {element : ℕ} {late : Bool}
    (h : .register element cleanup late ∈ trace) :
  cleanup < stage.owners.registered
  := by
  apply held.registered cleanup element
  rw [held.registrant]
  use late

/-- A step that neither registers nor ends a run leaves the registrations of elements where they
are. -/
theorem belongs_keep (held : Held trace stage) (hstep : Step stage event stage')
    (hfinish : ∀ element owner, event ≠ .finish element owner)
    (hcleanup : cleanup < stage.owners.registered)
    (howner : ∀ own, belongs (ownersTrace trace) cleanup = some own →
      own = scratch ∨ ∃ element, .finish element (some own) ∈ trace) :
  belongs (ownersTrace (trace ++ [event])) cleanup = belongs (ownersTrace trace) cleanup
  := by
  cases hstep with
  | owners hstep hforeign =>
    rw [belongs_append_some rfl]
    apply belongs_foreign held hstep hforeign hcleanup howner
  | register helement hstep =>
    rw [belongs_append_some rfl]
    apply belongsAfter_of_not_split hstep hcleanup
    simp
  | begin => rw [ownersTrace_append_none rfl]
  | finish => exact (hfinish _ _ rfl).elim
  | threw => rw [ownersTrace_append_none rfl]
  | retire hholds hstep =>
    rw [belongs_append_some rfl]
    apply belongsAfter_of_not_split hstep hcleanup
    simp
  | retireNone => rw [ownersTrace_append_none rfl]
  | release hstep =>
    rw [belongs_append_some rfl]
    apply belongsAfter_of_not_split hstep hcleanup
    simp

/-- What belongs to the scratch owner while that is live is listed by it. -/
theorem listed_of_splits {trace : List Owners.Event} (acc : Owners.Accounted trace s)
    {owner : Owner} (hdisposed : s.isDisposed owner = false)
    (h : belongs trace cleanup = some owner) :
  cleanup ∈ (s.cells owner.cell).cleanups
  := by
  have hlive := Owners.live_of_not_isDisposed hdisposed
  have hover : ¬ owner.epoch < (s.cells owner.cell).epoch := by
    intro hlt
    rw [hlive] at hlt
    apply Nat.lt_irrefl _ hlt
  obtain ⟨-, hmem⟩ | ⟨release, hrelease, hsome, -⟩ | hstarted := acc.owned cleanup owner h
  · apply hmem
  · exact (hover (acc.ended release hrelease owner hsome).2).elim
  · exact (hover (acc.gone cleanup hstarted owner h)).elim

theorem Attributed.step (run : Run trace stage) (attributed : Attributed trace)
    (hstep : Step stage event stage') (halone : Alone stage event) :
  Attributed (trace ++ [event])
  := by
  have held := run.held
  intro element cleanup late hmem
  rw [mem_append, mem_singleton] at hmem
  obtain hmem | rfl := hmem
  · have hcleanup := held.registered_of_mem hmem
    by_cases hfinish : ∃ other owner, event = .finish other owner
    · obtain ⟨other, owner, rfl⟩ := hfinish
      cases hstep with
      | finish hruns hstep =>
        rw [belongs_append_some rfl]
        cases owner with
        | none =>
          change belongs (ownersTrace trace) cleanup = none ∨
            belongs (ownersTrace trace) cleanup = some scratch ∨ _
          obtain h | h | ⟨own, h, hown⟩ := attributed element cleanup late hmem
          · exact Or.inl h
          · exact Or.inr (Or.inl h)
          · right
            right
            exact ⟨own, h, mem_append_left _ hown⟩
        | some fresh =>
          simp only [Owners.belongsAfter]
          obtain h | h | ⟨own, h, hown⟩ := attributed element cleanup late hmem
          · left
            simp [h]
          · right
            right
            rw [if_pos h]
            use fresh, rfl
            have hdisposed : stage.owners.isDisposed scratch = false := by
              generalize hevent : Owners.Event.split scratch (some fresh) = use at hstep
              cases hstep with
              | split hcode howner hsplits =>
                cases hevent
                rw [Owners.splits, Bool.and_eq_true, Bool.not_eq_true'] at hsplits
                apply hsplits.2
              | _ => cases hevent
            have hlisted := listed_of_splits run.accounted hdisposed h
            have hregistrant := (held.registrant cleanup element).2 ⟨late, hmem⟩
            rw [halone cleanup hlisted, Option.some_inj] at hregistrant
            simp [hregistrant]
          · right
            right
            obtain ⟨hne, -⟩ := held.own element own hown
            rw [h, if_neg]
            · exact ⟨own, rfl, mem_append_left _ hown⟩
            · rw [Option.some_inj]
              rintro rfl
              apply hne rfl
    · have hkeep := belongs_keep held hstep (fun other owner h => hfinish ⟨other, owner, h⟩)
        hcleanup
      obtain h | h | ⟨own, h, hown⟩ := attributed element cleanup late hmem
      · left
        rw [hkeep, h]
        simp [h]
      · right
        left
        rw [hkeep, h]
        intro own hsome
        rw [h, Option.some_inj] at hsome
        exact Or.inl hsome.symm
      · right
        right
        use own
        rw [hkeep, h]
        · exact ⟨rfl, mem_append_left _ hown⟩
        · intro own' hsome
          rw [h, Option.some_inj] at hsome
          subst hsome
          exact Or.inr ⟨element, hown⟩
  · cases hstep with
    | register helement hstep =>
      rw [belongs_append_some rfl]
      have hnumber := ((registered_le hstep).2 _ _ _ rfl).1
      have hnone := (run.accounted.numbered cleanup (by omega)).1
      cases late with
      | true =>
        left
        simp [Owners.belongsAfter, hnone]
      | false =>
        right
        left
        simp [Owners.belongsAfter]

theorem AloneRun.attributed (run : AloneRun trace stage) :
  Attributed trace
  := by
  apply Machine.Run.history (P := fun trace _ => Attributed trace) _ _ run
  · rintro stage rfl element cleanup late h
    cases h
  · rintro trace stage event stage' run attributed ⟨hstep, halone⟩
    apply attributed.step (AloneRun.run run) hstep halone

theorem mem_ownersTrace (h : event ∈ trace) (huse : event.toOwners = some use) :
  use ∈ ownersTrace trace
  := by
  apply mem_cons_of_mem
  apply List.mem_filterMap.2 ⟨event, h, huse⟩

theorem SplitOff.step (run : AloneRun trace stage) (splitOff : SplitOff trace)
    (hstep : Step stage event stage') :
  SplitOff (trace ++ [event])
  := by
  have held := run.run.held
  intro before element owner after htrace cleanup hmem
  obtain rfl | ⟨after, last, rfl⟩ := eq_nil_or_concat after
  · obtain ⟨rfl, hevent⟩ := append_inj' htrace rfl
    rw [singleton_inj] at hevent
    subst hevent
    cases hstep with
    | finish hruns hstep =>
      rw [belongs_append_some rfl]
      simp only [Owners.belongsAfter]
      obtain h | h | ⟨own, -, hown⟩ := run.attributed element cleanup false hmem
      · have hsome := Owners.isSome_belongs (mem_ownersTrace hmem rfl)
        rw [h] at hsome
        cases hsome
      · rw [if_pos h]
      · exact ((held.running element (by simp [hruns])).2 _ hown).elim
  · rw [concat_eq_append, ← cons_append, ← append_assoc] at htrace
    obtain ⟨rfl, -⟩ := append_inj' htrace rfl
    have hbelongs := splitOff before element owner after rfl cleanup hmem
    have hcleanup := held.registered_of_mem (mem_append_left _ hmem)
    have hown : .finish element (some owner)
        ∈ before ++ .finish element (some owner) :: after := by simp
    by_cases hfinish : ∃ other own, event = .finish other own
    · obtain ⟨other, own, rfl⟩ := hfinish
      cases hstep with
      | finish hruns hstep =>
        rw [belongs_append_some rfl, hbelongs]
        apply belongsAfter_of_not_split hstep hcleanup
        rintro split fresh heq hsome
        cases heq
        rw [Option.some_inj] at hsome
        apply (held.own element owner hown).1
        rw [hsome]
    · rw [belongs_keep held hstep (fun other own h => hfinish ⟨other, own, h⟩) hcleanup, hbelongs]
      intro own hsome
      rw [hbelongs, Option.some_inj] at hsome
      subst hsome
      exact Or.inr ⟨element, hown⟩

theorem AloneRun.splitOff (run : AloneRun trace stage) :
  SplitOff trace
  := by
  apply Machine.Run.history (P := fun trace _ => SplitOff trace) _ _ run
  · rintro stage rfl before element owner after htrace
    simp at htrace
  · rintro trace stage event stage' run splitOff ⟨hstep, -⟩
    apply splitOff.step run hstep

/-- Let every run of an element end with the scratch owner listing only what it registered.
Then a cleanup that an element registered is run by the release of the element's own owner or of
the stage's, or on the spot.  It has run once the element's own owner is disposed, if it was
registered before the run ended, and at the latest once the stage's owner is disposed too. -/
theorem element_owns_its_registrations {trace : List Event} {stage : Stage}
    (run : AloneRun trace stage) {element cleanup : ℕ} {late : Bool}
    (h : .register element cleanup late ∈ trace) :
  (∀ release ∈ stage.owners.releases, cleanup ∈ release.rest →
      release.owner = none ∨ release.owner = some scratch
        ∨ ∃ owner, release.owner = some owner ∧ .finish element (some owner) ∈ trace)
    ∧ (∀ before owner after, trace = before ++ .finish element (some owner) :: after →
        .register element cleanup false ∈ before → stage.owners.isDisposed owner = true →
          (∀ release ∈ stage.owners.releases, cleanup ∉ release.rest) →
            cleanup ∈ started (ownersTrace trace))
    ∧ (late = false → stage.owners.isDisposed scratch = true →
        (∀ owner, .finish element (some owner) ∈ trace →
          stage.owners.isDisposed owner = true) →
        (∀ release ∈ stage.owners.releases, cleanup ∉ release.rest) →
          cleanup ∈ started (ownersTrace trace))
  := by
  have acc := run.run.accounted
  have hrun : ∀ owner, belongs (ownersTrace trace) cleanup = some owner →
      stage.owners.isDisposed owner = true →
        (∀ release ∈ stage.owners.releases, cleanup ∉ release.rest) →
          cleanup ∈ started (ownersTrace trace) := by
    intro owner hbelongs hdisposed hreleases
    obtain ⟨hlive, -⟩ | ⟨release, hrelease, -, hmem⟩ | hstarted :=
      acc.owned cleanup owner hbelongs
    · exact (Owners.isDisposed_iff.1 hdisposed hlive).elim
    · exact (hreleases release hrelease hmem).elim
    · apply hstarted
  have hattributed := run.attributed element cleanup late h
  refine ⟨?_, ?_, ?_⟩
  · intro release hrelease hmem
    rw [← acc.rest release hrelease cleanup hmem]
    apply hattributed
  · intro before owner after htrace hmem
    apply hrun
    apply run.splitOff before element owner after htrace cleanup hmem
  · rintro rfl hscratch howns
    obtain hnone | hbelongs | ⟨owner, hbelongs, hown⟩ := hattributed
    · have hsome := Owners.isSome_belongs (mem_ownersTrace h rfl)
      rw [hnone] at hsome
      cases hsome
    · apply hrun scratch hbelongs hscratch
    · apply hrun owner hbelongs (howns owner hown)

/-! ### A late registration before another element's run -/

theorem codeRuns_nil (h : s.releases = []) :
  s.codeRuns
  := by
  simp [Owners.codeRuns, h]

/-- Element `0` registers a cleanup in its run, and element `0` is retired. -/
theorem element_owns_its_registrations_retired :
  ∃ trace stage, AloneRun trace stage ∧ .register 0 0 false ∈ trace
    ∧ (∀ release ∈ stage.owners.releases, 0 ∈ release.rest →
        release.owner = none ∨ release.owner = some scratch
          ∨ ∃ owner, release.owner = some owner ∧ .finish 0 (some owner) ∈ trace)
    ∧ (∀ before owner after, trace = before ++ .finish 0 (some owner) :: after →
        .register 0 0 false ∈ before → stage.owners.isDisposed owner = true →
          (∀ release ∈ stage.owners.releases, 0 ∉ release.rest) →
            0 ∈ started (ownersTrace trace))
    ∧ (false = false → stage.owners.isDisposed scratch = true →
        (∀ owner, .finish 0 (some owner) ∈ trace → stage.owners.isDisposed owner = true) →
        (∀ release ∈ stage.owners.releases, 0 ∉ release.rest) →
          0 ∈ started (ownersTrace trace))
  := by
  have run₀ : AloneRun [] new := Machine.Run.start rfl
  have run₁ := Machine.Run.step run₀ ⟨Step.begin (codeRuns_nil rfl), trivial⟩
  have run₂ := Machine.Run.step run₁
    ⟨@Step.register _ 0 _ false _ (by decide)
      (Owners.Step.defer (codeRuns_nil rfl) (by decide) rfl), trivial⟩
  have run₃ := Machine.Run.step run₂
    ⟨Step.finish rfl (Owners.Step.split (codeRuns_nil rfl) (by decide) rfl), by
      intro cleanup hmem
      rw [List.mem_singleton.1 hmem]
      rfl⟩
  have run₄ := Machine.Run.step run₃
    ⟨@Step.retire _ 0 _ _ rfl (Owners.Step.dispose (codeRuns_nil rfl) (by decide)), trivial⟩
  have run : AloneRun [.begin 0, .register 0 0 false, .finish 0 (some ⟨1, 0⟩),
      .retire 0 (some ⟨1, 0⟩)] _ := run₄
  have h : Event.register 0 0 false ∈ [.begin 0, .register 0 0 false,
      .finish 0 (some ⟨1, 0⟩), .retire 0 (some ⟨1, 0⟩)] := by simp
  exact ⟨_, _, run, h, element_owns_its_registrations run h⟩

/-- A continuation of element `0` registers a cleanup before element `1` runs.  When element `1`
is retired, the cleanup is run, and element `0` is still held. -/
theorem late_registration_leaves_with_other :
  ¬ ∀ trace stage element cleanup late, Run trace stage →
      .register element cleanup late ∈ trace → (∃ owner, .finish element owner ∈ trace) →
      (∀ owner, .retire element owner ∉ trace) →
      ∀ release ∈ stage.owners.releases, ∀ other owner, .finish other (some owner) ∈ trace →
        other ≠ element → release.owner = some owner → cleanup ∉ release.rest
  := by
  intro h
  have run₀ : Run [] new := Machine.Run.start rfl
  have run₁ := Machine.Run.step run₀ (Step.begin (codeRuns_nil rfl))
  have run₂ := Machine.Run.step run₁
    (Step.finish rfl (Owners.Step.splitNone (codeRuns_nil rfl) (by decide) rfl))
  have run₃ := Machine.Run.step run₂
    (@Step.register _ 0 _ false _ (by decide)
      (Owners.Step.defer (codeRuns_nil rfl) (by decide) rfl))
  have run₄ := Machine.Run.step run₃ (Step.begin (codeRuns_nil rfl))
  have run₅ := Machine.Run.step run₄
    (Step.finish rfl (Owners.Step.split (codeRuns_nil rfl) (by decide) rfl))
  have run₆ := Machine.Run.step run₅
    (@Step.retire _ 1 _ _ rfl (Owners.Step.dispose (codeRuns_nil rfl) (by decide)))
  have run : Run [.begin 0, .finish 0 none, .register 0 0 false, .begin 1,
      .finish 1 (some ⟨1, 0⟩), .retire 1 (some ⟨1, 0⟩)] _ := run₆
  apply h _ _ 0 0 false run (by simp) ⟨none, by simp⟩ (by simp) _ mem_cons_self 1 ⟨1, 0⟩
    (by simp) (by decide) rfl
  apply mem_singleton_self

end Stage

end Vilan
