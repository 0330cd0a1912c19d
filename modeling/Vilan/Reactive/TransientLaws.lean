import Vilan.Reactive.Transient

/-!
# The algebra of transient states

A state is mapped over the value that it holds, chained to a state that depends on that value, and
paired with another.  Chaining is lawful: it is associative, and a state chained to the state that
is ready is itself.  Pairing is associative up to the bracketing of the pair, and symmetric up to
its order unless both sides failed, where the error of the first is kept.
-/

namespace Vilan

namespace TransientState

variable {T U V E : Type}

/-- The value of a state that is ready. -/
def getReady : TransientState T E → Option T
  | ready value => some value
  | _ => none

/-- Something is on its way. -/
def isPending : TransientState T E → Bool
  | pending => true
  | refreshing _ => true
  | _ => false

/-- The same state over a transformed value. -/
def map (transform : T → U) : TransientState T E → TransientState U E
  | pending => pending
  | ready value => ready (transform value)
  | refreshing value => refreshing (transform value)
  | failed error stale => failed error (stale.map transform)
  | absent => absent

/-- Chain a state that depends on the value. -/
def andThen (state : TransientState T E) (next : T → TransientState U E) : TransientState U E :=
  match state with
  | pending => pending
  | ready value => next value
  | refreshing value =>
      match next value with
      | ready fresh => refreshing fresh
      | refreshing fresh => refreshing fresh
      | failed error stale => failed error stale
      | _ => pending
  | failed error stale => failed error (stale.bind fun value => (next value).latest)
  | absent => absent

/-- Both of two optional values. -/
def zipped : Option T → Option U → Option (T × U)
  | some mine, some theirs => some (mine, theirs)
  | _, _ => none

/-- Both states at once. -/
def zip (state : TransientState T E) (other : TransientState U E) : TransientState (T × U) E :=
  let stale := zipped state.latest other.latest
  match state, other with
  | failed error _, _ => failed error stale
  | _, failed error _ => failed error stale
  | absent, _ => absent
  | _, absent => absent
  | ready mine, ready theirs => ready (mine, theirs)
  | _, _ =>
      match stale with
      | some both => refreshing both
      | none => pending

/-- Whether a state failed. -/
def isFailed : TransientState T E → Bool
  | failed _ _ => true
  | _ => false

variable (state : TransientState T E) (other : TransientState U E)

/-! ### Mapping -/

theorem map_map (f : T → U) (g : U → V) :
  (state.map f).map g = state.map (g ∘ f)
  := by
  cases state with
  | failed error stale => rw [map, map, map, Option.map_map]
  | _ => rfl

@[simp]
theorem latest_map (f : T → U) :
  (state.map f).latest = state.latest.map f
  := by
  cases state <;> rfl

@[simp]
theorem getReady_map (f : T → U) :
  (state.map f).getReady = state.getReady.map f
  := by
  cases state <;> rfl

@[simp]
theorem isPending_map (f : T → U) :
  (state.map f).isPending = state.isPending
  := by
  cases state <;> rfl

theorem map_eq_andThen (f : T → U) :
  state.map f = state.andThen fun value => ready (f value)
  := by
  cases state with
  | failed error stale => cases stale <;> rfl
  | _ => rfl

/-! ### Chaining -/

theorem andThen_ready :
  state.andThen ready = state
  := by
  cases state with
  | failed error stale => cases stale <;> rfl
  | _ => rfl

/-- What is chained to a state that is refreshed or has failed shows what it would show. -/
theorem latest_andThen (next : T → TransientState U E) :
  (state.andThen next).latest = state.latest.bind fun value => (next value).latest
  := by
  cases state with
  | refreshing value =>
    rw [andThen, latest, Option.bind_some]
    cases next value <;> rfl
  | _ => rfl

/-- Refreshing twice is refreshing once. -/
theorem refreshing_andThen (f : T → TransientState U E) (g : U → TransientState V E) (value : T) :
  ((refreshing value).andThen f).andThen g = (refreshing value).andThen fun v => (f v).andThen g
  := by
  simp only [andThen]
  cases f value with
  | refreshing fresh =>
    simp only
    cases g fresh <;> rfl
  | _ => rfl

theorem andThen_assoc (f : T → TransientState U E) (g : U → TransientState V E) :
  (state.andThen f).andThen g = state.andThen fun value => (f value).andThen g
  := by
  cases state with
  | refreshing value => apply refreshing_andThen
  | failed error stale =>
    have shown : ∀ value, ((f value).andThen g).latest = (f value).latest.bind fun fresh =>
        (g fresh).latest := fun value => latest_andThen _ g
    rw [andThen, andThen, andThen, Option.bind_assoc]
    simp only [shown]
  | _ => rfl

/-! ### Pairing -/

/-- The first error is kept, then what is absent, then what is on its way, however the pairs are
bracketed. -/
theorem zip_assoc (third : TransientState V E) :
  ((state.zip other).zip third).map (fun pair => (pair.1.1, (pair.1.2, pair.2)))
    = state.zip (other.zip third)
  := by
  rcases state with _ | _ | _ | ⟨_, _ | _⟩ | _ <;>
    rcases other with _ | _ | _ | ⟨_, _ | _⟩ | _ <;>
    rcases third with _ | _ | _ | ⟨_, _ | _⟩ | _ <;> rfl

/-- Pairs of states are mirror images, unless there are two errors to choose from. -/
theorem zip_swap (apart : (state.isFailed && other.isFailed) = false) :
  (state.zip other).map Prod.swap = other.zip state
  := by
  rcases state with _ | _ | _ | ⟨_, _ | _⟩ | _ <;>
    rcases other with _ | _ | _ | ⟨_, _ | _⟩ | _ <;>
    first
    | rfl
    | cases apart

/-- Transient states are lawful: chaining is associative with the ready states as its units, mapping
is chaining to a ready state and keeps what a state has, and pairing is associative and symmetric. -/
theorem lawful :
  (∀ {U V : Type} (f : T → TransientState U E) (g : U → TransientState V E),
    (state.andThen f).andThen g = state.andThen fun value => (f value).andThen g) ∧
  state.andThen ready = state ∧
  (∀ {U : Type} (f : T → U), state.map f = state.andThen fun value => ready (f value)) ∧
  (∀ {U V : Type} (f : T → U) (g : U → V), (state.map f).map g = state.map (g ∘ f)) ∧
  (∀ {U : Type} (f : T → U), (state.map f).getReady.isSome = state.getReady.isSome ∧
    (state.map f).latest.isSome = state.latest.isSome ∧
    (state.map f).isPending = state.isPending) ∧
  (∀ {U V : Type} (other : TransientState U E) (third : TransientState V E),
    ((state.zip other).zip third).map (fun pair => (pair.1.1, (pair.1.2, pair.2)))
      = state.zip (other.zip third)) ∧
  ∀ {U : Type} (other : TransientState U E), (state.isFailed && other.isFailed) = false →
    (state.zip other).map Prod.swap = other.zip state
  := by
  refine ⟨andThen_assoc state, andThen_ready state, map_eq_andThen state, map_map state, ?_,
    zip_assoc state, zip_swap state⟩
  intro U f
  rw [getReady_map, latest_map, isPending_map, Option.isSome_map, Option.isSome_map]
  use rfl, rfl

/-- A value that is refreshed and an error are one pair in either order. -/
theorem lawful_refreshing :
  ((refreshing 1 : TransientState ℕ ℕ).zip (failed 2 (some 3))).map Prod.swap
    = (failed 2 (some (3, 1)) : TransientState (ℕ × ℕ) ℕ)
  := (lawful (refreshing 1)).2.2.2.2.2.2 (failed 2 (some 3)) rfl

end TransientState

end Vilan
