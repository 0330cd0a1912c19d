import Vilan.Reactive.StoreDiff
import Vilan.Reactive.StoreTreeRuns

/-!
# Writes of a store

A write diffs the place of its handle against the value written, lets the feeds it told read
their part, replaces the place, and wakes what the diff collected and every slot above.  It
reaches the place while every variant on the path is live.

`assume` makes of a handle through a variant one that reads on once the variant has ended:
a keeper, a feed on the variant's flag, copies the payload in the write that ends it.  A write
through such a handle still diffs what the handle reads.
-/

namespace Vilan

variable {H L : Type*}

/-! ### Handles -/

/-- How a handle was made of the root's: a step down, or an `assume` with its keeper. -/
inductive StoreLend where
  | root
  | step (above : StoreLend) (index : ℕ)
  | assumed (above : StoreLend) (keeper : ℕ)

namespace StoreLend

/-- The path of a handle. -/
def path : StoreLend → List ℕ
  | root => []
  | step above index => above.path ++ [index]
  | assumed above _ => above.path

/-- What a handle's `lend` reaches, when the keepers have kept `kept`. -/
def lend (value : StoreValue L) (kept : ℕ → Option (StoreValue L)) :
    StoreLend → Option (StoreValue L)
  | root => some value
  | step above index => (lend value kept above).bind fun held => held.child index
  | assumed above keeper =>
      match lend value kept above with
      | some payload => some payload
      | none => kept keeper

end StoreLend

/-! ### The write -/

/-- A store: the root's value, the slot tree, and what each keeper took last. -/
structure StoreCell (H L : Type*) where
  value : StoreValue L
  root : StoreNode H StoreLend
  kept : ℕ → Option (StoreValue L)

/-- A path of fields. -/
def fieldSteps (path : List ℕ) : List (StoreStep H) :=
  path.map StoreStep.field

/-- Enlist each feed once. -/
def enlist {R : Type*} (feeds : List (StoreFeed R)) : List (StoreFeed R) :=
  feeds.foldl
    (fun enlisted feed =>
      if enlisted.any fun held => held.id == feed.id then enlisted else enlisted ++ [feed])
    []

/-- A keeper's `before`: it copies the payload while its handle reaches it. -/
def keepBefore (value : StoreValue L) (kept : ℕ → Option (StoreValue L))
    (feed : StoreFeed StoreLend) : ℕ → Option (StoreValue L) :=
  match feed.recorder.lend value kept with
  | some payload => Function.update kept feed.id (some payload)
  | none => kept

variable [DecidableEq H]

/-- The slots and the feeds of the nodes strictly above the end of a path. -/
def spine {R : Type*} : Option (StoreNode H R) → List (StoreStep H) → StoreWoken R
  | _, [] => .nothing
  | node, step :: path =>
      StoreWoken.append
        { slots := (node.bind StoreNode.me).toList, feeds := (node.map StoreNode.feeds).getD [] }
        (spine (node.bind fun held => held.stepKid step) path)

/-- A write through a handle: the store it leaves, its answer, and the slots it wakes, in one
turn. -/
def writeAt [BEq L] (cell : StoreCell H L) (handle : StoreLend) (written : StoreValue L) :
    StoreCell H L × Bool × List StoreSlot :=
  let steps := fieldSteps handle.path
  let found := spine (some cell.root) steps
  let need := !found.slots.isEmpty || !found.feeds.isEmpty
  match handle.lend cell.value cell.kept with
  | none => (cell, false, [])
  | some place =>
      let diff := place.storeDiff written (cell.root.nodeAt steps) need
      let feeds := enlist (diff.2.feeds ++ if diff.1 then found.feeds else [])
      ({ cell with
          value := cell.value.put handle.path written
          kept := feeds.foldl (keepBefore cell.value) cell.kept },
        true, diff.2.slots ++ if diff.1 then found.slots else [])

/-! ### Reads -/

namespace StoreShape

/-- What a handle through a variant is a handle on. -/
def gather : List StoreShape → Option StoreShape
  | [] => none
  | [payload] => some payload
  | parts => some (.tuple parts)

/-- The shape one step below. -/
def child : StoreShape → ℕ → Option StoreShape
  | .struct fields, index => fields[index]?
  | .enum variants, index + 1 => variants[index]?.bind gather
  | .option payload, 1 => some payload
  | _, _ => none

/-- The shape at a path. -/
def at' : StoreShape → List ℕ → Option StoreShape
  | shape, [] => some shape
  | shape, index :: path => (shape.child index).bind fun kid => at' kid path

end StoreShape

/-- What a subscription can stand on: the place at a path, or the flag of a variant of the
enum there, by the child index of its payload. -/
inductive StoreWatch where
  | value (path : List ℕ)
  | flag (path : List ℕ) (variant : ℕ)

/-- What a subscriber reads. -/
inductive StoreRead (L : Type*) where
  | held (value : Option (StoreValue L))
  | live (answer : Bool)

/-- Whether a variant is the live one. -/
def StoreValue.isLive : StoreValue L → ℕ → Bool
  | .variant live _, child => child == live + 1
  | .some _, child => child == 1
  | _, _ => false

namespace StoreWatch

/-- The path of the slot. -/
def path : StoreWatch → List ℕ
  | value path => path
  | flag path variant => path ++ [0, variant]

/-- What a subscriber reads of a store's value: the value at the path, none through a dead
variant, or the flag's answer. -/
def read (root : StoreValue L) : StoreWatch → StoreRead L
  | value path => .held (root.at' path)
  | flag path variant => .live ((root.at' path).any fun held => held.isLive variant)

/-- The watches below one step. -/
def under (index : ℕ) : StoreWatch → StoreWatch
  | value path => value (index :: path)
  | flag path variant => flag (index :: path) variant

end StoreWatch

/-- A storable type has a handle for a watch. -/
def StoreShape.Watches (shape : StoreShape) : StoreWatch → Prop
  | .value path => (shape.at' path).isSome
  | .flag path variant =>
      match shape.at' path with
      | some (.enum variants) => 0 < variant ∧ variant ≤ variants.length
      | some (.option _) => variant = 1
      | _ => False

namespace StoreValue

/-- Two values are the same, or built alike of leaves that compare equal.  Where equality is
reflexive this is comparing equal. -/
inductive Alike [BEq L] : StoreValue L → StoreValue L → Prop where
  | refl (value : StoreValue L) : Alike value value
  | leaf {mine theirs : L} (h : (mine == theirs) = true) : Alike (.leaf mine) (.leaf theirs)
  | struct {mine theirs : List (StoreValue L)} (h : List.Forall₂ Alike mine theirs) :
      Alike (.struct mine) (.struct theirs)
  | variant (index : ℕ) {mine theirs : List (StoreValue L)}
      (h : List.Forall₂ Alike mine theirs) :
      Alike (.variant index mine) (.variant index theirs)
  | tuple {mine theirs : List (StoreValue L)} (h : List.Forall₂ Alike mine theirs) :
      Alike (.tuple mine) (.tuple theirs)
  | some {mine theirs : StoreValue L} (h : Alike mine theirs) : Alike (.some mine) (.some theirs)

/-- A payload of an enum came, went or was switched. -/
def SwitchedPayload : StoreValue L → StoreValue L → ℕ → Prop
  | .variant left _, .variant arrived _, child =>
      left ≠ arrived ∧ (child = left + 1 ∨ child = arrived + 1)
  | .none, .some _, child => child = 1
  | .some _, .none, child => child = 1
  | _, _, _ => False

/-- A path leads to or under a payload that came, went or was switched. -/
def Came (before after : StoreValue L) : List ℕ → Prop
  | [] => False
  | index :: path =>
      SwitchedPayload before after index
        ∨ ∃ mine theirs, before.child index = .some mine ∧ after.child index = .some theirs
          ∧ Came mine theirs path

end StoreValue

namespace StoreRead

variable [BEq L]

/-- Two reads compare equal. -/
def eq : StoreRead L → StoreRead L → Bool
  | held none, held none => true
  | held (some mine), held (some theirs) => mine.eq theirs
  | live mine, live theirs => mine == theirs
  | _, _ => false

/-- Two reads are the same, or built alike of leaves that compare equal. -/
def Alike : StoreRead L → StoreRead L → Prop
  | held none, held none => True
  | held (some mine), held (some theirs) => mine.Alike theirs
  | live mine, live theirs => mine = theirs
  | _, _ => False

end StoreRead

/-! ### What moved, and what is read -/

namespace StoreValue

variable {index : ℕ} {shape : StoreShape} {shapes : List StoreShape}

omit [DecidableEq H] in
theorem getElem?_of_allFit {values : List (StoreValue L)} (h : AllFit values shapes)
    (hshape : shapes[index]? = .some shape) :
  ∃ value, values[index]? = .some value ∧ Fits value shape
  := by
  induction values generalizing shapes index with
  | nil =>
    cases shapes with
    | nil => simp at hshape
    | cons => simp [AllFit] at h
  | cons value values ih =>
    cases shapes with
    | nil => simp [AllFit] at h
    | cons first shapes =>
      rw [AllFit] at h
      cases index with
      | zero =>
        rw [List.getElem?_cons_zero, Option.some_inj] at hshape
        rw [← hshape]
        exact ⟨value, rfl, h.1⟩
      | succ index => exact ih h.2 hshape

theorem gather_cons_cons (first second : StoreValue L) (rest : List (StoreValue L)) :
  gather (first :: second :: rest) = .some (.tuple (first :: second :: rest))
  := rfl

theorem gather_shapes_cons_cons (first second : StoreShape) (rest : List StoreShape) :
  StoreShape.gather (first :: second :: rest) = .some (.tuple (first :: second :: rest))
  := rfl

/-- A handle through a variant lends a value of the shape it is a handle on. -/
theorem gather_of_allFit {payload : List (StoreValue L)} (h : AllFit payload shapes)
    (hshape : StoreShape.gather shapes = .some shape) :
  ∃ value, gather payload = .some value ∧ Fits value shape
  := by
  rcases shapes with _ | ⟨first, _ | ⟨second, shapes⟩⟩
  · contradiction
  · rw [StoreShape.gather, Option.some_inj] at hshape
    subst hshape
    rcases payload with _ | ⟨value, _ | _⟩
    · simp [AllFit] at h
    · rw [AllFit] at h
      exact ⟨value, rfl, h.1⟩
    · simp [AllFit] at h
  · rw [gather_shapes_cons_cons, Option.some_inj] at hshape
    subst hshape
    rcases payload with _ | ⟨value, _ | ⟨other, payload⟩⟩
    · simp [AllFit] at h
    · simp [AllFit] at h
    · refine ⟨.tuple (value :: other :: payload), rfl, ?_⟩
      rw [Fits]
      apply h

variable [BEq L]

/-- A payload moves as the value its handle lends; below several payloads there is no
handle. -/
theorem moved_bundle_iff {mine theirs : List (StoreValue L)}
    (hshape : StoreShape.gather shapes = .some shape) (hmine : AllFit mine shapes)
    (htheirs : AllFit theirs shapes) {before after : StoreValue L}
    (hbefore : gather mine = .some before) (hafter : gather theirs = .some after)
    {rest : List (StoreStep H)} (hrest : rest = [] ∨ ∀ parts, shape ≠ .tuple parts) :
  Moved (bundle mine) (bundle theirs) rest ↔ Moved before after rest
  := by
  have hlength : mine.length = theirs.length := by
    rw [length_of_allFit hmine, length_of_allFit htheirs]
  rcases mine with _ | ⟨value, _ | ⟨second, mine⟩⟩
  · contradiction
  · rcases theirs with _ | ⟨other, _ | _⟩
    · contradiction
    · rw [gather, Option.some_inj] at hbefore hafter
      rw [bundle, bundle, hbefore, hafter]
    · simp at hlength
  · have hlength' := length_of_allFit hmine
    rcases theirs with _ | ⟨other, _ | ⟨third, theirs⟩⟩
    · contradiction
    · simp at hlength
    · rw [gather_cons_cons, Option.some_inj] at hbefore hafter
      subst hbefore hafter
      rcases hrest with rfl | hnot
      · rw [Moved, Moved, eq, bundle, bundle, eq]
        · simp
        · simp
      · exfalso
        rcases shapes with _ | ⟨first, _ | ⟨next, shapes⟩⟩
        · simp at hlength'
        · simp at hlength'
        · apply hnot (first :: next :: shapes)
          rw [gather_shapes_cons_cons, Option.some_inj] at hshape
          exact hshape.symm

/-- One step down two values of a shape: to a place of both, to a variant that is live in
neither, or to a payload that came, went or was switched. -/
inductive ChildCase (H : Type*) (mine theirs : StoreValue L) (kid : StoreShape) (index : ℕ) :
    Prop where
  | both (before after : StoreValue L) (hbefore : mine.child index = .some before)
      (hafter : theirs.child index = .some after) (hmine : Fits before kid)
      (htheirs : Fits after kid)
      (hmoved : ∀ rest : List (StoreStep H), (rest = [] ∨ ∀ parts, kid ≠ .tuple parts) →
        (Moved mine theirs (.field index :: rest) ↔ Moved before after rest))
  | dead (hmine : mine.child index = .none) (htheirs : theirs.child index = .none)
      (hmoved : ∀ rest : List (StoreStep H), ¬ Moved mine theirs (.field index :: rest))
  | came (hcame : SwitchedPayload mine theirs index)
      (hmoved : ∀ rest : List (StoreStep H), Moved mine theirs (.field index :: rest))

omit [DecidableEq H] [BEq L] in
theorem child_option {kid : StoreShape} (h : (StoreShape.option shape).child index = .some kid) :
  index = 1 ∧ shape = kid
  := by
  rcases index with _ | _ | index
  · contradiction
  · rw [StoreShape.child, Option.some_inj] at h
    exact ⟨rfl, h⟩
  · contradiction

theorem child_case {mine theirs : StoreValue L} {kid : StoreShape} (hmine : Fits mine shape)
    (htheirs : Fits theirs shape) (hkid : shape.child index = .some kid) :
  ChildCase H mine theirs kid index
  := by
  refine Fits.cases
    (P := fun mine theirs shape => shape.child index = .some kid → ChildCase H mine theirs kid index)
    ?_ ?_ ?_ ?_ ?_ ?_ ?_ ?_ ?_ hmine htheirs hkid
  · intro mine theirs hkid
    contradiction
  · intro mine theirs shapes hmine htheirs hkid
    obtain ⟨before, hbefore, hfit⟩ := getElem?_of_allFit hmine hkid
    obtain ⟨after, hafter, hfit'⟩ := getElem?_of_allFit htheirs hkid
    refine .both before after hbefore hafter hfit hfit' ?_
    intro rest _
    rw [Moved, hbefore, hafter]
    constructor
    · rintro ⟨_, _, ⟨⟩, ⟨⟩, h⟩
      apply h
    · intro h
      exact ⟨before, after, rfl, rfl, h⟩
  · intro live mine theirs variants shapes hshapes hmine htheirs hkid
    cases index with
    | zero => contradiction
    | succ variant =>
      by_cases hlive : variant = live
      · subst hlive
        rw [StoreShape.child, hshapes, Option.bind_some] at hkid
        obtain ⟨before, hbefore, hfit⟩ := gather_of_allFit hmine hkid
        obtain ⟨after, hafter, hfit'⟩ := gather_of_allFit htheirs hkid
        refine .both before after ?_ ?_ hfit hfit' ?_
        · rw [child, if_pos rfl, hbefore]
        · rw [child, if_pos rfl, hafter]
        · intro rest hrest
          rw [Moved, if_pos rfl, ← moved_bundle_iff hkid hmine htheirs hbefore hafter hrest]
          simp
      · have hne : variant + 1 ≠ live + 1 := by omega
        refine .dead ?_ ?_ ?_
        · rw [child, if_neg hne]
        · rw [child, if_neg hne]
        · intro rest
          rw [Moved, if_pos rfl]
          rintro ⟨hstep, _⟩
          rw [StoreStep.field.injEq] at hstep
          contradiction
  · intro left arrived mine theirs variants hne hkid
    cases index with
    | zero => contradiction
    | succ variant =>
      by_cases hpayload : variant + 1 = left + 1 ∨ variant + 1 = arrived + 1
      · refine .came ⟨hne, hpayload⟩ ?_
        intro rest
        rw [Moved, if_neg hne]
        apply hpayload
      · refine .dead ?_ ?_ ?_
        · rw [child, if_neg (by omega)]
        · rw [child, if_neg (by omega)]
        · intro rest
          rw [Moved, if_neg hne]
          apply hpayload
  · intro mine theirs shapes _ _ hkid
    contradiction
  · intro shape hkid
    refine .dead rfl rfl ?_
    intro rest h
    simp [Moved] at h
  · intro theirs shape hkid
    obtain ⟨rfl, rfl⟩ := child_option hkid
    refine .came rfl ?_
    intro rest
    rw [Moved]
    exact Or.inl rfl
  · intro mine shape hkid
    obtain ⟨rfl, rfl⟩ := child_option hkid
    refine .came rfl ?_
    intro rest
    rw [Moved]
    exact Or.inl rfl
  · intro mine theirs shape hmine htheirs hkid
    obtain ⟨rfl, rfl⟩ := child_option hkid
    refine .both mine theirs rfl rfl hmine htheirs ?_
    intro rest _
    rw [Moved]
    simp

end StoreValue

/-! ### Watches -/

namespace StoreWatch

/-- A watch is on the place itself, on a flag of it, or below one step. -/
theorem induction {P : StoreWatch → Prop} (hvalue : P (value [])) (hflag : ∀ variant, P (flag [] variant))
    (hunder : ∀ index watch, P watch → P (under index watch)) (watch : StoreWatch) :
  P watch
  := by
  cases watch with
  | value path =>
    induction path with
    | nil => apply hvalue
    | cons index path ih => apply hunder index _ ih
  | flag path variant =>
    induction path with
    | nil => apply hflag
    | cons index path ih => apply hunder index _ ih

omit [DecidableEq H] in
theorem steps_under (index : ℕ) (watch : StoreWatch) :
  (fieldSteps (watch.under index).path : List (StoreStep H))
    = .field index :: fieldSteps watch.path
  := by
  cases watch with
  | value => rfl
  | flag => rfl

theorem path_under (index : ℕ) (watch : StoreWatch) :
  (watch.under index).path = index :: watch.path
  := by
  cases watch with
  | value => rfl
  | flag => rfl

theorem watches_under {shape : StoreShape} {index : ℕ} {watch : StoreWatch} :
  shape.Watches (watch.under index)
    ↔ ∃ kid, shape.child index = some kid ∧ kid.Watches watch
  := by
  cases watch with
  | value path =>
    change ((shape.child index).bind _).isSome ↔ _
    cases shape.child index with
    | none => simp
    | some kid => simp [StoreShape.Watches]
  | flag path variant =>
    rw [under, StoreShape.Watches, StoreShape.at']
    cases shape.child index with
    | none => simp
    | some kid => simp [StoreShape.Watches]

/-- What a subscriber reads through a dead variant. -/
def dead : StoreWatch → StoreRead L
  | value _ => .held none
  | flag _ _ => .live false

theorem read_under (value : StoreValue L) (index : ℕ) (watch : StoreWatch) :
  (watch.under index).read value
    = match value.child index with
      | some kid => watch.read kid
      | none => watch.dead
  := by
  cases watch with
  | value path =>
    change StoreRead.held ((value.child index).bind _) = _
    cases value.child index with
    | none => rfl
    | some kid => rfl
  | flag path variant =>
    change StoreRead.live (((value.child index).bind _).any _) = _
    cases value.child index with
    | none => rfl
    | some kid => rfl

/-- Only the tuple itself is watched of a tuple. -/
theorem watches_tuple {parts : List StoreShape} {watch : StoreWatch}
    (h : (StoreShape.tuple parts).Watches watch) :
  watch.path = []
  := by
  cases watch with
  | value path =>
    cases path with
    | nil => rfl
    | cons => simp [StoreShape.Watches, StoreShape.at', StoreShape.child] at h
  | flag path variant =>
    cases path with
    | nil => simp [StoreShape.Watches, StoreShape.at'] at h
    | cons => simp [StoreShape.Watches, StoreShape.at', StoreShape.child] at h

end StoreWatch

namespace StoreValue

variable [BEq L]

omit [DecidableEq H] in
/-- A flag moves exactly when its answer does. -/
theorem moved_flag {mine theirs : StoreValue L} {shape : StoreShape} (hmine : Fits mine shape)
    (htheirs : Fits theirs shape) {variant : ℕ} (hwatch : shape.Watches (.flag [] variant)) :
  Moved mine theirs ([.field 0, .field variant] : List (StoreStep H))
    ↔ mine.isLive variant ≠ theirs.isLive variant
  := by
  refine Fits.cases
    (P := fun mine theirs shape => shape.Watches (.flag [] variant) →
      (Moved mine theirs ([.field 0, .field variant] : List (StoreStep H))
        ↔ mine.isLive variant ≠ theirs.isLive variant))
    ?_ ?_ ?_ ?_ ?_ ?_ ?_ ?_ ?_ hmine htheirs hwatch
  · intro mine theirs hwatch
    contradiction
  · intro mine theirs shapes _ _ hwatch
    contradiction
  · intro live mine theirs variants shapes _ _ _ _
    simp [Moved, isLive]
  · intro left arrived mine theirs variants hne _
    rw [Moved, if_neg hne]
    simp only [Switched, isLive, List.cons.injEq, StoreStep.field.injEq, and_true, reduceCtorEq,
      false_or, ne_eq]
    by_cases hleft : variant = left + 1
    · subst hleft
      simp [hne]
    · by_cases harrived : variant = arrived + 1
      · subst harrived
        simp [Ne.symm hne]
      · simp [hleft, harrived]
  · intro mine theirs shapes _ _ hwatch
    contradiction
  · intro shape _
    simp [Moved, isLive]
  · intro theirs shape hwatch
    change variant = 1 at hwatch
    subst hwatch
    simp [Moved, isLive, Switched]
  · intro mine shape hwatch
    change variant = 1 at hwatch
    subst hwatch
    simp [Moved, isLive, Switched]
  · intro mine theirs shape _ _ hwatch
    change variant = 1 at hwatch
    subst hwatch
    simp [Moved, isLive]

/-- **What a diff wakes is what is read anew.**  The path of a watch moves only when its read
changes or it lies under a payload that came, went or was switched; and it does move when its
read changes. -/
theorem moved_read {mine theirs : StoreValue L} {shape : StoreShape} {watch : StoreWatch}
    (hwatch : shape.Watches watch) (hmine : Fits mine shape) (htheirs : Fits theirs shape) :
  (Moved mine theirs (fieldSteps watch.path : List (StoreStep H)) →
      StoreRead.eq (watch.read mine) (watch.read theirs) = false ∨ Came mine theirs watch.path)
    ∧ (¬ Moved mine theirs (fieldSteps watch.path : List (StoreStep H)) →
      StoreRead.eq (watch.read mine) (watch.read theirs) = true)
  := by
  induction watch using StoreWatch.induction generalizing mine theirs shape with
  | hvalue =>
    constructor
    · intro hmoved
      left
      change Moved mine theirs ([] : List (StoreStep H)) at hmoved
      rw [Moved] at hmoved
      apply hmoved
    · intro hmoved
      change ¬ Moved mine theirs ([] : List (StoreStep H)) at hmoved
      rw [Moved, Bool.not_eq_false] at hmoved
      apply hmoved
  | hflag variant =>
    have hmoved := moved_flag (H := H) hmine htheirs hwatch
    constructor
    · intro h
      left
      rw [StoreWatch.read, StoreWatch.read, StoreRead.eq, beq_eq_false_iff_ne]
      apply hmoved.mp h
    · intro h
      rw [StoreWatch.read, StoreWatch.read, StoreRead.eq, beq_iff_eq]
      by_contra hne
      apply h (hmoved.mpr hne)
  | hunder index watch ih =>
    obtain ⟨kid, hkid, hwatch⟩ := StoreWatch.watches_under.mp hwatch
    rw [StoreWatch.steps_under, StoreWatch.read_under, StoreWatch.read_under, StoreWatch.path_under]
    cases child_case (H := H) hmine htheirs hkid with
    | both before after hbefore hafter hbeforefit hafterfit hmoved =>
      obtain ⟨ihmoved, ihstill⟩ := ih hwatch hbeforefit hafterfit
      have hrest : (fieldSteps watch.path : List (StoreStep H)) = []
          ∨ ∀ parts, kid ≠ .tuple parts := by
        by_cases htuple : ∃ parts, kid = .tuple parts
        · left
          obtain ⟨parts, rfl⟩ := htuple
          rw [StoreWatch.watches_tuple hwatch]
          rfl
        · right
          intro parts heq
          apply htuple ⟨parts, heq⟩
      rw [hmoved _ hrest, hbefore, hafter]
      constructor
      · intro h
        rcases ihmoved h with h | h
        · left
          apply h
        · right
          right
          exact ⟨before, after, hbefore, hafter, h⟩
      · apply ihstill
    | dead hbefore hafter hmoved =>
      rw [hbefore, hafter]
      constructor
      · intro h
        exfalso
        apply hmoved _ h
      · intro _
        cases watch with
        | value => rfl
        | flag => rfl
    | came hcame hmoved =>
      constructor
      · intro _
        right
        left
        apply hcame
      · intro h
        exfalso
        apply h (hmoved _)

end StoreValue

end Vilan
