import Vilan.Reactive.StoreWrite

/-!
# A store write wakes exactly what changed

A write changes the reads at and below its place as the diff says, those above its place when
the diff finds a change, and no others.  The slots it wakes are those at these paths.
-/

namespace Vilan

open List Option

variable {H L : Type*} [BEq L]

namespace StoreValue

/-! ### Alike values -/

mutual

theorem alike_of_eq (mine theirs : StoreValue L) (h : eq mine theirs = true) :
  Alike mine theirs
  := by
  cases mine with
  | leaf mine =>
    cases theirs <;> simp only [eq, Bool.false_eq_true] at h
    apply Alike.leaf h
  | struct mine =>
    cases theirs <;> simp only [eq, Bool.false_eq_true] at h
    apply Alike.struct (alike_of_allEq mine _ h)
  | variant index mine =>
    cases theirs <;> simp only [eq, Bool.false_eq_true, Bool.and_eq_true, beq_iff_eq] at h
    obtain ⟨rfl, h⟩ := h
    apply Alike.variant _ (alike_of_allEq mine _ h)
  | tuple mine =>
    cases theirs <;> simp only [eq, Bool.false_eq_true] at h
    apply Alike.tuple (alike_of_allEq mine _ h)
  | none =>
    cases theirs <;> simp only [eq, Bool.false_eq_true] at h
    apply Alike.refl
  | some mine =>
    cases theirs <;> simp only [eq, Bool.false_eq_true] at h
    apply Alike.some (alike_of_eq mine _ h)

theorem alike_of_allEq (mine theirs : List (StoreValue L)) (h : allEq mine theirs = true) :
  List.Forall₂ Alike mine theirs
  := by
  cases mine with
  | nil =>
    cases theirs <;> simp only [allEq, Bool.false_eq_true] at h
    apply List.Forall₂.nil
  | cons mine more =>
    cases theirs <;> simp only [allEq, Bool.false_eq_true, Bool.and_eq_true] at h
    apply List.Forall₂.cons (alike_of_eq mine _ h.1) (alike_of_allEq more _ h.2)

end

theorem alike_refl_all (values : List (StoreValue L)) :
  List.Forall₂ Alike values values
  := List.forall₂_same.mpr fun value _ => Alike.refl value

variable {index : ℕ} {old value written : StoreValue L} {values : List (StoreValue L)}
  {kid shape : StoreShape} {shapes : List StoreShape}

theorem alike_set (hold : values[index]? = Option.some old) (h : Alike old value) :
  List.Forall₂ Alike values (values.set index value)
  := by
  induction values generalizing index with
  | nil => simp at hold
  | cons first rest ih =>
    cases index with
    | zero =>
      rw [getElem?_cons_zero, some_inj] at hold
      rw [set_cons_zero, hold]
      apply List.Forall₂.cons h (alike_refl_all rest)
    | succ index => exact List.Forall₂.cons (Alike.refl first) (ih hold)

theorem eq_of_allEq_set (hold : values[index]? = Option.some old)
    (h : allEq values (values.set index value) = true) :
  eq old value = true
  := by
  induction values generalizing index with
  | nil => simp at hold
  | cons first rest ih =>
    cases index with
    | zero =>
      rw [getElem?_cons_zero, some_inj] at hold
      rw [set_cons_zero, allEq, Bool.and_eq_true, hold] at h
      apply h.1
    | succ index =>
      rw [set_cons_succ, allEq, Bool.and_eq_true] at h
      exact ih hold h.2

/-! ### Writing one step below -/

omit [BEq L] in
theorem child_setChild_of_ne {kid : StoreValue L} {other : ℕ} (hne : other ≠ index)
    (written : StoreValue L) (hkid : value.child index = Option.some kid) :
  (value.setChild index written).child other = value.child other
  := by
  cases value with
  | leaf => rfl
  | tuple => rfl
  | none => rfl
  | struct fields =>
    rw [setChild, child, child, getElem?_set_ne (Ne.symm hne)]
  | variant live payload =>
    rw [child] at hkid
    split at hkid
    case isFalse => contradiction
    case isTrue hlive =>
      rw [setChild, if_pos hlive, child, child, if_neg (by omega), if_neg (by omega)]
  | some payload =>
    rw [child] at hkid
    split at hkid
    case isFalse => contradiction
    case isTrue hone =>
      rw [setChild, if_pos hone, child, child, if_neg (by omega), if_neg (by omega)]

omit [BEq L] in
theorem isLive_setChild (value : StoreValue L) (index : ℕ) (written : StoreValue L)
    (variant : ℕ) :
  (value.setChild index written).isLive variant = value.isLive variant
  := by
  cases value with
  | leaf => rfl
  | tuple => rfl
  | none => rfl
  | struct => rfl
  | variant live payload =>
    rw [setChild]
    split
    · rfl
    · rfl
  | some =>
    rw [setChild]
    split
    · rfl
    · rfl

omit [BEq L] in
/-- What a handle through a variant writes back is what it lends next, of its shape. -/
theorem gather_spread {payload : List (StoreValue L)} (hpayload : AllFit payload shapes)
    (hkid : StoreShape.gather shapes = Option.some kid) (hwritten : Fits written kid) :
  gather (spread payload written) = Option.some written ∧ AllFit (spread payload written) shapes
  := by
  have hlength := length_of_allFit hpayload
  rcases shapes with _ | ⟨first, _ | ⟨second, shapes⟩⟩
  · contradiction
  · rw [StoreShape.gather, some_inj] at hkid
    subst hkid
    rcases payload with _ | ⟨value, _ | _⟩
    · simp at hlength
    · refine ⟨rfl, ?_⟩
      rw [spread, AllFit]
      exact ⟨hwritten, trivial⟩
    · simp at hlength
  · rw [gather_shapes_cons_cons, some_inj] at hkid
    subst hkid
    rcases payload with _ | ⟨value, _ | ⟨other, payload⟩⟩
    · simp at hlength
    · simp at hlength
    · cases written <;> simp only [Fits] at hwritten
      next parts =>
        have hparts := length_of_allFit hwritten
        rcases parts with _ | ⟨part, _ | ⟨next, parts⟩⟩
        · simp at hparts
        · simp at hparts
        · exact ⟨rfl, hwritten⟩

/-- The payloads of a variant compare as what its handle lends. -/
theorem eq_spread {payload : List (StoreValue L)} (hpayload : AllFit payload shapes)
    (hkid : StoreShape.gather shapes = Option.some kid) (hold : gather payload = Option.some old)
    (hwritten : Fits written kid) :
  allEq payload (spread payload written) = eq old written
    ∧ (Alike old written → List.Forall₂ Alike payload (spread payload written))
  := by
  have hlength := length_of_allFit hpayload
  rcases payload with _ | ⟨value, _ | ⟨other, payload⟩⟩
  · contradiction
  · rw [gather, some_inj] at hold
    subst hold
    constructor
    · rw [spread, allEq, allEq, Bool.and_true]
    · intro h
      apply List.Forall₂.cons h List.Forall₂.nil
  · rw [gather_cons_cons, some_inj] at hold
    subst hold
    rcases shapes with _ | ⟨first, _ | ⟨second, shapes⟩⟩
    · simp at hlength
    · simp at hlength
    · rw [gather_shapes_cons_cons, some_inj] at hkid
      subst hkid
      cases written <;> simp only [Fits] at hwritten
      next parts =>
        have hspread : spread (value :: other :: payload) (.tuple parts) = parts := rfl
        rw [hspread]
        constructor
        · rw [eq]
        · intro h
          cases h with
          | refl => apply alike_refl_all
          | tuple h => apply h

omit [BEq L] in
theorem allFit_set (h : AllFit values shapes) (hshape : shapes[index]? = Option.some shape)
    (hvalue : Fits value shape) :
  AllFit (values.set index value) shapes
  := by
  induction values generalizing shapes index with
  | nil => exact h
  | cons first rest ih =>
    cases shapes with
    | nil => simp [AllFit] at h
    | cons head shapes =>
      rw [AllFit] at h
      cases index with
      | zero =>
        rw [getElem?_cons_zero, some_inj] at hshape
        rw [set_cons_zero, AllFit, hshape]
        exact ⟨hvalue, h.2⟩
      | succ index =>
        rw [set_cons_succ, AllFit]
        exact ⟨h.1, ih h.2 hshape⟩

/-- What a write one step below a place leaves: the place holds it, in its shape, and the
value compares as the place does. -/
structure WroteChild (value written old : StoreValue L) (shape : StoreShape) (index : ℕ) :
    Prop where
  child : (value.setChild index written).child index = Option.some written
  fits : Fits (value.setChild index written) shape
  differs : eq old written = false → eq value (value.setChild index written) = false
  alike : Alike old written → Alike value (value.setChild index written)

theorem wroteChild (hvalue : Fits value shape) (hkid : shape.child index = Option.some kid)
    (hold : value.child index = Option.some old) (hwritten : Fits written kid) :
  WroteChild value written old shape index
  := by
  cases shape with
  | leaf => contradiction
  | tuple => contradiction
  | struct shapes =>
    cases value <;> simp only [Fits] at hvalue
    next fields =>
      refine ⟨?_, ?_, ?_, ?_⟩
      · rw [setChild, StoreValue.child, getElem?_set_self']
        rw [StoreValue.child] at hold
        rw [hold]
        rfl
      · rw [setChild, Fits]
        apply allFit_set hvalue hkid hwritten
      · intro hne
        rw [setChild, eq, Bool.eq_false_iff]
        intro h
        rw [eq_of_allEq_set hold h] at hne
        contradiction
      · intro h
        apply Alike.struct (alike_set hold h)
  | option shape =>
    obtain ⟨rfl, rfl⟩ := child_option hkid
    cases value <;> simp only [Fits] at hvalue
    case none => contradiction
    case some payload =>
      rw [StoreValue.child, if_pos rfl, some_inj] at hold
      subst hold
      refine ⟨rfl, ?_, ?_, ?_⟩
      · rw [setChild, if_pos rfl, Fits]
        apply hwritten
      · intro hne
        rw [setChild, if_pos rfl, eq]
        apply hne
      · intro h
        apply Alike.some h
  | enum variants =>
    cases value <;> simp only [Fits] at hvalue
    next live payload =>
      rw [StoreValue.child] at hold
      split at hold
      case isFalse => contradiction
      case isTrue hlive =>
        subst hlive
        cases hshapes : variants[live]? with
        | none =>
          rw [hshapes] at hvalue
          contradiction
        | some shapes =>
          rw [hshapes] at hvalue
          rw [StoreShape.child, hshapes, bind_some] at hkid
          obtain ⟨hgather, hfit⟩ := gather_spread hvalue hkid hwritten
          obtain ⟨heq, halike⟩ := eq_spread hvalue hkid hold hwritten
          have hset : setChild (.variant live payload) (live + 1) written
              = .variant live (spread payload written) := if_pos rfl
          refine ⟨?_, ?_, ?_, ?_⟩
          · rw [hset, StoreValue.child, if_pos rfl, hgather]
          · rw [hset, Fits, hshapes]
            apply hfit
          · intro hne
            rw [hset, eq, heq, hne, Bool.and_false]
          · intro h
            rw [hset]
            apply Alike.variant _ (halike h)

/-! ### Writing at a path -/

omit [BEq L] in
theorem at'_cons (value : StoreValue L) (index : ℕ) (path : List ℕ) :
  value.at' (index :: path) = (value.child index).bind fun kid => kid.at' path
  := rfl

omit [BEq L] in
theorem at'_append (value : StoreValue L) (above below : List ℕ) :
  value.at' (above ++ below) = (value.at' above).bind fun held => held.at' below
  := by
  induction above generalizing value with
  | nil => rfl
  | cons index above ih =>
    rw [cons_append, at'_cons, at'_cons]
    cases value.child index with
    | none => rfl
    | some kid => apply ih

omit [BEq L] in
theorem put_cons {kid : StoreValue L} (h : value.child index = Option.some kid) (path : List ℕ)
    (written : StoreValue L) :
  value.put (index :: path) written = value.setChild index (kid.put path written)
  := by
  rw [put, h]

omit [BEq L] in
theorem fits_child (hvalue : Fits value shape) (hkid : shape.child index = Option.some kid)
    (hold : value.child index = Option.some old) :
  Fits old kid
  := by
  cases shape with
  | leaf => contradiction
  | tuple => contradiction
  | struct shapes =>
    cases value <;> simp only [Fits] at hvalue
    next fields =>
      obtain ⟨found, hfound, hfit⟩ := getElem?_of_allFit hvalue hkid
      rw [StoreValue.child, hfound, some_inj] at hold
      rw [← hold]
      apply hfit
  | option shape =>
    obtain ⟨rfl, rfl⟩ := child_option hkid
    cases value <;> simp only [Fits] at hvalue
    case none => contradiction
    case some payload =>
      rw [StoreValue.child, if_pos rfl, some_inj] at hold
      rw [← hold]
      apply hvalue
  | enum variants =>
    cases value <;> simp only [Fits] at hvalue
    next live payload =>
      rw [StoreValue.child] at hold
      split at hold
      case isFalse => contradiction
      case isTrue hlive =>
        subst hlive
        cases hshapes : variants[live]? with
        | none =>
          rw [hshapes] at hvalue
          contradiction
        | some shapes =>
          rw [hshapes] at hvalue
          rw [StoreShape.child, hshapes, bind_some] at hkid
          obtain ⟨found, hfound, hfit⟩ := gather_of_allFit hvalue hkid
          rw [hfound, some_inj] at hold
          rw [← hold]
          apply hfit

omit [BEq L] in
theorem fits_at' {target : StoreShape} {path : List ℕ} (hvalue : Fits value shape)
    (htarget : shape.at' path = Option.some target) (hold : value.at' path = Option.some old) :
  Fits old target
  := by
  induction path generalizing value shape with
  | nil =>
    rw [at', some_inj] at hold
    rw [StoreShape.at', some_inj] at htarget
    rw [← hold, ← htarget]
    apply hvalue
  | cons index path ih =>
    rw [at'_cons, bind_eq_some_iff] at hold
    obtain ⟨kid, hkid, hold⟩ := hold
    rw [StoreShape.at', bind_eq_some_iff] at htarget
    obtain ⟨kidShape, hkidShape, htarget⟩ := htarget
    apply ih (fits_child hvalue hkidShape hkid) htarget hold

/-- What a write leaves: a value of the same shape, that compares with the old one as the
place does. -/
structure Wrote (value written old : StoreValue L) (shape : StoreShape) (path : List ℕ) :
    Prop where
  fits : Fits (value.put path written) shape
  differs : eq old written = false → eq value (value.put path written) = false
  alike : Alike old written → Alike value (value.put path written)

theorem wrote {target : StoreShape} {path : List ℕ} (hvalue : Fits value shape)
    (htarget : shape.at' path = Option.some target) (hold : value.at' path = Option.some old)
    (hwritten : Fits written target) :
  Wrote value written old shape path
  := by
  induction path generalizing value shape with
  | nil =>
    rw [at', some_inj] at hold
    rw [StoreShape.at', some_inj] at htarget
    subst hold htarget
    exact ⟨hwritten, id, id⟩
  | cons index path ih =>
    rw [at'_cons, bind_eq_some_iff] at hold
    obtain ⟨kid, hkid, hold⟩ := hold
    rw [StoreShape.at', bind_eq_some_iff] at htarget
    obtain ⟨kidShape, hkidShape, htarget⟩ := htarget
    have hkidfit := fits_child hvalue hkidShape hkid
    obtain ⟨hfit, hdiffers, halike⟩ := ih hkidfit htarget hold
    have hchild := wroteChild hvalue hkidShape hkid hfit
    refine ⟨?_, ?_, ?_⟩
    · rw [put_cons hkid]
      apply hchild.fits
    · intro h
      rw [put_cons hkid]
      apply hchild.differs (hdiffers h)
    · intro h
      rw [put_cons hkid]
      apply hchild.alike (halike h)

/-! ### What a write moves -/

/-- The paths of a store that a write at a place moves: those the diff moves below it, and
those above it when the diff finds a change. -/
def MovedAt (old written : StoreValue L) : List ℕ → List (StoreStep H) → Prop
  | [], path => Moved old written path
  | _ :: _, [] => eq old written = false
  | index :: place, step :: path => step = .field index ∧ MovedAt old written place path

end StoreValue

namespace StoreRead

theorem alike_refl (read : StoreRead L) :
  Alike read read
  := by
  cases read with
  | live => apply Eq.refl
  | held value =>
    cases value with
    | none => trivial
    | some value => apply StoreValue.Alike.refl

theorem alike_of_eq {mine theirs : StoreRead L} (h : eq mine theirs = true) :
  Alike mine theirs
  := by
  cases mine with
  | live mine =>
    cases theirs with
    | held => rw [eq] at h <;> simp at *
    | live theirs =>
      rw [eq, beq_iff_eq] at h
      apply h
  | held mine =>
    cases theirs with
    | live => cases mine <;> simp [eq] at h
    | held theirs =>
      cases mine with
      | none =>
        cases theirs with
        | none => trivial
        | some => simp [eq] at h
      | some mine =>
        cases theirs with
        | none => simp [eq] at h
        | some theirs => apply StoreValue.alike_of_eq mine theirs h

end StoreRead

namespace StoreValue

open List Option

variable [DecidableEq H]

/-- **What a write moves is what is read anew.**  A watch whose path moves reads something
else, or lies under a payload that came, went or was switched; one whose path does not move
reads what it did. -/
theorem movedAt_read {value written old : StoreValue L} {shape target : StoreShape}
    {place : List ℕ} {watch : StoreWatch} (hwatch : shape.Watches watch)
    (hvalue : Fits value shape) (htarget : shape.at' place = Option.some target)
    (hold : value.at' place = Option.some old) (hwritten : Fits written target) :
  (MovedAt old written place (fieldSteps watch.path : List (StoreStep H)) →
      StoreRead.eq (watch.read value) (watch.read (value.put place written)) = false
        ∨ Came value (value.put place written) watch.path)
    ∧ (¬ MovedAt old written place (fieldSteps watch.path : List (StoreStep H)) →
      StoreRead.Alike (watch.read value) (watch.read (value.put place written)))
  := by
  induction place generalizing value shape watch with
  | nil =>
    rw [at', some_inj] at hold
    rw [StoreShape.at', some_inj] at htarget
    subst hold htarget
    obtain ⟨hmoved, hstill⟩ := moved_read (H := H) hwatch hvalue hwritten
    refine ⟨hmoved, ?_⟩
    intro h
    apply StoreRead.alike_of_eq (hstill h)
  | cons index place ih =>
    have hwrote := wrote hvalue htarget hold hwritten
    rw [at'_cons, bind_eq_some_iff] at hold
    obtain ⟨kid, hkid, hold⟩ := hold
    rw [StoreShape.at', bind_eq_some_iff] at htarget
    obtain ⟨kidShape, hkidShape, htarget⟩ := htarget
    have hkidfit := fits_child hvalue hkidShape hkid
    have hfit := (wrote hkidfit htarget hold hwritten).fits
    have hchild := (wroteChild hvalue hkidShape hkid hfit).child
    cases watch using StoreWatch.induction with
    | hvalue =>
      constructor
      · intro hmoved
        left
        apply hwrote.differs hmoved
      · intro hstill
        apply hwrote.alike
        apply alike_of_eq
        change ¬ eq old written = false at hstill
        rw [Bool.not_eq_false] at hstill
        apply hstill
    | hflag variant =>
      -- The place lies in a payload, and so beside the flags.
      constructor
      · rintro ⟨hindex, _⟩
        exfalso
        rw [StoreStep.field.injEq] at hindex
        subst hindex
        cases shape <;> simp [StoreShape.Watches, StoreShape.at', StoreShape.child] at *
      · intro _
        rw [put_cons hkid]
        change value.isLive variant = _
        rw [← isLive_setChild value index (kid.put place written) variant]
        rfl
    | hunder other watch =>
      obtain ⟨otherShape, hotherShape, hwatch⟩ := StoreWatch.watches_under.mp hwatch
      rw [StoreWatch.steps_under, StoreWatch.read_under, StoreWatch.read_under,
        StoreWatch.path_under, put_cons hkid, MovedAt, StoreStep.field.injEq]
      by_cases heq : other = index
      · subst heq
        rw [hkidShape, some_inj] at hotherShape
        subst hotherShape
        obtain ⟨ihmoved, ihstill⟩ := ih hwatch hkidfit htarget hold
        rw [hkid, hchild]
        constructor
        · rintro ⟨_, hmoved⟩
          rcases ihmoved hmoved with h | h
          · left
            apply h
          · right
            right
            exact ⟨_, _, hkid, hchild, h⟩
        · intro hstill
          apply ihstill
          intro hmoved
          apply hstill ⟨rfl, hmoved⟩
      · rw [child_setChild_of_ne heq _ hkid]
        constructor
        · rintro ⟨h, _⟩
          contradiction
        · intro _
          apply StoreRead.alike_refl

end StoreValue

/-! ### The slots above a place -/

variable [DecidableEq H] {R : Type*}

theorem slots_spine_nil (node : Option (StoreNode H R)) :
  (spine node (fieldSteps [])).slots = []
  := by
  change (spine node []).slots = []
  rw [spine]
  rfl

theorem slots_spine_cons (node : Option (StoreNode H R)) (index : ℕ) (place : List ℕ) :
  (spine node (fieldSteps (index :: place))).slots
    = (slotIn node []).toList ++ (spine (storeKid node index) (fieldSteps place)).slots
  := rfl

/-- The node at a path below a node. -/
theorem slotIn_append (node : Option (StoreNode H R)) (place : List ℕ)
    (path : List (StoreStep H)) :
  slotIn node (fieldSteps place ++ path)
    = slotIn (node.bind fun held => held.nodeAt (fieldSteps place)) path
  := by
  induction place generalizing node with
  | nil => cases node <;> rfl
  | cons index place ih =>
    change slotIn node (.field index :: (fieldSteps place ++ path)) = _
    rw [slotIn_field, ih]
    cases node <;> rfl

theorem Scattered.at' {node : StoreNode H R} (h : Scattered (some node)) (place : List ℕ) :
  Scattered (node.nodeAt (fieldSteps place))
  := by
  intro path other slot hpath hother
  have heq := fun path => slotIn_append (some node) place path
  simp only [bind_some] at heq
  rw [← heq] at hpath hother
  apply append_cancel_left (h _ _ _ hpath hother)

theorem Keyed.at' {node : StoreNode H R} (h : Keyed (some node)) (place : List ℕ) :
  Keyed (node.nodeAt (fieldSteps place))
  := by
  induction place generalizing node with
  | nil => apply h
  | cons index place ih =>
    change Keyed ((node.stepKid (.field index)).bind fun kid => kid.nodeAt (fieldSteps place))
    have hkid := h.storeKid index
    change Keyed (node.stepKid (.field index)) at hkid
    cases hstep : node.stepKid (.field index) with
    | none =>
      intro held hheld
      contradiction
    | some kid =>
      rw [hstep] at hkid
      apply ih hkid

variable {node : Option (StoreNode H R)} {handle : StoreLend} {cell : StoreCell H L}

/-- The slots above a place are at shorter paths. -/
theorem mem_spine {place : List ℕ} {slot : StoreSlot}
    (h : slot ∈ (spine node (fieldSteps place)).slots) :
  ∃ path, slotIn node path = some slot ∧ path.length < place.length
  := by
  induction place generalizing node with
  | nil =>
    rw [slots_spine_nil] at h
    contradiction
  | cons index place ih =>
    rw [slots_spine_cons, mem_append, mem_toList] at h
    rcases h with h | h
    · refine ⟨[], h, ?_⟩
      simp
    · obtain ⟨path, hpath, hlength⟩ := ih h
      refine ⟨.field index :: path, ?_, ?_⟩
      · rw [slotIn_field, hpath]
      · simp only [length_cons]
        omega

theorem nodup_spine (h : Scattered node) (place : List ℕ) :
  (spine node (fieldSteps place)).slots.Nodup
  := by
  induction place generalizing node with
  | nil =>
    rw [slots_spine_nil]
    apply nodup_nil
  | cons index place ih =>
    rw [slots_spine_cons, nodup_append]
    refine ⟨?_, ih (h.storeKid index), ?_⟩
    · cases slotIn node [] with
      | none => apply nodup_nil
      | some => apply nodup_singleton
    · rintro slot hslot _ hbelow rfl
      rw [mem_toList] at hslot
      obtain ⟨path, hpath, _⟩ := mem_spine hbelow
      rw [← slotIn_field] at hpath
      have := h _ _ _ hpath hslot
      contradiction

/-- The slots at the paths a write moves are those the diff wakes and, when there is a
change, those above the place. -/
theorem slotIn_movedAt_iff {old written : StoreValue L} {place : List ℕ} {slot : StoreSlot} :
  (∃ path, slotIn node path = some slot ∧ StoreValue.MovedAt old written place path)
    ↔ (∃ path, slotIn (node.bind fun held => held.nodeAt (fieldSteps place)) path = some slot
        ∧ StoreValue.Moved old written path)
      ∨ slot ∈ (spine node (fieldSteps place)).slots ∧ old.eq written = false
  := by
  induction place generalizing node with
  | nil =>
    have hhere : (node.bind fun held => held.nodeAt (fieldSteps [])) = node := by
      cases node <;> rfl
    rw [slots_spine_nil, hhere]
    simp [StoreValue.MovedAt]
  | cons index place ih =>
    have hbelow : (node.bind fun held => held.nodeAt (fieldSteps (index :: place)))
        = (storeKid node index).bind fun held => held.nodeAt (fieldSteps place) := by
      cases node <;> rfl
    rw [hbelow, slots_spine_cons, mem_append, mem_toList, or_and_right, or_left_comm, ← ih]
    constructor
    · rintro ⟨path, hpath, hmoved⟩
      cases path with
      | nil =>
        left
        exact ⟨hpath, hmoved⟩
      | cons step path =>
        right
        obtain ⟨rfl, hmoved⟩ := hmoved
        refine ⟨path, ?_, hmoved⟩
        rw [← slotIn_field, hpath]
    · rintro (⟨hpath, hmoved⟩ | ⟨path, hpath, hmoved⟩)
      · exact ⟨[], hpath, hmoved⟩
      · refine ⟨.field index :: path, ?_, rfl, hmoved⟩
        rw [slotIn_field, hpath]

/-! ### A write through a handle -/

omit [DecidableEq H] [BEq L] in
/-- A handle lends its place while every variant on the path is live. -/
theorem StoreLend.lend_of_at' {value held : StoreValue L} {kept : ℕ → Option (StoreValue L)}
    (handle : StoreLend) (h : value.at' handle.path = some held) :
  handle.lend value kept = some held
  := by
  induction handle generalizing held with
  | root =>
    rw [StoreLend.path, StoreValue.at'] at h
    rw [StoreLend.lend, h]
  | step above index ih =>
    rw [StoreLend.path, StoreValue.at'_append, bind_eq_some_iff] at h
    obtain ⟨reached, hreached, h⟩ := h
    rw [StoreValue.at'_cons, bind_eq_some_iff] at h
    obtain ⟨kid, hkid, h⟩ := h
    rw [StoreValue.at'] at h
    rw [StoreLend.lend, ih hreached, bind_some, hkid, h]
  | assumed above keeper ih => rw [StoreLend.lend, ih h]

/-- A write leaves its value at the place of its handle and wakes the slots whose reads
changed, each once; through a dead variant it leaves the store as it was. -/
structure WroteExactly (cell : StoreCell H L) (shape : StoreShape) (handle : StoreLend)
    (written : StoreValue L) : Prop where
  lands : (cell.value.at' handle.path).isSome →
    (writeAt cell handle written).1.value = cell.value.put handle.path written
      ∧ (writeAt cell handle written).2.1 = true
  dead : cell.value.at' handle.path = none →
    (writeAt cell handle written).1.value = cell.value
      ∧ (writeAt cell handle written).2.1 = false
  wakes : ∀ watch slot, shape.Watches watch →
    slotIn (some cell.root) (fieldSteps watch.path) = some slot →
    ¬ StoreRead.Alike (watch.read cell.value)
      (watch.read (writeAt cell handle written).1.value) →
    slot ∈ (writeAt cell handle written).2.2
  spares : ∀ watch slot, shape.Watches watch →
    slotIn (some cell.root) (fieldSteps watch.path) = some slot →
    slot ∈ (writeAt cell handle written).2.2 →
    StoreRead.eq (watch.read cell.value)
        (watch.read (writeAt cell handle written).1.value) = false
      ∨ StoreValue.Came cell.value (writeAt cell handle written).1.value watch.path
  once : (writeAt cell handle written).2.2.Nodup

/-- A write through a handle that reaches nothing does nothing. -/
theorem writeAt_of_lend_none (h : handle.lend cell.value cell.kept = none)
    (written : StoreValue L) :
  writeAt cell handle written = (cell, false, [])
  := by
  rw [writeAt]
  simp only [h]

theorem wroteExactly_of_lend_none (h : handle.lend cell.value cell.kept = none) (shape : StoreShape)
    (written : StoreValue L) :
  WroteExactly cell shape handle written
  where
  lands := by
    intro hlive
    obtain ⟨held, hheld⟩ := isSome_iff_exists.mp hlive
    rw [handle.lend_of_at' hheld] at h
    contradiction
  dead := by
    intro _
    rw [writeAt_of_lend_none h]
    exact ⟨rfl, rfl⟩
  wakes := by
    intro watch slot _ _ hdiffers
    exfalso
    apply hdiffers
    rw [writeAt_of_lend_none h]
    apply StoreRead.alike_refl
  spares := by
    intro watch slot _ _ hslot
    rw [writeAt_of_lend_none h] at hslot
    contradiction
  once := by
    rw [writeAt_of_lend_none h]
    apply nodup_nil

/-- The value, the answer and the slots of a write that reaches its place. -/
theorem writeAt_of_lend (cell : StoreCell H L) {place : StoreValue L}
    (h : handle.lend cell.value cell.kept = some place) (written : StoreValue L) :
  ∃ need, (need = false → (spine (some cell.root) (fieldSteps handle.path)).slots = [])
    ∧ (writeAt cell handle written).1.value = cell.value.put handle.path written
    ∧ (writeAt cell handle written).2.1 = true
    ∧ (writeAt cell handle written).2.2
      = (place.storeDiff written (cell.root.nodeAt (fieldSteps handle.path)) need).2.slots
        ++ if (place.storeDiff written (cell.root.nodeAt (fieldSteps handle.path)) need).1
          then (spine (some cell.root) (fieldSteps handle.path)).slots else []
  := by
  rw [writeAt]
  simp only [h]
  refine ⟨_, ?_, trivial, trivial, rfl⟩
  intro hneed
  rw [Bool.or_eq_false_iff, Bool.not_eq_false', List.isEmpty_iff] at hneed
  apply hneed.1

/-- A write through a live place leaves its value there and wakes exactly what changed. -/
theorem wroteExactly_of_live {shape target : StoreShape} {written place : StoreValue L}
    (hkeys : cell.root.WellKeyed) (hscattered : Scattered (some cell.root))
    (hvalue : cell.value.Fits shape) (htarget : shape.at' handle.path = some target)
    (hwritten : written.Fits target) (hlive : cell.value.at' handle.path = some place) :
  WroteExactly cell shape handle written
  := by
  obtain ⟨need, hneed, hleft, hanswer, hwoken⟩ :=
    writeAt_of_lend cell (handle.lend_of_at' hlive) written
  have hplace := StoreValue.fits_at' hvalue htarget hlive
  have hbelow : Keyed (cell.root.nodeAt (fieldSteps handle.path)) := by
    apply Keyed.at'
    intro held hheld
    rw [← Option.some.inj hheld]
    apply hkeys
  have hdiff := StoreValue.spec_storeDiff place written target
    (cell.root.nodeAt (fieldSteps handle.path)) need hbelow hplace hwritten
  -- While a slot stands above the place the diff was asked for its answer.
  have habove : ∀ slot, slot ∈ (spine (some cell.root) (fieldSteps handle.path)).slots →
      (place.storeDiff written (cell.root.nodeAt (fieldSteps handle.path)) need).1
        = !place.eq written := by
    intro slot hslot
    apply hdiff.exact
    cases need with
    | true => rfl
    | false =>
      rw [hneed rfl] at hslot
      contradiction
  have hmem : ∀ slot, slot ∈ (writeAt cell handle written).2.2
      ↔ ∃ path, slotIn (some cell.root) path = some slot
        ∧ StoreValue.MovedAt place written handle.path path := by
    intro slot
    rw [slotIn_movedAt_iff, hwoken, mem_append, hdiff.slots]
    apply or_congr Iff.rfl
    constructor
    · intro hslot
      split at hslot
      case isFalse => contradiction
      case isTrue hchanged => exact ⟨hslot, hdiff.sound hchanged⟩
    · rintro ⟨hslot, hdiffers⟩
      rw [habove slot hslot, hdiffers]
      apply hslot
  have hread := fun watch (hwatch : shape.Watches watch) =>
    StoreValue.movedAt_read (H := H) hwatch hvalue htarget hlive hwritten
  refine ⟨?_, ?_, ?_, ?_, ?_⟩
  · intro _
    exact ⟨hleft, hanswer⟩
  · intro hdead
    rw [hlive] at hdead
    contradiction
  · intro watch slot hwatch hslot hdiffers
    rw [hleft] at hdiffers
    rw [hmem]
    refine ⟨_, hslot, ?_⟩
    by_contra hstill
    apply hdiffers ((hread watch hwatch).2 hstill)
  · intro watch slot hwatch hslot hslotwoken
    rw [hmem] at hslotwoken
    obtain ⟨path, hpath, hmoved⟩ := hslotwoken
    rw [hscattered _ _ _ hpath hslot] at hmoved
    rw [hleft]
    apply (hread watch hwatch).1 hmoved
  · rw [hwoken, nodup_append]
    refine ⟨hdiff.once (Scattered.at' hscattered handle.path), ?_, ?_⟩
    · split
      · apply nodup_spine hscattered
      · apply nodup_nil
    · rintro slot hslot _ hspine rfl
      split at hspine
      case isFalse => contradiction
      case isTrue =>
        -- The diff wakes slots at or below the place, the spine slots above it.
        obtain ⟨path, hpath, _⟩ := (hdiff.slots slot).mp hslot
        obtain ⟨above, habove, hlength⟩ := mem_spine hspine
        have hat := slotIn_append (some cell.root) handle.path path
        rw [bind_some, hpath] at hat
        have := congrArg List.length (hscattered _ _ _ hat habove)
        simp only [length_append, fieldSteps, length_map] at this
        omega

/-- **Writes of a store.**  However subscriptions and feeds came and went, a write leaves its
value at the place of its handle, or nothing through a dead variant, and wakes exactly what
changed, if and only if the handle reaches its place or reaches nothing: an assumed handle
whose variant has ended still lends what its keeper took. -/
theorem write_is_exact_iff {events : List (SlotTree.Event H StoreLend)}
    {value written : StoreValue L} {shape target : StoreShape} {handle : StoreLend}
    {kept : ℕ → Option (StoreValue L)} (hvalue : value.Fits shape)
    (htarget : shape.at' handle.path = some target) (hwritten : written.Fits target) :
  WroteExactly ⟨value, (SlotTree.run events).root, kept⟩ shape handle written
    ↔ (value.at' handle.path = none → handle.lend value kept = none)
  := by
  constructor
  · intro h hdead
    cases hlend : handle.lend value kept with
    | none => rfl
    | some place =>
      obtain ⟨_, _, _, hanswer, _⟩ :=
        writeAt_of_lend ⟨value, (SlotTree.run events).root, kept⟩ hlend written
      rw [(h.dead hdead).2] at hanswer
      contradiction
  · intro h
    have hexact := SlotTree.exact_run events
    cases hlive : value.at' handle.path with
    | none => apply wroteExactly_of_lend_none (h hlive)
    | some place =>
      apply wroteExactly_of_live hexact.keys ?_ hvalue htarget hwritten hlive
      intro path other slot hpath hother
      apply hexact.distinct path other slot hpath hother

/-- A write of a live payload, with the whole value and the payload watched. -/
theorem payload_write_is_exact :
  WroteExactly
    (⟨.some (.leaf 0),
      (SlotTree.run [.watch [], .watch [.field 1]] : SlotTree ℕ StoreLend).root,
      fun _ => none⟩ : StoreCell ℕ ℕ)
    (.option .leaf) (.step .root 1) (.leaf 1)
  := by
  have hvalue : StoreValue.Fits (.some (.leaf 0) : StoreValue ℕ) (.option .leaf) := trivial
  have htarget : StoreShape.at' (.option .leaf) (StoreLend.step .root 1).path = some .leaf := rfl
  have hwritten : StoreValue.Fits (.leaf 1 : StoreValue ℕ) .leaf := trivial
  apply (write_is_exact_iff hvalue htarget hwritten).mpr
  intro h
  contradiction

/-- An `Option` of a number whose whole value is watched, and whose payload is assumed, after
the write that empties it. -/
def emptied : StoreCell ℕ ℕ :=
  (writeAt
    ⟨.some (.leaf 0),
      (SlotTree.run [.watch [], .attachFeed [.field 0, .field 1] ⟨0, .step .root 1⟩]).root,
      fun _ => none⟩
    .root .none).1

/-- A write through the assumed handle then lands nowhere, and yet it answers `true` and wakes
the whole value's slot. -/
theorem ended_payload_write_is_not_exact :
  emptied.value = .none
    ∧ (writeAt emptied (.assumed (.step .root 1) 0) (.leaf 1)).1.value = .none
    ∧ (writeAt emptied (.assumed (.step .root 1) 0) (.leaf 1)).2 = (true, [⟨0⟩])
    ∧ ¬ WroteExactly emptied (.option .leaf) (.assumed (.step .root 1) 0) (.leaf 1)
  := by
  refine ⟨rfl, rfl, rfl, ?_⟩
  intro h
  have := (h.dead rfl).2
  contradiction

end Vilan
