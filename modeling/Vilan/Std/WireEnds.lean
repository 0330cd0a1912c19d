import Vilan.Std.Rebuilds

/-!
# Rebuilds that end

A rebuild is a run over what is still to be done: reads of types, and calls on the deserializer
between them.  A reader that failed answers every call with a default, and whether a type can be
read from defaults in finitely many calls is a property of the type.  A rebuild ends exactly when,
after finitely many steps, all that is left to be read are such types and the reader has failed,
or nothing is left to be read.
-/

namespace Vilan.Wire

open List

variable {F H D : Type}

/-! ### The steps of a rebuild -/

/-- The calls between the reads of a rebuild. -/
inductive Call where
  | beginStruct
  | field (name : Str)
  | endStruct
  | endList
  | endVariant

/-- What is still to be done. -/
inductive Task where
  | read (type : Ty)
  | call (call : Call)

def Call.apply (deserializer : Deserialize D F) : Call → D → D
  | .beginStruct, d => deserializer.beginStruct d
  | .field name, d => deserializer.field d name
  | .endStruct, d => deserializer.endStruct d
  | .endList, d => deserializer.endList d
  | .endVariant, d => deserializer.endVariant d

/-- The fields of a struct are read behind their names. -/
def fieldTasks : List (Str × Ty) → List Task
  | [] => []
  | field :: fields => .call (.field field.1) :: .read field.2 :: fieldTasks fields

/-- Each entry of a map is read as a struct of two fields. -/
def entryTasks (key value : Ty) : ℕ → List Task
  | 0 => []
  | length + 1 =>
      .call .beginStruct :: .call (.field (ascii "key")) :: .read key ::
        .call (.field (ascii "value")) :: .read value :: .call .endStruct ::
          entryTasks key value length

section Unfold

variable (host : Host F) (program : Program F H) (deserializer : Deserialize D F)

/-- What a read comes to: what is to be done instead, and the reader after its first calls. -/
def unfoldRead : Ty → D → List Task × D
  | .scalar kind, d => ([], (rebuildScalar host deserializer kind d).2)
  | .list element, d =>
      let (length, d) := deserializer.beginList d
      (List.replicate length.toNat (.read element) ++ [.call .endList], d)
  | .option element, d =>
      let (null, d) := deserializer.isNull d
      if null then ([], deserializer.nullValue d) else ([.read element], d)
  | .hashMap key value, d =>
      let (length, d) := deserializer.beginList d
      (entryTasks key value length.toNat ++ [.call .endList], d)
  | .named id, d =>
      match program.decl id with
      | .struct fields => (fieldTasks fields ++ [.call .endStruct], deserializer.beginStruct d)
      | .enum variants fallback =>
          let (tag, d) := deserializer.variantTag d
          match variants.lookup tag with
          | some types =>
              (types.map .read ++ [.call .endVariant], deserializer.beginVariant d tag types.length)
          | none =>
              let reason := ascii "unknown " ++ fallback.what ++ ascii " '" ++ tag ++ ascii "'"
              (fallback.payloads.map .read, deserializer.fail d reason)
      | .backed name backing _ values =>
          let (raw, d) := rebuildScalar host deserializer backing d
          match values.find? fun known => known.2.isBacking raw with
          | some _ => ([], d)
          | none => ([], deserializer.fail d (ascii "unknown value for enum " ++ name))

/-- One step over what is still to be done. -/
def advance : List Task × D → List Task × D
  | ([], d) => ([], d)
  | (.call call :: tasks, d) => (tasks, call.apply deserializer d)
  | (.read type :: tasks, d) =>
      ((unfoldRead host program deserializer type d).1 ++ tasks,
        (unfoldRead host program deserializer type d).2)

end Unfold

/-! ### Types that are read from defaults -/

/-- Types whose rebuild over a failed reader ends: a list is then empty, an option is not null
and is therefore read, and a tag is empty. -/
inductive Dies (program : Program F H) : Ty → Prop
  | scalar (kind : Scalar) : Dies program (.scalar kind)
  | list (element : Ty) : Dies program (.list element)
  | option {element : Ty} : Dies program element → Dies program (.option element)
  | hashMap (key value : Ty) : Dies program (.hashMap key value)
  | struct {id : ℕ} {fields : List (Str × Ty)} (decl : program.decl id = .struct fields) :
      (∀ field ∈ fields, Dies program field.2) → Dies program (.named id)
  | variant {id : ℕ} {variants : List (Str × List Ty)} {fallback : Fallback F} {types : List Ty}
      (decl : program.decl id = .enum variants fallback)
      (known : variants.lookup [] = some types) :
      (∀ type ∈ types, Dies program type) → Dies program (.named id)
  | fallback {id : ℕ} {variants : List (Str × List Ty)} {fallback : Fallback F}
      (decl : program.decl id = .enum variants fallback) (unknown : variants.lookup [] = none) :
      (∀ type ∈ fallback.payloads, Dies program type) → Dies program (.named id)
  | backed {id : ℕ} {name first : Str} {backing : Scalar} {values : List (Str × Value F)}
      (decl : program.decl id = .backed name backing first values) : Dies program (.named id)

/-- A failed reader stays failed and answers with defaults. -/
structure Deserialize.Sticky (deserializer : Deserialize D F) : Prop where
  keeps : deserializer.Keeps fun d => deserializer.failed d ≠ none
  list : ∀ d, deserializer.failed d ≠ none → (deserializer.beginList d).1.toNat = 0
  null : ∀ d, deserializer.failed d ≠ none → (deserializer.isNull d).1 = false
  tag : ∀ d, deserializer.failed d ≠ none → (deserializer.variantTag d).1 = []
  fails : ∀ d reason, deserializer.failed (deserializer.fail d reason) ≠ none

section Ends

variable [DecidableEq H] (host : Host F) (program : Program F H) (deserializer : Deserialize D F)

/-- The rebuild of a type ends. -/
def Ends (type : Ty) (d : D) : Prop :=
  ∃ depth, (rebuild host program deserializer depth type d).isSome

/-- After finitely many steps, the reader has failed and what is left to be read are types that
die, or nothing is left to be read. -/
def Settles (type : Ty) (d : D) : Prop :=
  ∃ n tasks last, (advance host program deserializer)^[n] ([.read type], d) = (tasks, last) ∧
    ∀ type, .read type ∈ tasks → deserializer.failed last ≠ none ∧ Dies program type

end Ends

section

variable [DecidableEq H] {host : Host F} {program : Program F H} {deserializer : Deserialize D F}

/-! ### Runs -/

/-- A run has nothing left to do after so many steps. -/
def Halts (host : Host F) (program : Program F H) (deserializer : Deserialize D F) (n : ℕ)
    (state : List Task × D) : Prop :=
  ((advance host program deserializer)^[n] state).1 = []

variable {state : List Task × D} {n : ℕ} {d d' : D} {type : Ty}

omit [DecidableEq H] in
theorem Halts.zero (h : Halts host program deserializer 0 state) :
  state.1 = []
  := h

omit [DecidableEq H] in
/-- A run that has nothing left to do stays so. -/
theorem Halts.step (h : Halts host program deserializer n state) :
  Halts host program deserializer n (advance host program deserializer state)
  := by
  induction n generalizing state with
  | zero =>
    obtain ⟨tasks, d⟩ := state
    obtain rfl : tasks = [] := h
    rfl
  | succ n ih => apply ih h

omit [DecidableEq H] in
theorem Halts.call {call : Call} {tasks : List Task}
    (h : Halts host program deserializer n (.call call :: tasks, d)) :
  Halts host program deserializer n (tasks, call.apply deserializer d)
  := h.step

omit [DecidableEq H] in
theorem halts_of_run {m : ℕ} {state' : List Task × D}
    (run : (advance host program deserializer)^[n] state = state')
    (h : Halts host program deserializer m state') :
  Halts host program deserializer (m + n) state
  := by
  rw [Halts, Function.iterate_add_apply, run]
  apply h

/-- The tasks of a part. -/
def Part.tasks : Part F → List Task
  | .values order => order.map .read
  | .fields named => fieldTasks named
  | .entries key value length _ => entryTasks key value length

/-- The code does what a run does, and leaves the state that the run reaches. -/
def Reaches (host : Host F) (program : Program F H) (deserializer : Deserialize D F)
    (state state' : List Task × D) : Prop :=
  ∃ n, (advance host program deserializer)^[n] state = state'

omit [DecidableEq H] in
theorem Reaches.trans {mid state' : List Task × D} (h : Reaches host program deserializer state mid)
    (h' : Reaches host program deserializer mid state') :
  Reaches host program deserializer state state'
  := by
  obtain ⟨n, h⟩ := h
  obtain ⟨m, h'⟩ := h'
  use m + n
  rw [Function.iterate_add_apply, h, h']

omit [DecidableEq H] in
theorem Reaches.step (state : List Task × D) :
  Reaches host program deserializer state (advance host program deserializer state)
  := ⟨1, rfl⟩

omit [DecidableEq H] in
theorem Reaches.read {children tasks : List Task}
    (unfold : unfoldRead host program deserializer type d = (children, d')) :
  Reaches host program deserializer (.read type :: tasks, d) (children ++ tasks, d')
  := by
  have step : Reaches host program deserializer (.read type :: tasks, d) _ := Reaches.step _
  rw [advance, unfold] at step
  apply step

omit [DecidableEq H] in
/-- A read is done when its part is, which is all that it comes to. -/
theorem Reaches.whole (part : Part F) {mid : D} {tasks : List Task}
    (unfold : unfoldRead host program deserializer type d = (part.tasks, mid))
    (h : Reaches host program deserializer (part.tasks ++ tasks, mid) (tasks, d')) :
  Reaches host program deserializer (.read type :: tasks, d) (tasks, d')
  := (Reaches.read unfold).trans h

omit [DecidableEq H] in
/-- A read is done when its part and the call behind it are. -/
theorem Reaches.inside {part : Part F} (call : Call) {mid last : D} {tasks : List Task}
    (unfold : unfoldRead host program deserializer type d = (part.tasks ++ [.call call], mid))
    (h : Reaches host program deserializer (part.tasks ++ (.call call :: tasks), mid)
      (.call call :: tasks, last)) :
  Reaches host program deserializer (.read type :: tasks, d)
    (tasks, call.apply deserializer last)
  := by
  have begun : Reaches host program deserializer (.read type :: tasks, d) _ := Reaches.read unfold
  rw [append_assoc] at begun
  apply (begun.trans h).trans (Reaches.step _)

/-- A part that is rebuilt is done by the run, whatever else is to be done. -/
theorem Rebuilds.reaches {part : Part F} {values : List (Value F)}
    (h : Rebuilds host program deserializer part d values d') (tasks : List Task) :
  Reaches host program deserializer (part.tasks ++ tasks, d) (tasks, d')
  := by
  induction h generalizing tasks with
  | nil d | noFields d | noEntries _ d => exact ⟨0, rfl⟩
  | cons _ _ ih ihs => apply (ih _).trans (ihs tasks)
  | scalar kind d => apply Reaches.read rfl
  | @list element d d' items _ ih =>
    have inside := ih (.call .endList :: tasks)
    apply Reaches.inside .endList _ inside
    simp only [Part.tasks, map_replicate, unfoldRead]
  | @absent element d null =>
    apply Reaches.whole (.values [])
    · simp only [unfoldRead, null, if_true]
      rfl
    · exact ⟨0, rfl⟩
  | @present element d d' value null _ ih =>
    apply Reaches.whole _ _ (ih tasks)
    simp only [unfoldRead, null, Bool.false_eq_true, if_false]
    rfl
  | @map key value d d' entries _ ih =>
    have inside := ih (.call .endList :: tasks)
    apply Reaches.inside .endList _ inside
    simp only [Part.tasks, unfoldRead]
  | struct decl _ ih =>
    have inside := ih (.call .endStruct :: tasks)
    apply Reaches.inside .endStruct _ inside
    simp only [Part.tasks, unfoldRead, decl]
  | variant decl known _ ih =>
    have inside := ih (.call .endVariant :: tasks)
    apply Reaches.inside .endVariant _ inside
    simp only [Part.tasks, unfoldRead, decl, known]
  | fallback decl unknown _ ih =>
    apply Reaches.whole _ _ (ih tasks)
    simp only [Part.tasks, unfoldRead, decl, unknown]
  | backed decl found =>
    apply Reaches.whole (.values [])
    · simp only [unfoldRead, decl, found]
      rfl
    · exact ⟨0, rfl⟩
  | unbacked decl missing =>
    apply Reaches.whole (.values [])
    · simp only [unfoldRead, decl, missing]
      rfl
    · exact ⟨0, rfl⟩
  | field _ _ ih ihs =>
    apply (Reaches.step _).trans
    apply (ih _).trans (ihs tasks)
  | entry _ _ _ ihk ihv ihs =>
    apply (Reaches.step _).trans
    apply (Reaches.step _).trans
    apply (ihk _).trans
    apply (Reaches.step _).trans
    apply (ihv _).trans
    apply (Reaches.step _).trans
    apply ihs tasks

/-! ### A run that ends is a rebuild -/

section Halts

variable {n : ℕ}
  (read : ∀ type tasks d, Halts host program deserializer n (.read type :: tasks, d) →
    ∃ value d', Rebuilds host program deserializer (.values [type]) d [value] d' ∧
      Halts host program deserializer n (tasks, d'))

include read

theorem Halts.values
    (types : List Ty) (tasks : List Task) (d : D)
    (h : Halts host program deserializer n (types.map .read ++ tasks, d)) :
  ∃ values d', Rebuilds host program deserializer (.values types) d values d' ∧
    Halts host program deserializer n (tasks, d')
  := by
  induction types generalizing d with
  | nil => use [], d, .nil d, h
  | cons type types ih =>
    obtain ⟨value, mid, first, h⟩ := read _ _ _ h
    obtain ⟨values, d', others, h⟩ := ih mid h
    use value :: values, d', .cons first others, h

theorem Halts.fields
    (fields : List (Str × Ty)) (tasks : List Task) (d : D)
    (h : Halts host program deserializer n (fieldTasks fields ++ tasks, d)) :
  ∃ values d', Rebuilds host program deserializer (.fields fields) d values d' ∧
    Halts host program deserializer n (tasks, d')
  := by
  induction fields generalizing d with
  | nil => use [], d, .noFields d, h
  | cons field fields ih =>
    obtain ⟨value, mid, first, h⟩ := read _ _ _ h.call
    obtain ⟨values, d', others, h⟩ := ih mid h
    use value :: values, d', .field first others, h

theorem Halts.entries
    (key value : Ty) (length : ℕ) (entries : List (Value F)) (tasks : List Task) (d : D)
    (h : Halts host program deserializer n (entryTasks key value length ++ tasks, d)) :
  ∃ values d', Rebuilds host program deserializer (.entries key value length entries) d values d' ∧
    Halts host program deserializer n (tasks, d')
  := by
  induction length generalizing d entries with
  | zero => use entries, d, .noEntries entries d, h
  | succ length ih =>
    obtain ⟨k, mid, first, h⟩ := read _ _ _ h.call.call
    obtain ⟨v, last, second, h⟩ := read _ _ _ h.call
    obtain ⟨values, d', others, h⟩ := ih (insertEntry program.hash entries k v) _ h.call
    use values, d', .entry first second others, h

end Halts

/-- A read that a run ends is rebuilt, and what is behind it is ended too. -/
theorem Halts.read
    (n : ℕ) (type : Ty) (tasks : List Task) (d : D)
    (h : Halts host program deserializer n (.read type :: tasks, d)) :
  ∃ value d', Rebuilds host program deserializer (.values [type]) d [value] d' ∧
    Halts host program deserializer n (tasks, d')
  := by
  induction n generalizing type tasks d with
  | zero => cases h.zero
  | succ n ih =>
    have more : ∀ {state : List Task × D}, Halts host program deserializer n state →
        Halts host program deserializer (n + 1) state := fun {state} h => h.step
    have inside : Halts host program deserializer n
        ((unfoldRead host program deserializer type d).1 ++ tasks,
          (unfoldRead host program deserializer type d).2) := h
    cases type with
    | scalar kind => exact ⟨_, _, .scalar kind d, more inside⟩
    | list element =>
      simp only [unfoldRead, append_assoc, ← map_replicate] at inside
      obtain ⟨items, d', items', h⟩ := Halts.values ih _ _ _ inside
      exact ⟨_, _, .list items', more h.call⟩
    | option element =>
      cases null : (deserializer.isNull d).1 with
      | true =>
        simp only [unfoldRead, null, if_true] at inside
        exact ⟨_, _, .absent null, more inside⟩
      | false =>
        simp only [unfoldRead, null, Bool.false_eq_true, if_false] at inside
        obtain ⟨value, d', value', h⟩ := ih _ _ _ inside
        exact ⟨_, _, .present null value', more h⟩
    | hashMap key value =>
      simp only [unfoldRead, append_assoc] at inside
      obtain ⟨entries, d', entries', h⟩ := Halts.entries ih _ _ _ [] _ _ inside
      exact ⟨_, _, .map entries', more h.call⟩
    | named id =>
      cases decl : program.decl id with
      | struct fields =>
        simp only [unfoldRead, decl, append_assoc] at inside
        obtain ⟨values, d', fields', h⟩ := Halts.fields ih _ _ _ inside
        exact ⟨_, _, .struct decl fields', more h.call⟩
      | enum variants fallback =>
        cases known : variants.lookup (deserializer.variantTag d).1 with
        | some types =>
          simp only [unfoldRead, decl, known, append_assoc] at inside
          obtain ⟨payloads, d', payloads', h⟩ := Halts.values ih _ _ _ inside
          exact ⟨_, _, .variant decl known payloads', more h.call⟩
        | none =>
          simp only [unfoldRead, decl, known] at inside
          obtain ⟨payloads, d', payloads', h⟩ := Halts.values ih _ _ _ inside
          exact ⟨_, _, .fallback decl known payloads', more h⟩
      | backed name backing first values =>
        cases found : values.find? fun known =>
            known.2.isBacking (rebuildScalar host deserializer backing d).1 with
        | some known =>
          simp only [unfoldRead, decl, found] at inside
          exact ⟨_, _, .backed decl found, more inside⟩
        | none =>
          simp only [unfoldRead, decl, found] at inside
          exact ⟨_, _, .unbacked decl found, more inside⟩

/-! ### Failed readers -/

section Failed

variable (sticky : deserializer.Sticky)

include sticky

variable {d : D}

theorem Rebuilds.all_of_failed {types : List Ty}
    (each : ∀ type ∈ types, ∀ d, deserializer.failed d ≠ none →
      ∃ value d', Rebuilds host program deserializer (.values [type]) d [value] d')
    (failed : deserializer.failed d ≠ none) :
  ∃ values d', Rebuilds host program deserializer (.values types) d values d'
  := by
  induction types generalizing d with
  | nil => use [], d, .nil d
  | cons type types ih =>
    obtain ⟨first, others⟩ := forall_mem_cons.mp each
    obtain ⟨value, mid, h⟩ := first d failed
    obtain ⟨values, d', hs⟩ := ih others (h.keeps sticky.keeps failed)
    use value :: values, d', .cons h hs

theorem Rebuilds.fields_of_failed {fields : List (Str × Ty)}
    (each : ∀ field ∈ fields, ∀ d, deserializer.failed d ≠ none →
      ∃ value d', Rebuilds host program deserializer (.values [field.2]) d [value] d')
    (failed : deserializer.failed d ≠ none) :
  ∃ values d', Rebuilds host program deserializer (.fields fields) d values d'
  := by
  induction fields generalizing d with
  | nil => use [], d, .noFields d
  | cons field fields ih =>
    obtain ⟨first, others⟩ := forall_mem_cons.mp each
    obtain ⟨value, mid, h⟩ := first _ (sticky.keeps.field d field.1 failed)
    obtain ⟨values, d', hs⟩ :=
      ih others (h.keeps sticky.keeps (sticky.keeps.field d field.1 failed))
    use value :: values, d', .field h hs

/-- A type that dies is rebuilt from a failed reader. -/
theorem Dies.rebuilds
    {type : Ty} (dies : Dies program type) (d : D) (failed : deserializer.failed d ≠ none) :
  ∃ value d', Rebuilds host program deserializer (.values [type]) d [value] d'
  := by
  induction dies generalizing d with
  | scalar kind => exact ⟨_, _, .scalar kind d⟩
  | list element =>
    have empty : Rebuilds host program deserializer
        (.values (List.replicate (deserializer.beginList d).1.toNat element))
        (deserializer.beginList d).2 [] (deserializer.beginList d).2 := by
      rw [sticky.list d failed]
      apply Rebuilds.nil
    exact ⟨_, _, .list empty⟩
  | option _ ih =>
    obtain ⟨value, d', h⟩ := ih _ (sticky.keeps.isNull d failed)
    exact ⟨_, _, .present (sticky.null d failed) h⟩
  | hashMap key value =>
    have empty : Rebuilds host program deserializer
        (.entries key value (deserializer.beginList d).1.toNat [])
        (deserializer.beginList d).2 [] (deserializer.beginList d).2 := by
      rw [sticky.list d failed]
      apply Rebuilds.noEntries
    exact ⟨_, _, .map empty⟩
  | struct decl _ ih =>
    obtain ⟨values, d', h⟩ :=
      Rebuilds.fields_of_failed sticky ih (sticky.keeps.beginStruct d failed)
    exact ⟨_, _, .struct decl h⟩
  | variant decl known _ ih =>
    have tag := sticky.tag d failed
    obtain ⟨payloads, d', h⟩ := Rebuilds.all_of_failed sticky ih
      (sticky.keeps.beginVariant _ (deserializer.variantTag d).1 _
        (sticky.keeps.variantTag d failed))
    exact ⟨_, _, .variant decl (by rw [tag]; apply known) h⟩
  | fallback decl unknown _ ih =>
    have tag := sticky.tag d failed
    obtain ⟨payloads, d', h⟩ := Rebuilds.all_of_failed sticky ih (sticky.fails _ _)
    exact ⟨_, _, .fallback decl (by rw [tag]; apply unknown) h⟩
  | @backed id name first backing values decl =>
    cases found : values.find? fun known =>
        known.2.isBacking (rebuildScalar host deserializer backing d).1 with
    | some known => exact ⟨_, _, .backed decl found⟩
    | none => exact ⟨_, _, .unbacked decl found⟩

/-- What is rebuilt from a failed reader are types that die. -/
theorem Rebuilds.dies {part : Part F} {d' : D} {values : List (Value F)}
    (h : Rebuilds host program deserializer part d values d')
    (failed : deserializer.failed d ≠ none) :
  ∀ type ∈ part.types, Dies program type
  := by
  have keeps := sticky.keeps
  induction h with
  | nil | noFields => nofun
  | noEntries =>
    simp only [Part.types, pairTypes]
    nofun
  | cons first _ ih ihs =>
    exact forall_mem_cons.mpr
      ⟨forall_mem_singleton.mp (ih failed), ihs (first.keeps keeps failed)⟩
  | scalar kind => exact forall_mem_singleton.mpr (.scalar kind)
  | list => exact forall_mem_singleton.mpr (.list _)
  | absent null =>
    rw [sticky.null _ failed] at null
    simp only [Bool.false_eq_true] at null
  | present _ _ ih =>
    have inner := forall_mem_singleton.mp (ih (keeps.isNull _ failed))
    exact forall_mem_singleton.mpr (.option inner)
  | map => exact forall_mem_singleton.mpr (.hashMap _ _)
  | struct decl _ ih =>
    have inner := List.forall_mem_map.mp (ih (keeps.beginStruct _ failed))
    exact forall_mem_singleton.mpr (.struct decl inner)
  | variant decl known _ ih =>
    rw [sticky.tag _ failed] at known
    have inner := ih (keeps.beginVariant _ _ _ (keeps.variantTag _ failed))
    exact forall_mem_singleton.mpr (.variant decl known inner)
  | fallback decl unknown _ ih =>
    rw [sticky.tag _ failed] at unknown
    have inner := ih (sticky.fails _ _)
    exact forall_mem_singleton.mpr (.fallback decl unknown inner)
  | backed decl | unbacked decl => exact forall_mem_singleton.mpr (.backed decl)
  | @field field _ _ _ _ _ _ first _ ih ihs =>
    have named := keeps.field _ field.1 failed
    exact forall_mem_cons.mpr
      ⟨forall_mem_singleton.mp (ih named), ihs (first.keeps keeps named)⟩
  | entry first second _ ihk ihv ihs =>
    have opened := keeps.field _ (ascii "key") (keeps.beginStruct _ failed)
    have named := keeps.field _ (ascii "value") (first.keeps keeps opened)
    have others := ihs (keeps.endStruct _ (second.keeps keeps named))
    exact forall_mem_cons.mpr ⟨forall_mem_singleton.mp (ihk opened),
      forall_mem_cons.mpr ⟨forall_mem_singleton.mp (ihv named), others⟩⟩

theorem Call.keeps (call : Call) (failed : deserializer.failed d ≠ none) :
  deserializer.failed (call.apply deserializer d) ≠ none
  := by
  cases call with
  | beginStruct => apply sticky.keeps.beginStruct _ failed
  | field name => apply sticky.keeps.field _ _ failed
  | endStruct => apply sticky.keeps.endStruct _ failed
  | endList => apply sticky.keeps.endList _ failed
  | endVariant => apply sticky.keeps.endVariant _ failed

/-- A run ends when the reader has failed and what is left to be read are types that die. -/
theorem halts_of_dies
    (tasks : List Task) (d : D)
    (left : ∀ type, .read type ∈ tasks → deserializer.failed d ≠ none ∧ Dies program type) :
  ∃ n, Halts host program deserializer n (tasks, d)
  := by
  induction tasks generalizing d with
  | nil => exact ⟨0, rfl⟩
  | cons task tasks ih =>
    cases task with
    | call call =>
      obtain ⟨n, h⟩ := ih (call.apply deserializer d) (fun type mem => by
        obtain ⟨failed, dies⟩ := left type (mem_cons_of_mem _ mem)
        use call.keeps sticky failed, dies)
      use n + 1, h
    | read type =>
      obtain ⟨failed, dies⟩ := left type mem_cons_self
      have rebuilt : ∃ value d', Rebuilds host program deserializer (.values [type]) d [value]
          d' := dies.rebuilds sticky d failed
      obtain ⟨value, d', h⟩ := rebuilt
      obtain ⟨m, run⟩ := h.reaches tasks
      obtain ⟨n, halts⟩ := ih d' (fun type mem => by
        use h.keeps sticky.keeps failed, (left type (mem_cons_of_mem _ mem)).2)
      use n + m, halts_of_run run halts

/-- A rebuild ends exactly when its run settles. -/
theorem ends_iff_settles (type : Ty) (d : D) :
  Ends host program deserializer type d ↔ Settles host program deserializer type d
  := by
  constructor
  · rintro ⟨depth, h⟩
    obtain ⟨⟨value, d'⟩, h⟩ := Option.isSome_iff_exists.mp h
    obtain ⟨n, run⟩ := (Rebuilds.of_rebuild depth _ _ _ _ h).reaches []
    use n, [], d', run
    nofun
  · rintro ⟨n, tasks, last, run, left⟩
    have settled : ∃ m, Halts host program deserializer m (tasks, last) :=
      halts_of_dies sticky tasks last left
    obtain ⟨m, halts⟩ := settled
    obtain ⟨value, d', h, _⟩ := Halts.read _ _ _ _ (halts_of_run run halts)
    obtain ⟨depth, h⟩ := rebuilds_iff.mp h
    use depth
    rw [h]
    rfl

end Failed

end

end Vilan.Wire
