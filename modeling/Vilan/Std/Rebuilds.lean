import Vilan.Std.WireLaws

/-!
# What a rebuild comes to

A rebuild that ends, ends alike with any greater depth of calls.  What it comes to is a relation
between the state it starts from, the values it gives and the state it leaves, for a list of
types as for the fields of a struct and the entries of a map.
-/

namespace Vilan.Wire

open Option

variable {F H : Type}

/-- A part of a rebuild. -/
inductive Part (F : Type) where
  /-- Values of types, one after the other. -/
  | values (types : List Ty)
  /-- The fields of a struct, one after the other. -/
  | fields (fields : List (Str × Ty))
  /-- So many entries of a map, inserted into those it holds. -/
  | entries (key value : Ty) (length : ℕ) (entries : List (Value F))

/-- The types of so many keys and values, one after the other. -/
def pairTypes (key value : Ty) : ℕ → List Ty
  | 0 => []
  | length + 1 => key :: value :: pairTypes key value length

/-- The types of a part, in the order in which they are read. -/
def Part.types : Part F → List Ty
  | .values order => order
  | .fields named => named.map Prod.snd
  | .entries key value length _ => pairTypes key value length

section Rebuilds

variable {D : Type} [DecidableEq H] (host : Host F) (program : Program F H)
  (deserializer : Deserialize D F)

/-- A part is rebuilt from one state, gives values and leaves another state. -/
inductive Rebuilds : Part F → D → List (Value F) → D → Prop
  | nil (d : D) : Rebuilds (.values []) d [] d
  | cons {type : Ty} {types : List Ty} {d mid d' : D} {value : Value F} {values : List (Value F)} :
      Rebuilds (.values [type]) d [value] mid → Rebuilds (.values types) mid values d' →
        Rebuilds (.values (type :: types)) d (value :: values) d'
  | scalar (kind : Scalar) (d : D) :
      Rebuilds (.values [.scalar kind]) d [(rebuildScalar host deserializer kind d).1]
        (rebuildScalar host deserializer kind d).2
  | list {element : Ty} {d d' : D} {items : List (Value F)} :
      Rebuilds (.values (List.replicate (deserializer.beginList d).1.toNat element))
          (deserializer.beginList d).2 items d' →
        Rebuilds (.values [.list element]) d [.list items] (deserializer.endList d')
  | absent {element : Ty} {d : D} (null : (deserializer.isNull d).1 = true) :
      Rebuilds (.values [.option element]) d [.absent]
        (deserializer.nullValue (deserializer.isNull d).2)
  | present {element : Ty} {d d' : D} {value : Value F}
      (null : (deserializer.isNull d).1 = false) :
      Rebuilds (.values [element]) (deserializer.isNull d).2 [value] d' →
        Rebuilds (.values [.option element]) d [.present value] d'
  | map {key value : Ty} {d d' : D} {entries : List (Value F)} :
      Rebuilds (.entries key value (deserializer.beginList d).1.toNat [])
          (deserializer.beginList d).2 entries d' →
        Rebuilds (.values [.hashMap key value]) d [.map entries] (deserializer.endList d')
  | struct {id : ℕ} {fields : List (Str × Ty)} {d d' : D} {values : List (Value F)}
      (decl : program.decl id = .struct fields) :
      Rebuilds (.fields fields) (deserializer.beginStruct d) values d' →
        Rebuilds (.values [.named id]) d [.struct values] (deserializer.endStruct d')
  | variant {id : ℕ} {variants : List (Str × List Ty)} {fallback : Fallback F}
      {types : List Ty} {d d' : D} {payloads : List (Value F)}
      (decl : program.decl id = .enum variants fallback)
      (known : variants.lookup (deserializer.variantTag d).1 = some types) :
      Rebuilds (.values types)
          (deserializer.beginVariant (deserializer.variantTag d).2 (deserializer.variantTag d).1
            types.length) payloads d' →
        Rebuilds (.values [.named id]) d [.variant (deserializer.variantTag d).1 payloads]
          (deserializer.endVariant d')
  | fallback {id : ℕ} {variants : List (Str × List Ty)} {fallback : Fallback F}
      {d d' : D} {payloads : List (Value F)}
      (decl : program.decl id = .enum variants fallback)
      (unknown : variants.lookup (deserializer.variantTag d).1 = none) :
      Rebuilds (.values fallback.payloads)
          (deserializer.fail (deserializer.variantTag d).2
            (ascii "unknown " ++ fallback.what ++ ascii " '" ++ (deserializer.variantTag d).1 ++
              ascii "'")) payloads d' →
        Rebuilds (.values [.named id]) d [.variant fallback.name (payloads ++ fallback.rest)] d'
  | backed {id : ℕ} {name first : Str} {backing : Scalar} {values : List (Str × Value F)}
      {known : Str × Value F} {d : D}
      (decl : program.decl id = .backed name backing first values)
      (found : (values.find? fun known =>
        known.2.isBacking (rebuildScalar host deserializer backing d).1) = some known) :
      Rebuilds (.values [.named id]) d [.variant known.1 []]
        (rebuildScalar host deserializer backing d).2
  | unbacked {id : ℕ} {name first : Str} {backing : Scalar} {values : List (Str × Value F)} {d : D}
      (decl : program.decl id = .backed name backing first values)
      (missing : (values.find? fun known =>
        known.2.isBacking (rebuildScalar host deserializer backing d).1) = none) :
      Rebuilds (.values [.named id]) d [.variant first []]
        (deserializer.fail (rebuildScalar host deserializer backing d).2
          (ascii "unknown value for enum " ++ name))
  | noFields (d : D) : Rebuilds (.fields []) d [] d
  | field {field : Str × Ty} {fields : List (Str × Ty)} {d mid d' : D} {value : Value F}
      {values : List (Value F)} :
      Rebuilds (.values [field.2]) (deserializer.field d field.1) [value] mid →
      Rebuilds (.fields fields) mid values d' →
        Rebuilds (.fields (field :: fields)) d (value :: values) d'
  | noEntries {keyType valueType : Ty} (entries : List (Value F)) (d : D) :
      Rebuilds (.entries keyType valueType 0 entries) d entries d
  | entry {keyType valueType : Ty} {length : ℕ} {entries values : List (Value F)}
      {d mid last d' : D} {key value : Value F} :
      Rebuilds (.values [keyType]) (deserializer.field (deserializer.beginStruct d) (ascii "key"))
        [key] mid →
      Rebuilds (.values [valueType]) (deserializer.field mid (ascii "value")) [value] last →
      Rebuilds (.entries keyType valueType length (insertEntry program.hash entries key value))
        (deserializer.endStruct last) values d' →
        Rebuilds (.entries keyType valueType (length + 1) entries) d values d'

/-- A part is rebuilt by the code, with calls at most so deep. -/
def rebuildPart (depth : ℕ) : Part F → D → Option (List (Value F) × D)
  | .values types, d => rebuildAll (rebuild host program deserializer depth) types d
  | .fields fields, d =>
      rebuildFields deserializer (rebuild host program deserializer depth) fields d
  | .entries key value length entries, d =>
      rebuildEntries program deserializer (rebuild host program deserializer depth) key value length
        entries d

variable {host program deserializer}

/-! ### The code ends where the relation leads -/

section

variable {read : Ty → D → Option (Value F × D)}
  (sound : ∀ type d value d', read type d = some (value, d') →
    Rebuilds host program deserializer (.values [type]) d [value] d')

include sound

theorem Rebuilds.of_rebuildAll
    (types : List Ty) {d d' : D} {values : List (Value F)}
    (h : rebuildAll read types d = some (values, d')) :
  Rebuilds host program deserializer (.values types) d values d'
  := by
  induction types generalizing d values with
  | nil =>
    obtain ⟨rfl, rfl⟩ : values = [] ∧ d' = d := by simpa [rebuildAll, eq_comm] using h
    apply Rebuilds.nil
  | cons type types ih =>
    obtain ⟨value, mid, others, hv, hs, rfl⟩ := rebuildAll_cons.mp h
    apply Rebuilds.cons (sound _ _ _ _ hv) (ih hs)

theorem Rebuilds.of_rebuildFields
    (fields : List (Str × Ty)) {d d' : D} {values : List (Value F)}
    (h : rebuildFields deserializer read fields d = some (values, d')) :
  Rebuilds host program deserializer (.fields fields) d values d'
  := by
  induction fields generalizing d values with
  | nil =>
    obtain ⟨rfl, rfl⟩ : values = [] ∧ d' = d := by simpa [rebuildFields, eq_comm] using h
    apply Rebuilds.noFields
  | cons field fields ih =>
    obtain ⟨value, mid, others, hv, hs, rfl⟩ := rebuildFields_cons.mp h
    apply Rebuilds.field (sound _ _ _ _ hv) (ih hs)

theorem Rebuilds.of_rebuildEntries
    (keyType valueType : Ty) (length : ℕ) {entries values : List (Value F)} {d d' : D}
    (h : rebuildEntries program deserializer read keyType valueType length entries d =
      some (values, d')) :
  Rebuilds host program deserializer (.entries keyType valueType length entries) d values d'
  := by
  induction length generalizing d entries with
  | zero =>
    obtain ⟨rfl, rfl⟩ : values = entries ∧ d' = d := by simpa [rebuildEntries, eq_comm] using h
    apply Rebuilds.noEntries
  | succ length ih =>
    obtain ⟨key, mid, value, last, hk, hv, h⟩ := rebuildEntries_succ.mp h
    apply Rebuilds.entry (sound _ _ _ _ hk) (sound _ _ _ _ hv) (ih h)

end

theorem Rebuilds.of_rebuild
    (depth : ℕ) (type : Ty) (d : D) (value : Value F) (d' : D)
    (h : rebuild host program deserializer depth type d = some (value, d')) :
  Rebuilds host program deserializer (.values [type]) d [value] d'
  := by
  induction depth generalizing type d value d' with
  | zero => simp only [rebuild, reduceCtorEq] at h
  | succ depth ih =>
    cases type with
    | scalar kind =>
      simp only [rebuild, some_inj, Prod.ext_iff] at h
      obtain ⟨rfl, rfl⟩ := h
      apply Rebuilds.scalar
    | list element =>
      simp only [rebuild, bind_eq_bind, bind_eq_some_iff, some_inj, Prod.mk.injEq] at h
      obtain ⟨⟨items, last⟩, h, rfl, rfl⟩ := h
      rw [rebuildItems_eq] at h
      apply Rebuilds.list (Rebuilds.of_rebuildAll ih _ h)
    | option element =>
      simp only [rebuild, bind_eq_bind] at h
      split at h
      next null =>
        simp only [some_inj, Prod.mk.injEq] at h
        obtain ⟨rfl, rfl⟩ := h
        apply Rebuilds.absent null
      next null =>
        simp only [bind_eq_some_iff, some_inj, Prod.mk.injEq] at h
        obtain ⟨⟨value, last⟩, h, rfl, rfl⟩ := h
        apply Rebuilds.present (by simpa using null) (ih _ _ _ _ h)
    | hashMap key value =>
      simp only [rebuild, bind_eq_bind, bind_eq_some_iff, some_inj, Prod.mk.injEq] at h
      obtain ⟨⟨items, last⟩, h, rfl, rfl⟩ := h
      apply Rebuilds.map (Rebuilds.of_rebuildEntries ih _ _ _ h)
    | named id =>
      simp only [rebuild, bind_eq_bind] at h
      split at h
      next fields decl =>
        simp only [bind_eq_some_iff, some_inj, Prod.mk.injEq] at h
        obtain ⟨⟨items, last⟩, h, rfl, rfl⟩ := h
        apply Rebuilds.struct decl (Rebuilds.of_rebuildFields ih _ h)
      next variants fallback decl =>
        split at h
        next types known =>
          simp only [bind_eq_some_iff, some_inj, Prod.mk.injEq] at h
          obtain ⟨⟨items, last⟩, h, rfl, rfl⟩ := h
          apply Rebuilds.variant decl known (Rebuilds.of_rebuildAll ih _ h)
        next unknown =>
          simp only [bind_eq_some_iff, some_inj, Prod.mk.injEq] at h
          obtain ⟨⟨items, last⟩, h, rfl, rfl⟩ := h
          apply Rebuilds.fallback decl unknown (Rebuilds.of_rebuildAll ih _ h)
      next name backing first values decl =>
        split at h
        next known found =>
          simp only [some_inj, Prod.mk.injEq] at h
          obtain ⟨rfl, rfl⟩ := h
          apply Rebuilds.backed decl found
        next missing =>
          simp only [some_inj, Prod.mk.injEq] at h
          obtain ⟨rfl, rfl⟩ := h
          apply Rebuilds.unbacked decl missing

/-! ### The code follows the relation, given enough depth -/

theorem rebuildAll_single
    {read : Ty → D → Option (Value F × D)} {type : Ty} {d d' : D} {value : Value F} :
  rebuildAll read [type] d = some ([value], d') ↔ read type d = some (value, d')
  := by
  rw [rebuildAll_cons]
  constructor
  · rintro ⟨value', mid, others, h, hs, heq⟩
    simp only [rebuildAll, some_inj, Prod.mk.injEq] at hs
    simp only [List.cons.injEq] at heq
    rw [heq.1, ← hs.2]
    apply h
  · intro h
    use value, d', [], h, rfl

/-- A part of a value is rebuilt with one call less than the value. -/
theorem Rebuilds.deepen
    {part : Part F} {type : Ty} {d mid start d' : D} {values : List (Value F)} {value : Value F}
    (h : ∃ depth, ∀ n ≥ depth,
      rebuildPart host program deserializer n part d = some (values, mid))
    (step : ∀ n, rebuildPart host program deserializer n part d = some (values, mid) →
      rebuild host program deserializer (n + 1) type start = some (value, d')) :
  ∃ depth, ∀ n ≥ depth,
    rebuildPart host program deserializer n (.values [type]) start = some ([value], d')
  := by
  obtain ⟨depth, h⟩ := h
  use depth + 1
  intro n hn
  obtain ⟨n, rfl⟩ := Nat.exists_eq_add_of_le' (Nat.le_of_add_left_le hn)
  apply rebuildAll_single.mpr
  apply step n (h n (by omega))

/-- A value without parts is rebuilt with one call. -/
theorem Rebuilds.leaf
    {type : Ty} {start d' : D} {value : Value F}
    (step : ∀ n, rebuild host program deserializer (n + 1) type start = some (value, d')) :
  ∃ depth, ∀ n ≥ depth,
    rebuildPart host program deserializer n (.values [type]) start = some ([value], d')
  := by
  use 1
  intro n hn
  obtain ⟨n, rfl⟩ := Nat.exists_eq_add_of_le' hn
  apply rebuildAll_single.mpr
  apply step

/-- A part that is rebuilt is rebuilt by the code, whenever its calls may be deep enough. -/
theorem Rebuilds.depth
    {part : Part F} {d d' : D} {values : List (Value F)}
    (h : Rebuilds host program deserializer part d values d') :
  ∃ depth, ∀ n ≥ depth, rebuildPart host program deserializer n part d = some (values, d')
  := by
  induction h with
  | nil d =>
    use 0
    intro n _
    rfl
  | cons _ _ ih ihs =>
    obtain ⟨depth, h⟩ := ih
    obtain ⟨depths, hs⟩ := ihs
    use max depth depths
    intro n hn
    apply rebuildAll_cons.mpr
    exact ⟨_, _, _, rebuildAll_single.mp (h n (by omega)), hs n (by omega), rfl⟩
  | scalar kind d =>
    apply Rebuilds.leaf
    intro n
    rfl
  | list _ ih =>
    apply Rebuilds.deepen ih
    intro n h
    simp only [rebuildPart] at h
    simp only [rebuild, rebuildItems_eq, h, bind_eq_bind, bind_some]
  | absent null =>
    apply Rebuilds.leaf
    intro n
    simp only [rebuild, null, if_true]
  | present null _ ih =>
    apply Rebuilds.deepen ih
    intro n h
    have h := rebuildAll_single.mp h
    simp only [rebuild, null, h, Bool.false_eq_true, if_false, bind_eq_bind, bind_some]
  | map _ ih =>
    apply Rebuilds.deepen ih
    intro n h
    simp only [rebuildPart] at h
    simp only [rebuild, h, bind_eq_bind, bind_some]
  | struct decl _ ih =>
    apply Rebuilds.deepen ih
    intro n h
    simp only [rebuildPart] at h
    simp only [rebuild, decl, h, bind_eq_bind, bind_some]
  | variant decl known _ ih =>
    apply Rebuilds.deepen ih
    intro n h
    simp only [rebuildPart] at h
    simp only [rebuild, decl, known, h, bind_eq_bind, bind_some]
  | fallback decl unknown _ ih =>
    apply Rebuilds.deepen ih
    intro n h
    simp only [rebuildPart] at h
    simp only [rebuild, decl, unknown, h, bind_eq_bind, bind_some]
  | backed decl found =>
    apply Rebuilds.leaf
    intro n
    simp only [rebuild, decl, found]
  | unbacked decl missing =>
    apply Rebuilds.leaf
    intro n
    simp only [rebuild, decl, missing]
  | noFields d =>
    use 0
    intro n _
    rfl
  | field _ _ ih ihs =>
    obtain ⟨depth, h⟩ := ih
    obtain ⟨depths, hs⟩ := ihs
    use max depth depths
    intro n hn
    apply rebuildFields_cons.mpr
    exact ⟨_, _, _, rebuildAll_single.mp (h n (by omega)), hs n (by omega), rfl⟩
  | noEntries entries d =>
    use 0
    intro n _
    rfl
  | entry _ _ _ ihk ihv ihs =>
    obtain ⟨depth, hk⟩ := ihk
    obtain ⟨depth', hv⟩ := ihv
    obtain ⟨depths, hs⟩ := ihs
    use max (max depth depth') depths
    intro n hn
    apply rebuildEntries_succ.mpr
    exact ⟨_, _, _, _, rebuildAll_single.mp (hk n (by omega)),
      rebuildAll_single.mp (hv n (by omega)), hs n (by omega)⟩

/-- What a rebuild comes to is what the code gives at some depth. -/
theorem rebuilds_iff {type : Ty} {d d' : D} {value : Value F} :
  Rebuilds host program deserializer (.values [type]) d [value] d' ↔
    ∃ depth, rebuild host program deserializer depth type d = some (value, d')
  := by
  constructor
  · intro h
    obtain ⟨depth, h⟩ := h.depth
    use depth
    apply rebuildAll_single.mp (h depth le_rfl)
  · rintro ⟨depth, h⟩
    apply Rebuilds.of_rebuild depth _ _ _ _ h

/-- A part comes to one thing only. -/
theorem Rebuilds.unique
    {part : Part F} {d d₁ d₂ : D} {values₁ values₂ : List (Value F)}
    (h₁ : Rebuilds host program deserializer part d values₁ d₁)
    (h₂ : Rebuilds host program deserializer part d values₂ d₂) :
  values₁ = values₂ ∧ d₁ = d₂
  := by
  obtain ⟨depth₁, h₁⟩ := h₁.depth
  obtain ⟨depth₂, h₂⟩ := h₂.depth
  have h₁ := h₁ (max depth₁ depth₂) (by omega)
  rw [h₂ _ (by omega)] at h₁
  simp only [some_inj, Prod.mk.injEq] at h₁
  use h₁.1.symm, h₁.2.symm

/-- The first of the values of types is rebuilt before the others. -/
theorem Rebuilds.cons_inv
    {type : Ty} {types : List Ty} {d d' : D} {values : List (Value F)}
    (h : Rebuilds host program deserializer (.values (type :: types)) d values d') :
  ∃ value mid others, values = value :: others ∧
    Rebuilds host program deserializer (.values [type]) d [value] mid ∧
    Rebuilds host program deserializer (.values types) mid others d'
  := by
  obtain ⟨depth, h⟩ := h.depth
  obtain ⟨value, mid, others, hv, hs, rfl⟩ := rebuildAll_cons.mp (h depth le_rfl)
  use value, mid, others, rfl, Rebuilds.of_rebuild depth _ _ _ _ hv
  apply Rebuilds.of_rebuildAll (Rebuilds.of_rebuild depth) _ hs

/-! ### What the calls keep, a rebuild keeps -/

theorem rebuildScalar_keeps
    {P : D → Prop} (keeps : deserializer.Keeps P) (kind : Scalar) {d : D} (h : P d) :
  P (rebuildScalar host deserializer kind d).2
  := by
  cases kind
  case bool => apply keeps.boolValue _ h
  case str => apply keeps.strValue _ h
  case i8 | i16 | i32 | usize => apply keeps.i32Value _ h
  case u8 | u16 | u32 => apply keeps.u32Value _ h
  case i53 | u53 => apply keeps.i53Value _ h
  case f32 | f64 => apply keeps.f64Value _ h

theorem Rebuilds.keeps
    {P : D → Prop} (keeps : deserializer.Keeps P) {part : Part F} {d d' : D}
    {values : List (Value F)} (h : Rebuilds host program deserializer part d values d')
    (hd : P d) :
  P d'
  := by
  induction h with
  | nil | noFields | noEntries => apply hd
  | cons _ _ ih ihs => apply ihs (ih hd)
  | scalar kind => apply rebuildScalar_keeps keeps kind hd
  | list _ ih | map _ ih => apply keeps.endList _ (ih (keeps.beginList _ hd))
  | absent => apply keeps.nullValue _ (keeps.isNull _ hd)
  | present _ _ ih => apply ih (keeps.isNull _ hd)
  | struct _ _ ih => apply keeps.endStruct _ (ih (keeps.beginStruct _ hd))
  | variant _ _ _ ih =>
    apply keeps.endVariant _ (ih (keeps.beginVariant _ _ _ (keeps.variantTag _ hd)))
  | fallback _ _ _ ih => apply ih (keeps.fail _ _ (keeps.variantTag _ hd))
  | backed => apply rebuildScalar_keeps keeps _ hd
  | unbacked => apply keeps.fail _ _ (rebuildScalar_keeps keeps _ hd)
  | field _ _ ih ihs => apply ihs (ih (keeps.field _ _ hd))
  | entry _ _ _ ihk ihv ihs =>
    apply ihs (keeps.endStruct _ (ihv (keeps.field _ _ (ihk (keeps.field _ _
      (keeps.beginStruct _ hd))))))

end Rebuilds

end Vilan.Wire
