import Vilan.Std.Wire

/-!
# Laws of the wire visitor

Describing a value drives a serializer, and rebuilding one drives a deserializer.  What every
call keeps, the whole drive keeps: a relation between two serializers, or a property of a
deserializer's state.  A rebuild that ends with some depth of calls ends alike with more.
-/

namespace Vilan.Wire

open Option

variable {F H : Type}

/-! ### Describing to two serializers -/

/-- Two serializers answer alike: whatever is described to both, related states stay related. -/
structure Serialize.Related {S T : Type} (serializer : Serialize S F) (other : Serialize T F)
    (R : S → T → Prop) : Prop where
  beginStruct : ∀ s t count, R s t → R (serializer.beginStruct s count) (other.beginStruct t count)
  field : ∀ s t name, R s t → R (serializer.field s name) (other.field t name)
  endStruct : ∀ s t, R s t → R (serializer.endStruct s) (other.endStruct t)
  beginList : ∀ s t count, R s t → R (serializer.beginList s count) (other.beginList t count)
  endList : ∀ s t, R s t → R (serializer.endList s) (other.endList t)
  beginVariant : ∀ s t name arity, R s t →
    R (serializer.beginVariant s name arity) (other.beginVariant t name arity)
  endVariant : ∀ s t, R s t → R (serializer.endVariant s) (other.endVariant t)
  nullValue : ∀ s t, R s t → R (serializer.nullValue s) (other.nullValue t)
  someValue : ∀ s t, R s t → R (serializer.someValue s) (other.someValue t)
  strValue : ∀ s t value, R s t → R (serializer.strValue s value) (other.strValue t value)
  i32Value : ∀ s t value, R s t → R (serializer.i32Value s value) (other.i32Value t value)
  u32Value : ∀ s t value, R s t → R (serializer.u32Value s value) (other.u32Value t value)
  i53Value : ∀ s t value, R s t → R (serializer.i53Value s value) (other.i53Value t value)
  f64Value : ∀ s t value, R s t → R (serializer.f64Value s value) (other.f64Value t value)
  boolValue : ∀ s t value, R s t → R (serializer.boolValue s value) (other.boolValue t value)

section Related

variable {S T : Type} {serializer : Serialize S F} {other : Serialize T F} {R : S → T → Prop}
  (program : Program F H)

theorem describeScalar_related
    (related : serializer.Related other R) (kind : Scalar) (value : Value F) (s : S) (t : T)
    (h : R s t) :
  R (describeScalar serializer kind value s) (describeScalar other kind value t)
  := by
  unfold describeScalar
  split
  any_goals first
    | apply related.boolValue _ _ _ h
    | apply related.i32Value _ _ _ h
    | apply related.u32Value _ _ _ h
    | apply related.i53Value _ _ _ h
    | apply related.f64Value _ _ _ h
    | apply related.strValue _ _ _ h
    | apply h

mutual

/-- Whatever describes itself to both, related states stay related. -/
theorem describe_related
    (related : serializer.Related other R) (type : Ty) (value : Value F) (s : S) (t : T)
    (h : R s t) :
  R (describe program serializer type value s) (describe program other type value t)
  := by
  cases type with
  | scalar kind =>
    simp only [describe]
    apply describeScalar_related related _ _ _ _ h
  | list element =>
    cases value
    case list items =>
      simp only [describe]
      apply related.endList
      apply describeItems_related related
      apply related.beginList _ _ _ h
    all_goals simpa only [describe] using h
  | option element =>
    cases value
    case absent =>
      simp only [describe]
      apply related.nullValue _ _ h
    case present value =>
      simp only [describe]
      apply describe_related related
      apply related.someValue _ _ h
    all_goals simpa only [describe] using h
  | hashMap key value' =>
    cases value
    case map entries =>
      simp only [describe]
      apply related.endList
      apply describeEntries_related related
      apply related.beginList _ _ _ h
    all_goals simpa only [describe] using h
  | named id =>
    cases value
    case struct values =>
      simp only [describe]
      split
      · apply related.endStruct
        apply describeFields_related related
        apply related.beginStruct _ _ _ h
      · apply h
    case variant name payloads =>
      simp only [describe]
      split
      · split
        · apply related.endVariant
          apply describeAll_related related
          apply related.beginVariant _ _ _ _ h
        · apply h
      · split
        · apply describeScalar_related related _ _ _ _ h
        · apply h
      · apply h
    all_goals simpa only [describe] using h

theorem describeItems_related
    (related : serializer.Related other R) (element : Ty) (items : List (Value F)) (s : S) (t : T)
    (h : R s t) :
  R (describeItems program serializer element items s)
    (describeItems program other element items t)
  := by
  cases items with
  | nil => simpa only [describeItems] using h
  | cons item items =>
    simp only [describeItems]
    apply describeItems_related related
    apply describe_related related _ _ _ _ h

theorem describeAll_related
    (related : serializer.Related other R) (types : List Ty) (values : List (Value F)) (s : S)
    (t : T) (h : R s t) :
  R (describeAll program serializer types values s) (describeAll program other types values t)
  := by
  cases types with
  | nil => simpa only [describeAll] using h
  | cons type types =>
    cases values with
    | nil => simpa only [describeAll] using h
    | cons value values =>
      simp only [describeAll]
      apply describeAll_related related
      apply describe_related related _ _ _ _ h

theorem describeFields_related
    (related : serializer.Related other R) (fields : List (Str × Ty)) (values : List (Value F))
    (s : S) (t : T) (h : R s t) :
  R (describeFields program serializer fields values s)
    (describeFields program other fields values t)
  := by
  cases fields with
  | nil => simpa only [describeFields] using h
  | cons field fields =>
    cases values with
    | nil => simpa only [describeFields] using h
    | cons value values =>
      simp only [describeFields]
      apply describeFields_related related
      apply describe_related related
      apply related.field _ _ _ h

theorem describeEntries_related
    (related : serializer.Related other R) (key value : Ty) (entries : List (Value F)) (s : S)
    (t : T) (h : R s t) :
  R (describeEntries program serializer key value entries s)
    (describeEntries program other key value entries t)
  := by
  cases entries with
  | nil => simpa only [describeEntries] using h
  | cons entry entries =>
    cases entry
    case struct fields =>
      match fields with
      | [k, v] =>
          simp only [describeEntries]
          apply describeEntries_related related
          apply related.endStruct
          apply describe_related related
          apply related.field
          apply describe_related related
          apply related.field
          apply related.beginStruct _ _ _ h
      | [] | [_] | _ :: _ :: _ :: _ => simpa only [describeEntries] using h
    all_goals simpa only [describeEntries] using h

end
end Related

/-! ### Rebuilding from a deserializer -/

/-- Every call on a deserializer keeps a property of its state. -/
structure Deserialize.Keeps {D : Type} (deserializer : Deserialize D F) (P : D → Prop) : Prop where
  beginStruct : ∀ d, P d → P (deserializer.beginStruct d)
  field : ∀ d name, P d → P (deserializer.field d name)
  endStruct : ∀ d, P d → P (deserializer.endStruct d)
  beginList : ∀ d, P d → P (deserializer.beginList d).2
  endList : ∀ d, P d → P (deserializer.endList d)
  variantTag : ∀ d, P d → P (deserializer.variantTag d).2
  beginVariant : ∀ d name arity, P d → P (deserializer.beginVariant d name arity)
  endVariant : ∀ d, P d → P (deserializer.endVariant d)
  isNull : ∀ d, P d → P (deserializer.isNull d).2
  nullValue : ∀ d, P d → P (deserializer.nullValue d)
  strValue : ∀ d, P d → P (deserializer.strValue d).2
  i32Value : ∀ d, P d → P (deserializer.i32Value d).2
  u32Value : ∀ d, P d → P (deserializer.u32Value d).2
  i53Value : ∀ d, P d → P (deserializer.i53Value d).2
  f64Value : ∀ d, P d → P (deserializer.f64Value d).2
  boolValue : ∀ d, P d → P (deserializer.boolValue d).2
  fail : ∀ d reason, P d → P (deserializer.fail d reason)

section Rebuild

variable {D : Type} [DecidableEq H] {host : Host F} {program : Program F H}
  {deserializer : Deserialize D F} {P : D → Prop}

variable {values : List (Value F)} {d d' : D} {read : Ty → D → Option (Value F × D)}

theorem rebuildAll_cons {type : Ty} {types : List Ty} :
  rebuildAll read (type :: types) d = some (values, d') ↔
    ∃ value mid others, read type d = some (value, mid) ∧
      rebuildAll read types mid = some (others, d') ∧ values = value :: others
  := by
  simp only [rebuildAll, bind_eq_bind, bind_eq_some_iff, Prod.exists,
    some_inj, Prod.mk.injEq]
  constructor
  · rintro ⟨value, mid, h, others, last, hs, rfl, rfl⟩
    use value, mid, others
  · rintro ⟨value, mid, others, h, hs, rfl⟩
    use value, mid, h, others, d'

theorem rebuildFields_cons {field : Str × Ty} {fields : List (Str × Ty)} :
  rebuildFields deserializer read (field :: fields) d = some (values, d') ↔
    ∃ value mid others, read field.2 (deserializer.field d field.1) = some (value, mid) ∧
      rebuildFields deserializer read fields mid = some (others, d') ∧ values = value :: others
  := by
  simp only [rebuildFields, bind_eq_bind, bind_eq_some_iff, Prod.exists,
    some_inj, Prod.mk.injEq]
  constructor
  · rintro ⟨value, mid, h, others, last, hs, rfl, rfl⟩
    use value, mid, others
  · rintro ⟨value, mid, others, h, hs, rfl⟩
    use value, mid, h, others, d'

theorem rebuildEntries_succ {keyType valueType : Ty} {length : ℕ} {entries : List (Value F)} :
  rebuildEntries program deserializer read keyType valueType (length + 1) entries d =
      some (values, d') ↔
    ∃ key mid value last,
      read keyType (deserializer.field (deserializer.beginStruct d) (ascii "key")) =
        some (key, mid) ∧
      read valueType (deserializer.field mid (ascii "value")) = some (value, last) ∧
      rebuildEntries program deserializer read keyType valueType length
        (insertEntry program.hash entries key value) (deserializer.endStruct last) =
        some (values, d')
  := by
  simp only [rebuildEntries, bind_eq_bind, bind_eq_some_iff, Prod.exists]
  constructor
  · rintro ⟨key, mid, h, value, last, h', hs⟩
    use key, mid, value, last
  · rintro ⟨key, mid, value, last, h, h', hs⟩
    use key, mid, h, value, last, h'

/-- The elements of a list are values of one type, one after the other. -/
theorem rebuildItems_eq
    (read : Ty → D → Option (Value F × D)) (element : Ty) (length : ℕ) (d : D) :
  rebuildItems (read element) length d = rebuildAll read (List.replicate length element) d
  := by
  induction length generalizing d with
  | zero => rfl
  | succ length ih => simp only [rebuildItems, List.replicate_succ, rebuildAll, ih]

end Rebuild

end Vilan.Wire
