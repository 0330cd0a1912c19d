import Vilan.Std.JsonDocument

/-!
# The JSON codec over whole values

The reader stands before a stack of parsed values.  Rebuilding a value of a type takes the value's
document off the stack and leaves what lies below it, whatever that is.
-/

namespace Vilan.Wire

open List Option

open Native (JsonValue)

variable {F H : Type} [DecidableEq H] {host : JsonHost F} {program : Program F H}

namespace JsonReader

/-- The reader that has not failed and stands before a stack. -/
def standing (stack : List (JsonValue Str F)) (marks : List ℕ) : JsonReader F :=
  ⟨stack, none, marks⟩

variable (stack values : List (JsonValue Str F)) (marks : List ℕ) (value : JsonValue Str F)

theorem take_standing :
  (standing (value :: stack) marks).take = (value, standing stack marks)
  := rfl

/-- A value of the wanted kind is let through. -/
theorem expect_standing {wanted : JsonKind} (h : jsonKind value = wanted) (name : Str) :
  (standing stack marks).expect value wanted name = (true, standing stack marks)
  := by
  simp only [expect, standing, ok, isNone_none, Bool.not_true, Bool.false_eq_true, if_false,
    h, if_true]

theorem expect_object (entries : List (Str × JsonValue Str F)) (name : Str) :
  (standing stack marks).expect (.object entries) .object name = (true, standing stack marks)
  := expect_standing _ _ _ rfl _

theorem expect_number (number : F) (name : Str) :
  (standing stack marks).expect (.number number) .number name = (true, standing stack marks)
  := expect_standing _ _ _ rfl _

/-- A list is replaced by its elements, and its mark is kept. -/
theorem beginList_standing :
  (standing (.array values :: stack) marks).beginList =
    (asI32 values.length, standing (values ++ stack) (stack.length :: marks))
  := rfl

theorem endList_standing :
  (standing stack (stack.length :: marks)).endList = standing stack marks
  := by
  simp only [endList, standing, ok, isNone_none, lt_irrefl, and_false, if_false]

/-- The member of an object is pushed. -/
theorem field_standing
    {entries : List (Str × JsonValue Str F)} {name : Str}
    (h : entries.lookup name = some value) :
  (standing (.object entries :: stack) marks).field name =
    standing (value :: .object entries :: stack) marks
  := by
  have top : (standing (.object entries :: stack) marks).top = .object entries := rfl
  simp only [field, top, expect_object, hasJsonField, jsonField, h, isSome_some, if_true, getD_some]
  rfl

theorem beginVariant_one (name : Str) :
  (standing (.object [(name, value)] :: stack) marks).beginVariant name 1 =
    standing (value :: stack) marks
  := by
  simp only [beginVariant, take_standing, expect_object, hasJsonField, jsonField, lookup_cons_self, isSome_some, if_true, zero_lt_one,
    getD_some]
  rfl

theorem beginVariant_several (name : Str) {arity : ℕ} (several : 1 < arity) :
  (standing (.object [(name, .array values)] :: stack) marks).beginVariant name arity =
    standing (values ++ stack) marks
  := by
  have positive : (0 : ℤ) < arity := by omega
  have ne : (arity : ℤ) ≠ 1 := by omega
  simp only [beginVariant, take_standing, expect_object, hasJsonField, jsonField,
    lookup_cons_self, isSome_some, if_true, positive, ne, if_false, getD_some]
  rfl

end JsonReader

open JsonReader

/-! ### Values that are read back -/

/-- A value is read back from its document, and only an option stands for `null`. -/
structure ReadBack (host : JsonHost F) (program : Program F H) (type : Ty) (value : Value F) :
    Prop where
  rebuilds : ∀ stack marks,
    Rebuilds host.toHost program (jsonDeserialize host) (.values [type])
      (standing ((document program type value).json host :: stack) marks) [value]
      (standing stack marks)
  null : (∀ element, type ≠ .option element) →
    jsonIsNull ((document program type value).json host) = false

/-- An integer that the doubles of the host hold exactly. -/
structure JsonHost.Counts (host : JsonHost F) (value : ℤ) : Prop where
  whole : host.isWhole (host.ofInt value) = true
  trunc : host.trunc (host.ofInt value) = value
  negative : 0 ≤ value → host.isNegative (host.ofInt value) = false

/-- What a text carries exactly: integers in their ranges, positions and lengths that fit an
`i32`, and single floats. -/
def jsonCarries (host : JsonHost F) : Carries F where
  scalar
    | .bool, .bool _ => True
    | .i8, .int value => host.Counts value ∧ -128 ≤ value ∧ value < 128
    | .u8, .int value => host.Counts value ∧ 0 ≤ value ∧ value < 256
    | .i16, .int value => host.Counts value ∧ -32768 ≤ value ∧ value < 32768
    | .u16, .int value => host.Counts value ∧ 0 ≤ value ∧ value < 65536
    | .i32, .int value => host.Counts value ∧ -2147483648 ≤ value ∧ value < 2147483648
    | .u32, .int value => host.Counts value ∧ 0 ≤ value ∧ value < 4294967296
    | .usize, .int value => host.Counts value ∧ 0 ≤ value ∧ value < 2147483648
    | .i53, .int value => host.Counts value
    | .u53, .int value => host.Counts value ∧ 0 ≤ value
    | .f32, .float value => host.narrow value = value
    | .f64, .float _ => True
    | .str, .str _ => True
    | _, _ => False
  name _ := True
  length length := length < 2147483648

theorem jsonCarries_shaped
    (kind : Scalar) (value : Value F) (carried : (jsonCarries host).scalar kind value) :
  documentScalar kind value ≠ .null
  := by
  cases kind
  all_goals
    cases value
    all_goals first
      | apply False.elim carried
      | simp only [documentScalar, ne_eq, reduceCtorEq, not_false_eq_true]

/-- A lane of integers reads a number that counts. -/
theorem integerValue_standing
    {value : ℤ} (counts : host.Counts value) {signed : Bool} (sign : signed = true ∨ 0 ≤ value)
    (stack : List (JsonValue Str F)) (marks : List ℕ) :
  (standing (.number (host.ofInt value) :: stack) marks).integerValue host signed =
    (value, standing stack marks)
  := by
  have lane : integerLaneFailure host (.number (host.ofInt value)) signed = none := by
    simp only [integerLaneFailure, coerceNumber, counts.whole, Bool.not_true, Bool.false_eq_true,
      if_false]
    rcases sign with rfl | low
    · rfl
    · simp only [counts.negative low, Bool.and_false, Bool.false_eq_true, if_false]
  simp only [integerValue, take_standing, expectInteger, expect_number, lane, coerceNumber,
    counts.trunc]

/-- A scalar that is carried is read back. -/
theorem rebuildScalar_json
    {kind : Scalar} {value : Value F} (carried : (jsonCarries host).scalar kind value)
    (stack : List (JsonValue Str F)) (marks : List ℕ) :
  rebuildScalar host.toHost (jsonDeserialize host) kind
      (standing ((documentScalar kind value).json host :: stack) marks) =
    (value, standing stack marks)
  := by
  cases kind
  case bool | str =>
    cases value
    all_goals first
      | apply False.elim carried
      | rfl
  case i8 | i16 | i32 | usize =>
    cases value
    case int value =>
      obtain ⟨counts, low, high⟩ := carried
      have lane := integerValue_standing counts (.inl rfl : true = true ∨ 0 ≤ value) stack marks
      have same : asI32 value = value := by
        simp only [asI32, foldSigned, foldUnsigned]
        omega
      simp only [rebuildScalar, documentScalar, Doc.json, jsonDeserialize, same, lane, Prod.map,
        id_eq, Prod.mk.injEq, Value.int.injEq, and_true, asI8, asI16, asUsize, saturateUnsigned,
        foldSigned, foldUnsigned]
      try omega
    all_goals apply False.elim carried
  case u8 | u16 | u32 =>
    cases value
    case int value =>
      obtain ⟨counts, low, high⟩ := carried
      have lane := integerValue_standing counts (.inr low : false = true ∨ 0 ≤ value) stack marks
      have same : asU32 value = value := by
        simp only [asU32, foldUnsigned]
        omega
      simp only [rebuildScalar, documentScalar, Doc.json, jsonDeserialize, same, lane, Prod.map,
        id_eq, Prod.mk.injEq, Value.int.injEq, and_true, asU8, asU16, foldUnsigned]
      try omega
    all_goals apply False.elim carried
  case i53 =>
    cases value
    case int value =>
      have lane := integerValue_standing carried (.inl rfl : true = true ∨ 0 ≤ value) stack marks
      simp only [rebuildScalar, documentScalar, Doc.json, jsonDeserialize, lane, Prod.map, id_eq]
    all_goals apply False.elim carried
  case u53 =>
    cases value
    case int value =>
      obtain ⟨counts, low⟩ := carried
      have lane := integerValue_standing counts (.inl rfl : true = true ∨ 0 ≤ value) stack marks
      simp only [rebuildScalar, documentScalar, Doc.json, jsonDeserialize, lane, Prod.map, id_eq,
        Prod.mk.injEq, Value.int.injEq, and_true, asU53, saturateUnsigned]
      omega
    all_goals apply False.elim carried
  case f32 =>
    cases value
    case float value =>
      simp only [rebuildScalar, documentScalar, Doc.json, jsonDeserialize, f64Value, take_standing,
        expect_number, coerceNumber, Prod.map, id_eq]
      rw [show host.narrow value = value from carried]
    all_goals apply False.elim carried
  case f64 =>
    cases value
    case float value =>
      simp only [rebuildScalar, documentScalar, Doc.json, jsonDeserialize, f64Value, take_standing,
        expect_number, coerceNumber, Prod.map, id_eq]
    all_goals apply False.elim carried

theorem asI32_of_length {length : ℕ} (h : length < 2147483648) : asI32 length = length := by
  simp only [asI32, foldSigned, foldUnsigned]
  omega

/-- No option stands directly inside an option. -/
def Ty.Flat : Ty → Prop
  | .scalar _ => True
  | .list element => element.Flat
  | .option element => (∀ inner, element ≠ .option inner) ∧ element.Flat
  | .hashMap key value => key.Flat ∧ value.Flat
  | .named _ => True

/-- No option stands directly inside an option in what is declared, and the names of a struct's
fields are distinct. -/
structure Program.Flat (program : Program F H) : Prop where
  fields : ∀ id fields, program.decl id = .struct fields → ∀ field ∈ fields, field.2.Flat
  names : ∀ id fields, program.decl id = .struct fields → (fields.map Prod.fst).Nodup
  payloads : ∀ id variants fallback, program.decl id = .enum variants fallback →
    ∀ variant ∈ variants, ∀ type ∈ variant.2, type.Flat

abbrev AllReadBack (host : JsonHost F) (program : Program F H) (types : List Ty)
    (values : List (Value F)) : Prop :=
  List.Forall₂ (ReadBack host program) types values

/-- A list is read when its elements are, behind its mark. -/
theorem rebuilds_list
    {element : Ty} {items : List (Value F)} {jsons stack : List (JsonValue Str F)} {marks : List ℕ}
    (short : jsons.length < 2147483648)
    (h : Rebuilds host.toHost program (jsonDeserialize host)
      (.values (List.replicate jsons.length element))
      (standing (jsons ++ stack) (stack.length :: marks)) items
      (standing stack (stack.length :: marks))) :
  Rebuilds host.toHost program (jsonDeserialize host) (.values [.list element])
    (standing (.array jsons :: stack) marks) [.list items] (standing stack marks)
  := by
  have begun := beginList_standing stack jsons marks
  have closed : (jsonDeserialize host).endList (standing stack (stack.length :: marks)) =
    standing stack marks := endList_standing stack marks
  rw [asI32_of_length short] at begun
  rw [← closed]
  apply Rebuilds.list
  simp only [jsonDeserialize]
  rw [begun, Int.toNat_natCast]
  apply h

variable {key value : Ty} {types : List Ty} {values : List (Value F)}

/-- A map is read when its entries are, behind its mark. -/
theorem rebuilds_map {entries : List (Value F)} {jsons stack : List (JsonValue Str F)}
    {marks : List ℕ} (short : jsons.length < 2147483648)
    (h : Rebuilds host.toHost program (jsonDeserialize host) (.entries key value jsons.length [])
      (standing (jsons ++ stack) (stack.length :: marks)) entries
      (standing stack (stack.length :: marks))) :
  Rebuilds host.toHost program (jsonDeserialize host) (.values [.hashMap key value])
    (standing (.array jsons :: stack) marks) [.map entries] (standing stack marks)
  := by
  have begun := beginList_standing stack jsons marks
  have closed : (jsonDeserialize host).endList (standing stack (stack.length :: marks)) =
    standing stack marks := endList_standing stack marks
  rw [asI32_of_length short] at begun
  rw [← closed]
  apply Rebuilds.map
  simp only [jsonDeserialize]
  rw [begun, Int.toNat_natCast]
  apply h

/-- The documents of values on the stack are taken off it, one after the other. -/
theorem AllReadBack.rebuilds (h : AllReadBack host program types values)
    (stack : List (JsonValue Str F)) (marks : List ℕ) :
  Rebuilds host.toHost program (jsonDeserialize host) (.values types)
    (standing (Doc.jsonItems host (documentAll program types values) ++ stack) marks) values
    (standing stack marks)
  := by
  induction h with
  | nil =>
    simp only [documentAll, Doc.jsonItems, nil_append]
    apply Rebuilds.nil
  | cons first _ ih =>
    simp only [documentAll, Doc.jsonItems, cons_append]
    apply Rebuilds.cons (first.rebuilds _ marks) ih

theorem documentItems_eq (element : Ty) (items : List (Value F)) :
  documentItems program element items =
    documentAll program (List.replicate items.length element) items
  := by
  induction items with
  | nil => simp only [documentItems, length_nil, replicate_zero, documentAll]
  | cons item items ih =>
    simp only [documentItems, length_cons, replicate_succ, documentAll, ih]

theorem length_jsonItems (docs : List (Doc F)) :
  (Doc.jsonItems host docs).length = docs.length
  := by
  induction docs with
  | nil => rfl
  | cons doc docs ih => simp only [Doc.jsonItems, length_cons, ih]

theorem length_documentItems (element : Ty) (items : List (Value F)) :
  (documentItems program element items).length = items.length
  := by
  induction items with
  | nil => rfl
  | cons item items ih => simp only [documentItems, length_cons, ih]

/-- The fields of a struct are read from the object on top, which stays. -/
theorem rebuilds_fields {fields : List (Str × Ty)}
    (h : AllReadBack host program (fields.map Prod.snd) values)
    (entries : List (Str × JsonValue Str F)) (stack : List (JsonValue Str F)) (marks : List ℕ)
    (members : List.Forall₂ (fun name json => entries.lookup name = some json)
      (fields.map Prod.fst) (Doc.jsonItems host (documentFields program fields values))) :
  Rebuilds host.toHost program (jsonDeserialize host) (.fields fields)
    (standing (.object entries :: stack) marks) values (standing (.object entries :: stack) marks)
  := by
  induction fields generalizing values with
  | nil =>
    cases h
    apply Rebuilds.noFields
  | cons field fields ih =>
    cases h with
    | cons first others =>
    simp only [map_cons, documentFields, Doc.jsonItems, List.forall₂_cons] at members
    have pushed := field_standing stack marks _ members.1
    apply Rebuilds.field _ (ih others members.2)
    simp only [jsonDeserialize] at pushed ⊢
    rw [pushed]
    apply first.rebuilds

/-- The members of an object with distinct names are found under their names. -/
theorem lookup_zip
    {names : List Str} {members : List (JsonValue Str F)} (nodup : names.Nodup)
    (length : names.length = members.length) :
  List.Forall₂ (fun name json => (names.zip members).lookup name = some json) names members
  := by
  induction names generalizing members with
  | nil =>
    obtain rfl := eq_nil_of_length_eq_zero length.symm
    apply List.Forall₂.nil
  | cons name names ih =>
    match members, length with
    | member :: members, length =>
        obtain ⟨new, nodup⟩ := nodup_cons.mp nodup
        apply List.Forall₂.cons
        · simp only [zip_cons_cons, lookup_cons_self]
        · have others := ih nodup (Nat.succ.inj length)
          have within := (List.forall₂_and_left names members).mpr ⟨fun _ mem => mem, others⟩
          apply within.imp
          rintro other json ⟨mem, found⟩
          have ne : (other == name) = false := by
            apply beq_eq_false_iff_ne.mpr
            rintro rfl
            apply new mem
          simp only [zip_cons_cons, List.lookup_cons, ne, found]

theorem documentEntries_cons
    (key value : Ty) (pair : Value F × Value F) (pairs : List (Value F × Value F)) :
  documentEntries program key value (entriesOf (pair :: pairs)) =
    .object [ascii "key", ascii "value"]
        [document program key pair.1, document program value pair.2] ::
      documentEntries program key value (entriesOf pairs)
  := by
  simp only [entriesOf, map_cons, documentEntries]

/-- The pairs of a map are read from objects on the stack, and inserted. -/
theorem rebuilds_entries {pairs : List (Value F × Value F)}
    (h : AllReadBack host program (pairTypes key value pairs.length) (pairValues pairs))
    (before : List (Value F × Value F)) (stack : List (JsonValue Str F)) (marks : List ℕ) :
  Rebuilds host.toHost program (jsonDeserialize host)
    (.entries key value pairs.length (entriesOf before))
    (standing
      (Doc.jsonItems host (documentEntries program key value (entriesOf pairs)) ++ stack) marks)
    (entriesOf (insertAll program.hash before pairs)) (standing stack marks)
  := by
  induction pairs generalizing before with
  | nil =>
    simp only [entriesOf, map_nil, documentEntries, Doc.jsonItems, nil_append]
    apply Rebuilds.noEntries
  | cons pair pairs ih =>
    obtain ⟨first, h⟩ := List.forall₂_cons.mp h
    obtain ⟨second, others⟩ := List.forall₂_cons.mp h
    have ne : (ascii "value" == ascii "key") = false := by decide
    have keyed (json other : JsonValue Str F) :
        [(ascii "key", json), (ascii "value", other)].lookup (ascii "key") = some json := by
      simp only [List.lookup_cons, beq_self_eq_true]
    have valued (json other : JsonValue Str F) :
        [(ascii "key", other), (ascii "value", json)].lookup (ascii "value") = some json := by
      simp only [List.lookup_cons, ne, beq_self_eq_true]
    simp only [documentEntries_cons, Doc.jsonItems, Doc.json, cons_append,
      zip_cons_cons, zip_nil_left]
    have pushedKey := field_standing
      (Doc.jsonItems host (documentEntries program key value (entriesOf pairs)) ++ stack) marks
      _ (keyed ((document program key pair.1).json host)
        ((document program value pair.2).json host))
    have pushedValue := field_standing
      (Doc.jsonItems host (documentEntries program key value (entriesOf pairs)) ++ stack) marks
      _ (valued ((document program value pair.2).json host)
        ((document program key pair.1).json host))
    apply Rebuilds.entry (d := standing _ marks)
    · simp only [jsonDeserialize]
      rw [pushedKey]
      apply first.rebuilds
    · simp only [jsonDeserialize]
      rw [pushedValue]
      apply second.rebuilds
    · rw [insertEntry_entriesOf]
      apply ih others

theorem length_documentEntries (key value : Ty) (pairs : List (Value F × Value F)) :
  (documentEntries program key value (entriesOf pairs)).length = pairs.length
  := by
  induction pairs with
  | nil => rfl
  | cons pair pairs ih => rw [documentEntries_cons, length_cons, ih, length_cons]

theorem length_documentFields {fields : List (Str × Ty)}
    (h : AllReadBack host program (fields.map Prod.snd) values) :
  (documentFields program fields values).length = fields.length
  := by
  induction fields generalizing values with
  | nil =>
    cases h
    rfl
  | cons field fields ih =>
    cases h with
    | cons _ others => simp only [documentFields, length_cons, ih others]

theorem forall_mem_pairTypes {P : Ty → Prop} (hk : P key) (hv : P value) {length : ℕ} :
  ∀ type ∈ pairTypes key value length, P type
  := by
  induction length with
  | zero => simp only [pairTypes, not_mem_nil, false_imp_iff, implies_true]
  | succ length ih =>
    rw [pairTypes, forall_mem_cons, forall_mem_cons]
    use hk, hv

theorem mem_of_lookup {α : Type} {name : Str} {value : α} {entries : List (Str × α)}
    (h : entries.lookup name = some value) :
  (name, value) ∈ entries
  := by
  induction entries with
  | nil => simp only [lookup_nil, reduceCtorEq] at h
  | cons entry entries ih =>
    rw [List.lookup_cons] at h
    split at h
    next heq =>
      obtain rfl := beq_iff_eq.mp heq
      obtain rfl := Option.some.inj h
      apply mem_cons_self
    next => apply mem_cons_of_mem _ (ih h)

theorem documentVariant_null (name : Str) (payloads : List (Doc F)) :
  jsonIsNull ((documentVariant name payloads).json host) = false
  := by
  match payloads with
  | [] | [_] | _ :: _ :: _ => rfl

/-- A variant is read back from its document. -/
theorem rebuilds_variant {id : ℕ} {variants : List (Str × List Ty)} {fallback : Fallback F}
    {name : Str} {payloads : List (Value F)} (h : AllReadBack host program types payloads)
    (decl : program.decl id = .enum variants fallback) (known : variants.lookup name = some types)
    (stack : List (JsonValue Str F)) (marks : List ℕ) :
  Rebuilds host.toHost program (jsonDeserialize host) (.values [.named id])
    (standing
      ((documentVariant name (documentAll program types payloads)).json host :: stack) marks)
    [.variant name payloads] (standing stack marks)
  := by
  have read := AllReadBack.rebuilds h stack marks
  cases h with
  | nil =>
    simp only [documentAll, documentVariant, Doc.json, Doc.jsonItems, nil_append] at read ⊢
    have variant : Rebuilds host.toHost program (jsonDeserialize host) (.values [.named id])
        (standing (.text name :: stack) marks) [.variant name []] (standing stack marks) := by
      apply Rebuilds.variant (d := standing (.text name :: stack) marks) decl known
      apply read
    apply variant
  | @cons type payload types payloads first others =>
    cases others with
    | nil =>
      simp only [documentAll, documentVariant, Doc.json, Doc.jsonItems, cons_append,
        nil_append, zip_cons_cons, zip_nil_left] at read ⊢
      have begun := beginVariant_one stack marks ((document program type payload).json host) name
      rw [← begun] at read
      apply Rebuilds.variant
        (d := standing (.object [(name, (document program type payload).json host)] :: stack) marks)
        decl known read
    | @cons next other types payloads second others =>
      simp only [documentAll, documentVariant, Doc.json, zip_cons_cons, zip_nil_left] at read ⊢
      have several : 1 < (type :: next :: types).length := by
        simp only [length_cons]
        omega
      have begun := beginVariant_several stack
        (Doc.jsonItems host (document program type payload :: document program next other ::
          documentAll program types payloads)) marks name several
      rw [← begun] at read
      simp only [Doc.jsonItems] at read ⊢
      apply Rebuilds.variant (d := standing _ marks) decl known read

/-- Values that have types are read back from their documents. -/
theorem HasTypes.readBack (wellFormed : program.WellFormed) (flat : program.Flat)
    (h : HasTypes program (jsonCarries host) types values) (flats : ∀ type ∈ types, type.Flat) :
  AllReadBack host program types values
  := by
  induction h with
  | nil => apply List.Forall₂.nil
  | cons _ _ ih ihs =>
    obtain ⟨first, others⟩ := forall_mem_cons.mp flats
    apply List.Forall₂.cons _ (ihs others)
    apply (List.forall₂_cons.mp (ih (forall_mem_singleton.mpr first))).1
  | @scalar kind value carried =>
    apply List.Forall₂.cons _ .nil
    constructor
    · intro stack marks
      have scalar : Rebuilds host.toHost program (jsonDeserialize host) (.values [.scalar kind])
          (standing ((documentScalar kind value).json host :: stack) marks) _ _ :=
        .scalar kind _
      rw [rebuildScalar_json carried] at scalar
      rw [document]
      apply scalar
    · intro _
      have ne := jsonCarries_shaped kind value carried
      rw [document]
      cases heq : documentScalar kind value
      case null => apply absurd heq ne
      all_goals rfl
  | @list element items carried _ ih =>
    apply List.Forall₂.cons _ .nil
    constructor
    · intro stack marks
      have elements := (ih (fun type mem => by
        rw [eq_of_mem_replicate mem]
        apply (forall_mem_singleton.mp flats)))
      have length : (Doc.jsonItems host (documentItems program element items)).length =
          items.length := by
        rw [length_jsonItems, length_documentItems]
      have read := AllReadBack.rebuilds elements stack (stack.length :: marks)
      rw [← documentItems_eq, ← length] at read
      rw [document, Doc.json]
      apply rebuilds_list (by rw [length]; apply carried) read
    · intro _
      rw [document, Doc.json]
      rfl
  | absent =>
    apply List.Forall₂.cons _ .nil
    constructor
    · intro stack marks
      rw [document, Doc.json]
      apply Rebuilds.absent
      rfl
    · intro ne
      apply absurd rfl (ne _)
  | @present element value _ ih =>
    obtain ⟨⟨single, flat⟩, _⟩ := forall_mem_cons.mp flats
    have inner := (List.forall₂_cons.mp (ih (forall_mem_singleton.mpr flat))).1
    apply List.Forall₂.cons _ .nil
    constructor
    · intro stack marks
      have notNull := inner.null single
      rw [document]
      apply Rebuilds.present (d := standing _ marks)
      · apply notNull
      · apply inner.rebuilds
    · intro ne
      apply absurd rfl (ne _)
  | @map key value pairs carried distinct _ ih =>
    obtain ⟨flatKey, flatValue⟩ := forall_mem_singleton.mp flats
    apply List.Forall₂.cons _ .nil
    constructor
    · intro stack marks
      have elements := ih (forall_mem_pairTypes flatKey flatValue)
      have length : (Doc.jsonItems host
          (documentEntries program key value (entriesOf pairs))).length = pairs.length := by
        rw [length_jsonItems, length_documentEntries]
      have read := rebuilds_entries elements [] stack (stack.length :: marks)
      rw [insertAll_nil program.hash distinct, ← length] at read
      rw [document, Doc.json]
      apply rebuilds_map (by rw [length]; apply carried) read
    · intro _
      rw [document, Doc.json]
      rfl
  | @struct id fields values decl _ ih =>
    have elements := ih (fun type mem => by
      obtain ⟨field, member, rfl⟩ := List.mem_map.mp mem
      apply flat.fields id fields decl field member)
    apply List.Forall₂.cons _ .nil
    constructor
    · intro stack marks
      have length : (fields.map Prod.fst).length =
          (Doc.jsonItems host (documentFields program fields values)).length := by
        rw [length_jsonItems, length_documentFields elements, length_map]
      have members := lookup_zip (flat.names id fields decl) length
      have read := rebuilds_fields elements _ stack marks members
      rw [document]
      simp only [decl]
      rw [Doc.json]
      apply Rebuilds.struct (d := standing _ marks) decl read
    · intro _
      rw [document]
      simp only [decl]
      rfl
  | @variant id variants fallback name types payloads decl known _ _ ih =>
    have elements := ih (flat.payloads id variants fallback decl (name, types)
      (mem_of_lookup known))
    apply List.Forall₂.cons _ .nil
    constructor
    · intro stack marks
      rw [document]
      simp only [decl, known]
      apply rebuilds_variant elements decl known
    · intro _
      rw [document]
      simp only [decl, known]
      apply documentVariant_null
  | @backed id name first variant backing values value decl mem carried =>
    apply List.Forall₂.cons _ .nil
    have lookup := wellFormed.lookup decl mem
    constructor
    · intro stack marks
      have scalar := rebuildScalar_json carried stack marks
      have backed : Rebuilds host.toHost program (jsonDeserialize host) (.values [.named id])
          (standing ((documentScalar backing value).json host :: stack) marks)
          [.variant variant []] _ :=
        .backed decl (by rw [scalar]; apply wellFormed.parse decl mem)
      rw [scalar] at backed
      rw [document]
      simp only [decl, lookup]
      apply backed
    · intro _
      have ne := jsonCarries_shaped backing value carried
      rw [document]
      simp only [decl, lookup]
      cases heq : documentScalar backing value
      case null => apply absurd heq ne
      all_goals rfl

/-! ### The round trip -/

/-- The parser gives back a document from its compact text. -/
def JsonHost.Parses (host : JsonHost F) (doc : Doc F) : Prop :=
  host.parse (render host doc) = some (doc.json host)

omit [DecidableEq H] in
/-- An encoded value is the compact text of its document. -/
theorem encodeJson_eq
    (wellFormed : program.WellFormed) {type : Ty} {value : Value F}
    (typed : HasTypes program (jsonCarries host) [type] [value]) :
  encodeJson host program type value = render host (document program type value)
  := by
  have all : AllWritten host program [type] [value] :=
    typed.written wellFormed jsonCarries_shaped
  have written := (List.forall₂_cons.mp all).1
  rw [encodeJson, written]
  rfl

/-- A text decodes as one thing only. -/
theorem DecodesJson.unique
    {type : Ty} {text : Str} {result result' : Except Str (Value F)}
    (h : DecodesJson host program type text result)
    (h' : DecodesJson host program type text result') :
  result = result'
  := by
  obtain ⟨depth, h⟩ := h
  obtain ⟨depth', h'⟩ := h'
  obtain ⟨⟨value, reader⟩, hr, rfl⟩ := map_eq_some_iff.mp h
  obtain ⟨⟨value', reader'⟩, hr', rfl⟩ := map_eq_some_iff.mp h'
  obtain ⟨values, rfl⟩ :=
    (Rebuilds.of_rebuild depth _ _ _ _ hr).unique (Rebuilds.of_rebuild depth' _ _ _ _ hr')
  rw [(List.cons.inj values).1]

/-- A host whose numbers are integers, and which parses two texts. -/
def wholeHost : JsonHost ℤ where
  encodeUtf8 text := text.map fun unit => unit.toUInt8
  decodeUtf8 bytes := bytes.map fun b => b.toUInt16
  toBits value := value.toNat.toUInt64
  ofBits bits := bits.toNat
  ofInt value := value
  trunc value := value
  narrow value := value
  stringify text := ascii "\"" ++ text ++ ascii "\""
  showInt value := ascii (toString value)
  showFloat value := ascii (toString value)
  parse text :=
    if text = ascii "[true]" then some (.array [.bool true])
    else if text = ascii "-2147483648" then some (.number (-2147483648))
    else none
  isWhole _ := true
  isNegative value := value < 0

/-- A program whose every type is a struct without fields, and whose keys are flags. -/
def emptyProgram : Program ℤ Bool where
  decl _ := .struct []
  hash
    | .bool value => value
    | _ => false

end Vilan.Wire
