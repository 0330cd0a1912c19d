import Vilan.Std.JsonWire
import Vilan.Std.Typed

/-!
# Documents

A value of a wire type stands for a JSON document, and what the writer writes is the compact text
of that document: the separator flag is off exactly before the first item of a level.
-/

namespace Vilan.Wire

open List

open Native (JsonValue)

variable {F H : Type}

/-- A JSON document: the names of an object stand beside its members. -/
inductive Doc (F : Type) where
  | null
  | bool (value : Bool)
  | int (value : ℤ)
  | float (value : F)
  | text (value : Str)
  | list (items : List (Doc F))
  | object (names : List Str) (members : List (Doc F))

/-! ### The document of a value -/

/-- The document of a scalar, in its lane. -/
def documentScalar : Scalar → Value F → Doc F
  | .bool, .bool value => .bool value
  | .i8, .int value => .int (asI32 value)
  | .u8, .int value => .int (asU32 value)
  | .i16, .int value => .int (asI32 value)
  | .u16, .int value => .int (asU32 value)
  | .i32, .int value => .int value
  | .u32, .int value => .int value
  | .i53, .int value => .int value
  | .u53, .int value => .int value
  | .usize, .int value => .int (asI32 value)
  | .f32, .float value => .float value
  | .f64, .float value => .float value
  | .str, .str value => .text value
  | _, _ => .null

/-- An enum value without payloads is its name, and one with payloads is an object with one
member, which is a list when there are several. -/
def documentVariant (name : Str) : List (Doc F) → Doc F
  | [] => .text name
  | [payload] => .object [name] [payload]
  | payloads => .object [name] [.list payloads]

section Document

variable (program : Program F H)

mutual

/-- The document that a value of a type stands for. -/
def document : Ty → Value F → Doc F
  | .scalar kind, value => documentScalar kind value
  | .list element, .list items => .list (documentItems element items)
  | .option _, .absent => .null
  | .option element, .present value => document element value
  | .hashMap key value, .map entries => .list (documentEntries key value entries)
  | .named id, .struct values =>
      match program.decl id with
      | .struct fields => .object (fields.map Prod.fst) (documentFields fields values)
      | _ => .null
  | .named id, .variant name payloads =>
      match program.decl id with
      | .enum variants _ =>
          match variants.lookup name with
          | some types => documentVariant name (documentAll types payloads)
          | none => .null
      | .backed _ backing _ values =>
          match values.lookup name with
          | some value => documentScalar backing value
          | none => .null
      | _ => .null
  | _, _ => .null

def documentItems (element : Ty) : List (Value F) → List (Doc F)
  | [] => []
  | item :: items => document element item :: documentItems element items

def documentAll : List Ty → List (Value F) → List (Doc F)
  | type :: types, value :: values => document type value :: documentAll types values
  | _, _ => []

def documentFields : List (Str × Ty) → List (Value F) → List (Doc F)
  | field :: fields, value :: values => document field.2 value :: documentFields fields values
  | _, _ => []

def documentEntries (key value : Ty) : List (Value F) → List (Doc F)
  | .struct [k, v] :: entries =>
      .object [ascii "key", ascii "value"] [document key k, document value v] ::
        documentEntries key value entries
  | _ => []

end

end Document

/-! ### The text and the value of a document -/

section Render

variable (host : JsonHost F)

/-- A separator, where one is due. -/
def separator (comma : Bool) : Str :=
  if comma then ascii "," else []

mutual

/-- The compact text of a document. -/
def render : Doc F → Str
  | .null => ascii "null"
  | .bool value => if value then ascii "true" else ascii "false"
  | .int value => host.showInt value
  | .float value => host.showFloat value
  | .text value => host.stringify value
  | .list items => ascii "[" ++ renderItems false items ++ ascii "]"
  | .object names members => ascii "\x7b" ++ renderMembers false names members ++ ascii "\x7d"

def renderItems (comma : Bool) : List (Doc F) → Str
  | [] => []
  | item :: items => separator comma ++ render item ++ renderItems true items

def renderMembers (comma : Bool) : List Str → List (Doc F) → Str
  | name :: names, value :: values =>
      separator comma ++ host.stringify name ++ ascii ":" ++ render value ++
        renderMembers true names values
  | _, _ => []

end

mutual

/-- The value that the text of a document is parsed as. -/
def Doc.json : Doc F → JsonValue Str F
  | .null => .null
  | .bool value => .bool value
  | .int value => .number (host.ofInt value)
  | .float value => .number value
  | .text value => .text value
  | .list items => .array (Doc.jsonItems items)
  | .object names members => .object (names.zip (Doc.jsonItems members))

def Doc.jsonItems : List (Doc F) → List (JsonValue Str F)
  | [] => []
  | item :: items => Doc.json item :: Doc.jsonItems items

end

end Render

/-! ### What the writer writes -/

variable {host : JsonHost F} {program : Program F H}

namespace JsonWriter

/-- A writer has written a text at the level of another. -/
structure Extends (writer : JsonWriter) (text : Str) (after : JsonWriter) : Prop where
  out : after.out = writer.out ++ text
  savedCommas : after.savedCommas = writer.savedCommas
  variantArities : after.variantArities = writer.variantArities

theorem Extends.refl (writer : JsonWriter) : writer.Extends [] writer where
  out := (append_nil _).symm
  savedCommas := rfl
  variantArities := rfl

variable {after writer : JsonWriter} {text : Str}

theorem Extends.trans {mid : JsonWriter} {other : Str} (h : writer.Extends text mid)
    (h' : mid.Extends other after) :
  writer.Extends (text ++ other) after where
  out := by rw [h'.out, h.out, append_assoc]
  savedCommas := h'.savedCommas.trans h.savedCommas
  variantArities := h'.variantArities.trans h.variantArities

theorem value_extends (writer : JsonWriter) (text : Str) :
  writer.Extends (separator writer.pendingComma ++ text) (writer.value text)
  := by
  constructor
  · rw [JsonWriter.value, separator]
    dsimp only
    split
    · rw [append_assoc]
    · rfl
  · rfl
  · rfl

theorem field_extends (host : JsonHost F) (writer : JsonWriter) (name : Str) :
  writer.Extends (separator writer.pendingComma ++ host.stringify name ++ ascii ":")
    (writer.field host name)
  := by
  constructor
  · rw [JsonWriter.field, separator]
    dsimp only
    split
    · simp only [append_assoc]
    · simp only [nil_append, append_assoc]
  · rfl
  · rfl

/-- Two writers are the same when they have written the same at one level. -/
theorem Extends.unique {after' : JsonWriter} (h : writer.Extends text after)
    (h' : writer.Extends text after') (comma : after.pendingComma = after'.pendingComma) :
  after = after'
  := by
  obtain ⟨out, commas, arities⟩ := h
  obtain ⟨out', commas', arities'⟩ := h'
  cases after
  cases after'
  simp only [JsonWriter.mk.injEq]
  exact ⟨out.trans out'.symm, comma, commas.trans commas'.symm, arities.trans arities'.symm⟩

/-- An aggregate is one value: what is written inside, between its brackets. -/
theorem Extends.close {opener : Str} (h : (writer.opened opener).Extends text after)
    (closer : Str) :
  after.close closer = writer.value (opener ++ text ++ closer)
  := by
  have opened := value_extends writer opener
  have closed := value_extends writer (opener ++ text ++ closer)
  have same : writer.Extends (separator writer.pendingComma ++ (opener ++ text ++ closer))
      (after.close closer) := by
    constructor
    · simp only [JsonWriter.close, h.out, JsonWriter.opened, opened.out, append_assoc]
    · simp only [JsonWriter.close, h.savedCommas, JsonWriter.opened, tail_cons]
      rfl
    · simp only [JsonWriter.close, h.variantArities, JsonWriter.opened]
      rfl
  apply same.unique closed
  simp only [JsonWriter.close, h.savedCommas, JsonWriter.opened, head?_cons, Option.getD_some]
  rfl

/-- A variant with payloads is one value: its object is closed behind what was written inside. -/
theorem Extends.endVariant {arity : ℤ} (positive : 0 < arity)
    (h : ({ writer with variantArities := arity :: writer.variantArities }.opened
      (ascii "\x7b")).Extends text after) :
  after.endVariant =
    writer.value (ascii "\x7b" ++ (text ++ if 1 < arity then ascii "]" else []) ++ ascii "\x7d")
  := by
  have popped : (writer.opened (ascii "\x7b")).Extends
      (text ++ if 1 < arity then ascii "]" else [])
      { after with
        out := after.out ++ if 1 < arity then ascii "]" else []
        variantArities := writer.variantArities } := by
    constructor
    · simp only [h.out, append_assoc]
      rfl
    · apply h.savedCommas
    · rfl
  rw [← popped.close]
  rw [JsonWriter.endVariant]
  simp only [h.variantArities, JsonWriter.opened, JsonWriter.value, head?_cons,
    Option.getD_some, tail_cons, positive, if_true]
  split
  · rfl
  · rw [append_nil]

end JsonWriter

/-- A value is written as the text of its document. -/
def Written (host : JsonHost F) (program : Program F H) (type : Ty) (value : Value F) : Prop :=
  ∀ writer : JsonWriter, describe program (jsonSerialize host) type value writer =
    writer.value (render host (document program type value))

theorem describeScalar_written
    {kind : Scalar} {value : Value F} (writer : JsonWriter)
    (h : documentScalar kind value ≠ .null) :
  describeScalar (jsonSerialize host) kind value writer =
    writer.value (render host (documentScalar kind value))
  := by
  unfold describeScalar documentScalar at *
  split
  any_goals simp only [jsonSerialize, render]
  simp_all

/-- Whether the values of types are written as the texts of their documents, each. -/
def AllWritten (host : JsonHost F) (program : Program F H) (types : List Ty)
    (values : List (Value F)) : Prop :=
  List.Forall₂ (Written host program) types values

theorem describeItems_written
    {element : Ty} {items : List (Value F)}
    (h : AllWritten host program (List.replicate items.length element) items)
    (writer : JsonWriter) :
  writer.Extends
    (renderItems host writer.pendingComma (documentItems program element items))
    (describeItems program (jsonSerialize host) element items writer)
  := by
  induction items generalizing writer with
  | nil =>
    simp only [documentItems, renderItems, describeItems]
    apply JsonWriter.Extends.refl
  | cons item items ih =>
    obtain ⟨first, others⟩ := List.forall₂_cons.mp h
    simp only [documentItems, renderItems, describeItems]
    rw [first writer]
    apply (JsonWriter.value_extends _ _).trans
    apply ih others

variable {types : List Ty} {values : List (Value F)}

theorem describeAll_written (h : AllWritten host program types values) (writer : JsonWriter) :
  writer.Extends (renderItems host writer.pendingComma (documentAll program types values))
    (describeAll program (jsonSerialize host) types values writer)
  := by
  induction h generalizing writer with
  | nil =>
    simp only [documentAll, renderItems, describeAll]
    apply JsonWriter.Extends.refl
  | cons first _ ih =>
    simp only [documentAll, renderItems, describeAll]
    rw [first writer]
    apply (JsonWriter.value_extends _ _).trans
    apply ih

theorem describeFields_written {fields : List (Str × Ty)}
    (h : AllWritten host program (fields.map Prod.snd) values) (writer : JsonWriter) :
  writer.Extends
    (renderMembers host writer.pendingComma (fields.map Prod.fst)
      (documentFields program fields values))
    (describeFields program (jsonSerialize host) fields values writer)
  := by
  induction fields generalizing values writer with
  | nil =>
    simp only [map_nil, renderMembers, describeFields]
    apply JsonWriter.Extends.refl
  | cons field fields ih =>
    cases h with
    | @cons _ value _ values first others =>
      simp only [map_cons, documentFields, renderMembers, describeFields]
      have named := JsonWriter.field_extends host writer field.1
      have written := JsonWriter.value_extends (writer.field host field.1)
        (render host (document program field.2 value))
      have step : describe program (jsonSerialize host) field.2 value
          ((jsonSerialize host).field writer field.1) =
            (writer.field host field.1).value (render host (document program field.2 value)) :=
        first _
      rw [step]
      apply (named.trans written).trans
      apply ih others

/-- The pairs of a map are written as objects with two members. -/
theorem describeEntries_written
    {key value : Ty} {pairs : List (Value F × Value F)}
    (h : AllWritten host program (pairTypes key value pairs.length) (pairValues pairs))
    (writer : JsonWriter) :
  writer.Extends
    (renderItems host writer.pendingComma (documentEntries program key value (entriesOf pairs)))
    (describeEntries program (jsonSerialize host) key value (entriesOf pairs) writer)
  := by
  induction pairs generalizing writer with
  | nil =>
    simp only [entriesOf, map_nil, documentEntries, renderItems, describeEntries]
    apply JsonWriter.Extends.refl
  | cons pair pairs ih =>
    obtain ⟨first, h⟩ := List.forall₂_cons.mp h
    obtain ⟨second, others⟩ := List.forall₂_cons.mp h
    simp only [entriesOf, map_cons, documentEntries, renderItems, describeEntries] at ih ⊢
    have both : AllWritten host program
        ([(ascii "key", key), (ascii "value", value)].map Prod.snd) [pair.1, pair.2] :=
      .cons first (.cons second .nil)
    have entry : (jsonSerialize host).endStruct
          (describeFields program (jsonSerialize host)
            [(ascii "key", key), (ascii "value", value)] [pair.1, pair.2]
            ((jsonSerialize host).beginStruct writer 2)) =
        writer.value (render host (.object [ascii "key", ascii "value"]
          [document program key pair.1, document program value pair.2])) :=
      (describeFields_written both (writer.opened (ascii "\x7b"))).close (ascii "\x7d")
    simp only [describeFields] at entry
    rw [entry]
    apply (JsonWriter.value_extends _ _).trans
    apply ih others

/-- The inside of a variant with payloads begins with its name. -/
theorem beginVariant_extends (host : JsonHost F) (writer : JsonWriter) (name : Str) {arity : ℤ}
    (positive : 0 < arity) :
  ({ writer with variantArities := arity :: writer.variantArities }.opened (ascii "\x7b")).Extends
      (host.stringify name ++ ascii ":" ++ if 1 < arity then ascii "[" else [])
      (writer.beginVariant host name arity) ∧
    (writer.beginVariant host name arity).pendingComma = false
  := by
  have ne : arity ≠ 0 := by omega
  by_cases several : 1 < arity
  · simp only [JsonWriter.beginVariant, ne, several, if_true, if_false]
    constructor
    · constructor
      · simp only [append_assoc]
      · rfl
      · rfl
    · trivial
  · simp only [JsonWriter.beginVariant, ne, several, if_false]
    constructor
    · constructor
      · simp only [append_assoc, append_nil]
      · rfl
      · rfl
    · trivial

/-- A variant is written as its name, or as an object with its payloads. -/
theorem describeVariant_written {payloads : List (Value F)}
    (h : AllWritten host program types payloads) (name : Str) (writer : JsonWriter) :
  (jsonSerialize host).endVariant
      (describeAll program (jsonSerialize host) types payloads
        ((jsonSerialize host).beginVariant writer name types.length)) =
    writer.value (render host (documentVariant name (documentAll program types payloads)))
  := by
  cases h with
  | nil =>
    simp only [describeAll, documentAll, documentVariant, render]
    rfl
  | @cons type payload types payloads first others =>
    have positive : (0 : ℤ) < (type :: types).length := by
      rw [length_cons]
      omega
    obtain ⟨begun, comma⟩ := beginVariant_extends host writer name positive
    have inside := describeAll_written (.cons first others)
      (writer.beginVariant host name (type :: types).length)
    have closed := (begun.trans inside).endVariant positive
    rw [comma] at closed
    simp only [jsonSerialize] at closed ⊢
    rw [closed]
    cases others with
    | nil =>
      simp [documentAll, documentVariant, render, renderItems, renderMembers, separator]
    | @cons next _ types _ second others =>
      have several : (1 : ℤ) < (type :: next :: types).length := by
        simp only [length_cons]
        omega
      simp only [documentAll, documentVariant, render, renderMembers, several, if_true, separator,
        Bool.false_eq_true, if_false, nil_append, append_nil, append_assoc]

/-- Values that have types are written as the texts of their documents. -/
theorem HasTypes.written (wellFormed : program.WellFormed) {carries : Carries F}
    (shaped : ∀ kind value, carries.scalar kind value → documentScalar kind value ≠ .null)
    (h : HasTypes program carries types values) :
  AllWritten host program types values
  := by
  induction h with
  | nil => apply List.Forall₂.nil
  | cons _ _ ih ihs => apply List.Forall₂.cons (List.forall₂_cons.mp ih).1 ihs
  | scalar carried =>
    apply List.Forall₂.cons _ .nil
    intro writer
    rw [describe, document]
    apply describeScalar_written writer (shaped _ _ carried)
  | list _ _ ih =>
    apply List.Forall₂.cons _ .nil
    intro writer
    rw [describe, document, render]
    apply (describeItems_written ih (writer.opened (ascii "["))).close
  | absent =>
    apply List.Forall₂.cons _ .nil
    intro writer
    rw [describe, document, render]
    rfl
  | present _ ih =>
    apply List.Forall₂.cons _ .nil
    intro writer
    rw [describe, document]
    apply (List.forall₂_cons.mp ih).1
  | map _ _ _ ih =>
    apply List.Forall₂.cons _ .nil
    intro writer
    rw [describe, document, render]
    apply (describeEntries_written ih (writer.opened (ascii "["))).close
  | struct decl _ ih =>
    apply List.Forall₂.cons _ .nil
    intro writer
    rw [describe, document]
    simp only [decl]
    rw [render]
    apply (describeFields_written ih (writer.opened (ascii "\x7b"))).close
  | variant decl known _ _ ih =>
    apply List.Forall₂.cons _ .nil
    intro writer
    rw [describe, document]
    simp only [decl, known]
    apply describeVariant_written ih
  | backed decl mem carried =>
    apply List.Forall₂.cons _ .nil
    intro writer
    rw [describe, document]
    simp only [decl, wellFormed.lookup decl mem]
    apply describeScalar_written writer (shaped _ _ carried)

end Vilan.Wire
