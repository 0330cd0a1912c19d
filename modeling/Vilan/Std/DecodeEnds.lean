import Vilan.Std.BinaryReads
import Vilan.Std.JsonRuns
import Vilan.Std.WireEnds

/-!
# Decoding that ends

Both readers keep their first failure and answer with defaults from there, so a decode ends
exactly when its run settles: it reads to the end of the type, or what is left to be read at its
first failure, or some calls later, are types that are read from defaults.
-/

namespace Vilan.Wire

variable {F H : Type}

/-! ### The readers are sticky -/

theorem binaryDeserialize_sticky (host : Host F) : (binaryDeserialize host).Sticky where
  keeps := binaryDeserialize_keeps host
  list d failed := by
    have length := (BinaryReader.readLength_failed failed).1
    simp only [binaryDeserialize, length]
    rfl
  null d failed := by
    simp only [binaryDeserialize, BinaryReader.isNull_failed failed]
  tag d failed := (BinaryReader.readStr_failed failed host).1
  fails d reason := BinaryReader.report_error d reason

namespace JsonReader

theorem report_error (reader : JsonReader F) (reason : Str) :
  (reader.report reason).error ≠ none
  := by
  rw [report]
  split
  next heq => rw [heq]; simp only [ne_eq, reduceCtorEq, not_false_eq_true]
  next => simp only [ne_eq, reduceCtorEq, not_false_eq_true]

section

variable {reader : JsonReader F} (h : reader.error ≠ none)

include h

theorem ok_failed : reader.ok = false := by
  obtain ⟨reason, heq⟩ := Option.ne_none_iff_exists'.mp h
  rw [ok, heq]
  rfl

theorem take_failed : reader.take = (.null, reader) := by
  simp only [take, ok_failed h, Bool.not_false, if_true]

theorem expect_failed (value : Native.JsonValue Str F) (wanted : JsonKind) (name : Str) :
  reader.expect value wanted name = (false, reader)
  := by
  simp only [expect, ok_failed h, Bool.not_false, if_true]

theorem beginList_failed : reader.beginList = (0, reader) := by
  rw [beginList, take_failed h]
  simp only
  rw [expect_failed h]

theorem variantTag_failed : reader.variantTag = ([], reader) := by
  simp only [variantTag, ok_failed h, Bool.false_eq_true, if_false]

theorem isNull_failed : reader.isNull = (false, reader) := by
  simp only [isNull, ok_failed h, Bool.false_and]

theorem endList_failed : reader.endList.error ≠ none := by
  rw [endList]
  split
  · apply h
  · dsimp only
    split
    · apply report_error
    · apply h

theorem field_failed (name : Str) : reader.field name = reader := by
  rw [field]
  rw [expect_failed h]

theorem beginVariant_failed (name : Str) (arity : ℤ) : reader.beginVariant name arity = reader := by
  rw [beginVariant, take_failed h]
  simp only
  split
  · rw [expect_failed h]
  · rfl

theorem strValue_failed : reader.strValue = ([], reader) := by
  rw [strValue, take_failed h]
  simp only
  rw [expect_failed h]

theorem integerValue_failed (host : JsonHost F) (signed : Bool) :
  reader.integerValue host signed = (0, reader)
  := by
  rw [integerValue, take_failed h]
  simp only
  rw [expectInteger, expect_failed h]

theorem f64Value_failed (host : JsonHost F) :
  reader.f64Value host = (host.ofInt 0, reader)
  := by
  rw [f64Value, take_failed h]
  simp only
  rw [expect_failed h]

theorem boolValue_failed : reader.boolValue = (false, reader) := by
  rw [boolValue, take_failed h]
  simp only
  rw [expect_failed h]

end

end JsonReader

/-- A reader that failed stays failed. -/
theorem jsonDeserialize_keeps (host : JsonHost F) :
  (jsonDeserialize host).Keeps fun reader => reader.error ≠ none where
  beginStruct _ h := h
  field _ name h := by
    simp only [jsonDeserialize, JsonReader.field_failed h]
    apply h
  endStruct _ h := by
    simp only [jsonDeserialize, JsonReader.take_failed h]
    apply h
  beginList _ h := by
    simp only [jsonDeserialize, JsonReader.beginList_failed h]
    apply h
  endList _ h := JsonReader.endList_failed h
  variantTag _ h := by
    simp only [jsonDeserialize, JsonReader.variantTag_failed h]
    apply h
  beginVariant _ _ _ h := by
    simp only [jsonDeserialize, JsonReader.beginVariant_failed h]
    apply h
  endVariant _ h := h
  isNull _ h := by
    simp only [jsonDeserialize, JsonReader.isNull_failed h]
    apply h
  nullValue _ h := by
    simp only [jsonDeserialize, JsonReader.take_failed h]
    apply h
  strValue _ h := by
    simp only [jsonDeserialize, JsonReader.strValue_failed h]
    apply h
  i32Value _ h := by
    simp only [jsonDeserialize, JsonReader.integerValue_failed h]
    apply h
  u32Value _ h := by
    simp only [jsonDeserialize, JsonReader.integerValue_failed h]
    apply h
  i53Value _ h := by
    simp only [jsonDeserialize, JsonReader.integerValue_failed h]
    apply h
  f64Value _ h := by
    simp only [jsonDeserialize, JsonReader.f64Value_failed h]
    apply h
  boolValue _ h := by
    simp only [jsonDeserialize, JsonReader.boolValue_failed h]
    apply h
  fail _ _ _ := JsonReader.report_error _ _

theorem jsonDeserialize_sticky (host : JsonHost F) : (jsonDeserialize host).Sticky where
  keeps := jsonDeserialize_keeps host
  list d failed := by
    simp only [jsonDeserialize, JsonReader.beginList_failed failed]
    rfl
  null d failed := by
    simp only [jsonDeserialize, JsonReader.isNull_failed failed]
  tag d failed := by
    simp only [jsonDeserialize, JsonReader.variantTag_failed failed]
  fails d reason := JsonReader.report_error d reason

/-! ### Decoding ends -/

section Decoding

variable [DecidableEq H]

theorem decodesBinary_ends_iff (host : Host F) (program : Program F H) (type : Ty) (frame : Bytes) :
  (∃ result, DecodesBinary host program type frame result) ↔
    Ends host program (binaryDeserialize host) type (.new frame)
  := by
  constructor
  · rintro ⟨result, depth, h⟩
    obtain ⟨ended, h, _⟩ := Option.map_eq_some_iff.mp h
    use depth
    rw [h]
    rfl
  · rintro ⟨depth, h⟩
    obtain ⟨ended, h⟩ := Option.isSome_iff_exists.mp h
    use BinaryReader.conclude frame.length ended, depth
    rw [decodeBinary, h]
    rfl

theorem decodesJson_ends_iff (host : JsonHost F) (program : Program F H) (type : Ty) (text : Str) :
  (∃ result, DecodesJson host program type text result) ↔
    Ends host.toHost program (jsonDeserialize host) type (openedReader host text)
  := by
  constructor
  · rintro ⟨result, depth, h⟩
    obtain ⟨ended, h, _⟩ := Option.map_eq_some_iff.mp h
    use depth
    rw [h]
    rfl
  · rintro ⟨depth, h⟩
    obtain ⟨ended, h⟩ := Option.isSome_iff_exists.mp h
    use JsonReader.conclude ended, depth
    rw [decodeJson, h]
    rfl

end Decoding

/-! ### A chain -/

/-- A program whose every type is a struct that may hold a next one. -/
def chainProgram : Program ℤ Bool where
  decl _ := .struct [(ascii "next", .option (.named 0))]
  hash _ := false

theorem chain_lives {type : Ty} (chain : type = .named 0 ∨ type = .option (.named 0)) :
  ¬ Dies chainProgram type
  := by
  intro dies
  induction dies with
  | scalar | list | hashMap => simp only [reduceCtorEq, or_self] at chain
  | option _ ih =>
    obtain chain | chain := chain
    · cases chain
    · cases chain
      apply ih (.inl rfl)
  | struct decl _ ih =>
    cases decl
    apply ih _ (List.mem_singleton_self _) (.inr rfl)
  | variant decl | fallback decl | backed decl => cases decl

end Vilan.Wire
