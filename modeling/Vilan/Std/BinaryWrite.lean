import Vilan.Std.Binary
import Vilan.Std.Typed

/-!
# What the binary writer writes

The sink grows under the writes and keeps what was written, so each call appends its bytes, and
the bytes of a value do not depend on what was written before it.
-/

namespace Vilan.Wire

open List

variable {F H : Type} (host : Host F) (program : Program F H)

/-! ### The bytes of a call -/

/-- The four bytes of an integer, the lowest first. -/
def word (value : ℤ) : Bytes :=
  [byte value, byte (value >>> (8 : ℕ)), byte (value >>> (16 : ℕ)), byte (value >>> (24 : ℕ))]

/-- A count of bytes, and the bytes of a text. -/
def textBytes (text : Str) : Bytes :=
  word (asI32 (host.encodeUtf8 text).length) ++ host.encodeUtf8 text

/-- The serializer whose state is what it has written. -/
def spell : Serialize Bytes F where
  beginStruct bytes _ := bytes
  field bytes _ := bytes
  endStruct bytes := bytes
  beginList bytes length := bytes ++ word length
  endList bytes := bytes
  beginVariant bytes name _ := bytes ++ textBytes host name
  endVariant bytes := bytes
  nullValue bytes := bytes ++ [0]
  someValue bytes := bytes ++ [1]
  strValue bytes value := bytes ++ textBytes host value
  i32Value bytes value := bytes ++ word value
  u32Value bytes value := bytes ++ word value
  i53Value bytes value := bytes ++ doubleBytes (host.toBits (host.ofInt value))
  f64Value bytes value := bytes ++ doubleBytes (host.toBits value)
  boolValue bytes value := bytes ++ [if value then 1 else 0]

/-! ### The sink -/

/-- A capacity that is doubled as often as bytes are needed holds them. -/
theorem le_doubled {times needed capacity : ℕ} (h : needed ≤ capacity + times) (h₀ : 0 < capacity) :
  needed ≤ doubled times needed capacity
  := by
  induction times generalizing capacity with
  | zero => apply h
  | succ times ih =>
    unfold doubled
    split
    next => apply ih (by omega) (by omega)
    next hle => omega

theorem le_doubled_self (times needed capacity : ℕ) : capacity ≤ doubled times needed capacity := by
  induction times generalizing capacity with
  | zero => apply le_refl
  | succ times ih =>
    unfold doubled
    split
    next => apply le_trans (by omega) (ih _)
    next => apply le_refl

theorem length_copyInto
    {buffer source : Bytes} {offset : ℕ} (h : offset + source.length ≤ buffer.length) :
  (copyInto buffer source offset).length = buffer.length
  := by
  simp only [copyInto, length_append, length_take, length_drop]
  omega

theorem take_copyInto
    {buffer source : Bytes} {offset : ℕ} (h : offset + source.length ≤ buffer.length) :
  (copyInto buffer source offset).take (offset + source.length) = buffer.take offset ++ source
  := by
  apply take_left'
  simp only [length_append, length_take]
  omega

namespace BinaryWriter

/-- What was written lies in the buffer. -/
structure Holds (writer : BinaryWriter) (written : Bytes) : Prop where
  used : writer.used ≤ writer.buffer.length
  room : 0 < writer.buffer.length
  finish : writer.finish = written

theorem holds_new : Holds new [] where
  used := by simp only [new, length_replicate, Nat.zero_le]
  room := by simp only [new, length_replicate, Nat.ofNat_pos]
  finish := rfl

variable {writer : BinaryWriter} {written : Bytes}

/-- The buffer grows over what it holds. -/
theorem Holds.ensure (h : writer.Holds written) (extra : ℕ) :
  (writer.ensure extra).Holds written ∧ (writer.ensure extra).used = writer.used ∧
    writer.used + extra ≤ (writer.ensure extra).buffer.length
  := by
  unfold BinaryWriter.ensure
  simp only
  split
  next more =>
    have le := le_doubled_self (writer.used + extra) (writer.used + extra) writer.buffer.length
    have fits : 0 + writer.buffer.length ≤
        (List.replicate (doubled (writer.used + extra) (writer.used + extra)
          writer.buffer.length) (0 : UInt8)).length := by
      simpa using le
    have length := length_copyInto fits
    rw [length_replicate] at length
    constructor
    · constructor
      · apply le_trans h.used
        rw [length]
        apply le
      · rw [length]
        apply lt_of_lt_of_le h.room le
      · rw [← h.finish]
        have taken := take_copyInto fits
        simp only [take_zero, nil_append, Nat.zero_add] at taken
        simp only [BinaryWriter.finish]
        conv_rhs => rw [← taken, take_take, min_eq_left h.used]
    · use rfl
      rw [length]
      apply le_doubled (by omega) h.room
  next enough =>
    use h, rfl
    omega

theorem Holds.writeBytes (h : writer.Holds written) (source : Bytes) :
  (writer.writeBytes source).Holds (written ++ source)
  := by
  obtain ⟨grown, used, room⟩ := h.ensure source.length
  rw [← used] at room
  constructor
  · simp only [BinaryWriter.writeBytes]
    rw [length_copyInto room]
    apply room
  · simp only [BinaryWriter.writeBytes]
    rw [length_copyInto room]
    apply grown.room
  · simp only [BinaryWriter.writeBytes, BinaryWriter.finish]
    rw [take_copyInto room, ← grown.finish]
    rfl

theorem Holds.writeByte (h : writer.Holds written) (value : ℤ) :
  (writer.writeByte value).Holds (written ++ [byte value])
  := by
  obtain ⟨grown, used, room⟩ := h.ensure 1
  rw [← used] at room
  constructor
  · simp only [BinaryWriter.writeByte, length_set]
    apply room
  · simp only [BinaryWriter.writeByte, length_set]
    apply grown.room
  · simp only [BinaryWriter.writeByte, BinaryWriter.finish]
    rw [take_add_one, take_set_of_le (le_refl _), ← grown.finish, getElem?_set_self (by omega)]
    rfl

theorem Holds.writeI32 (h : writer.Holds written) (value : ℤ) :
  (writer.writeI32 value).Holds (written ++ word value)
  := by
  have h := (((h.writeByte value).writeByte (value >>> (8 : ℕ))).writeByte (value >>> (16 : ℕ))).writeByte
    (value >>> (24 : ℕ))
  simp only [append_assoc] at h
  apply h

theorem byte_emod (value : ℤ) : byte (value % 256) = byte value := by
  simp only [byte, Int.emod_emod_of_dvd _ (dvd_refl _)]

theorem Holds.writeU32 (h : writer.Holds written) (value : ℤ) :
  (writer.writeU32 value).Holds (written ++ word value)
  := by
  have h := (((h.writeByte (value % 256)).writeByte ((value >>> (8 : ℕ)) % 256)).writeByte
    ((value >>> (16 : ℕ)) % 256)).writeByte (value >>> (24 : ℕ))
  simp only [byte_emod, append_assoc] at h
  apply h

theorem Holds.writeStr (h : writer.Holds written) (text : Str) :
  (writer.writeStr host text).Holds (written ++ textBytes host text)
  := by
  rw [textBytes, ← append_assoc]
  apply (h.writeI32 (asI32 (host.encodeUtf8 text).length)).writeBytes (host.encodeUtf8 text)

end BinaryWriter

/-- Each call on the sink appends the bytes of the call. -/
theorem binarySerialize_related :
  (binarySerialize host).Related (spell host) BinaryWriter.Holds where
  beginStruct _ _ _ h := h
  field _ _ _ h := h
  endStruct _ _ h := h
  beginList _ _ length h := h.writeI32 length
  endList _ _ h := h
  beginVariant _ _ name _ h := h.writeStr host name
  endVariant _ _ h := h
  nullValue _ _ h := h.writeByte 0
  someValue _ _ h := h.writeByte 1
  strValue _ _ value h := h.writeStr host value
  i32Value _ _ value h := h.writeI32 value
  u32Value _ _ value h := h.writeU32 value
  i53Value _ _ _ h := h.writeBytes _
  f64Value _ _ _ h := h.writeBytes _
  boolValue _ _ value h := by
    cases value
    · apply h.writeByte 0
    · apply h.writeByte 1

/-- The bytes of a call do not depend on those before them. -/
theorem spell_related (before : Bytes) :
  (spell host).Related (spell host) fun s t => s = before ++ t
  := by
  constructor <;> intros <;> simp_all only [spell, append_assoc]

/-! ### The bytes of values -/

/-- The bytes that values of types are written as. -/
def bytesAll (types : List Ty) (values : List (Value F)) : Bytes :=
  describeAll program (spell host) types values []

variable {host program}

theorem bytesAll_single {type : Ty} {value : Value F} :
  bytesAll host program [type] [value] = describe program (spell host) type value []
  := by
  simp only [bytesAll, describeAll]

/-- An encoded value is its bytes. -/
theorem encodeBinary_eq (type : Ty) (value : Value F) :
  encodeBinary host program type value = bytesAll host program [type] [value]
  := by
  rw [bytesAll_single]
  apply BinaryWriter.Holds.finish
  apply describe_related program (binarySerialize_related host) _ _ _ _ BinaryWriter.holds_new

theorem describeAll_spell (types : List Ty) (values : List (Value F)) (before : Bytes) :
  describeAll program (spell host) types values before =
    before ++ bytesAll host program types values
  := by
  apply describeAll_related program (spell_related host before)
  rw [append_nil]

theorem describe_spell (type : Ty) (value : Value F) (before : Bytes) :
  describe program (spell host) type value before =
    before ++ bytesAll host program [type] [value]
  := by
  rw [← describeAll_spell]
  simp only [describeAll]

theorem bytesAll_cons (type : Ty) (types : List Ty) (value : Value F) (values : List (Value F)) :
  bytesAll host program (type :: types) (value :: values) =
    bytesAll host program [type] [value] ++ bytesAll host program types values
  := by
  conv_lhs => simp only [bytesAll, describeAll]
  rw [describeAll_spell, describe_spell, nil_append]

theorem describeItems_spell (element : Ty) (items : List (Value F)) (before : Bytes) :
  describeItems program (spell host) element items before =
    before ++ bytesAll host program (List.replicate items.length element) items
  := by
  induction items generalizing before with
  | nil => simp only [describeItems, length_nil, replicate_zero, bytesAll, describeAll,
      append_nil]
  | cons item items ih =>
    rw [describeItems, ih, describe_spell, length_cons, replicate_succ,
      bytesAll_cons element (List.replicate items.length element), append_assoc]

theorem describeFields_spell
    (fields : List (Str × Ty)) (values : List (Value F)) (before : Bytes) :
  describeFields program (spell host) fields values before =
    before ++ bytesAll host program (fields.map Prod.snd) values
  := by
  induction fields generalizing values before with
  | nil => simp only [describeFields, map_nil, bytesAll, describeAll, append_nil]
  | cons field fields ih =>
    cases values with
    | nil => simp only [describeFields, map_cons, bytesAll, describeAll, append_nil]
    | cons value values =>
      rw [describeFields, ih, describe_spell, map_cons,
        bytesAll_cons field.2 (fields.map Prod.snd), append_assoc]
      rfl

theorem describeEntries_spell
    (key value : Ty) (pairs : List (Value F × Value F)) (before : Bytes) :
  describeEntries program (spell host) key value (entriesOf pairs) before =
    before ++ bytesAll host program (pairTypes key value pairs.length) (pairValues pairs)
  := by
  induction pairs generalizing before with
  | nil => simp only [entriesOf, map_nil, describeEntries, length_nil, pairTypes,
      pairValues, bytesAll, describeAll, append_nil]
  | cons pair pairs ih =>
    have step := ih (describe program (spell host) value pair.2
      (describe program (spell host) key pair.1 before))
    simp only [entriesOf, map_cons, describeEntries] at step ⊢
    simp only [length_cons, pairTypes, pairValues]
    rw [bytesAll_cons key, bytesAll_cons value (pairTypes key value pairs.length),
      ← append_assoc, ← append_assoc, ← describe_spell, ← describe_spell]
    apply step

theorem bytesAll_nil : bytesAll host program [] [] = [] := by
  simp only [bytesAll, describeAll]

theorem bytesAll_scalar (kind : Scalar) (value : Value F) :
  bytesAll host program [.scalar kind] [value] = describeScalar (spell host) kind value []
  := by
  rw [bytesAll_single, describe]

theorem bytesAll_list (element : Ty) (items : List (Value F)) :
  bytesAll host program [.list element] [.list items] =
    word (asI32 items.length) ++
      bytesAll host program (List.replicate items.length element) items
  := by
  rw [bytesAll_single, describe]
  apply describeItems_spell

theorem bytesAll_absent (element : Ty) :
  bytesAll host program [.option element] [.absent] = [0]
  := by
  rw [bytesAll_single, describe]
  rfl

theorem bytesAll_present (element : Ty) (value : Value F) :
  bytesAll host program [.option element] [.present value] =
    1 :: bytesAll host program [element] [value]
  := by
  rw [bytesAll_single, describe]
  apply describe_spell

theorem bytesAll_map (key value : Ty) (pairs : List (Value F × Value F)) :
  bytesAll host program [.hashMap key value] [.map (entriesOf pairs)] =
    word (asI32 pairs.length) ++
      bytesAll host program (pairTypes key value pairs.length) (pairValues pairs)
  := by
  have length : (entriesOf pairs).length = pairs.length := by simp only [entriesOf, length_map]
  rw [bytesAll_single, describe, length]
  apply describeEntries_spell

theorem bytesAll_struct
    {id : ℕ} {fields : List (Str × Ty)} (decl : program.decl id = .struct fields)
    (values : List (Value F)) :
  bytesAll host program [.named id] [.struct values] =
    bytesAll host program (fields.map Prod.snd) values
  := by
  rw [bytesAll_single, describe]
  simp only [decl]
  apply describeFields_spell

theorem bytesAll_variant
    {id : ℕ} {variants : List (Str × List Ty)} {fallback : Fallback F}
    (decl : program.decl id = .enum variants fallback) {name : Str} {types : List Ty}
    (known : variants.lookup name = some types) (payloads : List (Value F)) :
  bytesAll host program [.named id] [.variant name payloads] =
    textBytes host name ++ bytesAll host program types payloads
  := by
  rw [bytesAll_single, describe]
  simp only [decl, known]
  apply describeAll_spell

theorem bytesAll_backed
    {id : ℕ} {name first variant : Str} {backing : Scalar} {values : List (Str × Value F)}
    (decl : program.decl id = .backed name backing first values) {value : Value F}
    (known : values.lookup variant = some value) (payloads : List (Value F)) :
  bytesAll host program [.named id] [.variant variant payloads] =
    bytesAll host program [.scalar backing] [value]
  := by
  rw [bytesAll_single, bytesAll_scalar, describe]
  simp only [decl, known]

end Vilan.Wire
