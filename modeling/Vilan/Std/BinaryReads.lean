import Vilan.Std.BinaryLanes

/-!
# What the binary reader reads

A reader that has not failed stands between the bytes it has passed and those that follow.  A
call either fails, and then nothing is read any more, or passes the bytes of one lane.
-/

namespace Vilan.Wire

open List Option

variable {F H : Type}

/-! ### A reader that failed -/

namespace BinaryReader

theorem report_error (reader : BinaryReader) (reason : Str) :
  (reader.report reason).error ≠ none
  := by
  rw [report]
  split
  next heq => rw [heq]; simp only [ne_eq, reduceCtorEq, not_false_eq_true]
  next => simp only [ne_eq, reduceCtorEq, not_false_eq_true]

section

variable {reader : BinaryReader} (h : reader.error ≠ none)

include h

theorem expect_failed (count : ℕ) : reader.expect count = (false, reader) := by
  obtain ⟨reason, heq⟩ := ne_none_iff_exists'.mp h
  simp only [expect, ok, heq, isNone_some, Bool.not_false, if_true]

theorem readByte_failed : reader.readByte = (0, reader) := by
  rw [readByte, expect_failed h]

theorem readWord_failed (convert : ℕ → ℤ) : reader.readWord convert = (0, reader) := by
  rw [readWord, expect_failed h]

theorem readF64_failed (host : Host F) : reader.readF64 host = (host.ofInt 0, reader) := by
  rw [readF64, expect_failed h]

theorem readLength_failed : reader.readLength.1 = 0 ∧ reader.readLength.2.error ≠ none := by
  rw [readLength, readI32, readWord_failed h]
  simp only
  split
  · use rfl
    apply report_error
  · use rfl

theorem readStr_failed (host : Host F) :
  (reader.readStr host).1 = [] ∧ (reader.readStr host).2.error ≠ none
  := by
  have length := (readLength_failed h).2
  rw [readStr]
  simp only
  rw [expect_failed length]
  use rfl

theorem isNull_failed : reader.isNull = (false, reader) := by
  rw [BinaryReader.isNull, expect_failed h]

theorem boolValue_failed : reader.boolValue = (false, reader) := by
  rw [BinaryReader.boolValue, readByte_failed h]
  rfl

end

end BinaryReader

/-- A reader that failed stays failed. -/
theorem binaryDeserialize_keeps (host : Host F) :
  (binaryDeserialize host).Keeps fun reader => reader.error ≠ none where
  beginStruct _ h := h
  field _ _ h := h
  endStruct _ h := h
  beginList _ h := (BinaryReader.readLength_failed h).2
  endList _ h := h
  variantTag _ h := (BinaryReader.readStr_failed h host).2
  beginVariant _ _ _ h := h
  endVariant _ h := h
  isNull reader h := by
    simp only [binaryDeserialize, BinaryReader.isNull_failed h]
    apply h
  nullValue reader h := by
    simp only [binaryDeserialize, BinaryReader.readByte_failed h]
    apply h
  strValue _ h := (BinaryReader.readStr_failed h host).2
  i32Value reader h := by
    simp only [binaryDeserialize, BinaryReader.readI32, BinaryReader.readWord_failed h]
    apply h
  u32Value reader h := by
    simp only [binaryDeserialize, BinaryReader.readU32, BinaryReader.readWord_failed h]
    apply h
  i53Value reader h := by
    simp only [binaryDeserialize, BinaryReader.readF64_failed h]
    apply h
  f64Value reader h := by
    simp only [binaryDeserialize, BinaryReader.readF64_failed h]
    apply h
  boolValue reader h := by
    simp only [binaryDeserialize, BinaryReader.boolValue_failed h]
    apply h
  fail _ _ _ := BinaryReader.report_error _ _

/-! ### A reader that stands -/

namespace BinaryReader

/-- The reader that has passed some bytes and stands before others. -/
def standing (passed input : Bytes) : BinaryReader :=
  ⟨passed ++ input, passed.length, none⟩

theorem standing_append (passed taken rest : Bytes) :
  { standing passed (taken ++ rest) with cursor := passed.length + taken.length } =
    standing (passed ++ taken) rest
  := by
  simp only [standing, append_assoc, length_append]

variable {input passed : Bytes}

theorem expect_standing {count : ℕ} (h : count ≤ input.length) :
  (standing passed input).expect count = (true, standing passed input)
  := by
  have room : ¬ (passed ++ input).length < passed.length + count := by
    rw [length_append]
    omega
  simp only [expect, ok, standing, isNone_none, Bool.not_true, Bool.false_eq_true, if_false, room]

/-- A reader that has not failed was refused nothing. -/
theorem expect_ok (passed : Bytes) {count : ℕ}
    (h : ((standing passed input).expect count).2.error = none) :
  count ≤ input.length
  := by
  by_contra short
  have room : (passed ++ input).length < passed.length + count := by
    rw [length_append]
    omega
  rw [expect] at h
  simp only [standing, ok, room, if_true, isNone_none, Bool.not_true, Bool.false_eq_true,
    if_false] at h
  apply report_error _ _ h

theorem get_standing (passed input : Bytes) (index : ℕ) :
  (standing passed input).get (passed.length + index) = input.getD index 0
  := by
  simp only [standing, BinaryReader.get, getD_eq_getElem?_getD, getElem?_append,
    Nat.add_sub_cancel_left]
  rw [if_neg (by omega)]

theorem get_standing_zero (passed input : Bytes) :
  (standing passed input).get passed.length = input.getD 0 0
  := by
  apply get_standing passed input 0

theorem slice_standing (passed taken rest : Bytes) :
  (standing passed (taken ++ rest)).slice passed.length (passed.length + taken.length) = taken
  := by
  simp only [slice, standing, drop_left, Nat.add_sub_cancel_left, take_left]

/-! ### What a call passes -/

theorem readByte_standing (passed rest : Bytes) (b : UInt8) :
  (standing passed (b :: rest)).readByte = ((b.toNat : ℤ), standing (passed ++ [b]) rest)
  := by
  rw [readByte, expect_standing (by simp)]
  simp only
  rw [← standing_append]
  simp only [standing, BinaryReader.get, length_singleton, singleton_append, getD_eq_getElem?_getD, getElem?_append, lt_irrefl, if_false,
    Nat.sub_self, getElem?_cons_zero, getD_some]

theorem readWord_standing (passed rest : Bytes) (b₀ b₁ b₂ b₃ : UInt8) (convert : ℕ → ℤ) :
  (standing passed (b₀ :: b₁ :: b₂ :: b₃ :: rest)).readWord convert =
    (convert (joined b₀ b₁ b₂ b₃), standing (passed ++ [b₀, b₁, b₂, b₃]) rest)
  := by
  have h₁ := get_standing passed (b₀ :: b₁ :: b₂ :: b₃ :: rest) 1
  have h₂ := get_standing passed (b₀ :: b₁ :: b₂ :: b₃ :: rest) 2
  have h₃ := get_standing passed (b₀ :: b₁ :: b₂ :: b₃ :: rest) 3
  rw [readWord, expect_standing (by simp)]
  simp only
  have cursor : (standing passed (b₀ :: b₁ :: b₂ :: b₃ :: rest)).cursor = passed.length := rfl
  rw [cursor, get_standing_zero, h₁, h₂, h₃, ← standing_append]
  rfl

theorem readI32_word {rest : Bytes} {value : ℤ} (low : -2147483648 ≤ value)
    (high : value < 2147483648) :
  (standing passed (word value ++ rest)).readI32 = (value, standing (passed ++ word value) rest)
  := by
  rw [readI32, word]
  simp only [cons_append, nil_append]
  rw [readWord_standing]
  congr 1
  apply asI32_of_emod (joined_word value) low high

theorem readF64_standing (host : Host F) (passed rest : Bytes) (bits : UInt64) :
  (standing passed (doubleBytes bits ++ rest)).readF64 host =
    (host.ofBits bits, standing (passed ++ doubleBytes bits) rest)
  := by
  rw [readF64, expect_standing (by simp [length_doubleBytes])]
  simp only
  have cursor : (standing passed (doubleBytes bits ++ rest)).cursor = passed.length := rfl
  rw [cursor, ← length_doubleBytes bits, slice_standing, doubleOf_doubleBytes, standing_append]

theorem readLength_standing (passed : Bytes) {rest : Bytes} {length : ℕ} (short : length < 2147483648)
    (fits : length ≤ rest.length) :
  (standing passed (word length ++ rest)).readLength =
    (length, standing (passed ++ word length) rest)
  := by
  have room : ¬ ((length : ℤ) < 0 ∨
      ((standing (passed ++ word length) rest).bytes.length : ℤ) <
        (standing (passed ++ word length) rest).cursor + asUsize length) := by
    simp only [standing, length_append, asUsize, saturateUnsigned]
    push_cast
    omega
  rw [readLength, readI32_word (by omega) (by omega)]
  simp only
  rw [if_neg room, Int.toNat_natCast]

theorem readStr_standing
    (host : Host F) (passed : Bytes) {text : Bytes} (rest : Bytes)
    (short : text.length < 2147483648) :
  (standing passed (word text.length ++ text ++ rest)).readStr host =
    (host.decodeUtf8 text, standing (passed ++ (word text.length ++ text)) rest)
  := by
  rw [append_assoc, readStr, readLength_standing passed short (by simp)]
  simp only
  rw [expect_standing (by simp)]
  simp only
  have cursor : (standing (passed ++ word text.length) (text ++ rest)).cursor =
    (passed ++ word text.length).length := rfl
  rw [cursor, slice_standing, standing_append, append_assoc]

theorem isNull_zero (passed rest : Bytes) :
  (standing passed (0 :: rest)).isNull = (true, standing passed (0 :: rest))
  := by
  have cursor : (standing passed (0 :: rest)).cursor = passed.length := rfl
  rw [BinaryReader.isNull, expect_standing (by simp)]
  simp only
  rw [cursor, get_standing_zero]
  rfl

theorem isNull_one (passed rest : Bytes) :
  (standing passed (1 :: rest)).isNull = (false, standing (passed ++ [1]) rest)
  := by
  have cursor : (standing passed (1 :: rest)).cursor = passed.length := rfl
  rw [BinaryReader.isNull, expect_standing (by simp)]
  simp only
  rw [cursor, get_standing_zero, ← standing_append]
  rfl

theorem boolValue_standing (passed rest : Bytes) (value : Bool) :
  (standing passed ((if value then 1 else 0) :: rest)).boolValue =
    (value, standing (passed ++ [if value then 1 else 0]) rest)
  := by
  rw [BinaryReader.boolValue, readByte_standing]
  cases value <;> rfl

/-! ### What a call that did not fail has read -/

theorem readByte_ok (h : (standing passed input).readByte.2.error = none) :
  ∃ b rest, input = b :: rest
  := by
  cases input with
  | nil => simp [readByte, expect, ok, standing, report] at h
  | cons b rest => use b, rest

theorem readWord_ok {convert : ℕ → ℤ}
    (h : ((standing passed input).readWord convert).2.error = none) :
  ∃ b₀ b₁ b₂ b₃ rest, input = b₀ :: b₁ :: b₂ :: b₃ :: rest
  := by
  have length : 4 ≤ input.length := by
    apply expect_ok passed
    rw [readWord] at h
    split at h
    next reader heq => rw [heq]; apply h
    next reader heq => rw [heq]; apply h
  match input, length with
  | b₀ :: b₁ :: b₂ :: b₃ :: rest, _ => use b₀, b₁, b₂, b₃, rest

theorem readI32_ok (h : (standing passed input).readI32.2.error = none) :
  ∃ b₀ b₁ b₂ b₃ rest, input = b₀ :: b₁ :: b₂ :: b₃ :: rest
  := by
  apply readWord_ok h

theorem readU32_ok (h : (standing passed input).readU32.2.error = none) :
  ∃ b₀ b₁ b₂ b₃ rest, input = b₀ :: b₁ :: b₂ :: b₃ :: rest
  := by
  apply readWord_ok h

theorem readF64_ok {host : Host F} (h : ((standing passed input).readF64 host).2.error = none) :
  ∃ bits rest, input = doubleBytes bits ++ rest
  := by
  have length : 8 ≤ input.length := by
    apply expect_ok passed
    rw [readF64] at h
    split at h
    next reader heq => rw [heq]; apply h
    next reader heq => rw [heq]; apply h
  use doubleOf (input.take 8), input.drop 8
  rw [doubleBytes_doubleOf (by rw [length_take]; omega), take_append_drop]

theorem readLength_ok (h : (standing passed input).readLength.2.error = none) :
  ∃ (length : ℕ) (rest : Bytes), input = word length ++ rest ∧ length < 2147483648 ∧
    length ≤ rest.length
  := by
  rw [readLength] at h
  simp only at h
  split at h
  next => apply absurd h (report_error _ _)
  next fits =>
    obtain ⟨b₀, b₁, b₂, b₃, rest, rfl⟩ := readI32_ok h
    rw [readI32, readWord_standing] at fits
    simp only [standing, length_append, not_or, not_lt, asUsize, saturateUnsigned] at fits
    have lt := asI32_lt (joined b₀ b₁ b₂ b₃)
    have mod := asI32_emod (joined b₀ b₁ b₂ b₃)
    have jlt := joined_lt b₀ b₁ b₂ b₃
    use (asI32 (joined b₀ b₁ b₂ b₃)).toNat, rest
    have cast : ((asI32 (joined b₀ b₁ b₂ b₃)).toNat : ℤ) = asI32 (joined b₀ b₁ b₂ b₃) := by omega
    constructor
    · have same : asI32 (joined b₀ b₁ b₂ b₃) % 4294967296 = joined b₀ b₁ b₂ b₃ := by omega
      rw [cast, word_eq same]
      rfl
    · constructor
      · omega
      · have room := fits.2
        push_cast at room
        split at room <;> omega

theorem readStr_ok {host : Host F} (h : ((standing passed input).readStr host).2.error = none) :
  ∃ text rest, input = word (List.length text) ++ text ++ rest ∧ text.length < 2147483648
  := by
  have counted : (standing passed input).readLength.2.error = none := by
    rw [readStr] at h
    simp only at h
    by_contra failed
    rw [expect_failed failed] at h
    apply failed h
  obtain ⟨length, rest, rfl, short, fits⟩ := readLength_ok counted
  use rest.take length, rest.drop length
  rw [append_assoc, take_append_drop, length_take, min_eq_left fits]
  use rfl, short

theorem isNull_ok (h : (standing passed input).isNull.2.error = none) :
  (∃ rest, input = 0 :: rest) ∨ ∃ rest, input = 1 :: rest
  := by
  rcases input with _ | ⟨b, rest⟩
  · simp [BinaryReader.isNull, expect, ok, standing, report] at h
  · have cursor : (standing passed (b :: rest)).cursor = passed.length := rfl
    rw [BinaryReader.isNull, expect_standing (by simp)] at h
    simp only at h
    rw [cursor, get_standing_zero] at h
    simp only [getD_cons_zero] at h
    split at h
    next zero =>
      left
      use rest
      rw [zero]
    next =>
      split at h
      next => apply absurd h (report_error _ _)
      next one =>
        right
        use rest
        rw [not_not.mp one]

theorem boolValue_ok (h : (standing passed input).boolValue.2.error = none) :
  ∃ (value : Bool) (rest : Bytes), input = (if value then 1 else 0) :: rest
  := by
  rw [BinaryReader.boolValue] at h
  simp only at h
  split at h
  next => apply absurd h (report_error _ _)
  next le =>
    obtain ⟨b, rest, rfl⟩ := readByte_ok h
    rw [readByte_standing] at le
    use decide (b = 1), rest
    have le : b.toNat ≤ 1 := by
      simp only [not_lt] at le
      omega
    congr 1
    apply UInt8.toNat_inj.mp
    by_cases one : b = 1
    · simp [one]
    · have ne : b.toNat ≠ 1 := fun h => one (UInt8.toNat_inj.mp h)
      simp [one]
      omega

end BinaryReader

end Vilan.Wire
