import Mathlib.Data.UInt

/-!
# UTF-8

The encoding of a text as a list of bytes.  An ASCII byte in it encodes an ASCII character, and no
other character's encoding contains one.
-/

namespace Utf8

open List

/-- The bytes that encode a text. -/
def encode (text : List Char) : List UInt8 :=
  text.flatMap String.utf8EncodeChar

@[simp]
theorem encode_nil : encode [] = [] :=
  rfl

theorem encode_cons (c : Char) (text : List Char) :
  encode (c :: text) = String.utf8EncodeChar c ++ encode text
  := rfl

theorem encode_append (text more : List Char) :
  encode (text ++ more) = encode text ++ encode more
  := flatMap_append

theorem toByteArray_encode (text : List Char) :
  (⟨(encode text).toArray⟩ : ByteArray) = text.utf8Encode
  := by
  rw [List.utf8Encode, encode]
  ext1
  simp

variable {bytes : List UInt8} {text : List Char} {b : UInt8} {c : Char}

theorem toArray_injective {bytes' : List UInt8}
    (h : (⟨bytes.toArray⟩ : ByteArray) = ⟨bytes'.toArray⟩) :
  bytes = bytes'
  := by
  simpa using h

/-- A byte buffer is text exactly when it encodes one. -/
theorem fromUTF8?_eq_some_iff :
  (String.fromUTF8? ⟨bytes.toArray⟩).map String.toList = some text ↔ bytes = encode text
  := by
  rw [String.fromUTF8?]
  constructor
  · intro h
    split at h
    next valid =>
      simp only [Option.map_some, Option.some_inj] at h
      apply toArray_injective
      rw [toByteArray_encode, ← h, String.utf8Encode_toList]
      rfl
    next => cases h
  · rintro rfl
    have valid : ByteArray.IsValidUTF8 ⟨(encode text).toArray⟩ := by
      rw [toByteArray_encode]
      apply ByteArray.isValidUTF8_utf8Encode
    rw [dif_pos valid, Option.map_some, Option.some_inj]
    have same : String.fromUTF8 _ valid = String.ofList text := by
      rw [← String.toByteArray_inj, String.toByteArray_ofList, ← toByteArray_encode]
      rfl
    rw [same, String.toList_ofList]

theorem encode_injective {other : List Char} (h : encode text = encode other) : text = other := by
  have decoded : (String.fromUTF8? ⟨(encode text).toArray⟩).map String.toList = some text :=
    fromUTF8?_eq_some_iff.mpr rfl
  rw [h, fromUTF8?_eq_some_iff.mpr rfl] at decoded
  cases decoded
  rfl

/-- An ASCII byte of a character's encoding is all of it. -/
theorem utf8EncodeChar_of_mem_ascii (h : b ∈ String.utf8EncodeChar c) (ascii : b.toNat < 128) :
  String.utf8EncodeChar c = [b] ∧ c.toNat = b.toNat
  := by
  have high : ∀ n, 128 ≤ n → n < 256 → b ≠ UInt8.ofNat n := by
    rintro n le lt rfl
    rw [UInt8.toNat_ofNat', Nat.mod_eq_of_lt lt] at ascii
    omega
  unfold String.utf8EncodeChar at h ⊢
  dsimp only at h ⊢
  split at h
  next small =>
    rw [mem_singleton] at h
    rw [if_pos small, h, UInt8.toNat_ofNat', Nat.mod_eq_of_lt]
    · use rfl
      rfl
    · exact Nat.lt_of_le_of_lt small (by decide)
  next =>
    exfalso
    repeat' split at h
    all_goals
      simp only [mem_cons, not_mem_nil, or_false] at h
      grind

/-- An ASCII byte in an encoding stands for its character. -/
theorem mem_of_mem_encode (ascii : b.toNat < 128) (same : c.toNat = b.toNat) (h : b ∈ encode text) :
  c ∈ text
  := by
  obtain ⟨c', mem, h⟩ := mem_flatMap.mp h
  obtain ⟨_, same'⟩ := utf8EncodeChar_of_mem_ascii h ascii
  have heq : c = c' := Char.toNat_inj.mp (same.trans same'.symm)
  rw [heq]
  apply mem

/-- An ASCII byte at the end of an encoding stands for its character. -/
theorem encode_eq_append_ascii (ascii : b.toNat < 128) (same : c.toNat = b.toNat)
    (h : encode text = bytes ++ [b]) :
  ∃ before, text = before ++ [c] ∧ encode before = bytes
  := by
  obtain rfl | ⟨before, last, rfl⟩ := eq_nil_or_concat text
  · cases bytes
    all_goals cases h
  · rw [concat_eq_append, encode_append, encode_cons, encode_nil, append_nil] at h
    have mem : b ∈ String.utf8EncodeChar last := by
      have ne : String.utf8EncodeChar last ≠ [] := String.utf8EncodeChar_ne_nil
      have last_eq := congrArg List.getLast? h
      rw [getLast?_append_of_ne_nil _ ne, getLast?_append_of_ne_nil _ (by simp)] at last_eq
      apply mem_of_getLast? last_eq
    obtain ⟨single, same'⟩ := utf8EncodeChar_of_mem_ascii mem ascii
    have heq : last = c := Char.toNat_inj.mp (same'.trans same.symm)
    rw [single] at h
    use before, by rw [heq, concat_eq_append]
    apply append_cancel_right h

/-- ASCII text at the end of an encoding stands for itself. -/
theorem encode_eq_append_encode {ascii : List Char} (small : ∀ c ∈ ascii, c.toNat < 128)
    (h : encode text = bytes ++ encode ascii) :
  ∃ before, text = before ++ ascii ∧ encode before = bytes
  := by
  induction ascii using List.reverseRecOn generalizing text with
  | nil =>
    use text, (append_nil text).symm
    rw [h, encode_nil, append_nil]
  | append_singleton ascii c ih =>
    have small_c := small c (by simp)
    have single : encode [c] = [UInt8.ofNat c.toNat] := by
      rw [encode_cons, encode_nil, append_nil, String.utf8EncodeChar, if_pos]
      · rfl
      · apply Nat.le_of_lt_succ small_c
    have same : c.toNat = (UInt8.ofNat c.toNat).toNat := by
      rw [UInt8.toNat_ofNat', Nat.mod_eq_of_lt]
      omega
    rw [encode_append, single, ← append_assoc] at h
    obtain ⟨before, rfl, shorter⟩ := encode_eq_append_ascii (by omega) same h
    obtain ⟨before, rfl, heq⟩ := ih (fun c mem => small c (by simp [mem])) shorter
    use before, append_assoc _ _ _

end Utf8
