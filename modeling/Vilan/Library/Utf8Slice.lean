import Vilan.Library.Utf8Decoder

/-!
# Parts of a text by byte offsets

The bytes of a text are cut only between characters.  Every cut between two texts is one.
-/

namespace Utf8

open List

/-- The text that bytes encode, if they do. -/
def text? (bytes : List UInt8) : Option (List Char) :=
  (String.fromUTF8? ⟨bytes.toArray⟩).map String.toList

theorem text?_encode (text : List Char) :
  text? (encode text) = some text
  := fromUTF8?_eq_some_iff.mpr rfl

/-- Whether an offset is between two characters, or at an end. -/
def isCharBoundary (bytes : List UInt8) (index : ℕ) : Bool :=
  match bytes[index]? with
  | none => index = bytes.length
  | some byte => index = 0 || byte < 0x80 || 0xC0 ≤ byte

/-- The text between two offsets, unless one of them is inside a character. -/
def slice (bytes : List UInt8) (start stop : ℕ) : Option (List Char) :=
  if start ≤ stop ∧ isCharBoundary bytes start ∧ isCharBoundary bytes stop then
    text? ((bytes.drop start).take (stop - start))
  else none

/-- The first byte of a character starts it. -/
theorem utf8EncodeChar_head {c : Char} {first : UInt8} {bytes : List UInt8}
    (parts : String.utf8EncodeChar c = first :: bytes) :
  first < 0x80 ∨ 0xC0 ≤ first
  := by
  have valid : c.val.toNat < 0xD800 ∨ 0xDFFF < c.val.toNat ∧ c.val.toNat < 0x110000 := c.valid
  have byte : ∀ n, n < 256 → (UInt8.ofNat n).toNat = n := by
    intro n lt
    rw [UInt8.toNat_ofNat', Nat.mod_eq_of_lt lt]
  rw [UInt8.lt_iff_toNat_lt, UInt8.le_iff_toNat_le]
  unfold String.utf8EncodeChar at parts
  dsimp only at parts
  repeat' split at parts
  all_goals
    obtain ⟨rfl, -⟩ := cons_eq_cons.mp parts
    rw [byte _ (by omega)]
    simp only [UInt8.reduceToNat]
    omega

theorem isCharBoundary_append (front rest : List Char) :
  isCharBoundary (encode front ++ encode rest) (encode front).length = true
  := by
  rw [isCharBoundary, getElem?_append_right (Nat.le_refl _), Nat.sub_self]
  cases rest with
  | nil => simp
  | cons c rest =>
    obtain ⟨first, bytes, parts⟩ := exists_cons_of_ne_nil (String.utf8EncodeChar_ne_nil (c := c))
    rw [encode_cons, parts, cons_append, getElem?_cons_zero]
    rcases utf8EncodeChar_head parts with lt | le
    · simp [lt]
    · simp [le]

/-- Every place where a text may be cut is between two texts. -/
theorem exists_split_of_isCharBoundary {text : List Char} {index : ℕ}
    (le : index ≤ (encode text).length) (boundary : isCharBoundary (encode text) index = true) :
  ∃ front rest, text = front ++ rest ∧ index = (encode front).length
  := by
  induction text generalizing index with
  | nil => exact ⟨[], [], rfl, Nat.le_zero.mp le⟩
  | cons c text ih =>
    by_cases zero : index = 0
    · exact ⟨[], c :: text, rfl, zero⟩
    obtain ⟨first, bytes, parts⟩ := exists_cons_of_ne_nil (String.utf8EncodeChar_ne_nil (c := c))
    rw [encode_cons] at le boundary
    rw [isCharBoundary] at boundary
    by_cases inside : index < (String.utf8EncodeChar c).length
    · exfalso
      rw [getElem?_append_left inside] at boundary
      obtain ⟨index, rfl⟩ := Nat.exists_eq_succ_of_ne_zero zero
      have byte_eq : (String.utf8EncodeChar c)[index.succ]? = bytes[index]? := by
        rw [parts, getElem?_cons_succ]
      obtain ⟨byte, some_⟩ : ∃ byte, bytes[index]? = some byte := by
        rw [← byte_eq]
        exact ⟨_, getElem?_eq_getElem inside⟩
      rw [byte_eq, some_] at boundary
      have mem : byte ∈ (String.utf8EncodeChar c).tail := by
        rw [parts]
        apply mem_of_getElem? some_
      have continues := utf8EncodeChar_tail mem
      rw [Continues] at continues
      simp only [Nat.succ_eq_add_one, Bool.or_eq_true, decide_eq_true_eq, UInt8.lt_iff_toNat_lt,
        UInt8.le_iff_toNat_le, UInt8.reduceToNat] at boundary
      omega
    · obtain ⟨index, rfl⟩ := Nat.exists_eq_add_of_le (Nat.le_of_not_lt inside)
      rw [length_append] at le
      rw [getElem?_append_right (Nat.le_add_right _ _), Nat.add_sub_cancel_left] at boundary
      have boundary' : isCharBoundary (encode text) index = true := by
        rw [isCharBoundary]
        split at boundary
        next none_ =>
          rw [decide_eq_true_eq, length_append] at boundary
          rw [decide_eq_true_eq]
          omega
        next byte some_ =>
          simp only [Bool.or_eq_true, decide_eq_true_eq] at boundary ⊢
          grind
      obtain ⟨front, rest, rfl, rfl⟩ := ih (by omega) boundary'
      use c :: front, rest, rfl
      rw [encode_cons, length_append]

/-- A text between two others is cut out. -/
theorem slice_append (front text rest : List Char) :
  slice (encode (front ++ text ++ rest)) (encode front).length (encode (front ++ text)).length =
    some text
  := by
  have start : isCharBoundary (encode (front ++ text ++ rest)) (encode front).length = true := by
    rw [append_assoc, encode_append]
    apply isCharBoundary_append
  have stop : isCharBoundary (encode (front ++ text ++ rest)) (encode (front ++ text)).length =
      true := by
    rw [encode_append (front ++ text)]
    apply isCharBoundary_append
  have le : (encode front).length ≤ (encode (front ++ text)).length := by
    rw [encode_append, length_append]
    apply Nat.le_add_right
  rw [slice, if_pos ⟨le, start, stop⟩, append_assoc, encode_append front (text ++ rest),
    encode_append text rest, encode_append front text, drop_left, length_append,
    Nat.add_sub_cancel_left, take_left, text?_encode]

end Utf8
