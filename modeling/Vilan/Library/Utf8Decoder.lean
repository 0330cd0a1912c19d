import Vilan.Library.Utf8

/-!
# The decoder of UTF-8

Bytes are decoded one after the other, and what encodes no character is replaced by U+FFFD: each
byte that starts no character, and each start of a character that is not continued.  A byte order
mark at the front is dropped.
-/

namespace Utf8

open List

/-- What stands for bytes that encode no character. -/
def replacement : Char := Char.ofNat 0xFFFD

def byteOrderMark : Char := Char.ofNat 0xFEFF

/-- A character that is begun: how many bytes are missing, its code so far, and the bounds of the
next byte. -/
structure Pending where
  needed : ℕ
  code : ℕ
  lower : ℕ
  upper : ℕ

/-- The first byte of a character: what is decoded, and what is begun. -/
def begins (byte : ℕ) : List Char × Option Pending :=
  if byte ≤ 0x7F then ([Char.ofNat byte], none)
  else if 0xC2 ≤ byte ∧ byte ≤ 0xDF then ([], some ⟨1, byte % 32, 0x80, 0xBF⟩)
  else if 0xE0 ≤ byte ∧ byte ≤ 0xEF then
    ([], some ⟨2, byte % 16, if byte = 0xE0 then 0xA0 else 0x80, if byte = 0xED then 0x9F else 0xBF⟩)
  else if 0xF0 ≤ byte ∧ byte ≤ 0xF4 then
    ([], some ⟨3, byte % 8, if byte = 0xF0 then 0x90 else 0x80, if byte = 0xF4 then 0x8F else 0xBF⟩)
  else ([replacement], none)

/-- One byte: what is decoded, and what is begun. -/
def step (pending : Option Pending) (byte : ℕ) : List Char × Option Pending :=
  match pending with
  | none => begins byte
  | some pending =>
      if pending.lower ≤ byte ∧ byte ≤ pending.upper then
        let code := pending.code * 64 + byte % 64
        if pending.needed = 1 then ([Char.ofNat code], none)
        else ([], some ⟨pending.needed - 1, code, 0x80, 0xBF⟩)
      else
        -- The byte is not of this character: it is looked at again.
        (replacement :: (begins byte).1, (begins byte).2)

def decodeFrom : Option Pending → List UInt8 → List Char
  | none, [] => []
  | some _, [] => [replacement]
  | pending, byte :: bytes =>
      let (decoded, next) := step pending byte.toNat
      decoded ++ decodeFrom next bytes

/-- A text without a byte order mark at the front. -/
def dropMark : List Char → List Char
  | [] => []
  | c :: text => if c = byteOrderMark then text else c :: text

def decode (bytes : List UInt8) : List Char :=
  dropMark (decodeFrom none bytes)

/-! ### One character -/

/-- Bytes continue what is begun to a character, the last of them at last. -/
inductive Completes (c : Char) : Option Pending → List UInt8 → Prop
  | last {pending : Option Pending} {byte : UInt8} (decoded : step pending byte.toNat = ([c], none)) :
      Completes c pending [byte]
  | more {pending : Option Pending} {byte : UInt8} {next : Pending} {bytes : List UInt8}
      (begun : step pending byte.toNat = ([], some next)) (rest : Completes c (some next) bytes) :
      Completes c pending (byte :: bytes)

variable {bytes : List UInt8} {c : Char} {pending : Option Pending} {text : List Char}

theorem Completes.decodeFrom_append (completes : Completes c pending bytes) (more : List UInt8) :
  decodeFrom pending (bytes ++ more) = c :: decodeFrom none more
  := by
  induction completes with
  | last decoded => rw [cons_append, nil_append, decodeFrom, decoded]; rfl
  | more begun _ ih => rw [cons_append, decodeFrom, begun]; exact ih

theorem decodeFrom_nil (some_ : pending ≠ none) :
  decodeFrom pending [] = [replacement]
  := by
  cases pending with
  | none => exact absurd rfl some_
  | some pending => rfl

/-- A character that is cut off is replaced. -/
theorem Completes.decodeFrom_part {part more : List UInt8} (completes : Completes c pending bytes)
    (parts : bytes = part ++ more) (cut : more ≠ []) (some_ : part ≠ [] ∨ pending ≠ none) :
  decodeFrom pending part = [replacement]
  := by
  induction completes generalizing part with
  | last decoded =>
    cases part with
    | nil =>
      apply decodeFrom_nil
      simpa using some_
    | cons byte part =>
      obtain ⟨-, rest⟩ := cons_eq_cons.mp parts
      apply absurd (append_eq_nil_iff.mp rest.symm).2 cut
  | @more pending byte next bytes begun _ ih =>
    cases part with
    | nil =>
      apply decodeFrom_nil
      simpa using some_
    | cons byte' part =>
      obtain ⟨rfl, rest⟩ := cons_eq_cons.mp parts
      rw [decodeFrom, begun]
      apply ih rest
      right
      simp

/-- One more byte of a character that stays begun. -/
theorem step_more {code code' lower upper byte : ℕ} (needed : ℕ) (le : lower ≤ byte)
    (le' : byte ≤ upper) (code_eq : code * 64 + byte % 64 = code') :
  step (some ⟨needed + 2, code, lower, upper⟩) byte = ([], some ⟨needed + 1, code', 0x80, 0xBF⟩)
  := by
  rw [step]
  dsimp only
  rw [if_pos ⟨le, le'⟩, if_neg (by omega), code_eq]
  rfl

/-- The last byte of a character. -/
theorem step_last {code lower upper byte : ℕ} (code' : ℕ) (le : lower ≤ byte) (le' : byte ≤ upper)
    (code_eq : code * 64 + byte % 64 = code') :
  step (some ⟨1, code, lower, upper⟩) byte = ([Char.ofNat code'], none)
  := by
  rw [step]
  dsimp only
  rw [if_pos ⟨le, le'⟩, if_pos rfl, code_eq]

/-- The bytes of a character decode as the character. -/
theorem completes_utf8EncodeChar (c : Char) : Completes c none (String.utf8EncodeChar c) := by
  have same : Char.ofNat c.val.toNat = c := Char.ofNat_toNat c
  have valid : c.val.toNat < 0xD800 ∨ 0xDFFF < c.val.toNat ∧ c.val.toNat < 0x110000 := c.valid
  have byte : ∀ n, n < 256 → (UInt8.ofNat n).toNat = n := by
    intro n lt
    rw [UInt8.toNat_ofNat', Nat.mod_eq_of_lt lt]
  unfold String.utf8EncodeChar
  dsimp only
  generalize c.val.toNat = v at *
  -- The last byte, and those before it.
  have last : ∀ {lower upper}, lower ≤ v % 64 + 0x80 → v % 64 + 0x80 ≤ upper →
      Completes c (some ⟨1, v / 64, lower, upper⟩) [UInt8.ofNat (v % 64 + 0x80)] := by
    intro lower upper le le'
    apply Completes.last
    rw [byte _ (by omega), step_last v le le' (by omega), same]
  have middle : ∀ {lower upper}, lower ≤ v / 64 % 64 + 0x80 → v / 64 % 64 + 0x80 ≤ upper →
      Completes c (some ⟨2, v / 4096, lower, upper⟩)
        [UInt8.ofNat (v / 64 % 64 + 0x80), UInt8.ofNat (v % 64 + 0x80)] := by
    intro lower upper le le'
    have begun : step (some ⟨2, v / 4096, lower, upper⟩) (v / 64 % 64 + 0x80) =
        ([], some ⟨1, v / 64, 0x80, 0xBF⟩) := step_more 0 le le' (by omega)
    rw [← byte (v / 64 % 64 + 0x80) (by omega)] at begun
    apply Completes.more begun
    apply last (by omega) (by omega)
  split
  next one =>
    apply Completes.last
    rw [byte v (by omega), step, begins, if_pos (by omega), same]
  next =>
  split
  next two =>
    have code : (v / 64 % 0x20 + 0xc0) % 32 = v / 64 := by omega
    have begun : step none (v / 64 % 0x20 + 0xc0) = ([], some ⟨1, v / 64, 0x80, 0xBF⟩) := by
      rw [step, begins, if_neg (by omega), if_pos (by omega), code]
    rw [← byte (v / 64 % 0x20 + 0xc0) (by omega)] at begun
    apply Completes.more begun
    apply last (by omega) (by omega)
  next =>
  split
  next three =>
    have code : (v / 4096 % 0x10 + 0xe0) % 16 = v / 4096 := by omega
    have lowest : (v / 4096 % 0x10 + 0xe0 = 0xE0) = (v / 4096 = 0) := propext (by omega)
    have highest : (v / 4096 % 0x10 + 0xe0 = 0xED) = (v / 4096 = 13) := propext (by omega)
    have begun : step none (v / 4096 % 0x10 + 0xe0) = ([], some ⟨2, v / 4096,
        if v / 4096 = 0 then 0xA0 else 0x80, if v / 4096 = 13 then 0x9F else 0xBF⟩) := by
      rw [step, begins, if_neg (by omega), if_neg (by omega), if_pos (by omega), code]
      simp only [lowest, highest]
    rw [← byte (v / 4096 % 0x10 + 0xe0) (by omega)] at begun
    apply Completes.more begun
    apply middle
    · split
      all_goals omega
    · split
      all_goals omega
  next four =>
    have code : (v / 262144 % 0x08 + 0xf0) % 8 = v / 262144 := by omega
    have lowest : (v / 262144 % 0x08 + 0xf0 = 0xF0) = (v / 262144 = 0) := propext (by omega)
    have highest : (v / 262144 % 0x08 + 0xf0 = 0xF4) = (v / 262144 = 4) := propext (by omega)
    have begun : step none (v / 262144 % 0x08 + 0xf0) = ([], some ⟨3, v / 262144,
        if v / 262144 = 0 then 0x90 else 0x80, if v / 262144 = 4 then 0x8F else 0xBF⟩) := by
      rw [step, begins, if_neg (by omega), if_neg (by omega), if_neg (by omega),
        if_pos (by omega), code]
      simp only [lowest, highest]
    have second : step (some ⟨3, v / 262144,
        if v / 262144 = 0 then 0x90 else 0x80, if v / 262144 = 4 then 0x8F else 0xBF⟩)
        (v / 4096 % 64 + 0x80) = ([], some ⟨2, v / 4096, 0x80, 0xBF⟩) := by
      apply step_more
      · split
        all_goals omega
      · split
        all_goals omega
      · omega
    rw [← byte (v / 262144 % 0x08 + 0xf0) (by omega)] at begun
    rw [← byte (v / 4096 % 64 + 0x80) (by omega)] at second
    apply Completes.more begun
    apply Completes.more second
    apply middle (by omega) (by omega)

/-! ### Texts -/

/-- A byte that starts no character. -/
def Continues (byte : UInt8) : Prop :=
  0x80 ≤ byte.toNat ∧ byte.toNat ≤ 0xBF

theorem decodeFrom_encode_append (text : List Char) (more : List UInt8) :
  decodeFrom none (encode text ++ more) = text ++ decodeFrom none more
  := by
  induction text with
  | nil => rfl
  | cons c text ih =>
    rw [encode_cons, append_assoc, (completes_utf8EncodeChar c).decodeFrom_append, ih, cons_append]

/-- Bytes that start no character are replaced one by one. -/
theorem decodeFrom_continues_append (continues : ∀ byte ∈ bytes, Continues byte)
    (more : List UInt8) :
  decodeFrom none (bytes ++ more) = List.replicate bytes.length replacement ++ decodeFrom none more
  := by
  induction bytes with
  | nil => rfl
  | cons byte bytes ih =>
    obtain ⟨le, le'⟩ := continues byte (mem_cons_self ..)
    have begun : step none byte.toNat = ([replacement], none) := by
      rw [step, begins, if_neg (by omega), if_neg (by omega), if_neg (by omega), if_neg (by omega)]
    rw [cons_append, decodeFrom, begun]
    dsimp only
    rw [ih fun byte mem => continues byte (mem_cons_of_mem _ mem)]
    rfl

theorem utf8EncodeChar_tail {byte : UInt8} (mem : byte ∈ (String.utf8EncodeChar c).tail) :
  Continues byte
  := by
  have bounds : ∀ n, n < 64 → Continues (UInt8.ofNat (n + 0x80)) := by
    intro n lt
    rw [Continues, UInt8.toNat_ofNat', Nat.mod_eq_of_lt (by omega)]
    omega
  unfold String.utf8EncodeChar at mem
  dsimp only at mem
  repeat' split at mem
  all_goals
    simp only [tail_cons, mem_cons, not_mem_nil, or_false] at mem
  · rw [mem]
    apply bounds
    omega
  · rcases mem with rfl | rfl
    all_goals
      apply bounds
      omega
  · rcases mem with rfl | rfl | rfl
    all_goals
      apply bounds
      omega

/-- What is left of a character that is cut continues it. -/
theorem continues_of_cut {part more : List UInt8} (parts : String.utf8EncodeChar c = part ++ more)
    (some_ : part ≠ []) :
  ∀ byte ∈ more, Continues byte
  := by
  intro byte mem
  apply utf8EncodeChar_tail (c := c)
  obtain ⟨first, part, rfl⟩ := exists_cons_of_ne_nil some_
  rw [parts, cons_append, tail_cons]
  apply mem_append_right _ mem

theorem dropMark_append {more : List Char} (some_ : text ≠ []) :
  dropMark (text ++ more) = dropMark text ++ more
  := by
  obtain ⟨c, text, rfl⟩ := exists_cons_of_ne_nil some_
  rw [cons_append, dropMark, dropMark]
  split
  · rfl
  · rfl

theorem dropMark_eq_self (unmarked : text.head? ≠ some byteOrderMark) :
  dropMark text = text
  := by
  cases text with
  | nil => rfl
  | cons c text =>
    rw [dropMark, if_neg]
    rintro rfl
    apply unmarked rfl

theorem decode_encode (unmarked : text.head? ≠ some byteOrderMark) :
  decode (encode text) = text
  := by
  have decoded := decodeFrom_encode_append text []
  rw [append_nil, decodeFrom, append_nil] at decoded
  rw [decode, decoded, dropMark_eq_self unmarked]

end Utf8
