import Vilan.Std.Text
import Mathlib.Data.Nat.Bitwise

/-!
# Base64url

The unpadded base64url of a byte buffer, and its decoder.  The last character of a text whose
length is no multiple of four carries bits that no byte uses.  The decoder does not look at
them, so a buffer has a spelling for each value of these spare bits; the encoder writes the
one whose spare bits are zero.
-/

namespace Vilan.Base64

open Option

def alphabet : Str :=
  ascii "ABCDEFGHIJKLMNOPQRSTUVWXYZabcdefghijklmnopqrstuvwxyz0123456789-_"

/-- The character of a 6-bit value. -/
def charAt (value : ℕ) : UInt16 :=
  alphabet.getD value 0

/-- Encode three bytes at a time, and then the one or two that remain. -/
def encodeUrl : Bytes → Str
  | a :: b :: c :: rest =>
      let chunk := a.toNat <<< 16 ||| b.toNat <<< 8 ||| c.toNat
      charAt (chunk >>> 18 &&& 63) :: charAt (chunk >>> 12 &&& 63) :: charAt (chunk >>> 6 &&& 63)
        :: charAt (chunk &&& 63) :: encodeUrl rest
  | [a, b] =>
      let chunk := a.toNat <<< 16 ||| b.toNat <<< 8
      [charAt (chunk >>> 18 &&& 63), charAt (chunk >>> 12 &&& 63), charAt (chunk >>> 6 &&& 63)]
  | [a] =>
      let chunk := a.toNat <<< 16
      [charAt (chunk >>> 18 &&& 63), charAt (chunk >>> 12 &&& 63)]
  | [] => []

/-- The 6-bit value of a base64url character, or none for anything else. -/
def digit (code : UInt16) : Option ℕ :=
  let c := code.toNat
  if 65 ≤ c ∧ c ≤ 90 then some (c - 65)
  else if 97 ≤ c ∧ c ≤ 122 then some (c - 71)
  else if 48 ≤ c ∧ c ≤ 57 then some (c + 4)
  else if c = 45 then some 62
  else if c = 95 then some 63
  else none

/-- Decode four characters at a time, and then the two or three that remain.  No text has one
that remains. -/
def decodeUrl : Str → Option Bytes
  | a :: b :: c :: d :: rest => do
      let a ← digit a
      let b ← digit b
      let c ← digit c
      let d ← digit d
      let chunk := a <<< 18 ||| b <<< 12 ||| c <<< 6 ||| d
      let out ← decodeUrl rest
      some ((chunk >>> 16 &&& 255).toUInt8 :: (chunk >>> 8 &&& 255).toUInt8
        :: (chunk &&& 255).toUInt8 :: out)
  | [a, b, c] => do
      let a ← digit a
      let b ← digit b
      let c ← digit c
      let chunk := a <<< 12 ||| b <<< 6 ||| c
      some [(chunk >>> 10 &&& 255).toUInt8, (chunk >>> 2 &&& 255).toUInt8]
  | [a, b] => do
      let a ← digit a
      let b ← digit b
      some [((a <<< 6 ||| b) >>> 4 &&& 255).toUInt8]
  | [_] => none
  | [] => some []

/-- The bits of the last character that the decoder does not look at. -/
def spare : Str → ℕ
  | _ :: _ :: _ :: _ :: rest => spare rest
  | [_, _, c] => (digit c).getD 0 % 4
  | [_, b] => (digit b).getD 0 % 16
  | _ => 0

/-- The spelling of a buffer with the given spare bits. -/
def spell (spareBits : ℕ) : Bytes → Str
  | a :: b :: c :: rest =>
      charAt (a.toNat / 4) :: charAt (a.toNat % 4 * 16 + b.toNat / 16)
        :: charAt (b.toNat % 16 * 4 + c.toNat / 64) :: charAt (c.toNat % 64)
        :: spell spareBits rest
  | [a, b] =>
      [charAt (a.toNat / 4), charAt (a.toNat % 4 * 16 + b.toNat / 16),
        charAt (b.toNat % 16 * 4 + spareBits)]
  | [a] => [charAt (a.toNat / 4), charAt (a.toNat % 4 * 16 + spareBits)]
  | [] => []

/-! ### Characters and digits -/

variable {value : ℕ} {bytes : Bytes} {text : Str}

theorem digit_charAt (h : value < 64) :
  digit (charAt value) = some value
  := by
  have hall : ∀ value < 64, digit (charAt value) = some value := by decide +kernel
  apply hall value h

theorem charAt_digit {code : UInt16} (h : digit code = some value) :
  charAt value = code
  := by
  have hcode : ∀ value < 26, (charAt value).toNat = value + 65 := by decide
  have hlower : ∀ value < 52, 26 ≤ value → (charAt value).toNat = value + 71 := by decide
  have hfigure : ∀ value < 62, 52 ≤ value → (charAt value).toNat + 4 = value := by decide
  rw [← UInt16.toNat_inj]
  simp only [digit] at h
  split at h
  · rw [some_inj] at h
    rw [hcode value (by omega)]
    omega
  · split at h
    · rw [some_inj] at h
      rw [hlower value (by omega) (by omega)]
      omega
    · split at h
      · rw [some_inj] at h
        have := hfigure value (by omega) (by omega)
        omega
      · split at h
        · rw [some_inj] at h
          subst h
          next hdash =>
            rw [hdash]
            rfl
        · split at h
          · rw [some_inj] at h
            subst h
            next hunder =>
              rw [hunder]
              rfl
          · contradiction

theorem digit_lt {code : UInt16} (h : digit code = some value) :
  value < 64
  := by
  simp only [digit] at h
  split at h
  · rw [some_inj] at h
    omega
  · split at h
    · rw [some_inj] at h
      omega
    · split at h
      · rw [some_inj] at h
        omega
      · split at h
        · rw [some_inj] at h
          omega
        · split at h
          · rw [some_inj] at h
            omega
          · contradiction

/-! ### Chunks -/

theorem shiftLeft_or {high low width : ℕ} (h : low < 2 ^ width) :
  high <<< width ||| low = high * 2 ^ width + low
  := by
  rw [← Nat.shiftLeft_add_eq_or_of_lt h, Nat.shiftLeft_eq]

/-- What a run of bit fields is worth, each of the next one's width below it. -/
theorem shiftLeft_or_shiftLeft (width shift : ℕ) {high middle : ℕ} (h : middle < 2 ^ width) :
  high <<< (shift + width) ||| middle <<< shift = (high * 2 ^ width + middle) <<< shift
  := by
  rw [← shiftLeft_or h, Nat.shiftLeft_or_distrib, ← Nat.shiftLeft_add, Nat.add_comm]

theorem chunk_bytes {a b c : ℕ} (hb : b < 256) (hc : c < 256) :
  a <<< 16 ||| b <<< 8 ||| c = a * 65536 + b * 256 + c
  := by
  rw [shiftLeft_or_shiftLeft 8 8 hb, shiftLeft_or hc]
  omega

theorem chunk_digits {a b c d : ℕ} (hb : b < 64) (hc : c < 64) (hd : d < 64) :
  a <<< 18 ||| b <<< 12 ||| c <<< 6 ||| d = a * 262144 + b * 4096 + c * 64 + d
  := by
  rw [shiftLeft_or_shiftLeft 6 12 hb, shiftLeft_or_shiftLeft 6 6 hc, shiftLeft_or hd]
  omega

theorem and_63 (chunk : ℕ) :
  chunk &&& 63 = chunk % 64
  := Nat.and_two_pow_sub_one_eq_mod chunk 6

theorem and_255 (chunk : ℕ) :
  chunk &&& 255 = chunk % 256
  := Nat.and_two_pow_sub_one_eq_mod chunk 8

/-! ### Spellings -/

/-- The encoder leaves the spare bits zero. -/
theorem encodeUrl_eq_spell (bytes : Bytes) :
  encodeUrl bytes = spell 0 bytes
  := by
  induction bytes using encodeUrl.induct with
  | case1 a b c rest ih =>
    have ha := a.toNat_lt
    have hb := b.toNat_lt
    have hc := c.toNat_lt
    simp only [encodeUrl, spell, ih, chunk_bytes hb hc, and_63, Nat.shiftRight_eq_div_pow]
    refine congrArg₂ _ (congrArg _ ?_) (congrArg₂ _ (congrArg _ ?_) (congrArg₂ _ (congrArg _ ?_)
      (congrArg₂ _ (congrArg _ ?_) rfl)))
    · omega
    · omega
    · omega
    · omega
  | case2 a b =>
    have ha := a.toNat_lt
    have hb := b.toNat_lt
    have hchunk : a.toNat <<< 16 ||| b.toNat <<< 8 = a.toNat * 65536 + b.toNat * 256 := by
      rw [shiftLeft_or_shiftLeft 8 8 hb, Nat.shiftLeft_eq]
      omega
    simp only [encodeUrl, spell, hchunk, and_63, Nat.shiftRight_eq_div_pow]
    refine congrArg₂ _ (congrArg _ ?_) (congrArg₂ _ (congrArg _ ?_) (congrArg₂ _ (congrArg _ ?_)
      rfl))
    · omega
    · omega
    · omega
  | case3 a =>
    have ha := a.toNat_lt
    simp only [encodeUrl, spell, Nat.shiftLeft_eq, and_63, Nat.shiftRight_eq_div_pow]
    refine congrArg₂ _ (congrArg _ ?_) (congrArg₂ _ (congrArg _ ?_) rfl)
    · omega
    · omega
  | case4 => rfl

theorem toUInt8_toNat_of_lt (h : value < 256) :
  value.toUInt8.toNat = value
  := Nat.mod_eq_of_lt h

/-- What a text decodes to, and its spare bits, spell it. -/
theorem eq_spell_of_decodeUrl (h : decodeUrl text = some bytes) :
  text = spell (spare text) bytes
  := by
  induction text using decodeUrl.induct generalizing bytes with
  | case1 a b c d rest ih =>
    simp only [decodeUrl, bind_eq_bind, bind_eq_some_iff, some_inj] at h
    obtain ⟨a', ha, b', hb, c', hc, d', hd, out, hout, rfl⟩ := h
    have hb' := digit_lt hb
    have hc' := digit_lt hc
    have hd' := digit_lt hd
    have ha' := digit_lt ha
    rw [chunk_digits hb' hc' hd', and_255, and_255, and_255, Nat.shiftRight_eq_div_pow,
      Nat.shiftRight_eq_div_pow, spell, spare, ← ih hout, toUInt8_toNat_of_lt (by omega),
      toUInt8_toNat_of_lt (by omega), toUInt8_toNat_of_lt (by omega), ← charAt_digit ha,
      ← charAt_digit hb, ← charAt_digit hc, ← charAt_digit hd]
    refine congrArg₂ _ (congrArg _ ?_) (congrArg₂ _ (congrArg _ ?_) (congrArg₂ _ (congrArg _ ?_)
      (congrArg₂ _ (congrArg _ ?_) rfl)))
    · omega
    · omega
    · omega
    · omega
  | case2 a b c =>
    simp only [decodeUrl, bind_eq_bind, bind_eq_some_iff, some_inj] at h
    obtain ⟨a', ha, b', hb, c', hc, rfl⟩ := h
    have hb' := digit_lt hb
    have hc' := digit_lt hc
    have ha' := digit_lt ha
    have hchunk : a' <<< 12 ||| b' <<< 6 ||| c' = a' * 4096 + b' * 64 + c' := by
      rw [shiftLeft_or_shiftLeft 6 6 hb', shiftLeft_or hc']
      omega
    rw [hchunk, and_255, and_255, Nat.shiftRight_eq_div_pow, Nat.shiftRight_eq_div_pow, spell,
      spare, hc, getD_some, toUInt8_toNat_of_lt (by omega),
      toUInt8_toNat_of_lt (by omega), ← charAt_digit ha, ← charAt_digit hb, ← charAt_digit hc]
    refine congrArg₂ _ (congrArg _ ?_) (congrArg₂ _ (congrArg _ ?_) (congrArg₂ _ (congrArg _ ?_)
      rfl))
    · omega
    · omega
    · omega
  | case3 a b =>
    simp only [decodeUrl, bind_eq_bind, bind_eq_some_iff, some_inj] at h
    obtain ⟨a', ha, b', hb, rfl⟩ := h
    have hb' := digit_lt hb
    have ha' := digit_lt ha
    rw [shiftLeft_or hb', and_255, Nat.shiftRight_eq_div_pow, spell, spare, hb,
      getD_some, toUInt8_toNat_of_lt (by omega), ← charAt_digit ha, ← charAt_digit hb]
    refine congrArg₂ _ (congrArg _ ?_) (congrArg₂ _ (congrArg _ ?_) rfl)
    · omega
    · omega
  | case4 => simp [decodeUrl] at h
  | case5 =>
    simp only [decodeUrl, some_inj] at h
    subst h
    rfl

theorem decodeUrl_encodeUrl (bytes : Bytes) :
  decodeUrl (encodeUrl bytes) = some bytes
  := by
  rw [encodeUrl_eq_spell]
  induction bytes using encodeUrl.induct with
  | case1 a b c rest ih =>
    have ha := a.toNat_lt
    have hb := b.toNat_lt
    have hc := c.toNat_lt
    simp only [spell, decodeUrl, ih, bind_eq_bind]
    rw [digit_charAt (by omega), digit_charAt (by omega), digit_charAt (by omega),
      digit_charAt (by omega)]
    simp only [bind_some, and_255, Nat.shiftRight_eq_div_pow]
    rw [chunk_digits (by omega) (by omega) (by omega)]
    congr 2
    · rw [← UInt8.toNat_inj, toUInt8_toNat_of_lt (by omega)]
      omega
    · congr 1
      · rw [← UInt8.toNat_inj, toUInt8_toNat_of_lt (by omega)]
        omega
      · congr 1
        rw [← UInt8.toNat_inj, toUInt8_toNat_of_lt (by omega)]
        omega
  | case2 a b =>
    have ha := a.toNat_lt
    have hb := b.toNat_lt
    simp only [spell, decodeUrl, bind_eq_bind]
    rw [digit_charAt (by omega), digit_charAt (by omega), digit_charAt (by omega)]
    simp only [bind_some, and_255, Nat.shiftRight_eq_div_pow]
    rw [shiftLeft_or_shiftLeft 6 6 (by omega), shiftLeft_or (by omega)]
    congr 2
    · rw [← UInt8.toNat_inj, toUInt8_toNat_of_lt (by omega)]
      omega
    · congr 1
      rw [← UInt8.toNat_inj, toUInt8_toNat_of_lt (by omega)]
      omega
  | case3 a =>
    have ha := a.toNat_lt
    simp only [spell, decodeUrl, bind_eq_bind]
    rw [digit_charAt (by omega), digit_charAt (by omega)]
    simp only [bind_some, and_255, Nat.shiftRight_eq_div_pow]
    rw [shiftLeft_or (by omega)]
    congr 2
    rw [← UInt8.toNat_inj, toUInt8_toNat_of_lt (by omega)]
    omega
  | case4 => rfl

theorem spare_encodeUrl (bytes : Bytes) :
  spare (encodeUrl bytes) = 0
  := by
  rw [encodeUrl_eq_spell]
  induction bytes using encodeUrl.induct with
  | case1 a b c rest ih => simpa only [spell, spare] using ih
  | case2 a b =>
    have hb := b.toNat_lt
    rw [spell, spare, digit_charAt (by omega), getD_some]
    omega
  | case3 a =>
    rw [spell, spare, digit_charAt (by omega), getD_some]
    omega
  | case4 => rfl

/-- A text that decodes is what the encoder writes exactly when its spare bits are zero. -/
theorem eq_encodeUrl_iff (h : decodeUrl text = some bytes) :
  text = encodeUrl bytes ↔ spare text = 0
  := by
  constructor
  · intro heq
    rw [heq]
    apply spare_encodeUrl
  · intro hspare
    rw [encodeUrl_eq_spell, ← hspare]
    apply eq_spell_of_decodeUrl h

/-- Two texts that decode alike are the same exactly when their spare bits are. -/
theorem eq_iff_spare_eq {text' : Str} (h : decodeUrl text = some bytes)
    (h' : decodeUrl text' = some bytes) :
  text' = text ↔ spare text' = spare text
  := by
  constructor
  · rintro rfl
    rfl
  · intro hspare
    rw [eq_spell_of_decodeUrl h, eq_spell_of_decodeUrl h', hspare]

/-- A text that decodes has base64url characters alone. -/
theorem digit_of_decodeUrl (h : decodeUrl text = some bytes) :
  ∀ code ∈ text, ∃ value, digit code = some value
  := by
  induction text using decodeUrl.induct generalizing bytes with
  | case1 a b c d rest ih =>
    simp only [decodeUrl, bind_eq_bind, bind_eq_some_iff] at h
    obtain ⟨a', ha, b', hb, c', hc, d', hd, out, hout, -⟩ := h
    simp only [List.forall_mem_cons]
    exact ⟨⟨a', ha⟩, ⟨b', hb⟩, ⟨c', hc⟩, ⟨d', hd⟩, ih hout⟩
  | case2 a b c =>
    simp only [decodeUrl, bind_eq_bind, bind_eq_some_iff] at h
    obtain ⟨a', ha, b', hb, c', hc, -⟩ := h
    simp only [List.forall_mem_cons]
    exact ⟨⟨a', ha⟩, ⟨b', hb⟩, ⟨c', hc⟩, by simp⟩
  | case3 a b =>
    simp only [decodeUrl, bind_eq_bind, bind_eq_some_iff] at h
    obtain ⟨a', ha, b', hb, -⟩ := h
    simp only [List.forall_mem_cons]
    exact ⟨⟨a', ha⟩, ⟨b', hb⟩, by simp⟩
  | case4 => simp [decodeUrl] at h
  | case5 => simp

/-! ### What decodes -/

/-- A character with the bits of its value below a power of two cleared. -/
def lower (width : ℕ) (code : UInt16) : UInt16 :=
  match digit code with
  | some value => charAt (value / 2 ^ width * 2 ^ width)
  | none => code

/-- A text with its spare bits cleared. -/
def clear : Str → Str
  | a :: b :: c :: d :: rest => a :: b :: c :: d :: clear rest
  | [a, b, c] => [a, b, lower 2 c]
  | [a, b] => [a, lower 4 b]
  | text => text

theorem digit_lower (width : ℕ) (code : UInt16) :
  digit (lower width code) = (digit code).map fun value => value / 2 ^ width * 2 ^ width
  := by
  rw [lower]
  cases h : digit code with
  | none => exact h
  | some value =>
    have lt := digit_lt h
    have le := Nat.div_mul_le_self value (2 ^ width)
    exact digit_charAt (Nat.lt_of_le_of_lt le lt)

/-- The decoder does not look at the spare bits. -/
theorem decodeUrl_clear (text : Str) :
  decodeUrl (clear text) = decodeUrl text
  := by
  induction text using decodeUrl.induct with
  | case1 a b c d rest ih => rw [clear, decodeUrl, decodeUrl, ih]
  | case2 a b c =>
    rw [clear, decodeUrl, decodeUrl, digit_lower]
    cases ha : digit a with
    | none => rfl
    | some a' =>
      cases hb : digit b with
      | none => rfl
      | some b' =>
        cases hc : digit c with
        | none => rfl
        | some c' =>
          have lt := digit_lt hb
          have lt' := digit_lt hc
          simp only [bind_eq_bind, bind_some, map_some, and_255, Nat.shiftRight_eq_div_pow]
          rw [shiftLeft_or_shiftLeft 6 6 (by omega), shiftLeft_or (by omega),
            shiftLeft_or (by omega)]
          congr 2
          · congr 1
            omega
          · congr 2
            omega
  | case3 a b =>
    rw [clear, decodeUrl, decodeUrl, digit_lower]
    cases ha : digit a with
    | none => rfl
    | some a' =>
      cases hb : digit b with
      | none => rfl
      | some b' =>
        have lt := digit_lt hb
        simp only [bind_eq_bind, bind_some, map_some, and_255, Nat.shiftRight_eq_div_pow]
        rw [shiftLeft_or (by omega), shiftLeft_or (by omega)]
        congr 3
        omega
  | case4 => rfl
  | case5 => rfl

theorem spare_clear (text : Str) :
  spare (clear text) = 0
  := by
  induction text using decodeUrl.induct with
  | case1 a b c d rest ih => rw [clear, spare, ih]
  | case2 a b c =>
    rw [clear, spare, digit_lower]
    cases digit c with
    | none => rfl
    | some value =>
      rw [map_some, getD_some]
      omega
  | case3 a b =>
    rw [clear, spare, digit_lower]
    cases digit b with
    | none => rfl
    | some value =>
      rw [map_some, getD_some]
      omega
  | case4 => rfl
  | case5 => rfl

/-- **What the encoder writes decodes, and what decodes is what the encoder writes but for the spare
bits.** -/
theorem decodes_iff_clear (bytes : Bytes) :
  decodeUrl (encodeUrl bytes) = some bytes ∧
    ∀ text, decodeUrl text = some bytes ↔ clear text = encodeUrl bytes
  := by
  refine ⟨decodeUrl_encodeUrl bytes, ?_⟩
  intro text
  rw [← decodeUrl_clear text]
  constructor
  · intro decoded
    exact (eq_encodeUrl_iff decoded).mpr (spare_clear text)
  · intro same
    rw [same]
    exact decodeUrl_encodeUrl bytes

/-- Two texts decode as the letter `A`, and the encoder writes one of them. -/
theorem decodes_another_spelling :
  ¬ ∀ (text : Str) (bytes : Bytes), decodeUrl text = some bytes ↔ text = encodeUrl bytes
  := by
  intro all
  have same := (all (ascii "QR") [65]).mp (by decide)
  revert same
  decide

end Vilan.Base64
