import Vilan.Library.Bytewise
import Vilan.Library.Utf8
import Vilan.Std.Text

/-!
# Line breaks

The count of the line feeds of a text, eight bytes at a time, and the length of a text in UTF-16
units.  A count of line feeds never reaches `2 ^ 64`, so it is a number here; it is cut to 32 bits
where it is answered.
-/

namespace Vilan.Core.SourceMap

open List

def newline : UInt8 := 0x0A

def lowSeven : UInt64 := 0x7f7f7f7f7f7f7f7f

def high : UInt64 := 0x8080808080808080

def newlines : UInt64 := 0x0a0a0a0a0a0a0a0a

def ones : UInt64 := 0x0101010101010101

def fromLeBytes (bytes : Bytes) : UInt64 :=
  UInt64.ofNat (Bytewise.pack (bytes.map (·.toNat)))

/-- The line feeds in a word.  The high bit of a byte of `found` is set exactly where the byte of
`differs` is zero, and the product sums the eight bits. -/
def wordBreaks (word : UInt64) : UInt64 :=
  let differs := word ^^^ newlines
  let found := ~~~(((differs &&& lowSeven) + lowSeven) ||| differs) &&& high
  ((found >>> 7) * ones) >>> 56

/-- The line feeds in the words of a text and in what remains. -/
def countBreaks : Bytes → ℕ
  | b₀ :: b₁ :: b₂ :: b₃ :: b₄ :: b₅ :: b₆ :: b₇ :: bytes =>
      (wordBreaks (fromLeBytes [b₀, b₁, b₂, b₃, b₄, b₅, b₆, b₇])).toNat + countBreaks bytes
  | remainder => remainder.countP (· = newline)

/-- The last index of a byte. -/
def rposition (bytes : Bytes) (byte : UInt8) : Option ℕ :=
  (bytes.reverse.findIdx? (· = byte)).map fun behind => bytes.length - 1 - behind

/-- How many line feeds there are, and the offset just past the last one. -/
def lineBreaks (bytes : Bytes) : ℕ × Option ℕ :=
  let count := countBreaks bytes
  if count = 0 then (0, none)
  else (count % 2 ^ 32, (rposition bytes newline).map (· + 1))

/-- The length of a character in UTF-16 units. -/
def lenUtf16 (c : Char) : ℕ :=
  if c.toNat ≤ 0xFFFF then 1 else 2

def utf16Length (text : List Char) : ℕ :=
  if text.all (·.toNat < 128) then (Utf8.encode text).length % 2 ^ 32
  else (text.map lenUtf16).sum % 2 ^ 32

/-! ### A word -/

/-- What becomes of one byte. -/
theorem found_byte {byte : ℕ} (lt : byte < 256) :
  (255 - ((((byte ^^^ 0x0A) &&& 0x7F) + 0x7F) ||| (byte ^^^ 0x0A))) &&& 0x80 =
    2 ^ 7 * if byte = 0x0A then 1 else 0
  := by
  have all : ∀ byte : Fin 256,
      (255 - ((((byte.val ^^^ 0x0A) &&& 0x7F) + 0x7F) ||| (byte.val ^^^ 0x0A))) &&& 0x80 =
        2 ^ 7 * if byte.val = 0x0A then 1 else 0 := by
    decide +kernel
  apply all ⟨byte, lt⟩

theorem sum_flags (bytes : Bytes) :
  (bytes.map fun byte => if byte = newline then 1 else 0).sum = bytes.countP (· = newline)
  := by
  induction bytes with
  | nil => rfl
  | cons byte bytes ih =>
    rw [map_cons, sum_cons, ih, countP_cons, Nat.add_comm]
    simp only [decide_eq_true_eq]

theorem wordBreaks_fromLeBytes {bytes : Bytes} (length : bytes.length = 8) :
  (wordBreaks (fromLeBytes bytes)).toNat = bytes.countP (· = newline)
  := by
  have word : Bytewise.Row bytes (fromLeBytes bytes) (·.toNat) := by
    constructor
    · apply length
    · intro byte mem
      apply byte.toNat_lt
    · have byte_lt : ∀ byte ∈ bytes, byte.toNat < 256 := fun byte _ => byte.toNat_lt
      have lt := Bytewise.pack_map_lt byte_lt
      rw [length] at lt
      rw [fromLeBytes, UInt64.toNat_ofNat']
      apply Nat.mod_eq_of_lt lt
  have feeds : Bytewise.Row bytes newlines fun _ => 0x0A :=
    Bytewise.Row.const length (by decide) rfl
  have low : Bytewise.Row bytes lowSeven fun _ => 0x7F :=
    Bytewise.Row.const length (by decide) rfl
  have top : Bytewise.Row bytes high fun _ => 0x80 :=
    Bytewise.Row.const length (by decide) rfl
  have differs := word.xor feeds
  have sum := (differs.and low).add low fun byte _ => by
    have lt := Nat.and_lt_two_pow (n := 7) (byte.toNat ^^^ 0x0A) (show 0x7F < 2 ^ 7 by decide)
    omega
  have found := (sum.or differs).not.and top
  have flags : (fun byte : UInt8 => (255 - (((byte.toNat ^^^ 0x0A) &&& 0x7F) + 0x7F |||
      byte.toNat ^^^ 0x0A)) &&& 0x80) = fun byte => 2 ^ 7 * if byte = newline then 1 else 0 := by
    funext byte
    rw [found_byte byte.toNat_lt]
    simp only [← UInt8.toNat_inj, newline, UInt8.reduceToNat]
  rw [flags] at found
  have counted := found.sum_bits 7 rfl fun byte _ => by
    split
    all_goals decide
  rw [← sum_flags]
  apply counted

/-- The words and the remainder count what a scan counts. -/
theorem countBreaks_eq (bytes : Bytes) : countBreaks bytes = bytes.countP (· = newline) := by
  fun_induction countBreaks bytes with
  | case1 b₀ b₁ b₂ b₃ b₄ b₅ b₆ b₇ bytes ih =>
    rw [wordBreaks_fromLeBytes rfl, ih, ← countP_append]
    rfl
  | case2 remainder => rfl

/-! ### What is answered -/

theorem lineBreaks_fst (bytes : Bytes) :
  (lineBreaks bytes).1 = bytes.countP (· = newline) % 2 ^ 32
  := by
  rw [lineBreaks, countBreaks_eq]
  split
  next none_ =>
    rw [none_]
    rfl
  next => rfl

theorem lineBreaks_eq_none {bytes : Bytes} (none_ : newline ∉ bytes) :
  lineBreaks bytes = (0, none)
  := by
  rw [lineBreaks, countBreaks_eq, if_pos]
  rw [countP_eq_zero]
  intro byte mem
  rw [decide_eq_true_eq]
  rintro rfl
  exact none_ mem

theorem lineBreaks_snd {before after : Bytes} (last : newline ∉ after) :
  (lineBreaks (before ++ newline :: after)).2 = some (before.length + 1)
  := by
  have some_ : (before ++ newline :: after).countP (· = newline) ≠ 0 := by
    rw [countP_append, countP_cons, if_pos (by decide)]
    omega
  have behind : after.reverse.findIdx? (· = newline) = none := by
    rw [findIdx?_eq_none_iff]
    intro byte mem
    rw [decide_eq_false_iff_not]
    rintro rfl
    exact last (mem_reverse.mp mem)
  rw [lineBreaks, countBreaks_eq, if_neg some_, rposition, reverse_append, reverse_cons,
    append_assoc, findIdx?_append, behind, Option.none_or, cons_append,
    findIdx?_cons, if_pos (by decide)]
  simp only [Option.map_some, length_append, length_cons, length_reverse, Option.some_inj]
  omega

/-! ### Lengths in UTF-16 units -/

theorem lenUtf16_pos (c : Char) : 0 < lenUtf16 c := by
  rw [lenUtf16]
  split
  all_goals decide

theorem utf16Length_eq (text : List Char) :
  utf16Length text = (text.map lenUtf16).sum % 2 ^ 32
  := by
  rw [utf16Length]
  split
  next ascii =>
    congr 1
    induction text with
    | nil => rfl
    | cons c text ih =>
      rw [all_cons, Bool.and_eq_true, decide_eq_true_eq] at ascii
      have single : (String.utf8EncodeChar c).length = 1 := by
        rw [String.utf8EncodeChar, if_pos]
        · rfl
        · apply Nat.le_of_lt_succ ascii.1
      have unit : lenUtf16 c = 1 := by
        rw [lenUtf16, if_pos]
        omega
      rw [Utf8.encode_cons, length_append, ih ascii.2, single, map_cons, sum_cons, unit]
  next => rfl

end Vilan.Core.SourceMap
