import Vilan.Native.Url
import Vilan.Http.Text

/-!
# Runs of escapes

What the decoder answers, as a relation between texts: each maximal run of escapes stands for the
text its bytes encode, or for itself, and every other character stands for itself.  The walk over
the bytes never leaves the edges of the characters, so it answers every text.
-/

namespace Vilan.Native.Url

open List Utf8

open Vilan.Http (isHexDigit digitValue)

/-! ### What a text decodes to -/

/-- The byte that two digits spell. -/
def spelled (high low : Char) : UInt8 :=
  UInt8.ofNat (digitValue high * 16 + digitValue low)

/-- The byte of the escape at the front of a text, if it starts with one. -/
def escape : List Char → Option UInt8
  | '%' :: high :: low :: _ =>
      if isHexDigit high && isHexDigit low then some (spelled high low) else none
  | _ => none

/-- Escapes in a row and the bytes they spell. -/
inductive Run : List Char → Bytes → Prop
  | nil : Run [] []
  | cons {high low : Char} {escapes : List Char} {bytes : Bytes} (high_digit : isHexDigit high)
      (low_digit : isHexDigit low) (run : Run escapes bytes) :
      Run ('%' :: high :: low :: escapes) (spelled high low :: bytes)

/-- The text that a text decodes to. -/
inductive Decodes : List Char → List Char → Prop
  | nil : Decodes [] []
  /-- A character that starts no escape. -/
  | keep {c : Char} {text decoded : List Char} (plain : escape (c :: text) = none)
      (decodes : Decodes text decoded) :
      Decodes (c :: text) (c :: decoded)
  /-- A run, up to where no further escape starts. -/
  | run {escapes text decoded : List Char} {bytes : Bytes} (run : Run escapes bytes)
      (some_ : bytes ≠ []) (ended : escape text = none) (decodes : Decodes text decoded) :
      Decodes (escapes ++ text) ((Utf8.text? bytes).getD escapes ++ decoded)

theorem escape_cons {high low : Char} (high_digit : isHexDigit high) (low_digit : isHexDigit low)
    (text : List Char) :
  escape ('%' :: high :: low :: text) = some (spelled high low)
  := by
  rw [escape, if_pos (by rw [high_digit, low_digit]; rfl)]

variable {byte : UInt8} {text escapes : List Char} {c : Char} {bytes : Bytes}

theorem escape_eq_some (h : escape text = some byte) :
  ∃ high low rest, text = '%' :: high :: low :: rest ∧ isHexDigit high ∧ isHexDigit low ∧
    byte = spelled high low
  := by
  unfold escape at h
  split at h
  next high low rest =>
    split at h
    next digits =>
      obtain ⟨high_digit, low_digit⟩ := Bool.and_eq_true_iff.mp digits
      cases h
      use high, low, rest
    next => cases h
  next => cases h

theorem escape_of_ne (ne : c ≠ '%') (text : List Char) :
  escape (c :: text) = none
  := by
  unfold escape
  split
  next heq =>
    obtain ⟨rfl, -⟩ := cons_eq_cons.mp heq
    exact absurd rfl ne
  next => rfl

/-- The escapes at the front of a text, up to where no further one starts. -/
theorem exists_run (text : List Char) :
  ∃ escapes bytes rest, text = escapes ++ rest ∧ Run escapes bytes ∧ escape rest = none
  := by
  match same : escape text with
  | none => exact ⟨[], [], text, rfl, Run.nil, same⟩
  | some byte =>
      obtain ⟨high, low, rest, rfl, high_digit, low_digit, -⟩ := escape_eq_some same
      obtain ⟨escapes, bytes, rest, rfl, run, ended⟩ := exists_run rest
      exact ⟨_, _, rest, rfl, Run.cons high_digit low_digit run, ended⟩
termination_by text.length
decreasing_by
  rw [‹text = _›]
  simp only [length_cons]
  omega

/-- A maximal run at the front of a text is the only one. -/
theorem Run.unique {escapes' text' : List Char} {bytes' : Bytes} (run : Run escapes bytes)
    (ended : escape text = none) (run' : Run escapes' bytes') (ended' : escape text' = none)
    (same : escapes ++ text = escapes' ++ text') :
  escapes = escapes' ∧ bytes = bytes' ∧ text = text'
  := by
  induction run generalizing escapes' bytes' with
  | nil =>
    cases run' with
    | nil => exact ⟨rfl, rfl, same⟩
    | cons high_digit low_digit run' =>
      rw [nil_append] at same
      rw [same, cons_append, cons_append, cons_append, escape_cons high_digit low_digit] at ended
      cases ended
  | cons high_digit low_digit run ih =>
    cases run' with
    | nil =>
      rw [nil_append] at same
      rw [← same, cons_append, cons_append, cons_append, escape_cons high_digit low_digit] at ended'
      cases ended'
    | cons high_digit' low_digit' run' =>
      simp only [cons_append, List.cons.injEq, true_and] at same
      obtain ⟨rfl, rfl, same⟩ := same
      obtain ⟨rfl, rfl, rfl⟩ := ih run' same
      exact ⟨rfl, rfl, rfl⟩

theorem Run.length (run : Run escapes bytes) :
  escapes.length = 3 * bytes.length
  := by
  induction run with
  | nil => rfl
  | cons _ _ _ ih =>
    simp only [length_cons, ih]
    omega

theorem Run.escape_append (run : Run escapes bytes) (some_ : bytes ≠ []) (text : List Char) :
  escape (escapes ++ text) ≠ none
  := by
  cases run with
  | nil => exact absurd rfl some_
  | cons high_digit low_digit run =>
    rw [cons_append, cons_append, cons_append, escape_cons high_digit low_digit]
    exact Option.some_ne_none _

/-- A text decodes to one text at most. -/
theorem Decodes.unique {decoded decoded' : List Char} (decodes : Decodes text decoded)
    (decodes' : Decodes text decoded') :
  decoded = decoded'
  := by
  induction decodes generalizing decoded' with
  | nil =>
    generalize same : ([] : List Char) = text at decodes'
    cases decodes' with
    | nil => rfl
    | keep => cases same
    | run run some_ =>
      obtain ⟨rfl, -⟩ := append_eq_nil_iff.mp same.symm
      cases run
      exact absurd rfl some_
  | @keep c text decoded plain _ ih =>
    generalize same : c :: text = whole at decodes'
    cases decodes' with
    | nil => cases same
    | keep plain' decodes' =>
      obtain ⟨rfl, rfl⟩ := cons_eq_cons.mp same
      rw [ih decodes']
    | run run some_ =>
      rw [same] at plain
      exact absurd plain (run.escape_append some_ _)
  | @run escapes text decoded bytes run some_ ended _ ih =>
    generalize same : escapes ++ text = whole at decodes'
    cases decodes' with
    | nil =>
      obtain ⟨rfl, -⟩ := append_eq_nil_iff.mp same
      cases run
      exact absurd rfl some_
    | keep plain =>
      rw [← same] at plain
      exact absurd plain (run.escape_append some_ _)
    | run run' _ ended' decodes' =>
      obtain ⟨rfl, rfl, rfl⟩ := run.unique ended run' ended' same
      rw [ih decodes']

/-- Characters that are no percent sign stand for themselves. -/
theorem Decodes.keep_all {kept decoded : List Char} (plain : ∀ c ∈ kept, c ≠ '%')
    (decodes : Decodes text decoded) :
  Decodes (kept ++ text) (kept ++ decoded)
  := by
  induction kept with
  | nil => exact decodes
  | cons c kept ih =>
    apply Decodes.keep
    · apply escape_of_ne
      apply plain c (mem_cons_self ..)
    · apply ih
      intro c mem
      apply plain c (mem_cons_of_mem _ mem)

/-! ### The bytes of an escape -/

theorem isHexDigit_iff :
  isHexDigit c ↔ 0x30 ≤ c.toNat ∧ c.toNat ≤ 0x39 ∨ 0x61 ≤ c.toNat ∧ c.toNat ≤ 0x66 ∨
    0x41 ≤ c.toNat ∧ c.toNat ≤ 0x46
  := by
  have same : c.toNat = c.val.toNat := rfl
  rw [isHexDigit, same]
  simp only [Bool.or_eq_true, Bool.and_eq_true, decide_eq_true_eq, Char.le_def,
    UInt32.le_iff_toNat_le, Char.reduceVal, UInt32.reduceToNat, or_assoc]

/-- A digit is one byte, which has the digit's value. -/
theorem hexValue_of_isHexDigit (digit : isHexDigit c) :
  ∃ byte, String.utf8EncodeChar c = [byte] ∧ hexValue byte = some (UInt8.ofNat (digitValue c)) ∧
    digitValue c < 16
  := by
  have number := isHexDigit_iff.mp digit
  have small : ∀ n, n < 128 → isHexDigit (Char.ofNat n) →
      String.utf8EncodeChar (Char.ofNat n) = [UInt8.ofNat n] ∧
        hexValue (UInt8.ofNat n) = some (UInt8.ofNat (digitValue (Char.ofNat n))) ∧
        digitValue (Char.ofNat n) < 16 := by
    decide
  have decoded := small c.toNat (by omega)
  rw [Char.ofNat_toNat] at decoded
  use UInt8.ofNat c.toNat
  apply decoded digit

theorem isHexDigit_of_hexValue {value : UInt8} (h : hexValue byte = some value)
    (mem : byte ∈ String.utf8EncodeChar c) :
  String.utf8EncodeChar c = [byte] ∧ isHexDigit c
  := by
  have range : 0x30 ≤ byte.toNat ∧ byte.toNat ≤ 0x39 ∨ 0x61 ≤ byte.toNat ∧ byte.toNat ≤ 0x66 ∨
      0x41 ≤ byte.toNat ∧ byte.toNat ≤ 0x46 := by
    rw [hexValue] at h
    simp only [UInt8.le_iff_toNat_le, UInt8.reduceToNat] at h
    split at h
    next decimal => exact Or.inl decimal
    next =>
    split at h
    next lower => exact Or.inr (Or.inl lower)
    next =>
    split at h
    next upper => exact Or.inr (Or.inr upper)
    next => cases h
  obtain ⟨single, same⟩ := utf8EncodeChar_of_mem_ascii mem (by omega)
  use single
  rw [isHexDigit_iff, same]
  apply range

/-- The digit at the front of a text, as the decoder reads it. -/
theorem hexValue_head (text : List Char) :
  (Utf8.encode text)[0]? >>= hexValue =
    match text with
    | c :: _ => if isHexDigit c then some (UInt8.ofNat (digitValue c)) else none
    | [] => none
  := by
  cases text with
  | nil => rfl
  | cons c text =>
    obtain ⟨first, bytes, parts⟩ := exists_cons_of_ne_nil (String.utf8EncodeChar_ne_nil (c := c))
    rw [encode_cons, parts, cons_append, getElem?_cons_zero]
    dsimp only [Option.bind_eq_bind, Option.bind_some]
    split
    next digit =>
      obtain ⟨byte, single, valued, -⟩ := hexValue_of_isHexDigit digit
      rw [parts] at single
      cases single
      apply valued
    next none_ =>
      match same : hexValue first with
      | none => rfl
      | some value =>
          have digit := isHexDigit_of_hexValue same (c := c) (by simp [parts])
          exact absurd digit.2 none_

theorem or_shift {high low : ℕ} (high_lt : high < 16) (low_lt : low < 16) :
  (UInt8.ofNat high <<< 4 ||| UInt8.ofNat low) = UInt8.ofNat (high * 16 + low)
  := by
  have all : ∀ high < 16, ∀ low < 16,
      (UInt8.ofNat high <<< 4 ||| UInt8.ofNat low) = UInt8.ofNat (high * 16 + low) := by
    decide
  apply all high high_lt low low_lt

theorem encode_percent (text : List Char) :
  Utf8.encode ('%' :: text) = percent :: Utf8.encode text
  := rfl

/-- The escape at the start of the bytes of a text is the one at the front of the text. -/
theorem escapeAt_encode (text : List Char) :
  escapeAt (Utf8.encode text) 0 = escape text
  := by
  cases text with
  | nil => rfl
  | cons c text =>
    by_cases same : c = '%'
    · rw [same, escapeAt, encode_percent, getElem?_cons_zero, if_pos rfl]
      simp only [getElem?_cons_succ, Nat.zero_add]
      have high_read := hexValue_head text
      simp only [Option.bind_eq_bind] at high_read ⊢
      rw [← Option.bind_assoc, high_read]
      cases text with
      | nil => rfl
      | cons high text =>
        dsimp only
        split
        next high_digit =>
          obtain ⟨byte, single, -, high_lt⟩ := hexValue_of_isHexDigit high_digit
          rw [encode_cons, single, singleton_append]
          have low_read := hexValue_head text
          simp only [Option.bind_eq_bind] at low_read
          rw [Option.bind_some, getElem?_cons_succ, ← Option.bind_assoc, low_read]
          cases text with
          | nil => rfl
          | cons low text =>
            rw [escape, high_digit, Bool.true_and]
            dsimp only
            split
            next low_digit =>
              obtain ⟨-, -, -, low_lt⟩ := hexValue_of_isHexDigit low_digit
              rw [Option.bind_some, or_shift high_lt low_lt, spelled]
            next => rfl
        next none_ =>
          cases text with
          | nil => rfl
          | cons low text =>
            rw [escape, if_neg]
            · rfl
            · rw [Bool.and_eq_true]
              exact fun digits => none_ digits.1
    · rw [escape_of_ne same, escapeAt, if_neg]
      intro first
      apply same
      obtain ⟨first', bytes, parts⟩ :=
        exists_cons_of_ne_nil (String.utf8EncodeChar_ne_nil (c := c))
      rw [encode_cons, parts, cons_append, getElem?_cons_zero] at first
      cases first
      obtain ⟨-, number⟩ := utf8EncodeChar_of_mem_ascii (c := c) (b := percent)
        (by simp [parts]) (by decide)
      apply Char.toNat_inj.mp
      rw [number]
      rfl

theorem escapeAt_append (front : Bytes) (text : List Char) :
  escapeAt (front ++ Utf8.encode text) front.length = escape text
  := by
  rw [← escapeAt_encode, escapeAt, escapeAt]
  simp only [getElem?_append_right, Nat.le_refl, Nat.le_add_right, Nat.sub_self,
    Nat.add_sub_cancel_left, Nat.zero_add]

/-- The run at an index is the one at the front of the text that begins there. -/
theorem runAt_append (run : Run escapes bytes) (ended : escape text = none) (front : Bytes) :
  runAt (front ++ Utf8.encode (escapes ++ text)) front.length =
    (bytes, (front ++ Utf8.encode escapes).length)
  := by
  induction run generalizing front with
  | nil =>
    rw [runAt]
    split
    next byte some_ =>
      rw [escapeAt_append, nil_append, ended] at some_
      cases some_
    next => rw [encode_nil, append_nil]
  | @cons high low escapes bytes high_digit low_digit run ih =>
    obtain ⟨high', high_single, -⟩ := hexValue_of_isHexDigit high_digit
    obtain ⟨low', low_single, -⟩ := hexValue_of_isHexDigit low_digit
    have parts : ∀ rest, Utf8.encode ('%' :: high :: low :: rest) =
        [percent, high', low'] ++ Utf8.encode rest := by
      intro rest
      rw [encode_percent, encode_cons, high_single, encode_cons, low_single]
      rfl
    have here : escapeAt (front ++ Utf8.encode ('%' :: high :: low :: escapes ++ text))
        front.length = some (spelled high low) := by
      rw [escapeAt_append, cons_append, cons_append, cons_append, escape_cons high_digit low_digit]
    have next := ih (front ++ [percent, high', low'])
    rw [length_append, append_assoc, append_assoc, ← parts, ← parts] at next
    rw [runAt]
    split
    next byte some_ =>
      rw [here] at some_
      cases some_
      rw [show front.length + 3 = front.length + [percent, high', low'].length from rfl]
      simp only [cons_append] at next ⊢
      rw [next]
    next none_ =>
      rw [here] at none_
      cases none_

/-! ### The walk -/

/-- The next percent sign is the one that begins what is left. -/
theorem nextPercent_append (front : List Char) {kept rest : List Char} (c : Char) (plain : ∀ k ∈ kept, k ≠ '%')
    (begins : rest = [] ∨ ∃ c text, rest = c :: text ∧ c = '%') :
  nextPercent (Utf8.encode (front ++ c :: kept ++ rest)) (Utf8.encode front).length =
    (Utf8.encode (front ++ c :: kept)).length
  := by
  obtain ⟨first, bytes, parts⟩ :=
    exists_cons_of_ne_nil (String.utf8EncodeChar_ne_nil (c := c))
  have behind : (Utf8.encode (front ++ c :: kept ++ rest)).drop ((Utf8.encode front).length + 1) =
      bytes ++ Utf8.encode kept ++ Utf8.encode rest := by
    rw [encode_append, encode_append, encode_cons, parts, append_assoc,
      drop_append, drop_eq_nil_of_le (Nat.le_succ _), Nat.add_sub_cancel_left]
    rfl
  have length : (Utf8.encode (front ++ c :: kept)).length =
      (Utf8.encode front).length + 1 + (bytes ++ Utf8.encode kept).length := by
    rw [encode_append, encode_cons, parts]
    simp only [length_append, length_cons]
    omega
  have none_ : (bytes ++ Utf8.encode kept).findIdx? (· = percent) = none := by
    rw [findIdx?_eq_none_iff]
    intro byte mem
    rw [decide_eq_false_iff_not]
    rintro rfl
    rcases mem_append.mp mem with mem | mem
    · have tail : percent ∈ (String.utf8EncodeChar c).tail := by
        rw [parts]
        apply mem
      obtain ⟨le, -⟩ := utf8EncodeChar_tail tail
      revert le
      decide
    · apply plain '%' _ rfl
      apply mem_of_mem_encode (b := percent) _ rfl mem
      decide
  rw [nextPercent, behind, findIdx?_append, none_, Option.none_or]
  rcases begins with rfl | ⟨_, text, rfl, rfl⟩
  · rw [encode_nil, append_nil]
    rfl
  · rw [encode_percent, findIdx?_cons, if_pos (by decide), Option.map_some, length, Nat.zero_add]

/-- A text up to its first character with a property. -/
theorem exists_span (p : Char → Prop) (text : List Char) :
  ∃ kept rest, text = kept ++ rest ∧ (∀ k ∈ kept, ¬p k) ∧
    (rest = [] ∨ ∃ c text, rest = c :: text ∧ p c)
  := by
  induction text with
  | nil => exact ⟨[], [], rfl, by simp, Or.inl rfl⟩
  | cons c text ih =>
    by_cases has : p c
    · exact ⟨[], c :: text, rfl, by simp, Or.inr ⟨c, text, rfl, has⟩⟩
    · obtain ⟨kept, rest, rfl, plain, begins⟩ := ih
      refine ⟨c :: kept, rest, rfl, ?_, begins⟩
      rintro k (_ | ⟨_, mem⟩)
      · exact has
      · exact plain k mem

/-- The walk from the edge of a character on. -/
theorem decodeFrom_append (front text decoded : List Char) :
  ∃ out, Decodes text out ∧
    decodeFrom (Utf8.encode (front ++ text)) (Utf8.encode front).length decoded =
      some (decoded ++ out)
  := by
  induction size : text.length using Nat.strong_induction_on generalizing front text decoded with
  | _ n ih =>
  cases text with
  | nil =>
    use [], Decodes.nil
    rw [decodeFrom, append_nil, dif_neg (Nat.lt_irrefl _), append_nil]
  | cons c text =>
    rw [length_cons] at size
    have lt : (Utf8.encode front).length < (Utf8.encode (front ++ c :: text)).length := by
      rw [encode_append, length_append, encode_cons, length_append]
      have some_ := length_pos_iff.mpr (String.utf8EncodeChar_ne_nil (c := c))
      omega
    obtain ⟨escapes, bytes, rest, parts, run, ended⟩ := exists_run (c :: text)
    have read := runAt_append run ended (Utf8.encode front)
    rw [← encode_append, ← encode_append, ← parts] at read
    rw [decodeFrom, dif_pos lt]
    split
    next stop none_ =>
      rw [read] at none_
      cases none_
      cases run
      rw [nil_append] at parts
      rw [← parts] at ended
      obtain ⟨kept, rest', rfl, plain, begins⟩ := exists_span (· = '%') text
      have next := nextPercent_append front c plain begins
      have cut := slice_append front (c :: kept) rest'
      rw [length_append] at size
      obtain ⟨out, decodes, walked⟩ :=
        ih rest'.length (by omega) (front ++ c :: kept) rest' (decoded ++ c :: kept) rfl
      rw [append_assoc, cons_append] at next cut walked
      use c :: kept ++ out
      constructor
      · apply Decodes.keep ended (Decodes.keep_all plain decodes)
      · dsimp only
        rw [next, cut]
        dsimp only [Option.bind_eq_bind, Option.bind_some]
        rw [walked, append_assoc]
    next byte run' stop some_ =>
      rw [read] at some_
      cases some_
      have shorter := run.length
      have total := congrArg List.length parts
      simp only [length_cons, length_append] at shorter total
      have cut := slice_append front escapes rest
      rw [append_assoc, ← parts] at cut
      have walked : ∀ read, ∃ out, Decodes rest out ∧
          decodeFrom (Utf8.encode (front ++ c :: text)) (Utf8.encode (front ++ escapes)).length
            (decoded ++ read) = some (decoded ++ (read ++ out)) := by
        intro read
        obtain ⟨out, decodes, walked⟩ :=
          ih rest.length (by omega) (front ++ escapes) rest (decoded ++ read) rfl
        rw [append_assoc, ← parts, append_assoc] at walked
        use out
      obtain ⟨out, decodes, walked⟩ := walked ((Utf8.text? (byte :: run')).getD escapes)
      have ran := Decodes.run run (cons_ne_nil _ _) ended decodes
      rw [← parts] at ran
      refine ⟨_, ran, ?_⟩
      split
      next read valid =>
        rw [valid] at walked ⊢
        apply walked
      next invalid =>
        rw [invalid] at walked ⊢
        rw [cut]
        apply walked

/-! ### The round trip -/

theorem unreserved_ascii (unreserved : isUnreserved byte) :
  byte.toNat < 128 ∧ char byte ≠ '%'
  := by
  have ascii : byte.toNat < 128 := by
    rw [isUnreserved] at unreserved
    simp only [any_cons, any_nil, Bool.or_eq_true, Bool.and_eq_true, decide_eq_true_eq,
      UInt8.le_iff_toNat_le, UInt8.reduceToNat, Char.reduceToNat, Bool.false_eq_true,
      or_false] at unreserved
    omega
  have small : ∀ n < 128, isUnreserved (UInt8.ofNat n) → Char.ofNat n ≠ '%' := by
    decide
  use ascii
  apply small byte.toNat ascii
  rw [UInt8.ofNat_toNat]
  apply unreserved

/-- The digits of a half of a byte. -/
theorem hexDigit_spec (half : UInt8) (lt : half.toNat < 16) :
  isHexDigit (hexDigit half) ∧ digitValue (hexDigit half) = half.toNat
  := by
  have all : ∀ n < 16, isHexDigit (hexDigit (UInt8.ofNat n)) ∧
      digitValue (hexDigit (UInt8.ofNat n)) = n := by
    decide
  have digit := all half.toNat lt
  rw [UInt8.ofNat_toNat] at digit
  apply digit

/-- Reserved bytes are written as a run that spells them. -/
theorem Run.encodeByte (reserved : ∀ byte ∈ bytes, ¬isUnreserved byte) :
  Run (bytes.flatMap Url.encodeByte) bytes
  := by
  induction bytes with
  | nil => exact Run.nil
  | cons byte bytes ih =>
    have high : (byte >>> 4).toNat = byte.toNat / 16 := by
      rw [UInt8.toNat_shiftRight, Nat.shiftRight_eq_div_pow]
      rfl
    have low : (byte &&& 0x0F).toNat = byte.toNat % 16 := by
      rw [UInt8.toNat_and]
      exact Nat.and_two_pow_sub_one_eq_mod byte.toNat 4
    have bound : byte.toNat < 256 := byte.toNat_lt
    obtain ⟨high_digit, high_value⟩ := hexDigit_spec (byte >>> 4) (by omega)
    obtain ⟨low_digit, low_value⟩ := hexDigit_spec (byte &&& 0x0F) (by omega)
    have same : byte = spelled (hexDigit (byte >>> 4)) (hexDigit (byte &&& 0x0F)) := by
      rw [spelled, high_value, low_value, high, low, ← UInt8.toNat_inj, UInt8.toNat_ofNat']
      omega
    have rest := ih fun byte mem => reserved byte (mem_cons_of_mem _ mem)
    rw [flatMap_cons, Url.encodeByte, if_neg (reserved byte (mem_cons_self ..))]
    have run := Run.cons high_digit low_digit rest
    rw [← same] at run
    apply run

/-- A character that is written as itself. -/
def Unreserved (c : Char) : Prop :=
  ∃ byte ∈ String.utf8EncodeChar c, isUnreserved byte

theorem percentEncode_cons (unreserved : Unreserved c) (text : List Char) :
  c ≠ '%' ∧ percentEncode (c :: text) = c :: percentEncode text
  := by
  obtain ⟨byte, mem, unreserved⟩ := unreserved
  obtain ⟨ascii, ne⟩ := unreserved_ascii unreserved
  obtain ⟨single, same⟩ := utf8EncodeChar_of_mem_ascii mem ascii
  have char_eq : char byte = c := by
    rw [char, ← same, Char.ofNat_toNat]
  rw [char_eq] at ne
  use ne
  rw [percentEncode, encode_cons, single, singleton_append, flatMap_cons,
    encodeByte, if_pos unreserved, char_eq]
  rfl

/-- What is written for a text decodes to it. -/
theorem decodes_percentEncode (text : List Char) : Decodes (percentEncode text) text := by
  induction size : text.length using Nat.strong_induction_on generalizing text with
  | _ n ih =>
  obtain ⟨kept, rest, rfl, reserved, begins⟩ := exists_span Unreserved text
  rw [length_append] at size
  have tail : Decodes (percentEncode rest) rest ∧ escape (percentEncode rest) = none := by
    rcases begins with rfl | ⟨c, rest, rfl, unreserved⟩
    · exact ⟨Decodes.nil, rfl⟩
    · obtain ⟨ne, written⟩ := percentEncode_cons unreserved rest
      rw [length_cons] at size
      rw [written]
      constructor
      · apply Decodes.keep (escape_of_ne ne _)
        apply ih rest.length (by omega) rest rfl
      · apply escape_of_ne ne
  have run : Run (percentEncode kept) (Utf8.encode kept) := by
    apply Run.encodeByte
    intro byte mem unreserved
    obtain ⟨c, mem, mem'⟩ := mem_flatMap.mp mem
    apply reserved c mem ⟨byte, mem', unreserved⟩
  have parts : percentEncode (kept ++ rest) = percentEncode kept ++ percentEncode rest := by
    rw [percentEncode, encode_append, flatMap_append]
    rfl
  rw [parts]
  cases kept with
  | nil => exact tail.1
  | cons c kept =>
    have some_ : Utf8.encode (c :: kept) ≠ [] := by
      rw [encode_cons]
      apply append_ne_nil_of_left_ne_nil String.utf8EncodeChar_ne_nil
    have decodes := Decodes.run run some_ tail.2 tail.1
    rw [Utf8.text?_encode] at decodes
    apply decodes

/-- Decoding undoes encoding.  Every text is decoded, to itself with each maximal run of escapes
read where its bytes are text. -/
theorem percentDecode_total :
  (∀ text, percentDecode (percentEncode text) = some text) ∧
    ∀ text, ∃ out, percentDecode text = some out ∧ ∀ out', Decodes text out' ↔ out' = out
  := by
  have walk : ∀ text, ∃ out, Decodes text out ∧ percentDecode text = some out := by
    intro text
    apply decodeFrom_append [] text []
  constructor
  · intro text
    obtain ⟨out, decodes, walked⟩ := walk (percentEncode text)
    rw [walked, decodes.unique (decodes_percentEncode text)]
  · intro text
    obtain ⟨out, decodes, walked⟩ := walk text
    use out, walked
    intro out'
    constructor
    · intro decodes'
      apply decodes'.unique decodes
    · rintro rfl
      apply decodes

end Vilan.Native.Url
