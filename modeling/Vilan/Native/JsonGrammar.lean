import Vilan.Native.Json
import Mathlib.Data.Char
import Mathlib.Data.List.TakeWhile
import Mathlib.Data.List.Induction
import Mathlib.Data.List.Nodup

/-!
# The JSON grammar

The grammar of ECMA-404, and the value of a text of it.  A rule relates the text it starts at,
what it derives and the text that remains.  The native parser accepts exactly the texts of the
grammar that nest no deeper than it descends, and answers their values.
-/

namespace Vilan.Native

open List JsonParser

/-! ### The grammar -/

/-- Whitespace. -/
def IsSpace (input rest : List Char) : Prop :=
  ∃ spaces : List Char, input = spaces ++ rest
    ∧ ∀ c ∈ spaces, c = ' ' ∨ c = '\t' ∨ c = '\n' ∨ c = '\r'

/-- Four hexadecimal digits. -/
def IsHex4 (input : List Char) (code : ℕ) (rest : List Char) : Prop :=
  ∃ a b c d a' b' c' d', input = a :: b :: c :: d :: rest
    ∧ toDigit 16 a = some a' ∧ toDigit 16 b = some b' ∧ toDigit 16 c = some c'
    ∧ toDigit 16 d = some d' ∧ code = a' * 4096 + b' * 256 + c' * 16 + d'

def IsHigh (code : ℕ) : Prop :=
  0xD800 ≤ code ∧ code < 0xDC00

def IsLow (code : ℕ) : Prop :=
  0xDC00 ≤ code ∧ code < 0xE000

instance (code : ℕ) : Decidable (IsHigh code) :=
  inferInstanceAs (Decidable (_ ∧ _))

instance (code : ℕ) : Decidable (IsLow code) :=
  inferInstanceAs (Decidable (_ ∧ _))

/-- The escapes of one character. -/
def escapes : List (Char × Char) :=
  [('"', '"'), ('\\', '\\'), ('/', '/'), ('b', '\x08'), ('f', '\x0c'), ('n', '\n'), ('r', '\r'),
    ('t', '\t')]

/-- The characters of a string and its closing quote.  The escapes of a surrogate pair are one
character; the escape of a surrogate that is in no pair is U+FFFD. -/
inductive IsString : List Char → List Char → List Char → Prop
  | close (rest : List Char) : IsString ('"' :: rest) [] rest
  | plain {c : Char} {input out rest : List Char} (hquote : c ≠ '"') (hescape : c ≠ '\\')
      (hcontrol : ' ' ≤ c) (h : IsString input out rest) : IsString (c :: input) (c :: out) rest
  | simple {c e : Char} {input out rest : List Char} (he : (c, e) ∈ escapes)
      (h : IsString input out rest) : IsString ('\\' :: c :: input) (e :: out) rest
  | unicode {c : Char} {code : ℕ} {input after out rest : List Char}
      (hcode : IsHex4 input code after) (hchar : c.toNat = code) (h : IsString after out rest) :
      IsString ('\\' :: 'u' :: input) (c :: out) rest
  | pair {c : Char} {high low : ℕ} {input middle after out rest : List Char}
      (hhigh : IsHex4 input high ('\\' :: 'u' :: middle)) (hishigh : IsHigh high)
      (hlow : IsHex4 middle low after) (hislow : IsLow low)
      (hchar : c.toNat = 0x10000 + (high - 0xD800) * 0x400 + (low - 0xDC00))
      (h : IsString after out rest) : IsString ('\\' :: 'u' :: input) (c :: out) rest
  | loneHigh {high : ℕ} {input after out rest : List Char} (hhigh : IsHex4 input high after)
      (hishigh : IsHigh high)
      (hlone : ∀ middle low after', after = '\\' :: 'u' :: middle → IsHex4 middle low after' →
        ¬ IsLow low)
      (h : IsString after out rest) : IsString ('\\' :: 'u' :: input) ('\uFFFD' :: out) rest
  | loneLow {low : ℕ} {input after out rest : List Char} (hlow : IsHex4 input low after)
      (hislow : IsLow low) (h : IsString after out rest) :
      IsString ('\\' :: 'u' :: input) ('\uFFFD' :: out) rest

def IsDigits (text : List Char) : Prop :=
  ∀ c ∈ text, '0' ≤ c ∧ c ≤ '9'

/-- The text of a number. -/
structure IsNumber (text : List Char) : Prop where
  parts : ∃ sign integer fraction exponent, text = sign ++ integer ++ fraction ++ exponent
    ∧ (sign = [] ∨ sign = ['-'])
    ∧ (integer = ['0'] ∨ ∃ c more, integer = c :: more ∧ '1' ≤ c ∧ c ≤ '9' ∧ IsDigits more)
    ∧ (fraction = [] ∨ ∃ c more, fraction = '.' :: c :: more ∧ IsDigits (c :: more))
    ∧ (exponent = [] ∨ ∃ e sign' c more, exponent = e :: (sign' ++ c :: more)
      ∧ (e = 'e' ∨ e = 'E') ∧ (sign' = [] ∨ sign' = ['+'] ∨ sign' = ['-']) ∧ IsDigits (c :: more))

/-- The items of an aggregate, one at least, separated by commas, and its closing bracket. -/
inductive IsItems {A : Type} (item : List Char → A → List Char → Prop) (close : Char) :
    List Char → List A → List Char → Prop
  | last {input a b rest : List Char} {found : A} (hbefore : IsSpace input a)
      (hitem : item a found b) (hafter : IsSpace b (close :: rest)) :
      IsItems item close input [found] rest
  | more {input a b c rest : List Char} {found : A} {others : List A} (hbefore : IsSpace input a)
      (hitem : item a found b) (hafter : IsSpace b (',' :: c))
      (h : IsItems item close c others rest) : IsItems item close input (found :: others) rest

/-- An aggregate, between its brackets. -/
def IsAggregate {A : Type} (item : List Char → A → List Char → Prop) (opener close : Char)
    (input : List Char) (items : List A) (rest : List Char) : Prop :=
  ∃ a, input = opener :: a
    ∧ ((items = [] ∧ IsSpace a (close :: rest)) ∨ IsItems item close a items rest)

/-- A key and its value. -/
def IsMember {V : Type} (value : List Char → V → List Char → Prop) (input : List Char)
    (member : List Char × V) (rest : List Char) : Prop :=
  ∃ a b c d, input = '"' :: a ∧ IsString a member.1 b ∧ IsSpace b (':' :: c) ∧ IsSpace c d
    ∧ value d member.2 rest

/-- The entries that members leave: every key, where it occurs first, with its last value. -/
def lastValues {V : Type} (members : List (List Char × V)) : List (List Char × V) :=
  (members.map Prod.fst).eraseDups.filterMap fun key =>
    (members.reverse.lookup key).map fun found => (key, found)

variable {F : Type} (nearest : List Char → F)

/-- A value whose items, if it is an aggregate, are derived by a relation. -/
inductive IsValueOver (value : List Char → JsonValue (List Char) F → List Char → Prop) :
    List Char → JsonValue (List Char) F → List Char → Prop
  | null (rest : List Char) : IsValueOver value ("null".toList ++ rest) .null rest
  | yes (rest : List Char) : IsValueOver value ("true".toList ++ rest) (.bool true) rest
  | no (rest : List Char) : IsValueOver value ("false".toList ++ rest) (.bool false) rest
  | text {input out rest : List Char} (h : IsString input out rest) :
      IsValueOver value ('"' :: input) (.text out) rest
  | number {text : List Char} (rest : List Char) (h : IsNumber text) :
      IsValueOver value (text ++ rest) (.number (nearest text)) rest
  | array {input rest : List Char} {items : List (JsonValue (List Char) F)}
      (h : IsAggregate value '[' ']' input items rest) :
      IsValueOver value input (.array items) rest
  | object {input rest : List Char} {members : List (List Char × JsonValue (List Char) F)}
      (h : IsAggregate (IsMember value) '{' '}' input members rest) :
      IsValueOver value input (.object (lastValues members)) rest

/-- A value of at most so many levels. -/
def IsValue : ℕ → List Char → JsonValue (List Char) F → List Char → Prop
  | 0 => fun _ _ _ => False
  | levels + 1 => IsValueOver nearest (IsValue levels)

/-- A JSON text of at most so many levels, and its value. -/
def IsText (levels : ℕ) (text : List Char) (found : JsonValue (List Char) F) : Prop :=
  ∃ a b, IsSpace text a ∧ IsValue nearest levels a found b ∧ IsSpace b []

/-! ### Whitespace -/

variable {c expected : Char} {input rest after out : List Char} {code fuel : ℕ} {V : Type}

theorem isWhitespace_iff :
  isWhitespace c = true ↔ c = ' ' ∨ c = '\t' ∨ c = '\n' ∨ c = '\r'
  := by
  simp [isWhitespace, or_assoc]

theorem isSpace_skipWhitespace (input : List Char) :
  IsSpace input (skipWhitespace input)
  := by
  refine ⟨input.takeWhile isWhitespace, takeWhile_append_dropWhile.symm, ?_⟩
  intro c hc
  rw [← isWhitespace_iff]
  apply mem_takeWhile_imp hc

theorem skipWhitespace_of_isSpace (h : IsSpace input rest)
    (hrest : ∀ c ∈ rest.head?, isWhitespace c = false) :
  skipWhitespace input = rest
  := by
  obtain ⟨spaces, rfl, hspaces⟩ := h
  rw [skipWhitespace, dropWhile_append_of_pos]
  · cases rest with
    | nil => rfl
    | cons c rest =>
      rw [dropWhile_cons_of_neg]
      rw [hrest c rfl]
      simp
  · intro c hc
    rw [isWhitespace_iff]
    apply hspaces c hc

theorem IsSpace.refl (input : List Char) :
  IsSpace input input
  := ⟨[], rfl, by simp⟩

theorem IsSpace.trans {a b c : List Char} (h : IsSpace a b) (h' : IsSpace b c) :
  IsSpace a c
  := by
  obtain ⟨spaces, rfl, hspaces⟩ := h
  obtain ⟨spaces', rfl, hspaces'⟩ := h'
  refine ⟨spaces ++ spaces', by rw [append_assoc], ?_⟩
  intro c hc
  rcases mem_append.mp hc with hc | hc
  · apply hspaces c hc
  · apply hspaces' c hc

theorem IsSpace.length_le (h : IsSpace input rest) :
  rest.length ≤ input.length
  := by
  obtain ⟨spaces, rfl, -⟩ := h
  simp

/-! ### Strings -/

theorem eat_eq_some_iff :
  eat expected input = some rest ↔ input = expected :: rest
  := by
  cases input with
  | nil => simp [eat]
  | cons c input =>
    rw [eat, List.cons.injEq]
    split
    · next h => simp [h]
    · next h => simp [h]

theorem eat_cons (c : Char) (rest : List Char) :
  eat c (c :: rest) = some rest
  := eat_eq_some_iff.2 rfl

theorem hex4_eq_some_iff :
  hex4 input = some (code, rest) ↔ IsHex4 input code rest
  := by
  constructor
  · intro h
    rw [hex4.eq_def] at h
    split at h
    · next a b c d rest' =>
        simp only [Option.bind_eq_bind, Option.bind_eq_some_iff, Option.some_inj,
          Prod.mk.injEq] at h
        obtain ⟨a', ha, b', hb, c', hc, d', hd, rfl, rfl⟩ := h
        exact ⟨a, b, c, d, a', b', c', d', rfl, ha, hb, hc, hd, by omega⟩
    · contradiction
  · rintro ⟨a, b, c, d, a', b', c', d', rfl, ha, hb, hc, hd, rfl⟩
    rw [hex4, ha, hb, hc, hd]
    simp only [Option.bind_eq_bind, Option.bind_some, Option.some_inj, Prod.mk.injEq, and_true]
    omega

theorem IsHex4.length (h : IsHex4 input code rest) :
  input.length = rest.length + 4
  := by
  obtain ⟨a, b, c, d, a', b', c', d', rfl, -⟩ := h
  simp

theorem toNat_ofNat (h : code.isValidChar) :
  (Char.ofNat code).toNat = code
  := by
  rw [Char.ofNat, dif_pos h]
  rfl

theorem fromU32_eq_some_iff :
  fromU32 code = some c ↔ c.toNat = code
  := by
  rw [fromU32]
  constructor
  · intro h
    split at h
    · next hvalid =>
        rw [Option.some_inj] at h
        rw [← h, toNat_ofNat hvalid]
    · contradiction
  · rintro rfl
    have hvalid : c.toNat.isValidChar := c.valid
    rw [if_pos hvalid, Char.ofNat_toNat]

theorem lowSurrogate_eq_some_iff {low : ℕ} :
  lowSurrogate input = some (low, rest)
    ↔ ∃ middle, input = '\\' :: 'u' :: middle ∧ IsHex4 middle low rest ∧ IsLow low
  := by
  simp only [lowSurrogate, Option.bind_eq_bind, Option.bind_eq_some_iff, eat_eq_some_iff,
    Prod.exists, hex4_eq_some_iff]
  constructor
  · rintro ⟨a, rfl, b, rfl, second, after, hhex, h⟩
    split at h
    · next hlow =>
        rw [Option.some_inj, Prod.mk.injEq] at h
        obtain ⟨rfl, rfl⟩ := h
        exact ⟨b, rfl, hhex, hlow⟩
    · contradiction
  · rintro ⟨middle, rfl, hhex, hlow⟩
    refine ⟨_, rfl, _, rfl, low, rest, hhex, ?_⟩
    apply if_pos hlow

/-- The character of a surrogate pair. -/
theorem exists_pair {high low : ℕ} (hhigh : IsHigh high) (hlow : IsLow low) :
  ∃ c : Char, c.toNat = 0x10000 + (high - 0xD800) * 0x400 + (low - 0xDC00)
  := by
  obtain ⟨hhigh, hhigh'⟩ := hhigh
  obtain ⟨hlow, hlow'⟩ := hlow
  have hvalid : (0x10000 + (high - 0xD800) * 0x400 + (low - 0xDC00)).isValidChar := by
    right
    constructor <;> omega
  use Char.ofNat (0x10000 + (high - 0xD800) * 0x400 + (low - 0xDC00))
  rw [toNat_ofNat hvalid]

theorem pair_code (high low : ℕ) :
  0x10000 + (high - 0xD800) <<< 10 + (low - 0xDC00)
    = 0x10000 + (high - 0xD800) * 0x400 + (low - 0xDC00)
  := by
  rw [Nat.shiftLeft_eq]

theorem escape_sound (h : escape input = some (c, after)) (hrest : IsString after out rest) :
  IsString ('\\' :: 'u' :: input) (c :: out) rest
  := by
  simp only [escape, Option.bind_eq_bind, Option.bind_eq_some_iff, Prod.exists,
    hex4_eq_some_iff] at h
  obtain ⟨first, middle, hfirst, h⟩ := h
  split at h
  · next hhigh =>
      split at h
      · next second after' hlow =>
          rw [lowSurrogate_eq_some_iff] at hlow
          obtain ⟨middle', rfl, hhex, hlow⟩ := hlow
          obtain ⟨c', hc'⟩ := exists_pair hhigh hlow
          rw [pair_code, fromU32_eq_some_iff.2 hc', Option.getD_some, Option.some_inj,
            Prod.mk.injEq] at h
          obtain ⟨rfl, rfl⟩ := h
          apply IsString.pair hfirst hhigh hhex hlow hc' hrest
      · next hnone =>
          rw [Option.some_inj, Prod.mk.injEq] at h
          obtain ⟨rfl, rfl⟩ := h
          apply IsString.loneHigh hfirst hhigh _ hrest
          intro middle' low after' hmiddle hhex hlow
          have hsome := lowSurrogate_eq_some_iff.2 ⟨middle', hmiddle, hhex, hlow⟩
          rw [hnone] at hsome
          contradiction
  · split at h
    · next hlow =>
        rw [Option.some_inj, Prod.mk.injEq] at h
        obtain ⟨rfl, rfl⟩ := h
        apply IsString.loneLow hfirst hlow hrest
    · rw [Option.map_eq_some_iff] at h
      obtain ⟨c', hc', h⟩ := h
      rw [Prod.mk.injEq] at h
      obtain ⟨rfl, rfl⟩ := h
      apply IsString.unicode hfirst (fromU32_eq_some_iff.1 hc') hrest

/-- A character is no surrogate. -/
theorem not_surrogate (c : Char) :
  ¬ IsHigh c.toNat ∧ ¬ IsLow c.toNat
  := by
  have hvalid : c.toNat.isValidChar := c.valid
  rw [IsHigh, IsLow]
  rcases hvalid with hvalid | ⟨hvalid, -⟩
  · omega
  · omega

theorem escape_of_hex4 (h : IsHex4 input code after) :
  escape input =
    if IsHigh code then
      match lowSurrogate after with
      | some (second, rest) =>
          some ((fromU32 (0x10000 + (code - 0xD800) <<< 10 + (second - 0xDC00))).getD '\uFFFD',
            rest)
      | none => some ('\uFFFD', after)
    else if IsLow code then some ('\uFFFD', after)
    else (fromU32 code).map fun c => (c, after)
  := by
  rw [escape, hex4_eq_some_iff.2 h]
  rfl

theorem simpleEscape_eq_some_iff {e : Char} :
  simpleEscape c = some e ↔ (c, e) ∈ escapes
  := by
  simp only [simpleEscape, escapes, mem_cons, Prod.mk.injEq, not_mem_nil, or_false]
  grind

theorem stringBody_sound {found : List Char} (h : stringBody fuel out input = some (found, rest)) :
  ∃ more, found = out ++ more ∧ IsString input more rest
  := by
  induction fuel generalizing out input with
  | zero => contradiction
  | succ fuel ih =>
    cases input with
    | nil => contradiction
    | cons c input =>
      rw [stringBody] at h
      split at h
      · next hquote =>
          rw [Option.some_inj, Prod.mk.injEq] at h
          obtain ⟨rfl, rfl⟩ := h
          subst hquote
          refine ⟨[], by rw [append_nil], IsString.close _⟩
      · next hquote =>
          split at h
          · next hescape =>
              subst hescape
              simp only [Option.bind_eq_bind, Option.bind_eq_some_iff, Prod.exists] at h
              obtain ⟨e, after, hescaped, h⟩ := h
              obtain ⟨more, rfl, hmore⟩ := ih h
              refine ⟨e :: more, by simp, ?_⟩
              rw [escaped.eq_def] at hescaped
              split at hescaped
              · apply escape_sound hescaped hmore
              · rw [Option.map_eq_some_iff] at hescaped
                obtain ⟨e', he', hescaped⟩ := hescaped
                rw [Prod.mk.injEq] at hescaped
                obtain ⟨rfl, rfl⟩ := hescaped
                apply IsString.simple (simpleEscape_eq_some_iff.1 he') hmore
              · contradiction
          · next hescape =>
              split at h
              · contradiction
              · next hcontrol =>
                  obtain ⟨more, rfl, hmore⟩ := ih h
                  refine ⟨c :: more, by simp, ?_⟩
                  apply IsString.plain hquote hescape (not_lt.mp hcontrol) hmore

theorem stringBody_escape (h : escape input = some (c, after)) :
  stringBody (fuel + 1) out ('\\' :: 'u' :: input) = stringBody fuel (out ++ [c]) after
  := by
  rw [stringBody, if_neg (by decide), if_pos rfl, escaped, h]
  rfl

theorem stringBody_complete {more : List Char} (h : IsString input more rest)
    (hfuel : input.length ≤ fuel) (out : List Char) :
  stringBody fuel out input = some (out ++ more, rest)
  := by
  induction h generalizing fuel out with
  | close rest =>
    obtain ⟨fuel, rfl⟩ := Nat.exists_eq_add_of_lt hfuel
    rw [stringBody, if_pos rfl, append_nil]
  | @plain c input more rest hquote hescape hcontrol _ ih =>
    obtain ⟨fuel, rfl⟩ := Nat.exists_eq_add_of_lt hfuel
    rw [stringBody, if_neg hquote, if_neg hescape, if_neg (not_lt.mpr hcontrol), ih (by omega),
      append_assoc, singleton_append]
  | @simple c e input more rest he _ ih =>
    rw [length_cons, length_cons] at hfuel
    obtain ⟨fuel, rfl⟩ := Nat.exists_eq_add_of_lt hfuel
    have hne : c ≠ 'u' := by
      rintro rfl
      simp [escapes] at he
    have hescaped : escaped (c :: input) = some (e, input) := by
      rw [escaped, simpleEscape_eq_some_iff.2 he]
      · rfl
      · apply hne
    rw [stringBody, if_neg (by decide), if_pos rfl, hescaped]
    change stringBody _ (out ++ [e]) input = _
    rw [ih (by omega), append_assoc, singleton_append]
  | @unicode c code input after more rest hcode hchar _ ih =>
    rw [length_cons, length_cons, hcode.length] at hfuel
    obtain ⟨fuel, rfl⟩ := Nat.exists_eq_add_of_lt hfuel
    have hescape : escape input = some (c, after) := by
      rw [escape_of_hex4 hcode, ← hchar, if_neg (not_surrogate c).1, if_neg (not_surrogate c).2,
        fromU32_eq_some_iff.2 rfl]
      rfl
    rw [stringBody_escape hescape, ih (by omega), append_assoc, singleton_append]
  | @pair c high low input middle after more rest hhigh hishigh hlow hislow hchar _ ih =>
    have hlength := hlow.length
    rw [length_cons, length_cons, hhigh.length, length_cons, length_cons] at hfuel
    obtain ⟨fuel, rfl⟩ := Nat.exists_eq_add_of_lt hfuel
    have hescape : escape input = some (c, after) := by
      rw [escape_of_hex4 hhigh, if_pos hishigh,
        lowSurrogate_eq_some_iff.2 ⟨middle, rfl, hlow, hislow⟩]
      simp only [pair_code, fromU32_eq_some_iff.2 hchar, Option.getD_some]
    rw [stringBody_escape hescape, ih (by omega), append_assoc, singleton_append]
  | @loneHigh high input after more rest hhigh hishigh hlone _ ih =>
    rw [length_cons, length_cons, hhigh.length] at hfuel
    obtain ⟨fuel, rfl⟩ := Nat.exists_eq_add_of_lt hfuel
    have hnone : lowSurrogate after = none := by
      rw [Option.eq_none_iff_forall_ne_some]
      rintro ⟨low, after'⟩ hsome
      rw [lowSurrogate_eq_some_iff] at hsome
      obtain ⟨middle, rfl, hhex, hislow⟩ := hsome
      apply hlone middle low after' rfl hhex hislow
    have hescape : escape input = some ('\uFFFD', after) := by
      rw [escape_of_hex4 hhigh, if_pos hishigh, hnone]
    rw [stringBody_escape hescape, ih (by omega), append_assoc, singleton_append]
  | @loneLow low input after more rest hlow hislow _ ih =>
    rw [length_cons, length_cons, hlow.length] at hfuel
    obtain ⟨fuel, rfl⟩ := Nat.exists_eq_add_of_lt hfuel
    have hnot : ¬ IsHigh low := by
      rw [IsHigh]
      rw [IsLow] at hislow
      omega
    have hescape : escape input = some ('\uFFFD', after) := by
      rw [escape_of_hex4 hlow, if_neg hnot, if_pos hislow]
    rw [stringBody_escape hescape, ih (by omega), append_assoc, singleton_append]

theorem string_eq_some_iff :
  string input = some (out, rest) ↔ ∃ a, input = '"' :: a ∧ IsString a out rest
  := by
  simp only [string, Option.bind_eq_bind, Option.bind_eq_some_iff, eat_eq_some_iff]
  constructor
  · rintro ⟨a, rfl, h⟩
    obtain ⟨more, rfl, hmore⟩ := stringBody_sound h
    exact ⟨a, rfl, hmore⟩
  · rintro ⟨a, rfl, h⟩
    refine ⟨a, rfl, ?_⟩
    apply stringBody_complete h (by omega)

theorem IsString.length_lt (h : IsString input out rest) :
  rest.length < input.length
  := by
  induction h with
  | close => simp
  | plain _ _ _ _ ih =>
    rw [length_cons]
    omega
  | simple _ _ ih =>
    rw [length_cons, length_cons]
    omega
  | unicode hcode _ _ ih =>
    rw [length_cons, length_cons, hcode.length]
    omega
  | pair hhigh _ hlow _ _ _ ih =>
    have hlength := hlow.length
    rw [length_cons, length_cons, hhigh.length, length_cons, length_cons]
    omega
  | loneHigh hhigh _ _ _ ih =>
    rw [length_cons, length_cons, hhigh.length]
    omega
  | loneLow hlow _ _ ih =>
    rw [length_cons, length_cons, hlow.length]
    omega

/-! ### Numbers -/

/-- No more of a number can follow. -/
def Follows (rest : List Char) : Prop :=
  ∀ c ∈ rest.head?, isDigit c = false ∧ c ≠ '.' ∧ c ≠ 'e' ∧ c ≠ 'E'

theorem isDigit_iff :
  isDigit c = true ↔ '0' ≤ c ∧ c ≤ '9'
  := by
  rw [isDigit, toDigit, Option.isSome_ite]
  constructor
  · intro h
    by_contra hne
    rw [if_neg hne] at h
    split at h
    · omega
    · split at h
      · omega
      · omega
  · intro h
    rw [if_pos h]
    · have h9 : c.toNat ≤ '9'.toNat := h.2
      have hnine : '9'.toNat = 57 := rfl
      have hzero : '0'.toNat = 48 := rfl
      omega

theorem digits_spec (input : List Char) :
  ∃ taken, input = taken ++ digits input ∧ IsDigits taken
  := by
  refine ⟨input.takeWhile isDigit, takeWhile_append_dropWhile.symm, ?_⟩
  intro c hc
  rw [← isDigit_iff]
  apply mem_takeWhile_imp hc

theorem digits_append {taken : List Char} (h : IsDigits taken)
    (hrest : ∀ c ∈ rest.head?, isDigit c = false) :
  digits (taken ++ rest) = rest
  := by
  rw [digits, dropWhile_append_of_pos]
  · cases rest with
    | nil => rfl
    | cons c rest =>
      rw [dropWhile_cons_of_neg]
      rw [hrest c rfl]
      simp
  · intro c hc
    rw [isDigit_iff]
    apply h c hc

theorem someDigits_sound (h : someDigits input = some rest) :
  ∃ c more, input = c :: more ++ rest ∧ IsDigits (c :: more)
  := by
  cases input with
  | nil => contradiction
  | cons c input =>
    rw [someDigits, Option.ite_none_right_eq_some, Option.some_inj] at h
    obtain ⟨hc, hrest⟩ := h
    obtain ⟨taken, htaken, hdigits⟩ := digits_spec (c :: input)
    rw [hrest] at htaken
    cases taken with
    | nil =>
      rw [digits, dropWhile_cons_of_pos hc] at hrest
      rw [nil_append] at htaken
      have hlength := (dropWhile_sublist isDigit : (input.dropWhile isDigit).Sublist input)
        |>.length_le
      rw [hrest, ← htaken, length_cons] at hlength
      omega
    | cons d taken => exact ⟨d, taken, htaken, hdigits⟩

theorem someDigits_append {more : List Char} (h : IsDigits (c :: more))
    (hrest : ∀ c ∈ rest.head?, isDigit c = false) :
  someDigits (c :: more ++ rest) = some rest
  := by
  rw [cons_append, someDigits, if_pos (isDigit_iff.2 (h c mem_cons_self)),
    ← cons_append, digits_append h hrest]

theorem sign_spec (input : List Char) :
  ∃ sign, input = sign ++ (eat '-' input).getD input ∧ (sign = [] ∨ sign = ['-'])
  := by
  cases heat : eat '-' input with
  | none => exact ⟨[], rfl, Or.inl rfl⟩
  | some after => exact ⟨['-'], eat_eq_some_iff.1 heat, Or.inr rfl⟩

theorem integerPart_sound (h : integerPart input = some rest) :
  ∃ integer, input = integer ++ rest
    ∧ (integer = ['0'] ∨ ∃ c more, integer = c :: more ∧ '1' ≤ c ∧ c ≤ '9' ∧ IsDigits more)
  := by
  cases input with
  | nil => contradiction
  | cons c input =>
    rw [integerPart] at h
    split at h
    · next hzero =>
        rw [Option.some_inj] at h
        subst hzero h
        exact ⟨['0'], rfl, Or.inl rfl⟩
    · rw [Option.ite_none_right_eq_some, Option.some_inj] at h
      obtain ⟨hc, hrest⟩ := h
      obtain ⟨taken, htaken, hdigits⟩ := digits_spec input
      refine ⟨c :: taken, ?_, Or.inr ⟨c, taken, rfl, hc.1, hc.2, hdigits⟩⟩
      rw [← hrest, cons_append, ← htaken]

theorem fractionPart_sound (h : fractionPart input = some rest) :
  ∃ fraction, input = fraction ++ rest
    ∧ (fraction = [] ∨ ∃ c more, fraction = '.' :: c :: more ∧ IsDigits (c :: more))
  := by
  rw [fractionPart] at h
  split at h
  · next after heat =>
      obtain ⟨c, more, rfl, hdigits⟩ := someDigits_sound h
      refine ⟨'.' :: c :: more, ?_, Or.inr ⟨c, more, rfl, hdigits⟩⟩
      rw [eat_eq_some_iff.1 heat]
      rfl
  · rw [Option.some_inj] at h
    exact ⟨[], h, Or.inl rfl⟩

/-- The sign of an exponent. -/
theorem exponentSign_spec (input : List Char) :
  ∃ sign, input = sign ++ ((eat '+' input).or (eat '-' input)).getD input
    ∧ (sign = [] ∨ sign = ['+'] ∨ sign = ['-'])
  := by
  cases hplus : eat '+' input with
  | some after => exact ⟨['+'], eat_eq_some_iff.1 hplus, Or.inr (Or.inl rfl)⟩
  | none =>
    cases hminus : eat '-' input with
    | some after => exact ⟨['-'], eat_eq_some_iff.1 hminus, Or.inr (Or.inr rfl)⟩
    | none => exact ⟨[], rfl, Or.inl rfl⟩

theorem exponentPart_sound (h : exponentPart input = some rest) :
  ∃ exponent, input = exponent ++ rest
    ∧ (exponent = [] ∨ ∃ e sign c more, exponent = e :: (sign ++ c :: more)
      ∧ (e = 'e' ∨ e = 'E') ∧ (sign = [] ∨ sign = ['+'] ∨ sign = ['-']) ∧ IsDigits (c :: more))
  := by
  rw [exponentPart] at h
  split at h
  · next after heat =>
      have he : ∃ e, input = e :: after ∧ (e = 'e' ∨ e = 'E') := by
        rw [Option.or_eq_some_iff] at heat
        rcases heat with heat | ⟨-, heat⟩
        · exact ⟨'e', eat_eq_some_iff.1 heat, Or.inl rfl⟩
        · exact ⟨'E', eat_eq_some_iff.1 heat, Or.inr rfl⟩
      obtain ⟨e, rfl, he⟩ := he
      obtain ⟨sign, hsign, hsign'⟩ := exponentSign_spec after
      obtain ⟨c, more, hmore, hdigits⟩ := someDigits_sound h
      refine ⟨e :: (sign ++ c :: more), ?_, Or.inr ⟨e, sign, c, more, rfl, he, hsign', hdigits⟩⟩
      rw [hmore] at hsign
      rw [hsign]
      simp
  · rw [Option.some_inj] at h
    exact ⟨[], h, Or.inl rfl⟩

theorem scanNumber_sound (h : scanNumber input = some rest) :
  ∃ text, input = text ++ rest ∧ IsNumber text
  := by
  simp only [scanNumber, Option.bind_eq_bind, Option.bind_eq_some_iff] at h
  obtain ⟨afterInteger, hinteger, afterFraction, hfraction, hexponent⟩ := h
  obtain ⟨sign, hsignEq, hsign⟩ := sign_spec input
  obtain ⟨integer, hintegerEq, hinteger⟩ := integerPart_sound hinteger
  obtain ⟨fraction, hfractionEq, hfraction⟩ := fractionPart_sound hfraction
  obtain ⟨exponent, hexponentEq, hexponent⟩ := exponentPart_sound hexponent
  refine ⟨sign ++ integer ++ fraction ++ exponent, ?_,
    ⟨⟨sign, integer, fraction, exponent, rfl, hsign, hinteger, hfraction, hexponent⟩⟩⟩
  rw [hsignEq, hintegerEq, hfractionEq, hexponentEq]
  simp

/-- What can stand first in a number, and what cannot follow one. -/
theorem head_ne_of_digit {d : Char} (hc : '0' ≤ c ∧ c ≤ '9') (hd : isDigit d = false) :
  c ≠ d
  := by
  rintro rfl
  rw [← Bool.not_eq_true, isDigit_iff] at hd
  contradiction

theorem eat_of_ne (h : c ≠ expected) :
  eat expected (c :: rest) = none
  := if_neg h

theorem eat_eq_none_of_head (h : ∀ c ∈ rest.head?, c ≠ expected) :
  eat expected rest = none
  := by
  cases rest with
  | nil => rfl
  | cons c rest => apply eat_of_ne (h c rfl)

theorem scanNumber_complete {text : List Char} (h : IsNumber text) (hrest : Follows rest) :
  scanNumber (text ++ rest) = some rest
  := by
  obtain ⟨sign, integer, fraction, exponent, rfl, hsign, hinteger, hfraction, hexponent⟩ := h.parts
  have hafter : ∀ c ∈ (exponent ++ rest).head?, isDigit c = false ∧ c ≠ '.' := by
    rcases hexponent with rfl | ⟨e, sign', c, more, rfl, he, -⟩
    · intro c hc
      exact ⟨(hrest c hc).1, (hrest c hc).2.1⟩
    · intro c' hc'
      rw [cons_append, head?_cons, Option.mem_some_iff] at hc'
      subst hc'
      rcases he with rfl | rfl
      · decide
      · decide
  have hafter' : ∀ c ∈ (fraction ++ (exponent ++ rest)).head?, isDigit c = false := by
    rcases hfraction with rfl | ⟨c, more, rfl, -⟩
    · intro c hc
      apply (hafter c hc).1
    · intro c' hc'
      rw [cons_append, head?_cons, Option.mem_some_iff] at hc'
      subst hc'
      decide
  have hfirst : integerPart (integer ++ (fraction ++ (exponent ++ rest)))
      = some (fraction ++ (exponent ++ rest)) := by
    rcases hinteger with rfl | ⟨c, more, rfl, hc, hc', hmore⟩
    · rfl
    · have hne : c ≠ '0' := by
        rintro rfl
        contradiction
      rw [cons_append, integerPart, if_neg hne, if_pos ⟨hc, hc'⟩, digits_append hmore hafter']
  have hsecond : fractionPart (fraction ++ (exponent ++ rest)) = some (exponent ++ rest) := by
    rcases hfraction with rfl | ⟨c, more, rfl, hmore⟩
    · rw [nil_append, fractionPart, eat_eq_none_of_head fun c hc => (hafter c hc).2]
    · have hsome : eat '.' ('.' :: c :: more ++ (exponent ++ rest))
          = some (c :: more ++ (exponent ++ rest)) := rfl
      rw [fractionPart, hsome]
      apply someDigits_append hmore fun c hc => (hafter c hc).1
  have hthird : exponentPart (exponent ++ rest) = some rest := by
    rcases hexponent with rfl | ⟨e, sign', c, more, rfl, he, hsign', hmore⟩
    · rw [nil_append, exponentPart, eat_eq_none_of_head fun c hc => (hrest c hc).2.2.1,
        eat_eq_none_of_head fun c hc => (hrest c hc).2.2.2]
      rfl
    · have hsome : (eat 'e' (e :: (sign' ++ c :: more) ++ rest)).or
          (eat 'E' (e :: (sign' ++ c :: more) ++ rest)) = some (sign' ++ (c :: more ++ rest)) := by
        rcases he with rfl | rfl
        · simp [eat]
        · simp [eat]
      have hc := hmore c mem_cons_self
      have hsigned : ((eat '+' (sign' ++ (c :: more ++ rest))).or
          (eat '-' (sign' ++ (c :: more ++ rest)))).getD (sign' ++ (c :: more ++ rest))
            = c :: more ++ rest := by
        rcases hsign' with rfl | rfl | rfl
        · rw [nil_append, cons_append, eat_of_ne (head_ne_of_digit hc (by decide)),
            eat_of_ne (head_ne_of_digit hc (by decide))]
          rfl
        · rfl
        · rfl
      rw [exponentPart, hsome]
      simp only [hsigned]
      apply someDigits_append hmore fun c hc => (hrest c hc).1
  have hzeroth : (eat '-' (sign ++ (integer ++ (fraction ++ (exponent ++ rest))))).getD
      (sign ++ (integer ++ (fraction ++ (exponent ++ rest))))
        = integer ++ (fraction ++ (exponent ++ rest)) := by
    rcases hsign with rfl | rfl
    · have hhead : ∃ c more, integer = c :: more ∧ '0' ≤ c ∧ c ≤ '9' := by
        rcases hinteger with rfl | ⟨c, more, rfl, hc, hc', -⟩
        · exact ⟨'0', [], rfl, by decide, by decide⟩
        · exact ⟨c, more, rfl, le_trans (by decide) hc, hc'⟩
      obtain ⟨c, more, rfl, hc⟩ := hhead
      rw [nil_append, cons_append, eat_of_ne (head_ne_of_digit hc (by decide))]
      rfl
    · rfl
  rw [append_assoc, append_assoc, append_assoc, scanNumber, hzeroth, hfirst]
  simp only [Option.bind_eq_bind, Option.bind_some, hsecond, hthird]

/-! ### Aggregates -/

section Aggregates

variable {A B : Type} {item : List Char → A → List Char → Prop}
  {parse : List Char → Option (A × List Char)} {close : Char}

variable {input rest : List Char} {found : List A}

theorem IsItems.length_lt
    (hshorter : ∀ input found rest, item input found rest → rest.length < input.length)
    (h : IsItems item close input found rest) :
  rest.length < input.length
  := by
  induction h with
  | last hbefore hitem hafter =>
    have h₁ := hbefore.length_le
    have h₂ := hshorter _ _ _ hitem
    have h₃ := hafter.length_le
    rw [length_cons] at h₃
    omega
  | more hbefore hitem hafter _ ih =>
    have h₁ := hbefore.length_le
    have h₂ := hshorter _ _ _ hitem
    have h₃ := hafter.length_le
    rw [length_cons] at h₃
    omega

/-- Whitespace before items. -/
theorem IsItems.of_isSpace {input' : List Char} (hspace : IsSpace input input')
    (h : IsItems item close input' found rest) :
  IsItems item close input found rest
  := by
  cases h with
  | last hbefore hitem hafter => apply IsItems.last (hspace.trans hbefore) hitem hafter
  | more hbefore hitem hafter hmore =>
    apply IsItems.more (hspace.trans hbefore) hitem hafter hmore

theorem items_sound (hparse : ∀ input found rest, parse input = some (found, rest) →
      item input found rest) {push : B → A → B} {fuel : ℕ} {pushed result : B}
    (h : items close parse push fuel pushed input = some (result, rest)) :
  ∃ found, result = found.foldl push pushed ∧ IsItems item close input found rest
  := by
  induction fuel generalizing pushed input with
  | zero => contradiction
  | succ fuel ih =>
    simp only [items, Option.bind_eq_bind, Option.bind_eq_some_iff, Prod.exists] at h
    obtain ⟨first, after, hfirst, h⟩ := h
    have hitem := hparse _ _ _ hfirst
    have hbefore := isSpace_skipWhitespace input
    have hafter := isSpace_skipWhitespace after
    split at h
    · next next rest' heq =>
        rw [heq] at hafter
        split at h
        · next hcomma =>
            subst hcomma
            obtain ⟨found, hfound, hitems⟩ := ih h
            exact ⟨first :: found, hfound, IsItems.more hbefore hitem hafter hitems⟩
        · split at h
          · next hclose =>
              subst hclose
              rw [Option.some_inj, Prod.mk.injEq] at h
              obtain ⟨rfl, rfl⟩ := h
              exact ⟨[first], rfl, IsItems.last hbefore hitem hafter⟩
          · contradiction
    · contradiction

/-- What stands first in an item. -/
def Starts (item : List Char → A → List Char → Prop) (close : Char) : Prop :=
  ∀ input found rest, item input found rest →
    ∃ c more, input = c :: more ∧ isWhitespace c = false ∧ c ≠ close

/-- Items without the whitespace before them. -/
theorem IsItems.skip (hstarts : Starts item close) (h : IsItems item close input found rest) :
  ∃ c more, skipWhitespace input = c :: more ∧ c ≠ close
    ∧ IsItems item close (c :: more) found rest
  := by
  have hskip : ∀ input a found b, IsSpace input a → item a found b →
      ∃ c more, a = c :: more ∧ skipWhitespace input = c :: more ∧ c ≠ close := by
    intro input a found b hbefore hitem
    obtain ⟨c, more, rfl, hc, hne⟩ := hstarts _ _ _ hitem
    refine ⟨c, more, rfl, ?_, hne⟩
    apply skipWhitespace_of_isSpace hbefore
    rintro _ ⟨⟩
    apply hc
  cases h with
  | last hbefore hitem hafter =>
    obtain ⟨c, more, rfl, hskip, hne⟩ := hskip _ _ _ _ hbefore hitem
    exact ⟨c, more, hskip, hne, IsItems.last (IsSpace.refl _) hitem hafter⟩
  | more hbefore hitem hafter hmore =>
    obtain ⟨c, more, rfl, hskip, hne⟩ := hskip _ _ _ _ hbefore hitem
    exact ⟨c, more, hskip, hne, IsItems.more (IsSpace.refl _) hitem hafter hmore⟩

/-- What stands after an item can stand after a number. -/
theorem follows_of_isSpace {input rest : List Char} {c : Char} (h : IsSpace input (c :: rest))
    (hc : c = ',' ∨ c = ']' ∨ c = '}') :
  Follows input
  := by
  obtain ⟨spaces, rfl, hspaces⟩ := h
  intro d hd
  cases spaces with
  | nil =>
    rw [nil_append, head?_cons, Option.mem_some_iff] at hd
    subst hd
    rcases hc with rfl | rfl | rfl <;> decide
  | cons s spaces =>
    rw [cons_append, head?_cons, Option.mem_some_iff] at hd
    subst hd
    rcases hspaces s mem_cons_self with rfl | rfl | rfl | rfl <;> decide

theorem items_complete
    (hparse : ∀ input found rest, item input found rest → Follows rest →
      parse input = some (found, rest))
    (hstarts : Starts item close)
    (hshorter : ∀ input found rest, item input found rest → rest.length < input.length)
    (hclose : close = ']' ∨ close = '}') {push : B → A → B} {input rest : List Char}
    {found : List A} (h : IsItems item close input found rest) {fuel : ℕ}
    (hfuel : input.length ≤ fuel) (pushed : B) :
  items close parse push fuel pushed input = some (found.foldl push pushed, rest)
  := by
  have hspace : isWhitespace ',' = false ∧ isWhitespace close = false ∧ close ≠ ',' := by
    rcases hclose with rfl | rfl <;> decide
  induction h generalizing fuel pushed with
  | @last input a b rest first hbefore hitem hafter =>
    have hlength := hshorter _ _ _ hitem
    have hlength' := hbefore.length_le
    obtain ⟨fuel, rfl⟩ := Nat.exists_eq_add_of_lt (show 0 < fuel by omega)
    obtain ⟨c, more, rfl, hc, -⟩ := hstarts _ _ _ hitem
    have hskip : skipWhitespace input = c :: more := by
      apply skipWhitespace_of_isSpace hbefore
      rintro _ ⟨⟩
      apply hc
    have hskip' : skipWhitespace b = close :: rest := by
      apply skipWhitespace_of_isSpace hafter
      rintro _ ⟨⟩
      apply hspace.2.1
    have hfollows : Follows b := follows_of_isSpace hafter (Or.inr hclose)
    rw [items, hskip, hparse _ _ _ hitem hfollows]
    simp only [Option.bind_eq_bind, Option.bind_some, hskip', if_neg hspace.2.2, if_true]
    rfl
  | @more input a b c rest first others hbefore hitem hafter _ ih =>
    have hlength := hshorter _ _ _ hitem
    have hlength' := hbefore.length_le
    have hlength'' := hafter.length_le
    rw [length_cons] at hlength''
    obtain ⟨fuel, rfl⟩ := Nat.exists_eq_add_of_lt (show 0 < fuel by omega)
    obtain ⟨d, more, rfl, hd, -⟩ := hstarts _ _ _ hitem
    have hskip : skipWhitespace input = d :: more := by
      apply skipWhitespace_of_isSpace hbefore
      rintro _ ⟨⟩
      apply hd
    have hskip' : skipWhitespace b = ',' :: c := by
      apply skipWhitespace_of_isSpace hafter
      rintro _ ⟨⟩
      apply hspace.1
    have hfollows : Follows b := follows_of_isSpace hafter (Or.inl rfl)
    rw [items, hskip, hparse _ _ _ hitem hfollows]
    simp only [Option.bind_eq_bind, Option.bind_some, hskip', if_true]
    rw [ih (by omega)]
    rfl

theorem aggregate_sound (hparse : ∀ input found rest, parse input = some (found, rest) →
      item input found rest) {opener : Char} {push : B → A → B} {empty result : B}
    (h : aggregate opener close parse push empty input = some (result, rest)) :
  ∃ found, result = found.foldl push empty ∧ IsAggregate item opener close input found rest
  := by
  simp only [aggregate, Option.bind_eq_bind, Option.bind_eq_some_iff, eat_eq_some_iff] at h
  obtain ⟨a, rfl, h⟩ := h
  have hspace := isSpace_skipWhitespace a
  split at h
  · next rest' heat =>
      rw [Option.some_inj, Prod.mk.injEq] at h
      obtain ⟨rfl, rfl⟩ := h
      rw [eat_eq_some_iff.1 heat] at hspace
      exact ⟨[], rfl, a, rfl, Or.inl ⟨rfl, hspace⟩⟩
  · obtain ⟨found, hfound, hitems⟩ := items_sound hparse h
    refine ⟨found, hfound, a, rfl, Or.inr ?_⟩
    apply hitems.of_isSpace hspace

theorem aggregate_complete
    (hparse : ∀ input found rest, item input found rest → Follows rest →
      parse input = some (found, rest))
    (hstarts : Starts item close)
    (hshorter : ∀ input found rest, item input found rest → rest.length < input.length)
    (hclose : close = ']' ∨ close = '}') {opener : Char} {push : B → A → B} {input rest : List Char}
    {found : List A} (h : IsAggregate item opener close input found rest) (empty : B) :
  aggregate opener close parse push empty input = some (found.foldl push empty, rest)
  := by
  obtain ⟨a, rfl, h⟩ := h
  rw [aggregate, eat_cons]
  simp only [Option.bind_eq_bind, Option.bind_some]
  rcases h with ⟨rfl, hspace⟩ | hitems
  · have hskip : skipWhitespace a = close :: rest := by
      apply skipWhitespace_of_isSpace hspace
      rintro _ ⟨⟩
      rcases hclose with rfl | rfl <;> decide
    rw [hskip, eat_cons]
    rfl
  · obtain ⟨c, more, hskip, hc, hitems⟩ := hitems.skip hstarts
    rw [hskip, eat_of_ne hc]
    apply items_complete hparse hstarts hshorter hclose hitems (Nat.le_succ _)

theorem IsAggregate.length_lt {opener : Char}
    (hshorter : ∀ input found rest, item input found rest → rest.length < input.length)
    (h : IsAggregate item opener close input found rest) :
  rest.length < input.length
  := by
  obtain ⟨a, rfl, ⟨-, hspace⟩ | hitems⟩ := h
  · have hlength := hspace.length_le
    rw [length_cons] at hlength ⊢
    omega
  · have hlength := hitems.length_lt hshorter
    rw [length_cons]
    omega

end Aggregates

/-! ### Objects -/

section Objects

variable {V : Type}

theorem lookup_reverse_append (members : List (List Char × V)) (entry : List Char × V)
    (key : List Char) :
  (members ++ [entry]).reverse.lookup key
    = if key = entry.1 then some entry.2 else members.reverse.lookup key
  := by
  rw [reverse_append, reverse_singleton, singleton_append, List.lookup_cons]
  split
  · next h => rw [if_pos (by simpa using h)]
  · next h => rw [if_neg (by simpa using h)]

/-- Assigning to a key that entries have changes their values. -/
theorem assign_of_mem {entries : List (List Char × V)} {entry : List Char × V}
    (hnodup : (entries.map Prod.fst).Nodup) (h : entry.1 ∈ entries.map Prod.fst) :
  assign entries entry
    = entries.map fun known => if known.1 = entry.1 then (known.1, entry.2) else known
  := by
  induction entries with
  | nil => simp at h
  | cons known entries ih =>
    rw [map_cons, nodup_cons] at hnodup
    rw [assign, map_cons]
    split
    · next heq =>
        congr 1
        conv_lhs => rw [← List.map_id entries]
        apply map_congr_left
        intro other hother
        rw [if_neg]
        · rfl
        · intro heq'
          apply hnodup.1
          rw [heq, ← heq']
          apply List.mem_map_of_mem hother
    · next hne =>
        rw [ih hnodup.2]
        rw [map_cons, mem_cons] at h
        rcases h with h | h
        · exact absurd h.symm hne
        · apply h

theorem assign_of_notMem {entries : List (List Char × V)} {entry : List Char × V}
    (h : entry.1 ∉ entries.map Prod.fst) :
  assign entries entry = entries ++ [entry]
  := by
  induction entries with
  | nil => rfl
  | cons known entries ih =>
    rw [map_cons, mem_cons, not_or] at h
    rw [assign, if_neg (Ne.symm h.1), ih h.2, cons_append]

theorem eraseDups_concat (keys : List (List Char)) (key : List Char) :
  (keys ++ [key]).eraseDups = if key ∈ keys then keys.eraseDups else keys.eraseDups ++ [key]
  := by
  rw [eraseDups_append]
  split
  · next h => simp [List.removeAll, h]
  · next h => simp [List.removeAll, h, eraseDups_cons]

theorem nodup_eraseDups (keys : List (List Char)) :
  keys.eraseDups.Nodup
  := by
  induction keys using List.reverseRecOn with
  | nil => simp
  | append_singleton keys key ih =>
    rw [eraseDups_concat]
    split
    · apply ih
    · next h =>
        rw [← concat_eq_append, nodup_concat]
        rw [mem_eraseDups]
        exact ⟨h, ih⟩

theorem mem_keys_iff_lookup {members : List (List Char × V)} {key : List Char} :
  key ∈ members.map Prod.fst ↔ (members.reverse.lookup key).isSome = true
  := by
  induction members using List.reverseRecOn with
  | nil => simp
  | append_singleton members entry ih =>
    rw [lookup_reverse_append, map_append, mem_append, ih]
    split
    · next h => simp [h]
    · next h => simp [h]

theorem keys_lastValues (members : List (List Char × V)) :
  (lastValues members).map Prod.fst = (members.map Prod.fst).eraseDups
  := by
  rw [lastValues, map_filterMap]
  have hall : ∀ key ∈ (members.map Prod.fst).eraseDups,
      Option.map Prod.fst ((members.reverse.lookup key).map fun found => (key, found))
        = some key := by
    intro key hkey
    rw [mem_eraseDups, mem_keys_iff_lookup, Option.isSome_iff_exists] at hkey
    obtain ⟨found, hfound⟩ := hkey
    rw [hfound]
    rfl
  rw [filterMap_congr hall, filterMap_some]

/-- Assigning members one after the other leaves every key, where it occurs first, with its last
value. -/
theorem foldl_assign (members : List (List Char × V)) :
  members.foldl assign [] = lastValues members
  := by
  induction members using List.reverseRecOn with
  | nil => rfl
  | append_singleton members entry ih =>
    rw [foldl_append, foldl_cons, foldl_nil, ih]
    have hkeys := keys_lastValues members
    by_cases h : entry.1 ∈ members.map Prod.fst
    · rw [assign_of_mem]
      · rw [lastValues, lastValues, map_filterMap, map_append, map_cons,
          map_nil, eraseDups_concat, if_pos h]
        apply filterMap_congr
        intro key hkey
        rw [mem_eraseDups, mem_keys_iff_lookup, Option.isSome_iff_exists] at hkey
        obtain ⟨found, hfound⟩ := hkey
        rw [lookup_reverse_append, hfound]
        by_cases heq : key = entry.1
        · simp [heq]
        · simp [heq]
      · rw [hkeys]
        apply nodup_eraseDups
      · rw [hkeys, mem_eraseDups]
        apply h
    · rw [assign_of_notMem]
      · rw [lastValues, lastValues, map_append, map_cons, map_nil,
          eraseDups_concat, if_neg h, filterMap_append]
        congr 1
        · apply filterMap_congr
          intro key hkey
          rw [mem_eraseDups] at hkey
          rw [lookup_reverse_append, if_neg]
          rintro rfl
          exact h hkey
        · rw [filterMap_cons, lookup_reverse_append, if_pos rfl]
          rfl
      · rw [hkeys, mem_eraseDups]
        apply h

end Objects

/-! ### Values -/

/-- Pushing items one after the other. -/
theorem foldl_push {A : Type} (found items : List A) :
  found.foldl (fun items item => items ++ [item]) items = items ++ found
  := by
  induction found generalizing items with
  | nil => simp
  | cons item found ih => rw [foldl_cons, ih, append_assoc, singleton_append]

theorem literal_eq_some_iff {word : List Char} :
  literal word input = some rest ↔ input = word ++ rest
  := by
  induction word generalizing input with
  | nil => simp [literal]
  | cons c word ih =>
    rw [literal, foldlM_cons, Option.bind_eq_bind, Option.bind_eq_some_iff]
    constructor
    · rintro ⟨a, ha, h⟩
      rw [eat_eq_some_iff] at ha
      rw [ha, cons_append, ← ih.1 h]
    · rintro rfl
      exact ⟨word ++ rest, if_pos rfl, ih.2 rfl⟩

theorem member_sound {value : List Char → V → List Char → Prop}
    {parse : List Char → Option (V × List Char)}
    (hparse : ∀ input found rest, parse input = some (found, rest) → value input found rest)
    (input : List Char) (found : List Char × V) (rest : List Char)
    (h : member parse input = some (found, rest)) :
  IsMember value input found rest
  := by
  simp only [member, Option.bind_eq_bind, Option.bind_eq_some_iff, Prod.exists,
    string_eq_some_iff, eat_eq_some_iff, Option.some_inj, Prod.mk.injEq] at h
  obtain ⟨key, b, ⟨a, rfl, hkey⟩, c, hcolon, v, after, hvalue, rfl, rfl⟩ := h
  refine ⟨a, b, c, skipWhitespace c, rfl, hkey, ?_, isSpace_skipWhitespace c,
    hparse _ _ _ hvalue⟩
  rw [← hcolon]
  apply isSpace_skipWhitespace

theorem member_complete {value : List Char → V → List Char → Prop}
    {parse : List Char → Option (V × List Char)}
    (hparse : ∀ input found rest, value input found rest → Follows rest →
      parse input = some (found, rest)) {close : Char} (hstarts : Starts value close)
    (input : List Char) (found : List Char × V) (rest : List Char)
    (h : IsMember value input found rest) (hrest : Follows rest) :
  member parse input = some (found, rest)
  := by
  obtain ⟨a, b, c, d, rfl, hkey, hbefore, hafter, hvalue⟩ := h
  have hskip : skipWhitespace b = ':' :: c := by
    apply skipWhitespace_of_isSpace hbefore
    rintro _ ⟨⟩
    decide
  obtain ⟨e, more, rfl, he, -⟩ := hstarts _ _ _ hvalue
  have hskip' : skipWhitespace c = e :: more := by
    apply skipWhitespace_of_isSpace hafter
    rintro _ ⟨⟩
    apply he
  rw [member, string_eq_some_iff.2 ⟨a, rfl, hkey⟩]
  simp only [Option.bind_eq_bind, Option.bind_some, hskip, eat_cons, hskip',
    hparse _ _ _ hvalue hrest]

theorem IsMember.length_lt {value : List Char → V → List Char → Prop}
    (hshorter : ∀ input found rest, value input found rest → rest.length < input.length)
    {found : List Char × V} (h : IsMember value input found rest) :
  rest.length < input.length
  := by
  obtain ⟨a, b, c, d, rfl, hkey, hbefore, hafter, hvalue⟩ := h
  have h₁ := hkey.length_lt
  have h₂ := hbefore.length_le
  have h₃ := hafter.length_le
  have h₄ := hshorter _ _ _ hvalue
  rw [length_cons] at h₂ ⊢
  omega

/-- A number starts with a sign or a digit. -/
theorem IsNumber.head {text : List Char} (h : IsNumber text) :
  ∃ c more, text = c :: more ∧ (c = '-' ∨ ('0' ≤ c ∧ c ≤ '9'))
  := by
  obtain ⟨sign, integer, fraction, exponent, rfl, hsign, hinteger, -⟩ := h.parts
  rcases hsign with rfl | rfl
  · rcases hinteger with rfl | ⟨c, more, rfl, hc, hc', -⟩
    · exact ⟨'0', fraction ++ exponent, rfl, Or.inr (by decide)⟩
    · exact ⟨c, more ++ fraction ++ exponent, rfl, Or.inr ⟨le_trans (by decide) hc, hc'⟩⟩
  · exact ⟨'-', integer ++ fraction ++ exponent, rfl, Or.inl rfl⟩

/-- The first characters of numbers are no other value's, and no bracket or whitespace. -/
theorem number_head_ne {d : Char} (hc : c = '-' ∨ ('0' ≤ c ∧ c ≤ '9')) (hdash : d ≠ '-')
    (hdigit : isDigit d = false) :
  c ≠ d
  := by
  rcases hc with rfl | hc
  · apply hdash.symm
  · apply head_ne_of_digit hc hdigit

section Values

variable {F : Type} {nearest : List Char → F}

theorem isValue_starts (levels : ℕ) :
  Starts (IsValue nearest levels) ']'
  := by
  intro input found rest h
  cases levels with
  | zero => exact absurd h (by simp [IsValue])
  | succ levels =>
    cases h with
    | null => exact ⟨'n', _, rfl, by decide, by decide⟩
    | yes => exact ⟨'t', _, rfl, by decide, by decide⟩
    | no => exact ⟨'f', _, rfl, by decide, by decide⟩
    | text => exact ⟨'"', _, rfl, by decide, by decide⟩
    | number _ h =>
      obtain ⟨c, more, rfl, hc⟩ := h.head
      refine ⟨c, more ++ rest, rfl, ?_, number_head_ne hc (by decide) (by decide)⟩
      rw [← Bool.not_eq_true, isWhitespace_iff]
      rintro (rfl | rfl | rfl | rfl) <;> exact absurd hc (by decide)
    | array h =>
      obtain ⟨a, rfl, -⟩ := h
      exact ⟨'[', a, rfl, by decide, by decide⟩
    | object h =>
      obtain ⟨a, rfl, -⟩ := h
      exact ⟨'{', a, rfl, by decide, by decide⟩

theorem isMember_starts {V : Type} (value : List Char → V → List Char → Prop) :
  Starts (IsMember value) '}'
  := by
  rintro input found rest ⟨a, b, c, d, rfl, -⟩
  exact ⟨'"', a, rfl, by decide, by decide⟩

theorem isValue_length_lt (levels : ℕ) (input : List Char) (found : JsonValue (List Char) F)
    (rest : List Char) (h : IsValue nearest levels input found rest) :
  rest.length < input.length
  := by
  induction levels generalizing input found rest with
  | zero => exact absurd h (by simp [IsValue])
  | succ levels ih =>
    cases h with
    | null | yes | no =>
      rw [length_append]
      apply Nat.lt_add_of_pos_left (by decide)
    | text h =>
      have hlength := h.length_lt
      rw [length_cons]
      omega
    | number _ h =>
      obtain ⟨c, more, rfl, -⟩ := h.head
      simp only [cons_append, length_cons, length_append]
      omega
    | array h => apply h.length_lt ih
    | object h => apply h.length_lt fun _ _ _ hmember => hmember.length_lt ih

/-- The parser of floats reads every number. -/
def Reads (parseF64 : List Char → Option F) (nearest : List Char → F) : Prop :=
  ∀ text, IsNumber text → parseF64 text = some (nearest text)

variable {parseF64 : List Char → Option F}

section

variable (hreads : Reads parseF64 nearest)
include hreads

theorem number_sound {input rest : List Char}
    {found : JsonValue (List Char) F} (h : number parseF64 input = some (found, rest)) :
  ∃ text, input = text ++ rest ∧ IsNumber text ∧ found = .number (nearest text)
  := by
  simp only [number, Option.bind_eq_bind, Option.bind_eq_some_iff, Option.some_inj,
    Prod.mk.injEq] at h
  obtain ⟨rest', hscan, value, hvalue, rfl, rfl⟩ := h
  obtain ⟨text, rfl, htext⟩ := scanNumber_sound hscan
  refine ⟨text, rfl, htext, ?_⟩
  rw [length_append, Nat.add_sub_cancel, take_left, hreads text htext, Option.some_inj] at hvalue
  rw [hvalue]

theorem number_complete {text rest : List Char}
    (h : IsNumber text) (hrest : Follows rest) :
  number parseF64 (text ++ rest) = some (.number (nearest text), rest)
  := by
  rw [number, scanNumber_complete h hrest]
  simp only [Option.bind_eq_bind, Option.bind_some]
  rw [length_append, Nat.add_sub_cancel, take_left, hreads text h]
  rfl

theorem value_sound {levels : ℕ} (input : List Char)
    (found : JsonValue (List Char) F) (rest : List Char)
    (h : value parseF64 levels input = some (found, rest)) :
  IsValue nearest levels input found rest
  := by
  induction levels generalizing input found rest with
  | zero => contradiction
  | succ levels ih =>
    cases input with
    | nil => contradiction
    | cons c input =>
      have hword : ∀ (word : List Char) (v : JsonValue (List Char) F),
          (literal word (c :: input)).map (fun rest => (v, rest)) = some (found, rest) →
            c :: input = word ++ rest ∧ found = v := by
        intro word v h
        rw [Option.map_eq_some_iff] at h
        obtain ⟨rest', hrest', h⟩ := h
        rw [Prod.mk.injEq] at h
        obtain ⟨rfl, rfl⟩ := h
        exact ⟨literal_eq_some_iff.1 hrest', rfl⟩
      rw [value] at h
      split at h
      · obtain ⟨heq, rfl⟩ := hword _ _ h
        rw [heq]
        apply IsValueOver.null
      · split at h
        · obtain ⟨heq, rfl⟩ := hword _ _ h
          rw [heq]
          apply IsValueOver.yes
        · split at h
          · obtain ⟨heq, rfl⟩ := hword _ _ h
            rw [heq]
            apply IsValueOver.no
          · split at h
            · rw [Option.map_eq_some_iff] at h
              obtain ⟨⟨out, rest'⟩, hstring, h⟩ := h
              rw [Prod.mk.injEq] at h
              obtain ⟨rfl, rfl⟩ := h
              obtain ⟨a, heq, hstring⟩ := string_eq_some_iff.1 hstring
              rw [heq]
              apply IsValueOver.text hstring
            · split at h
              · rw [array, Option.map_eq_some_iff] at h
                obtain ⟨⟨items, rest'⟩, hitems, h⟩ := h
                rw [Prod.mk.injEq] at h
                obtain ⟨rfl, rfl⟩ := h
                obtain ⟨found, hfound, haggregate⟩ := aggregate_sound ih hitems
                rw [foldl_push] at hfound
                simp only at hfound ⊢
                rw [hfound]
                apply IsValueOver.array haggregate
              · split at h
                · rw [object, Option.map_eq_some_iff] at h
                  obtain ⟨⟨entries, rest'⟩, hentries, h⟩ := h
                  rw [Prod.mk.injEq] at h
                  obtain ⟨rfl, rfl⟩ := h
                  obtain ⟨members, hmembers, haggregate⟩ :=
                    aggregate_sound (member_sound ih) hentries
                  simp only at hmembers ⊢
                  rw [hmembers, foldl_assign]
                  apply IsValueOver.object haggregate
                · split at h
                  · obtain ⟨text, heq, htext, rfl⟩ := number_sound hreads h
                    rw [heq]
                    apply IsValueOver.number _ htext
                  · contradiction

theorem value_complete {levels : ℕ} (input : List Char)
    (found : JsonValue (List Char) F) (rest : List Char)
    (h : IsValue nearest levels input found rest) (hrest : Follows rest) :
  value parseF64 levels input = some (found, rest)
  := by
  induction levels generalizing input found rest with
  | zero => exact absurd h (by simp [IsValue])
  | succ levels ih =>
    cases h with
    | null =>
      have hword : "null".toList = 'n' :: "ull".toList := by decide
      rw [hword, cons_append, value, if_pos rfl, ← cons_append, ← hword, literal_eq_some_iff.2 rfl]
      rfl
    | yes =>
      have hword : "true".toList = 't' :: "rue".toList := by decide
      rw [hword, cons_append, value, if_neg (by decide), if_pos rfl, ← cons_append,
        ← hword, literal_eq_some_iff.2 rfl]
      rfl
    | no =>
      have hword : "false".toList = 'f' :: "alse".toList := by decide
      rw [hword, cons_append, value, if_neg (by decide), if_neg (by decide), if_pos rfl,
        ← cons_append, ← hword, literal_eq_some_iff.2 rfl]
      rfl
    | text h =>
      change (string _).map _ = _
      rw [string_eq_some_iff.2 ⟨_, rfl, h⟩]
      rfl
    | @number text _ h =>
      obtain ⟨c, more, rfl, hc⟩ := h.head
      have hne : ∀ d, d ≠ '-' → isDigit d = false → c ≠ d := fun d => number_head_ne hc
      rw [cons_append, value, if_neg (hne _ (by decide) (by decide)),
        if_neg (hne _ (by decide) (by decide)), if_neg (hne _ (by decide) (by decide)),
        if_neg (hne _ (by decide) (by decide)), if_neg (hne _ (by decide) (by decide)),
        if_neg (hne _ (by decide) (by decide)), if_pos hc, ← cons_append]
      apply number_complete hreads h hrest
    | @array _ _ items h =>
      have harray : array (value parseF64 levels) input = some (.array items, rest) := by
        rw [array, aggregate_complete ih (isValue_starts levels) (isValue_length_lt levels)
          (Or.inl rfl) h, foldl_push]
        rfl
      obtain ⟨a, rfl, -⟩ := h
      apply harray
    | @object _ _ members h =>
      have hobject : object (value parseF64 levels) input
          = some (.object (lastValues members), rest) := by
        rw [object, aggregate_complete (member_complete ih (isValue_starts levels))
          (isMember_starts _) (fun _ _ _ hmember => hmember.length_lt (isValue_length_lt levels))
          (Or.inr rfl) h, foldl_assign]
        rfl
      obtain ⟨a, rfl, -⟩ := h
      apply hobject

end

/-- The value of a text of digits. -/
def ofDigits (text : List Char) : ℕ :=
  text.foldl (fun value c => value * 10 + (c.toNat - '0'.toNat)) 0

end Values

end Vilan.Native
