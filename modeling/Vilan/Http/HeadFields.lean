import Vilan.Http.HeadLines

/-!
# The fields of a head

When the head that a buffer is read for is all there is before the body, and what it says of the
body's length is what its lines say.
-/

namespace Vilan.Http

open List Option Utf8

/-! ### Texts without their ends -/

/-- Without the characters at both ends that have a property. -/
def strip (p : Char → Bool) (text : Text) : Text :=
  trimEnd p (text.dropWhile p)

theorem strip_isWhitespace (text : Text) : strip isWhitespace text = trim text :=
  rfl

/-- Nothing at the ends of a text has a property. -/
structure Bare (p : Char → Bool) (text : Text) : Prop where
  first : ∀ c, text.head? = some c → p c = false
  last : ∀ c, text.getLast? = some c → p c = false

variable {after text line value : Text} {p : Char → Bool} {c : Char} {n : ℕ}
  {fields : List (Text × Text)} {lines : List Text}

/-- What is between ends of a property is what is left without them. -/
theorem strip_of_bare {before : Text} (bare : Bare p text) (white : ∀ c ∈ before, p c = true)
    (white' : ∀ c ∈ after, p c = true) :
  strip p (before ++ text ++ after) = text
  := by
  rw [strip, trimEnd, append_assoc, dropWhile_append_of_pos white]
  cases text with
  | nil =>
    rw [nil_append, dropWhile_eq_nil_iff.mpr white']
    rfl
  | cons c rest =>
    have first := bare.first c rfl
    rw [cons_append, dropWhile_cons_of_neg (by simp [first]), ← cons_append,
      reverse_append, dropWhile_append_of_pos (by simpa using white')]
    obtain ⟨before', last, heq⟩ := (eq_nil_or_concat (c :: rest)).resolve_left (by simp)
    have last_eq := bare.last last (by rw [heq]; simp)
    rw [heq, concat_eq_append, reverse_append, reverse_singleton, singleton_append,
      dropWhile_cons_of_neg (by simp [last_eq]), reverse_cons, reverse_reverse]

theorem trimEnd_last (last : (trimEnd p text).getLast? = some c) :
  p c = false
  := by
  rw [trimEnd, getLast?_reverse] at last
  have first := head?_dropWhile_not p text.reverse
  rw [last] at first
  simpa using first

theorem bare_strip (p : Char → Bool) (text : Text) : Bare p (strip p text) := by
  constructor
  · intro c head
    obtain ⟨after, heq, _⟩ := trimEnd_append p (text.dropWhile p)
    have first := head?_dropWhile_not p text
    rw [heq, head?_append_of_ne_nil] at first
    · change (strip p text).head? = some c at head
      rw [strip] at head
      rw [head] at first
      simpa using first
    · intro empty
      rw [strip, empty] at head
      cases head
  · intro c
    apply trimEnd_last

theorem strip_append (p : Char → Bool) (text : Text) :
  ∃ before after, text = before ++ strip p text ++ after ∧ (∀ c ∈ before, p c = true) ∧
    ∀ c ∈ after, p c = true
  := by
  obtain ⟨after, heq, white⟩ := trimEnd_append p (text.dropWhile p)
  use text.takeWhile p, after
  constructor
  · rw [strip, append_assoc, ← heq, takeWhile_append_dropWhile]
  · use fun c mem => mem_takeWhile_imp mem, white

/-- Whitespace at the end of a text does not matter. -/
theorem strip_append_of_white (text : Text) (white : ∀ c ∈ after, p c = true) :
  strip p (text ++ after) = strip p text
  := by
  obtain ⟨before, after', heq, white', white''⟩ := strip_append p text
  have more : ∀ c ∈ after' ++ after, p c = true := by
    intro c mem
    obtain mem | mem := mem_append.mp mem
    · apply white'' c mem
    · apply white c mem
  have cut := strip_of_bare (bare_strip p text) white' more
  rw [← append_assoc, ← heq] at cut
  apply cut

theorem strip_strip (p : Char → Bool) (text : Text) : strip p (strip p text) = strip p text := by
  have none_ : ∀ c ∈ ([] : Text), p c = true := nofun
  have cut := strip_of_bare (bare_strip p text) none_ none_
  rw [nil_append, append_nil] at cut
  apply cut

/-! ### Numbers -/

theorem isDigit_iff : isDigit c = true ↔ 48 ≤ c.toNat ∧ c.toNat ≤ 57 := by
  simp [isDigit, Char.le_def, UInt32.le_iff_toNat_le]

theorem isDigit_not_white (h : isDigit c = true) : isWhitespace c = false := by
  rw [isDigit_iff] at h
  simp only [isWhitespace]
  simp
  omega

/-- A text that is one or more decimal digits and nothing else, and their value. -/
def Decimal (text : Text) (n : ℕ) : Prop :=
  text ≠ [] ∧ (∀ c ∈ text, isDigit c = true) ∧ n = number 10 text

theorem toLower_cases (c : Char) :
  c.toLower = c ∨ 65 ≤ c.toNat ∧ c.toNat ≤ 90 ∧ c.toLower.toNat = c.toNat + 32
  := by
  unfold Char.toLower
  split
  next upper =>
    right
    have ge : 65 ≤ c.toNat := UInt32.le_iff_toNat_le.mp upper.1
    have le : c.toNat ≤ 90 := UInt32.le_iff_toNat_le.mp upper.2
    use ge, le
    change (c.val + 32).toNat = c.val.toNat + 32
    have le' : c.val.toNat ≤ 90 := le
    rw [UInt32.toNat_add, Nat.mod_eq_of_lt]
    · rfl
    · change c.val.toNat + 32 < 2 ^ 32
      omega
  next => apply Or.inl rfl

/-- Lowercasing keeps digits, and makes none. -/
theorem isDigit_toLower (c : Char) : isDigit c.toLower = isDigit c := by
  obtain same | ⟨ge, le, heq⟩ := toLower_cases c
  · rw [same]
  · rw [Bool.eq_iff_iff, isDigit_iff, isDigit_iff, heq]
    omega

theorem toLower_of_isDigit (h : isDigit c = true) : c.toLower = c := by
  obtain same | ⟨ge, _⟩ := toLower_cases c
  · apply same
  · rw [isDigit_iff] at h
    omega

theorem toLower_eq_plus : c.toLower = '+' ↔ c = '+' := by
  obtain same | ⟨ge, le, heq⟩ := toLower_cases c
  · rw [same]
  · constructor
    · intro h
      rw [h] at heq
      have small : c.toNat + 32 = 43 := heq.symm
      omega
    · rintro rfl
      rfl

theorem all_isDigit_toAsciiLowercase (text : Text) :
  (∀ c ∈ toAsciiLowercase text, isDigit c = true) ↔ ∀ c ∈ text, isDigit c = true
  := by
  simp only [toAsciiLowercase, List.mem_map, forall_exists_index, and_imp, forall_apply_eq_imp_iff₂,
    isDigit_toLower]

theorem toAsciiLowercase_of_digits (h : ∀ c ∈ text, isDigit c = true) :
  toAsciiLowercase text = text
  := by
  rw [toAsciiLowercase, map_congr_left (fun c mem => toLower_of_isDigit (h c mem)), List.map_id']

theorem decimal_toAsciiLowercase :
  Decimal (toAsciiLowercase text) n ↔ Decimal text n
  := by
  rw [Decimal, Decimal, all_isDigit_toAsciiLowercase, toAsciiLowercase, ne_eq, map_eq_nil_iff]
  constructor
  · rintro ⟨some, digits, heq⟩
    use some, digits
    rw [heq, ← toAsciiLowercase, toAsciiLowercase_of_digits digits]
  · rintro ⟨some, digits, heq⟩
    use some, digits
    rw [heq, ← toAsciiLowercase, toAsciiLowercase_of_digits digits]

theorem unsigned_toAsciiLowercase (text : Text) :
  unsigned (toAsciiLowercase text) = toAsciiLowercase (unsigned text)
  := by
  cases text with
  | nil => rfl
  | cons c text =>
    simp only [unsigned, toAsciiLowercase, map_cons, head?_cons, some_inj,
      toLower_eq_plus, tail_cons]
    split
    · rfl
    · rfl

/-- What a number is read from. -/
theorem parseUsize_eq_some_iff :
  parseUsize text = some n ↔ Decimal (unsigned text) n ∧ n < usizeBound
  := by
  rw [parseUsize, Decimal]
  split
  next h =>
    simp only [reduceCtorEq, false_iff, not_and]
    simp only [Bool.or_eq_true, List.isEmpty_iff, Bool.not_eq_true', List.all_eq_false] at h
    grind
  next h =>
    simp only [Bool.or_eq_true, List.isEmpty_iff, Bool.not_eq_true', not_or, Bool.not_eq_false,
      List.all_eq_true] at h
    split
    next lt =>
      constructor
      · intro heq
        cases heq
        use ⟨h.1, h.2, rfl⟩
      · rintro ⟨⟨_, _, rfl⟩, _⟩
        rfl
    next ge =>
      simp only [reduceCtorEq, false_iff, not_and]
      rintro ⟨_, _, rfl⟩
      apply ge

theorem parseUsize_toAsciiLowercase (text : Text) :
  parseUsize (toAsciiLowercase text) = parseUsize text
  := by
  apply Option.ext
  intro n
  rw [parseUsize_eq_some_iff, parseUsize_eq_some_iff, unsigned_toAsciiLowercase,
    decimal_toAsciiLowercase]

/-! ### Field lines -/

/-- A line without the carriage return of its line end. -/
def content (line : Text) : Text :=
  if line.getLast? = some '\r' then line.dropLast else line

/-- The lowercased name and the value on a field line. -/
def fieldLine (line : Text) : Option (Text × Text) :=
  (splitOnce ':' (content line)).map fun field => (toAsciiLowercase field.1, field.2)

/-- The values on the lines of a name. -/
def valuesOf (name : Text) (lines : List Text) : List Text :=
  lines.filterMap fun line =>
    (fieldLine line).bind fun field => if field.1 = name then some field.2 else none

/-- The values of a name's lines, joined without the whitespace around them. -/
def joined (name : Text) (values : List Text) : Text :=
  (separator name).intercalate (values.map trim)

theorem splitOnce_eq_some_iff {before : Text} :
  splitOnce c text = some (before, after) ↔ c ∉ before ∧ text = before ++ c :: after
  := by
  rw [splitOnce]
  constructor
  · intro h
    split at h
    next => cases h
    next d rest heq =>
      cases h
      have first := head?_dropWhile_not (· ≠ c) text
      rw [heq] at first
      obtain rfl : d = c := by simpa using first
      constructor
      · intro mem
        simpa using mem_takeWhile_imp mem
      · rw [← heq, takeWhile_append_dropWhile]
  · rintro ⟨closed, rfl⟩
    have before_ne : ∀ d ∈ before, (fun d => decide (d ≠ c)) d = true := by
      rintro d mem
      simp only [decide_eq_true_eq]
      rintro rfl
      apply closed mem
    rw [dropWhile_append_of_pos before_ne, takeWhile_append_of_pos before_ne,
      dropWhile_cons_of_neg (by simp), takeWhile_cons_of_neg (by simp), append_nil]

/-- The parser's line is the line without the carriage returns at its end. -/
theorem content_of_trimEnd (line : Text) :
  ∃ returns, content line = trimEnd (· = '\r') line ++ returns ∧ ∀ c ∈ returns, c = '\r'
  := by
  obtain ⟨returns, heq, all_⟩ := trimEnd_append (· = '\r') line
  simp only [decide_eq_true_eq] at all_
  rw [content]
  obtain rfl | ⟨before, last, rfl⟩ := eq_nil_or_concat returns
  · rw [append_nil] at heq
    rw [if_neg]
    · use [], by rw [append_nil, ← heq], nofun
    · intro last
      rw [heq] at last
      simpa using trimEnd_last last
  · rw [concat_eq_append] at heq all_
    have last_eq := all_ last (by simp)
    rw [if_pos]
    · use before
      constructor
      · conv => lhs; rw [heq, ← append_assoc, dropLast_concat]
      · intro c mem
        apply all_ c (by simp [mem])
    · rw [heq, ← append_assoc, getLast?_concat, last_eq]

/-- The parser's line has the field of the line it is made of. -/
theorem fieldLine_of_trimEnd {name : Text}
    (h : splitOnce ':' (trimEnd (· = '\r') line) = some (name, value)) :
  ∃ value', fieldLine line = some (toAsciiLowercase name, value') ∧ trim value' = trim value
  := by
  obtain ⟨closed, heq⟩ := splitOnce_eq_some_iff.mp h
  obtain ⟨returns, content_eq, all_⟩ := content_of_trimEnd line
  use value ++ returns
  constructor
  · have cut : splitOnce ':' (content line) = some (name, value ++ returns) := by
      rw [splitOnce_eq_some_iff, content_eq, heq, append_assoc]
      use closed
      rfl
    rw [fieldLine, cut]
    rfl
  · rw [← strip_isWhitespace, strip_append_of_white]
    · rfl
    · intro c mem
      rw [all_ c mem]
      rfl

/-! ### The fields that are read -/

/-- A field's value. -/
def lookup (fields : List (Text × Text)) (name : Text) : Option Text :=
  (fields.find? (·.1 = name)).map (·.2)

/-- A value with another of its name behind it. -/
def joinValue (name value : Text) : Option Text → Text
  | none => value
  | some existing => existing ++ separator name ++ value

theorem lookup_cons (known existing wanted : Text) (fields : List (Text × Text)) :
  lookup ((known, existing) :: fields) wanted =
    if known = wanted then some existing else lookup fields wanted
  := by
  rw [lookup, find?_cons]
  split
  next same => rw [if_pos (by simpa using same)]; rfl
  next other => rw [if_neg (by simpa using other)]; rfl

theorem lookup_joinField (name value wanted : Text) (fields : List (Text × Text)) :
  lookup (joinField name value fields) wanted =
    if name = wanted then some (joinValue name value (lookup fields name))
    else lookup fields wanted
  := by
  induction fields with
  | nil => rw [joinField, lookup_cons]; rfl
  | cons field fields ih =>
    obtain ⟨known, existing⟩ := field
    rw [joinField, lookup_cons, lookup_cons]
    split
    next same =>
      subst same
      rw [lookup_cons]
      split
      · rfl
      · rfl
    next other =>
      rw [lookup_cons, ih]
      split
      next same =>
        subst same
        rw [if_neg (Ne.symm other)]
      next => rfl

theorem joined_append (name : Text) {values : List Text} (some : values ≠ []) (value : Text) :
  joined name (values ++ [value]) = joined name values ++ separator name ++ trim value
  := by
  simp only [joined, map_append, map_singleton]
  induction values with
  | nil => apply absurd rfl some
  | cons first values ih =>
    cases values with
    | nil => simp [intercalate_cons_cons]
    | cons second values =>
      rw [map_cons, cons_append, intercalate_cons_of_ne_nil (by simp),
        intercalate_cons_of_ne_nil (by simp), ih (by simp)]
      simp only [append_assoc]

/-- The fields that lines are read to. -/
def fieldsOf (pairs : List (Text × Text)) : List (Text × Text) :=
  pairs.foldl (fun fields pair => joinField pair.1 (trim pair.2) fields) []

/-- The values of a name. -/
def valuesIn (name : Text) (pairs : List (Text × Text)) : List Text :=
  pairs.filterMap fun pair => if pair.1 = name then some pair.2 else none

/-- A field is the values of its name, joined. -/
theorem lookup_fieldsOf (pairs : List (Text × Text)) (name : Text) :
  lookup (fieldsOf pairs) name =
    if valuesIn name pairs = [] then none else some (joined name (valuesIn name pairs))
  := by
  induction pairs using List.reverseRecOn with
  | nil => rfl
  | append_singleton pairs pair ih =>
    obtain ⟨known, value⟩ := pair
    have fields : fieldsOf (pairs ++ [(known, value)]) =
        joinField known (trim value) (fieldsOf pairs) := by
      simp [fieldsOf]
    have values : valuesIn name (pairs ++ [(known, value)]) =
        valuesIn name pairs ++ if known = name then [value] else [] := by
      rw [valuesIn, filterMap_append]
      apply congrArg (valuesIn name pairs ++ ·)
      by_cases same : known = name
      · simp [same]
      · simp [same]
    rw [fields, lookup_joinField, values]
    split
    next same =>
      subst same
      rw [if_neg (by simp), ih]
      split
      next empty =>
        rw [empty]
        simp [joinValue, joined]
      next nonempty => rw [joinValue, joined_append _ nonempty]
    next => rw [append_nil, ih]

/-- A line that is not made of carriage returns only. -/
def Shown (line : Text) : Prop :=
  ∃ c ∈ line, c ≠ '\r'

theorem Shown.trimEnd_ne_nil (h : Shown line) : trimEnd (· = '\r') line ≠ [] := by
  intro empty
  obtain ⟨returns, heq, all_⟩ := trimEnd_append (· = '\r') line
  obtain ⟨c, mem, ne⟩ := h
  rw [empty, nil_append] at heq
  rw [heq] at mem
  apply ne
  simpa using all_ c mem

/-- Lines that are read are read to the fields on them. -/
theorem readFields_ok (shown : ∀ line ∈ lines, Shown line) {fields' : List (Text × Text)}
    (h : readFields (lines.map (trimEnd (· = '\r'))) fields = .ok fields') :
  ∃ pairs : List (Text × Text), lines.map fieldLine = pairs.map some ∧
    fields' = pairs.foldl (fun fields pair => joinField pair.1 (trim pair.2) fields) fields
  := by
  induction lines generalizing fields with
  | nil =>
    cases h
    use []
    simp
  | cons line lines ih =>
    rw [map_cons, readFields, if_neg (shown line mem_cons_self).trimEnd_ne_nil] at h
    split at h
    next => cases h
    next name value split_ =>
      split at h
      next => cases h
      next =>
        obtain ⟨value', field, same⟩ := fieldLine_of_trimEnd split_
        obtain ⟨pairs, read, rfl⟩ := ih (fun line mem => shown line (mem_cons_of_mem _ mem)) h
        use (toAsciiLowercase name, value') :: pairs
        rw [map_cons, field, read, foldl_cons, same]
        use rfl

theorem valuesOf_eq {pairs : List (Text × Text)} (h : lines.map fieldLine = pairs.map some)
    (name : Text) :
  valuesOf name lines = valuesIn name pairs
  := by
  have mapped := congrArg (List.filterMap fun field : Option (Text × Text) =>
    field.bind fun field => if field.1 = name then some field.2 else none) h
  rw [filterMap_map, filterMap_map] at mapped
  apply mapped

/-- The fields of lines that are read: each is the values of its name, joined. -/
theorem lookup_of_read (shown : ∀ line ∈ lines, Shown line)
    (h : readFields (lines.map (trimEnd (· = '\r'))) [] = .ok fields) (name : Text) :
  lookup fields name =
    if valuesOf name lines = [] then none else some (joined name (valuesOf name lines))
  := by
  obtain ⟨pairs, read, rfl⟩ := readFields_ok shown h
  rw [valuesOf_eq read]
  apply lookup_fieldsOf

/-! ### The framing that is read -/

/-- A head declares a body of so many bytes by its length. -/
def Declares (head : Head) (n : ℕ) : Prop :=
  match bodyFraming head with
  | .ok (.length length) => length = n
  | .ok .empty => (head.field contentLength).isSome ∧ n = 0
  | _ => False

theorem declares_iff (head : Head) (n : ℕ) :
  Declares head n ↔ lookup head.fields transferEncoding = none ∧
    ∃ value, lookup head.fields contentLength = some value ∧ parseUsize (trim value) = some n
  := by
  have field : ∀ name, head.field name =
      (lookup head.fields name).map fun value => toAsciiLowercase (trim value) := by
    intro name
    rw [Head.field, lookup, Option.map_map]
    rfl
  simp only [Declares, bodyFraming, field]
  cases lookup head.fields transferEncoding with
  | some coding =>
    simp only [map_some, reduceCtorEq, false_and, iff_false]
    split
    next heq =>
      repeat' split at heq
      all_goals cases heq
    next heq =>
      repeat' split at heq
      all_goals cases heq
    next => nofun
  | none =>
    cases lookup head.fields contentLength with
    | none => simp
    | some value =>
      simp only [map_none, map_some, parseUsize_toAsciiLowercase, true_and,
        some_inj, exists_eq_left', isSome_some]
      cases parseUsize (trim value) with
      | none => simp
      | some length =>
        cases length with
        | zero => simp [eq_comm]
        | succ length => simp

theorem mem_trim (mem : c ∈ text) (black : isWhitespace c = false) :
  c ∈ trim text
  := by
  obtain ⟨before, after, heq, white, white'⟩ := trim_append text
  rw [heq, mem_append, mem_append] at mem
  obtain (mem | mem) | mem := mem
  · rw [white c mem] at black
    cases black
  · apply mem
  · rw [white' c mem] at black
    cases black

/-- What is read as a number is the value of one line. -/
theorem single_of_parse {values : List Text}
    (h : parseUsize (trim (joined contentLength values)) = some n) :
  ∃ value, values = [value] ∧ parseUsize (trim value) = some n
  := by
  match values, h with
  | [], h => cases h
  | [value], h =>
      use value, rfl
      have alone : joined contentLength [value] = trim value := by
        simp [joined]
      rw [alone, ← strip_isWhitespace, ← strip_isWhitespace, strip_strip, strip_isWhitespace] at h
      apply h
  | first :: second :: values, h =>
      exfalso
      have comma : ',' ∈ joined contentLength (first :: second :: values) := by
        rw [joined, map_cons, map_cons, intercalate_cons_cons]
        apply mem_append_left
        apply mem_append_right
        decide
      have comma' := mem_trim comma (by decide)
      obtain ⟨⟨_, digits, _⟩, _⟩ := parseUsize_eq_some_iff.mp h
      rw [unsigned] at digits
      split at digits
      next plus =>
        obtain ⟨rest, heq⟩ := head?_eq_some_iff.mp plus
        rw [heq] at comma' digits
        obtain ne | mem := mem_cons.mp comma'
        · cases ne
        · cases digits _ mem
      next => cases digits _ comma'

/-- A head that is read from shown lines declares a body of so many bytes exactly when one line of
the name has a number, and no line names a transfer coding. -/
theorem declares_iff_of_read (shown : ∀ line ∈ lines, Shown line) {head : Head}
    (h : readFields (lines.map (trimEnd (· = '\r'))) [] = .ok head.fields) (n : ℕ) :
  Declares head n ↔ valuesOf transferEncoding lines = [] ∧
    ∃ value, valuesOf contentLength lines = [value] ∧ parseUsize (trim value) = some n
  := by
  rw [declares_iff, lookup_of_read shown h, lookup_of_read shown h]
  constructor
  · rintro ⟨codings, value, lengths, number⟩
    split at codings
    next empty =>
      use empty
      split at lengths
      next => cases lengths
      next =>
        cases lengths
        apply single_of_parse number
    next => cases codings
  · rintro ⟨empty, value, single, number⟩
    rw [if_pos empty, single, if_neg (by simp)]
    refine ⟨rfl, _, rfl, ?_⟩
    have alone : joined contentLength [value] = trim value := by
      simp [joined]
    rw [alone, ← strip_isWhitespace, ← strip_isWhitespace, strip_strip, strip_isWhitespace]
    apply number

/-! ### Heads that are unambiguous -/

/-- Optional whitespace around a field's value. -/
def isOptionalWhitespace (c : Char) : Bool :=
  c = ' ' || c = '\t'

/-- A head is what a buffer's lines are: it ends behind the first empty line, each field line is in
its fields, and the length that it declares is on a line that has digits and nothing else, in the
absence of a line that names a transfer coding, in upper or lower case or with whitespace around
the name. -/
structure Faithful (lines : List Text) (last : Text) (head : Head) : Prop where
  length : head.length = (encode (whole (lines ++ [last]))).length
  fields : ∀ line ∈ lines.tail, ∃ name value, fieldLine line = some (name, value) ∧
    lookup head.fields name = some (joined name (valuesOf name lines.tail))
  framed : ∀ n, Declares head n →
    (∃ line ∈ lines.tail, ∃ value, fieldLine line = some (contentLength, value)) ∧
      ∀ line ∈ lines.tail, ∀ name value, fieldLine line = some (name, value) →
        (name = contentLength → Decimal (strip isOptionalWhitespace value) n) ∧
          trim name ≠ transferEncoding

def Unambiguous (buffer : Bytes) (head : Head) : Prop :=
  ∃ lines last, HeadLines buffer lines last ∧ Faithful lines last head

/-- Lines that the two scans and the readers of numbers and names do not see differently: the empty
line ends as the line before it does, or in a bare line feed; no field line is made of carriage
returns only; and where one line has a number as the body's length, and no line names a transfer
coding, that number has no sign and no whitespace around it but spaces and tabs, and no name is
that of a transfer coding with whitespace around it. -/
structure PlainLines (lines : List Text) (last : Text) : Prop where
  alike : EndsAlike lines last
  shown : ∀ line ∈ lines.tail, Shown line
  plain : ∀ value n, valuesOf contentLength lines.tail = [value] →
    parseUsize (trim value) = some n → valuesOf transferEncoding lines.tail = [] →
      (trim value).head? ≠ some '+' ∧ strip isOptionalWhitespace value = trim value ∧
        ∀ line ∈ lines.tail, ∀ name value, fieldLine line = some (name, value) →
          trim name ≠ transferEncoding

def Plain (buffer : Bytes) : Prop :=
  ∃ lines last, HeadLines buffer lines last ∧ PlainLines lines last

theorem Decimal.bare (h : Decimal text n) : Bare isWhitespace text := by
  obtain ⟨_, digits, _⟩ := h
  constructor
  · intro c first
    apply isDigit_not_white (digits c (mem_of_head? first))
  · intro c last
    apply isDigit_not_white (digits c (mem_of_getLast? last))

/-- A number that is read is on its line, and nothing else, when it has no sign and no whitespace
around it that is not optional. -/
theorem decimal_iff (h : parseUsize (trim value) = some n) :
  Decimal (strip isOptionalWhitespace value) n ↔
    (trim value).head? ≠ some '+' ∧ strip isOptionalWhitespace value = trim value
  := by
  obtain ⟨decimal, _⟩ := parseUsize_eq_some_iff.mp h
  constructor
  · intro bare
    obtain ⟨before, after, heq, white, white'⟩ := strip_append isOptionalWhitespace value
    have optional : ∀ c, isOptionalWhitespace c = true → isWhitespace c = true := by
      intro c space
      simp only [isOptionalWhitespace, Bool.or_eq_true, decide_eq_true_eq] at space
      obtain rfl | rfl := space
      · decide
      · decide
    have cut := strip_of_bare bare.bare (fun c mem => optional c (white c mem))
      (fun c mem => optional c (white' c mem))
    rw [← heq, strip_isWhitespace] at cut
    constructor
    · rw [cut]
      intro plus
      have digit := bare.2.1 _ (mem_of_head? plus)
      cases digit
    · rw [cut]
  · rintro ⟨sign, same⟩
    rw [unsigned, if_neg sign] at decimal
    rw [same]
    apply decimal

theorem mem_valuesOf {name : Text} :
  value ∈ valuesOf name lines ↔ ∃ line ∈ lines, fieldLine line = some (name, value)
  := by
  simp only [valuesOf, mem_filterMap]
  constructor
  · rintro ⟨line, mem, h⟩
    obtain ⟨⟨known, value'⟩, field, h⟩ := bind_eq_some_iff.mp h
    dsimp only at h
    split at h
    next same =>
      cases h
      subst same
      use line, mem
    next => cases h
  · rintro ⟨line, mem, field⟩
    use line, mem
    rw [field, bind_some, if_pos rfl]

theorem shown_of_fieldLine {field : Text × Text} (h : fieldLine line = some field) :
  Shown line
  := by
  obtain ⟨⟨name, value⟩, split_, _⟩ := map_eq_some_iff.mp h
  obtain ⟨_, heq⟩ := splitOnce_eq_some_iff.mp split_
  have mem : ':' ∈ content line := by
    rw [heq]
    simp
  use ':'
  constructor
  · rw [content] at mem
    split at mem
    next => apply mem_of_mem_dropLast mem
    next => apply mem
  · decide

/-- A line that is read has a field. -/
theorem fieldLine_of_read (shown : ∀ line ∈ lines, Shown line)
    (h : readFields (lines.map (trimEnd (· = '\r'))) [] = .ok fields) (mem : line ∈ lines) :
  ∃ name value, fieldLine line = some (name, value)
  := by
  obtain ⟨pairs, read, _⟩ := readFields_ok shown h
  have mapped := List.mem_map_of_mem (f := fieldLine) mem
  rw [read] at mapped
  obtain ⟨⟨name, value⟩, _, heq⟩ := List.mem_map.mp mapped
  use name, value, heq.symm

/-- A head that is read is what its lines are exactly when they are plain. -/
theorem faithful_iff {buffer : Bytes} {requestLine : Text} {last : Text} {head : Head}
    (h : HeadLines buffer (requestLine :: lines) last) (found : headEnd buffer = some head.length)
    (le : (encode (whole (requestLine :: lines ++ [last]))).length ≤ head.length)
    (read : readFields (lines.map (trimEnd (· = '\r'))) [] = .ok head.fields) :
  Faithful (requestLine :: lines) last head ↔ PlainLines (requestLine :: lines) last
  := by
  have alike := headEnd_eq_iff h (by simp) found le
  constructor
  · rintro ⟨length, fields, framed⟩
    have shown : ∀ line ∈ lines, Shown line := by
      intro line mem
      obtain ⟨name, value, field, _⟩ := fields line mem
      apply shown_of_fieldLine field
    use alike.mp length, shown
    intro value n single number empty
    rw [tail_cons] at single empty framed
    have declares := (declares_iff_of_read shown read n).mpr ⟨empty, value, single, number⟩
    obtain ⟨_, told⟩ := framed n declares
    have mem : value ∈ valuesOf contentLength lines := by
      rw [single]
      apply mem_singleton_self
    obtain ⟨line, mem, field⟩ := mem_valuesOf.mp mem
    obtain ⟨sign, white⟩ := (decimal_iff number).mp ((told line mem _ _ field).1 rfl)
    use sign, white
    intro line mem name value field
    apply (told line mem name value field).2
  · rintro ⟨alike', shown, plain⟩
    have shown : ∀ line ∈ lines, Shown line := shown
    constructor
    · apply alike.mpr alike'
    · intro line mem
      obtain ⟨name, value, field⟩ := fieldLine_of_read shown read mem
      use name, value, field
      have value_mem : value ∈ valuesOf name lines := mem_valuesOf.mpr ⟨line, mem, field⟩
      rw [lookup_of_read shown read, if_neg (ne_nil_of_mem value_mem)]
      rfl
    · intro n declares
      obtain ⟨empty, value, single, number⟩ := (declares_iff_of_read shown read n).mp declares
      obtain ⟨sign, white, names⟩ := plain value n single number empty
      have one : ∀ line ∈ lines, ∀ value', fieldLine line = some (contentLength, value') →
          value' = value := by
        intro line mem value' field
        have value_mem : value' ∈ valuesOf contentLength lines := mem_valuesOf.mpr ⟨line, mem, field⟩
        rw [single] at value_mem
        apply mem_singleton.mp value_mem
      constructor
      · have value_mem : value ∈ valuesOf contentLength lines := by
          rw [single]
          apply mem_singleton_self
        obtain ⟨line, mem, field⟩ := mem_valuesOf.mp value_mem
        use line, mem, value
      · intro line mem name value' field
        constructor
        · rintro rfl
          rw [one line mem value' field]
          apply (decimal_iff number).mpr ⟨sign, white⟩
        · apply names line mem name value' field

/-- An accepted head is unambiguous exactly when the buffer is plain. -/
theorem parseHead_unambiguous_iff {buffer : Bytes} {head : Head}
    (parsed : parseHead buffer = .ok head) :
  Unambiguous buffer head ↔ Plain buffer
  := by
  obtain ⟨requestLine, lines, last, headLines, found, le, read⟩ := parseHead_lines parsed
  have same := faithful_iff headLines found le read
  constructor
  · rintro ⟨lines', last', headLines', faithful⟩
    obtain ⟨rfl, rfl⟩ := headLines.unique headLines'
    exact ⟨_, _, headLines, same.mp faithful⟩
  · rintro ⟨lines', last', headLines', plain⟩
    obtain ⟨rfl, rfl⟩ := headLines.unique headLines'
    exact ⟨_, _, headLines, same.mpr plain⟩

/-- A request with a body of seven bytes. -/
def sevenBytes : Bytes :=
  encode "A /\r\nContent-Length: 7\r\n\r\n".toList

/-- It is read as such. -/
theorem sevenBytes_unambiguous :
  Unambiguous sevenBytes ⟨['A'], ['/'], [(contentLength, ['7'])], 26⟩
  := by
  have parsed : parseHead sevenBytes = .ok ⟨['A'], ['/'], [(contentLength, ['7'])], 26⟩ := by
    decide
  rw [parseHead_unambiguous_iff parsed]
  use ["A /\r".toList, "Content-Length: 7\r".toList], ['\r']
  constructor
  · exact ⟨⟨[], by decide⟩, by decide, by decide, .inr rfl⟩
  · have values : valuesOf contentLength ["Content-Length: 7\r".toList] = [" 7".toList] := by
      decide
    have field : fieldLine "Content-Length: 7\r".toList = some (contentLength, " 7".toList) := by
      decide
    constructor
    · intro _
      use "Content-Length: 7\r".toList
      decide
    · intro line mem
      obtain rfl := mem_singleton.mp mem
      use 'C'
      decide
    · intro value n single number _
      rw [tail_cons, values, singleton_inj] at single
      subst single
      use by decide, by decide
      intro line mem name value named
      obtain rfl := mem_singleton.mp mem
      rw [field] at named
      cases named
      decide

/-- A request whose empty line has a carriage return, behind a line that has none. -/
def mixedEnds : Bytes :=
  encode "A /\n\r\nB\n\n".toList

/-- The empty line is not seen, and what follows it is taken for a part of the head. -/
theorem mixedEnds_ambiguous :
  ¬ ∀ buffer head, parseHead buffer = .ok head → Unambiguous buffer head
  := by
  intro h
  have parsed : parseHead mixedEnds = .ok ⟨['A'], ['/'], [], 9⟩ := by decide
  have lines : HeadLines mixedEnds ["A /".toList] ['\r'] :=
    ⟨⟨encode "B\n\n".toList, by decide⟩, by decide, by decide, .inr rfl⟩
  obtain ⟨lines', last', headLines, faithful⟩ := h _ _ parsed
  obtain ⟨rfl, rfl⟩ := lines.unique headLines
  have length := faithful.length
  revert length
  decide

end Vilan.Http
