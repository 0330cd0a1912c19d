import Vilan.Core.CodecReads
import Mathlib.Data.Nat.Digits.Lemmas

/-!
# Round trips

A body and a table are read back as the value that they were written for, and neither is read with
some of it missing or with something after it, up to 2³² different strings.
-/

namespace Vilan.PrefixFile

open List Reading

/-! ### Renaming -/

/-- A piece with its string renamed. -/
def Piece.rename (f : Str → Str) : Piece → Piece
  | .bytes raw => .bytes raw
  | .str text => .str (f text)

mutual

theorem pieces_rename (f : Str → Str) (value : Value) :
  pieces (rename f value) = (pieces value).map (Piece.rename f)
  := by
  cases value with
  | some value => rw [rename, pieces, pieces_rename f value, pieces, map_cons, Piece.rename]
  | seq elements =>
    rw [rename, pieces, piecesAll_rename f elements, pieces, map_cons, Piece.rename,
      renameAll_eq, length_map]
  | tuple elements => rw [rename, pieces, piecesAll_rename f elements, pieces]
  | map entries =>
    rw [rename, pieces, piecesEntries_rename f entries, pieces, map_cons, Piece.rename,
      renameEntries_eq, length_map]
  | struct fields => rw [rename, pieces, piecesFields_rename f fields, pieces]
  | variant index fields =>
    rw [rename, pieces, piecesFields_rename f fields, pieces, map_cons, Piece.rename]
  | _ => rfl

theorem piecesAll_rename (f : Str → Str) (values : List Value) :
  piecesAll (renameAll f values) = (piecesAll values).map (Piece.rename f)
  := by
  cases values with
  | nil => rfl
  | cons value values =>
    rw [renameAll, piecesAll, pieces_rename f value, piecesAll_rename f values, piecesAll,
      map_append]

theorem piecesEntries_rename (f : Str → Str) (entries : List (Value × Value)) :
  piecesEntries (renameEntries f entries) = (piecesEntries entries).map (Piece.rename f)
  := by
  cases entries with
  | nil => rfl
  | cons entry entries =>
    rw [renameEntries, piecesEntries, piecesEntry_rename f entry, piecesEntries_rename f entries,
      piecesEntries, map_append]

theorem piecesEntry_rename (f : Str → Str) (entry : Value × Value) :
  piecesEntry (renameEntry f entry) = (piecesEntry entry).map (Piece.rename f)
  := by
  obtain ⟨key, value⟩ := entry
  rw [renameEntry, piecesEntry, pieces_rename f key, pieces_rename f value, piecesEntry, map_append]

theorem piecesFields_rename (f : Str → Str) (fields : Fields Value) :
  piecesFields (renameFields f fields) = (piecesFields fields).map (Piece.rename f)
  := by
  cases fields with
  | unit => rfl
  | newtype value => rw [renameFields, piecesFields, pieces_rename f value, piecesFields]
  | tuple values => rw [renameFields, piecesFields, piecesAll_rename f values, piecesFields]
  | struct values => rw [renameFields, piecesFields, piecesAll_rename f values, piecesFields]

end

mutual

variable {f : Str → Str}

/-- A renaming that keeps every string keeps the value. -/
theorem rename_eq_self (value : Value)
    (keeps : ∀ text, Piece.str text ∈ pieces value → f text = text) :
  rename f value = value
  := by
  cases value with
  | str text => rw [rename, keeps text (mem_singleton_self _)]
  | some value =>
    rw [rename, rename_eq_self value fun text mem => keeps text (mem_cons_of_mem _ mem)]
  | seq elements =>
    rw [rename, renameAll_eq_self elements fun text mem => keeps text (mem_cons_of_mem _ mem)]
  | tuple elements => rw [rename, renameAll_eq_self elements keeps]
  | map entries =>
    rw [rename, renameEntries_eq_self entries fun text mem => keeps text (mem_cons_of_mem _ mem)]
  | struct fields => rw [rename, renameFields_eq_self fields keeps]
  | variant index fields =>
    rw [rename, renameFields_eq_self fields fun text mem => keeps text (mem_cons_of_mem _ mem)]
  | _ => rfl

theorem renameAll_eq_self (values : List Value)
    (keeps : ∀ text, Piece.str text ∈ piecesAll values → f text = text) :
  renameAll f values = values
  := by
  cases values with
  | nil => rfl
  | cons value values =>
    rw [renameAll, rename_eq_self value fun text mem => keeps text (mem_append_left _ mem),
      renameAll_eq_self values fun text mem => keeps text (mem_append_right _ mem)]

theorem renameEntries_eq_self (entries : List (Value × Value))
    (keeps : ∀ text, Piece.str text ∈ piecesEntries entries → f text = text) :
  renameEntries f entries = entries
  := by
  cases entries with
  | nil => rfl
  | cons entry entries =>
    rw [renameEntries, renameEntry_eq_self entry fun text mem => keeps text (mem_append_left _ mem),
      renameEntries_eq_self entries fun text mem => keeps text (mem_append_right _ mem)]

theorem renameEntry_eq_self (entry : Value × Value)
    (keeps : ∀ text, Piece.str text ∈ piecesEntry entry → f text = text) :
  renameEntry f entry = entry
  := by
  obtain ⟨key, value⟩ := entry
  rw [renameEntry, rename_eq_self key fun text mem => keeps text (mem_append_left _ mem),
    rename_eq_self value fun text mem => keeps text (mem_append_right _ mem)]

theorem renameFields_eq_self (fields : Fields Value)
    (keeps : ∀ text, Piece.str text ∈ piecesFields fields → f text = text) :
  renameFields f fields = fields
  := by
  cases fields with
  | unit => rfl
  | newtype value => rw [renameFields, rename_eq_self value keeps]
  | tuple values => rw [renameFields, renameAll_eq_self values keeps]
  | struct values => rw [renameFields, renameAll_eq_self values keeps]

end

/-- A value stays the same exactly when its strings do. -/
theorem rename_eq_iff {value : Value} :
  rename f value = value ↔ ∀ text ∈ strings value, f text = text
  := by
  constructor
  · intro same text mem
    have strings_eq : strings (rename f value) = (strings value).map f := by
      rw [strings, pieces_rename, strings, filterMap_map, map_filterMap]
      congr
      funext piece
      cases piece with
      | bytes bytes => rfl
      | str text => rfl
    rw [same] at strings_eq
    have all_same := map_inj_left.mp (strings_eq.symm.trans (List.map_id _).symm)
    apply all_same text mem
  · intro keeps
    apply rename_eq_self
    intro text mem
    apply keeps
    rw [mem_strings_iff]
    apply mem

/-! ### Whole inputs -/

/-- One is the other with some of it missing or with something after it. -/
def Comparable (bytes other : Bytes) : Prop :=
  bytes <+: other ∨ other <+: bytes

theorem whole_eq_ok {β : Type} {reader : Reader β} {bytes : Bytes} {value : β}
    (reads : Reads truncated reader bytes 0 value) (trailing : ℕ → Error) :
  whole reader bytes trailing = .ok value
  := by
  have read := reads.whole []
  rw [append_nil] at read
  rw [whole, read]
  simp only [if_pos]

theorem whole_eq_error {β : Type} {reader : Reader β} {bytes bytes' : Bytes} {value : β}
    (reads : Reads truncated reader bytes 0 value) {trailing : ℕ → Error}
    (message : ∀ count, ∃ text, trailing count = .message text) (comparable : Comparable bytes' bytes)
    (ne : bytes' ≠ bytes) :
  ∃ text, whole reader bytes' trailing = .error (.message text)
  := by
  rcases comparable with initial | ⟨more, rfl⟩
  · obtain ⟨pos, read⟩ := reads.short bytes' initial ne
    rw [whole, read]
    exact ⟨_, rfl⟩
  · obtain ⟨text, message_eq⟩ := message more.length
    use text
    rw [whole, reads.whole]
    have more_ne : more ≠ [] := by
      rintro rfl
      apply ne (append_nil bytes)
    simp only [if_neg more_ne, message_eq]

/-! ### Round trips -/

/-- The body and the table of a value are read back as the value, and either of them with some of it
missing or with something after it is an error with a message. -/
def RoundTrips (decls : ℕ → Decl) (depth : ℕ) (type : Ty) (value : Value) : Prop :=
  decode decls depth type (encode value).1 (encode value).2 = .ok value ∧
    ∀ body table, Comparable body (encode value).1 → Comparable table (encode value).2 →
      (body, table) ≠ encode value →
        ∃ text, decode decls depth type body table = .error (.message text)

section Typed

variable {decls : ℕ → Decl} {depth : ℕ} {type : Ty} {value : Value}

/-- Every part of a struct or a variant is related to a part of its type. -/
theorem Fields.Match.exists_of_mem {α β : Type} {related : α → β → Prop} {fields : Fields α}
    {others : Fields β} (parts : fields.Match related others) {item : β} (mem : item ∈ others.items) :
  ∃ kind, related kind item
  := by
  have of_forall₂ : ∀ {kinds : List α} {items : List β}, List.Forall₂ related kinds items →
      item ∈ items → ∃ kind, related kind item := by
    intro kinds items same mem
    induction same with
    | nil => cases mem
    | cons head _ ih =>
      rcases mem_cons.mp mem with rfl | mem
      · exact ⟨_, head⟩
      · apply ih mem
  cases parts with
  | unit => cases mem
  | newtype same => exact ⟨_, mem_singleton.mp mem ▸ same⟩
  | tuple same => apply of_forall₂ same mem
  | struct same => apply of_forall₂ same mem

section

variable (typed : Typed decls depth type value)
include typed

/-- A string of a typed value has a length that is a `usize`. -/
theorem Typed.string_fits {text : Str}
    (mem : Piece.str text ∈ pieces value) :
  (Utf8.encode text).length < u64Bound
  := by
  induction depth generalizing type value with
  | zero => cases typed
  | succ depth ih =>
  have fields_fit : ∀ {types : Fields Ty} {fields : Fields Value},
      types.Match (Typed decls depth) fields → Piece.str text ∈ piecesFields fields →
        (Utf8.encode text).length < u64Bound := by
    intro types fields parts mem
    rw [piecesFields_eq] at mem
    obtain ⟨value, mem, mem'⟩ := mem_flatMap.mp mem
    obtain ⟨type, typed⟩ := parts.exists_of_mem mem
    apply ih typed mem'
  cases typed with
  | str fits =>
    cases mem_singleton.mp mem
    apply fits
  | @bytes raw fits => simp [pieces] at mem
  | some part => apply ih part (mem_of_ne_of_mem (by simp) mem)
  | unit => cases mem
  | seq fits parts =>
    have mem := mem_of_ne_of_mem (by simp) mem
    rw [piecesAll_eq] at mem
    obtain ⟨value, mem, mem'⟩ := mem_flatMap.mp mem
    apply ih (parts value mem) mem'
  | tuple parts =>
    apply fields_fit (Fields.Match.tuple parts) mem
  | map fits parts =>
    have mem := mem_of_ne_of_mem (by simp) mem
    rw [piecesEntries_eq] at mem
    obtain ⟨entry, mem, mem'⟩ := mem_flatMap.mp mem
    obtain ⟨key, value⟩ := parts entry mem
    rcases mem_append.mp mem' with mem' | mem'
    · apply ih key mem'
    · apply ih value mem'
  | struct decl parts => apply fields_fit parts mem
  | variant decl declared parts =>
    apply fields_fit parts (mem_of_ne_of_mem (by simp) mem)
  | _ => cases mem_singleton.mp mem

/-- The table of a value is read as its rows. -/
theorem Typed.table_reads
    (fits : (rowsOf value).length < u64Bound) :
  Reads truncated readTable (encode value).2 0 (rowsOf value)
  := by
  rw [encode_eq]
  apply readTable_reads fits
  intro text mem
  rw [mem_rowsOf, mem_strings_iff] at mem
  apply typed.string_fits mem

/-- The body of a value is read with each string as the row that its index leads to. -/
theorem Typed.body_reads :
  Reads truncated (deserialize decls (some (rowsOf value)) depth type) (encode value).1 0
    (rename (resolve (rowsOf value)) value)
  := by
  rw [encode_eq]
  apply typed.readsBack
  intro text mem pos
  apply readStr_reads
  rw [mem_rowsOf, mem_strings_iff]
  apply mem

theorem Typed.decode_eq
    (fits : (rowsOf value).length < u64Bound) (body : Bytes) :
  decode decls depth type body (encode value).2 =
    whole (deserialize decls (some (rowsOf value)) depth type) body fun count =>
      .custom s!"{count} trailing bytes after the value"
  := by
  rw [decode, whole_eq_ok (typed.table_reads fits)]
  rfl

theorem Typed.decode_encode
    (fits : (rowsOf value).length < u64Bound) :
  decode decls depth type (encode value).1 (encode value).2 =
    .ok (rename (resolve (rowsOf value)) value)
  := by
  rw [typed.decode_eq fits]
  apply whole_eq_ok typed.body_reads

/-- Neither the body nor the table is read with some of it missing or with something after it. -/
theorem Typed.decode_eq_error
    (fits : (rowsOf value).length < u64Bound) {body table : Bytes}
    (body_comparable : Comparable body (encode value).1)
    (table_comparable : Comparable table (encode value).2) (ne : (body, table) ≠ encode value) :
  ∃ text, decode decls depth type body table = .error (.message text)
  := by
  by_cases same : table = (encode value).2
  · rw [same, typed.decode_eq fits]
    apply whole_eq_error typed.body_reads _ body_comparable
    · intro same_body
      apply ne
      rw [same, same_body]
    · intro count
      exact ⟨_, rfl⟩
  · have message : ∀ count : ℕ, ∃ text, Error.custom "the string table carries trailing bytes" =
        .message text := fun _ => ⟨_, rfl⟩
    obtain ⟨text, failed⟩ := whole_eq_error (typed.table_reads fits) message table_comparable same
    use text
    rw [decode, failed]
    rfl

end

theorem foldl_inline (all_ : List Piece) (out : Bytes) :
  all_.foldl Writer.piece ⟨out, none⟩ = ⟨out ++ all_.flatMap (layout Writer.row), none⟩
  := by
  induction all_ generalizing out with
  | nil => rw [foldl_nil, flatMap_nil, append_nil]
  | cons piece all_ ih =>
    rw [foldl_cons, flatMap_cons, ← append_assoc, ← ih]
    cases piece <;> rfl

theorem length_rowsOf (value : Value) : (rowsOf value).length = (strings value).dedup.length :=
  length_internAll (strings value)

section

variable (typed : Typed decls depth type value)
include typed

theorem Typed.roundTrips
    (few : (strings value).dedup.length ≤ 2 ^ 32) :
  RoundTrips decls depth type value
  := by
  rw [← length_rowsOf] at few
  have fits : (rowsOf value).length < u64Bound := lt_of_le_of_lt few (by decide)
  have same : rename (resolve (rowsOf value)) value = value := by
    rw [rename_eq_iff]
    intro text mem
    apply resolve_eq (mem_rowsOf.mpr mem) few
  constructor
  · rw [typed.decode_encode fits, same]
  · intro body table body_comparable table_comparable ne
    apply typed.decode_eq_error fits body_comparable table_comparable ne

/-- One string too many is read as another. -/
theorem Typed.not_roundTrips
    (fits : (strings value).dedup.length < u64Bound)
    (many_ : 2 ^ 32 < (strings value).dedup.length) :
  ¬ RoundTrips decls depth type value
  := by
  rw [← length_rowsOf] at fits many_
  rintro ⟨decoded, -⟩
  rw [typed.decode_encode fits] at decoded
  have same : rename (resolve (rowsOf value)) value = value := Except.ok.inj decoded
  have nodup : (rowsOf value).Nodup := nodup_internAll nodup_nil _
  obtain ⟨text, mem, ne⟩ := exists_resolve_ne nodup many_
  apply ne
  apply rename_eq_iff.mp same text
  rw [← mem_rowsOf]
  apply mem

/-- A value in place is read back whatever follows it, however many strings it has, and cut short it
is an error with a message. -/
theorem Typed.decodeInline_encodeInline :
  (∀ more, decodeInline decls depth type (encodeInline value ++ more) =
      .ok (value, (encodeInline value).length)) ∧
    ∀ part, part <+: encodeInline value → part ≠ encodeInline value →
      ∃ text, decodeInline decls depth type part = .error (.message text)
  := by
  have image_eq : encodeInline value = image Writer.row value := by
    rw [encodeInline, serialize_eq, Writer.inline, foldl_inline]
    rfl
  have same : rename id value = value := rename_eq_self value fun _ _ => rfl
  have reads : Reads truncated (deserialize decls none depth type) (image Writer.row value) 0
      (rename id value) := by
    apply typed.readsBack
    intro text mem
    apply inlineStr_reads (typed.string_fits mem)
  rw [← image_eq, same] at reads
  constructor
  · intro more
    rw [decodeInline, reads.whole]
    simp [bind, Except.bind, pure, Except.pure]
  · intro part initial ne
    obtain ⟨pos, read⟩ := reads.short part initial ne
    rw [decodeInline, read]
    exact ⟨_, rfl⟩

/-- A value round-trips exactly when it has at most 2³² different strings, however deep its type is
unfolded beyond what it needs.  The rows of its table are a vector, so their count is a `usize`. -/
theorem Typed.roundTrips_iff
    (fits : (strings value).dedup.length < u64Bound) {depth' : ℕ} (le : depth ≤ depth') :
  RoundTrips decls depth' type value ↔ (strings value).dedup.length ≤ 2 ^ 32
  := by
  have typed' := typed.mono le
  constructor
  · intro trips
    by_contra many_
    apply typed'.not_roundTrips fits (Nat.lt_of_not_le many_) trips
  · apply typed'.roundTrips

end

end Typed

/-! ### Too many strings -/

/-- A text for each number. -/
def label (n : ℕ) : Str :=
  (Nat.digits 2 n).map fun digit => if digit = 0 then 'a' else 'b'

theorem label_injective : Function.Injective label := by
  have inverse : Function.LeftInverse
      (fun text : Str => Nat.ofDigits 2 (text.map fun c => if c = 'a' then 0 else 1)) label := by
    intro n
    have same : (label n).map (fun c => if c = 'a' then 0 else 1) = Nat.digits 2 n := by
      rw [label, List.map_map]
      conv_rhs => rw [← List.map_id (Nat.digits 2 n)]
      apply map_congr_left
      intro digit mem
      have lt : digit < 2 := Nat.digits_lt_base (by decide) mem
      interval_cases digit
      · rfl
      · rfl
    simp only [same, Nat.ofDigits_digits]
  apply inverse.injective

theorem label_fits {n : ℕ} (lt : n < 2 ^ 64) : (Utf8.encode (label n)).length < u64Bound := by
  have four : ∀ text : Str, (Utf8.encode text).length ≤ 4 * text.length := by
    intro text
    induction text with
    | nil => rfl
    | cons c text ih =>
      rw [Utf8.encode_cons, length_append, length_cons, String.length_utf8EncodeChar]
      have le := Char.utf8Size_le_four c
      omega
  have digits : (Nat.digits 2 n).length ≤ 64 := (Nat.digits_length_le_iff (by decide) n).mpr lt
  have length_eq : (label n).length = (Nat.digits 2 n).length := length_map _
  have le := four (label n)
  have bound : 4 * 64 < u64Bound := by decide
  omega

/-- A sequence of so many different strings. -/
def crowd (count : ℕ) : Value :=
  .seq ((List.range count).map fun n => .str (label n))

theorem strings_crowd (count : ℕ) : strings (crowd count) = (List.range count).map label := by
  rw [strings, crowd, pieces, piecesAll_eq, filterMap_cons, flatMap_map]
  change List.filterMap Piece.text ((List.range count).flatMap fun n => [Piece.str (label n)]) = _
  rw [← map_eq_flatMap, filterMap_map]
  apply congrFun filterMap_eq_map'

theorem length_dedup_crowd (count : ℕ) : (strings (crowd count)).dedup.length = count := by
  rw [strings_crowd, (List.nodup_range.map label_injective).dedup, length_map, length_range]

theorem typed_crowd (decls : ℕ → Decl) {count : ℕ} (fits : count < u64Bound) :
  Typed decls 2 (.seq .str) (crowd count)
  := by
  apply Formed.seq
  · rw [length_map, length_range]
    apply fits
  · intro value mem
    obtain ⟨n, inside, rfl⟩ := List.mem_map.mp mem
    apply Formed.str
    apply label_fits
    apply lt_trans (mem_range.mp inside) fits

theorem crowd_roundTrips_iff :
  RoundTrips (fun _ => .struct .unit) 3 (.seq .str) (crowd 5) ↔
    (strings (crowd 5)).dedup.length ≤ 2 ^ 32
  := by
  apply (typed_crowd _ (by decide)).roundTrips_iff
  · rw [length_dedup_crowd]
    decide
  · decide

/-- With one string more than there are indices the last one is read as the first. -/
theorem crowd_misread :
  Typed (fun _ => .struct .unit) 2 (.seq .str) (crowd (2 ^ 32 + 1)) ∧
    ¬ RoundTrips (fun _ => .struct .unit) 2 (.seq .str) (crowd (2 ^ 32 + 1))
  := by
  have typed : Typed (fun _ => .struct .unit) 2 (.seq .str) (crowd (2 ^ 32 + 1)) :=
    typed_crowd _ (by decide)
  use typed
  apply typed.not_roundTrips
  · rw [length_dedup_crowd]
    decide
  · rw [length_dedup_crowd]
    decide

theorem crowd_in_place :
  decodeInline (fun _ => .struct .unit) 2 (.seq .str) (encodeInline (crowd 5) ++ [7]) =
    .ok (crowd 5, (encodeInline (crowd 5)).length)
  := (typed_crowd _ (by decide)).decodeInline_encodeInline.1 _

end Vilan.PrefixFile
