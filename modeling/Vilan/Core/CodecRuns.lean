import Vilan.Core.Codec

/-!
# What the codec writes and reads

A value is written as pieces, each of them bytes or a string.  Its strings are interned into rows,
and it is read back with each of them replaced by the row that its index leads to.
-/

namespace Vilan.PrefixFile

open List Reading

/-! ### Values of types -/

/-- Parts of one kind, each related to its own. -/
inductive Fields.Match {α β : Type} (related : α → β → Prop) : Fields α → Fields β → Prop
  | unit : Match related .unit .unit
  | newtype {item : α} {other : β} (same : related item other) :
      Match related (.newtype item) (.newtype other)
  | tuple {items : List α} {others : List β} (same : List.Forall₂ related items others) :
      Match related (.tuple items) (.tuple others)
  | struct {items : List α} {others : List β} (same : List.Forall₂ related items others) :
      Match related (.struct items) (.struct others)

/-- A value has the form of a type, given which values its parts have.  A length is a `usize`. -/
inductive Formed (decls : ℕ → Decl) (typed : Ty → Value → Prop) : Ty → Value → Prop
  | bool (value : Bool) : Formed decls typed .bool (.bool value)
  | unsigned (width : Width) (value : BitVec width.bits) :
      Formed decls typed (.unsigned width) (.unsigned width value)
  | signed (width : Width) (value : BitVec width.bits) :
      Formed decls typed (.signed width) (.signed width value)
  | char (value : Char) : Formed decls typed .char (.char value)
  | f32 (bits : BitVec 32) : Formed decls typed .f32 (.f32 bits)
  | f64 (bits : BitVec 64) : Formed decls typed .f64 (.f64 bits)
  | str {value : Str} (fits : (Utf8.encode value).length < u64Bound) :
      Formed decls typed .str (.str value)
  | bytes {value : Bytes} (fits : value.length < u64Bound) :
      Formed decls typed .bytes (.bytes value)
  | none (type : Ty) : Formed decls typed (.option type) .none
  | some {type : Ty} {value : Value} (part : typed type value) :
      Formed decls typed (.option type) (.some value)
  | unit : Formed decls typed .unit .unit
  | seq {element : Ty} {elements : List Value} (fits : elements.length < u64Bound)
      (parts : ∀ value ∈ elements, typed element value) :
      Formed decls typed (.seq element) (.seq elements)
  | tuple {types : List Ty} {elements : List Value}
      (parts : List.Forall₂ typed types elements) :
      Formed decls typed (.tuple types) (.tuple elements)
  | map {key value : Ty} {entries : List (Value × Value)} (fits : entries.length < u64Bound)
      (parts : ∀ entry ∈ entries, typed key entry.1 ∧ typed value entry.2) :
      Formed decls typed (.map key value) (.map entries)
  | struct {id : ℕ} {types : Fields Ty} {fields : Fields Value} (decl : decls id = .struct types)
      (parts : types.Match typed fields) : Formed decls typed (.named id) (.struct fields)
  | variant {id : ℕ} {variants : List (Fields Ty)} {index : BitVec 32} {types : Fields Ty}
      {fields : Fields Value} (decl : decls id = .enum variants)
      (declared : variants[index.toNat]? = .some types) (parts : types.Match typed fields) :
      Formed decls typed (.named id) (.variant index fields)

/-- A value has a type that is unfolded so deep. -/
def Typed (decls : ℕ → Decl) : ℕ → Ty → Value → Prop
  | 0, _, _ => False
  | depth + 1, type, value => Formed decls (Typed decls depth) type value

theorem Fields.Match.imp {α β : Type} {related related' : α → β → Prop}
    (imp : ∀ {item other}, related item other → related' item other) {fields : Fields α}
    {others : Fields β} (h : fields.Match related others) :
  fields.Match related' others
  := by
  cases h with
  | unit => constructor
  | newtype same => apply Match.newtype (imp same)
  | tuple same => apply Match.tuple (same.imp fun _ _ => imp)
  | struct same => apply Match.struct (same.imp fun _ _ => imp)

variable {decls : ℕ → Decl} {type : Ty} {value : Value}

theorem Formed.imp {typed typed' : Ty → Value → Prop}
    (imp : ∀ {type value}, typed type value → typed' type value)
    (h : Formed decls typed type value) :
  Formed decls typed' type value
  := by
  cases h with
  | bool value => constructor
  | unsigned width value => constructor
  | signed width value => constructor
  | char value => constructor
  | f32 bits => constructor
  | f64 bits => constructor
  | str fits => apply Formed.str fits
  | bytes fits => apply Formed.bytes fits
  | none type => constructor
  | some part => apply Formed.some (imp part)
  | unit => constructor
  | seq fits parts => apply Formed.seq fits fun value mem => imp (parts value mem)
  | tuple parts => apply Formed.tuple (parts.imp fun _ _ => imp)
  | map fits parts =>
    apply Formed.map fits
    intro entry mem
    obtain ⟨key, value⟩ := parts entry mem
    use imp key
    apply imp value
  | struct decl parts => apply Formed.struct decl (parts.imp imp)
  | variant decl declared parts => apply Formed.variant decl declared (parts.imp imp)

theorem Typed.succ {depth : ℕ} (typed : Typed decls depth type value) :
  Typed decls (depth + 1) type value
  := by
  induction depth generalizing type value with
  | zero => cases typed
  | succ depth ih => apply Formed.imp ih typed

/-- More unfolding changes nothing. -/
theorem Typed.mono {depth depth' : ℕ} (typed : Typed decls depth type value) (le : depth ≤ depth') :
  Typed decls depth' type value
  := by
  induction le with
  | refl => apply typed
  | step _ ih => apply ih.succ

/-! ### Pieces -/

/-- What is written at once: bytes, or a string. -/
inductive Piece where
  | bytes (bytes : Bytes)
  | str (text : Str)

/-- The items of a struct or a variant. -/
def Fields.items {α : Type} : Fields α → List α
  | .unit => []
  | .newtype item => [item]
  | .tuple items => items
  | .struct items => items

def Fields.map {α β : Type} (f : α → β) : Fields α → Fields β
  | .unit => .unit
  | .newtype item => .newtype (f item)
  | .tuple items => .tuple (items.map f)
  | .struct items => .struct (items.map f)

mutual

/-- The pieces that a value is written as. -/
def pieces : Value → List Piece
  | .bool value => [.bytes [if value then 1 else 0]]
  | .unsigned _ value => [.bytes (putVarint value.toNat)]
  | .signed _ value => [.bytes (putVarint (zigzag (value.signExtend 64)).toNat)]
  | .char value => [.bytes (putVarint value.toNat)]
  | .f32 bits => [.bytes (toLeBytes 4 bits.toNat)]
  | .f64 bits => [.bytes (toLeBytes 8 bits.toNat)]
  | .str value => [.str value]
  | .bytes value => [.bytes (putVarint value.length), .bytes value]
  | .none => [.bytes [0]]
  | .some value => .bytes [1] :: pieces value
  | .unit => []
  | .seq elements => .bytes (putVarint elements.length) :: piecesAll elements
  | .tuple elements => piecesAll elements
  | .map entries => .bytes (putVarint entries.length) :: piecesEntries entries
  | .struct fields => piecesFields fields
  | .variant index fields => .bytes (putVarint index.toNat) :: piecesFields fields

def piecesAll : List Value → List Piece
  | [] => []
  | value :: values => pieces value ++ piecesAll values

def piecesEntries : List (Value × Value) → List Piece
  | [] => []
  | entry :: entries => piecesEntry entry ++ piecesEntries entries

def piecesEntry : Value × Value → List Piece
  | (key, value) => pieces key ++ pieces value

def piecesFields : Fields Value → List Piece
  | .unit => []
  | .newtype value => pieces value
  | .tuple values => piecesAll values
  | .struct values => piecesAll values

end

mutual

/-- A value with its strings renamed. -/
def rename (f : Str → Str) : Value → Value
  | .bool value => .bool value
  | .unsigned width value => .unsigned width value
  | .signed width value => .signed width value
  | .char value => .char value
  | .f32 bits => .f32 bits
  | .f64 bits => .f64 bits
  | .str value => .str (f value)
  | .bytes value => .bytes value
  | .none => .none
  | .some value => .some (rename f value)
  | .unit => .unit
  | .seq elements => .seq (renameAll f elements)
  | .tuple elements => .tuple (renameAll f elements)
  | .map entries => .map (renameEntries f entries)
  | .struct fields => .struct (renameFields f fields)
  | .variant index fields => .variant index (renameFields f fields)

def renameAll (f : Str → Str) : List Value → List Value
  | [] => []
  | value :: values => rename f value :: renameAll f values

def renameEntries (f : Str → Str) : List (Value × Value) → List (Value × Value)
  | [] => []
  | entry :: entries => renameEntry f entry :: renameEntries f entries

def renameEntry (f : Str → Str) : Value × Value → Value × Value
  | (key, value) => (rename f key, rename f value)

def renameFields (f : Str → Str) : Fields Value → Fields Value
  | .unit => .unit
  | .newtype value => .newtype (rename f value)
  | .tuple values => .tuple (renameAll f values)
  | .struct values => .struct (renameAll f values)

end

theorem piecesAll_eq (values : List Value) : piecesAll values = values.flatMap pieces := by
  induction values with
  | nil => rfl
  | cons value values ih => rw [piecesAll, ih, flatMap_cons]

theorem piecesEntries_eq (entries : List (Value × Value)) :
  piecesEntries entries = entries.flatMap fun entry => pieces entry.1 ++ pieces entry.2
  := by
  induction entries with
  | nil => rfl
  | cons entry entries ih => rw [piecesEntries, ih, flatMap_cons, piecesEntry]

theorem piecesFields_eq (fields : Fields Value) :
  piecesFields fields = fields.items.flatMap pieces
  := by
  cases fields with
  | unit => rfl
  | newtype value => simp [piecesFields, Fields.items]
  | tuple values => rw [piecesFields, piecesAll_eq, Fields.items]
  | struct values => rw [piecesFields, piecesAll_eq, Fields.items]

theorem renameAll_eq (f : Str → Str) (values : List Value) :
  renameAll f values = values.map (rename f)
  := by
  induction values with
  | nil => rfl
  | cons value values ih => rw [renameAll, ih, map_cons]

theorem renameEntries_eq (f : Str → Str) (entries : List (Value × Value)) :
  renameEntries f entries = entries.map fun entry => (rename f entry.1, rename f entry.2)
  := by
  induction entries with
  | nil => rfl
  | cons entry entries ih => rw [renameEntries, ih, map_cons, renameEntry]

theorem renameFields_eq (f : Str → Str) (fields : Fields Value) :
  renameFields f fields = fields.map (rename f)
  := by
  cases fields with
  | unit => rfl
  | newtype value => rfl
  | tuple values => rw [renameFields, renameAll_eq, Fields.map]
  | struct values => rw [renameFields, renameAll_eq, Fields.map]

/-! ### The writer -/

def Writer.piece (writer : Writer) : Piece → Writer
  | .bytes bytes => writer.push bytes
  | .str text => writer.putStr text

mutual

/-- A value is written piece by piece. -/
theorem serialize_eq (value : Value) (writer : Writer) :
  serialize value writer = (pieces value).foldl Writer.piece writer
  := by
  cases value with
  | some value => rw [serialize, serialize_eq value, pieces, foldl_cons, Writer.piece]
  | seq elements => rw [serialize, serializeAll_eq elements, pieces, foldl_cons, Writer.piece]
  | tuple elements => rw [serialize, serializeAll_eq elements, pieces]
  | map entries => rw [serialize, serializeEntries_eq entries, pieces, foldl_cons, Writer.piece]
  | struct fields => rw [serialize, serializeFields_eq fields, pieces]
  | variant index fields =>
    rw [serialize, serializeFields_eq fields, pieces, foldl_cons, Writer.piece]
  | _ => rfl

theorem serializeAll_eq (values : List Value) (writer : Writer) :
  serializeAll values writer = (piecesAll values).foldl Writer.piece writer
  := by
  cases values with
  | nil => rfl
  | cons value values =>
    rw [serializeAll, serialize_eq value, serializeAll_eq values, piecesAll, foldl_append]

theorem serializeEntries_eq (entries : List (Value × Value)) (writer : Writer) :
  serializeEntries entries writer = (piecesEntries entries).foldl Writer.piece writer
  := by
  cases entries with
  | nil => rfl
  | cons entry entries =>
    rw [serializeEntries, serializeEntry_eq entry, serializeEntries_eq entries, piecesEntries,
      foldl_append]

theorem serializeEntry_eq (entry : Value × Value) (writer : Writer) :
  serializeEntry entry writer = (piecesEntry entry).foldl Writer.piece writer
  := by
  obtain ⟨key, value⟩ := entry
  rw [serializeEntry, serialize_eq key, serialize_eq value, piecesEntry, foldl_append]

theorem serializeFields_eq (fields : Fields Value) (writer : Writer) :
  serializeFields fields writer = (piecesFields fields).foldl Writer.piece writer
  := by
  cases fields with
  | unit => rfl
  | newtype value => rw [serializeFields, serialize_eq value, piecesFields]
  | tuple values => rw [serializeFields, serializeAll_eq values, piecesFields]
  | struct values => rw [serializeFields, serializeAll_eq values, piecesFields]

end

/-! ### Rows -/

/-- The bytes of a piece, given those that stand for a string. -/
def layout (name : Str → Bytes) : Piece → Bytes
  | .bytes bytes => bytes
  | .str text => name text

/-- The bytes of a value, given those that stand for its strings. -/
def image (name : Str → Bytes) (value : Value) : Bytes :=
  (pieces value).flatMap (layout name)

def Piece.text : Piece → Option Str
  | .bytes _ => none
  | .str text => some text

/-- The strings of a value, as they are written. -/
def strings (value : Value) : List Str :=
  (pieces value).filterMap Piece.text

/-- Intern a string: it is a row of the table. -/
def intern (rows : List Str) (text : Str) : List Str :=
  if text ∈ rows then rows else rows ++ [text]

/-- The rows after strings are interned. -/
def internAll (rows texts : List Str) : List Str :=
  texts.foldl intern rows

/-- The index of a row is cast to 32 bits. -/
def indexOf (rows : List Str) (text : Str) : BitVec 32 :=
  BitVec.ofNat 32 (rows.idxOf text)

/-- A string is written as the index of its row. -/
def reference (rows : List Str) (text : Str) : Bytes :=
  putVarint (indexOf rows text).toNat

theorem prefix_intern (rows : List Str) (text : Str) : rows <+: intern rows text := by
  rw [intern]
  split
  · apply prefix_rfl
  · apply prefix_append

theorem prefix_internAll (rows texts : List Str) : rows <+: internAll rows texts := by
  induction texts generalizing rows with
  | nil => apply prefix_rfl
  | cons text texts ih => apply (prefix_intern rows text).trans (ih (intern rows text))

theorem mem_intern (rows : List Str) (text : Str) : text ∈ intern rows text := by
  rw [intern]
  split
  next mem => apply mem
  next => apply mem_append_right _ (mem_singleton_self text)

variable {rows : List Str} {text : Str}

theorem mem_internAll_iff {texts : List Str} :
  text ∈ internAll rows texts ↔ text ∈ rows ∨ text ∈ texts
  := by
  induction texts generalizing rows with
  | nil => simp [internAll]
  | cons other texts ih =>
    have one : text ∈ intern rows other ↔ text ∈ rows ∨ text = other := by
      rw [intern]
      split
      next mem =>
        constructor
        · apply Or.inl
        · rintro (mem' | rfl)
          · apply mem'
          · apply mem
      next => simp
    rw [internAll, foldl_cons, ← internAll, ih, one, mem_cons, or_assoc]

theorem nodup_internAll (nodup : rows.Nodup) (texts : List Str) :
  (internAll rows texts).Nodup
  := by
  induction texts generalizing rows with
  | nil => apply nodup
  | cons text texts ih =>
    apply ih
    rw [intern]
    split
    next => apply nodup
    next fresh =>
      rw [← concat_eq_append]
      apply nodup.concat fresh

/-- There are as many rows as different strings. -/
theorem length_internAll (texts : List Str) : (internAll [] texts).length = texts.dedup.length := by
  apply List.Perm.length_eq
  rw [perm_ext_iff_of_nodup (nodup_internAll nodup_nil texts) (nodup_dedup texts)]
  intro text
  rw [mem_internAll_iff, mem_dedup]
  simp

/-- A row stays where it is. -/
theorem indexOf_of_prefix {rows' : List Str} (initial : rows <+: rows') (mem : text ∈ rows) :
  indexOf rows' text = indexOf rows text
  := by
  obtain ⟨more, rfl⟩ := initial
  rw [indexOf, indexOf, idxOf_append_of_mem mem]

/-! ### Interning -/

/-- An index leads to the rows. -/
def StringTable.Sound (table : StringTable) : Prop :=
  ∀ text, table.index.lookup text =
    if text ∈ table.rows then some (indexOf table.rows text) else none

/-- A string is written as the index of its row. -/
theorem StringTable.Sound.putStr {table : StringTable} (sound : table.Sound) (out : Bytes)
    (text : Str) :
  ∃ table' : StringTable, table'.Sound ∧ table'.rows = intern table.rows text ∧
    Writer.putStr ⟨out, some table⟩ text = ⟨out ++ reference table'.rows text, some table'⟩
  := by
  rw [Writer.putStr, intern]
  by_cases mem : text ∈ table.rows
  · refine ⟨table, sound, by rw [if_pos mem], ?_⟩
    simp only [sound text, if_pos mem, Writer.push, reference]
  · refine ⟨⟨(text, BitVec.ofNat 32 table.rows.length) :: table.index, table.rows ++ [text]⟩, ?_,
      by rw [if_neg mem], ?_⟩
    · intro other
      by_cases same : other = text
      · subst same
        simp [indexOf, idxOf_append_of_notMem mem]
      · have apart : (other == text) = false := by simpa using same
        simp only [List.lookup_cons, apart, sound other]
        by_cases mem' : other ∈ table.rows
        · rw [if_pos mem', if_pos (mem_append_left _ mem'),
            indexOf_of_prefix (prefix_append _ _) mem']
        · rw [if_neg mem', if_neg]
          simp [mem', same]
    · simp [sound text, if_neg mem, Writer.push, reference, indexOf, idxOf_append_of_notMem mem]

/-- A piece is written by the rows that there will be. -/
theorem foldl_piece {table : StringTable} (sound : table.Sound) (out : Bytes) (all_ : List Piece) :
  ∃ table' : StringTable, table'.Sound ∧
    table'.rows = internAll table.rows (all_.filterMap Piece.text) ∧
      all_.foldl Writer.piece ⟨out, some table⟩ =
        ⟨out ++ all_.flatMap (layout (reference table'.rows)), some table'⟩
  := by
  induction all_ generalizing table out with
  | nil => exact ⟨table, sound, rfl, by simp⟩
  | cons piece rest ih =>
  cases piece with
  | bytes bytes =>
    obtain ⟨table', sound', rows, written⟩ := ih sound (out ++ bytes)
    refine ⟨table', sound', rows, ?_⟩
    rw [foldl_cons, Writer.piece, Writer.push, written]
    simp [layout]
  | str text =>
    obtain ⟨next, sound_next, rows_next, written_next⟩ := sound.putStr out text
    obtain ⟨table', sound', rows, written⟩ := ih sound_next (out ++ reference next.rows text)
    have mem : text ∈ next.rows := by
      rw [rows_next]
      apply mem_intern
    have initial : next.rows <+: table'.rows := by
      rw [rows]
      apply prefix_internAll
    refine ⟨table', sound', ?_, ?_⟩
    · rw [rows, rows_next]
      rfl
    · rw [foldl_cons, Writer.piece, written_next, written]
      simp [layout, reference, indexOf_of_prefix initial mem]

/-- The rows of a value. -/
def rowsOf (value : Value) : List Str :=
  internAll [] (strings value)

theorem mem_rowsOf {value : Value} : text ∈ rowsOf value ↔ text ∈ strings value := by
  rw [rowsOf, mem_internAll_iff]
  simp

/-- A value is encoded with references to its rows. -/
theorem encode_eq (value : Value) :
  encode value = (image (reference (rowsOf value)) value,
    putVarint (rowsOf value).length ++ (rowsOf value).flatMap Writer.row)
  := by
  have sound : StringTable.Sound ⟨[], []⟩ := by
    intro text
    simp
  obtain ⟨table, _, rows, written⟩ := foldl_piece sound [] (pieces value)
  have rows' : table.rows = rowsOf value := rows
  rw [encode, serialize_eq, Writer.interning, written, Writer.finish]
  dsimp only
  rw [rows', nil_append]
  rfl

end Vilan.PrefixFile
