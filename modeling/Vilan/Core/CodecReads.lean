import Vilan.Core.CodecRuns

/-!
# The codec round-trips

What a value is written as is read back as the value, up to 2³² different strings: the index of a
string is cast to 32 bits, so that one string more is read back as another.
-/

namespace Vilan.PrefixFile

open List Reading

/-! ### Scalars -/

@[simp]
theorem length_toLeBytes (count value : ℕ) : (toLeBytes count value).length = count := by
  induction count generalizing value with
  | zero => rfl
  | succ count ih => rw [toLeBytes, length_cons, ih]

theorem fromLeBytes_toLeBytes {count value : ℕ} (fits : value < 256 ^ count) :
  fromLeBytes (toLeBytes count value) = value
  := by
  induction count generalizing value with
  | zero =>
    have zero : value = 0 := by simpa using fits
    rw [toLeBytes, fromLeBytes, zero]
  | succ count ih =>
    have low : (UInt8.ofNat (value % 256)).toNat = value % 256 := by
      rw [UInt8.toNat_ofNat', Nat.mod_eq_of_lt]
      omega
    rw [toLeBytes, fromLeBytes, low, ih]
    · omega
    · rw [Nat.pow_succ] at fits
      omega

variable {bits : ℕ} {text : Str} {rows : List Str}

theorem float_reads (count : ℕ) (fits : 256 ^ count = 2 ^ bits) (value : BitVec bits) (pos : ℕ)
    (f : BitVec bits → Value) :
  Reads truncated (do return f (BitVec.ofNat bits (fromLeBytes (← take truncated count))))
    (toLeBytes count value.toNat) pos (f value)
  := by
  have taken : Reads truncated (take truncated count) (toLeBytes count value.toNat) pos
      (toLeBytes count value.toNat) := Reads.take (length_toLeBytes count value.toNat) pos
  have mapped := taken.map fun bytes => f (BitVec.ofNat bits (fromLeBytes bytes))
  rw [fromLeBytes_toLeBytes, BitVec.ofNat_toNat, BitVec.setWidth_eq] at mapped
  · apply mapped
  · rw [fits]
    apply value.isLt

theorem u64Checked_reads (le : bits ≤ 64) (what : String) (value : BitVec bits) (pos : ℕ) :
  Reads truncated (u64Checked bits what) (putVarint value.toNat) pos value
  := by
  have fits : value.toNat < u64Bound :=
    lt_of_lt_of_le value.isLt (Nat.pow_le_pow_right (by decide) le)
  apply (varint_reads fits pos).ends
  rw [if_pos value.isLt, BitVec.ofNat_toNat, BitVec.setWidth_eq]
  apply Reads.pure

theorem readUnsigned_reads (width : Width) (value : BitVec width.bits) (pos : ℕ) :
  Reads truncated (readUnsigned width) (putVarint value.toNat) pos value
  := by
  cases width with
  | w8 => apply u64Checked_reads (by decide)
  | w16 => apply u64Checked_reads (by decide)
  | w32 => apply u64Checked_reads (by decide)
  | w64 =>
    have reads := (varint_reads value.isLt pos).map fun value => BitVec.ofNat 64 value
    have same : BitVec.ofNat 64 value.toNat = value := 
      (BitVec.ofNat_toNat 64 value).trans (BitVec.setWidth_eq value)
    rw [same] at reads
    apply reads

theorem zigzag_reads (value : BitVec 64) (pos : ℕ) :
  Reads truncated (do return unzigzag (BitVec.ofNat 64 (← varint)))
    (putVarint (zigzag value).toNat) pos value
  := by
  have reads := (varint_reads (zigzag value).isLt pos).map fun value =>
    unzigzag (BitVec.ofNat 64 value)
  rw [BitVec.ofNat_toNat, BitVec.setWidth_eq, unzigzag_zigzag] at reads
  apply reads

theorem i64Checked_reads (le : bits ≤ 64) (what : String) (value : BitVec bits) (pos : ℕ) :
  Reads truncated (i64Checked bits what) (putVarint (zigzag (value.signExtend 64)).toNat) pos value
  := by
  apply (varint_reads (zigzag (value.signExtend 64)).isLt pos).ends
  rw [BitVec.ofNat_toNat, BitVec.setWidth_eq, unzigzag_zigzag, BitVec.toInt_signExtend_of_le le,
    if_pos ⟨BitVec.le_toInt value, BitVec.toInt_lt⟩, BitVec.ofInt_toInt]
  apply Reads.pure

theorem readSigned_reads (width : Width) (value : BitVec width.bits) (pos : ℕ) :
  Reads truncated (readSigned width) (putVarint (zigzag (value.signExtend 64)).toNat) pos value
  := by
  cases width with
  | w8 => apply i64Checked_reads (by decide)
  | w16 => apply i64Checked_reads (by decide)
  | w32 => apply i64Checked_reads (by decide)
  | w64 =>
    have same : value.signExtend 64 = value := BitVec.signExtend_eq value
    rw [same]
    apply zigzag_reads

theorem readChar_reads (value : Char) (pos : ℕ) :
  Reads truncated readChar (putVarint value.toNat) pos value
  := by
  have fits : value.toNat < 2 ^ 32 := value.val.toBitVec.isLt
  have toNat_ : (BitVec.ofNat 32 value.toNat).toNat = value.toNat := by
    rw [BitVec.toNat_ofNat, Nat.mod_eq_of_lt fits]
  have reads := u64Checked_reads (by decide) "char" (BitVec.ofNat 32 value.toNat) pos
  rw [toNat_] at reads
  apply reads.ends
  have valid : value.toNat.isValidChar := value.valid
  rw [toNat_, if_pos valid, Char.ofNat_toNat]
  apply Reads.pure

/-! ### Strings -/

theorem inlineStr_reads (fits : (Utf8.encode text).length < u64Bound) (pos : ℕ) :
  Reads truncated inlineStr (Writer.row text) pos text
  := by
  have decoded : Http.fromUtf8 (Utf8.encode text) = some text := Utf8.fromUTF8?_eq_some_iff.mpr rfl
  apply (varint_reads fits pos).bind
  apply (Reads.take rfl _).ends
  rw [decoded]
  apply Reads.pure

/-- The rows of a table are read as they are. -/
theorem readTable_reads (fits : rows.length < u64Bound)
    (fits' : ∀ text ∈ rows, (Utf8.encode text).length < u64Bound) (pos : ℕ) :
  Reads truncated readTable (putVarint rows.length ++ rows.flatMap Writer.row) pos rows
  := by
  apply (varint_reads fits pos).bind
  have reads : Reads truncated (many inlineStr rows.length) (rows.flatMap Writer.row)
      (pos + (putVarint rows.length).length) (rows.map id) :=
    Reads.many (fun text mem => inlineStr_reads (fits' text mem)) _
  rw [List.map_id] at reads
  apply reads

/-- A string is read as the row that its index leads to. -/
def resolve (rows : List Str) (text : Str) : Str :=
  rows.getD (indexOf rows text).toNat []

theorem readStr_reads (mem : text ∈ rows) (pos : ℕ) :
  Reads truncated (readStr (some rows)) (reference rows text) pos (resolve rows text)
  := by
  have inside : (indexOf rows text).toNat < rows.length := by
    rw [indexOf, BitVec.toNat_ofNat]
    apply lt_of_le_of_lt (Nat.mod_le _ _) (idxOf_lt_length_of_mem mem)
  have fits : (indexOf rows text).toNat < u64Bound :=
    lt_trans (indexOf rows text).isLt (by decide)
  apply (varint_reads fits pos).ends
  rw [getElem?_eq_getElem inside, resolve, getD_eq_getElem _ _ inside]
  apply Reads.pure

theorem resolve_eq (mem : text ∈ rows) (few : rows.length ≤ 2 ^ 32) :
  resolve rows text = text
  := by
  have inside := idxOf_lt_length_of_mem mem
  rw [resolve, indexOf, BitVec.toNat_ofNat, Nat.mod_eq_of_lt (lt_of_lt_of_le inside few),
    getD_eq_getElem _ _ inside, getElem_idxOf]

/-- With too many rows the last one is read as another. -/
theorem exists_resolve_ne (nodup : rows.Nodup) (many_ : 2 ^ 32 < rows.length) :
  ∃ text ∈ rows, resolve rows text ≠ text
  := by
  have zero : 0 < rows.length := by omega
  refine ⟨rows[2 ^ 32], getElem_mem many_, ?_⟩
  have place : rows.idxOf rows[2 ^ 32] = 2 ^ 32 := nodup.idxOf_getElem _ _
  rw [resolve, indexOf, place]
  change rows.getD 0 [] ≠ _
  rw [getD_eq_getElem _ _ zero]
  intro same
  have := (nodup.getElem_inj_iff).mp same
  omega

/-! ### Values -/

section Image

variable (name : Str → Bytes)

theorem flatMap_pieces (values : List Value) :
  (values.flatMap pieces).flatMap (layout name) = values.flatMap (image name)
  := flatMap_assoc

/-- A value that is one piece. -/
theorem image_single {value : Value} {piece : Piece} (single : pieces value = [piece]) :
  image name value = layout name piece
  := by
  rw [image, single, flatMap_cons, flatMap_nil, append_nil]

theorem image_seq (elements : List Value) :
  image name (.seq elements) = putVarint elements.length ++ elements.flatMap (image name)
  := by
  rw [image, pieces, flatMap_cons, piecesAll_eq, flatMap_pieces]
  rfl

theorem image_map (entries : List (Value × Value)) :
  image name (.map entries) = putVarint entries.length ++
    entries.flatMap fun entry => image name entry.1 ++ image name entry.2
  := by
  rw [image, pieces, flatMap_cons, piecesEntries_eq, flatMap_assoc]
  simp only [flatMap_append]
  rfl

theorem image_struct (fields : Fields Value) :
  image name (.struct fields) = fields.items.flatMap (image name)
  := by
  rw [image, pieces, piecesFields_eq, flatMap_pieces]

theorem image_variant (index : BitVec 32) (fields : Fields Value) :
  image name (.variant index fields) =
    putVarint index.toNat ++ fields.items.flatMap (image name)
  := by
  rw [image, pieces, flatMap_cons, piecesFields_eq, flatMap_pieces]
  rfl

end Image

theorem mem_strings_iff {value : Value} :
  text ∈ strings value ↔ Piece.str text ∈ pieces value
  := by
  rw [strings, mem_filterMap]
  constructor
  · rintro ⟨piece, mem, found⟩
    cases piece with
    | bytes bytes => cases found
    | str other =>
      cases found
      apply mem
  · intro mem
    exact ⟨_, mem, rfl⟩

/-- What a string stands for in a table, if it is one of some value. -/
def Resolves (table : Option (List Str)) (name : Str → Bytes) (f : Str → Str) (all_ : List Piece) :
    Prop :=
  ∀ text, Piece.str text ∈ all_ → ∀ pos, Reads truncated (readStr table) (name text) pos (f text)

theorem Resolves.sub {table : Option (List Str)} {name : Str → Bytes} {f : Str → Str}
    {all_ some_ : List Piece} (resolves : Resolves table name f all_) (sub : some_ ⊆ all_) :
  Resolves table name f some_
  := fun text mem => resolves text (sub mem)

section Reads

variable {decls : ℕ → Decl} {table : Option (List Str)} {name : Str → Bytes} {f : Str → Str}

/-- A value of a type is read back from its image, with its strings renamed. -/
def ReadsBack (table : Option (List Str)) (name : Str → Bytes) (f : Str → Str)
    (read : Ty → Reader Value) (type : Ty) (value : Value) : Prop :=
  Resolves table name f (pieces value) →
    ∀ pos, Reads truncated (read type) (image name value) pos (rename f value)

variable {read : Ty → Reader Value} {value : Value}

theorem each_reads {types : List Ty} {values : List Value}
    (parts : List.Forall₂ (ReadsBack table name f read) types values)
    (resolves : Resolves table name f (values.flatMap pieces)) (pos : ℕ) :
  Reads truncated (each read types) (values.flatMap (image name)) pos (values.map (rename f))
  := by
  apply Reads.each
  induction parts with
  | nil => constructor
  | cons part parts ih =>
    rw [flatMap_cons] at resolves
    constructor
    · apply part
      apply resolves.sub (subset_append_left _ _)
    · apply ih
      apply resolves.sub (subset_append_right _ _)

theorem readFields_reads {types : Fields Ty} {fields : Fields Value}
    (parts : types.Match (ReadsBack table name f read) fields)
    (resolves : Resolves table name f (piecesFields fields)) (pos : ℕ) :
  Reads truncated (readFields read types) (fields.items.flatMap (image name)) pos
    (renameFields f fields)
  := by
  rw [piecesFields_eq] at resolves
  rw [renameFields_eq]
  cases parts with
  | unit => apply Reads.pure
  | newtype part =>
    simp only [Fields.items, flatMap_cons, flatMap_nil, append_nil] at resolves ⊢
    apply (part resolves pos).map Fields.newtype
  | tuple parts => apply (each_reads parts resolves pos).map Fields.tuple
  | struct parts => apply (each_reads parts resolves pos).map Fields.struct

/-- A tag is read, and then what it stands for. -/
theorem readOption_reads {read : Reader Value} {used : Bytes} {pos : ℕ}
    (reads : Reads truncated read used (pos + 1) value) :
  Reads truncated (readOption read) (1 :: used) pos (.some value)
  := by
  change Reads truncated _ ([1] ++ used) pos _
  apply (byte_reads 1 pos).bind
  rw [if_neg (by decide), if_pos rfl]
  apply reads.map Value.some

theorem readSeq_reads {read : Reader Value} {elements : List Value}
    (fits : elements.length < u64Bound)
    (reads : ∀ value ∈ elements, ∀ pos, Reads truncated read (image name value) pos (rename f value))
    (pos : ℕ) :
  Reads truncated (readSeq read) (putVarint elements.length ++ elements.flatMap (image name)) pos
    (renameAll f elements)
  := by
  rw [renameAll_eq]
  apply (varint_reads fits pos).bind
  apply Reads.many reads

theorem readMap_reads {readKey readValue : Reader Value} {entries : List (Value × Value)}
    (fits : entries.length < u64Bound)
    (reads : ∀ entry ∈ entries, ∀ pos,
      Reads truncated readKey (image name entry.1) pos (rename f entry.1) ∧
        Reads truncated readValue (image name entry.2) pos (rename f entry.2))
    (pos : ℕ) :
  Reads truncated (readMap readKey readValue)
    (putVarint entries.length ++
      entries.flatMap fun entry => image name entry.1 ++ image name entry.2) pos
    (renameEntries f entries)
  := by
  rw [renameEntries_eq]
  apply (varint_reads fits pos).bind
  apply Reads.many
  intro entry mem pos
  apply (reads entry mem pos).1.bind
  apply (reads entry mem _).2.map fun value => (rename f entry.1, value)

theorem readVariant_reads {variants : List (Fields Ty)} {index : BitVec 32} {types : Fields Ty}
    {fields : Fields Value} (declared : variants[index.toNat]? = some types)
    (parts : types.Match (ReadsBack table name f read) fields)
    (resolves : Resolves table name f (piecesFields fields)) (pos : ℕ) :
  Reads truncated (readVariant read variants)
    (putVarint index.toNat ++ fields.items.flatMap (image name)) pos
    (.variant index (renameFields f fields))
  := by
  apply (u64Checked_reads (by decide) "a variant index" index pos).bind
  rw [declared]
  apply (readFields_reads parts resolves _).map (Value.variant index)

/-- A value that is formed of parts that are read back is read back. -/
theorem readsBack_of_formed {depth : ℕ} {type : Ty}
    (formed : Formed decls (ReadsBack table name f (deserialize decls table depth)) type value) :
  ReadsBack table name f (deserialize decls table (depth + 1)) type value
  := by
  intro resolves pos
  cases formed with
  | bool value =>
    have read : Reads truncated readBool [if value then 1 else 0] pos value := by
      apply (byte_reads _ pos).ends
      cases value
      · apply Reads.pure
      · apply Reads.pure
    rw [deserialize, image_single name rfl]
    apply read.map Value.bool
  | unsigned width value =>
    rw [deserialize, image_single name rfl]
    apply (readUnsigned_reads width value pos).map (Value.unsigned width)
  | signed width value =>
    rw [deserialize, image_single name rfl]
    apply (readSigned_reads width value pos).map (Value.signed width)
  | char value =>
    rw [deserialize, image_single name rfl]
    apply (readChar_reads value pos).map Value.char
  | f32 bits =>
    rw [deserialize, image_single name rfl]
    apply float_reads 4 (by decide) bits pos Value.f32
  | f64 bits =>
    rw [deserialize, image_single name rfl]
    apply float_reads 8 (by decide) bits pos Value.f64
  | str fits =>
    rw [deserialize, image_single name rfl]
    apply (resolves _ (mem_singleton_self _) pos).map Value.str
  | @bytes value fits =>
    have image_eq : image name (.bytes value) = putVarint value.length ++ value := by
      simp [image, pieces, layout]
    rw [deserialize, image_eq]
    apply (varint_reads fits pos).bind
    apply (Reads.take rfl _).map Value.bytes
  | none type =>
    rw [deserialize, image_single name rfl]
    apply (byte_reads 0 pos).ends
    apply Reads.pure
  | some part =>
    rw [deserialize]
    apply readOption_reads
    apply part
    apply resolves.sub (subset_cons_self _ _)
  | unit =>
    rw [deserialize]
    apply Reads.pure
  | seq fits parts =>
    rw [pieces, piecesAll_eq] at resolves
    rw [deserialize, image_seq]
    apply Reads.map _ Value.seq
    apply readSeq_reads fits
    intro value mem
    apply parts value mem
    apply resolves.sub
    intro piece mem'
    apply mem_cons_of_mem _ (mem_flatMap_of_mem mem mem')
  | tuple parts =>
    rw [pieces, piecesAll_eq] at resolves
    rw [deserialize, image, pieces, piecesAll_eq, flatMap_pieces, rename, renameAll_eq]
    apply (each_reads parts resolves pos).map Value.tuple
  | map fits parts =>
    rw [pieces, piecesEntries_eq] at resolves
    rw [deserialize, image_map]
    apply Reads.map _ Value.map
    apply readMap_reads fits
    intro entry mem pos
    obtain ⟨key, value⟩ := parts entry mem
    constructor
    · apply key
      apply resolves.sub
      intro piece mem'
      apply mem_cons_of_mem _ (mem_flatMap_of_mem mem (mem_append_left _ mem'))
    · apply value
      apply resolves.sub
      intro piece mem'
      apply mem_cons_of_mem _ (mem_flatMap_of_mem mem (mem_append_right _ mem'))
  | struct decl parts =>
    rw [deserialize, image_struct, decl]
    apply (readFields_reads parts resolves pos).map Value.struct
  | variant decl declared parts =>
    rw [deserialize, image_variant, decl]
    apply readVariant_reads declared parts
    apply resolves.sub (subset_cons_self _ _)

/-- A value of a type is read back from its image, with its strings renamed. -/
theorem Typed.readsBack {depth : ℕ} {type : Ty} (typed : Typed decls depth type value) :
  ReadsBack table name f (deserialize decls table depth) type value
  := by
  induction depth generalizing type value with
  | zero => cases typed
  | succ depth ih =>
    apply readsBack_of_formed
    apply Formed.imp ih typed

end Reads

end Vilan.PrefixFile
