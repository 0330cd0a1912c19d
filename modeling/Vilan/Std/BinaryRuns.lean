import Vilan.Std.BinaryFormat

/-!
# The codec over whole values

What a rebuild reads without failing are the frames that are read, and on such a frame the
rebuild does not fail.  A value that is read is written as the frame when the frame is canonical,
and the frame of a value is read back when each of its lists fits.
-/

namespace Vilan.Wire

open List Option

variable {F H : Type} [DecidableEq H] {host : Host F} {program : Program F H}

open BinaryReader

/-! ### Scalars -/

variable {kind : Scalar} {value : Value F} {input rest after : Bytes} {d d' : BinaryReader}
  {values : List (Value F)} {types : List Ty}

/-- A scalar passes its lane. -/
theorem rebuildScalar_standing {lane : Lane} (short : lane.Short)
    (h : lane.value host kind = some value) (passed rest : Bytes) :
  rebuildScalar host (binaryDeserialize host) kind (standing passed (lane.bytes ++ rest)) =
    (value, standing (passed ++ lane.bytes) rest)
  := by
  cases lane with
  | flag flag =>
    cases kind
    all_goals
      simp only [Lane.value, reduceCtorEq, some_inj] at h
    subst h
    have read := boolValue_standing passed rest flag
    simp only [rebuildScalar, binaryDeserialize, Lane.bytes, singleton_append, read]
    rfl
  | word b₀ b₁ b₂ b₃ =>
    have read := readWord_standing passed rest b₀ b₁ b₂ b₃
    cases kind
    all_goals
      simp only [Lane.value, reduceCtorEq, some_inj] at h
    all_goals
      subst h
      simp only [rebuildScalar, binaryDeserialize, readI32, readU32, Lane.bytes, cons_append,
        nil_append, read]
      rfl
  | double bits =>
    have read := readF64_standing host passed rest bits
    cases kind
    all_goals
      simp only [Lane.value, reduceCtorEq, some_inj] at h
    all_goals
      subst h
      simp only [rebuildScalar, binaryDeserialize, Lane.bytes, read]
      rfl
  | text text =>
    have read := readStr_standing host passed rest short
    cases kind
    all_goals
      simp only [Lane.value, reduceCtorEq, some_inj] at h
    subst h
    simp only [rebuildScalar, binaryDeserialize, Lane.bytes, read]
    rfl

/-- A scalar that was read was in a lane. -/
theorem rebuildScalar_ok {passed : Bytes}
    (h : (rebuildScalar host (binaryDeserialize host) kind (standing passed input)).2.error =
      none) :
  ∃ (lane : Lane) (rest : Bytes), input = lane.bytes ++ rest ∧ lane.Short ∧
    lane.value host kind =
      some (rebuildScalar host (binaryDeserialize host) kind (standing passed input)).1
  := by
  have lift : ∀ (lane : Lane) (rest : Bytes), lane.Short → (lane.value host kind).isSome →
      input = lane.bytes ++ rest →
      ∃ (lane : Lane) (rest : Bytes), input = lane.bytes ++ rest ∧ lane.Short ∧
        lane.value host kind =
          some (rebuildScalar host (binaryDeserialize host) kind (standing passed input)).1 := by
    intro lane rest short some heq
    obtain ⟨value, hv⟩ := isSome_iff_exists.mp some
    use lane, rest, heq, short
    rw [heq, rebuildScalar_standing short hv, hv]
  cases kind
  case bool =>
    obtain ⟨value, rest, heq⟩ := boolValue_ok h
    apply lift (.flag value) rest trivial rfl heq
  case i8 | i16 | i32 | usize =>
    obtain ⟨b₀, b₁, b₂, b₃, rest, heq⟩ := readI32_ok h
    apply lift (.word b₀ b₁ b₂ b₃) rest trivial rfl heq
  case u8 | u16 | u32 =>
    obtain ⟨b₀, b₁, b₂, b₃, rest, heq⟩ := readU32_ok h
    apply lift (.word b₀ b₁ b₂ b₃) rest trivial rfl heq
  case i53 | u53 | f32 | f64 =>
    obtain ⟨bits, rest, heq⟩ := readF64_ok h
    apply lift (.double bits) rest trivial rfl heq
  case str =>
    obtain ⟨text, rest, heq, short⟩ := readStr_ok h
    apply lift (.text text) rest short rfl heq

/-! ### What is rebuilt was read -/

/-- What a part makes of the values that it reads. -/
def Part.Makes (hash : Value F → H) : Part F → List (Value F) → List (Value F) → Prop
  | .entries _ _ length held, read, made =>
      ∀ pairs, held = entriesOf pairs → ∃ others, others.length = length ∧
        read = pairValues others ∧ made = entriesOf (insertAll hash pairs others)
  | _, read, made => made = read

/-- A rebuild that does not fail has read the values of its types. -/
theorem Rebuilds.reads {part : Part F}
    (h : Rebuilds host program (binaryDeserialize host) part d values d') (ok : d'.error = none)
    {passed : Bytes} (at_ : d = standing passed input) :
  ∃ taken rest read, input = taken ++ rest ∧ d' = standing (passed ++ taken) rest ∧
    Reads host program False part.types input read rest ∧ part.Makes program.hash read values
  := by
  have keeps := binaryDeserialize_keeps host
  induction h generalizing passed input with
  | nil d | noFields d =>
    subst at_
    refine ⟨[], input, [], rfl, ?_, .nil input, rfl⟩
    rw [append_nil]
  | noEntries entries d =>
    subst at_
    refine ⟨[], input, [], rfl, ?_, .nil input, ?_⟩
    · rw [append_nil]
    · intro pairs heq
      use [], rfl, rfl, heq
  | cons _ hs ih ihs =>
    have okm := not_not.mp fun failed => hs.keeps keeps failed ok
    obtain ⟨taken, mid, read, rfl, rfl, first, made⟩ := ih okm at_
    obtain ⟨taken', rest, others, rfl, rfl, next, makes⟩ := ihs ok rfl
    obtain rfl : [_] = read := made
    obtain rfl : _ = others := makes
    refine ⟨taken ++ taken', rest, _, ?_, ?_, .cons first next, rfl⟩
    · rw [append_assoc]
    · rw [append_assoc]
  | scalar kind d =>
    subst at_
    obtain ⟨lane, rest, rfl, short, hv⟩ := rebuildScalar_ok ok
    refine ⟨lane.bytes, rest, _, rfl, ?_, .scalar rest short hv False.elim, rfl⟩
    rw [rebuildScalar_standing short hv]
  | @list element d d' items hi ih =>
    subst at_
    have okl := not_not.mp fun failed => hi.keeps keeps failed ok
    obtain ⟨length, rest, rfl, short, fits⟩ := readLength_ok okl
    simp only [binaryDeserialize, readLength_standing passed short fits] at ih
    rw [asI32_of_range (by omega) (by omega), Int.toNat_natCast] at ih
    obtain ⟨taken, last, read, rfl, rfl, reads, made⟩ := ih ok rfl
    obtain rfl : items = read := made
    have count : items.length = length := by simpa [Part.types] using reads.length.symm
    refine ⟨word length ++ taken, last, _, ?_, ?_, ?_, rfl⟩
    · rw [append_assoc]
    · rw [append_assoc]
      rfl
    · subst count
      apply Reads.list short fits reads
  | @absent element d null =>
    subst at_
    have okn := not_not.mp fun failed => keeps.nullValue _ failed ok
    rcases isNull_ok okn with ⟨rest, rfl⟩ | ⟨rest, rfl⟩
    · refine ⟨[0], rest, _, rfl, ?_, .absent element rest, rfl⟩
      simp only [binaryDeserialize, isNull_zero, readByte_standing]
    · simp only [binaryDeserialize, isNull_one, Bool.false_eq_true] at null
  | @present element d d' value null hv ih =>
    subst at_
    have okn := not_not.mp fun failed => hv.keeps keeps failed ok
    rcases isNull_ok okn with ⟨rest, rfl⟩ | ⟨rest, rfl⟩
    · simp only [binaryDeserialize, isNull_zero, Bool.true_eq_false] at null
    · simp only [binaryDeserialize, isNull_one] at ih
      obtain ⟨taken, last, read, rfl, rfl, reads, made⟩ := ih ok rfl
      obtain rfl : [value] = read := made
      refine ⟨1 :: taken, last, _, rfl, ?_, .present reads, rfl⟩
      rw [append_assoc]
      rfl
  | @map key value d d' entries he ih =>
    subst at_
    have okl := not_not.mp fun failed => he.keeps keeps failed ok
    obtain ⟨length, rest, rfl, short, fits⟩ := readLength_ok okl
    simp only [binaryDeserialize, readLength_standing passed short fits] at ih
    rw [asI32_of_range (by omega) (by omega), Int.toNat_natCast] at ih
    obtain ⟨taken, last, read, rfl, rfl, reads, made⟩ := ih ok rfl
    obtain ⟨pairs, rfl, rfl, rfl⟩ := made [] rfl
    refine ⟨word pairs.length ++ taken, last, _, ?_, ?_, ?_, rfl⟩
    · rw [append_assoc]
    · rw [append_assoc]
      rfl
    · apply Reads.map short fits False.elim reads
  | @struct id fields d d' values decl _ ih =>
    obtain ⟨taken, rest, read, rfl, rfl, reads, made⟩ := ih ok at_
    obtain rfl : values = read := made
    refine ⟨taken, rest, _, rfl, rfl, .struct decl reads, rfl⟩
  | @variant id variants fallback types d d' payloads decl known hp ih =>
    subst at_
    have okt := not_not.mp fun failed => hp.keeps keeps failed ok
    obtain ⟨tag, rest, rfl, short⟩ := readStr_ok okt
    simp only [binaryDeserialize, readStr_standing host passed rest short] at ih known
    obtain ⟨taken, last, read, rfl, rfl, reads, made⟩ := ih ok rfl
    obtain rfl : payloads = read := made
    refine ⟨word (List.length tag) ++ tag ++ taken, last, _, ?_, ?_,
      .variant decl known short False.elim reads, ?_⟩
    · simp only [append_assoc]
    · simp only [append_assoc, binaryDeserialize]
    · simp only [binaryDeserialize, readStr_standing host passed _ short]
      rfl
  | fallback decl unknown hp =>
    apply absurd ok (hp.keeps keeps (report_error _ _))
  | @backed id name first backing values known d decl found =>
    subst at_
    obtain ⟨lane, rest, rfl, short, hv⟩ := rebuildScalar_ok ok
    rw [rebuildScalar_standing short hv] at found
    have mem := mem_of_find?_eq_some found
    have eq := Value.isBacking_eq (by simpa using find?_some found)
    refine ⟨lane.bytes, rest, _, rfl, ?_, .backed rest decl mem short ?_ False.elim, rfl⟩
    · rw [rebuildScalar_standing short hv]
    · rw [hv, eq]
  | unbacked decl missing => apply absurd ok (report_error _ _)
  | field _ hs ih ihs =>
    have okm := not_not.mp fun failed => hs.keeps keeps failed ok
    obtain ⟨taken, mid, read, rfl, rfl, first, made⟩ := ih okm at_
    obtain ⟨taken', rest, others, rfl, rfl, next, makes⟩ := ihs ok rfl
    obtain rfl : [_] = read := made
    obtain rfl : _ = others := makes
    refine ⟨taken ++ taken', rest, _, ?_, ?_, .cons first next, rfl⟩
    · rw [append_assoc]
    · rw [append_assoc]
  | @entry keyType valueType length entries values d mid last d' key value hk hv hs ihk ihv ihs =>
    have okv := not_not.mp fun failed => hs.keeps keeps failed ok
    have okk := not_not.mp fun failed => hv.keeps keeps failed okv
    obtain ⟨taken, mid, read, rfl, rfl, first, made⟩ := ihk okk at_
    obtain ⟨taken', mid', read', rfl, rfl, second, made'⟩ := ihv okv rfl
    obtain ⟨taken'', rest, others, rfl, rfl, next, makes⟩ := ihs ok rfl
    obtain rfl : [key] = read := made
    obtain rfl : [value] = read' := made'
    refine ⟨taken ++ (taken' ++ taken''), rest, key :: value :: others, ?_, ?_, ?_, ?_⟩
    · simp only [append_assoc]
    · simp only [append_assoc]
    · apply Reads.cons first (Reads.cons second next)
    · intro pairs heq
      obtain ⟨pairs', length, rfl, made⟩ := makes (insertPair program.hash pairs (key, value)) (by
        rw [heq]
        apply insertEntry_entriesOf program.hash pairs (key, value))
      use (key, value) :: pairs'
      simp only [length_cons, length, pairValues, insertAll, foldl_cons, true_and]
      apply made

/-! ### What is read is rebuilt -/

/-- The fields of a struct are read like the values of their types. -/
theorem Rebuilds.fields {fields : List (Str × Ty)}
    (h : Rebuilds host program (binaryDeserialize host) (.values (fields.map Prod.snd)) d values
      d') :
  Rebuilds host program (binaryDeserialize host) (.fields fields) d values d'
  := by
  induction fields generalizing d values with
  | nil =>
    cases h
    apply Rebuilds.noFields
  | cons field fields ih =>
    obtain ⟨value, mid, others, rfl, hv, hs⟩ := h.cons_inv
    apply Rebuilds.field hv (ih hs)

/-- The entries of a map are read like the values of their types, and inserted. -/
theorem Rebuilds.entries {key value : Ty} (pairs : List (Value F × Value F))
    {others : List (Value F × Value F)} (h : Rebuilds host program (binaryDeserialize host)
      (.values (pairTypes key value others.length)) d (pairValues others) d') :
  Rebuilds host program (binaryDeserialize host)
    (.entries key value others.length (entriesOf pairs)) d
    (entriesOf (insertAll program.hash pairs others)) d'
  := by
  induction others generalizing d pairs with
  | nil =>
    cases h
    apply Rebuilds.noEntries
  | cons pair others ih =>
    obtain ⟨k, mid, rest, heq, hk, h⟩ := h.cons_inv
    obtain ⟨v, mid', rest', heq', hv, hs⟩ := h.cons_inv
    simp only [pairValues, List.cons.injEq] at heq heq'
    obtain ⟨rfl, rfl⟩ := heq
    obtain ⟨rfl, rfl⟩ := heq'
    apply Rebuilds.entry hk hv
    rw [insertEntry_entriesOf]
    apply ih _ hs

/-- What is read is rebuilt, and the bytes that are read are passed. -/
theorem Reads.rebuilds (wellFormed : program.WellFormed) {strict : Prop}
    (h : Reads host program strict types input values rest) (passed : Bytes) :
  ∃ taken, input = taken ++ rest ∧
    Rebuilds host program (binaryDeserialize host) (.values types) (standing passed input) values
      (standing (passed ++ taken) rest)
  := by
  induction h generalizing passed with
  | nil input =>
    use [], rfl
    rw [append_nil]
    apply Rebuilds.nil
  | cons _ _ ih ihs =>
    obtain ⟨taken, rfl, first⟩ := ih passed
    obtain ⟨taken', rfl, next⟩ := ihs (passed ++ taken)
    rw [append_assoc] at next
    use taken ++ taken', by rw [append_assoc]
    apply Rebuilds.cons first next
  | @scalar kind lane value rest short read exact =>
    use lane.bytes, rfl
    have scalar : Rebuilds host program (binaryDeserialize host) (.values [.scalar kind])
        (standing passed (lane.bytes ++ rest)) _ _ := .scalar kind _
    rw [rebuildScalar_standing short read] at scalar
    apply scalar
  | @list element items input rest short fits _ ih =>
    obtain ⟨taken, rfl, reads⟩ := ih (passed ++ word items.length)
    use word items.length ++ taken, by rw [append_assoc]
    rw [← append_assoc passed]
    have begun := readLength_standing passed short fits
    apply Rebuilds.list
    simp only [binaryDeserialize, begun]
    rw [asI32_of_range (by omega) (by omega), Int.toNat_natCast]
    apply reads
  | absent element rest =>
    use [0], rfl
    have null := isNull_zero passed rest
    have last : Rebuilds host program (binaryDeserialize host) (.values [.option element])
        (standing passed (0 :: rest)) [.absent]
        ((binaryDeserialize host).nullValue
          ((binaryDeserialize host).isNull (standing passed (0 :: rest))).2) :=
      .absent (by simp only [binaryDeserialize, null])
    simp only [binaryDeserialize, null, readByte_standing] at last
    apply last
  | @present element value input rest _ ih =>
    obtain ⟨taken, rfl, reads⟩ := ih (passed ++ [1])
    have marker := isNull_one passed (taken ++ rest)
    use 1 :: taken, rfl
    rw [append_cons]
    apply Rebuilds.present
    · simp only [binaryDeserialize, marker]
    · simp only [binaryDeserialize, marker] at reads ⊢
      apply reads
  | @map key value pairs input rest short fits _ _ ih =>
    obtain ⟨taken, rfl, reads⟩ := ih (passed ++ word pairs.length)
    use word pairs.length ++ taken, by rw [append_assoc]
    rw [← append_assoc passed]
    have begun := readLength_standing passed short fits
    apply Rebuilds.map
    simp only [binaryDeserialize, begun]
    rw [asI32_of_range (by omega) (by omega), Int.toNat_natCast]
    apply Rebuilds.entries [] reads
  | struct decl _ ih =>
    obtain ⟨taken, rfl, reads⟩ := ih passed
    use taken, rfl
    apply Rebuilds.struct decl (Rebuilds.fields reads)
  | @variant id variants fallback tag types payloads input rest decl known short _ _ ih =>
    obtain ⟨taken, rfl, reads⟩ := ih (passed ++ (word tag.length ++ tag))
    use word tag.length ++ tag ++ taken, by simp only [append_assoc]
    have tagged := readStr_standing host passed (taken ++ rest) short
    have variant : Rebuilds host program (binaryDeserialize host) (.values [.named id])
        (standing passed (word tag.length ++ tag ++ (taken ++ rest)))
        [.variant ((binaryDeserialize host).variantTag
          (standing passed (word tag.length ++ tag ++ (taken ++ rest)))).1 payloads]
        (standing (passed ++ (word tag.length ++ tag) ++ taken) rest) := by
      apply Rebuilds.variant decl
      · simp only [binaryDeserialize, tagged]
        apply known
      · simp only [binaryDeserialize, tagged] at reads ⊢
        apply reads
    simp only [binaryDeserialize, tagged] at variant
    rw [← append_assoc passed]
    apply variant
  | @backed id name first backing values known lane rest decl mem short read _ =>
    use lane.bytes, rfl
    have scalar := rebuildScalar_standing short read passed rest
    have backed : Rebuilds host program (binaryDeserialize host) (.values [.named id])
        (standing passed (lane.bytes ++ rest)) [.variant known.1 []] _ :=
      .backed decl (by rw [scalar]; apply wellFormed.parse decl mem)
    rw [scalar] at backed
    apply backed

/-! ### Decoding -/

/-- A rebuild that ends is accepted when its reader did not fail and has passed every byte. -/
theorem conclude_ok_iff {value' : Value F} {reader : BinaryReader} {length : ℕ} :
  conclude length (value', reader) = .ok value ↔
    value' = value ∧ reader.error = none ∧ length ≤ reader.cursor
  := by
  unfold conclude
  dsimp only
  by_cases short : reader.ok ∧ reader.cursor < length
  · obtain ⟨reason, failed⟩ := ne_none_iff_exists'.mp
      (report_error reader (ascii "frame has " ++ decimal (length - reader.cursor) ++
        ascii " byte(s) left unread"))
    rw [if_pos short]
    simp only [failed, reduceCtorEq, false_iff, not_and, not_le]
    intro _ _
    apply short.2
  · rw [if_neg short]
    cases heq : reader.error with
    | none =>
      simp only [BinaryReader.ok, heq, isNone_none, true_and, not_lt] at short
      simp only [Except.ok.injEq, short, and_true]
    | some reason => simp only [reduceCtorEq, false_and, and_false]

/-- A frame decodes as a value when it is read as the value, to its end. -/
theorem decodesBinary_iff
    (wellFormed : program.WellFormed) (type : Ty) (frame : Bytes) (value : Value F) :
  DecodesBinary host program type frame (.ok value) ↔
    Reads host program False [type] frame [value] []
  := by
  have start : BinaryReader.new frame = standing [] frame := rfl
  constructor
  · rintro ⟨depth, h⟩
    obtain ⟨⟨value', reader⟩, hr, hc⟩ := map_eq_some_iff.mp h
    obtain ⟨rfl, ok, full⟩ := conclude_ok_iff.mp hc
    obtain ⟨taken, rest, read, rfl, rfl, reads, made⟩ :=
      (Rebuilds.of_rebuild depth _ _ _ _ hr).reads ok start
    obtain rfl : [value'] = read := made
    obtain rfl : rest = [] := by
      simp only [standing, nil_append, length_append] at full
      apply eq_nil_of_length_eq_zero
      omega
    apply reads
  · intro h
    obtain ⟨taken, heq, hr⟩ := h.rebuilds wellFormed []
    obtain ⟨depth, hr⟩ := rebuilds_iff.mp hr
    use depth
    rw [decodeBinary, start, hr]
    rw [append_nil] at heq
    subst heq
    apply congrArg some
    apply conclude_ok_iff.mpr
    use rfl, rfl, le_rfl

/-- A frame decodes as one thing only. -/
theorem DecodesBinary.unique
    {type : Ty} {frame : Bytes} {result result' : Except Str (Value F)}
    (h : DecodesBinary host program type frame result)
    (h' : DecodesBinary host program type frame result') :
  result = result'
  := by
  obtain ⟨depth, h⟩ := h
  obtain ⟨depth', h'⟩ := h'
  obtain ⟨⟨value, reader⟩, hr, rfl⟩ := map_eq_some_iff.mp h
  obtain ⟨⟨value', reader'⟩, hr', rfl⟩ := map_eq_some_iff.mp h'
  obtain ⟨values, rfl⟩ :=
    (Rebuilds.of_rebuild depth _ _ _ _ hr).unique (Rebuilds.of_rebuild depth' _ _ _ _ hr')
  rw [(List.cons.inj values).1]

/-! ### Canonical frames -/

/-- A frame that is read strictly is read. -/
theorem Reads.loose {strict : Prop} (h : Reads host program strict types input values rest) :
  Reads host program False types input values rest
  := by
  induction h with
  | nil input => apply Reads.nil
  | cons _ _ ih ihs => apply Reads.cons ih ihs
  | scalar rest short read _ => apply Reads.scalar rest short read False.elim
  | list short fits _ ih => apply Reads.list short fits ih
  | absent element rest => apply Reads.absent
  | present _ ih => apply Reads.present ih
  | map short fits _ _ ih => apply Reads.map short fits False.elim ih
  | struct decl _ ih => apply Reads.struct decl ih
  | variant decl known short _ _ ih => apply Reads.variant decl known short False.elim ih
  | backed rest decl mem short read _ => apply Reads.backed rest decl mem short read False.elim

/-- A value is written as the bytes from which it was read strictly. -/
theorem Reads.bytes (wellFormed : program.WellFormed)
    (h : Reads host program True types input values rest) :
  input = bytesAll host program types values ++ rest
  := by
  induction h with
  | nil input => rw [bytesAll_nil, nil_append]
  | cons _ _ ih ihs => rw [bytesAll_cons, append_assoc, ← ihs, ih]
  | scalar rest short read exact =>
    rw [bytesAll_scalar, (Lane.exact_iff short read).mp (exact trivial)]
  | list short _ _ ih =>
    rw [bytesAll_list, asI32_of_range (by omega) (by exact_mod_cast short), append_assoc, ← ih]
  | absent element rest =>
    rw [bytesAll_absent]
    rfl
  | present _ ih => rw [bytesAll_present, cons_append, ← ih]
  | @map key value pairs input rest short _ distinct _ ih =>
    rw [insertAll_nil program.hash (distinct trivial), bytesAll_map, asI32_of_range (by omega) (by exact_mod_cast short),
      append_assoc, ← ih]
  | struct decl _ ih => rw [bytesAll_struct decl, ← ih]
  | variant decl known short exact _ ih =>
    rw [bytesAll_variant decl known, textBytes, exact trivial,
      asI32_of_range (by omega) (by exact_mod_cast short), append_assoc (word _ ++ _), ← ih]
  | backed rest decl mem short read exact =>
    rw [bytesAll_backed decl (wellFormed.lookup decl mem), bytesAll_scalar,
      (Lane.exact_iff short read).mp (exact trivial)]

/-- A text is replaced, byte for byte, by at most three bytes. -/
def Host.Replaces (host : Host F) : Prop :=
  ∀ bytes, (host.encodeUtf8 (host.decodeUtf8 bytes)).length ≤ 3 * bytes.length

/-- A text that is written as it was read is exact. -/
theorem text_exact (replaces : host.Replaces) {text : Bytes} (short : text.length < 2147483648)
    (h : word text.length ++ (text ++ rest) = textBytes host (host.decodeUtf8 text) ++ after) :
  host.encodeUtf8 (host.decodeUtf8 text) = text ∧ after = rest
  := by
  rw [textBytes, append_assoc] at h
  obtain ⟨counts, texts⟩ := append_inj h (by rw [length_word, length_word])
  have mod := word_inj counts
  rw [asI32_emod] at mod
  have le := replaces text
  have length : text.length = (host.encodeUtf8 (host.decodeUtf8 text)).length := by omega
  obtain ⟨texts, rests⟩ := append_inj texts length
  use texts.symm, rests.symm

/-- A lane that is written as it was read is exact. -/
theorem Lane.exact_of_append (replaces : host.Replaces) {lane : Lane} (short : lane.Short)
    (read : lane.value host kind = some value)
    (h : lane.bytes ++ rest = describeScalar (spell host) kind value [] ++ after) :
  lane.Exact host kind ∧ after = rest
  := by
  have same : lane.bytes.length = (describeScalar (spell host) kind value []).length →
      lane.Exact host kind ∧ after = rest := by
    intro length
    obtain ⟨bytes, rests⟩ := append_inj h length
    use (Lane.exact_iff short read).mpr bytes.symm, rests.symm
  cases lane with
  | flag flag | word b₀ b₁ b₂ b₃ | double bits =>
    cases kind
    all_goals
      simp only [Lane.value, reduceCtorEq, some_inj] at read
    all_goals
      subst read
      apply same
      rfl
  | text text =>
    cases kind
    all_goals
      simp only [Lane.value, reduceCtorEq, some_inj] at read
    subst read
    apply text_exact replaces short
    simpa only [Lane.bytes, describeScalar, spell, nil_append, append_assoc] using h

/-- A value that is written as the bytes from which it was read, was read strictly. -/
theorem Reads.strict (wellFormed : program.WellFormed) (replaces : host.Replaces)
    (h : Reads host program False types input values rest)
    (written : input = bytesAll host program types values ++ after) :
  Reads host program True types input values rest ∧ after = rest
  := by
  induction h generalizing after with
  | nil input =>
    rw [bytesAll_nil, nil_append] at written
    use .nil input, written.symm
  | cons _ _ ih ihs =>
    rw [bytesAll_cons, append_assoc] at written
    obtain ⟨first, mid⟩ := ih written
    obtain ⟨others, last⟩ := ihs mid.symm
    use .cons first others, last
  | scalar rest short read _ =>
    rw [bytesAll_scalar] at written
    obtain ⟨exact, last⟩ := Lane.exact_of_append replaces short read written
    use .scalar rest short read fun _ => exact, last
  | list short fits _ ih =>
    rw [bytesAll_list, append_assoc] at written
    obtain ⟨_, written⟩ := append_inj written (by rw [length_word, length_word])
    obtain ⟨reads, last⟩ := ih written
    use .list short fits reads, last
  | absent element rest =>
    rw [bytesAll_absent] at written
    use .absent element rest, (List.cons.inj written).2.symm
  | present _ ih =>
    rw [bytesAll_present] at written
    obtain ⟨reads, last⟩ := ih (List.cons.inj written).2
    use .present reads, last
  | @map key value pairs input rest short fits _ _ ih =>
    have le := length_insertAll_le program.hash [] pairs
    rw [bytesAll_map, append_assoc] at written
    obtain ⟨counts, written⟩ := append_inj written (by rw [length_word, length_word])
    have mod := word_inj counts
    rw [asI32_emod] at mod
    simp only [length_nil, Nat.zero_add] at le
    have made : (insertAll program.hash [] pairs).length = pairs.length := by omega
    have distinct := distinct_of_made program.hash made
    rw [insertAll_nil program.hash distinct] at written
    obtain ⟨reads, last⟩ := ih written
    use .map short fits (fun _ => distinct) reads, last
  | struct decl _ ih =>
    rw [bytesAll_struct decl] at written
    obtain ⟨reads, last⟩ := ih written
    use .struct decl reads, last
  | variant decl known short _ _ ih =>
    rw [bytesAll_variant decl known, append_assoc, append_assoc] at written
    obtain ⟨exact, others⟩ := text_exact replaces short written
    obtain ⟨reads, last⟩ := ih others.symm
    use .variant decl known short (fun _ => exact) reads, last
  | backed rest decl mem short read _ =>
    rw [bytesAll_backed decl (wellFormed.lookup decl mem), bytesAll_scalar] at written
    obtain ⟨exact, last⟩ := Lane.exact_of_append replaces short read written
    use .backed rest decl mem short read fun _ => exact, last

/-- A host for texts of ASCII characters, whose doubles are their bits. -/
def asciiHost : Host UInt64 where
  encodeUtf8 text := text.map fun unit => unit.toUInt8
  decodeUtf8 bytes := bytes.map fun b => b.toUInt16
  toBits value := value
  ofBits bits := bits
  ofInt value := value.toNat.toUInt64
  trunc value := value.toNat
  narrow value := value

theorem asciiHost_replaces : asciiHost.Replaces := by
  intro bytes
  simp only [asciiHost, length_map]
  omega

/-- A program whose every type is a struct without fields, and whose keys are flags. -/
def unitProgram : Program UInt64 Bool where
  decl _ := .struct []
  hash
    | .bool value => value
    | _ => false

theorem unitProgram_wellFormed : unitProgram.WellFormed where
  names _ _ _ _ _ decl := by simp only [unitProgram, reduceCtorEq] at decl
  backings _ _ _ _ _ decl := by simp only [unitProgram, reduceCtorEq] at decl
  kinds _ _ _ _ _ decl := by simp only [unitProgram, reduceCtorEq] at decl

/-- The bytes of a value that is read back hold its lists. -/
theorem Reads.fits (wellFormed : program.WellFormed)
    (h : Reads host program True types input values rest) :
  Fits host program types values rest.length
  := by
  induction h with
  | nil input => apply Fits.nil
  | cons _ others ih ihs =>
    apply Fits.cons_iff.mpr
    use by rw [others.bytes wellFormed, length_append] at ih; apply ih, ihs
  | scalar rest => apply Fits.scalar
  | list _ fits items ih =>
    rw [items.bytes wellFormed, length_append] at fits
    apply Fits.list fits ih
  | absent => apply Fits.absent
  | present _ ih => apply Fits.present ih
  | map _ fits distinct pairs ih =>
    rw [insertAll_nil program.hash (distinct trivial)]
    rw [pairs.bytes wellFormed, length_append] at fits
    apply Fits.map fits ih
  | struct decl _ ih => apply Fits.struct decl ih
  | variant decl known _ _ _ ih => apply Fits.variant decl known ih
  | backed rest decl mem => apply Fits.backed _ decl mem

/-- What a frame carries exactly: integers and positions in their ranges, whole numbers, floats
and texts that the host converts exactly, and lengths that fit an `i32`. -/
def binaryCarries (host : Host F) : Carries F where
  scalar
    | .bool, .bool _ => True
    | .i8, .int value => -128 ≤ value ∧ value < 128
    | .u8, .int value => 0 ≤ value ∧ value < 256
    | .i16, .int value => -32768 ≤ value ∧ value < 32768
    | .u16, .int value => 0 ≤ value ∧ value < 65536
    | .i32, .int value => -2147483648 ≤ value ∧ value < 2147483648
    | .u32, .int value => 0 ≤ value ∧ value < 4294967296
    | .usize, .int value => 0 ≤ value ∧ value < 2147483648
    | .i53, .int value => host.trunc (host.ofBits (host.toBits (host.ofInt value))) = value
    | .u53, .int value =>
        0 ≤ value ∧ host.trunc (host.ofBits (host.toBits (host.ofInt value))) = value
    | .f32, .float value =>
        host.narrow value = value ∧ host.ofBits (host.toBits value) = value
    | .f64, .float value => host.ofBits (host.toBits value) = value
    | .str, .str value =>
        host.decodeUtf8 (host.encodeUtf8 value) = value ∧
          (host.encodeUtf8 value).length < 2147483648
    | _, _ => False
  name name :=
    host.decodeUtf8 (host.encodeUtf8 name) = name ∧ (host.encodeUtf8 name).length < 2147483648
  length length := length < 2147483648

/-- The lane of an integer. -/
theorem word_lane (value : ℤ) :
  ∃ b₀ b₁ b₂ b₃, word value = [b₀, b₁, b₂, b₃] ∧
    (joined b₀ b₁ b₂ b₃ : ℤ) = value % 4294967296
  := by
  use byte value, byte (value >>> (8 : ℕ)), byte (value >>> (16 : ℕ)), byte (value >>> (24 : ℕ)), rfl
  apply joined_word

/-- A scalar that is carried is written as a lane that is read as the scalar. -/
theorem binaryCarries_lane (carried : (binaryCarries host).scalar kind value) :
  ∃ lane : Lane, lane.Short ∧ lane.value host kind = some value ∧
    describeScalar (spell host) kind value [] = lane.bytes
  := by
  cases kind
  case bool =>
    cases value
    case bool flag => exact ⟨.flag flag, trivial, rfl, rfl⟩
    all_goals apply carried.elim
  case i8 | u8 | i16 | u16 | usize =>
    cases value
    case int value =>
      obtain ⟨low, high⟩ := carried
      obtain ⟨b₀, b₁, b₂, b₃, bytes, joined⟩ := word_lane value
      use .word b₀ b₁ b₂ b₃, trivial
      constructor
      · simp only [Lane.value, joined, some_inj, Value.int.injEq, asI8, asU8, asI16, asU16,
          asI32, asUsize, saturateUnsigned, foldSigned, foldUnsigned]
        omega
      · simp only [describeScalar, spell, nil_append, Lane.bytes]
        rw [← bytes]
        congr 1
        simp only [asI32, asU32, foldSigned, foldUnsigned]
        omega
    all_goals apply carried.elim
  case i32 | u32 =>
    cases value
    case int value =>
      obtain ⟨low, high⟩ := carried
      obtain ⟨b₀, b₁, b₂, b₃, bytes, joined⟩ := word_lane value
      use .word b₀ b₁ b₂ b₃, trivial
      constructor
      · simp only [Lane.value, joined, some_inj, Value.int.injEq, asI32, foldSigned,
          foldUnsigned]
        omega
      · simp only [describeScalar, spell, nil_append, Lane.bytes]
        apply bytes
    all_goals apply carried.elim
  case i53 =>
    cases value
    case int value =>
      use .double (host.toBits (host.ofInt value)), trivial
      constructor
      · simp only [Lane.value]
        rw [show host.trunc _ = value from carried]
      · rfl
    all_goals apply carried.elim
  case u53 =>
    cases value
    case int value =>
      obtain ⟨low, exact⟩ := carried
      use .double (host.toBits (host.ofInt value)), trivial
      constructor
      · simp only [Lane.value]
        rw [exact, asU53, saturateUnsigned]
        congr 2
        omega
      · rfl
    all_goals apply carried.elim
  case f32 =>
    cases value
    case float value =>
      obtain ⟨narrow, exact⟩ := carried
      use .double (host.toBits value), trivial
      constructor
      · simp only [Lane.value]
        rw [exact, narrow]
      · rfl
    all_goals apply carried.elim
  case f64 =>
    cases value
    case float value =>
      use .double (host.toBits value), trivial
      constructor
      · simp only [Lane.value]
        rw [show host.ofBits _ = value from carried]
      · rfl
    all_goals apply carried.elim
  case str =>
    cases value
    case str value =>
      obtain ⟨exact, short⟩ := carried
      use .text (host.encodeUtf8 value), short
      constructor
      · simp only [Lane.value]
        rw [exact]
      · simp only [describeScalar, spell, nil_append, textBytes, Lane.bytes]
        rw [asI32_of_range (by omega) (by exact_mod_cast short)]
    all_goals apply carried.elim

/-- The frame of a value is read back, when its lists fit. -/
theorem HasTypes.reads (wellFormed : program.WellFormed)
    (h : HasTypes program (binaryCarries host) types values)
    (fits : Fits host program types values rest.length) :
  Reads host program True types (bytesAll host program types values ++ rest) values rest
  := by
  induction h generalizing rest with
  | nil =>
    rw [bytesAll_nil]
    apply Reads.nil
  | cons _ _ ih ihs =>
    obtain ⟨first, others⟩ := Fits.cons_iff.mp fits
    rw [bytesAll_cons, append_assoc]
    apply Reads.cons (ih (by rw [length_append]; apply first)) (ihs others)
  | scalar carried =>
    obtain ⟨lane, short, read, bytes⟩ := binaryCarries_lane carried
    rw [bytesAll_scalar, bytes]
    apply Reads.scalar rest short read fun _ => (Lane.exact_iff short read).mpr bytes
  | list carried _ ih =>
    cases fits with
    | list room fits =>
    rw [bytesAll_list, asI32_of_range (by omega) (by exact_mod_cast carried), append_assoc]
    apply Reads.list carried (by rw [length_append]; apply room) (ih fits)
  | absent =>
    rw [bytesAll_absent]
    apply Reads.absent
  | present _ ih =>
    cases fits with
    | present fits =>
    rw [bytesAll_present]
    apply Reads.present (ih fits)
  | @map key value pairs carried distinct _ ih =>
    obtain ⟨room, fits⟩ := fits.map_inv
    have reads := Reads.map carried (by rw [length_append]; apply room) (fun _ => distinct)
      (ih fits)
    rw [insertAll_nil program.hash distinct] at reads
    rw [bytesAll_map, asI32_of_range (by omega) (by exact_mod_cast carried), append_assoc]
    apply reads
  | struct decl _ ih =>
    rw [bytesAll_struct decl]
    apply Reads.struct decl (ih (fits.struct_inv decl))
  | @variant id variants fallback name types payloads decl known carried _ ih =>
    obtain ⟨exact, short⟩ := carried
    have reads : Reads host program True [.named id] _
        [.variant (host.decodeUtf8 (host.encodeUtf8 name)) payloads] rest :=
      .variant decl (by rw [exact, known]) short (fun _ => by rw [exact])
        (ih (fits.variant_inv decl known))
    rw [exact] at reads
    rw [bytesAll_variant decl known, textBytes,
      asI32_of_range (by omega) (by exact_mod_cast short), append_assoc]
    rw [append_assoc] at reads
    apply reads
  | backed decl mem carried =>
    obtain ⟨lane, short, read, bytes⟩ := binaryCarries_lane carried
    rw [bytesAll_backed decl (wellFormed.lookup decl mem), bytesAll_scalar, bytes]
    apply Reads.backed rest decl mem short read fun _ => (Lane.exact_iff short read).mpr bytes

/-- A value that crosses exactly is decoded from its own frame exactly when each of its lists and
maps has at most as many elements as bytes follow its count. -/
theorem decode_encoded_iff
    (wellFormed : program.WellFormed) (replaces : host.Replaces) {type : Ty} {value : Value F}
    (typed : HasTypes program (binaryCarries host) [type] [value]) :
  DecodesBinary host program type (encodeBinary host program type value) (.ok value) ↔
    Fits host program [type] [value] 0
  := by
  rw [decodesBinary_iff wellFormed, encodeBinary_eq]
  constructor
  · intro reads
    have strict := reads.strict wellFormed replaces (append_nil _).symm
    apply strict.1.fits wellFormed
  · intro fits
    have reads : Reads host program True [type] (bytesAll host program [type] [value] ++ [])
        [value] [] := typed.reads wellFormed fits
    rw [append_nil] at reads
    apply reads.loose

theorem flag_list_decodes :
  DecodesBinary asciiHost unitProgram (.list (.scalar .bool))
    (encodeBinary asciiHost unitProgram (.list (.scalar .bool)) (.list [.bool true]))
    (.ok (.list [.bool true]))
  := by
  have typed : HasTypes unitProgram (binaryCarries asciiHost) [.list (.scalar .bool)]
      [.list [.bool true]] := by
    apply HasTypes.list
    · show 1 < 2147483648
      decide
    · apply HasTypes.cons (.scalar trivial) .nil
  apply (decode_encoded_iff unitProgram_wellFormed asciiHost_replaces typed).mpr
  apply Fits.list (by decide)
  apply Fits.scalar

/-- A list of structs without fields is refused by its own decoder. -/
theorem empty_structs_refused :
  HasTypes unitProgram (binaryCarries asciiHost) [.list (.named 0)] [.list [.struct []]] ∧
    ¬ DecodesBinary asciiHost unitProgram (.list (.named 0))
      (encodeBinary asciiHost unitProgram (.list (.named 0)) (.list [.struct []]))
      (.ok (.list [.struct []]))
  := by
  constructor
  · apply HasTypes.list
    · show 1 < 2147483648
      decide
    · apply HasTypes.cons (HasTypes.struct rfl .nil) .nil
  · intro h
    have refused : DecodesBinary asciiHost unitProgram (.list (.named 0))
        (encodeBinary asciiHost unitProgram (.list (.named 0)) (.list [.struct []]))
        (.error (ascii "length prefix exceeds frame")) := ⟨2, rfl⟩
    cases h.unique refused

end Vilan.Wire
