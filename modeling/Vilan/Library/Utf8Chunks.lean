import Vilan.Library.Utf8Decoder

/-!
# Chunks of UTF-8, decoded one by one

A text whose encoding arrives in chunks that are decoded each on its own.  Its ASCII characters stay
what and where they are, and all of it stays exactly when each chunk encodes a text, without a byte
order mark at the front.
-/

namespace Utf8

open List

/-- What a text may become: each other character may become some other characters. -/
inductive Altered : List Char → List Char → Prop
  | nil : Altered [] []
  | kept {c : Char} {text text' : List Char} (rest : Altered text text') :
      Altered (c :: text) (c :: text')
  | other {c : Char} {seen text text' : List Char} (high : 128 ≤ c.toNat)
      (seen_high : ∀ d ∈ seen, 128 ≤ d.toNat) (rest : Altered text text') :
      Altered (c :: text) (seen ++ text')

/-- Each chunk encodes a text, without a byte order mark at the front. -/
def Clean (chunks : List (List UInt8)) : Prop :=
  ∃ texts : List (List Char), chunks = texts.map encode ∧
    ∀ text ∈ texts, text.head? ≠ some byteOrderMark

/-- The characters of a text that are not byte order marks. -/
def unmarked (text : List Char) : ℕ :=
  text.countP (· ≠ byteOrderMark)

theorem unmarked_append (text more : List Char) :
  unmarked (text ++ more) = unmarked text + unmarked more
  := countP_append

@[simp]
theorem unmarked_dropMark (text : List Char) : unmarked (dropMark text) = unmarked text := by
  cases text with
  | nil => rfl
  | cons c text =>
    rw [dropMark]
    split
    next mark => simp [unmarked, mark]
    next => rfl

@[simp]
theorem unmarked_replicate (count : ℕ) : unmarked (List.replicate count replacement) = count := by
  rw [unmarked, countP_replicate, if_pos (by decide)]

theorem unmarked_singleton_le (c : Char) : unmarked [c] ≤ 1 :=
  countP_le_length

variable {more text : List Char} {tail : List UInt8} {chunks : List (List UInt8)}

theorem Altered.refl_append (text : List Char) {more' : List Char} (altered : Altered more more') :
  Altered (text ++ more) (text ++ more')
  := by
  induction text with
  | nil => apply altered
  | cons c text ih => apply Altered.kept ih

theorem Altered.dropMark_append (text : List Char) {more' : List Char}
    (altered : Altered more more') :
  Altered (text ++ more) (dropMark text ++ more')
  := by
  cases text with
  | nil => apply altered
  | cons c text =>
    rw [dropMark]
    split
    next mark =>
      rw [mark]
      change Altered _ ([] ++ _)
      apply Altered.other (by decide) (by simp) (altered.refl_append text)
    next => apply altered.refl_append (c :: text)

theorem Altered.append_inv {text' : List Char} (altered : Altered (text ++ more) text') :
  ∃ seen seen', text' = seen ++ seen' ∧ Altered text seen ∧ Altered more seen'
  := by
  induction text generalizing text' with
  | nil => exact ⟨[], text', rfl, Altered.nil, altered⟩
  | cons c text ih =>
    rw [cons_append] at altered
    cases altered with
    | kept rest =>
      obtain ⟨seen, seen', rfl, altered, altered'⟩ := ih rest
      exact ⟨c :: seen, seen', rfl, Altered.kept altered, altered'⟩
    | other high seen_high rest =>
      obtain ⟨seen, seen', rfl, altered, altered'⟩ := ih rest
      refine ⟨_, seen', (append_assoc _ _ _).symm, ?_, altered'⟩
      apply Altered.other high seen_high altered

/-- ASCII text stays. -/
theorem Altered.eq_of_ascii {text' : List Char} (altered : Altered text text')
    (ascii : ∀ c ∈ text, c.toNat < 128) :
  text' = text
  := by
  induction altered with
  | nil => rfl
  | kept _ ih => rw [ih fun c mem => ascii c (mem_cons_of_mem _ mem)]
  | @other c seen _ _ high _ _ _ =>
    have small := ascii c (mem_cons_self ..)
    omega

/-- A part of an encoding ends after some character or inside one. -/
theorem encode_eq_append {bytes more : List UInt8} (parts : encode text = bytes ++ more) :
  (∃ before behind, text = before ++ behind ∧ bytes = encode before ∧ more = encode behind) ∨
    ∃ before c behind head tail, text = before ++ c :: behind ∧ bytes = encode before ++ head ∧
      more = tail ++ encode behind ∧ String.utf8EncodeChar c = head ++ tail ∧ head ≠ [] ∧ tail ≠ []
  := by
  induction text generalizing bytes with
  | nil =>
    obtain ⟨rfl, rfl⟩ := append_eq_nil_iff.mp parts.symm
    exact Or.inl ⟨[], [], rfl, rfl, rfl⟩
  | cons c text ih =>
    rw [encode_cons] at parts
    obtain ⟨bytes', rfl, rest⟩ | ⟨tail, char_eq, rfl⟩ := append_eq_append_iff.mp parts
    · obtain ⟨before, behind, rfl, rfl, rfl⟩ | ⟨before, d, behind, head, tail, rfl, rfl, cut⟩ :=
        ih rest
      · exact Or.inl ⟨c :: before, behind, rfl, rfl, rfl⟩
      · right
        refine ⟨c :: before, d, behind, head, tail, rfl, ?_, cut⟩
        rw [encode_cons, append_assoc]
    · by_cases empty : bytes = []
      · subst empty
        refine Or.inl ⟨[], c :: text, rfl, rfl, ?_⟩
        rw [encode_cons, char_eq, nil_append]
      by_cases all_ : tail = []
      · subst all_
        refine Or.inl ⟨[c], text, rfl, ?_, rfl⟩
        rw [encode_cons, char_eq, encode_nil, append_nil, append_nil]
      · exact Or.inr ⟨[], c, text, bytes, tail, rfl, rfl, rfl, char_eq, empty, all_⟩

/-- A character that can be cut is not ASCII. -/
theorem high_of_cut {c : Char} {head : List UInt8}
    (char_eq : String.utf8EncodeChar c = head ++ tail) (head_ne : head ≠ []) (tail_ne : tail ≠ []) :
  128 ≤ c.toNat
  := by
  by_contra small
  have single : c.utf8Size = 1 := by
    rw [Char.utf8Size_eq_one_iff, UInt32.le_iff_toNat_le]
    change ¬ 128 ≤ c.val.toNat at small
    have bound : (127 : UInt32).toNat = 127 := rfl
    omega
  have length := congrArg List.length char_eq
  rw [String.length_utf8EncodeChar, single, length_append] at length
  have := length_pos_iff.mpr head_ne
  have := length_pos_iff.mpr tail_ne
  omega

/-- What a chunk is decoded as, behind bytes that start no character. -/
theorem decode_continues_append (continues : ∀ byte ∈ tail, Continues byte) (bytes : List UInt8) :
  ∃ shown, decode (tail ++ bytes) = List.replicate tail.length replacement ++ shown ∧
    (shown = decodeFrom none bytes ∨ shown = dropMark (decodeFrom none bytes))
  := by
  rw [decode, decodeFrom_continues_append continues]
  cases tail with
  | nil => exact ⟨_, rfl, Or.inr rfl⟩
  | cons byte tail =>
    refine ⟨_, ?_, Or.inl rfl⟩
    rw [length_cons, replicate_succ, cons_append, dropMark, if_neg (by decide)]

/-- What is shown of a text is the text, or the text without its mark. -/
theorem shown_cases {shown : List Char} (plain : more.head? ≠ some byteOrderMark)
    (shown_eq : shown = text ++ more ∨ shown = dropMark (text ++ more)) :
  ∃ text', shown = text' ++ more ∧ unmarked text' = unmarked text ∧
    ∀ {rest rest'}, Altered rest rest' → Altered (text ++ rest) (text' ++ rest')
  := by
  rcases shown_eq with rfl | rfl
  · exact ⟨text, rfl, rfl, fun altered => altered.refl_append text⟩
  · cases text with
    | nil =>
      rw [nil_append, dropMark_eq_self plain]
      exact ⟨[], rfl, rfl, id⟩
    | cons c text =>
      refine ⟨dropMark (c :: text), dropMark_append (by simp), unmarked_dropMark _, ?_⟩
      intro rest rest' altered
      apply altered.dropMark_append

theorem continues_nil : ∀ byte ∈ ([] : List UInt8), Continues byte :=
  fun _ mem => absurd mem not_mem_nil

theorem nil_plain : ([] : List Char).head? ≠ some byteOrderMark :=
  Option.some_ne_none _ |>.symm

/-- What is decoded of chunks of an encoding, of which the first bytes may be the rest of some
character. -/
theorem decode_chunks (continues : ∀ byte ∈ tail, Continues byte)
    (flatten_eq : chunks.flatten = tail ++ encode text) :
  ∃ text', chunks.flatMap decode = List.replicate tail.length replacement ++ text' ∧
    Altered text text' ∧ unmarked text ≤ unmarked text' ∧
      (tail = [] → unmarked text' = unmarked text →
        ∃ texts : List (List Char), chunks = texts.map encode)
  := by
  induction chunks generalizing tail text with
  | nil =>
    obtain ⟨rfl, encode_nil_⟩ := append_eq_nil_iff.mp flatten_eq.symm
    have nil : text = [] := encode_injective encode_nil_
    subst nil
    exact ⟨[], rfl, Altered.nil, le_refl _, fun _ _ => ⟨[], rfl⟩⟩
  | cons chunk chunks ih =>
    rw [flatten_cons] at flatten_eq
    obtain ⟨tail', rfl, rest⟩ | ⟨bytes, rfl, parts⟩ := append_eq_append_iff.mp flatten_eq
    · -- The chunk is inside the rest of the character.
      obtain ⟨text', decoded, altered, le, whole⟩ :=
        ih (fun byte mem => continues byte (mem_append_right _ mem)) rest
      have inside : ∀ byte ∈ chunk, Continues byte :=
        fun byte mem => continues byte (mem_append_left _ mem)
      obtain ⟨shown, chunk_eq, shown_eq⟩ := decode_continues_append inside []
      have nil : shown = [] := by
        rcases shown_eq with rfl | rfl
        · rfl
        · rfl
      rw [append_nil, nil, append_nil] at chunk_eq
      refine ⟨text', ?_, altered, le, ?_⟩
      · rw [flatMap_cons, chunk_eq, decoded, length_append, replicate_add, append_assoc]
      · intro empty same
        obtain ⟨rfl, rfl⟩ := append_eq_nil_iff.mp empty
        obtain ⟨texts, rfl⟩ := whole rfl same
        exact ⟨[] :: texts, rfl⟩
    · obtain ⟨shown, chunk_eq, shown_eq⟩ := decode_continues_append continues bytes
      obtain ⟨before, behind, rfl, rfl, rest⟩ |
        ⟨before, c, behind, head, tail', rfl, rfl, rest, char_eq, head_ne, tail_ne⟩ :=
          encode_eq_append parts
      · -- The chunk ends after a character.
        obtain ⟨text', decoded, altered, le, whole⟩ := ih continues_nil rest
        have decoded_eq := decodeFrom_encode_append before []
        rw [append_nil] at decoded_eq
        rw [decoded_eq] at shown_eq
        obtain ⟨before', rfl, count, alters⟩ := shown_cases nil_plain shown_eq
        refine ⟨before' ++ text', ?_, alters altered, ?_, ?_⟩
        · rw [flatMap_cons, chunk_eq, decoded, append_nil, append_assoc]
          rfl
        · rw [unmarked_append, unmarked_append]
          omega
        · intro empty same
          rw [unmarked_append, unmarked_append] at same
          obtain ⟨texts, rfl⟩ := whole rfl (by omega)
          use before :: texts
          rw [empty]
          rfl
      · -- The chunk ends inside a character.
        obtain ⟨text', decoded, altered, le, whole⟩ :=
          ih (continues_of_cut char_eq head_ne) rest
        have decoded_eq := decodeFrom_encode_append before head
        rw [(completes_utf8EncodeChar c).decodeFrom_part char_eq tail_ne (Or.inl head_ne)]
          at decoded_eq
        rw [decoded_eq] at shown_eq
        obtain ⟨before', rfl, count, alters⟩ := shown_cases (by decide) shown_eq
        have altered' : Altered (c :: behind)
            ((replacement :: List.replicate tail'.length replacement) ++ text') := by
          apply Altered.other (high_of_cut char_eq head_ne tail_ne) _ altered
          intro d mem
          rw [← replicate_succ] at mem
          rw [eq_of_mem_replicate mem]
          decide
        have one := unmarked_singleton_le c
        have some_ := length_pos_iff.mpr tail_ne
        have more : unmarked (before ++ c :: behind) <
            unmarked (before' ++ ((replacement :: List.replicate tail'.length replacement) ++ text'))
            := by
          rw [← singleton_append, ← replicate_succ]
          simp only [unmarked_append, unmarked_replicate]
          omega
        refine ⟨_, ?_, alters altered', le_of_lt more, ?_⟩
        · rw [flatMap_cons, chunk_eq, decoded]
          simp only [append_assoc, cons_append, nil_append]
        · intro _ same
          omega

/-- Chunks of an encoding are decoded as the text exactly when they are clean, and otherwise its
ASCII characters stay. -/
theorem altered_of_flatten_eq (flatten_eq : chunks.flatten = encode text) :
  Altered text (chunks.flatMap decode)
  := by
  obtain ⟨text', decoded, altered, -, -⟩ := decode_chunks continues_nil flatten_eq
  rw [length_nil, replicate_zero, nil_append] at decoded
  rw [decoded]
  apply altered

theorem flatten_map_encode (texts : List (List Char)) :
  (texts.map encode).flatten = encode texts.flatten
  := by
  induction texts with
  | nil => rfl
  | cons text texts ih => rw [map_cons, flatten_cons, ih, flatten_cons, encode_append]

theorem dropMark_length_le (text : List Char) : (dropMark text).length ≤ text.length := by
  cases text with
  | nil => apply le_refl
  | cons c text =>
    rw [dropMark]
    split
    · simp
    · apply le_refl

/-- A text that loses nothing has no mark at the front. -/
theorem length_lt_of_mark (mark : text.head? = some byteOrderMark) :
  (dropMark text).length < text.length
  := by
  cases text with
  | nil => cases mark
  | cons c text =>
    rw [head?_cons, Option.some_inj] at mark
    rw [dropMark, if_pos mark]
    simp

theorem decode_encode_eq (text : List Char) : decode (encode text) = dropMark text := by
  have decoded := decodeFrom_encode_append text []
  rw [append_nil, decodeFrom, append_nil] at decoded
  rw [decode, decoded]

theorem flatMap_decode_eq_iff (flatten_eq : chunks.flatten = encode text) :
  chunks.flatMap decode = text ↔ Clean chunks
  := by
  constructor
  · intro same
    obtain ⟨text', decoded, -, -, whole⟩ := decode_chunks continues_nil flatten_eq
    rw [length_nil, replicate_zero, nil_append, same] at decoded
    obtain ⟨texts, rfl⟩ := whole rfl (by rw [decoded])
    refine ⟨texts, rfl, ?_⟩
    rw [flatten_map_encode] at flatten_eq
    rw [← encode_injective flatten_eq, flatMap_map] at same
    simp only [decode_encode_eq] at same
    change texts.flatMap dropMark = _ at same
    -- What every text loses together is nothing.
    have le : ∀ texts : List (List Char), (texts.flatMap dropMark).length ≤ texts.flatten.length := by
      intro texts
      induction texts with
      | nil => apply le_refl
      | cons text texts ih =>
        rw [flatMap_cons, flatten_cons, length_append, length_append]
        have := dropMark_length_le text
        omega
    intro text mem mark
    obtain ⟨before, behind, rfl⟩ := append_of_mem mem
    have length := congrArg List.length same
    rw [flatMap_append, flatMap_cons, flatten_append, flatten_cons] at length
    simp only [length_append] at length
    have := le before
    have := le behind
    have := length_lt_of_mark mark
    omega
  · rintro ⟨texts, rfl, plain⟩
    rw [flatten_map_encode] at flatten_eq
    rw [← encode_injective flatten_eq, flatMap_map]
    clear flatten_eq
    induction texts with
    | nil => rfl
    | cons text texts ih =>
      rw [flatMap_cons, flatten_cons, decode_encode (plain text (mem_cons_self ..)),
        ih fun text mem => plain text (mem_cons_of_mem _ mem)]

end Utf8
