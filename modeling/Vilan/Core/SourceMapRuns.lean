import Vilan.Core.SourceMap

/-!
# What the writer writes is read back

The numbers of a segment are read back as they were written.  Between two segments a reader of the
mappings stands where the writer does: each of the writer's previous values is the reader's.
-/

namespace Vilan.Core.SourceMap

open List Option Mappings

/-! ### Numbers -/

theorem base64_digit {digit : ℕ} (lt : digit < 64) :
  base64.findIdx? (· = base64.getD digit 'A') = some digit ∧ base64.getD digit 'A' ≠ ';' ∧
    base64.getD digit 'A' ≠ ','
  := by
  revert digit
  decide

theorem digit_bits {digit : ℕ} (lt : digit < 32) :
  digit &&& 31 = digit ∧ digit &&& 32 = 0 ∧ (digit ||| 32) &&& 31 = digit ∧
    (digit ||| 32) &&& 32 = 32 ∧ digit ||| 32 < 64
  := by
  revert digit
  decide

/-- Digits are read back, behind what is read already. -/
theorem readDigits_vlqDigits (rest value shift : ℕ) (more : List Char) :
  readDigits value shift (vlqDigits rest ++ more) = some (value + rest <<< shift, more)
  := by
  fun_induction vlqDigits rest generalizing value shift with
  | case1 rest digit some_ ih =>
    have lt : digit < 32 := Nat.and_lt_two_pow (n := 5) _ (by decide)
    obtain ⟨-, -, bits, continued, lt'⟩ := digit_bits lt
    have found := (base64_digit lt').1
    have split : rest = digit + (rest >>> 5) <<< 5 := by
      have digit_eq : digit = rest % 32 := Nat.and_two_pow_sub_one_eq_mod rest 5
      rw [digit_eq, Nat.shiftRight_eq_div_pow, Nat.shiftLeft_eq]
      omega
    rw [cons_append, readDigits, found]
    dsimp only [bind_eq_bind, bind_some]
    rw [bits, continued, if_neg (by decide), ih]
    congr 2
    conv => rhs; rw [split]
    simp only [Nat.shiftLeft_eq, Nat.pow_add, Nat.add_mul, Nat.mul_assoc, Nat.add_assoc,
      Nat.mul_comm (2 ^ 5)]
  | case2 rest digit none_ =>
    have lt : digit < 32 := Nat.and_lt_two_pow (n := 5) _ (by decide)
    obtain ⟨bits, ended, -⟩ := digit_bits lt
    have found := (base64_digit (Nat.lt_trans lt (by decide))).1
    have all : digit = rest := by
      have digit_eq : digit = rest % 32 := Nat.and_two_pow_sub_one_eq_mod rest 5
      rw [Nat.shiftRight_eq_div_pow] at none_
      omega
    rw [singleton_append, readDigits, found]
    dsimp only [bind_eq_bind, bind_some]
    rw [bits, ended, if_pos rfl, all]

theorem readVlq_vlq (value : ℤ) (more : List Char) :
  readVlq (vlq value ++ more) = some (value, more)
  := by
  have sign : ∀ n : ℕ, (n <<< 1 ||| 1) &&& 1 = 1 ∧ (n <<< 1 ||| 1) >>> 1 = n ∧ n <<< 1 &&& 1 = 0 ∧
      (n <<< 1) >>> 1 = n := by
    intro n
    have or_one : n <<< 1 ||| 1 = n * 2 + 1 := by
      rw [Nat.shiftLeft_eq]
      have h := Nat.shiftLeft_add_eq_or_of_lt (i := 1) (b := 1) (by decide) n
      rw [Nat.shiftLeft_eq] at h
      omega
    rw [or_one, Nat.shiftLeft_eq, Nat.and_one_is_mod, Nat.and_one_is_mod,
      Nat.shiftRight_eq_div_pow, Nat.shiftRight_eq_div_pow]
    omega
  rw [vlq, readVlq, readDigits_vlqDigits]
  dsimp only [bind_eq_bind, bind_some]
  rw [Nat.zero_add, Nat.shiftLeft_zero]
  split
  next negative =>
    obtain ⟨odd, half, -⟩ := sign (-value).toNat
    rw [odd, half, if_pos rfl]
    congr 2
    omega
  next =>
    obtain ⟨-, -, even, half⟩ := sign value.toNat
    rw [even, half, if_neg (by decide)]
    congr 2
    omega

/-- Digits are neither of the separators, and there is one at least. -/
theorem vlq_plain (value : ℤ) : vlq value ≠ [] ∧ ';' ∉ vlq value ∧ ',' ∉ vlq value := by
  have digits : ∀ rest, vlqDigits rest ≠ [] ∧ ';' ∉ vlqDigits rest ∧ ',' ∉ vlqDigits rest := by
    intro rest
    fun_induction vlqDigits rest with
    | case1 rest digit some_ ih =>
      have lt : digit < 32 := Nat.and_lt_two_pow (n := 5) _ (by decide)
      obtain ⟨-, -, -, -, lt'⟩ := digit_bits lt
      obtain ⟨-, line, comma⟩ := base64_digit lt'
      refine ⟨cons_ne_nil _ _, ?_, ?_⟩
      · rw [mem_cons, not_or]
        exact ⟨line.symm, ih.2.1⟩
      · rw [mem_cons, not_or]
        exact ⟨comma.symm, ih.2.2⟩
    | case2 rest digit none_ =>
      have lt : digit < 32 := Nat.and_lt_two_pow (n := 5) _ (by decide)
      obtain ⟨-, line, comma⟩ := base64_digit (Nat.lt_trans lt (by decide))
      refine ⟨cons_ne_nil _ _, ?_, ?_⟩
      · rw [mem_singleton]
        exact line.symm
      · rw [mem_singleton]
        exact comma.symm
  apply digits

/-- The numbers of a segment. -/
theorem readFields_vlq (fields : List ℤ) : readFields (fields.flatMap vlq) = some fields := by
  induction fields with
  | nil =>
    rw [flatMap_nil, readFields, if_pos rfl]
  | cons field fields ih =>
    rw [flatMap_cons, readFields, if_neg (append_ne_nil_of_left_ne_nil (vlq_plain field).1 _)]
    split
    next none_ =>
      rw [readVlq_vlq] at none_
      cases none_
    next field' rest read =>
      rw [readVlq_vlq] at read
      cases read
      rw [ih]
      rfl

theorem plain_flatMap (field : ℤ) (fields : List ℤ) :
  (field :: fields).flatMap vlq ≠ [] ∧ ';' ∉ (field :: fields).flatMap vlq ∧
    ',' ∉ (field :: fields).flatMap vlq
  := by
  refine ⟨append_ne_nil_of_left_ne_nil (vlq_plain field).1 _, ?_, ?_⟩
  · intro mem
    obtain ⟨field, -, mem⟩ := mem_flatMap.mp mem
    exact (vlq_plain field).2.1 mem
  · intro mem
    obtain ⟨field, -, mem⟩ := mem_flatMap.mp mem
    exact (vlq_plain field).2.2 mem

/-! ### The writer -/

/-- The segment that the writer writes. -/
def written (generated : Position) (source line column : ℕ) (name : Option ℕ) : Segment where
  generatedLine := generated.line
  generatedColumn := generated.column
  source
  line
  column
  name := name.map Int.ofNat

namespace MapWriter

/-- The writer stands where a reader of its mappings does. -/
structure Written (writer : MapWriter) (segments : List Segment) : Prop where
  reader : ∃ last reader, Reads writer.map.mappings last reader ∧ reader.segments = segments ∧
    reader.generatedLine = (writer.lastGenerated.map (·.line)).getD 0 ∧
    reader.generatedColumn = writer.previousGeneratedColumn ∧
    reader.source = writer.previousSource ∧ reader.line = writer.previousLine ∧
    reader.column = writer.previousColumn ∧ reader.name = writer.previousName ∧
    (writer.lastGenerated = none → last = [] ∧ writer.previousGeneratedColumn = 0)

theorem written_new : Written new [] := by
  constructor
  exact ⟨[], Reader.start, Reads.start, rfl, rfl, rfl, rfl, rfl, rfl, rfl, fun _ => ⟨rfl, rfl⟩⟩

/-- Only the mappings, the previous values and the last place matter. -/
theorem Written.congr {writer writer' : MapWriter} {segments : List Segment}
    (written : Written writer segments) (mappings : writer'.map.mappings = writer.map.mappings)
    (lastGenerated : writer'.lastGenerated = writer.lastGenerated)
    (column : writer'.previousGeneratedColumn = writer.previousGeneratedColumn)
    (source : writer'.previousSource = writer.previousSource)
    (line : writer'.previousLine = writer.previousLine)
    (original : writer'.previousColumn = writer.previousColumn)
    (name : writer'.previousName = writer.previousName) :
  Written writer' segments
  := by
  constructor
  rw [mappings, lastGenerated, column, source, line, original, name]
  apply written.reader

/-- Whether the writer leaves the line it is on. -/
def leaves (writer : MapWriter) (generated : Position) : Bool :=
  match writer.lastGenerated with
  | some last => decide (last.line ≠ generated.line)
  | none => true

/-- What is written in front of a segment. -/
def separator (writer : MapWriter) (generated : Position) : List Char :=
  if writer.leaves generated then
    List.replicate (generated.line - (writer.lastGenerated.map (·.line)).getD 0) ';'
  else [',']

/-- The numbers of a segment. -/
def fields (writer : MapWriter) (generated : Position) (source line column : ℕ) (name : Option ℕ) :
    List ℤ :=
  (generated.column - if writer.leaves generated then 0 else writer.previousGeneratedColumn : ℤ) ::
    (source - writer.previousSource : ℤ) :: (line - writer.previousLine : ℤ) ::
    (column - writer.previousColumn : ℤ) ::
    match name with
    | some name => [(name - writer.previousName : ℤ)]
    | none => []

theorem write_eq (writer : MapWriter) (generated : Position) (source line column : ℕ)
    (name : Option ℕ) :
  writer.write generated source line column name =
    { writer with
      map := { writer.map with
        mappings := writer.map.mappings ++ writer.separator generated ++
          (writer.fields generated source line column name).flatMap vlq }
      previousGeneratedColumn := generated.column
      previousSource := source
      previousLine := line
      previousColumn := column
      previousName := name.getD writer.previousName
      lastGenerated := some generated }
  := by
  unfold write fields separator leaves
  match writer.lastGenerated with
  | none =>
      cases name with
      | none => simp [push]
      | some name => simp [push]
  | some last =>
      by_cases same : last.line = generated.line
      · cases name with
        | none => simp [push, same]
        | some name => simp [push, same]
      · cases name with
        | none => simp [push, same]
        | some name => simp [push, same]

/-- A place that the writer can go on to. -/
def Ahead (writer : MapWriter) (generated : Position) : Prop :=
  ∀ last, writer.lastGenerated = some last → last.line ≤ generated.line

theorem fields_plain (writer : MapWriter) (generated : Position) (source line column : ℕ)
    (name : Option ℕ) :
  (writer.fields generated source line column name).flatMap vlq ≠ [] ∧
    ';' ∉ (writer.fields generated source line column name).flatMap vlq ∧
    ',' ∉ (writer.fields generated source line column name).flatMap vlq
  := plain_flatMap _ _

/-- A reader that stands where the writer does reads the segment that is written. -/
theorem segment_fields (writer : MapWriter) (reader : Reader) (generated : Position)
    (source line column : ℕ) (name : Option ℕ) (line_eq : reader.generatedLine = generated.line)
    (column_eq : reader.generatedColumn =
      if writer.leaves generated then 0 else (writer.previousGeneratedColumn : ℤ))
    (source_eq : reader.source = writer.previousSource)
    (original_line : reader.line = writer.previousLine)
    (original_column : reader.column = writer.previousColumn)
    (name_eq : reader.name = writer.previousName) :
  reader.segment ((writer.fields generated source line column name).flatMap vlq) =
    some {
      generatedLine := generated.line
      generatedColumn := generated.column
      source, line, column
      name := (name.getD writer.previousName : ℕ)
      segments := reader.segments ++ [SourceMap.written generated source line column name] }
  := by
  have column_cast : ((if writer.leaves generated then 0 else writer.previousGeneratedColumn : ℕ) : ℤ) =
      if writer.leaves generated then 0 else (writer.previousGeneratedColumn : ℤ) := by
    split
    all_goals rfl
  rw [Reader.segment, readFields_vlq]
  unfold fields
  cases name with
  | none =>
    dsimp only [bind_eq_bind, bind_some]
    rw [Reader.move]
    simp only [line_eq, column_eq, source_eq, original_line, original_column, name_eq, column_cast,
      add_sub_cancel, map_none, getD_none, SourceMap.written]
  | some name =>
    dsimp only [bind_eq_bind, bind_some]
    rw [Reader.move]
    simp only [line_eq, column_eq, source_eq, original_line, original_column, name_eq, column_cast,
      add_sub_cancel, map_some, getD_some, SourceMap.written]
    rfl

theorem Written.write {writer : MapWriter} {segments : List Segment} (written : Written writer segments)
    {generated : Position} (ahead : writer.Ahead generated) (source line column : ℕ)
    (name : Option ℕ) :
  Written (writer.write generated source line column name)
    (segments ++ [SourceMap.written generated source line column name])
  := by
  obtain ⟨last, reader, reads, rfl, line_eq, column_eq, source_eq, original_line, original_column,
    name_eq, fresh⟩ := written.reader
  obtain ⟨some_, no_line, no_comma⟩ := writer.fields_plain generated source line column name
  rw [write_eq]
  constructor
  dsimp only
  by_cases leaves : writer.leaves generated
  · have begun := reads.lines (generated.line - (writer.lastGenerated.map (·.line)).getD 0) (by
      intro zero
      match same : writer.lastGenerated with
      | none =>
          obtain ⟨last_eq, column_zero⟩ := fresh same
          rw [column_eq, column_zero]
          exact ⟨last_eq, rfl⟩
      | some last =>
          exfalso
          have le := ahead last same
          rw [MapWriter.leaves, same] at leaves
          rw [same, map_some, getD_some] at zero
          have ne := of_decide_eq_true leaves
          omega)
    have le : reader.generatedLine ≤ generated.line := by
      rw [line_eq]
      match same : writer.lastGenerated with
      | none => exact Nat.zero_le _
      | some last => exact ahead last same
    have moved := segment_fields writer { reader with
        generatedLine := reader.generatedLine +
          (generated.line - (writer.lastGenerated.map (·.line)).getD 0)
        generatedColumn := 0 } generated source line column name
      (by rw [← line_eq]; exact Nat.add_sub_of_le le) (by rw [if_pos leaves]) source_eq original_line
      original_column name_eq
    have read := begun.first some_ no_line no_comma moved
    rw [separator, if_pos leaves]
    exact ⟨_, _, read, rfl, rfl, rfl, rfl, rfl, rfl, rfl, nofun⟩
  · have same : ∃ last, writer.lastGenerated = some last ∧ last.line = generated.line := by
      match same : writer.lastGenerated with
      | none =>
          rw [MapWriter.leaves, same] at leaves
          exact absurd rfl leaves
      | some last =>
          rw [MapWriter.leaves, same, decide_eq_true_eq, not_not] at leaves
          exact ⟨last, rfl, leaves⟩
    obtain ⟨last', same, line_same⟩ := same
    have moved := segment_fields writer reader generated source line column name (by rw [line_eq, same]; exact line_same) (by rw [if_neg leaves, column_eq])
      source_eq original_line original_column name_eq
    have read := reads.next some_ no_line no_comma moved
    rw [separator, if_neg leaves, append_assoc]
    exact ⟨_, _, read, rfl, rfl, rfl, rfl, rfl, rfl, rfl, nofun⟩

end MapWriter

end Vilan.Core.SourceMap
