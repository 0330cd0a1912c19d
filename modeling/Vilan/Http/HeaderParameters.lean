import Mathlib.Data.List.TakeWhile
import Vilan.Std.Text

/-!
# The parameters of a header value

The walk over the code units of a header value that collects its `name=value` parameters.  It cuts the
names and the values out by their indices, and a cut whose bounds are not in order, or not in the text,
is no cut.
-/

namespace Vilan.Http.Header

open List Option

/-! ### Text -/

/-- The code units that the host trims from a string: its white space and its line terminators. -/
def isTrimmed (code : UInt16) : Bool :=
  let code := code.toNat
  9 ≤ code && code ≤ 13 || code = 0x20 || code = 0xA0 || code = 0x1680 ||
    0x2000 ≤ code && code ≤ 0x200A || code = 0x2028 || code = 0x2029 || code = 0x202F ||
      code = 0x205F || code = 0x3000 || code = 0xFEFF

/-- Without the white space around it. -/
def trim (text : Str) : Str :=
  ((text.dropWhile isTrimmed).reverse.dropWhile isTrimmed).reverse

/-- The 26 capital letters are mapped, and no other code unit. -/
def toLowercaseAscii (text : Str) : Str :=
  text.map fun code => if 65 ≤ code ∧ code ≤ 90 then code + 32 else code

/-- The part of a text from one index to another. -/
def substring (text : Str) (start stop : ℕ) : Option Str :=
  if start ≤ stop ∧ stop ≤ text.length then some (text.substring start stop) else none

/-! ### The walk -/

/-- The next index at which a code unit is not passed, or the end of the text. -/
def skip (value : Str) (pass : UInt16 → Bool) : ℕ → ℕ → ℕ
  | 0, index => index
  | fuel + 1, index =>
      match value[index]? with
      | some code => if pass code then skip value pass fuel (index + 1) else index
      | none => index

/-- The index of the first code unit from an index on that is not passed, or of the end. -/
def skipFrom (value : Str) (pass : UInt16 → Bool) (index : ℕ) : ℕ :=
  skip value pass (value.length - index) index

/-- A quoted value: its text, and the index of its closing quote or of the end of the header value.  What
is read and not yet part of the text begins at `start`. -/
def readQuoted (value : Str) : ℕ → ℕ → ℕ → Str → Option (Str × ℕ)
  | 0, _, _, _ => none
  | fuel + 1, index, start, text =>
      if value[index]?.any (· ≠ 34) then
        if value[index]? = some 92 ∧ index + 1 < value.length then do
          let piece ← substring value start index
          readQuoted value fuel (index + 2) (index + 1) (text ++ piece)
        else readQuoted value fuel (index + 1) start text
      else do
        let piece ← substring value start index
        some (text ++ piece, index)

/-- The value of a parameter from behind its `=` on, and the index of the next `;` or of the end. -/
def readValue (value : Str) (index : ℕ) : Option (Str × ℕ) :=
  let start := skipFrom value (· = 32) index
  if value[start]? = some 34 then do
    let (text, index) ← readQuoted value (value.length + 1) (start + 1) (start + 1) []
    some (text, skipFrom value (· ≠ 59) index)
  else do
    let index := skipFrom value (· ≠ 59) start
    let text ← substring value start index
    some (trim text, index)

/-- The parameters from the index of a `;` on, behind those that are found. -/
def readParameters (value : Str) : ℕ → ℕ → List (Str × Str) → Option (List (Str × Str))
  | 0, _, _ => none
  | fuel + 1, index, found =>
      if index < value.length then do
        let nameStart := index + 1
        let index := skipFrom value (fun code => code ≠ 61 && code ≠ 59) nameStart
        let piece ← substring value nameStart index
        let name := toLowercaseAscii (trim piece)
        if value.length ≤ index ∨ value[index]? = some 59 then
          readParameters value fuel index (if name ≠ [] then found ++ [(name, [])] else found)
        else do
          let (text, index) ← readValue value (index + 1)
          readParameters value fuel index (found ++ [(name, text)])
      else some found

/-- The parameters of a header value after its first `;`, unless a cut is out of bounds or the walk takes
more rounds than the value has code units. -/
def headerParameters (value : Str) : Option (List (Str × Str)) :=
  readParameters value (value.length + 1) (skipFrom value (· ≠ 59) 0) []

/-! ### The same on what is left of the text -/

/-- A quoted value up to its closing quote, unescaped, and what follows from there. -/
def quoted : Str → Str × Str
  | [] => ([], [])
  | code :: rest =>
      if code = 34 then ([], code :: rest)
      else if code = 92 then
        match rest with
        | [] => ([code], [])
        | escaped :: rest => (escaped :: (quoted rest).1, (quoted rest).2)
      else (code :: (quoted rest).1, (quoted rest).2)

/-- The value of a parameter, and what follows from the next `;` on. -/
def parameterValue (rest : Str) : Str × Str :=
  match rest.dropWhile (· = 32) with
  | [] => ([], [])
  | code :: rest =>
      if code = 34 then ((quoted rest).1, (quoted rest).2.dropWhile (· ≠ 59))
      else (trim ((code :: rest).takeWhile (· ≠ 59)), (code :: rest).dropWhile (· ≠ 59))

theorem quoted_suffix (rest : Str) : (quoted rest).2 <:+ rest
  := by
  fun_induction quoted rest with
  | case1 => exact suffix_refl _
  | case2 => exact suffix_refl _
  | case3 => exact nil_suffix
  | case4 _ _ _ ih => exact (ih.trans (suffix_cons _ _)).trans (suffix_cons _ _)
  | case5 _ _ _ _ ih => exact ih.trans (suffix_cons _ _)

theorem parameterValue_suffix (rest : Str) : (parameterValue rest).2 <:+ rest
  := by
  have suffix := dropWhile_suffix (l := rest) fun code => decide (code = 32)
  rw [parameterValue]
  split
  next => exact nil_suffix
  next code behind heq =>
    rw [heq] at suffix
    split
    · exact ((dropWhile_suffix _).trans (quoted_suffix behind)).trans
        ((suffix_cons _ _).trans suffix)
    · exact (dropWhile_suffix _).trans suffix

/-- The parameters from a `;` on. -/
def parametersFrom : Str → List (Str × Str)
  | [] => []
  | _ :: rest =>
      let name := toLowercaseAscii (trim (rest.takeWhile fun code => code ≠ 61 && code ≠ 59))
      match _h : rest.dropWhile fun code => code ≠ 61 && code ≠ 59 with
      | [] => if name ≠ [] then [(name, [])] else []
      | code :: behind =>
          if code = 59 then
            (if name ≠ [] then [(name, [])] else []) ++ parametersFrom (code :: behind)
          else (name, (parameterValue behind).1) :: parametersFrom (parameterValue behind).2
termination_by text => text.length
decreasing_by
  all_goals
    have le := (dropWhile_suffix (l := rest)
      fun code => (decide (code ≠ 61) && decide (code ≠ 59))).length_le
    rw [_h] at le
  · exact Nat.lt_succ_of_le le
  · have le' := (parameterValue_suffix behind).length_le
    rw [length_cons] at le ⊢
    omega

/-- What a name is followed by decides the parameter, and where the next one begins. -/
theorem parametersFrom_cons (first : UInt16) (rest : Str) :
  parametersFrom (first :: rest) =
    match rest.dropWhile (fun code => code ≠ 61 && code ≠ 59) with
    | [] =>
        if toLowercaseAscii (trim (rest.takeWhile fun code => code ≠ 61 && code ≠ 59)) ≠ [] then
          [(toLowercaseAscii (trim (rest.takeWhile fun code => code ≠ 61 && code ≠ 59)), [])]
        else []
    | code :: behind =>
        if code = 59 then
          (if toLowercaseAscii (trim (rest.takeWhile fun code => code ≠ 61 && code ≠ 59)) ≠ [] then
            [(toLowercaseAscii (trim (rest.takeWhile fun code => code ≠ 61 && code ≠ 59)), [])]
          else []) ++ parametersFrom (code :: behind)
        else
          (toLowercaseAscii (trim (rest.takeWhile fun code => code ≠ 61 && code ≠ 59)),
            (parameterValue behind).1) :: parametersFrom (parameterValue behind).2
  := by
  rw [parametersFrom.eq_def]
  dsimp only
  split
  next ended => rw [ended]
  next code behind met => rw [met]

/-! ### The walk reads what is left -/

/-- The index at which what is left of a text begins. -/
def place (value rest : Str) : ℕ :=
  value.length - rest.length

variable {value rest : Str}

theorem getElem?_place (suffix : rest <:+ value) : value[place value rest]? = rest.head?
  := by
  obtain ⟨front, rfl⟩ := suffix
  rw [place, length_append, Nat.add_sub_cancel, getElem?_append_right (Nat.le_refl _),
    Nat.sub_self, head?_eq_getElem?]

theorem place_cons {code : UInt16} (suffix : code :: rest <:+ value) :
  place value rest = place value (code :: rest) + 1
  := by
  have le := suffix.length_le
  rw [place, place]
  rw [length_cons] at le ⊢
  omega

theorem place_nil (value : Str) : place value [] = value.length
  := rfl

theorem place_lt_iff (suffix : rest <:+ value) : place value rest < value.length ↔ rest ≠ []
  := by
  have le := suffix.length_le
  rw [place, ne_eq, ← length_eq_zero_iff]
  omega

/-- What lies between two places of a text is cut out by their indices. -/
theorem substring_place {piece : Str} (suffix : piece ++ rest <:+ value) :
  substring value (place value (piece ++ rest)) (place value rest) = some piece
  := by
  obtain ⟨front, rfl⟩ := suffix
  rw [substring, place, place]
  simp only [length_append]
  rw [if_pos (by omega), some_inj, Str.substring]
  have start : front.length + (piece.length + rest.length) - (piece.length + rest.length) =
      front.length := by omega
  have length : front.length + (piece.length + rest.length) - rest.length - front.length =
      piece.length := by omega
  rw [start, length, drop_left, take_left]

theorem skip_place (pass : UInt16 → Bool) {fuel : ℕ} (suffix : rest <:+ value)
    (enough : rest.length ≤ fuel) :
  skip value pass fuel (place value rest) = place value (rest.dropWhile pass)
  := by
  induction fuel generalizing rest with
  | zero =>
    obtain rfl : rest = [] := length_eq_zero_iff.mp (Nat.le_zero.mp enough)
    rfl
  | succ fuel ih =>
    rw [skip, getElem?_place suffix]
    cases rest with
    | nil => rfl
    | cons code rest =>
      rw [head?_cons, dropWhile_cons]
      dsimp only
      split
      · rw [← place_cons suffix]
        exact ih ((suffix_cons _ _).trans suffix) (Nat.le_of_succ_le_succ enough)
      · rfl

theorem skipFrom_place (pass : UInt16 → Bool) (suffix : rest <:+ value) :
  skipFrom value pass (place value rest) = place value (rest.dropWhile pass)
  := by
  have le := suffix.length_le
  apply skip_place pass suffix
  rw [place]
  omega

/-- The part that is passed is cut out by the index before and the index behind. -/
theorem substring_takeWhile (pass : UInt16 → Bool) (suffix : rest <:+ value) :
  substring value (place value rest) (place value (rest.dropWhile pass)) = some (rest.takeWhile pass)
  := by
  have parts := takeWhile_append_dropWhile (p := pass) (l := rest)
  have suffix' : rest.takeWhile pass ++ rest.dropWhile pass <:+ value := by
    rw [parts]
    exact suffix
  have cut := substring_place suffix'
  rw [parts] at cut
  exact cut

/-- The walk through a quoted value, with a piece that is read and not yet part of the text. -/
theorem readQuoted_place {fuel : ℕ} (piece text : Str) (suffix : piece ++ rest <:+ value)
    (enough : rest.length < fuel) :
  readQuoted value fuel (place value rest) (place value (piece ++ rest)) text =
    some (text ++ piece ++ (quoted rest).1, place value (quoted rest).2)
  := by
  induction fuel generalizing rest piece text with
  | zero => cases enough
  | succ fuel ih =>
    have suffix' : rest <:+ value := (suffix_append piece rest).trans suffix
    rw [readQuoted, getElem?_place suffix']
    cases rest with
    | nil =>
      rw [head?_nil, any_none, if_neg Bool.false_ne_true, substring_place suffix, quoted,
        append_nil]
      rfl
    | cons code rest =>
      rw [head?_cons, any_some, quoted.eq_def]
      dsimp only
      have longer : (piece ++ [code]) ++ rest <:+ value := by
        rw [append_assoc]
        exact suffix
      -- the next code unit joins the piece
      have joined : readQuoted value fuel (place value (code :: rest) + 1)
          (place value (piece ++ code :: rest)) text =
            some (text ++ piece ++ code :: (quoted rest).1, place value (quoted rest).2) := by
        have h := ih (piece ++ [code]) text longer (Nat.lt_of_succ_lt_succ enough)
        rw [place_cons suffix', append_assoc, ← append_assoc text, append_assoc] at h
        exact h
      by_cases quote : code = 34
      · subst quote
        rw [if_neg (by decide), if_pos rfl, substring_place suffix, append_nil]
        rfl
      · rw [if_pos (decide_eq_true quote), if_neg quote]
        by_cases escape : code = 92
        · subst escape
          rw [if_pos rfl]
          cases rest with
          | nil =>
            have last : ¬ (some (92 : UInt16) = some 92 ∧
                place value [92] + 1 < value.length) := by
              rw [← place_cons suffix', place_nil]
              exact fun both => Nat.lt_irrefl _ both.2
            rw [if_neg last, joined]
            rfl
          | cons escaped rest =>
            have more : some (92 : UInt16) = some 92 ∧
                place value (92 :: escaped :: rest) + 1 < value.length := by
              rw [← place_cons suffix', place_lt_iff ((suffix_cons _ _).trans suffix')]
              exact ⟨rfl, cons_ne_nil _ _⟩
            have behind : escaped :: rest <:+ value := (suffix_cons _ _).trans suffix'
            have h := ih [escaped] (text ++ piece) behind
              (by rw [length_cons, length_cons] at enough; omega)
            rw [place_cons behind, singleton_append, place_cons suffix',
              append_assoc _ [escaped]] at h
            rw [if_pos more, substring_place suffix]
            exact h
        · have other : ¬ (some code = some 92 ∧ place value (code :: rest) + 1 < value.length) :=
            fun both => escape (Option.some.inj both.1)
          rw [if_neg other, joined, if_neg escape]

theorem readValue_place (suffix : rest <:+ value) :
  readValue value (place value rest) =
    some ((parameterValue rest).1, place value (parameterValue rest).2)
  := by
  have suffix' : rest.dropWhile (· = 32) <:+ value := (dropWhile_suffix _).trans suffix
  rw [readValue, skipFrom_place _ suffix]
  dsimp only
  rw [getElem?_place suffix', parameterValue.eq_def]
  cases h : rest.dropWhile (· = 32) with
  | nil =>
    rw [h] at suffix'
    rw [head?_nil, if_neg (some_ne_none _).symm, skipFrom_place _ suffix',
      substring_takeWhile _ suffix']
    rfl
  | cons code behind =>
    rw [h] at suffix'
    rw [head?_cons]
    dsimp only
    by_cases quote : code = 34
    · subst quote
      have behind_ : behind <:+ value := (suffix_cons _ _).trans suffix'
      have read := readQuoted_place [] [] behind_ (Nat.lt_succ_of_le behind_.length_le)
      rw [nil_append] at read
      rw [if_pos rfl, if_pos rfl, ← place_cons suffix', read]
      simp only [bind_eq_bind, bind_some]
      rw [skipFrom_place _ ((quoted_suffix behind).trans behind_)]
      rfl
    · rw [if_neg fun same => quote (Option.some.inj same), if_neg quote, skipFrom_place _ suffix',
        substring_takeWhile _ suffix']
      rfl

theorem readParameters_place {fuel : ℕ} {found : List (Str × Str)} (suffix : rest <:+ value)
    (enough : rest.length < fuel) :
  readParameters value fuel (place value rest) found = some (found ++ parametersFrom rest)
  := by
  induction fuel generalizing rest found with
  | zero => cases enough
  | succ fuel ih =>
    rw [readParameters]
    cases rest with
    | nil => rw [place_nil, if_neg (Nat.lt_irrefl _), parametersFrom, append_nil]
    | cons first rest =>
      have rest_ : rest <:+ value := (suffix_cons _ _).trans suffix
      have shorter : rest.length < fuel := Nat.lt_of_succ_lt_succ enough
      have rest' := (dropWhile_suffix (l := rest)
        fun code => (decide (code ≠ 61) && decide (code ≠ 59)))
      rw [if_pos ((place_lt_iff suffix).mpr (cons_ne_nil _ _)), ← place_cons suffix]
      dsimp only
      rw [skipFrom_place _ rest_, substring_takeWhile _ rest_, parametersFrom_cons]
      simp only [bind_eq_bind, bind_some]
      generalize toLowercaseAscii (trim _) = name
      cases met : rest.dropWhile fun code => decide (code ≠ 61) && decide (code ≠ 59) with
      | nil =>
        rw [place_nil, if_pos (Or.inl (Nat.le_refl _)), ← place_nil value,
          ih nil_suffix (by rw [length_nil]; omega), parametersFrom, append_nil]
        split <;> simp only [append_nil]
      | cons code behind =>
        rw [met] at rest'
        dsimp only
        have at_ := rest'.trans rest_
        have shorter' : (code :: behind).length < fuel :=
          Nat.lt_of_le_of_lt rest'.length_le shorter
        have inside : ¬ value.length ≤ place value (code :: behind) :=
          Nat.not_le_of_lt ((place_lt_iff at_).mpr (cons_ne_nil _ _))
        rw [getElem?_place at_, head?_cons, ← place_cons at_]
        by_cases semicolon : code = 59
        · subst semicolon
          rw [if_pos (Or.inr rfl), if_pos rfl, ih at_ shorter']
          split <;> simp only [append_assoc, nil_append]
        · have none_ : ¬ (value.length ≤ place value (code :: behind) ∨ some code = some 59) := by
            rintro (le | same)
            · exact inside le
            · exact semicolon (Option.some.inj same)
          have behind_ := (suffix_cons _ _).trans at_
          have value_ := parameterValue_suffix behind
          rw [if_neg none_, if_neg semicolon, readValue_place behind_]
          simp only [bind_some]
          rw [ih (value_.trans behind_), append_assoc, singleton_append]
          have le := value_.length_le
          rw [length_cons] at shorter'
          omega

/-- The walk ends on every text, keeps its bounds, and reads what is left of it. -/
theorem headerParameters_eq (value : Str) :
  headerParameters value = some (parametersFrom (value.dropWhile (· ≠ 59)))
  := by
  have start := skipFrom_place (· ≠ 59) (suffix_refl value)
  rw [place, Nat.sub_self] at start
  have suffix := dropWhile_suffix (l := value) fun code => decide (code ≠ 59)
  rw [headerParameters, start, readParameters_place suffix (Nat.lt_succ_of_le suffix.length_le),
    nil_append]

/-! ### What is printed is read back -/

/-- A value with a backslash before each of its quotes and backslashes. -/
def escape (value : Str) : Str :=
  value.flatMap fun code => if code = 34 ∨ code = 92 then [92, code] else [code]

/-- The parameters, each as `; name="value"`. -/
def printParameters (parameters : List (Str × Str)) : Str :=
  parameters.flatMap fun parameter =>
    [59, 32] ++ parameter.1 ++ [61, 34] ++ escape parameter.2 ++ [34]

/-- A name of a parameter: without a `;`, a `=`, a quote, and without white space around it. -/
def TokenName (name : Str) : Prop :=
  59 ∉ name ∧ 61 ∉ name ∧ 34 ∉ name ∧ trim name = name

theorem quoted_escape (value rest : Str) :
  quoted (escape value ++ 34 :: rest) = (value, 34 :: rest)
  := by
  induction value with
  | nil =>
    rw [escape, flatMap_nil, nil_append, quoted.eq_def]
    rfl
  | cons code value ih =>
    rw [escape, flatMap_cons, ← escape]
    by_cases special : code = 34 ∨ code = 92
    · rw [if_pos special, append_assoc, cons_append, singleton_append, quoted.eq_def]
      dsimp only
      rw [if_neg (by decide), if_pos rfl, ih]
    · have other := not_or.mp special
      rw [if_neg special, append_assoc, singleton_append, quoted.eq_def]
      dsimp only
      rw [if_neg other.1, if_neg other.2, ih]

theorem trim_space (text : Str) : trim (32 :: text) = trim text
  := by
  rw [trim, dropWhile_cons_of_pos (by decide), trim]

/-- The parameters that are printed in front of a list of them that are read back. -/
theorem parametersFrom_printed (name value rest : Str) (token : TokenName name)
    (next : rest.dropWhile (· ≠ 59) = rest) :
  parametersFrom ([59, 32] ++ name ++ [61, 34] ++ escape value ++ [34] ++ rest) =
    (toLowercaseAscii name, value) :: parametersFrom rest
  := by
  have text : [59, 32] ++ name ++ [61, 34] ++ escape value ++ [34] ++ rest =
      59 :: ((32 :: name) ++ 61 :: 34 :: (escape value ++ 34 :: rest)) := by
    simp only [append_assoc, cons_append, nil_append]
  have passed : ∀ code ∈ (32 : UInt16) :: name,
      (decide (code ≠ 61) && decide (code ≠ 59)) = true := by
    rw [forall_mem_cons]
    refine ⟨by decide, ?_⟩
    intro code mem
    rw [Bool.and_eq_true, decide_eq_true_iff, decide_eq_true_iff]
    exact ⟨fun same => token.2.1 (same ▸ mem), fun same => token.1 (same ▸ mem)⟩
  have name_ : ((32 :: name) ++ 61 :: 34 :: (escape value ++ 34 :: rest)).takeWhile
      (fun code => decide (code ≠ 61) && decide (code ≠ 59)) = 32 :: name := by
    rw [takeWhile_append_of_pos passed, takeWhile_cons_of_neg (by decide), append_nil]
  have met : ((32 :: name) ++ 61 :: 34 :: (escape value ++ 34 :: rest)).dropWhile
      (fun code => decide (code ≠ 61) && decide (code ≠ 59)) =
        61 :: 34 :: (escape value ++ 34 :: rest) := by
    rw [dropWhile_append_of_pos passed, dropWhile_cons_of_neg (by decide)]
  have value_ : parameterValue (34 :: (escape value ++ 34 :: rest)) = (value, rest) := by
    rw [parameterValue, dropWhile_cons_of_neg (by decide)]
    dsimp only
    rw [if_pos rfl, quoted_escape, dropWhile_cons_of_pos (by decide), next]
  rw [text, parametersFrom_cons, name_, met]
  dsimp only
  rw [if_neg (by decide), value_, trim_space, token.2.2.2]

theorem dropWhile_print (parameters : List (Str × Str)) :
  (printParameters parameters).dropWhile (· ≠ 59) = printParameters parameters
  := by
  cases parameters with
  | nil => rfl
  | cons parameter parameters =>
    rw [printParameters, flatMap_cons]
    rfl

theorem parametersFrom_print (parameters : List (Str × Str))
    (tokens : ∀ parameter ∈ parameters, TokenName parameter.1) :
  parametersFrom (printParameters parameters) =
    parameters.map fun parameter => (toLowercaseAscii parameter.1, parameter.2)
  := by
  induction parameters with
  | nil => rw [printParameters, flatMap_nil, parametersFrom, map_nil]
  | cons parameter parameters ih =>
    rw [forall_mem_cons] at tokens
    rw [printParameters, flatMap_cons, ← printParameters, map_cons,
      parametersFrom_printed _ _ _ tokens.1 (dropWhile_print parameters), ih tokens.2]

/-- The parameters that are printed behind the kind of a header value are read back, and the walk ends on
every text with its bounds kept. -/
theorem headerParameters_print :
  (∀ (kind : Str) (parameters : List (Str × Str)), 59 ∉ kind →
    (∀ parameter ∈ parameters, TokenName parameter.1) →
    headerParameters (kind ++ printParameters parameters) =
      some (parameters.map fun parameter => (toLowercaseAscii parameter.1, parameter.2))) ∧
    ∀ value : Str, (headerParameters value).isSome = true
  := by
  constructor
  · intro kind parameters none_ tokens
    have passed : ∀ code ∈ kind, decide (code ≠ 59) = true := by
      intro code mem
      rw [decide_eq_true_iff]
      exact fun same => none_ (same ▸ mem)
    rw [headerParameters_eq, dropWhile_append_of_pos passed, dropWhile_print,
      parametersFrom_print _ tokens]
  · intro value
    rw [headerParameters_eq]
    rfl

/-- A file name with a `;` and quotes in it. -/
theorem headerParameters_print_filename :
  headerParameters (ascii "form-data; Name=\"field\"; filename=\"a;\\\"b\\\\.txt\"") =
    some [(ascii "name", ascii "field"), (ascii "filename", ascii "a;\"b\\.txt")]
  :=
  headerParameters_print.1 (ascii "form-data")
    [(ascii "Name", ascii "field"), (ascii "filename", ascii "a;\"b\\.txt")] (by decide)
    (by unfold TokenName; decide)

end Vilan.Http.Header
