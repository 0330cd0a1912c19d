import Vilan.Http.Multipart

/-!
# The parse of a whole form

A form that is there at once is cut at its delimiters and its line ends.  Each read of a form that
arrives in pieces is one cut of what is left of it, except that a line which is exactly as long as
its budget may be refused.
-/

namespace Vilan.Http

open List Search

/-- What stands before a part's bytes: the rest of its delimiter's line, and its header lines. -/
structure RawHead where
  after : Bytes
  lines : List Bytes

/-- What a form comes to. -/
inductive Parsed where
  | refused
  /-- Closed by a delimiter with this behind it on its line. -/
  | closed (after : Bytes)
  | part (head : RawHead) (content : Bytes) (rest : Parsed)
  /-- A part that no delimiter ends. -/
  | cut (head : RawHead) (bytes : Bytes)

/-- The header lines up to an empty one, and what follows. -/
def headLines (spent : ℕ) (bytes : Bytes) : Option (List Bytes × Bytes) :=
  match _h : Search.cut lineEnd bytes with
  | none => none
  | some (line, rest) =>
      if maxPartHead < spent + line.length then none
      else if line = [] then some ([], rest)
      else if 58 ∈ line then
        (headLines (spent + line.length + 2) rest).map fun (lines, rest) => (line :: lines, rest)
      else none
termination_by bytes.length
decreasing_by
  obtain ⟨eq, _⟩ := cut_eq_some_iff.mp _h
  rw [eq, length_append, length_append]
  simp [lineEnd]
  omega

/-- What stands behind a delimiter. -/
inductive Behind where
  | refused
  | closed (after : Bytes)
  | head (head : RawHead) (rest : Bytes)

/-- What a delimiter's line says, and the head under it. -/
def behindLine (after rest : Bytes) : Behind :=
  if maxPartHead < after.length then .refused
  else if after.take 2 = [45, 45] then .closed after
  else if after.any fun byte => byte ≠ 32 && byte ≠ 9 then .refused
  else
    match headLines 0 rest with
    | none => .refused
    | some (lines, rest) => .head ⟨after, lines⟩ rest

def behind (bytes : Bytes) : Behind :=
  match Search.cut lineEnd bytes with
  | none => .refused
  | some (after, rest) => behindLine after rest

variable {bytes rest : Bytes}

theorem cut_lineEnd_shrinks {line : Bytes} (h : Search.cut lineEnd bytes = some (line, rest)) :
  rest.length < bytes.length
  := by
  obtain ⟨eq, _⟩ := cut_eq_some_iff.mp h
  rw [eq, length_append, length_append]
  simp [lineEnd]
  omega

theorem headLines_shrinks {spent : ℕ} {lines : List Bytes}
    (h : headLines spent bytes = some (lines, rest)) :
  rest.length < bytes.length
  := by
  fun_induction headLines spent bytes generalizing lines with
  | case1 => cases h
  | case2 => cases h
  | case3 spent bytes rest cut_eq =>
    cases h
    apply cut_lineEnd_shrinks cut_eq
  | case4 spent bytes line rest' cut_eq _ _ _ ih =>
    obtain ⟨⟨lines', rest''⟩, eq, same⟩ := Option.map_eq_some_iff.mp h
    cases same
    apply (ih eq).trans (cut_lineEnd_shrinks cut_eq)
  | case5 => cases h

theorem behindLine_closed {after after' : Bytes} (h : behindLine after rest = .closed after') :
  after' = after ∧ after.length ≤ maxPartHead
  := by
  rw [behindLine] at h
  split at h
  next => cases h
  next within =>
    split at h
    next =>
      cases h
      exact ⟨rfl, Nat.not_lt.mp within⟩
    next =>
      split at h
      next => cases h
      next => split at h <;> cases h

theorem behindLine_head {after rest' : Bytes} {head : RawHead}
    (h : behindLine after rest = .head head rest') :
  head.after = after ∧ after.length ≤ maxPartHead ∧ headLines 0 rest = some (head.lines, rest')
  := by
  rw [behindLine] at h
  split at h
  next => cases h
  next within =>
    split at h
    next => cases h
    next =>
      split at h
      next => cases h
      next =>
        split at h
        next => cases h
        next lines rest'' lines_eq =>
          cases h
          exact ⟨rfl, Nat.not_lt.mp within, lines_eq⟩

theorem behind_shrinks {head : RawHead} (h : behind bytes = .head head rest) :
  rest.length < bytes.length
  := by
  rw [behind] at h
  split at h
  next => cases h
  next after rest' cut_eq =>
    obtain ⟨_, _, lines_eq⟩ := behindLine_head h
    apply (headLines_shrinks lines_eq).trans (cut_lineEnd_shrinks cut_eq)

theorem cut_length_le {needle before : Bytes} (h : Search.cut needle bytes = some (before, rest)) :
  rest.length ≤ bytes.length
  := by
  obtain ⟨eq, _⟩ := cut_eq_some_iff.mp h
  rw [eq, length_append, length_append]
  omega

/-- The parts behind a delimiter. -/
def parts (delimiter bytes : Bytes) : Parsed :=
  match _h : behind bytes with
  | .refused => .refused
  | .closed after => .closed after
  | .head head rest =>
      match _h' : Search.cut delimiter rest with
      | none => .cut head rest
      | some (content, rest) => .part head content (parts delimiter rest)
termination_by bytes.length
decreasing_by apply lt_of_le_of_lt (cut_length_le _h') (behind_shrinks _h)

theorem parts_eq (delimiter bytes : Bytes) :
  parts delimiter bytes =
    match behind bytes with
    | .refused => .refused
    | .closed after => .closed after
    | .head head rest =>
        match Search.cut delimiter rest with
        | none => .cut head rest
        | some (content, rest) => .part head content (parts delimiter rest)
  := by
  rw [parts]
  split
  next eq => rw [eq]
  next eq => rw [eq]
  next eq =>
    rw [eq]
    dsimp only
    split
    next eq' => rw [eq']
    next eq' => rw [eq']

/-- The delimiter of a form. -/
def delimiterOf (boundary : Text) : Bytes :=
  lineEnd ++ [45, 45] ++ Utf8.encode boundary

/-- The parse of a body that is there at once: the first delimiter may open it. -/
def parse (boundary : Text) (body : Bytes) : Parsed :=
  match Search.cut (delimiterOf boundary) (lineEnd ++ body) with
  | none => .refused
  | some (_, rest) => parts (delimiterOf boundary) rest

/-! ### One read -/

namespace Multipart

variable {form form' : Multipart} {message : String} {size spent : ℕ}

theorem readLine_error {budget : ℤ} (h : form.readLine budget = .error message) :
  Search.cut lineEnd form.left = none ∨
    ∃ line rest, Search.cut lineEnd form.left = some (line, rest) ∧ budget ≤ line.length
  := by
  fun_induction readLine form budget with
  | case1 form found eq long =>
    right
    obtain ⟨e, rfl, _, find_eq⟩ := findBytes_some eq
    obtain ⟨le, _⟩ := find_eq_some_iff.mp find_eq
    refine ⟨_, _, cut_of_find find_eq, ?_⟩
    rw [window, length_take, Nat.min_eq_left le]
    rw [Nat.add_sub_cancel_left] at long
    omega
  | case2 => cases h
  | case3 form eq long =>
    have none_ := findBytes_none lineEnd_ne eq
    cases cut_eq : Search.cut lineEnd form.left with
    | none => apply Or.inl rfl
    | some parts =>
      obtain ⟨line, rest⟩ := parts
      right
      refine ⟨line, rest, rfl, ?_⟩
      obtain ⟨eq', _⟩ := cut_eq_some_iff.mp cut_eq
      by_contra short
      have fits : line.length + lineEnd.length ≤ form.window.length := by
        rw [window, length_drop]
        simp only [lineEnd, length_cons, length_nil]
        omega
      apply not_occurs_of_find_none lineEnd_ne none_ fits form.body.left
      rw [← window, ← left_eq, eq', drop_left]
      apply prefix_append
  | case4 form eq within filled fill_eq ih =>
    rw [← (fill_left fill_eq).1]
    apply ih h
  | case5 form eq within fill_eq =>
    left
    rw [left_eq, fill_none fill_eq, append_nil, cut_eq_none_iff]
    apply findBytes_none lineEnd_ne eq

/-- Bytes of the window are decided. -/
theorem left_advance (form : Multipart) {count : ℕ} (le : count ≤ form.window.length) :
  { form with cursor := form.cursor + count }.left = form.left.drop count
  := by
  rw [left_eq form, drop_append_of_le_length le, left, window, drop_drop]

/-- The bytes at the front of the window that no delimiter starts at. -/
theorem clear_of_none (some_ : form.delimiter ≠ [])
    (none_ : Search.find form.delimiter form.window = none) {i : ℕ}
    (lt : i < form.window.length - (form.delimiter.length - 1)) :
  ¬ form.delimiter <+: form.left.drop i
  := by
  have pos := length_pos_iff.mpr some_
  rw [left_eq]
  apply not_occurs_of_find_none some_ none_
  omega

/-- What is decided of a preamble holds no start of a delimiter. -/
theorem cut_keep (some_ : form.delimiter ≠ [])
    (none_ : Search.find form.delimiter form.window = none) {cursor : ℕ} (eq : cursor =
      if form.delimiter.length - 1 < form.buffer.length ∧
          form.cursor < form.buffer.length - (form.delimiter.length - 1) then
        form.buffer.length - (form.delimiter.length - 1)
      else form.cursor) :
  ∃ before, Search.cut form.delimiter form.left =
    (Search.cut form.delimiter { form with cursor := cursor }.left).map
      fun parts => (before ++ parts.1, parts.2)
  := by
  split at eq
  next more =>
    have length_eq : form.window.length = form.buffer.length - form.cursor := length_drop
    obtain ⟨count, rfl⟩ : ∃ count, cursor = form.cursor + count := by
      use cursor - form.cursor
      omega
    have le : count ≤ form.window.length := by omega
    use form.left.take count
    rw [left_advance form le]
    apply cut_drop
    · rw [left_eq, length_append]
      omega
    · intro i lt
      apply clear_of_none some_ none_
      omega
  next =>
    subst eq
    use []
    simp

theorem readLine_cursor {budget : ℤ} {line : Bytes} (h : form.readLine budget = .ok (line, form')) :
  form'.cursor ≤ form'.buffer.length
  := by
  fun_induction readLine form budget with
  | case1 => cases h
  | case2 form found eq within =>
    cases h
    obtain ⟨e, rfl, _, find_eq⟩ := findBytes_some eq
    obtain ⟨_, occurs, _⟩ := find_eq_some_iff.mp find_eq
    have le := length_of_occurs lineEnd_ne occurs
    rw [length_drop] at le
    simp only [lineEnd, length_cons, length_nil] at le
    dsimp only
    omega
  | case3 => cases h
  | case4 form eq within filled fill_eq ih => apply ih h
  | case5 => cases h

theorem skipPreamble_ok (some_ : form.delimiter ≠ []) (h : form.skipPreamble = .ok form') :
  (∃ before, Search.cut form.delimiter form.left = some (before, form'.left)) ∧
    form.Onward form' ∧ form'.stage = .delimited
  := by
  fun_induction skipPreamble form with
  | case1 form found eq =>
    cases h
    obtain ⟨e, rfl, _, find_eq⟩ := findBytes_some eq
    refine ⟨⟨form.window.take e, ?_⟩, ⟨rfl, rfl, rfl⟩, rfl⟩
    rw [cut_of_find find_eq, left, window, drop_drop, Nat.add_assoc]
  | case2 form eq keep cursor filled fill_eq ih =>
    obtain ⟨left_eq, onward, _⟩ := fill_left fill_eq
    rw [onward.delimiter] at ih
    obtain ⟨⟨before, cut_eq⟩, onward', stage_eq⟩ := ih some_ h
    obtain ⟨before', cut_eq'⟩ := cut_keep some_ (findBytes_none some_ eq) (show cursor = _ from rfl)
    rw [left_eq] at cut_eq
    refine ⟨⟨before' ++ before, ?_⟩, ?_, stage_eq⟩
    · rw [cut_eq', cut_eq]
      rfl
    · apply Onward.trans _ onward'
      apply Onward.trans _ onward
      constructor <;> rfl
  | case3 => cases h

theorem skipPreamble_error (some_ : form.delimiter ≠ []) (h : form.skipPreamble = .error message) :
  Search.cut form.delimiter form.left = none
  := by
  fun_induction skipPreamble form with
  | case1 => cases h
  | case2 form eq keep cursor filled fill_eq ih =>
    obtain ⟨left_eq, onward, _⟩ := fill_left fill_eq
    rw [onward.delimiter] at ih
    obtain ⟨before', cut_eq'⟩ := cut_keep some_ (findBytes_none some_ eq) (show cursor = _ from rfl)
    have cut_eq := ih some_ h
    rw [left_eq] at cut_eq
    rw [cut_eq', cut_eq]
    rfl
  | case3 form eq keep cursor fill_eq =>
    rw [left_eq, fill_none fill_eq, append_nil, cut_eq_none_iff]
    apply findBytes_none some_ eq

/-! ### A part's bytes -/

/-- Up to the edge no delimiter starts, and one starts there if that is known. -/
structure Scanned (form : Multipart) : Prop where
  le : form.cursor ≤ form.edge
  within : form.edge ≤ form.buffer.length
  clear : ∀ i < form.edge - form.cursor, ¬ form.delimiter <+: form.left.drop i
  found : form.delimited = true → form.delimiter <+: form.buffer.drop form.edge

/-- What a read of a part leaves of it. -/
structure Reads (form : Multipart) (size : ℕ) (piece : Bytes) (form' : Multipart) : Prop where
  some_ : piece ≠ []
  fits : piece.length ≤ size
  eq : form.left = piece ++ form'.left
  clear : ∀ i < piece.length, ¬ form.delimiter <+: form.left.drop i
  scanned : form'.Scanned
  stage : form'.stage = .body
  onward : form.Onward form'

/-- What a read of the current part comes to: a piece of it before any delimiter, or its end at a
delimiter, or a refusal where no delimiter is left. -/
def PartRead (form : Multipart) (size : ℕ) : Except String (Option Bytes × Multipart) → Prop
  | .ok (some piece, form') => form.Reads size piece form'
  | .ok (none, form') =>
      Search.cut form.delimiter form.left = some ([], form'.left) ∧ form'.stage = .delimited ∧
        form.Onward form'
  | .error _ => Search.cut form.delimiter form.left = none

theorem PartRead.of_onward {read : Except String (Option Bytes × Multipart)}
    (left_eq : form'.left = form.left) (onward : form.Onward form') (h : form'.PartRead size read) :
  form.PartRead size read
  := by
  match read with
  | .ok (some piece, last) =>
      obtain ⟨ne, fits, eq, clear, scanned, stage, onward'⟩ := h
      rw [left_eq] at eq
      rw [onward.delimiter, left_eq] at clear
      exact ⟨ne, fits, eq, clear, scanned, stage, onward.trans onward'⟩
  | .ok (none, last) =>
      obtain ⟨cut_eq, stage, onward'⟩ := h
      rw [onward.delimiter, left_eq] at cut_eq
      exact ⟨cut_eq, stage, onward.trans onward'⟩
  | .error message =>
      rw [PartRead, onward.delimiter, left_eq] at h
      apply h

theorem Scanned.fresh (form : Multipart) (le : form.cursor ≤ form.buffer.length) :
  { form with edge := form.cursor, delimited := false }.Scanned
  := by
  constructor
  · apply Nat.le_refl
  · apply le
  · intro i lt
    dsimp only at lt
    omega
  · nofun

theorem fill_scanned {filled : Multipart} (h : form.fill size = some filled) :
  filled.Scanned
  := by
  obtain ⟨piece, _, _, eq⟩ := fill_some h
  rw [eq]
  constructor
  · apply Nat.le_refl
  · apply Nat.zero_le
  · intro i lt
    cases lt
  · nofun

/-- A read of the current part comes to what is left of it. -/
theorem readPart_spec {index : ℕ} (current : form.part = index) (inside : form.stage = .body)
    (some_ : form.delimiter ≠ []) (positive : size ≠ 0) (scanned : form.Scanned) :
  form.PartRead size (form.readPart index size)
  := by
  fun_induction readPart form index size with
  | case1 form other =>
    rw [current, inside] at other
    simp at other
  | case2 form _ lt stop =>
    obtain ⟨le, within, clear, found⟩ := scanned
    obtain ⟨count, stop_eq, pos, le_size, le_edge⟩ : ∃ count, stop = form.cursor + count ∧
        0 < count ∧ count ≤ size ∧ form.cursor + count ≤ form.edge := by
      use stop - form.cursor
      dsimp only [stop]
      split <;> omega
    have le_window : count ≤ form.window.length := by
      rw [window, length_drop]
      omega
    have length_eq : (form.window.take count).length = count := by
      rw [length_take, Nat.min_eq_left le_window]
    rw [stop_eq, slice_eq, ← window]
    constructor
    · rw [ne_eq, ← length_eq_zero_iff, length_eq]
      omega
    · rw [length_eq]
      apply le_size
    · rw [left_advance form le_window, left_eq, drop_append_of_le_length le_window,
        ← append_assoc, take_append_drop]
    · intro i lt
      apply clear
      omega
    · constructor
      · apply le_edge
      · apply within
      · intro i lt occurs
        dsimp only at lt
        rw [left_advance form le_window, drop_drop] at occurs
        apply clear (count + i) (by omega) occurs
      · apply found
    · apply inside
    · constructor <;> rfl
  | case3 form _ reach le delimited =>
    obtain ⟨le', within, clear, found⟩ := scanned
    have eq : form.edge = form.cursor := by omega
    obtain ⟨rest, occurs⟩ := found delimited
    rw [eq] at occurs
    refine ⟨?_, rfl, ⟨rfl, rfl, rfl⟩⟩
    rw [cut_eq_some_iff]
    constructor
    · rw [nil_append, left, left, ← append_assoc]
      congr
      dsimp only [reach]
      rw [eq, ← drop_drop, ← occurs, drop_left]
    · intro i lt
      cases lt
  | case4 form _ le notDelimited found eq ih =>
    obtain ⟨e, rfl, le', find_eq⟩ := findBytes_some eq
    obtain ⟨le'', occurs, first⟩ := find_eq_some_iff.mp find_eq
    rw [length_drop] at le''
    apply PartRead.of_onward _ _ (ih current inside some_ _)
    · rfl
    · constructor <;> rfl
    constructor
    · apply Nat.le_add_right
    · dsimp only
      omega
    · intro i lt
      have lt : i < e := by
        dsimp only at lt
        omega
      have fits := length_of_occurs some_ occurs
      have none_ := first i lt
      intro occurs'
      apply none_
      rw [left, occurs_append_iff] at occurs'
      · apply occurs'
      · dsimp only
        omega
    · intro _
      rw [drop_drop] at occurs
      apply occurs
  | case5 form _ reach le notDelimited eq more ih =>
    have none_ := findBytes_none some_ eq
    have length_eq : form.window.length = form.buffer.length - form.cursor := length_drop
    have pos := length_pos_iff.mpr some_
    apply PartRead.of_onward _ _ (ih current inside some_ _)
    · rfl
    · constructor <;> rfl
    constructor
    · apply Nat.le_of_lt more.2
    · apply Nat.sub_le
    · intro i lt
      apply clear_of_none some_ none_
      dsimp only [reach] at lt
      omega
    · intro delimited
      apply absurd delimited notDelimited
  | case6 form _ reach le notDelimited eq less filled fill_eq ih =>
    obtain ⟨left_eq, onward, stage_eq⟩ := fill_left fill_eq
    apply PartRead.of_onward left_eq onward
    apply ih (onward.part.trans current) (stage_eq.trans inside) _ (fill_scanned fill_eq)
    rw [onward.delimiter]
    apply some_
  | case7 form _ reach le notDelimited eq less fill_eq =>
    rw [refuseUnterminated, refuse, PartRead, left_eq, fill_none fill_eq, append_nil, cut_eq_none_iff]
    apply findBytes_none some_ eq

/-- Behind a piece of a part is the rest of the part. -/
theorem Reads.cut_eq {piece : Bytes} (h : form.Reads size piece form') :
  Search.cut form.delimiter form.left =
    (Search.cut form.delimiter form'.left).map fun parts => (piece ++ parts.1, parts.2)
  := by
  have le : piece.length ≤ form.left.length := by
    rw [h.eq, length_append]
    omega
  rw [cut_drop le h.clear, h.eq, drop_left, take_left]

theorem skipPart_spec (inside : form.stage = .body) (some_ : form.delimiter ≠ [])
    (scanned : form.Scanned) :
  match form.skipPart with
  | .ok form' =>
      (∃ before, Search.cut form.delimiter form.left = some (before, form'.left)) ∧
        form.Onward form' ∧ form'.stage = .delimited
  | .error _ => Search.cut form.delimiter form.left = none
  := by
  fun_induction skipPart form with
  | case1 form message eq =>
    have spec := readPart_spec rfl inside some_ (by nofun : formRead ≠ 0) scanned
    rw [eq] at spec
    apply spec
  | case2 form piece form' eq ih =>
    have spec := readPart_spec rfl inside some_ (by nofun : formRead ≠ 0) scanned
    rw [eq] at spec
    have onward := spec.onward
    have ih' := ih spec.stage (by rw [onward.delimiter]; apply some_) spec.scanned
    rw [onward.delimiter] at ih'
    rw [spec.cut_eq]
    split at ih'
    next last skip_eq =>
      obtain ⟨⟨before, cut_eq⟩, onward', stage⟩ := ih'
      refine ⟨⟨piece ++ before, ?_⟩, onward.trans onward', stage⟩
      rw [cut_eq]
      rfl
    next =>
      rw [ih']
      rfl
  | case3 form form' eq =>
    have spec := readPart_spec rfl inside some_ (by nofun : formRead ≠ 0) scanned
    rw [eq] at spec
    obtain ⟨cut_eq, stage, onward⟩ := spec
    exact ⟨⟨[], cut_eq⟩, onward, stage⟩

/-! ### A part's head -/

theorem headerOf_eq_none_iff (decode : Bytes → Text) (line : Bytes) :
  headerOf decode line = none ↔ 58 ∉ line
  := by
  rw [headerOf, Option.map_eq_none_iff, findBytes, if_neg (Nat.not_lt_zero _),
    Option.map_eq_none_iff, drop_zero, find_eq_none_iff (cons_ne_nil _ _)]
  constructor
  · intro none_ mem
    obtain ⟨before, rest, rfl⟩ := append_of_mem mem
    apply none_ before.length
    rw [drop_left]
    use rest
    rfl
  · rintro absent i ⟨rest, eq⟩
    apply absent
    apply mem_of_mem_drop (i := i)
    rw [← eq]
    apply mem_cons_self

/-- The bytes of some header lines with their line ends. -/
def spentBy (lines : List Bytes) : ℕ :=
  (lines.map fun line => line.length + 2).sum

theorem readHead_ok (decode : Bytes → Text) {headers : List (Text × Text)}
    (h : form.readHead decode spent = .ok (headers, form')) :
  (∃ lines, headLines spent form.left = some (lines, form'.left) ∧
    headers = lines.filterMap (headerOf decode)) ∧ form.Onward form' ∧ form'.stage = form.stage
  := by
  fun_induction readHead decode form spent generalizing headers with
  | case1 => cases h
  | case2 form spent line form₁ eq empty =>
    cases h
    obtain ⟨cut_eq, le, onward, stage⟩ := readLine_ok eq
    refine ⟨⟨[], ?_, rfl⟩, onward, stage⟩
    rw [length_eq_zero_iff] at empty
    rw [headLines.eq_def, cut_eq]
    dsimp only
    rw [if_neg (by omega), if_pos empty]
  | case3 => cases h
  | case4 form spent line form₁ eq some_ header header_eq ih =>
    obtain ⟨cut_eq, le, onward, stage⟩ := readLine_ok eq
    cases rest_eq : form₁.readHead decode (spent + line.length + 2) with
    | error message =>
      rw [rest_eq] at h
      cases h
    | ok rest =>
      obtain ⟨headers', form₂⟩ := rest
      rw [rest_eq] at h
      cases h
      obtain ⟨⟨lines, lines_eq, rfl⟩, onward', stage'⟩ := ih rest_eq
      refine ⟨⟨line :: lines, ?_, ?_⟩, onward.trans onward', stage'.trans stage⟩
      · have colon : 58 ∈ line := by
          by_contra absent
          rw [(headerOf_eq_none_iff decode line).mpr absent] at header_eq
          cases header_eq
        rw [length_eq_zero_iff] at some_
        rw [headLines.eq_def, cut_eq]
        dsimp only
        rw [if_neg (by omega), if_neg some_, if_pos colon, lines_eq]
        rfl
      · rw [filterMap_cons_some header_eq]

theorem readHead_cursor (decode : Bytes → Text) {headers : List (Text × Text)}
    (h : form.readHead decode spent = .ok (headers, form')) :
  form'.cursor ≤ form'.buffer.length
  := by
  fun_induction readHead decode form spent generalizing headers with
  | case1 => cases h
  | case2 form spent line form₁ eq empty =>
    cases h
    apply readLine_cursor eq
  | case3 => cases h
  | case4 form spent line form₁ eq some_ header header_eq ih =>
    cases rest_eq : form₁.readHead decode (spent + line.length + 2) with
    | error message =>
      rw [rest_eq] at h
      cases h
    | ok rest =>
      rw [rest_eq] at h
      cases h
      apply ih rest_eq

/-- Past the budget there is no head. -/
theorem headLines_of_lt (bytes : Bytes) (lt : maxPartHead < spent) :
  headLines spent bytes = none
  := by
  rw [headLines.eq_def]
  split
  next => rfl
  next => rw [if_pos (by omega)]

theorem readHead_error (decode : Bytes → Text) (h : form.readHead decode spent = .error message) :
  headLines spent form.left = none ∨
    ∃ lines rest, headLines spent form.left = some (lines, rest) ∧
      spent + spentBy lines = maxPartHead
  := by
  fun_induction readHead decode form spent generalizing message with
  | case1 form spent message' eq =>
    obtain none_ | ⟨line, rest, cut_eq, le⟩ := readLine_error eq
    · left
      rw [headLines.eq_def, none_]
    · by_cases exact_ : spent + line.length = maxPartHead
      · by_cases empty : line = []
        · right
          subst empty
          rw [headLines.eq_def, cut_eq]
          dsimp only
          rw [if_neg (by omega), if_pos rfl]
          refine ⟨[], rest, rfl, ?_⟩
          apply exact_
        · left
          rw [headLines.eq_def, cut_eq]
          dsimp only
          rw [if_neg (by omega), if_neg empty, headLines_of_lt rest (by omega)]
          split <;> rfl
      · left
        rw [headLines.eq_def, cut_eq]
        dsimp only
        rw [if_pos (by omega)]
  | case2 => cases h
  | case3 form spent line form₁ eq some_ header_eq =>
    left
    obtain ⟨cut_eq, le, _⟩ := readLine_ok eq
    have absent := (headerOf_eq_none_iff decode line).mp header_eq
    rw [length_eq_zero_iff] at some_
    rw [headLines.eq_def, cut_eq]
    dsimp only
    rw [if_neg (by omega), if_neg some_, if_neg absent]
  | case4 form spent line form₁ eq some_ header header_eq ih =>
    obtain ⟨cut_eq, le, _⟩ := readLine_ok eq
    have colon : 58 ∈ line := by
      by_contra absent
      rw [(headerOf_eq_none_iff decode line).mpr absent] at header_eq
      cases header_eq
    rw [length_eq_zero_iff] at some_
    rw [headLines.eq_def, cut_eq]
    dsimp only
    rw [if_neg (by omega), if_neg some_, if_pos colon]
    cases rest_eq : form₁.readHead decode (spent + line.length + 2) with
    | error message' =>
      obtain none_ | ⟨lines, rest, lines_eq, spent_eq⟩ := ih rest_eq
      · left
        rw [none_]
        rfl
      · right
        rw [lines_eq]
        refine ⟨line :: lines, rest, rfl, ?_⟩
        rw [spentBy] at spent_eq ⊢
        rw [map_cons, sum_cons]
        omega
    | ok rest =>
      rw [rest_eq] at h
      cases h

end Multipart

end Vilan.Http
