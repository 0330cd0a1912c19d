import Mathlib
import Vilan.Library.Search
import Vilan.Http.Head

/-!
# Forms off the body stream

A `multipart/form-data` body is read part by part off the stream of the body.  What is held is a
window on the stream, `buffer` from `cursor` on: the bytes that are read and not yet decided.  A
part's bytes are handed out of it up to the next delimiter, or up to the last bytes that could be
the start of one.
-/

namespace Vilan.Http

open List Option

/-- How much of the body a form reads at a time while it looks for a part's head or skips a part. -/
def formRead : ℕ := 65536

/-- The longest head one part may carry. -/
def maxPartHead : ℕ := 65536

/-- The bytes of a line end. -/
def lineEnd : Bytes := [carriageReturn, lineFeed]

/-- A body that is read a piece at a time, with the pieces that it arrives in. -/
structure BodyReader where
  pieces : List Bytes
  arrived : ∀ piece ∈ pieces, piece ≠ []

/-- A size of 0 is read as 1. -/
def wanted (size : ℕ) : ℕ :=
  if size = 0 then 1 else size

theorem wanted_ne_zero (size : ℕ) : wanted size ≠ 0 := by
  rw [wanted]
  split
  next => nofun
  next some_ => apply some_

namespace BodyReader

/-- What of the body has not been read. -/
def left (body : BodyReader) : Bytes :=
  body.pieces.flatten

/-- The next piece of the body: at most so many bytes, and at least one while it lasts. -/
def next : BodyReader → ℕ → Option (Bytes × BodyReader)
  | ⟨[], _⟩, _ => none
  | ⟨piece :: pieces, arrived⟩, size =>
      if h : piece.length ≤ wanted size then
        some (piece, ⟨pieces, fun piece mem => arrived piece (mem_cons_of_mem _ mem)⟩)
      else
        some
          ( piece.take (wanted size),
            ⟨piece.drop (wanted size) :: pieces, by
              rw [forall_mem_cons]
              constructor
              · rw [ne_eq, drop_eq_nil_iff]
                apply h
              · intro piece mem
                apply arrived piece (mem_cons_of_mem _ mem)⟩ )

theorem next_none {body : BodyReader} {size : ℕ} (h : body.next size = none) : body.left = [] := by
  obtain ⟨pieces, arrived⟩ := body
  cases pieces with
  | nil => rfl
  | cons piece pieces =>
    rw [next] at h
    split at h <;> cases h

/-- A piece is not empty, and what is behind it is left. -/
theorem next_some {body body' : BodyReader} {size : ℕ} {piece : Bytes}
    (h : body.next size = some (piece, body')) :
  piece ≠ [] ∧ body.left = piece ++ body'.left
  := by
  obtain ⟨pieces, arrived⟩ := body
  cases pieces with
  | nil => cases h
  | cons first pieces =>
    rw [next] at h
    split at h
    next =>
      cases h
      constructor
      · apply arrived _ mem_cons_self
      · rfl
    next more =>
      cases h
      constructor
      · rw [ne_eq, take_eq_nil_iff, not_or]
        constructor
        · apply wanted_ne_zero
        · apply arrived _ mem_cons_self
      · rw [left, left, flatten_cons, flatten_cons, ← append_assoc, take_append_drop]

end BodyReader

/-- Where a needle next occurs in a haystack at or after an index. -/
def findBytes (haystack needle : Bytes) (start : ℕ) : Option ℕ :=
  if haystack.length < start then none
  else (Search.find needle (haystack.drop start)).map (start + ·)

/-- The bytes of a buffer from one index to another. -/
def slice (buffer : Bytes) (start stop : ℕ) : Bytes :=
  (buffer.take stop).drop start

/-- Where a form's reading stands. -/
inductive FormStage where
  /-- Before the first delimiter: the preamble, which is discarded. -/
  | preamble
  /-- Just past a delimiter: the rest of its line says what follows. -/
  | delimited
  /-- Inside a part's bytes. -/
  | body
  /-- Past the closing delimiter. -/
  | done
  deriving DecidableEq

structure Multipart where
  body : BodyReader
  /-- What ends a preamble or a part. -/
  delimiter : Bytes
  boundary : Text
  buffer : Bytes
  cursor : ℕ
  /-- How far the window is known to hold no start of a delimiter. -/
  edge : ℕ
  /-- Whether a delimiter starts at the edge. -/
  delimited : Bool
  stage : FormStage
  /-- The number of the current part. -/
  part : ℕ

/-- One part of a form, with the number its reader has. -/
structure Part where
  name : Text
  filename : Option (Text)
  contentType : Text
  /-- Its headers, by their names in lower case, in their order. -/
  headers : List (Text × Text)
  index : ℕ
  deriving DecidableEq

/-! ### Header parameters -/

/-- A quoted value up to its closing quote, unescaped, and what follows from there. -/
def quoted : Text → Text × Text
  | [] => ([], [])
  | '"' :: rest => ([], '"' :: rest)
  | '\\' :: c :: rest => (c :: (quoted rest).1, (quoted rest).2)
  | c :: rest => (c :: (quoted rest).1, (quoted rest).2)

theorem quoted_length_le (text : Text) : (quoted text).2.length ≤ text.length := by
  fun_induction quoted text <;> simp only [length_cons, length_nil] <;> omega

/-- The value of a parameter, from behind its `=`, and what follows from the next `;` on. -/
def parameterValue (text : Text) : Text × Text :=
  match text.dropWhile (· = ' ') with
  | '"' :: text => ((quoted text).1, (quoted text).2.dropWhile (· ≠ ';'))
  | text => (trim (text.takeWhile (· ≠ ';')), text.dropWhile (· ≠ ';'))

theorem dropWhile_length_le (p : Char → Bool) (text : Text) :
  (text.dropWhile p).length ≤ text.length
  := (dropWhile_suffix p).length_le

theorem parameterValue_length_le (text : Text) : (parameterValue text).2.length ≤ text.length := by
  have le := dropWhile_length_le (· = ' ') text
  rw [parameterValue]
  split
  next inner eq =>
    rw [eq, length_cons] at le
    have le' := dropWhile_length_le (· ≠ ';') (quoted inner).2
    have le'' := quoted_length_le inner
    dsimp only
    omega
  next =>
    apply (dropWhile_length_le _ _).trans le

/-- The parameters from a `;` on. -/
def parametersFrom : Text → List (Text × Text)
  | [] => []
  | _ :: rest =>
      let name := toAsciiLowercase (trim (rest.takeWhile fun c => c ≠ '=' && c ≠ ';'))
      match _h : rest.dropWhile fun c => c ≠ '=' && c ≠ ';' with
      | '=' :: behind =>
          (name, (parameterValue behind).1) :: parametersFrom (parameterValue behind).2
      | behind => if name = [] then parametersFrom behind else (name, []) :: parametersFrom behind
termination_by text => text.length
decreasing_by
  · have le := dropWhile_length_le (fun c => c ≠ '=' && c ≠ ';') rest
    rw [_h, length_cons] at le
    have le' := parameterValue_length_le behind
    rw [length_cons]
    omega
  all_goals
    have le := dropWhile_length_le (fun c => c ≠ '=' && c ≠ ';') rest
    rw [_h] at le
    apply Nat.lt_succ_of_le le

/-- The parameters of a header value after its first `;`, with their names in lower case and their
values unquoted. -/
def headerParameters (value : Text) : List (Text × Text) :=
  parametersFrom (value.dropWhile (· ≠ ';'))

/-! ### Reading -/

namespace Multipart

/-- A form of a body under the boundary of the request's content type. -/
def new (boundary : Text) (body : BodyReader) : Multipart where
  body := body
  delimiter := lineEnd ++ [45, 45] ++ Utf8.encode boundary
  boundary := boundary
  -- the first delimiter may open the body: one line end is read as if it had been there
  buffer := lineEnd
  cursor := 0
  edge := 0
  delimited := false
  stage := .preamble
  part := 0

/-- The bytes that are not decided yet. -/
def left (form : Multipart) : Bytes :=
  form.buffer.drop form.cursor ++ form.body.left

/-- The refusal of a malformed form, which ends the handler. -/
def refuse {α : Type*} (message : String) : Except String α :=
  .error ("malformed multipart/form-data: " ++ message)

/-- Up to so many more bytes of the body on the window, without what is decided, unless the body has
ended. -/
def fill (form : Multipart) (size : ℕ) : Option Multipart :=
  (form.body.next size).map fun (piece, body) =>
    { form with
      body := body
      buffer := slice form.buffer form.cursor form.buffer.length ++ piece
      cursor := 0
      edge := 0
      delimited := false }

variable {size : ℕ} {form form' : Multipart} {needle : Bytes}

theorem fill_some (h : form.fill size = some form') :
  ∃ piece, piece ≠ [] ∧ form.body.left = piece ++ form'.body.left ∧
    form' =
      { form with
        body := form'.body
        buffer := form.buffer.drop form.cursor ++ piece
        cursor := 0
        edge := 0
        delimited := false }
  := by
  rw [fill, map_eq_some_iff] at h
  obtain ⟨⟨piece, body⟩, next, rfl⟩ := h
  obtain ⟨some_, eq⟩ := BodyReader.next_some next
  refine ⟨piece, some_, eq, ?_⟩
  rw [slice, take_length]

theorem fill_none (h : form.fill size = none) :
  form.body.left = []
  := by
  rw [fill, map_eq_none_iff] at h
  apply BodyReader.next_none h

theorem fill_shrinks (h : form.fill size = some form') :
  form'.body.left.length < form.body.left.length
  := by
  obtain ⟨piece, some_, eq, _⟩ := fill_some h
  rw [eq, length_append]
  have pos := length_pos_iff.mpr some_
  omega

/-- Read and discard the preamble. -/
def skipPreamble (form : Multipart) : Except String Multipart :=
  match findBytes form.buffer form.delimiter form.cursor with
  | some found =>
      .ok { form with cursor := found + form.delimiter.length, stage := .delimited }
  | none =>
      let keep := form.delimiter.length - 1
      let cursor :=
        if keep < form.buffer.length ∧ form.cursor < form.buffer.length - keep then
          form.buffer.length - keep
        else form.cursor
      match _h : { form with cursor := cursor }.fill formRead with
      | some filled => skipPreamble filled
      | none => refuse ("the body has no `--" ++ String.ofList form.boundary ++ "` delimiter")
termination_by form.body.left.length
decreasing_by apply fill_shrinks _h

/-- The body ended before the closing delimiter. -/
def refuseUnterminated {α : Type*} (form : Multipart) : Except String α :=
  refuse ("the body ended before the closing `--" ++ String.ofList form.boundary ++ "--` delimiter")

/-- One line of a part's head, or the delimiter's line, without its line end, if it is within a
budget. -/
def readLine (form : Multipart) (budget : ℤ) : Except String (Bytes × Multipart) :=
  match findBytes form.buffer lineEnd form.cursor with
  | some found =>
      if budget < ((found - form.cursor : ℕ) : ℤ) then tooLong
      else .ok (slice form.buffer form.cursor found, { form with cursor := found + 2 })
  | none =>
      if budget < ((form.buffer.length - form.cursor : ℕ) : ℤ) then tooLong
      else
        match _h : form.fill formRead with
        | some filled => readLine filled budget
        | none => form.refuseUnterminated
termination_by form.body.left.length
decreasing_by apply fill_shrinks _h
where
  tooLong : Except String (Bytes × Multipart) :=
    refuse ("a part's head is longer than " ++ toString maxPartHead ++ " bytes")

/-- The next piece of a part: at most so many bytes of it, and none at its delimiter, or once the
form has moved past the part. -/
def readPart (form : Multipart) (index size : ℕ) : Except String (Option Bytes × Multipart) :=
  if form.part ≠ index ∨ form.stage ≠ .body then .ok (none, form)
  else
    let reach := form.delimiter.length
    if form.cursor < form.edge then
      let stop := if form.edge - form.cursor < size then form.edge else form.cursor + size
      .ok (some (slice form.buffer form.cursor stop), { form with cursor := stop })
    else if form.delimited then
      .ok
        ( none,
          { form with
            cursor := form.edge + reach
            delimited := false
            stage := .delimited } )
    else
      match findBytes form.buffer form.delimiter form.cursor with
      | some found => readPart { form with edge := found, delimited := true } index size
      | none =>
          -- the last bytes might start a delimiter, and wait for more
          if reach ≤ form.buffer.length ∧ form.cursor < form.buffer.length - (reach - 1) then
            readPart { form with edge := form.buffer.length - (reach - 1) } index size
          else
            match _h : form.fill size with
            | some filled => readPart filled index size
            | none => form.refuseUnterminated
termination_by (form.body.left.length, if form.cursor < form.edge ∨ form.delimited then 0 else 1)
decreasing_by
  · apply Prod.Lex.right
    rw [if_pos (.inr trivial), if_neg (by simp_all)]
    apply Nat.zero_lt_one
  · rename_i more
    apply Prod.Lex.right
    rw [if_pos (.inl more.2), if_neg (by simp_all)]
    apply Nat.zero_lt_one
  · apply Prod.Lex.left
    apply fill_shrinks _h

/-! ### What a read leaves -/

theorem findBytes_some {haystack : Bytes} {start found : ℕ}
    (h : findBytes haystack needle start = some found) :
  ∃ e, found = start + e ∧ start ≤ haystack.length ∧
    Search.find needle (haystack.drop start) = some e
  := by
  rw [findBytes] at h
  split at h
  next => cases h
  next le =>
    obtain ⟨e, eq, rfl⟩ := map_eq_some_iff.mp h
    exact ⟨e, rfl, Nat.not_lt.mp le, eq⟩

theorem findBytes_none {haystack : Bytes} {start : ℕ} (some_ : needle ≠ [])
    (h : findBytes haystack needle start = none) :
  Search.find needle (haystack.drop start) = none
  := by
  rw [findBytes] at h
  split at h
  next lt =>
    rw [drop_of_length_le (Nat.le_of_lt lt), Search.find, if_neg some_]
  next => apply map_eq_none_iff.mp h

theorem slice_eq (buffer : Bytes) (start count : ℕ) :
  slice buffer start (start + count) = (buffer.drop start).take count
  := by
  rw [slice, drop_take, Nat.add_sub_cancel_left]

/-- The bytes that are read and not decided. -/
def window (form : Multipart) : Bytes :=
  form.buffer.drop form.cursor

theorem left_eq (form : Multipart) : form.left = form.window ++ form.body.left := rfl

/-- What a form keeps while it reads on. -/
structure Onward (form form' : Multipart) : Prop where
  delimiter : form'.delimiter = form.delimiter
  boundary : form'.boundary = form.boundary
  part : form'.part = form.part

theorem Onward.trans {form'' : Multipart} (h : form.Onward form') (h' : form'.Onward form'') :
  form.Onward form''
  := ⟨h'.1.trans h.1, h'.2.trans h.2, h'.3.trans h.3⟩

/-- A fill moves bytes of the body into the window. -/
theorem fill_left {filled : Multipart} (h : form.fill size = some filled) :
  filled.left = form.left ∧ form.Onward filled ∧ filled.stage = form.stage
  := by
  obtain ⟨piece, _, eq, same⟩ := fill_some h
  refine ⟨?_, ?_, ?_⟩
  · rw [left, left, eq, same]
    simp
  · rw [same]
    constructor <;> rfl
  · rw [same]

/-- A needle that is found in the window is the first one of what is left. -/
theorem cut_of_find {e : ℕ} (h : Search.find needle form.window = some e) :
  Search.cut needle form.left =
    some (form.window.take e, form.window.drop (e + needle.length) ++ form.body.left)
  := by
  rw [left_eq]
  apply Search.cut_append
  rw [Search.cut, h, map_some]

theorem lineEnd_ne : lineEnd ≠ [] := by nofun

/-- A line that is read is the first one of what is left, and within the budget. -/
theorem readLine_ok {budget : ℤ} {line : Bytes} (h : form.readLine budget = .ok (line, form')) :
  Search.cut lineEnd form.left = some (line, form'.left) ∧ line.length ≤ budget ∧
    form.Onward form' ∧ form'.stage = form.stage
  := by
  fun_induction readLine form budget with
  | case1 => cases h
  | case2 form found eq within =>
    cases h
    obtain ⟨e, rfl, le, find_eq⟩ := findBytes_some eq
    have cut_eq := cut_of_find find_eq
    obtain ⟨le', _⟩ := Search.find_eq_some_iff.mp find_eq
    rw [slice_eq]
    refine ⟨?_, ?_, ⟨rfl, rfl, rfl⟩, rfl⟩
    · rw [cut_eq, left, window, drop_drop]
      rfl
    · rw [length_take, Nat.min_eq_left le']
      rw [Nat.add_sub_cancel_left] at within
      omega
  | case3 => cases h
  | case4 form eq within filled fill_eq ih =>
    obtain ⟨cut_eq, le, onward, stage_eq⟩ := ih h
    obtain ⟨left_eq, onward', stage_eq'⟩ := fill_left fill_eq
    rw [left_eq] at cut_eq
    exact ⟨cut_eq, le, onward'.trans onward, stage_eq.trans stage_eq'⟩
  | case5 => cases h

theorem readLine_shrinks {budget : ℤ} {line : Bytes}
    (h : form.readLine budget = .ok (line, form')) :
  form'.left.length < form.left.length
  := by
  obtain ⟨eq, _⟩ := Search.cut_eq_some_iff.mp (readLine_ok h).1
  rw [eq, length_append, length_append]
  simp [lineEnd]
  omega

/-- What is left to read of the window and of the body. -/
def remaining (form : Multipart) : ℕ ×ₗ ℕ :=
  toLex (form.body.left.length, max form.edge form.buffer.length - form.cursor)

theorem remaining_le_of_edge (form : Multipart) {edge : ℕ} (le : edge ≤ form.buffer.length)
    (delimited : Bool) :
  { form with edge := edge, delimited := delimited }.remaining ≤ form.remaining
  := by
  rw [remaining, remaining, Prod.Lex.toLex_le_toLex]
  right
  dsimp only
  refine ⟨rfl, ?_⟩
  omega

/-- A piece that is handed out leaves less. -/
theorem readPart_shrinks {index : ℕ} {piece : Bytes} (some_ : size ≠ 0)
    (h : form.readPart index size = .ok (some piece, form')) :
  form'.remaining < form.remaining
  := by
  fun_induction readPart form index size with
  | case1 => cases h
  | case2 form _ lt stop =>
    cases h
    rw [remaining, remaining, Prod.Lex.toLex_lt_toLex]
    right
    refine ⟨rfl, ?_⟩
    dsimp only [stop]
    split <;> omega
  | case3 => cases h
  | case4 form _ _ _ found eq ih =>
    obtain ⟨e, rfl, _, find_eq⟩ := findBytes_some eq
    obtain ⟨le, _⟩ := Search.find_eq_some_iff.mp find_eq
    rw [length_drop] at le
    apply lt_of_lt_of_le (ih h)
    apply remaining_le_of_edge
    omega
  | case5 form _ _ _ _ _ more ih =>
    apply lt_of_lt_of_le (ih h)
    apply remaining_le_of_edge
    apply Nat.sub_le
  | case6 form _ _ _ _ _ _ filled fill_eq ih =>
    apply (ih h).trans
    rw [remaining, remaining, Prod.Lex.toLex_lt_toLex]
    left
    apply fill_shrinks fill_eq
  | case7 => cases h

/-- Read and discard the rest of the current part, up to its delimiter. -/
def skipPart (form : Multipart) : Except String Multipart :=
  match _h : form.readPart form.part formRead with
  | .error message => .error message
  | .ok (some _, form) => skipPart form
  | .ok (none, form) => .ok form
termination_by form.remaining
decreasing_by
  apply readPart_shrinks _ _h
  nofun

/-- The name and the value of a header line, unless it has no colon. -/
def headerOf (decode : Bytes → Text) (line : Bytes) : Option (Text × Text) :=
  (findBytes line [58] 0).map fun colon =>
    ( toAsciiLowercase (trim (decode (slice line 0 colon))),
      trim (decode (slice line (colon + 1) line.length)) )

/-- The header lines of a part's head, up to an empty one. -/
def readHead (decode : Bytes → Text) (form : Multipart) (spent : ℕ) :
    Except String (List (Text × Text) × Multipart) :=
  match _h : form.readLine (maxPartHead - spent) with
  | .error message => .error message
  | .ok (line, form) =>
      if line.length = 0 then .ok ([], form)
      else
        match headerOf decode line with
        | none => refuse ("a part header has no colon: `" ++ String.ofList (decode line) ++ "`")
        | some header => do
            let (headers, form) ← readHead decode form (spent + line.length + 2)
            .ok (header :: headers, form)
termination_by form.left.length
decreasing_by apply readLine_shrinks _h

/-- The part that some headers describe. -/
def describe (headers : List (Text × Text)) (index : ℕ) : Part :=
  headers.foldl
    (fun part (known, value) =>
      if known = "content-disposition".toList then
        (headerParameters value).foldl
          (fun part (name, value) =>
            if name = "name".toList then { part with name := value }
            else if name = "filename".toList then { part with filename := some value }
            else part)
          part
      else if known = "content-type".toList then { part with contentType := value }
      else part)
    ⟨[], none, "text/plain".toList, headers, index⟩

/-- The next part, with its head read, and none once the closing delimiter has been read. -/
def nextPart (decode : Bytes → Text) (form : Multipart) :
    Except String (Option Part × Multipart) := do
  let form ←
    match form.stage with
    | .body => skipPart form
    | .preamble => skipPreamble form
    | _ => .ok form
  if form.stage = .done then .ok (none, form)
  else
    let (after, form) ← form.readLine maxPartHead
    if after.take 2 = [45, 45] then .ok (none, { form with stage := .done })
    else if after.any fun byte => byte ≠ 32 && byte ≠ 9 then
      refuse
        ("a delimiter line carries `" ++ String.ofList (decode after) ++ "` after `--" ++
          String.ofList form.boundary ++ "`, where only `--` or the line end may follow")
    else
      let (headers, form) ← form.readHead decode 0
      .ok
        ( some (describe headers (form.part + 1)),
          { form with
            part := form.part + 1
            stage := .body
            edge := form.cursor
            delimited := false } )

/-- What a handler asks of a form. -/
inductive Call where
  | nextPart
  /-- So many bytes of the reader of a part. -/
  | next (index size : ℕ)

/-- What it is answered. -/
inductive Answer where
  | part (part : Part)
  | noPart
  | piece (bytes : Bytes)
  | ended
  | refused (message : String)

/-- One call. -/
def answer (decode : Bytes → Text) (form : Multipart) : Call → Except String (Answer × Multipart)
  | .nextPart => do
      match ← form.nextPart decode with
      | (some part, form) => .ok (.part part, form)
      | (none, form) => .ok (.noPart, form)
  | .next index size => do
      match ← form.readPart index (wanted size) with
      | (some bytes, form) => .ok (.piece bytes, form)
      | (none, form) => .ok (.ended, form)

/-- The answers of a handler's calls.  A refusal ends the handler. -/
def handle (decode : Bytes → Text) : Multipart → List Call → List (Call × Answer)
  | _, [] => []
  | form, call :: calls =>
      match form.answer decode call with
      | .error message => [(call, .refused message)]
      | .ok (answer, form) => (call, answer) :: handle decode form calls

end Multipart

end Vilan.Http
