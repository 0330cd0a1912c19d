import Vilan.Http.MultipartRuns

/-!
# Forms that arrive byte by byte

A body that arrives a byte at a time is refused at every head that is as long as a head can be: the
window holds the first half of a line end, which is then counted as a byte of the line.
-/

namespace Vilan.Http.Multipart

open List

/-- Every piece of the body is one byte. -/
def Drips (form : Multipart) : Prop :=
  ∀ piece ∈ form.body.pieces, piece.length = 1

variable {form form' : Multipart} {needle line : Bytes}

theorem fill_drips {filled : Multipart} {size : ℕ} (drips : form.Drips)
    (h : form.fill size = some filled) :
  filled.Drips ∧ ∃ byte, filled.window = form.window ++ [byte]
  := by
  obtain ⟨body, delimiter, boundary, buffer, cursor, edge, delimited, stage, part⟩ := form
  obtain ⟨pieces, arrived⟩ := body
  rw [fill, Option.map_eq_some_iff] at h
  obtain ⟨⟨piece, body'⟩, next_eq, rfl⟩ := h
  cases pieces with
  | nil => cases next_eq
  | cons first pieces =>
    have one : first.length = 1 := drips first mem_cons_self
    rw [BodyReader.next, dif_pos (by
      rw [one]
      apply Nat.one_le_iff_ne_zero.mpr (wanted_ne_zero size))] at next_eq
    cases next_eq
    constructor
    · intro piece mem
      apply drips piece (mem_cons_of_mem _ mem)
    · obtain ⟨byte, rfl⟩ := length_eq_one_iff.mp one
      use byte
      rw [window, slice, take_length]
      rfl

/-- A window that can only end with a needle. -/
def EndsWith (needle window : Bytes) : Prop :=
  ∀ e, Search.find needle window = some e → e + needle.length = window.length

theorem endsWith_nil (some_ : needle ≠ []) : EndsWith needle [] := by
  intro e found
  rw [Search.find, if_neg some_] at found
  cases found

theorem endsWith_concat {window : Bytes} (some_ : needle ≠ [])
    (none_ : Search.find needle window = none) (byte : UInt8) :
  EndsWith needle (window ++ [byte])
  := by
  intro e found
  rw [Search.find_concat some_ none_ found, length_append, length_singleton]

theorem find_drop {window : Bytes} (some_ : needle ≠ []) (none_ : Search.find needle window = none)
    (count : ℕ) :
  Search.find needle (window.drop count) = none
  := by
  rw [Search.find_eq_none_iff some_] at none_ ⊢
  intro i
  rw [drop_drop]
  apply none_

theorem window_length (form : Multipart) :
  form.window.length = form.buffer.length - form.cursor
  := length_drop

/-! ### A line -/

theorem readLine_drips {budget : ℤ} (drips : form.Drips) (ends : EndsWith lineEnd form.window)
    (h : form.readLine budget = .ok (line, form')) :
  form'.window = [] ∧ form'.Drips
  := by
  fun_induction readLine form budget with
  | case1 => cases h
  | case2 form found eq within =>
    cases h
    obtain ⟨e, rfl, le, find_eq⟩ := findBytes_some eq
    have length_eq := ends e find_eq
    rw [window_length] at length_eq
    simp only [lineEnd, length_cons, length_nil] at length_eq
    constructor
    · rw [window, drop_eq_nil_iff]
      dsimp only
      omega
    · apply drips
  | case3 => cases h
  | case4 form eq within filled fill_eq ih =>
    obtain ⟨drips', byte, window_eq⟩ := fill_drips drips fill_eq
    apply ih drips' _ h
    rw [window_eq]
    apply endsWith_concat lineEnd_ne (findBytes_none lineEnd_ne eq)
  | case5 => cases h

/-- A line that is as long as its budget is refused. -/
theorem readLine_full {budget : ℤ} {rest : Bytes} (drips : form.Drips)
    (none_ : Search.find lineEnd form.window = none)
    (cut_eq : Search.cut lineEnd form.left = some (line, rest)) (full : budget = line.length) :
  ∃ message, form.readLine budget = .error message
  := by
  fun_induction readLine form budget with
  | case1 => exact ⟨_, rfl⟩
  | case2 form found eq within =>
    obtain ⟨e, rfl, _, find_eq⟩ := findBytes_some eq
    rw [window, find_eq] at none_
    cases none_
  | case3 => exact ⟨_, rfl⟩
  | case4 form eq within filled fill_eq ih =>
    obtain ⟨drips', byte, window_eq⟩ := fill_drips drips fill_eq
    rw [← (fill_left fill_eq).1] at cut_eq
    cases find_eq : Search.find lineEnd filled.window with
    | none => apply ih drips' find_eq cut_eq
    | some e =>
      -- the line end is whole only now, so that half of it was in the window before
      have length_eq := endsWith_concat lineEnd_ne none_ byte e (window_eq ▸ find_eq)
      have cut_eq' := cut_of_find find_eq
      rw [cut_eq, Option.some_inj, Prod.mk.injEq] at cut_eq'
      have line_eq : line.length = e := by
        rw [cut_eq'.1, length_take, window_eq]
        omega
      rw [length_append, length_singleton, window_length] at length_eq
      simp only [lineEnd, length_cons, length_nil] at length_eq
      omega
  | case5 => exact ⟨_, rfl⟩

/-! ### A head -/

theorem find_nil (some_ : needle ≠ []) : Search.find needle [] = none := by
  rw [Search.find, if_neg some_]

theorem readHead_drips (decode : Bytes → Text) {spent : ℕ} {headers : List (Text × Text)}
    (drips : form.Drips) (empty : form.window = [])
    (h : form.readHead decode spent = .ok (headers, form')) :
  form'.window = [] ∧ form'.Drips
  := by
  have ends : ∀ {form : Multipart}, form.window = [] → EndsWith lineEnd form.window := by
    intro form empty
    rw [empty]
    apply endsWith_nil lineEnd_ne
  fun_induction readHead decode form spent generalizing headers with
  | case1 => cases h
  | case2 form spent line form₁ eq =>
    cases h
    apply readLine_drips drips (ends empty) eq
  | case3 => cases h
  | case4 form spent line form₁ eq some_ header header_eq ih =>
    obtain ⟨empty', drips'⟩ := readLine_drips drips (ends empty) eq
    cases rest_eq : form₁.readHead decode (spent + line.length + 2) with
    | error message =>
      rw [rest_eq] at h
      cases h
    | ok rest =>
      rw [rest_eq] at h
      cases h
      apply ih drips' empty' rest_eq

/-- A head whose lines are as long as they can be is refused. -/
theorem readHead_full (decode : Bytes → Text) {spent : ℕ} {lines : List Bytes} {rest : Bytes}
    (drips : form.Drips) (empty : form.window = [])
    (lines_eq : headLines spent form.left = some (lines, rest))
    (full : spent + spentBy lines = maxPartHead) :
  ∃ message, form.readHead decode spent = .error message
  := by
  fun_induction readHead decode form spent generalizing lines with
  | case1 => exact ⟨_, rfl⟩
  | case2 form spent line form₁ eq isEmpty =>
    obtain ⟨cut_eq, _⟩ := readLine_ok eq
    rw [length_eq_zero_iff] at isEmpty
    subst isEmpty
    have lines_nil : lines = [] := by
      rw [headLines.eq_def, cut_eq] at lines_eq
      dsimp only at lines_eq
      split at lines_eq
      next => cases lines_eq
      next =>
        rw [if_pos rfl] at lines_eq
        cases lines_eq
        rfl
    subst lines_nil
    have none_ : Search.find lineEnd form.window = none := by
      rw [empty]
      apply find_nil lineEnd_ne
    have budget_eq : (maxPartHead : ℤ) - spent = ([] : Bytes).length := by
      rw [spentBy, map_nil, sum_nil, Nat.add_zero] at full
      rw [full, length_nil]
      simp
    obtain ⟨message, error_eq⟩ := readLine_full drips none_ cut_eq budget_eq
    rw [error_eq] at eq
    cases eq
  | case3 => exact ⟨_, rfl⟩
  | case4 form spent line form₁ eq some_ header header_eq ih =>
    obtain ⟨cut_eq, _⟩ := readLine_ok eq
    obtain ⟨empty', drips'⟩ := readLine_drips drips
      (by rw [empty]; apply endsWith_nil lineEnd_ne) eq
    rw [length_eq_zero_iff] at some_
    rw [headLines.eq_def, cut_eq] at lines_eq
    dsimp only at lines_eq
    split at lines_eq
    next => cases lines_eq
    next =>
      split at lines_eq
      next =>
        obtain ⟨⟨lines', rest'⟩, lines_eq', same⟩ := Option.map_eq_some_iff.mp lines_eq
        cases same
        obtain ⟨message, error_eq⟩ := ih drips' empty' lines_eq' (by
          rw [spentBy, map_cons, sum_cons] at full
          rw [spentBy]
          dsimp only at full
          omega)
        rw [error_eq]
        exact ⟨_, rfl⟩
      next => cases lines_eq

/-! ### What is skipped -/

theorem skipPreamble_drips (drips : form.Drips) (some_ : form.delimiter ≠ [])
    (ends : EndsWith form.delimiter form.window) (h : form.skipPreamble = .ok form') :
  form'.window = [] ∧ form'.Drips
  := by
  fun_induction skipPreamble form with
  | case1 form found eq =>
    cases h
    obtain ⟨e, rfl, le, find_eq⟩ := findBytes_some eq
    have length_eq := ends e find_eq
    rw [window_length] at length_eq
    constructor
    · rw [window, drop_eq_nil_iff]
      dsimp only
      omega
    · apply drips
  | case2 form eq keep cursor filled fill_eq ih =>
    have drips_moved : { form with cursor := cursor }.Drips := drips
    obtain ⟨drips', byte, window_eq⟩ := fill_drips drips_moved fill_eq
    have onward := (fill_left fill_eq).2.1
    rw [onward.delimiter] at ih
    have later : form.cursor ≤ cursor := by
      dsimp only [cursor]
      split <;> omega
    have none_ : Search.find form.delimiter { form with cursor := cursor }.window = none := by
      have none_ := find_drop some_ (findBytes_none some_ eq) (cursor - form.cursor)
      rw [drop_drop, Nat.add_sub_cancel' later] at none_
      apply none_
    apply ih drips' some_ _ h
    rw [window_eq]
    apply endsWith_concat some_ none_
  | case3 => cases h

/-- A form inside a part, whose window is no longer than a delimiter. -/
structure Tight (form : Multipart) : Prop where
  drips : form.Drips
  ends : EndsWith form.delimiter form.window
  short : form.window.length ≤ form.delimiter.length
  edge : form.edge ≤ form.cursor ∨
    form.edge = form.cursor + 1 ∧ form.delimited = false ∧
      Search.find form.delimiter form.window = none
  delimited : form.delimited = true → form.edge = form.cursor ∧
    form.window.length = form.delimiter.length

theorem readPart_tight {index : ℕ} (current : form.part = index) (inside : form.stage = .body)
    (some_ : form.delimiter ≠ []) (tight : form.Tight) :
  match form.readPart index formRead with
  | .ok (some _, form') => form'.Tight
  | .ok (none, form') => form'.window = [] ∧ form'.Drips
  | .error _ => True
  := by
  have pos := length_pos_iff.mpr some_
  fun_induction readPart form index formRead with
  | case1 form other =>
    rw [current, inside] at other
    simp at other
  | case2 form _ lt stop =>
    obtain ⟨drips, ends, short, edge, delimited⟩ := tight
    obtain le | ⟨edge_eq, notDelimited, none_⟩ := edge
    · omega
    have stop_eq : stop = form.cursor + 1 := by
      dsimp only [stop]
      rw [edge_eq, Nat.add_sub_cancel_left, dif_pos (by decide)]
    have window_eq : { form with cursor := stop }.window = form.window.drop 1 := by
      rw [window, window, drop_drop, stop_eq]
    constructor
    · apply drips
    · rw [window_eq]
      intro e found
      rw [find_drop some_ none_ 1] at found
      cases found
    · rw [window_eq, length_drop]
      dsimp only
      omega
    · left
      dsimp only
      omega
    · intro delimited
      dsimp only at delimited
      rw [notDelimited] at delimited
      cases delimited
  | case3 form _ reach le isDelimited =>
    obtain ⟨edge_eq, length_eq⟩ := tight.delimited isDelimited
    rw [window_length] at length_eq
    constructor
    · rw [window, drop_eq_nil_iff]
      dsimp only [reach]
      omega
    · apply tight.drips
  | case4 form _ le notDelimited found eq ih =>
    obtain ⟨e, rfl, _, find_eq⟩ := findBytes_some eq
    have length_eq := tight.ends e find_eq
    have short := tight.short
    have zero : e = 0 := by omega
    subst zero
    apply ih current inside some_ _ pos
    constructor
    · apply tight.drips
    · apply tight.ends
    · apply short
    · left
      apply Nat.le_refl
    · intro _
      apply And.intro rfl
      rw [Nat.zero_add] at length_eq
      apply length_eq.symm
  | case5 form _ reach le notDelimited eq more ih =>
    have none_ := findBytes_none some_ eq
    have short := tight.short
    rw [window_length] at short
    apply ih current inside some_ _ pos
    constructor
    · apply tight.drips
    · apply tight.ends
    · apply tight.short
    · right
      refine ⟨?_, Bool.eq_false_iff.mpr notDelimited, none_⟩
      dsimp only [reach]
      dsimp only [reach] at more
      omega
    · intro delimited
      apply absurd delimited notDelimited
  | case6 form _ reach le notDelimited eq less filled fill_eq ih =>
    have none_ := findBytes_none some_ eq
    obtain ⟨drips', byte, window_eq⟩ := fill_drips tight.drips fill_eq
    obtain ⟨_, onward, stage_eq⟩ := fill_left fill_eq
    obtain ⟨piece, _, _, filled_eq⟩ := fill_some fill_eq
    have cursor_eq : filled.cursor = 0 ∧ filled.edge = 0 ∧ filled.delimited = false := by
      rw [filled_eq]
      exact ⟨rfl, rfl, rfl⟩
    obtain ⟨cursor_eq, edge_eq, delimited_eq⟩ := cursor_eq
    apply ih (onward.part.trans current) (stage_eq.trans inside)
      (by rw [onward.delimiter]; apply some_) _ (by rw [onward.delimiter]; apply pos)
    constructor
    · apply drips'
    · rw [window_eq, onward.delimiter]
      apply endsWith_concat some_ none_
    · rw [window_eq, onward.delimiter, length_append, length_singleton, window_length]
      dsimp only [reach] at less
      omega
    · left
      rw [edge_eq]
      apply Nat.zero_le
    · intro delimited
      rw [delimited_eq] at delimited
      cases delimited
  | case7 => trivial

theorem skipPart_drips (inside : form.stage = .body) (some_ : form.delimiter ≠ [])
    (scanned : form.Scanned) (tight : form.Tight) (h : form.skipPart = .ok form') :
  form'.window = [] ∧ form'.Drips
  := by
  fun_induction skipPart form with
  | case1 => cases h
  | case2 form piece form₁ eq ih =>
    have spec := readPart_spec rfl inside some_ (by decide : formRead ≠ 0) scanned
    have tight' := readPart_tight rfl inside some_ tight
    rw [eq] at spec tight'
    apply ih spec.stage _ spec.scanned tight' h
    rw [spec.onward.delimiter]
    apply some_
  | case3 form form₁ eq =>
    cases h
    have tight' := readPart_tight rfl inside some_ tight
    rw [eq] at tight'
    apply tight'

/-! ### The next part -/

variable (decode : Bytes → Text)

/-- What the next part of a dripping form leaves. -/
def DripNext (form : Multipart) : Except String (Option Part × Multipart) → Prop
  | .ok (_, form') =>
      ¬ form.ahead.Refusable ∧ form'.Drips ∧ (form'.stage = .body → form'.Tight)
  | .error _ => True

theorem nextPart_drips_delimited (stage : form.stage = .delimited) (some_ : form.delimiter ≠ [])
    (drips : form.Drips) (empty : form.window = []) :
  form.DripNext (form.nextPart decode)
  := by
  have ahead_eq : form.ahead = parts form.delimiter form.left := by rw [ahead, stage]
  rw [nextPart, stage]
  change DripNext form (if form.stage = .done then _ else _)
  rw [if_neg (by rw [stage]; decide)]
  cases line_eq : form.readLine maxPartHead with
  | error message => trivial
  | ok read =>
    obtain ⟨after, form₁⟩ := read
    obtain ⟨cut_eq, le, onward, stage_eq⟩ := readLine_ok line_eq
    obtain ⟨empty₁, drips₁⟩ := readLine_drips drips
      (by rw [empty]; apply endsWith_nil lineEnd_ne) line_eq
    have short : after.length ≠ maxPartHead := by
      intro full
      obtain ⟨message, error_eq⟩ := readLine_full drips
        (by rw [empty]; apply find_nil lineEnd_ne) cut_eq
        (show (maxPartHead : ℤ) = after.length by rw [full])
      rw [error_eq] at line_eq
      cases line_eq
    change DripNext form (if after.take 2 = [45, 45] then _ else _)
    have behind_eq : behind form.left = behindLine after form₁.left := by
      rw [behind, cut_eq]
    rw [behindLine, if_neg (by omega)] at behind_eq
    split at behind_eq
    next closing =>
      rw [if_pos closing]
      refine ⟨?_, drips₁, by intro done; cases done⟩
      rw [ahead_eq, parts_eq, behind_eq]
      apply short
    next closing =>
      rw [if_neg closing]
      split at behind_eq
      next carries =>
        rw [if_pos carries]
        trivial
      next carries =>
        rw [if_neg carries]
        cases head_eq : form₁.readHead decode 0 with
        | error message => trivial
        | ok read =>
          obtain ⟨headers, form₂⟩ := read
          obtain ⟨⟨lines, lines_eq, rfl⟩, onward', _⟩ := readHead_ok decode head_eq
          obtain ⟨empty₂, drips₂⟩ := readHead_drips decode drips₁ empty₁ head_eq
          have roomy : (⟨after, lines⟩ : RawHead).Roomy := by
            apply And.intro short
            intro full
            obtain ⟨message, error_eq⟩ := readHead_full decode drips₁ empty₁ lines_eq
              (by rw [Nat.zero_add, full])
            rw [error_eq] at head_eq
            cases head_eq
          have delimiter_eq : form₂.delimiter = form.delimiter := (onward.trans onward').delimiter
          refine ⟨?_, drips₂, ?_⟩
          · rw [ahead_eq, parts_eq, behind_eq, lines_eq]
            dsimp only
            intro refusable
            split at refusable
            next => apply refusable roomy
            next => apply refusable roomy
          · intro _
            have window_eq : ∀ (edge part : ℕ) (delimited : Bool) (stage : FormStage),
                { form₂ with
                  part := part
                  stage := stage
                  edge := edge
                  delimited := delimited }.window = [] :=
              fun _ _ _ _ => empty₂
            constructor
            · apply drips₂
            · rw [window_eq]
              apply endsWith_nil
              dsimp only
              rw [delimiter_eq]
              apply some_
            · rw [window_eq]
              apply Nat.zero_le
            · left
              apply Nat.le_refl
            · intro done
              cases done

theorem nextPart_drips (some_ : form.delimiter ≠ []) (drips : form.Drips)
    (start : form.stage = .preamble → EndsWith form.delimiter form.window)
    (inside : form.stage = .body → form.Scanned ∧ form.Tight)
    (between : form.stage = .preamble ∨ form.stage = .body) :
  form.DripNext (form.nextPart decode)
  := by
  have of_skipped : ∀ {skipped : Multipart} {before : Bytes},
      Search.cut form.delimiter form.left = some (before, skipped.left) → form.Onward skipped →
        skipped.stage = .delimited → skipped.window = [] → skipped.Drips →
          form.DripNext (skipped.nextPart decode) := by
    intro skipped before cut_eq onward delimited empty drips'
    have next := nextPart_drips_delimited decode delimited
      (by rw [onward.delimiter]; apply some_) drips' empty
    have ahead_eq := ahead_skipped between.symm cut_eq onward delimited
    cases next_eq : skipped.nextPart decode with
    | error message => trivial
    | ok read =>
      rw [next_eq] at next
      rw [DripNext, ahead_eq]
      apply next
  obtain stage | stage := between
  · cases skip_eq : form.skipPreamble with
    | ok skipped =>
      obtain ⟨⟨before, cut_eq⟩, onward, delimited⟩ := skipPreamble_ok some_ skip_eq
      obtain ⟨empty, drips'⟩ := skipPreamble_drips drips some_ (start stage) skip_eq
      rw [nextPart_skipped decode (.inr ⟨stage, skip_eq⟩) delimited]
      apply of_skipped cut_eq onward delimited empty drips'
    | error message =>
      rw [nextPart, stage]
      dsimp only
      rw [skip_eq]
      trivial
  · obtain ⟨scanned, tight⟩ := inside stage
    have spec := skipPart_spec stage some_ scanned
    cases skip_eq : form.skipPart with
    | ok skipped =>
      rw [skip_eq] at spec
      obtain ⟨⟨before, cut_eq⟩, onward, delimited⟩ := spec
      obtain ⟨empty, drips'⟩ := skipPart_drips stage some_ scanned tight skip_eq
      rw [nextPart_skipped decode (.inl ⟨stage, skip_eq⟩) delimited]
      apply of_skipped cut_eq onward delimited empty drips'
    | error message =>
      rw [nextPart, stage]
      dsimp only
      rw [skip_eq]
      trivial

/-- A handler that asks a dripping form for its parts is refused at the first head that is as long as
it can be. -/
theorem handle_drips (parsed : Parsed) (some_ : form.delimiter ≠ []) (drips : form.Drips)
    (start : form.stage = .preamble → EndsWith form.delimiter form.window)
    (inside : form.stage = .body → form.Scanned ∧ form.Tight)
    (between : form.stage = .preamble ∨ form.stage = .body) (ahead_eq : form.ahead = parsed)
    (full : ¬ parsed.Roomy) :
  ∃ count log message,
    form.handle decode (List.replicate (count + 1) .nextPart) =
      log ++ [(.nextPart, .refused message)] ∧
    (handed log).length = count ∧ parsed.drop count ≠ .refused
  := by
  induction size_eq : sizeOf parsed using Nat.strong_induction_on generalizing parsed form with
  | h size ih =>
  have next := nextPart_drips decode some_ drips start inside between
  have spec := nextPart_spec decode some_ fun body => (inside body).1
  cases next_eq : form.nextPart decode with
  | error message =>
    refine ⟨0, [], message, ?_, rfl, ?_⟩
    · rw [replicate_one, handle, answer, next_eq]
      rfl
    · rintro rfl
      apply full trivial
  | ok read =>
    obtain ⟨part, form'⟩ := read
    rw [next_eq] at next spec
    obtain ⟨notRefusable, drips', tight'⟩ := next
    rw [ahead_eq] at notRefusable
    cases part with
    | none =>
      obtain ⟨_, _, _, after, closed⟩ := spec
      rw [← ahead_eq, closed] at full notRefusable
      apply absurd notRefusable full
    | some part =>
      obtain ⟨head, _, _, delimiter_eq, opened⟩ := spec
      have parsed_eq := opened.parsed
      rw [ahead_eq] at parsed_eq
      have ahead_eq' := ahead_body opened.stage
      split at parsed_eq
      next cut_eq =>
        rw [parsed_eq] at full notRefusable
        apply absurd full notRefusable
      next content rest cut_eq =>
        rw [cut_eq] at ahead_eq'
        rw [parsed_eq] at full notRefusable
        have full' : ¬ (parts form'.delimiter rest).Roomy := by
          intro roomy
          apply full
          apply And.intro (not_not.mp notRefusable) roomy
        have notPreamble : form'.stage = .preamble → EndsWith form'.delimiter form'.window := by
          intro preamble
          rw [opened.stage] at preamble
          cases preamble
        have smaller : sizeOf (parts form'.delimiter rest) < size := by
          rw [← size_eq, parsed_eq, Parsed.part.sizeOf_spec]
          omega
        obtain ⟨count, log, message, handle_eq, length_eq, ne⟩ :=
          ih _ smaller _ (by rw [delimiter_eq]; apply some_) drips' notPreamble
            (fun body => ⟨opened.scanned, tight' body⟩) (.inr opened.stage) ahead_eq' full' rfl
        refine ⟨count + 1, (.nextPart, .part part) :: log, message, ?_, ?_, ?_⟩
        · have answer_eq : form.answer decode .nextPart = .ok (.part part, form') := by
            rw [answer, next_eq]
            rfl
          rw [replicate_succ, handle, answer_eq]
          dsimp only
          rw [handle_eq]
          rfl
        · rw [← length_eq]
          rfl
        · rw [parsed_eq]
          apply ne

/-! ### When a form does not see its pieces -/

/-- What a handler is answered by the form of a body that arrives in pieces. -/
def answers (boundary : Text) (body : BodyReader) (calls : List Call) : List (Call × Answer) :=
  (new boundary body).handle decode calls

theorem Stands.new (boundary : Text) (body : BodyReader) :
  Stands (parse boundary body.left) [] (new boundary body)
  := by
  constructor
  · simp [Multipart.new, lineEnd]
  · rfl
  · intro index _
    rfl
  · intro _
    exact ⟨rfl, rfl⟩
  · intro _
    rfl
  · intro started
    cases started
  · intro done
    cases done
  · intro done
    cases done

theorem handle_answered (form : Multipart) (calls : List Call) :
  (form.handle decode calls).map Prod.fst = calls ∨
    ∃ before call message, form.handle decode calls = before ++ [(call, .refused message)] ∧
      (form.handle decode calls).map Prod.fst <+: calls
  := by
  induction calls generalizing form with
  | nil => apply Or.inl rfl
  | cons call calls ih =>
    rw [handle]
    cases answer_eq : form.answer decode call with
    | error message =>
      right
      refine ⟨[], call, message, rfl, calls, rfl⟩
    | ok read =>
      obtain ⟨answer, form'⟩ := read
      dsimp only
      obtain all_ | ⟨before, call', message, eq, prefix_⟩ := ih form'
      · left
        rw [map_cons, all_]
      · right
        refine ⟨(call, answer) :: before, call', message, ?_, ?_⟩
        · rw [eq]
          rfl
        · rw [map_cons]
          apply (cons_prefix_cons).mpr ⟨rfl, prefix_⟩

theorem agrees_of_roomy (boundary : Text) (body : BodyReader) (calls : List Call)
    (roomy : (parse boundary body.left).Roomy) :
  Agrees decode (parse boundary body.left) calls (answers decode boundary body calls)
  := by
  constructor
  · apply handle_answered
  · intro before call answer behind eq
    apply handle_agrees decode roomy (Stands.new boundary body) calls eq

/-- The body a byte at a time. -/
def drip (body : Bytes) : BodyReader where
  pieces := body.map fun byte => [byte]
  arrived := by
    intro piece mem
    obtain ⟨byte, _, rfl⟩ := List.mem_map.mp mem
    nofun

theorem drip_left (body : Bytes) : (drip body).left = body := by
  change (body.map fun byte => [byte]).flatten = body
  induction body with
  | nil => rfl
  | cons byte body ih =>
    rw [map_cons, flatten_cons, ih]
    rfl

/-- A body with a head that is as long as it can be is not read as it parses when it arrives a byte
at a time. -/
theorem not_agrees_drip (boundary : Text) (body : Bytes) (full : ¬ (parse boundary body).Roomy) :
  ∃ calls, ¬ Agrees decode (parse boundary body) calls (answers decode boundary (drip body) calls)
  := by
  have stands := Stands.new boundary (drip body)
  rw [drip_left] at stands
  have drips : (new boundary (drip body)).Drips := by
    intro piece mem
    obtain ⟨byte, _, rfl⟩ := List.mem_map.mp mem
    rfl
  have start : EndsWith (new boundary (drip body)).delimiter (new boundary (drip body)).window := by
    intro e found
    obtain ⟨_, occurs, _⟩ := Search.find_eq_some_iff.mp found
    have le := Search.length_of_occurs stands.delimiter occurs
    simp [new, window, lineEnd] at le
    omega
  obtain ⟨count, log, message, handle_eq, length_eq, ne⟩ :=
    handle_drips decode (parse boundary body) stands.delimiter drips (fun _ => start) (by intro done; cases done)
      (.inl rfl) (stands.ahead (by intro done; cases done)).1 full
  use List.replicate (count + 1) .nextPart
  intro agrees
  have at_ := agrees.agrees log .nextPart (.refused message) [] handle_eq
  have parts_eq := Parsed.parts_getElem? decode count 0 (parse boundary body)
  rw [AgreesAt, length_eq, parts_eq] at at_
  have refuses_eq := Parsed.refuses_drop count (parse boundary body)
  cases drop_eq : (parse boundary body).drop count with
  | refused => apply ne drop_eq
  | closed after =>
    rw [drop_eq] at at_ refuses_eq
    rw [Parsed.first] at at_
    dsimp only at at_
    rw [← refuses_eq, Parsed.refuses, if_neg Bool.false_ne_true] at at_
    cases at_
  | part head content rest =>
    rw [drop_eq] at at_
    cases at_
  | cut head bytes =>
    rw [drop_eq] at at_
    cases at_

theorem cut_lineEnd_of_notMem (absent : carriageReturn ∉ line) (rest : Bytes) :
  Search.cut lineEnd (line ++ (lineEnd ++ rest)) = some (line, rest)
  := by
  rw [Search.cut_eq_some_iff]
  apply And.intro rfl
  rintro i lt ⟨behind, eq⟩
  apply absent
  rw [drop_append_of_le_length (by omega)] at eq
  have some_ : (line.drop i) ≠ [] := by
    rw [ne_eq, drop_eq_nil_iff]
    omega
  obtain ⟨byte, later, drop_eq⟩ := exists_cons_of_ne_nil some_
  rw [drop_eq] at eq
  obtain ⟨same, _⟩ := List.cons.inj eq
  apply mem_of_mem_drop (i := i)
  rw [drop_eq, same]
  apply mem_cons_self

/-- A form of one part, with one header and no bytes, under the boundary `b`. -/
def formOf (header : Bytes) : Bytes :=
  [45, 45, 98] ++ (lineEnd ++ (header ++ (lineEnd ++ (lineEnd ++ (lineEnd ++ [45, 45, 98, 45, 45] ++
    lineEnd)))))

/-- A header line that fills a head. -/
theorem not_roomy_of_length {header : Bytes} (absent : carriageReturn ∉ header)
    (colon : 58 ∈ header) (length_eq : header.length + 2 = maxPartHead) :
  ¬ (parse ['b'] (formOf header)).Roomy
  := by
  let last : Bytes := lineEnd ++ [45, 45, 98, 45, 45] ++ lineEnd
  let rest : Bytes := lineEnd ++ (header ++ (lineEnd ++ (lineEnd ++ last)))
  have cut_eq : Search.cut (delimiterOf ['b']) (lineEnd ++ formOf header) = some ([], rest) := by
    rw [Search.cut_eq_some_iff]
    constructor
    · rfl
    · intro i lt
      cases lt
  have cut_nil : ∀ rest, Search.cut lineEnd (lineEnd ++ rest) = some ([], rest) :=
    cut_lineEnd_of_notMem not_mem_nil
  have lines_eq : headLines 0 (header ++ (lineEnd ++ (lineEnd ++ last))) = some ([header], last) := by
    have some_ : header ≠ [] := ne_nil_of_mem colon
    rw [headLines.eq_def, cut_lineEnd_of_notMem absent]
    dsimp only
    rw [if_neg (by omega), if_neg some_, if_pos colon, Nat.zero_add, length_eq, headLines.eq_def,
      cut_nil]
    dsimp only
    rw [if_neg (by rw [length_nil, Nat.add_zero]; apply Nat.lt_irrefl), if_pos rfl]
    rfl
  have behind_eq : behind rest = .head ⟨[], [header]⟩ last := by
    rw [behind, cut_nil]
    dsimp only
    rw [behindLine, lines_eq]
    rfl
  have full : ¬ (⟨[], [header]⟩ : RawHead).Roomy := by
    intro roomy
    apply roomy.2
    rw [spentBy, map_singleton, sum_singleton, length_eq]
  rw [parse, cut_eq]
  dsimp only
  rw [parts_eq, behind_eq]
  dsimp only
  split
  next => apply full
  next =>
    intro roomy
    apply full roomy.1

/-- A header that fills a head with its line end. -/
def longHeader : Bytes :=
  97 :: 58 :: List.replicate 65532 97

end Vilan.Http.Multipart
