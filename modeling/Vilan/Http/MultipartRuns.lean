import Vilan.Http.MultipartParse

/-!
# Forms that arrive in pieces

Whatever the pieces are in which a body arrives, and whatever a handler reads of it, the form gives
it the parts of the parse of the whole body, with their bytes, and refuses what that refuses,
exactly when no head is as long as a head can be.
-/

namespace Vilan.Http

open List

/-- Neither the delimiter's line nor the header lines are as long as they can be. -/
def RawHead.Roomy (head : RawHead) : Prop :=
  head.after.length ≠ maxPartHead ∧ Multipart.spentBy head.lines ≠ maxPartHead

namespace Parsed

/-- No head is as long as it can be. -/
def Roomy : Parsed → Prop
  | refused => True
  | closed after => after.length ≠ maxPartHead
  | part head _ rest => head.Roomy ∧ rest.Roomy
  | cut head _ => head.Roomy

/-- The parts, with the numbers from one on. -/
def parts (decode : Bytes → Text) (count : ℕ) : Parsed → List Part
  | refused | closed _ => []
  | part head _ rest =>
      Multipart.describe (head.lines.filterMap (Multipart.headerOf decode)) (count + 1) ::
        rest.parts decode (count + 1)
  | cut head _ =>
      [Multipart.describe (head.lines.filterMap (Multipart.headerOf decode)) (count + 1)]

/-- The bytes of each part, and whether a delimiter ends them. -/
def contents : Parsed → List (Bytes × Bool)
  | refused | closed _ => []
  | part _ content rest => (content, true) :: rest.contents
  | cut _ bytes => [(bytes, false)]

/-- Whether a form that is read to its end is refused. -/
def refuses : Parsed → Bool
  | refused | cut _ _ => true
  | closed _ => false
  | part _ _ rest => rest.refuses

/-- What is behind some parts. -/
def drop : ℕ → Parsed → Parsed
  | 0, parsed => parsed
  | _ + 1, refused => refused
  | _ + 1, closed after => closed after
  | count + 1, part _ _ rest => rest.drop count
  | _ + 1, cut _ _ => refused

theorem drop_succ (count : ℕ) (parsed : Parsed) :
  parsed.drop (count + 1) = (parsed.drop count).drop 1
  := by
  induction count generalizing parsed with
  | zero => rfl
  | succ count ih =>
    cases parsed with
    | refused => rfl
    | closed => rfl
    | part _ _ rest => apply ih
    | cut => rfl

theorem refuses_drop (count : ℕ) (parsed : Parsed) : (parsed.drop count).refuses = parsed.refuses := by
  induction count generalizing parsed with
  | zero => rfl
  | succ count ih =>
    cases parsed with
    | refused => rfl
    | closed => rfl
    | part _ _ rest => apply ih
    | cut => rfl

theorem Roomy.drop {parsed : Parsed} (roomy : parsed.Roomy) (count : ℕ) : (parsed.drop count).Roomy := by
  induction count generalizing parsed with
  | zero => apply roomy
  | succ count ih =>
    cases parsed with
    | refused => apply roomy
    | closed => apply roomy
    | part _ _ rest => apply ih roomy.2
    | cut => trivial

/-- The first part of a parse, with its number. -/
def first (decode : Bytes → Text) (count : ℕ) : Parsed → Option Part
  | refused | closed _ => none
  | part head _ _ | cut head _ =>
      some (Multipart.describe (head.lines.filterMap (Multipart.headerOf decode)) (count + 1))

/-- The bytes of the first part of a parse, and whether a delimiter ends them. -/
def firstContent : Parsed → Option (Bytes × Bool)
  | refused | closed _ => none
  | part _ content _ => some (content, true)
  | cut _ bytes => some (bytes, false)

theorem parts_getElem? (decode : Bytes → Text) (count start : ℕ) (parsed : Parsed) :
  (parsed.parts decode start)[count]? = (parsed.drop count).first decode (start + count)
  := by
  induction count generalizing parsed start with
  | zero => cases parsed <;> rfl
  | succ count ih =>
    cases parsed with
    | refused => rfl
    | closed => rfl
    | part head _ rest =>
      rw [parts, getElem?_cons_succ, ih, drop, Nat.add_right_comm, Nat.add_assoc]
    | cut => rfl

theorem contents_getElem? (count : ℕ) (parsed : Parsed) :
  parsed.contents[count]? = (parsed.drop count).firstContent
  := by
  induction count generalizing parsed with
  | zero => cases parsed <;> rfl
  | succ count ih =>
    cases parsed with
    | refused => rfl
    | closed => rfl
    | part _ _ rest => apply ih
    | cut => rfl

/-- What may be refused at once. -/
def Refusable : Parsed → Prop
  | refused => True
  | closed after => after.length = maxPartHead
  | part head _ _ => ¬ head.Roomy
  | cut head _ => ¬ head.Roomy

end Parsed

namespace Multipart

/-- The parse of what a form has ahead of it. -/
def ahead (form : Multipart) : Parsed :=
  match form.stage with
  | .preamble | .body =>
      match Search.cut form.delimiter form.left with
      | none => .refused
      | some (_, rest) => parts form.delimiter rest
  | .delimited => parts form.delimiter form.left
  | .done => .closed []

/-- A form inside a part, with the part and what follows it. -/
structure Opened (form : Multipart) (head : RawHead) (parsed : Parsed) : Prop where
  stage : form.stage = .body
  scanned : form.Scanned
  parsed :
    match Search.cut form.delimiter form.left with
    | none => parsed = .cut head form.left
    | some (content, rest) => parsed = .part head content (parts form.delimiter rest)

variable (decode : Bytes → Text)

/-- What a call for the next part comes to. -/
def PartNext (form : Multipart) : Except String (Option Part × Multipart) → Prop
  | .ok (some part, form') =>
      ∃ head, part = describe (head.lines.filterMap (headerOf decode)) (form.part + 1) ∧
        form'.part = form.part + 1 ∧ form'.delimiter = form.delimiter ∧
          form'.Opened head form.ahead
  | .ok (none, form') =>
      form'.part = form.part ∧ form'.delimiter = form.delimiter ∧ form'.stage = .done ∧
        ∃ after, form.ahead = .closed after
  | .error _ => form.ahead.Refusable

variable {form skipped : Multipart} {log : List (Call × Answer)} {parsed : Parsed}

theorem nextPart_delimited (stage : form.stage = .delimited) :
  form.PartNext decode (form.nextPart decode)
  := by
  have ahead_eq : form.ahead = parts form.delimiter form.left := by rw [ahead, stage]
  rw [nextPart, stage]
  change PartNext decode form (if form.stage = .done then _ else _)
  rw [if_neg (by rw [stage]; decide)]
  cases line_eq : form.readLine maxPartHead with
  | error message =>
    change form.ahead.Refusable
    rw [ahead_eq, parts_eq, behind]
    obtain none_ | ⟨after, rest, cut_eq, le⟩ := readLine_error line_eq
    · rw [none_]
      trivial
    · have le : maxPartHead ≤ after.length := by omega
      rw [cut_eq]
      dsimp only
      cases behind_eq : behindLine after rest with
      | refused => trivial
      | closed after' =>
        obtain ⟨rfl, le'⟩ := behindLine_closed behind_eq
        apply Nat.le_antisymm le' le
      | head head rest' =>
        obtain ⟨after_eq, le', _⟩ := behindLine_head behind_eq
        have full : ¬ head.Roomy := by
          intro roomy
          apply roomy.1
          rw [after_eq]
          apply Nat.le_antisymm le' le
        dsimp only
        split
        next => apply full
        next => apply full
  | ok read =>
    obtain ⟨after, form₁⟩ := read
    obtain ⟨cut_eq, le, onward, stage_eq⟩ := readLine_ok line_eq
    have within : ¬ maxPartHead < after.length := by omega
    change PartNext decode form (if after.take 2 = [45, 45] then _ else _)
    have behind_eq : behind form.left = behindLine after form₁.left := by
      rw [behind, cut_eq]
    rw [behindLine, if_neg within] at behind_eq
    split at behind_eq
    next closing =>
      rw [if_pos closing]
      refine ⟨onward.part, onward.delimiter, rfl, after, ?_⟩
      rw [ahead_eq, parts_eq, behind_eq]
    next closing =>
      rw [if_neg closing]
      split at behind_eq
      next carries =>
        rw [if_pos carries]
        change form.ahead.Refusable
        rw [ahead_eq, parts_eq, behind_eq]
        trivial
      next carries =>
        rw [if_neg carries]
        cases head_eq : form₁.readHead decode 0 with
        | error message =>
          change form.ahead.Refusable
          rw [ahead_eq, parts_eq, behind_eq]
          obtain none_ | ⟨lines, rest, lines_eq, spent_eq⟩ := readHead_error decode head_eq
          · rw [none_]
            trivial
          · rw [lines_eq]
            dsimp only
            rw [Nat.zero_add] at spent_eq
            have full : ¬ (⟨after, lines⟩ : RawHead).Roomy := fun roomy => roomy.2 spent_eq
            split
            next => apply full
            next => apply full
        | ok read =>
          obtain ⟨headers, form₂⟩ := read
          obtain ⟨⟨lines, lines_eq, rfl⟩, onward', stage_eq'⟩ := readHead_ok decode head_eq
          have part_eq : form₂.part = form.part := (onward.trans onward').part
          have delimiter_eq : form₂.delimiter = form.delimiter := (onward.trans onward').delimiter
          refine ⟨⟨after, lines⟩, ?_, ?_, delimiter_eq, rfl, ?_, ?_⟩
          · rw [part_eq]
          · dsimp only
            rw [part_eq]
          · have scanned := Scanned.fresh form₂ (readHead_cursor decode head_eq)
            exact ⟨scanned.le, scanned.within, scanned.clear, scanned.found⟩
          · rw [ahead_eq, parts_eq, behind_eq, lines_eq]
            have left_eq : ∀ (edge part : ℕ) (delimited : Bool) (stage : FormStage),
                { form₂ with
                  part := part
                  stage := stage
                  edge := edge
                  delimited := delimited }.left = form₂.left :=
              fun _ _ _ _ => rfl
            dsimp only
            rw [left_eq, delimiter_eq]
            cases Search.cut form.delimiter form₂.left <;> rfl

/-- The rest of the preamble or of a part is skipped before the next part is read. -/
theorem nextPart_skipped (skip : form.stage = .body ∧ form.skipPart = .ok skipped ∨
      form.stage = .preamble ∧ form.skipPreamble = .ok skipped)
    (delimited : skipped.stage = .delimited) :
  form.nextPart decode = skipped.nextPart decode
  := by
  obtain ⟨stage, skip_eq⟩ | ⟨stage, skip_eq⟩ := skip
  · rw [nextPart, stage]
    dsimp only
    rw [skip_eq, nextPart, delimited]
  · rw [nextPart, stage]
    dsimp only
    rw [skip_eq, nextPart, delimited]

theorem ahead_skipped {before : Bytes} (stage : form.stage = .body ∨ form.stage = .preamble)
    (cut_eq : Search.cut form.delimiter form.left = some (before, skipped.left))
    (onward : form.Onward skipped) (delimited : skipped.stage = .delimited) :
  form.ahead = skipped.ahead
  := by
  have skipped_eq : skipped.ahead = parts form.delimiter skipped.left := by
    rw [ahead, delimited, onward.delimiter]
  obtain stage | stage := stage
  · rw [skipped_eq, ahead, stage]
    dsimp only
    rw [cut_eq]
  · rw [skipped_eq, ahead, stage]
    dsimp only
    rw [cut_eq]

theorem PartNext.of_skipped (ahead_eq : form.ahead = skipped.ahead) (onward : form.Onward skipped)
    {next : Except String (Option Part × Multipart)} (h : skipped.PartNext decode next) :
  form.PartNext decode next
  := by
  match next with
  | .ok (some part, form') =>
      obtain ⟨head, part_eq, index_eq, delimiter_eq, opened⟩ := h
      rw [onward.part] at part_eq index_eq
      rw [onward.delimiter] at delimiter_eq
      rw [← ahead_eq] at opened
      exact ⟨head, part_eq, index_eq, delimiter_eq, opened⟩
  | .ok (none, form') =>
      obtain ⟨index_eq, delimiter_eq, stage, closed⟩ := h
      rw [onward.part] at index_eq
      rw [onward.delimiter] at delimiter_eq
      rw [← ahead_eq] at closed
      exact ⟨index_eq, delimiter_eq, stage, closed⟩
  | .error message =>
      rw [PartNext, ← ahead_eq] at h
      apply h

/-- A call for the next part comes to what the parse has ahead. -/
theorem nextPart_spec (some_ : form.delimiter ≠ []) (scanned : form.stage = .body → form.Scanned) :
  form.PartNext decode (form.nextPart decode)
  := by
  cases stage : form.stage with
  | preamble =>
    cases skip_eq : form.skipPreamble with
    | ok skipped =>
      obtain ⟨⟨before, cut_eq⟩, onward, delimited⟩ := skipPreamble_ok some_ skip_eq
      rw [nextPart_skipped decode (.inr ⟨stage, skip_eq⟩) delimited]
      apply PartNext.of_skipped decode (ahead_skipped (.inr stage) cut_eq onward delimited) onward
      apply nextPart_delimited decode delimited
    | error message =>
      have none_ := skipPreamble_error some_ skip_eq
      rw [nextPart, stage]
      dsimp only
      rw [skip_eq]
      change form.ahead.Refusable
      rw [ahead, stage]
      dsimp only
      rw [none_]
      trivial
  | delimited => apply nextPart_delimited decode stage
  | body =>
    have spec := skipPart_spec stage some_ (scanned stage)
    cases skip_eq : form.skipPart with
    | ok skipped =>
      rw [skip_eq] at spec
      obtain ⟨⟨before, cut_eq⟩, onward, delimited⟩ := spec
      rw [nextPart_skipped decode (.inl ⟨stage, skip_eq⟩) delimited]
      apply PartNext.of_skipped decode (ahead_skipped (.inl stage) cut_eq onward delimited) onward
      apply nextPart_delimited decode delimited
    | error message =>
      rw [skip_eq] at spec
      rw [nextPart, stage]
      dsimp only
      rw [skip_eq]
      change form.ahead.Refusable
      rw [ahead, stage]
      dsimp only at spec ⊢
      rw [spec]
      trivial
  | done =>
    rw [nextPart, stage]
    change PartNext decode form (if form.stage = .done then _ else _)
    rw [if_pos stage]
    refine ⟨rfl, rfl, stage, [], ?_⟩
    rw [ahead, stage]

/-! ### Runs -/

/-- The parts a handler was given. -/
def handed (log : List (Call × Answer)) : List Part :=
  log.filterMap fun (_, answer) =>
    match answer with
    | .part part => some part
    | _ => none

/-- The bytes a handler was given of a part. -/
def bytesOf (index : ℕ) (log : List (Call × Answer)) : Bytes :=
  log.flatMap fun (call, answer) =>
    match call, answer with
    | .next index' _, .piece bytes => if index' = index then bytes else []
    | _, _ => []

/-- Whether a handler was told that there are no more parts. -/
def exhausted (log : List (Call × Answer)) : Bool :=
  log.any fun (_, answer) =>
    match answer with
    | .noPart => true
    | _ => false

/-- What a call is answered after a log, if a form is read as it parses.  The next part is that of
the parse, or none once it is closed.  A part that the form has moved past reads nothing; of the
current one a read gives some more bytes, or ends once all are given and a delimiter ends them. -/
def AgreesAt (parsed : Parsed) (log : List (Call × Answer)) : Call → Answer → Prop
  | .nextPart, answer =>
      match (parsed.parts decode 0)[(handed log).length]? with
      | some part => answer = .part part
      | none => if parsed.refuses then ∃ message, answer = .refused message else answer = .noPart
  | .next index size, answer =>
      if index = 0 ∨ index ≠ (handed log).length ∨ exhausted log then answer = .ended
      else
        ∃ content ended, parsed.contents[index - 1]? = some (content, ended) ∧
          match answer with
          | .piece bytes =>
              bytes ≠ [] ∧ bytes.length ≤ wanted size ∧ bytesOf index log ++ bytes <+: content
          | .ended => ended = true ∧ bytesOf index log = content
          | .refused _ => ended = false
          | _ => False

/-- Every call is answered as the form parses, up to a refusal. -/
structure Agrees (parsed : Parsed) (calls : List Call) (log : List (Call × Answer)) : Prop where
  answered : log.map Prod.fst = calls ∨
    ∃ before call message, log = before ++ [(call, .refused message)] ∧ log.map Prod.fst <+: calls
  agrees : ∀ before call answer behind, log = before ++ (call, answer) :: behind →
    AgreesAt decode parsed before call answer

/-- The bytes of a part that are left, and whether a delimiter ends them. -/
def remainder (form : Multipart) : Bytes × Bool :=
  match Search.cut form.delimiter form.left with
  | none => (form.left, false)
  | some (content, _) => (content, true)

theorem Reads.remainder_eq {form' : Multipart} {size : ℕ} {piece : Bytes}
    (h : form.Reads size piece form') :
  form.remainder = (piece ++ form'.remainder.1, form'.remainder.2)
  := by
  rw [remainder, h.cut_eq, remainder, h.onward.delimiter]
  cases Search.cut form.delimiter form'.left with
  | none =>
    rw [Option.map_none, h.eq]
  | some parts => rfl

/-- Where a form stands after a log. -/
structure Stands (parsed : Parsed) (log : List (Call × Answer)) (form : Multipart) : Prop where
  delimiter : form.delimiter ≠ []
  index : form.part = (handed log).length
  fresh : ∀ index, form.part < index → bytesOf index log = []
  ahead : form.stage ≠ .done → form.ahead = parsed.drop form.part ∧ exhausted log = false
  preamble : form.stage = .preamble → form.part = 0
  delimited : form.stage = .delimited →
    form.part = 0 ∨ parsed.contents[form.part - 1]? = some (bytesOf form.part log, true)
  body : form.stage = .body → 0 < form.part ∧ form.Scanned ∧
    parsed.contents[form.part - 1]? =
      some (bytesOf form.part log ++ form.remainder.1, form.remainder.2)
  done : form.stage = .done → exhausted log = true ∧ ∃ after, parsed.drop form.part = .closed after

theorem handed_concat (log : List (Call × Answer)) (call : Call) (answer : Answer) :
  (handed (log ++ [(call, answer)])).length =
    (handed log).length + match answer with
      | .part _ => 1
      | _ => 0
  := by
  rw [handed, filterMap_append, length_append]
  congr
  cases answer <;> rfl

theorem bytesOf_concat (index : ℕ) (log : List (Call × Answer)) (call : Call) (answer : Answer) :
  bytesOf index (log ++ [(call, answer)]) =
    bytesOf index log ++
      match call, answer with
      | .next index' _, .piece bytes => if index' = index then bytes else []
      | _, _ => []
  := by
  rw [bytesOf, flatMap_append]
  congr
  rw [flatMap_cons, flatMap_nil, append_nil]

theorem over_concat (log : List (Call × Answer)) (call : Call) (answer : Answer) :
  exhausted (log ++ [(call, answer)]) =
    (exhausted log || match answer with
      | .noPart => true
      | _ => false)
  := by
  rw [exhausted, any_append, exhausted]
  congr
  rw [any_cons, any_nil, Bool.or_false]

/-- A call for the next part is answered as the form parses. -/
theorem nextPart_agrees (stands : Stands parsed log form) (roomy : parsed.Roomy) :
  match form.answer decode .nextPart with
  | .ok (answer, form') =>
      AgreesAt decode parsed log .nextPart answer ∧
        Stands parsed (log ++ [(.nextPart, answer)]) form'
  | .error message => AgreesAt decode parsed log .nextPart (.refused message)
  := by
  have spec := nextPart_spec decode stands.delimiter fun body => (stands.body body).2.1
  have ahead_eq : form.ahead = .closed [] ∧ form.stage = .done ∧
      (∃ after, parsed.drop form.part = .closed after) ∨
      form.stage ≠ .done ∧ form.ahead = parsed.drop form.part ∧ exhausted log = false := by
    by_cases done : form.stage = .done
    · left
      refine ⟨?_, done, (stands.done done).2⟩
      rw [Multipart.ahead, done]
    · right
      apply And.intro done (stands.ahead done)
  have parts_eq := Parsed.parts_getElem? decode (handed log).length 0 parsed
  have refuses_eq := Parsed.refuses_drop form.part parsed
  rw [← stands.index, Nat.zero_add] at parts_eq
  cases next_eq : form.nextPart decode with
  | error message =>
    rw [next_eq] at spec
    have answer_eq : form.answer decode .nextPart = .error message := by
      rw [answer, next_eq]
      rfl
    rw [answer_eq]
    dsimp only
    obtain ⟨closed, _⟩ | ⟨_, ahead_eq, _⟩ := ahead_eq
    · rw [PartNext, closed] at spec
      cases spec
    · rw [PartNext, ahead_eq] at spec
      have roomy' := roomy.drop form.part
      cases drop_eq : parsed.drop form.part with
      | refused =>
        rw [drop_eq] at parts_eq refuses_eq
        rw [AgreesAt, ← stands.index, parts_eq]
        rw [Parsed.first]
        dsimp only
        rw [if_pos (show parsed.refuses = true from refuses_eq.symm)]
        use message
      | closed after =>
        rw [drop_eq] at spec roomy'
        apply absurd spec roomy'
      | part head content rest =>
        rw [drop_eq] at spec roomy'
        apply absurd roomy'.1 spec
      | cut head bytes =>
        rw [drop_eq] at spec roomy'
        apply absurd roomy' spec
  | ok next =>
    obtain ⟨part, form'⟩ := next
    rw [next_eq] at spec
    cases part with
    | none =>
      have answer_eq : form.answer decode .nextPart = .ok (.noPart, form') := by
        rw [answer, next_eq]
        rfl
      rw [answer_eq]
      dsimp only
      obtain ⟨index_eq, delimiter_eq, stage, closed⟩ := spec
      have closed' : ∃ after, parsed.drop form.part = .closed after := by
        obtain ⟨_, _, closed'⟩ | ⟨_, ahead_eq, _⟩ := ahead_eq
        · apply closed'
        · rw [← ahead_eq]
          apply closed
      obtain ⟨after, closed'⟩ := closed'
      rw [closed'] at parts_eq refuses_eq
      constructor
      · rw [AgreesAt, ← stands.index, parts_eq, Parsed.first]
        dsimp only
        rw [if_neg]
        rw [← refuses_eq]
        nofun
      · constructor
        · rw [delimiter_eq]
          apply stands.delimiter
        · rw [index_eq, stands.index, handed_concat]
          rfl
        · intro index lt
          rw [bytesOf_concat, stands.fresh index (index_eq ▸ lt)]
          rfl
        · intro notDone
          apply absurd stage notDone
        · intro preamble
          rw [stage] at preamble
          cases preamble
        · intro delimited
          rw [stage] at delimited
          cases delimited
        · intro body
          rw [stage] at body
          cases body
        · intro _
          rw [over_concat, index_eq]
          refine ⟨Bool.or_true _, after, closed'⟩
    | some part =>
      have answer_eq : form.answer decode .nextPart = .ok (.part part, form') := by
        rw [answer, next_eq]
        rfl
      rw [answer_eq]
      dsimp only
      obtain ⟨head, part_eq, index_eq, delimiter_eq, opened⟩ := spec
      have open_ : form.ahead = parsed.drop form.part ∧ exhausted log = false := by
        obtain ⟨closed, _⟩ | ⟨_, open_⟩ := ahead_eq
        · have parsed_eq := opened.parsed
          rw [closed] at parsed_eq
          split at parsed_eq <;> cases parsed_eq
        · apply open_
      have parsed_eq := opened.parsed
      rw [open_.1] at parsed_eq
      have content_eq := Parsed.contents_getElem? form.part parsed
      have none_ : bytesOf (form.part + 1) log = [] := stands.fresh _ (Nat.lt_succ_self _)
      have bytes_eq : ∀ index, bytesOf index (log ++ [(.nextPart, .part part)]) =
          bytesOf index log := by
        intro index
        rw [bytesOf_concat]
        apply append_nil
      constructor
      · have first_eq : (parsed.drop form.part).first decode form.part = some part := by
          rw [part_eq]
          split at parsed_eq <;> rw [parsed_eq] <;> rfl
        rw [AgreesAt, ← stands.index, parts_eq, first_eq]
      · constructor
        · rw [delimiter_eq]
          apply stands.delimiter
        · rw [index_eq, stands.index, handed_concat]
        · intro index lt
          rw [bytes_eq]
          apply stands.fresh index
          omega
        · intro _
          rw [over_concat, open_.2, Multipart.ahead, opened.stage, index_eq, Parsed.drop_succ]
          refine ⟨?_, rfl⟩
          dsimp only
          split at parsed_eq
          next =>
            rw [parsed_eq]
            rfl
          next =>
            rw [parsed_eq]
            rfl
        · intro preamble
          rw [opened.stage] at preamble
          cases preamble
        · intro delimited
          rw [opened.stage] at delimited
          cases delimited
        · intro _
          rw [index_eq]
          refine ⟨Nat.succ_pos _, opened.scanned, ?_⟩
          rw [Nat.add_sub_cancel, content_eq, bytes_eq, none_, remainder]
          split at parsed_eq
          next =>
            rw [parsed_eq]
            rfl
          next =>
            rw [parsed_eq]
            rfl
        · intro done
          rw [opened.stage] at done
          cases done

theorem ahead_body (body : form.stage = .body) :
  form.ahead =
    match Search.cut form.delimiter form.left with
    | none => .refused
    | some (_, rest) => parts form.delimiter rest
  := by
  rw [ahead, body]

/-- A read of a part is answered as the form parses. -/
theorem read_agrees (stands : Stands parsed log form) (index size : ℕ) :
  match form.answer decode (.next index size) with
  | .ok (answer, form') =>
      AgreesAt decode parsed log (.next index size) answer ∧
        Stands parsed (log ++ [(.next index size, answer)]) form'
  | .error message => AgreesAt decode parsed log (.next index size) (.refused message)
  := by
  by_cases current : form.part = index ∧ form.stage = .body
  · obtain ⟨rfl, body⟩ := current
    obtain ⟨pos, scanned, content_eq⟩ := stands.body body
    obtain ⟨ahead_eq, open_⟩ := stands.ahead (by rw [body]; nofun)
    have spec := readPart_spec rfl body stands.delimiter (wanted_ne_zero size) scanned
    have now : ¬ (form.part = 0 ∨ form.part ≠ (handed log).length ∨ exhausted log = true) := by
      rw [open_, ← stands.index]
      simp only [ne_eq, not_true, Bool.false_eq_true, or_false]
      omega
    cases read_eq : form.readPart form.part (wanted size) with
    | error message =>
      rw [read_eq] at spec
      have answer_eq : form.answer decode (.next form.part size) = .error message := by
        rw [answer, read_eq]
        rfl
      rw [answer_eq]
      dsimp only
      rw [AgreesAt, if_neg now]
      rw [remainder, spec] at content_eq
      exact ⟨_, _, content_eq, rfl⟩
    | ok read =>
      obtain ⟨piece, form'⟩ := read
      rw [read_eq] at spec
      cases piece with
      | some piece =>
        have answer_eq : form.answer decode (.next form.part size) = .ok (.piece piece, form') := by
          rw [answer, read_eq]
          rfl
        rw [answer_eq]
        dsimp only
        have bytes_eq : bytesOf form.part (log ++ [(.next form.part size, .piece piece)]) =
            bytesOf form.part log ++ piece := by
          rw [bytesOf_concat]
          dsimp only
          rw [if_pos rfl]
        rw [spec.remainder_eq, ← append_assoc] at content_eq
        constructor
        · rw [AgreesAt, if_neg now]
          exact ⟨_, _, content_eq, spec.some_, spec.fits, prefix_append _ _⟩
        · constructor
          · rw [spec.onward.delimiter]
            apply stands.delimiter
          · rw [spec.onward.part, stands.index, handed_concat]
            rfl
          · intro index lt
            rw [spec.onward.part] at lt
            rw [bytesOf_concat, stands.fresh index lt]
            dsimp only
            rw [if_neg (by omega)]
            rfl
          · intro _
            rw [over_concat, open_, spec.onward.part, ← ahead_eq, ahead_body body,
              ahead_body spec.stage, spec.cut_eq, spec.onward.delimiter]
            refine ⟨?_, rfl⟩
            cases Search.cut form.delimiter form'.left <;> rfl
          · intro preamble
            rw [spec.stage] at preamble
            cases preamble
          · intro delimited
            rw [spec.stage] at delimited
            cases delimited
          · intro _
            rw [spec.onward.part, bytes_eq]
            exact ⟨pos, spec.scanned, content_eq⟩
          · intro done
            rw [spec.stage] at done
            cases done
      | none =>
        have answer_eq : form.answer decode (.next form.part size) = .ok (.ended, form') := by
          rw [answer, read_eq]
          rfl
        rw [answer_eq]
        dsimp only
        obtain ⟨cut_eq, stage, onward⟩ := spec
        have bytes_eq : ∀ index, bytesOf index (log ++ [(.next form.part size, .ended)]) =
            bytesOf index log := by
          intro index
          rw [bytesOf_concat]
          apply append_nil
        rw [remainder, cut_eq] at content_eq
        dsimp only at content_eq
        rw [append_nil] at content_eq
        constructor
        · rw [AgreesAt, if_neg now]
          exact ⟨_, _, content_eq, rfl, rfl⟩
        · constructor
          · rw [onward.delimiter]
            apply stands.delimiter
          · rw [onward.part, stands.index, handed_concat]
            rfl
          · intro index lt
            rw [onward.part] at lt
            rw [bytes_eq]
            apply stands.fresh index lt
          · intro _
            rw [over_concat, open_, onward.part, ← ahead_eq, ahead_body body, cut_eq,
              Multipart.ahead, stage, onward.delimiter]
            exact ⟨rfl, rfl⟩
          · intro preamble
            rw [stage] at preamble
            cases preamble
          · intro _
            right
            rw [onward.part, bytes_eq]
            apply content_eq
          · intro body
            rw [stage] at body
            cases body
          · intro done
            rw [stage] at done
            cases done
  · have read_eq : form.readPart index (wanted size) = .ok (none, form) := by
      rw [readPart, if_pos]
      rw [not_and_or] at current
      apply current
    have answer_eq : form.answer decode (.next index size) = .ok (.ended, form) := by
      rw [answer, read_eq]
      rfl
    rw [answer_eq]
    dsimp only
    have bytes_eq : ∀ index', bytesOf index' (log ++ [(.next index size, .ended)]) =
        bytesOf index' log := by
      intro index'
      rw [bytesOf_concat]
      apply append_nil
    constructor
    · rw [AgreesAt]
      split
      next => rfl
      next now =>
        rw [not_or, not_or, not_not] at now
        obtain ⟨pos, rfl, open_⟩ := now
        rw [← stands.index] at current pos ⊢
        cases stage : form.stage with
        | preamble => apply absurd (stands.preamble stage) pos
        | delimited =>
          obtain zero | content_eq := stands.delimited stage
          · apply absurd zero pos
          · exact ⟨_, _, content_eq, rfl, rfl⟩
        | body => apply absurd ⟨rfl, stage⟩ current
        | done => apply absurd (stands.done stage).1 open_
    · constructor
      · apply stands.delimiter
      · rw [handed_concat]
        apply stands.index
      · intro index' lt
        rw [bytes_eq]
        apply stands.fresh index' lt
      · rw [over_concat, Bool.or_false]
        apply stands.ahead
      · apply stands.preamble
      · rw [bytes_eq]
        apply stands.delimited
      · rw [bytes_eq]
        apply stands.body
      · rw [over_concat, Bool.or_false]
        apply stands.done

/-- Every call of a run is answered as the form parses. -/
theorem handle_agrees (roomy : parsed.Roomy) (stands : Stands parsed log form) (calls : List Call)
    {before behind : List (Call × Answer)} {call : Call} {answered : Answer}
    (eq : form.handle decode calls = before ++ (call, answered) :: behind) :
  AgreesAt decode parsed (log ++ before) call answered
  := by
  induction calls generalizing form log before with
  | nil => simp [handle] at eq
  | cons call' calls ih =>
    have step : match form.answer decode call' with
        | .ok (answer, form') =>
            AgreesAt decode parsed log call' answer ∧ Stands parsed (log ++ [(call', answer)]) form'
        | .error message => AgreesAt decode parsed log call' (.refused message) := by
      cases call' with
      | nextPart => apply nextPart_agrees decode stands roomy
      | next index size => apply read_agrees decode stands
    rw [handle] at eq
    cases answer_eq : form.answer decode call' with
    | error message =>
      rw [answer_eq] at eq step
      cases before with
      | nil =>
        cases eq
        rw [append_nil]
        apply step
      | cons first before => simp at eq
    | ok read =>
      obtain ⟨answer, form'⟩ := read
      rw [answer_eq] at eq step
      cases before with
      | nil =>
        cases eq
        rw [append_nil]
        apply step.1
      | cons first before =>
        rw [cons_append, List.cons.injEq] at eq
        obtain ⟨rfl, eq⟩ := eq
        have agrees := ih step.2 eq
        rw [append_assoc] at agrees
        apply agrees

end Multipart

end Vilan.Http
