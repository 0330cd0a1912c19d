import Mathlib.Order.Iterate
import Vilan.Web.Tags

/-!
# What the scanner reports

The tags that the scanner reports are ranges of the page, in order.  Where its reading of a page
stands is compared with the reading in which the body of a script or a style ends at its closing tag
and nowhere else.
-/

namespace Vilan.Web

open List

/-! ### The tags the scanner reports -/

variable {markup name : Str} {index : ℕ} {tag : Tag}

/-- A tag opens at a `<` and runs up to behind a `>`, or to the end of a page that breaks off
inside it. -/
structure Tag.Real (tag : Tag) (markup : Str) : Prop where
  opens : markup[tag.start]? = some (unit '<')
  inside : tag.start < tag.stop ∧ tag.stop ≤ markup.length
  ends : tag.stop = markup.length ∨ markup[tag.stop - 1]? = some (unit '>')

/-- Whether a tag opens an element whose body is raw text. -/
def Tag.opensRaw (tag : Tag) : Bool :=
  !tag.closing && (tag.name == ascii "script" || tag.name == ascii "style")

theorem past_ends (index : ℕ) :
  past (indexOf markup (ascii ">") index) 1 markup.length = markup.length ∨
    markup[past (indexOf markup (ascii ">") index) 1 markup.length - 1]? = some (unit '>')
  := by
  rw [indexOf]
  cases found : Search.find (ascii ">") (markup.drop index) with
  | none => left; rfl
  | some e =>
    right
    obtain ⟨rest, here⟩ := (Search.find_eq_some_iff.mp found).2.1
    have first : (markup.drop (index + e))[0]? = some (unit '>') := by
      rw [← drop_drop, ← here]
      rfl
    rw [getElem?_drop] at first
    apply first

theorem attributesOf_ends (index : ℕ) :
  (attributesOf markup index).2 = markup.length ∨
    markup[(attributesOf markup index).2 - 1]? = some (unit '>')
  := by
  induction index using attributesOf.induct markup with
  | case1 index inside open_ =>
    right
    rw [attributesOf, dif_pos inside, dif_pos open_, ← open_]
    apply List.getElem?_eq_getElem
  | case2 index inside open_ shown ih =>
    rw [attributesOf, dif_pos inside, dif_neg open_, dif_pos shown]
    apply ih
  | case3 index inside open_ shown cursor read behind ih =>
    rw [attributesOf, dif_pos inside, dif_neg open_, dif_neg shown]
    apply ih
  | case4 index outside =>
    left
    rw [attributesOf, dif_neg outside]

/-- What a turn reports starts where the turn does, and the next one is behind it or behind what is
taken for its body. -/
theorem scanTurn_tag (inside : index < markup.length)
    (reported : (scanTurn markup index).1 = some tag) :
  tag.start = index ∧ tag.Real markup ∧
    (scanTurn markup index).2 =
      if tag.opensRaw = true then skipRawText markup tag.stop tag.name else tag.stop
  := by
  have bounds := scanTurn_bounds inside
  rw [scanTurn] at reported bounds ⊢
  split at reported
  next => contradiction
  next opens =>
    rw [not_not] at opens
    rw [if_neg (not_not.mpr opens)] at bounds ⊢
    split at reported
    next => contradiction
    next plain =>
      rw [if_neg plain] at bounds ⊢
      split at reported
      next => contradiction
      next after next_ =>
        simp only [next_] at bounds ⊢
        split at reported
        next => contradiction
        next doctype =>
          rw [if_neg doctype] at bounds ⊢
          split at reported
          next slash =>
            rw [if_pos slash] at bounds ⊢
            cases reported
            exact ⟨rfl, ⟨opens, bounds, past_ends _⟩, rfl⟩
          next open_ =>
            rw [if_neg open_] at bounds ⊢
            split at reported
            next => contradiction
            next named =>
              rw [if_neg named] at bounds ⊢
              cases reported
              have two : index + 1 < markup.length := (List.getElem?_eq_some_iff.mp next_).1
              have cursor := le_runEnd isNameChar markup (index + 1)
              have read := attributesOf_bounds (runEnd_le isNameChar two.le)
              refine ⟨rfl, ⟨opens, ⟨?_, read.2⟩, attributesOf_ends _⟩, ?_⟩
              · dsimp only
                omega
              · simp only [Tag.opensRaw, Bool.not_false, Bool.true_and, Bool.or_eq_true, beq_iff_eq]

theorem tagsFrom_real (index : ℕ) :
  (∀ tag ∈ tagsFrom markup index, index ≤ tag.start ∧ tag.Real markup) ∧
    (tagsFrom markup index).Pairwise (fun tag later => tag.stop ≤ later.start)
  := by
  induction index using tagsFrom.induct markup with
  | case1 index inside turn behind ih =>
    rw [tagsFrom, dif_pos inside]
    change index < (scanTurn markup index).2 ∧ _ at behind
    change (∀ tag ∈ tagsFrom markup (scanTurn markup index).2, (scanTurn markup index).2 ≤ _ ∧ _) ∧
      _ at ih
    obtain ⟨real, disjoint⟩ := ih
    dsimp only
    cases reported : (scanTurn markup index).1 with
    | none =>
      refine ⟨fun tag mem => ?_, disjoint⟩
      obtain ⟨le, real⟩ := real tag mem
      exact ⟨by omega, real⟩
    | some first =>
      obtain ⟨start, here, next_⟩ := scanTurn_tag inside reported
      have stop : first.stop ≤ (scanTurn markup index).2 := by
        rw [next_]
        split
        · exact (skipRawText_bounds _ here.inside.2).1
        · exact le_rfl
      constructor
      · intro tag mem
        obtain rfl | mem := mem_cons.mp mem
        · exact ⟨start.ge, here⟩
        · obtain ⟨le, real⟩ := real tag mem
          exact ⟨by omega, real⟩
      · apply pairwise_cons.mpr
        refine ⟨fun tag mem => ?_, disjoint⟩
        exact stop.trans (real tag mem).1
  | case2 index outside =>
    rw [tagsFrom, dif_neg outside]
    exact ⟨fun tag mem => absurd mem not_mem_nil, List.Pairwise.nil⟩

/-! ### The substrings -/

/-- The substring that is taken for a value. -/
def valueTaken (markup : Str) (index : ℕ) : List (ℕ × ℕ) :=
  if markup[index]? = some (unit '=') then
    let start := skipSpaces markup (index + 1)
    let quote := (markup.drop start).take 1
    if quote = ascii "\"" ∨ quote = ascii "'" then
      [(start + 1, past (indexOf markup quote (start + 1)) 0 markup.length)]
    else [(start, runEnd (fun character => !isSpace character && character != unit '>') markup start)]
  else []

/-- The substrings that are taken for the attributes of a tag. -/
def attributesTaken (markup : Str) (index : ℕ) : List (ℕ × ℕ) :=
  if inside : index < markup.length then
    if open_ : markup[index] = unit '>' then []
    else if shown : isSpace markup[index] = true ∨ markup[index] = unit '/' then
      attributesTaken markup (index + 1)
    else
      let cursor := runEnd (fun character => !isAttributeBreak character) markup index
      have := lt_attribute inside open_ shown
      (index, cursor) :: (valueTaken markup (skipSpaces markup cursor) ++
        attributesTaken markup (attributeValue markup (skipSpaces markup cursor)).2)
  else []
  termination_by markup.length - index

/-- The substrings that a turn takes.  Those whose end the source compares with the length right
before, one character at a time or at the length of a needle, are not among them. -/
def turnTaken (markup : Str) (index : ℕ) : List (ℕ × ℕ) :=
  match markup[index + 1]? with
  | none => []
  | some after =>
      if markup[index]? ≠ some (unit '<') ∨ after = unit '!' ∨ after = unit '?' then []
      else if after = unit '/' then [(index + 2, runEnd isNameChar markup (index + 2))]
      else if ¬ isNameStart after then []
      else
        (index + 1, runEnd isNameChar markup (index + 1)) ::
          attributesTaken markup (runEnd isNameChar markup (index + 1))

/-- A range of indices that a text has. -/
def InRange (markup : Str) (range : ℕ × ℕ) : Prop :=
  range.1 ≤ range.2 ∧ range.2 ≤ markup.length

theorem valueTaken_inRange : ∀ range ∈ valueTaken markup index, InRange markup range := by
  rw [valueTaken]
  split
  next equals =>
    have inside : index < markup.length := (List.getElem?_eq_some_iff.mp equals).1
    have start_le : skipSpaces markup (index + 1) ≤ markup.length := runEnd_le _ inside
    dsimp only
    split
    next quoted =>
      have opened : skipSpaces markup (index + 1) < markup.length := by
        by_contra outside
        rw [drop_eq_nil_of_le (by omega)] at quoted
        revert quoted
        decide
      have some_ : (markup.drop (skipSpaces markup (index + 1))).take 1 ≠ [] := by
        rw [← length_pos_iff, length_take, length_drop]
        omega
      have close := past_indexOf 0 some_ (Nat.succ_le_of_lt opened) (Nat.zero_le _)
      rw [forall_mem_singleton]
      exact ⟨close.1, close.2.1⟩
    next =>
      rw [forall_mem_singleton]
      exact ⟨le_runEnd _ _ _, runEnd_le _ start_le⟩
  next => exact fun range mem => absurd mem not_mem_nil

theorem attributesTaken_inRange (index : ℕ) :
  ∀ range ∈ attributesTaken markup index, InRange markup range
  := by
  induction index using attributesTaken.induct markup with
  | case1 index inside open_ =>
    rw [attributesTaken, dif_pos inside, dif_pos open_]
    exact fun range mem => absurd mem not_mem_nil
  | case2 index inside open_ shown ih =>
    rw [attributesTaken, dif_pos inside, dif_neg open_, dif_pos shown]
    exact ih
  | case3 index inside open_ shown cursor behind ih =>
    rw [attributesTaken, dif_pos inside, dif_neg open_, dif_neg shown, forall_mem_cons,
      forall_mem_append]
    exact ⟨⟨le_runEnd _ _ _, runEnd_le _ inside.le⟩, valueTaken_inRange, ih⟩
  | case4 index outside =>
    rw [attributesTaken, dif_neg outside]
    exact fun range mem => absurd mem not_mem_nil

theorem turnTaken_inRange (index : ℕ) : ∀ range ∈ turnTaken markup index, InRange markup range := by
  have empty : ∀ range ∈ ([] : List (ℕ × ℕ)), InRange markup range :=
    fun range mem => absurd mem not_mem_nil
  rw [turnTaken]
  split
  next => exact empty
  next after next_ =>
    have two : index + 1 < markup.length := (List.getElem?_eq_some_iff.mp next_).1
    split
    next => exact empty
    split
    next =>
      rw [forall_mem_singleton]
      exact ⟨le_runEnd _ _ _, runEnd_le _ two⟩
    split
    next => exact empty
    next =>
      rw [forall_mem_cons]
      exact ⟨⟨le_runEnd _ _ _, runEnd_le _ two.le⟩, attributesTaken_inRange _⟩

/-! ### The reading of a page -/

/-- Whether the closing tag of a raw text element stands at an index: its name is followed by
whitespace, a `/`, a `>` or the end of the page. -/
def closesRaw (markup name : Str) (index : ℕ) : Bool :=
  matchesAsciiInsensitive markup index (ascii "</" ++ name) &&
    (markup[index + (2 + name.length)]?).all fun next =>
      isSpace next || next == unit '/' || next == unit '>'

/-- Where a raw text body ends. -/
def bodyEnd (markup name : Str) (index : ℕ) : ℕ :=
  ((List.range' index (markup.length - index)).find? (closesRaw markup name)).getD markup.length

/-- Where the scan goes on. -/
def scanNext (markup : Str) (index : ℕ) : ℕ :=
  if index < markup.length then (scanTurn markup index).2 else index

/-- Where the reading of a page goes on, in which a raw text body ends at its closing tag. -/
def readNext (markup : Str) (index : ℕ) : ℕ :=
  if index < markup.length then
    match (scanTurn markup index).1.filter Tag.opensRaw with
    | some tag => bodyEnd markup tag.name tag.stop
    | none => (scanTurn markup index).2
  else index

/-- The reading of a page stands at an index, where text, a comment or a tag is next. -/
def Stands (markup : Str) (index : ℕ) : Prop :=
  ∃ turns, (readNext markup)^[turns] 0 = index ∧ index < markup.length

/-- A raw text element of a page, as it is read. -/
def Element (markup : Str) (tag : Tag) : Prop :=
  ∃ index, Stands markup index ∧ (scanTurn markup index).1 = some tag ∧ tag.opensRaw = true

theorem bodyEnd_spec (name : Str) (le : index ≤ markup.length) :
  index ≤ bodyEnd markup name index ∧ bodyEnd markup name index ≤ markup.length ∧
    (bodyEnd markup name index < markup.length →
      closesRaw markup name (bodyEnd markup name index) = true)
  := by
  rw [bodyEnd]
  cases found : (List.range' index (markup.length - index)).find? (closesRaw markup name) with
  | none => simpa using le
  | some e =>
    have mem := mem_range'_1.mp (mem_of_find?_eq_some found)
    rw [Option.getD_some]
    exact ⟨mem.1, by omega, fun _ => find?_some found⟩

theorem length_of_matches {needle : Str} (matched : matchesAsciiInsensitive markup index needle = true) :
  index + needle.length ≤ markup.length ∨ needle = []
  := by
  have lengths := congrArg List.length (eq_of_beq matched)
  rw [toLowercaseAscii, toLowercaseAscii, length_map, length_map, length_take, length_drop] at lengths
  rw [← length_eq_zero_iff]
  omega

/-- The scan goes on at the first occurrence of what a closing tag starts with. -/
theorem skipRawText_spec (markup name : Str) (index : ℕ) :
  (skipRawText markup index name < markup.length →
    matchesAsciiInsensitive markup (skipRawText markup index name) (ascii "</" ++ name) = true) ∧
  ∀ k, index ≤ k → k < skipRawText markup index name →
    ¬ matchesAsciiInsensitive markup k (ascii "</" ++ name) = true
  := by
  induction index using skipRawText.induct markup name with
  | case1 index closing fits matched =>
    rw [skipRawText, if_pos fits, if_pos matched]
    exact ⟨fun _ => matched, fun k le lt => by omega⟩
  | case2 index closing fits fails ih =>
    rw [skipRawText, if_pos fits, if_neg fails]
    refine ⟨ih.1, fun k le lt => ?_⟩
    obtain rfl | le := Nat.eq_or_lt_of_le le
    · exact fails
    · exact ih.2 k le lt
  | case3 index closing fits =>
    rw [skipRawText, if_neg fits]
    refine ⟨fun lt => absurd lt (Nat.lt_irrefl _), fun k le _ matched => ?_⟩
    obtain within | empty := length_of_matches matched
    · change ¬ index + (ascii "</" ++ name).length ≤ _ at fits
      omega
    · cases empty

/-- The scan skips a body as it should when nothing in it looks like a closing tag. -/
theorem skipRawText_eq (le : index ≤ markup.length)
    (clean : ∀ k, index ≤ k → k < bodyEnd markup name index →
      ¬ matchesAsciiInsensitive markup k (ascii "</" ++ name) = true) :
  skipRawText markup index name = bodyEnd markup name index
  := by
  obtain ⟨matched, before⟩ := skipRawText_spec markup name index
  obtain ⟨skip_le, skip_inside⟩ := skipRawText_bounds name le
  obtain ⟨end_le, end_inside, closes⟩ := bodyEnd_spec name le
  apply Nat.le_antisymm
  · by_contra lt
    rw [Nat.not_le] at lt
    apply before _ end_le lt (Bool.and_eq_true_iff.mp (closes (by omega))).1
  · by_contra lt
    rw [Nat.not_le] at lt
    exact clean _ skip_le lt (matched (by omega))

/-! ### Turns -/

theorem mem_tagsFrom :
  tag ∈ tagsFrom markup index ↔ ∃ turns, (scanNext markup)^[turns] index < markup.length ∧
    (scanTurn markup ((scanNext markup)^[turns] index)).1 = some tag
  := by
  induction index using tagsFrom.induct markup with
  | case1 index inside turn behind ih =>
    have next_ : scanNext markup index = (scanTurn markup index).2 := if_pos inside
    change tag ∈ tagsFrom markup (scanTurn markup index).2 ↔ _ at ih
    rw [tagsFrom, dif_pos inside]
    dsimp only
    rw [mem_append, ih, Option.mem_toList]
    constructor
    · rintro (reported | ⟨turns, found⟩)
      · exact ⟨0, inside, reported⟩
      · use turns + 1
        rwa [Function.iterate_succ_apply, next_]
    · rintro ⟨turns, found⟩
      cases turns with
      | zero => exact .inl found.2
      | succ turns =>
        right
        use turns
        rwa [Function.iterate_succ_apply, next_] at found
  | case2 index outside =>
    have still : scanNext markup index = index := if_neg outside
    rw [tagsFrom, dif_neg outside]
    refine iff_of_false not_mem_nil ?_
    rintro ⟨turns, lt, _⟩
    rw [Function.iterate_fixed still] at lt
    exact outside lt

theorem lt_readNext (inside : index < markup.length) : index < readNext markup index := by
  rw [readNext, if_pos inside]
  cases reported : (scanTurn markup index).1.filter Tag.opensRaw with
  | none => exact (scanTurn_bounds inside).1
  | some tag =>
    obtain ⟨start, real, _⟩ := scanTurn_tag inside (Option.filter_eq_some_iff.mp reported).1
    have le := (bodyEnd_spec tag.name real.inside.2).1
    have lt := real.inside.1
    dsimp only
    omega

/-- The reading does not come back to what it went past. -/
theorem Stands.apart {i j : ℕ} (first : Stands markup i) (second : Stands markup j) (lt : i < j) :
  readNext markup i ≤ j
  := by
  obtain ⟨n, rfl, inside⟩ := first
  obtain ⟨m, rfl, _⟩ := second
  have advances : id ≤ readNext markup := by
    intro index
    by_cases inside : index < markup.length
    · exact (lt_readNext inside).le
    · rw [readNext, if_neg inside]
      exact le_rfl
  have ordered := Function.monotone_iterate_of_id_le advances
  rw [← Function.iterate_succ_apply' (readNext markup) n 0]
  apply ordered
  by_contra le
  exact absurd (ordered (Nat.le_of_not_lt le) 0) (Nat.not_le.mpr lt)

/-- Where a comment ends that starts at an index. -/
def commentEnd (markup : Str) (index : ℕ) : ℕ :=
  past (indexOf markup (ascii "-->") (index + 4)) 3 markup.length

theorem scanTurn_comment (comment : (ascii "<!--").isPrefixOf (markup.drop index) = true) :
  scanTurn markup index = (none, commentEnd markup index)
  := by
  obtain ⟨rest, here⟩ := List.isPrefixOf_iff_prefix.mp comment
  have opens : (markup.drop index)[0]? = some (unit '<') := by
    rw [← here]
    rfl
  rw [getElem?_drop, Nat.add_zero] at opens
  rw [scanTurn, if_neg (not_not.mpr opens), if_pos comment]
  rfl

theorem eq_of_loweredUnit {u character : UInt16} (below : character < 65)
    (eq : loweredUnit u = character) :
  u = character
  := by
  rw [loweredUnit] at eq
  split at eq
  next upper =>
    rw [Bool.and_eq_true, decide_eq_true_iff, decide_eq_true_iff] at upper
    grind
  next => exact eq

/-- A tag is reported wherever a turn finds what a closing tag starts with. -/
theorem scanTurn_closing (matched : matchesAsciiInsensitive markup index (ascii "</" ++ name) = true) :
  ∃ tag, (scanTurn markup index).1 = some tag
  := by
  have same := eq_of_beq matched
  change toLowercaseAscii ((markup.drop index).take (name.length + 2)) =
    unit '<' :: unit '/' :: toLowercaseAscii name at same
  obtain ⟨first, rest, here⟩ := exists_cons_of_ne_nil (l := markup.drop index) fun empty => by
    rw [empty] at same
    cases same
  rw [here, take_succ_cons, toLowercaseAscii, map_cons, cons.injEq] at same
  obtain ⟨lowered, same⟩ := same
  obtain ⟨second, rest', here'⟩ := exists_cons_of_ne_nil (l := rest) fun empty => by
    rw [empty] at same
    cases same
  rw [here', take_succ_cons, map_cons, cons.injEq] at same
  subst here'
  have lowered' := same.1
  obtain rfl := eq_of_loweredUnit (by decide) lowered
  obtain rfl := eq_of_loweredUnit (by decide) lowered'
  have opens : markup[index]? = some (unit '<') := by
    rw [← Nat.add_zero index, ← getElem?_drop, here]
    rfl
  have slash : markup[index + 1]? = some (unit '/') := by
    rw [← getElem?_drop, here]
    rfl
  have plain : ¬ (ascii "<!--").isPrefixOf (markup.drop index) = true := by
    rw [here, List.isPrefixOf_iff_prefix]
    rintro ⟨rest, eq⟩
    have differ : unit '!' ≠ unit '/' := by decide
    exact differ (cons.inj (cons.inj eq).2).1
  rw [scanTurn, if_neg (not_not.mpr opens), if_neg plain]
  simp only [slash]
  rw [if_neg (by decide), if_pos trivial]
  exact ⟨_, rfl⟩

/-- The scan takes substrings that the page has, and its tags are ranges of the page, in order, that
stand neither in a comment nor in the body of a script or a style. -/
structure ReadsRealTags (markup : Str) : Prop where
  taken : ∀ turns, ∀ range ∈ turnTaken markup ((scanNext markup)^[turns] 0), InRange markup range
  real : ∀ tag ∈ tagsOf markup, tag.Real markup
  ascending : (tagsOf markup).Pairwise fun tag later => tag.stop ≤ later.start
  outsideComments : ∀ index, Stands markup index →
    (ascii "<!--").isPrefixOf (markup.drop index) = true → ∀ tag ∈ tagsOf markup,
      ¬ (index ≤ tag.start ∧ tag.start < commentEnd markup index)
  outsideBodies : ∀ element, Element markup element → ∀ tag ∈ tagsOf markup,
    ¬ (element.stop ≤ tag.start ∧ tag.start < bodyEnd markup element.name element.stop)

/-- No body of a script or a style contains what its closing tag starts with. -/
def CleanBodies (markup : Str) : Prop :=
  ∀ element, Element markup element → ∀ k, element.stop ≤ k →
    k < bodyEnd markup element.name element.stop →
      ¬ matchesAsciiInsensitive markup k (ascii "</" ++ element.name) = true

/-- Where no body misleads it, the scan goes on where the reading does. -/
theorem readNext_eq (clean : ∀ element, (scanTurn markup index).1 = some element →
      element.opensRaw = true → index < markup.length → ∀ k, element.stop ≤ k →
        k < bodyEnd markup element.name element.stop →
          ¬ matchesAsciiInsensitive markup k (ascii "</" ++ element.name) = true) :
  readNext markup index = scanNext markup index
  := by
  rw [readNext, scanNext]
  split
  next inside =>
    cases reported : (scanTurn markup index).1.filter Tag.opensRaw with
    | none => rfl
    | some tag =>
      obtain ⟨reported, raw⟩ := Option.filter_eq_some_iff.mp reported
      obtain ⟨_, real, next_⟩ := scanTurn_tag inside reported
      rw [next_, if_pos raw]
      exact (skipRawText_eq real.inside.2 (clean tag reported raw inside)).symm
  next => rfl

/-- In a page with clean bodies the scan stands where the reading does. -/
theorem CleanBodies.agrees (clean : CleanBodies markup) (turns : ℕ) :
  (readNext markup)^[turns] 0 = (scanNext markup)^[turns] 0
  := by
  induction turns with
  | zero => rfl
  | succ turns ih =>
    rw [Function.iterate_succ_apply', Function.iterate_succ_apply', ← ih]
    apply readNext_eq
    intro element reported raw inside
    exact clean element ⟨_, ⟨turns, rfl, inside⟩, reported, raw⟩

variable {turns : ℕ}

/-- A body that misleads the scan has it report a tag inside that body. -/
theorem ReadsRealTags.clean (reads : ReadsRealTags markup)
    (agree : (readNext markup)^[turns] 0 = (scanNext markup)^[turns] 0) {element : Tag}
    (inside : (readNext markup)^[turns] 0 < markup.length)
    (reported : (scanTurn markup ((readNext markup)^[turns] 0)).1 = some element)
    (raw : element.opensRaw = true) {k : ℕ} (le : element.stop ≤ k)
    (lt : k < bodyEnd markup element.name element.stop) :
  ¬ matchesAsciiInsensitive markup k (ascii "</" ++ element.name) = true
  := by
  intro misleads
  obtain ⟨_, real, next_⟩ := scanTurn_tag inside reported
  rw [if_pos raw] at next_
  obtain ⟨matched, before⟩ := skipRawText_spec markup element.name element.stop
  have skip_le : skipRawText markup element.stop element.name ≤ k := by
    by_contra behind
    exact before k le (Nat.lt_of_not_le behind) misleads
  have skip_lt := skip_le.trans_lt lt
  have within := skip_lt.trans_le (bodyEnd_spec element.name real.inside.2).2.1
  obtain ⟨tag, closing⟩ := scanTurn_closing (matched within)
  have mem : tag ∈ tagsOf markup := by
    apply mem_tagsFrom.mpr
    use turns + 1
    rw [Function.iterate_succ_apply', ← agree, scanNext, if_pos inside, next_]
    exact ⟨within, closing⟩
  apply reads.outsideBodies element ⟨_, ⟨turns, rfl, inside⟩, reported, raw⟩ tag mem
  rw [(scanTurn_tag within closing).1]
  exact ⟨(skipRawText_bounds _ real.inside.2).1, skip_lt⟩

/-- Where the scan reports only real tags, it stands where the reading does. -/
theorem ReadsRealTags.agrees (reads : ReadsRealTags markup) (turns : ℕ) :
  (readNext markup)^[turns] 0 = (scanNext markup)^[turns] 0
  := by
  induction turns with
  | zero => rfl
  | succ turns ih =>
    rw [Function.iterate_succ_apply', Function.iterate_succ_apply', ← ih]
    apply readNext_eq
    intro element reported raw inside k
    exact reads.clean ih inside reported raw

/-- The scanner reads only real tags exactly when no body of a script or a style contains what its
closing tag starts with, followed by more of a name. -/
theorem readsRealTags_iff (markup : Str) : ReadsRealTags markup ↔ CleanBodies markup := by
  constructor
  · rintro reads element ⟨_, ⟨turns, rfl, inside⟩, reported, raw⟩
    intro k
    exact reads.clean (reads.agrees turns) inside reported raw
  · intro clean
    have stands : ∀ tag ∈ tagsOf markup, Stands markup tag.start ∧
        (scanTurn markup tag.start).1 = some tag := by
      intro tag mem
      obtain ⟨turns, inside, reported⟩ := mem_tagsFrom.mp mem
      rw [← clean.agrees] at inside reported
      obtain ⟨start, _, _⟩ := scanTurn_tag inside reported
      rw [start]
      exact ⟨⟨turns, rfl, inside⟩, reported⟩
    refine ⟨fun turns => turnTaken_inRange _, fun tag mem => ((tagsFrom_real 0).1 tag mem).2,
      (tagsFrom_real 0).2, ?_, ?_⟩
    · rintro index here comment tag mem ⟨le, lt⟩
      obtain ⟨there, reported⟩ := stands tag mem
      have skipped := scanTurn_comment comment
      obtain rfl | behind := Nat.eq_or_lt_of_le le
      · rw [skipped] at reported
        cases reported
      · have apart := here.apart there behind
        obtain ⟨_, _, inside⟩ := here
        rw [readNext, if_pos inside, skipped] at apart
        exact absurd apart (Nat.not_le.mpr lt)
    · rintro element ⟨index, here, found, raw⟩ tag mem ⟨le, lt⟩
      obtain ⟨there, reported⟩ := stands tag mem
      obtain ⟨_, _, inside⟩ := id here
      obtain ⟨rfl, real, _⟩ := scanTurn_tag inside found
      have apart := here.apart there (real.inside.1.trans_le le)
      have kept : (some element).filter Tag.opensRaw = some element := by
        rw [Option.filter_some, if_pos raw]
      rw [readNext, if_pos inside, found, kept] at apart
      exact absurd apart (Nat.not_le.mpr lt)

/-- A closing tag with a longer name is reported from inside the body of a script. -/
theorem not_readsRealTags_scripty : ¬ ∀ markup, ReadsRealTags markup := by
  intro reads
  have element : Element (ascii "<script></scripty></script>") ⟨ascii "script", [], 0, 8, false⟩ :=
    ⟨0, ⟨0, rfl, by decide⟩, by decide +kernel, by decide⟩
  apply (reads _).outsideBodies _ element ⟨ascii "scripty", [], 8, 18, true⟩ (by decide +kernel)
  decide +kernel

end Vilan.Web
