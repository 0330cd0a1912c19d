import Mathlib.Data.Bool.AllAny
import Vilan.Web.Document
import Vilan.Web.Reads

/-!
# Written pages and their check

What the scanner reads of a document that std writes, and what the check says of it.  The values of
attributes are escaped when they are written and read as they stand, so that the check agrees with
the page exactly when nothing in the id to mount at had to be escaped.
-/

namespace Vilan.Web

open List

/-! ### Elements -/

/-- Attributes as a page writes them. -/
def written (attributes : List (Str × Str)) : Str :=
  attributes.flatMap fun entry =>
    ascii " " ++ entry.1 ++ ascii "=\"" ++ entry.2 ++ ascii "\""

/-- The name of an attribute that is read as it is written. -/
def AttributeName (name : Str) : Prop :=
  name ≠ [] ∧ name.all (fun u => !isAttributeBreak u) = true ∧ toLowercaseAscii name = name

instance : DecidablePred AttributeName := fun name =>
  inferInstanceAs (Decidable (name ≠ [] ∧ name.all (fun u => !isAttributeBreak u) = true ∧
    toLowercaseAscii name = name))

/-- The name and the value of an attribute are read as they are written. -/
structure Writable (entry : Str × Str) : Prop where
  named : AttributeName entry.1
  unquoted : unit '"' ∉ entry.2

variable {name value ending by_ : Str}

theorem writable (named : AttributeName name) (unquoted : unit '"' ∉ value) :
  Writable (name, value)
  := ⟨named, unquoted⟩

theorem readsAttributes_written {attributes : List (Str × Str)}
    (all : ∀ entry ∈ attributes, Writable entry) (ends : ReadsAttributes ending []) :
  ReadsAttributes (written attributes ++ ending) attributes
  := by
  induction attributes with
  | nil => apply ends
  | cons entry attributes ih =>
    obtain ⟨⟨named, name_chars, lowered⟩, unquoted⟩ := all entry mem_cons_self
    have rest := ih fun other mem => all other (mem_cons_of_mem _ mem)
    have space : isSpace (unit ' ') = true := by decide
    have first := readsAttributes_skip (.inl space)
      (readsAttributes_quoted named name_chars lowered unquoted rest)
    have split : written (entry :: attributes) ++ ending =
        unit ' ' :: (entry.1 ++ ascii "=\"" ++ entry.2 ++ ascii "\"" ++
          (written attributes ++ ending)) := by
      simp only [written, flatMap_cons, append_assoc]
      rfl
    rw [split]
    apply first

/-- What stands between the attributes of a tag and its end. -/
inductive Ending : Str → Prop where
  | none : Ending []
  | slash : Ending (ascii " /")

theorem Ending.reads (ends : Ending ending) : ReadsAttributes ending [] := by
  cases ends with
  | none => apply readsAttributes_nil
  | slash =>
    change ReadsAttributes [unit ' ', unit '/'] []
    apply readsAttributes_skip (.inl (by decide))
    apply readsAttributes_skip (.inr rfl)
    apply readsAttributes_nil

theorem Ending.breaks {attributes : List (Str × Str)} (ends : Ending ending) :
  ∀ u ∈ (written attributes ++ ending).head?, isNameChar u = false
  := by
  cases attributes with
  | nil =>
    cases ends with
    | none => nofun
    | slash =>
      intro u mem
      have first : unit ' ' = u := Option.some_inj.mp mem
      rw [← first]
      decide
  | cons entry attributes =>
    intro u mem
    have first : unit ' ' = u := Option.some_inj.mp mem
    rw [← first]
    decide

/-- The name of a tag that is read as it is written, and that has no raw text. -/
def TagName (name : Str) : Prop :=
  name.head?.any isNameStart = true ∧ name.all isNameChar = true ∧ toLowercaseAscii name = name ∧
    name ≠ ascii "script" ∧ name ≠ ascii "style"

instance : DecidablePred TagName := fun name =>
  inferInstanceAs (Decidable (name.head?.any isNameStart = true ∧ name.all isNameChar = true ∧
    toLowercaseAscii name = name ∧ name ≠ ascii "script" ∧ name ≠ ascii "style"))

theorem reads_element (name : Str) (attributes : List (Str × Str)) (tag : TagName name)
    (all : ∀ entry ∈ attributes, Writable entry) (ends : Ending ending) :
  Reads (ascii "<" ++ name ++ written attributes ++ ending ++ ascii ">") [opening name attributes]
  := by
  obtain ⟨starts, name_chars, lowered, not_raw⟩ := tag
  cases name with
  | nil => cases starts
  | cons first name =>
    rw [all_cons, Bool.and_eq_true] at name_chars
    have reads := reads_opening starts name_chars.2 lowered not_raw ends.breaks
      (readsAttributes_written all ends.reads)
    have split : ascii "<" ++ first :: name ++ written attributes ++ ending ++ ascii ">" =
        unit '<' :: first :: name ++ (written attributes ++ ending ++ ascii ">") := by
      simp only [append_assoc]
      rfl
    rw [split]
    apply reads

/-! ### Escapes -/

theorem mem_replace {character u : UInt16} (mem : u ∈ replace value character by_) :
  u ∈ value ∧ u ≠ character ∨ u ∈ by_
  := by
  rw [replace, mem_flatMap] at mem
  obtain ⟨v, v_mem, mem⟩ := mem
  split at mem
  next => right; apply mem
  next ne =>
    rw [mem_singleton] at mem
    subst mem
    left
    exact ⟨v_mem, ne⟩

theorem replace_of_not_mem {character : UInt16} (new : character ∉ value) :
  replace value character by_ = value
  := by
  induction value with
  | nil => rfl
  | cons u value ih =>
    rw [mem_cons, not_or] at new
    rw [replace, flatMap_cons, if_neg (Ne.symm new.1)]
    change u :: replace value character by_ = _
    rw [ih new.2]

theorem length_replace (value : Str) (character : UInt16) (longer : 1 < by_.length) :
  value.length ≤ (replace value character by_).length ∧
    (character ∈ value → value.length < (replace value character by_).length)
  := by
  induction value with
  | nil => simp [replace]
  | cons u value ih =>
    have split : replace (u :: value) character by_ =
        (if u = character then by_ else [u]) ++ replace value character by_ := rfl
    obtain ⟨le, lt⟩ := ih
    rw [split, length_append, length_cons, mem_cons]
    split
    next => omega
    next ne =>
      rw [length_singleton]
      constructor
      · omega
      · rintro (rfl | mem)
        · contradiction
        · have := lt mem
          omega

theorem not_mem_escapeText (value : Str) : unit '<' ∉ escapeText value := by
  intro mem
  rcases mem_replace mem with ⟨mem, _⟩ | mem
  · rcases mem_replace mem with ⟨_, ne⟩ | mem
    · contradiction
    · revert mem
      decide
  · revert mem
    decide

theorem not_mem_escapeAttribute (value : Str) : unit '"' ∉ escapeAttribute value := by
  intro mem
  rcases mem_replace mem with ⟨_, ne⟩ | mem
  · contradiction
  · revert mem
    decide

/-- Exactly what carries no ampersand and no double quote is written as it is. -/
theorem escapeAttribute_eq_iff :
  escapeAttribute value = value ↔ unit '&' ∉ value ∧ unit '"' ∉ value
  := by
  have ampersand_longer : 1 < (ascii "&amp;").length := by decide
  have quote_longer : 1 < (ascii "&quot;").length := by decide
  have ampersands := length_replace value (unit '&') ampersand_longer
  have quotes := length_replace (replace value (unit '&') (ascii "&amp;")) (unit '"') quote_longer
  constructor
  · intro eq
    have length := congrArg List.length eq
    rw [escapeAttribute] at length
    have none_ : unit '&' ∉ value := by
      intro mem
      have := ampersands.2 mem
      omega
    refine ⟨none_, ?_⟩
    rw [replace_of_not_mem none_] at quotes length
    intro mem
    have := quotes.2 mem
    omega
  · rintro ⟨ampersand, quote⟩
    rw [escapeAttribute, replace_of_not_mem ampersand, replace_of_not_mem quote]

/-! ### Names and urls -/

/-- A plain file name: no markup, quote, whitespace, slash, question mark or hash. -/
def PlainName (name : Str) : Prop :=
  ∀ u ∈ name, u ∉ ascii "<>&\"' \t\n\r/?#"

instance : DecidablePred PlainName := fun name =>
  decidable_of_iff (name.all (fun u => decide (u ∉ ascii "<>&\"' \t\n\r/?#")) = true)
    all_iff_forall_prop

/-- A build whose names are plain, with its bundle and its styles in the namespace of the leg. -/
structure LegBuild.Plain (build : LegBuild) : Prop where
  leg : PlainName build.leg
  bundle : PlainName build.bundle
  styles : ∀ sidecar ∈ build.styles, PlainName sidecar
  chunks : ∀ chunk ∈ build.chunks, PlainName chunk
  owns_bundle : legOwns build build.bundle = true
  owns_styles : ∀ sidecar ∈ build.styles, legOwns build sidecar = true

theorem PlainName.not_mem (plain : PlainName name) {u : UInt16}
    (special : u ∈ ascii "<>&\"' \t\n\r/?#") :
  u ∉ name
  := by
  intro mem
  apply plain u mem special

theorem split_head {text : Str} {separator : UInt16} (new : separator ∉ text) :
  (Str.split text separator).headD [] = text
  := by
  have single : text.splitOn separator = [text] := by
    apply splitOnP_eq_singleton
    intro u mem
    rw [beq_eq_false_iff_ne]
    rintro rfl
    apply new mem
  rw [Str.split, single]
  rfl

theorem fileNameOf_root (plain : PlainName name) :
  fileNameOf (unit '/' :: name) = name
  := by
  have query : unit '?' ∉ unit '/' :: name := by
    rw [mem_cons, not_or]
    exact ⟨by decide, plain.not_mem (by decide)⟩
  have fragment : unit '#' ∉ unit '/' :: name := by
    rw [mem_cons, not_or]
    exact ⟨by decide, plain.not_mem (by decide)⟩
  rw [fileNameOf, split_head query, split_head fragment, Path.basename_root]
  apply plain.not_mem
  decide

theorem isLocal_root (plain : PlainName name) :
  isLocal (unit '/' :: name) = true
  := by
  have no_slash : unit '/' ∉ name := plain.not_mem (by decide)
  have scheme : Search.find (ascii "://") (unit '/' :: name) = none := by
    rw [Search.find_eq_none_iff (by decide)]
    intro i occurs
    have sublist := occurs.sublist.trans (drop_sublist i _)
    have twice := sublist.count_le (unit '/')
    rw [count_cons_self, count_eq_zero_of_not_mem no_slash] at twice
    revert twice
    decide
  have relative : (ascii "//").isPrefixOf (unit '/' :: name) = false := by
    cases name with
    | nil => decide
    | cons u name =>
      rw [mem_cons, not_or] at no_slash
      have other : (unit '/' == u) = false := by
        rw [beq_eq_false_iff_ne]
        apply no_slash.1
      change (unit '/' == unit '/' && (unit '/' == u && _)) = false
      rw [other]
      rfl
  have data : (ascii "data:").isPrefixOf (unit '/' :: name) = false := rfl
  rw [isLocal, scheme, relative, data]
  rfl

/-! ### The page -/

/-- A document written from its build, without raw markup in it. -/
def writtenDocument (build : LegBuild) (title description lang mount : Str) : Document :=
  ((((Document.of build).withTitle title).withDescription description).withLang lang).withMount
    mount

/-- The tags of a page that std writes. -/
def pageTags (build : LegBuild) (description lang mount : Str) : List Tag :=
  [opening (ascii "html") [(ascii "lang", escapeAttribute lang)], opening (ascii "head") [],
    opening (ascii "meta") [(ascii "charset", ascii "utf-8")],
    opening (ascii "meta") [(ascii "name", ascii "viewport"),
      (ascii "content", ascii "width=device-width, initial-scale=1")],
    opening (ascii "title") [], closing (ascii "title")] ++
  (if description ≠ [] then
    [opening (ascii "meta") [(ascii "name", ascii "description"),
      (ascii "content", escapeAttribute description)]]
  else []) ++
  (match build.styles with
  | some sidecar =>
      [opening (ascii "link") [(ascii "rel", ascii "stylesheet"), (ascii "href", unit '/' :: sidecar)]]
  | none => []) ++
  [closing (ascii "head"), opening (ascii "body") [],
    opening (ascii "div") [(ascii "id", escapeAttribute mount)], closing (ascii "div")] ++
  [opening (ascii "script")
    ((if build.classicScript then [] else [(ascii "type", ascii "module")]) ++
      [(ascii "src", unit '/' :: build.bundle)]), closing (ascii "script")] ++
  [closing (ascii "body"), closing (ascii "html")]

theorem reads_doctype : Reads (ascii "<!doctype html>\n") [] := by
  have parts : ascii "<!doctype html>\n" = ascii "<!doctype html>" ++ ascii "\n" := by decide
  rw [parts]
  rw [← append_nil ([] : List Tag)]
  apply Reads.append ?_ (reads_text _ (by decide))
  change Reads (unit '<' :: ascii "!doctype html>") (none : Option Tag).toList
  apply reads_of_turn
  intro markup index rest here
  have bracket : markup[index]? = some (unit '<') := inside_of_drop here
  have body : markup.drop (index + 1) = ascii "!doctype html" ++ (unit '>' :: rest) :=
    drop_behind [unit '<'] here
  have after : markup[index + 1]? = some (unit '!') := inside_of_drop body
  have not_comment : (ascii "<!--").isPrefixOf (markup.drop index) = false := by
    rw [here]
    rfl
  have closes : indexOf markup (ascii ">") (index + 1) = some (index + 1 + 13) :=
    indexOf_unit _ body (by decide)
  rw [scanTurn, if_neg (not_not.mpr bracket), if_neg (by simp [not_comment]), after]
  simp only [true_or, if_true, closes, past]
  exact ⟨rfl, rfl⟩

/-- An element on a line of its own. -/
theorem reads_line (indent name : Str) (attributes : List (Str × Str)) (plain : unit '<' ∉ indent)
    (tag : TagName name) (all : ∀ entry ∈ attributes, Writable entry) (ends : Ending ending) :
  Reads (indent ++ (ascii "<" ++ name ++ written attributes ++ ending ++ ascii ">") ++ ascii "\n")
    [opening name attributes]
  := by
  have element := reads_element name attributes tag all ends
  have line := ((reads_text _ plain).append element).append (reads_text (ascii "\n") (by decide))
  rw [nil_append, append_nil] at line
  apply line

theorem reads_html (lang : Str) :
  Reads (ascii "<html lang=\"" ++ escapeAttribute lang ++ ascii "\">\n")
    [opening (ascii "html") [(ascii "lang", escapeAttribute lang)]]
  := by
  have line := reads_line [] (ascii "html") [(ascii "lang", escapeAttribute lang)] (by decide) (by decide) (by
        simp only [mem_singleton, forall_eq]
        exact writable (by decide) (not_mem_escapeAttribute lang)) .none
  simp only [written, flatMap_cons, flatMap_nil, append_assoc, append_nil, nil_append] at line ⊢
  apply line

theorem reads_head : Reads (ascii "\t<head>\n") [opening (ascii "head") []] := by
  have parts : ascii "\t<head>\n" =
      ascii "\t" ++ (ascii "<" ++ ascii "head" ++ written [] ++ [] ++ ascii ">") ++ ascii "\n" := by
    decide
  rw [parts]
  apply reads_line _ _ _ (by decide) (by decide) (by simp) .none

theorem reads_charset :
  Reads (ascii "\t\t<meta charset=\"utf-8\" />\n")
    [opening (ascii "meta") [(ascii "charset", ascii "utf-8")]]
  := by
  have parts : ascii "\t\t<meta charset=\"utf-8\" />\n" =
      ascii "\t\t" ++ (ascii "<" ++ ascii "meta" ++ written [(ascii "charset", ascii "utf-8")] ++
        ascii " /" ++ ascii ">") ++ ascii "\n" := by
    decide
  rw [parts]
  apply reads_line _ _ _ (by decide) (by decide) ?_ .slash
  simp only [mem_singleton, forall_eq]
  exact ⟨by decide, by decide⟩

theorem reads_viewport :
  Reads (ascii "\t\t<meta name=\"viewport\" content=\"width=device-width, initial-scale=1\" />\n")
    [opening (ascii "meta") [(ascii "name", ascii "viewport"),
      (ascii "content", ascii "width=device-width, initial-scale=1")]]
  := by
  have parts :
      ascii "\t\t<meta name=\"viewport\" content=\"width=device-width, initial-scale=1\" />\n" =
      ascii "\t\t" ++ (ascii "<" ++ ascii "meta" ++ written [(ascii "name", ascii "viewport"),
        (ascii "content", ascii "width=device-width, initial-scale=1")] ++ ascii " /" ++ ascii ">") ++
        ascii "\n" := by
    decide
  rw [parts]
  apply reads_line _ _ _ (by decide) (by decide) ?_ .slash
  simp only [mem_cons, not_mem_nil, or_false, forall_eq_or_imp, forall_eq]
  exact ⟨⟨by decide, by decide⟩, ⟨by decide, by decide⟩⟩

theorem reads_title (title : Str) :
  Reads (ascii "\t\t<title>" ++ escapeText title ++ ascii "</title>\n")
    [opening (ascii "title") [], closing (ascii "title")]
  := by
  have opens : ascii "\t\t<title>" =
      ascii "\t\t" ++ (ascii "<" ++ ascii "title" ++ written [] ++ [] ++ ascii ">") := by
    decide
  have closes : ascii "</title>\n" = (ascii "</" ++ ascii "title" ++ ascii ">") ++ ascii "\n" := by
    decide
  have element := reads_element (ascii "title") [] (by decide) (by simp) .none
  have closed := reads_closing (ascii "title") (by decide) (by decide)
  have whole := (((reads_text (ascii "\t\t") (by decide)).append element).append
    (reads_text _ (not_mem_escapeText title))).append
      (closed.append (reads_text (ascii "\n") (by decide)))
  rw [opens, closes]
  apply whole

theorem reads_description (description : Str) :
  Reads (ascii "\t\t<meta name=\"description\" content=\"" ++ escapeAttribute description ++
      ascii "\" />\n")
    [opening (ascii "meta") [(ascii "name", ascii "description"),
      (ascii "content", escapeAttribute description)]]
  := by
  have line := reads_line (ascii "\t\t") (ascii "meta") [(ascii "name", ascii "description"),
      (ascii "content", escapeAttribute description)] (by decide) (by decide) (by
        simp only [mem_cons, not_mem_nil, or_false, forall_eq_or_imp, forall_eq]
        exact ⟨⟨by decide, by decide⟩,
          writable (by decide) (not_mem_escapeAttribute description)⟩) .slash
  simp only [written, flatMap_cons, flatMap_nil, append_assoc, append_nil]
    at line ⊢
  apply line

theorem reads_stylesheet {sidecar : Str} (plain : PlainName sidecar) :
  Reads (ascii "\t\t<link rel=\"stylesheet\" href=\"/" ++ sidecar ++ ascii "\" />\n")
    [opening (ascii "link") [(ascii "rel", ascii "stylesheet"),
      (ascii "href", unit '/' :: sidecar)]]
  := by
  have unquoted : unit '"' ∉ unit '/' :: sidecar := by
    rw [mem_cons, not_or]
    exact ⟨by decide, plain.not_mem (by decide)⟩
  have line := reads_line (ascii "\t\t") (ascii "link") [(ascii "rel", ascii "stylesheet"), (ascii "href", unit '/' :: sidecar)]
    (by decide) (by decide) (by
      simp only [mem_cons, not_mem_nil, or_false, forall_eq_or_imp, forall_eq]
      exact ⟨⟨by decide, by decide⟩, writable (by decide) unquoted⟩)
      .slash
  simp only [written, flatMap_cons, flatMap_nil, append_assoc, append_nil]
    at line ⊢
  apply line

theorem reads_body :
  Reads (ascii "\t</head>\n" ++ ascii "\t<body>\n")
    [closing (ascii "head"), opening (ascii "body") []]
  := by
  have closes : ascii "\t</head>\n" =
      ascii "\t" ++ (ascii "</" ++ ascii "head" ++ ascii ">") ++ ascii "\n" := by
    decide
  have opens : ascii "\t<body>\n" =
      ascii "\t" ++ (ascii "<" ++ ascii "body" ++ written [] ++ [] ++ ascii ">") ++ ascii "\n" := by
    decide
  have closed := ((reads_text (ascii "\t") (by decide)).append
    (reads_closing (ascii "head") (by decide) (by decide))).append
      (reads_text (ascii "\n") (by decide))
  have opened := reads_line (ascii "\t") (ascii "body") []
    (by decide) (by decide) (by simp) .none
  rw [closes, opens]
  apply closed.append opened

theorem reads_mount (mount : Str) :
  Reads (ascii "\t\t<div id=\"" ++ escapeAttribute mount ++ ascii "\">" ++ [] ++ ascii "</div>\n")
    [opening (ascii "div") [(ascii "id", escapeAttribute mount)], closing (ascii "div")]
  := by
  have element := reads_element (ascii "div") [(ascii "id", escapeAttribute mount)] (by decide) (by
        simp only [mem_singleton, forall_eq]
        exact writable (by decide) (not_mem_escapeAttribute mount)) .none
  have closed := reads_closing (ascii "div") (by decide) (by decide)
  have whole := ((reads_text (ascii "\t\t") (by decide)).append element).append
    (closed.append (reads_text (ascii "\n") (by decide)))
  simp only [written, flatMap_cons, flatMap_nil, append_assoc, append_nil, nil_append] at whole ⊢
  apply whole

theorem reads_bundle {build : LegBuild} (plain : PlainName build.bundle) :
  Reads (ascii "\t\t" ++ scriptTag build ++ ascii "\n")
    [opening (ascii "script")
      ((if build.classicScript then [] else [(ascii "type", ascii "module")]) ++
        [(ascii "src", unit '/' :: build.bundle)]), closing (ascii "script")]
  := by
  have unquoted : unit '"' ∉ unit '/' :: build.bundle := by
    rw [mem_cons, not_or]
    exact ⟨by decide, plain.not_mem (by decide)⟩
  have src : Writable (ascii "src", unit '/' :: build.bundle) :=
    writable (by decide) unquoted
  have module_ : Writable (ascii "type", ascii "module") :=
    ⟨by decide, by decide⟩
  have element (attributes : List (Str × Str)) (all : ∀ entry ∈ attributes, Writable entry) :=
    ((reads_text (ascii "\t\t") (by decide)).append
      (reads_script Ending.none.breaks (readsAttributes_written all readsAttributes_nil))).append
        (reads_text (ascii "\n") (by decide))
  rw [scriptTag]
  split
  next =>
    have whole := element [(ascii "src", unit '/' :: build.bundle)] (by
      simp only [mem_singleton, forall_eq]
      apply src)
    simp only [written, flatMap_cons, flatMap_nil, append_assoc, append_nil, nil_append] at whole ⊢
    apply whole
  next =>
    have whole := element [(ascii "type", ascii "module"),
      (ascii "src", unit '/' :: build.bundle)] (by
      simp only [mem_cons, not_mem_nil, or_false, forall_eq_or_imp, forall_eq]
      exact ⟨module_, src⟩)
    simp only [written, flatMap_cons, flatMap_nil, append_assoc, append_nil, nil_append] at whole ⊢
    apply whole

theorem reads_end :
  Reads (ascii "\t</body>\n</html>\n") [closing (ascii "body"), closing (ascii "html")]
  := by
  have parts : ascii "\t</body>\n</html>\n" =
      ascii "\t" ++ (ascii "</" ++ ascii "body" ++ ascii ">") ++ ascii "\n" ++
        (ascii "</" ++ ascii "html" ++ ascii ">") ++ ascii "\n" := by
    decide
  rw [parts]
  apply ((((reads_text (ascii "\t") (by decide)).append
    (reads_closing (ascii "body") (by decide) (by decide))).append
      (reads_text (ascii "\n") (by decide))).append
        (reads_closing (ascii "html") (by decide) (by decide))).append
          (reads_text (ascii "\n") (by decide))

/-- The tags of a page are those that it was written with. -/
theorem reads_page {build : LegBuild} (plain : build.Plain) (title description lang mount : Str) :
  Reads (writtenDocument build title description lang mount).generated
    (pageTags build description lang mount)
  := by
  have describes : Reads
      (if description ≠ [] then
        ascii "\t\t<meta name=\"description\" content=\"" ++ escapeAttribute description ++
          ascii "\" />\n"
      else [])
      (if description ≠ [] then
        [opening (ascii "meta") [(ascii "name", ascii "description"),
          (ascii "content", escapeAttribute description)]]
      else []) := by
    split
    next => apply reads_description
    next => apply reads_nil
  have links : Reads
      (match build.styles with
      | some sidecar => ascii "\t\t<link rel=\"stylesheet\" href=\"/" ++ sidecar ++ ascii "\" />\n"
      | none => [])
      (match build.styles with
      | some sidecar =>
          [opening (ascii "link") [(ascii "rel", ascii "stylesheet"),
            (ascii "href", unit '/' :: sidecar)]]
      | none => []) := by
    cases styles : build.styles with
    | none => apply reads_nil
    | some sidecar => apply reads_stylesheet (plain.styles sidecar styles)
  have front := ((((reads_doctype.append (reads_html lang)).append reads_head).append
    reads_charset).append reads_viewport).append (reads_title title)
  have whole := ((((((front.append describes).append links).append reads_body).append
    (reads_mount mount)).append (reads_bundle plain.bundle)).append reads_end)
  simp only [append_assoc, nil_append, append_nil, cons_append] at whole
  simp only [Document.generated, pageTags, writtenDocument, Document.of, Document.withTitle,
    Document.withDescription, Document.withLang, Document.withMount, ne_eq, not_true_eq_false,
    if_false, append_assoc, nil_append, append_nil, cons_append] at whole ⊢
  apply whole

end Vilan.Web
