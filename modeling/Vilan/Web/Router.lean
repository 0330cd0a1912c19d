import Vilan.Library.Table
import Vilan.Native.UrlRuns

/-!
# Paths taken apart

The path of a url cut into segments, query and fragment and then decoded, piece by piece.  The cuts
go by marks that no encoded text contains, so that a path reads back as it is printed.
-/

namespace Vilan.Web.Router

open List Option Native.Url

/-! ### Reading -/

abbrev Text := List Char

/-- What is before the first occurrence of a mark and what is behind it, if there is one. -/
def cutAt (text : Text) (mark : Char) : Option (Text × Text) :=
  let pieces := text.splitOn mark
  if pieces.length > 1 then
    let index := (pieces.headD []).length
    some (text.take index, text.drop (index + 1))
  else none

/-- The pieces between marks, without the empty ones. -/
def piecesOf (text : Text) (mark : Char) : List Text :=
  (text.splitOn mark).filter (· ≠ [])

/-- A plus in a query is a space. -/
def plusAsSpace (text : Text) : Text :=
  text.map fun c => if c = '+' then ' ' else c

structure PathParts where
  segments : List Text
  query : Table Text Text
  fragment : Option Text

/-- A pair of a query.  A repeated key keeps the last value. -/
def readPair (values : Table Text Text) (pair : Text) : Option (Table Text Text) :=
  match cutAt pair '=' with
  | some (key, value) => do
      values.insert (← percentDecode (plusAsSpace key)) (← percentDecode (plusAsSpace value))
  | none => do
      values.insert (← percentDecode (plusAsSpace pair)) []

def parseQuery (query : Text) : Option (Table Text Text) :=
  (piecesOf query '&').foldlM readPair Table.empty

/-- Take a path apart.  The fragment is cut first, then the query, and only then is anything
decoded. -/
def parsePath (path : Text) : Option PathParts := do
  let (rest, fragment) ← match cutAt path '#' with
    | some (before, behind) => do
        pure (before, some (← percentDecode behind))
    | none => pure (path, none)
  let (rest, query) := (cutAt rest '?').getD (rest, [])
  let segments ← (piecesOf rest '/').mapM percentDecode
  pure ⟨segments, ← parseQuery query, fragment⟩

/-! ### Printing -/

/-- A pair as it is printed. -/
def printPair (pair : Text × Text) : Text :=
  percentEncode pair.1 ++ '=' :: percentEncode pair.2

/-- Pieces with marks between them, and any further marks between them and at the ends. -/
def Joins (mark : Char) (pieces : List Text) (text : Text) : Prop :=
  ∃ all, all ≠ [] ∧ all.filter (· ≠ []) = pieces ∧ text = [mark].intercalate all

/-- A path that segments, pairs and a fragment are printed as, with any further slashes and empty
pairs. -/
def Spells (segments : List Text) (pairs : List (Text × Text)) (fragment : Option Text)
    (path : Text) : Prop :=
  ∃ slashed asked, Joins '/' (segments.map percentEncode) slashed ∧
    (pairs = [] ∧ asked = [] ∨
      ∃ query, Joins '&' (pairs.map printPair) query ∧ asked = '?' :: query) ∧
    path = slashed ++ asked ++ (fragment.map fun text => '#' :: percentEncode text).getD []

/-- A path as it is printed. -/
def print (segments : List Text) (pairs : List (Text × Text)) (fragment : Option Text) : Text :=
  '/' :: ['/'].intercalate (segments.map percentEncode) ++
    (if pairs = [] then [] else '?' :: ['&'].intercalate (pairs.map printPair)) ++
    (fragment.map fun text => '#' :: percentEncode text).getD []

variable {mark c : Char} {text path : Text} {pieces segments : List Text}
  {pairs : List (Text × Text)} {fragment : Option Text}

theorem joins_intercalate (some_ : ∀ piece ∈ pieces, piece ≠ []) :
  Joins mark pieces ([mark].intercalate pieces)
  := by
  cases pieces with
  | nil => exact ⟨[[]], cons_ne_nil _ _, rfl, rfl⟩
  | cons piece pieces =>
    refine ⟨piece :: pieces, cons_ne_nil _ _, filter_eq_self.mpr ?_, rfl⟩
    intro piece mem
    rw [decide_eq_true_iff]
    exact some_ piece mem

theorem Joins.further (joins : Joins mark pieces text) : Joins mark pieces (mark :: text) := by
  obtain ⟨all, some_, filtered, rfl⟩ := joins
  obtain ⟨first, all, rfl⟩ := exists_cons_of_ne_nil some_
  exact ⟨[] :: first :: all, cons_ne_nil _ _, filtered, rfl⟩

/-! ### Encoded texts -/

/-- The characters that cut a path or a query, and the plus. -/
def marks : List Char := ['/', '?', '#', '&', '=', '+']

theorem not_mem_percentEncode (mem : c ∈ marks) (text : Text) : c ∉ percentEncode text := by
  have all : ∀ n < 256, (encodeByte (UInt8.ofNat n)).all (fun c => c ∉ marks) = true := by
    decide +kernel
  intro written
  obtain ⟨byte, _, written⟩ := mem_flatMap.mp written
  have plain := all byte.toNat byte.toNat_lt
  rw [UInt8.ofNat_toNat, List.all_eq_true] at plain
  exact absurd mem (by simpa using plain c written)

theorem percentDecode_percentEncode (text : Text) :
  percentDecode (percentEncode text) = some text
  := by
  obtain ⟨out, decodes, walked⟩ := decodeFrom_append [] (percentEncode text) []
  rw [decodes.unique (decodes_percentEncode text)] at walked
  exact walked

theorem percentEncode_ne_nil (some_ : text ≠ []) : percentEncode text ≠ [] := by
  intro empty
  have decoded := percentDecode_percentEncode text
  rw [empty] at decoded
  exact some_ (some_inj.mp (decoded.symm.trans (percentDecode_percentEncode [])))

theorem plusAsSpace_percentEncode (text : Text) :
  plusAsSpace (percentEncode text) = percentEncode text
  := by
  have kept : ∀ c ∈ percentEncode text, (if c = '+' then ' ' else c) = id c := by
    intro c mem
    apply if_neg
    rintro rfl
    exact not_mem_percentEncode (by decide) text mem
  rw [plusAsSpace, map_congr_left kept, List.map_id]

/-! ### The cuts -/

theorem cutAt_append {before : Text} (absent : mark ∉ before) (behind : Text) :
  cutAt (before ++ mark :: behind) mark = some (before, behind)
  := by
  have more := length_pos_iff.mpr (splitOn_ne_nil mark behind)
  rw [cutAt, splitOn_append_cons_self_of_not_mem absent]
  dsimp only [headD_cons]
  rw [if_pos (by rw [length_cons]; omega), take_left, drop_append, Nat.add_sub_cancel_left]
  rw [drop_eq_nil_of_le (by omega)]
  rfl

theorem cutAt_of_not_mem (absent : mark ∉ text) : cutAt text mark = none := by
  rw [cutAt, splitOn_eq_singleton absent]
  rfl

theorem Joins.mem (joins : Joins mark pieces text) (mem : c ∈ text) :
  c = mark ∨ ∃ piece ∈ pieces, c ∈ piece
  := by
  obtain ⟨all, _, rfl, rfl⟩ := joins
  have split : c = mark ∨ ∃ piece ∈ all, c ∈ piece := by
    induction all with
    | nil => cases mem
    | cons piece all ih =>
      cases all with
      | nil => exact .inr ⟨piece, mem_cons_self, by simpa using mem⟩
      | cons second all =>
        rw [intercalate_cons_cons, mem_append, mem_append, mem_singleton] at mem
        obtain (mem | mem) | mem := mem
        · exact .inr ⟨piece, mem_cons_self, mem⟩
        · exact .inl mem
        · obtain same | ⟨other, listed, held⟩ := ih (cons_ne_nil _ _) mem
          · exact .inl same
          · exact .inr ⟨other, mem_cons_of_mem _ listed, held⟩
  obtain same | ⟨piece, listed, held⟩ := split
  · exact .inl same
  · refine .inr ⟨piece, mem_filter.mpr ⟨listed, ?_⟩, held⟩
    rw [decide_eq_true_iff]
    exact ne_nil_of_mem held

theorem Joins.piecesOf (joins : Joins mark pieces text) (absent : ∀ piece ∈ pieces, mark ∉ piece) :
  piecesOf text mark = pieces
  := by
  obtain ⟨all, some_, rfl, rfl⟩ := joins
  rw [Router.piecesOf, splitOn_intercalate mark _ some_]
  intro piece mem held
  refine absent piece (mem_filter.mpr ⟨mem, ?_⟩) held
  rw [decide_eq_true_iff]
  exact ne_nil_of_mem held

theorem mapM_percentDecode (segments : List Text) :
  (segments.map percentEncode).mapM percentDecode = some segments
  := by
  induction segments with
  | nil => rfl
  | cons segment segments ih =>
    rw [map_cons, mapM_cons, percentDecode_percentEncode, ih]
    rfl

theorem foldlM_readPair (pairs : List (Text × Text)) (values : Table Text Text) :
  (pairs.map printPair).foldlM readPair values =
    some (pairs.foldl (fun values pair => values.insert pair.1 pair.2) values)
  := by
  induction pairs generalizing values with
  | nil => rfl
  | cons pair pairs ih =>
    have read : readPair values (printPair pair) = some (values.insert pair.1 pair.2) := by
      rw [readPair, printPair, cutAt_append (not_mem_percentEncode (by decide) _)]
      simp only [plusAsSpace_percentEncode, percentDecode_percentEncode]
      rfl
    rw [map_cons, foldlM_cons, read, foldl_cons]
    exact ih _

/-! ### The round trip -/

theorem not_mem_printPair (mem : c ∈ marks) (ne : c ≠ '=') :
  ∀ piece ∈ pairs.map printPair, c ∉ piece
  := by
  intro piece listed held
  obtain ⟨pair, _, rfl⟩ := mem_map.mp listed
  rw [printPair, mem_append, mem_cons] at held
  obtain held | same | held := held
  · exact not_mem_percentEncode mem _ held
  · exact ne same
  · exact not_mem_percentEncode mem _ held

theorem parseQuery_joins {query : Text} (joins : Joins '&' (pairs.map printPair) query)
    (keys : (pairs.map Prod.fst).Nodup) :
  ∃ values, parseQuery query = some values ∧ values.entries = pairs
  := by
  rw [parseQuery, joins.piecesOf (not_mem_printPair (by decide) (by decide)), foldlM_readPair]
  refine ⟨_, rfl, ?_⟩
  rw [Table.entries_foldl_insert keys fun key _ => not_mem_nil]
  rfl

/-- A path reads back as it was printed, whatever slashes and empty pairs it has besides, and the
printed path is one of those. -/
theorem parsePath_spells (segments : List Text) (pairs : List (Text × Text)) (fragment : Option Text)
    (some_ : ∀ segment ∈ segments, segment ≠ []) (keys : (pairs.map Prod.fst).Nodup) :
  Spells segments pairs fragment (print segments pairs fragment) ∧
    ∀ path, Spells segments pairs fragment path → ∃ query : Table Text Text,
      parsePath path = some ⟨segments, query, fragment⟩ ∧ query.entries = pairs
  := by
  have encoded : ∀ piece ∈ segments.map percentEncode, piece ≠ [] := by
    intro piece mem
    obtain ⟨segment, listed, rfl⟩ := mem_map.mp mem
    exact percentEncode_ne_nil (some_ segment listed)
  have plain : ∀ {c : Char}, c ∈ marks → ∀ piece ∈ segments.map percentEncode, c ∉ piece := by
    intro c mark piece mem
    obtain ⟨segment, _, rfl⟩ := mem_map.mp mem
    exact not_mem_percentEncode mark segment
  constructor
  · refine ⟨_, _, (joins_intercalate encoded).further, ?_, rfl⟩
    split
    next empty => exact .inl ⟨empty, rfl⟩
    next =>
      refine .inr ⟨_, joins_intercalate fun piece mem => ?_, rfl⟩
      obtain ⟨pair, _, rfl⟩ := mem_map.mp mem
      exact append_ne_nil_of_right_ne_nil _ (cons_ne_nil _ _)
  · rintro path ⟨slashed, asked, segmented, questioned, rfl⟩
    have decoded : (piecesOf slashed '/').mapM percentDecode = some segments := by
      rw [segmented.piecesOf (plain (by decide)), mapM_percentDecode]
    have clear : ∀ c ∈ marks, c ≠ '/' → c ∉ slashed := by
      intro c mark ne held
      obtain same | ⟨piece, mem, held⟩ := segmented.mem held
      · exact ne same
      · exact plain mark piece mem held
    obtain ⟨query, values, cut, parsed, entries, hash⟩ : ∃ query values,
        (cutAt (slashed ++ asked) '?').getD (slashed ++ asked, []) = (slashed, query) ∧
          parseQuery query = some values ∧ values.entries = pairs ∧ '#' ∉ asked := by
      obtain ⟨rfl, rfl⟩ | ⟨query, joins, rfl⟩ := questioned
      · refine ⟨[], Table.empty, ?_, rfl, rfl, not_mem_nil⟩
        rw [append_nil, cutAt_of_not_mem (clear _ (by decide) (by decide))]
        rfl
      · obtain ⟨values, parsed, entries⟩ := parseQuery_joins joins keys
        refine ⟨query, values, ?_, parsed, entries, ?_⟩
        · rw [cutAt_append (clear _ (by decide) (by decide))]
          rfl
        · intro held
          obtain same | held := mem_cons.mp held
          · cases same
          · obtain same | ⟨piece, mem, held⟩ := joins.mem held
            · cases same
            · exact not_mem_printPair (by decide) (by decide) piece mem held
    refine ⟨values, ?_, entries⟩
    have before : '#' ∉ slashed ++ asked := by
      rw [mem_append, not_or]
      exact ⟨clear _ (by decide) (by decide), hash⟩
    rw [parsePath]
    cases fragment with
    | none =>
      rw [map_none, getD_none, append_nil, cutAt_of_not_mem before]
      simp [cut, decoded, parsed]
    | some text =>
      rw [map_some, getD_some, cutAt_append before]
      simp [cut, decoded, parsed, percentDecode_percentEncode]

/-- Two segments, a query and a fragment, with marks in each. -/
theorem parsePath_spells_marked :
  ∃ query : Table Text Text,
    parsePath (print [['a', '/'], ['+']] [(['k'], ['=', '&']), ([], [])] (some ['#', '?'])) =
        some ⟨[['a', '/'], ['+']], query, some ['#', '?']⟩ ∧
      query.entries = [(['k'], ['=', '&']), ([], [])]
  := by
  obtain ⟨printed, reads⟩ := parsePath_spells [['a', '/'], ['+']] [(['k'], ['=', '&']), ([], [])]
    (some ['#', '?']) (by decide) (by decide)
  exact reads _ printed

end Vilan.Web.Router
