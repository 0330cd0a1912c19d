import Vilan.Core.SourceMapRuns

/-!
# The places a map shows

A segment names its source and its function by an index into the lists of the map.  The lists only
grow, so what a segment showed when it was written it shows in the map that is built.
-/

namespace Vilan.Core.SourceMap

open List Option Mappings

/-- A place of the generated text and where it comes from, with nothing left to look up. -/
structure Place where
  generated : Position
  source : MapSource
  line : ℕ
  column : ℕ
  name : Option (List Char)

/-- The order of generated positions. -/
def Position.le (position position' : Position) : Prop :=
  position.line < position'.line ∨
    position.line = position'.line ∧ position.column ≤ position'.column

/-- A segment of a map shows a place: its numbers are those of the place, and its indices lead to
the place's source and name. -/
def Shows (map : SourceMap) (segment : Segment) (place : Place) : Prop :=
  ∃ source name, segment = written place.generated source place.line place.column name ∧
    map.sources[source]? = some place.source ∧ name.map (map.names[·]?) = place.name.map some

theorem getElem?_of_begins {α : Type*} {xs ys : List α} (grown : xs <+: ys) {index : ℕ} {x : α}
    (found : xs[index]? = some x) :
  ys[index]? = some x
  := by
  obtain ⟨more, rfl⟩ := grown
  obtain ⟨lt, -⟩ := List.getElem?_eq_some_iff.mp found
  rw [getElem?_append_left lt, found]

/-- A map with more sources and names. -/
def Grows (map map' : SourceMap) : Prop :=
  map.sources <+: map'.sources ∧ map.names <+: map'.names

theorem Grows.refl (map : SourceMap) : Grows map map :=
  ⟨prefix_rfl, prefix_rfl⟩

theorem Shows.grow {map map' : SourceMap} {segment : Segment} {place : Place}
    (shows_ : Shows map segment place) (grows : Grows map map') :
  Shows map' segment place
  := by
  obtain ⟨source, name, rfl, source_eq, name_eq⟩ := shows_
  refine ⟨source, name, rfl, getElem?_of_begins grows.1 source_eq, ?_⟩
  cases name with
  | none => exact name_eq
  | some name =>
    rw [map_some] at name_eq ⊢
    match same : place.name with
    | none =>
        rw [same] at name_eq
        cases name_eq
    | some text =>
        rw [same, map_some, some_inj] at name_eq
        rw [getElem?_of_begins grows.2 name_eq]
        rfl

namespace MapWriter

/-- The slots of a writer lead to its sources and names. -/
structure Slots (program : Program) (writer : MapWriter) : Prop where
  some_ : ∀ source slot, writer.sourceSlots.get source = some (some slot) →
    ∃ path isStd text, program.sources source = some (path, isStd) ∧
      program.texts source = some text ∧
      writer.map.sources[slot]? = some (mapSource path isStd text)
  none_ : ∀ source, writer.sourceSlots.get source = some none → program.sources source = none
  names : ∀ name slot, writer.names.get name = some slot → writer.map.names[slot]? = some name

/-- The segments written show places, in their order. -/
structure Holds (program : Program) (writer : MapWriter) (places : List Place) : Prop where
  slots : Slots program writer
  segments : ∃ segments, Written writer segments ∧
    List.Forall₂ (Shows writer.map) segments places
  last : writer.lastGenerated = places.getLast?.map (·.generated)

theorem Holds.new (program : Program) : Holds program new [] where
  slots := by
    constructor
    · intro source slot found
      cases found
    · intro source found
      cases found
    · intro name slot found
      cases found
  segments := ⟨[], written_new, List.Forall₂.nil⟩
  last := rfl

variable {program : Program} {writer : MapWriter} {places : List Place}

variable {source : ℕ} {segments : List Segment}

theorem sourceSlot_spec (slots : Slots program writer) {text : List Char}
    (text_eq : program.texts source = some text) :
  Slots program (sourceSlot program writer source text).1 ∧
    Grows writer.map (sourceSlot program writer source text).1.map ∧
    (sourceSlot program writer source text).2.map
        ((sourceSlot program writer source text).1.map.sources[·]?) =
      (program.sources source).map fun path => some (mapSource path.1 path.2 text)
  := by
  rw [sourceSlot]
  split
  next slot found =>
    refine ⟨slots, Grows.refl _, ?_⟩
    cases slot with
    | none =>
      rw [slots.none_ source found]
      rfl
    | some slot =>
      obtain ⟨path, isStd, text', sources_eq, text_eq', listed⟩ := slots.some_ source slot found
      rw [text_eq] at text_eq'
      cases text_eq'
      rw [sources_eq, map_some, map_some, listed]
  next missing =>
    split
    next path isStd sources_eq =>
      refine ⟨?_, ⟨prefix_append _ _, prefix_rfl⟩, ?_⟩
      · constructor
        · intro source' slot found
          dsimp only at found ⊢
          rw [Table.get_insert] at found
          split at found
          next same =>
            cases found
            subst same
            exact ⟨path, isStd, text, sources_eq, text_eq, getElem?_concat_length ..⟩
          next =>
            obtain ⟨path', isStd', text', sources_eq', text_eq', listed⟩ :=
              slots.some_ source' slot found
            exact ⟨path', isStd', text', sources_eq', text_eq',
              getElem?_of_begins (prefix_append _ _) listed⟩
        · intro source' found
          dsimp only at found
          rw [Table.get_insert] at found
          split at found
          next => cases found
          next => exact slots.none_ source' found
        · apply slots.names
      · rw [map_some, sources_eq, map_some]
        exact congrArg some (getElem?_concat_length ..)
    next sources_eq =>
      refine ⟨?_, Grows.refl _, ?_⟩
      · constructor
        · intro source' slot found
          dsimp only at found
          rw [Table.get_insert] at found
          split at found
          next => cases found
          next => exact slots.some_ source' slot found
        · intro source' found
          dsimp only at found
          rw [Table.get_insert] at found
          split at found
          next same => rw [same, sources_eq]
          next => exact slots.none_ source' found
        · apply slots.names
      · rw [sources_eq]
        rfl

theorem nameSlot_spec (slots : Slots program writer) (name : List Char) :
  Slots program (writer.nameSlot name).1 ∧ Grows writer.map (writer.nameSlot name).1.map ∧
    (writer.nameSlot name).1.map.names[(writer.nameSlot name).2]? = some name
  := by
  rw [nameSlot]
  split
  next slot found => exact ⟨slots, Grows.refl _, slots.names name slot found⟩
  next missing =>
    refine ⟨?_, ⟨prefix_rfl, prefix_append _ _⟩, getElem?_concat_length ..⟩
    constructor
    · apply slots.some_
    · apply slots.none_
    · intro name' slot found
      dsimp only at found ⊢
      rw [Table.get_insert] at found
      split at found
      next same =>
        cases found
        subst same
        exact getElem?_concat_length ..
      next => exact getElem?_of_begins (prefix_append _ _) (slots.names name' slot found)

/-- Slots do not touch what is written. -/
theorem sourceSlot_written (written : Written writer segments) (source : ℕ) (text : List Char) :
  Written (sourceSlot program writer source text).1 segments ∧
    (sourceSlot program writer source text).1.lastGenerated = writer.lastGenerated
  := by
  rw [sourceSlot]
  split
  next => exact ⟨written, rfl⟩
  next =>
    split
    next => exact ⟨written.congr rfl rfl rfl rfl rfl rfl rfl, rfl⟩
    next => exact ⟨written.congr rfl rfl rfl rfl rfl rfl rfl, rfl⟩

theorem nameSlot_written (written : Written writer segments) (name : List Char) :
  Written (writer.nameSlot name).1 segments ∧
    (writer.nameSlot name).1.lastGenerated = writer.lastGenerated
  := by
  rw [nameSlot]
  split
  next => exact ⟨written, rfl⟩
  next => exact ⟨written.congr rfl rfl rfl rfl rfl rfl rfl, rfl⟩

theorem shows_grow {map map' : SourceMap} (grows : Grows map map')
    (shows_ : List.Forall₂ (Shows map) segments places) :
  List.Forall₂ (Shows map') segments places
  := shows_.imp fun _ _ shows_ => shows_.grow grows

/-- A segment that is written shows its place. -/
theorem Holds.write {slotted : MapWriter} (slots : Slots program slotted)
    (written : Written slotted segments) (shows_ : List.Forall₂ (Shows slotted.map) segments places)
    {generated : Position} (ahead : slotted.Ahead generated) {line column : ℕ} {name : Option ℕ}
    {mapSource : MapSource} {text : Option (List Char)}
    (listed : slotted.map.sources[source]? = some mapSource)
    (named : name.map (slotted.map.names[·]?) = text.map some) :
  Holds program (slotted.write generated source line column name)
    (places ++ [⟨generated, mapSource, line, column, text⟩])
  := by
  have more := written.write ahead source line column name
  rw [write_eq] at more ⊢
  refine ⟨⟨slots.some_, slots.none_, slots.names⟩, ⟨_, more, ?_⟩, ?_⟩
  · apply rel_append shows_
    exact List.Forall₂.cons ⟨source, name, rfl, listed, named⟩ List.Forall₂.nil
  · rw [getLast?_concat]
    rfl

/-- The place of a mark with an original place, when its source is a file. -/
def placeOf (program : Program) (generated : Position) (mark : SourceMark) (original : Original) :
    Option Place :=
  (program.sources original.source).map fun (path, isStd) =>
    { generated
      source := mapSource path isStd original.text
      line := original.line
      column := original.column
      name := if mark.kind = .function then program.functions mark.id else none }

/-- A mark is written with its place, unless a segment stands there. -/
theorem Holds.segment (holds : Holds program writer places) {generated : Position}
    (ahead : writer.Ahead generated) {mark : SourceMark} {original : Original}
    (text_eq : program.texts original.source = some original.text)
    (free : writer.lastGenerated ≠ some generated) :
  Holds program (writer.segment program generated mark original)
    (places ++ (placeOf program generated mark original).toList)
  := by
  obtain ⟨slots, ⟨segments, written, shows_⟩, last⟩ := holds
  obtain ⟨slots', grows, slot_eq⟩ := sourceSlot_spec slots text_eq
  obtain ⟨written', last_eq⟩ := sourceSlot_written written original.source
    original.text
  rw [MapWriter.segment, if_neg free, placeOf]
  generalize sourceSlot program writer original.source original.text = slotted at *
  obtain ⟨slotted, slot⟩ := slotted
  dsimp only at *
  have shows' := shows_grow grows shows_
  match found : program.sources original.source with
  | none =>
      rw [found, map_none, map_eq_none_iff] at slot_eq
      rw [slot_eq]
      rw [map_none, toList_none, append_nil]
      exact ⟨slots', ⟨segments, written', shows'⟩, last_eq.trans last⟩
  | some (path, isStd) =>
      rw [found, map_some, map_eq_some_iff] at slot_eq
      obtain ⟨source, rfl, listed⟩ := slot_eq
      have ahead' : slotted.Ahead generated := by
        intro last same
        apply ahead last
        rw [← last_eq, same]
      dsimp only
      rw [map_some, toList_some]
      split
      next name kind functions =>
        obtain ⟨slots'', grows', named⟩ := nameSlot_spec slots' name
        obtain ⟨written'', last_eq'⟩ := nameSlot_written written' name
        rw [if_pos kind, functions]
        apply Holds.write slots'' written'' (shows_grow grows' shows')
        · intro last same
          apply ahead' last
          rw [← last_eq', same]
        · apply getElem?_of_begins grows'.1 listed
        · rw [map_some, named]
          rfl
      next other =>
        have unnamed : (if mark.kind = .function then program.functions mark.id else none) = none := by
          split
          next kind =>
            match same : program.functions mark.id with
            | none => rfl
            | some name => exact absurd same (other name kind)
          next => rfl
        rw [unnamed]
        apply Holds.write slots' written' shows' ahead' listed rfl

/-- The places of the lines of the runtime helpers that are not empty. -/
def runtimePlaces (firstLine : ℕ) (source : MapSource) (lines : List (List Char × ℕ)) : List Place :=
  lines.filterMap fun (line, index) =>
    if line = [] then none else some ⟨⟨firstLine + index, 0⟩, source, index, 0, none⟩

theorem Holds.runtimeLines {firstLine index : ℕ} {lines : List (List Char)} {mapSource : MapSource}
    (holds : Holds program writer places) (listed : writer.map.sources[source]? = some mapSource)
    (ahead : ∀ place ∈ places, place.generated.line ≤ firstLine + index)
    (small : firstLine + index + lines.length ≤ 2 ^ 32) :
  Holds program (runtimeLines firstLine source writer index lines)
    (places ++ runtimePlaces firstLine mapSource (lines.zipIdx index))
  := by
  induction lines generalizing writer places index with
  | nil =>
    rw [runtimeLines, zipIdx_nil, runtimePlaces, filterMap_nil, append_nil]
    apply holds
  | cons line lines ih =>
    rw [length_cons] at small
    rw [runtimeLines, zipIdx_cons, runtimePlaces, filterMap_cons]
    dsimp only
    split
    next =>
      have ahead_next : ∀ place ∈ places, place.generated.line ≤ firstLine + (index + 1) :=
        fun place mem => Nat.le_succ_of_le (ahead place mem)
      exact ih holds listed ahead_next (by omega)
    next =>
      have line_eq : (firstLine + index % 2 ^ 32) % 2 ^ 32 = firstLine + index := by
        rw [Nat.mod_eq_of_lt (by omega), Nat.mod_eq_of_lt (by omega)]
      rw [line_eq, Nat.mod_eq_of_lt (show index < 2 ^ 32 by omega)]
      obtain ⟨slots, ⟨segments, written, shows_⟩, last⟩ := holds
      have ahead_here : writer.Ahead ⟨firstLine + index, 0⟩ := by
        intro last' same
        rw [last, map_eq_some_iff] at same
        obtain ⟨place, same, rfl⟩ := same
        apply ahead place (mem_of_getLast? same)
      have more : Holds program (writer.write ⟨firstLine + index, 0⟩ source index 0 none)
          (places ++ [⟨⟨firstLine + index, 0⟩, mapSource, index, 0, none⟩]) :=
        Holds.write slots written shows_ ahead_here listed rfl
      have ahead_next : ∀ place ∈ places ++
          [⟨⟨firstLine + index, 0⟩, mapSource, index, 0, none⟩],
          place.generated.line ≤ firstLine + (index + 1) := by
        intro place mem
        rcases mem_append.mp mem with mem | mem
        · exact Nat.le_succ_of_le (ahead place mem)
        · rw [mem_singleton.mp mem]
          exact Nat.le_succ _
      have rest := ih more (by rw [write_eq]; exact listed) ahead_next (by omega)
      rw [append_assoc] at rest
      apply rest

end MapWriter

end Vilan.Core.SourceMap
