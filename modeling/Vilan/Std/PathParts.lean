import Vilan.Library.Climbs
import Vilan.Library.Search
import Vilan.Std.Path

/-!
# The components of a path

A path is read as its components: what stands between separators, without empty parts and dots, and with
climbs resolved as far as they can be.  The canonical spelling of a path has the same components, and so
all that is said about paths is said about their components.
-/

namespace Vilan.Path

open List

/-- The separator of components. -/
def slash : UInt16 := unit '/'

/-- The component that stays where it is. -/
def dot : Str := [unit '.']

/-- The component that climbs to the parent. -/
def dotdot : Str := [unit '.', unit '.']

/-- Whether a path starts at the root. -/
def isAbsolute (path : Str) : Bool :=
  path.head? == some slash

/-- One round over the pieces of a path, with the components that are read so far. -/
def read (rooted : Bool) (parts : List Str) (piece : Str) : List Str :=
  if piece = [] ∨ piece = dot then parts
  else if piece ≠ dotdot then parts ++ [piece]
  else
    match parts.getLast? with
    | some last =>
        if last ≠ dotdot then parts.dropLast else if rooted then parts else parts ++ [dotdot]
    | none => if rooted then parts else parts ++ [dotdot]

/-- The components of a path. -/
def components (path : Str) : List Str :=
  (path.split slash).foldl (read (isAbsolute path)) []

/-- The components with a separator between them. -/
def joined (parts : List Str) : Str :=
  (parts.foldl
    (fun (result, first) part => ((if first then result else result ++ [slash]) ++ part, false))
    (([] : Str), true)).1

/-- The canonical spelling of a path. -/
def normalize (path : Str) : Str :=
  let body := joined (components path)
  if isAbsolute path then slash :: body else if body = [] then dot else body

/-- The two paths with a separator between them, where neither is empty, in canonical spelling. -/
def join (base part : Str) : Str :=
  if base = [] then normalize part
  else if part = [] then normalize base
  else normalize (base ++ [slash] ++ part)

/-- All the paths, joined from left to right. -/
def joinAll (parts : List Str) : Str :=
  let result := parts.foldl join []
  if result = [] then dot else result

/-- What a path names as a reference from a base. -/
def resolve (base path : Str) : Str :=
  if isAbsolute path then normalize path else join base path

/-! ### Reading -/

/-- Reads the components of a text behind those that are read. -/
def readFrom (rooted : Bool) (parts : List Str) (text : Str) : List Str :=
  (text.split slash).foldl (read rooted) parts

theorem components_eq (path : Str) : components path = readFrom (isAbsolute path) [] path
  := rfl

variable {piece : Str} {rooted : Bool} {front parts : List Str}

theorem read_skip (parts : List Str) (skipped : piece = [] ∨ piece = dot) :
  read rooted parts piece = parts
  :=
  if_pos skipped

/-- What is not skipped is a name or a climb. -/
theorem read_climb (parts : List Str) (kept : ¬ (piece = [] ∨ piece = dot)) :
  read rooted parts piece = Climbs.climb dotdot rooted parts piece
  := by
  rw [read, if_neg kept, Climbs.climb]
  cases parts.getLast? with
  | none => rfl
  | some last => rfl

/-- Components that are read as they are: none is empty, a dot, or has a separator in it. -/
structure Plain (parts : List Str) : Prop where
  kept : ∀ part ∈ parts, ¬ (part = [] ∨ part = dot)
  whole : ∀ part ∈ parts, slash ∉ part

/-- The components of a path, with the climbs at the front. -/
structure Canonical (rooted : Bool) (parts : List Str) : Prop extends Plain parts where
  settled : Climbs.Settled dotdot rooted parts

theorem plain_nil : Plain []
  :=
  ⟨fun _ mem => absurd mem not_mem_nil, fun _ mem => absurd mem not_mem_nil⟩

theorem canonical_nil : Canonical rooted []
  :=
  ⟨plain_nil, Climbs.settled_nil⟩

theorem Plain.append {back : List Str} (front_ : Plain front) (back_ : Plain back) :
  Plain (front ++ back)
  :=
  ⟨forall_mem_append.mpr ⟨front_.kept, back_.kept⟩,
    forall_mem_append.mpr ⟨front_.whole, back_.whole⟩⟩

theorem Plain.right {back : List Str} (plain : Plain (front ++ back)) : Plain back
  :=
  ⟨(forall_mem_append.mp plain.kept).2, (forall_mem_append.mp plain.whole).2⟩

theorem mem_climb {part : Str} (mem : part ∈ Climbs.climb dotdot rooted parts piece) :
  part ∈ parts ∨ part = piece
  := by
  rw [Climbs.climb] at mem
  split at mem
  · rw [mem_append, mem_singleton] at mem
    exact mem
  next climb =>
    rw [not_not] at climb
    have stays (mem : part ∈ if rooted = true then parts else parts ++ [dotdot]) :
        part ∈ parts ∨ part = piece := by
      split at mem
      · exact Or.inl mem
      · rw [mem_append, mem_singleton, ← climb] at mem
        exact mem
    split at mem
    · split at mem
      · exact Or.inl (dropLast_subset _ mem)
      · exact stays mem
    · exact stays mem

theorem Canonical.read (canonical : Canonical rooted parts) (whole : slash ∉ piece) :
  Canonical rooted (read rooted parts piece)
  := by
  by_cases skipped : piece = [] ∨ piece = dot
  · rw [read_skip parts skipped]
    exact canonical
  · rw [read_climb parts skipped]
    refine ⟨⟨?_, ?_⟩, canonical.settled.climb piece⟩
    · intro part mem
      obtain mem | rfl := mem_climb mem
      · exact canonical.kept part mem
      · exact skipped
    · intro part mem
      obtain mem | rfl := mem_climb mem
      · exact canonical.whole part mem
      · exact whole

theorem Canonical.foldl (canonical : Canonical rooted parts) {pieces : List Str}
    (whole : ∀ piece ∈ pieces, slash ∉ piece) :
  Canonical rooted (pieces.foldl (Path.read rooted) parts)
  := by
  induction pieces generalizing parts with
  | nil => exact canonical
  | cons piece pieces ih =>
    rw [forall_mem_cons] at whole
    exact ih (canonical.read whole.1) whole.2

theorem Canonical.readFrom (canonical : Canonical rooted parts) (text : Str) :
  Canonical rooted (readFrom rooted parts text)
  :=
  canonical.foldl fun _ mem => (Search.not_mem_of_mem_splitOn mem).1

theorem canonical_components (path : Str) : Canonical (isAbsolute path) (components path)
  :=
  canonical_nil.readFrom path

/-- Behind a separator the reading goes on with what has been read. -/
theorem readFrom_slash (rooted : Bool) (parts : List Str) (front back : Str) :
  readFrom rooted parts (front ++ slash :: back) =
    readFrom rooted (readFrom rooted parts front) back
  := by
  rw [readFrom, readFrom, readFrom, Str.split, Str.split, Str.split, splitOn_append_cons_self,
    foldl_append]

theorem readFrom_nil (rooted : Bool) (parts : List Str) : readFrom rooted parts [] = parts
  := by
  rw [readFrom, Str.split, splitOn_nil, foldl_cons, foldl_nil, read_skip parts (Or.inl rfl)]

/-- A separator at the front is nothing to the reading. -/
theorem readFrom_cons_slash (rooted : Bool) (parts : List Str) (text : Str) :
  readFrom rooted parts (slash :: text) = readFrom rooted parts text
  := by
  rw [← nil_append (slash :: text), readFrom_slash, readFrom_nil]

theorem readFrom_dot (rooted : Bool) (parts : List Str) : readFrom rooted parts dot = parts
  := by
  have alone : dot.split slash = [dot] := by decide
  rw [readFrom, alone, foldl_cons, foldl_nil, read_skip parts (Or.inr rfl)]

/-! ### Writing -/

theorem joined_cons (part : Str) (parts : List Str) :
  joined (part :: parts) = part ++ parts.flatMap fun part => slash :: part
  := by
  have later : ∀ (parts : List Str) (result : Str),
      (parts.foldl (fun (result, first) part =>
        ((if first then result else result ++ [slash]) ++ part, false)) (result, false)).1 =
        result ++ parts.flatMap fun part => slash :: part := by
    intro parts
    induction parts with
    | nil =>
      intro result
      exact (append_nil result).symm
    | cons part parts ih =>
      intro result
      rw [foldl_cons]
      dsimp only
      rw [if_neg Bool.false_ne_true, ih, flatMap_cons, append_assoc, append_assoc]
      rfl
  rw [joined, foldl_cons]
  dsimp only
  rw [if_pos rfl, nil_append, later]

theorem joined_cons_cons (part next : Str) (parts : List Str) :
  joined (part :: next :: parts) = part ++ slash :: joined (next :: parts)
  := by
  rw [joined_cons, joined_cons, flatMap_cons]
  rfl

/-- Texts that are written one behind the other are read one by one. -/
theorem readFrom_joined (rooted : Bool) (parts front : List Str) :
  readFrom rooted front (joined parts) = parts.foldl (readFrom rooted) front
  := by
  induction parts generalizing front with
  | nil => exact readFrom_nil rooted front
  | cons part parts ih =>
    cases parts with
    | nil =>
      rw [joined_cons, flatMap_nil, append_nil]
      rfl
    | cons next parts =>
      rw [joined_cons_cons, readFrom_slash, ih]
      rfl

/-- Components are read as they are. -/
theorem foldl_readFrom (rooted : Bool) (whole : ∀ part ∈ parts, slash ∉ part) (front : List Str) :
  parts.foldl (readFrom rooted) front = parts.foldl (read rooted) front
  := by
  apply foldl_ext
  intro front part mem
  rw [readFrom, Str.split, splitOn_eq_singleton (whole part mem)]
  rfl

/-- Components that are canonical together are read as they stand. -/
theorem foldl_read (canonical : Canonical rooted (front ++ parts)) :
  parts.foldl (read rooted) front = front ++ parts
  := by
  have kept := canonical.kept
  rw [forall_mem_append] at kept
  rw [← canonical.settled.foldl_eq]
  apply foldl_ext
  intro front part mem
  exact read_climb front (kept.2 part mem)

/-- The spelling of components. -/
def spell (rooted : Bool) (parts : List Str) : Str :=
  if rooted then slash :: joined parts else if joined parts = [] then dot else joined parts

theorem normalize_eq (path : Str) : normalize path = spell (isAbsolute path) (components path)
  := rfl

/-- Components spell nothing only where there are none, and otherwise do not begin with a separator. -/
theorem head_joined (plain : Plain parts) :
  (joined parts = [] ↔ parts = []) ∧ (joined parts).head? ≠ some slash
  := by
  cases parts with
  | nil => exact ⟨⟨fun _ => rfl, fun _ => rfl⟩, Option.some_ne_none slash |>.symm⟩
  | cons part parts =>
    have kept := plain.kept part mem_cons_self
    have whole := plain.whole part mem_cons_self
    cases part with
    | nil => exact absurd (Or.inl rfl) kept
    | cons first part =>
      rw [joined_cons, cons_append, head?_cons]
      refine ⟨iff_of_false (cons_ne_nil _ _) (cons_ne_nil _ _), ?_⟩
      rintro same
      rw [Option.some_inj] at same
      exact whole (same ▸ mem_cons_self)

theorem isAbsolute_spell (plain : Plain parts) :
  isAbsolute (spell rooted parts) = rooted
  := by
  rw [spell]
  cases rooted with
  | true => rfl
  | false =>
    rw [if_neg Bool.false_ne_true]
    split
    · decide
    · rw [isAbsolute, beq_eq_false_iff_ne]
      exact (head_joined plain).2

theorem spell_ne_nil (rooted : Bool) (parts : List Str) : spell rooted parts ≠ []
  := by
  rw [spell]
  split
  · exact cons_ne_nil _ _
  · split
    · decide
    next some_ => exact some_

/-- What is spelled is read as the components that are spelled. -/
theorem readFrom_spell (rooted reading : Bool) (plain : Plain parts) (front : List Str) :
  readFrom reading front (spell rooted parts) = parts.foldl (read reading) front
  := by
  rw [spell]
  split
  · rw [readFrom_cons_slash, readFrom_joined, foldl_readFrom _ plain.whole]
  · split
    next none_ =>
      rw [readFrom_dot, (head_joined plain).1.mp none_, foldl_nil]
    next => rw [readFrom_joined, foldl_readFrom _ plain.whole]

theorem components_spell (canonical : Canonical rooted parts) :
  components (spell rooted parts) = parts
  := by
  rw [components, isAbsolute_spell canonical.toPlain]
  exact (readFrom_spell rooted rooted canonical.toPlain []).trans (foldl_read canonical)

theorem isAbsolute_normalize (path : Str) : isAbsolute (normalize path) = isAbsolute path
  :=
  isAbsolute_spell (canonical_components path).toPlain

/-- The canonical spelling has the components of the path. -/
theorem components_normalize (path : Str) : components (normalize path) = components path
  :=
  components_spell (canonical_components path)

/-- Paths have one canonical spelling when they have the same components and start alike. -/
theorem normalize_eq_iff (first second : Str) :
  normalize first = normalize second ↔
    isAbsolute first = isAbsolute second ∧ components first = components second
  := by
  constructor
  · intro same
    rw [← isAbsolute_normalize first, ← isAbsolute_normalize second, ← components_normalize first,
      ← components_normalize second, same]
    exact ⟨rfl, rfl⟩
  · rintro ⟨start, parts⟩
    rw [normalize_eq, normalize_eq, start, parts]

/-! ### Joining -/

theorem isAbsolute_append {front : Str} (some_ : front ≠ []) (back : Str) :
  isAbsolute (front ++ back) = isAbsolute front
  := by
  cases front with
  | nil => exact absurd rfl some_
  | cons first front => rfl

theorem exists_join (base part : Str) : ∃ text, join base part = normalize text
  := by
  rw [join]
  split
  · exact ⟨part, rfl⟩
  · split
    · exact ⟨base, rfl⟩
    · exact ⟨_, rfl⟩

/-- A joined path is the canonical spelling of the paths that start as it does and have its
components. -/
theorem join_eq_iff (base part path : Str) :
  join base part = normalize path ↔
    isAbsolute (join base part) = isAbsolute path ∧ components (join base part) = components path
  := by
  obtain ⟨text, heq⟩ := exists_join base part
  rw [heq, normalize_eq_iff, isAbsolute_normalize, components_normalize]

/-- A joined path starts as its first part that is not empty does. -/
theorem isAbsolute_join (base part : Str) :
  isAbsolute (join base part) = if base = [] then isAbsolute part else isAbsolute base
  := by
  rw [join]
  split
  · exact isAbsolute_normalize part
  next some_ =>
    split
    · exact isAbsolute_normalize base
    · rw [isAbsolute_normalize, append_assoc, isAbsolute_append some_]

/-- The second path is read behind the components of the first one. -/
theorem components_join (base part : Str) :
  components (join base part) =
    readFrom (isAbsolute (join base part)) (components base) part
  := by
  rw [isAbsolute_join, join]
  split
  next none_ =>
    rw [components_normalize, none_]
    rfl
  next some_ =>
    split
    next none_ => rw [components_normalize, none_, readFrom_nil]
    next =>
      rw [components_normalize, components_eq, append_assoc, isAbsolute_append some_,
        singleton_append, readFrom_slash]
      rfl

end Vilan.Path
