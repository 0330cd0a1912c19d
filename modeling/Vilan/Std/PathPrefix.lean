import Vilan.Std.PathParts

/-!
# Paths under a path

The test whether a path lies under another one compares their components from the front.  What it leaves
out is that the components of a relative path may begin with climbs: a path that climbs higher than the
other one is taken to lie under it.
-/

namespace Vilan.Path

open List

/-- Whether the components of a path begin with those of another one. -/
def startsWith (path head : Str) : Bool :=
  if isAbsolute path ≠ isAbsolute head then false
  else
    let parts := components path
    let front := components head
    if parts.length < front.length then false
    else (parts.zip front).all fun (part, other) => part == other

/-- The part of a path that lies under another one. -/
def stripPrefix (path head : Str) : Option Str :=
  if startsWith path head = false then none
  else
    let rest := (components path).drop (components head).length
    if rest = [] then some dot else some (joined rest)

/-- Both paths are relative, the components of the second are so many climbs, and the first one climbs
once more. -/
def Climbs (path head : Str) : Prop :=
  isAbsolute path = false ∧ isAbsolute head = false ∧
    ∃ count, components head = List.replicate count dotdot ∧
      List.replicate (count + 1) dotdot <+: components path

/-- A path lies under another one when they start alike and its components begin with those of the
other. -/
theorem startsWith_iff (path head : Str) :
  startsWith path head = true ↔
    isAbsolute path = isAbsolute head ∧ components head <+: components path
  := by
  rw [startsWith]
  split
  next differ => exact iff_of_false Bool.false_ne_true fun both => differ both.1
  next same =>
    rw [ne_eq, not_not] at same
    rw [and_iff_right same]
    dsimp only
    generalize components path = parts
    generalize components head = front
    split
    next shorter =>
      exact iff_of_false Bool.false_ne_true fun begins => Nat.not_lt_of_le begins.length_le shorter
    next long =>
      have le := Nat.le_of_not_lt long
      clear long same
      induction front generalizing parts with
      | nil =>
        rw [zip_nil_right]
        exact iff_of_true rfl nil_prefix
      | cons other front ih =>
        cases parts with
        | nil => cases le
        | cons part parts =>
          rw [zip_cons_cons, all_cons, Bool.and_eq_true, beq_iff_eq, cons_prefix_cons]
          exact and_congr eq_comm (ih parts (Nat.le_of_succ_le_succ le))

variable {head path : Str} {rest : List Str}

/-- What a path that begins with the components of another one is stripped to. -/
theorem stripPrefix_of_append (same : isAbsolute path = isAbsolute head)
    (parts : components path = components head ++ rest) :
  stripPrefix path head = some (spell false rest)
  := by
  have begins : startsWith path head = true := by
    rw [startsWith_iff, parts]
    exact ⟨same, prefix_append _ _⟩
  have plain : Plain rest := by
    have plain := (canonical_components path).toPlain
    rw [parts] at plain
    exact plain.right
  rw [stripPrefix, if_neg (by rw [begins]; exact Bool.true_eq_false_eq_False), parts, drop_left, spell,
    if_neg Bool.false_ne_true]
  dsimp only
  simp only [(head_joined plain).1]
  split <;> rfl

/-- A path that lies under another one is the join of that one and what it is stripped to. -/
theorem join_stripPrefix (same : isAbsolute path = isAbsolute head)
    (parts : components path = components head ++ rest) :
  join head (spell false rest) = normalize path
  := by
  have canonical := canonical_components path
  rw [parts] at canonical
  have plain := canonical.toPlain.right
  have start : isAbsolute (join head (spell false rest)) = isAbsolute path := by
    rw [isAbsolute_join, same]
    split
    next none_ => rw [isAbsolute_spell plain, none_]; rfl
    next => rfl
  rw [join_eq_iff, components_join, start, readFrom_spell false _ plain, parts, foldl_read canonical]
  exact ⟨rfl, rfl⟩

/-- The spelling of components begins with a climb when the components do. -/
theorem head_split_spell (plain : Plain rest) :
  ((spell false rest).split slash).head? = some dotdot ↔ rest.head? = some dotdot
  := by
  cases rest with
  | nil => exact iff_of_false (by decide) fun head => nomatch head
  | cons part rest =>
    have some_ : joined (part :: rest) ≠ [] := fun none_ =>
      cons_ne_nil _ _ ((head_joined plain).1.mp none_)
    have whole := plain.whole part mem_cons_self
    rw [spell, if_neg Bool.false_ne_true, if_neg some_, head?_cons]
    cases rest with
    | nil =>
      rw [joined_cons, flatMap_nil, append_nil, Str.split, splitOn_eq_singleton whole, head?_cons]
    | cons next rest =>
      rw [joined_cons_cons, Str.split, splitOn_append_cons_self_of_not_mem whole, head?_cons]

/-- Components that go on with a climb are those of a relative path that climbs higher. -/
theorem climbs_iff (same : isAbsolute path = isAbsolute head)
    (parts : components path = components head ++ rest) :
  Climbs path head ↔ rest.head? = some dotdot
  := by
  constructor
  · rintro ⟨_, _, count, front, begins⟩
    rw [parts, front, replicate_succ', prefix_append_right_inj] at begins
    obtain ⟨more, rfl⟩ := begins
    rfl
  · intro climb
    obtain ⟨rest, rfl⟩ := head?_eq_some_iff.mp climb
    have settled := (canonical_components path).settled
    rw [parts] at settled
    obtain ⟨relative, front⟩ := settled.before_climb
    refine ⟨relative, same ▸ relative, (components head).length, front, ?_⟩
    rw [parts, replicate_succ', ← front, prefix_append_right_inj]
    exact ⟨rest, rfl⟩

/-- Pieces without climbs add to the components. -/
theorem prefix_foldl_read (rooted : Bool) (front : List Str) {pieces : List Str} (level : dotdot ∉ pieces) :
  front <+: pieces.foldl (read rooted) front
  := by
  induction pieces generalizing front with
  | nil => exact prefix_refl front
  | cons piece pieces ih =>
    rw [mem_cons, not_or] at level
    rw [foldl_cons]
    apply List.IsPrefix.trans _ (ih _ level.2)
    rw [read]
    split
    · exact prefix_refl front
    · rw [if_pos (Ne.symm level.1)]
      exact prefix_append front [piece]

/-- A reference without climbs stays under its base. -/
theorem startsWith_of_resolve {way : Str} (relative : isAbsolute way = false)
    (level : dotdot ∉ way.split slash) (leads : resolve head way = normalize path) :
  startsWith path head = true
  := by
  rw [resolve, relative, if_neg Bool.false_ne_true, join_eq_iff, components_join] at leads
  obtain ⟨start, parts⟩ := leads
  rw [startsWith_iff, ← parts]
  refine ⟨?_, prefix_foldl_read _ _ level⟩
  rw [← start, isAbsolute_join]
  split
  next none_ => rw [relative, none_]; rfl
  next => rfl

/-- What the test says of two paths: what is under the other path is reached from it without a climb at
the front, and nothing else is reached without climbs. -/
structure Contained (path head : Str) : Prop where
  under : startsWith path head = true →
    ∃ rest, stripPrefix path head = some rest ∧ (rest.split slash).head? ≠ some dotdot ∧
      join head rest = normalize path
  apart : startsWith path head = false →
    stripPrefix path head = none ∧
      ∀ way, isAbsolute way = false → dotdot ∉ way.split slash →
        resolve head way ≠ normalize path

/-- The test is right of all paths but those that climb higher than the other path. -/
theorem contained_iff (path head : Str) :
  Contained path head ↔ ¬ Climbs path head
  := by
  cases begins : startsWith path head with
  | true =>
    obtain ⟨same, rest, parts⟩ := (startsWith_iff path head).mp begins
    have parts := parts.symm
    have plain : Plain rest := by
      have plain := (canonical_components path).toPlain
      rw [parts] at plain
      exact plain.right
    have strip := stripPrefix_of_append same parts
    rw [climbs_iff same parts, ← head_split_spell plain]
    constructor
    · intro contained
      obtain ⟨rest', strip', level, _⟩ := contained.under begins
      rw [strip, Option.some_inj] at strip'
      rw [strip']
      exact level
    · intro level
      refine ⟨fun _ => ⟨_, strip, level, join_stripPrefix same parts⟩, fun other => ?_⟩
      rw [begins] at other
      cases other
  | false =>
    have level : ¬ Climbs path head := by
      rintro ⟨relative, relative', count, front, begins'⟩
      rw [← Bool.not_eq_true, startsWith_iff] at begins
      apply begins
      refine ⟨relative.trans relative'.symm, ?_⟩
      rw [front]
      rw [replicate_succ'] at begins'
      exact (prefix_append _ _).trans begins'
    refine iff_of_true ⟨fun begins' => ?_, fun _ => ⟨?_, ?_⟩⟩ level
    · rw [begins] at begins'
      cases begins'
    · exact if_pos begins
    · intro way relative level leads
      rw [startsWith_of_resolve relative level leads] at begins
      cases begins

/-- The parent of the place where one stands is taken to lie under it. -/
theorem not_contained_parent :
  startsWith (ascii "../a") (ascii ".") = true ∧
    stripPrefix (ascii "../a") (ascii ".") = some (ascii "../a") ∧
    ¬ Contained (ascii "../a") (ascii ".")
  := by
  refine ⟨by decide, by decide, ?_⟩
  intro contained
  obtain ⟨rest, strip, level, _⟩ := contained.under (by decide)
  have heq : stripPrefix (ascii "../a") (ascii ".") = some (ascii "../a") := by decide
  rw [heq, Option.some_inj] at strip
  rw [← strip] at level
  exact level (by decide)

end Vilan.Path
