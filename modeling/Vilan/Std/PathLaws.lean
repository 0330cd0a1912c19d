import Mathlib.Data.List.TakeWhile
import Vilan.Std.PathParts

/-!
# Laws of paths

A path is the join of its directory and its last component, a relative path leads from one path to the
other, and many paths are joined as if they stood behind each other.
-/

namespace Vilan.Path

open List

/-! ### The directory and the last component -/

/-- What stands before the last component of a path. -/
def dirname (path : Str) : Str :=
  let front := unslashed path
  if front = [] then if path = [] then dot else [slash]
  else
    let cut := (front.reverse.dropWhile (· != slash)).reverse
    if cut = [] then dot
    else
      let parent := unslashed cut.dropLast
      if parent = [] then [slash] else parent

/-- A path is its text without the separators at its end, and those separators. -/
theorem unslashed_append (path : Str) :
  ∃ count, path = unslashed path ++ List.replicate count slash
  := by
  use (path.reverse.takeWhile (· == slash)).length
  have all : path.reverse.takeWhile (· == slash) =
      List.replicate (path.reverse.takeWhile (· == slash)).length slash := by
    rw [eq_replicate_iff]
    refine ⟨rfl, ?_⟩
    intro code mem
    exact beq_iff_eq.mp (mem_takeWhile_imp (p := fun code => code == slash) mem)
  have parts := takeWhile_append_dropWhile (p := fun code => code == slash) (l := path.reverse)
  rw [all] at parts
  rw [← reverse_inj, reverse_append, reverse_replicate, unslashed, reverse_reverse]
  exact parts.symm

theorem unslashed_last (path : Str) : (unslashed path).reverse.head? ≠ some slash
  := by
  intro head
  have h := head?_dropWhile_not (fun code => code == slash) path.reverse
  rw [unslashed, reverse_reverse] at head
  change (path.reverse.dropWhile fun code => code == slash).head? = some slash at head
  rw [head] at h
  exact beq_eq_false_iff_ne.mp h rfl

/-- A text is what stands before its last component, and that component, which has no separator in it. -/
theorem last_component (front : Str) :
  front = (front.reverse.dropWhile (· != slash)).reverse ++
      (front.reverse.takeWhile (· != slash)).reverse ∧
    slash ∉ (front.reverse.takeWhile (· != slash)).reverse ∧
    ((front.reverse.dropWhile (· != slash)).reverse = [] ∨
      ∃ init, (front.reverse.dropWhile (· != slash)).reverse = init ++ [slash])
  := by
  have parts := takeWhile_append_dropWhile (p := fun code => code != slash) (l := front.reverse)
  refine ⟨?_, ?_, ?_⟩
  · rw [← reverse_append, parts, reverse_reverse]
  · rw [mem_reverse]
    intro mem
    exact bne_iff_ne.mp (mem_takeWhile_imp (p := fun code => code != slash) mem) rfl
  · have h := head?_dropWhile_not (fun code => code != slash) front.reverse
    cases rest : front.reverse.dropWhile (· != slash) with
    | nil => exact Or.inl rfl
    | cons first rest' =>
      rw [rest] at h
      have same : first = slash := bne_eq_false_iff_eq.mp h
      rw [same, reverse_cons]
      exact Or.inr ⟨rest'.reverse, rfl⟩

theorem last_component_ne_nil {front : Str} (some_ : front ≠ []) (last : front.reverse.head? ≠ some slash) :
  (front.reverse.takeWhile (· != slash)).reverse ≠ []
  := by
  cases h : front.reverse with
  | nil => exact absurd (reverse_eq_nil_iff.mp h) some_
  | cons first rest =>
    rw [h, head?_cons, ne_eq, Option.some_inj] at last
    rw [takeWhile_cons_of_pos (p := fun code => code != slash) (bne_iff_ne.mpr last), reverse_cons]
    exact append_ne_nil_of_right_ne_nil _ (cons_ne_nil _ _)

theorem readFrom_replicate (rooted : Bool) (parts : List Str) (count : ℕ) :
  readFrom rooted parts (List.replicate count slash) = parts
  := by
  induction count with
  | zero => exact readFrom_nil rooted parts
  | succ count ih => rw [replicate_succ, readFrom_cons_slash, ih]

/-- Separators at the end are nothing to the reading. -/
theorem readFrom_append_replicate (rooted : Bool) (parts : List Str) (text : Str) (count : ℕ) :
  readFrom rooted parts (text ++ List.replicate count slash) = readFrom rooted parts text
  := by
  cases count with
  | zero => rw [replicate_zero, append_nil]
  | succ count => rw [replicate_succ, readFrom_slash, readFrom_replicate]

/-- A path is the join of its directory and its last component. -/
theorem join_dirname (path : Str) : join (dirname path) (basename path) = normalize path
  := by
  obtain ⟨count, path_⟩ := unslashed_append path
  have absolute : unslashed path ≠ [] → isAbsolute path = isAbsolute (unslashed path) := by
    intro some_
    conv_lhs => rw [path_]
    exact isAbsolute_append some_ _
  have read (rooted : Bool) (parts : List Str) :
      readFrom rooted parts path = readFrom rooted parts (unslashed path) := by
    conv_lhs => rw [path_]
    exact readFrom_append_replicate rooted parts _ count
  by_cases none_ : unslashed path = []
  · -- nothing but separators, or nothing at all
    have base : basename path = [] := by rw [basename, none_]; rfl
    rw [none_, nil_append] at path_
    rw [base, dirname, if_pos none_]
    split
    next empty => rw [empty]; decide
    next some_ =>
      have rooted : isAbsolute path = true := by
        cases count with
        | zero => exact absurd path_ some_
        | succ count =>
          rw [path_]
          rfl
      rw [join, if_neg (cons_ne_nil _ _), if_pos rfl, normalize_eq_iff, rooted, components_eq path,
        read, none_, rooted]
      exact ⟨by decide, by decide⟩
  · have base_ne := last_component_ne_nil none_ (unslashed_last path)
    obtain ⟨front_, whole, cut⟩ := last_component (unslashed path)
    have base_ : basename path = ((unslashed path).reverse.takeWhile (· != slash)).reverse := rfl
    rw [← base_] at base_ne front_ whole
    rw [dirname, if_neg none_]
    dsimp only
    generalize ((unslashed path).reverse.dropWhile (· != slash)).reverse = front at front_ cut
    obtain rfl | ⟨init, rfl⟩ := cut
    · rw [nil_append] at front_
      have relative : isAbsolute path = false := by
        rw [absolute none_, front_, isAbsolute, beq_eq_false_iff_ne]
        exact fun head => whole (mem_of_head? head)
      rw [if_pos rfl, join_eq_iff, components_join, isAbsolute_join,
        components_eq path, read, relative, ← front_]
      exact ⟨rfl, rfl⟩
    · obtain ⟨more, init_⟩ := unslashed_append init
      have rooted : isAbsolute path = isAbsolute (init ++ [slash]) := by
        rw [absolute none_, front_]
        exact isAbsolute_append (append_ne_nil_of_right_ne_nil _ (cons_ne_nil _ _)) _
      have path_read (rooted : Bool) : readFrom rooted [] path =
          readFrom rooted (readFrom rooted [] (unslashed init)) (basename path) := by
        rw [read, front_, append_assoc, singleton_append, readFrom_slash]
        conv_lhs => rw [init_]
        rw [readFrom_append_replicate]
      rw [if_neg (append_ne_nil_of_right_ne_nil _ (cons_ne_nil _ _)), dropLast_concat]
      split
      next nothing =>
        rw [nothing, nil_append] at init_
        have root : isAbsolute path = true := by
          rw [rooted, init_]
          cases more with
          | zero => rfl
          | succ more => rfl
        rw [join_eq_iff, components_join, isAbsolute_join, if_neg (cons_ne_nil _ _),
          components_eq path, root, path_read, nothing]
        exact ⟨rfl, by rfl⟩
      next some_ =>
        have same : isAbsolute path = isAbsolute (unslashed init) := by
          rw [rooted]
          conv_lhs => rw [init_]
          rw [append_assoc, isAbsolute_append some_]
        rw [join_eq_iff, components_join, isAbsolute_join, if_neg some_, components_eq path, same, path_read,
          components_eq]
        exact ⟨rfl, rfl⟩

/-! ### From one path to the other -/

/-- How many components two paths begin with alike. -/
def commonLength : List Str → List Str → ℕ
  | source :: sources, target :: targets =>
      if source = target then commonLength sources targets + 1 else 0
  | _, _ => 0

/-- A climb for each of the components, unless one of them is a climb. -/
def climbsOut : List Str → Option (List Str)
  | [] => some []
  | part :: parts => if part = dotdot then none else (climbsOut parts).map (dotdot :: ·)

/-- The relative path that leads from one path to the other. -/
def relative (fromPath toPath : Str) : Option Str :=
  if isAbsolute fromPath ≠ isAbsolute toPath then none
  else
    let source := components fromPath
    let target := components toPath
    let common := commonLength source target
    match climbsOut (source.drop common) with
    | none => none
    | some climbs =>
        let steps := climbs ++ target.drop common
        if steps = [] then some dot else some (joined steps)

/-- Components that do not begin alike. -/
def Apart (source target : List Str) : Prop :=
  ∀ part, source.head? = some part → target.head? ≠ some part

/-- What two paths have in common is the longest part that both begin with. -/
theorem commonLength_append (shared : List Str) {source target : List Str} (apart : Apart source target) :
  commonLength (shared ++ source) (shared ++ target) = shared.length
  := by
  induction shared with
  | nil =>
    cases source with
    | nil => rfl
    | cons part source =>
      cases target with
      | nil => rfl
      | cons part' target =>
        exact if_neg fun same => apart part rfl (congrArg some same.symm)
  | cons part shared ih =>
    rw [cons_append, cons_append, commonLength, if_pos rfl, ih]
    rfl

theorem exists_common (source target : List Str) :
  ∃ shared source' target', source = shared ++ source' ∧ target = shared ++ target' ∧
    Apart source' target'
  := by
  induction source generalizing target with
  | nil => exact ⟨[], [], target, rfl, rfl, fun _ head => nomatch head⟩
  | cons part source ih =>
    cases target with
    | nil => exact ⟨[], part :: source, [], rfl, rfl, fun _ _ head => nomatch head⟩
    | cons part' target =>
      by_cases same : part = part'
      · obtain ⟨shared, source', target', rfl, rfl, apart⟩ := ih target
        subst same
        exact ⟨part :: shared, source', target', rfl, rfl, apart⟩
      · refine ⟨[], part :: source, part' :: target, rfl, rfl, ?_⟩
        intro first head head'
        rw [head?_cons, Option.some_inj] at head head'
        exact same (head.trans head'.symm)

theorem climbsOut_eq (parts : List Str) :
  climbsOut parts =
    if dotdot ∈ parts then none else some (List.replicate parts.length dotdot)
  := by
  induction parts with
  | nil => rfl
  | cons part parts ih =>
    rw [climbsOut, ih]
    by_cases climb : part = dotdot
    · rw [if_pos climb, if_pos (climb ▸ mem_cons_self)]
    · rw [if_neg climb]
      by_cases mem : dotdot ∈ parts
      · rw [if_pos mem, if_pos (mem_cons_of_mem _ mem)]
        rfl
      · have none_ : dotdot ∉ part :: parts := by
          rw [mem_cons, not_or]
          exact ⟨Ne.symm climb, mem⟩
        rw [if_neg mem, if_neg none_]
        rfl

/-- There is no way from one path to the other where they start differently, or where an unresolved climb
is left behind what they have in common. -/
theorem relative_eq_none (fromPath toPath : Str) :
  relative fromPath toPath = none ↔
    isAbsolute fromPath ≠ isAbsolute toPath ∨
      ∃ shared source target, components fromPath = shared ++ source ∧
        components toPath = shared ++ target ∧ Apart source target ∧ dotdot ∈ source
  := by
  rw [relative]
  split
  next differ => exact iff_of_true rfl (Or.inl differ)
  next same =>
    rw [or_iff_right same]
    obtain ⟨shared, source, target, source_, target_, apart⟩ :=
      exists_common (components fromPath) (components toPath)
    dsimp only
    rw [source_, target_, commonLength_append shared apart, drop_left, drop_left, climbsOut_eq]
    constructor
    · intro none_
      refine ⟨shared, source, target, rfl, rfl, apart, ?_⟩
      by_contra mem
      rw [if_neg mem] at none_
      dsimp only at none_
      split at none_ <;> cases none_
    · rintro ⟨shared', source', target', front, back, apart', mem⟩
      have length := commonLength_append shared apart
      rw [front, back, commonLength_append shared' apart'] at length
      have same : source = source' := (append_inj front length.symm).2
      rw [same, if_pos mem]

/-- A relative path leads where it says. -/
theorem resolve_relative {fromPath toPath path : Str} (found : relative fromPath toPath = some path) :
  resolve fromPath path = normalize toPath
  := by
  rw [relative] at found
  split at found
  next => cases found
  next same =>
    rw [ne_eq, not_not] at same
    obtain ⟨shared, source, target, source_, target_, apart⟩ :=
      exists_common (components fromPath) (components toPath)
    dsimp only at found
    rw [source_, target_, commonLength_append shared apart, drop_left, drop_left,
      climbsOut_eq] at found
    have canonical := canonical_components toPath
    rw [target_] at canonical
    by_cases mem : dotdot ∈ source
    · rw [if_pos mem] at found
      cases found
    rw [if_neg mem] at found
    dsimp only at found
    have climbs : Plain (List.replicate source.length dotdot) := by
      constructor
      · intro part mem
        rw [eq_of_mem_replicate mem]
        decide
      · intro part mem
        rw [eq_of_mem_replicate mem]
        decide
    have plain := climbs.append canonical.toPlain.right
    have path_ : path = spell false (List.replicate source.length dotdot ++ target) := by
      rw [spell, if_neg Bool.false_ne_true]
      simp only [(head_joined plain).1]
      split at found
      next none_ => rw [if_pos none_, Option.some.inj found]
      next some_ => rw [if_neg some_, Option.some.inj found]
    have relative_ : isAbsolute path = false := by rw [path_, isAbsolute_spell plain]
    have start : isAbsolute (join fromPath path) = isAbsolute toPath := by
      rw [isAbsolute_join, ← same]
      split
      next none_ => rw [relative_, none_]; rfl
      next => rfl
    rw [resolve, relative_, if_neg Bool.false_ne_true, join_eq_iff, components_join, start]
    refine ⟨rfl, ?_⟩
    rw [path_, readFrom_spell false _ plain, foldl_append, source_, target_]
    have back : (List.replicate source.length dotdot).foldl (read (isAbsolute toPath))
        (shared ++ source) = shared := by
      rw [foldl_ext (read (isAbsolute toPath)) (Climbs.climb dotdot (isAbsolute toPath))]
      · exact Climbs.foldl_back shared source mem
      · intro parts part mem
        exact read_climb parts (climbs.kept part mem)
    rw [back, foldl_read canonical]

/-! ### Many paths -/

/-- The parts that are not empty. -/
def nonEmpty (parts : List Str) : List Str :=
  parts.filter (· ≠ [])

/-- The list begins with an empty part, and its first part that is not empty is absolute. -/
def LateRoot (parts : List Str) : Prop :=
  parts.head? = some [] ∧ ∃ part, (nonEmpty parts).head? = some part ∧ isAbsolute part = true

theorem foldl_nonEmpty (rooted : Bool) (front parts : List Str) :
  (nonEmpty parts).foldl (readFrom rooted) front = parts.foldl (readFrom rooted) front
  := by
  induction parts generalizing front with
  | nil => rfl
  | cons part parts ih =>
    rw [nonEmpty, filter_cons]
    split
    next => exact ih _
    next none_ =>
      rw [decide_eq_true_iff, not_not] at none_
      rw [foldl_cons, none_, readFrom_nil]
      exact ih front

theorem join_ne_nil (base part : Str) : join base part ≠ []
  := by
  obtain ⟨text, heq⟩ := exists_join base part
  rw [heq]
  exact spell_ne_nil _ _

/-- From a path that is not empty on, the other paths are read behind it. -/
theorem foldl_join {base : Str} (some_ : base ≠ []) (parts : List Str) :
  parts.foldl join base ≠ [] ∧ isAbsolute (parts.foldl join base) = isAbsolute base ∧
    components (parts.foldl join base) = parts.foldl (readFrom (isAbsolute base)) (components base)
  := by
  induction parts generalizing base with
  | nil => exact ⟨some_, rfl, rfl⟩
  | cons part parts ih =>
    obtain ⟨some', start, parts_⟩ := ih (join_ne_nil base part)
    rw [isAbsolute_join, if_neg some_] at start parts_
    rw [components_join, isAbsolute_join, if_neg some_] at parts_
    exact ⟨some', start, parts_⟩

theorem exists_joinAll (parts : List Str) : ∃ text, joinAll parts = normalize text
  := by
  have spelled : ∀ (parts : List Str) (base : Str), (∃ text, base = normalize text) →
      ∃ text, parts.foldl join base = normalize text := by
    intro parts
    induction parts with
    | nil => exact fun base spelled => spelled
    | cons part parts ih => exact fun base _ => ih _ (exists_join base part)
  rw [joinAll]
  split
  · exact ⟨[], by decide⟩
  next some_ =>
    cases parts with
    | nil => exact absurd rfl some_
    | cons part parts => exact spelled parts _ (exists_join [] part)

/-- Many paths are joined as if the parts that are not empty stood behind each other, but for a root that
comes late. -/
theorem joinAll_iff (parts : List Str) :
  joinAll parts = normalize (joined (nonEmpty parts)) ↔ ¬ LateRoot parts
  := by
  obtain ⟨text, spelled⟩ := exists_joinAll parts
  rw [spelled, normalize_eq_iff, ← isAbsolute_normalize text, ← components_normalize text, ← spelled]
  cases parts with
  | nil => exact iff_of_true (by decide) fun late => nomatch late.1
  | cons part parts =>
    obtain ⟨some_, start, parts_⟩ := foldl_join (join_ne_nil [] part) parts
    rw [isAbsolute_join, if_pos rfl] at start parts_
    rw [components_join, isAbsolute_join, if_pos rfl] at parts_
    have all : joinAll (part :: parts) = parts.foldl join (join [] part) := if_neg some_
    rw [all, start, parts_]
    by_cases none_ : part = []
    · subst none_
      have rest : nonEmpty ([] :: parts) = nonEmpty parts := rfl
      have read : parts.foldl (readFrom (isAbsolute [])) (readFrom (isAbsolute []) (components []) []) =
          (nonEmpty parts).foldl (readFrom false) [] := (foldl_nonEmpty false [] parts).symm
      rw [rest, LateRoot, rest, read]
      cases h : nonEmpty parts with
      | nil => exact iff_of_true ⟨rfl, rfl⟩ fun ⟨_, _, head, _⟩ => nomatch head
      | cons first others =>
        have some' : first ≠ [] := by
          have mem : first ∈ nonEmpty parts := h ▸ mem_cons_self
          rw [nonEmpty, mem_filter, decide_eq_true_iff] at mem
          exact mem.2
        have same : isAbsolute (joined (first :: others)) = isAbsolute first := by
          rw [joined_cons, isAbsolute_append some']
        rw [same, components_eq (joined _), readFrom_joined, same]
        cases root : isAbsolute first with
        | false =>
          refine iff_of_true ⟨rfl, rfl⟩ ?_
          rintro ⟨_, part, head, absolute⟩
          rw [head?_cons, Option.some_inj] at head
          rw [head, absolute] at root
          cases root
        | true =>
          refine iff_of_false ?_ (not_not_intro ⟨rfl, first, rfl, root⟩)
          rintro ⟨start, _⟩
          cases start
    · have rest : nonEmpty (part :: parts) = part :: nonEmpty parts := by
        rw [nonEmpty, filter_cons, if_pos (decide_eq_true none_)]
        rfl
      have same : isAbsolute (joined (part :: nonEmpty parts)) = isAbsolute part := by
        rw [joined_cons, isAbsolute_append none_]
      have early : ¬ LateRoot (part :: parts) := fun late => none_ (Option.some.inj late.1)
      rw [rest, same, components_eq (joined _), readFrom_joined, same, foldl_cons, foldl_nonEmpty]
      exact iff_of_true ⟨rfl, rfl⟩ early

/-- The laws of paths, at a path, a pair of paths and a list of paths. -/
structure Lawful (path fromPath toPath : Str) (parts : List Str) : Prop where
  idempotent : normalize (normalize path) = normalize path
  absolute : isAbsolute (normalize path) = isAbsolute path
  directory : join (dirname path) (basename path) = normalize path
  leads : ∀ way, relative fromPath toPath = some way → resolve fromPath way = normalize toPath
  no_way : relative fromPath toPath = none ↔
    isAbsolute fromPath ≠ isAbsolute toPath ∨
      ∃ shared source target, components fromPath = shared ++ source ∧
        components toPath = shared ++ target ∧ Apart source target ∧ dotdot ∈ source
  all : joinAll parts = normalize (joined (nonEmpty parts))

/-- The laws hold of all paths, and of all lists without a root that comes late. -/
theorem lawful_iff (path fromPath toPath : Str) (parts : List Str) :
  Lawful path fromPath toPath parts ↔ ¬ LateRoot parts
  := by
  rw [← joinAll_iff]
  constructor
  · intro laws
    exact laws.all
  · intro all
    refine ⟨?_, isAbsolute_normalize path, join_dirname path, ?_, relative_eq_none fromPath toPath, all⟩
    · rw [normalize_eq_iff]
      exact ⟨isAbsolute_normalize path, components_normalize path⟩
    · intro way found
      exact resolve_relative found

/-- An empty part takes the root from the part behind it. -/
theorem not_lawful_late :
  joinAll [[], ascii "/a"] = ascii "a" ∧ normalize (joined (nonEmpty [[], ascii "/a"])) = ascii "/a" ∧
    ¬ Lawful [] [] [] [[], ascii "/a"]
  := by
  refine ⟨by decide, by decide, ?_⟩
  intro laws
  exact absurd laws.all (by decide)

end Vilan.Path
