import Vilan.Library.Interleaved
import Vilan.Web.Document
import Vilan.Web.Scanned

/-!
# Composed shells

The supplied shell with the markup of its document.  The scanner's tags are ranges of the page; the
hand-written sort of the insertions is stable, and the pass over them writes the shell with each at
its place.
-/

namespace Vilan.Web

open List Option Interleaved

variable {markup text shell : Str} {index : ℕ} {tag : Tag}

/-! ### The sort and the pass -/

variable {ordered insertions : List (ℕ × Str)} {insertion first : ℕ × Str}

theorem insertOrdered_of_le (le : first.1 ≤ insertion.1) :
  insertOrdered (first :: ordered) insertion = first :: insertOrdered ordered insertion
  := by
  rw [insertOrdered, countP_cons_of_pos (by simpa using le), insertIdx_succ_cons]
  rfl

theorem insertOrdered_of_lt (sorted : ((first :: ordered).map Prod.fst).Pairwise (· ≤ ·))
    (lt : insertion.1 < first.1) :
  insertOrdered (first :: ordered) insertion = insertion :: first :: ordered
  := by
  have above := pairwise_cons.mp sorted
  have none_before : (first :: ordered).countP (fun entry => entry.1 ≤ insertion.1) = 0 := by
    rw [countP_eq_zero]
    intro entry mem
    rw [decide_eq_true_iff]
    obtain rfl | mem := mem_cons.mp mem
    · omega
    · have := above.1 _ (mem_map_of_mem mem)
      omega
  rw [insertOrdered, none_before, insertIdx_zero]

/-- Sorted insertions that are others, with the ones at one index in their order. -/
structure Sorts (ordered insertions : List (ℕ × Str)) : Prop where
  sorted : (ordered.map Prod.fst).Pairwise (· ≤ ·)
  mem : ∀ entry ∈ ordered, entry ∈ insertions
  standing : ∀ index, standing ordered index = standing insertions index

/-- Counting the entries before an insertion finds the place that keeps the sort stable. -/
theorem sorts_insertOrdered (insertion : ℕ × Str)
    (sorted : (ordered.map Prod.fst).Pairwise (· ≤ ·)) :
  Sorts (insertOrdered ordered insertion) (ordered ++ [insertion])
  := by
  induction ordered with
  | nil => exact ⟨pairwise_singleton _ _, fun entry mem => mem, fun index => rfl⟩
  | cons first ordered ih =>
    obtain ⟨above, rest⟩ := pairwise_cons.mp sorted
    obtain ⟨sorts, members, same⟩ := ih rest
    obtain lt | le := Nat.lt_or_ge insertion.1 first.1
    · rw [insertOrdered_of_lt sorted lt]
      have all_above : ∀ entry ∈ first :: ordered, insertion.1 < entry.1 := by
        intro entry mem
        obtain rfl | mem := mem_cons.mp mem
        · exact lt
        · exact lt.trans_le (above _ (mem_map_of_mem mem))
      refine ⟨pairwise_cons.mpr ⟨?_, sorted⟩, ?_, fun index => ?_⟩
      · intro index mem
        obtain ⟨entry, listed, rfl⟩ := List.mem_map.mp mem
        exact (all_above entry listed).le
      · intro entry mem
        rw [mem_append, mem_singleton, or_comm]
        exact mem_cons.mp mem
      · rw [standing_append, ← singleton_append, standing_append]
        by_cases here : insertion.1 = index
        · subst here
          rw [standing_of_lt all_above, append_nil, nil_append]
        · have elsewhere : standing [insertion] index = [] := standing_cons_of_ne here
          rw [elsewhere, append_nil, nil_append]
    · rw [insertOrdered_of_le le]
      refine ⟨pairwise_cons.mpr ⟨?_, sorts⟩, ?_, fun index => ?_⟩
      · intro index mem
        obtain ⟨entry, listed, rfl⟩ := List.mem_map.mp mem
        obtain old | new := mem_append.mp (members entry listed)
        · exact above _ (mem_map_of_mem old)
        · rwa [mem_singleton.mp new]
      · exact cons_subset_cons first members
      · rw [← singleton_append, standing_append, same, ← standing_append]
        rfl

theorem sorts_foldl (insertions : List (ℕ × Str))
    (sorted : (ordered.map Prod.fst).Pairwise (· ≤ ·)) :
  Sorts (insertions.foldl insertOrdered ordered) (ordered ++ insertions)
  := by
  induction insertions generalizing ordered with
  | nil =>
    rw [append_nil]
    exact ⟨sorted, fun entry mem => mem, fun index => rfl⟩
  | cons insertion insertions ih =>
    have one := sorts_insertOrdered insertion sorted
    have all := ih one.sorted
    refine ⟨all.sorted, fun entry mem => ?_, fun index => ?_⟩
    · rw [← singleton_append, ← append_assoc]
      obtain mem | mem := mem_append.mp (all.mem entry mem)
      · exact mem_append_left _ (one.mem entry mem)
      · exact mem_append_right _ mem
    · rw [foldl_cons, all.standing, standing_append, one.standing, ← standing_append,
        append_assoc, singleton_append]

/-- The pass writes the text with each insertion at its index, those at one index as listed. -/
theorem spliced_eq (within : ∀ entry ∈ insertions, entry.1 ≤ text.length) :
  spliced text insertions = interleaved (standing insertions) 0 text
  := by
  have sorts : Sorts (insertions.foldl insertOrdered []) insertions := sorts_foldl insertions .nil
  obtain ⟨sorted, members, same⟩ := sorts
  have pass := foldl_place 0 sorted (fun entry mem => ⟨Nat.zero_le _, within entry (members entry mem)⟩) []
  rw [funext same] at pass
  have rest : ∀ cursor, Str.substring text cursor text.length = text.drop cursor := by
    intro cursor
    apply take_of_length_le
    rw [length_drop]
  rw [spliced]
  simp only [rest]
  exact pass

/-! ### Composing -/

/-- The tag that a search finds among those of a shell. -/
structure First (shell : Str) (p : Tag → Bool) (tag : Tag) : Prop where
  found : (tagsOf shell).find? p = some tag
  real : tag.Real shell

theorem exists_first {p : Tag → Bool} (found : (tagsOf shell).find? p = some tag) :
  First shell p tag
  := ⟨found, ((tagsFrom_real 0).1 tag (List.mem_of_find?_eq_some found)).2⟩

/-- Where the markup meant for inside an element lands: before the first tag that closes one of its
name, when there is any markup. -/
def Aims (shell name markup : Str) (index : ℕ) : Prop :=
  markup = [] ∨ ∃ tag, First shell (fun tag => tag.closing && tag.name == name) tag ∧
    index = tag.start

variable {build : LegBuild} {accepted : Document} {name head body rendered result : Str}

/-- A shell that passes the check has the element to mount at. -/
theorem fromShell_mount (fromShell : Document.fromShell shell build = .ok accepted) :
  ∃ tag, First shell (fun tag => tag.attribute (ascii "id") == defaultMount) tag ∧
    accepted.splice = tag.stop
  := by
  rw [Document.fromShell, checkShell] at fromShell
  dsimp only at fromShell
  split at fromShell
  next clean =>
    rw [shellFaults, append_eq_nil_iff] at clean
    have carries : mounted defaultMount (tagsOf shell) = true := by
      by_contra missing
      rw [if_neg missing] at clean
      cases clean.2
    obtain ⟨tag, mem, mounts⟩ := List.any_eq_true.mp carries
    have some_ : ((tagsOf shell).find? fun tag =>
        tag.attribute (ascii "id") == defaultMount).isSome = true := by
      rw [find?_isSome]
      exact ⟨tag, mem, (Bool.and_eq_true_iff.mp mounts).2⟩
    obtain ⟨tag, found⟩ := isSome_iff_exists.mp some_
    cases fromShell
    use tag, exists_first found
    simp only [splicePoint, found]
  next => cases fromShell

theorem closingPoint_first (point : closingPoint shell name = some index) (markup : Str) :
  Aims shell name markup index ∧ index ≤ shell.length
  := by
  obtain ⟨tag, found, rfl⟩ := map_eq_some_iff.mp point
  have first := exists_first found
  have inside := first.real.inside
  exact ⟨.inr ⟨tag, first, rfl⟩, by omega⟩

/-- The three places of a composed shell, where all the markup has one. -/
theorem composed_places {document : Document} (composed : document.composed shell = .ok result) :
  ∃ headAt bodyAt, (Aims shell (ascii "head") document.head headAt ∧ headAt ≤ shell.length) ∧
    (Aims shell (ascii "body") document.body bodyAt ∧ bodyAt ≤ shell.length) ∧
    result = spliced shell ([(document.splice, document.rendered), (headAt, document.head),
      (bodyAt, document.body)].filter fun entry => entry.2 ≠ [])
  := by
  have place : ∀ name markup : Str, (markup = [] ∨ ∃ index, closingPoint shell name = some index) →
      ∃ index, (Aims shell name markup index ∧ index ≤ shell.length) ∧
        (markup = [] ∨ closingPoint shell name = some index) := by
    rintro name markup (empty | ⟨index, point⟩)
    · exact ⟨0, ⟨.inl empty, Nat.zero_le _⟩, .inl empty⟩
    · exact ⟨index, closingPoint_first point markup, .inr point⟩
  rw [Document.composed] at composed
  have headPlaced : document.head = [] ∨ ∃ index, closingPoint shell (ascii "head") = some index := by
    by_contra missing
    rw [not_or, ← isSome_iff_exists, not_isSome_iff_eq_none] at missing
    simp [missing.1, missing.2] at composed
  obtain ⟨headAt, aimsHead, atHead⟩ := place _ _ headPlaced
  have bodyPlaced : document.body = [] ∨ ∃ index, closingPoint shell (ascii "body") = some index := by
    by_contra missing
    rw [not_or, ← isSome_iff_exists, not_isSome_iff_eq_none] at missing
    obtain empty | point := atHead
    · simp [missing.1, missing.2, empty] at composed
    · by_cases empty : document.head = [] <;>
        simp [missing.1, missing.2, empty, point] at composed
  obtain ⟨bodyAt, aimsBody, atBody⟩ := place _ _ bodyPlaced
  use headAt, bodyAt, aimsHead, aimsBody
  have headPoint := atHead.resolve_left
  have bodyPoint := atBody.resolve_left
  by_cases noRender : document.rendered = [] <;> by_cases noHead : document.head = [] <;>
    by_cases noBody : document.body = [] <;>
      simp [noRender, noHead, noBody, headPoint, bodyPoint] at composed ⊢ <;>
      exact composed.symm

/-- The composed shell is the shell with its insertions: the rendered markup at the end of the
start tag of the mount element, the head and the body markup before the closing tags they aim at. -/
theorem composed_inserts (fromShell : Document.fromShell shell build = .ok accepted)
    (composed : Document.composed
      { accepted with head := head, body := body, rendered := rendered } shell = .ok result) :
  ∃ mountTag headAt bodyAt,
    First shell (fun tag => tag.attribute (ascii "id") == defaultMount) mountTag ∧
    Aims shell (ascii "head") head headAt ∧ Aims shell (ascii "body") body bodyAt ∧
    result = interleaved (standing [(mountTag.stop, rendered), (headAt, head), (bodyAt, body)]) 0
      shell
  := by
  obtain ⟨mountTag, mounts, splice⟩ := fromShell_mount fromShell
  obtain ⟨headAt, bodyAt, ⟨aimsHead, head_le⟩, ⟨aimsBody, body_le⟩, eq⟩ := composed_places composed
  have mount_le := mounts.real.inside.2
  have within : ∀ entry ∈ [(accepted.splice, rendered), (headAt, head), (bodyAt, body)],
      entry.1 ≤ shell.length := by
    simp only [forall_mem_cons, splice]
    exact ⟨mount_le, head_le, body_le, fun entry mem => absurd mem not_mem_nil⟩
  refine ⟨mountTag, headAt, bodyAt, mounts, aimsHead, aimsBody, ?_⟩
  rw [eq, spliced_eq fun entry mem => within entry (List.mem_of_mem_filter mem), ← splice]
  congr 1
  funext index
  apply standing_filter
  intro entry mem fails
  simpa using fails

/-- A leg whose bundle is one script. -/
def scriptBuild : LegBuild where
  leg := ascii "web"
  bundle := ascii "web.js"
  styles := none
  chunks := []
  classicScript := false

/-- The document of a shell that is accepted. -/
def suppliedDocument (shell : Str) : Document :=
  { Document.of scriptBuild with
    shell := some shell
    source := ascii "this supplied shell"
    splice := splicePoint shell defaultMount }

theorem fromShell_supplied (passes : checkShell shell scriptBuild defaultMount = .ok ()) :
  Document.fromShell shell scriptBuild = .ok (suppliedDocument shell)
  := by
  rw [Document.fromShell, passes]
  rfl

def wholeShell : Str := ascii "<script src=web.js></script></head><a id=app></body>"

theorem composed_inserts_whole :
  ∃ mountTag headAt bodyAt,
    First wholeShell (fun tag => tag.attribute (ascii "id") == defaultMount) mountTag ∧
    Aims wholeShell (ascii "head") (ascii "<b>") headAt ∧
    Aims wholeShell (ascii "body") (ascii "<i>") bodyAt ∧
    ascii "<script src=web.js></script><b></head><a id=app>x<i></body>" =
      interleaved (standing [(mountTag.stop, ascii "x"), (headAt, ascii "<b>"),
        (bodyAt, ascii "<i>")]) 0 wholeShell
  :=
  composed_inserts (fromShell_supplied (by decide +kernel)) (by decide +kernel)

/-- A shell that breaks off inside the tag of its mount element. -/
def openShell : Str := ascii "<script src=web.js></script><a id=app"

/-- An open shell passes the check, and the rendered markup does not land behind a `>`. -/
theorem not_behind_end_open :
  ¬ ∀ shell build accepted rendered result, Document.fromShell shell build = .ok accepted →
    Document.composed { accepted with rendered := rendered } shell = .ok result →
    ∃ before behind, shell = before ++ ascii ">" ++ behind ∧
      result = before ++ ascii ">" ++ rendered ++ behind
  := by
  intro claimed
  obtain ⟨before, behind, eq, inserted⟩ := claimed openShell scriptBuild (suppliedDocument openShell)
    (ascii "x") (openShell ++ ascii "x") (fromShell_supplied (by decide +kernel)) (by decide +kernel)
  have last : openShell.getLast? = some (unit 'p') := by decide
  have last' : (openShell ++ ascii "x").getLast? = some (unit 'x') := by decide
  induction behind using List.reverseRecOn with
  | nil =>
    have bracket : (ascii ">").getLast? = some (unit '>') := rfl
    rw [eq, append_nil, getLast?_append, bracket, some_or] at last
    revert last
    decide
  | append_singleton behind character _ =>
    rw [eq, ← append_assoc, getLast?_concat] at last
    rw [inserted, ← append_assoc, getLast?_concat, last] at last'
    revert last'
    decide

end Vilan.Web
