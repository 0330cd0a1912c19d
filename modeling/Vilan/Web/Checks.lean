import Vilan.Web.Pages

/-!
# The check of a written page

A page that std writes links the styles of its build and nothing else, loads the bundle in the form
the build requires, and carries the id to mount at as it is escaped.
-/

namespace Vilan.Web

open List

/-! ### Where tags stand does not matter -/

theorem stylesheets_unplaced (tags : List Tag) :
  stylesheets (tags.map Tag.unplaced) = stylesheets tags
  := by
  rw [stylesheets, stylesheets, List.filter_map, List.map_map]
  rfl

theorem scripts_unplaced (tags : List Tag) :
  scripts (tags.map Tag.unplaced) = (scripts tags).map Tag.unplaced
  := by
  rw [scripts, scripts, List.filter_map]
  rfl

theorem mounted_unplaced (mount : Str) (tags : List Tag) :
  mounted mount (tags.map Tag.unplaced) = mounted mount tags
  := by
  rw [mounted, mounted, List.any_map]
  rfl

theorem shellFaults_unplaced (tags : List Tag) (build : LegBuild) (mount : Str) :
  shellFaults (tags.map Tag.unplaced) build mount = shellFaults tags build mount
  := by
  rw [shellFaults, shellFaults, stylesheets_unplaced, scripts_unplaced, mounted_unplaced,
    flatMap_map, List.any_map]
  rfl

/-! ### The parts of the check -/

theorem stylesheets_page (build : LegBuild) (description lang mount : Str) :
  stylesheets (pageTags build description lang mount) = build.styles.toList.map (unit '/' :: ·)
  := by
  rw [pageTags]
  cases build.styles with
  | none =>
    split
    next => rfl
    next => rfl
  | some sidecar =>
    split
    next => rfl
    next => rfl

/-- The tag that loads the bundle. -/
def bundleTag (build : LegBuild) : Tag :=
  opening (ascii "script")
    ((if build.classicScript then [] else [(ascii "type", ascii "module")]) ++
      [(ascii "src", unit '/' :: build.bundle)])

theorem bundleTag_src (build : LegBuild) :
  (bundleTag build).attribute (ascii "src") = unit '/' :: build.bundle
  := by
  rw [bundleTag]
  split
  next => rfl
  next => rfl

theorem scripts_page (build : LegBuild) (description lang mount : Str) :
  scripts (pageTags build description lang mount) = [bundleTag build]
  := by
  have loads : (bundleTag build).attribute (ascii "src") != [] := by
    rw [bundleTag_src]
    rfl
  have last : scripts [bundleTag build, closing (ascii "script")] = [bundleTag build] := by
    rw [scripts, filter_cons_of_pos]
    · rfl
    · rw [loads]
      rfl
  have front : scripts (pageTags build description lang mount) =
      scripts [bundleTag build, closing (ascii "script")] := by
    rw [pageTags]
    cases build.styles with
    | none =>
      split
      next => rfl
      next => rfl
    | some sidecar =>
      split
      next => rfl
      next => rfl
  rw [front, last]

/-- The ids that tags carry. -/
def ids (tags : List Tag) : List Str :=
  (tags.map fun tag => tag.attribute (ascii "id")).filter (· != [])

variable {mount : Str} {build : LegBuild}

theorem mounted_iff (some_ : mount ≠ []) (tags : List Tag) :
  mounted mount tags = true ↔ mount ∈ ids tags
  := by
  simp only [mounted, ids, List.any_eq_true, mem_filter, List.mem_map, Bool.and_eq_true,
    bne_iff_ne, beq_iff_eq]
  constructor
  · rintro ⟨tag, mem, _, carries⟩
    exact ⟨⟨tag, mem, carries⟩, some_⟩
  · rintro ⟨⟨tag, mem, carries⟩, _⟩
    exact ⟨tag, mem, some_, carries⟩

theorem ids_page (build : LegBuild) (description lang mount : Str) :
  ids (pageTags build description lang mount) = [escapeAttribute mount].filter (· != [])
  := by
  obtain ⟨leg, bundle, styles, chunks, classicScript⟩ := build
  rw [pageTags]
  split
  next => cases styles <;> cases classicScript <;> rfl
  next => cases styles <;> cases classicScript <;> rfl

theorem mounted_page (some_ : mount ≠ []) (build : LegBuild) (description lang : Str) :
  mounted mount (pageTags build description lang mount) = true ↔
    unit '&' ∉ mount ∧ unit '"' ∉ mount
  := by
  rw [mounted_iff some_, ids_page, mem_filter, mem_singleton, bne_iff_ne, ← escapeAttribute_eq_iff]
  constructor
  · rintro ⟨eq, _⟩
    apply eq.symm
  · intro eq
    exact ⟨eq.symm, some_⟩

/-! ### The check -/

section

variable (plain : build.Plain)
include plain

theorem unlinkedStyles_page :
  unlinkedStyles build (build.styles.toList.map (unit '/' :: ·)) = []
  := by
  rw [unlinkedStyles]
  cases styles : build.styles with
  | none => rfl
  | some sidecar =>
    have named := plain.styles sidecar styles
    simp [isLocal_root named, fileNameOf_root named]

theorem missingStyles_page :
  missingStyles build (build.styles.toList.map (unit '/' :: ·)) = []
  := by
  rw [missingStyles]
  cases styles : build.styles with
  | none => rfl
  | some sidecar =>
    have named := plain.styles sidecar styles
    simp [fileNameOf_root named, isEmittedStyle, styles]

/-- The bundle is loaded in the form that the build requires. -/
theorem scriptFaults_bundle :
  scriptFaults build (bundleTag build) = []
  := by
  rw [scriptFaults, bundleTag_src, fileNameOf_root plain.bundle]
  rw [if_pos (isLocal_root plain.bundle), if_pos rfl, bundleTag]
  cases build.classicScript with
  | false => rfl
  | true => rfl

theorem loadsBundle_bundle :
  loadsBundle build (bundleTag build) = true
  := by
  rw [loadsBundle, bundleTag_src, isLocal_root plain.bundle, fileNameOf_root plain.bundle,
    beq_self_eq_true]
  rfl

/-- The faults that the check finds in a page that std writes: only the id may be missing. -/
theorem shellFaults_page (some_ : mount ≠ []) (description lang : Str) :
  shellFaults (pageTags build description lang mount) build mount =
    if unit '&' ∉ mount ∧ unit '"' ∉ mount then [] else [.mountMissing mount]
  := by
  have mounts := mounted_page some_ build description lang
  rw [shellFaults, stylesheets_page, scripts_page, unlinkedStyles_page plain,
    missingStyles_page plain]
  simp only [flatMap_cons, flatMap_nil, scriptFaults_bundle plain, any_cons,
    loadsBundle_bundle plain, Bool.true_or, if_true, append_nil, nil_append, mounts]

theorem tags_page (title description lang mount : Str) :
  (tagsOf (writtenDocument build title description lang mount).generated).map Tag.unplaced =
    pageTags build description lang mount
  := by
  have reads := reads_page plain title description lang mount
    (writtenDocument build title description lang mount).generated 0 [] (by simp)
  have done (markup : Str) : tagsFrom markup (0 + markup.length) = [] := by
    rw [tagsFrom, dif_neg (by omega)]
  rw [done, map_nil, append_nil] at reads
  apply reads

theorem checkShell_page (some_ : mount ≠ []) (title description lang : Str) :
  checkShell (writtenDocument build title description lang mount).generated build mount =
    if unit '&' ∉ mount ∧ unit '"' ∉ mount then .ok () else .error [.mountMissing mount]
  := by
  rw [checkShell, ← shellFaults_unplaced, tags_page plain, shellFaults_page plain some_]
  split
  next => rfl
  next => rfl

end

/-- A document without raw markup is written as it is, with no check. -/
theorem html_written (build : LegBuild) (title description lang mount : Str) :
  (writtenDocument build title description lang mount).html =
    .ok (writtenDocument build title description lang mount).generated
  := rfl

/-- A page that std writes for a build passes std's own check exactly when the id to mount at
carries no ampersand and no double quote: these are escaped when the page is written, and the
scanner reads values as they stand. -/
theorem written_page_passes_iff {build : LegBuild} (plain : build.Plain)
    (title description lang : Str) {mount : Str} (some_ : mount ≠ []) :
  (∃ markup,
    (((((Document.of build).withTitle title).withDescription description).withLang lang).withMount
      mount).html = .ok markup ∧ checkShell markup build mount = .ok ()) ↔
    unit '&' ∉ mount ∧ unit '"' ∉ mount
  := by
  have written : (((((Document.of build).withTitle title).withDescription description).withLang
      lang).withMount mount).html =
        .ok (writtenDocument build title description lang mount).generated :=
    html_written build title description lang mount
  have check := checkShell_page plain some_ title description lang
  constructor
  · rintro ⟨markup, eq, passes⟩
    rw [written, Except.ok.injEq] at eq
    subst eq
    by_contra escaped
    rw [check, if_neg escaped] at passes
    cases passes
  · intro unescaped
    use (writtenDocument build title description lang mount).generated, written
    rw [check, if_pos unescaped]

/-- A leg that splits, with styles. -/
def clientBuild : LegBuild :=
  ⟨ascii "client", ascii "client.js", some (ascii "client.css"), [ascii "client.Home.js"], true⟩

theorem clientBuild_plain : clientBuild.Plain where
  leg := by decide
  bundle := by decide
  styles := by
    intro sidecar styles
    rw [← Option.some_inj.mp styles]
    decide
  chunks := by decide
  owns_bundle := by decide
  owns_styles := by
    intro sidecar styles
    rw [← Option.some_inj.mp styles]
    decide

/-- The default mount passes. -/
theorem written_client_passes :
  ∃ markup, (((((Document.of clientBuild).withTitle (ascii "A < B")).withDescription
    (ascii "<link>")).withLang (ascii "en")).withMount (ascii "app")).html = .ok markup ∧
      checkShell markup clientBuild (ascii "app") = .ok ()
  :=
  (written_page_passes_iff clientBuild_plain _ _ _ (by decide)).mpr (by decide)

/-- A page that mounts at an id with an ampersand does not pass. -/
theorem ampersand_fails :
  ¬ ∀ build : LegBuild, build.Plain → ∀ title description lang mount : Str, mount ≠ [] →
    ∃ markup, (((((Document.of build).withTitle title).withDescription description).withLang
      lang).withMount mount).html = .ok markup ∧ checkShell markup build mount = .ok ()
  := by
  intro passes
  obtain ⟨markup, eq, passed⟩ := passes clientBuild clientBuild_plain (ascii "Title") []
    (ascii "en") (ascii "a&b") (by decide)
  have some_ : ascii "a&b" ≠ [] := by decide
  have check := checkShell_page clientBuild_plain some_ (ascii "Title") [] (ascii "en")
  have written := html_written clientBuild (ascii "Title") [] (ascii "en") (ascii "a&b")
  rw [writtenDocument] at written
  rw [written, Except.ok.injEq] at eq
  subst eq
  rw [if_neg (by decide)] at check
  rw [writtenDocument] at check
  rw [check] at passed
  cases passed

end Vilan.Web
