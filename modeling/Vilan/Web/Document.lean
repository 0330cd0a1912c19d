import Vilan.Std.Path
import Vilan.Web.Tags

/-!
# Documents

The page that loads a browser leg, written from what the leg's build emitted or supplied as a
shell, and the check that a page agrees with a build.
-/

namespace Vilan.Web

/-! ### Builds and faults -/

/-- What the build of a browser leg emitted, as far as a page names it. -/
structure LegBuild where
  leg : Str
  bundle : Str
  styles : Option Str
  chunks : List Str
  classicScript : Bool

inductive ShellFault where
  | stylesNotLinked (file : Str)
  | linkedStyleMissing (href : Str)
  | scriptNotEmitted (src : Str)
  | bundleNotLoaded (file : Str)
  | mountMissing (id : Str)
  | moduleScriptWithChunks (file : Str)
  deriving DecidableEq

/-- What is wrong, and what to do about it. -/
def ShellFault.message : ShellFault → Str
  | .stylesNotLinked file =>
      ascii "the build emitted the stylesheet " ++ file ++
        ascii " and this document links no stylesheet — add `<link rel=\"stylesheet\" href=\"/" ++
        file ++ ascii "\" />` inside <head>"
  | .linkedStyleMissing href =>
      ascii "this document links " ++ href ++
        ascii ", which this build did not emit — remove the link, or restore the styles it names " ++
        ascii "(a leg with no `const style()` emits no stylesheet at all)"
  | .scriptNotEmitted src =>
      ascii "this document loads " ++ src ++
        ascii ", which this build did not emit — remove the script tag, or restore the build that " ++
        ascii "wrote it"
  | .bundleNotLoaded file =>
      ascii "this build's bundle " ++ file ++
        ascii " is loaded by no script in this document — add `<script src=\"/" ++ file ++
        ascii "\"></script>` before </body>"
  | .mountMissing id =>
      ascii "no element in this document carries id=\"" ++ id ++
        ascii "\", which is where the client mounts — add `<div id=\"" ++ id ++
        ascii "\"></div>` inside <body>"
  | .moduleScriptWithChunks file =>
      file ++ ascii " is loaded as a module script and this leg SPLITS — chunk resolution reads " ++
        ascii "`document.currentScript`, which is null in a module, so every nested route would fail " ++
        ascii "to load its chunk; drop `type=\"module\"` from its script tag"

/-- What is wrong with the markup from a source, one line for each fault. -/
def faultReport (source : Str) (build : LegBuild) (faults : List ShellFault) : Str :=
  faults.foldl (fun report fault => report ++ ascii "\n  - " ++ fault.message)
    (source ++ ascii " does not match the `" ++ build.leg ++ ascii "` build:")

/-! ### What a tag addresses -/

/-- Whether the value of a `rel` names a stylesheet. -/
def isStylesheetRel (rel : Str) : Bool :=
  (Str.split (toLowercaseAscii rel) (unit ' ')).any (· == ascii "stylesheet")

/-- Whether a url could address what this build emitted. -/
def isLocal (url : Str) : Bool :=
  !(Search.find (ascii "://") url).isSome && !(ascii "//").isPrefixOf url &&
    !(ascii "data:").isPrefixOf url

/-- The file name a url addresses, without its query and fragment. -/
def fileNameOf (url : Str) : Str :=
  Path.basename ((Str.split ((Str.split url (unit '?')).headD []) (unit '#')).headD [])

/-- Whether a file is in the namespace that the leg's build owns. -/
def legOwns (build : LegBuild) (file : Str) : Bool :=
  (build.leg ++ ascii ".").isPrefixOf file

def isEmittedStyle (build : LegBuild) (file : Str) : Bool :=
  match build.styles with
  | some sidecar => sidecar == file
  | none => false

def isEmittedChunk (build : LegBuild) (file : Str) : Bool :=
  build.chunks.any (· == file)

/-! ### The check -/

/-- The urls of the stylesheets that tags link. -/
def stylesheets (tags : List Tag) : List Str :=
  (tags.filter fun tag => tag.name == ascii "link" && isStylesheetRel (tag.attribute (ascii "rel"))).map
    fun tag => tag.attribute (ascii "href")

/-- The tags that load a script. -/
def scripts (tags : List Tag) : List Tag :=
  tags.filter fun tag => tag.name == ascii "script" && tag.attribute (ascii "src") != []

/-- Whether a tag carries the id to mount at. -/
def mounted (mount : Str) (tags : List Tag) : Bool :=
  tags.any fun tag => mount != [] && tag.attribute (ascii "id") == mount

/-- The build emitted a stylesheet and nothing links it. -/
def unlinkedStyles (build : LegBuild) (stylesheets : List Str) : List ShellFault :=
  match build.styles with
  | some sidecar =>
      if stylesheets.any fun href => isLocal href && fileNameOf href == sidecar then []
      else [.stylesNotLinked sidecar]
  | none => []

/-- The links into the namespace of the leg that the build did not write. -/
def missingStyles (build : LegBuild) (stylesheets : List Str) : List ShellFault :=
  (stylesheets.filter fun href =>
    isLocal href && legOwns build (fileNameOf href) && !isEmittedStyle build (fileNameOf href)).map
      .linkedStyleMissing

/-- What is wrong with one script. -/
def scriptFaults (build : LegBuild) (script : Tag) : List ShellFault :=
  let src := script.attribute (ascii "src")
  let file := fileNameOf src
  if isLocal src then
    if file = build.bundle then
      if build.classicScript &&
          toLowercaseAscii (script.attribute (ascii "type")) == ascii "module" then
        [.moduleScriptWithChunks build.bundle]
      else []
    else if legOwns build file && !isEmittedChunk build file then [.scriptNotEmitted src]
    else []
  else []

def loadsBundle (build : LegBuild) (script : Tag) : Bool :=
  isLocal (script.attribute (ascii "src")) &&
    fileNameOf (script.attribute (ascii "src")) == build.bundle

/-- Every fault of the tags of a page. -/
def shellFaults (tags : List Tag) (build : LegBuild) (mount : Str) : List ShellFault :=
  unlinkedStyles build (stylesheets tags) ++ missingStyles build (stylesheets tags) ++
    (scripts tags).flatMap (scriptFaults build) ++
    (if (scripts tags).any (loadsBundle build) then [] else [.bundleNotLoaded build.bundle]) ++
    (if mounted mount tags then [] else [.mountMissing mount])

/-- Check a page against the build of a leg: every fault, not the first. -/
def checkShell (shell : Str) (build : LegBuild) (mount : Str) : Except (List ShellFault) Unit :=
  let faults := shellFaults (tagsOf shell) build mount
  if faults = [] then .ok () else .error faults

/-! ### Documents -/

/-- Every occurrence of a character replaced. -/
def replace (value : Str) (character : UInt16) (by_ : Str) : Str :=
  value.flatMap fun u => if u = character then by_ else [u]

/-- A text with its markup escaped. -/
def escapeText (value : Str) : Str :=
  replace (replace (replace value (unit '&') (ascii "&amp;")) (unit '<') (ascii "&lt;")) (unit '>')
    (ascii "&gt;")

/-- A value that double quotes go around, escaped. -/
def escapeAttribute (value : Str) : Str :=
  replace (replace value (unit '&') (ascii "&amp;")) (unit '"') (ascii "&quot;")

def defaultMount : Str := ascii "app"

/-- A page that loads a build: written from it, or a supplied shell. -/
structure Document where
  build : LegBuild
  shell : Option Str
  source : Str
  title : Str
  description : Str
  lang : Str
  mount : Str
  head : Str
  body : Str
  rendered : Str
  splice : ℕ

/-- The default document for a build. -/
def Document.of (build : LegBuild) : Document where
  build := build
  shell := none
  source := []
  title := []
  description := []
  lang := ascii "en"
  mount := defaultMount
  head := []
  body := []
  rendered := []
  splice := 0

/-- Where rendered markup goes in a supplied shell: behind the start of the mount element. -/
def splicePoint (shell mount : Str) : ℕ :=
  match (tagsOf shell).find? fun tag => tag.attribute (ascii "id") == mount with
  | some tag => tag.stop
  | none => 0

/-- A supplied shell, once it passes the check. -/
def Document.fromShell (shell : Str) (build : LegBuild) : Except (List ShellFault) Document :=
  (checkShell shell build defaultMount).map fun _ =>
    { Document.of build with
      shell := some shell
      source := ascii "this supplied shell"
      splice := splicePoint shell defaultMount }

/-- The markup of calls one behind the other, each on its own line. -/
def joinedHatch (existing markup : Str) : Str :=
  if existing = [] then markup
  else if markup = [] then existing
  else existing ++ ascii "\n\t\t" ++ markup

namespace Document

def withTitle (self : Document) (title : Str) : Document :=
  { self with title := title }

def withDescription (self : Document) (text : Str) : Document :=
  { self with description := text }

def withLang (self : Document) (lang : Str) : Document :=
  { self with lang := lang }

def withMount (self : Document) (id : Str) : Document :=
  { self with mount := id }

def withHead (self : Document) (markup : Str) : Document :=
  { self with head := joinedHatch self.head markup }

def withBody (self : Document) (markup : Str) : Document :=
  { self with body := joinedHatch self.body markup }

def render (self : Document) (markup : Str) : Document :=
  { self with rendered := markup }

end Document

/-- The tag that loads the bundle: a classic script exactly when the leg splits. -/
def scriptTag (build : LegBuild) : Str :=
  if build.classicScript then
    ascii "<script src=\"/" ++ build.bundle ++ ascii "\"></script>"
  else ascii "<script type=\"module\" src=\"/" ++ build.bundle ++ ascii "\"></script>"

/-- The document written out. -/
def Document.generated (self : Document) : Str :=
  ascii "<!doctype html>\n" ++
    (ascii "<html lang=\"" ++ escapeAttribute self.lang ++ ascii "\">\n") ++
    ascii "\t<head>\n" ++
    ascii "\t\t<meta charset=\"utf-8\" />\n" ++
    ascii "\t\t<meta name=\"viewport\" content=\"width=device-width, initial-scale=1\" />\n" ++
    (ascii "\t\t<title>" ++ escapeText self.title ++ ascii "</title>\n") ++
    (if self.description ≠ [] then
      ascii "\t\t<meta name=\"description\" content=\"" ++ escapeAttribute self.description ++
        ascii "\" />\n"
    else []) ++
    (match self.build.styles with
    | some sidecar => ascii "\t\t<link rel=\"stylesheet\" href=\"/" ++ sidecar ++ ascii "\" />\n"
    | none => []) ++
    (if self.head ≠ [] then ascii "\t\t" ++ self.head ++ ascii "\n" else []) ++
    ascii "\t</head>\n" ++
    ascii "\t<body>\n" ++
    (ascii "\t\t<div id=\"" ++ escapeAttribute self.mount ++ ascii "\">" ++ self.rendered ++
      ascii "</div>\n") ++
    (if self.body ≠ [] then ascii "\t\t" ++ self.body ++ ascii "\n" else []) ++
    (ascii "\t\t" ++ scriptTag self.build ++ ascii "\n") ++
    ascii "\t</body>\n</html>\n"

/-- Where markup goes that is meant for inside an element of a supplied shell: before the first tag
that closes one of that name. -/
def closingPoint (shell name : Str) : Option ℕ :=
  ((tagsOf shell).find? fun tag => tag.closing && tag.name == name).map Tag.start

/-- What is wrong when markup has no closing tag to land before. -/
def missingClosingTag (source name : Str) : Str :=
  source ++ ascii " has no </" ++ name ++ ascii "> for this document's " ++ name ++
    ascii "() markup to splice before — add </" ++ name ++
    ascii "> to the shell, or write the markup into the shell itself"

/-- Where an insertion goes among others: behind those at its index or before. -/
def insertOrdered (ordered : List (ℕ × Str)) (insertion : ℕ × Str) : List (ℕ × Str) :=
  ordered.insertIdx (ordered.countP fun entry => entry.1 ≤ insertion.1) insertion

/-- A text with the markup of each insertion at its index into the text as it was. -/
def spliced (text : Str) (insertions : List (ℕ × Str)) : Str :=
  let ordered := insertions.foldl insertOrdered []
  let (result, cursor) := ordered.foldl
    (fun (result, cursor) (index, markup) =>
      (result ++ Str.substring text cursor index ++ markup, index)) ([], 0)
  result ++ Str.substring text cursor text.length

/-- The supplied shell with the document's own markup in it, or the report that a closing tag is
missing. -/
def Document.composed (self : Document) (shell : Str) : Except Str Str :=
  let hatch (name markup : Str) : List (ℕ × Str) × List Str :=
    if markup = [] then ([], [])
    else
      match closingPoint shell name with
      | some index => ([(index, markup)], [])
      | none => ([], [missingClosingTag self.source name])
  let inHead := hatch (ascii "head") self.head
  let inBody := hatch (ascii "body") self.body
  let insertions := (if self.rendered ≠ [] then [(self.splice, self.rendered)] else []) ++
    inHead.1 ++ inBody.1
  match inHead.2 ++ inBody.2 with
  | [] => .ok (spliced shell insertions)
  | problem :: missing =>
      .error (missing.foldl (fun report problem => report ++ ascii "\n" ++ problem) problem)

/-- The document as markup, or the report that stops the boot: a page that carries raw markup meets
the check first. -/
def Document.html (self : Document) : Except Str Str :=
  let checked (markup mount source : Str) : Except Str Str :=
    if self.head ≠ [] ∨ self.body ≠ [] then
      match checkShell markup self.build mount with
      | .ok _ => .ok markup
      | .error faults => .error (faultReport source self.build faults)
    else .ok markup
  match self.shell with
  | some markup => do
      let composed ← self.composed markup
      checked composed defaultMount
        (self.source ++ ascii " composed with this document's `head`/`body` markup")
  | none =>
      checked self.generated self.mount (ascii "this generated document's `head`/`body` markup")

end Vilan.Web
