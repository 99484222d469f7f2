import OsuTracker.Cxx.Sort
import OsuTracker.Machine.Patterns
import OsuTracker.Model.Web.Filenames
import Mathlib.Data.List.Lex

/-! # The registered templates

A page of the template directory is registered when the first bytes of its file declare it as an
overlay with a title and a creator, in `meta` tags that two regular expressions look for. The index
page lists what is registered by title; the route of a template looks its name up in the list.
-/

namespace OsuTracker.Model.Web.TemplateRegister

open Cxx Machine.Patterns Mustache Filenames

/-! ## Meta tags -/

/-- `[^>]+` -/
def inTag : Piece UInt8 := .repeated 1 (· ≠ ('>' : UInt8))

/-- `[^"]*` -/
def inQuotes : Piece UInt8 := .repeated 0 (· ≠ ('"' : UInt8))

def tagStart : Str := "<meta"
def contentStart : Str := "content=\""
def quote : Str := "\""

/-- The characters that an expression treats in a special way. -/
def special : Str := "^$\\.*+?()[]\x7b\x7d|"

/-- A name that stands for itself in an expression. -/
structure MetaName where
  text : Str
  literal : ∀ c ∈ text, c ∉ special

def MetaName.type : MetaName := ⟨"type", by decide +kernel⟩
def MetaName.title : MetaName := ⟨"title", by decide +kernel⟩
def MetaName.creator : MetaName := ⟨"creator", by decide +kernel⟩

/-- `name="…"`, for the text of such a name. -/
def nameText (name : Str) : Str := "name=\"" ++ name ++ quote

/-- `<meta[^>]+name="…"[^>]+content="([^"]*)"` -/
def regex1 (name : Str) : Pattern UInt8 :=
  [.word tagStart, inTag, .word (nameText name), inTag, .word contentStart, inQuotes, .word quote]

/-- `<meta[^>]+content="([^"]*)"[^>]+name="…"` -/
def regex2 (name : Str) : Pattern UInt8 :=
  [.word tagStart, inTag, .word contentStart, inQuotes, .word quote, inTag, .word (nameText name)]

/-- The text of a piece of the first match. -/
def captured (pattern : Pattern UInt8) (piece : ℕ) (html : Str) : Option Str :=
  (search pattern html).map fun found => found.2.1.getD piece []

def extractMeta (html : Str) (name : MetaName) : Str :=
  ((captured (regex1 name.text) 5 html).or (captured (regex2 name.text) 3 html)).getD []

/-! ## The directory -/

/-- A file of the directory that can be read. -/
structure File where
  filename : Str
  content : Str
deriving DecidableEq, Repr

/-- Where the extension of a file name begins: at its last point, unless that is its first
character; `.` and `..` have none. -/
def extensionStart (filename : Str) : ℕ :=
  let start := filename.length - (filename.reverse.takeWhile (· ≠ ('.' : UInt8))).length - 1
  if ('.' : UInt8) ∈ filename ∧ start ≠ 0 ∧ filename ≠ ".." then start else filename.length

/-- `path::extension` and `path::stem`. -/
def extension (filename : Str) : Str := filename.drop (extensionStart filename)

def stem (filename : Str) : Str := filename.take (extensionStart filename)

structure TemplateInfo where
  filename : Str
  stem : Str
  route : Str
  title : Str
  creator : Str
deriving DecidableEq, Repr

/-- One iteration of the loop over the directory. -/
def examine (file : File) : Option TemplateInfo :=
  if extension file.filename ≠ ".html" then none
  else
    let head := file.content.take 4096
    if extractMeta head .type ≠ "overlay" then none
    else
      let title := extractMeta head .title
      let creator := extractMeta head .creator
      if title = [] ∨ creator = [] then none
      else some ⟨file.filename, stem file.filename, "/template/" ++ stem file.filename, title, creator⟩

/-- `a.title < b.title` -/
abbrev byTitle : TemplateInfo → TemplateInfo → Bool := StdSort.byKey fun t => t.title.map UInt8.toNat

/-- The registry, for the files in the order in which the directory yields them. -/
def scan (sort : StdSort byTitle) (directory : List File) : List TemplateInfo := sort.run (directory.filterMap examine)

/-! ## Routes -/

inductive Response where
  | page (body : Except Failure Str)
  | notFound (text : Str)

/-- The route `/template/<string>`; `files` is what the loader reads below `./www/`. -/
def templateRoute (registry : List TemplateInfo) (files : Str → Str) (depth : ℕ) (context : Value) (name : Str) :
    Response :=
  match registry.find? (·.stem = name) with
  | some t => .page ((parse (files (sanitizeFilename ("template/" ++ t.filename)))).bind fun page =>
      render files depth page context)
  | none => .notFound ("Template not found: " ++ name)

/-- The overlays of the index page. -/
def overlays (registry : List TemplateInfo) : Value :=
  .list (registry.map fun t => .object [("title", .string t.title), ("filename", .string t.filename),
    ("route", .string t.route), ("creator", .string t.creator)])

end OsuTracker.Model.Web.TemplateRegister
