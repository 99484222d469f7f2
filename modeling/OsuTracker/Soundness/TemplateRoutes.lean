import OsuTracker.Soundness.MetaTags

/-! # Which templates are served

A request names a template without its extension. It is answered with the page of that name just
when the directory has a file with the name and `.html` whose head declares an overlay with a title and a
creator, in whatever order the directory yields its files and however the sort orders equal titles.
A file that is called `.html` has no extension and is never registered.
-/

namespace OsuTracker.Soundness.TemplateRoutes

open Cxx Machine.Patterns Model.Web.Mustache Model.Web.Filenames Model.Web.TemplateRegister MetaTags

def html : Str := ".html"

/-! ## Names of files -/

theorem stem_append_extension (filename : Str) : stem filename ++ extension filename = filename :=
  List.take_append_drop _ _

/-- The last point of a name with the extension is the one of the extension. -/
theorem extension_append {name : Str} (some_ : name ≠ []) : extension (name ++ html) = html := by
  have letters : html.reverse = bytes "lmth" ++ [('.' : UInt8)] := by decide +kernel
  have plain : ∀ c ∈ bytes "lmth", decide (c ≠ ('.' : UInt8)) = true := by decide +kernel
  have five : html.length = 5 := by decide +kernel
  have behind : ((name ++ html).reverse.takeWhile (· ≠ ('.' : UInt8))).length = 4 := by
    rw [List.reverse_append, letters, List.append_assoc, List.takeWhile_append_of_pos plain]
    simp only [List.singleton_append, ne_eq, List.takeWhile_cons, not_true_eq_false, decide_false, Bool.false_eq_true,
      ↓reduceIte, List.append_nil]
    decide +kernel
  have long := List.length_pos_of_ne_nil some_
  have start : extensionStart (name ++ html) = name.length := by
    unfold extensionStart
    rw [behind, List.length_append, five]
    have within : ('.' : UInt8) ∈ name ++ html := List.mem_append_right _ (by decide +kernel)
    have other : name ++ html ≠ ".." := fun same => by
      have lengths := congrArg List.length same
      have two : (bytes "..").length = 2 := by decide +kernel
      rw [List.length_append, five, two] at lengths
      omega
    rw [if_pos ⟨within, by omega, other⟩]
    omega
  rw [extension, start, List.drop_left]

/-! ## Registration -/

/-- What a head declares under a name. -/
def declared (nodes : List Node) (name : Str) : Str :=
  ((firstContent false name nodes).or (firstContent true name nodes)).getD []

def DeclaresOverlay (nodes : List Node) : Prop :=
  declared nodes "type" = "overlay" ∧ declared nodes "title" ≠ [] ∧ declared nodes "creator" ≠ []

instance : DecidablePred DeclaresOverlay := fun nodes =>
  inferInstanceAs (Decidable (declared nodes "type" = "overlay" ∧ declared nodes "title" ≠ [] ∧ declared nodes "creator" ≠ []))

/-- A file whose head is written from nodes. -/
structure Page where
  file : File
  nodes : List Node
  formed : ∀ node ∈ nodes, node.WellFormed
  written : file.content.take 4096 = write nodes

theorem extractMeta_head (page : Page) {name : MetaName} (plain : Plain name.text) :
    extractMeta (page.file.content.take 4096) name = declared page.nodes name.text := by
  rw [page.written, extractMeta, captured_regex1 plain page.formed, captured_regex2 plain page.formed, declared]

/-- An iteration of the loop, by what the head declares. -/
theorem examine_eq (page : Page) : examine page.file =
    if extension page.file.filename = html ∧ DeclaresOverlay page.nodes then
      some ⟨page.file.filename, stem page.file.filename, "/template/" ++ stem page.file.filename,
        declared page.nodes "title", declared page.nodes "creator"⟩
    else none := by
  unfold examine
  dsimp only
  have kind : extractMeta (page.file.content.take 4096) .type = declared page.nodes "type" :=
    extractMeta_head page (show Plain MetaName.type.text by decide +kernel)
  have title : extractMeta (page.file.content.take 4096) .title = declared page.nodes "title" :=
    extractMeta_head page (show Plain MetaName.title.text by decide +kernel)
  have creator : extractMeta (page.file.content.take 4096) .creator = declared page.nodes "creator" :=
    extractMeta_head page (show Plain MetaName.creator.text by decide +kernel)
  rw [kind, title, creator]
  by_cases named : extension page.file.filename = ".html"
  · rw [if_neg (not_not.mpr named)]
    by_cases overlay : declared page.nodes "type" = "overlay"
    · rw [if_neg (not_not.mpr overlay)]
      by_cases missing : declared page.nodes "title" = [] ∨ declared page.nodes "creator" = []
      · rw [if_pos missing, if_neg fun both => missing.elim both.2.2.1 both.2.2.2]
      · rw [if_neg missing, if_pos ⟨named, overlay, not_or.mp missing⟩]
    · rw [if_pos overlay, if_neg fun both => overlay both.2.1]
  · rw [if_pos named, if_neg fun both => named both.1]

theorem mem_scan {sort : StdSort byTitle} {directory : List Page} {t : TemplateInfo} :
    t ∈ scan sort (directory.map Page.file) ↔ ∃ page ∈ directory, examine page.file = some t := by
  rw [scan, (sort.perm _).mem_iff, List.mem_filterMap]
  simp only [List.mem_map, exists_exists_and_eq_and]

/-! ## Requests -/

/-- A file of the name that is an overlay; without a name before it `.html` is not an extension. -/
def Offered (directory : List Page) (name : Str) : Prop :=
  name ≠ [] ∧ ∃ page ∈ directory, page.file.filename = name ++ html ∧ DeclaresOverlay page.nodes

instance (directory : List Page) (name : Str) : Decidable (Offered directory name) :=
  inferInstanceAs (Decidable (name ≠ [] ∧ ∃ page ∈ directory, page.file.filename = name ++ html ∧ DeclaresOverlay page.nodes))

theorem offered_of_registered {sort : StdSort byTitle} {directory : List Page} {t : TemplateInfo}
    (registered : t ∈ scan sort (directory.map Page.file)) :
    Offered directory t.stem ∧ t.filename = t.stem ++ html ∧ t.route = "/template/" ++ t.stem := by
  obtain ⟨page, listed, examined⟩ := mem_scan.mp registered
  rw [examine_eq, Option.ite_none_right_eq_some] at examined
  obtain ⟨⟨named, declares⟩, same⟩ := examined
  cases same
  have whole : page.file.filename = stem page.file.filename ++ html := by
    rw [← named, stem_append_extension]
  refine ⟨⟨fun empty => ?_, page, listed, whole, declares⟩, whole, rfl⟩
  change stem page.file.filename = [] at empty
  rw [whole, empty] at named
  revert named
  decide +kernel

theorem registered_of_offered {sort : StdSort byTitle} {directory : List Page} {name : Str}
    (offered : Offered directory name) :
    ∃ t ∈ scan sort (directory.map Page.file), t.stem = name := by
  obtain ⟨some_, page, listed, whole, declares⟩ := offered
  have named : extension page.file.filename = html := by rw [whole, extension_append some_]
  have parts := stem_append_extension page.file.filename
  rw [named] at parts
  exact ⟨_, mem_scan.mpr ⟨page, listed, (examine_eq page).trans (if_pos ⟨named, declares⟩)⟩,
    List.append_cancel_right (parts.trans whole)⟩

/-- A request is answered with the page of its name if the directory offers one, else with an error. -/
theorem templateRoute_scan (sort : StdSort byTitle) (directory : List Page) (files : Str → Str) (depth : ℕ)
    (context : Value) (name : Str) :
    templateRoute (scan sort (directory.map Page.file)) files depth context name =
      if Offered directory name then
        .page ((parse (files (sanitizeFilename ("template/" ++ (name ++ html))))).bind fun page =>
          render files depth page context)
      else .notFound ("Template not found: " ++ name) := by
  unfold templateRoute
  cases found : (scan sort (directory.map Page.file)).find? (·.stem = name) with
  | some t =>
    have stems : t.stem = name := by simpa using List.find?_some found
    obtain ⟨offered, filename, -⟩ := offered_of_registered (List.mem_of_find?_eq_some found)
    rw [stems] at offered filename
    rw [if_pos offered]
    dsimp only
    rw [filename]
  | none =>
    rw [if_neg]
    intro offered
    obtain ⟨t, registered, stems⟩ : ∃ t ∈ scan sort (directory.map Page.file), t.stem = name :=
      registered_of_offered offered
    simpa [stems] using List.find?_eq_none.mp found t registered

/-- The index page links to the route of a template exactly if a request for it is answered with the page. -/
theorem linked_iff_offered (sort : StdSort byTitle) (directory : List Page) (name : Str) :
    (∃ entries fields, overlays (scan sort (directory.map Page.file)) = .list entries ∧ .object fields ∈ entries ∧
      fields.lookup ("route" : Str) = some (Value.string ("/template/" ++ name))) ↔ Offered directory name := by
  have route (title filename route creator : Value) : List.lookup (bytes "route")
      [("title", title), ("filename", filename), ("route", route), ("creator", creator)] = some route := rfl
  constructor
  · rintro ⟨entries, fields, listed, member, links⟩
    cases listed
    obtain ⟨t, registered, same⟩ := List.mem_map.mp member
    cases same
    obtain ⟨offered, -, path⟩ := offered_of_registered registered
    rw [route] at links
    have same : t.route = "/template/" ++ name := Value.string.inj (Option.some.inj links)
    rwa [← List.append_cancel_left (path.symm.trans same)]
  · intro offered
    obtain ⟨t, registered, rfl⟩ : ∃ t ∈ scan sort (directory.map Page.file), t.stem = name :=
      registered_of_offered offered
    refine ⟨_, _, rfl, List.mem_map_of_mem registered, ?_⟩
    rw [route, (offered_of_registered registered).2.2]

def basicPage : Page where
  file := ⟨"basic.html", write basicHead⟩
  nodes := basicHead
  formed := by decide +kernel
  written := by decide +kernel

theorem templateRoute_scan_basicPage :
    templateRoute (scan (StdSort.stable _) [basicPage.file]) (fun _ => "<html>") 1 (.object []) "basic" =
      .page (.ok "<html>") := by
  refine (templateRoute_scan (StdSort.stable _) [basicPage] (fun _ => "<html>") 1 (.object []) "basic").trans ?_
  rw [if_pos (by decide +kernel)]
  exact congrArg Response.page (by decide +kernel)

end OsuTracker.Soundness.TemplateRoutes
