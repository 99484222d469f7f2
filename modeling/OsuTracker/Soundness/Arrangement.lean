import OsuTracker.Model.Web.SettingsPage
import OsuTracker.Model.View.StatsList
import OsuTracker.Soundness.Resave
import OsuTracker.Soundness.FirstRun

/-! # What is arranged is what is shown

Edits tick rows and permute them, so an edited page has a row for every entry of the table. Its
message gives each entry the check box of its row and the number of its place, and these numbers
increase along the page. So whatever the page and the formatter did with ties, the next page has
the same rows, also after a restart, and the window lists the ticked ones in their order.
-/

namespace OsuTracker.Soundness.Arrangement

open Cxx Model.Core.Config Model.Core.Formatter Model.Web.MainWs Model.Web.SettingsPage Model.View.StatsList
  DisplayOrder Resave

/-! ## Edits -/

theorem perm_insertBefore {src : Row} {target : Str} (upper : Bool) {rows : List Row} (here : src ∈ rows)
    (there : ∃ row ∈ rows, row.key = target ∧ row ≠ src) : (insertBefore src target upper rows).Perm rows := by
  have bound : (rows.erase src).findIdx (·.key = target) < (rows.erase src).length := by
    obtain ⟨row, listed, same, apart⟩ := there
    exact List.findIdx_lt_length_of_exists ⟨row, (List.mem_erase_of_ne apart).mpr listed, decide_eq_true same⟩
  have position : (if upper then (rows.erase src).findIdx (·.key = target)
      else (rows.erase src).findIdx (·.key = target) + 1) ≤ (rows.erase src).length := by
    split <;> omega
  exact (List.perm_insertIdx src _ position).trans (List.perm_cons_erase here).symm

/-- Dragging permutes the rows. -/
theorem perm_dragover (src target : Str) (upper : Bool) (rows : List Row) : (dragover src target upper rows).Perm rows := by
  unfold dragover
  split
  · next row there found foundThere =>
    split
    · exact .refl _
    · next apart =>
      have same := List.find?_some (p := fun row : Row => decide (row.key = target)) foundThere
      exact perm_insertBefore upper (List.mem_of_find?_eq_some found)
        ⟨there, List.mem_of_find?_eq_some foundThere, of_decide_eq_true same, apart⟩
  · exact .refl _

theorem keys_edit (page : Page) (edit : Edit) : ((page.edit edit).rows.map Row.key).Perm (page.rows.map Row.key) := by
  cases edit with
  | type key value => exact .refl _
  | tick key =>
    refine .of_eq ?_
    rw [Page.edit, List.map_map]
    refine List.map_congr_left fun row _ => ?_
    simp only [Function.comp]
    split <;> rfl
  | dragover src target upper => exact (perm_dragover src target upper page.rows).map _

/-- An edited page has the rows of the page before, ticked and permuted. -/
theorem keys_edited (page : Page) (edits : List Edit) :
    ((page.edited edits).rows.map Row.key).Perm (page.rows.map Row.key) := by
  induction edits generalizing page with
  | nil => exact .refl _
  | cons edit rest ih => exact (ih (page.edit edit)).trans (keys_edit page edit)

theorem keys_registerSettings (page : StdSort bySort) (g : Globals) :
    ((registerSettings page g).rows.map Row.key).Perm (g.arr.entries.map DataEntry.key) := by
  rw [registerSettings, List.map_map]
  exact (page.perm g.arr.entries).map DataEntry.key

/-! ## The table of a page -/

/-- An entry with the check box of its row. -/
def ticked (rows : List Row) (e : DataEntry) : DataEntry :=
  { e with display := (rows.find? (·.key = e.key)).elim e.display Row.checked }

/-- The row of an entry. -/
def row (e : DataEntry) : Row := ⟨e.key, e.display⟩

def tickedTable (rows : List Row) (t : StatTable) : StatTable := t.mapEntries (ticked rows) fun _ => rfl

theorem find?_key {rows : List Row} (distinct : (rows.map Row.key).Nodup) {r : Row} (listed : r ∈ rows) {key : Str}
    (same : key = r.key) : rows.find? (·.key = key) = some r := by
  cases found : rows.find? (·.key = key) with
  | none => exact absurd same.symm (by simpa using List.find?_eq_none.mp found r listed)
  | some other =>
    have also := List.find?_some (p := fun row : Row => decide (row.key = key)) found
    exact congrArg some (List.inj_on_of_nodup_map distinct (List.mem_of_find?_eq_some found) listed
      ((of_decide_eq_true also).trans same))

/-- The entries in the order of a page. -/
theorem exists_entries {rows : List Row} {t : StatTable} (keys : (rows.map Row.key).Perm (t.entries.map DataEntry.key)) :
    ∃ es : List DataEntry, es.map row = rows ∧ es.Perm (tickedTable rows t).entries := by
  have same : (tickedTable rows t).entries.map DataEntry.key = t.entries.map DataEntry.key := by
    change (t.entries.map (ticked rows)).map DataEntry.key = _
    rw [List.map_map]
    rfl
  obtain ⟨es, listed, perm⟩ : ∃ es : List DataEntry, rows.map Row.key = es.map DataEntry.key ∧ es.Perm (tickedTable rows t).entries := by
    have composed := congrFun (congrFun (List.eq_map_comp_perm DataEntry.key) (rows.map Row.key)) (tickedTable rows t).entries
    exact composed.mpr (same ▸ keys)
  have distinct : (rows.map Row.key).Nodup := by
    rw [keys.nodup_iff, t.map_key]
    exact keys_nodup
  refine ⟨es, ?_, perm⟩
  have lengths : es.length = rows.length := by simpa using (congrArg List.length listed).symm
  apply List.ext_getElem (by rw [List.length_map, lengths])
  intro k left right
  have bound : k < es.length := by simpa using left
  have key : rows[k].key = es[k].key := by
    have both := List.getElem_of_eq listed (i := k) (by simpa using right)
    rwa [List.getElem_map, List.getElem_map] at both
  obtain ⟨e, -, shown⟩ := List.mem_map.mp (perm.mem_iff.mp (List.getElem_mem bound))
  have found : rows.find? (·.key = e.key) = some rows[k] :=
    find?_key distinct (List.getElem_mem _) ((congrArg DataEntry.key shown).trans key.symm)
  rw [List.getElem_map, row, ← key, ← shown]
  simp only [ticked, found, Option.elim_some]

/-- The rows of a page number the table with its check boxes. -/
theorem numbered_message {page : Page} {g : Globals}
    (keys : (page.rows.map Row.key).Perm (g.arr.entries.map DataEntry.key)) :
    ∃ (es : List DataEntry) (t : StatTable), es.map row = page.rows ∧
      trackItems page.message g = .done { g with arr := t } ∧ Numbered es (tickedTable page.rows g.arr) t := by
  obtain ⟨es, rows, perm⟩ := exists_entries keys
  have member {e : DataEntry} (listed : e ∈ es) := getIndex_of_mem _ (perm.mem_iff.mp listed)
  have known : ∀ item ∈ es.zipIdx, getIndex item.1.key = some (place item.1) := fun item listed =>
    (member (List.fst_mem_of_mem_zipIdx listed)).1
  have items : page.rows.zipIdx.map rowItem = es.zipIdx.map Model.Web.Settings.rowItem := by
    rw [← rows, List.zipIdx_map, List.map_map]
    rfl
  have ran : trackItems page.message g = .done { g with arr := placeRows es.zipIdx g.arr } := by
    change Outcome.each trackItem (page.rows.zipIdx.map rowItem) g = _
    rw [items]
    exact each_rowItem _ known g
  have distinct : ((es.zipIdx.map fun item => (item, place item.1)).map Prod.snd).Nodup := by
    have places : (es.zipIdx.map fun item => (item, place item.1)).map Prod.snd = (es.zipIdx.map Prod.fst).map place := by
      rw [List.map_map, List.map_map]
      rfl
    rw [places, List.zipIdx_map_fst, (perm.map place).nodup_iff, map_place]
    exact List.nodup_range
  refine ⟨es, _, rows, ran, perm, fun k e here => ?_⟩
  obtain ⟨-, there⟩ := member (List.mem_of_getElem? here)
  have listed : ((e, k), place e) ∈ es.zipIdx.map fun item => (item, place item.1) := by
    refine List.mem_map.mpr ⟨(e, k), ?_, rfl⟩
    rw [List.mem_zipIdx_iff_getElem?]
    exact here
  have changed := (g.arr.getElem?_foldl_modify placeRow (fun _ _ => rfl) _ distinct).1 _ listed
  obtain ⟨former, at_, rfl⟩ : ∃ former, g.arr.entries[place e]? = some former ∧ ticked page.rows former = e := by
    change (g.arr.entries.map (ticked page.rows))[place e]? = some e at there
    rw [List.getElem?_map] at there
    exact Option.map_eq_some_iff.mp there
  exact ⟨_, there, changed.trans (by rw [at_]; rfl)⟩

/-! ## The rest of the handler -/

/-- What formatting does not change. -/
def frame (e : DataEntry) : DataEntry := { e with init := [], current := [], change := [], positive := false }

theorem frame_setSlot (e : DataEntry) (s : Slot) (value : Str) : frame (e.setSlot s value) = frame e := by
  cases s <;> rfl

theorem frame_ofExcept (data : DataEntry) (result : Except Exception Str) (place : Str → DataEntry)
    (keeps : ∀ s, frame (place s) = frame data) : frame (Outcome.ofExcept data (result.map place)).state = frame data := by
  cases result with
  | ok s => exact keeps s
  | error e => rfl

theorem frame_formatTexts (plain signed : Str → Except Exception Str) (marksSign noDiff noCurrent : Bool)
    (data : DataEntry) : frame (formatTexts plain signed marksSign noDiff noCurrent data).state = frame data := by
  refine Outcome.andThen_state (P := fun e : DataEntry => frame e = frame data) ?_ fun first same => ?_
  · exact frame_ofExcept data _ _ fun s => frame_setSlot data .init s
  refine Outcome.andThen_state (P := fun e : DataEntry => frame e = frame data) ?_ fun second same => ?_
  · split
    · exact same
    · exact (frame_ofExcept first _ _ fun s => frame_setSlot first .current s).trans same
  · split
    · exact same
    · refine (frame_ofExcept second _ _ fun s => ?_).trans same
      rw [frame_setSlot]
      split <;> rfl

theorem frame_formatBranch (dataType : DataType) (formatType : FormatType) (noDiff noCurrent : Bool) (data : DataEntry) :
    frame (formatBranch dataType formatType noDiff noCurrent data).state = frame data := by
  unfold formatBranch
  split <;> first | exact frame_formatTexts .. | rfl

theorem frame_formatEntry (server : Server) (data : DataEntry) : frame (formatEntry server data).state = frame data := by
  unfold formatEntry
  split
  · rfl
  · split
    · rfl
    · refine (frame_formatBranch _ _ _ _ _).trans ?_
      split <;> rfl

theorem frame_formatEntries {server : Server} {entries out : List DataEntry}
    (done : formatEntries server entries = .done out) : out.map frame = entries.map frame := by
  have formatted := forall₂_of_formatEntries done
  clear done
  induction formatted with
  | nil => rfl
  | @cons e e' _ _ own _ ih =>
    have same := frame_formatEntry server e
    rw [own] at same
    exact congrArg₂ List.cons same ih

/-- A handler that returns has numbered the entries, formatted the sorted copy and written the file. -/
theorem saved_cases {order : MapOrder} {sort : StdSort bySort} {page : Page} {g g' : Globals}
    (keys : (page.rows.map Row.key).Perm (g.arr.entries.map DataEntry.key))
    (saved : saveSettings order sort page.message g = .done g') :
    ∃ es : List DataEntry, es.map row = page.rows ∧ Numbered es (tickedTable page.rows g.arr) g'.arr ∧
      formatEntries g'.application.server (sort.run g'.arr.entries) = .done g'.arrFormatted ∧
      ∃ written, write written = .done g' ∧ written.application = g'.application ∧ written.arr = g'.arr := by
  unfold saveSettings at saved
  cases items : incoming page.message with
  | error e =>
    rw [items] at saved
    cases saved
  | ok items' =>
    rw [items] at saved
    obtain ⟨formatted, before, wrote⟩ := Outcome.andThen_eq_done.mp saved
    obtain ⟨tracked, before, formats⟩ := Outcome.andThen_eq_done.mp before
    obtain ⟨applied, applies, tracks⟩ := Outcome.andThen_eq_done.mp before
    have arr : applied.arr = g.arr := by
      have step : ∀ item ∈ order.run items', ∀ next : Globals, next.arr = g.arr → (applyItem item next).state.arr = g.arr := by
        intro item _ next same
        unfold applyItem
        cases next.application.set item.1 item.2 <;> exact same
      have kept := Outcome.each_preserves step rfl
      rwa [applies] at kept
    have keys' : (page.rows.map Row.key).Perm (applied.arr.entries.map DataEntry.key) := arr ▸ keys
    obtain ⟨es, t, rows, ran, numbering⟩ := numbered_message keys'
    cases ran.symm.trans tracks
    rw [arr] at numbering
    unfold updateFormat at formats
    split at formats
    · next texts done =>
      cases formats
      have written := wrote
      rw [write_eq] at wrote
      split at wrote
      · cases wrote
        exact ⟨es, rows, numbering, done, _, written, rfl, rfl⟩
      · cases wrote
    · cases formats

/-! ## Results -/

theorem map_row_numberedRows (es : List DataEntry) : (numberedRows es).map row = es.map row := by
  rw [numberedRows, List.map_map]
  change es.zipIdx.map (row ∘ Prod.fst) = _
  rw [← List.map_map, List.zipIdx_map_fst]

/-- The page that the server delivers for a numbered table. -/
theorem rows_of_numbered {es : List DataEntry} {rows : List Row} {t : StatTable} {g : Globals} (listed : es.map row = rows)
    (numbering : Numbered es t g.arr) (sort : StdSort bySort) : (registerSettings sort g).rows = rows := by
  change (sort.run g.arr.entries).map row = rows
  rw [numbering.run_eq sort, map_row_numberedRows, listed]

/-- What the file says of an entry. -/
def position (e : DataEntry) : Str × Bool × Int32 := (e.key, e.display, e.sort)

/-- A table that is shown as a numbered one has the same page. -/
theorem rows_of_positions {es : List DataEntry} {t t' : StatTable} {g : Globals} (numbering : Numbered es t t')
    (same : g.arr.entries.map position = t'.entries.map position) (sort : StdSort bySort) :
    (registerSettings sort g).rows = es.map row := by
  have perm : ((numberedRows es).map position).Perm (g.arr.entries.map position) :=
    same ▸ (numbering.perm_numberedRows.map position).symm
  obtain ⟨ys, listed, permuted⟩ : ∃ ys : List DataEntry, (numberedRows es).map position = ys.map position ∧
      ys.Perm g.arr.entries := by
    have composed := congrFun (congrFun (List.eq_map_comp_perm position) ((numberedRows es).map position)) g.arr.entries
    exact composed.mpr perm
  have increasing : ys.Pairwise fun a b => a.sort.toInt < b.sort.toInt := by
    have numbers : ((numberedRows es).map position).Pairwise fun a b => a.2.2.toInt < b.2.2.toInt :=
      List.pairwise_map.mpr numbering.increasing
    rw [listed] at numbers
    exact (List.pairwise_map (f := position) (R := fun a b => a.2.2.toInt < b.2.2.toInt)).mp numbers
  have rows (l : List DataEntry) : l.map row = (l.map position).map fun shown => ⟨shown.1, shown.2.1⟩ := by
    rw [List.map_map]
    rfl
  change (sort.run g.arr.entries).map row = _
  rw [sort.run_eq_of_perm permuted.symm increasing, rows, ← listed, ← rows, map_row_numberedRows]

/-- Whether a server has the entry of a key. -/
def offered (server : Server) (key : Str) : Bool := initialArr.any fun e => e.key == key && supports server e

theorem offered_key {t : StatTable} {e : DataEntry} (listed : e ∈ t.entries) (server : Server) :
    offered server e.key = supports server e := by
  have kind : e.kind ∈ initialArr.map DataEntry.kind := t.compiled ▸ List.mem_map_of_mem listed
  obtain ⟨compiled, among, same⟩ := List.mem_map.mp kind
  have key : compiled.key = e.key := congrArg EntryKind.key same
  have support : supports server compiled = supports server e := by
    have bancho : compiled.banchoSupport = e.banchoSupport := congrArg EntryKind.banchoSupport same
    have titanic : compiled.titanicSupport = e.titanicSupport := congrArg EntryKind.titanicSupport same
    simp only [supports, bancho, titanic]
  rw [← support, Bool.eq_iff_iff, offered, List.any_eq_true]
  constructor
  · rintro ⟨other, listed, also⟩
    obtain ⟨sameKey, supported⟩ := Bool.and_eq_true_iff.mp also
    have distinct : (initialArr.map DataEntry.key).Nodup := keys_eq ▸ keys_nodup
    obtain rfl := List.inj_on_of_nodup_map distinct listed among ((eq_of_beq sameKey).trans key.symm)
    exact supported
  · intro supported
    exact ⟨compiled, among, by simp [key, supported]⟩

/-- The window lists the ticked rows of a numbered table that the server has. -/
theorem keys_statsList {es : List DataEntry} {t : StatTable} {g : Globals} {fmt : StdSort bySort}
    (numbering : Numbered es t g.arr)
    (formatted : formatEntries g.application.server (fmt.run g.arr.entries) = .done g.arrFormatted) :
    (statsList g).map Line.key =
      ((es.map row).filter fun row => row.checked && offered g.application.server row.key).map Row.key := by
  have framed (l : List DataEntry) : (l.filter (lists g.application.server)).map DataEntry.key =
      ((l.map frame).filter (lists g.application.server)).map DataEntry.key := by
    rw [List.filter_map, List.map_map]
    rfl
  have tested : ∀ e ∈ numberedRows es,
      lists g.application.server e = (e.display && offered g.application.server e.key) := by
    intro e listed
    rw [offered_key (numbering.perm_numberedRows.mem_iff.mpr listed), lists]
  calc (statsList g).map Line.key
      = (g.arrFormatted.filter (lists g.application.server)).map DataEntry.key := by
        rw [statsList, List.map_map]
        rfl
    _ = ((numberedRows es).filter (lists g.application.server)).map DataEntry.key := by
        rw [framed, frame_formatEntries formatted, ← framed, numbering.run_eq fmt]
    _ = ((numberedRows es).filter fun e => e.display && offered g.application.server e.key).map DataEntry.key := by
        rw [List.filter_congr tested]
    _ = (((numberedRows es).map row).filter fun row => row.checked && offered g.application.server row.key).map
          Row.key := by
        rw [List.filter_map, List.map_map]
        rfl
    _ = _ := by rw [map_row_numberedRows]

theorem values_numbered {es : List DataEntry} {rows : List Row} {t t' : StatTable}
    (numbering : Numbered es (tickedTable rows t) t') : t'.entries.map values = t.entries.map values := by
  have lengths : t'.entries.length = t.entries.length := by rw [t'.length_entries, t.length_entries]
  apply List.ext_getElem?
  intro i
  rw [List.getElem?_map, List.getElem?_map]
  cases here : t.entries[i]? with
  | none =>
    have beyond : t'.entries[i]? = none := by
      rw [List.getElem?_eq_none_iff, lengths]
      exact List.getElem?_eq_none_iff.mp here
    rw [beyond, Option.map_none]
  | some e =>
    have there : (tickedTable rows t).entries[i]? = some (ticked rows e) := by
      change (t.entries.map (ticked rows))[i]? = _
      rw [List.getElem?_map, here]
      rfl
    obtain ⟨k, -, -, changed⟩ := numbering.at_ there
    rw [changed]
    rfl

/-- However the page was edited: once its message has been handled, every page that the server
delivers has the same rows in the same order, also when the file is read after a restart; the
window lists the ticked rows that the server has, in this order; and no value has changed. -/
theorem arranged_saved (order : MapOrder) (page fmt : StdSort bySort) (g g' : Globals) (edits : List Edit)
    (saved : saveSettings order fmt ((registerSettings page g).edited edits).message g = .done g') :
    (∀ sort, (registerSettings sort g').rows = ((registerSettings page g).edited edits).rows) ∧
      (∀ (dump : Json → Str) (former : Globals), ∃ h, read dump { former with configJson := g'.configJson } = (h, none) ∧
        ∀ sort, (registerSettings sort h).rows = ((registerSettings page g).edited edits).rows) ∧
      (statsList g').map Line.key = (((registerSettings page g).edited edits).rows.filter fun row =>
        row.checked && offered g'.application.server row.key).map Row.key ∧
      g'.arr.entries.map values = g.arr.entries.map values := by
  have keys := (keys_edited (registerSettings page g) edits).trans (keys_registerSettings page g)
  obtain ⟨es, listed, numbering, formatted, before, wrote, -, table⟩ := saved_cases keys saved
  refine ⟨rows_of_numbered listed numbering, fun dump former => ?_, ?_, values_numbered numbering⟩
  · have valid : Json.isUtf8 before.application.clientSecret = true := by
      rw [write_eq] at wrote
      split at wrote
      · assumption
      · cases wrote
    obtain ⟨saved, h, again, reads, -, positions⟩ := FirstRun.shown_written dump before former valid
    cases again.symm.trans wrote
    refine ⟨h, reads, fun sort => ?_⟩
    rw [FirstRun.shown, FirstRun.shown, table] at positions
    exact (rows_of_positions numbering positions sort).trans listed
  · rw [← listed]
    exact keys_statsList numbering formatted

/-- The level is dragged behind the score rank and hidden. -/
def hiddenLevel : List Edit := [.dragover "level" "scoreRank" false, .tick "level"]

theorem arranged_saved_level : ∃ g',
    saveSettings .reversed stableBySort ((registerSettings stableBySort {}).edited hiddenLevel).message {} = .done g' ∧
      ∀ sort, (registerSettings sort g').rows.take 3 = [⟨"scoreRank", true⟩, ⟨"level", false⟩, ⟨"ppRank", true⟩] := by
  have returns : (saveSettings .reversed stableBySort
      ((registerSettings stableBySort {}).edited hiddenLevel).message {}).isDone = true := by decide +kernel
  have rows : ((registerSettings stableBySort {}).edited hiddenLevel).rows.take 3 =
      [⟨"scoreRank", true⟩, ⟨"level", false⟩, ⟨"ppRank", true⟩] := by decide +kernel
  have saved := Outcome.eq_done_of_isDone returns
  exact ⟨_, saved, fun sort =>
    (congrArg (List.take 3) ((arranged_saved .reversed stableBySort stableBySort {} _ hiddenLevel saved).1 sort)).trans rows⟩

end OsuTracker.Soundness.Arrangement
