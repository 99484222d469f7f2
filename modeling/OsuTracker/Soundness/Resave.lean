import OsuTracker.Model.Web.Settings
import OsuTracker.Soundness.DisplayOrder
import OsuTracker.Soundness.SessionReset

/-! # Saving an unedited settings page

The page sends back the texts of the settings, so every one of them is assigned what it holds and
none of them differs. The rows come back numbered in the order of the page: after one save the
rows are the table in strictly increasing order, which is what every sort makes of it, and a
second save assigns the numbers that are there.
-/

namespace OsuTracker.Soundness.Resave

open Cxx Model.Core.Config Model.Core.Formatter Model.Web.MainWs Model.Web.Settings ConfigRoundTrip DisplayOrder
  SessionReset

/-! ## The form -/

/-- The map of a form with distinct keys lists its items. -/
theorem incoming_payload (page : StdSort bySort) (g : Globals) :
    incoming (payload page g) = .ok (formKeys.map fun key => (key, g.application.get key)) := by
  have collected (items : List (Str × Str)) (built : List (Str × Str)) :
      (items.map formItem).foldlM (fun built item => (do
        let value ← (← item.indexConst "value").getString
        let key ← (← item.indexConst "key").getString
        pure (assign key value built) : Except Exception (List (Str × Str)))) built =
        .ok (items.foldl (fun built item => assign item.1 item.2 built) built) := by
    induction items generalizing built with
    | nil => rfl
    | cons item rest ih => exact ih _
  have distinct : ((formKeys.map fun key => (key, g.application.get key)).map Prod.fst).Nodup := by
    rw [List.map_map]
    change (formKeys.map id).Nodup
    decide +kernel
  have listed := foldl_assign_of_nodup [] (formKeys.map fun key => (key, g.application.get key))
    (by simpa only [List.map_nil, List.nil_append] using distinct)
  exact (collected _ []).trans (congrArg Except.ok listed)

theorem set_get (c : AppConfig) : ∀ key ∈ formKeys, c.set key (c.get key) = .ok c := by
  have dispatched : ∀ key ∈ formKeys, ∃ setting ∈ setCases.map Prod.snd,
      dispatch setCases key = some setting ∧ dispatch getCases key = some setting := by decide +kernel
  intro key member
  obtain ⟨setting, _, sets, gets⟩ := dispatched key member
  simp only [AppConfig.set, sets, AppConfig.get, gets, AppConfig.assign_text]
  cases setting <;> rfl

theorem applied_payload (order : MapOrder) (g : Globals) :
    Outcome.each applyItem (order.run (formKeys.map fun key => (key, g.application.get key))) g = .done g := by
  refine Outcome.each_eq_self fun item member => ?_
  obtain ⟨key, listed, rfl⟩ := List.mem_map.mp ((order.perm _).mem_iff.mp member)
  simp only [applyItem, set_get g.application key listed, Except.map, Outcome.ofExcept_ok]

/-- None of the texts differs. -/
theorem not_reset_payload (page : StdSort bySort) (g : Globals) : savedWithReset (payload page g) g = false := by
  have built := incoming_payload page g
  rw [savedWithReset, built]
  refine eq_false_of_ne_true fun resets => ?_
  obtain ⟨item, member, _, differs⟩ := (resetSession_iff (incoming_nodup built) g.application).mp resets
  obtain ⟨key, _, rfl⟩ := List.mem_map.mp member
  exact differs rfl

/-! ## The rows -/

/-- A row numbered by its position. -/
def numbered (item : DataEntry × ℕ) : DataEntry := { item.1 with sort := Int32.ofInt (item.2 + 1) }

def numberedRows (rows : List DataEntry) : List DataEntry := rows.zipIdx.map numbered

/-- `t'` has the entries of `t`, numbered in the order of the rows. -/
structure Numbered (rows : List DataEntry) (t t' : StatTable) : Prop where
  perm : rows.Perm t.entries
  entry : ∀ (k : ℕ) (row : DataEntry), rows[k]? = some row →
    ∃ i : ℕ, t.entries[i]? = some row ∧ t'.entries[i]? = some (numbered (row, k))

/-- What one row of the page does to its entry. -/
def placeRow (item : DataEntry × ℕ) (e : DataEntry) : DataEntry :=
  { e with display := item.1.display, sort := Int32.ofInt (item.2 + 1) }

theorem trackItem_rowItem (g : Globals) {item : DataEntry × ℕ} {i : ℕ} (position : getIndex item.1.key = some i) :
    trackItem (rowItem item) g = .done { g with arr := g.arr.modify i (placeRow item) (fun _ => rfl) } := by
  have key : ((rowItem item).indexConst "key").bind Json.getString = .ok item.1.key := rfl
  have display : (rowItem item).contains "display" = true := rfl
  have sort : (rowItem item).contains "sort" = true := rfl
  have shows : (rowItem item).indexConst "display" = .ok (.bool item.1.display) := rfl
  have sorts : (rowItem item).indexConst "sort" = .ok (.int (item.2 + 1)) := rfl
  unfold trackItem
  rw [key]
  simp only [position, trackMember, display, sort, shows, sorts, Except.bind, Except.map, Json.getBool, Json.getInt,
    ↓reduceIte, Outcome.ofExcept_ok, Outcome.andThen, StatTable.setSort_setDisplay]
  rfl

/-- The position of the entry that a row belongs to. -/
def place (e : DataEntry) : ℕ := (getIndex e.key).getD 0

theorem map_place (t : StatTable) : t.entries.map place = List.range t.entries.length := by
  apply List.ext_getElem (by simp)
  intro i left right
  rw [List.getElem_map, place, t.getIndex_key i (by simpa using left), List.getElem_range]
  rfl

theorem getIndex_of_mem (t : StatTable) {e : DataEntry} (member : e ∈ t.entries) :
    getIndex e.key = some (place e) ∧ t.entries[place e]? = some e := by
  obtain ⟨i, bound, rfl⟩ := List.getElem_of_mem member
  rw [place, t.getIndex_key i bound]
  exact ⟨rfl, List.getElem?_eq_getElem bound⟩

/-- What all the rows do to the table. -/
def placeRows (items : List (DataEntry × ℕ)) (t : StatTable) : StatTable :=
  (items.map fun item => (item, place item.1)).foldl (fun t item => t.modify item.2 (placeRow item.1) (fun _ => rfl)) t

theorem each_rowItem (items : List (DataEntry × ℕ)) (known : ∀ item ∈ items, getIndex item.1.key = some (place item.1))
    (g : Globals) : Outcome.each trackItem (items.map rowItem) g = .done { g with arr := placeRows items g.arr } := by
  induction items generalizing g with
  | nil => rfl
  | cons item rest ih =>
    obtain ⟨own, others⟩ := List.forall_mem_cons.mp known
    rw [List.map_cons, Outcome.each_cons, trackItem_rowItem g own, Outcome.andThen_done, ih others]
    rfl

/-- The rows of the page number the table. -/
theorem numbered_trackItems (page : StdSort bySort) (g : Globals) :
    ∃ t, trackItems (payload page g) g = .done { g with arr := t } ∧ Numbered (sorted page g.arr) g.arr t := by
  have perm : (sorted page g.arr).Perm g.arr.entries := page.perm _
  have known : ∀ item ∈ (sorted page g.arr).zipIdx, getIndex item.1.key = some (place item.1) := by
    intro item member
    exact (getIndex_of_mem g.arr (perm.mem_iff.mp (List.fst_mem_of_mem_zipIdx member))).1
  have distinct : (((sorted page g.arr).zipIdx.map fun item => (item, place item.1)).map Prod.snd).Nodup := by
    have places : ((sorted page g.arr).zipIdx.map fun item => (item, place item.1)).map Prod.snd =
        ((sorted page g.arr).zipIdx.map Prod.fst).map place := by
      rw [List.map_map, List.map_map]
      rfl
    rw [places, List.zipIdx_map_fst, (perm.map place).nodup_iff, map_place]
    exact List.nodup_range
  refine ⟨placeRows (sorted page g.arr).zipIdx g.arr, each_rowItem _ known g, perm, fun k row here => ?_⟩
  obtain ⟨_, there⟩ := getIndex_of_mem g.arr (perm.mem_iff.mp (List.mem_of_getElem? here))
  have member : ((row, k), place row) ∈ (sorted page g.arr).zipIdx.map fun item => (item, place item.1) := by
    refine List.mem_map.mpr ⟨(row, k), ?_, rfl⟩
    rw [List.mem_zipIdx_iff_getElem?]
    exact here
  refine ⟨place row, there, ?_⟩
  have changed := (g.arr.getElem?_foldl_modify placeRow (fun _ _ => rfl) _ distinct).1 _ member
  rw [there] at changed
  exact changed

theorem toInt_number {k : ℕ} (small : k < 31) : (Int32.ofInt (k + 1)).toInt = k + 1 :=
  Int32.toInt_ofInt_of_le (by omega) (by omega)

theorem getElem?_numberedRows (rows : List DataEntry) (k : ℕ) :
    (numberedRows rows)[k]? = rows[k]?.map fun row => numbered (row, k) := by
  simp only [numberedRows, List.getElem?_map, List.getElem?_zipIdx, Option.map_map, Nat.zero_add]
  rfl

theorem length_numberedRows (rows : List DataEntry) : (numberedRows rows).length = rows.length := by
  simp [numberedRows]

theorem entries_distinct (t : StatTable) : t.entries.Nodup := by
  refine List.Nodup.of_map DataEntry.key ?_
  rw [t.map_key]
  exact keys_nodup

section Numbering

variable {rows : List DataEntry} {t t' : StatTable}

theorem Numbered.length_rows (numbering : Numbered rows t t') : rows.length = 31 := by
  rw [numbering.perm.length_eq, t.length_entries]
  rfl

/-- The row of an entry. -/
theorem Numbered.at_ (numbering : Numbered rows t t') {i : ℕ} {e : DataEntry} (here : t.entries[i]? = some e) :
    ∃ k : ℕ, k < 31 ∧ rows[k]? = some e ∧ t'.entries[i]? = some (numbered (e, k)) := by
  obtain ⟨k, there⟩ := List.getElem?_of_mem (numbering.perm.mem_iff.mpr (List.mem_of_getElem? here))
  have bound : k < 31 := numbering.length_rows ▸ (List.getElem?_eq_some_iff.mp there).1
  obtain ⟨j, same, changed⟩ := numbering.entry k e there
  have inside : i < t.entries.length := (List.getElem?_eq_some_iff.mp here).1
  obtain rfl := (List.getElem?_inj inside (entries_distinct t)).mp (here.trans same.symm)
  exact ⟨k, bound, there, changed⟩

/-- The numbered rows are the new table in strictly increasing order. -/
theorem Numbered.perm_numberedRows (numbering : Numbered rows t t') : t'.entries.Perm (numberedRows rows) := by
  have lengths : t'.entries.length = rows.length := by
    rw [numbering.length_rows, t'.length_entries]
    rfl
  have keys : (numberedRows rows).map DataEntry.key = rows.map DataEntry.key := by
    calc (numberedRows rows).map DataEntry.key
        = (rows.zipIdx.map Prod.fst).map DataEntry.key := by
          rw [numberedRows, List.map_map, List.map_map]
          rfl
      _ = rows.map DataEntry.key := by rw [List.zipIdx_map_fst]
  have distinct : (numberedRows rows).Nodup := by
    refine List.Nodup.of_map DataEntry.key ?_
    rw [keys, (numbering.perm.map _).nodup_iff, t.map_key]
    exact keys_nodup
  have inside : numberedRows rows ⊆ t'.entries := by
    intro e member
    obtain ⟨k, here⟩ := List.getElem?_of_mem member
    rw [getElem?_numberedRows] at here
    obtain ⟨row, there, rfl⟩ := Option.map_eq_some_iff.mp here
    obtain ⟨i, _, changed⟩ := numbering.entry k row there
    exact List.mem_of_getElem? changed
  exact ((distinct.subperm inside).perm_of_length_le (by rw [length_numberedRows, lengths])).symm

theorem Numbered.increasing (numbering : Numbered rows t t') :
    (numberedRows rows).Pairwise fun a b => a.sort.toInt < b.sort.toInt := by
  rw [List.pairwise_iff_getElem]
  intro k l left right ordered
  have bound := numbering.length_rows
  rw [length_numberedRows] at left right
  have first := getElem?_numberedRows rows k
  have second := getElem?_numberedRows rows l
  rw [List.getElem?_eq_getElem (by rwa [length_numberedRows]), List.getElem?_eq_getElem left, Option.map_some,
    Option.some.injEq] at first
  rw [List.getElem?_eq_getElem (by rwa [length_numberedRows]), List.getElem?_eq_getElem right, Option.map_some,
    Option.some.injEq] at second
  rw [first, second]
  change (Int32.ofInt (k + 1)).toInt < (Int32.ofInt (l + 1)).toInt
  rw [toInt_number (by omega), toInt_number (by omega)]
  omega

/-- Every sort of the new table gives the numbered rows. -/
theorem Numbered.run_eq (numbering : Numbered rows t t') (sort : StdSort bySort) :
    sort.run t'.entries = numberedRows rows :=
  sort.run_eq_of_perm numbering.perm_numberedRows numbering.increasing

end Numbering

/-- Numbering the numbered rows again changes nothing. -/
theorem Numbered.again {rows : List DataEntry} {t' t'' : StatTable}
    (renumbering : Numbered (numberedRows rows) t' t'') : t'' = t' := by
  apply StatTable.ext
  apply List.ext_getElem?
  intro i
  cases here : t'.entries[i]? with
  | none =>
    rw [List.getElem?_eq_none_iff, t'.length_entries] at here
    rwa [List.getElem?_eq_none_iff, t''.length_entries]
  | some e =>
    obtain ⟨k, _, row, changed⟩ := renumbering.at_ here
    rw [getElem?_numberedRows] at row
    obtain ⟨former, _, rfl⟩ := Option.map_eq_some_iff.mp row
    exact changed

/-! ## Both saves -/

/-- `t'` is `t` with the sort values one to n, in the order of the former ones. -/
structure Renumbered (t t' : StatTable) : Prop where
  kept : t'.entries.map (fun e => { e with sort := 0 }) = t.entries.map fun e => { e with sort := 0 }
  numbers : (t'.entries.map fun e => e.sort.toInt).Perm ((List.range t.entries.length).map fun k : ℕ => (k : ℤ) + 1)
  ordered : ∀ (i j : ℕ) (a b a' b' : DataEntry), t.entries[i]? = some a → t.entries[j]? = some b →
    t'.entries[i]? = some a' → t'.entries[j]? = some b' → a.sort.toInt < b.sort.toInt → a'.sort.toInt < b'.sort.toInt

theorem Numbered.numbers {rows : List DataEntry} {t t' : StatTable} (numbering : Numbered rows t t') :
    (t'.entries.map fun e => e.sort.toInt).Perm ((List.range t.entries.length).map fun k : ℕ => (k : ℤ) + 1) := by
  have bound := numbering.length_rows
  refine (numbering.perm_numberedRows.map _).trans (.of_eq ?_)
  apply List.ext_getElem?
  intro k
  rw [← numbering.perm.length_eq, List.getElem?_map, List.getElem?_map, getElem?_numberedRows, Option.map_map]
  by_cases inside : k < rows.length
  · rw [List.getElem?_eq_getElem inside, List.getElem?_range inside, Option.map_some, Option.map_some]
    exact congrArg some (toInt_number (by omega))
  · rw [List.getElem?_eq_none (by omega), List.getElem?_eq_none (by simpa using inside)]
    rfl

theorem Numbered.renumbered {page : StdSort bySort} {t t' : StatTable} (numbering : Numbered (sorted page t) t t') :
    Renumbered t t' := by
  refine ⟨?_, numbering.numbers, ?_⟩
  · apply List.ext_getElem?
    intro i
    rw [List.getElem?_map, List.getElem?_map]
    cases here : t.entries[i]? with
    | none =>
      rw [List.getElem?_eq_none_iff, t.length_entries] at here
      rw [List.getElem?_eq_none (by rwa [t'.length_entries])]
    | some e =>
      obtain ⟨k, _, _, changed⟩ := numbering.at_ here
      rw [changed]
      rfl
  · intro i j a b a' b' first second first' second' below
    obtain ⟨k, small, rowA, changedA⟩ := numbering.at_ first
    obtain ⟨l, small', rowB, changedB⟩ := numbering.at_ second
    obtain rfl := Option.some.inj (changedA.symm.trans first')
    obtain rfl := Option.some.inj (changedB.symm.trans second')
    change (Int32.ofInt (k + 1)).toInt < (Int32.ofInt (l + 1)).toInt
    rw [toInt_number small, toInt_number small']
    -- a row is never less than an earlier one
    rcases Nat.lt_trichotomy k l with before | same | after
    · omega
    · subst same
      obtain rfl := Option.some.inj (rowA.symm.trans rowB)
      exact absurd below (lt_irrefl _)
    · obtain ⟨insideB, atB⟩ := List.getElem?_eq_some_iff.mp rowB
      obtain ⟨insideA, atA⟩ := List.getElem?_eq_some_iff.mp rowA
      have ordered := List.pairwise_iff_getElem.mp (page.sorted t.entries) l k insideB insideA after
      have notLess : bySort a b = false := by
        rw [← atA, ← atB]
        exact ordered
      exact absurd below (of_decide_eq_false notLess)

/-- What the handler makes of the page: the rows are numbered, then formatted and written. -/
theorem saveSettings_payload (order : MapOrder) (page fmt : StdSort bySort) (g : Globals) :
    ∃ t, Numbered (sorted page g.arr) g.arr t ∧
      saveSettings order fmt (payload page g) g = (updateFormat fmt { g with arr := t }).andThen write := by
  obtain ⟨t, ran, numbering⟩ := numbered_trackItems page g
  refine ⟨t, numbering, ?_⟩
  rw [saveSettings, incoming_payload]
  change (((Outcome.each applyItem (order.run _) g).andThen _).andThen _).andThen _ = _
  rw [applied_payload, Outcome.andThen_done, ran, Outcome.andThen_done]

/-- An entry is formatted as its numbered row is. -/
theorem formatEntry_numbered {server : Server} {row : DataEntry} (k : ℕ)
    (returns : (formatEntry server row).isDone = true) : (formatEntry server (numbered (row, k))).isDone = true := by
  obtain ⟨formatted, done⟩ : ∃ formatted, formatEntry server row = .done formatted := ⟨_, Outcome.eq_done_of_isDone returns⟩
  have moved := formatEntry_shownAs server (numbered (row, k)) row
  rw [done] at moved
  exact congrArg Outcome.isDone moved

/-- Saving the page as it is numbers the entries in the order of the page and changes nothing else
of the settings; saving the page of the result changes nothing at all. -/
theorem resave_idempotent (order : MapOrder) (page fmt : StdSort bySort) {g : Globals}
    (valid : Json.isUtf8 g.application.clientSecret = true) (returns : (updateFormat fmt g).isDone = true) :
    ∃ g', saveSettings order fmt (payload page g) g = .done g' ∧ savedWithReset (payload page g) g = false ∧
      g' = { g with arr := g'.arr, arrFormatted := g'.arrFormatted, configJson := g'.configJson } ∧
      Renumbered g.arr g'.arr ∧
      ∀ (order' : MapOrder) (page' fmt' : StdSort bySort),
        saveSettings order' fmt' (payload page' g') g' = .done g' ∧ savedWithReset (payload page' g') g' = false := by
  obtain ⟨t, numbering, saved⟩ := saveSettings_payload order page fmt g
  have formats : (formatEntries g.application.server (numberedRows (sorted page g.arr))).isDone = true := by
    rw [formatEntries_isDone]
    intro e member
    obtain ⟨k, here⟩ := List.getElem?_of_mem member
    rw [getElem?_numberedRows] at here
    obtain ⟨row, there, rfl⟩ := Option.map_eq_some_iff.mp here
    have listed : row ∈ g.arr.entries := numbering.perm.mem_iff.mp (List.mem_of_getElem? there)
    exact formatEntry_numbered k ((updateFormat_isDone fmt g).mp returns row listed)
  obtain ⟨texts, formatted⟩ :
      ∃ texts, formatEntries g.application.server (numberedRows (sorted page g.arr)) = .done texts :=
    ⟨_, Outcome.eq_done_of_isDone formats⟩
  -- every sort of the new table formats and writes the same
  have finished (sort : StdSort bySort) (former : Globals) (application : former.application = g.application)
      (table : former.arr = t) : (updateFormat sort former).andThen write =
        .done { former with arrFormatted := texts, configJson := .json (configValue { g with arr := t }) } := by
    have ran : formatEntries former.application.server (sort.run former.arr.entries) = .done texts := by
      rw [application, table, numbering.run_eq sort, formatted]
    have encodes : Json.isUtf8 former.application.clientSecret = true := by rwa [application]
    have content : configValue { former with arrFormatted := texts } = configValue { g with arr := t } := by
      simp only [configValue, application, table]
    rw [updateFormat, ran, ← content]
    exact (write_eq _).trans (if_pos encodes)
  refine ⟨_, saved.trans (finished fmt { g with arr := t } rfl rfl), not_reset_payload page g, rfl,
    numbering.renumbered, fun order' page' fmt' => ⟨?_, not_reset_payload page' _⟩⟩
  obtain ⟨t', renumbering, resaved⟩ := saveSettings_payload order' page' fmt'
    { g with arr := t, arrFormatted := texts, configJson := .json (configValue { g with arr := t }) }
  have rows : sorted page' t = numberedRows (sorted page g.arr) := numbering.run_eq page'
  rw [rows] at renumbering
  obtain rfl : t' = t := Numbered.again renumbering
  exact resaved.trans (finished fmt' _ rfl rfl)

/-- Every row has the same sort value, so the page may show them in any order. -/
def unsorted : Globals := { arr := StatTable.initial.mapEntries (fun e => { e with sort := 7 }) fun _ => rfl }

theorem unsorted_resaved :
    ∃ g', saveSettings .reversed stableBySort (payload (StdSort.reversingTies _) unsorted) unsorted = .done g' ∧
      Renumbered unsorted.arr g'.arr ∧
      saveSettings .inserted (StdSort.reversingTies _) (payload stableBySort g') g' = .done g' := by
  obtain ⟨g', saved, _, _, renumbered, again⟩ := resave_idempotent .reversed (StdSort.reversingTies _) stableBySort
    (g := unsorted) (by decide +kernel) (by decide +kernel)
  exact ⟨g', saved, renumbered, (again .inserted stableBySort (StdSort.reversingTies _)).1⟩

end OsuTracker.Soundness.Resave
