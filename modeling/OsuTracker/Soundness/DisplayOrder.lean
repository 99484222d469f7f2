import OsuTracker.Soundness.ConfigRoundTrip
import OsuTracker.Soundness.Formatting
import OsuTracker.Model.Web.OverlayDataWs

/-! # The order of the entries never affects their texts

Formatting an entry neither reads nor writes its sort value and its display flag, so it does the
same to an entry that is shown elsewhere. The sorted copy holds one formatted entry for each row,
whatever the sort did with ties, and the overlay looks each of them up by its key.
-/

namespace OsuTracker.Soundness.DisplayOrder

open Cxx Model.Core.Config Model.Core.Formatter Model.Web.OverlayDataWs ConfigRoundTrip Formatting

/-! ## One entry -/

theorem formatTexts_shownAs (shown : DataEntry) (plain signed : Str → Except Exception Str)
    (marksSign noDiff noCurrent : Bool) (data : DataEntry) :
    formatTexts plain signed marksSign noDiff noCurrent (shownAs shown data) =
      (formatTexts plain signed marksSign noDiff noCurrent data).map (shownAs shown) := by
  have init : Outcome.ofExcept (shownAs shown data) ((plain data.init).map ((shownAs shown data).setSlot .init)) =
      (Outcome.ofExcept data ((plain data.init).map (data.setSlot .init))).map (shownAs shown) := by
    cases plain data.init <;> rfl
  unfold formatTexts
  refine Eq.trans (congrArg (Outcome.andThen · _) init) (Outcome.map_andThen _ fun first => ?_)
  have current : (if noCurrent then .done (shownAs shown first) else
        Outcome.ofExcept (shownAs shown first) ((plain first.current).map ((shownAs shown first).setSlot .current))) =
      (if noCurrent then .done first else
        Outcome.ofExcept first ((plain first.current).map (first.setSlot .current))).map (shownAs shown) := by
    cases noCurrent <;> cases plain first.current <;> rfl
  refine Eq.trans (congrArg (Outcome.andThen · _) current) (Outcome.map_andThen _ fun second => ?_)
  cases noDiff with
  | true => rfl
  | false =>
    change Outcome.ofExcept _ ((signed second.change).map _) =
      Outcome.map _ (Outcome.ofExcept _ ((signed second.change).map _))
    cases signed second.change with
    | error e => rfl
    | ok s =>
      by_cases minus : marksSign = true ∧ s.head? = some ('-' : UInt8)
      · simp only [Except.map, if_pos minus]
        rfl
      · simp only [Except.map, if_neg minus]
        rfl

theorem formatBranch_shownAs (shown : DataEntry) (dataType : DataType) (formatType : FormatType)
    (noDiff noCurrent : Bool) (data : DataEntry) :
    formatBranch dataType formatType noDiff noCurrent (shownAs shown data) =
      (formatBranch dataType formatType noDiff noCurrent data).map (shownAs shown) := by
  unfold formatBranch
  split <;> first | exact formatTexts_shownAs .. | rfl

theorem prepared_shownAs (shown e : DataEntry) : prepared (shownAs shown e) = shownAs shown (prepared e) := by
  have same : unmoved (shownAs shown e) = unmoved e := rfl
  rw [prepared, prepared, same]
  cases unmoved e <;> rfl

/-- An entry is formatted the same wherever it is shown. -/
theorem formatEntry_shownAs (server : Server) (shown e : DataEntry) :
    formatEntry server (shownAs shown e) = (formatEntry server e).map (shownAs shown) := by
  by_cases missing : e.init = [] ∧ e.single = false
  · rw [formatEntry, formatEntry, if_pos missing]
    exact if_pos missing
  by_cases supported : supports server e = true
  · have formatted : e.init ≠ [] ∨ e.single = true := by
      rcases Decidable.not_and_iff_not_or_not.mp missing with full | single
      · exact .inl full
      · exact .inr (by simpa using single)
    rw [formatEntry_eq supported formatted, formatEntry_eq (e := shownAs shown e) supported formatted, prepared_shownAs]
    exact formatBranch_shownAs ..
  · have unsupported := eq_false_of_ne_true supported
    rw [formatEntry, formatEntry, if_neg missing, if_pos unsupported]
    exact (if_neg missing).trans (if_pos unsupported)

/-- Formatting leaves an entry where it is shown. -/
theorem formatEntry_sort {server : Server} {e e' : DataEntry} (done : formatEntry server e = .done e') :
    e'.sort = e.sort := by
  have same : formatEntry server e = (formatEntry server e).map (shownAs e) := formatEntry_shownAs server e e
  rw [done, Outcome.map, Outcome.done.injEq] at same
  exact (congrArg DataEntry.sort same).trans rfl

/-! ## Tables -/

/-- What a table holds besides the order of the page. -/
def values (e : DataEntry) : DataEntry := { e with sort := 0, display := false }

/-- Two entries with the same values have the same formatted ones. -/
theorem values_formatEntry {server : Server} {a b a' b' : DataEntry} (same : values a = values b)
    (first : formatEntry server a = .done a') (second : formatEntry server b = .done b') : values a' = values b' := by
  have left := formatEntry_shownAs server (values a) a
  have right := formatEntry_shownAs server (values a) b
  have equal : shownAs (values a) b = shownAs (values a) a := by
    rw [show shownAs (values a) b = values b from rfl, ← same]
    rfl
  rw [first] at left
  rw [second, equal, left] at right
  exact Outcome.done.inj right

theorem forall₂_of_formatEntries {server : Server} {entries out : List DataEntry}
    (done : formatEntries server entries = .done out) :
    List.Forall₂ (fun e e' => formatEntry server e = .done e') entries out := by
  induction entries generalizing out with
  | nil =>
    cases done
    exact .nil
  | cons e rest ih =>
    unfold formatEntries at done
    split at done
    · next e' own =>
      split at done
      · next others ran =>
        cases done
        exact .cons own (ih ran)
      · cases done
    · cases done

/-- The message of the overlay, for any table and its formatted copy. -/
def overlayMessage (username : Str) (entries formatted : List DataEntry) : List (Str × Str) :=
  let assigned := (("username" : Str), username) :: entries.flatMap (rowStats (fmtMap formatted))
  assigned.foldl (fun built member => assign member.1 member.2 built) []

theorem stats_eq (g : Globals) : stats g = overlayMessage g.user.username g.arr.entries g.arrFormatted := rfl

section Sorted

variable {sort sort' : StdSort bySort} {server : Server} {entries entries' out out' : List DataEntry}

theorem map_key_sorted (done : formatEntries server (sort.run entries) = .done out) :
    (out.map DataEntry.key).Perm (entries.map DataEntry.key) := by
  have keys := map_key_formatEntries server (sort.run entries)
  rw [done] at keys
  change out.map DataEntry.key = _ at keys
  rw [keys]
  exact (sort.perm entries).map _

/-- The copy is in the order of the sort values. -/
theorem pairwise_sorted (done : formatEntries server (sort.run entries) = .done out) :
    out.Pairwise fun a b => a.sort.toInt ≤ b.sort.toInt := by
  have kept : out.map (fun e => e.sort.toInt) = (sort.run entries).map fun e => e.sort.toInt := by
    have formatted := forall₂_of_formatEntries done
    clear done
    generalize sort.run entries = sorted at formatted
    induction formatted with
    | nil => rfl
    | cons own _ ih => rw [List.map_cons, List.map_cons, ih, formatEntry_sort own]
  have sorted : (sort.run entries).Pairwise fun a b => a.sort.toInt ≤ b.sort.toInt :=
    (sort.sorted entries).imp fun ordered => by simpa [StdSort.byKey] using ordered
  have ordered : (out.map fun e => e.sort.toInt).Pairwise (· ≤ ·) := kept ▸ List.pairwise_map.mpr sorted
  exact List.pairwise_map.mp ordered

/-- A row finds its own formatted entry. -/
theorem lookup_sorted (distinct : (entries.map DataEntry.key).Nodup)
    (done : formatEntries server (sort.run entries) = .done out) {row : DataEntry} (member : row ∈ entries) :
    ∃ fmt, (fmtMap out).lookup row.key = some fmt ∧ formatEntry server row = .done fmt := by
  have outDistinct : (out.map DataEntry.key).Nodup := (map_key_sorted done).nodup_iff.mpr distinct
  obtain ⟨fmt, inside, own⟩ := (mem_of_formatEntries done).1 row ((sort.perm entries).mem_iff.mpr member)
  have key : fmt.key = row.key := by
    have same := key_formatEntry server row
    rwa [own] at same
  exact ⟨fmt, key ▸ lookup_fmtMap outDistinct inside, own⟩

/-- The formatted texts of a key, in two orders of the table. -/
theorem values_sorted (distinct : (entries.map DataEntry.key).Nodup)
    (same : entries.map values = entries'.map values)
    (done : formatEntries server (sort.run entries) = .done out)
    (other : formatEntries server (sort'.run entries') = .done out') {fmt fmt' : DataEntry} (member : fmt ∈ out)
    (member' : fmt' ∈ out') (key : fmt.key = fmt'.key) : values fmt = values fmt' := by
  obtain ⟨row, listed, own⟩ := (mem_of_formatEntries done).2 fmt member
  obtain ⟨row', listed', own'⟩ := (mem_of_formatEntries other).2 fmt' member'
  have rowKey := key_formatEntry server row
  have rowKey' := key_formatEntry server row'
  rw [own] at rowKey
  rw [own'] at rowKey'
  have inValues : values row' ∈ entries.map values := by
    rw [same]
    exact List.mem_map_of_mem ((sort'.perm entries').mem_iff.mp listed')
  obtain ⟨twin, twinListed, twinValues⟩ := List.mem_map.mp inValues
  -- the row of the first table with these values has the same key, so it is the row
  have twinKey : twin.key = row.key :=
    (congrArg DataEntry.key twinValues).trans (rowKey'.symm.trans (key.symm.trans rowKey))
  have equal : twin = row :=
    List.inj_on_of_nodup_map distinct twinListed ((sort.perm entries).mem_iff.mp listed) twinKey
  exact values_formatEntry (equal ▸ twinValues) own own'

theorem rowStats_congr {formatted formatted' : List (Str × DataEntry)} {row row' fmt fmt' : DataEntry}
    (same : values row = values row') (found : formatted.lookup row.key = some fmt)
    (found' : formatted'.lookup row'.key = some fmt') (sameTexts : values fmt = values fmt') :
    rowStats formatted row = rowStats formatted' row' := by
  obtain ⟨key, init, current, change⟩ : row.key = row'.key ∧ row.init = row'.init ∧ row.current = row'.current ∧
      row.change = row'.change :=
    ⟨congrArg (·.key) same, congrArg (·.init) same, congrArg (·.current) same, congrArg (·.change) same⟩
  obtain ⟨fmtInit, fmtCurrent, fmtChange⟩ : fmt.init = fmt'.init ∧ fmt.current = fmt'.current ∧
      fmt.change = fmt'.change :=
    ⟨congrArg (·.init) sameTexts, congrArg (·.current) sameTexts, congrArg (·.change) sameTexts⟩
  rw [key] at found
  simp only [rowStats, key, found, found', init, current, change, fmtInit, fmtCurrent, fmtChange]

/-- The message of the overlay, in two orders of the table. -/
theorem overlayMessage_sorted (distinct : (entries.map DataEntry.key).Nodup)
    (same : entries.map values = entries'.map values)
    (done : formatEntries server (sort.run entries) = .done out)
    (other : formatEntries server (sort'.run entries') = .done out') (username : Str) :
    overlayMessage username entries out = overlayMessage username entries' out' := by
  have keys : entries.map DataEntry.key = entries'.map DataEntry.key := by
    have projected := congrArg (List.map DataEntry.key) same
    rw [List.map_map, List.map_map] at projected
    exact projected
  have rows : entries.map (rowStats (fmtMap out)) = entries'.map (rowStats (fmtMap out')) := by
    apply List.ext_getElem (by simpa using congrArg List.length same)
    intro i left right
    have sameRow := List.getElem_of_eq same (i := i) (by simpa using left)
    rw [List.getElem_map, List.getElem_map] at sameRow
    obtain ⟨fmt, found, own⟩ := lookup_sorted distinct done (List.getElem_mem (by simpa using left))
    obtain ⟨fmt', found', own'⟩ := lookup_sorted (keys ▸ distinct) other (List.getElem_mem (by simpa using right))
    rw [List.getElem_map, List.getElem_map]
    exact rowStats_congr sameRow found found' (values_formatEntry sameRow own own')
  simp only [overlayMessage, List.flatMap_def, rows]

end Sorted

/-- Sorting permutes the formatted entries and changes nothing else: for any table with distinct
keys, and for two tables that differ only in where their entries are shown. -/
theorem order_irrelevant :
    (∀ (sort : StdSort bySort) (server : Server) (entries out : List DataEntry), (entries.map DataEntry.key).Nodup →
      formatEntries server (sort.run entries) = .done out →
        (out.map DataEntry.key).Perm (entries.map DataEntry.key) ∧ (out.map DataEntry.key).Nodup ∧
          out.Pairwise fun a b => a.sort.toInt ≤ b.sort.toInt) ∧
    (∀ (sort sort' : StdSort bySort) (server : Server) (entries entries' out out' : List DataEntry),
      (entries.map DataEntry.key).Nodup → entries.map values = entries'.map values →
      formatEntries server (sort.run entries) = .done out → formatEntries server (sort'.run entries') = .done out' →
        (∀ fmt ∈ out, ∀ fmt' ∈ out', fmt.key = fmt'.key → fmt.init = fmt'.init ∧ fmt.current = fmt'.current ∧
          fmt.change = fmt'.change ∧ fmt.positive = fmt'.positive) ∧
        ∀ username, overlayMessage username entries out = overlayMessage username entries' out') ∧
    ∀ (sort : StdSort bySort) (g g' : Globals), updateFormat sort g = .done g' →
      formatEntries g.application.server (sort.run g.arr.entries) = .done g'.arrFormatted ∧
        g' = { g with arrFormatted := g'.arrFormatted } ∧
        stats g' = overlayMessage g.user.username g.arr.entries g'.arrFormatted := by
  refine ⟨fun sort server entries out distinct done => ?_, ?_, fun sort g g' done => ?_⟩
  · exact ⟨map_key_sorted done, (map_key_sorted done).nodup_iff.mpr distinct, pairwise_sorted done⟩
  · intro sort sort' server entries entries' out out' distinct same done other
    refine ⟨fun fmt member fmt' member' key => ?_, overlayMessage_sorted distinct same done other⟩
    have equal := values_sorted distinct same done other member member' key
    exact ⟨congrArg (·.init) equal, congrArg (·.current) equal, congrArg (·.change) equal, congrArg (·.positive) equal⟩
  · unfold updateFormat at done
    split at done
    · next formatted ran =>
      cases done
      exact ⟨ran, rfl, rfl⟩
    · cases done

/-- The score rank is known, and every entry has the same sort value. -/
def tied : List DataEntry := initialArr.map fun e =>
  if e.key = ("scoreRank" : Str) then { e with sort := 1, init := "1005", current := "1000", change := "-5" }
  else { e with sort := 1 }

/-- The same table in the compiled order. -/
def untied : List DataEntry := tied.zipWith (fun e shown => shownAs shown e) initialArr

theorem tied_same_message : ∃ out out', formatEntries Server.bancho (stableBySort.run untied) = .done out ∧
    formatEntries Server.bancho ((StdSort.reversingTies fun e : DataEntry => e.sort.toInt).run tied) = .done out' ∧
    ∀ username, overlayMessage username untied out = overlayMessage username tied out' := by
  have first := Outcome.eq_done_of_isDone
    (by decide +kernel : (formatEntries Server.bancho (stableBySort.run untied)).isDone = true)
  have second := Outcome.eq_done_of_isDone (by decide +kernel :
    (formatEntries Server.bancho ((StdSort.reversingTies fun e : DataEntry => e.sort.toInt).run tied)).isDone = true)
  exact ⟨_, _, first, second, (order_irrelevant.2.1 _ _ _ _ _ _ _ (by decide +kernel) (by decide +kernel) first second).2⟩

end OsuTracker.Soundness.DisplayOrder
