import OsuTracker.Model.Core.Formatter
import OsuTracker.Model.Web.OverlayDataWs
import Mathlib.Data.List.ProdSigma

/-! # The text files and the overlay show the same texts

One exporter pairs `arr[i]` with `arrFormatted[i]`, the other looks the key of `arr[i]` up among
the formatted entries. They agree on every table and for every `std::sort` exactly when the sort
values strictly increase in table order, as the compiled ones do; any other order puts one
entry's formatted texts under another entry's placeholder.
-/

namespace OsuTracker.Soundness.ExporterAgreement

open Cxx Model.Core.Config Model.Core.Formatter Model.Web.OverlayDataWs

/-- Each placeholder is replaced by what the socket sends under the same name, and the formatted
entry that fills the placeholders of a row belongs to that row. -/
structure Agree (g : Globals) : Prop where
  texts : ∀ key ∈ keys, ∀ suffix ∈ suffixes, ∃ value,
    (substitutions g).lookup (placeholder (key ++ suffix)) = some value ∧
      (stats g).lookup (key ++ suffix) = some value
  belongs : ∀ (i : ℕ) (raw fmt : DataEntry), g.arr.entries[i]? = some raw → g.arrFormatted[i]? = some fmt → fmt.key = raw.key

/-! ## Aligned tables -/

/-- The texts of paired rows under their names. -/
def namedTexts (rows : List (DataEntry × DataEntry)) : List (Str × Str) :=
  rows.flatMap fun (raw, fmt) => (statTexts raw fmt).map fun (suffix, value) => (raw.key ++ suffix, value)

/-- All names of an export. -/
def names : List Str := keys.flatMap fun key => suffixes.map (key ++ ·)

/-- The underscore that a suffix begins with is the first one of the name. -/
theorem takeWhile_name {key suffix : Str} (known : key ∈ keys) (shown : suffix ∈ suffixes) :
    (key ++ suffix).takeWhile (· ≠ ('_' : UInt8)) = key := by
  have plain : ∀ key ∈ keys, ∀ c ∈ key, decide (c ≠ ('_' : UInt8)) = true := by decide +kernel
  have begins : ∀ suffix ∈ suffixes, suffix.head? = some ('_' : UInt8) := by decide
  obtain ⟨tail, rfl⟩ := List.head?_eq_some_iff.mp (begins suffix shown)
  rw [List.takeWhile_append_of_pos (plain key known), List.takeWhile_cons_of_neg (by decide), List.append_nil]

theorem names_nodup : (("username" : Str) :: names).Nodup := by
  have pairs : names = (keys ×ˢ suffixes).map fun name => name.1 ++ name.2 := by
    simp only [names, SProd.sprod, List.product, List.map_flatMap, List.map_map, Function.comp_def]
  refine List.nodup_cons.mpr ⟨fun member => ?_, ?_⟩
  · obtain ⟨key, known, member⟩ := List.mem_flatMap.mp member
    obtain ⟨suffix, shown, same⟩ := List.mem_map.mp member
    have first := takeWhile_name known shown
    rw [same] at first
    have whole : ("username" : Str).takeWhile (· ≠ ('_' : UInt8)) = "username" := by decide
    have unknown : ("username" : Str) ∉ keys := by decide +kernel
    exact unknown (whole.symm.trans first ▸ known)
  · rw [pairs]
    refine List.Nodup.map_on ?_ (keys_nodup.product (by decide))
    rintro ⟨key, suffix⟩ listed ⟨other, suffix'⟩ also same
    obtain ⟨known, shown⟩ := List.mem_product.mp listed
    obtain ⟨known', shown'⟩ := List.mem_product.mp also
    have sameKey : key = other := by rw [← takeWhile_name known shown, same, takeWhile_name known' shown']
    subst sameKey
    exact congrArg _ (List.append_cancel_left same)

theorem names_namedTexts (t : StatTable) (formatted : List DataEntry)
    (length : formatted.length = t.entries.length) :
    (namedTexts (t.entries.zip formatted)).map Prod.fst = names := by
  have rows : (t.entries.zip formatted).map Prod.fst = t.entries := List.map_fst_zip (by omega)
  calc (namedTexts (t.entries.zip formatted)).map Prod.fst
      = (t.entries.zip formatted).flatMap fun row => suffixes.map (row.1.key ++ ·) := by
        rw [namedTexts, List.map_flatMap]; rfl
    _ = ((t.entries.zip formatted).map Prod.fst).flatMap fun raw => suffixes.map (raw.key ++ ·) :=
        by rw [List.flatMap_map]
    _ = (t.entries.map DataEntry.key).flatMap fun key => suffixes.map (key ++ ·) := by
        rw [rows, List.flatMap_map]
    _ = names := by rw [t.map_key, names]

private theorem placeholder_injective : Function.Injective placeholder := by
  intro name other same
  simpa [placeholder] using same

theorem substitutions_eq (g : Globals) :
    substitutions g = (namedTexts (g.arr.entries.zip g.arrFormatted)).map fun member =>
      (placeholder member.1, member.2) := by
  simp only [substitutions, namedTexts, List.map_flatMap, List.map_map]
  rfl

/-- In an aligned table the row at a position finds the formatted entry at that position. -/
theorem rowStats_eq {g : Globals}
    (aligned : g.arrFormatted.map DataEntry.key = g.arr.entries.map DataEntry.key) :
    g.arr.entries.flatMap (rowStats (fmtMap g.arrFormatted)) = namedTexts (g.arr.entries.zip g.arrFormatted) := by
  have length : g.arrFormatted.length = g.arr.entries.length := by
    simpa using congrArg List.length aligned
  have rows : (g.arr.entries.zip g.arrFormatted).map Prod.fst = g.arr.entries := List.map_fst_zip (by omega)
  rw [← rows, List.flatMap_map, rows, namedTexts]
  apply List.flatMap_congr
  rintro ⟨raw, fmt⟩ member
  obtain ⟨i, bound, lookup⟩ := List.getElem_of_mem member
  rw [List.getElem_zip, Prod.mk.injEq] at lookup
  have sameKey : fmt.key = raw.key := by
    have same := List.getElem_of_eq aligned (i := i) (by simp at bound ⊢; omega)
    simpa [lookup.1, lookup.2] using same
  have distinct : (g.arrFormatted.map DataEntry.key).Nodup := by
    rw [aligned, g.arr.map_key]
    exact keys_nodup
  have found : (fmtMap g.arrFormatted).lookup raw.key = some fmt := by
    rw [← sameKey]
    exact lookup_fmtMap distinct (List.of_mem_zip member).2
  simp only [rowStats, found]
  rfl

theorem agree_of_aligned {g : Globals}
    (aligned : g.arrFormatted.map DataEntry.key = g.arr.entries.map DataEntry.key) : Agree g := by
  have length : g.arrFormatted.length = g.arr.entries.length := by
    simpa using congrArg List.length aligned
  have listed := names_namedTexts g.arr g.arrFormatted length
  refine ⟨?_, ?_⟩
  · intro key known suffix shown
    have named : key ++ suffix ∈ (namedTexts (g.arr.entries.zip g.arrFormatted)).map Prod.fst := by
      rw [listed]
      exact List.mem_flatMap.mpr ⟨key, known, List.mem_map_of_mem shown⟩
    obtain ⟨⟨name, value⟩, member, rfl⟩ := List.mem_map.mp named
    refine ⟨value, ?_, ?_⟩
    · rw [substitutions_eq, lookup_map_key placeholder placeholder_injective]
      exact lookup_of_mem (listed ▸ (List.nodup_cons.mp names_nodup).2) member
    · have distinct : ((("username" : Str), g.user.username) ::
          g.arr.entries.flatMap (rowStats (fmtMap g.arrFormatted))).map Prod.fst = ("username" : Str) :: names := by
        rw [List.map_cons, rowStats_eq aligned, listed]
      have sent := foldl_assign_of_nodup [] ((("username" : Str), g.user.username) ::
        g.arr.entries.flatMap (rowStats (fmtMap g.arrFormatted)))
        (by rw [List.map_nil, List.nil_append, distinct]; exact names_nodup)
      rw [stats, sent, List.nil_append]
      apply lookup_of_mem (distinct ▸ names_nodup)
      rw [rowStats_eq aligned]
      exact List.mem_cons_of_mem _ member
  · intro i raw fmt here there
    have same := congrArg (·[i]?) aligned
    simpa [here, there] using same

/-! ## Sorted tables -/

private theorem entries_nodup (t : StatTable) : t.entries.Nodup := by
  refine List.Nodup.of_map DataEntry.key ?_
  rw [t.map_key]
  exact keys_nodup

/-- A permutation of a table with the keys in the same order is the table. -/
private theorem eq_of_map_key_eq (t : StatTable) {entries : List DataEntry} (perm : entries.Perm t.entries)
    (same : entries.map DataEntry.key = t.entries.map DataEntry.key) : entries = t.entries := by
  apply List.ext_getElem perm.length_eq
  intro i bound other
  apply t.eq_of_key_eq (perm.mem_iff.mp (List.getElem_mem bound)) (List.getElem_mem other)
  have keyed := List.getElem_of_eq same (i := i) (by simpa using bound)
  rwa [List.getElem_map, List.getElem_map] at keyed

private theorem aligned_of_agree {g : Globals} (agree : Agree g)
    (length : g.arrFormatted.length = g.arr.entries.length) :
    g.arrFormatted.map DataEntry.key = g.arr.entries.map DataEntry.key := by
  apply List.ext_getElem (by simpa using length)
  intro i left right
  have bound : i < g.arrFormatted.length := by simpa using left
  have other : i < g.arr.entries.length := by simpa using right
  simpa using agree.belongs i _ _ (List.getElem?_eq_getElem other) (List.getElem?_eq_getElem bound)

/-- Where formatting returns, the exporters agree for every sort exactly when the sort values
strictly increase in table order. -/
theorem agree_iff_increasing (g : Globals) (returns : ∃ sort g', updateFormat sort g = .done g') :
    (∀ sort g', updateFormat sort g = .done g' → Agree g') ↔
      g.arr.entries.Pairwise fun a b => a.sort.toInt < b.sort.toInt := by
  constructor
  · intro agree
    refine StdSort.increasing_of_runs (entries_nodup g.arr) fun sort => ?_
    have done : (updateFormat sort g).isDone = true := by
      obtain ⟨other, formatted, returned⟩ := returns
      rw [updateFormat_isDone, ← updateFormat_isDone other, returned]
      rfl
    cases result : updateFormat sort g with
    | done g' =>
      obtain ⟨kept, formatted⟩ := map_key_updateFormat result
      have length : g'.arrFormatted.length = g'.arr.entries.length := by
        have lengths := congrArg List.length formatted
        rw [List.length_map, List.length_map, (sort.perm _).length_eq] at lengths
        rw [kept, lengths]
      have aligned := aligned_of_agree (agree sort g' result) length
      rw [formatted, kept] at aligned
      exact eq_of_map_key_eq g.arr (sort.perm _) aligned
    | threw e g' => simp [result] at done
  · intro increasing sort g' returned
    obtain ⟨kept, formatted⟩ := map_key_updateFormat returned
    apply agree_of_aligned
    rw [formatted, kept, StdSort.run_eq_self sort increasing]

/-- A known score rank, sorted behind every other entry. -/
def rankLast : Globals where
  arr := (((StatTable.initial.setSlot "scoreRank" .init "1005").setSlot "scoreRank" .current "1000").setSlot
    "scoreRank" .change "-5").setSort 1 40

/-- The text file then shows another rank under the name of the score rank. -/
theorem rankLast_disagrees :
    ∃ g', updateFormat stableBySort rankLast = .done g' ∧
      (substitutions g').lookup (placeholder "scoreRank_current") = some [] ∧
      (stats g').lookup ("scoreRank_current" : Str) = some "#1,000" ∧ ¬Agree g' := by
  have file : (substitutions (updateFormat stableBySort rankLast).state).lookup
      (placeholder "scoreRank_current") = some [] := by decide +kernel
  have socket : (stats (updateFormat stableBySort rankLast).state).lookup ("scoreRank_current" : Str) =
      some "#1,000" := by decide +kernel
  have returned : (updateFormat stableBySort rankLast).isDone = true := by decide +kernel
  refine ⟨_, Outcome.eq_done_of_isDone returned, file, socket, fun agree => ?_⟩
  obtain ⟨value, replaced, sent⟩ := agree.texts "scoreRank" (by decide +kernel) "_current" (by decide +kernel)
  have name : ("scoreRank" : Str) ++ ("_current" : Str) = ("scoreRank_current" : Str) := by decide +kernel
  rw [name] at replaced sent
  cases file.symm.trans replaced
  cases socket.symm.trans sent

/-- A known score rank in the compiled order. -/
def rankKnown : Globals where
  arr := ((StatTable.initial.setSlot "scoreRank" .init "1005").setSlot "scoreRank" .current "1000").setSlot
    "scoreRank" .change "-5"

/-- In the compiled order every sort leaves both exporters with the same texts. -/
theorem initial_agrees : (updateFormat stableBySort rankKnown).isDone = true ∧
    ∀ sort g', updateFormat sort rankKnown = .done g' → Agree g' := by
  have returns : (updateFormat stableBySort rankKnown).isDone = true := by decide +kernel
  have increasing : rankKnown.arr.entries.Pairwise fun a b => a.sort.toInt < b.sort.toInt := by decide +kernel
  exact ⟨returns, (agree_iff_increasing rankKnown ⟨stableBySort, _, Outcome.eq_done_of_isDone returns⟩).mpr increasing⟩

end OsuTracker.Soundness.ExporterAgreement
