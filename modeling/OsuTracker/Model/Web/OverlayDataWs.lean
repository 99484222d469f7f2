import OsuTracker.Cxx.Json
import OsuTracker.Model.Core.Stats

/-! # The overlay socket

Every message is answered with one object: the raw texts of each entry of `arr` and, through a
map from key to formatted entry, the formatted ones. Both the map and the object are filled by
assignment, so a later entry with the same key would overwrite an earlier one.
-/

namespace OsuTracker.Model.Web.OverlayDataWs

open Cxx Core.Config

/-- `fmtMap`. -/
def fmtMap (formatted : List DataEntry) : List (Str × DataEntry) :=
  formatted.foldl (fun built fmt => assign fmt.key fmt built) []

/-- The members assigned for one row. -/
def rowStats (formatted : List (Str × DataEntry)) (row : DataEntry) : List (Str × Str) :=
  let raw := [(row.key ++ ("_init_raw" : Str), row.init), (row.key ++ ("_change_raw" : Str), row.change),
    (row.key ++ ("_current_raw" : Str), row.current)]
  match formatted.lookup row.key with
  | some fmt => raw ++ [(row.key ++ ("_init" : Str), fmt.init), (row.key ++ ("_change" : Str), fmt.change),
      (row.key ++ ("_current" : Str), fmt.current)]
  | none => raw

/-- The object sent; all its members are texts. -/
def stats (g : Globals) : List (Str × Str) :=
  let assigned := (("username" : Str), g.user.username) :: g.arr.entries.flatMap (rowStats (fmtMap g.arrFormatted))
  assigned.foldl (fun built member => assign member.1 member.2 built) []

/-- Formatted entries with distinct keys are listed under them. -/
theorem fmtMap_eq {formatted : List DataEntry} (distinct : (formatted.map DataEntry.key).Nodup) :
    fmtMap formatted = formatted.map fun fmt => (fmt.key, fmt) := by
  have keyed : ((formatted.map fun fmt => (fmt.key, fmt)).map Prod.fst).Nodup := by
    rw [List.map_map]
    exact distinct
  have listed := foldl_assign_of_nodup [] (formatted.map fun fmt => (fmt.key, fmt))
    (by simpa only [List.map_nil, List.nil_append] using keyed)
  rw [List.foldl_map] at listed
  exact listed

theorem lookup_fmtMap {formatted : List DataEntry} (distinct : (formatted.map DataEntry.key).Nodup) {fmt : DataEntry}
    (member : fmt ∈ formatted) : (fmtMap formatted).lookup fmt.key = some fmt := by
  rw [fmtMap_eq distinct]
  refine lookup_of_mem ?_ (List.mem_map_of_mem member)
  rw [List.map_map]
  exact distinct

end OsuTracker.Model.Web.OverlayDataWs
