import OsuTracker.Model.Core.Helpers
import OsuTracker.Model.Core.ConfigFile

/-! # The text files

`writeStats` expands every template line once per entry and suffix, in table order. The raw texts
are those of `arr[i]`, the formatted ones those of `arrFormatted[i]`: it runs right after
`updateFormat` under the same lock, so both have the same length.
-/

namespace OsuTracker.Model.Core.Config

open Cxx

/-- The six texts of an entry under their suffixes, raw ones first. -/
def statTexts (raw fmt : DataEntry) : List (Str × Str) :=
  [("_init_raw", raw.init), ("_change_raw", raw.change), ("_current_raw", raw.current),
    ("_init", fmt.init), ("_change", fmt.change), ("_current", fmt.current)]

def suffixes : List Str := ["_init_raw", "_change_raw", "_current_raw", "_init", "_change", "_current"]

/-- A name in double braces. -/
def placeholder (name : Str) : Str := ("\x7b\x7b" : Str) ++ name ++ ("\x7d\x7d" : Str)

/-- What a line is searched for and what replaces it, in the order of the loop. -/
def substitutions (g : Globals) : List (Str × Str) :=
  (g.arr.entries.zip g.arrFormatted).flatMap fun (raw, fmt) =>
    (statTexts raw fmt).map fun (suffix, value) => (placeholder (raw.key ++ suffix), value)

def expandLine (g : Globals) (line : Str) : Str :=
  (substitutions g).foldl (fun line (name, value) => Helpers.replace line name value) line

/-- The content written for one template, given its lines. -/
def writeStats (g : Globals) (template : List Str) : Str :=
  (template.map fun line => expandLine g line ++ ("\n" : Str)).flatten

end OsuTracker.Model.Core.Config
