import OsuTracker.Model.Core.Formatter

/-! # The stats list of the window

The window lists the formatted entries in their order, those that are displayed and that the server
has. An entry with a single value has no column for the change; another one shows it in a colour.
-/

namespace OsuTracker.Model.View.StatsList

open Cxx Core.Config Core.Formatter

inductive Colour where
  | muted | green | red
deriving DecidableEq, Repr

/-- A line of the list; the label is left out. -/
structure Line where
  key : Str
  current : Str
  change : Option (Str × Colour)
deriving DecidableEq, Repr

def line (entry : DataEntry) : Line where
  key := entry.key
  current := entry.current
  change :=
    if entry.single then none
    else some (entry.change, if entry.change = [] then .muted else if entry.positive then .green else .red)

def lists (server : Server) (entry : DataEntry) : Bool := entry.display && supports server entry

def statsList (g : Globals) : List Line := (g.arrFormatted.filter (lists g.application.server)).map line

end OsuTracker.Model.View.StatsList
