import OsuTracker.Model.Web.MainWs

/-! # The settings page

The page shows the settings in a form and one row per entry, sorted by the current sort values.
Saving sends the values of the form and, for every row in the order of the page, its key, its
check box and its number from one on. What is defined here is the message of a page that has not
been edited.
-/

namespace OsuTracker.Model.Web.Settings

open Cxx Core.Config Core.Formatter

/-- The settings in the order in which `saveSettings` of the page sends them. -/
def formKeys : List Str :=
  ["banchoId", "titanicId", "clientId", "clientSecret", "apiInterval", "gameMode", "server"]

def formItem (item : Str × Str) : Json := .obj [("key", .str item.1), ("value", .str item.2)]

def applicationConfig (c : AppConfig) : List Json := (formKeys.map fun key => (key, c.get key)).map formItem

/-- A row and its position on the page. -/
def rowItem (item : DataEntry × ℕ) : Json :=
  .obj [("key", .str item.1.key), ("display", .bool item.1.display), ("sort", .int (item.2 + 1))]

def trackerConfig (rows : List DataEntry) : List Json := rows.zipIdx.map rowItem

/-- The rows of the page. -/
def sorted (sort : StdSort bySort) (t : StatTable) : List DataEntry := sort.run t.entries

/-- The message of a page that has not been edited. -/
def payload (sort : StdSort bySort) (g : Globals) : Json :=
  .obj [("cmd", .str "#saveSettings"), ("msg", .obj [("cmd", .str "#saveSettings"),
    ("applicationConfig", .arr (applicationConfig g.application)),
    ("trackerConfig", .arr (trackerConfig (sorted sort g.arr)))])]

end OsuTracker.Model.Web.Settings
