import OsuTracker.Model.Web.Settings

/-! # Editing the settings page

The form holds texts, a row of the tracker configuration its key and its check box. The user types,
ticks and drags rows; while a row is dragged, every `dragover` above another row moves it before or
behind that row. Saving collects what is on the page at that time. The page refuses an interval
that is empty or below 5000; the message is the one it sends otherwise.
-/

namespace OsuTracker.Model.Web.SettingsPage

open Cxx Core.Config Core.Formatter Settings

structure Row where
  key : Str
  checked : Bool
deriving DecidableEq, Repr

structure Page where
  form : List (Str × Str)
  rows : List Row
deriving DecidableEq, Repr

/-- The page as the server delivers it. -/
def registerSettings (sort : StdSort bySort) (g : Globals) : Page where
  form := formKeys.map fun key => (key, g.application.get key)
  rows := (sorted sort g.arr).map fun e => ⟨e.key, e.display⟩

/-! ## Edits -/

inductive Edit where
  | type (key value : Str)
  | tick (key : Str)
  /-- `dragover`, in the upper or the lower half of the target. -/
  | dragover (src target : Str) (upper : Bool)
deriving DecidableEq, Repr

/-- `c.insertBefore(src, upper ? target : target.nextSibling)`. -/
def insertBefore (src : Row) (target : Str) (upper : Bool) (rows : List Row) : List Row :=
  let others := rows.erase src
  let position := others.findIdx (·.key = target)
  others.insertIdx (if upper then position else position + 1) src

def dragover (src target : Str) (upper : Bool) (rows : List Row) : List Row :=
  match rows.find? (·.key = src), rows.find? (·.key = target) with
  | some row, some there => if there = row then rows else insertBefore row target upper rows
  | _, _ => rows

def Page.edit (page : Page) : Edit → Page
  | .type key value => { page with form := page.form.map fun item => if item.1 = key then (key, value) else item }
  | .tick key =>
    { page with rows := page.rows.map fun row => if row.key = key then { row with checked := !row.checked } else row }
  | .dragover src target upper => { page with rows := dragover src target upper page.rows }

def Page.edited (page : Page) (edits : List Edit) : Page := edits.foldl Page.edit page

/-! ## Saving -/

def rowItem (item : Row × ℕ) : Json :=
  .obj [("key", .str item.1.key), ("display", .bool item.1.checked), ("sort", .int (item.2 + 1))]

/-- The message of `saveSettings` of the page. -/
def Page.message (page : Page) : Json :=
  .obj [("cmd", .str "#saveSettings"), ("msg", .obj [("cmd", .str "#saveSettings"),
    ("applicationConfig", .arr (page.form.map formItem)), ("trackerConfig", .arr (page.rows.zipIdx.map rowItem))])]

/-- A page that has not been edited sends its payload. -/
theorem message_registerSettings (sort : StdSort bySort) (g : Globals) :
    (registerSettings sort g).message = payload sort g := by
  simp only [Page.message, registerSettings, payload, applicationConfig, trackerConfig, List.zipIdx_map, List.map_map]
  rfl

end OsuTracker.Model.Web.SettingsPage
