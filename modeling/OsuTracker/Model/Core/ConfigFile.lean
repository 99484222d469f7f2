import OsuTracker.Cxx.Json
import OsuTracker.Model.Core.StatTable

/-! # The global state and the configuration file

`Globals` collects the namespace-scope variables that the modelled functions read and write.
`config.json` is its parsed content, so a file is absent, not JSON, or a value; the text form
of a value that is neither null nor a string is a parameter `dump`, since the reader hands that
text to `AppConfig::set`. `read` applies entries one by one inside one `try` block and reports
the exception that ended it.
-/

namespace OsuTracker.Model.Core.Config

open Cxx

structure UserConfig where
  username : Str := []
  avatarUrl : Str := []
  avatarBytes : List UInt8 := []
  avatarDirty : Bool := false
deriving DecidableEq, Repr

/-- `config.json` on disk. -/
inductive FileContent where
  | absent
  | invalid
  | json (value : Json)

structure EntryDefaults where
  display : Bool
  sort : Int32
deriving DecidableEq, Repr

structure Globals where
  application : AppConfig := {}
  user : UserConfig := {}
  arr : StatTable := StatTable.initial
  arrFormatted : List DataEntry := []
  defaults : List EntryDefaults := []
  initApiFailed : Bool := false
  simulateMode : Bool := false
  configJson : FileContent := .absent

/-! ## Defaults -/

def initDefaults (g : Globals) : Globals :=
  if g.defaults ≠ [] then g
  else { g with defaults := g.arr.entries.map fun e => ⟨e.display, e.sort⟩ }

def resetDefaults (g : Globals) : Globals :=
  let restored := g.defaults.zipIdx.foldl
    (fun t item => (t.setDisplay item.2 item.1.display).setSort item.2 item.1.sort) g.arr
  { g with arr := restored }

def resetToDefaults (g : Globals) : Globals := resetDefaults { g with application := {} }

/-! ## Writing -/

/-- An empty text is written as null. -/
def mainValue (value : Str) : Json := if value = [] then .null else .str value

/-- The value that `write` dumps. -/
def configValue (g : Globals) : Json :=
  let main := g.application.toArray.foldl
    (fun j item => j.setAt ["Main", item.1] (mainValue item.2)) Json.null
  g.arr.entries.foldl (fun j e =>
    (j.setAt ["Display", e.key, "visible"] (.bool e.display)).setAt ["Display", e.key, "sort"]
      (.int e.sort.toInt)) main

/-- The stream is opened, and so truncated, before `dump` can reject a text. A file that cannot be opened, which
the source leaves alone without an exception, is not modelled. -/
def write (g : Globals) : Outcome Exception Globals :=
  if g.application.toArray.all fun item => Json.isUtf8 item.2 then
    .done { g with configJson := .json (configValue g) }
  else .threw (.json 316) { g with configJson := .invalid }

theorem toArray_isUtf8 (c : AppConfig) :
    (c.toArray.all fun item => Json.isUtf8 item.2) = Json.isUtf8 c.clientSecret := by
  have number (n : ℤ) : Json.isUtf8 (stdToString n) = true := Json.isUtf8_of_ascii (stdToString_ascii n)
  simp only [AppConfig.toArray, AppConfig.text, List.all_cons, List.all_nil, number, Bool.true_and, Bool.and_true]

/-- Only the client secret can keep the file from being written. -/
theorem write_eq (g : Globals) : write g =
    if Json.isUtf8 g.application.clientSecret then .done { g with configJson := .json (configValue g) }
    else .threw (.json 316) { g with configJson := .invalid } := by
  rw [write, toArray_isUtf8]

/-! ## Reading -/

inductive ReadError where
  | notOpened
  | exception (error : Exception)
deriving DecidableEq, Repr

section Read

variable (dump : Json → Str)

/-- The text that `read` passes to `AppConfig::set`. -/
def mainText : Json → Str
  | .null => []
  | .str s => s
  | j => dump j

def readMain (item : Str × Json) (g : Globals) : Outcome Exception Globals :=
  .ofExcept g ((g.application.set item.1 (mainText dump item.2)).map fun c => { g with application := c })

/-- One item of `Display`: unknown keys and members of the wrong type are skipped. -/
def readDisplay (item : Str × Json) (g : Globals) : Globals :=
  match getIndex item.1, item.2 with
  | some i, .obj members =>
    let shown := match members.lookup ("visible" : Str) with
      | some (.bool display) => g.arr.setDisplay i display
      | _ => g.arr
    let sorted := match members.lookup ("sort" : Str) with
      | some (.int n) => shown.setSort i (Int32.ofInt n)
      | some (.float x) => shown.setSort i x.toInt32
      | _ => shown
    { g with arr := sorted }
  | _, _ => g

/-- The members of an object member, none when it is missing or no object. -/
def section? (key : Str) (j : Json) : List (Str × Json) :=
  match j.find? key with
  | some (.obj members) => members
  | _ => []

/-- The body of the `try` block on a parsed file. -/
def readValue (j : Json) (g : Globals) : Outcome Exception Globals :=
  (Outcome.each (readMain dump) (section? "Main" j) g).andThen
    (Outcome.each (fun item g => .done (readDisplay item g)) (section? "Display" j))

/-- `read` returns in every case; the second component is what it logs. -/
def read (g : Globals) : Globals × Option ReadError :=
  match g.configJson with
  | .absent => (g, some .notOpened)
  | .invalid => (g, some (.exception (.json 101)))
  | .json j =>
    match readValue dump j g with
    | .done g' => (g', none)
    | .threw e g' => (g', some (.exception e))

theorem read_state {g : Globals} {j : Json} (file : g.configJson = .json j) :
    (read dump g).1 = (readValue dump j g).state := by
  simp only [read, file]
  cases readValue dump j g <;> rfl

end Read

def remove (g : Globals) : Globals := { g with configJson := .absent }

end OsuTracker.Model.Core.Config
