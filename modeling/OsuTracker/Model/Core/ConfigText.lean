import OsuTracker.Cxx.JsonDump
import OsuTracker.Cxx.JsonParser
import OsuTracker.Model.Core.ConfigFile

/-! # The configuration file as bytes

`write` and `read` as they meet the disk: the file is the text that `dump(4)` makes of the settings,
and reading parses whatever text is there. Opening the stream empties the file before `dump` runs.
The digits of floating-point numbers, of which the program writes none, are a parameter.
-/

namespace OsuTracker.Model.Core.Config

open Cxx

/-- `config.json`, none when there is no such file. -/
abbrev Disk := Option Str

/-- What the value-level model knows of the file. -/
def content : Disk → FileContent
  | none => .absent
  | some text =>
    match JsonParser.parse text with
    | .ok j => .json j
    | .error _ => .invalid

section Text

variable (dumpFloat : Flt → Str)

def writeText (g : Globals) : Disk × Option Exception :=
  match JsonDump.dump dumpFloat (some 4) (configValue g) with
  | .ok text => (some text, none)
  | .error e => (some [], some e)

/-- The text of a setting: `dump()` of what is neither null nor a string. -/
def settingText : Json → Except Exception Str
  | .null => .ok []
  | .str s => .ok s
  | j => JsonDump.dump dumpFloat none j

def readSetting (item : Str × Json) (g : Globals) : Outcome Exception Globals :=
  .ofExcept g ((settingText dumpFloat item.2).bind fun value =>
    (g.application.set item.1 value).map fun c => { g with application := c })

def readText (disk : Disk) (g : Globals) : Globals × Option ReadError :=
  match disk with
  | none => (g, some .notOpened)
  | some text =>
    match JsonParser.parse text with
    | .error e => (g, some (.exception e))
    | .ok j =>
      match (Outcome.each (readSetting dumpFloat) (section? "Main" j) g).andThen
          (Outcome.each (fun item g => .done (readDisplay item g)) (section? "Display" j)) with
      | .done g' => (g', none)
      | .threw e g' => (g', some (.exception e))

/-- `dump()` of a parsed value, which never throws. -/
def dumpText (j : Json) : Str :=
  match JsonDump.dump dumpFloat none j with
  | .ok text => text
  | .error _ => []

/-! ## Runs -/

/-- A change of the memory that leaves the file alone. -/
structure MemoryStep where
  change : Globals → Globals
  fileless : ∀ g file, change { g with configJson := file } = { change g with configJson := file }

/-- What a process, or the next one, does with the settings and their file, and what others do with the file. -/
inductive FileStep where
  | write | read | remove
  | memory (step : MemoryStep)
  /-- Somebody else puts other bytes there, or deletes the file. -/
  | replace (disk : Disk)

/-- A step on the bytes. -/
def FileStep.onDisk (s : Globals × Disk) : FileStep → Globals × Disk
  | write => (s.1, (writeText dumpFloat s.1).1)
  | read => ((readText dumpFloat s.2 s.1).1, s.2)
  | remove => (s.1, none)
  | memory step => (step.change s.1, s.2)
  | replace disk => (s.1, disk)

/-- The same step where the file is a value. -/
def FileStep.onValue (g : Globals) : FileStep → Globals
  | write => (Config.write g).state
  | read => (Config.read (dumpText dumpFloat) g).1
  | remove => Config.remove g
  | memory step => step.change g
  | replace disk => { g with configJson := content disk }

end Text

end OsuTracker.Model.Core.Config
