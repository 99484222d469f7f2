import OsuTracker.Model.Web.Mustache

/-! # File names in requests

The paths that requests name below `/static/`, and the names of templates, are changed in place from
left to right before a file is opened: names that a system treats in a special way, at the start of
every component, and characters that no file name should have become underscores.
-/

namespace OsuTracker.Model.Web.Filenames

open Cxx Mustache

def toUpper (c : UInt8) : UInt8 := if ('a' : UInt8) ≤ c ∧ c ≤ 'z' then c - (('a' : UInt8) - 'A') else c

/-- The length of the special name in front of a text: the letters of the pattern, a digit if the
name is numbered, and then the end or a character that ends the name. -/
def deviceName (pattern : Str) (includeNumber : Bool) (text : Str) : Option ℕ :=
  if (text.take pattern.length).map toUpper = pattern then
    let numbered := ('1' : UInt8) ≤ charAt text pattern.length ∧ charAt text pattern.length ≤ '9'
    if includeNumber ∧ ¬numbered then none
    else
      let i := if includeNumber then pattern.length + 1 else pattern.length
      if text.length ≤ i ∨ charAt text i ∈ bytes ".:/\\" then some i else none
  else none

def replacement : UInt8 := '_'

/-- `sanitizeSpecialFile`: the name at `ofs` becomes one character. -/
def sanitizeSpecialFile (source : Str) (ofs : ℕ) (pattern : Str) (includeNumber : Bool) : Str :=
  match deviceName pattern includeNumber (source.drop ofs) with
  | none => source
  | some length => source.take ofs ++ replacement :: source.drop (ofs + length)

/-- The names at the start of a component, told by their first letter. -/
def sanitizeSpecialFiles (data : Str) (i : ℕ) : Str :=
  let c := toUpper (charAt data i)
  if c = 'A' then sanitizeSpecialFile data i "AUX" false
  else if c = 'C' then sanitizeSpecialFile (sanitizeSpecialFile data i "CON" false) i "COM" true
  else if c = 'L' then sanitizeSpecialFile data i "LPT" true
  else if c = 'N' then sanitizeSpecialFile data i "NUL" false
  else if c = 'P' then sanitizeSpecialFile data i "PRN" false
  else if c = '.' then sanitizeSpecialFile data i ".." false
  else data

/-- Characters that are replaced wherever they stand. -/
def isForbidden (c : UInt8) : Bool := c < ' ' || (0x80 ≤ c && c ≤ 0x9F) || (bytes "?<>:*|\"").contains c

def isSeparator (c : UInt8) : Bool := c = '/' || c = '\\'

/-- One iteration of the loop. -/
def sanitizeAt (data : Str) (i : ℕ) (checkForSpecialEntries : Bool) : Str × Bool :=
  let data := if checkForSpecialEntries then sanitizeSpecialFiles data i else data
  let c := charAt data i
  if isForbidden c then (data.set i replacement, false)
  else if isSeparator c then if i = 0 then (data.set i replacement, false) else (data, true)
  else (data, false)

/-- The loop; what is left of the text shrinks, so its length is enough fuel. -/
def sanitizeFrom : ℕ → Str → ℕ → Bool → Str
  | 0, data, _, _ => data
  | fuel + 1, data, i, checkForSpecialEntries =>
    if i < data.length then
      let (data, check) := sanitizeAt data i checkForSpecialEntries
      sanitizeFrom fuel data (i + 1) check
    else data

/-- `utility::sanitize_filename`. -/
def sanitizeFilename (data : Str) : Str :=
  let data := data.take 255
  sanitizeFrom data.length data 0 true

/-- `utility::normalize_path`. -/
def normalizePath (directoryPath : Str) : Str :=
  let normalizedPath : Str := directoryPath.map fun (c : UInt8) => if c = '\\' then '/' else c
  match normalizedPath.getLast? with
  | none => normalizedPath
  | some c => if c = '/' then normalizedPath else normalizedPath ++ [('/' : UInt8)]

def staticDirectory : Str := "www/static/"

/-- The file that is opened for a request below `/static/`. -/
def staticFile (filePathPartial : Str) : Str := normalizePath staticDirectory ++ sanitizeFilename filePathPartial

end OsuTracker.Model.Web.Filenames
