import OsuTracker.Cxx.Text
import Mathlib.Logic.Function.Basic

/-! # The updater

The entries of the archive are extracted over the installed files one by one, in archive order.
Entries below a segment that starts with an underscore are the user's and stay; directory entries
are passed over. An entry is described by what the reader reports of it and by how its extraction
goes once its destination is open. Opening creates no folder, so whether a name can be opened, and
which file it names, is the same during the whole run: that is the parameter `locate`.
-/

namespace OsuTracker.Model.Updater

open Cxx

/-! ## Protected names -/

/-- `find_first_of("/\\", pos)`, none for `npos`. -/
def isSeparator (c : UInt8) : Bool := c == ('/' : UInt8) || c == ('\\' : UInt8)

def findFirstOf (filename : Str) (pos : ℕ) : Option ℕ :=
  ((filename.drop pos).findIdx? isSeparator).map (pos + ·)

/-- `substr`; a count computed from `npos` reaches to the end. -/
def substr (str : Str) (pos : ℕ) (count : Option ℕ) : Except Exception Str :=
  if str.length < pos then .error (.outOfRange "basic_string::substr")
  else match count with
    | some count => .ok ((str.drop pos).take count)
    | none => .ok (str.drop pos)

theorem le_of_findFirstOf {filename : Str} {pos next : ℕ} (found : findFirstOf filename pos = some next) :
    pos ≤ next := by
  obtain ⟨i, _, rfl⟩ := Option.map_eq_some_iff.mp found
  omega

/-- The loop over the segments from a position on. -/
def segmentLoop (filename : Str) (pos : ℕ) : Except Exception Bool :=
  if pos < filename.length then
    match substr filename pos ((findFirstOf filename pos).map (· - pos)) with
    | .error e => .error e
    | .ok segment =>
      if segment.head? = some ('_' : UInt8) then .ok true
      else match found : findFirstOf filename pos with
        | none => .ok false
        | some next => segmentLoop filename (next + 1)
  else .ok false
termination_by filename.length - pos
decreasing_by
  have := le_of_findFirstOf found
  omega

/-- Whether an entry is skipped. -/
def skip (filename : Str) : Except Exception Bool := segmentLoop filename 0

/-! ## Extraction -/

/-- How an extraction goes: the file is not opened, it is truncated and holds some bytes when an
error stops it, or it is written. -/
inductive Attempt where
  | refused
  | broken (written : Str)
  | complete
deriving DecidableEq, Repr

structure Entry where
  /-- Whether `mz_zip_reader_file_stat` succeeds. -/
  stat : Bool := true
  filename : Str
  directory : Bool := false
  content : Str
  attempt : Attempt := .complete
deriving DecidableEq, Repr

/-- The files and their contents. -/
abbrev FileTree (File : Type) := File → Option Str

inductive Exit where
  | failed
  | thrown (error : Exception)
deriving DecidableEq, Repr

section Extract

variable {File : Type} [DecidableEq File] (locate : Str → Option File)

/-- `mz_zip_reader_extract_to_file`. -/
def extractToFile (e : Entry) (t : FileTree File) : Outcome Exit (FileTree File) :=
  if e.directory then .threw .failed t
  else match e.attempt, locate e.filename with
    | .refused, _ | _, none => .threw .failed t
    | .broken written, some file => .threw .failed (Function.update t file (some written))
    | .complete, some file => .done (Function.update t file (some e.content))

/-- The body of the loop over the archive. -/
def extractEntry (e : Entry) (t : FileTree File) : Outcome Exit (FileTree File) :=
  if e.stat = false then .threw .failed t
  else match skip e.filename with
    | .error error => .threw (.thrown error) t
    | .ok true => .done t
    | .ok false => if e.directory then .done t else extractToFile locate e t

/-- `extract_zip`: the result and the files it leaves. An archive that cannot be opened has no entries. -/
def extractZip (archive : Option (List Entry)) (t : FileTree File) : Except Exception Bool × FileTree File :=
  match archive with
  | none => (.ok false, t)
  | some entries =>
    match Outcome.each (extractEntry locate) entries t with
    | .done t' => (.ok true, t')
    | .threw .failed t' => (.ok false, t')
    | .threw (.thrown e) t' => (.error e, t')

end Extract

end OsuTracker.Model.Updater
