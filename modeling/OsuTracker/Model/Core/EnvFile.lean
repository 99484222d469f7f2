import OsuTracker.Model.Core.ConfigFile

/-! # The debug environment

A debug build overrides the settings by the lines of `debug.env`, each a key, an equals sign and a
value. Nothing catches what `set` throws, so a line that is rejected leaves the lines before it
applied.
-/

namespace OsuTracker.Model.Core.Config

open Cxx

namespace Helpers

/-- A text without the delimiter is the first part. -/
def split2tuple (str : Str) (delimiter : UInt8) : Str × Str :=
  match str.findIdx? (· == delimiter) with
  | none => (str, [])
  | some pos => (str.take pos, str.drop (pos + 1))

end Helpers

/-- One line; comments, empty lines and lines without a key are skipped. -/
def readEnvLine (line : Str) (g : Globals) : Outcome Exception Globals :=
  if line = [] ∨ line.head? = some ('#' : UInt8) then .done g
  else
    let (key, value) := Helpers.split2tuple line ('=' : UInt8)
    if key = [] then .done g
    else .ofExcept g ((g.application.set key value).map fun c => { g with application := c })

/-- The lines of the file, none when it is missing. -/
def readEnv (file : Option (List Str)) (g : Globals) : Outcome Exception Globals :=
  match file with
  | some lines => Outcome.each readEnvLine lines g
  | none => .done g

theorem readEnvLine_threw {line : Str} {g g' : Globals} {e : Exception} (threw : readEnvLine line g = .threw e g') :
    g' = g := by
  unfold readEnvLine at threw
  split at threw
  · cases threw
  · simp only at threw
    split at threw
    · cases threw
    · exact (Outcome.ofExcept_eq_threw.mp threw).2.symm

/-- The file is rejected at its first line that `set` rejects, and exactly the lines before it are
applied. -/
theorem readEnv_eq_threw {lines : List Str} {g g' : Globals} {e : Exception} :
    readEnv (some lines) g = .threw e g' ↔
      ∃ before line after, lines = before ++ line :: after ∧
        readEnv (some before) g = .done g' ∧ readEnvLine line g' = .threw e g' := by
  constructor
  · intro threw
    obtain ⟨before, line, after, middle, split, applied, failed⟩ := Outcome.each_eq_threw.mp threw
    obtain rfl := readEnvLine_threw failed
    exact ⟨before, line, after, split, applied, failed⟩
  · rintro ⟨before, line, after, split, applied, failed⟩
    exact Outcome.each_eq_threw.mpr ⟨before, line, after, g', split, applied, failed⟩

end OsuTracker.Model.Core.Config
