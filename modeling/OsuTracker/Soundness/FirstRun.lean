import OsuTracker.Model.Main
import OsuTracker.Soundness.ConfigRoundTrip
import OsuTracker.Soundness.ConfigValidity

/-! # Resetting the settings

The snapshot of the display flags and sort values is taken once, before any file is read, and
nothing writes to it later. A reset therefore puts the compiled table and the default settings
back whatever has happened in between, and the restart writes a file from them and reads it again
as a first launch does.
-/

namespace OsuTracker.Soundness.FirstRun

open Cxx Model.Core.Config Model.Core.Formatter Model.Web.MainWs Model.Main ConfigRoundTrip ConfigValidity

/-! ## Histories -/

/-- What may happen between the start of the program and a reset; each may fail midway. -/
inductive Operation where
  | setting (op : Op)
  | resetSettings
  | restart (simulate : Bool)

section Runs

variable (dump : Json → Str)

def Operation.run : Operation → Globals → Globals
  | .setting op, g => op.run dump g
  | .resetSettings, g => Model.Main.resetSettings g
  | .restart simulate, g => (prepare dump simulate g).state

def runHistory (history : List Operation) (g : Globals) : Globals :=
  history.foldl (fun g operation => operation.run dump g) g

end Runs

/-- The key of every entry with where it is shown. -/
def shown (t : StatTable) : List (Str × Bool × Int32) := t.entries.map fun e => (e.key, e.display, e.sort)

/-! ## The snapshot -/

def compiledDefaults : List EntryDefaults := initialArr.map fun e => ⟨e.display, e.sort⟩

/-- The program's start, before it looks for its file. -/
def started (content : FileContent) : Globals := initDefaults { ({} : Globals) with configJson := content }

theorem defaults_started (content : FileContent) : (started content).defaults = compiledDefaults := rfl

/-- Nothing writes to the snapshot. -/
theorem defaults_run (dump : Json → Str) (operation : Operation) (g : Globals) :
    (operation.run dump g).defaults = g.defaults := by
  cases operation with
  | setting op =>
    cases op with
    | read content => exact apart_defaults.read dump { g with configJson := content }
    | save order sort j => exact apart_defaults.saveSettings order sort j g
    | selectServer index => exact apart_defaults.write _
    | selectMode index => exact apart_defaults.write _
  | resetSettings => exact apart_defaults.resetSettings g
  | restart simulate => exact apart_defaults.prepare dump simulate g

theorem defaults_runHistory (dump : Json → Str) (history : List Operation) (g : Globals) :
    (runHistory dump history g).defaults = g.defaults := by
  induction history generalizing g with
  | nil => rfl
  | cons operation rest ih => exact (ih _).trans (defaults_run dump operation g)

/-! ## Resetting -/

/-- With the snapshot of the compiled table, a reset shows every entry where it was at first. -/
theorem shown_resetSettings {g : Globals} (snapshot : g.defaults = compiledDefaults) :
    shown (Model.Main.resetSettings g).arr = shown StatTable.initial := by
  have fits : g.defaults.length = g.arr.entries.length := by
    rw [snapshot, g.arr.length_entries]
    rfl
  have pass := g.arr.entries_foldl_modify
    (fun (item : EntryDefaults) e => { e with display := item.display, sort := item.sort })
    (fun _ _ => rfl) g.defaults fits
  have entries : (Model.Main.resetSettings g).arr.entries =
      List.zipWith (fun e (item : EntryDefaults) => { e with display := item.display, sort := item.sort })
        g.arr.entries g.defaults := by
    rw [← pass]
    change (g.defaults.zipIdx.foldl (fun t item => (t.setDisplay item.2 item.1.display).setSort item.2 item.1.sort)
      g.arr).entries = _
    simp only [StatTable.setSort_setDisplay]
  have keys : g.arr.entries.map DataEntry.key = initialArr.map DataEntry.key := by rw [g.arr.map_key, keys_eq]
  rw [shown, shown, entries, snapshot, compiledDefaults]
  apply List.ext_getElem
  · have length : g.arr.entries.length = initialArr.length := by simpa using congrArg List.length keys
    simp [length, StatTable.initial]
  · intro i left right
    have key := List.getElem_of_eq keys (i := i) (by simp at left ⊢; omega)
    simp only [List.getElem_map] at key
    simp only [List.getElem_map, List.getElem_zipWith, key]
    rfl

/-- Any memory that reads what was written has its settings and shows the entries where they were. -/
theorem shown_written (dump : Json → Str) (g g' : Globals) (valid : Json.isUtf8 g.application.clientSecret = true) :
    ∃ saved h : Globals, write g = .done saved ∧ read dump { g' with configJson := saved.configJson } = (h, none) ∧
      h.application = g.application ∧ shown h.arr = shown g.arr := by
  let next := { g' with configJson := .json (configValue g), application := g.application }
  obtain ⟨arr, entries, display⟩ := readDisplay_each g.arr next
  have value : readValue dump (configValue g) { g' with configJson := .json (configValue g) } =
      .done { next with arr := arr } := by
    rw [readValue]
    simp only [configValue_eq]
    change (Outcome.each (readMain dump) (mainMembers g.application) _).andThen
      (Outcome.each _ (g.arr.entries.map displayMember)) = _
    rw [readMain_each, Outcome.andThen, ← configValue_eq]
    exact display
  refine ⟨_, { next with arr := arr }, by rw [write_eq, if_pos valid], by simp only [Model.Core.Config.read, value], rfl, ?_⟩
  have keys : arr.entries.map DataEntry.key = g.arr.entries.map DataEntry.key := by rw [arr.map_key, g.arr.map_key]
  change arr.entries.map _ = g.arr.entries.map _
  apply List.ext_getElem
  · simpa using congrArg List.length keys
  · intro i left right
    have key := List.getElem_of_eq keys (i := i) (by simpa using left)
    simp only [List.getElem_map] at key
    simp only [List.getElem_map, key, Prod.mk.injEq, true_and]
    simp only [entries, List.getElem_zipWith, shownAs, and_self]

/-- A start without a file writes one and reads it back. -/
theorem prepare_absent (dump : Json → Str) (simulate : Bool) {g : Globals} (absent : g.configJson = .absent)
    (valid : Json.isUtf8 g.application.clientSecret = true) :
    ∃ h, prepare dump simulate g = .done h ∧ h.application = g.application ∧ shown h.arr = shown g.arr := by
  obtain ⟨saved, h, written, readBack, application, display⟩ := shown_written dump g g valid
  have same : { g with configJson := saved.configJson } = saved := by
    rw [write_eq, if_pos valid] at written
    cases written
    rfl
  rw [same] at readBack
  refine ⟨{ h with simulateMode := simulate }, ?_, application, display⟩
  simp only [prepare, absent, written, Outcome.andThen, readBack]

/-- After any history, a reset and the restart that follows show what a first launch shows. -/
theorem reset_first_run (dump : Json → Str) (simulate : Bool) (content : FileContent) (history : List Operation) :
    ∃ first again, prepare dump simulate (started .absent) = .done first ∧
      prepare dump simulate (Model.Main.resetSettings (runHistory dump history (started content))) = .done again ∧
      again.application = first.application ∧ shown again.arr = shown first.arr := by
  have secret : Json.isUtf8 ({} : AppConfig).clientSecret = true := Json.isUtf8_of_ascii nofun
  have snapshot : (runHistory dump history (started content)).defaults = compiledDefaults :=
    (defaults_runHistory dump history _).trans (defaults_started content)
  obtain ⟨first, launched, firstApplication, firstShown⟩ :=
    prepare_absent dump simulate (g := started .absent) rfl secret
  obtain ⟨again, restarted, application, display⟩ := prepare_absent dump simulate
    (g := Model.Main.resetSettings (runHistory dump history (started content))) rfl secret
  refine ⟨first, again, launched, restarted, application.trans firstApplication.symm, ?_⟩
  rw [display, firstShown, shown_resetSettings snapshot]
  rfl

end OsuTracker.Soundness.FirstRun
