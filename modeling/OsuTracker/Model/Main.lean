import OsuTracker.Model.Core.Session
import OsuTracker.Model.Web.MainWs

/-! # The ways a session begins

The main loop reads the configuration, which it first writes if there is none, and starts a fetch
loop; `#restart` and `#resetSettings` end its iteration. The other ways stop the running loop and
start one again without leaving the iteration. The relation connects the state in which the old
loop has ended with the one in which the new loop starts.
-/

namespace OsuTracker.Model.Main

open Cxx Core.Config Core.Formatter Core.Session Web.MainWs

/-- The start of an iteration of the main loop. -/
def prepare (dump : Json → Str) (simulate : Bool) (g : Globals) : Outcome Exception Globals :=
  (match g.configJson with
    | .absent => write g
    | _ => .done g).andThen fun g => .done { (read dump g).1 with simulateMode := simulate }

/-- `#resetSettings`, before it restarts the main loop. -/
def resetSettings (g : Globals) : Globals := remove (resetToDefaults g)

inductive Way where
  | restartFetch | resetSession | saveSettings | mainLoop
deriving DecidableEq, Repr

inductive Begins (dump : Json → Str) (sort : StdSort bySort) : Way → Globals → Globals → Prop
  | restartFetch (g : Globals) : Begins dump sort .restartFetch g (clearStats g)
  | resetSession (g : Globals) : Begins dump sort .resetSession g g
  | saveSettings {order : MapOrder} {j : Json} {g g' : Globals} (resets : savedWithReset j g = true)
    (saved : saveSettings order sort j g = .done g') : Begins dump sort .saveSettings g g'
  | restart {simulate : Bool} {g g' : Globals} (prepared : prepare dump simulate g = .done g') :
    Begins dump sort .mainLoop g g'
  | resetSettings {simulate : Bool} {g g' : Globals} (prepared : prepare dump simulate (resetSettings g) = .done g') :
    Begins dump sort .mainLoop g g'

/-! ## What the settings are not -/

/-- A part of the globals that no setting, entry, text or file belongs to. -/
structure Apart {α : Type} (part : Globals → α) : Prop where
  application : ∀ g c, part { g with application := c } = part g
  arr : ∀ g t, part { g with arr := t } = part g
  arrFormatted : ∀ g texts, part { g with arrFormatted := texts } = part g
  simulateMode : ∀ g simulate, part { g with simulateMode := simulate } = part g
  configJson : ∀ g content, part { g with configJson := content } = part g

theorem apart_user : Apart Globals.user := ⟨fun _ _ => rfl, fun _ _ => rfl, fun _ _ => rfl, fun _ _ => rfl, fun _ _ => rfl⟩

theorem apart_defaults : Apart Globals.defaults :=
  ⟨fun _ _ => rfl, fun _ _ => rfl, fun _ _ => rfl, fun _ _ => rfl, fun _ _ => rfl⟩

section Apart

variable {α : Type} {part : Globals → α} (apart : Apart part)

include apart

theorem Apart.write (g : Globals) : part (write g).state = part g := by
  rw [write_eq]
  split
  · exact apart.configJson g _
  · exact apart.configJson g _

theorem Apart.read (dump : Json → Str) (g : Globals) : part (read dump g).1 = part g := by
  cases file : g.configJson with
  | absent => simp only [Core.Config.read, file]
  | invalid => simp only [Core.Config.read, file]
  | json j =>
    rw [read_state dump file]
    refine Outcome.andThen_state (P := fun next => part next = part g) ?_ fun next same => ?_
    · refine Outcome.each_preserves (P := fun next => part next = part g) ?_ rfl
      intro item _ next same
      unfold readMain
      cases next.application.set item.1 (mainText dump item.2) with
      | ok c => exact (apart.application next c).trans same
      | error e => exact same
    · refine Outcome.each_preserves (P := fun next => part next = part g) ?_ same
      intro item _ next same
      change part (readDisplay item next) = _
      unfold readDisplay
      split
      · exact (apart.arr next _).trans same
      · exact same

theorem Apart.saveSettings (order : MapOrder) (sort : StdSort bySort) (j : Json) (g : Globals) :
    part (saveSettings order sort j g).state = part g := by
  unfold Web.MainWs.saveSettings
  cases incoming j with
  | error e => rfl
  | ok items =>
    simp only [Outcome.andThen_assoc]
    refine Outcome.andThen_state (P := fun next => part next = part g) ?_ fun next same => ?_
    · refine Outcome.each_preserves (P := fun next => part next = part g) ?_ rfl
      intro item _ next same
      unfold applyItem
      cases next.application.set item.1 item.2 with
      | ok c => exact (apart.application next c).trans same
      | error e => exact same
    · have kept := tracked_preserves (P := fun next => part next = part g)
        (fun next i _ same => (apart.arr next _).trans same) (fun next i _ same => (apart.arr next _).trans same)
        (fun next _ same => (apart.arrFormatted next _).trans same)
        (fun next _ same => (apart.configJson next _).trans same) sort j same
      rwa [Outcome.andThen_assoc] at kept

theorem Apart.prepare (dump : Json → Str) (simulate : Bool) (g : Globals) :
    part (prepare dump simulate g).state = part g := by
  refine Outcome.andThen_state (P := fun next => part next = part g) ?_ fun next same => ?_
  · split
    · exact apart.write g
    · rfl
  · exact (apart.simulateMode _ simulate).trans ((apart.read dump next).trans same)

theorem Apart.resetSettings (g : Globals) : part (resetSettings g) = part g :=
  (apart.configJson _ _).trans ((apart.arr _ _).trans (apart.application g {}))

end Apart

end OsuTracker.Model.Main
