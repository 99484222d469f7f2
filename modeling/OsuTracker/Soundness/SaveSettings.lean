import OsuTracker.Model.Web.MainWs

/-! # What a settings message applies

A `#saveSettings` message is a plan of elementary steps: one per setting in map order, then the
display and the sort of each known tracker item in message order. The handler runs the plan and
stops at the first step that throws; the settings before it stay, and only a completed plan
reaches the formatting and the file. Either of the two can throw in turn, with the whole plan in
effect. The file is taken to be one that can be opened for writing.
-/

namespace OsuTracker.Soundness.SaveSettings

open Cxx Model.Core.Config Model.Core.Formatter Model.Web.MainWs

/-! ## Plans -/

inductive Step where
  | set (key value : Str)
  | display (i : ℕ) (shown : Bool)
  | sort (i : ℕ) (position : Int32)
  | reject (error : Exception)

def Step.run : Step → Globals → Outcome Exception Globals
  | .set key value, g => applyItem (key, value) g
  | .display i shown, g => .done { g with arr := g.arr.setDisplay i shown }
  | .sort i position, g => .done { g with arr := g.arr.setSort i position }
  | .reject e, g => .threw e g

/-- The step of one member of a tracker item. -/
def memberStep {α : Type} (item : Json) (name : Str) (convert : Json → Except Exception α) (step : α → Step) :
    List Step :=
  if item.contains name then
    match (item.indexConst name).bind convert with
    | .ok value => [step value]
    | .error e => [.reject e]
  else []

def itemSteps (item : Json) : List Step :=
  match (item.indexConst "key").bind Json.getString with
  | .error e => [.reject e]
  | .ok key =>
    match getIndex key with
    | none => []
    | some i => memberStep item "display" Json.getBool (.display i) ++ memberStep item "sort" Json.getInt (.sort i)

def trackerSteps (j : Json) : List Step :=
  match message "trackerConfig" j with
  | .error e => [.reject e]
  | .ok items => items.items.flatMap itemSteps

/-- All steps of a message. -/
def plan (order : MapOrder) (j : Json) : List Step :=
  match incoming j with
  | .error e => [.reject e]
  | .ok items => (order.run items).map (fun item => .set item.1 item.2) ++ trackerSteps j

private theorem each_memberStep {α : Type} (item : Json) (name : Str) (convert : Json → Except Exception α)
    (step : α → Step) (store : α → StatTable → StatTable)
    (stores : ∀ value g, (step value).run g = .done { g with arr := store value g.arr }) (g : Globals) :
    Outcome.each Step.run (memberStep item name convert step) g = trackMember item name convert store g := by
  unfold memberStep trackMember
  split
  · cases (item.indexConst name).bind convert with
    | ok value => simp [Outcome.each_cons, stores, Except.map]
    | error e => rfl
  · rfl

private theorem each_itemSteps (item : Json) (g : Globals) :
    Outcome.each Step.run (itemSteps item) g = trackItem item g := by
  unfold itemSteps trackItem
  cases (item.indexConst "key").bind Json.getString with
  | error e => rfl
  | ok key =>
    cases found : getIndex key with
    | none => simp only [found, Outcome.each_nil]
    | some i =>
      have display := each_memberStep item "display" Json.getBool (.display i)
        (fun display t => t.setDisplay i display) (fun _ _ => rfl)
      have sort := each_memberStep item "sort" Json.getInt (.sort i) (fun sort t => t.setSort i sort) (fun _ _ => rfl)
      simp only [found, Outcome.each_append, display]
      congr 1
      funext next
      exact sort next

private theorem each_flatMap_itemSteps (items : List Json) (g : Globals) :
    Outcome.each Step.run (items.flatMap itemSteps) g = Outcome.each trackItem items g := by
  induction items generalizing g with
  | nil => rfl
  | cons item rest ih =>
    rw [List.flatMap_cons, Outcome.each_append, each_itemSteps, Outcome.each_cons]
    congr 1
    funext next
    exact ih next

private theorem each_trackerSteps (j : Json) (g : Globals) :
    Outcome.each Step.run (trackerSteps j) g = trackItems j g := by
  unfold trackerSteps trackItems
  cases message "trackerConfig" j with
  | error e => rfl
  | ok items => exact each_flatMap_itemSteps items.items g

/-- The handler runs the plan, then formats, then writes. -/
theorem saveSettings_eq (order : MapOrder) (sort : StdSort bySort) (j : Json) (g : Globals) :
    saveSettings order sort j g =
      ((Outcome.each Step.run (plan order j) g).andThen (updateFormat sort)).andThen write := by
  unfold saveSettings plan
  cases incoming j with
  | error e => rfl
  | ok items =>
    have tracked : (fun g => Outcome.each Step.run (trackerSteps j) g) = trackItems j := by
      funext next
      exact each_trackerSteps j next
    simp only [Outcome.each_append, Outcome.each_map]
    rw [← tracked]
    rfl

/-! ## Partial effects -/

/-- A failed step has changed nothing itself, and no step touches the file. -/
theorem Step.run_threw {step : Step} {g g' : Globals} {e : Exception} (thrown : step.run g = .threw e g') :
    g' = g := by
  cases step with
  | set key value => exact (Outcome.ofExcept_eq_threw.mp thrown).2.symm
  | display i shown => cases thrown
  | sort i position => cases thrown
  | reject e => cases thrown; rfl

theorem Step.configJson_run (step : Step) (g : Globals) : (step.run g).state.configJson = g.configJson := by
  cases step with
  | set key value =>
    change (Outcome.ofExcept g _).state.configJson = _
    cases g.application.set key value <;> rfl
  | display i shown => rfl
  | sort i position => rfl
  | reject e => rfl

theorem configJson_each (steps : List Step) (g : Globals) :
    (Outcome.each Step.run steps g).state.configJson = g.configJson :=
  Outcome.each_preserves (P := fun next : Globals => next.configJson = g.configJson)
    (fun (step : Step) _ next same => (step.configJson_run next).trans same) rfl

/-- The steps of `before` are the ones in effect. -/
def InEffect (before : List Step) (g g' : Globals) : Prop :=
  ∃ applied, Outcome.each Step.run before g = .done applied ∧
    g'.application = applied.application ∧ g'.arr = applied.arr

/-- The settings, shown entries and file that a failed message should have left alone. -/
def Unchanged (g g' : Globals) : Prop :=
  g'.application = g.application ∧
    g'.arr.entries.map (fun e => (e.display, e.sort)) = g.arr.entries.map (fun e => (e.display, e.sort)) ∧
    g'.configJson = g.configJson

/-- The page with a user ID entered and the client ID cleared. -/
def clearedClientId : Json :=
  let item (key value : Str) : Json := .obj [("key", .str key), ("value", .str value)]
  .obj [("msg", .obj [("applicationConfig", .arr [item "banchoId" "7562902", item "clientId" ""]),
    ("trackerConfig", .arr [])])]

end OsuTracker.Soundness.SaveSettings
