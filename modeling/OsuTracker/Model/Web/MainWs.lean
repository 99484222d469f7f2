import OsuTracker.Model.Core.Formatter

/-! # The main socket

`saveSettings` collects the incoming settings into an unordered map, applies them in whatever
order the map yields, then applies the tracker items in message order, formats and writes the
file. No exception is caught, so each leaves the items before it applied. The members of a
message item are read through the constant `operator[]`.
-/

namespace OsuTracker.Model.Web.MainWs

open Cxx Core.Config Core.Formatter

/-- The iteration order of an unordered map: some permutation of its entries. -/
structure MapOrder where
  run : List (Str × Str) → List (Str × Str)
  perm : ∀ entries, (run entries).Perm entries

def MapOrder.inserted : MapOrder := ⟨id, List.Perm.refl⟩
def MapOrder.reversed : MapOrder := ⟨List.reverse, List.reverse_perm⟩

/-- `j["msg"][name]`. -/
def message (name : Str) (j : Json) : Except Exception Json := do
  (← j.index "msg").index name

/-- The map from key to value; the value of an assignment is evaluated first. -/
def incoming (j : Json) : Except Exception (List (Str × Str)) := do
  (← message "applicationConfig" j).items.foldlM (fun built item => do
    let value ← (← item.indexConst "value").getString
    let key ← (← item.indexConst "key").getString
    pure (assign key value built)) []

/-- The settings that identify a session. -/
def identityKeys : List Str := ["banchoId", "titanicId", "clientId", "clientSecret", "gameMode", "server"]

def resetSession (items : List (Str × Str)) (c : AppConfig) : Bool :=
  identityKeys.any fun key =>
    match items.lookup key with
    | some value => value != c.get key
    | none => false

def applyItem (item : Str × Str) (g : Globals) : Outcome Exception Globals :=
  .ofExcept g ((g.application.set item.1 item.2).map fun c => { g with application := c })

/-- One member of a tracker item, when it is there. -/
def trackMember {α : Type} (item : Json) (name : Str) (convert : Json → Except Exception α)
    (store : α → StatTable → StatTable) (g : Globals) : Outcome Exception Globals :=
  if item.contains name then
    .ofExcept g ((item.indexConst name).bind convert |>.map fun value => { g with arr := store value g.arr })
  else .done g

def trackItem (item : Json) (g : Globals) : Outcome Exception Globals :=
  match (item.indexConst "key").bind Json.getString with
  | .error e => .threw e g
  | .ok key =>
    match getIndex key with
    | none => .done g
    | some i =>
      (trackMember item "display" Json.getBool (fun display t => t.setDisplay i display) g).andThen
        (trackMember item "sort" Json.getInt (fun sort t => t.setSort i sort))

def trackItems (j : Json) (g : Globals) : Outcome Exception Globals :=
  match message "trackerConfig" j with
  | .error e => .threw e g
  | .ok items => Outcome.each trackItem items.items g

/-- The `#saveSettings` branch up to its reply. -/
def saveSettings (order : MapOrder) (sort : StdSort bySort) (j : Json) (g : Globals) :
    Outcome Exception Globals :=
  match incoming j with
  | .error e => .threw e g
  | .ok items =>
    (((Outcome.each applyItem (order.run items) g).andThen (trackItems j)).andThen (updateFormat sort)).andThen write

/-- Whether a handled message also schedules a session reset. -/
def savedWithReset (j : Json) (g : Globals) : Bool :=
  match incoming j with
  | .error _ => false
  | .ok items => resetSession items g.application

/-! ## What the handler leaves alone -/

section Preserves

variable {P : Globals → Prop}

private theorem trackMember_preserves {α : Type} {item : Json} {name : Str} {convert : Json → Except Exception α}
    {store : α → StatTable → StatTable} {g : Globals}
    (stored : ∀ value, P g → P { g with arr := store value g.arr }) (start : P g) :
    P (trackMember item name convert store g).state := by
  unfold trackMember
  split
  · cases (item.indexConst name).bind convert with
    | ok value => exact stored value start
    | error e => exact start
  · exact start

theorem trackItem_preserves (display : ∀ g i shown, P g → P { g with arr := g.arr.setDisplay i shown })
    (sort : ∀ g i position, P g → P { g with arr := g.arr.setSort i position }) (item : Json) {g : Globals}
    (start : P g) : P (trackItem item g).state := by
  unfold trackItem
  split
  · exact start
  · split
    · exact start
    · next i _ =>
      refine Outcome.andThen_state (trackMember_preserves (fun value => display g i value) start) ?_
      exact fun later kept => trackMember_preserves (fun value => sort later i value) kept

theorem trackItems_preserves (display : ∀ g i shown, P g → P { g with arr := g.arr.setDisplay i shown })
    (sort : ∀ g i position, P g → P { g with arr := g.arr.setSort i position }) (j : Json) {g : Globals}
    (start : P g) : P (trackItems j g).state := by
  unfold trackItems
  split
  · exact start
  · exact Outcome.each_preserves (fun item _ next kept => trackItem_preserves display sort item kept) start

/-- The second half of the handler, from the first tracker item on. -/
theorem tracked_preserves (display : ∀ g i shown, P g → P { g with arr := g.arr.setDisplay i shown })
    (sort : ∀ g i position, P g → P { g with arr := g.arr.setSort i position })
    (formatted : ∀ g texts, P g → P { g with arrFormatted := texts })
    (written : ∀ g content, P g → P { g with configJson := content })
    (by_ : StdSort bySort) (j : Json) {g : Globals} (start : P g) :
    P (((trackItems j g).andThen (updateFormat by_)).andThen write).state := by
  refine Outcome.andThen_state (Outcome.andThen_state (trackItems_preserves display sort j start) ?_) ?_
  · intro next kept
    obtain ⟨texts, state⟩ := updateFormat_state by_ next
    rw [state]
    exact formatted next texts kept
  · intro next kept
    rw [write_eq]
    split
    · exact written next _ kept
    · exact written next _ kept

end Preserves

end OsuTracker.Model.Web.MainWs
