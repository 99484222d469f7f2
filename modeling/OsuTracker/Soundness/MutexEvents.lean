import OsuTracker.Model.Web.DataMutex
import OsuTracker.Soundness.CleanStart

/-! # What one event does

An event of the system with its mutex either runs one action of an endpoint function or leaves
every text of the table. The actions that are still to run come from the scripts of the endpoint
functions, so all of them name entries of the table.
-/

namespace OsuTracker.Soundness.MutexEvents

open Cxx Model.Core.Config Model.Core.Formatter Model.Core.Session Model.Api Model.Web.MainWs Model.Web.DataMutex
  Endpoints CleanStart

/-! ## Actions -/

/-- The rest of the script that an event advances. -/
def script (fetching : Fetching) (event : Event) : List Act :=
  match fetching, event with
  | .endpoints threads, .thread i => (threads[i]?).getD []
  | .simulating acts, .fetch | .titanic _ _ acts, .fetch | .titanicAgain acts, .fetch => acts
  | _, _ => []

/-- The action that an event runs. -/
def acting (s : System) (event : Event) : Option Act := (script s.fetching event).head?

/-- The effect of an action of an endpoint function, which returned or threw. -/
def Acted (act : Act) (s s' : System) : Prop :=
  s'.handler = s.handler ∧ ((∃ written, act.exec s.globals = .ok (written, s'.globals)) ∨
    (∃ e, act.exec s.globals = .error e) ∧ s'.globals.arr = s.globals.arr)

/-- Neither a message nor a handler nor the begin of a cycle runs an action. -/
theorem acting_eq_none {s : System} {event : Event} (thread : ∀ i, event ≠ .thread i) (fetch : event ≠ .fetch) :
    acting s event = none := by
  cases event with
  | thread i => exact absurd rfl (thread i)
  | fetch => exact absurd rfl fetch
  | _ => cases position : s.fetching <;> simp only [acting, script, position, List.head?_nil]

theorem advance_cons (act : Act) (rest : List Act) (g : Globals) :
    (∃ written next, act.exec g = .ok (written, next) ∧ advance (act :: rest) g = some (.ok (rest, next))) ∨
      ∃ e, act.exec g = .error e ∧ advance (act :: rest) g = some (.error e) := by
  cases ran : act.exec g with
  | ok effect => exact .inl ⟨effect.1, effect.2, rfl, by rw [advance, ran]; rfl⟩
  | error e => exact .inr ⟨e, rfl, by rw [advance, ran]; rfl⟩

theorem titanicReturned_arr (init : Bool) (r : Responses) (status : Int32) (s : System) :
    (titanicReturned init r status s).globals.arr = s.globals.arr ∧
      (titanicReturned init r status s).handler = s.handler := by
  unfold titanicReturned
  split
  · cases init <;> exact ⟨rfl, rfl⟩
  · split <;> exact ⟨rfl, rfl⟩

theorem threadStep_acts {i : ℕ} {s s' : System} (stepped : threadStep i s = some s') :
    ∃ act, acting s (.thread i) = some act ∧ Acted act s s' := by
  unfold threadStep at stepped
  split at stepped
  · next threads position =>
    obtain ⟨thread, here, stepped⟩ := Option.bind_eq_some_iff.mp stepped
    cases thread with
    | nil => cases stepped
    | cons act rest =>
      refine ⟨act, by simp only [acting, script, position, here, Option.getD_some, List.head?_cons], ?_⟩
      rcases advance_cons act rest s.globals with ⟨written, g, ran, advanced⟩ | ⟨e, threw, advanced⟩
      · rw [advanced] at stepped
        cases stepped
        exact ⟨rfl, .inl ⟨written, ran⟩⟩
      · rw [advanced] at stepped
        cases stepped
        exact ⟨rfl, .inr ⟨⟨e, threw⟩, rfl⟩⟩
  · cases stepped

/-- A step of the fetch loop runs an action, or leaves every text and the handler. -/
theorem fetchStep_cases {sort : StdSort bySort} {s s' : System} (stepped : fetchStep sort s = some s') :
    (∃ act, acting s .fetch = some act ∧ Acted act s s') ∨
      acting s .fetch = none ∧ SameTexts s.globals s'.globals ∧ s'.handler = s.handler := by
  have still {g : Globals} (same : g.arr = s.globals.arr) : SameTexts s.globals g := fun key slot => by rw [same]
  unfold fetchStep at stepped
  cases position : s.fetching with
  | waiting | terminated => rw [position] at stepped; cases stepped
  | simulating acts =>
    rw [position] at stepped
    cases acts with
    | nil =>
      cases stepped
      exact .inr ⟨by simp only [acting, script, position, List.head?_nil], still rfl, rfl⟩
    | cons act rest =>
      refine .inl ⟨act, by simp only [acting, script, position, List.head?_cons], ?_⟩
      rcases advance_cons act rest s.globals with ⟨written, g, ran, advanced⟩ | ⟨e, threw, advanced⟩ <;>
        simp only [advanced] at stepped <;> cases stepped
      · exact ⟨rfl, .inl ⟨written, ran⟩⟩
      · exact ⟨rfl, .inr ⟨⟨e, threw⟩, rfl⟩⟩
  | endpoints threads =>
    simp only [position] at stepped
    split at stepped
    · cases stepped
      exact .inr ⟨by simp only [acting, script, position, List.head?_nil], still rfl, rfl⟩
    · cases stepped
  | titanic init r acts =>
    rw [position] at stepped
    cases acts with
    | nil =>
      cases stepped
      obtain ⟨table, handler⟩ := titanicReturned_arr init r r.titanic.users.status s
      exact .inr ⟨by simp only [acting, script, position, List.head?_nil], still table, handler⟩
    | cons act rest =>
      refine .inl ⟨act, by simp only [acting, script, position, List.head?_cons], ?_⟩
      rcases advance_cons act rest s.globals with ⟨written, g, ran, advanced⟩ | ⟨e, threw, advanced⟩ <;>
        simp only [advanced] at stepped <;> cases stepped
      · exact ⟨rfl, .inl ⟨written, ran⟩⟩
      · obtain ⟨table, handler⟩ := titanicReturned_arr init r (-1) s
        split
        · exact ⟨handler, .inr ⟨⟨e, threw⟩, table⟩⟩
        · exact ⟨rfl, .inr ⟨⟨e, threw⟩, rfl⟩⟩
  | titanicAgain acts =>
    rw [position] at stepped
    cases acts with
    | nil =>
      cases stepped
      exact .inr ⟨by simp only [acting, script, position, List.head?_nil], still rfl, rfl⟩
    | cons act rest =>
      refine .inl ⟨act, by simp only [acting, script, position, List.head?_cons], ?_⟩
      rcases advance_cons act rest s.globals with ⟨written, g, ran, advanced⟩ | ⟨e, threw, advanced⟩ <;>
        simp only [advanced] at stepped <;> cases stepped
      · exact ⟨rfl, .inl ⟨written, ran⟩⟩
      · exact ⟨rfl, .inr ⟨⟨e, threw⟩, rfl⟩⟩
  | fetched =>
    simp only [position] at stepped
    split at stepped <;> cases stepped
    exact .inr ⟨by simp only [acting, script, position, List.head?_nil], still rfl, rfl⟩
  | formatting =>
    obtain ⟨texts, state⟩ := updateFormat_state sort s.globals
    have table : (updateFormat sort s.globals).state.arr = s.globals.arr := by rw [state]
    simp only [position] at stepped
    refine .inr ⟨by simp only [acting, script, position, List.head?_nil], ?_⟩
    split at stepped <;> next formatted =>
      cases stepped
      rw [formatted] at table
      exact ⟨still table, rfl⟩
  | formatted =>
    rw [position] at stepped
    cases stepped
    exact .inr ⟨by simp only [acting, script, position, List.head?_nil], still rfl, rfl⟩

theorem proceed_texts {s : System} {result : Outcome Exception Globals} (same : SameTexts s.globals result.state)
    (rest : Option Handler) :
    SameTexts s.globals (s.proceed result rest).globals ∧ (s.proceed result rest).fetching = s.fetching := by
  cases result with
  | done g => exact ⟨same, rfl⟩
  | threw e g => exact ⟨same, rfl⟩

/-- A handler changes no text of the table. -/
theorem handlerStep_texts {sort : StdSort bySort} {s s' : System} {h : Handler}
    (stepped : handlerStep sort s h = some s') : SameTexts s.globals s'.globals ∧ s'.fetching = s.fetching := by
  have still : SameTexts s.globals s.globals := fun _ _ => rfl
  cases h with
  | overlay =>
    simp only [handlerStep] at stepped
    split at stepped <;> cases stepped
    exact ⟨still, rfl⟩
  | reading | formatted =>
    cases stepped
    exact ⟨still, rfl⟩
  | applying items j =>
    cases items with
    | nil =>
      simp only [handlerStep] at stepped
      split at stepped <;> cases stepped
      exact ⟨still, rfl⟩
    | cons item rest =>
      cases stepped
      refine proceed_texts ?_ _
      unfold applyItem
      cases s.globals.application.set item.1 item.2 with
      | ok c => exact still
      | error e => exact still
  | saving j =>
    simp only [handlerStep] at stepped
    split at stepped <;> cases stepped <;> exact ⟨still, rfl⟩
  | tracking items =>
    cases items with
    | nil =>
      cases stepped
      refine proceed_texts ?_ _
      obtain ⟨texts, state⟩ := updateFormat_state sort s.globals
      rw [state]
      exact still
    | cons item rest =>
      cases stepped
      refine proceed_texts (trackItem_preserves (P := SameTexts s.globals) ?_ ?_ item still) _
      · intro g i shown same key slot
        rw [StatTable.slot_setDisplay, same]
      · intro g i position same key slot
        rw [StatTable.slot_setSort, same]
  | writing =>
    cases stepped
    refine proceed_texts ?_ _
    rw [write_eq]
    split <;> exact still

/-- An event runs an action, or leaves every text; an action leaves the handler where it is. -/
theorem next_cases {sort : StdSort bySort} {s s' : System} {event : Event} (stepped : next sort s event = some s') :
    (∃ act, acting s event = some act ∧ Acted act s s') ∨
      acting s event = none ∧ SameTexts s.globals s'.globals := by
  unfold next at stepped
  split at stepped
  · cases stepped
  · cases stepped
    exact .inr ⟨acting_eq_none nofun nofun, fun _ _ => rfl⟩
  · cases stepped
  · exact .inl (threadStep_acts stepped)
  · rcases fetchStep_cases stepped with acts | ⟨none, same, _⟩
    · exact .inl acts
    · exact .inr ⟨none, same⟩
  · split at stepped <;> cases stepped
    exact .inr ⟨acting_eq_none nofun nofun, fun _ _ => rfl⟩
  · obtain ⟨h, here, stepped⟩ := Option.bind_eq_some_iff.mp stepped
    exact .inr ⟨acting_eq_none nofun nofun, (handlerStep_texts stepped).1⟩

/-! ## The actions still to run -/

def pending : Fetching → List Act
  | .endpoints threads => threads.flatten
  | .simulating acts | .titanic _ _ acts | .titanicAgain acts => acts
  | _ => []

theorem pending_of_acting {s : System} {event : Event} {act : Act} (acts : acting s event = some act) :
    act ∈ pending s.fetching := by
  unfold acting at acts
  cases position : s.fetching with
  | endpoints threads =>
    rw [position] at acts
    cases event with
    | thread i =>
      have inside : act ∈ (threads[i]?).getD [] := List.mem_of_head? acts
      cases here : threads[i]? with
      | none => rw [here] at inside; cases inside
      | some thread =>
        rw [here] at inside
        exact List.mem_flatten.mpr ⟨thread, List.mem_of_getElem? here, inside⟩
    | _ => cases acts
  | simulating rest | titanic init r rest | titanicAgain rest =>
    rw [position] at acts
    cases event with
    | fetch => exact List.mem_of_head? acts
    | _ => cases acts
  | _ => rw [position] at acts; cases event <;> cases acts

theorem known_titanicActs (app : AppConfig) (init : Bool) (r : TitanicResponse) :
    ∀ act ∈ titanicActs app init r, Known act := by
  intro act member
  have planned := callStores_planned app init r (late_afterStores (callStores app init r).2)
  rw [titanicActs, script_acts] at member
  exact planned.known ⟨_, List.mem_singleton_self _, member⟩

theorem known_fetchApiData (init : Bool) (r : Responses) (g : Globals) :
    ∀ act ∈ pending (fetchApiData init r g), Known act := by
  unfold fetchApiData
  split
  · exact known_simulate init
  · split
    · obtain ⟨parts, threads, planned⟩ := bancho_planned g.application init r
      rw [threads]
      intro act member
      obtain ⟨thread, listed, inside⟩ := List.mem_flatten.mp member
      exact planned.known ⟨thread, listed, inside⟩
    · split
      · exact known_titanicActs g.application init r.titanic
      · nofun

/-- All actions still to run name entries of the table. -/
def AllKnown (fetching : Fetching) : Prop := ∀ act ∈ pending fetching, Known act

theorem known_titanicReturned (init : Bool) (r : Responses) (status : Int32) (s : System) :
    AllKnown (titanicReturned init r status s).fetching := by
  unfold titanicReturned
  split
  · nofun
  · split
    · exact known_titanicActs _ true r.titanicAgain
    · nofun

theorem known_threadStep {i : ℕ} {s s' : System} (known : AllKnown s.fetching) (stepped : threadStep i s = some s') :
    AllKnown s'.fetching := by
  unfold threadStep at stepped
  split at stepped
  · next threads position =>
    rw [position] at known
    obtain ⟨thread, here, stepped⟩ := Option.bind_eq_some_iff.mp stepped
    have shorter {part : List Act} (inside : ∀ act ∈ part, act ∈ thread) : AllKnown (.endpoints (threads.set i part)) := by
      intro act member
      obtain ⟨other, listed, mem⟩ := List.mem_flatten.mp member
      rcases List.mem_or_eq_of_mem_set listed with old | rfl
      · exact known act (List.mem_flatten.mpr ⟨other, old, mem⟩)
      · exact known act (List.mem_flatten.mpr ⟨thread, List.mem_of_getElem? here, inside act mem⟩)
    cases thread with
    | nil => cases stepped
    | cons act rest =>
      rcases advance_cons act rest s.globals with ⟨written, g, ran, advanced⟩ | ⟨e, threw, advanced⟩ <;>
        rw [advanced] at stepped <;> cases stepped
      · exact shorter fun _ => List.mem_cons_of_mem _
      · split
        · exact shorter nofun
        · nofun
  · cases stepped

theorem known_fetchStep {sort : StdSort bySort} {s s' : System} (known : AllKnown s.fetching)
    (stepped : fetchStep sort s = some s') : AllKnown s'.fetching := by
  have tail {act : Act} {rest : List Act} (all : ∀ other ∈ act :: rest, Known other) : ∀ other ∈ rest, Known other :=
    (List.forall_mem_cons.mp all).2
  unfold fetchStep at stepped
  cases position : s.fetching with
  | waiting | terminated => rw [position] at stepped; cases stepped
  | simulating acts =>
    rw [position] at stepped known
    cases acts with
    | nil =>
      cases stepped
      nofun
    | cons act rest =>
      rcases advance_cons act rest s.globals with ⟨written, g, ran, advanced⟩ | ⟨e, threw, advanced⟩ <;>
        simp only [advanced] at stepped <;> cases stepped
      · exact tail known
      · nofun
  | titanicAgain acts =>
    rw [position] at stepped known
    cases acts with
    | nil =>
      cases stepped
      nofun
    | cons act rest =>
      rcases advance_cons act rest s.globals with ⟨written, g, ran, advanced⟩ | ⟨e, threw, advanced⟩ <;>
        simp only [advanced] at stepped <;> cases stepped
      · exact tail known
      · cases e.isCaught <;> nofun
  | titanic init r acts =>
    rw [position] at stepped known
    cases acts with
    | nil =>
      cases stepped
      exact known_titanicReturned _ _ _ s
    | cons act rest =>
      rcases advance_cons act rest s.globals with ⟨written, g, ran, advanced⟩ | ⟨e, threw, advanced⟩ <;>
        simp only [advanced] at stepped <;> cases stepped
      · exact tail known
      · split
        · exact known_titanicReturned _ _ _ s
        · nofun
  | endpoints threads | fetched =>
    simp only [position] at stepped
    split at stepped <;> cases stepped
    nofun
  | formatting =>
    simp only [position] at stepped
    split at stepped <;> cases stepped <;> nofun
  | formatted =>
    rw [position] at stepped
    cases stepped
    nofun

theorem known_next {sort : StdSort bySort} {s s' : System} {event : Event} (known : AllKnown s.fetching)
    (stepped : next sort s event = some s') : AllKnown s'.fetching := by
  unfold next at stepped
  split at stepped
  · cases stepped
  · cases stepped
    exact known_fetchApiData _ _ s.globals
  · cases stepped
  · exact known_threadStep known stepped
  · exact known_fetchStep known stepped
  · split at stepped <;> cases stepped
    exact known
  · obtain ⟨h, here, stepped⟩ := Option.bind_eq_some_iff.mp stepped
    rw [(handlerStep_texts stepped).2]
    exact known

end OsuTracker.Soundness.MutexEvents
