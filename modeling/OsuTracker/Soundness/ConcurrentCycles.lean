import OsuTracker.Machine.Regions
import OsuTracker.Soundness.MutexEvents

/-! # Cycles and handlers alone

The system with its mutex takes one statement after the other. The data mutex excludes what it is
meant to exclude: the fetch loop formats while no handler holds it. A cycle during which no
settings are saved is a cycle of a session, whichever overlays read in between, and the handler of
`#saveSettings` alone is the call that the main socket makes.
-/

namespace OsuTracker.Soundness.ConcurrentCycles

open Cxx Model.Core.Config Model.Core.Formatter Model.Core.Session Model.Api Model.Web.MainWs Model.Web.DataMutex
  Machine.Threads Machine.Regions MutexEvents

variable {sort : StdSort bySort}

/-! ## Exclusion -/

/-- The fetch loop and a handler do not hold the data mutex at the same time. -/
def Exclusive (s : System) : Prop := s.fetching.owns = false ∨ s.held = false

theorem titanicReturned_owns (init : Bool) (r : Responses) (status : Int32) (s : System) :
    (titanicReturned init r status s).fetching.owns = false := by
  unfold titanicReturned
  split
  · rfl
  · split <;> rfl

theorem fetchApiData_owns (init : Bool) (r : Responses) (g : Globals) : (fetchApiData init r g).owns = false := by
  unfold fetchApiData
  repeat' split
  all_goals rfl

theorem threadStep_owns {i : ℕ} {s s' : System} (stepped : threadStep i s = some s') : s'.fetching.owns = false := by
  unfold threadStep at stepped
  split at stepped
  · obtain ⟨thread, here, stepped⟩ := Option.bind_eq_some_iff.mp stepped
    obtain ⟨result, advanced, stepped⟩ := Option.bind_eq_some_iff.mp stepped
    cases result with
    | ok effect =>
      cases stepped
      rfl
    | error e =>
      cases stepped
      cases e.isCaught <;> rfl
  · cases stepped

/-- The fetch loop takes the mutex when no handler holds it. -/
theorem fetchStep_owns {s s' : System} (stepped : fetchStep sort s = some s') (owns : s'.fetching.owns = true) :
    s.held = false ∨ s.fetching.owns = true := by
  unfold fetchStep at stepped
  cases position : s.fetching with
  | waiting | terminated => rw [position] at stepped; cases stepped
  | simulating acts | titanicAgain acts =>
    simp only [position] at stepped
    split at stepped <;> cases stepped
    · cases owns
    · cases owns
    · next e _ => cases e <;> cases owns
  | titanic init r acts =>
    simp only [position] at stepped
    split at stepped <;> cases stepped
    · rw [titanicReturned_owns] at owns
      cases owns
    · cases owns
    · split at owns
      · rw [titanicReturned_owns] at owns
        cases owns
      · cases owns
  | endpoints threads =>
    simp only [position] at stepped
    split at stepped <;> cases stepped
    cases owns
  | fetched =>
    simp only [position] at stepped
    split at stepped <;> cases stepped
    next free => exact .inl (by simpa using free)
  | formatting | formatted => exact .inr rfl

/-- A handler takes the mutex when the fetch loop does not own it. -/
theorem handlerStep_held {s s' : System} {h : Handler} (stepped : handlerStep sort s h = some s')
    (held : s'.held = true) : s.fetching.owns = false ∨ h.holds = true := by
  cases h with
  | overlay =>
    simp only [handlerStep] at stepped
    split at stepped
    · cases stepped
    · next free => exact .inl (by simpa using free)
  | applying items j =>
    cases items with
    | nil =>
      simp only [handlerStep] at stepped
      split at stepped
      · cases stepped
      · next free => exact .inl (by simpa using free)
    | cons item rest =>
      cases stepped
      cases applied : applyItem item s.globals <;> rw [applied] at held <;> cases held
  | writing =>
    cases stepped
    cases written : write s.globals <;> rw [written] at held <;> cases held
  | reading | saving | tracking | formatted => exact .inr rfl

/-- A message does not arrive with the mutex. -/
theorem message_held (m : Message) (s : System) : ({ s with handler := m.handler } : System).held = false := by
  cases m with
  | overlay => rfl
  | saveSettings order j =>
    simp only [System.held, Message.handler]
    cases incoming j <;> rfl

theorem exclusive_next {s s' : System} {event : Event} (exclusive : Exclusive s)
    (stepped : next sort s event = some s') : Exclusive s' := by
  unfold next at stepped
  split at stepped
  · cases stepped
  · cases stepped
    exact .inl (fetchApiData_owns _ _ s.globals)
  · cases stepped
  · exact .inl (threadStep_owns stepped)
  · have handler : s'.held = s.held := by
      rw [System.held, System.held]
      rcases fetchStep_cases stepped with ⟨act, _, same, _⟩ | ⟨_, _, same⟩ <;> rw [same]
    cases owns : s'.fetching.owns with
    | false => exact .inl owns
    | true =>
      rcases fetchStep_owns stepped owns with free | owned
      · exact .inr (handler.trans free)
      · exact .inr (handler.trans (exclusive.resolve_left (by rw [owned]; decide)))
  · split at stepped <;> cases stepped
    exact .inr (message_held _ s)
  · obtain ⟨h, here, stepped⟩ := Option.bind_eq_some_iff.mp stepped
    rw [Exclusive, (handlerStep_texts stepped).2]
    cases held : s'.held with
    | false => exact .inr rfl
    | true =>
      rcases handlerStep_held stepped held with free | holds
      · exact .inl free
      · exact .inl (exclusive.resolve_right (by simp [System.held, here, holds]))

/-- The data mutex excludes in every run. -/
theorem exclusive_of_run {g : Globals} {events : List Event} {s : System}
    (ran : execute (next sort) { globals := g } events = some s) : Exclusive s :=
  execute_preserves (fun _ _ _ exclusive moved => exclusive_next exclusive moved) (.inl rfl) ran

/-! ## Cycles -/

/-- What the first call of the private server makes of how its script ends. -/
def called (status : Int32) : List Write × Outcome Exception Globals → List Write × Called
  | (log, .done g) => (log, .returned status g)
  | (log, .threw e g) => (log, if e.isCaught then .returned (-1) g else .aborted e g)

/-- What the fetch makes of its first call. -/
def afterFirst (init : Bool) (r : Responses) : List Write × Called → List Write × Outcome Exception Globals
  | (log, .aborted e g) => (log, .threw e g)
  | (log, .returned status g) =>
    if status ≠ 200 then (log, .done (if init then { g with initApiFailed := true } else g))
    else if g.initApiFailed ∧ init = false then
      match callTitanic true r.titanicAgain { g with initApiFailed := false } with
      | (again, .aborted e g') => (log ++ again, .threw e g')
      | (again, .returned _ g') => (log ++ again, .done g')
    else (log, .done g)

/-- What the fetch makes of its second call. -/
def afterAgain : List Write × Outcome Exception Globals → List Write × Outcome Exception Globals
  | (log, .done g) => (log, .done g)
  | (log, .threw e g) => (log, if e.isCaught then .done g else .threw e g)

/-- The rest of a fetch, when nothing else runs. -/
def Fetches : Fetching → Globals → List Write → Outcome Exception Globals → Prop
  | .simulating acts, g, log, result => (log, result) = run Act.exec acts g
  | .endpoints threads, g, log, result => Interleaves Act.exec Exception.isCaught threads g log result
  | .titanic init r acts, g, log, result =>
    (log, result) = afterFirst init r (called r.titanic.users.status (run Act.exec acts g))
  | .titanicAgain acts, g, log, result => (log, result) = afterAgain (run Act.exec acts g)
  | .fetched, g, log, result => log = [] ∧ result = .done g
  | _, _, _, _ => False

theorem fetches_fetchApiData {init : Bool} {r : Responses} {g : Globals} {log : List Write}
    {result : Outcome Exception Globals} (fetches : Fetches (fetchApiData init r g) g log result) :
    FetchApiData r init g log result := by
  unfold fetchApiData at fetches
  unfold FetchApiData
  split at fetches
  · next simulated => rwa [if_pos simulated]
  · next live =>
    rw [if_neg live]
    split at fetches
    · next bancho => rwa [if_pos bancho]
    · next other =>
      rw [if_neg other]
      split at fetches
      · next titanic => rwa [if_pos titanic]
      · next neither =>
        rw [if_neg neither]
        exact Prod.ext fetches.1 fetches.2

theorem callTitanic_eq (init : Bool) (r : TitanicResponse) (g : Globals) :
    callTitanic init r g = called r.users.status (run Act.exec (titanicActs g.application init r) g) := by
  unfold callTitanic titanicActs called
  cases run Act.exec (Titanic.script g.application init r.users r.stats r.avatar).acts g with
  | mk log result => cases result <;> rfl

/-- The second call is made in the state that the first one left. -/
theorem titanicReturned_fetches {init : Bool} {r : Responses} {status : Int32} {s : System} {log : List Write} {g : Globals}
    (later : Fetches (titanicReturned init r status s).fetching (titanicReturned init r status s).globals log (.done g))
    (before : List Write) : (before ++ log, .done g) = afterFirst init r (before, .returned status s.globals) := by
  unfold titanicReturned at later
  simp only [afterFirst]
  split at later
  · next failed =>
    obtain ⟨rfl, same⟩ := later
    rw [if_pos failed, List.append_nil, same]
  · next succeeded =>
    rw [if_neg succeeded]
    split at later
    · next missing =>
      rw [if_pos missing, callTitanic_eq]
      have ran : (log, .done g) = afterAgain (run Act.exec (titanicActs s.globals.application true r.titanicAgain)
          { s.globals with initApiFailed := false }) := later
      generalize run Act.exec (titanicActs s.globals.application true r.titanicAgain)
        { s.globals with initApiFailed := false } = ended at ran
      obtain ⟨again, result⟩ := ended
      cases result with
      | done g' =>
        obtain ⟨rfl, same⟩ := Prod.mk.inj ran
        cases same
        rfl
      | threw e g' =>
        obtain ⟨rfl, same⟩ := Prod.mk.inj ran
        cases caught : e.isCaught <;> rw [caught] at same <;> cases same
        simp only [called, caught, ↓reduceIte]
    · next complete =>
      rw [if_neg complete]
      obtain ⟨rfl, same⟩ := later
      rw [List.append_nil, same]

theorem afterFirst_append (init : Bool) (r : Responses) (status : Int32) (before log : List Write)
    (result : Outcome Exception Globals) : afterFirst init r (called status (before ++ log, result)) =
      (before ++ (afterFirst init r (called status (log, result))).1, (afterFirst init r (called status (log, result))).2) := by
  have returned (status : Int32) (g : Globals) : afterFirst init r (before ++ log, .returned status g) =
      (before ++ (afterFirst init r (log, .returned status g)).1, (afterFirst init r (log, .returned status g)).2) := by
    simp only [afterFirst]
    split
    · rfl
    · split
      · cases callTitanic true r.titanicAgain { g with initApiFailed := false } with
        | mk again ended => cases ended <;> simp only [List.append_assoc]
      · rfl
  cases result with
  | done g => exact returned status g
  | threw e g =>
    cases caught : e.isCaught <;> simp only [called, caught, Bool.false_eq_true, ↓reduceIte]
    · rfl
    · exact returned (-1) g

theorem afterAgain_append (before log : List Write) (result : Outcome Exception Globals) :
    afterAgain (before ++ log, result) = (before ++ (afterAgain (log, result)).1, (afterAgain (log, result)).2) := by
  cases result <;> rfl

/-- The rest of a cycle, when nothing else runs, ends in a state. -/
def Ends (sort : StdSort bySort) : Fetching → Globals → Globals → Prop
  | .waiting, g, g' | .formatted, g, g' => g = g'
  | .formatting, g, g' => updateFormat sort g = .done g'
  | position, g, g' => ∃ log fetched, Fetches position g log (.done fetched) ∧ updateFormat sort fetched = .done g'

theorem threadStep_ends {i : ℕ} {s s' : System} (stepped : threadStep i s = some s') {g : Globals}
    (later : Ends sort s'.fetching s'.globals g) : Ends sort s.fetching s.globals g := by
  unfold threadStep at stepped
  split at stepped
  · next threads position =>
    rw [position]
    obtain ⟨thread, here, stepped⟩ := Option.bind_eq_some_iff.mp stepped
    cases thread with
    | nil => cases stepped
    | cons act rest =>
      rcases advance_cons act rest s.globals with ⟨written, next, ran, advanced⟩ | ⟨e, threw, advanced⟩ <;>
        rw [advanced] at stepped <;> cases stepped
      · obtain ⟨log, fetched, whole, formatted⟩ := later
        exact ⟨_, fetched, Interleaves.step here ran whole, formatted⟩
      · cases caught : e.isCaught <;> simp only [caught, Bool.false_eq_true, ↓reduceIte] at later
        · obtain ⟨log, fetched, none, _⟩ := later
          exact none.elim
        · obtain ⟨log, fetched, whole, formatted⟩ := later
          exact ⟨log, fetched, Interleaves.stop here threw caught whole, formatted⟩
  · cases stepped

theorem titanicReturned_ends {init : Bool} {r : Responses} {status : Int32} {s : System} {g : Globals}
    (later : Ends sort (titanicReturned init r status s).fetching (titanicReturned init r status s).globals g) :
    ∃ log fetched, (log, .done fetched) = afterFirst init r ([], .returned status s.globals) ∧
      updateFormat sort fetched = .done g := by
  have split : ∃ log fetched, Fetches (titanicReturned init r status s).fetching
      (titanicReturned init r status s).globals log (.done fetched) ∧ updateFormat sort fetched = .done g := by
    unfold titanicReturned at later ⊢
    split at later
    · next failed => rwa [if_pos failed]
    · next succeeded =>
      rw [if_neg succeeded]
      split at later
      · next missing => rwa [if_pos missing]
      · next complete => rwa [if_neg complete]
  obtain ⟨log, fetched, rest, formatted⟩ := split
  exact ⟨log, fetched, titanicReturned_fetches rest [], formatted⟩

theorem fetchStep_ends {s s' : System} (stepped : fetchStep sort s = some s') {g : Globals}
    (later : Ends sort s'.fetching s'.globals g) : Ends sort s.fetching s.globals g := by
  unfold fetchStep at stepped
  cases position : s.fetching with
  | waiting | terminated => rw [position] at stepped; cases stepped
  | simulating acts =>
    rw [position] at stepped
    cases acts with
    | nil =>
      cases stepped
      obtain ⟨log, fetched, ⟨rfl, same⟩, formatted⟩ := later
      exact ⟨[], fetched, by rw [Fetches, same]; rfl, formatted⟩
    | cons act rest =>
      rcases advance_cons act rest s.globals with ⟨written, next, ran, advanced⟩ | ⟨e, threw, advanced⟩ <;>
        simp only [advanced] at stepped <;> cases stepped
      · obtain ⟨log, fetched, whole, formatted⟩ := later
        refine ⟨written ++ log, fetched, ?_, formatted⟩
        rw [Fetches, run_cons_ok ran, ← show (log, .done fetched) = run Act.exec rest next from whole]
      · obtain ⟨log, fetched, none, _⟩ := later
        exact none.elim
  | endpoints threads =>
    simp only [position] at stepped
    split at stepped
    · next finished =>
      cases stepped
      obtain ⟨log, fetched, ⟨rfl, same⟩, formatted⟩ := later
      refine ⟨[], fetched, same ▸ Interleaves.done fun thread member => ?_, formatted⟩
      exact List.isEmpty_iff.mp (List.all_eq_true.mp finished thread member)
    · cases stepped
  | titanic init r acts =>
    rw [position] at stepped
    cases acts with
    | nil =>
      cases stepped
      obtain ⟨log, fetched, whole, formatted⟩ := titanicReturned_ends later
      exact ⟨log, fetched, whole, formatted⟩
    | cons act rest =>
      rcases advance_cons act rest s.globals with ⟨written, next, ran, advanced⟩ | ⟨e, threw, advanced⟩ <;>
        simp only [advanced] at stepped <;> cases stepped
      · obtain ⟨log, fetched, whole, formatted⟩ := later
        refine ⟨written ++ log, fetched, ?_, formatted⟩
        rw [Fetches, run_cons_ok ran, afterFirst_append, ← show (log, .done fetched) = afterFirst init r
          (called r.titanic.users.status (run Act.exec rest next)) from whole]
      · cases caught : e.isCaught <;> simp only [caught, Bool.false_eq_true, ↓reduceIte] at later
        · obtain ⟨log, fetched, none, _⟩ := later
          exact none.elim
        · obtain ⟨log, fetched, whole, formatted⟩ := titanicReturned_ends later
          refine ⟨log, fetched, ?_, formatted⟩
          rw [Fetches, run_cons_error threw, called, caught]
          exact whole
  | titanicAgain acts =>
    rw [position] at stepped
    cases acts with
    | nil =>
      cases stepped
      obtain ⟨log, fetched, ⟨rfl, same⟩, formatted⟩ := later
      exact ⟨[], fetched, by rw [Fetches, same]; rfl, formatted⟩
    | cons act rest =>
      rcases advance_cons act rest s.globals with ⟨written, next, ran, advanced⟩ | ⟨e, threw, advanced⟩ <;>
        simp only [advanced] at stepped <;> cases stepped
      · obtain ⟨log, fetched, whole, formatted⟩ := later
        refine ⟨written ++ log, fetched, ?_, formatted⟩
        rw [Fetches, run_cons_ok ran, afterAgain_append, ← show (log, .done fetched) = afterAgain
          (run Act.exec rest next) from whole]
      · cases caught : e.isCaught <;> simp only [caught, Bool.false_eq_true, ↓reduceIte] at later
        · obtain ⟨log, fetched, none, _⟩ := later
          exact none.elim
        · obtain ⟨log, fetched, ⟨rfl, same⟩, formatted⟩ := later
          refine ⟨[], fetched, ?_, formatted⟩
          rw [Fetches, run_cons_error threw, afterAgain, caught, same]
          rfl
  | fetched =>
    simp only [position] at stepped
    split at stepped <;> cases stepped
    exact ⟨[], s.globals, ⟨rfl, rfl⟩, later⟩
  | formatting =>
    simp only [position] at stepped
    split at stepped <;> next formatted =>
      cases stepped
      first
      | exact formatted.trans (congrArg Outcome.done later)
      | exact later.choose_spec.choose_spec.1.elim
  | formatted =>
    rw [position] at stepped
    cases stepped
    exact later

/-- Nothing is being saved. -/
def Reader : Option Handler → Prop
  | none | some .overlay | some .reading => True
  | _ => False

/-- An event in the middle of a cycle that saves nothing. -/
def Reading : Event → Prop
  | .beginCycle _ _ => False
  | .message m => Reader m.handler
  | _ => True

theorem reading_step {s s' : System} {event : Event} (reader : Reader s.handler) (reading : Reading event)
    (stepped : next sort s event = some s') :
    Reader s'.handler ∧ ∀ g, Ends sort s'.fetching s'.globals g → Ends sort s.fetching s.globals g := by
  unfold next at stepped
  split at stepped
  · cases stepped
  · exact reading.elim
  · cases stepped
  · obtain ⟨act, _, handler, _⟩ := threadStep_acts stepped
    exact ⟨handler ▸ reader, fun _ => threadStep_ends stepped⟩
  · refine ⟨?_, fun _ => fetchStep_ends stepped⟩
    rcases fetchStep_cases stepped with ⟨act, _, handler, _⟩ | ⟨_, _, handler⟩ <;> exact handler ▸ reader
  · split at stepped <;> cases stepped
    exact ⟨reading, fun _ => id⟩
  · obtain ⟨h, here, stepped⟩ := Option.bind_eq_some_iff.mp stepped
    rw [here] at reader
    cases h with
    | overlay =>
      simp only [handlerStep] at stepped
      split at stepped <;> cases stepped
      exact ⟨trivial, fun _ => id⟩
    | reading =>
      cases stepped
      exact ⟨trivial, fun _ => id⟩
    | _ => exact reader.elim

theorem ends_of_execute {s s' : System} (reader : Reader s.handler) {events : List Event}
    (reading : ∀ event ∈ events, Reading event) (ran : execute (next sort) s events = some s')
    (ended : s'.fetching = .waiting) : Ends sort s.fetching s.globals s'.globals := by
  induction events generalizing s with
  | nil =>
    cases ran
    rw [ended]
    rfl
  | cons event rest ih =>
    obtain ⟨own, others⟩ := List.forall_mem_cons.mp reading
    obtain ⟨middle, moved, later⟩ := Option.bind_eq_some_iff.mp ran
    obtain ⟨still, back⟩ := reading_step reader own moved
    exact back _ (ih still others later)

theorem fetches_of_ends {init : Bool} {r : Responses} {g g' : Globals} (ends : Ends sort (fetchApiData init r g) g g') :
    ∃ log fetched, Fetches (fetchApiData init r g) g log (.done fetched) ∧ updateFormat sort fetched = .done g' := by
  unfold fetchApiData at ends ⊢
  split at ends
  · next simulated => rwa [if_pos simulated]
  · next live =>
    rw [if_neg live]
    split at ends
    · next bancho => rwa [if_pos bancho]
    · next other =>
      rw [if_neg other]
      split at ends
      · next titanic => rwa [if_pos titanic]
      · next neither => rwa [if_neg neither]

/-- A cycle during which nothing is saved is a cycle of a session. -/
theorem cycle_of_execute {s s' : System} (reader : Reader s.handler) {init : Bool} {r : Responses} {events : List Event}
    (reading : ∀ event ∈ events, Reading event)
    (ran : execute (next sort) { s with fetching := fetchApiData init r s.globals } events = some s')
    (ended : s'.fetching = .waiting) : ∃ log, Cycle sort r init s.globals log (.done s'.globals) := by
  have start : Reader { s with fetching := fetchApiData init r s.globals }.handler := reader
  obtain ⟨log, fetched, rest, formatted⟩ := fetches_of_ends (ends_of_execute start reading ran ended)
  exact ⟨log, .done fetched, fetches_fetchApiData rest, formatted.symm⟩

/-! ## Saving -/

/-- The globals that a handler leaves when nothing else runs. -/
def finish (sort : StdSort bySort) : Option Handler → Globals → Globals
  | none, g | some .overlay, g | some .reading, g => g
  | some (.applying items j), g =>
    ((((Outcome.each applyItem items g).andThen (trackItems j)).andThen (updateFormat sort)).andThen write).state
  | some (.saving j), g => (((trackItems j g).andThen (updateFormat sort)).andThen write).state
  | some (.tracking items), g => (((Outcome.each trackItem items g).andThen (updateFormat sort)).andThen write).state
  | some .formatted, g | some .writing, g => (write g).state

theorem finish_proceed {s : System} {result : Outcome Exception Globals} {rest : Option Handler}
    {later : Globals → Outcome Exception Globals} (same : ∀ g, finish sort rest g = (later g).state) :
    finish sort (s.proceed result rest).handler (s.proceed result rest).globals = (result.andThen later).state := by
  cases result with
  | done g => exact same g
  | threw e g => rfl

theorem handlerStep_finish {s s' : System} {h : Handler} (here : s.handler = some h)
    (stepped : handlerStep sort s h = some s') :
    finish sort s'.handler s'.globals = finish sort s.handler s.globals := by
  rw [here]
  cases h with
  | overlay =>
    simp only [handlerStep] at stepped
    split at stepped <;> cases stepped
    rfl
  | reading | formatted =>
    cases stepped
    rfl
  | applying items j =>
    cases items with
    | nil =>
      simp only [handlerStep] at stepped
      split at stepped <;> cases stepped
      rfl
    | cons item rest =>
      cases stepped
      rw [finish_proceed fun _ => rfl]
      simp only [finish, Outcome.each_cons, Outcome.andThen_assoc]
  | saving j =>
    simp only [handlerStep] at stepped
    simp only [finish, trackItems]
    cases read : message "trackerConfig" j <;> rw [read] at stepped <;> cases stepped <;> rfl
  | tracking items =>
    cases items with
    | nil =>
      cases stepped
      exact finish_proceed fun _ => rfl
    | cons item rest =>
      cases stepped
      rw [finish_proceed fun _ => rfl]
      simp only [finish, Outcome.each_cons, Outcome.andThen_assoc]
  | writing =>
    cases stepped
    have ended : ∀ g, finish sort none g = (Outcome.done g : Outcome Exception Globals).state := fun _ => rfl
    rw [finish_proceed ended, finish]
    cases write s.globals <;> rfl

theorem handlerStep_of_next {s s' : System} (stepped : next sort s .handler = some s') :
    ∃ h, s.handler = some h ∧ handlerStep sort s h = some s' := by
  unfold next at stepped
  cases position : s.fetching <;> rw [position] at stepped
  case terminated => cases stepped
  all_goals exact Option.bind_eq_some_iff.mp stepped

theorem finish_of_execute {s s' : System} {events : List Event} (alone : ∀ event ∈ events, event = .handler)
    (ran : execute (next sort) s events = some s') (ended : s'.handler = none) :
    s'.globals = finish sort s.handler s.globals := by
  induction events generalizing s with
  | nil =>
    cases ran
    rw [ended]
    rfl
  | cons event rest ih =>
    obtain ⟨rfl, others⟩ := List.forall_mem_cons.mp alone
    obtain ⟨middle, moved, later⟩ := Option.bind_eq_some_iff.mp ran
    rw [ih others later]
    obtain ⟨h, here, stepped⟩ := handlerStep_of_next moved
    exact handlerStep_finish here stepped

/-- The handler of `#saveSettings` alone, from its first statement to its last. -/
theorem saveSettings_of_execute {s s' : System} {order : MapOrder} {j : Json} {events : List Event}
    (alone : ∀ event ∈ events, event = .handler)
    (ran : execute (next sort) { s with handler := (Message.saveSettings order j).handler } events = some s')
    (ended : s'.handler = none) : s'.globals = (saveSettings order sort j s.globals).state := by
  rw [finish_of_execute alone ran ended]
  simp only [Message.handler, saveSettings]
  cases incoming j <;> rfl

end OsuTracker.Soundness.ConcurrentCycles
