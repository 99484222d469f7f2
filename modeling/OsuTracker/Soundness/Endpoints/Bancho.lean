import OsuTracker.Soundness.Endpoints.Cycles

/-! # Cycles on the official server

A response offers a field when one of the three threads stores a text other than the empty one in
it. A completed cycle stores exactly the fields its response offers, as current values and, in the
first cycle of a session, as baselines.
-/

namespace OsuTracker.Soundness.Endpoints

open Cxx Model.Core.Config Model.Core.Formatter Model.Core.Session Model.Api Machine.Threads

/-- A completed cycle fetched and formatted, and formatting changes the formatted copy alone. -/
theorem formatted_of_cycle {sort : StdSort bySort} {r : Responses} {init : Bool} {g g' : Globals} {log : List Write}
    (cycle : Cycle sort r init g log (.done g')) : ∃ fetched texts, FetchApiData r init g log (.done fetched) ∧
      updateFormat sort fetched = .done g' ∧ g' = { fetched with arrFormatted := texts } := by
  obtain ⟨outcome, fetch, ended⟩ := cycle
  obtain ⟨fetched, rfl, formatted⟩ := Outcome.andThen_eq_done.mp ended.symm
  obtain ⟨texts, state⟩ := updateFormat_state sort fetched
  rw [formatted] at state
  exact ⟨fetched, texts, fetch, formatted, state⟩

theorem fetch_of_cycle {sort : StdSort bySort} {r : Responses} {init : Bool} {g g' : Globals} {log : List Write}
    (cycle : Cycle sort r init g log (.done g')) :
    ∃ fetched, FetchApiData r init g log (.done fetched) ∧ g'.arr = fetched.arr ∧
      g'.initApiFailed = fetched.initApiFailed := by
  obtain ⟨fetched, texts, fetch, _, rfl⟩ := formatted_of_cycle cycle
  exact ⟨fetched, fetch, rfl, rfl⟩

/-- The settings a session runs with. -/
def Runs (app : AppConfig) (simulated : Bool) (g : Globals) : Prop :=
  g.simulateMode = simulated ∧ g.application = app

theorem Runs.next {sort : StdSort bySort} {app : AppConfig} {simulated : Bool} {r : Responses} {init : Bool}
    {g g' : Globals} {log : List Write} (runs : Runs app simulated g) (cycle : Cycle sort r init g log (.done g')) :
    Runs app simulated g' :=
  have effect : Effect g log g' := cycle_effect cycle
  ⟨effect.simulateMode.trans runs.1, effect.application.trans runs.2⟩

/-- A cycle asks no endpoint: it simulates later cycles, or no server is selected. -/
def Idle (app : AppConfig) (simulated init : Bool) : Prop :=
  simulated = true ∧ init = false ∨
    simulated = false ∧ app.server ≠ Server.bancho ∧ app.server ≠ Server.titanic

theorem idle_cycle {sort : StdSort bySort} {app : AppConfig} {simulated : Bool} {r : Responses} {init : Bool}
    {g g' : Globals} {log : List Write} (runs : Runs app simulated g) (idle : Idle app simulated init)
    (cycle : Cycle sort r init g log (.done g')) : log = [] := by
  obtain ⟨fetched, fetch, _⟩ := fetch_of_cycle cycle
  obtain ⟨rfl, rfl⟩ := runs
  rcases idle with ⟨simulated, rfl⟩ | ⟨live, notBancho, notTitanic⟩
  · simp only [FetchApiData, simulated, ↓reduceIte] at fetch
    exact congrArg Prod.fst fetch
  · simp only [FetchApiData, live, Bool.false_eq_true, ↓reduceIte, notBancho, notTitanic] at fetch
    exact congrArg Prod.fst fetch

/-- The action stores a text other than the empty one. -/
def Stores (key : Str) (act : Act) : Prop :=
  storedKey act = some key ∧ ∀ value setInit, act = .setField key value setInit → value ≠ []

/-- Some thread stores a text other than the empty one. -/
def Offers (threads : List (List Act)) (key : Str) : Prop := ∃ act, InPool threads act ∧ Stores key act

theorem ne_nil_of_holds {key : Str} {act : Act} {g : Globals} (stores : Stores key act) (holds : Holds act g) :
    g.arr.slot key .current ≠ [] ∧ (setsInit act = true → g.arr.slot key .init ≠ []) := by
  obtain ⟨own, nonempty⟩ := stores
  cases act with
  | setField other value setInit =>
    obtain rfl := Option.some.inj own
    have text := nonempty value setInit rfl
    exact ⟨holds.1 ▸ text, fun flagged => holds.2 flagged ▸ text⟩
  | setSum other addends setInit =>
    obtain rfl := Option.some.inj own
    obtain ⟨n, current, init⟩ := holds
    exact ⟨current ▸ stdToString_ne_nil _, fun flagged => init flagged ▸ stdToString_ne_nil _⟩
  | setCompletion completionDenom setInit =>
    obtain rfl := Option.some.inj own
    obtain ⟨x, current, init⟩ := holds
    exact ⟨current ▸ floatToString_ne_nil x, fun flagged => init flagged ▸ floatToString_ne_nil x⟩
  | _ => cases own

section Cycle

variable {sort : StdSort bySort} {r : Responses} {init : Bool} {g g' : Globals} {log : List Write}

theorem bancho_run (live : g.simulateMode = false) (bancho : g.application.server = Server.bancho)
    (cycle : Cycle sort r init g log (.done g')) : ∃ fetched,
    Interleaves Act.exec Exception.isCaught (banchoThreads g.application init r) g log (.done fetched) ∧
      g'.arr = fetched.arr := by
  obtain ⟨fetched, fetch, table, _⟩ := fetch_of_cycle cycle
  simp only [FetchApiData, live, Bool.false_eq_true, ↓reduceIte, bancho] at fetch
  exact ⟨fetched, fetch, table⟩

/-- A cycle writes what its response offers. -/
theorem bancho_written (live : g.simulateMode = false) (bancho : g.application.server = Server.bancho)
    (cycle : Cycle sort r init g log (.done g')) {w : Write} (member : w ∈ log) :
    (w.slot = .init → init = true) ∧ (w.key ∈ baselineKeys → w.slot ≠ .change → w.value ≠ [] →
      Offers (banchoThreads g.application init r) w.key) := by
  obtain ⟨fetched, run, _⟩ := bancho_run live bancho cycle
  obtain ⟨parts, threads, planned⟩ := bancho_planned g.application init r
  rw [threads] at run ⊢
  refine run.forall_log (P := fun w => (w.slot = .init → init = true) ∧ (w.key ∈ baselineKeys → w.slot ≠ .change →
    w.value ≠ [] → Offers (threadsOf parts) w.key)) ?_ w member
  intro act inPool s written next ran w inside
  obtain ⟨_, baseline, current⟩ := write_exec (planned.known inPool) ran inside
  refine ⟨fun slot => planned.init_of_setsInit inPool (baseline slot).2, fun asked kept nonempty => ?_⟩
  refine ⟨act, inPool, ?_, ?_⟩
  · cases slot : w.slot with
    | init => exact (baseline slot).1
    | current => exact (current slot).elim id fun cleared => absurd cleared.2 nonempty
    | change => exact absurd slot kept
  · rintro value setInit rfl
    rw [← value_of_setField ran inside]
    exact nonempty

/-- What a response offers is stored when its cycle completes. -/
theorem bancho_offered (live : g.simulateMode = false) (bancho : g.application.server = Server.bancho)
    (cycle : Cycle sort r init g log (.done g')) {key : Str} (asked : key ∈ baselineKeys)
    (offers : Offers (banchoThreads g.application init r) key) :
    g'.arr.slot key .current ≠ [] ∧ (init = true → g'.arr.slot key .init ≠ []) := by
  obtain ⟨fetched, run, table⟩ := bancho_run live bancho cycle
  obtain ⟨parts, threads, planned⟩ := bancho_planned g.application init r
  rw [threads] at run offers
  obtain ⟨act, inPool, stores⟩ := offers
  have front := planned.front_of_stores inPool stores.1 asked
  have values := ne_nil_of_holds stores (planned.holds run rfl act front)
  rw [planned.setsInit_of_stores front stores.1] at values
  rw [table]
  exact values

/-- Without the init flag every baseline stays. -/
theorem bancho_kept (live : g.simulateMode = false) (bancho : g.application.server = Server.bancho)
    (cycle : Cycle sort r false g log (.done g')) {key : Str} (asked : key ∈ keys) :
    g'.arr.slot key .init = g.arr.slot key .init := by
  obtain ⟨fetched, run, table⟩ := bancho_run live bancho cycle
  obtain ⟨parts, threads, planned⟩ := bancho_planned g.application false r
  rw [threads] at run
  rw [table]
  exact planned.init_kept rfl run asked

end Cycle

end OsuTracker.Soundness.Endpoints
