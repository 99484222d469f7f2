import OsuTracker.Model.Core.Session
import OsuTracker.Soundness.Endpoints.Calls

/-! # What one cycle does

Every cycle, whichever server it asks and however it ends, leaves the table it found with the
writes of its log applied, and the settings as they were. A call of the private server succeeds
exactly when its response can be read, has the right status and `calcDifference` returns.
-/

namespace OsuTracker.Soundness.Endpoints

open Cxx Model.Core.Config Model.Core.Formatter Model.Core.Session Model.Api Machine.Threads

/-! ## Effects -/

/-- A piece of a cycle that wrote `log`. -/
structure Effect (g : Globals) (log : List Write) (next : Globals) : Prop where
  arr : next.arr = applyWrites g.arr log
  known : ∀ w ∈ log, w.key ∈ keys
  application : next.application = g.application
  simulateMode : next.simulateMode = g.simulateMode

theorem Effect.refl (g : Globals) : Effect g [] g := ⟨rfl, nofun, rfl, rfl⟩

theorem Effect.trans {g next last : Globals} {log later : List Write} (first : Effect g log next)
    (second : Effect next later last) : Effect g (log ++ later) last where
  arr := by rw [second.arr, first.arr, applyWrites_append]
  known := List.forall_mem_append.mpr ⟨first.known, second.known⟩
  application := second.application.trans first.application
  simulateMode := second.simulateMode.trans first.simulateMode

/-- A slot after a piece of a cycle has its old text or one from the log. -/
theorem Effect.slot {g next : Globals} {log : List Write} (effect : Effect g log next) {key : Str} (asked : key ∈ keys)
    (slot : Slot) : next.arr.slot key slot = g.arr.slot key slot ∨
      ∃ w ∈ log, w.key = key ∧ w.slot = slot ∧ next.arr.slot key slot = w.value := by
  rw [effect.arr]
  exact slot_applyWrites g.arr effect.known asked slot

theorem effect_of_interleaves {caught : Exception → Bool} {threads : List (List Act)} {g : Globals} {log : List Write}
    {result : Outcome Exception Globals} (run : Interleaves Act.exec caught threads g log result)
    (known : ∀ act, InPool threads act → Known act) : Effect g log result.state where
  arr := run.replay Globals.arr (fun (t : StatTable) (w : Write) => t.setSlot w.key w.slot w.value) fun _ _ _ _ ran => arr_exec ran
  known := run.forall_log fun act inPool _ _ _ ran _ member => (write_exec (known act inPool) ran member).1
  application := run.preserves (P := fun next => next.application = g.application)
    (fun _ _ _ _ _ same ran => (settings_exec ran).1.trans same) rfl
  simulateMode := run.preserves (P := fun next => next.simulateMode = g.simulateMode)
    (fun _ _ _ _ _ same ran => (settings_exec ran).2.trans same) rfl

/-- Formatting adds nothing. -/
theorem Effect.formatted {g next : Globals} {log : List Write} (effect : Effect g log next) (sort : StdSort bySort) :
    Effect g log (updateFormat sort next).state := by
  obtain ⟨texts, state⟩ := updateFormat_state sort next
  rw [state]
  exact ⟨effect.arr, effect.known, effect.application, effect.simulateMode⟩

/-! ## Calls -/

/-- What follows the stores of a call. -/
def afterStores : Except Exception Unit → List Act
  | .ok _ => calcDifference
  | .error e => [.raise e]

theorem closing_afterStores (result : Except Exception Unit) : ∀ act ∈ afterStores result, Closing act := by
  cases result with
  | ok done => exact closing_calcDifference
  | error e =>
    intro act member
    rw [List.mem_singleton.mp member]
    exact .raise e

theorem late_afterStores (result : Except Exception Unit) : ∀ act ∈ afterStores result, Late act :=
  fun act member => (closing_afterStores result act member).late

theorem script_acts (app : AppConfig) (init : Bool) (r : TitanicResponse) :
    (Titanic.script app init r.users r.stats r.avatar).acts =
      (callStores app init r).1 ++ afterStores (callStores app init r).2 := by
  simp only [Titanic.script, Script.acts, Bind.bind]
  cases (Titanic.stores app init r.users r.stats r.avatar).2 <;> simp [Script.emit, afterStores]

/-- What a call leaves. -/
structure CallEffect (init : Bool) (r : TitanicResponse) (g : Globals) (log : List Write) (next : Globals) : Prop
    extends Effect g log next where
  written : ∃ changes, log = stored g.application init r ++ changes ∧ ∀ w ∈ changes, w.slot = .change
  flag : next.initApiFailed = g.initApiFailed

/-- The actions of a call, run to their end or to the first exception. -/
theorem run_script (init : Bool) (r : TitanicResponse) (g : Globals) :
    ∃ log result, run Act.exec (Titanic.script g.application init r.users r.stats r.avatar).acts g = (log, result) ∧
      CallEffect init r g log result.state ∧
      match (callStores g.application init r).2 with
      | .ok _ => (result.isDone = true ↔ Computable (applyWrites g.arr (stored g.application init r))) ∧
          ∀ e s, result = .threw e s → e.isCaught = true
      | .error e => ∃ s, result = .threw e s := by
  obtain ⟨middle, ranStores⟩ := run_callStores g.application init r g
  have planned := callStores_planned g.application init r (late_afterStores (callStores g.application init r).2)
  have acts := script_acts g.application init r
  have whole : Interleaves Act.exec (fun _ => false) _ g _ _ :=
    interleaves_run (Titanic.script g.application init r.users r.stats r.avatar).acts g
  have effect := effect_of_interleaves whole (by rw [acts]; exact fun act inPool => planned.known inPool)
  have quiet : (run Act.exec (Titanic.script g.application init r.users r.stats r.avatar).acts g).2.state.initApiFailed =
      g.initApiFailed := by
    refine whole.preserves (P := fun next => next.initApiFailed = g.initApiFailed) ?_ rfl
    rintro act ⟨thread, inPool, inside⟩ s written next same ran
    rw [List.mem_singleton.mp inPool, acts] at inside
    have silent : act ≠ .authFailed ∧ ∀ init, act ≠ .authRecovered init := by
      rcases List.mem_append.mp inside with front | after
      · exact callStores_quiet front
      · cases result : (callStores g.application init r).2 with
        | ok done =>
          rw [result] at after
          obtain ⟨i, _, rfl⟩ := List.mem_map.mp after
          exact ⟨nofun, nofun⟩
        | error e =>
          rw [result] at after
          rw [List.mem_singleton.mp after]
          exact ⟨nofun, nofun⟩
    rw [initApiFailed_exec silent.1 silent.2 ran, same]
  have table : middle.arr = applyWrites g.arr (stored g.application init r) := by
    have alone : Interleaves Act.exec (fun _ => false) _ g _ _ := interleaves_run (callStores g.application init r).1 g
    rw [ranStores] at alone
    have part : ∀ act, InPool [(callStores g.application init r).1] act → Known act := by
      rintro act ⟨thread, inPool, inside⟩
      rw [List.mem_singleton.mp inPool] at inside
      exact planned.known (inPool_of_front (by simpa [fronts] using inside))
    exact (effect_of_interleaves alone part).arr
  rw [acts, run_append ranStores] at effect quiet ⊢
  cases result : (callStores g.application init r).2 with
  | ok done =>
    obtain ⟨changes, ended, ran, onlyChanges, returns, caught⟩ := run_calcDifference middle
    simp only [result, afterStores, ran] at effect quiet ⊢
    exact ⟨_, _, rfl, { effect with written := ⟨changes, rfl, fun w member => (onlyChanges w member).1⟩, flag := quiet },
      table ▸ returns, caught⟩
  | error e =>
    have raised : run Act.exec [.raise e] middle = ([], .threw e middle) := run_cons_error rfl []
    simp only [result, afterStores, raised] at effect quiet ⊢
    exact ⟨_, _, rfl, { effect with written := ⟨[], rfl, nofun⟩, flag := quiet }, middle, rfl⟩

/-- The call returns the status of a success. -/
def Returns (init : Bool) (r : TitanicResponse) (g : Globals) : Prop :=
  Succeeds g.application r ∧ Computable (applyWrites g.arr (stored g.application init r))

theorem callTitanic_spec (init : Bool) (r : TitanicResponse) (g : Globals) :
    (∃ log e next, callTitanic init r g = (log, .aborted e next) ∧ CallEffect init r g log next) ∨
    ∃ log status next, callTitanic init r g = (log, .returned status next) ∧ CallEffect init r g log next ∧
      (status = 200 ↔ Returns init r g) := by
  obtain ⟨log, result, ran, effect, shape⟩ := run_script init r g
  have readable := callStores_result g.application init r
  unfold callTitanic
  rw [ran]
  cases parsed : (callStores g.application init r).2 with
  | ok done =>
    rw [parsed] at shape
    have succeeds : Succeeds g.application r ↔ r.users.status = 200 := by
      rw [Succeeds, ← readable, parsed]
      exact and_iff_left rfl
    refine .inr ?_
    cases result with
    | done next => exact ⟨log, _, next, rfl, effect, by rw [Returns, succeeds, and_iff_left (shape.1.mp rfl)]⟩
    | threw e next =>
      refine ⟨log, -1, next, by simp only [if_pos (shape.2 e next rfl)], effect, ?_⟩
      have stuck : ¬Computable (applyWrites g.arr (stored g.application init r)) := fun all =>
        absurd (shape.1.mpr all) (by simp)
      exact ⟨fun same => absurd same (by decide), fun both => absurd both.2 stuck⟩
  | error e =>
    rw [parsed] at shape
    obtain ⟨next, rfl⟩ := shape
    have unreadable : ¬Succeeds g.application r := by
      rw [Succeeds, ← readable, parsed]
      exact fun both => nomatch both.2
    by_cases caught : e.isCaught = true
    · refine .inr ⟨log, -1, next, by simp only [if_pos caught], effect, ?_⟩
      exact ⟨fun same => absurd same (by decide), fun both => absurd both.1 unreadable⟩
    · exact .inl ⟨log, e, next, by simp only [if_neg caught], effect⟩

/-! ## Fetches -/

/-- The two calls of a fetch: the second one only after a success that finds an earlier baseline
missing. -/
theorem fetchTitanic_spec (init : Bool) (r : Responses) (g : Globals) :
    ∃ log next, CallEffect init r.titanic g log next ∧
      ((∃ e, fetchTitanic init r g = (log, .threw e next)) ∨
        (¬Returns init r.titanic g ∧
          fetchTitanic init r g = (log, .done (if init then { next with initApiFailed := true } else next))) ∨
        (Returns init r.titanic g ∧ (g.initApiFailed = false ∨ init = true) ∧
          fetchTitanic init r g = (log, .done next)) ∨
        (Returns init r.titanic g ∧ g.initApiFailed = true ∧ init = false ∧
          ∃ again result, fetchTitanic init r g = (log ++ again, result) ∧
            CallEffect true r.titanicAgain { next with initApiFailed := false } again result.state)) := by
  unfold fetchTitanic
  rcases callTitanic_spec init r.titanic g with ⟨log, e, next, called, effect⟩ | ⟨log, status, next, called, effect, returns⟩
  · rw [called]
    exact ⟨log, next, effect, .inl ⟨e, rfl⟩⟩
  · rw [called]
    refine ⟨log, next, effect, ?_⟩
    by_cases success : status = 200
    · by_cases missing : next.initApiFailed = true ∧ init = false
      · refine .inr (.inr (.inr ⟨returns.mp success, effect.flag ▸ missing.1, missing.2, ?_⟩))
        simp only [success, ne_eq, not_true_eq_false, ↓reduceIte, missing, and_self]
        rcases callTitanic_spec true r.titanicAgain { next with initApiFailed := false } with
          ⟨again, e, last, second, effect⟩ | ⟨again, status', last, second, effect, _⟩
        · rw [second]
          exact ⟨again, .threw e last, rfl, effect⟩
        · rw [second]
          exact ⟨again, .done last, rfl, effect⟩
      · refine .inr (.inr (.inl ⟨returns.mp success, ?_, ?_⟩))
        · rw [← effect.flag]
          cases flag : next.initApiFailed <;> cases init <;> simp_all
        · simp only [success, ne_eq, not_true_eq_false, ↓reduceIte, missing]
    · refine .inr (.inl ⟨fun all => success (returns.mpr all), ?_⟩)
      simp only [ne_eq, success, not_false_eq_true, ↓reduceIte]

theorem known_simulate (init : Bool) : ∀ act ∈ Simulate.simulate init, Known act := by
  have fields : ∀ field ∈ Simulate.baseline ++ Simulate.current, field.1 ∈ keys := by decide +kernel
  have setField {field : Str × Str} (inside : field ∈ Simulate.baseline ++ Simulate.current) (setInit : Bool) :
      Known (.setField field.1 field.2 setInit) :=
    ⟨fun _ same => Option.some.inj same ▸ fields field inside, nofun⟩
  intro act member
  cases init with
  | false => cases member
  | true =>
    simp only [Simulate.simulate, ↓reduceIte, List.cons_append, List.mem_cons, List.mem_append, List.mem_map] at member
    rcases member with rfl | (⟨field, inside, rfl⟩ | ⟨field, inside, rfl⟩) | inCalc
    · exact ⟨nofun, nofun⟩
    · exact setField (List.mem_append_left _ inside) true
    · exact setField (List.mem_append_right _ inside) false
    · obtain ⟨i, _, rfl⟩ := List.mem_map.mp inCalc
      exact ⟨nofun, nofun⟩

/-- The flag is no part of what an effect speaks about. -/
theorem Effect.withFlag {g next : Globals} {log : List Write} (effect : Effect g log next) (flag : Bool) :
    Effect g log { next with initApiFailed := flag } :=
  ⟨effect.arr, effect.known, effect.application, effect.simulateMode⟩

theorem fetch_effect {r : Responses} {init : Bool} {g : Globals} {log : List Write} {result : Outcome Exception Globals}
    (fetch : FetchApiData r init g log result) : Effect g log result.state := by
  unfold FetchApiData at fetch
  split at fetch
  · have alone : Interleaves Act.exec (fun _ => false) _ g _ _ := interleaves_run (Simulate.simulate init) g
    rw [← fetch] at alone
    refine effect_of_interleaves alone ?_
    rintro act ⟨thread, inPool, inside⟩
    exact known_simulate init act (List.mem_singleton.mp inPool ▸ inside)
  · split at fetch
    · obtain ⟨parts, threads, planned⟩ := bancho_planned g.application init r
      rw [threads] at fetch
      exact effect_of_interleaves fetch fun act inPool => planned.known inPool
    · split at fetch
      · obtain ⟨first, next, effect, cases_⟩ := fetchTitanic_spec init r g
        rcases cases_ with ⟨e, ran⟩ | ⟨_, ran⟩ | ⟨_, _, ran⟩ | ⟨_, _, _, again, last, ran, second⟩
        · obtain ⟨rfl, rfl⟩ := Prod.mk.inj (fetch.trans ran)
          exact effect.toEffect
        · obtain ⟨rfl, rfl⟩ := Prod.mk.inj (fetch.trans ran)
          cases init with
          | true => exact effect.toEffect.withFlag true
          | false => exact effect.toEffect
        · obtain ⟨rfl, rfl⟩ := Prod.mk.inj (fetch.trans ran)
          exact effect.toEffect
        · obtain ⟨rfl, rfl⟩ := Prod.mk.inj (fetch.trans ran)
          exact (effect.toEffect.withFlag false).trans second.toEffect
      · obtain ⟨rfl, rfl⟩ := Prod.mk.inj fetch
        exact Effect.refl g

/-- A cycle leaves the table it found with its log applied. -/
theorem cycle_effect {sort : StdSort bySort} {r : Responses} {init : Bool} {g : Globals} {log : List Write}
    {result : Outcome Exception Globals} (cycle : Cycle sort r init g log result) : Effect g log result.state := by
  obtain ⟨fetched, fetch, rfl⟩ := cycle
  have effect := fetch_effect fetch
  cases fetched with
  | done next => exact effect.formatted sort
  | threw e next => exact effect

end OsuTracker.Soundness.Endpoints
