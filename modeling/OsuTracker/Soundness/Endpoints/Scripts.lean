import OsuTracker.Soundness.Endpoints.Plans
import OsuTracker.Model.Api.Fetch

/-! # The endpoints as planned threads

Whatever a response contains, an endpoint stores a front part of its own list of fields, with the
sums once all addends are stored, before anything that computes differences or throws. The lists
of the three threads of the official server are disjoint, so the threads form a plan; so does the
one thread of the private server, whose stores are complete when none of its readers throws.
-/

namespace OsuTracker.Soundness.Endpoints

open Cxx Model.Core.Config Model.Api Machine.Threads

/-! ## Stages -/

/-- Stores of a part of the fields `fieldKeys`, and what follows them. -/
structure Stage (init : Bool) (fieldKeys : List Str) (front late : List Act) : Prop where
  supply : Supply [] front
  stores : (front.filterMap storedKey).Sublist fieldKeys
  flagged : ∀ act ∈ front, ∀ key, storedKey act = some key → setsInit act = init
  late : ∀ act ∈ late, Late act

def Staged (init : Bool) (fieldKeys : List Str) (acts : List Act) : Prop :=
  ∃ front late, acts = front ++ late ∧ Stage init fieldKeys front late

/-- An action of the front that stores nothing. -/
structure Plain (act : Act) : Prop where
  stores : storedKey act = none
  supplied : ∀ before, Supplied before act

def store (init : Bool) (field : Str × Str) : Act := .setField field.1 field.2 init

theorem filterMap_store (init : Bool) (values : List (Str × Str)) :
    (values.map (store init)).filterMap storedKey = values.map Prod.fst := by
  rw [List.filterMap_map]
  exact List.filterMap_eq_map ▸ rfl

theorem stage_fields (init : Bool) {head : List Act} (values : List (Str × Str)) {fieldKeys : List Str}
    (plain : ∀ act ∈ head, Plain act) (part : (values.map Prod.fst).Sublist fieldKeys) :
    Stage init fieldKeys (head ++ values.map (store init)) [] where
  supply := by
    refine supply_of_forall (fun act member before => ?_) []
    rcases List.mem_append.mp member with inHead | inFields
    · exact (plain act inHead).supplied before
    · obtain ⟨field, _, rfl⟩ := List.mem_map.mp inFields
      trivial
  stores := by
    have nothing : head.filterMap storedKey = [] :=
      List.filterMap_eq_nil_iff.mpr fun act member => (plain act member).stores
    rw [List.filterMap_append, nothing, List.nil_append, filterMap_store]
    exact part
  flagged := by
    intro act member key stores
    rcases List.mem_append.mp member with inHead | inFields
    · rw [(plain act inHead).stores] at stores
      cases stores
    · obtain ⟨field, _, rfl⟩ := List.mem_map.mp inFields
      rfl
  late := nofun

private theorem head_nil : ∀ act ∈ ([] : List Act), Plain act := fun _ none => absurd none List.not_mem_nil

/-- Sums follow the fields they add. -/
theorem Stage.append {init : Bool} {front sums late : List Act} {fieldKeys : List Str} (sumKeys : List Str)
    (stage : Stage init fieldKeys front []) (supply : Supply front sums) (stores : sums.filterMap storedKey = sumKeys)
    (flagged : ∀ act ∈ sums, setsInit act = init) (after : ∀ act ∈ late, Late act) :
    Stage init (fieldKeys ++ sumKeys) (front ++ sums) late where
  supply := supply_append.mpr ⟨stage.supply, supply⟩
  stores := by
    rw [List.filterMap_append, stores]
    exact stage.stores.append_right sumKeys
  flagged := by
    intro act member
    rcases List.mem_append.mp member with old | new
    · exact stage.flagged act old
    · exact fun _ _ => flagged act new
  late := after

theorem Stage.cons {init : Bool} {fieldKeys : List Str} {front late : List Act}
    (stage : Stage init fieldKeys front late) {act : Act} (plain : Plain act) :
    Stage init fieldKeys (act :: front) late where
  supply := ⟨plain.supplied [], stage.supply.more fun _ inside => absurd inside List.not_mem_nil⟩
  stores := by
    rw [List.filterMap_cons_none plain.stores]
    exact stage.stores
  flagged := by
    refine List.forall_mem_cons.mpr ⟨fun key stores => ?_, stage.flagged⟩
    rw [plain.stores] at stores
    cases stores
  late := stage.late

theorem staged_nil (init : Bool) (fieldKeys : List Str) : Staged init fieldKeys [] :=
  ⟨[], [], rfl, trivial, List.nil_sublist _, nofun, nofun⟩

theorem Stage.staged {init : Bool} {fieldKeys : List Str} {front late : List Act}
    (stage : Stage init fieldKeys front late) : Staged init fieldKeys (front ++ late) := ⟨front, late, rfl, stage⟩

theorem Stage.fewer {init : Bool} {fieldKeys more : List Str} {front late : List Act}
    (stage : Stage init fieldKeys front late) (sub : fieldKeys.Sublist more) : Stage init more front late :=
  { stage with stores := stage.stores.trans sub }

/-- Actions after the stores extend a stage. -/
theorem Staged.append_late {init : Bool} {fieldKeys : List Str} {acts more : List Act}
    (staged : Staged init fieldKeys acts) (after : ∀ act ∈ more, Late act) : Staged init fieldKeys (acts ++ more) := by
  obtain ⟨front, late, rfl, stage⟩ := staged
  refine ⟨front, late ++ more, List.append_assoc .., { stage with late := ?_ }⟩
  intro act member
  rcases List.mem_append.mp member with old | new
  · exact stage.late act old
  · exact after act new

/-- What follows the stores of a call that stores all its fields at once. -/
inductive Closing : Act → Prop
  | calcEntry (i : ℕ) : Closing (.calcEntry i)
  | raise (e : Exception) : Closing (.raise e)

theorem Closing.late {act : Act} (closing : Closing act) : Late act := by
  cases closing <;> exact ⟨nofun, rfl, nofun⟩

theorem closing_calcDifference : ∀ act ∈ calcDifference, Closing act := by
  intro act member
  obtain ⟨i, _, rfl⟩ := List.mem_map.mp member
  exact .calcEntry i

theorem late_calcDifference : ∀ act ∈ calcDifference, Late act := fun act member =>
  (closing_calcDifference act member).late

/-- A stage that only differences and an exception follow. -/
def Closed (init : Bool) (fieldKeys : List Str) (acts : List Act) : Prop :=
  ∃ front late, acts = front ++ late ∧ Stage init fieldKeys front late ∧ ∀ act ∈ late, Closing act

theorem Closed.staged {init : Bool} {fieldKeys : List Str} {acts : List Act} (closed : Closed init fieldKeys acts) :
    Staged init fieldKeys acts :=
  let ⟨front, late, split, stage, _⟩ := closed
  ⟨front, late, split, stage⟩

theorem Closed.acts {init : Bool} {fieldKeys : List Str} {α : Type} {script : Script α}
    (closed : Closed init fieldKeys script.1) : Closed init fieldKeys script.acts := by
  obtain ⟨front, late, split, stage, closing⟩ := closed
  obtain ⟨acts, result⟩ := script
  subst split
  cases result with
  | ok a => exact ⟨front, late, List.append_nil _, stage, closing⟩
  | error e =>
    have ended : ∀ act ∈ late ++ [Act.raise e], Closing act :=
      List.forall_mem_append.mpr ⟨closing, by simpa using Closing.raise e⟩
    exact ⟨front, late ++ [.raise e], List.append_assoc .., { stage with late := fun act member =>
      (ended act member).late }, ended⟩

theorem Stage.closed {init : Bool} {fieldKeys : List Str} {front : List Act} (stage : Stage init fieldKeys front []) :
    Closed init fieldKeys front := ⟨front, [], (List.append_nil front).symm, stage, nofun⟩

/-- An exception comes after everything the function did. -/
theorem Staged.acts {init : Bool} {fieldKeys : List Str} {α : Type} {script : Script α}
    (staged : Staged init fieldKeys script.1) : Staged init fieldKeys script.acts := by
  refine staged.append_late fun act member => ?_
  split at member
  · cases member
  · rw [List.mem_singleton.mp member]
    exact (Closing.raise _).late

theorem planned_of_stages {init : Bool} {parts : List (List Act × List Act)} {fieldKeys : List (List Str)}
    (stages : List.Forall₂ (fun part own => Stage init own part.1 part.2) parts fieldKeys)
    (distinct : fieldKeys.flatten.Nodup) (baseline : ∀ key ∈ fieldKeys.flatten, key ∈ baselineKeys) :
    Planned init parts := by
  have sub : ((fronts parts).filterMap storedKey).Sublist fieldKeys.flatten := by
    clear distinct baseline
    induction stages with
    | nil => exact List.nil_sublist _
    | cons first _ ih =>
      rw [fronts, List.flatMap_cons, List.filterMap_append, List.flatten_cons]
      exact first.stores.append ih
  have each : ∀ part ∈ parts, ∃ own, Stage init own part.1 part.2 := by
    clear distinct baseline sub
    induction stages with
    | nil => nofun
    | cons first _ ih => exact List.forall_mem_cons.mpr ⟨⟨_, first⟩, ih⟩
  exact {
    supply := fun part member => (each part member).elim fun _ stage => stage.supply
    unique := distinct.sublist sub
    stores := fun key member => baseline key (sub.subset member)
    flagged := fun part member => (each part member).elim fun _ stage => stage.flagged
    late := fun part member => (each part member).elim fun _ stage => stage.late }

/-! ## Walking a script -/

section Walk

variable {Q : List Act → Except Exception Unit → Prop} {α : Type}

/-- What holds of the actions and of the result of a script. -/
def Meets (Q : List Act → Except Exception Unit → Prop) (script : Script Unit) : Prop := Q script.1 script.2

theorem walk_read (result : Except Exception α) {next : α → Script Unit} (stop : ∀ e, Q [] (.error e))
    (go : ∀ a, result = .ok a → Meets Q (next a)) : Meets Q (Script.read result >>= next) := by
  cases result with
  | ok a => exact go a rfl
  | error e => exact stop e

theorem walk_emit {acts : List Act} {next : Unit → Script Unit}
    (go : Meets (fun later => Q (acts ++ later)) (next ())) : Meets Q (Script.emit acts >>= next) := go

/-- Fields stored in order, up to the first that cannot be read. -/
theorem storeFields_eq (fields : List Field) (source : Json) (init : Bool) {P : Str → Str → Prop}
    (typed : ∀ field ∈ fields, ∀ text, field.2 source = .ok text → P field.1 text) :
    ∃ values : List (Str × Str), (∀ value ∈ values, P value.1 value.2) ∧
      (values.map Prod.fst).Sublist (fields.map Prod.fst) ∧
      (storeFields fields source init).1 = values.map (store init) ∧
      ((storeFields fields source init).2 = .ok () → values.map Prod.fst = fields.map Prod.fst) := by
  induction fields with
  | nil => exact ⟨[], nofun, List.nil_sublist _, rfl, fun _ => rfl⟩
  | cons field rest ih =>
    obtain ⟨own, others⟩ := List.forall_mem_cons.mp typed
    cases text : field.2 source with
    | error e =>
      have stopped : storeFields (field :: rest) source init = ([], .error e) := by
        rw [storeFields_cons, text]
      refine ⟨[], nofun, List.nil_sublist _, by rw [stopped]; rfl, fun returned => ?_⟩
      rw [stopped] at returned
      cases returned
    | ok value =>
      obtain ⟨values, inside, part, acts, complete⟩ := ih others
      have stored : storeFields (field :: rest) source init =
          (.setField field.1 value init :: (storeFields rest source init).1, (storeFields rest source init).2) := by
        rw [storeFields_cons, text]
      refine ⟨(field.1, value) :: values, List.forall_mem_cons.mpr ⟨own value text, inside⟩, part.cons_cons _, ?_, ?_⟩
      · rw [stored, acts]
        rfl
      · intro returned
        rw [stored] at returned
        rw [List.map_cons, List.map_cons, complete returned]

theorem walk_fields {fields : List Field} {source : Json} {init : Bool} {next : Unit → Script Unit}
    {P : Str → Str → Prop} (typed : ∀ field ∈ fields, ∀ text, field.2 source = .ok text → P field.1 text)
    (stop : ∀ values : List (Str × Str), (∀ value ∈ values, P value.1 value.2) →
      (values.map Prod.fst).Sublist (fields.map Prod.fst) → ∀ e, Q (values.map (store init)) (.error e))
    (go : ∀ values : List (Str × Str), (∀ value ∈ values, P value.1 value.2) →
      values.map Prod.fst = fields.map Prod.fst →
      Meets (fun later => Q (values.map (store init) ++ later)) (next ())) :
    Meets Q (storeFields fields source init >>= next) := by
  obtain ⟨values, inside, part, acts, complete⟩ := storeFields_eq fields source init typed
  cases result : (storeFields fields source init).2 with
  | error e =>
    have whole : (storeFields fields source init >>= next) = (values.map (store init), .error e) := by
      simp only [Bind.bind, result, acts]
      rfl
    rw [whole]
    exact stop values inside part e
  | ok done =>
    have whole : (storeFields fields source init >>= next) =
        (values.map (store init) ++ (next ()).1, (next ()).2) := by
      simp only [Bind.bind, result, acts]
      rfl
    rw [whole]
    exact go values inside (complete result)

end Walk

/-! ## The official server -/

theorem plain_setUsername (name : Str) : Plain (.setUsername name) := ⟨rfl, fun _ => trivial⟩

theorem plain_refreshAvatar (url : Str) (download : Option (List UInt8)) : Plain (.refreshAvatar url download) :=
  ⟨rfl, fun _ => trivial⟩

/-- The addends of the sums that both servers store. -/
def gradeKeys : List Str := Bancho.gradeFields.map Prod.fst

def gradeSumKeys : List Str := ["totalSS", "totalS", "clears"]

theorem supply_gradeSums (front : List Act) (ints : ∀ key ∈ gradeKeys, ∃ act ∈ front, IntStore key act) (init : Bool) :
    Supply front (Bancho.gradeSums init) := by
  simp only [gradeKeys, Bancho.gradeFields, Bancho.intField, List.map_cons, List.map_nil, List.forall_mem_cons] at ints
  obtain ⟨silverSS, goldSS, silverS, goldS, a, _⟩ := ints
  have later {before more : List Act} {key : Str} (stored : ∃ act ∈ before, IntStore key act) :
      ∃ act ∈ before ++ more, IntStore key act :=
    stored.imp fun _ inside => ⟨List.mem_append_left _ inside.1, inside.2⟩
  have now {before : List Act} {key : Str} (addends : List Str) :
      ∃ act ∈ before ++ [Act.setSum key addends init], IntStore key act :=
    ⟨_, List.mem_append_right _ List.mem_cons_self, rfl⟩
  simp only [Bancho.gradeSums, Supply, Supplied, List.forall_mem_cons, List.not_mem_nil, false_imp_iff, implies_true,
    and_true]
  exact ⟨⟨silverSS, goldSS⟩, ⟨later silverS, later goldS⟩, later (now _), now _, later (later a)⟩

theorem intStore_of_values {values : List (Str × Str)} {fieldKeys : List Str} (complete : values.map Prod.fst = fieldKeys)
    {key : Str} (member : key ∈ fieldKeys) (typed : ∀ value ∈ values, value.1 = key → ∃ n : Int32, value.2 = stdToString n.toInt)
    (init : Bool) : ∃ act ∈ values.map (store init), IntStore key act := by
  rw [← complete] at member
  obtain ⟨value, inside, rfl⟩ := List.mem_map.mp member
  exact ⟨_, List.mem_map_of_mem inside, rfl, typed value inside rfl⟩

def apiKeys : List Str := Bancho.statisticsFields.map Prod.fst ++ gradeKeys

theorem int_of_intField {key member : Str} {source : Json} {text : Str}
    (read : (Bancho.intField key member).2 source = .ok text) : ∃ n : Int32, text = stdToString n.toInt := by
  obtain ⟨n, _, rfl⟩ := map_eq_ok read
  exact ⟨n, rfl⟩

theorem int_of_gradeFields {source : Json} : ∀ field ∈ Bancho.gradeFields, ∀ text, field.2 source = .ok text →
    ∃ n : Int32, text = stdToString n.toInt := by
  simp only [Bancho.gradeFields, List.forall_mem_cons, List.not_mem_nil, false_imp_iff, implies_true, and_true]
  exact ⟨fun _ => int_of_intField, fun _ => int_of_intField, fun _ => int_of_intField, fun _ => int_of_intField,
    fun _ => int_of_intField⟩

theorem api_closed (app : AppConfig) (init : Bool) (r : Http) (avatar : Option (List UInt8)) :
    Closed init (apiKeys ++ gradeSumKeys) (Bancho.api app init r avatar).1 := by
  let Q (acts : List Act) (_ : Except Exception Unit) : Prop := Closed init (apiKeys ++ gradeSumKeys) acts
  have fields {head : List Act} (plain : ∀ act ∈ head, Plain act) (values : List (Str × Str))
      (part : (values.map Prod.fst).Sublist apiKeys) :
      Closed init (apiKeys ++ gradeSumKeys) (head ++ values.map (store init)) := by
    have stage := (stage_fields init values plain part).fewer (List.sublist_append_left apiKeys gradeSumKeys)
    exact stage.closed
  have empty : Closed init (apiKeys ++ gradeSumKeys) [] := ⟨[], [], rfl, ⟨trivial, List.nil_sublist _, nofun, nofun⟩, nofun⟩
  have user (name : Str) : ∀ act ∈ [Act.setUsername name], Plain act := by
    simpa using plain_setUsername name
  have profile (name url : Str) : ∀ act ∈ [Act.setUsername name, .refreshAvatar url avatar], Plain act := by
    simpa using ⟨plain_setUsername name, plain_refreshAvatar url avatar⟩
  suffices meets : Meets Q (Bancho.api app init r avatar) from meets
  unfold Bancho.api
  split
  · exact empty
  split
  · exact empty
  refine walk_read _ (fun _ => empty) fun j _ => ?_
  split
  · exact empty
  next st _ =>
  refine walk_read _ (fun _ => empty) fun gc _ => walk_read _ (fun _ => empty) fun name _ => walk_emit ?_
  refine walk_read _ (fun _ => ?_) fun url _ => walk_emit ?_
  · simpa [Q] using fields (user name) [] (List.nil_sublist _)
  refine walk_fields (P := fun _ _ => True) (fun _ _ _ _ => trivial) ?_ fun statistics _ listed => ?_
  · intro values _ part e
    simpa [Q] using fields (profile name url) values (part.trans (List.sublist_append_left _ gradeKeys))
  refine walk_fields (P := fun _ text => ∃ n : Int32, text = stdToString n.toInt) int_of_gradeFields ?_ ?_
  · intro values _ part e
    have stage := fields (profile name url) (statistics ++ values)
      (by rw [List.map_append, listed]; exact part.append_left _)
    simpa [Q] using stage
  · intro grades ints complete
    have stage : Stage init apiKeys _ [] := stage_fields init (statistics ++ grades) (profile name url)
      (by rw [List.map_append, listed, complete, apiKeys, gradeKeys])
    have supply := supply_gradeSums ([.setUsername name, .refreshAvatar url avatar] ++
      (statistics ++ grades).map (store init)) ?_ init
    · have whole : Closed init _ _ :=
        ⟨_, _, rfl, stage.append gradeSumKeys supply rfl ?_ late_calcDifference, closing_calcDifference⟩
      · simpa only [Q, Meets, Script.emit, List.map_append, List.append_assoc, List.cons_append, List.nil_append]
          using whole
      · simp [Bancho.gradeSums, setsInit]
    · intro key member
      obtain ⟨act, inside, stores⟩ := intStore_of_values complete member (fun value inside _ => ints value inside) init
      exact ⟨act, by simp [inside], stores⟩

theorem api_staged (app : AppConfig) (init : Bool) (r : Http) (avatar : Option (List UInt8)) :
    Staged init (apiKeys ++ gradeSumKeys) (Bancho.api app init r avatar).1 := (api_closed app init r avatar).staged

/-- The score ranking: one field with a baseline, the target after it. -/
theorem respektiveApi_staged (init : Bool) (user target : Http) :
    Staged init ["scoreRank"] (Bancho.respektiveApi init user target).1 := by
  let Q (acts : List Act) (_ : Except Exception Unit) : Prop := Staged init ["scoreRank"] acts
  have targetField (key : Str) (isTarget : key ∈ targetKeys) (value : Str) : Late (.setField key value false) :=
    ⟨fun _ same => Option.some.inj same ▸ isTarget, rfl, nofun⟩
  have cleared (key : Str) (isTarget : key ∈ targetKeys) : Late (.clearInvalid key) :=
    ⟨nofun, rfl, fun _ same => Act.clearInvalid.inj same ▸ isTarget⟩
  have rank (value : Str) {more : List Act} (late : ∀ act ∈ more, Late act) :
      Staged init ["scoreRank"] (Act.setField "scoreRank" value init :: calcDifference ++ more) := by
    have stage := stage_fields init [("scoreRank", value)] (head_nil) (List.Sublist.refl (["scoreRank"] : List Str))
    exact (stage.staged.append_late late_calcDifference).append_late late
  have empty : Staged init ["scoreRank"] [] := staged_nil ..
  suffices meets : Meets Q (Bancho.respektiveApi init user target) from meets
  unfold Bancho.respektiveApi
  refine walk_read _ (fun _ => empty) fun body _ => ?_
  split
  · exact empty
  next u _ =>
  refine walk_read _ (fun _ => empty) fun scoreRank _ => walk_emit ?_
  refine walk_read _ (fun _ => ?_) fun other _ => ?_
  · exact rank _ nofun
  split
  · exact rank _ nofun
  next t _ =>
  refine walk_read _ (fun _ => rank _ nofun) fun targetRank _ => walk_emit ?_
  have first := targetField "targetRank" (by decide) (stdToString targetRank.toInt)
  refine walk_read _ (fun _ => rank _ (by simpa using first)) fun targetUser _ => walk_emit ?_
  have second := targetField "targetUser" (by decide) targetUser
  refine walk_read _ (fun _ => rank _ (by simpa using ⟨first, second⟩)) fun targetScore _ => ?_
  refine walk_read _ (fun _ => rank _ (by simpa using ⟨first, second⟩)) fun score _ => ?_
  have third := targetField "targetScore" (by decide) (stdToString (targetScore - score).toInt)
  have fourth := cleared "targetRank" (by decide)
  have fifth := cleared "targetScore" (by decide)
  have late : ∀ act ∈ [Act.setField "targetRank" (stdToString targetRank.toInt) false, .setField "targetUser" targetUser false,
      .setField "targetScore" (stdToString (targetScore - score).toInt) false, .clearInvalid "targetRank",
      .clearInvalid "targetScore"], Late act := by
    simp only [List.forall_mem_cons]
    exact ⟨first, second, third, fourth, fifth, nofun⟩
  exact rank _ late

def inspectorKeys : List Str := Bancho.inspectorFields.map Prod.fst

theorem inspectorApi_staged (init : Bool) (r : Http) : Staged init inspectorKeys (Bancho.inspectorApi init r).1 := by
  let Q (acts : List Act) (_ : Except Exception Unit) : Prop := Staged init inspectorKeys acts
  have fields {values : List (Str × Str)} (part : (values.map Prod.fst).Sublist inspectorKeys) :
      Staged init inspectorKeys (values.map (store init)) := by
    simpa using (stage_fields init values head_nil part).staged
  have empty : Staged init inspectorKeys [] := staged_nil ..
  suffices meets : Meets Q (Bancho.inspectorApi init r) from meets
  unfold Bancho.inspectorApi
  split
  · exact empty
  refine walk_read _ (fun _ => empty) fun j _ => ?_
  split
  · refine walk_fields (P := fun _ _ => True) (fun _ _ _ _ => trivial) (fun values _ part e => fields part) ?_
    intro values _ complete
    exact (fields (complete ▸ List.Sublist.refl _)).append_late late_calcDifference
  · exact empty

theorem authThread_staged (app : AppConfig) (init : Bool) (r : Responses) :
    Staged init (apiKeys ++ gradeSumKeys) (authThread app init r) := by
  unfold authThread
  split
  · obtain ⟨front, late, acts, stage⟩ := staged_nil init (apiKeys ++ gradeSumKeys)
    have failed : Plain .authFailed := ⟨rfl, fun _ => trivial⟩
    exact ⟨.authFailed :: front, late, congrArg (.authFailed :: ·) acts, stage.cons failed⟩
  · obtain ⟨front, late, acts, stage⟩ := (api_staged app init r.api r.avatar).acts
    have recovered : Plain (.authRecovered init) := ⟨rfl, fun _ => trivial⟩
    exact ⟨.authRecovered init :: front, late, congrArg (.authRecovered init :: ·) acts, stage.cons recovered⟩

/-- The three threads of one cycle. -/
theorem bancho_planned (app : AppConfig) (init : Bool) (r : Responses) :
    ∃ parts, banchoThreads app init r = threadsOf parts ∧ Planned init parts := by
  obtain ⟨front, late, acts, stage⟩ := authThread_staged app init r
  obtain ⟨front', late', acts', stage'⟩ := (respektiveApi_staged init r.respektiveUser r.respektiveTarget).acts
  obtain ⟨front'', late'', acts'', stage''⟩ := (inspectorApi_staged init r.inspector).acts
  refine ⟨[(front, late), (front', late'), (front'', late'')], ?_, ?_⟩
  · simp only [banchoThreads, threadsOf, List.map_cons, List.map_nil, acts, acts', acts'']
  · refine planned_of_stages (.cons stage (.cons stage' (.cons stage'' .nil))) ?_ ?_
    · decide +kernel
    · decide +kernel

/-! ## The private server -/

def titanicFieldKeys : List Str := Titanic.statsFields.map Prod.fst ++ Titanic.rankingFields.map Prod.fst

def titanicSumKeys : List Str := ["totalSS", "totalS", "clears", "totalClears", "completion"]

end OsuTracker.Soundness.Endpoints
