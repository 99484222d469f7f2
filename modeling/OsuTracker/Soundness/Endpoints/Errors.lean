import OsuTracker.Soundness.Endpoints.Cycles

/-! # Exceptions that the endpoints catch

Every reader of a response throws exceptions that its endpoint catches, with two exceptions: the
official profile indexes the mode names by the game mode, and the private server reads statistics
and rankings through a constant reference, on which a missing member is undefined. So a fetch
returns when the mode has a name, or when the first member that cannot be read is not a missing
one.
-/

namespace OsuTracker.Soundness.Endpoints

open Cxx Model.Core.Config Model.Api Machine.Threads

/-! ## Readers -/

/-- What the computation throws, its endpoint catches. -/
def Handled {α : Type} (result : Except Exception α) : Prop := ∀ e, result = .error e → e.isCaught = true

section Handled

variable {α β : Type}

theorem handled_ok (a : α) : Handled (.ok a : Except Exception α) := nofun

theorem handled_error {e : Exception} (caught : e.isCaught = true) : Handled (.error e : Except Exception α) := by
  intro own same
  cases same
  exact caught

theorem Handled.bind {result : Except Exception α} {next : α → Except Exception β} (first : Handled result)
    (then_ : ∀ a, result = .ok a → Handled (next a)) : Handled (result.bind next) := by
  intro e failed
  rcases bind_eq_error failed with own | ⟨a, read, later⟩
  · exact first e own
  · exact then_ a read e later

theorem Handled.map {result : Except Exception α} (handled : Handled result) (f : α → β) : Handled (result.map f) := by
  cases result with
  | ok a => exact nofun
  | error e => exact handled_error (handled e rfl)

theorem isCaught_of_ne {e : Exception} (other : e ≠ .assertion) : e.isCaught = true := by
  cases e with
  | assertion => exact absurd rfl other
  | _ => rfl

theorem handled_parse (r : Http) : Handled r.parse := by
  unfold Http.parse
  split
  · exact handled_ok _
  · exact handled_error rfl

theorem handled_getInt (j : Json) : Handled j.getInt := by
  cases j with
  | int | float | bool => exact handled_ok _
  | _ => exact handled_error rfl

theorem handled_getLongLong (j : Json) : Handled j.getLongLong := by
  cases j with
  | int | float | bool => exact handled_ok _
  | _ => exact handled_error rfl

theorem handled_getFloat (j : Json) : Handled j.getFloat := by
  cases j with
  | int | float | bool => exact handled_ok _
  | _ => exact handled_error rfl

theorem handled_getString (j : Json) : Handled j.getString := by
  cases j with
  | str => exact handled_ok _
  | _ => exact handled_error rfl

theorem handled_index (key : Str) (j : Json) : Handled (j.index key) := by
  cases j with
  | null | obj => exact handled_ok _
  | _ => exact handled_error rfl

theorem handled_at (key : Str) (j : Json) : Handled (j.at_ key) := by
  cases j with
  | obj members =>
    simp only [Json.at_]
    split
    · exact handled_ok _
    · exact handled_error rfl
  | _ => exact handled_error rfl

theorem handled_value {convert : Json → Except Exception α} (handled : ∀ j, Handled (convert j)) (key : Str)
    (default : α) (j : Json) : Handled (j.value convert key default) := by
  cases j with
  | obj members =>
    simp only [Json.value]
    split
    · exact handled _
    · exact handled_ok _
  | _ => exact handled_error rfl

end Handled

/-! ## The official server -/

/-- The actions of a script satisfy `P`, and what it throws at the end is caught. -/
def Emits {α : Type} (P : Act → Prop) (script : Script α) : Prop := (∀ act ∈ script.1, P act) ∧ Handled script.2

section Emits

variable {α β : Type} {P : Act → Prop}

theorem emits_read {result : Except Exception α} (handled : Handled result) : Emits P (Script.read result) :=
  ⟨nofun, handled⟩

theorem emits_emit {acts : List Act} (all : ∀ act ∈ acts, P act) : Emits P (Script.emit acts) := ⟨all, handled_ok ()⟩

theorem emits_pure (a : α) : Emits P (pure a : Script α) := ⟨nofun, handled_ok a⟩

theorem Emits.bind {script : Script α} {next : α → Script β} (first : Emits P script)
    (then_ : ∀ a, Emits P (next a)) : Emits P (script >>= next) := by
  obtain ⟨acts, result⟩ := script
  cases result with
  | ok a => exact ⟨List.forall_mem_append.mpr ⟨first.1, (then_ a).1⟩, (then_ a).2⟩
  | error e => exact ⟨first.1, handled_error (first.2 e rfl)⟩

theorem emits_storeFields {fields : List Field} {source : Json} {init : Bool}
    (handled : ∀ field ∈ fields, Handled (field.2 source))
    (stores : ∀ key value, P (.setField key value init)) : Emits P (storeFields fields source init) := by
  induction fields with
  | nil => exact emits_pure ()
  | cons field rest ih =>
    obtain ⟨own, others⟩ := List.forall_mem_cons.mp handled
    have later := ih others
    rw [storeFields_cons]
    cases text : field.2 source with
    | ok value => exact ⟨List.forall_mem_cons.mpr ⟨stores _ _, later.1⟩, later.2⟩
    | error e => exact ⟨nofun, handled_error (own e text)⟩

/-- Run to its end or to its exception. -/
theorem Emits.acts {script : Script α} (emits : Emits P script) :
    ∀ act ∈ script.acts, P act ∨ ∃ e, act = .raise e ∧ e.isCaught = true := by
  obtain ⟨acts, result⟩ := script
  intro act member
  rcases List.mem_append.mp member with emitted | raised
  · exact .inl (emits.1 act emitted)
  · cases result with
    | ok a => cases raised
    | error e => exact .inr ⟨e, List.mem_singleton.mp raised, emits.2 e rfl⟩

end Emits

theorem handled_nsMember {α : Type} {read : Json → Except Exception α} (handled : ∀ j, Handled (read j)) (member : Str)
    (default : α) (j : Json) : Handled (match Bancho.nsMember member j with
      | some value => read value
      | none => .ok default) := by
  split
  · exact handled _
  · exact handled_ok _

theorem handled_intField (key member : Str) (j : Json) : Handled ((Bancho.intField key member).2 j) :=
  (handled_nsMember handled_getInt member _ j).map _

theorem handled_floatField (key member : Str) (j : Json) : Handled ((Bancho.floatField key member).2 j) :=
  (handled_nsMember handled_getFloat member _ j).map _

theorem handled_longLongField (key member : Str) (j : Json) : Handled ((Bancho.longLongField key member).2 j) :=
  (handled_nsMember handled_getLongLong member _ j).map _

theorem handled_statisticsFields (j : Json) : ∀ field ∈ Bancho.statisticsFields, Handled (field.2 j) := by
  simp only [Bancho.statisticsFields, List.forall_mem_cons, List.not_mem_nil, false_imp_iff, implies_true, and_true]
  exact ⟨(handled_nsMember handled_getLongLong _ _ j).map _, handled_longLongField _ _ j, handled_longLongField _ _ j,
    handled_intField _ _ j, handled_intField _ _ j, handled_floatField _ _ j, handled_floatField _ _ j,
    handled_longLongField _ _ j, handled_intField _ _ j, handled_intField _ _ j, handled_intField _ _ j,
    handled_longLongField _ _ j⟩

theorem handled_gradeFields (j : Json) : ∀ field ∈ Bancho.gradeFields, Handled (field.2 j) := by
  simp only [Bancho.gradeFields, List.forall_mem_cons, List.not_mem_nil, false_imp_iff, implies_true, and_true]
  exact ⟨handled_intField _ _ j, handled_intField _ _ j, handled_intField _ _ j, handled_intField _ _ j,
    handled_intField _ _ j⟩

theorem handled_inspectorFields (j : Json) : ∀ field ∈ Bancho.inspectorFields, Handled (field.2 j) := by
  simp only [Bancho.inspectorFields, List.forall_mem_cons, List.not_mem_nil, false_imp_iff, implies_true, and_true]
  exact ⟨(handled_value handled_getInt _ _ j).map _, (handled_value handled_getInt _ _ j).map _,
    (handled_value handled_getInt _ _ j).map _, handled_value handled_getString _ _ j,
    handled_value handled_getString _ _ j⟩

def floatKeys : List Str := keys.filter fun key => typeOf key = some .float

/-- Not an exception, and floats are stored as the response has them. -/
def Direct (act : Act) : Prop :=
  (∀ e, act ≠ .raise e) ∧
    ∀ key, storedKey act = some key → key ∈ floatKeys → ∃ value setInit, act = .setField key value setInit

theorem direct_setField (key value : Str) (setInit : Bool) : Direct (.setField key value setInit) := by
  refine ⟨nofun, fun own stores _ => ?_⟩
  obtain rfl := Option.some.inj stores
  exact ⟨value, setInit, rfl⟩

theorem direct_of_unstored {act : Act} (stores : storedKey act = none) (raises : ∀ e, act ≠ .raise e) : Direct act :=
  ⟨raises, fun _ same => absurd (stores.symm.trans same) nofun⟩

theorem direct_setSum {key : Str} (int : key ∉ floatKeys) (addends : List Str) (setInit : Bool) :
    Direct (.setSum key addends setInit) :=
  ⟨nofun, fun _ stores isFloat => absurd (Option.some.inj stores ▸ isFloat) int⟩

theorem direct_calcDifference : ∀ act ∈ calcDifference, Direct act := by
  intro act member
  obtain ⟨i, _, rfl⟩ := List.mem_map.mp member
  exact direct_of_unstored rfl nofun

theorem direct_gradeSums (init : Bool) : ∀ act ∈ Bancho.gradeSums init, Direct act := by
  have ints : ∀ key ∈ gradeSumKeys, key ∉ floatKeys := by decide +kernel
  simp only [gradeSumKeys, List.forall_mem_cons, List.not_mem_nil, false_imp_iff, implies_true, and_true] at ints
  simp only [Bancho.gradeSums, List.forall_mem_cons, List.not_mem_nil, false_imp_iff, implies_true, and_true]
  exact ⟨direct_setSum ints.1 _ _, direct_setSum ints.2.1 _ _, direct_setSum ints.2.2 _ _⟩

/-- The mode has a name. -/
def Named (mode : GameMode) : Prop := 0 ≤ mode ∧ mode < 4

instance (mode : GameMode) : Decidable (Named mode) := inferInstanceAs (Decidable (_ ∧ _))

theorem api_emits {app : AppConfig} (named : Named app.gameMode) (init : Bool) (r : Http)
    (avatar : Option (List UInt8)) : Emits Direct (Bancho.api app init r avatar) := by
  unfold Bancho.api
  split
  · next outside =>
    rcases outside with below | above
    · exact absurd named.1 (Int32.not_le.mpr below)
    · exact absurd named.2 (Int32.not_lt.mpr above)
  split
  · exact emits_pure ()
  refine (emits_read (handled_parse r)).bind fun j => ?_
  split
  · exact emits_pure ()
  refine (emits_read (handled_at _ _)).bind fun gc => ?_
  refine (emits_read ((handled_index _ j).bind fun name _ => handled_getString name)).bind fun username => ?_
  refine (emits_emit fun act member => ?_).bind fun _ => ?_
  · rw [List.mem_singleton.mp member]
    exact direct_of_unstored rfl nofun
  refine (emits_read (handled_value handled_getString _ _ j)).bind fun url => ?_
  refine (emits_emit fun act member => ?_).bind fun _ => ?_
  · rw [List.mem_singleton.mp member]
    exact direct_of_unstored rfl nofun
  refine (emits_storeFields (handled_statisticsFields _) fun key value => direct_setField key value init).bind fun _ => ?_
  refine (emits_storeFields (handled_gradeFields _) fun key value => direct_setField key value init).bind fun _ => ?_
  exact emits_emit (List.forall_mem_append.mpr ⟨direct_gradeSums init, direct_calcDifference⟩)

theorem respektiveApi_emits (init : Bool) (user target : Http) : Emits Direct (Bancho.respektiveApi init user target) := by
  have field {value : Str} {setInit : Bool} {more : List Act} (all : ∀ act ∈ more, Direct act) (key : Str) :
      ∀ act ∈ Act.setField key value setInit :: more, Direct act :=
    List.forall_mem_cons.mpr ⟨direct_setField key value setInit, all⟩
  have nothing : ∀ act ∈ ([] : List Act), Direct act := nofun
  have cleared {more : List Act} (all : ∀ act ∈ more, Direct act) (key : Str) :
      ∀ act ∈ Act.clearInvalid key :: more, Direct act :=
    List.forall_mem_cons.mpr ⟨direct_of_unstored rfl nofun, all⟩
  unfold Bancho.respektiveApi
  refine (emits_read (handled_parse user)).bind fun body => ?_
  split
  · exact emits_pure ()
  refine (emits_read ((handled_index _ _).bind fun rank _ => handled_getInt rank)).bind fun rank => ?_
  refine (emits_emit (field direct_calcDifference _)).bind fun _ => ?_
  refine (emits_read (handled_parse target)).bind fun other => ?_
  split
  · exact emits_pure ()
  refine (emits_read ((handled_index _ _).bind fun rank _ => handled_getInt rank)).bind fun targetRank => ?_
  refine (emits_emit (field nothing _)).bind fun _ => ?_
  refine (emits_read ((handled_index _ _).bind fun name _ => handled_getString name)).bind fun targetUser => ?_
  refine (emits_emit (field nothing _)).bind fun _ => ?_
  refine (emits_read ((handled_index _ _).bind fun score _ => handled_getLongLong score)).bind fun targetScore => ?_
  refine (emits_read ((handled_index _ _).bind fun score _ => handled_getLongLong score)).bind fun score => ?_
  exact emits_emit (field (cleared (cleared nothing _) _) _)

theorem inspectorApi_emits (init : Bool) (r : Http) : Emits Direct (Bancho.inspectorApi init r) := by
  unfold Bancho.inspectorApi
  split
  · exact emits_pure ()
  refine (emits_read (handled_parse r)).bind fun j => ?_
  split
  · refine (emits_storeFields (handled_inspectorFields _) fun key value => direct_setField key value init).bind fun _ => ?_
    exact emits_emit direct_calcDifference
  · exact emits_pure ()

/-- What the three threads run, when the mode has a name or the profile is not asked for. -/
theorem bancho_direct {app : AppConfig} {init : Bool} {r : Responses}
    (named : Bancho.apiAuth r.auth = 200 → Named app.gameMode) {act : Act}
    (inPool : InPool (banchoThreads app init r) act) :
    Direct act ∨ ∃ e, act = .raise e ∧ e.isCaught = true := by
  obtain ⟨thread, listed, member⟩ := inPool
  simp only [banchoThreads, List.mem_cons, List.not_mem_nil, or_false] at listed
  rcases listed with rfl | rfl | rfl
  · unfold authThread at member
    split at member
    · rw [List.mem_singleton.mp member]
      exact .inl (direct_of_unstored rfl fun _ same => by cases same)
    · next authorised =>
      rcases List.mem_cons.mp member with rfl | inside
      · exact .inl (direct_of_unstored rfl fun _ same => by cases same)
      · exact (api_emits (named (not_not.mp authorised)) init r.api r.avatar).acts act inside
  · exact (respektiveApi_emits init r.respektiveUser r.respektiveTarget).acts act member
  · exact (inspectorApi_emits init r.inspector).acts act member

/-! ## The private server -/

/-- The first member that cannot be read is missing. -/
def Lacks (fields : List Field) (source : Json) : Prop :=
  ∃ before field after, fields = before ++ field :: after ∧ (∀ f ∈ before, ∃ text, f.2 source = .ok text) ∧
    field.2 source = .error .assertion

/-- The statistics of the mode, when the response is well formed up to them. -/
def statisticsOf (app : AppConfig) (r : TitanicResponse) : Except Exception Json := do
  let j ← r.users.parse
  let j2 ← r.stats.parse
  let _ ← Titanic.completionDenom app.gameMode j2
  let _ ← (j.index "name").bind Json.getString
  let _ ← j.value Json.getString "avatar_url" (("https://a.titanic.sh/" : Str) ++ stdToString app.activeId.toInt)
  (j.index "stats").bind (Titanic.element app.gameMode)

/-- The rankings of the mode. -/
def rankingsOf (app : AppConfig) (r : TitanicResponse) : Except Exception Json := do
  let j ← r.users.parse
  Titanic.path ["rankings", stdToString app.gameMode.toInt] j

/-- The members that a call reads through a constant reference are there when it gets to them. -/
structure Whole (app : AppConfig) (r : TitanicResponse) : Prop where
  position : app.gameMode ≠ -1
  statistics : ∀ s, statisticsOf app r = .ok s → ¬Lacks Titanic.statsFields s
  rankings : ∀ s rnk, statisticsOf app r = .ok s → (∀ field ∈ Titanic.statsFields, ∃ text, field.2 s = .ok text) →
    rankingsOf app r = .ok rnk → ¬Lacks Titanic.rankingFields rnk

theorem storeFields_error {fields : List Field} {source : Json} {init : Bool} {e : Exception}
    (failed : (storeFields fields source init).2 = .error e) : ∃ before field after, fields = before ++ field :: after ∧
      (∀ f ∈ before, ∃ text, f.2 source = .ok text) ∧ field.2 source = .error e := by
  induction fields with
  | nil => cases failed
  | cons field rest ih =>
    rw [storeFields_cons] at failed
    cases text : field.2 source with
    | ok value =>
      rw [text] at failed
      obtain ⟨before, other, after, rfl, readable, own⟩ := ih failed
      exact ⟨field :: before, other, after, rfl, List.forall_mem_cons.mpr ⟨⟨value, text⟩, readable⟩, own⟩
    | error own =>
      rw [text] at failed
      cases failed
      exact ⟨[], field, rest, rfl, nofun, text⟩

theorem storeFields_ok {fields : List Field} {source : Json} {init : Bool}
    (stored : (storeFields fields source init).2 = .ok ()) : ∀ field ∈ fields, ∃ text, field.2 source = .ok text := by
  induction fields with
  | nil => nofun
  | cons field rest ih =>
    rw [storeFields_cons] at stored
    cases text : field.2 source with
    | ok value =>
      rw [text] at stored
      exact List.forall_mem_cons.mpr ⟨⟨value, text⟩, ih stored⟩
    | error own =>
      rw [text] at stored
      cases stored

theorem handled_storeFields {fields : List Field} {source : Json} {init : Bool} (whole : ¬Lacks fields source) :
    Handled (storeFields fields source init).2 := by
  intro e failed
  refine isCaught_of_ne ?_
  rintro rfl
  exact whole (storeFields_error failed)

theorem handled_path (names : List Str) (j : Json) : Handled (Titanic.path names j) := by
  induction names generalizing j with
  | nil => exact handled_ok j
  | cons name rest ih => exact (handled_index name j).bind fun next _ => ih next

theorem handled_countMaps (mode : Str) (j : Json) : Handled (Titanic.countMaps mode j) := by
  have from_ (members : List Str) (total : Int32) : Handled (members.foldlM (fun total member =>
      ((Titanic.path ["beatmap_modes", mode, member] j).bind Json.getInt).map (total + ·)) total) := by
    induction members generalizing total with
    | nil => exact handled_ok total
    | cons member rest ih =>
      exact (((handled_path _ j).bind fun count _ => handled_getInt count).map _).bind fun next _ => ih next
  exact from_ _ 0

theorem handled_completionDenom (mode : Int32) (j : Json) : Handled (Titanic.completionDenom mode j) := by
  refine (handled_countMaps _ j).bind fun totalMaps _ => ?_
  split
  · exact handled_ok _
  · exact (handled_countMaps _ j).map _

theorem handled_element {position : Int32} (inside : position ≠ -1) (j : Json) : Handled (Titanic.element position j) := by
  unfold Titanic.element
  split
  · cases j with
    | null | arr => exact handled_ok _
    | _ => exact handled_error rfl
  · split <;> exact handled_error rfl

private theorem handled_bind {α β : Type} {script : Script α} {next : α → Script β} (first : Handled script.2)
    (then_ : ∀ a, script.2 = .ok a → Handled (next a).2) : Handled (script >>= next).2 := by
  obtain ⟨acts, result⟩ := script
  cases result with
  | ok a => exact then_ a rfl
  | error e => exact handled_error (first e rfl)

/-- A call on a whole response throws nothing but what it catches. -/
theorem handled_callStores {app : AppConfig} {r : TitanicResponse} (whole : Whole app r) (init : Bool) :
    Handled (callStores app init r).2 := by
  unfold callStores Titanic.stores
  refine handled_bind (handled_parse _) fun j users => handled_bind (handled_parse _) fun j2 stats => ?_
  refine handled_bind (handled_completionDenom _ j2) fun denominator maps => ?_
  refine handled_bind ((handled_index _ j).bind fun name _ => handled_getString name) fun username name => ?_
  refine handled_bind (handled_ok ()) fun _ _ => ?_
  refine handled_bind (handled_value handled_getString _ _ j) fun url avatar => handled_bind (handled_ok ()) fun _ _ => ?_
  refine handled_bind ((handled_index _ j).bind fun all _ => handled_element whole.position all) fun s element => ?_
  have statistics : statisticsOf app r = .ok s :=
    bind_eq_ok.mpr ⟨j, users, bind_eq_ok.mpr ⟨j2, stats, bind_eq_ok.mpr ⟨denominator, maps,
      bind_eq_ok.mpr ⟨username, name, bind_eq_ok.mpr ⟨url, avatar, element⟩⟩⟩⟩⟩
  refine handled_bind (handled_storeFields (whole.statistics s statistics)) fun _ complete => ?_
  refine handled_bind (handled_path _ j) fun rnk path => ?_
  have rankings : rankingsOf app r = .ok rnk := bind_eq_ok.mpr ⟨j, users, path⟩
  refine handled_bind (handled_storeFields (whole.rankings s rnk statistics (storeFields_ok complete) rankings)) ?_
  exact fun _ _ => handled_ok ()

/-- Such a call returns. -/
theorem callTitanic_returns (init : Bool) {r : TitanicResponse} {g : Globals} (whole : Whole g.application r) :
    ∃ log status next, callTitanic init r g = (log, .returned status next) := by
  obtain ⟨log, result, ran, _, shape⟩ := run_script init r g
  have handled := handled_callStores whole init
  unfold callTitanic
  rw [ran]
  cases result with
  | done next => exact ⟨log, _, next, rfl⟩
  | threw e next =>
    have caught : e.isCaught = true := by
      cases parsed : (callStores g.application init r).2 with
      | ok done =>
        rw [parsed] at shape
        exact shape.2 e next rfl
      | error own =>
        rw [parsed] at shape
        obtain ⟨_, same⟩ := shape
        obtain ⟨rfl, rfl⟩ := Outcome.threw.inj same
        exact handled e parsed
    exact ⟨log, -1, next, by simp only [if_pos caught]⟩

end OsuTracker.Soundness.Endpoints
