import OsuTracker.Soundness.Endpoints.Scripts
import OsuTracker.Soundness.Levels

/-! # The stores of the private server

A call stores all its fields or, when a reader throws, a front part of them. Every text it stores
is a number of the type of its field, so that `calcDifference` can read it back.
-/

namespace OsuTracker.Soundness.Endpoints

open Cxx Model.Core.Config Model.Api Machine.Threads

/-! ## Types of fields -/

def typeOf (key : Str) : Option DataType := (StatTable.initial.find? key).map DataEntry.dataType

theorem typeOf_key (t : StatTable) {e : DataEntry} (member : e ∈ t.entries) : typeOf e.key = some e.dataType := by
  have kind : e.kind ∈ initialArr.map DataEntry.kind := t.compiled ▸ List.mem_map_of_mem member
  obtain ⟨compiled, inside, same⟩ := List.mem_map.mp kind
  have key : compiled.key = e.key := congrArg EntryKind.key same
  have type : compiled.dataType = e.dataType := congrArg EntryKind.dataType same
  rw [typeOf, ← key, StatTable.initial.find?_eq_some inside, Option.map_some, type]

/-- `calcDifference` can read the text of an entry of the type. -/
def Reads : DataType → Str → Prop
  | .string, _ => True
  | .int, text => ∃ n, stoi text = .ok n
  | .float, text => ∃ x, stof text = .ok x
  | .longLong, text => ∃ n, stoll text = .ok n

/-- A number of the type of the field. -/
def Typed (key text : Str) : Prop :=
  match typeOf key with
  | some .int => ∃ n : Int32, text = stdToString n.toInt
  | some .longLong => ∃ n : Int64, text = stdToString n.toInt
  | some .float => text ≠ [] ∧ ∃ x, stof text = .ok x
  | _ => False

theorem Typed.ne_nil {key text : Str} (typed : Typed key text) : text ≠ [] := by
  unfold Typed at typed
  split at typed
  · obtain ⟨n, rfl⟩ := typed
    exact stdToString_ne_nil _
  · obtain ⟨n, rfl⟩ := typed
    exact stdToString_ne_nil _
  · exact typed.1
  · exact typed.elim

theorem Typed.reads {key text : Str} (typed : Typed key text) {type : DataType} (isType : typeOf key = some type) :
    Reads type text := by
  unfold Typed at typed
  rw [isType] at typed
  cases type with
  | int =>
    obtain ⟨n, rfl⟩ := typed
    exact ⟨n, stoi_stdToString n⟩
  | longLong =>
    obtain ⟨n, rfl⟩ := typed
    exact ⟨n, stoll_stdToString n⟩
  | float => exact typed.2
  | string => trivial

theorem typed_int {key : Str} (isInt : typeOf key = some .int) (n : Int32) : Typed key (stdToString n.toInt) := by
  rw [Typed, isInt]
  exact ⟨n, rfl⟩

theorem typed_longLong {key : Str} (isLong : typeOf key = some .longLong) (n : Int64) :
    Typed key (stdToString n.toInt) := by
  rw [Typed, isLong]
  exact ⟨n, rfl⟩

theorem typed_float {key : Str} (isFloat : typeOf key = some .float) {x : Flt} (fits : x.Fits binary32) :
    Typed key (floatToString x) := by
  rw [Typed, isFloat]
  exact ⟨floatToString_ne_nil x, stof_floatToString fits⟩

theorem int_of_typed {key text : Str} (typed : Typed key text) (isInt : typeOf key = some .int) :
    ∃ n : Int32, text = stdToString n.toInt := by
  rwa [Typed, isInt] at typed

/-! ## Typed readers -/

theorem fits_getFloat {j : Json} {x : Flt} (read : j.getFloat = .ok x) : x.Fits binary32 := by
  cases j with
  | int n => cases read; exact Flt.fits_ofInt binary32 n
  | float y => cases read; exact Flt.fits_convert binary32 y
  | bool b => cases read; exact Flt.fits_ofInt binary32 _
  | _ => cases read

/-- A field whose texts have the type of its key. -/
def TypedField (field : Field) : Prop := ∀ source text, field.2 source = .ok text → Typed field.1 text

theorem typedField_int {key : Str} (isInt : typeOf key = some .int) (names : List Str) :
    TypedField (Titanic.intField key names) := by
  intro source text read
  obtain ⟨n, _, rfl⟩ := map_eq_ok read
  exact typed_int isInt n

theorem typedField_longLong {key : Str} (isLong : typeOf key = some .longLong) (member : Str) :
    TypedField (Titanic.longLongField key member) := by
  intro source text read
  obtain ⟨n, _, rfl⟩ := map_eq_ok read
  exact typed_longLong isLong n

theorem typedField_float {key : Str} (isFloat : typeOf key = some .float) (member : Str) :
    TypedField (Titanic.floatField key member) := by
  intro source text read
  obtain ⟨x, got, rfl⟩ := map_eq_ok read
  obtain ⟨j, _, converted⟩ := bind_eq_ok.mp got
  exact typed_float isFloat (fits_getFloat converted)

theorem levelText_typed (score : Int64) : Typed "level" (Bancho.levelText score) := by
  have isFloat : typeOf "level" = some .float := by decide +kernel
  rw [Typed, isFloat]
  refine ⟨printRatio_ne_nil 6 _ _ _, Levels.stof_longDoubleToString (Levels.abs_getLevelFromScore_lt ?_)⟩
  have bound := score.toInt_lt
  exact_mod_cast (by omega : score.toInt ≤ 2 ^ 63)

theorem typed_statsFields : ∀ field ∈ Titanic.statsFields, TypedField field := by
  have ints : ∀ key ∈ (["ppRank", "playcount", "silverSS", "goldSS", "silverS", "goldS", "a", "b", "c", "d",
      "maxCombo", "replayViews"] : List Str), typeOf key = some .int := by decide +kernel
  have longs : ∀ key ∈ (["rankedScore", "totalScore", "playtime", "totalHits"] : List Str),
      typeOf key = some .longLong := by decide +kernel
  have floats : ∀ key ∈ (["pp", "ppv1", "acc"] : List Str), typeOf key = some .float := by decide +kernel
  simp only [List.forall_mem_cons, List.not_mem_nil, false_imp_iff, implies_true, and_true] at ints longs floats
  obtain ⟨ppRank, playcount, silverSS, goldSS, silverS, goldS, a, b, c, d, maxCombo, replayViews⟩ := ints
  obtain ⟨rankedScore, totalScore, playtime, totalHits⟩ := longs
  obtain ⟨pp, ppv1, acc⟩ := floats
  simp only [Titanic.statsFields, List.forall_mem_cons, List.not_mem_nil, false_imp_iff, implies_true, and_true]
  refine ⟨?_, typedField_longLong rankedScore _, typedField_longLong totalScore _, typedField_int ppRank _,
    typedField_float pp _, typedField_float ppv1 _, ?_, typedField_longLong playtime _, typedField_int playcount _,
    typedField_longLong totalHits _, typedField_int silverSS _, typedField_int goldSS _, typedField_int silverS _,
    typedField_int goldS _, typedField_int a _, typedField_int b _, typedField_int c _, typedField_int d _,
    typedField_int maxCombo _, typedField_int replayViews _⟩
  · intro source text read
    obtain ⟨score, _, rfl⟩ := map_eq_ok read
    exact levelText_typed score
  · intro source text read
    obtain ⟨x, _, rfl⟩ := map_eq_ok read
    exact typed_float acc (Flt.fits_mul binary32 _ _)

theorem typed_rankingFields : ∀ field ∈ Titanic.rankingFields, TypedField field := by
  have ints : ∀ key ∈ (["countryRank", "ppv1Rank", "scoreRank"] : List Str), typeOf key = some .int := by
    decide +kernel
  simp only [List.forall_mem_cons, List.not_mem_nil, false_imp_iff, implies_true, and_true] at ints
  obtain ⟨countryRank, ppv1Rank, scoreRank⟩ := ints
  simp only [Titanic.rankingFields, List.forall_mem_cons, List.not_mem_nil, false_imp_iff, implies_true, and_true]
  exact ⟨typedField_int countryRank _, typedField_int ppv1Rank _, typedField_int scoreRank _⟩

/-! ## The script -/

/-- An action that sets the name or the avatar. -/
inductive Profile : Act → Prop
  | name (name : Str) : Profile (.setUsername name)
  | avatar (url : Str) (download : Option (List UInt8)) : Profile (.refreshAvatar url download)

theorem Profile.plain {act : Act} (profile : Profile act) : Plain act := by
  cases profile with
  | name name => exact plain_setUsername name
  | avatar url download => exact plain_refreshAvatar url download

/-- What the stores of a call look like, by its result. -/
def StoresFields (init : Bool) (acts : List Act) (result : Except Exception Unit) : Prop :=
  ∃ (head : List Act) (values : List (Str × Str)), (∀ act ∈ head, Profile act) ∧ (∀ value ∈ values, Typed value.1 value.2) ∧
    match result with
    | .error _ => (values.map Prod.fst).Sublist titanicFieldKeys ∧ acts = head ++ values.map (store init)
    | .ok _ => values.map Prod.fst = titanicFieldKeys ∧
        ∃ denominator, acts = head ++ values.map (store init) ++ Titanic.sums denominator init

theorem titanic_storesFields (app : AppConfig) (init : Bool) (users stats : Http) (avatar : Option (List UInt8)) :
    StoresFields init (Titanic.stores app init users stats avatar).1 (Titanic.stores app init users stats avatar).2 := by
  have stopped {head : List Act} (profile : ∀ act ∈ head, Profile act) (e : Exception) :
      StoresFields init head (.error e) := ⟨head, [], profile, nofun, List.nil_sublist _, by simp⟩
  have user (name : Str) : ∀ act ∈ [Act.setUsername name], Profile act := by
    simpa using Profile.name name
  have profile (name url : Str) : ∀ act ∈ [Act.setUsername name, .refreshAvatar url avatar], Profile act := by
    simpa using ⟨Profile.name name, Profile.avatar url avatar⟩
  suffices meets : Meets (StoresFields init) (Titanic.stores app init users stats avatar) from meets
  unfold Titanic.stores
  refine walk_read _ (stopped nofun) fun j _ => walk_read _ (stopped nofun) fun j2 _ => ?_
  refine walk_read _ (stopped nofun) fun denominator _ => walk_read _ (stopped nofun) fun name _ => walk_emit ?_
  refine walk_read _ (stopped (user name)) fun url _ => walk_emit ?_
  refine walk_read _ (stopped (profile name url)) fun s _ => ?_
  refine walk_fields (fun field member => typed_statsFields field member s) ?_ fun statistics typed listed => ?_
  · intro values typed part e
    exact ⟨_, values, profile name url, typed, part.trans (List.sublist_append_left _ _), rfl⟩
  refine walk_read _ (fun e => ?_) fun rnk _ => ?_
  · exact ⟨_, statistics, profile name url, typed, listed ▸ List.sublist_append_left _ _, by simp⟩
  refine walk_fields (fun field member => typed_rankingFields field member rnk) ?_ fun rankings ranked complete => ?_
  · intro values ranked part e
    refine ⟨_, statistics ++ values, profile name url, List.forall_mem_append.mpr ⟨typed, ranked⟩, ?_, by simp⟩
    rw [List.map_append, listed]
    exact part.append_left _
  · refine ⟨_, statistics ++ rankings, profile name url, List.forall_mem_append.mpr ⟨typed, ranked⟩, ?_,
      denominator, by simp [Script.emit]⟩
    rw [List.map_append, listed, complete, titanicFieldKeys]

end OsuTracker.Soundness.Endpoints
