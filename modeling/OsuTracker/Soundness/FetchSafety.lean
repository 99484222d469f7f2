import OsuTracker.Soundness.Endpoints.Errors
import OsuTracker.Soundness.Endpoints.Schedules
import OsuTracker.Soundness.Printing

/-! # The fetch loop survives

Two things kill the loop: a read that is undefined, and a float text without a decimal point. A
table is legible when its floats can be formatted and so can the difference of each from its
baseline; every action of a fetch keeps a table legible when the texts that the responses store
suit it, and a legible table is formatted without an exception.
-/

namespace OsuTracker.Soundness.FetchSafety

open Cxx Model.Core.Config Model.Core.Formatter Model.Core.Session Model.Api Machine.Threads Endpoints Printing

/-! ## Legible tables -/

def Legible (t : StatTable) : Prop :=
  ∀ key ∈ floatKeys, Shows (t.slot key .change) ∧ (t.slot key .init ≠ [] →
    Shows (t.slot key .init) ∧ Comparable (t.slot key .init) (t.slot key .current))

/-- A text to store over a baseline; with the init flag it becomes the baseline. -/
def Suits (init : Bool) (baseline text : Str) : Prop :=
  if init then Shows text else baseline ≠ [] → Comparable baseline text

instance (init : Bool) (baseline text : Str) : Decidable (Suits init baseline text) :=
  inferInstanceAs (Decidable (if init then Shows text else baseline ≠ [] → Comparable baseline text))

theorem keys_of_float {key : Str} (float : key ∈ floatKeys) : key ∈ keys := (List.mem_filter.mp float).1

theorem typeOf_float {key : Str} (float : key ∈ floatKeys) : typeOf key = some .float := by
  simpa using (List.mem_filter.mp float).2

theorem baseline_of_float {key : Str} (float : key ∈ floatKeys) : key ∈ baselineKeys := by
  have all : ∀ key ∈ floatKeys, key ∈ baselineKeys := by decide +kernel
  exact all key float

theorem comparable_nil (baseline : Str) : Comparable baseline [] := ⟨shows_nil, nofun⟩

theorem legible_of_isClear {t : StatTable} (clear : t.IsClear) : Legible t := by
  intro key float
  have empty := (t.isClear_iff.mp clear) key (keys_of_float float)
  rw [empty .change, empty .init]
  exact ⟨shows_nil, fun nonempty => absurd rfl nonempty⟩

/-- A legible table is formatted without an exception. -/
theorem updateFormat_isDone_of_legible (sort : StdSort bySort) {g : Globals} (legible : Legible g.arr) :
    (updateFormat sort g).isDone = true := by
  have single : ∀ kind ∈ initialArr.map DataEntry.kind, kind.dataType = .float → kind.single = false := by
    decide +kernel
  rw [updateFormat_isDone]
  intro e member
  refine formatEntry_isDone _ fun float formatted => ?_
  have key : e.key ∈ floatKeys := List.mem_filter.mpr ⟨g.arr.key_mem_keys member, by simp [typeOf_key g.arr member, float]⟩
  have notSingle : e.single = false := single e.kind (g.arr.compiled ▸ List.mem_map_of_mem member) float
  have baseline : e.init ≠ [] := formatted.resolve_right (by simp [notSingle])
  have texts := legible e.key key
  simp only [g.arr.slot_key member, DataEntry.slot] at texts
  obtain ⟨change, values⟩ := texts
  obtain ⟨init, current⟩ := values baseline
  exact ⟨init, current.1, change⟩

/-! ## One action -/

/-- The difference of comparable texts can be shown. -/
theorem shows_of_calcWrites {t : StatTable} (legible : Legible t) {data : DataEntry} (member : data ∈ t.entries)
    {written : List Write} (ran : calcWrites data = .ok written) {w : Write} (inside : w ∈ written)
    (float : w.key ∈ floatKeys) : Shows w.value := by
  obtain ⟨_, key, differs⟩ := change_of_calcWrites ran inside
  rw [key] at float
  have type : data.dataType = .float := Option.some.inj ((typeOf_key t member).symm.trans (typeOf_float float))
  have baseline : data.init ≠ [] := by
    intro none
    rw [calcWrites, if_pos (.inl none)] at ran
    cases ran
    cases inside
  have texts := (legible data.key float).2
  simp only [t.slot_key member, DataEntry.slot] at texts
  rw [difference, type] at differs
  obtain ⟨x, current, rest⟩ := bind_eq_ok.mp differs
  obtain ⟨y, init, same⟩ := bind_eq_ok.mp rest
  rw [← Option.some.inj (Except.ok.inj same)]
  exact shows_floatToString (Flt.fits_sub binary32 x y) ((texts baseline).2.2 x y current init)

theorem legible_exec {act : Act} (known : Known act) {g next : Globals} {written : List Write}
    (ran : act.exec g = .ok (written, next)) (legible : Legible g.arr)
    (suits : ∀ w ∈ written, w.slot = .current → w.key ∈ floatKeys → storedKey act = some w.key →
      Suits (setsInit act) (g.arr.slot w.key .init) w.value) : Legible next.arr := by
  intro key float
  have asked := keys_of_float float
  have writes := (exec_ok ran).1
  rw [arr_exec ran]
  by_cases stores : storedKey act = some key
  · obtain ⟨value, rfl⟩ := writes_of_storedKey stores writes
    have text := suits ⟨key, .current, value⟩ List.mem_cons_self rfl float stores
    obtain ⟨change, old⟩ := legible key float
    cases flag : setsInit act with
    | false =>
      simp only [flag, Suits, Bool.false_eq_true, ↓reduceIte] at text
      simp only [applyWrites, fieldWrites, Bool.false_eq_true, ↓reduceIte, List.foldl_cons, List.foldl_nil,
        g.arr.slot_setSlot asked asked, reduceCtorEq, and_false, and_self]
      exact ⟨change, fun baseline => ⟨(old baseline).1, text baseline⟩⟩
    | true =>
      simp only [flag, Suits, ↓reduceIte] at text
      simp only [applyWrites, fieldWrites, ↓reduceIte, List.foldl_cons, List.foldl_nil,
        StatTable.slot_setSlot _ asked asked, reduceCtorEq, and_false, and_self]
      exact ⟨change, fun _ => ⟨text, comparable_self text⟩⟩
  · have inTable : ∀ w ∈ written, w.key ∈ keys := fun w member => (write_exec known ran member).1
    have init : (applyWrites g.arr written).slot key .init = g.arr.slot key .init := by
      refine slot_applyWrites_of_not_written g.arr inTable asked ?_
      rintro w member rfl baseline
      exact stores ((write_exec known ran member).2.1 baseline).1
    rw [init]
    constructor
    · rcases slot_applyWrites g.arr inTable asked .change with same | ⟨w, member, rfl, change, text⟩
      · rw [same]
        exact (legible key float).1
      · obtain ⟨i, data, rfl, found, calculated⟩ := calcEntry_of_change writes member change
        rw [text]
        exact shows_of_calcWrites legible (List.mem_of_getElem? found) calculated member float
    · intro baseline
      obtain ⟨shows, comparable⟩ := (legible key float).2 baseline
      refine ⟨shows, ?_⟩
      rcases slot_applyWrites g.arr inTable asked .current with same | ⟨w, member, rfl, current, text⟩
      · rw [same]
        exact comparable
      · obtain ⟨_, empty⟩ := ((write_exec known ran member).2.2 current).resolve_left stores
        rw [text, empty]
        exact comparable_nil _

/-- Whatever an action throws is caught, unless it is there to throw. -/
theorem isCaught_exec {act : Act} (silent : ∀ e, act ≠ .raise e) {g : Globals} {e : Exception}
    (threw : act.exec g = .error e) : e.isCaught = true := by
  have handled (key : Str) : Handled (getIntField g.arr key) := fun _ => isCaught_stoi
  have sum (addends : List Str) (start : Int32) :
      Handled (addends.foldlM (fun total key => (getIntField g.arr key).map (total + ·)) start) := by
    induction addends generalizing start with
    | nil => exact handled_ok start
    | cons key rest ih => exact ((handled key).map _).bind fun next _ => ih next
  have writes : Handled (act.writes g.arr) := by
    cases act with
    | setSum key addends setInit =>
      exact (sum addends 0).map _
    | setCompletion completionDenom setInit => exact (handled _).map _
    | calcEntry i =>
      simp only [Act.writes]
      split
      · exact fun _ => isCaught_calcWrites
      · exact handled_ok _
    | raise e => exact absurd rfl (silent e)
    | _ => exact handled_ok _
  exact writes.map _ e threw

/-! ## Fetches -/

theorem legible_run (init : Bool) {caught : Exception → Bool} {threads : List (List Act)} {g : Globals}
    {log : List Write} {result : Outcome Exception Globals} (run : Interleaves Act.exec caught threads g log result)
    (known : ∀ act, InPool threads act → Known act)
    (flagged : ∀ act, InPool threads act → ∀ key ∈ floatKeys, storedKey act = some key → setsInit act = init)
    (suits : ∀ w ∈ log, w.slot = .current → w.key ∈ floatKeys → Suits init (g.arr.slot w.key .init) w.value)
    (legible : Legible g.arr) : Legible result.state.arr := by
  let P (next : Globals) : Prop :=
    Legible next.arr ∧ (init = false → ∀ key ∈ floatKeys, next.arr.slot key .init = g.arr.slot key .init)
  suffices kept : P result.state from kept.1
  refine run.preserves_logged (P := P) ?_ ⟨legible, fun _ _ _ => rfl⟩
  rintro act inPool s written next logged ⟨legible, baselines⟩ ran
  constructor
  · refine legible_exec (known act inPool) ran legible fun w member current float stores => ?_
    have text := suits w (logged w member) current float
    rw [flagged act inPool w.key float stores]
    cases init with
    | true => exact text
    | false => rwa [baselines rfl w.key float]
  · intro unset key float
    rw [arr_exec ran, ← baselines unset key float]
    refine slot_applyWrites_of_not_written s.arr (fun w member => (write_exec (known act inPool) ran member).1)
      (keys_of_float float) ?_
    rintro w member rfl baseline
    obtain ⟨stores, flag⟩ := (write_exec (known act inPool) ran member).2.1 baseline
    rw [flagged act inPool w.key float stores, unset] at flag
    cases flag

/-- The mode has a name when the profile is asked for, and the stored floats suit. -/
structure BanchoHarmless (init : Bool) (g : Globals) (r : Responses) : Prop where
  named : Bancho.apiAuth r.auth = 200 → Named g.application.gameMode
  texts : ∀ key ∈ floatKeys, ∀ text, InPool (banchoThreads g.application init r) (.setField key text init) →
    Suits init (g.arr.slot key .init) text

theorem bancho_safe {init : Bool} {g : Globals} {r : Responses} {log : List Write} {result : Outcome Exception Globals}
    (harmless : BanchoHarmless init g r) (legible : Legible g.arr)
    (run : Interleaves Act.exec Exception.isCaught (banchoThreads g.application init r) g log result) :
    result.isDone = true ∧ Legible result.state.arr := by
  have direct (act : Act) (inPool : InPool (banchoThreads g.application init r) act) :
      Direct act ∨ ∃ e, act = .raise e ∧ e.isCaught = true := bancho_direct harmless.named inPool
  have texts := harmless.texts
  obtain ⟨parts, threads, planned⟩ := bancho_planned g.application init r
  rw [threads] at run direct texts
  have flagged : ∀ act, InPool (threadsOf parts) act → ∀ key ∈ floatKeys, storedKey act = some key →
      setsInit act = init := fun act inPool key float stores =>
    planned.setsInit_of_stores (planned.front_of_stores inPool stores (baseline_of_float float)) stores
  constructor
  · refine run.isDone (P := fun _ => True) (fun _ _ _ _ _ _ _ => trivial) ?_ trivial
    intro act inPool s e _ threw
    rcases direct act inPool with plain | ⟨own, rfl, caught⟩
    · exact isCaught_exec plain.1 threw
    · cases threw
      exact caught
  · refine legible_run init run (fun act => planned.known) flagged ?_ legible
    refine run.forall_log (P := fun w => w.slot = .current → w.key ∈ floatKeys →
      Suits init (g.arr.slot w.key .init) w.value) ?_
    intro act inPool s written next ran w member current float
    have stores : storedKey act = some w.key := ((write_exec (planned.known inPool) ran member).2.2 current).resolve_right
      fun cleared => planned.uncleared inPool (baseline_of_float float) cleared.1
    rcases direct act inPool with plain | ⟨own, rfl, _⟩
    · obtain ⟨value, setInit, rfl⟩ := plain.2 w.key stores float
      obtain rfl : setInit = init := flagged _ inPool w.key float stores
      rw [value_of_setField ran member]
      exact texts w.key float value inPool
    · cases stores

/-- The response lacks nothing that is read through a constant reference, and its floats suit. -/
structure CallHarmless (init : Bool) (g : Globals) (r : TitanicResponse) : Prop where
  whole : Whole g.application r
  texts : ∀ w ∈ stored g.application init r, w.key ∈ floatKeys → Suits init (g.arr.slot w.key .init) w.value

/-- A call that returned has run its script, to the end or to an exception. -/
theorem run_of_callTitanic {init : Bool} {g next : Globals} {r : TitanicResponse} {log : List Write} {status : Int32}
    (called : callTitanic init r g = (log, .returned status next)) : ∃ result,
      run Act.exec (Titanic.script g.application init r.users r.stats r.avatar).acts g = (log, result) ∧
        result.state = next := by
  unfold callTitanic at called
  cases ran : run Act.exec (Titanic.script g.application init r.users r.stats r.avatar).acts g with
  | mk own result =>
    rw [ran] at called
    cases result with
    | done s =>
      obtain ⟨rfl, same⟩ := Prod.mk.inj called
      exact ⟨_, rfl, (Called.returned.inj same).2⟩
    | threw e s =>
      obtain ⟨rfl, same⟩ := Prod.mk.inj called
      split at same
      · exact ⟨_, rfl, (Called.returned.inj same).2⟩
      · cases same

theorem legible_call {init : Bool} {g next : Globals} {r : TitanicResponse} {log : List Write} {status : Int32}
    (harmless : CallHarmless init g r) (legible : Legible g.arr)
    (called : callTitanic init r g = (log, .returned status next)) (effect : CallEffect init r g log next) :
    Legible next.arr := by
  obtain ⟨result, ran, rfl⟩ := run_of_callTitanic called
  have alone : Interleaves Act.exec (fun _ => false) _ g _ _ :=
    interleaves_run (Titanic.script g.application init r.users r.stats r.avatar).acts g
  have planned := callStores_planned g.application init r (late_afterStores (callStores g.application init r).2)
  rw [ran, script_acts] at alone
  refine legible_run init alone (fun act => planned.known) ?_ ?_ legible
  · intro act inPool key float stores
    exact planned.setsInit_of_stores (planned.front_of_stores inPool stores (baseline_of_float float)) stores
  · obtain ⟨changes, rfl, onlyChanges⟩ := effect.written
    intro w member current float
    rcases List.mem_append.mp member with inStored | inChanges
    · exact harmless.texts w inStored float
    · rw [onlyChanges w inChanges] at current
      cases current

/-- A harmless call returns and leaves a legible table. -/
theorem call_safe {init : Bool} {g : Globals} {r : TitanicResponse} (harmless : CallHarmless init g r)
    (legible : Legible g.arr) : ∃ log status next, callTitanic init r g = (log, .returned status next) ∧
      CallEffect init r g log next ∧ (status = 200 ↔ Returns init r g) ∧ Legible next.arr := by
  obtain ⟨log, status, next, called⟩ := callTitanic_returns init harmless.whole
  rcases callTitanic_spec init r g with ⟨_, _, _, aborted, _⟩ | ⟨log', status', next', called', effect, returns⟩
  · cases (Prod.mk.inj (called.symm.trans aborted)).2
  · exact ⟨log', status', next', called', effect, returns, legible_call harmless legible called' effect⟩

/-- The first call, and the second one if it is made. -/
structure TitanicHarmless (init : Bool) (g : Globals) (r : Responses) : Prop where
  first : CallHarmless init g r.titanic
  again : Returns init r.titanic g → g.initApiFailed = true → init = false → CallHarmless true g r.titanicAgain

theorem titanic_safe {init : Bool} {g : Globals} {r : Responses} (harmless : TitanicHarmless init g r)
    (legible : Legible g.arr) :
    (fetchTitanic init r g).2.isDone = true ∧ Legible (fetchTitanic init r g).2.state.arr := by
  obtain ⟨log, status, next, called, effect, returns, table⟩ := call_safe harmless.first legible
  unfold fetchTitanic
  simp only [called]
  split
  · cases init <;> exact ⟨rfl, table⟩
  · next success =>
    split
    · next missing =>
      obtain ⟨flag, rfl⟩ := missing
      have again := harmless.again (returns.mp (not_not.mp success)) (effect.flag ▸ flag) rfl
      have repeated : CallHarmless true { next with initApiFailed := false } r.titanicAgain := by
        have app : next.application = g.application := effect.application
        exact ⟨app ▸ again.whole, fun w member float => again.texts w (app ▸ member) float⟩
      obtain ⟨log', status', last, second, _, _, legible'⟩ := call_safe repeated table
      rw [second]
      exact ⟨rfl, legible'⟩
    · exact ⟨rfl, table⟩

/-! ## Cycles and loops -/

/-- What the responses of one cycle have to meet, in the state before it. -/
def Harmless (init : Bool) (g : Globals) (r : Responses) : Prop :=
  (g.application.server = Server.bancho → BanchoHarmless init g r) ∧
    (g.application.server = Server.titanic → TitanicHarmless init g r)

variable {sort : StdSort bySort} {init : Bool} {g : Globals}

/-- A harmless cycle completes, and leaves a legible table. -/
theorem cycle_safe (live : g.simulateMode = false) (legible : Legible g.arr) {r : Responses}
    (harmless : Harmless init g r) {log : List Write} {result : Outcome Exception Globals}
    (cycle : Cycle sort r init g log result) : result.isDone = true ∧ Legible result.state.arr := by
  obtain ⟨fetched, fetch, rfl⟩ := cycle
  have safe : fetched.isDone = true ∧ Legible fetched.state.arr := by
    simp only [FetchApiData, live, Bool.false_eq_true, ↓reduceIte] at fetch
    split at fetch
    · next bancho => exact bancho_safe (harmless.1 bancho) legible fetch
    · split at fetch
      · next titanic =>
        rw [(Prod.mk.inj fetch).2]
        exact titanic_safe (harmless.2 titanic) legible
      · rw [(Prod.mk.inj fetch).2]
        exact ⟨rfl, legible⟩
  rw [Outcome.eq_done_of_isDone safe.1, Outcome.andThen_done]
  obtain ⟨texts, state⟩ := updateFormat_state sort fetched.state
  exact ⟨updateFormat_isDone_of_legible sort safe.2, state ▸ safe.2⟩

/-- The responses of a loop, each in the state before its cycle. -/
def AllHarmless : Bool → Globals → List Responses → List Record → Prop
  | init, g, r :: rs, record :: records => Harmless init g r ∧ AllHarmless false record.state rs records
  | _, _, _, _ => True

theorem lastState_cons (g : Globals) (record : Record) (records : List Record) :
    lastState g (record :: records) = lastState record.state records := by
  cases records with
  | nil => rfl
  | cons next rest =>
    have some : (next :: rest).getLast? = .some ((next :: rest).getLast (List.cons_ne_nil next rest)) :=
      List.getLast?_eq_some_getLast _
    simp only [lastState, List.getLast?_cons_cons, some, Option.map_some, Option.getD_some]

/-- However many cycles a loop has completed, the next one completes. -/
theorem nextCycle_isDone (live : g.simulateMode = false) (legible : Legible g.arr) {rs : List Responses}
    {records : List Record} (loop : FetchLoop sort init g rs records) (harmless : AllHarmless init g rs records)
    {r : Responses} (next : Harmless (init && records.isEmpty) (lastState g records) r) {log : List Write}
    {result : Outcome Exception Globals}
    (cycle : Cycle sort r (init && records.isEmpty) (lastState g records) log result) : result.isDone = true := by
  induction loop with
  | nil =>
    simp only [List.isEmpty_nil, Bool.and_true] at next cycle
    exact (cycle_safe live legible next cycle).1
  | @cons init g g' r log rs records first later ih =>
    rw [lastState_cons, List.isEmpty_cons, Bool.and_false] at next cycle
    obtain ⟨_, table⟩ := cycle_safe live legible harmless.1 first
    have effect : Effect g log g' := cycle_effect first
    refine ih (effect.simulateMode.trans live) table harmless.2 ?_ ?_
    · rwa [Bool.false_and]
    · rwa [Bool.false_and]

/-- A player of the inspector with the given completion; the other endpoints do not answer. -/
def inspected (completion : Str) : Responses :=
  { unreachable with inspector := body [("stats", .obj [("completion", .str completion)])] }

/-- A completion of "nan" is stored as it comes, and formatting it throws. -/
theorem nanCompletion_escapes : ∃ r log result, Cycle stableBySort r true {} log result ∧ result.isDone = false :=
  ⟨inspected "nan", _, _, cycle_runCycle stableBySort (inspected "nan") true {}, by decide +kernel⟩

/-- The text of a field in an action, when it is fixed by the response. -/
def fieldText : Act → Option Str
  | .setField _ text _ => some text
  | _ => none

/-- The texts of a response on the official server, checked one by one. -/
theorem banchoHarmless_of_check {r : Responses} (named : Bancho.apiAuth r.auth = 200 → Named g.application.gameMode)
    (check : ∀ act ∈ (banchoThreads g.application init r).flatten, ∀ key ∈ floatKeys, storedKey act = some key →
      ∀ text ∈ fieldText act, Suits init (g.arr.slot key .init) text) : BanchoHarmless init g r where
  named := named
  texts := by
    rintro key float text ⟨thread, listed, member⟩
    exact check _ (List.mem_flatten.mpr ⟨thread, listed, member⟩) key float rfl text rfl

/-- The second cycle of a new player. -/
theorem newPlayer_isDone : (runCycle stableBySort newPlayer (true && (runLoop stableBySort true {} [newPlayer]).isEmpty)
    (lastState {} (runLoop stableBySort true {} [newPlayer]))).2.isDone = true := by
  have loop : FetchLoop stableBySort true {} [newPlayer] _ := loop_runLoop stableBySort (by decide +kernel)
  have first : Harmless true {} newPlayer := ⟨fun _ => banchoHarmless_of_check (by decide) (by decide +kernel), nofun⟩
  have all : AllHarmless true {} [newPlayer] (runLoop stableBySort true {} [newPlayer]) := by
    cases runLoop stableBySort true {} [newPlayer] with
    | nil => trivial
    | cons record records => exact ⟨first, trivial⟩
  have second : Harmless (true && (runLoop stableBySort true {} [newPlayer]).isEmpty)
      (lastState {} (runLoop stableBySort true {} [newPlayer])) newPlayer :=
    ⟨fun _ => banchoHarmless_of_check (by decide +kernel) (by decide +kernel),
      fun titanic => absurd titanic (by decide +kernel)⟩
  exact nextCycle_isDone rfl (legible_of_isClear StatTable.isClear_initial) loop all second
    (cycle_runCycle stableBySort newPlayer _ _)

end OsuTracker.Soundness.FetchSafety
