import OsuTracker.Soundness.Endpoints.Schedules
import OsuTracker.Soundness.Endpoints.TitanicCycles

/-! # Baselines are captured

A session captures its baselines when, at the end of every cycle, each field stored so far has
one. The init flag of the loop is spent on the first cycle. On the official server nothing makes
up for it, so a field must be offered by the first response or never; on the private server the
first later success repeats the call with the flag, and the baselines stand or fall with that
second call.
-/

namespace OsuTracker.Soundness.BaselineCapture

open Cxx Model.Core.Config Model.Core.Formatter Model.Core.Session Model.Api Machine.Threads Endpoints

/-- At the end of every cycle, each field stored with a text has a baseline; `seen` is the log of
the cycles before. -/
def Captured : List Write → List Record → Prop
  | _, [] => True
  | seen, record :: rest =>
    (∀ key ∈ baselineKeys, (∃ w ∈ seen ++ record.log, w.key = key ∧ w.slot = .current ∧ w.value ≠ []) →
      record.state.arr.slot key .init ≠ []) ∧ Captured (seen ++ record.log) rest

instance decidableCaptured : ∀ seen records, Decidable (Captured seen records)
  | _, [] => .isTrue trivial
  | seen, record :: rest =>
    have : Decidable (Captured (seen ++ record.log) rest) := decidableCaptured (seen ++ record.log) rest
    inferInstanceAs (Decidable (_ ∧ _))

/-- A call of the private server stores all fields, or fails before it stores any. -/
def AllOrNothing (app : AppConfig) (r : TitanicResponse) : Prop :=
  Succeeds app r ∨ ∀ init, stored app init r = []

instance (app : AppConfig) (r : TitanicResponse) : Decidable (AllOrNothing app r) :=
  inferInstanceAs (Decidable (_ ∨ _))

/-- The responses from which every baseline is captured. -/
def Kept (g : Globals) : List Responses → Prop
  | [] => True
  | first :: later =>
    if g.simulateMode then True
    else if g.application.server = Server.bancho then
      ∀ key ∈ baselineKeys, (∃ r ∈ later, Offers (banchoThreads g.application false r) key) →
        Offers (banchoThreads g.application true first) key
    else if g.application.server = Server.titanic then
      Succeeds g.application first.titanic ∨
        ∀ r, later.find? (Succeeds g.application ·.titanic) = some r → Succeeds g.application r.titanicAgain
    else True

variable {sort : StdSort bySort}

/-- Later cycles capture when they store fields of a set only whose baselines are there and stay. -/
theorem captured_of_kept {app : AppConfig} {simulated : Bool} (fields : Str → Prop) {g : Globals} {rs : List Responses}
    {records : List Record} {seen : List Write} (run : FetchLoop sort false g rs records) (runs : Runs app simulated g)
    (step : ∀ r ∈ rs, ∀ g log g', Runs app simulated g → Cycle sort r false g log (.done g') →
      (∀ key ∈ baselineKeys, g.arr.slot key .init ≠ [] → g'.arr.slot key .init ≠ []) ∧
        ∀ w ∈ log, w.key ∈ baselineKeys → w.slot = .current → w.value ≠ [] → fields w.key)
    (inits : ∀ key ∈ baselineKeys, fields key → g.arr.slot key .init ≠ [])
    (old : ∀ w ∈ seen, w.key ∈ baselineKeys → w.slot = .current → w.value ≠ [] → fields w.key) :
    Captured seen records := by
  induction rs generalizing g records seen with
  | nil => cases run; trivial
  | cons r rest ih =>
    cases run with
    | @cons _ _ g' _ log _ records cycle later =>
      obtain ⟨kept, stores⟩ := step r List.mem_cons_self g log g' runs cycle
      have inits' : ∀ key ∈ baselineKeys, fields key → g'.arr.slot key .init ≠ [] :=
        fun key asked inside => kept key asked (inits key asked inside)
      have all : ∀ w ∈ seen ++ log, w.key ∈ baselineKeys → w.slot = .current → w.value ≠ [] → fields w.key :=
        List.forall_mem_append.mpr ⟨old, stores⟩
      refine ⟨?_, ih later (runs.next cycle) (fun other member => step other (List.mem_cons_of_mem _ member)) inits' all⟩
      rintro key asked ⟨w, member, rfl, current, nonempty⟩
      exact inits' w.key asked (all w member asked current nonempty)

/-! ## The official server -/

section Bancho

variable {app : AppConfig} (bancho : app.server = Server.bancho)

include bancho

theorem bancho_step {r : Responses} {g g' : Globals} {log : List Write} (runs : Runs app false g)
    (cycle : Cycle sort r false g log (.done g')) :
    (∀ key ∈ baselineKeys, g'.arr.slot key .init = g.arr.slot key .init) ∧
      ∀ w ∈ log, w.key ∈ baselineKeys → w.slot = .current → w.value ≠ [] → Offers (banchoThreads app false r) w.key := by
  obtain ⟨live, rfl⟩ := runs
  refine ⟨fun key asked => bancho_kept live bancho cycle (mem_keys_of_baseline asked), ?_⟩
  intro w member asked current nonempty
  exact (bancho_written live bancho cycle member).2 asked (by rw [current]; exact nofun) nonempty

/-- A capturing session has the baseline of everything its later responses offer. -/
theorem init_of_captured {g : Globals} {rs : List Responses} {records : List Record} {seen : List Write}
    (run : FetchLoop sort false g rs records) (runs : Runs app false g) (captured : Captured seen records)
    (old : ∀ key ∈ baselineKeys, g.arr.slot key .current ≠ [] →
      ∃ w ∈ seen, w.key = key ∧ w.slot = .current ∧ w.value ≠ []) {key : Str} (asked : key ∈ baselineKeys)
    (offers : ∃ r ∈ rs, Offers (banchoThreads app false r) key) : g.arr.slot key .init ≠ [] := by
  induction rs generalizing g records seen with
  | nil => obtain ⟨r, member, _⟩ := offers; cases member
  | cons r rest ih =>
    cases run with
    | @cons _ _ g' _ log _ records cycle later =>
      obtain ⟨now, afterwards⟩ := captured
      have effect : Effect g log g' := cycle_effect cycle
      have written : ∀ key ∈ baselineKeys, g'.arr.slot key .current ≠ [] →
          ∃ w ∈ seen ++ log, w.key = key ∧ w.slot = .current ∧ w.value ≠ [] := by
        intro key asked nonempty
        rcases effect.slot (mem_keys_of_baseline asked) .current with same | ⟨w, member, own, current, text⟩
        · obtain ⟨w, member, found⟩ := old key asked (same ▸ nonempty)
          exact ⟨w, List.mem_append_left _ member, found⟩
        · exact ⟨w, List.mem_append_right _ member, own, current, fun empty => nonempty (text.trans empty)⟩
      rw [← (bancho_step bancho runs cycle).1 key asked]
      obtain ⟨other, member, offered⟩ := offers
      rcases List.mem_cons.mp member with rfl | inRest
      · have current : g'.arr.slot key .current ≠ [] := by
          obtain ⟨live, rfl⟩ := runs
          exact (bancho_offered live bancho cycle asked offered).1
        exact now key asked (written key asked current)
      · exact ih later (runs.next cycle) afterwards written ⟨other, inRest, offered⟩

theorem bancho_captured_iff {g g' : Globals} {first : Responses} {log : List Write} {later : List Responses}
    {records : List Record} (clear : g.arr.IsClear) (runs : Runs app false g)
    (cycle : Cycle sort first true g log (.done g')) (run : FetchLoop sort false g' later records) :
    Captured [] (⟨log, g'⟩ :: records) ↔ ∀ key ∈ baselineKeys,
      (∃ r ∈ later, Offers (banchoThreads app false r) key) → Offers (banchoThreads app true first) key := by
  have effect : Effect g log g' := cycle_effect cycle
  have empty : ∀ key ∈ baselineKeys, ∀ slot, g.arr.slot key slot = [] :=
    fun key asked => (g.arr.isClear_iff.mp clear) key (mem_keys_of_baseline asked)
  obtain ⟨live, rfl⟩ := runs
  have written {w : Write} (member : w ∈ log) (asked : w.key ∈ baselineKeys) (kept : w.slot ≠ .change)
      (nonempty : w.value ≠ []) : Offers (banchoThreads g.application true first) w.key :=
    (bancho_written live bancho cycle member).2 asked kept nonempty
  have next : Runs g.application false g' := Runs.next ⟨live, rfl⟩ cycle
  constructor
  · rintro ⟨_, captured⟩ key asked offers
    have baseline := init_of_captured bancho run next captured ?_ asked offers
    · rcases effect.slot (mem_keys_of_baseline asked) .init with same | ⟨w, member, rfl, slot, text⟩
      · exact absurd (same.trans (empty key asked .init)) baseline
      · exact written member asked (by rw [slot]; exact nofun) fun none => baseline (text.trans none)
    · intro key asked nonempty
      rcases effect.slot (mem_keys_of_baseline asked) .current with same | ⟨w, member, own, current, text⟩
      · exact absurd (same.trans (empty key asked .current)) nonempty
      · exact ⟨w, member, own, current, fun none => nonempty (text.trans none)⟩
  · intro kept
    have inits : ∀ key ∈ baselineKeys, Offers (banchoThreads g.application true first) key →
        g'.arr.slot key .init ≠ [] := fun key asked offers => (bancho_offered live bancho cycle asked offers).2 rfl
    have now : ∀ w ∈ log, w.key ∈ baselineKeys → w.slot = .current → w.value ≠ [] →
        Offers (banchoThreads g.application true first) w.key :=
      fun w member asked current => written member asked (by rw [current]; exact nofun)
    refine ⟨?_, captured_of_kept _ run next ?_ inits now⟩
    · rintro key asked ⟨w, member, rfl, current, nonempty⟩
      exact inits w.key asked (now w member asked current nonempty)
    · intro r member s log s' runs cycle
      obtain ⟨same, offers⟩ := bancho_step bancho runs cycle
      exact ⟨fun key asked => (same key asked).symm ▸ id, fun w inside asked current nonempty =>
        kept w.key asked ⟨r, member, offers w inside asked current nonempty⟩⟩

end Bancho

/-! ## The private server -/

section Titanic

variable {app : AppConfig} (titanic : app.server = Server.titanic)

/-- No field holds a value yet. -/
def Blank (t : StatTable) : Prop := ∀ key ∈ keys, ∀ slot, slot ≠ .change → t.slot key slot = []

theorem Blank.ready {t : StatTable} (blank : Blank t) : Ready t := by
  intro key known
  have empty := blank key known .init (by decide)
  split
  · exact fun _ _ => .inl empty
  · exact fun _ _ => .inl empty

/-- A successful call with the init flag stores every baseline. -/
theorem init_of_succeeds {r : TitanicResponse} (succeeds : Succeeds app r) (t : StatTable) {key : Str}
    (asked : key ∈ baselineKeys) : (applyWrites t (stored app true r)).slot key .init ≠ [] := by
  obtain ⟨value, written⟩ := stored_complete succeeds.2 true asked
  have baseline : (⟨key, .init, value⟩ : Write) ∈ fieldWrites key value true :=
    List.mem_cons_of_mem _ List.mem_cons_self
  obtain ⟨w, member, _, _, text⟩ := slot_applyWrites_of_written t stored_known (mem_keys_of_baseline asked)
    ⟨_, written _ baseline, rfl, rfl⟩
  exact text ▸ (stored_spec w member).2.2.2.ne_nil

theorem current_of_succeeds {r : TitanicResponse} (succeeds : Succeeds app r) (init : Bool) {key : Str}
    (asked : key ∈ baselineKeys) : ∃ w ∈ stored app init r, w.key = key ∧ w.slot = .current ∧ w.value ≠ [] := by
  obtain ⟨value, written⟩ := stored_complete succeeds.2 init asked
  have current := written ⟨key, .current, value⟩ List.mem_cons_self
  exact ⟨_, current, rfl, rfl, (stored_spec _ current).2.2.2.ne_nil⟩

include titanic

/-- A baseline that is there stays there, possibly with another text. -/
theorem titanic_step {r : Responses} {g g' : Globals} {log : List Write} (runs : Runs app false g)
    (cycle : Cycle sort r false g log (.done g')) :
    ∀ key ∈ baselineKeys, g.arr.slot key .init ≠ [] → g'.arr.slot key .init ≠ [] := by
  obtain ⟨live, rfl⟩ := runs
  intro key asked nonempty
  have effect : Effect g log g' := cycle_effect cycle
  have known := mem_keys_of_baseline asked
  rcases titanic_later live titanic cycle with ⟨_, keeps⟩ | ⟨_, rebases⟩
  · rwa [keeps.slot_init effect known]
  · rw [rebases.slot_init effect known]
    rcases slot_applyWrites g.arr stored_known known .init with same | ⟨w, member, _, _, text⟩
    · rwa [same]
    · exact text ▸ (stored_spec w member).2.2.2.ne_nil

/-- From a blank table with the flag up, the first success decides. -/
theorem titanic_captured_later {g : Globals} {rs : List Responses} {records : List Record} {seen : List Write}
    (run : FetchLoop sort false g rs records) (runs : Runs app false g) (blank : Blank g.arr)
    (up : g.initApiFailed = true) (fresh : ∀ w ∈ seen, w.slot = .current → w.value = [])
    (outcomes : ∀ r ∈ rs, AllOrNothing app r.titanic ∧ AllOrNothing app r.titanicAgain) :
    Captured seen records ↔ ∀ r, rs.find? (Succeeds app ·.titanic) = some r → Succeeds app r.titanicAgain := by
  induction rs generalizing g records seen with
  | nil =>
    cases run
    exact ⟨fun _ r found => absurd found nofun, fun _ => trivial⟩
  | cons r rest ih =>
    obtain ⟨⟨own, again⟩, others⟩ := List.forall_mem_cons.mp outcomes
    cases run with
    | @cons _ _ g' _ log _ records cycle later =>
      have next := runs.next cycle
      have effect : Effect g log g' := cycle_effect cycle
      obtain ⟨live, settings⟩ := runs
      rcases titanic_later live (settings ▸ titanic) cycle with ⟨not, keeps⟩ | ⟨⟨succeeds, _, _⟩, rebases⟩
      · have fails : ¬Succeeds app r.titanic := fun succeeds => not ⟨settings ▸ succeeds, blank.ready, up⟩
        rw [List.find?_cons_of_neg (by simpa using fails)]
        have onlyChanges : ∀ w ∈ log, w.slot = .change := by
          obtain ⟨_, changes, rfl, unchanged⟩ := keeps
          rw [settings, own.resolve_left fails false]
          exact unchanged
        have fresh' : ∀ w ∈ seen ++ log, w.slot = .current → w.value = [] :=
          List.forall_mem_append.mpr ⟨fresh, fun w member current => by cases (onlyChanges w member).symm.trans current⟩
        have blank' : Blank g'.arr := by
          intro key known slot other
          rw [effect.arr]
          exact (slot_applyWrites_of_not_written g.arr effect.known known fun w member _ (same : w.slot = slot) =>
            other (same ▸ onlyChanges w member)).trans (blank key known slot other)
        rw [← ih later next blank' (keeps.1.trans up) fresh' others]
        refine and_iff_right ?_
        rintro key asked ⟨w, member, _, current, nonempty⟩
        exact absurd (fresh' w member current) nonempty
      · rw [settings] at succeeds
        have here : (r :: rest).find? (Succeeds app ·.titanic) = some r :=
          List.find?_cons_of_pos (by simpa using succeeds)
        have baselines {key : Str} (asked : key ∈ baselineKeys) :
            g'.arr.slot key .init = (applyWrites g.arr (stored app true r.titanicAgain)).slot key .init :=
          settings ▸ rebases.slot_init effect (mem_keys_of_baseline asked)
        constructor
        · rintro ⟨now, _⟩ other found
          obtain rfl := Option.some.inj (here.symm.trans found)
          have asked : ("level" : Str) ∈ baselineKeys := by decide +kernel
          obtain ⟨w, member, stores⟩ := current_of_succeeds succeeds false asked
          have logged : w ∈ log := by
            obtain ⟨_, _, _, rfl, _⟩ := rebases
            exact List.mem_append_left _ (List.mem_append_left _ (settings ▸ member))
          refine again.resolve_right fun fails => now "level" asked ⟨w, List.mem_append_right _ logged, stores⟩ ?_
          rw [baselines asked, fails true]
          exact blank _ (mem_keys_of_baseline asked) _ (by decide)
        · intro captures
          have inits : ∀ key ∈ baselineKeys, True → g'.arr.slot key .init ≠ [] := by
            intro key asked _
            rw [baselines asked]
            exact init_of_succeeds (captures r here) g.arr asked
          refine ⟨fun key asked _ => inits key asked trivial,
            captured_of_kept _ later next ?_ inits fun _ _ _ _ _ => trivial⟩
          exact fun _ _ _ _ _ runs cycle => ⟨titanic_step titanic runs cycle, fun _ _ _ _ _ => trivial⟩

theorem titanic_captured_iff {g g' : Globals} {first : Responses} {log : List Write} {later : List Responses}
    {records : List Record} (clear : g.arr.IsClear) (runs : Runs app false g)
    (cycle : Cycle sort first true g log (.done g')) (run : FetchLoop sort false g' later records)
    (outcomes : ∀ r ∈ first :: later, AllOrNothing app r.titanic ∧ AllOrNothing app r.titanicAgain) :
    Captured [] (⟨log, g'⟩ :: records) ↔ Succeeds app first.titanic ∨
      ∀ r, later.find? (Succeeds app ·.titanic) = some r → Succeeds app r.titanicAgain := by
  obtain ⟨⟨own, _⟩, others⟩ := List.forall_mem_cons.mp outcomes
  have next := runs.next cycle
  have effect : Effect g log g' := cycle_effect cycle
  obtain ⟨live, settings⟩ := runs
  obtain ⟨⟨changes, split, unchanged⟩, flag⟩ := titanic_first live (settings ▸ titanic) cycle
  have values {key : Str} (known : key ∈ keys) {slot : Slot} (other : slot ≠ .change) :
      g'.arr.slot key slot = (applyWrites g.arr (stored app true first.titanic)).slot key slot :=
    settings ▸ slot_first effect split unchanged known other
  by_cases succeeds : Succeeds app first.titanic
  · rw [iff_true_right (.inl succeeds)]
    have inits : ∀ key ∈ baselineKeys, True → g'.arr.slot key .init ≠ [] := by
      intro key asked _
      rw [values (mem_keys_of_baseline asked) (by decide)]
      exact init_of_succeeds succeeds g.arr asked
    refine ⟨fun key asked _ => inits key asked trivial, captured_of_kept _ run next ?_ inits fun _ _ _ _ _ => trivial⟩
    exact fun _ _ _ _ _ runs cycle => ⟨titanic_step titanic runs cycle, fun _ _ _ _ _ => trivial⟩
  · have nothing := own.resolve_left succeeds
    rw [settings, nothing true, List.nil_append] at split
    have blank : Blank g'.arr := by
      intro key known slot other
      rw [values known other, nothing true]
      exact (g.arr.isClear_iff.mp clear) key known slot
    have fresh : ∀ w ∈ log, w.slot = .current → w.value = [] := fun w member current => by
      cases (unchanged w (split ▸ member)).symm.trans current
    have up : g'.initApiFailed = true := flag.mpr (.inr fun returns => succeeds (settings ▸ returns.1))
    rw [or_iff_right succeeds, ← titanic_captured_later titanic run next blank up fresh others]
    refine and_iff_right ?_
    rintro key asked ⟨w, member, _, current, nonempty⟩
    exact absurd (fresh w member current) nonempty

end Titanic

/-! ## Sessions -/

/-- Cycles that write nothing capture what was captured before them. -/
theorem captured_of_idle {app : AppConfig} {simulated : Bool} {g : Globals} {rs : List Responses} {records : List Record}
    {seen : List Write} (run : FetchLoop sort false g rs records) (runs : Runs app simulated g)
    (idle : Idle app simulated false)
    (captured : ∀ key ∈ baselineKeys, (∃ w ∈ seen, w.key = key ∧ w.slot = .current ∧ w.value ≠ []) →
      g.arr.slot key .init ≠ []) : Captured seen records := by
  refine captured_of_kept (fun key => ∃ w ∈ seen, w.key = key ∧ w.slot = .current ∧ w.value ≠ []) run runs ?_
    captured fun w member _ current nonempty => ⟨w, member, rfl, current, nonempty⟩
  intro r _ g log g' runs cycle
  have effect : Effect g log g' := cycle_effect cycle
  obtain rfl := idle_cycle runs idle cycle
  refine ⟨fun key _ => ?_, nofun⟩
  rw [effect.arr]
  exact id

/-- The simulation stores a baseline in every field. -/
theorem init_of_simulated {g g' : Globals} {first : Responses} {log : List Write} (simulated : g.simulateMode = true)
    (cycle : Cycle sort first true g log (.done g')) {key : Str} (asked : key ∈ baselineKeys) :
    g'.arr.slot key .init ≠ [] := by
  have effect : Effect g log g' := cycle_effect cycle
  obtain ⟨fetched, fetch, _⟩ := fetch_of_cycle cycle
  simp only [FetchApiData, simulated, ↓reduceIte] at fetch
  have all : ∀ key ∈ baselineKeys, key ∈ Simulate.baseline.map Prod.fst := by decide +kernel
  have texts : ∀ field ∈ Simulate.baseline, field.2 ≠ [] := by decide +kernel
  obtain ⟨field, inside, rfl⟩ := List.mem_map.mp (all key asked)
  have member : Act.setField field.1 field.2 true ∈ Simulate.simulate true := by
    simp only [Simulate.simulate, ↓reduceIte, List.cons_append, List.mem_cons, List.mem_append, List.mem_map]
    exact .inr (.inl (.inl ⟨field, inside, rfl⟩))
  obtain ⟨s, written, after, ran, logged⟩ := ran_of_run fetch.symm member
  obtain ⟨value, rfl⟩ := writes_of_storedKey rfl (exec_ok ran).1
  have baseline : (⟨field.1, .init, value⟩ : Write) ∈ fieldWrites field.1 value true :=
    List.mem_cons_of_mem _ List.mem_cons_self
  obtain ⟨w, inLog, _, slot, text⟩ := slot_applyWrites_of_written g.arr effect.known (mem_keys_of_baseline asked)
    ⟨_, logged _ baseline, rfl, rfl⟩
  rw [effect.arr, text]
  have alone : Interleaves Act.exec (fun _ => false) _ g _ _ := interleaves_run (Simulate.simulate true) g
  rw [← fetch] at alone
  refine alone.forall_log (P := fun w => w.slot = .init → w.value ≠ []) ?_ w inLog slot
  rintro act ⟨thread, inPool, inThread⟩ s written next ran w inWritten slot
  rw [List.mem_singleton.mp inPool] at inThread
  have flagged := ((write_exec (known_simulate true act inThread) ran inWritten).2.1 slot).2
  simp only [Simulate.simulate, ↓reduceIte, List.cons_append, List.mem_cons, List.mem_append, List.mem_map] at inThread
  rcases inThread with rfl | (⟨field, inside, rfl⟩ | ⟨field, _, rfl⟩) | inCalc
  · cases flagged
  · rw [value_of_setField ran inWritten]
    exact texts field inside
  · cases flagged
  · rw [(late_calcDifference act inCalc).unset] at flagged
    cases flagged

/-- Exactly when the baselines of a session are captured. -/
theorem captured_iff {g : Globals} {rs : List Responses} {records : List Record} (clear : g.arr.IsClear)
    (outcomes : g.application.server = Server.titanic →
      ∀ r ∈ rs, AllOrNothing g.application r.titanic ∧ AllOrNothing g.application r.titanicAgain)
    (run : FetchLoop sort true g rs records) : Captured [] records ↔ Kept g rs := by
  cases run with
  | nil => exact ⟨fun _ => trivial, fun _ => trivial⟩
  | @cons _ _ g' first log later records cycle run =>
    rw [Kept]
    split
    · next simulated =>
      have inits : ∀ key ∈ baselineKeys, g'.arr.slot key .init ≠ [] :=
        fun key asked => init_of_simulated simulated cycle asked
      have next : Runs g.application true g' := Runs.next ⟨simulated, rfl⟩ cycle
      exact iff_of_true ⟨fun key asked _ => inits key asked,
        captured_of_idle run next (.inl ⟨rfl, rfl⟩) fun key asked _ => inits key asked⟩
        trivial
    · next live =>
      have runs : Runs g.application false g := ⟨by simpa using live, rfl⟩
      split
      · next bancho => exact bancho_captured_iff bancho clear runs cycle run
      · next notBancho =>
        split
        · next titanic => exact titanic_captured_iff titanic clear runs cycle run (outcomes titanic)
        · next notTitanic =>
          have idle (init : Bool) : Idle g.application false init := .inr ⟨rfl, notBancho, notTitanic⟩
          obtain rfl := idle_cycle runs (idle true) cycle
          refine iff_of_true ⟨?_, captured_of_idle run (runs.next cycle) (idle false) ?_⟩ trivial
          · rintro key _ ⟨w, none, _⟩
            cases none
          · rintro key _ ⟨w, none, _⟩
            cases none

/-- The official server answers from the second cycle on, and the session never gets a baseline. -/
theorem lateStart_not_captured :
    ∃ records, FetchLoop stableBySort true {} [unreachable, newPlayer] records ∧ ¬Captured [] records :=
  ⟨_, loop_runLoop stableBySort (by decide +kernel), by decide +kernel⟩

/-- The settings with the private server selected. -/
def onTitanic : Globals where
  application := { server := Server.titanic }

/-- The private server does not answer at first; then both calls of a cycle succeed. -/
def lateTitanic : List Responses :=
  [unreachable, { unreachable with titanic := titanicProfile 1, titanicAgain := titanicProfile 1 }]

/-- There the second call makes up for the failed first cycle. -/
theorem lateTitanic_captured : ∃ records, FetchLoop stableBySort true onTitanic lateTitanic records ∧
    (Captured [] records ↔ Kept onTitanic lateTitanic) := by
  have run : FetchLoop stableBySort true onTitanic lateTitanic _ := loop_runLoop stableBySort (by decide +kernel)
  exact ⟨_, run, captured_iff StatTable.isClear_initial (by decide +kernel) run⟩

end OsuTracker.Soundness.BaselineCapture
