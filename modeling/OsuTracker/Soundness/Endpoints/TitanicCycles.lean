import OsuTracker.Soundness.Endpoints.Bancho

/-! # Cycles on the private server

The first cycle of a session stores what its response offers, baselines included, and raises the
failure flag when its call does not succeed. A later cycle changes a baseline only when its call
succeeds while the flag is up: it lowers the flag and stores the baselines of a second call.
-/

namespace OsuTracker.Soundness.Endpoints

open Cxx Model.Core.Config Model.Core.Formatter Model.Core.Session Model.Api Machine.Threads

/-! ## When a call returns -/

/-- The iteration of `calcDifference` for a field returns. -/
def ReadableAt (t : StatTable) (key : Str) : Prop :=
  ∀ type, typeOf key = some type → t.slot key .init = [] ∨ t.slot key .current = [] ∨
    (Reads type (t.slot key .current) ∧ Reads type (t.slot key .init))

theorem computable_iff (t : StatTable) : Computable t ↔ ∀ key ∈ keys, ReadableAt t key := by
  constructor
  · intro all key known type isType
    obtain ⟨e, member, rfl⟩ := t.exists_entry known
    have computes := all e member
    rw [typeOf_key t member] at isType
    rw [t.slot_key member, t.slot_key member, ← Option.some.inj isType]
    exact computes
  · intro all e member
    have computes := all e.key (t.key_mem_keys member) e.dataType (typeOf_key t member)
    rw [t.slot_key member, t.slot_key member] at computes
    exact computes

/-- With the current values of a readable response, `calcDifference` returns. -/
def Ready (t : StatTable) : Prop :=
  ∀ key ∈ keys, if key ∈ targetKeys then ReadableAt t key
    else ∀ type, typeOf key = some type → t.slot key .init = [] ∨ Reads type (t.slot key .init)

theorem baseline_of_not_target {key : Str} (known : key ∈ keys) (other : key ∉ targetKeys) : key ∈ baselineKeys :=
  List.mem_filter.mpr ⟨known, by simpa using other⟩

theorem stored_known {app : AppConfig} {init : Bool} {r : TitanicResponse} : ∀ w ∈ stored app init r, w.key ∈ keys :=
  fun w member => mem_keys_of_baseline (stored_spec w member).1

/-- A readable response leaves current values that can be read back. -/
theorem computable_stored_iff {app : AppConfig} {r : TitanicResponse} (readable : (callStores app false r).2 = .ok ())
    (init : Bool) (t : StatTable) :
    Computable (applyWrites t (stored app init r)) ↔ Ready (applyWrites t (stored app init r)) := by
  rw [computable_iff]
  refine forall₂_congr fun key known => ?_
  split
  · rfl
  · next other =>
    have asked := baseline_of_not_target known other
    obtain ⟨value, written⟩ := stored_complete readable init asked
    obtain ⟨w, member, rfl, slot, text⟩ := slot_applyWrites_of_written t stored_known known
      ⟨_, written _ List.mem_cons_self, rfl, rfl⟩
    have typed := (stored_spec w member).2.2.2
    refine forall₂_congr fun type isType => ?_
    rw [text]
    constructor
    · rintro (empty | empty | ⟨_, reads⟩)
      · exact .inl empty
      · exact absurd empty typed.ne_nil
      · exact .inr reads
    · rintro (empty | reads)
      · exact .inl empty
      · exact .inr (.inr ⟨typed.reads isType, reads⟩)

/-- Readiness depends on the baselines and the target. -/
theorem ready_congr {t t' : StatTable} (inits : ∀ key ∈ keys, t'.slot key .init = t.slot key .init)
    (targets : ∀ key ∈ targetKeys, t'.slot key .current = t.slot key .current) : Ready t' ↔ Ready t := by
  refine forall₂_congr fun key known => ?_
  rw [ReadableAt, ReadableAt, inits key known]
  split
  · next target => rw [targets key target]
  · rfl

/-- What a call stores leaves the target alone. -/
theorem target_stored (t : StatTable) {app : AppConfig} {init : Bool} {r : TitanicResponse} {key : Str}
    (target : key ∈ targetKeys) (slot : Slot) :
    (applyWrites t (stored app init r)).slot key slot = t.slot key slot := by
  have known : ∀ key ∈ targetKeys, key ∈ keys := by decide +kernel
  refine slot_applyWrites_of_not_written t stored_known (known key target) ?_
  rintro w member rfl
  exact absurd target (not_target_of_baseline (stored_spec w member).1)

theorem init_stored (t : StatTable) {app : AppConfig} {r : TitanicResponse} {key : Str} (known : key ∈ keys) :
    (applyWrites t (stored app false r)).slot key .init = t.slot key .init := by
  refine slot_applyWrites_of_not_written t stored_known known ?_
  intro w member _ baseline
  cases (stored_spec w member).2.2.1 baseline

theorem returns_iff (init : Bool) (r : TitanicResponse) (g : Globals) :
    Returns init r g ↔ Succeeds g.application r ∧ Ready (applyWrites g.arr (stored g.application init r)) :=
  and_congr_right fun succeeds => computable_stored_iff succeeds.2 init g.arr

theorem returns_later_iff (r : TitanicResponse) (g : Globals) :
    Returns false r g ↔ Succeeds g.application r ∧ Ready g.arr := by
  rw [returns_iff, ready_congr (fun key known => init_stored g.arr known) fun key target => target_stored g.arr target _]

/-! ## Cycles -/

section Cycle

variable {sort : StdSort bySort} {r : Responses} {init : Bool} {g g' : Globals} {log : List Write}

theorem titanic_run (live : g.simulateMode = false) (titanic : g.application.server = Server.titanic)
    (cycle : Cycle sort r init g log (.done g')) : ∃ fetched, (log, Outcome.done fetched) = fetchTitanic init r g ∧
      g'.initApiFailed = fetched.initApiFailed := by
  obtain ⟨fetched, fetch, _, flag⟩ := fetch_of_cycle cycle
  have other : ¬Server.titanic = Server.bancho := by decide
  simp only [FetchApiData, live, Bool.false_eq_true, ↓reduceIte, titanic, other] at fetch
  exact ⟨fetched, fetch, flag⟩

/-- The first cycle: one call with the init flag. -/
theorem titanic_first (live : g.simulateMode = false) (titanic : g.application.server = Server.titanic)
    (cycle : Cycle sort r true g log (.done g')) :
    (∃ changes, log = stored g.application true r.titanic ++ changes ∧ ∀ w ∈ changes, w.slot = .change) ∧
      (g'.initApiFailed = true ↔ g.initApiFailed = true ∨ ¬Returns true r.titanic g) := by
  obtain ⟨fetched, ran, flag⟩ := titanic_run live titanic cycle
  obtain ⟨first, next, effect, shape⟩ := fetchTitanic_spec true r g
  rcases shape with ⟨e, threw⟩ | ⟨failed, done⟩ | ⟨returned, _, done⟩ | ⟨_, _, absurd_, _⟩
  · cases ran.trans threw
  · obtain ⟨rfl, ended⟩ := Prod.mk.inj (ran.trans done)
    obtain rfl := Outcome.done.inj ended
    exact ⟨effect.written, by rw [flag]; simp [failed]⟩
  · obtain ⟨rfl, ended⟩ := Prod.mk.inj (ran.trans done)
    obtain rfl := Outcome.done.inj ended
    exact ⟨effect.written, by rw [flag, effect.flag]; simp [returned]⟩
  · cases absurd_

/-- A later cycle that stores no baseline. -/
def Keeps (r : Responses) (g g' : Globals) (log : List Write) : Prop :=
  g'.initApiFailed = g.initApiFailed ∧
    ∃ changes, log = stored g.application false r.titanic ++ changes ∧ ∀ w ∈ changes, w.slot = .change

/-- A later cycle that stores the baselines of a second call. -/
def Rebases (r : Responses) (g g' : Globals) (log : List Write) : Prop :=
  g'.initApiFailed = false ∧ ∃ changes changes', log = stored g.application false r.titanic ++ changes ++
    (stored g.application true r.titanicAgain ++ changes') ∧ (∀ w ∈ changes, w.slot = .change) ∧
    ∀ w ∈ changes', w.slot = .change

/-- A later cycle, by whether its call succeeds while the flag is up. -/
theorem titanic_later (live : g.simulateMode = false) (titanic : g.application.server = Server.titanic)
    (cycle : Cycle sort r false g log (.done g')) :
    (¬(Succeeds g.application r.titanic ∧ Ready g.arr ∧ g.initApiFailed = true) ∧ Keeps r g g' log) ∨
      (Succeeds g.application r.titanic ∧ Ready g.arr ∧ g.initApiFailed = true) ∧ Rebases r g g' log := by
  obtain ⟨fetched, ran, flag⟩ := titanic_run live titanic cycle
  obtain ⟨first, next, effect, shape⟩ := fetchTitanic_spec false r g
  simp only [← and_assoc, ← returns_later_iff]
  rcases shape with ⟨e, threw⟩ | ⟨failed, done⟩ | ⟨returned, down, done⟩ | ⟨returned, up, _, again, result, done, second⟩
  · cases ran.trans threw
  · obtain ⟨rfl, ended⟩ := Prod.mk.inj (ran.trans done)
    obtain rfl := Outcome.done.inj ended
    exact .inl ⟨fun both => failed both.1, flag.trans effect.flag, effect.written⟩
  · obtain ⟨rfl, ended⟩ := Prod.mk.inj (ran.trans done)
    obtain rfl := Outcome.done.inj ended
    have lowered : g.initApiFailed = false := down.resolve_right nofun
    refine .inl ⟨fun both => ?_, flag.trans effect.flag, effect.written⟩
    cases lowered.symm.trans both.2
  · obtain ⟨rfl, rfl⟩ := Prod.mk.inj (ran.trans done)
    obtain ⟨changes, rfl, unchanged⟩ := effect.written
    obtain ⟨changes', rfl, unchanged'⟩ := second.written
    have settings : ({ next with initApiFailed := false } : Globals).application = g.application := effect.application
    rw [settings]
    exact .inr ⟨⟨returned, up⟩, flag.trans second.flag, changes, changes', rfl, unchanged, unchanged'⟩

/-! ## Baselines after a cycle -/

private theorem init_changes {t : StatTable} {changes : List Write} (known : ∀ w ∈ changes, w.key ∈ keys)
    (unchanged : ∀ w ∈ changes, w.slot = .change) {key : Str} (asked : key ∈ keys) {slot : Slot} (other : slot ≠ .change) :
    (applyWrites t changes).slot key slot = t.slot key slot :=
  slot_applyWrites_of_not_written t known asked fun w member _ same => other (same ▸ unchanged w member)

/-- After the first cycle the table holds what its response offers. -/
theorem slot_first (effect : Effect g log g') {changes : List Write} (split : log = stored g.application true r.titanic ++ changes)
    (unchanged : ∀ w ∈ changes, w.slot = .change) {key : Str} (asked : key ∈ keys) {slot : Slot} (other : slot ≠ .change) :
    g'.arr.slot key slot = (applyWrites g.arr (stored g.application true r.titanic)).slot key slot := by
  subst split
  rw [effect.arr, applyWrites_append]
  exact init_changes (fun w member => effect.known w (List.mem_append_right _ member)) unchanged asked other

theorem Keeps.slot_init (keeps : Keeps r g g' log) (effect : Effect g log g') {key : Str} (asked : key ∈ keys) :
    g'.arr.slot key .init = g.arr.slot key .init := by
  obtain ⟨_, changes, rfl, unchanged⟩ := keeps
  have known := (List.forall_mem_append.mp effect.known).2
  rw [effect.arr, applyWrites_append, init_changes known unchanged asked (by decide), init_stored g.arr asked]

theorem Keeps.no_init (keeps : Keeps r g g' log) {w : Write} (member : w ∈ log) : w.slot ≠ .init := by
  obtain ⟨_, changes, rfl, unchanged⟩ := keeps
  rcases List.mem_append.mp member with fields | rest
  · exact fun baseline => by cases (stored_spec w fields).2.2.1 baseline
  · rw [unchanged w rest]
    exact nofun

theorem Rebases.slot_init (rebases : Rebases r g g' log) (effect : Effect g log g') {key : Str} (asked : key ∈ keys) :
    g'.arr.slot key .init = (applyWrites g.arr (stored g.application true r.titanicAgain)).slot key .init := by
  obtain ⟨_, changes, changes', rfl, unchanged, unchanged'⟩ := rebases
  obtain ⟨first, second⟩ := List.forall_mem_append.mp effect.known
  have known := (List.forall_mem_append.mp first).2
  have known' := (List.forall_mem_append.mp second).2
  rw [effect.arr, applyWrites_append, applyWrites_append, applyWrites_append,
    init_changes known' unchanged' asked (by decide)]
  refine slot_applyWrites_congr stored_known asked ?_
  rw [init_changes known unchanged asked (by decide), init_stored g.arr asked]

/-- No cycle changes what `calcDifference` reads of the target. -/
theorem target_kept (effect : Effect g log g') (stores : ∀ w ∈ log, w.slot ≠ .change → w.key ∈ baselineKeys) {key : Str}
    (target : key ∈ targetKeys) {slot : Slot} (other : slot ≠ .change) :
    g'.arr.slot key slot = g.arr.slot key slot := by
  have known : ∀ key ∈ targetKeys, key ∈ keys := by decide +kernel
  rw [effect.arr]
  refine slot_applyWrites_of_not_written g.arr effect.known (known key target) ?_
  rintro w member rfl rfl
  exact not_target_of_baseline (stores w member other) target

theorem Keeps.baseline (keeps : Keeps r g g' log) {w : Write} (member : w ∈ log) (kept : w.slot ≠ .change) :
    w.key ∈ baselineKeys := by
  obtain ⟨_, changes, rfl, unchanged⟩ := keeps
  rcases List.mem_append.mp member with fields | rest
  · exact (stored_spec w fields).1
  · exact absurd (unchanged w rest) kept

/-- A cycle that stores no baseline keeps the table ready. -/
theorem Keeps.ready (keeps : Keeps r g g' log) (effect : Effect g log g') : Ready g'.arr ↔ Ready g.arr :=
  ready_congr (fun _ known => keeps.slot_init effect known)
    fun _ target => target_kept effect (fun _ member kept => keeps.baseline member kept) target (by decide)

end Cycle

end OsuTracker.Soundness.Endpoints
