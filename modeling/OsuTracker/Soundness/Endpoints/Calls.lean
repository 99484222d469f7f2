import OsuTracker.Soundness.Endpoints.Differences

/-! # A call of the private server

The stores of a call write the same texts whatever the table held before, because every sum reads
fields that the call has just stored. What the table does decide is whether `calcDifference`
returns, and with it the call: it does when all baselines and current values can be read back.
-/

namespace OsuTracker.Soundness.Endpoints

open Cxx Model.Core.Config Model.Api Machine.Threads

/-! ## Stores do not depend on the table -/

/-- Two states in which some actions have stored the same texts. -/
def Agree (before : List Act) (g g' : Globals) : Prop :=
  ∀ act ∈ before, Holds act g ∧ Holds act g' ∧
    ∀ key, storedKey act = some key → g.arr.slot key .current = g'.arr.slot key .current

theorem storedKey_of_intStore {key : Str} {act : Act} (stores : IntStore key act) : storedKey act = some key := by
  cases act with
  | setField own value setInit => exact congrArg some stores.1
  | setSum own addends setInit => exact congrArg some stores
  | _ => exact stores.elim

theorem sumFields_congr {t t' : StatTable} {addends : List Str}
    (same : ∀ key ∈ addends, t.slot key .current = t'.slot key .current) : sumFields t addends = sumFields t' addends := by
  have from_ (start : Int32) :
      addends.foldlM (fun total key => (getIntField t key).map (total + ·)) start =
        addends.foldlM (fun total key => (getIntField t' key).map (total + ·)) start := by
    induction addends generalizing start with
    | nil => rfl
    | cons key rest ih =>
      obtain ⟨own, others⟩ := List.forall_mem_cons.mp same
      simp only [List.foldlM_cons, getIntField, own]
      exact bind_congr fun next => ih others next
  exact from_ 0

theorem writes_congr {before : List Act} {g g' : Globals} (agree : Agree before g g') {act : Act}
    (supplied : Supplied before act) : act.writes g.arr = act.writes g'.arr := by
  have same {key : Str} (stored : ∃ b ∈ before, IntStore key b) : g.arr.slot key .current = g'.arr.slot key .current := by
    obtain ⟨b, member, stores⟩ := stored
    exact (agree b member).2.2 key (storedKey_of_intStore stores)
  cases act with
  | setSum key addends setInit =>
    simp only [Act.writes, sumFields_congr fun addend member => same (supplied addend member)]
  | setCompletion completionDenom setInit => simp only [Act.writes, getIntField, same supplied]
  | clearInvalid key => exact supplied.elim
  | calcEntry i => exact supplied.elim
  | _ => rfl

section Stores

variable {init : Bool} {front late : List Act} (planned : Planned init [(front, late)])

include planned

private theorem front_stable {act other : Act} (member : act ∈ front) (inside : other ∈ front) {g next : Globals}
    {written : List Write} (holds : Holds act g) (ran : other.exec g = .ok (written, next)) : Holds act next := by
  have fronted {a : Act} (mem : a ∈ front) : a ∈ fronts [(front, late)] := by simpa [fronts] using mem
  exact planned.stable (fronted member) (inPool_of_front (fronted inside)) holds ran

private theorem front_known {act : Act} (member : act ∈ front) : Known act :=
  planned.known (inPool_of_front (by simpa [fronts] using member))

/-- Other stores keep a stored field. -/
private theorem front_slot {act other : Act} {key : Str} (inside : other ∈ front) (asked : key ∈ keys)
    (stores : storedKey act = some key) (member : act ∈ front) (apart : other ≠ act) {slot : Slot} (stored : slot ≠ .change)
    {g next : Globals} {written : List Write} (ran : other.exec g = .ok (written, next)) :
    next.arr.slot key slot = g.arr.slot key slot := by
  have fronted {a : Act} (mem : a ∈ front) : a ∈ fronts [(front, late)] := by simpa [fronts] using mem
  refine slot_exec (front_known planned inside) ran asked stored (fun same => apart ?_) ?_
  · exact eq_of_nodup_filterMap planned.unique (fronted inside) (fronted member) same stores
  · exact planned.uncleared (inPool_of_front (fronted inside)) (planned.baseline (fronted member) stores)

private theorem run_front_from {before rest : List Act} (split : front = before ++ rest) {g g' : Globals}
    (agree : Agree before g g') : ∃ log next next',
      run Act.exec rest g = (log, .done next) ∧ run Act.exec rest g' = (log, .done next') := by
  induction rest generalizing before g g' with
  | nil => exact ⟨[], g, g', rfl, rfl⟩
  | cons act rest ih =>
    have member : act ∈ front := split ▸ List.mem_append_right _ List.mem_cons_self
    have supplied := (planned.supply (front, late) List.mem_cons_self).supplied split
    obtain ⟨written, next, ran⟩ := exec_of_supplied supplied fun b inside => (agree b inside).1
    have writes := (exec_ok ran).1
    have ran' := exec_of_writes ((writes_congr agree supplied).symm.trans writes)
    have own (key : Str) (stores : storedKey act = some key) :
        next.arr.slot key .current = (applyWrites g'.arr written).slot key .current := by
      have asked := (front_known planned member).1 key stores
      obtain ⟨value, rfl⟩ := writes_of_storedKey stores writes
      rw [arr_exec ran, (slot_stored asked _ _).1, (slot_stored asked _ _).1]
    have grown : Agree (before ++ [act]) next { act.effect g' with arr := applyWrites g'.arr written } := by
      intro b inside
      rcases List.mem_append.mp inside with old | new
      · have early : b ∈ front := split ▸ List.mem_append_left _ old
        obtain ⟨holds, holds', same⟩ := agree b old
        refine ⟨front_stable planned early member holds ran, front_stable planned early member holds' ran', ?_⟩
        intro key stores
        by_cases here : act = b
        · exact own key (here ▸ stores)
        · have asked := (front_known planned early).1 key stores
          rw [front_slot planned member asked stores early here (by decide) ran,
            front_slot planned member asked stores early here (by decide) ran', same key stores]
      · obtain rfl := List.mem_singleton.mp new
        exact ⟨holds_exec (front_known planned member) ran, holds_exec (front_known planned member) ran', own⟩
    obtain ⟨log, final, final', later, later'⟩ := ih (by rw [split, List.append_assoc]; rfl) grown
    refine ⟨written ++ log, final, final', ?_, ?_⟩
    · rw [run_cons_ok ran, later]
    · rw [run_cons_ok ran', later']

/-- All stores run, and write the same in every state. -/
theorem run_front (g g' : Globals) : ∃ log next next',
    run Act.exec front g = (log, .done next) ∧ run Act.exec front g' = (log, .done next') := by
  have split : front = [] ++ front := rfl
  exact run_front_from planned split fun act none => absurd none List.not_mem_nil

/-- A store writes its own field. -/
private theorem front_write {act : Act} (member : act ∈ front) {g next : Globals} {written : List Write}
    (ran : act.exec g = .ok (written, next)) {w : Write} (inside : w ∈ written) :
    storedKey act = some w.key ∧ next.arr.slot w.key w.slot = w.value ∧ w.slot ≠ .change := by
  obtain ⟨before, after, split⟩ := List.append_of_mem member
  have supplied := (planned.supply (front, late) List.mem_cons_self).supplied split
  have writes := (exec_ok ran).1
  cases stores : storedKey act with
  | some key =>
    have asked := (front_known planned member).1 key stores
    obtain ⟨value, rfl⟩ := writes_of_storedKey stores writes
    obtain ⟨current, baseline⟩ := slot_stored asked (setsInit act) g.arr
    rw [arr_exec ran]
    rcases List.mem_cons.mp inside with rfl | more
    · exact ⟨rfl, current, nofun⟩
    · split at more
      · next flagged =>
        rw [List.mem_singleton.mp more]
        exact ⟨rfl, baseline flagged, nofun⟩
      · cases more
  | none =>
    have nothing : act.writes g.arr = .ok [] := by
      cases act with
      | setField | setSum | setCompletion => cases stores
      | clearInvalid key => exact supplied.elim
      | calcEntry i => exact supplied.elim
      | raise e => exact supplied.elim
      | _ => rfl
    rw [nothing] at writes
    cases writes
    cases inside

private theorem slot_run_from {before rest : List Act} (split : front = before ++ rest) {g next : Globals}
    {log : List Write} (ran : run Act.exec rest g = (log, .done next)) {w : Write} (member : w ∈ log) :
    next.arr.slot w.key w.slot = w.value := by
  induction rest generalizing before g log with
  | nil =>
    cases ran
    cases member
  | cons act rest ih =>
    have fronted : act ∈ front := split ▸ List.mem_append_right _ List.mem_cons_self
    cases first : act.exec g with
    | error e =>
      rw [run_cons_error first] at ran
      cases (Prod.mk.inj ran).2
    | ok effect =>
      rw [run_cons_ok first] at ran
      obtain ⟨rfl, ended⟩ := Prod.mk.inj ran
      rcases List.mem_append.mp member with now | later
      · obtain ⟨stores, stored, kept⟩ := front_write planned fronted first now
        have asked := (front_known planned fronted).1 w.key stores
        have once : act ∉ rest := by
          have distinct := planned.unique
          simp only [List.flatMap_cons, List.flatMap_nil, List.append_nil, split, List.filterMap_append,
            List.filterMap_cons_some stores] at distinct
          intro again
          exact (List.nodup_cons.mp distinct.of_append_right).1 (List.mem_filterMap.mpr ⟨act, again, stores⟩)
        have alone : Interleaves Act.exec (fun _ => false) _ _ _ _ := interleaves_run rest effect.2
        rw [ended] at alone
        refine alone.preserves (P := fun next => next.arr.slot w.key w.slot = w.value) ?_ stored
        rintro other ⟨thread, inPool, inside⟩ s written next same ran
        rw [List.mem_singleton.mp inPool] at inside
        have inFront : other ∈ front := split ▸ List.mem_append_right _ (List.mem_cons_of_mem _ inside)
        rw [front_slot planned inFront asked stores fronted (fun same => once (same ▸ inside)) kept ran, same]
      · have shifted : front = (before ++ [act]) ++ rest := by rw [split, List.append_assoc]; rfl
        exact ih shifted (Prod.ext rfl ended) later

/-- Each stored text is still there at the end. -/
theorem slot_run_front {g next : Globals} {log : List Write} (ran : run Act.exec front g = (log, .done next))
    {w : Write} (member : w ∈ log) : next.arr.slot w.key w.slot = w.value := by
  have split : front = [] ++ front := rfl
  exact slot_run_from planned split ran member

end Stores

/-! ## The result of a call -/

theorem storeFields_result (fields : List Field) (source : Json) (init : Bool) :
    (storeFields fields source init).2 = (storeFields fields source false).2 := by
  induction fields with
  | nil => rfl
  | cons field rest ih =>
    rw [storeFields_cons, storeFields_cons]
    cases field.2 source with
    | ok value => exact ih
    | error e => rfl

private theorem bind_result {α β : Type} {script other : Script α} {next next' : α → Script β}
    (first : script.2 = other.2) (then_ : ∀ a, (next a).2 = (next' a).2) : (script >>= next).2 = (other >>= next').2 := by
  simp only [Bind.bind, first]
  cases other.2 with
  | ok a => exact then_ a
  | error e => rfl

/-- The stores of a call on a response. -/
abbrev callStores (app : AppConfig) (init : Bool) (r : TitanicResponse) : Script Unit :=
  Titanic.stores app init r.users r.stats r.avatar

/-- Whether a response can be read does not depend on the init flag. -/
theorem callStores_result (app : AppConfig) (init : Bool) (r : TitanicResponse) :
    (callStores app init r).2 = (callStores app false r).2 := by
  unfold callStores Titanic.stores
  refine bind_result rfl fun j => bind_result rfl fun j2 => bind_result rfl fun denominator => ?_
  refine bind_result rfl fun name => bind_result rfl fun _ => bind_result rfl fun url => bind_result rfl fun _ => ?_
  refine bind_result rfl fun s => bind_result (storeFields_result _ _ _) fun _ => bind_result rfl fun rnk => ?_
  exact bind_result (storeFields_result _ _ _) fun _ => rfl

/-- A response from which everything is stored, with the status of a success. -/
def Succeeds (app : AppConfig) (r : TitanicResponse) : Prop :=
  r.users.status = 200 ∧ (callStores app false r).2 = .ok ()

instance (app : AppConfig) (r : TitanicResponse) : Decidable (Succeeds app r) :=
  match same : (callStores app false r).2 with
  | .ok () => decidable_of_iff (r.users.status = 200) (by simp [Succeeds, same])
  | .error e => isFalse (by simp [Succeeds, same])

/-- What a call writes besides changes, whatever the table held before. -/
def stored (app : AppConfig) (init : Bool) (r : TitanicResponse) : List Write :=
  (run Act.exec (callStores app init r).1 {}).1

def titanicKeys : List Str := titanicFieldKeys ++ titanicSumKeys

theorem titanicKeys_nodup : titanicKeys.Nodup := by decide +kernel

theorem mem_titanicKeys_iff {key : Str} : key ∈ titanicKeys ↔ key ∈ baselineKeys := by
  have here : ∀ key ∈ titanicKeys, key ∈ baselineKeys := by decide +kernel
  have there : ∀ key ∈ baselineKeys, key ∈ titanicKeys := by decide +kernel
  exact ⟨here key, there key⟩

/-- All sums of a call follow their addends. -/
theorem supply_sums {front : List Act} (ints : ∀ key ∈ gradeKeys ++ (["b", "c", "d"] : List Str),
    ∃ act ∈ front, IntStore key act) (denominator : Int32) (init : Bool) :
    Supply front (Titanic.sums denominator init) := by
  obtain ⟨grades, counts⟩ := List.forall_mem_append.mp ints
  simp only [List.forall_mem_cons] at counts
  obtain ⟨b, c, d, _⟩ := counts
  have later {key : Str} (more : List Act) (stored : ∃ act ∈ front, IntStore key act) :
      ∃ act ∈ front ++ more, IntStore key act :=
    stored.imp fun _ inside => ⟨List.mem_append_left _ inside.1, inside.2⟩
  have clears : ∃ act ∈ front ++ Bancho.gradeSums init, IntStore "clears" act :=
    ⟨_, List.mem_append_right _ (List.mem_cons_of_mem _ (List.mem_cons_of_mem _ List.mem_cons_self)), rfl⟩
  refine supply_append.mpr ⟨supply_gradeSums front grades init, ?_, ?_, trivial⟩
  · simp only [Supplied, List.forall_mem_cons]
    exact ⟨clears, later _ b, later _ c, later _ d, fun _ inside => absurd inside List.not_mem_nil⟩
  · exact ⟨_, List.mem_append_right _ List.mem_cons_self, rfl⟩

theorem callStores_staged (app : AppConfig) (init : Bool) (r : TitanicResponse) {late : List Act}
    (after : ∀ act ∈ late, Late act) : Stage init titanicKeys (callStores app init r).1 late := by
  obtain ⟨head, values, profile, typed, shape⟩ := titanic_storesFields app init r.users r.stats r.avatar
  have plain : ∀ act ∈ head, Plain act := fun act member => (profile act member).plain
  split at shape
  · obtain ⟨part, acts⟩ := shape
    have stage := stage_fields init values plain (part.trans (List.sublist_append_left _ titanicSumKeys))
    rw [acts]
    exact { stage with late := after }
  · obtain ⟨complete, denominator, acts⟩ := shape
    have stage : Stage init titanicFieldKeys _ [] := stage_fields init values plain (complete ▸ List.Sublist.refl _)
    have ints : ∀ key ∈ gradeKeys ++ (["b", "c", "d"] : List Str), key ∈ titanicFieldKeys ∧ typeOf key = some .int := by
      decide +kernel
    rw [acts]
    refine stage.append titanicSumKeys (supply_sums (fun key member => ?_) denominator init) rfl ?_ after
    · obtain ⟨inFields, isInt⟩ := ints key member
      obtain ⟨act, inside, stores⟩ := intStore_of_values complete inFields
        (fun value member same => int_of_typed (typed value member) (same ▸ isInt)) init
      exact ⟨act, List.mem_append_right _ inside, stores⟩
    · simp [Titanic.sums, Bancho.gradeSums, setsInit]

theorem callStores_planned (app : AppConfig) (init : Bool) (r : TitanicResponse) {late : List Act}
    (after : ∀ act ∈ late, Late act) : Planned init [((callStores app init r).1, late)] := by
  refine planned_of_stages (.cons (callStores_staged app init r after) .nil) ?_ ?_
  · rw [List.flatten_singleton]
    exact titanicKeys_nodup
  · rw [List.flatten_singleton]
    exact fun key member => mem_titanicKeys_iff.mp member

/-- In every state a call writes the same before it computes differences. -/
theorem run_callStores (app : AppConfig) (init : Bool) (r : TitanicResponse) (g : Globals) :
    ∃ next, run Act.exec (callStores app init r).1 g = (stored app init r, .done next) := by
  have nothing : ∀ act ∈ ([] : List Act), Late act := nofun
  obtain ⟨log, next, blank, ran, ranBlank⟩ := run_front (callStores_planned app init r nothing) g {}
  have own : stored app init r = log := congrArg Prod.fst ranBlank
  exact ⟨next, own ▸ ran⟩

/-- The shape of the actions, by cases. -/
theorem callStores_act {app : AppConfig} {init : Bool} {r : TitanicResponse} {act : Act}
    (member : act ∈ (callStores app init r).1) :
    Profile act ∨ (∃ key value, act = .setField key value init ∧ Typed key value) ∨
      (∃ denominator, act ∈ Titanic.sums denominator init) := by
  obtain ⟨head, values, profile, typed, shape⟩ := titanic_storesFields app init r.users r.stats r.avatar
  have fields : act ∈ head ++ values.map (store init) →
      Profile act ∨ (∃ key value, act = .setField key value init ∧ Typed key value) := by
    intro inside
    rcases List.mem_append.mp inside with inHead | inFields
    · exact .inl (profile act inHead)
    · obtain ⟨value, stores, rfl⟩ := List.mem_map.mp inFields
      exact .inr ⟨_, _, rfl, typed value stores⟩
  split at shape
  · obtain ⟨_, acts⟩ := shape
    exact (fields (acts ▸ member)).imp_right .inl
  · obtain ⟨_, denominator, acts⟩ := shape
    rcases List.mem_append.mp (acts ▸ member) with inFields | inSums
    · exact (fields inFields).imp_right .inl
    · exact .inr (.inr ⟨denominator, inSums⟩)

theorem mem_sums {denominator : Int32} {init : Bool} {act : Act} (member : act ∈ Titanic.sums denominator init) :
    (∃ key ∈ gradeSumKeys ++ (["totalClears"] : List Str), ∃ addends, act = .setSum key addends init) ∨
      act = .setCompletion denominator init := by
  simp only [Titanic.sums, Bancho.gradeSums, List.cons_append, List.nil_append, List.mem_cons, List.not_mem_nil,
    or_false] at member
  rcases member with rfl | rfl | rfl | rfl | rfl
  · exact .inl ⟨_, by decide, _, rfl⟩
  · exact .inl ⟨_, by decide, _, rfl⟩
  · exact .inl ⟨_, by decide, _, rfl⟩
  · exact .inl ⟨_, by decide, _, rfl⟩
  · exact .inr rfl

/-- No action of a call touches the failure flag. -/
theorem callStores_quiet {app : AppConfig} {init : Bool} {r : TitanicResponse} {act : Act}
    (member : act ∈ (callStores app init r).1) : act ≠ .authFailed ∧ ∀ init, act ≠ .authRecovered init := by
  rcases callStores_act member with profile | ⟨key, value, rfl, _⟩ | ⟨denominator, inSums⟩
  · cases profile <;> exact ⟨nofun, nofun⟩
  · exact ⟨nofun, nofun⟩
  · rcases mem_sums inSums with ⟨key, _, addends, rfl⟩ | rfl <;> exact ⟨nofun, nofun⟩

private theorem typed_sums {denominator : Int32} {init : Bool} {act : Act} (member : act ∈ Titanic.sums denominator init)
    {t : StatTable} {written : List Write} (ran : act.writes t = .ok written) : ∀ w ∈ written, Typed w.key w.value := by
  have field {key value : Str} (typed : Typed key value) : ∀ w ∈ fieldWrites key value init, Typed w.key w.value := by
    intro w inside
    rcases List.mem_cons.mp inside with rfl | more
    · exact typed
    · split at more
      · rw [List.mem_singleton.mp more]
        exact typed
      · cases more
  have ints : ∀ key ∈ gradeSumKeys ++ (["totalClears"] : List Str), typeOf key = some .int := by decide +kernel
  have isFloat : typeOf "completion" = some .float := by decide +kernel
  rcases mem_sums member with ⟨key, isSum, addends, rfl⟩ | rfl
  · obtain ⟨total, _, rfl⟩ := map_eq_ok ran
    exact field (typed_int (ints key isSum) total)
  · obtain ⟨total, _, rfl⟩ := map_eq_ok ran
    exact field (typed_float isFloat (Flt.fits_mul binary32 _ _))

/-- What a call stores: numbers of the right type, and baselines only with the init flag. -/
theorem stored_spec {app : AppConfig} {init : Bool} {r : TitanicResponse} :
    ∀ w ∈ stored app init r, w.key ∈ baselineKeys ∧ w.slot ≠ .change ∧ (w.slot = .init → init = true) ∧
      Typed w.key w.value := by
  have nothing : ∀ act ∈ ([] : List Act), Late act := nofun
  have planned := callStores_planned app init r nothing
  have alone : Interleaves Act.exec (fun _ => false) _ _ _ _ := interleaves_run (callStores app init r).1 {}
  refine alone.forall_log ?_
  rintro act ⟨thread, inPool, inside⟩ s written next ran w member
  rw [List.mem_singleton.mp inPool] at inside
  have fronted : act ∈ fronts [((callStores app init r).1, [])] := by simpa [fronts] using inside
  have source := write_exec (planned.known (inPool_of_front fronted)) ran member
  obtain ⟨stores, _, kept⟩ := front_write planned inside ran member
  refine ⟨planned.baseline fronted stores, kept, fun baseline => ?_, ?_⟩
  · rw [← planned.setsInit_of_stores fronted stores, (source.2.1 baseline).2]
  · rcases callStores_act inside with profile | ⟨key, value, rfl, typed⟩ | ⟨denominator, inSums⟩
    · rw [profile.plain.stores] at stores
      cases stores
    · rw [value_of_setField ran member, ← Option.some.inj stores]
      exact typed
    · exact typed_sums inSums (exec_ok ran).1 w member

/-- A response that can be read has every field with a baseline. -/
theorem stored_complete {app : AppConfig} {r : TitanicResponse} (readable : (callStores app false r).2 = .ok ())
    (init : Bool) {key : Str} (asked : key ∈ baselineKeys) :
    ∃ value, ∀ w ∈ fieldWrites key value init, w ∈ stored app init r := by
  have result := (callStores_result app init r).trans readable
  obtain ⟨head, values, profile, _, shape⟩ := titanic_storesFields app init r.users r.stats r.avatar
  rw [result] at shape
  obtain ⟨complete, denominator, acts⟩ := shape
  have nothing : head.filterMap storedKey = [] :=
    List.filterMap_eq_nil_iff.mpr fun act member => (profile act member).plain.stores
  have keys : (callStores app init r).1.filterMap storedKey = titanicKeys := by
    rw [acts, List.filterMap_append, List.filterMap_append, nothing, filterMap_store, complete]
    rfl
  rw [← mem_titanicKeys_iff, ← keys] at asked
  obtain ⟨act, member, stores⟩ := List.mem_filterMap.mp asked
  obtain ⟨next, ran⟩ := run_callStores app init r {}
  obtain ⟨s, written, after, here, logged⟩ := ran_of_run ran member
  obtain ⟨value, rfl⟩ := writes_of_storedKey stores (exec_ok here).1
  have flagged : setsInit act = init :=
    (callStores_staged app init r fun _ none => absurd none List.not_mem_nil).flagged act member key stores
  exact ⟨value, flagged ▸ logged⟩

end OsuTracker.Soundness.Endpoints
