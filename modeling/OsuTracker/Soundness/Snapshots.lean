import OsuTracker.Soundness.EntryDifferences
import OsuTracker.Soundness.MutexEvents

/-! # Snapshots under the data mutex

The endpoint functions store values and compute changes without the data mutex, so a handler that
holds it may find an entry between a store and the next difference. What the change of an entry
was last computed from is recorded along a run. In every run it is the difference of those two
texts; it is the difference of the texts in the table as long as no handler takes the mutex after
a store and before the difference, and no store moves a value while a handler holds it.
-/

namespace OsuTracker.Soundness.Snapshots

open Cxx Model.Core.Config Model.Core.Formatter Model.Core.Session Model.Api Model.Web.MainWs Model.Web.DataMutex
  Machine.Regions Endpoints CleanStart MutexEvents

/-! ## What a reader should see -/

/-- The change of a non-string entry is its current value minus its baseline, in its type. -/
def ShowsDifference (e : DataEntry) : Prop :=
  match e.dataType with
  | .string => True
  | .int => ∃ current init : Int32, stoi e.current = .ok current ∧ stoi e.init = .ok init ∧
      e.change = stdToString (current - init).toInt
  | .longLong => ∃ current init : Int64, stoll e.current = .ok current ∧ stoll e.init = .ok init ∧
      e.change = stdToString (current - init).toInt
  | .float => ∃ current init : Flt, stof e.current = .ok current ∧ stof e.init = .ok init ∧
      e.change = floatToString (Flt.sub binary32 current init)

/-- A table in which every entry with both values shows their difference. -/
def Consistent (t : StatTable) : Prop :=
  ∀ e ∈ t.entries, e.init ≠ [] → e.current ≠ [] → ShowsDifference e

private theorem read_both_eq_ok {α : Type} (read : Str → Except Exception α) (text : α → α → Str) (x y change : Str) :
    (do let current ← read x; let init ← read y; pure (some (text current init)) : Except Exception (Option Str)) =
        .ok (some change) ↔ ∃ current init, read x = .ok current ∧ read y = .ok init ∧ change = text current init := by
  cases read x with
  | error e => exact ⟨nofun, fun ⟨_, _, read, _⟩ => nomatch read⟩
  | ok current =>
    cases read y with
    | error e => exact ⟨nofun, fun ⟨_, _, _, read, _⟩ => nomatch read⟩
    | ok init =>
      constructor
      · intro same
        exact ⟨current, init, rfl, rfl, (Option.some.inj (Except.ok.inj same)).symm⟩
      · rintro ⟨_, _, sameCurrent, sameInit, rfl⟩
        cases sameCurrent
        cases sameInit
        rfl

/-- That is what one iteration of `calcDifference` stores. -/
theorem showsDifference_iff {e : DataEntry} (numeric : e.dataType ≠ .string) :
    ShowsDifference e ↔ difference e = .ok (some e.change) := by
  unfold ShowsDifference difference
  cases type : e.dataType with
  | string => exact absurd type numeric
  | int => exact (read_both_eq_ok stoi (fun current init => stdToString (current - init).toInt) _ _ _).symm
  | longLong => exact (read_both_eq_ok stoll (fun current init => stdToString (current - init).toInt) _ _ _).symm
  | float => exact (read_both_eq_ok stof (fun current init => floatToString (Flt.sub binary32 current init)) _ _ _).symm

/-! ## Watched runs -/

/-- The entry whose change an action computes. -/
def treats (t : StatTable) : Act → Option DataEntry
  | .calcEntry i => (t.entries[i]?).filter fun e => e.init ≠ [] ∧ e.current ≠ [] ∧ (difference e).toOption.isSome
  | _ => none

/-- A system, and for each entry the baseline and the current value that its change was last
computed from. -/
structure Watched where
  system : System
  basis : Str → Option (Str × Str) := fun _ => none

def record (basis : Str → Option (Str × Str)) : Option DataEntry → Str → Option (Str × Str)
  | some e => Function.update basis e.key (some (e.init, e.current))
  | none => basis

def watch (sort : StdSort bySort) (w : Watched) (event : Event) : Option Watched :=
  (next sort w.system event).map fun s =>
    ⟨s, record w.basis ((acting w.system event).bind (treats w.system.globals.arr))⟩

/-- The change is the difference of the recorded texts. -/
def ComputedFrom (e : DataEntry) : Option (Str × Str) → Prop
  | none => e.change = []
  | some (init, current) => difference { e with init := init, current := current } = .ok (some e.change)

def AllComputed (basis : Str → Option (Str × Str)) (t : StatTable) : Prop :=
  ∀ e ∈ t.entries, e.dataType ≠ .string → ComputedFrom e (basis e.key)

/-- The texts of an entry with both values are the recorded ones. -/
def Settled (basis : Str → Option (Str × Str)) (t : StatTable) : Prop :=
  ∀ e ∈ t.entries, e.dataType ≠ .string → e.init ≠ [] → e.current ≠ [] → basis e.key = some (e.init, e.current)

theorem difference_congr {e e' : DataEntry} (type : e'.dataType = e.dataType) (init : e'.init = e.init)
    (current : e'.current = e.current) : difference e' = difference e := by
  rw [difference, difference, type, init, current]

theorem ComputedFrom.congr {e e' : DataEntry} {basis : Option (Str × Str)} (computed : ComputedFrom e basis)
    (type : e'.dataType = e.dataType) (change : e'.change = e.change) : ComputedFrom e' basis := by
  cases basis with
  | none => exact change.trans computed
  | some texts =>
    have same : difference { e' with init := texts.1, current := texts.2 } =
        difference { e with init := texts.1, current := texts.2 } := difference_congr type rfl rfl
    rw [ComputedFrom, same, change]
    exact computed

/-- The entry with the same key in another table. -/
theorem counterpart (t t' : StatTable) {e' : DataEntry} (member : e' ∈ t'.entries) :
    ∃ e ∈ t.entries, e'.key = e.key ∧ e'.dataType = e.dataType := by
  have kind : e'.kind ∈ t.entries.map DataEntry.kind := by
    rw [t.compiled, ← t'.compiled]
    exact List.mem_map_of_mem member
  obtain ⟨e, inside, same⟩ := List.mem_map.mp kind
  exact ⟨e, inside, (congrArg EntryKind.key same).symm, (congrArg EntryKind.dataType same).symm⟩

/-- Its texts, where the two tables agree. -/
theorem slot_counterpart {t t' : StatTable} {e e' : DataEntry} (member : e ∈ t.entries) (member' : e' ∈ t'.entries)
    (key : e'.key = e.key) (slot : Slot) (same : t'.slot e.key slot = t.slot e.key slot) : e'.slot slot = e.slot slot := by
  rw [← t'.slot_key member', ← t.slot_key member, key, same]

/-! ## Steps -/

theorem writes_of_treats {t : StatTable} {act : Act} {e : DataEntry} (treated : treats t act = some e) :
    e ∈ t.entries ∧ e.init ≠ [] ∧ e.current ≠ [] ∧ ∃ text, difference e = .ok text ∧
      act.writes t = .ok (text.map fun change => ⟨e.key, .change, change⟩).toList := by
  cases act with
  | calcEntry i =>
    obtain ⟨here, computes⟩ := Option.filter_eq_some_iff.mp treated
    obtain ⟨init, current, returns⟩ := of_decide_eq_true computes
    obtain ⟨text, read⟩ := Option.isSome_iff_exists.mp returns
    have returned : difference e = .ok text := EntryDifferences.toOption_eq_some read
    refine ⟨List.mem_of_getElem? here, init, current, text, returned, ?_⟩
    simp only [Act.writes, here, calcWrites, init, current, or_self, ↓reduceIte, returned]
    rfl
  | _ => cases treated

/-- No other action writes a change. -/
theorem not_change_of_untreated {t : StatTable} {act : Act} (untreated : treats t act = none) {written : List Write}
    (ran : act.writes t = .ok written) : ∀ w ∈ written, w.slot ≠ .change := by
  intro w member change
  obtain ⟨i, data, rfl, here, calculated⟩ := calcEntry_of_change ran member change
  obtain ⟨_, _, returned⟩ := change_of_calcWrites calculated member
  have filled : ¬(data.init = [] ∨ data.current = []) := fun empty => by
    rw [calcWrites, if_pos empty] at calculated
    cases calculated
    cases member
  have treated : treats t (.calcEntry i) = some data := by
    rw [treats, here, Option.filter_eq_some_iff]
    exact ⟨rfl, decide_eq_true ⟨fun empty => filled (.inl empty), fun empty => filled (.inr empty), by rw [returned]; rfl⟩⟩
  cases untreated.symm.trans treated

theorem numeric_difference {e : DataEntry} (numeric : e.dataType ≠ .string) {text : Option Str}
    (returned : difference e = .ok text) : ∃ change, text = some change := by
  unfold difference at returned
  cases type : e.dataType with
  | string => exact absurd type numeric
  | int | longLong | float =>
    rw [type] at returned
    obtain ⟨current, _, later⟩ := bind_eq_ok.mp returned
    obtain ⟨init, _, ended⟩ := bind_eq_ok.mp later
    exact ⟨_, (Except.ok.inj ended).symm⟩

theorem key_writes {act : Act} (known : Known act) {g next : Globals} {written : List Write}
    (ran : act.exec g = .ok (written, next)) : ∀ w ∈ written, w.key ∈ keys :=
  fun _ member => (write_exec known ran member).1

/-- An action keeps the record right. -/
theorem allComputed_exec {act : Act} (known : Known act) {g next : Globals} {written : List Write}
    (ran : act.exec g = .ok (written, next)) {basis : Str → Option (Str × Str)} (computed : AllComputed basis g.arr) :
    AllComputed (record basis (treats g.arr act)) next.arr := by
  intro e' member' numeric
  obtain ⟨e, member, key, type⟩ := counterpart g.arr next.arr member'
  have asked := g.arr.key_mem_keys member
  have writes := (exec_ok ran).1
  have old := computed e member (type ▸ numeric)
  -- an entry whose change nothing writes keeps its record
  have kept (others : ∀ w ∈ written, w.key = e.key → w.slot ≠ .change) : ComputedFrom e' (basis e'.key) := by
    refine key ▸ old.congr type (slot_counterpart member member' key .change ?_)
    rw [arr_exec ran]
    exact slot_applyWrites_of_not_written g.arr (key_writes known ran) asked others
  cases treated : treats g.arr act with
  | none => exact kept fun w inside _ => not_change_of_untreated treated writes w inside
  | some own =>
    obtain ⟨listed, _, _, text, returned, wrote⟩ := writes_of_treats treated
    obtain rfl := Except.ok.inj (writes.symm.trans wrote)
    by_cases same : e.key = own.key
    · obtain rfl := g.arr.eq_of_key_eq member listed same
      obtain ⟨change, rfl⟩ := numeric_difference (type ▸ numeric) returned
      have stored : e'.change = change := by
        rw [show e'.change = next.arr.slot e'.key .change from (next.arr.slot_key member' .change).symm, arr_exec ran, key]
        exact (g.arr.slot_setSlot asked asked .change .change change).trans (if_pos ⟨rfl, rfl⟩)
      rw [record, key, Function.update_self, ComputedFrom, stored, ← returned]
      exact difference_congr type rfl rfl
    · rw [record, key, Function.update_of_ne same, ← key]
      refine kept fun w inside named => ?_
      cases text with
      | none => cases inside
      | some change =>
        rw [List.mem_singleton.mp inside] at named
        exact absurd named.symm same

/-- The action stores only texts that are there already. -/
def Quiet (t : StatTable) (act : Act) : Prop :=
  match act.writes t with
  | .ok written => ∀ w ∈ written, w.slot ≠ .change → t.slot w.key w.slot = w.value
  | .error _ => True

theorem sameValues_of_quiet {act : Act} (known : Known act) {g next : Globals} {written : List Write}
    (ran : act.exec g = .ok (written, next)) (quiet : Quiet g.arr act) : SameValues g.arr next.arr := by
  intro key asked slot stored
  rw [arr_exec ran]
  rcases slot_applyWrites g.arr (key_writes known ran) asked slot with same | ⟨w, member, rfl, rfl, found⟩
  · exact same
  · rw [Quiet, (exec_ok ran).1] at quiet
    exact found.trans (quiet w member stored).symm

/-- What is settled stays so while the values stay. -/
theorem settled_of_sameValues {basis : Str → Option (Str × Str)} {t t' : StatTable} (settled : Settled basis t)
    (same : SameValues t t') {treated : Option DataEntry} (listed : ∀ e ∈ treated, e ∈ t.entries) :
    Settled (record basis treated) t' := by
  intro e' member' numeric filledInit filledCurrent
  obtain ⟨e, member, key, type⟩ := counterpart t t' member'
  have asked := t.key_mem_keys member
  have init : e'.init = e.init := slot_counterpart member member' key .init (same _ asked _ nofun)
  have current : e'.current = e.current := slot_counterpart member member' key .current (same _ asked _ nofun)
  have own := settled e member (type ▸ numeric) (init ▸ filledInit) (current ▸ filledCurrent)
  rw [key, init, current]
  cases treated with
  | none => exact own
  | some computed =>
    by_cases same : e.key = computed.key
    · obtain rfl := t.eq_of_key_eq member (listed computed rfl) same
      exact Function.update_self ..
    · rw [record, Function.update_of_ne same]
      exact own

/-! ## Runs -/

/-- What holds along every run. -/
structure Follows (w : Watched) : Prop where
  known : AllKnown w.system.fetching
  computed : AllComputed w.basis w.system.globals.arr

theorem AllComputed.sameTexts {basis : Str → Option (Str × Str)} {g g' : Globals} (computed : AllComputed basis g.arr)
    (same : SameTexts g g') : AllComputed basis g'.arr := by
  intro e' member' numeric
  obtain ⟨e, member, key, type⟩ := counterpart g.arr g'.arr member'
  have own := computed e member (type ▸ numeric)
  exact key ▸ own.congr type (slot_counterpart member member' key .change (same _ _))

theorem follows_step {sort : StdSort bySort} {w w' : Watched} {event : Event} (follows : Follows w)
    (stepped : watch sort w event = some w') : Follows w' := by
  obtain ⟨s', moved, rfl⟩ := Option.map_eq_some_iff.mp stepped
  refine ⟨known_next follows.known moved, ?_⟩
  rcases next_cases moved with ⟨act, acts, _, ran⟩ | ⟨none, same⟩
  · have known := follows.known act (pending_of_acting acts)
    simp only [acts, Option.bind_some]
    rcases ran with ⟨written, ran⟩ | ⟨⟨e, threw⟩, table⟩
    · exact allComputed_exec known ran follows.computed
    · cases treated : treats w.system.globals.arr act with
      | none => exact table ▸ follows.computed
      | some own =>
        obtain ⟨_, _, _, text, _, wrote⟩ := writes_of_treats treated
        cases threw.symm.trans (exec_of_writes wrote)
  · simp only [none, Option.bind_none]
    exact follows.computed.sameTexts same

/-- No handler takes the mutex while a value has moved since its difference was computed, and no
action moves a value while a handler holds it. -/
structure Undisturbed (sort : StdSort bySort) (w : Watched) (event : Event) : Prop where
  takes : w.system.held = false → (next sort w.system event).any System.held = true →
    Settled w.basis w.system.globals.arr
  holds : w.system.held = true → ∀ act ∈ acting w.system event, Quiet w.system.globals.arr act

/-- What holds along an undisturbed run. -/
structure Snapshot (w : Watched) : Prop extends Follows w where
  settled : w.system.held = true → Settled w.basis w.system.globals.arr

theorem snapshot_step {sort : StdSort bySort} {w w' : Watched} {event : Event} (snapshot : Snapshot w)
    (undisturbed : Undisturbed sort w event) (stepped : watch sort w event = some w') : Snapshot w' := by
  refine { follows_step snapshot.toFollows stepped with settled := ?_ }
  obtain ⟨s', moved, rfl⟩ := Option.map_eq_some_iff.mp stepped
  intro held
  rcases next_cases moved with ⟨act, acts, handler, ran⟩ | ⟨none, same⟩
  · have before : w.system.held = true := by rw [System.held, ← handler]; exact held
    have known := snapshot.known act (pending_of_acting acts)
    have quiet := undisturbed.holds before act acts
    have values : SameValues w.system.globals.arr s'.globals.arr := by
      rcases ran with ⟨written, ran⟩ | ⟨_, table⟩
      · exact sameValues_of_quiet known ran quiet
      · rw [table]
        exact fun _ _ _ _ => rfl
    refine settled_of_sameValues (snapshot.settled before) values fun e treated => ?_
    simp only [acts, Option.bind_some] at treated
    exact (writes_of_treats treated).1
  · have settled : Settled w.basis w.system.globals.arr := by
      cases before : w.system.held with
      | true => exact snapshot.settled before
      | false => exact undisturbed.takes before (by rw [moved]; exact held)
    have kept : Settled (record w.basis Option.none) s'.globals.arr :=
      settled_of_sameValues settled (fun key _ slot _ => same key slot) nofun
    simp only [none, Option.bind_none]
    exact kept

theorem difference_ne_nil (e : DataEntry) : difference e ≠ .ok (some []) := by
  intro empty
  unfold difference at empty
  cases type : e.dataType with
  | string => rw [type] at empty; cases empty
  | int | longLong =>
    rw [type] at empty
    obtain ⟨current, _, later⟩ := bind_eq_ok.mp empty
    obtain ⟨init, _, ended⟩ := bind_eq_ok.mp later
    exact stdToString_ne_nil _ (Option.some.inj (Except.ok.inj ended))
  | float =>
    rw [type] at empty
    obtain ⟨current, _, later⟩ := bind_eq_ok.mp empty
    obtain ⟨init, _, ended⟩ := bind_eq_ok.mp later
    exact floatToString_ne_nil _ (Option.some.inj (Except.ok.inj ended))

/-- The table is consistent exactly when every entry with both values has the difference that its
change was computed from. -/
theorem consistent_iff {basis : Str → Option (Str × Str)} {t : StatTable} (computed : AllComputed basis t) :
    Consistent t ↔ ∀ e ∈ t.entries, e.dataType ≠ .string → e.init ≠ [] → e.current ≠ [] →
      ∃ texts, basis e.key = some texts ∧ difference e = difference { e with init := texts.1, current := texts.2 } := by
  constructor
  · intro consistent e member numeric init current
    have shown := (showsDifference_iff numeric).mp (consistent e member init current)
    have own := computed e member numeric
    cases recorded : basis e.key with
    | none =>
      rw [recorded] at own
      rw [show e.change = [] from own] at shown
      exact absurd shown (difference_ne_nil e)
    | some texts =>
      rw [recorded] at own
      exact ⟨texts, rfl, shown.trans own.symm⟩
  · intro all e member init current
    by_cases numeric : e.dataType = .string
    · simp only [ShowsDifference, numeric]
    · obtain ⟨texts, recorded, same⟩ := all e member numeric init current
      have own := computed e member numeric
      rw [recorded] at own
      exact (showsDifference_iff numeric).mpr (same.trans own)

theorem consistent_of_settled {basis : Str → Option (Str × Str)} {t : StatTable} (computed : AllComputed basis t)
    (settled : Settled basis t) : Consistent t :=
  (consistent_iff computed).mpr fun e member numeric init current =>
    ⟨(e.init, e.current), settled e member numeric init current, rfl⟩

/-- A process starts with a clear table and records nothing. -/
theorem snapshot_start {g : Globals} (clear : g.arr.IsClear) : Snapshot { system := { globals := g } } where
  known := nofun
  computed := fun e member _ => clear e member .change
  settled := nofun

/-- In every run, whatever the order of its events, the record tells whether the table is consistent. -/
theorem consistent_iff_of_run {sort : StdSort bySort} {g : Globals} (clear : g.arr.IsClear) {events : List Event}
    {w : Watched} (ran : execute (watch sort) { system := { globals := g } } events = some w) :
    Consistent w.system.globals.arr ↔ ∀ e ∈ w.system.globals.arr.entries, e.dataType ≠ .string → e.init ≠ [] →
      e.current ≠ [] → ∃ texts, w.basis e.key = some texts ∧
        difference e = difference { e with init := texts.1, current := texts.2 } :=
  have follows : Follows w := execute_preserves (fun _ _ _ follows moved => follows_step follows moved)
    (snapshot_start clear).toFollows ran
  consistent_iff follows.computed

theorem execute_watch {sort : StdSort bySort} {g : Globals} {events : List Event} {s : System}
    (ran : execute (next sort) { globals := g } events = some s) :
    ∃ w, execute (watch sort) { system := { globals := g } } events = some w ∧ w.system = s := by
  have same : (execute (watch sort) { system := { globals := g } } events).map Watched.system =
      execute (next sort) { globals := g } events :=
    execute_project Watched.system (fun w event => by simp [watch, Function.comp_def]) _ events
  exact Option.map_eq_some_iff.mp (same.trans ran)

/-- A handler that holds the mutex in an undisturbed run reads a consistent table. -/
theorem consistent_of_undisturbed {sort : StdSort bySort} {g : Globals} (clear : g.arr.IsClear) {events : List Event}
    {s : System} (ran : execute (next sort) { globals := g } events = some s)
    (undisturbed : Respects (watch sort) (Undisturbed sort) { system := { globals := g } } events)
    (held : s.held = true) : Consistent s.globals.arr := by
  obtain ⟨w, watched, rfl⟩ := execute_watch ran
  have snapshot : Snapshot w := execute_invariant
    (fun _ _ _ holds allowed moved => snapshot_step holds allowed moved) (snapshot_start clear) watched undisturbed
  exact consistent_of_settled snapshot.computed (snapshot.settled held)

/-! ## A cycle with a new rank -/

instance (basis : Str → Option (Str × Str)) (t : StatTable) : Decidable (Settled basis t) :=
  inferInstanceAs (Decidable (∀ e ∈ t.entries, _ → _ → _ → _ = _))

instance (t : StatTable) (act : Act) : Decidable (Quiet t act) := by
  unfold Quiet
  cases act.writes t with
  | ok written => exact inferInstanceAs (Decidable (∀ w ∈ written, _ → _ = _))
  | error e => exact .isTrue trivial

instance (sort : StdSort bySort) (w : Watched) (event : Event) : Decidable (Undisturbed sort w event) :=
  decidable_of_iff ((w.system.held = false → (next sort w.system event).any System.held = true →
      Settled w.basis w.system.globals.arr) ∧
    (w.system.held = true → ∀ act ∈ acting w.system event, Quiet w.system.globals.arr act))
    ⟨fun both => ⟨both.1, both.2⟩, fun undisturbed => ⟨undisturbed.takes, undisturbed.holds⟩⟩

/-- Only the score rank is known. -/
def ranked : Responses :=
  { unreachable with respektiveUser := ⟨200, some (.arr [.obj [("rank", .int 5)]])⟩ }

/-- The second thread runs some of its actions, then an overlay takes the mutex. -/
def readAfter (actions : ℕ) : List Event :=
  .beginCycle true ranked :: List.replicate actions (.thread 1) ++ [.message .overlay, .handler]

/-- After the store of the rank and the differences the table is consistent. -/
theorem readAfter_consistent : ∃ s, execute (next stableBySort) { globals := {} } (readAfter 32) = some s ∧
    s.held = true ∧ Consistent s.globals.arr := by
  have reads : (execute (next stableBySort) { globals := {} } (readAfter 32)).any System.held = true := by
    decide +kernel
  obtain ⟨s, ran, held⟩ := (Option.any_eq_true _ _).mp reads
  exact ⟨s, ran, held, consistent_of_undisturbed StatTable.isClear_initial ran (by decide +kernel) held⟩

/-- Between them, the rank has both values and no change. -/
theorem readAfterStore_inconsistent : ¬∀ (sort : StdSort bySort) (g : Globals) (events : List Event) (s : System),
    g.arr.IsClear → execute (next sort) { globals := g } events = some s → s.held = true → Consistent s.globals.arr := by
  intro all
  have reads : (execute (next stableBySort) { globals := {} } (readAfter 1)).any (fun s => s.held &&
      s.globals.arr.entries.any fun e => e.dataType = .int ∧ e.init ≠ [] ∧ e.current ≠ [] ∧ e.change = []) = true := by
    decide +kernel
  obtain ⟨s, ran, found⟩ := (Option.any_eq_true _ _).mp reads
  obtain ⟨held, stale⟩ := (Bool.and_eq_true _ _).mp found
  obtain ⟨e, member, texts⟩ := List.any_eq_true.mp stale
  obtain ⟨type, init, current, change⟩ := of_decide_eq_true texts
  have consistent := all stableBySort {} (readAfter 1) s StatTable.isClear_initial ran held
  have shown := (showsDifference_iff (by rw [type]; decide)).mp (consistent e member init current)
  rw [change] at shown
  exact difference_ne_nil e shown

end OsuTracker.Soundness.Snapshots
