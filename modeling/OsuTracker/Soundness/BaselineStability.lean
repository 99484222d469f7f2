import OsuTracker.Soundness.Endpoints.Schedules
import OsuTracker.Soundness.Endpoints.TitanicCycles

/-! # Baselines are stable

A baseline that a cycle of a session has stored stays for the session, whatever is left over from
earlier ones, unless the private server is selected, the failure flag is up after the first cycle
and the first later success offers other texts in its second call than the first cycle stored.
The flag is up when an earlier session left it so, or when the first call failed after it had
stored some fields.
-/

namespace OsuTracker.Soundness.BaselineStability

open Cxx Model.Core.Config Model.Core.Formatter Model.Core.Session Model.Api Machine.Threads Endpoints

/-- No later cycle changes a baseline that an earlier one stored. -/
def KeepsBaselines (earlier later : Record) : Prop :=
  ∀ key ∈ keys, (∃ w ∈ earlier.log, w.key = key ∧ w.slot = .init) →
    later.state.arr.slot key .init = earlier.state.arr.slot key .init

instance (earlier later : Record) : Decidable (KeepsBaselines earlier later) :=
  inferInstanceAs (Decidable (∀ key ∈ keys, _ → _))

def Stable (records : List Record) : Prop := records.Pairwise KeepsBaselines

instance (records : List Record) : Decidable (Stable records) :=
  inferInstanceAs (Decidable (records.Pairwise KeepsBaselines))

/-- Two calls store different baselines in some field. -/
def Conflict (app : AppConfig) (first again : TitanicResponse) : Prop :=
  ∃ w ∈ stored app true first, ∃ w' ∈ stored app true again,
    w.key = w'.key ∧ w.slot = .init ∧ w'.slot = .init ∧ w.value ≠ w'.value

/-- The responses of a session that changes a stored baseline. -/
def Replaces (g : Globals) : List Responses → Prop
  | [] => False
  | first :: later =>
    g.simulateMode = false ∧ g.application.server = Server.titanic ∧
      (g.initApiFailed = true ∨ ¬Succeeds g.application first.titanic) ∧
      Ready (applyWrites g.arr (stored g.application true first.titanic)) ∧
      ∃ r, later.find? (Succeeds g.application ·.titanic) = some r ∧
        Conflict g.application first.titanic r.titanicAgain

variable {sort : StdSort bySort}

/-! ## Sessions that store baselines once -/

/-- Later cycles that store no baselines keep all of them. -/
theorem stable_of_kept (I : Globals → Prop) {g : Globals} {rs : List Responses} {records : List Record}
    (run : FetchLoop sort false g rs records) (start : I g)
    (step : ∀ r g log g', I g → Cycle sort r false g log (.done g') → I g' ∧
      (∀ key ∈ keys, g'.arr.slot key .init = g.arr.slot key .init) ∧ ∀ w ∈ log, w.slot ≠ .init) :
    Stable records ∧ ∀ record ∈ records, ∀ key ∈ keys, record.state.arr.slot key .init = g.arr.slot key .init := by
  induction rs generalizing g records with
  | nil => cases run; exact ⟨.nil, nofun⟩
  | cons r rest ih =>
    cases run with
    | @cons _ _ g' _ log _ records cycle later =>
      obtain ⟨next, kept, none⟩ := step r g log g' start cycle
      obtain ⟨stable, inits⟩ := ih later next
      refine ⟨List.pairwise_cons.mpr ⟨?_, stable⟩, List.forall_mem_cons.mpr ⟨kept, ?_⟩⟩
      · rintro record _ key _ ⟨w, member, _, baseline⟩
        exact absurd baseline (none w member)
      · exact fun record member key known => (inits record member key known).trans (kept key known)

/-- The same after a first cycle that may store baselines. -/
theorem stable_cons (I : Globals → Prop) {g' : Globals} {log : List Write} {rs : List Responses} {records : List Record}
    (run : FetchLoop sort false g' rs records) (start : I g')
    (step : ∀ r g log g', I g → Cycle sort r false g log (.done g') → I g' ∧
      (∀ key ∈ keys, g'.arr.slot key .init = g.arr.slot key .init) ∧ ∀ w ∈ log, w.slot ≠ .init) :
    Stable (⟨log, g'⟩ :: records) := by
  obtain ⟨stable, inits⟩ := stable_of_kept I run start step
  exact List.pairwise_cons.mpr ⟨fun record member key known _ => inits record member key known, stable⟩

/-! ## The private server -/

section Titanic

variable {app : AppConfig} (titanic : app.server = Server.titanic)

/-- The text that a call with the init flag puts over a table. -/
theorem slot_stored (t : StatTable) {r : TitanicResponse} {w : Write} (member : w ∈ stored app true r) :
    (applyWrites t (stored app true r)).slot w.key w.slot = w.value := by
  obtain ⟨next, ran⟩ := run_callStores app true r { arr := t }
  have nothing : ∀ act ∈ ([] : List Act), Late act := nofun
  have planned := callStores_planned app true r nothing
  have alone : Interleaves Act.exec (fun _ => false) _ _ _ _ := interleaves_run (callStores app true r).1 { arr := t }
  rw [ran] at alone
  have effect := effect_of_interleaves alone fun act inPool => planned.known (by simpa [threadsOf] using inPool)
  rw [← effect.arr]
  exact slot_run_front planned ran member

include titanic

/-- While no call succeeds with the flag up, later cycles keep all baselines. -/
theorem stable_later {g : Globals} {rs : List Responses} {records : List Record}
    (run : FetchLoop sort false g rs records) (live : Runs app false g)
    (unmoved : g.initApiFailed = false ∨ ¬Ready g.arr ∨ rs.find? (Succeeds app ·.titanic) = none) :
    Stable records ∧ ∀ record ∈ records, ∀ key ∈ keys, record.state.arr.slot key .init = g.arr.slot key .init := by
  induction rs generalizing g records with
  | nil => cases run; exact ⟨.nil, nofun⟩
  | cons r rest ih =>
    cases run with
    | @cons _ _ g' _ log _ records cycle later =>
      have next := live.next cycle
      have effect : Effect g log g' := cycle_effect cycle
      obtain ⟨real, rfl⟩ := live
      rcases titanic_later real titanic cycle with ⟨_, keeps⟩ | ⟨⟨succeeds, ready, up⟩, _⟩
      · have still : g'.initApiFailed = false ∨ ¬Ready g'.arr ∨ rest.find? (Succeeds g.application ·.titanic) = none := by
          rw [keeps.1, keeps.ready effect]
          refine unmoved.imp_right (Or.imp_right fun none => ?_)
          exact List.find?_eq_none.mpr fun other member =>
            List.find?_eq_none.mp none other (List.mem_cons_of_mem _ member)
        obtain ⟨stable, inits⟩ := ih later next still
        have kept : ∀ key ∈ keys, g'.arr.slot key .init = g.arr.slot key .init :=
          fun key known => keeps.slot_init effect known
        refine ⟨List.pairwise_cons.mpr ⟨?_, stable⟩, List.forall_mem_cons.mpr ⟨kept, ?_⟩⟩
        · rintro record _ key _ ⟨w, member, _, baseline⟩
          exact absurd baseline (keeps.no_init member)
        · exact fun record member key known => (inits record member key known).trans (kept key known)
      · rcases unmoved with down | unready | none
        · cases up.symm.trans down
        · exact absurd ready unready
        · exact absurd succeeds (by simpa using List.find?_eq_none.mp none r List.mem_cons_self)

/-- Otherwise the first success stores the baselines of its second call, once. -/
theorem rebased_later {g : Globals} {rs : List Responses} {records : List Record}
    (run : FetchLoop sort false g rs records) (live : Runs app false g) (up : g.initApiFailed = true) (ready : Ready g.arr)
    {found : Responses} (first : rs.find? (Succeeds app ·.titanic) = some found) :
    Stable records ∧
      (∀ record ∈ records, ∀ key ∈ keys, record.state.arr.slot key .init = g.arr.slot key .init ∨
        record.state.arr.slot key .init = (applyWrites g.arr (stored app true found.titanicAgain)).slot key .init) ∧
      ∃ record ∈ records, ∀ key ∈ keys,
        record.state.arr.slot key .init = (applyWrites g.arr (stored app true found.titanicAgain)).slot key .init := by
  induction rs generalizing g records with
  | nil => cases first
  | cons r rest ih =>
    cases run with
    | @cons _ _ g' _ log _ records cycle later =>
      have next := live.next cycle
      have effect : Effect g log g' := cycle_effect cycle
      obtain ⟨real, rfl⟩ := live
      rcases titanic_later real titanic cycle with ⟨not, keeps⟩ | ⟨⟨succeeds, _, _⟩, rebases⟩
      · have fails : ¬Succeeds g.application r.titanic := fun succeeds => not ⟨succeeds, ready, up⟩
        rw [List.find?_cons_of_neg (by simpa using fails)] at first
        have kept : ∀ key ∈ keys, g'.arr.slot key .init = g.arr.slot key .init :=
          fun key known => keeps.slot_init effect known
        obtain ⟨stable, either, record, member, there⟩ :=
          ih later next (keeps.1.trans up) ((keeps.ready effect).mpr ready) first
        have same : ∀ key ∈ keys, (applyWrites g'.arr (stored g.application true found.titanicAgain)).slot key .init =
            (applyWrites g.arr (stored g.application true found.titanicAgain)).slot key .init :=
          fun key known => slot_applyWrites_congr stored_known known (kept key known)
        refine ⟨List.pairwise_cons.mpr ⟨?_, stable⟩, List.forall_mem_cons.mpr ⟨fun key known => .inl (kept key known), ?_⟩,
          record, List.mem_cons_of_mem _ member, fun key known => (there key known).trans (same key known)⟩
        · rintro record _ key _ ⟨w, member, _, baseline⟩
          exact absurd baseline (keeps.no_init member)
        · intro record member key known
          exact (either record member key known).imp (·.trans (kept key known)) (·.trans (same key known))
      · rw [List.find?_cons_of_pos (by simpa using succeeds)] at first
        obtain rfl := Option.some.inj first
        have moved : ∀ key ∈ keys, g'.arr.slot key .init =
            (applyWrites g.arr (stored g.application true r.titanicAgain)).slot key .init :=
          fun key known => rebases.slot_init effect known
        obtain ⟨stable, inits⟩ := stable_later titanic later next (.inl rebases.1)
        refine ⟨List.pairwise_cons.mpr ⟨fun record member key known _ => inits record member key known, stable⟩,
          List.forall_mem_cons.mpr ⟨fun key known => .inr (moved key known), ?_⟩, _, List.mem_cons_self, moved⟩
        exact fun record member key known => .inr ((inits record member key known).trans (moved key known))

end Titanic

/-! ## Sessions -/

/-- A session on the private server, after its first cycle. -/
theorem titanic_stable_iff {app : AppConfig} (titanic : app.server = Server.titanic) {g g' : Globals} {first : Responses}
    {log : List Write} {later : List Responses} {records : List Record} (live : Runs app false g)
    (cycle : Cycle sort first true g log (.done g')) (run : FetchLoop sort false g' later records) :
    Stable (⟨log, g'⟩ :: records) ↔ ¬Replaces g (first :: later) := by
  have next := live.next cycle
  have effect : Effect g log g' := cycle_effect cycle
  obtain ⟨real, rfl⟩ := live
  obtain ⟨⟨changes, split, unchanged⟩, flag⟩ := titanic_first real titanic cycle
  have values {key : Str} (known : key ∈ keys) {slot : Slot} (other : slot ≠ .change) :
      g'.arr.slot key slot = (applyWrites g.arr (stored g.application true first.titanic)).slot key slot :=
    slot_first effect split unchanged known other
  have ready : Ready g'.arr ↔ Ready (applyWrites g.arr (stored g.application true first.titanic)) := by
    have known : ∀ key ∈ targetKeys, key ∈ keys := by decide +kernel
    exact ready_congr (fun key inside => values inside (by decide)) fun key target => values (known key target) (by decide)
  rw [returns_iff, ← ready] at flag
  by_cases moves : g'.initApiFailed = true ∧ Ready g'.arr ∧ ∃ r, later.find? (Succeeds g.application ·.titanic) = some r
  · obtain ⟨up, isReady, r, found⟩ := moves
    obtain ⟨stable, either, record, member, there⟩ := rebased_later titanic run next up isReady found
    have replaces : Replaces g (first :: later) ↔ Conflict g.application first.titanic r.titanicAgain := by
      have missing : g.initApiFailed = true ∨ ¬Succeeds g.application first.titanic :=
        (flag.mp up).imp_right fun not succeeds => not ⟨succeeds, isReady⟩
      constructor
      · rintro ⟨_, _, _, _, other, found', conflict⟩
        obtain rfl := Option.some.inj (found.symm.trans found')
        exact conflict
      · exact fun conflict => ⟨real, titanic, missing, ready.mp isReady, r, found, conflict⟩
    have baseline {w : Write} (inside : w ∈ stored g.application true first.titanic) (slot : w.slot = .init) :
        g'.arr.slot w.key .init = w.value := by
      rw [values (stored_known w inside) (by decide), ← slot]
      exact slot_stored g.arr inside
    rw [replaces]
    constructor
    · rintro all ⟨w, inside, w', inside', same, slot, slot', differ⟩
      have kept := (List.pairwise_cons.mp all).1 record member w.key (stored_known w inside)
        ⟨w, split ▸ List.mem_append_left _ inside, rfl, slot⟩
      rw [there w.key (stored_known w inside), baseline inside slot] at kept
      refine differ (kept.symm.trans ?_)
      rw [same, ← slot']
      exact slot_stored g'.arr inside'
    · intro agree
      refine List.pairwise_cons.mpr ⟨?_, stable⟩
      rintro record' member' key known ⟨w, inLog, rfl, slot⟩
      rcases either record' member' w.key known with kept | moved
      · exact kept
      · refine moved.trans ?_
        rcases slot_applyWrites g'.arr (stored_known (r := r.titanicAgain)) known .init with
          same | ⟨w', inside', same, slot', text⟩
        · exact same
        · have inside : w ∈ stored g.application true first.titanic := by
            rcases List.mem_append.mp (split ▸ inLog) with fields | rest
            · exact fields
            · cases (unchanged w rest).symm.trans slot
          rw [text, baseline inside slot]
          by_contra differ
          exact agree ⟨w, inside, w', inside', same.symm, slot, slot', fun equal => differ equal.symm⟩
  · have unmoved : g'.initApiFailed = false ∨ ¬Ready g'.arr ∨ later.find? (Succeeds g.application ·.titanic) = none := by
      cases up : g'.initApiFailed with
      | false => exact .inl rfl
      | true =>
        by_cases isReady : Ready g'.arr
        · exact .inr (.inr (Option.eq_none_iff_forall_ne_some.mpr fun r found => moves ⟨up, isReady, r, found⟩))
        · exact .inr (.inl isReady)
    obtain ⟨stable, inits⟩ := stable_later titanic run next unmoved
    refine iff_of_true (List.pairwise_cons.mpr ⟨fun record member key known _ => inits record member key known, stable⟩) ?_
    rintro ⟨_, _, missing, isReady, r, found, _⟩
    exact moves ⟨flag.mpr (missing.imp_right fun fails both => fails both.1), ready.mpr isReady, r, found⟩

/-- Exactly when the baselines of a session are stable. -/
theorem stable_iff {g : Globals} {rs : List Responses} {records : List Record} (run : FetchLoop sort true g rs records) :
    Stable records ↔ ¬Replaces g rs := by
  cases run with
  | nil => exact iff_of_true .nil id
  | @cons _ _ g' first log later records cycle run =>
    have runs : Runs g.application g.simulateMode g := ⟨rfl, rfl⟩
    by_cases titanic : g.simulateMode = false ∧ g.application.server = Server.titanic
    · exact titanic_stable_iff titanic.2 ⟨titanic.1, rfl⟩ cycle run
    · refine iff_of_true (stable_cons (Runs g.application g.simulateMode) run (runs.next cycle) ?_) ?_
      · intro r s log s' runs cycle
        refine ⟨runs.next cycle, ?_⟩
        by_cases bancho : g.simulateMode = false ∧ g.application.server = Server.bancho
        · have live := runs.1.trans bancho.1
          have server : s.application.server = Server.bancho := runs.2 ▸ bancho.2
          exact ⟨fun key known => bancho_kept live server cycle known,
            fun w member baseline => absurd ((bancho_written live server cycle member).1 baseline) Bool.false_ne_true⟩
        · have effect : Effect s log s' := cycle_effect cycle
          have idle : Idle g.application g.simulateMode false := by
            cases mode : g.simulateMode with
            | true => exact .inl ⟨rfl, rfl⟩
            | false => exact .inr ⟨rfl, fun same => bancho ⟨mode, same⟩, fun same => titanic ⟨mode, same⟩⟩
          obtain rfl := idle_cycle runs idle cycle
          exact ⟨fun key _ => by rw [effect.arr]; rfl, nofun⟩
      · exact fun replaces => titanic ⟨replaces.1, replaces.2.1⟩

/-- The private server, after a session that ended with the flag up. -/
def leftover : Globals where
  application := { server := Server.titanic }
  initApiFailed := true

/-- A play between the first and the second cycle. -/
def onePlay : List Responses :=
  [{ unreachable with titanic := titanicProfile 1 },
    { unreachable with titanic := titanicProfile 2, titanicAgain := titanicProfile 2 }]

/-- The second cycle moves the baseline of the play count from one to two. -/
theorem onePlay_not_stable : ∃ records, FetchLoop stableBySort true leftover onePlay records ∧ ¬Stable records :=
  ⟨_, loop_runLoop stableBySort (by decide +kernel), by decide +kernel⟩

/-- The same responses with the flag down. -/
theorem onePlay_stable : ∃ records,
    FetchLoop stableBySort true { leftover with initApiFailed := false } onePlay records ∧
      (Stable records ↔ ¬Replaces { leftover with initApiFailed := false } onePlay) := by
  have run : FetchLoop stableBySort true { leftover with initApiFailed := false } onePlay _ :=
    loop_runLoop stableBySort (by decide +kernel)
  exact ⟨_, run, stable_iff run⟩

end OsuTracker.Soundness.BaselineStability
