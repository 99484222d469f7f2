import OsuTracker.Soundness.Endpoints.Schedules

/-! # What a failed call leaves

The profile functions of the two servers store their fields one by one while they read the
response. A call that ends in a caught exception returns `-1` and keeps what it had stored by
then, each field whole, as baseline too where the init flag is set; the other fields, and the name
of the user if it had not been read, are as before the call. On the official server a status other
than that of a success returns before anything is stored.
-/

namespace OsuTracker.Soundness.FailedCalls

open Cxx Model.Core.Config Model.Api Machine.Threads Endpoints

/-! ## The actions that ran -/

/-- The state `g'` of a call that stopped after the actions `ran`. -/
structure StoppedAfter (ran : List Act) (g g' : Globals) : Prop where
  stored : ∀ act ∈ ran, Holds act g'
  kept : ∀ key ∈ keys, (∀ act ∈ ran, storedKey act ≠ some key) →
    ∀ slot, slot ≠ .change → g'.arr.slot key slot = g.arr.slot key slot
  baselines : (∀ act ∈ ran, setsInit act = false) → ∀ key ∈ keys, g'.arr.slot key .init = g.arr.slot key .init
  changes : (∀ i, .calcEntry i ∉ ran) → ∀ key ∈ keys, g'.arr.slot key .change = g.arr.slot key .change
  username : g'.user.username = g.user.username ∨ .setUsername g'.user.username ∈ ran

/-- A call whose actions threw: those before the one that did have run, and nothing else has. -/
def Interrupted (acts : List Act) (g : Globals) (log : List Write) (g' : Globals) : Prop :=
  ∃ ran failed rest e, acts = ran ++ failed :: rest ∧ run Act.exec ran g = (log, .done g') ∧
    failed.exec g' = .error e ∧ StoppedAfter ran g g'

/-- A fact that every action keeps is kept by a run. -/
theorem run_keeps {P : Globals → Prop} {acts : List Act} {g g' : Globals} {log : List Write}
    (step : ∀ act ∈ acts, ∀ s written next, P s → act.exec s = .ok (written, next) → P next) (start : P g)
    (ran : run Act.exec acts g = (log, .done g')) : P g' := by
  have alone : Interleaves Act.exec (fun _ => false) [acts] g _ _ := interleaves_run acts g
  rw [ran] at alone
  refine alone.preserves (P := P) ?_ start
  rintro act ⟨thread, inPool, inside⟩
  rw [List.mem_singleton.mp inPool] at inside
  exact step act inside

/-- Only its own action sets the name. -/
theorem username_exec {act : Act} {g next : Globals} {written : List Write} (ran : act.exec g = .ok (written, next)) :
    next.user.username = g.user.username ∨ act = .setUsername next.user.username := by
  rw [(exec_ok ran).2]
  cases act with
  | setUsername name => exact .inr rfl
  | refreshAvatar url download =>
    simp only [Act.effect]
    split
    · exact .inl rfl
    · cases download <;> exact .inl rfl
  | authRecovered init => simp only [Act.effect]; split <;> exact .inl rfl
  | _ => exact .inl rfl

/-- Stores that do not undo each other all hold at the end. -/
theorem holds_run {acts : List Act} (known : ∀ act ∈ acts, Known act)
    (stable : ∀ act ∈ acts, ∀ other ∈ acts, ∀ s written next, Holds act s → other.exec s = .ok (written, next) →
      Holds act next) {g g' : Globals} {log : List Write} (ran : run Act.exec acts g = (log, .done g')) :
    ∀ act ∈ acts, Holds act g' := by
  induction acts generalizing g log with
  | nil => nofun
  | cons first rest ih =>
    obtain ⟨knownFirst, knownRest⟩ := List.forall_mem_cons.mp known
    cases now : first.exec g with
    | error e =>
      rw [run_cons_error now] at ran
      cases (Prod.mk.inj ran).2
    | ok effect =>
      rw [run_cons_ok now] at ran
      have later : run Act.exec rest effect.2 = (_, .done g') := Prod.ext rfl (Prod.mk.inj ran).2
      refine List.forall_mem_cons.mpr ⟨?_, ih knownRest ?_ later⟩
      · exact run_keeps (fun other inside => stable first List.mem_cons_self other (List.mem_cons_of_mem _ inside))
          (holds_exec knownFirst now) later
      · exact fun act inside other inRest =>
          stable act (List.mem_cons_of_mem _ inside) other (List.mem_cons_of_mem _ inRest)

/-- A call whose stores only closing actions follow, stopped anywhere. -/
theorem stoppedAfter_of_planned {init : Bool} {front late : List Act} (planned : Planned init [(front, late)])
    (closing : ∀ act ∈ late, Closing act) {ran : List Act} (part : ∀ act ∈ ran, act ∈ front ++ late) {g g' : Globals}
    {log : List Write} (returned : run Act.exec ran g = (log, .done g')) : StoppedAfter ran g g' := by
  have inPool {act : Act} (member : act ∈ ran) : InPool (threadsOf [(front, late)]) act :=
    ⟨_, List.mem_singleton.mpr rfl, part act member⟩
  have known : ∀ act ∈ ran, Known act := fun act member => planned.known (inPool member)
  have unclosed {act : Act} (member : act ∈ ran) {P : Prop} (store : act ∈ front → P) (close : Closing act → P) : P :=
    (List.mem_append.mp (part act member)).elim store fun inLate => close (closing act inLate)
  constructor
  · refine holds_run known (fun act member other inside s written next holds step => ?_) returned
    refine unclosed member (fun inFront => ?_) fun closes => ?_
    · exact planned.stable (by simpa [fronts] using inFront) (inPool inside) holds step
    · cases closes <;> trivial
  · intro key asked others slot stored
    refine run_keeps (P := fun s => s.arr.slot key slot = g.arr.slot key slot) ?_ rfl returned
    intro act member s written next same step
    have uncleared : act ≠ .clearInvalid key := by
      refine unclosed member (fun inFront => ?_) fun closes => by cases closes <;> nofun
      obtain ⟨before, after, split⟩ := List.append_of_mem inFront
      rintro rfl
      exact (planned.supply _ (List.mem_singleton.mpr rfl)).supplied split
    rw [slot_exec (known act member) step asked stored (others act member) uncleared, same]
  · intro unset key asked
    refine run_keeps (P := fun s => s.arr.slot key .init = g.arr.slot key .init) ?_ rfl returned
    intro act member s written next same step
    rw [init_exec (known act member) (unset act member) step asked, same]
  · intro none key asked
    refine run_keeps (P := fun s => s.arr.slot key .change = g.arr.slot key .change) ?_ rfl returned
    intro act member s written next same step
    rw [change_exec (known act member) (fun i same => none i (same ▸ member)) step asked, same]
  · refine run_keeps (P := fun s => s.user.username = g.user.username ∨ .setUsername s.user.username ∈ ran) ?_
      (.inl rfl) returned
    intro act member s written next before step
    rcases username_exec step with same | rfl
    · rwa [same]
    · exact .inr member

theorem interrupted {init : Bool} {front late : List Act} (planned : Planned init [(front, late)])
    (closing : ∀ act ∈ late, Closing act) {g g' : Globals} {log : List Write} {e : Exception}
    (threw : run Act.exec (front ++ late) g = (log, .threw e g')) : Interrupted (front ++ late) g log g' := by
  obtain ⟨ran, failed, rest, split, returned, failure⟩ := run_eq_threw threw
  refine ⟨ran, failed, rest, e, split, returned, failure, stoppedAfter_of_planned planned closing ?_ returned⟩
  exact fun act member => split ▸ List.mem_append_left _ member

/-! ## The two functions -/

theorem api_interrupted {app : AppConfig} {init : Bool} {r : Http} {avatar : Option (List UInt8)} {g g' : Globals}
    {log : List Write} {e : Exception} (threw : run Act.exec (Bancho.api app init r avatar).acts g = (log, .threw e g')) :
    Interrupted (Bancho.api app init r avatar).acts g log g' := by
  obtain ⟨front, late, acts, stage, closing⟩ := (api_closed app init r avatar).acts
  have distinct : [apiKeys ++ gradeSumKeys].flatten.Nodup := by decide +kernel
  have baseline : ∀ key ∈ [apiKeys ++ gradeSumKeys].flatten, key ∈ baselineKeys := by decide +kernel
  rw [acts] at threw ⊢
  exact interrupted (planned_of_stages (.cons stage .nil) distinct baseline) closing threw

theorem titanic_interrupted {app : AppConfig} {init : Bool} {r : TitanicResponse} {g g' : Globals} {log : List Write}
    {e : Exception} (threw : run Act.exec (Titanic.script app init r.users r.stats r.avatar).acts g = (log, .threw e g')) :
    Interrupted (Titanic.script app init r.users r.stats r.avatar).acts g log g' := by
  have closing := closing_afterStores (callStores app init r).2
  rw [script_acts] at threw ⊢
  exact interrupted (callStores_planned app init r fun act member => (closing act member).late) closing threw

/-- A status other than that of a success stores nothing. -/
theorem api_of_failure {app : AppConfig} {init : Bool} {r : Http} {avatar : Option (List UInt8)}
    (failed : r.status ≠ 200) {g g' : Globals} {log : List Write}
    (returned : run Act.exec (Bancho.api app init r avatar).acts g = (log, .done g')) : g' = g := by
  unfold Bancho.api at returned
  split at returned
  · cases returned
  · cases returned
    rfl

/-- What a call that did not succeed leaves. A call of `titanic` that returns another value than the
status of its response has caught an exception. -/
theorem failed_calls_stop (init : Bool) (g g' : Globals) (log : List Write) (status : Int32) :
    (∀ r avatar, callApi init r avatar g = (log, .returned status g') → status ≠ 200 →
      g' = g ∨ status = -1 ∧ Interrupted (Bancho.api g.application init r avatar).acts g log g') ∧
    ∀ r : TitanicResponse, callTitanic init r g = (log, .returned status g') → status ≠ r.users.status →
      status = -1 ∧ Interrupted (Titanic.script g.application init r.users r.stats r.avatar).acts g log g' := by
  constructor
  · intro r avatar called failed
    unfold callApi at called
    split at called
    · next ran =>
      obtain ⟨rfl, same⟩ := Prod.mk.inj called
      cases same
      exact .inl (api_of_failure failed ran)
    · next threw =>
      obtain ⟨rfl, same⟩ := Prod.mk.inj called
      split at same
      · cases same
        exact .inr ⟨rfl, api_interrupted threw⟩
      · cases same
  · intro r called failed
    unfold callTitanic at called
    split at called
    · obtain ⟨rfl, same⟩ := Prod.mk.inj called
      cases same
      exact absurd rfl failed
    · next threw =>
      obtain ⟨rfl, same⟩ := Prod.mk.inj called
      split at same
      · cases same
        exact ⟨rfl, titanic_interrupted threw⟩
      · cases same

/-- Profiles of the two servers whose ranked score is no number. -/
def unreadableScore : Http :=
  body [("statistics", .obj [("grade_counts", .obj []), ("ranked_score", .str "x"), ("total_score", .int 100)]),
    ("username", .str "player")]

def unreadableTitanic : TitanicResponse :=
  { titanicProfile 1 with
    users := body [("name", .str "player"), ("stats", .arr [.obj [("rscore", .str "x"), ("tscore", .int 100)]])] }

/-- What is checked of a call holds of the state it returns. -/
private theorem returned_of_check {c : List Write × Called} {P : Globals → Prop} [DecidablePred P]
    (check : (match c.2 with
      | .returned status g => decide (status = -1 ∧ P g)
      | .aborted _ _ => false) = true) : ∃ log g, c = (log, .returned (-1) g) ∧ P g := by
  obtain ⟨log, result⟩ := c
  cases result with
  | returned status g =>
    obtain ⟨rfl, holds⟩ := of_decide_eq_true check
    exact ⟨log, g, rfl, holds⟩
  | aborted e g => cases check

/-- Both calls stop at the ranked score. -/
theorem unreadableScore_stops :
    (∃ log g', callApi true unreadableScore none {} = (log, .returned (-1) g') ∧
      (g' = {} ∨ -1 = (-1 : Int32) ∧ Interrupted (Bancho.api {} true unreadableScore none).acts {} log g')) ∧
    ∃ log g', callTitanic true unreadableTitanic {} = (log, .returned (-1) g') ∧ -1 = (-1 : Int32) ∧
      Interrupted (Titanic.script {} true unreadableTitanic.users unreadableTitanic.stats none).acts {} log g' := by
  obtain ⟨log, g', called, _⟩ := returned_of_check (c := callApi true unreadableScore none {})
    (P := fun _ => True) (by decide +kernel)
  obtain ⟨log', g'', called', _⟩ := returned_of_check (c := callTitanic true unreadableTitanic {})
    (P := fun _ => True) (by decide +kernel)
  exact ⟨⟨log, g', called, (failed_calls_stop true {} g' log (-1)).1 _ _ called (by decide)⟩,
    log', g'', called', (failed_calls_stop true {} g'' log' (-1)).2 _ called' (by decide)⟩

/-- A failed call changes neither the table nor the name. -/
def AllOrNothing (call : Globals → List Write × Called) : Prop :=
  ∀ g log status g', call g = (log, .returned status g') → status ≠ 200 →
    g'.arr = g.arr ∧ g'.user.username = g.user.username

/-- By then the level and the name have changed. -/
theorem unreadableScore_half_stored :
    ¬AllOrNothing (callApi true unreadableScore none) ∧ ¬AllOrNothing (callTitanic true unreadableTitanic) := by
  constructor
  · intro whole
    obtain ⟨log, g', called, level⟩ := returned_of_check (c := callApi true unreadableScore none {})
      (P := fun g => g.arr.slot "level" .current ≠ []) (by decide +kernel)
    rw [(whole _ _ _ _ called (by decide)).1] at level
    exact level (by decide +kernel)
  · intro whole
    obtain ⟨log, g', called, name⟩ := returned_of_check (c := callTitanic true unreadableTitanic {})
      (P := fun g => g.user.username ≠ []) (by decide +kernel)
    rw [(whole _ _ _ _ called (by decide)).2] at name
    exact name (by decide +kernel)

end OsuTracker.Soundness.FailedCalls
