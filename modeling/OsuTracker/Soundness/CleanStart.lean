import OsuTracker.Model.Main
import OsuTracker.Soundness.Endpoints.Schedules

/-! # New sessions start clean

Only `restartFetch` clears the table before it starts the new loop. Every other way hands the
texts of the old session over, and a first cycle whose endpoints all fail keeps them; so these
ways start clean exactly when there was nothing to hand over.
-/

namespace OsuTracker.Soundness.CleanStart

open Cxx Model.Core.Config Model.Core.Formatter Model.Core.Session Model.Api Model.Web.MainWs Model.Main
  Machine.Threads Endpoints

/-- Every text of the table was written by the given log. -/
def Fresh (log : List Write) (t : StatTable) : Prop :=
  ∀ key ∈ keys, ∀ slot, t.slot key slot ≠ [] → ∃ w ∈ log, w.key = key ∧ w.slot = slot ∧ w.value = t.slot key slot

/-- The same texts in every slot. -/
def SameTexts (g g' : Globals) : Prop := ∀ key slot, g'.arr.slot key slot = g.arr.slot key slot

variable {dump : Json → Str} {sort : StdSort bySort}

/-! ## What the ways hand over -/

theorem sameTexts_readDisplay {g g' : Globals} (same : SameTexts g g') (item : Str × Json) :
    SameTexts g (readDisplay item g') := by
  intro key slot
  unfold readDisplay
  split
  · simp only
    repeat' split
    all_goals simp only [StatTable.slot_setSort, StatTable.slot_setDisplay, same key slot]
  · exact same key slot

theorem sameTexts_readValue (dump : Json → Str) (j : Json) (g : Globals) : SameTexts g (readValue dump j g).state := by
  refine Outcome.andThen_state (P := SameTexts g) ?_ fun next same => ?_
  · refine Outcome.each_preserves (fun item _ s same => ?_) fun _ _ => rfl
    unfold readMain
    cases s.application.set item.1 (mainText dump item.2) with
    | ok c => exact same
    | error e => exact same
  · exact Outcome.each_preserves (fun item _ s same => sameTexts_readDisplay same item) same

theorem sameTexts_write {g g' : Globals} (written : write g = .done g') : SameTexts g g' := by
  rw [write_eq] at written
  split at written
  · obtain rfl := Outcome.done.inj written
    exact fun _ _ => rfl
  · cases written

theorem sameTexts_prepare {simulate : Bool} {g g' : Globals} (prepared : prepare dump simulate g = .done g') :
    SameTexts g g' := by
  obtain ⟨middle, first, ended⟩ := Outcome.andThen_eq_done.mp prepared
  obtain rfl := Outcome.done.inj ended
  have kept : SameTexts g middle := by
    split at first
    · exact sameTexts_write first
    · obtain rfl := Outcome.done.inj first
      exact fun _ _ => rfl
  intro key slot
  rw [← kept key slot]
  cases file : middle.configJson with
  | absent => simp only [Model.Core.Config.read, file]
  | invalid => simp only [Model.Core.Config.read, file]
  | json j =>
    rw [read_state dump file]
    exact sameTexts_readValue dump j middle key slot

theorem sameTexts_resetSettings (g : Globals) : SameTexts g (resetSettings g) := by
  intro key slot
  change (g.defaults.zipIdx.foldl (fun t item =>
    (t.setDisplay item.2 item.1.display).setSort item.2 item.1.sort) g.arr).slot key slot = g.arr.slot key slot
  generalize g.arr = t
  induction g.defaults.zipIdx generalizing t with
  | nil => rfl
  | cons item rest ih => rw [List.foldl_cons, ih, StatTable.slot_setSort, StatTable.slot_setDisplay]

theorem sameTexts_saveSettings {order : MapOrder} {j : Json} {g g' : Globals}
    (saved : saveSettings order sort j g = .done g') : SameTexts g g' := by
  unfold saveSettings at saved
  split at saved
  · cases saved
  · next items _ =>
    have applied : SameTexts g (Outcome.each applyItem (order.run items) g).state := by
      refine Outcome.each_preserves (fun item _ s same => ?_) fun _ _ => rfl
      unfold applyItem
      cases s.application.set item.1 item.2 with
      | ok c => exact same
      | error e => exact same
    have tracked (s : Globals) (same : SameTexts g s) :
        SameTexts g (((trackItems j s).andThen (updateFormat sort)).andThen write).state := by
      refine tracked_preserves ?_ ?_ (fun _ _ same => same) (fun _ _ same => same) sort j same
      · intro s i shown same key slot
        rw [StatTable.slot_setDisplay, same]
      · intro s i position same key slot
        rw [StatTable.slot_setSort, same]
    have all := Outcome.andThen_state applied tracked
    rw [Outcome.andThen_assoc, Outcome.andThen_assoc] at saved
    simp only [Outcome.andThen_assoc] at all
    rw [saved] at all
    exact all

theorem sameTexts_of_begins {way : Way} {g start : Globals} (begins : Begins dump sort way g start)
    (other : way ≠ .restartFetch) : SameTexts g start := by
  cases begins with
  | restartFetch => exact absurd rfl other
  | resetSession => exact fun _ _ => rfl
  | saveSettings _ saved => exact sameTexts_saveSettings saved
  | restart prepared => exact sameTexts_prepare prepared
  | resetSettings prepared =>
    exact fun key slot => (sameTexts_prepare prepared key slot).trans (sameTexts_resetSettings g key slot)

/-! ## A cycle without answers -/

/-- When no endpoint answers, nothing is written. -/
theorem unreachable_log (init : Bool) {g : Globals} (live : g.simulateMode = false) :
    (runFetch unreachable init g).1 = [] := by
  simp only [runFetch, live, Bool.false_eq_true, ↓reduceIte]
  split
  · have threads : banchoThreads g.application init unreachable = [[.authFailed], [.raise (.json 101)], []] := rfl
    rw [threads]
    rfl
  · split
    · rfl
    · rfl

/-- Exactly which ways start clean, whatever the endpoints answer in the first cycle. -/
theorem startsClean_iff {way : Way} {g start : Globals} (begins : Begins dump sort way g start)
    (live : start.simulateMode = false) :
    (∀ r log result, Cycle sort r true start log result → Fresh log result.state.arr) ↔
      way = .restartFetch ∨ g.arr.IsClear := by
  constructor
  · intro fresh
    by_cases cleared : way = .restartFetch
    · exact .inl cleared
    · refine .inr (g.arr.isClear_iff.mpr fun key known slot => ?_)
      have cycle := cycle_runCycle sort unreachable true start
      have effect := cycle_effect cycle
      have nothing : (runCycle sort unreachable true start).1 = [] := unreachable_log true live
      rw [nothing] at cycle effect
      rw [← sameTexts_of_begins begins cleared key slot]
      by_contra text
      have kept : (runCycle sort unreachable true start).2.state.arr = start.arr := effect.arr
      obtain ⟨w, none, _⟩ := fresh unreachable [] _ cycle key known slot (by rw [kept]; exact text)
      cases none
  · intro clears r log result cycle key known slot text
    have blank : start.arr.slot key slot = [] := by
      by_cases cleared : way = .restartFetch
      · subst cleared
        cases begins with
        | restartFetch => exact (StatTable.isClear_iff _).mp (StatTable.isClear_clear g.arr) key known slot
      · rw [sameTexts_of_begins begins cleared]
        exact (StatTable.isClear_iff _).mp (clears.resolve_left cleared) key known slot
    rcases (cycle_effect cycle).slot known slot with same | ⟨w, member, own, ownSlot, value⟩
    · exact absurd (same.trans blank) text
    · exact ⟨w, member, own, ownSlot, value.symm⟩

/-- After a cycle on the official server, a reset session whose endpoints all fail still shows the
play count of the session before. -/
theorem resetSession_not_clean : ∃ records start log result,
    FetchLoop stableBySort true {} [newPlayer] records ∧
      Begins (fun _ => []) stableBySort .resetSession (lastState {} records) start ∧
      Cycle stableBySort unreachable true start log result ∧ ¬Fresh log result.state.arr := by
  have run : FetchLoop stableBySort true {} [newPlayer] _ := loop_runLoop stableBySort (by decide +kernel)
  refine ⟨_, _, _, _, run, .resetSession _, cycle_runCycle stableBySort unreachable true _, fun fresh => ?_⟩
  have kept : (runCycle stableBySort unreachable true
      (lastState {} (runLoop stableBySort true {} [newPlayer]))).2.state.arr.slot "playcount" .current ≠ [] := by
    decide +kernel
  have nothing : (runCycle stableBySort unreachable true
      (lastState {} (runLoop stableBySort true {} [newPlayer]))).1 = [] := by decide +kernel
  obtain ⟨w, member, _⟩ := fresh "playcount" (by decide +kernel) .current kept
  rw [nothing] at member
  cases member

/-- The memory after a completed cycle on the official server. -/
def played : Globals := lastState {} (runLoop stableBySort true {} [newPlayer])

/-- After the same cycle a reset through the window starts clean. -/
theorem restartFetch_clean : played.arr.slot "playcount" .current ≠ [] ∧
    ∀ r log result, Cycle stableBySort r true (clearStats played) log result → Fresh log result.state.arr := by
  have begins : Begins (fun _ => []) stableBySort .restartFetch played (clearStats played) := .restartFetch played
  exact ⟨by decide +kernel, (startsClean_iff begins (by decide +kernel)).mpr (.inl rfl)⟩

end OsuTracker.Soundness.CleanStart
