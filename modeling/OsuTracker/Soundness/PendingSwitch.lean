import OsuTracker.Model.View.SwitchIndicator

/-! # What the switch indicator tells

A zero and a later positive count stand for a restart when the zero is that of the new session, or
the counter stays at zero until then. The window is misled when it meets a session in its first
cycle, sees its zero, and then the count of the same session; and it waits for ever when the new
session goes past its zero between two frames. A selection that is dropped puts the indicator up
again for a restart that is under way, whose zero may be over by then. These are the only ways to
mislead it, apart from a counter that wraps.
-/

namespace OsuTracker.Soundness.PendingSwitch

open Model.View.SwitchIndicator Machine.Regions

/-! ## Observation -/

/-- How far the last accepted restart is. -/
inductive Phase where
  /-- No restart was accepted yet. -/
  | unawaited
  | requested
  /-- Its session runs and has completed no cycle. -/
  | started
  | completed
  /-- A frame came after a cycle was completed, and no selection after that frame. -/
  | looked
deriving DecidableEq, Repr

/-- A selection that comes while a restart is under way is dropped: what is awaited stays the same, and the next
frame looks at it anew. -/
def Phase.after (phase : Phase) (s : State) : Event → Phase
  | .select => if s.restarting then (if phase = .looked then .completed else phase) else .requested
  | .frame => if phase = .completed then .looked else phase
  | .worker => if s.worker = some .startThread ∧ phase = .requested then .started else phase
  | .loop => if s.loop = .cycle ∧ phase = .started then .completed else phase

/-- A state, with what was observed on the way to it. -/
structure Watched where
  state : State := {}
  phase : Phase := .unawaited
  /-- Since the last selection, accepted or dropped, a frame came at a count of zero. -/
  zeroSeen : Bool := false
deriving DecidableEq, Repr

/-- The same steps, observed. -/
def watch (w : Watched) (event : Event) : Option Watched :=
  (next w.state event).map fun s =>
    { state := s
      phase := w.phase.after w.state event
      zeroSeen := match event with
        | .select => false
        | .frame => w.zeroSeen || w.state.fetchCount == 0
        | .worker | .loop => w.zeroSeen }

/-- The session of the last accepted restart has completed a cycle. -/
def Phase.Done (phase : Phase) : Prop := phase = .completed ∨ phase = .looked

instance (phase : Phase) : Decidable phase.Done := inferInstanceAs (Decidable (_ ∨ _))

/-- After a frame the indicator is down exactly if the awaited session has completed a cycle. -/
def Truthful (w : Watched) : Event → Prop
  | .frame => w.phase ≠ .unawaited → ((check w.state).pendingSwitch = false ↔ w.phase.Done)
  | .select | .worker | .loop => True

/-- Before the awaited session starts, no frame comes at a positive count after one came at zero. The first frame
after its first cycle, and after a selection dropped since, comes at a positive count, and one came at zero
between the last selection and it. -/
def Noticeable (w : Watched) : Event → Prop
  | .frame =>
    (w.phase = .requested → w.zeroSeen = true → ¬1 ≤ w.state.fetchCount) ∧
      (w.phase = .completed → w.zeroSeen = true ∧ 1 ≤ w.state.fetchCount)
  | .select | .worker | .loop => True

instance (w : Watched) : ∀ event, Decidable (Truthful w event)
  | .frame => inferInstanceAs (Decidable (_ → _))
  | .select | .worker | .loop => .isTrue trivial

instance (w : Watched) : ∀ event, Decidable (Noticeable w event)
  | .frame => inferInstanceAs (Decidable (_ ∧ _))
  | .select | .worker | .loop => .isTrue trivial

/-- Observing changes no run. -/
theorem watch_project (w : Watched) (events : List Event) :
    (execute watch w events).map Watched.state = execute next w.state events := by
  refine execute_project Watched.state (fun w event => ?_) w events
  unfold watch
  rw [Option.map_map]
  exact Option.map_id'

/-! ## Frames -/

theorem check_of_pending {s : State} (pending : s.pendingSwitch = true) :
    check s = if s.sawReset = true ∧ 1 ≤ s.fetchCount then { s with pendingSwitch := false, sawReset := false }
      else { s with sawReset := s.sawReset || s.fetchCount == 0 } := by
  have zero : ¬(1 : Int32) ≤ 0 := by decide
  obtain ⟨_, _, fetchCount, _, _, _, sawReset⟩ := s
  cases pending
  by_cases found : fetchCount = 0
  · cases sawReset <;> simp [check, found, zero]
  · cases sawReset <;> simp [check, found]

theorem check_of_not_pending {s : State} (down : s.pendingSwitch = false) : check s = s := by
  rw [check, down]
  rfl

/-! ## Runs -/

/-- What the worker has made sure of, by what it executes next. -/
def Reached (s : State) : Worker → Prop
  | .clearStats | .clearCount => s.loop = .ended
  | .raiseFetch | .startThread => s.loop = .ended ∧ s.fetchCount = 0
  | .lowerFetch | .join | .lowerRestarting => True

/-- The indicator is up and remembers what the frames have seen. -/
def Waiting (w : Watched) : Prop := w.state.pendingSwitch = true ∧ w.state.sawReset = w.zeroSeen

structure Invariant (w : Watched) : Prop where
  reached : ∀ position, w.state.worker = some position → Reached w.state position
  waiting : w.phase = .requested ∨ w.phase = .started ∨ w.phase = .completed → Waiting w
  requested : w.phase = .requested → ∃ position, w.state.worker = some position ∧ position ≠ .lowerRestarting
  started : w.phase = .started →
    w.state.fetchCount = 0 ∧ ∀ position, w.state.worker = some position → position = .lowerRestarting
  looked : w.phase = .looked → w.state.pendingSwitch = false

variable {w : Watched}

theorem invariant_select (invariant : Invariant w) :
    Invariant ⟨select w.state, w.phase.after w.state .select, false⟩ := by
  by_cases restarting : w.state.restarting = true
  · have same : restartFetch w.state = w.state := if_pos restarting
    have kept : w.phase.after w.state .select = if w.phase = .looked then .completed else w.phase := if_pos restarting
    rw [select, same, kept]
    split_ifs with looked
    · exact ⟨invariant.reached, fun _ => ⟨rfl, rfl⟩, nofun, nofun, nofun⟩
    · exact ⟨invariant.reached, fun _ => ⟨rfl, rfl⟩, invariant.requested, invariant.started,
        fun also => absurd also looked⟩
  · have accepted : w.phase.after w.state .select = .requested := if_neg restarting
    have begun : (select w.state).worker = some .lowerFetch := by rw [select, restartFetch, if_neg restarting]
    rw [accepted]
    refine ⟨fun position next => ?_, fun _ => ⟨rfl, rfl⟩, fun _ => ⟨_, begun, nofun⟩, nofun, nofun⟩
    obtain rfl := Option.some.inj (begun.symm.trans next)
    trivial

theorem restart_frame {s s' : State} {position : Worker} (ran : restart s position = some s') :
    s'.pendingSwitch = s.pendingSwitch ∧ s'.sawReset = s.sawReset := by
  cases position with
  | join =>
    obtain ⟨-, same⟩ := Option.ite_none_right_eq_some.mp ran
    cases same
    exact ⟨rfl, rfl⟩
  | lowerFetch | clearStats | clearCount | raiseFetch | startThread | lowerRestarting =>
    cases ran
    exact ⟨rfl, rfl⟩

/-- Where the worker is after a statement, and what it has made sure of. -/
theorem restart_reached {s s' : State} {position : Worker} (reached : Reached s position)
    (ran : restart s position = some s') : ∀ next, s'.worker = some next → Reached s' next := by
  intro next there
  cases position with
  | join =>
    obtain ⟨ended, same⟩ := Option.ite_none_right_eq_some.mp ran
    cases same
    cases there
    exact ended
  | clearCount =>
    cases ran
    cases there
    exact ⟨reached, rfl⟩
  | clearStats | raiseFetch =>
    cases ran
    cases there
    exact reached
  | lowerFetch | startThread =>
    cases ran
    cases there
    trivial
  | lowerRestarting =>
    cases ran
    cases there

theorem invariant_worker (invariant : Invariant w) {position : Worker} (here : w.state.worker = some position)
    {s' : State} (ran : restart w.state position = some s') :
    Invariant ⟨s', w.phase.after w.state .worker, w.zeroSeen⟩ := by
  obtain ⟨pending, saw⟩ := restart_frame ran
  have reached := restart_reached (invariant.reached position here) ran
  have still (waiting : Waiting w) : Waiting ⟨s', w.phase.after w.state .worker, w.zeroSeen⟩ :=
    ⟨pending.trans waiting.1, saw.trans waiting.2⟩
  by_cases starts : position = .startThread ∧ w.phase = .requested
  · -- the awaited session begins, with the count that the worker has set
    obtain ⟨rfl, requested⟩ := starts
    have phase : w.phase.after w.state .worker = .started := if_pos ⟨here, requested⟩
    have zero := (invariant.reached _ here).2
    cases ran
    refine ⟨reached, fun _ => still (invariant.waiting (.inl requested)), ?_, fun _ => ⟨zero, ?_⟩, ?_⟩
    · exact fun other => nomatch phase.symm.trans other
    · exact fun next there => (Option.some.inj there).symm
    · exact fun other => nomatch phase.symm.trans other
  · have phase : w.phase.after w.state .worker = w.phase :=
      if_neg fun both => starts ⟨Option.some.inj (here.symm.trans both.1), both.2⟩
    rw [phase] at still ⊢
    refine ⟨reached, fun awaited => still (invariant.waiting awaited), fun requested => ?_, fun started => ?_,
      fun looked => pending.trans (invariant.looked looked)⟩
    · obtain ⟨other, same, unfinished⟩ := invariant.requested requested
      obtain rfl := Option.some.inj (here.symm.trans same)
      cases position with
      | join =>
        obtain ⟨-, same⟩ := Option.ite_none_right_eq_some.mp ran
        cases same
        exact ⟨_, rfl, nofun⟩
      | lowerFetch | clearStats | clearCount | raiseFetch =>
        cases ran
        exact ⟨_, rfl, nofun⟩
      | startThread => exact absurd ⟨rfl, requested⟩ starts
      | lowerRestarting => exact absurd rfl unfinished
    · obtain ⟨zero, only⟩ := invariant.started started
      obtain rfl := only position here
      cases ran
      exact ⟨zero, nofun⟩

/-- A loop that takes a step has not ended, so the worker has yet to join it or has started it. -/
theorem reached_stepped {s s' : State} (stepped : fetchApiData s = some s') {position : Worker}
    (reached : Reached s position) : Reached s' position := by
  have live : s.loop ≠ .ended := by
    intro ended
    simp only [fetchApiData, ended] at stepped
    cases stepped
  cases position with
  | clearStats | clearCount => exact absurd reached live
  | raiseFetch | startThread => exact absurd reached.1 live
  | lowerFetch | join | lowerRestarting => trivial

theorem fetchApiData_frame {s s' : State} (stepped : fetchApiData s = some s') :
    s'.pendingSwitch = s.pendingSwitch ∧ s'.sawReset = s.sawReset ∧ s'.worker = s.worker ∧
      (s.loop ≠ .cycle → s'.fetchCount = s.fetchCount) := by
  cases position : s.loop with
  | test | cycle =>
    simp only [fetchApiData, position] at stepped
    cases stepped
    exact ⟨rfl, rfl, rfl, by simp⟩
  | ended =>
    simp only [fetchApiData, position] at stepped
    cases stepped

theorem invariant_loop (invariant : Invariant w) {s' : State} (stepped : fetchApiData w.state = some s') :
    Invariant ⟨s', w.phase.after w.state .loop, w.zeroSeen⟩ := by
  obtain ⟨pending, saw, worker, count⟩ := fetchApiData_frame stepped
  have reached : ∀ position, s'.worker = some position → Reached s' position := fun position there =>
    reached_stepped stepped (invariant.reached position (worker.symm.trans there))
  have still (waiting : Waiting w) : Waiting ⟨s', w.phase.after w.state .loop, w.zeroSeen⟩ :=
    ⟨pending.trans waiting.1, saw.trans waiting.2⟩
  by_cases completes : w.state.loop = .cycle ∧ w.phase = .started
  · have phase : w.phase.after w.state .loop = .completed := if_pos completes
    rw [phase] at still ⊢
    exact ⟨reached, fun _ => still (invariant.waiting (.inr (.inl completes.2))), nofun, nofun, nofun⟩
  · have phase : w.phase.after w.state .loop = w.phase := if_neg completes
    rw [phase] at still ⊢
    refine ⟨reached, fun awaited => still (invariant.waiting awaited), fun requested => ?_, fun started => ?_,
      fun looked => pending.trans (invariant.looked looked)⟩
    · obtain ⟨position, there, unfinished⟩ := invariant.requested requested
      exact ⟨position, worker.trans there, unfinished⟩
    · obtain ⟨zero, only⟩ := invariant.started started
      refine ⟨(count fun cycle => completes ⟨cycle, started⟩).trans zero, fun position there => ?_⟩
      exact only position (worker.symm.trans there)

/-! ## Frames and runs -/

theorem check_down (waiting : Waiting w) :
    (check w.state).pendingSwitch = false ↔ w.zeroSeen = true ∧ 1 ≤ w.state.fetchCount := by
  rw [check_of_pending waiting.1, waiting.2]
  split
  · next noticed => exact iff_of_true rfl noticed
  · next unnoticed => exact iff_of_false (by simp [waiting.1]) unnoticed

theorem check_waits (waiting : Waiting w) (unnoticed : ¬(w.zeroSeen = true ∧ 1 ≤ w.state.fetchCount)) (phase : Phase) :
    Waiting ⟨check w.state, phase, w.zeroSeen || w.state.fetchCount == 0⟩ := by
  rw [← waiting.2] at unnoticed ⊢
  rw [check_of_pending waiting.1, if_neg unnoticed]
  exact ⟨waiting.1, rfl⟩

/-- A frame changes neither the session nor the worker. -/
theorem check_frame (s : State) :
    (check s).fetchCount = s.fetchCount ∧ (check s).worker = s.worker ∧ (check s).loop = s.loop := by
  cases pending : s.pendingSwitch with
  | true =>
    rw [check_of_pending pending]
    split <;> exact ⟨rfl, rfl, rfl⟩
  | false =>
    rw [check_of_not_pending pending]
    exact ⟨rfl, rfl, rfl⟩

/-- In its first cycle the awaited session has a count of zero. -/
theorem unnoticed_of_started (invariant : Invariant w) (started : w.phase = .started) :
    ¬(w.zeroSeen = true ∧ 1 ≤ w.state.fetchCount) := by
  rintro ⟨-, positive⟩
  rw [(invariant.started started).1] at positive
  exact absurd positive (by decide)

/-- One frame tells the truth exactly if what it comes after lets it. -/
theorem truthful_iff_noticeable (invariant : Invariant w) (event : Event) : Truthful w event ↔ Noticeable w event := by
  cases event with
  | select | worker | loop => exact Iff.rfl
  | frame =>
    unfold Truthful Noticeable
    cases phase : w.phase with
    | unawaited => simp
    | requested =>
      rw [check_down (invariant.waiting (.inl phase))]
      simp [Phase.Done]
    | started =>
      have down := check_down (invariant.waiting (.inr (.inl phase)))
      have unnoticed := unnoticed_of_started invariant phase
      simp [Phase.Done, down, unnoticed]
    | completed =>
      rw [check_down (invariant.waiting (.inr (.inr phase)))]
      simp [Phase.Done]
    | looked =>
      have down := invariant.looked phase
      simp [Phase.Done, check_of_not_pending down, down]

theorem invariant_frame (invariant : Invariant w) (noticeable : Noticeable w .frame) :
    Invariant ⟨check w.state, w.phase.after w.state .frame, w.zeroSeen || w.state.fetchCount == 0⟩ := by
  obtain ⟨early, late⟩ := noticeable
  obtain ⟨count, worker, loop⟩ := check_frame w.state
  have reached : ∀ position, (check w.state).worker = some position → Reached (check w.state) position := by
    intro position there
    have before := invariant.reached position (worker.symm.trans there)
    cases position with
    | clearStats | clearCount => exact loop.trans before
    | raiseFetch | startThread => exact ⟨loop.trans before.1, count.trans before.2⟩
    | lowerFetch | join | lowerRestarting => trivial
  cases phase : w.phase with
  | unawaited => exact ⟨reached, by simp [Phase.after], nofun, nofun, nofun⟩
  | requested =>
    have waits := check_waits (invariant.waiting (.inl phase)) fun both => early phase both.1 both.2
    refine ⟨reached, fun _ => waits _, fun _ => ?_, nofun, nofun⟩
    obtain ⟨position, there, unfinished⟩ := invariant.requested phase
    exact ⟨position, worker.trans there, unfinished⟩
  | started =>
    have waits := check_waits (invariant.waiting (.inr (.inl phase))) (unnoticed_of_started invariant phase)
    obtain ⟨zero, only⟩ := invariant.started phase
    exact ⟨reached, fun _ => waits _, nofun, fun _ => ⟨count.trans zero, fun position there =>
      only position (worker.symm.trans there)⟩, nofun⟩
  | completed =>
    have down := (check_down (invariant.waiting (.inr (.inr phase)))).mpr (late phase)
    exact ⟨reached, by simp [Phase.after], nofun, nofun, fun _ => down⟩
  | looked =>
    have down := invariant.looked phase
    refine ⟨reached, by simp [Phase.after], nofun, nofun, fun _ => ?_⟩
    rwa [check_of_not_pending down]

theorem invariant_watch (w : Watched) (event : Event) (w' : Watched) (invariant : Invariant w)
    (noticeable : Noticeable w event) (moved : watch w event = some w') : Invariant w' := by
  obtain ⟨s', ran, same⟩ := Option.map_eq_some_iff.mp moved
  cases same
  cases event with
  | select =>
    cases ran
    exact invariant_select invariant
  | frame =>
    cases ran
    exact invariant_frame invariant noticeable
  | worker =>
    obtain ⟨position, here, restarted⟩ := Option.bind_eq_some_iff.mp ran
    exact invariant_worker invariant here restarted
  | loop => exact invariant_loop invariant ran

theorem invariant_initial : Invariant {} := ⟨nofun, by simp, nofun, nofun, nofun⟩

/-- Every frame of a run tells the truth exactly if every frame comes when the restart can be noticed. -/
theorem indicator_truthful_iff (events : List Event) :
    Respects watch Truthful {} events ↔ Respects watch Noticeable {} events := by
  have agree (w : Watched) (event : Event) (invariant : Invariant w) : Truthful w event ↔ Noticeable w event :=
    truthful_iff_noticeable invariant event
  have step (w : Watched) (event : Event) (w' : Watched) (invariant : Invariant w) (truthful : Truthful w event)
      (moved : watch w event = some w') : Invariant w' :=
    invariant_watch w event w' invariant ((agree w event invariant).mp truthful) moved
  exact respects_congr agree step invariant_initial events

/-- The old session completes a cycle before the selection, and a frame comes at the zero of the new one. -/
def unhurried : List Event :=
  [.loop, .loop, .select, .frame, .worker, .loop, .worker, .worker, .worker, .frame, .worker, .worker, .worker, .loop,
    .frame, .loop, .frame, .frame]

theorem unhurried_truthful :
    (execute watch {} unhurried).map (fun w => (w.phase, w.state.pendingSwitch)) = some (.looked, false) ∧
      Respects watch Truthful {} unhurried :=
  ⟨by decide, (indicator_truthful_iff unhurried).mpr (by decide)⟩

/-- The selection meets the first cycle: a frame comes at zero, and the next one after that cycle. -/
def firstCycle : List Event := [.loop, .select, .frame, .loop, .frame]

/-- The first cycle of the new session is over before a frame comes. -/
def shortCycle : List Event :=
  [.loop, .loop, .select, .frame, .worker, .loop, .worker, .worker, .worker, .worker, .worker, .worker, .loop, .loop,
    .frame]

/-- The new session has completed its first cycle, and the indicator is down, when a second selection is dropped. -/
def dropped : List Event :=
  [.loop, .loop, .select, .frame, .worker, .loop, .worker, .worker, .worker, .frame, .worker, .worker, .loop, .loop,
    .frame, .select, .frame]

theorem switch_misjudged :
    (execute watch {} firstCycle).map (fun w => (w.phase, w.state.pendingSwitch)) = some (.requested, false) ∧
      (execute watch {} shortCycle).map (fun w => (w.phase, w.state.pendingSwitch)) = some (.looked, true) ∧
      (execute watch {} dropped).map (fun w => (w.phase, w.state.pendingSwitch)) = some (.looked, true) ∧
      ¬∀ events, Respects watch Truthful {} events := by
  refine ⟨by decide, by decide, by decide, fun truthful => ?_⟩
  exact absurd (truthful firstCycle) (by decide)

end OsuTracker.Soundness.PendingSwitch
