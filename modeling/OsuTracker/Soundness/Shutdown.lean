import OsuTracker.Soundness.WindowThread

/-! # Ending the main loop

A message that stops the server gives a verdict, whether the program shuts down or begins another
round. From then on no message is taken until the main loop has acted on the verdict. So all
verdicts but the last one are for another round, and nothing is decided or opened after the first
one that shuts down.
-/

namespace OsuTracker.Soundness.Shutdown

open Model.Web.WebState Machine.Regions WindowThread

variable {lib : Glfw}

/-! ## Verdicts -/

/-- Whether a message that stops the server shuts the program down. -/
def verdict : Event → Option Bool
  | .message .restart | .message .resetSettings => some false
  | .message .shutdown | .message (.update true) => some true
  | _ => none

def verdicts (events : List Event) : List Bool := events.filterMap verdict

/-- What a handler that is about to stop the server has decided. -/
def announced (s : State) : Bool :=
  match s.handler with
  | .assignShutdown shutdown :: _ => shutdown
  | _ => s.shutdownWebServer

/-- The verdict that the main loop has still to act on, or that has ended it. -/
def pending (s : State) : Option Bool :=
  if .serve ∈ s.main then
    if .stopApp ∈ s.handler then some (announced s) else if s.stopped then some s.shutdownWebServer else none
  else if .repeatWhileRun ∈ s.main then some !s.run
  else some true

/-- A server that was stopped has no handler left, and the main thread has not left it. -/
structure Attended (s : State) : Prop extends Coherent s where
  left : s.stopped = true → s.handler = [] ∧ s.main = .serve :: stopUiThread ++ ending

theorem attended_initial : Attended initial := ⟨coherent_initial, nofun⟩

/-- What an event does to the verdict. -/
inductive Judges (s : State) (event : Event) (s' : State) : Prop
  | keeps (same : pending s' = pending s) (silent : verdict event = none)
  | gives (before : pending s = none) (after : pending s' = verdict event)
  | acts (position : s.main = [.repeatWhileRun]) (before : pending s = some false) (after : pending s' = none)
      (silent : verdict event = none)

def touchesServer : Statement → Bool
  | .serve | .repeatWhileRun | .assignShutdown _ | .stopApp => true
  | _ => false

/-- The other statements leave the server alone. -/
theorem executes_server {s s' : State} {statement : Statement} {later rest : Program}
    (ran : Executes s (statement :: later) s' rest) (apart : touchesServer statement = false) :
    s'.stopped = s.stopped ∧ s'.shutdownWebServer = s.shutdownWebServer ∧ s'.run = s.run ∧
      ∀ other, touchesServer other = true → (other ∈ rest ↔ other ∈ statement :: later) := by
  have skipped (other : Statement) (touches : touchesServer other = true) : other ∈ later ↔ other ∈ statement :: later := by
    rw [List.mem_cons, or_iff_right]
    rintro rfl
    cases apart.symm.trans touches
  have replaced {instead : Statement} (also : touchesServer instead = false) (other : Statement)
      (touches : touchesServer other = true) : other ∈ instead :: later ↔ other ∈ statement :: later := by
    rw [← skipped other touches, List.mem_cons, or_iff_right]
    rintro rfl
    cases also.symm.trans touches
  cases ran with
  | skips => exact ⟨rfl, rfl, rfl, skipped⟩
  | tests =>
    refine ⟨rfl, rfl, rfl, fun other touches => ?_⟩
    rw [← skipped other touches, List.mem_cons, List.mem_cons, or_iff_right, or_iff_right]
    · rintro rfl
      cases touches
    · rintro rfl
      cases touches
  | closes requested =>
    obtain ⟨-, stopped, shut, run, -⟩ := requested.frame
    exact ⟨stopped, shut, run, skipped⟩
  | joins => exact ⟨rfl, rfl, rfl, replaced rfl⟩
  | joinsNothing | joined | running | starts | startsFetching | stopsFetching => exact ⟨rfl, rfl, rfl, skipped⟩
  | serves | repeats | destroys | returns | assigns | stops => cases apart

/-- A program of a handler that stops the server does nothing else. -/
theorem stopApp_mem {p : Program} (valid : Valid .handler p) :
    .stopApp ∈ p ↔ (∃ restart, p = shutdown restart) ∨ p = [.stopApp] := by
  cases valid with
  | tests later | closes later | joins later | waits _ later | joined later =>
    obtain rfl := List.mem_singleton.mp later
    simp [shutdown]
  | finished => simp [shutdown]
  | assigns restart => simp [shutdown]
  | stops => simp [shutdown]

/-- The server is only touched in its own places. -/
theorem touches_cases {actor : Actor} {statement : Statement} {later : Program} (valid : Valid actor (statement :: later))
    (touches : touchesServer statement = true) :
    actor = .main ∧ (statement :: later = .serve :: stopUiThread ++ ending ∨
        statement :: later = [.repeatWhileRun]) ∨
      actor = .handler ∧ ((∃ restart, statement :: later = shutdown restart) ∨ statement :: later = [.stopApp]) := by
  cases actor
  · refine .inl ⟨rfl, ?_⟩
    generalize whole : statement :: later = p at valid
    cases valid with
    | tests | closes | joins | waits =>
      cases whole
      cases touches
    | joined among =>
      simp only [joinedPrograms, List.mem_cons, List.not_mem_nil, or_false] at among
      rcases among with rfl | rfl <;>
      · cases whole
        cases touches
    | begins =>
      cases whole
      cases touches
    | last => exact .inr rfl
    | serves => exact .inl rfl
    | finished => cases whole
  · refine .inr ⟨rfl, ?_⟩
    generalize whole : statement :: later = p at valid
    cases valid with
    | tests | closes | joins | waits =>
      cases whole
      cases touches
    | joined among =>
      obtain rfl := List.mem_singleton.mp among
      cases whole
      cases touches
    | finished => cases whole
    | assigns restart => exact .inl ⟨restart, rfl⟩
    | stops => exact .inr rfl

/-! ## Steps -/

theorem pending_congr {s s' : State} (main : .serve ∈ s'.main ↔ .serve ∈ s.main)
    (again : .repeatWhileRun ∈ s'.main ↔ .repeatWhileRun ∈ s.main)
    (handler : .stopApp ∈ s'.handler ↔ .stopApp ∈ s.handler)
    (told : .stopApp ∈ s.handler → announced s' = announced s) (stopped : s'.stopped = s.stopped)
    (shut : s'.shutdownWebServer = s.shutdownWebServer) (run : s'.run = s.run) : pending s' = pending s := by
  unfold pending
  simp only [main, again, handler, stopped, shut, run]
  split
  · split
    · next stops => rw [told stops]
    · rfl
  · rfl

/-- A statement that leaves the server alone. -/
theorem judges_apart {s after : State} {actor : Actor} {statement : Statement} {later rest : Program}
    (attended : Attended s) (whole : s.program actor = statement :: later)
    (ran : Executes s (s.program actor) after rest) (apart : touchesServer statement = false)
    (coherent : Coherent (after.proceed rest actor)) :
    Attended (after.proceed rest actor) ∧ Judges s (.step actor) (after.proceed rest actor) := by
  have valid := attended.valid actor
  have programs := executes_programs ran
  have turns := turns_step attended.toCoherent ran
  rw [whole] at ran valid
  obtain ⟨stopped, shut, run, members⟩ := executes_server ran apart
  have notStopped : s.stopped = false := by
    refine eq_false_of_ne_true fun already => ?_
    obtain ⟨handled, blocked⟩ := attended.left already
    cases actor
    · change s.main = _ at whole
      cases whole.symm.trans blocked
      cases apart
    · change s.handler = _ at whole
      cases whole.symm.trans handled
  refine ⟨⟨coherent, fun already => ?_⟩, .keeps ?_ rfl⟩
  · have same : (after.proceed rest actor).stopped = after.stopped := by cases actor <;> rfl
    cases (same.symm.trans already).symm.trans (stopped.trans notStopped)
  · obtain ⟨rfl, handled⟩ | ⟨rfl, blocked⟩ := turns
    · have handler : after.handler = s.handler := programs .handler
      change s.main = _ at whole
      refine pending_congr ?_ ?_ (iff_of_eq (congrArg (.stopApp ∈ ·) handler)) (fun stops => ?_) stopped shut run
      · rw [whole]
        exact members .serve rfl
      · rw [whole]
        exact members .repeatWhileRun rfl
      · rw [handled] at stops
        cases stops
    · have main : after.main = s.main := programs .main
      change s.handler = _ at whole
      have silent : .stopApp ∉ statement :: later := by
        rw [stopApp_mem valid]
        rintro (⟨restart, same⟩ | same) <;> cases same <;> cases apart
      refine pending_congr (iff_of_eq (congrArg (.serve ∈ ·) main)) (iff_of_eq (congrArg (.repeatWhileRun ∈ ·) main))
        ?_ (fun stops => ?_) stopped shut run
      · rw [whole]
        exact members .stopApp rfl
      · exact absurd (whole ▸ stops) silent

/-- The main thread leaves the server, or comes to the end of the iteration. -/
theorem judges_main {s after : State} {rest : Program} (attended : Attended s) (handled : s.handler = [])
    (whole : s.main = .serve :: stopUiThread ++ ending ∨ s.main = [.repeatWhileRun])
    (ran : Executes s s.main after rest) (coherent : Coherent { after with main := rest }) :
    Attended { after with main := rest } ∧ Judges s (.step .main) { after with main := rest } := by
  rcases whole with main | main <;> rw [main] at ran
  · cases ran with
    | serves stopped =>
      refine ⟨⟨coherent, nofun⟩, .keeps ?_ rfl⟩
      simp [pending, stopUiThread, main, handled, stopped]
  · have notStopped : s.stopped = false := by
      refine eq_false_of_ne_true fun already => ?_
      cases main.symm.trans (attended.left already).2
    have idle : .stopApp ∉ s.handler := by simp [handled]
    cases ran with
    | repeats run =>
      refine ⟨⟨coherent, fun already => nomatch notStopped.symm.trans already⟩, .acts main ?_ ?_ rfl⟩
      · simp [pending, main, run]
      · simp [pending, iteration, idle, notStopped]
    | destroys run held =>
      refine ⟨⟨coherent, fun already => nomatch notStopped.symm.trans already⟩, .keeps ?_ rfl⟩
      simp [pending, main, run]
    | returns run free =>
      refine ⟨⟨coherent, fun already => nomatch notStopped.symm.trans already⟩, .keeps ?_ rfl⟩
      simp [pending, main, run]

/-- A handler stops the server. -/
theorem judges_handler {s after : State} {rest : Program} (attended : Attended s)
    (blocked : s.main = .serve :: stopUiThread ++ ending)
    (whole : (∃ restart, s.handler = shutdown restart) ∨ s.handler = [.stopApp])
    (ran : Executes s s.handler after rest) (coherent : Coherent { after with handler := rest }) :
    Attended { after with handler := rest } ∧ Judges s (.step .handler) { after with handler := rest } := by
  rcases whole with ⟨restart, handler⟩ | handler <;> rw [handler] at ran
  · have notStopped : s.stopped = false := by
      refine eq_false_of_ne_true fun already => ?_
      cases handler.symm.trans (attended.left already).1
    cases ran
    refine ⟨⟨coherent, fun already => nomatch notStopped.symm.trans already⟩, .keeps ?_ rfl⟩
    simp [pending, announced, blocked, handler, shutdown]
  · cases ran
    refine ⟨⟨coherent, fun _ => ⟨rfl, blocked⟩⟩, .keeps ?_ rfl⟩
    simp [pending, announced, blocked, handler]

theorem judges_message {s : State} (message : Message)
    (blocked : s.main = .serve :: stopUiThread ++ ending) (handled : s.handler = [])
    (running : s.stopped = false) :
    pending s = none ∧ pending { s with handler := message.handler } = verdict (.message message) := by
  refine ⟨by simp [pending, blocked, handled, running], ?_⟩
  cases message with
  | update found => cases found <;> simp [pending, announced, verdict, Message.handler, shutdown, blocked, running]
  | _ => simp [pending, announced, verdict, Message.handler, shutdown, startUiThread, stopUiThread, blocked, running]

theorem attended_next {s s' : State} {event : Event} (attended : Attended s) (moved : next lib s event = some s') :
    Attended s' ∧ Judges s event s' := by
  have coherent := coherent_next s event s' attended.toCoherent moved
  obtain ⟨-, moves⟩ := moves_of_next moved
  cases moves with
  | @step actor after rest ran =>
    have turns := turns_step attended.toCoherent ran
    have valid := attended.valid actor
    cases whole : s.program actor with
    | nil =>
      rw [whole] at ran
      cases ran
    | cons statement later =>
      cases touches : touchesServer statement with
      | false => exact judges_apart attended whole ran touches coherent
      | true =>
        rw [whole] at valid
        obtain ⟨rfl, same⟩ | ⟨rfl, same⟩ := touches_cases valid touches <;> rw [← whole] at same
        · exact judges_main attended (turns.elim (·.2) fun no => nomatch no.1) same ran coherent
        · exact judges_handler attended (turns.elim (fun no => nomatch no.1) (·.2)) same ran coherent
  | @message message serving handled running =>
    have blocked := main_of_serving attended.toCoherent serving
    obtain ⟨before, after⟩ := judges_message message blocked handled running
    refine ⟨⟨coherent, fun already => ?_⟩, .gives before after⟩
    cases running.symm.trans already
  | ui found advanced =>
    obtain ⟨_, _, main, handler⟩ := advances_frame advanced
    have stopped : s'.stopped = s.stopped := by cases advanced <;> rfl
    refine ⟨⟨coherent, fun already => ?_⟩, .keeps ?_ rfl⟩
    · rw [main, handler]
      exact attended.left (stopped ▸ already)
    · cases advanced <;> rfl
  | close found phase unflagged => exact ⟨⟨coherent, attended.left⟩, .keeps rfl rfl⟩

/-! ## Runs -/

/-- All verdicts but the one that is pending are for another round. -/
def Told (given : List Bool) (s : State) : Prop := ∃ n, given = List.replicate n false ++ (pending s).toList

theorem told_next {given : List Bool} {s s' : State} {event : Event} (told : Told given s) (judges : Judges s event s') :
    Told (given ++ (verdict event).toList) s' := by
  obtain ⟨n, rfl⟩ := told
  cases judges with
  | keeps same silent => exact ⟨n, by rw [same, silent]; simp⟩
  | gives before after => exact ⟨n, by rw [before, after]; simp⟩
  | acts _ before after silent =>
    refine ⟨n + 1, ?_⟩
    rw [before, after, silent, List.replicate_succ']
    simp

theorem verdicts_cons (event : Event) (rest : List Event) :
    verdicts (event :: rest) = (verdict event).toList ++ verdicts rest := by
  unfold verdicts
  rw [List.filterMap_cons]
  cases verdict event <;> rfl

theorem told_execute {given : List Bool} {s s' : State} {events : List Event} (attended : Attended s)
    (told : Told given s) (ran : execute (next lib) s events = some s') :
    Attended s' ∧ Told (given ++ verdicts events) s' := by
  induction events generalizing given s with
  | nil =>
    cases ran
    exact ⟨attended, by simpa [verdicts] using told⟩
  | cons event rest ih =>
    obtain ⟨middle, moved, later⟩ := Option.bind_eq_some_iff.mp ran
    obtain ⟨still, judges⟩ := attended_next attended moved
    have := ih still (told_next told judges) later
    rwa [List.append_assoc, ← verdicts_cons] at this

theorem told_of_execute {events : List Event} {s : State} (ran : execute (next lib) initial events = some s) :
    Attended s ∧ Told (verdicts events) s :=
  told_execute attended_initial (⟨0, rfl⟩ : Told [] initial) ran

/-! ## After the last verdict -/

theorem length_executes {s s' : State} {p rest : Program} (ran : Executes s p s' rest)
    (apart : p.head? ≠ some .startUnlessJoinable) : s'.runs.length = s.runs.length := by
  cases ran with
  | closes requested => exact requested.frame.2.2.2.2.1
  | starts => exact absurd rfl apart
  | _ => rfl

theorem length_advances {s s' : State} {id : ℕ} {succeeds : Bool} {run : Run} (moved : Advances s id succeeds run s') :
    s'.runs.length = s.runs.length := by
  cases moved <;> exact List.length_set

/-- A thread is started only while there is no verdict. -/
theorem pending_starting {s : State} (attended : Attended s) {actor : Actor} {later : Program}
    (position : s.program actor = .startUnlessJoinable :: later) : pending s = none := by
  have valid := attended.valid actor
  rw [position] at valid
  have notStopped : s.stopped = false := by
    refine eq_false_of_ne_true fun already => ?_
    obtain ⟨handled, blocked⟩ := attended.left already
    cases actor
    · cases position.symm.trans blocked
    · cases position.symm.trans handled
  cases actor
  · change s.main = _ at position
    have handled : s.handler = [] := by
      refine attended.turns.resolve_right fun blocked => ?_
      cases position.symm.trans blocked
    cases valid with
    | joined among =>
      simp only [joinedPrograms, List.mem_cons, List.not_mem_nil, or_false] at among
      rcases among with same | same
      · cases same
      · rw [same] at position
        simp [pending, position, handled, notStopped]
  · change s.handler = _ at position
    have blocked := attended.turns.resolve_left fun handled => by cases position.symm.trans handled
    cases valid with
    | joined among =>
      rw [List.mem_singleton.mp among] at position
      simp [pending, position, blocked, notStopped]

theorem settled_next {s s' : State} {event : Event} (attended : Attended s) (settled : pending s = some true)
    (moved : next lib s event = some s') :
    pending s' = some true ∧ verdict event = none ∧ s'.runs.length = s.runs.length := by
  obtain ⟨-, judges⟩ := attended_next attended moved
  have kept : pending s' = some true ∧ verdict event = none := by
    cases judges with
    | keeps same silent => exact ⟨same.trans settled, silent⟩
    | gives before => cases settled.symm.trans before
    | acts _ before => cases settled.symm.trans before
  refine ⟨kept.1, kept.2, ?_⟩
  obtain ⟨-, moves⟩ := moves_of_next moved
  cases moves with
  | @step actor after rest ran =>
    have same : (after.proceed rest actor).runs = after.runs := by cases actor <;> rfl
    rw [same]
    refine length_executes ran fun starting => ?_
    obtain ⟨later, position⟩ := List.head?_eq_some_iff.mp starting
    cases settled.symm.trans (pending_starting attended position)
  | message => rfl
  | ui found advanced => exact length_advances advanced
  | close => exact List.length_set

theorem settled_execute {s s' : State} {events : List Event} (attended : Attended s) (settled : pending s = some true)
    (ran : execute (next lib) s events = some s') : verdicts events = [] ∧ s'.runs.length = s.runs.length := by
  induction events generalizing s with
  | nil =>
    cases ran
    exact ⟨rfl, rfl⟩
  | cons event rest ih =>
    obtain ⟨middle, moved, later⟩ := Option.bind_eq_some_iff.mp ran
    obtain ⟨still, silent, length⟩ := settled_next attended settled moved
    obtain ⟨none, lengths⟩ := ih (attended_next attended moved).1 still later
    refine ⟨?_, lengths.trans length⟩
    rw [verdicts_cons, silent, none]
    rfl

/-- The main loop ends after a verdict that shuts down and after no other; all verdicts before it
are for another round, and after it nothing is decided and no window is opened. -/
theorem ends_with_shutdown (lib : Glfw) (events : List Event) (s : State)
    (ran : execute (next lib) initial events = some s) :
    (∀ given ∈ (verdicts events).dropLast, given = false) ∧ (s.main = [] → true ∈ verdicts events) ∧
      (true ∈ verdicts events → ∀ later s', execute (next lib) s later = some s' →
        verdicts later = [] ∧ s'.runs.length = s.runs.length) := by
  obtain ⟨attended, n, told⟩ := told_of_execute ran
  rw [told]
  refine ⟨?_, fun ended => ?_, fun shut later s' goes => settled_execute attended ?_ goes⟩
  · cases pending s with
    | none =>
      intro given among
      rw [Option.toList_none, List.append_nil] at among
      exact (List.mem_replicate.mp ((List.dropLast_sublist _).subset among)).2
    | some b =>
      intro given among
      rw [Option.toList_some, List.dropLast_concat] at among
      exact (List.mem_replicate.mp among).2
  · have settled : pending s = some true := by simp [pending, ended]
    rw [settled]
    simp
  · cases settled : pending s with
    | none => simp [settled] at shut
    | some b => simpa [settled, eq_comm] using shut

/-- A restart without a window, and `#shutdown` in the second round. -/
def secondRound : List Event :=
  [.step .main, .step .main, .step .main, .message .restart, .step .handler, .step .handler, .step .main, .step .main,
    .ui 0 false, .step .main, .step .main, .step .main, .step .main, .step .main, .step .main, .step .main, .step .main,
    .message .shutdown]

theorem ends_with_shutdown_restarted : ∃ s, execute (next .plain) initial secondRound = some s ∧
    ∀ later s', execute (next .plain) s later = some s' → verdicts later = [] ∧ s'.runs.length = 2 :=
  ⟨_, rfl, (ends_with_shutdown .plain secondRound _ rfl).2.2 (by decide)⟩

end OsuTracker.Soundness.Shutdown
