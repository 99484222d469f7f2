import OsuTracker.Soundness.Shutdown

/-! # Requests to close the window

While a thread waits in the join, nothing moves but the run that it waits for. A run whose window
has been told to close, or that is past its loop, ends by itself, so the join returns. A request
before `glfwInit` tells no window: the run goes on to open one, and only the user can close it. So
a message that stops the server gets the main loop out of `stopUiThread` when the window is open, or
was closed before.
-/

namespace OsuTracker.Soundness.WindowRequests

open Model.Web.WebState Machine.Regions WindowThread Shutdown

variable {lib : Glfw}

/-! ## Waiting -/

theorem next_step {s s' : State} {actor : Actor} {rest : Program} (going : s.failure = none)
    (ran : exec lib s (s.program actor) = some (s', rest)) : next lib s (.step actor) = some (s'.proceed rest actor) := by
  simp [next, going, ran]

theorem next_ui {s s' : State} {id : ℕ} {succeeds : Bool} (going : s.failure = none)
    (moved : ui_main lib s id succeeds = some s') : next lib s (.ui id succeeds) = some s' := by
  simp [next, going, moved]

/-- A thread has made its request and is about to join the given run. -/
structure Waits (actor : Actor) (id : ℕ) (rest : Program) (s : State) : Prop extends Coherent s where
  going : s.failure = none
  held : s.uiThread = some id
  position : s.program actor = .join :: rest ∨ s.program actor = .waitFor id :: rest

/-- What can happen while a thread waits. -/
inductive Awaits (actor : Actor) (id : ℕ) (rest : Program) (s : State) : Event → State → Prop
  | joins (position : s.program actor = .join :: rest) :
      Awaits actor id rest s (.step actor) (s.proceed (.waitFor id :: rest) actor)
  | joined (position : s.program actor = .waitFor id :: rest)
      (ended : ∀ run, s.runs[id]? = some run → run.phase = .ended) :
      Awaits actor id rest s (.step actor) ({ s with uiThread := none }.proceed rest actor)
  | ui {succeeds : Bool} {run : Run} {s' : State} (found : s.runs[id]? = some run) (moved : Advances s id succeeds run s') :
      Awaits actor id rest s (.ui id succeeds) s'
  | close {run : Run} (found : s.runs[id]? = some run) (phase : run.phase = .opened)
      (unflagged : run.shouldClose = false) :
      Awaits actor id rest s (.close id) (s.setRun id { run with shouldClose := true })

theorem awaits_of_next {actor : Actor} {id : ℕ} {rest : Program} {s s' : State} {event : Event}
    (waits : Waits actor id rest s) (moved : next lib s event = some s') : Awaits actor id rest s event s' := by
  obtain ⟨coherent, going, held, position⟩ := waits
  have own {other : ℕ} {run : Run} (found : s.runs[other]? = some run) (living : run.phase ≠ .ended) : other = id :=
    Option.some.inj ((coherent.only other run found living).symm.trans held)
  obtain ⟨-, moves⟩ := moves_of_next moved
  cases moves with
  | @step stepping after later ran =>
    have same : stepping = actor := by
      obtain ⟨rfl, handled⟩ | ⟨rfl, blocked⟩ := turns_step coherent ran <;> cases actor
      · rfl
      · rcases position with at_ | at_ <;> cases at_.symm.trans handled
      · rcases position with at_ | at_ <;> cases at_.symm.trans blocked
      · rfl
    subst same
    rcases position with at_ | at_ <;> rw [at_] at ran
    · cases ran with
      | joins also =>
        cases held.symm.trans also
        exact .joins at_
      | joinsNothing free => cases held.symm.trans free
    · cases ran with
      | joined ended => exact .joined at_ ended
  | message serving handled =>
    cases actor
    · change s.main = _ ∨ s.main = _ at position
      rcases position with at_ | at_ <;> rw [at_] at serving <;> cases serving
    · rcases position with at_ | at_ <;> cases at_.symm.trans handled
  | ui found advanced =>
    obtain rfl := own found (living_of_advances advanced)
    exact .ui found advanced
  | close found phase unflagged =>
    obtain rfl := own found (by rw [phase]; decide)
    exact .close found phase unflagged

/-- Who waits goes on waiting until the join returns. -/
theorem waits_next {actor : Actor} {id : ℕ} {rest : Program} {s s' : State} {event : Event}
    (waits : Waits actor id rest s) (moved : next lib s event = some s') (away : s'.program actor ≠ rest) :
    Waits actor id rest s' := by
  have coherent := coherent_next s event s' waits.toCoherent moved
  cases awaits_of_next waits moved with
  | joins position =>
    have same : (s.proceed (.waitFor id :: rest) actor).program actor = .waitFor id :: rest := by cases actor <;> rfl
    refine ⟨coherent, ?_, ?_, .inr same⟩
    · cases actor <;> exact waits.going
    · cases actor <;> exact waits.held
  | joined position ended =>
    refine absurd ?_ away
    cases actor <;> rfl
  | ui found advanced =>
    obtain ⟨held, failure, main, handler⟩ := advances_frame advanced
    have same : s'.program actor = s.program actor := by
      cases actor
      · exact main
      · exact handler
    exact ⟨coherent, failure.trans waits.going, held.trans waits.held, same ▸ waits.position⟩
  | close found phase unflagged =>
    refine ⟨coherent, waits.going, waits.held, ?_⟩
    cases actor <;> exact waits.position

/-! ## Requests that arrive -/

/-- How far a run is from its end. -/
def remaining : Phase → ℕ
  | .starting => 5
  | .initialized => 4
  | .opened => 3
  | .closing => 2
  | .destroyed => 1
  | .ended => 0

/-- The run has been told, or is past its loop. -/
def Leaving (run : Run) : Prop :=
  run.phase = .opened ∧ run.shouldClose = true ∨ run.phase = .closing ∨ run.phase = .destroyed ∨ run.phase = .ended

theorem advances_found {s s' : State} {id : ℕ} {succeeds : Bool} {run : Run}
    (found : s.runs[id]? = some run) (moved : Advances s id succeeds run s') :
    ∃ run', s'.runs[id]? = some run' ∧ remaining run'.phase < remaining run.phase ∧ (Leaving run → Leaving run') := by
  have bound : id < s.runs.length := (List.getElem?_eq_some_iff.mp found).1
  have there (run' : Run) : (s.runs.set id run')[id]? = some run' := List.getElem?_set_self bound
  cases moved with
  | initializes phase | opens phase => exact ⟨_, there _, by simp [phase, remaining], by simp [Leaving, phase]⟩
  | refused phase | fails phase => exact ⟨_, there _, by simp [phase, remaining], fun _ => .inr (.inr (.inr rfl))⟩
  | leaves phase => exact ⟨_, there _, by simp [phase, remaining], fun _ => .inr (.inl rfl)⟩
  | destroys phase => exact ⟨_, there _, by simp [phase, remaining], fun _ => .inr (.inr (.inl rfl))⟩
  | terminates phase => exact ⟨_, there _, by simp [phase, remaining], fun _ => .inr (.inr (.inr rfl))⟩

/-- A run that is leaving can take its next step. -/
theorem leaving_progress {s : State} (coherent : Coherent s) {id : ℕ} {run : Run} (found : s.runs[id]? = some run)
    (leaving : Leaving run) (living : run.phase ≠ .ended) : ∃ s', ui_main lib s id true = some s' := by
  rcases leaving with ⟨phase, flagged⟩ | phase | phase | phase
  · have shown := coherent.shown id run found (.inl phase)
    exact ⟨_, by simp [ui_main, found, phase, shown, flagged, lib.windowShouldClose_flag]; rfl⟩
  · exact ⟨_, by simp [ui_main, found, phase]; rfl⟩
  · exact ⟨_, by simp [ui_main, found, phase]; rfl⟩
  · exact absurd phase living

/-- The steps that a statement takes at most. -/
def weight : Statement → ℕ
  | .closeIfJoinable => 4
  | .join => 2
  | _ => 1

def cost : Program → ℕ
  | [] => 0
  | statement :: rest => weight statement + cost rest

def distance (actor : Actor) (id : ℕ) (s : State) : ℕ :=
  cost (s.program actor) + s.runs[id]?.elim 0 fun run => remaining run.phase

theorem distance_next {actor : Actor} {id : ℕ} {rest : Program} {s s' : State} {event : Event} {run : Run}
    (found : s.runs[id]? = some run) (leaving : Leaving run) (moved : Awaits actor id rest s event s') :
    (∃ run', s'.runs[id]? = some run' ∧ Leaving run') ∧ distance actor id s' < distance actor id s := by
  cases moved with
  | joins position =>
    have same : (s.proceed (.waitFor id :: rest) actor).program actor = .waitFor id :: rest := by cases actor <;> rfl
    have runs : (s.proceed (.waitFor id :: rest) actor).runs = s.runs := by cases actor <;> rfl
    refine ⟨⟨run, runs ▸ found, leaving⟩, ?_⟩
    simp [distance, same, runs, position, cost, weight]
  | joined position ended =>
    have same : (({ s with uiThread := none } : State).proceed rest actor).program actor = rest := by cases actor <;> rfl
    have runs : (({ s with uiThread := none } : State).proceed rest actor).runs = s.runs := by cases actor <;> rfl
    refine ⟨⟨run, by rw [runs]; exact found, leaving⟩, ?_⟩
    simp [distance, same, runs, position, cost, weight]
  | ui also advanced =>
    cases found.symm.trans also
    obtain ⟨_, _, main, handler⟩ := advances_frame advanced
    have same : s'.program actor = s.program actor := by
      cases actor
      · exact main
      · exact handler
    obtain ⟨run', there, nearer, kept⟩ := advances_found found advanced
    refine ⟨⟨run', there, kept leaving⟩, ?_⟩
    simpa [distance, same, there, found] using nearer
  | close also phase unflagged =>
    cases found.symm.trans also
    simp [Leaving, phase, unflagged] at leaving

/-- A join of a run that is leaving returns, whatever else happens. -/
theorem joins_leaving {allowed : Event → Prop} (steps : ∀ actor, allowed (.step actor))
    (advances : ∀ id, allowed (.ui id true)) {actor : Actor} {id : ℕ} {rest : Program} {s : State}
    (waits : Waits actor id rest s) {run : Run} (found : s.runs[id]? = some run) (leaving : Leaving run) :
    Inevitable (next lib) allowed (fun s => s.program actor = rest) s := by
  refine Inevitable.of_rank (P := fun s => Waits actor id rest s ∧ ∃ run, s.runs[id]? = some run ∧ Leaving run)
    (distance actor id) ?_ ?_ ⟨waits, run, found, leaving⟩
  · rintro s ⟨waits, run, found, leaving⟩ -
    rcases waits.position with at_ | at_
    · exact ⟨.step actor, _, steps actor, next_step waits.going (by rw [at_, exec, waits.held])⟩
    · by_cases ended : run.phase = .ended
      · refine ⟨.step actor, ({ s with uiThread := none } : State).proceed rest actor, steps actor, ?_⟩
        exact next_step waits.going (by rw [at_, exec, found]; simp [ended])
      · obtain ⟨s', moved⟩ := leaving_progress waits.toCoherent found leaving ended
        exact ⟨.ui id true, s', advances id, next_ui waits.going moved⟩
  · rintro s event s' ⟨waits, run, found, leaving⟩ - - moved
    obtain ⟨kept, nearer⟩ := distance_next found leaving (awaits_of_next waits moved)
    refine ⟨?_, nearer⟩
    by_cases arrived : s'.program actor = rest
    · exact .inl arrived
    · exact .inr ⟨waits_next waits moved arrived, kept⟩

/-! ## Requests that get lost -/

/-- The user leaves the windows alone, and GLFW does not fail. -/
def Undisturbed : Event → Prop
  | .close _ | .ui _ false => False
  | _ => True

/-- The run has not been told. -/
def Staying (run : Run) : Prop :=
  run.phase = .starting ∨ run.phase = .initialized ∨ run.phase = .opened ∧ run.shouldClose = false

theorem staying_advances {s s' : State} (coherent : Coherent s) {id : ℕ} {succeeds : Bool} {run : Run}
    (found : s.runs[id]? = some run) (staying : Staying run) (undisturbed : Undisturbed (.ui id succeeds))
    (moved : Advances s id succeeds run s') : ∃ run', s'.runs[id]? = some run' ∧ Staying run' := by
  have bound : id < s.runs.length := (List.getElem?_eq_some_iff.mp found).1
  cases moved with
  | initializes phase => exact ⟨_, List.getElem?_set_self bound, .inr (.inl rfl)⟩
  | refused phase failed =>
    subst failed
    cases undisturbed
  | opens phase => exact ⟨_, List.getElem?_set_self bound, .inr (.inr ⟨rfl, rfl⟩)⟩
  | fails phase failed =>
    subst failed
    cases undisturbed
  | leaves phase flagged =>
    -- the flag that the loop reads is the one of its own window
    rw [coherent.shown id run found (.inl phase), Option.bind_some, found, Option.any_some] at flagged
    rcases staying with at_ | at_ | ⟨_, unflagged⟩
    · cases at_.symm.trans phase
    · cases at_.symm.trans phase
    · cases unflagged.symm.trans flagged
  | destroys phase | terminates phase => simp [Staying, phase] at staying

theorem staying_next {actor : Actor} {id : ℕ} {rest : Program} {s s' : State} {event : Event}
    (waits : Waits actor id rest s) {run : Run} (found : s.runs[id]? = some run) (staying : Staying run)
    (undisturbed : Undisturbed event) (moved : next lib s event = some s') :
    Waits actor id rest s' ∧ ∃ run', s'.runs[id]? = some run' ∧ Staying run' := by
  have away : s.program actor ≠ rest := by
    rcases waits.position with at_ | at_ <;> rw [at_] <;> exact List.cons_ne_self _ _
  have both : s'.program actor ≠ rest ∧ ∃ run', s'.runs[id]? = some run' ∧ Staying run' := by
    cases awaits_of_next waits moved with
    | joins position => exact ⟨by cases actor <;> exact List.cons_ne_self _ _, run, by cases actor <;> exact found, staying⟩
    | joined position ended =>
      have finished := ended run found
      simp [Staying, finished] at staying
    | ui also advanced =>
      cases found.symm.trans also
      obtain ⟨_, _, main, handler⟩ := advances_frame advanced
      refine ⟨?_, staying_advances waits.toCoherent found staying undisturbed advanced⟩
      cases actor
      · exact fun same => away (main.symm.trans same)
      · exact fun same => away (handler.symm.trans same)
    | close => cases undisturbed
  exact ⟨waits_next waits moved both.1, both.2⟩

/-- Without the user a join of a run that has not been told does not return. -/
theorem joins_staying {actor : Actor} {id : ℕ} {rest : Program} {s : State} (waits : Waits actor id rest s) {run : Run}
    (found : s.runs[id]? = some run) (staying : Staying run) {later : List Event} {s' : State}
    (undisturbed : ∀ event ∈ later, Undisturbed event) (ran : execute (next lib) s later = some s') :
    s'.program actor ≠ rest := by
  have step (s : State) (event : Event) (s' : State) :
      (Waits actor id rest s ∧ ∃ run, s.runs[id]? = some run ∧ Staying run) → Undisturbed event →
        next lib s event = some s' → Waits actor id rest s' ∧ ∃ run, s'.runs[id]? = some run ∧ Staying run :=
    fun ⟨waits, _, found, staying⟩ undisturbed moved => staying_next waits found staying undisturbed moved
  have kept := execute_invariant step ⟨waits, run, found, staying⟩ ran (respects_of_forall undisturbed)
  rcases kept.1.position with at_ | at_ <;> rw [at_] <;> exact List.cons_ne_self _ _

/-! ## Outcomes -/

/-- A request while the given run is held. -/
inductive Requests (s : State) (id : ℕ) (run : Run) : State → Prop
  | told (there : run.phase = .opened ∨ run.phase = .closing) :
      Requests s id run (s.setRun id { run with shouldClose := true })
  | refused (gone : run.phase = .starting ∨ run.phase = .ended) (dark : s.glfw = false) : Requests s id run s
  | astray (gone : run.phase ≠ .opened ∧ run.phase ≠ .closing) (lit : s.glfw = true) :
      Requests s id run (s.fail .noWindow)

theorem requests_held {s s' : State} (coherent : Coherent s) {id : ℕ} {run : Run} (held : s.uiThread = some id)
    (found : s.runs[id]? = some run) (requested : Requested s s') : Requests s id run s' := by
  cases requested with
  | refused dark =>
    refine .refused ?_ dark
    cases phase : run.phase with
    | starting => exact .inl rfl
    | ended => exact .inr rfl
    | _ => cases dark.symm.trans (coherent.lit id run found (by rw [phase]; decide) (by rw [phase]; decide))
  | astray lit gone =>
    refine .astray (not_or.mp fun there => ?_) lit
    cases gone.symm.trans (shown_eq_some.mpr ⟨coherent.shown id run found there, found, there⟩)
  | @told other run' _ shown =>
    obtain ⟨-, also, there⟩ := shown_eq_some.mp shown
    have living : run'.phase ≠ .ended := by rcases there with at_ | at_ <;> rw [at_] <;> decide
    obtain rfl := Option.some.inj (held.symm.trans (coherent.only other run' also living))
    cases found.symm.trans also
    exact .told there

/-- What a thread that is about to make its request does next. -/
theorem asked_next {s s' : State} {actor : Actor} {rest : Program} (position : s.program actor = .closeWindow :: rest)
    (asked : next lib s (.step actor) = some s') :
    s.failure = none ∧ ∃ after, Requested s after ∧ s' = after.proceed rest actor := by
  obtain ⟨going, moves⟩ := moves_of_next asked
  refine ⟨going, ?_⟩
  cases moves with
  | step ran =>
    rw [position] at ran
    cases ran with
    | closes requested => exact ⟨_, requested, rfl⟩

/-- A request that is not astray leaves its thread waiting, for a run that is leaving unless the
library was not initialized yet. -/
theorem waits_of_asked {s s' : State} {actor : Actor} {rest : Program} (coherent : Coherent s) {id : ℕ} {run : Run}
    (held : s.uiThread = some id) (found : s.runs[id]? = some run)
    (position : s.program actor = .closeWindow :: .join :: rest) (asked : next lib s (.step actor) = some s')
    (fine : s'.failure = none) :
    Waits actor id rest s' ∧ ∃ run', s'.runs[id]? = some run' ∧
      (run.phase ≠ .starting → Leaving run') ∧ (run.phase = .starting → Staying run') := by
  have coherent' := coherent_next s _ s' coherent asked
  obtain ⟨going, after, requested, rfl⟩ := asked_next position asked
  have own (s : State) : (s.proceed (.join :: rest) actor).program actor = .join :: rest := by cases actor <;> rfl
  have uiThread (s : State) : (s.proceed (.join :: rest) actor).uiThread = s.uiThread := by cases actor <;> rfl
  have runs (s : State) : (s.proceed (.join :: rest) actor).runs = s.runs := by cases actor <;> rfl
  have failure (s : State) : (s.proceed (.join :: rest) actor).failure = s.failure := by cases actor <;> rfl
  have bound : id < s.runs.length := (List.getElem?_eq_some_iff.mp found).1
  cases requests_held coherent held found requested with
  | told there =>
    refine ⟨⟨coherent', fine, (uiThread _).trans held, .inl (own _)⟩, { run with shouldClose := true }, ?_, fun _ => ?_,
      fun at_ => ?_⟩
    · rw [runs]
      exact List.getElem?_set_self bound
    · exact there.elim (fun phase => .inl ⟨phase, rfl⟩) fun phase => .inr (.inl phase)
    · rcases there with no | no <;> cases at_.symm.trans no
  | refused gone =>
    refine ⟨⟨coherent', fine, (uiThread _).trans held, .inl (own _)⟩, run, ?_, fun begun => ?_, .inl⟩
    · rw [runs]
      exact found
    · exact .inr (.inr (.inr (gone.resolve_left begun)))
  | astray =>
    rw [failure] at fine
    cases fine

/-- In a reachable state a request goes wrong if the library is initialized and there is no open
window. Otherwise the join that follows it returns whatever happens, unless the run had not
initialized the library; then the join does not return before the user closes the window. -/
theorem request_outcome (lib : Glfw) (events : List Event) (s : State)
    (ran : execute (next lib) initial events = some s) (actor : Actor)
    (rest : Program) (position : s.program actor = .closeWindow :: .join :: rest) (id : ℕ) (run : Run)
    (held : s.uiThread = some id) (found : s.runs[id]? = some run) (s' : State)
    (asked : next lib s (.step actor) = some s') :
    (s'.failure = some .noWindow ↔ s.glfw = true ∧ run.phase ≠ .opened ∧ run.phase ≠ .closing) ∧
      (s'.failure = none → run.phase ≠ .starting →
        Inevitable (next lib) (fun _ => True) (fun later => later.program actor = rest) s') ∧
      (s'.failure = none → run.phase = .starting → ∀ later s'', (∀ event ∈ later, Undisturbed event) →
        execute (next lib) s' later = some s'' → s''.program actor ≠ rest) := by
  have coherent := coherent_execute ran
  refine ⟨?_, fun fine begun => ?_, fun fine starting later s'' undisturbed goes => ?_⟩
  · obtain ⟨going, after, requested, rfl⟩ := asked_next position asked
    have failure (s : State) : (s.proceed (.join :: rest) actor).failure = s.failure := by cases actor <;> rfl
    rw [failure]
    cases requests_held coherent held found requested with
    | told there =>
      refine iff_of_false (fun failed => nomatch going.symm.trans failed) fun ⟨_, first, second⟩ => ?_
      exact there.elim first second
    | refused gone dark =>
      exact iff_of_false (fun failed => nomatch going.symm.trans failed) fun lit => nomatch dark.symm.trans lit.1
    | astray gone lit => exact iff_of_true rfl ⟨lit, gone⟩
  · obtain ⟨waits, run', there, leaving, -⟩ := waits_of_asked coherent held found position asked fine
    exact joins_leaving (fun _ => trivial) (fun _ => trivial) waits there (leaving begun)
  · obtain ⟨waits, run', there, -, staying⟩ := waits_of_asked coherent held found position asked fine
    exact joins_staying waits there (staying starting) undisturbed goes

/-- A message may come before the window: the handler that is to open it again then waits for the
user, and the server with it. -/
theorem request_outcome_early : ∃ s, execute (next .plain) initial
    [.step .main, .step .main, .step .main, .message .open_ui, .step .handler, .step .handler] = some s ∧
      ∀ later s', (∀ event ∈ later, Undisturbed event) → execute (next .plain) s later = some s' →
        s'.handler ≠ [.startUnlessJoinable] :=
  ⟨_, rfl, (request_outcome .plain [.step .main, .step .main, .step .main, .message .open_ui, .step .handler] _ rfl .handler
    [.startUnlessJoinable] rfl 0 {} rfl rfl _ rfl).2.2 rfl rfl⟩

/-! ## The end of an iteration -/

/-- The user leaves the windows alone. -/
def Unattended : Event → Prop
  | .close _ => False
  | _ => True

/-- The window is open, and nobody has told it to close, or it was closed before. -/
def Calm (s : State) : Prop :=
  ∃ id run, s.uiThread = some id ∧ s.runs[id]? = some run ∧
    (run.phase = .opened ∧ run.shouldClose = false ∨ run.phase = .ended ∧ s.glfw = false)

/-- A verdict was given, and the window has not been told yet. -/
structure Nears (v : Bool) (s : State) : Prop extends Attended s where
  going : s.failure = none
  given : pending s = some v
  calm : Calm s
  ahead : s.main = .serve :: stopUiThread ++ ending ∨
    s.handler = [] ∧ (s.main = stopUiThread ++ ending ∨ s.main = .closeWindow :: .join :: ending)

/-- The main thread waits for a run that is leaving. -/
def Arrives (v : Bool) (s : State) : Prop :=
  ∃ id run, Waits .main id ending s ∧ s.runs[id]? = some run ∧ Leaving run ∧ Attended s ∧ pending s = some v

/-- A window that nobody tells to close stays as it is. -/
theorem calm_advances {s s' : State} (coherent : Coherent s) (calm : Calm s) {id : ℕ} {succeeds : Bool} {run : Run}
    (found : s.runs[id]? = some run) (moved : Advances s id succeeds run s') : False := by
  obtain ⟨own, there, held, also, position⟩ := calm
  have living := living_of_advances moved
  obtain rfl := Option.some.inj (held.symm.trans (coherent.only id run found living))
  cases found.symm.trans also
  obtain ⟨phase, unflagged⟩ | ⟨ended, _⟩ := position
  · cases moved with
    | leaves _ flagged =>
      rw [coherent.shown own run found (.inl phase), Option.bind_some, found, Option.any_some] at flagged
      cases unflagged.symm.trans flagged
    | initializes no | refused no | opens no | fails no | destroys no | terminates no => cases phase.symm.trans no
  · exact living ended

/-- While the main thread is at the server a verdict is on its way through the handler. -/
theorem pending_serving {s : State} (attended : Attended s) {v : Bool} (given : pending s = some v)
    (blocked : s.main = .serve :: stopUiThread ++ ending) :
    ((∃ restart, s.handler = shutdown restart) ∨ s.handler = [.stopApp]) ∨ s.stopped = true ∧ s.handler = [] := by
  by_cases stops : .stopApp ∈ s.handler
  · exact .inl ((stopApp_mem (attended.valid .handler)).mp stops)
  · have stopped : s.stopped = true := by
      simp [pending, blocked, stops] at given
      exact given.1
    exact .inr ⟨stopped, (attended.left stopped).1⟩

/-- A verdict that is given stays until the main loop comes to its test. -/
theorem pending_next {s s' : State} {event : Event} {v : Bool} (attended : Attended s) (given : pending s = some v)
    (away : s.main ≠ [.repeatWhileRun]) (moved : next lib s event = some s') : Attended s' ∧ pending s' = some v := by
  obtain ⟨still, judges⟩ := attended_next attended moved
  refine ⟨still, ?_⟩
  cases judges with
  | keeps same => exact same.trans given
  | gives before => cases given.symm.trans before
  | acts position => exact absurd position away

theorem nears_main {v : Bool} {s s' : State} (nears : Nears v s) (moved : next lib s (.step .main) = some s') :
    (Arrives v s' ∨ Nears v s') ∧ cost s'.main + cost s'.handler < cost s.main + cost s.handler := by
  have away : s.main ≠ [.repeatWhileRun] := by
    rcases nears.ahead with at_ | ⟨_, at_ | at_⟩ <;> rw [at_] <;> decide
  obtain ⟨still, given⟩ := pending_next nears.toAttended nears.given away moved
  obtain ⟨id, run, held, found, position⟩ := nears.calm
  have moves := (moves_of_next moved).2
  rcases nears.ahead with at_ | ⟨handled, at_ | at_⟩
  · cases moves with
    | step ran =>
      change Executes s s.main _ _ at ran
      rw [at_] at ran
      cases ran with
      | serves stopped handled =>
        refine ⟨.inr ⟨still, nears.going, given, nears.calm, .inr ⟨handled, .inl rfl⟩⟩, ?_⟩
        simp [State.proceed, cost, weight, at_, stopUiThread]
  · cases moves with
    | step ran =>
      change Executes s s.main _ _ at ran
      rw [at_] at ran
      cases ran with
      | skips free => cases held.symm.trans free
      | tests =>
        refine ⟨.inr ⟨still, nears.going, given, nears.calm, .inr ⟨handled, .inr rfl⟩⟩, ?_⟩
        simp [State.proceed, cost, weight, at_, stopUiThread]
  · have position' : s.program .main = .closeWindow :: .join :: ending := at_
    obtain ⟨-, after, requested, same⟩ := asked_next position' moved
    have fine : s'.failure = none := by
      rw [same]
      change after.failure = none
      cases requests_held nears.toCoherent held found requested with
      | told => exact nears.going
      | refused => exact nears.going
      | astray gone lit =>
        obtain ⟨phase, _⟩ | ⟨_, dark⟩ := position
        · exact absurd phase gone.1
        · cases lit.symm.trans dark
    have begun : run.phase ≠ .starting := by
      obtain ⟨phase, _⟩ | ⟨phase, _⟩ := position <;> rw [phase] <;> decide
    obtain ⟨waits, run', there, leaving, -⟩ := waits_of_asked nears.toCoherent held found position' moved fine
    refine ⟨.inl ⟨id, run', waits, there, leaving begun, still, given⟩, ?_⟩
    have handler : s'.handler = s.handler := by
      rw [same]
      exact requested.frame.2.2.2.2.2 .handler
    have main : s'.main = .join :: ending := by rw [same]; rfl
    rw [main, handler, at_]
    simp [cost, weight]

theorem nears_handler {v : Bool} {s s' : State} (nears : Nears v s) (moved : next lib s (.step .handler) = some s') :
    Nears v s' ∧ cost s'.main + cost s'.handler < cost s.main + cost s.handler := by
  have moves := (moves_of_next moved).2
  cases moves with
  | @step _ after rest ran =>
    obtain ⟨no, _⟩ | ⟨-, blocked⟩ := turns_step nears.toCoherent ran
    · cases no
    · obtain ⟨still, given⟩ := pending_next nears.toAttended nears.given (by rw [blocked]; decide) moved
      change Executes s s.handler after rest at ran
      obtain (⟨restart, at_⟩ | at_) | ⟨-, at_⟩ := pending_serving nears.toAttended nears.given blocked <;>
        rw [at_] at ran <;> cases ran
      · exact ⟨⟨still, nears.going, given, nears.calm, .inl blocked⟩, by simp [State.proceed, cost, at_, shutdown, weight]⟩
      · exact ⟨⟨still, nears.going, given, nears.calm, .inl blocked⟩, by simp [State.proceed, cost, at_, weight]⟩

theorem nears_next {v : Bool} {s s' : State} {event : Event} (nears : Nears v s) (unattended : Unattended event)
    (moved : next lib s event = some s') :
    (Arrives v s' ∨ Nears v s') ∧ cost s'.main + cost s'.handler < cost s.main + cost s.handler := by
  cases event with
  | step actor =>
    cases actor with
    | main => exact nears_main nears moved
    | handler => exact (nears_handler nears moved).imp .inr id
  | message message =>
    cases (moves_of_next moved).2 with
    | message serving handled running =>
      have blocked := main_of_serving nears.toCoherent serving
      obtain (⟨restart, at_⟩ | at_) | ⟨stopped, -⟩ := pending_serving nears.toAttended nears.given blocked
      · cases handled.symm.trans at_
      · cases handled.symm.trans at_
      · cases running.symm.trans stopped
  | ui id succeeds =>
    cases (moves_of_next moved).2 with
    | ui found advanced => exact (calm_advances nears.toCoherent nears.calm found advanced).elim
  | close id => exact unattended.elim

theorem nears_progress {v : Bool} {s : State} (nears : Nears v s) :
    ∃ event s', Unattended event ∧ next lib s event = some s' := by
  have steps (actor : Actor) {s' : State} {rest : Program} (ran : exec lib s (s.program actor) = some (s', rest)) :
      ∃ event s', Unattended event ∧ next lib s event = some s' :=
    ⟨.step actor, _, trivial, next_step nears.going ran⟩
  rcases nears.ahead with at_ | ⟨handled, at_ | at_⟩
  · obtain (⟨restart, handler⟩ | handler) | ⟨stopped, handler⟩ := pending_serving nears.toAttended nears.given at_
    · exact steps .handler (by rw [State.program, handler]; rfl)
    · exact steps .handler (by rw [State.program, handler]; rfl)
    · exact steps .main (by rw [State.program, at_]; exact if_pos ⟨stopped, handler⟩)
  · exact steps .main (by rw [State.program, at_]; rfl)
  · exact steps .main (by rw [State.program, at_]; rfl)

theorem arrives_of_nears {v : Bool} {s : State} (nears : Nears v s) : Inevitable (next lib) Unattended (Arrives v) s :=
  .of_rank (P := Nears v) (fun s => cost s.main + cost s.handler) (fun _ nears _ => nears_progress nears)
    (fun _ _ _ nears _ unattended moved => nears_next nears unattended moved) nears

/-- `stopUiThread` has returned. -/
def Comes (v : Bool) (s : State) : Prop :=
  s.main = ending ∧ s.failure = none ∧ Attended s ∧ pending s = some v

theorem comes_of_arrives {v : Bool} {s : State} (arrives : Arrives v s) : Inevitable (next lib) Unattended (Comes v) s := by
  obtain ⟨id, run, waits, found, leaving, attended, given⟩ := arrives
  have returns : Inevitable (next lib) Unattended (fun s => s.program .main = ending) s :=
    joins_leaving (fun _ => trivial) (fun _ => trivial) waits found leaving
  have kept := returns.keeping (P := fun s => (Waits .main id ending s ∨ s.main = ending) ∧
    s.failure = none ∧ Attended s ∧ pending s = some v) ?_ ⟨.inl waits, waits.going, attended, given⟩
  · exact kept.trans fun s arrived => .reached ⟨arrived.1, arrived.2.2⟩
  · rintro s event s' away ⟨waits, going, attended, given⟩ - moved
    have waits := waits.resolve_right away
    have early : s.main ≠ [.repeatWhileRun] := fun last => by
      rcases waits.position with at_ | at_ <;> cases at_.symm.trans last
    refine ⟨?_, ?_, pending_next attended given early moved⟩
    · by_cases arrived : s'.main = ending
      · exact .inr arrived
      · exact .inl (waits_next waits moved arrived)
    · cases awaits_of_next waits moved with
      | joins | joined | close => exact going
      | ui found advanced => exact (advances_frame advanced).2.1.trans going

/-- When the window is open or was closed before, a message that stops the server ends the window: without the
user the main loop comes out of `stopUiThread`, with nothing left but to stop the fetching and to test its
condition, which has the value that the message asks for. -/
theorem iteration_ends (lib : Glfw) (events : List Event) (s : State) (ran : execute (next lib) initial events = some s)
    (message : Message) (v : Bool) (gives : verdict (.message message) = some v) (calm : Calm s) (s' : State)
    (taken : next lib s (.message message) = some s') :
    Inevitable (next lib) Unattended (fun later => later.main = [.stopFetchThread, .repeatWhileRun] ∧
      later.uiThread = none ∧ later.failure = none ∧ later.run = !v) s' := by
  have attended := (told_of_execute ran).1
  obtain ⟨going, moves⟩ := moves_of_next taken
  cases moves with
  | message serving handled running =>
    have blocked := main_of_serving attended.toCoherent serving
    have given := (judges_message message blocked handled running).2.trans gives
    have nears : Nears v { s with handler := message.handler } :=
      ⟨(attended_next attended taken).1, going, given, calm, .inl blocked⟩
    refine ((arrives_of_nears nears).trans fun s => comes_of_arrives).trans fun s comes => .reached ?_
    obtain ⟨at_, going, attended, given⟩ := comes
    have free : Known .main s.main s.uiThread := attended.known .main
    rw [at_] at free
    exact ⟨at_, free, going, by simpa [pending, at_] using given⟩

theorem iteration_ends_shutdown : ∃ s, execute (next .plain) initial
    [.step .main, .step .main, .step .main, .ui 0 true, .ui 0 true, .message .shutdown] = some s ∧
      Inevitable (next .plain) Unattended (fun later => later.main = [.stopFetchThread, .repeatWhileRun] ∧
        later.uiThread = none ∧ later.failure = none ∧ later.run = false) s :=
  ⟨_, rfl, iteration_ends .plain [.step .main, .step .main, .step .main, .ui 0 true, .ui 0 true] _ rfl .shutdown true rfl
    ⟨0, _, rfl, rfl, .inl ⟨rfl, rfl⟩⟩ _ rfl⟩

end OsuTracker.Soundness.WindowRequests
