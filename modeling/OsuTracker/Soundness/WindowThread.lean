import OsuTracker.Model.Web.WebState

/-! # The lifecycle of the window thread

Main loop and handlers take turns, since the main loop is blocked in the server whenever a message
is handled, and nobody else touches `uiThread`. So one run of the window is alive at most, the one
that `uiThread` holds, and none is left when the program ends.
-/

namespace OsuTracker.Soundness.WindowThread

open Model.Web.WebState Machine.Regions

variable {lib : Glfw}

/-! ## Statements -/

/-- What a request to close the window does, whatever library it is that behaves as documented. -/
inductive Requested (s : State) : State → Prop
  | refused (dark : s.glfw = false) : Requested s s
  | astray (lit : s.glfw = true) (gone : s.shown = none) : Requested s (s.fail .noWindow)
  | told {id : ℕ} {run : Run} (lit : s.glfw = true) (shown : s.shown = some (id, run)) :
      Requested s (s.setRun id { run with shouldClose := true })

theorem requested_of_ui_mainTerminate (lib : Glfw) (s : State) : Requested s (ui_mainTerminate lib s) := by
  unfold ui_mainTerminate
  cases lit : s.glfw with
  | false =>
    rw [lib.setWindowShouldClose_refused]
    exact .refused lit
  | true =>
    cases shown : s.shown with
    | none =>
      rw [Option.isSome_none, lib.setWindowShouldClose_undefined]
      exact .astray lit shown
    | some there =>
      rw [Option.isSome_some, lib.setWindowShouldClose_done]
      exact .told lit shown

theorem shown_eq_some {s : State} {id : ℕ} {run : Run} : s.shown = some (id, run) ↔
    s.window = some id ∧ s.runs[id]? = some run ∧ (run.phase = .opened ∨ run.phase = .closing) := by
  unfold State.shown
  cases window : s.window with
  | none => simp
  | some own =>
    cases found : s.runs[own]? with
    | none =>
      simp only [Option.bind_eq_bind, Option.bind_some, found, Option.bind_none, reduceCtorEq, Option.some.injEq,
        false_iff, not_and]
      rintro rfl there
      cases found.symm.trans there
    | some there =>
      simp only [Option.bind_eq_bind, Option.bind_some, found, Option.ite_none_right_eq_some, Option.some.injEq,
        Prod.mk.injEq]
      constructor
      · rintro ⟨at_, rfl, rfl⟩
        exact ⟨rfl, found, at_⟩
      · rintro ⟨rfl, also, at_⟩
        cases found.symm.trans also
        exact ⟨at_, rfl, rfl⟩

/-- A request changes at most a flag, or goes wrong. -/
theorem Requested.frame {s s' : State} (requested : Requested s s') :
    s'.uiThread = s.uiThread ∧ s'.stopped = s.stopped ∧ s'.shutdownWebServer = s.shutdownWebServer ∧ s'.run = s.run ∧
      s'.runs.length = s.runs.length ∧ ∀ actor, s'.program actor = s.program actor := by
  cases requested with
  | refused => exact ⟨rfl, rfl, rfl, rfl, rfl, fun _ => rfl⟩
  | astray => exact ⟨rfl, rfl, rfl, rfl, rfl, fun actor => by cases actor <;> rfl⟩
  | told => exact ⟨rfl, rfl, rfl, rfl, List.length_set, fun actor => by cases actor <;> rfl⟩

/-- What each statement does. -/
inductive Executes (s : State) : Program → State → Program → Prop
  | skips {rest : Program} (free : s.uiThread = none) : Executes s (.closeIfJoinable :: rest) s rest
  | tests {rest : Program} {id : ℕ} (held : s.uiThread = some id) :
      Executes s (.closeIfJoinable :: rest) s (.closeWindow :: .join :: rest)
  | startsFetching {rest : Program} : Executes s (.startFetchThread :: rest) s rest
  | stopsFetching {rest : Program} : Executes s (.stopFetchThread :: rest) s rest
  | closes {s' : State} {rest : Program} (requested : Requested s s') : Executes s (.closeWindow :: rest) s' rest
  | joins {rest : Program} {id : ℕ} (held : s.uiThread = some id) :
      Executes s (.join :: rest) s (.waitFor id :: rest)
  | joinsNothing {rest : Program} (free : s.uiThread = none) : Executes s (.join :: rest) (s.fail .terminated) rest
  | joined {rest : Program} {id : ℕ} (ended : ∀ run, s.runs[id]? = some run → run.phase = .ended) :
      Executes s (.waitFor id :: rest) { s with uiThread := none } rest
  | running {rest : Program} {id : ℕ} (held : s.uiThread = some id) :
      Executes s (.startUnlessJoinable :: rest) s rest
  | starts {rest : Program} (free : s.uiThread = none) :
      Executes s (.startUnlessJoinable :: rest) { s with runs := s.runs ++ [{}], uiThread := some s.runs.length } rest
  | serves {rest : Program} (stopped : s.stopped = true) (handled : s.handler = []) :
      Executes s (.serve :: rest) { s with run := !s.shutdownWebServer, stopped := false } rest
  | repeats {rest : Program} (run : s.run = true) : Executes s (.repeatWhileRun :: rest) s iteration
  | destroys {rest : Program} {id : ℕ} (run : s.run = false) (held : s.uiThread = some id) :
      Executes s (.repeatWhileRun :: rest) (s.fail .terminated) rest
  | returns {rest : Program} (run : s.run = false) (free : s.uiThread = none) :
      Executes s (.repeatWhileRun :: rest) s rest
  | assigns {rest : Program} {shutdown : Bool} :
      Executes s (.assignShutdown shutdown :: rest) { s with shutdownWebServer := shutdown } rest
  | stops {rest : Program} : Executes s (.stopApp :: rest) { s with stopped := true } rest

theorem executes_of_exec {s s' : State} {p rest : Program} (ran : exec lib s p = some (s', rest)) :
    Executes s p s' rest := by
  cases p with
  | nil => cases ran
  | cons statement later =>
    cases statement with
    | startFetchThread =>
      cases ran
      exact .startsFetching
    | stopFetchThread =>
      cases ran
      exact .stopsFetching
    | closeIfJoinable =>
      cases held : s.uiThread <;> simp only [exec, held] at ran <;> cases ran
      · exact .skips held
      · exact .tests held
    | closeWindow =>
      cases ran
      exact .closes (requested_of_ui_mainTerminate lib s)
    | join =>
      cases held : s.uiThread <;> simp only [exec, held] at ran <;> cases ran
      · exact .joinsNothing held
      · exact .joins held
    | waitFor id =>
      obtain ⟨ended, same⟩ := Option.ite_none_right_eq_some.mp ran
      cases same
      exact .joined fun run found => by simpa [found] using ended
    | startUnlessJoinable =>
      cases held : s.uiThread <;> simp only [exec, held] at ran <;> cases ran
      · exact .starts held
      · exact .running held
    | serve =>
      obtain ⟨⟨stopped, handled⟩, same⟩ := Option.ite_none_right_eq_some.mp ran
      cases same
      exact .serves stopped handled
    | repeatWhileRun =>
      cases run : s.run <;> cases held : s.uiThread <;> simp only [exec, run, held] at ran <;> cases ran
      · exact .returns run held
      · exact .destroys run held
      · exact .repeats run
      · exact .repeats run
    | assignShutdown shutdown =>
      cases ran
      exact .assigns
    | stopApp =>
      cases ran
      exact .stops

/-! ## The window -/

/-- What a step of a run of `ui_main` does. -/
inductive Advances (s : State) (id : ℕ) (succeeds : Bool) (run : Run) : State → Prop
  | initializes (phase : run.phase = .starting) :
      Advances s id succeeds run ({ s with glfw := true }.setRun id { run with phase := .initialized })
  | refused (phase : run.phase = .starting) (failed : succeeds = false) :
      Advances s id succeeds run (s.setRun id { run with phase := .ended })
  | opens (phase : run.phase = .initialized) :
      Advances s id succeeds run ({ s with window := some id }.setRun id { phase := .opened })
  | fails (phase : run.phase = .initialized) (failed : succeeds = false) :
      Advances s id succeeds run ({ s with window := none }.setRun id { run with phase := .ended })
  | leaves (phase : run.phase = .opened) (flagged : (s.window.bind (s.runs[·]?)).any (·.shouldClose) = true) :
      Advances s id succeeds run (s.setRun id { run with phase := .closing })
  | destroys (phase : run.phase = .closing) : Advances s id succeeds run (s.setRun id { run with phase := .destroyed })
  | terminates (phase : run.phase = .destroyed) :
      Advances s id succeeds run ({ s with glfw := false }.setRun id { run with phase := .ended })

theorem advances_of_ui_main {s s' : State} {id : ℕ} {succeeds : Bool} (moved : ui_main lib s id succeeds = some s') :
    ∃ run, s.runs[id]? = some run ∧ Advances s id succeeds run s' := by
  obtain ⟨run, found, later⟩ := Option.bind_eq_some_iff.mp moved
  refine ⟨run, found, ?_⟩
  cases phase : run.phase <;> simp only [phase] at later
  case starting =>
    split at later <;> cases later
    · exact .initializes phase
    · next refused =>
      refine .refused phase (eq_false_of_ne_true fun yes => refused ?_)
      rw [yes]
      exact lib.init_works _
  case initialized =>
    split at later <;> cases later
    · exact .opens phase
    · next failed =>
      refine .fails phase (eq_false_of_ne_true fun yes => failed ?_)
      rw [yes]
      exact lib.createWindow_works
  case opened =>
    obtain ⟨flagged, same⟩ := Option.ite_none_right_eq_some.mp later
    cases same
    simp only [lib.windowShouldClose_flag] at flagged
    exact .leaves phase flagged
  case closing =>
    cases later
    exact .destroys phase
  case destroyed =>
    cases later
    exact .terminates phase
  case ended => cases later

/-- What each event does. -/
inductive Moves (s : State) : Event → State → Prop
  | step {actor : Actor} {s' : State} {rest : Program} (ran : Executes s (s.program actor) s' rest) :
      Moves s (.step actor) (s'.proceed rest actor)
  | message {message : Message} (serving : s.main.head? = some .serve) (handled : s.handler = [])
      (running : s.stopped = false) : Moves s (.message message) { s with handler := message.handler }
  | ui {id : ℕ} {succeeds : Bool} {run : Run} {s' : State} (found : s.runs[id]? = some run)
      (moved : Advances s id succeeds run s') : Moves s (.ui id succeeds) s'
  | close {id : ℕ} {run : Run} (found : s.runs[id]? = some run) (phase : run.phase = .opened)
      (unflagged : run.shouldClose = false) : Moves s (.close id) (s.setRun id { run with shouldClose := true })

theorem moves_of_next {s s' : State} {event : Event} (moved : next lib s event = some s') :
    s.failure = none ∧ Moves s event s' := by
  unfold next at moved
  by_cases failed : s.failure.isSome = true
  · rw [if_pos failed] at moved
    cases moved
  · rw [if_neg failed] at moved
    refine ⟨by simpa using failed, ?_⟩
    cases event with
    | step actor =>
      obtain ⟨⟨after, rest⟩, ran, same⟩ := Option.bind_eq_some_iff.mp moved
      cases same
      exact .step (executes_of_exec ran)
    | message message =>
      obtain ⟨⟨serving, handled, running⟩, same⟩ := Option.ite_none_right_eq_some.mp moved
      cases same
      exact .message serving handled running
    | ui id succeeds =>
      obtain ⟨run, found, advanced⟩ := advances_of_ui_main moved
      exact .ui found advanced
    | close id =>
      obtain ⟨run, found, later⟩ := Option.bind_eq_some_iff.mp moved
      obtain ⟨⟨phase, unflagged⟩, same⟩ := Option.ite_none_right_eq_some.mp later
      cases same
      exact .close found phase unflagged

/-! ## Invariant -/

/-- What may be left of a program when the thread has been joined. -/
def joinedPrograms : Actor → List Program
  | .main => [ending, .startUnlessJoinable :: .serve :: stopUiThread ++ ending]
  | .handler => [[.startUnlessJoinable]]

/-- The rests of the programs that the main thread and the handlers execute. -/
inductive Valid : Actor → Program → Prop
  | tests {actor : Actor} {rest : Program} (later : rest ∈ joinedPrograms actor) :
      Valid actor (.closeIfJoinable :: rest)
  | closes {actor : Actor} {rest : Program} (later : rest ∈ joinedPrograms actor) :
      Valid actor (.closeWindow :: .join :: rest)
  | joins {actor : Actor} {rest : Program} (later : rest ∈ joinedPrograms actor) : Valid actor (.join :: rest)
  | waits {actor : Actor} (id : ℕ) {rest : Program} (later : rest ∈ joinedPrograms actor) :
      Valid actor (.waitFor id :: rest)
  | joined {actor : Actor} {rest : Program} (later : rest ∈ joinedPrograms actor) : Valid actor rest
  | serves : Valid .main (.serve :: stopUiThread ++ ending)
  | begins : Valid .main iteration
  | last : Valid .main [.repeatWhileRun]
  | finished (actor : Actor) : Valid actor []
  | assigns (restart : Bool) : Valid .handler (shutdown restart)
  | stops : Valid .handler [.stopApp]

/-- What a position of a program says about `uiThread`. -/
def Known : Actor → Program → Option ℕ → Prop
  | _, .closeWindow :: _, held | _, .join :: _, held => held.isSome
  | _, .waitFor id :: _, held => held = some id
  | _, .startUnlessJoinable :: _, held | _, .repeatWhileRun :: _, held | .main, [], held => held = none
  | _, .startFetchThread :: _, held | _, .stopFetchThread :: _, held => held = none
  | _, _, _ => True

/-- A run that has not ended is the one that `uiThread` holds; what it has initialized or created
is there. -/
structure Windows (s : State) : Prop where
  listed : ∀ id, s.uiThread = some id → id < s.runs.length
  only : ∀ (id : ℕ) (run : Run), s.runs[id]? = some run → run.phase ≠ .ended → s.uiThread = some id
  lit : ∀ (id : ℕ) (run : Run), s.runs[id]? = some run → run.phase ≠ .ended → run.phase ≠ .starting → s.glfw = true
  shown : ∀ (id : ℕ) (run : Run), s.runs[id]? = some run → run.phase = .opened ∨ run.phase = .closing →
    s.window = some id

/-- One of the two programs is blocked or has nothing left. -/
structure Coherent (s : State) : Prop extends Windows s where
  alive : s.failure ≠ some .terminated
  valid : ∀ actor, Valid actor (s.program actor)
  known : ∀ actor, Known actor (s.program actor) s.uiThread
  turns : s.handler = [] ∨ s.main = .serve :: stopUiThread ++ ending

theorem known_joined {actor : Actor} {rest : Program} (later : rest ∈ joinedPrograms actor) (held : Option ℕ) :
    Known actor rest held ↔ held = none := by
  cases actor <;> simp only [joinedPrograms, List.mem_cons, List.not_mem_nil, or_false] at later
  · rcases later with rfl | rfl <;> exact Iff.rfl
  · obtain rfl := later
    exact Iff.rfl

/-! ## What a statement keeps -/

theorem executes_programs {s s' : State} {p rest : Program} (ran : Executes s p s' rest) (actor : Actor) :
    s'.program actor = s.program actor := by
  cases ran with
  | closes requested => exact requested.frame.2.2.2.2.2 actor
  | _ => cases actor <;> rfl

theorem valid_executes {s s' : State} {actor : Actor} {p rest : Program} (valid : Valid actor p)
    (ran : Executes s p s' rest) : Valid actor rest := by
  cases valid with
  | tests later =>
    cases ran with
    | skips => exact .joined later
    | tests => exact .closes later
  | closes later =>
    cases ran
    exact .joins later
  | joins later =>
    cases ran with
    | joins => exact .waits _ later
    | joinsNothing => exact .joined later
  | waits id later =>
    cases ran
    exact .joined later
  | joined later =>
    cases actor <;> simp only [joinedPrograms, List.mem_cons, List.not_mem_nil, or_false] at later
    · rcases later with rfl | rfl <;> cases ran
      · exact .last
      · exact .serves
      · exact .serves
    · obtain rfl := later
      cases ran <;> exact .finished _
  | serves =>
    cases ran
    exact .tests (by decide)
  | begins =>
    cases ran
    exact .tests (by decide)
  | last =>
    cases ran with
    | repeats => exact .begins
    | destroys | returns => exact .finished _
  | finished => cases ran
  | assigns restart =>
    cases ran
    exact .stops
  | stops =>
    cases ran
    exact .finished _

theorem known_executes {s s' : State} {actor : Actor} {p rest : Program} (valid : Valid actor p)
    (known : Known actor p s.uiThread) (ran : Executes s p s' rest) : Known actor rest s'.uiThread := by
  cases valid with
  | tests later =>
    cases ran with
    | skips free => exact (known_joined later _).mpr free
    | tests held => exact Option.isSome_of_mem held
  | closes later =>
    cases ran with
    | closes requested =>
      change s'.uiThread.isSome = true
      rw [requested.frame.1]
      exact known
  | joins later =>
    cases ran with
    | joins held => exact held
    | joinsNothing free =>
      change s.uiThread.isSome = true at known
      rw [free] at known
      cases known
  | waits id later =>
    cases ran
    exact (known_joined later _).mpr rfl
  | joined later =>
    cases actor <;> simp only [joinedPrograms, List.mem_cons, List.not_mem_nil, or_false] at later
    · rcases later with rfl | rfl <;> cases ran
      · exact known
      · trivial
      · trivial
    · obtain rfl := later
      cases ran <;> trivial
  | serves =>
    cases ran
    trivial
  | begins =>
    cases ran
    trivial
  | last =>
    cases ran <;> exact known
  | finished => cases ran
  | assigns restart =>
    cases ran
    trivial
  | stops =>
    cases ran
    trivial

/-- A new position of the run that is alive, and what it has done to the library. -/
theorem Windows.setRun {s : State} (windows : Windows s) {id : ℕ} {run run' : Run} (found : s.runs[id]? = some run)
    (living : run.phase ≠ .ended) {glfw : Bool} {window : Option ℕ}
    (lit : run'.phase ≠ .ended → run'.phase ≠ .starting → glfw = true)
    (shown : run'.phase = .opened ∨ run'.phase = .closing → window = some id) :
    Windows (({ s with glfw := glfw, window := window } : State).setRun id run') := by
  have held := windows.only id run found living
  have bound : id < s.runs.length := windows.listed id held
  have cases_ {other : ℕ} {there : Run} (at_ : (s.runs.set id run')[other]? = some there) :
      other = id ∧ there = run' ∨ there.phase = .ended := by
    by_cases same : id = other
    · subst same
      rw [List.getElem?_set_self bound] at at_
      exact .inl ⟨rfl, (Option.some.inj at_).symm⟩
    · rw [List.getElem?_set_ne same] at at_
      refine .inr (Classical.byContradiction fun also => ?_)
      exact same (Option.some.inj (held.symm.trans (windows.only other there at_ also)))
  constructor
  · intro other held
    rw [State.setRun, List.length_set]
    exact windows.listed other held
  · intro other there at_ living
    obtain ⟨rfl, -⟩ | ended := cases_ at_
    · exact held
    · exact absurd ended living
  · intro other there at_ living begun
    obtain ⟨-, rfl⟩ | ended := cases_ at_
    · exact lit living begun
    · exact absurd ended living
  · intro other there at_ open_
    obtain ⟨rfl, rfl⟩ | ended := cases_ at_
    · exact shown open_
    · rw [ended] at open_
      rcases open_ with no | no <;> cases no

theorem windows_executes {s s' : State} {actor : Actor} {p rest : Program} (windows : Windows s)
    (known : Known actor p s.uiThread) (ran : Executes s p s' rest) : Windows s' := by
  cases ran with
  | closes requested =>
    cases requested with
    | refused => exact windows
    | astray => exact ⟨windows.listed, windows.only, windows.lit, windows.shown⟩
    | @told id run _ shown =>
      obtain ⟨-, found, there⟩ := shown_eq_some.mp shown
      have living : run.phase ≠ .ended := by rcases there with at_ | at_ <;> rw [at_] <;> decide
      exact windows.setRun found living (fun _ => windows.lit id run found living) (windows.shown id run found)
  | @joined rest id ended =>
    have held : s.uiThread = some id := known
    have none (other : ℕ) (run : Run) (found : s.runs[other]? = some run) : run.phase = .ended := by
      refine Classical.byContradiction fun living => ?_
      obtain rfl := Option.some.inj (held.symm.trans (windows.only other run found living))
      exact living (ended run found)
    exact ⟨nofun, fun other run found living => absurd (none other run found) living, windows.lit, windows.shown⟩
  | starts free =>
    have none (other : ℕ) (run : Run) (found : (s.runs ++ [({} : Run)])[other]? = some run) :
        other = s.runs.length ∧ run = ({} : Run) ∨ s.runs[other]? = some run ∧ run.phase = .ended := by
      rcases Nat.lt_or_ge other s.runs.length with front | back
      · rw [List.getElem?_append_left front] at found
        refine .inr ⟨found, Classical.byContradiction fun living => ?_⟩
        cases free.symm.trans (windows.only other run found living)
      · rw [List.getElem?_append_right back, List.getElem?_singleton] at found
        obtain ⟨first, same⟩ := Option.ite_none_right_eq_some.mp found
        exact .inl ⟨by omega, (Option.some.inj same).symm⟩
    constructor
    · intro id held
      cases held
      rw [List.length_append]
      exact Nat.lt_succ_self _
    · intro other run found living
      obtain ⟨rfl, -⟩ | ⟨-, ended⟩ := none other run found
      · rfl
      · exact absurd ended living
    · intro other run found living begun
      obtain ⟨-, rfl⟩ | ⟨-, ended⟩ := none other run found
      · exact absurd rfl begun
      · exact absurd ended living
    · intro other run found there
      obtain ⟨-, rfl⟩ | ⟨-, ended⟩ := none other run found
      · rcases there with no | no <;> cases no
      · rw [ended] at there
        rcases there with no | no <;> cases no
  | _ => exact ⟨windows.listed, windows.only, windows.lit, windows.shown⟩

/-! ## Runs -/

/-- The run of a window changes nothing else. -/
theorem advances_frame {s s' : State} {id : ℕ} {succeeds : Bool} {run : Run} (moved : Advances s id succeeds run s') :
    s'.uiThread = s.uiThread ∧ s'.failure = s.failure ∧ s'.main = s.main ∧ s'.handler = s.handler := by
  cases moved <;> exact ⟨rfl, rfl, rfl, rfl⟩

theorem living_of_advances {s s' : State} {id : ℕ} {succeeds : Bool} {run : Run} (moved : Advances s id succeeds run s') :
    run.phase ≠ .ended := by
  intro ended
  cases moved <;> simp_all

theorem windows_advances {s s' : State} {id : ℕ} {succeeds : Bool} {run : Run} (windows : Windows s)
    (found : s.runs[id]? = some run) (moved : Advances s id succeeds run s') : Windows s' := by
  have living := living_of_advances moved
  have lit := windows.lit id run found living
  cases moved with
  | initializes phase => exact windows.setRun found living (fun _ _ => rfl) (by rintro (no | no) <;> cases no)
  | refused phase => exact windows.setRun found living (fun no => absurd rfl no) (by rintro (no | no) <;> cases no)
  | opens phase => exact windows.setRun found living (fun _ _ => lit (by rw [phase]; decide)) fun _ => rfl
  | fails phase => exact windows.setRun found living (fun no => absurd rfl no) (by rintro (no | no) <;> cases no)
  | leaves phase =>
    have shown := windows.shown id run found (.inl phase)
    exact windows.setRun found living (fun _ _ => lit (by rw [phase]; decide)) fun _ => shown
  | destroys phase =>
    exact windows.setRun found living (fun _ _ => lit (by rw [phase]; decide)) (by rintro (no | no) <;> cases no)
  | terminates phase => exact windows.setRun found living (fun no => absurd rfl no) (by rintro (no | no) <;> cases no)

theorem valid_message (message : Message) : Valid .handler message.handler := by
  cases message with
  | restart | shutdown | resetSettings => exact .assigns _
  | open_ui => exact .tests (by decide)
  | update found =>
    cases found with
    | true => exact .assigns _
    | false => exact .finished _
  | other => exact .finished _

theorem known_message (message : Message) (held : Option ℕ) : Known .handler message.handler held := by
  cases message with
  | update found => cases found <;> trivial
  | _ => trivial

/-- The main thread at the server. -/
theorem main_of_serving {s : State} (coherent : Coherent s) (serving : s.main.head? = some .serve) :
    s.main = .serve :: stopUiThread ++ ending := by
  have valid : Valid .main s.main := coherent.valid .main
  generalize s.main = p at serving valid
  cases valid with
  | tests | closes | joins | waits | begins | last | finished => cases serving
  | joined later =>
    simp only [joinedPrograms, List.mem_cons, List.not_mem_nil, or_false] at later
    rcases later with rfl | rfl <;> cases serving
  | serves => rfl

/-- The program that steps is not the one that is blocked or has nothing left. -/
theorem turns_step {s s' : State} {actor : Actor} {rest : Program} (coherent : Coherent s)
    (ran : Executes s (s.program actor) s' rest) :
    actor = .main ∧ s.handler = [] ∨ actor = .handler ∧ s.main = .serve :: stopUiThread ++ ending := by
  cases actor with
  | main =>
    refine .inl ⟨rfl, coherent.turns.elim id fun blocked => ?_⟩
    change Executes s s.main s' rest at ran
    rw [blocked] at ran
    cases ran with
    | serves _ handled => exact handled
  | handler =>
    refine .inr ⟨rfl, coherent.turns.resolve_left fun handled => ?_⟩
    change Executes s s.handler s' rest at ran
    rw [handled] at ran
    cases ran

theorem alive_executes {s s' : State} {actor : Actor} {rest : Program} (coherent : Coherent s)
    (ran : Executes s (s.program actor) s' rest) : s'.failure ≠ some .terminated := by
  have known := coherent.known actor
  generalize s.program actor = p at ran known
  cases ran with
  | closes requested =>
    cases requested with
    | refused | told => exact coherent.alive
    | astray => nofun
  | joinsNothing free =>
    change s.uiThread.isSome = true at known
    rw [free] at known
    cases known
  | destroys _ held =>
    cases actor <;> cases held.symm.trans known
  | _ => exact coherent.alive

theorem coherent_next (s : State) (event : Event) (s' : State) (coherent : Coherent s) (moved : next lib s event = some s') :
    Coherent s' := by
  obtain ⟨-, moves⟩ := moves_of_next moved
  cases moves with
  | @step actor after rest ran =>
    have alive := alive_executes coherent ran
    have programs := executes_programs ran
    have windows : Windows after := windows_executes coherent.toWindows (coherent.known actor) ran
    have valid := valid_executes (coherent.valid actor) ran
    have known := known_executes (coherent.valid actor) (coherent.known actor) ran
    obtain ⟨rfl, handled⟩ | ⟨rfl, blocked⟩ := turns_step coherent ran
    · have still : after.handler = [] := (programs .handler).trans handled
      refine ⟨⟨windows.listed, windows.only, windows.lit, windows.shown⟩, alive, ?_, ?_, .inl still⟩
      · rintro (_ | _)
        · exact valid
        · exact Eq.mpr (congrArg (Valid .handler) still) (.finished _)
      · rintro (_ | _)
        · exact known
        · exact Eq.mpr (congrArg (Known .handler · after.uiThread) still) trivial
    · have still : after.main = .serve :: stopUiThread ++ ending := (programs .main).trans blocked
      refine ⟨⟨windows.listed, windows.only, windows.lit, windows.shown⟩, alive, ?_, ?_, .inr still⟩
      · rintro (_ | _)
        · exact Eq.mpr (congrArg (Valid .main) still) .serves
        · exact valid
      · rintro (_ | _)
        · exact Eq.mpr (congrArg (Known .main · after.uiThread) still) trivial
        · exact known
  | message serving handled running =>
    obtain ⟨windows, alive, valid, known, turns⟩ := coherent
    refine ⟨⟨windows.listed, windows.only, windows.lit, windows.shown⟩, alive, ?_, ?_, ?_⟩
    · rintro (_ | _)
      · exact valid .main
      · exact valid_message _
    · rintro (_ | _)
      · exact known .main
      · exact known_message _ _
    · exact .inr (main_of_serving (s := s) ⟨windows, alive, valid, known, turns⟩ serving)
  | ui found advanced =>
    obtain ⟨held, failure, main, handler⟩ := advances_frame advanced
    have same (actor : Actor) : s'.program actor = s.program actor := by
      cases actor
      · exact main
      · exact handler
    refine ⟨windows_advances coherent.toWindows found advanced, failure ▸ coherent.alive, fun actor => ?_,
      fun actor => ?_, ?_⟩
    · exact same actor ▸ coherent.valid actor
    · rw [same, held]
      exact coherent.known actor
    · rw [main, handler]
      exact coherent.turns
  | @close id run found phase =>
    have living : run.phase ≠ .ended := by rw [phase]; decide
    have windows : Windows (s.setRun id { run with shouldClose := true }) :=
      coherent.toWindows.setRun found living (fun _ => coherent.lit id run found living) (coherent.shown id run found)
    refine ⟨windows, coherent.alive, ?_, ?_, coherent.turns⟩
    · rintro (_ | _)
      · exact coherent.valid .main
      · exact coherent.valid .handler
    · rintro (_ | _)
      · exact coherent.known .main
      · exact coherent.known .handler

theorem coherent_initial : Coherent initial := by
  refine ⟨⟨nofun, nofun, nofun, nofun⟩, nofun, ?_, ?_, .inl rfl⟩
  · rintro (_ | _)
    · exact .begins
    · exact .finished _
  · rintro (_ | _)
    · rfl
    · trivial

theorem coherent_execute {events : List Event} {s : State} (ran : execute (next lib) initial events = some s) :
    Coherent s :=
  execute_preserves coherent_next coherent_initial ran

/-! ## Safety -/

def Living (s : State) (id : ℕ) : Prop := ∃ run, s.runs[id]? = some run ∧ run.phase ≠ .ended

/-- No operation on `uiThread` calls `std::terminate`, one run of the window is alive at most, none when the
main loop has ended, and `startUiThread` starts a thread whenever it gets there. -/
structure Safe (s : State) : Prop where
  alive : s.failure ≠ some .terminated
  single : ∀ first second, Living s first → Living s second → first = second
  ended : s.main = [] → s.uiThread = none ∧ ∀ id, ¬Living s id
  restarts : ∀ actor rest, s.program actor = .startUnlessJoinable :: rest → s.uiThread = none

/-- Whatever messages come, however the threads take turns, wherever GLFW fails and whenever the
user closes the window. -/
theorem safe_of_execute (lib : Glfw) (events : List Event) (s : State)
    (ran : execute (next lib) initial events = some s) : Safe s := by
  have coherent := coherent_execute ran
  have held {id : ℕ} : Living s id → s.uiThread = some id := fun ⟨run, found, living⟩ => coherent.only id run found living
  refine ⟨coherent.alive, fun first second one two => ?_, fun ended => ?_, fun actor rest position => ?_⟩
  · exact Option.some.inj ((held one).symm.trans (held two))
  · have free : s.uiThread = none := by
      have known : Known .main s.main s.uiThread := coherent.known .main
      rw [ended] at known
      exact known
    exact ⟨free, fun id living => nomatch free.symm.trans (held living)⟩
  · have known := coherent.known actor
    rw [position] at known
    cases actor <;> exact known

/-- The window is opened and, after `#shutdown`, closed again. -/
def wholeRun : List Event :=
  [.step .main, .step .main, .step .main, .ui 0 true, .ui 0 true, .message .shutdown, .step .handler, .step .handler,
    .step .main, .step .main, .step .main, .step .main, .ui 0 true, .ui 0 true, .ui 0 true, .step .main, .step .main,
    .step .main]

theorem safe_of_execute_shutdown : ∃ s, execute (next .plain) initial wholeRun = some s ∧ s.main = [] ∧ Safe s :=
  ⟨_, rfl, rfl, safe_of_execute .plain wholeRun _ rfl⟩

end OsuTracker.Soundness.WindowThread
