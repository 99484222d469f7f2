import OsuTracker.Machine.Regions

/-! # The window thread and the web server

The main loop starts the thread of the window, serves until a message stops the server, closes the
window and joins its thread, and begins another round unless the program is to shut down. A message
may close and reopen the window in between. The server has one worker: it takes a message once the
one before has been handled, none after `app.stop()`, and returns after the last handler. A thread
is named by its position among the runs of `ui_main`, and so is the window that such a run creates.

The main loop also starts and stops the thread that fetches. Here these are steps that leave the
window alone: what they do to that thread, and whether they return, depends on the other messages and
is not part of this model. GLFW is a parameter with what its documentation says of the calls that are
used: the close flag of a window belongs to the window and may be set from every thread, a call on a
window is refused while the library is not initialized, and a window that is not there may not be
passed to it.
-/

namespace OsuTracker.Model.Web.WebState

open Machine.Regions

/-! ## The library -/

/-- What becomes of a call that is given a window. -/
inductive Call where
  | refused | done | undefined
deriving DecidableEq, Repr

/-- GLFW, as it is documented for builds without assertions. A call works unless the platform fails. -/
structure Glfw where
  /-- `glfwInit`, by whether it has been called before and whether it works. -/
  init (initialized works : Bool) : Bool
  /-- Whether `glfwCreateWindow` returns a window. -/
  createWindow (works : Bool) : Bool
  /-- `glfwSetWindowShouldClose`, by whether the library is initialized and the window is there. -/
  setWindowShouldClose (initialized there : Bool) : Call
  /-- `glfwWindowShouldClose`, by what was set. -/
  windowShouldClose (flag : Bool) : Bool
  init_works : ∀ initialized, init initialized true = true
  createWindow_works : createWindow true = true
  setWindowShouldClose_refused : ∀ there, setWindowShouldClose false there = .refused
  setWindowShouldClose_done : setWindowShouldClose true true = .done
  setWindowShouldClose_undefined : setWindowShouldClose true false = .undefined
  windowShouldClose_flag : ∀ flag, windowShouldClose flag = flag

/-- A platform on which nothing happens but what is documented. -/
def Glfw.plain : Glfw where
  init initialized works := initialized || works
  createWindow works := works
  setWindowShouldClose initialized there :=
    if initialized = false then .refused else if there then .done else .undefined
  windowShouldClose flag := flag
  init_works initialized := Bool.or_true initialized
  createWindow_works := rfl
  setWindowShouldClose_refused _ := rfl
  setWindowShouldClose_done := rfl
  setWindowShouldClose_undefined := rfl
  windowShouldClose_flag _ := rfl

/-! ## State -/

/-- Where a run of `ui_main` is: before `glfwInit`, before `glfwCreateWindow`, in the loop, before
`glfwDestroyWindow`, before `glfwTerminate`, or past it. -/
inductive Phase where
  | starting | initialized | opened | closing | destroyed | ended
deriving DecidableEq, Repr

structure Run where
  phase : Phase := .starting
  /-- The close flag of the window that the run created. -/
  shouldClose : Bool := false
deriving DecidableEq, Repr

inductive Statement where
  | startFetchThread
  | stopFetchThread
  | closeIfJoinable
  | closeWindow
  | join
  | waitFor (id : ℕ)
  | startUnlessJoinable
  | serve
  | repeatWhileRun
  | assignShutdown (shutdown : Bool)
  | stopApp
deriving DecidableEq, Repr

abbrev Program := List Statement

def stopUiThread : Program := [.closeIfJoinable]

def startUiThread : Program := stopUiThread ++ [.startUnlessJoinable]

def shutdown (restart : Bool) : Program := [.assignShutdown !restart, .stopApp]

/-- What is left of an iteration when the thread of the window has been joined. -/
abbrev ending : Program := [.stopFetchThread, .repeatWhileRun]

/-- One iteration of the main loop. -/
def iteration : Program := .startFetchThread :: startUiThread ++ .serve :: stopUiThread ++ ending

/-- How the window can go wrong: an operation on `uiThread` calls `std::terminate`, or GLFW is given a
window that is not there. -/
inductive Failure where
  | terminated | noWindow
deriving DecidableEq, Repr

/-- The globals, and what the main thread and the handler of the current message have left to
execute. -/
structure State where
  uiThread : Option ℕ := none
  window : Option ℕ := none
  /-- Between `glfwInit` and `glfwTerminate`. -/
  glfw : Bool := false
  runs : List Run := []
  shutdownWebServer : Bool := false
  /-- `app.stop()` was called since the server was started. -/
  stopped : Bool := false
  /-- The local `run` of the main loop. -/
  run : Bool := true
  failure : Option Failure := none
  main : Program := iteration
  handler : Program := []
deriving DecidableEq, Repr

def State.setRun (s : State) (id : ℕ) (run : Run) : State := { s with runs := s.runs.set id run }

def State.fail (s : State) (failure : Failure) : State := { s with failure := some failure }

inductive Actor where
  | main | handler
deriving DecidableEq, Repr

def State.program (s : State) : Actor → Program
  | .main => s.main
  | .handler => s.handler

def State.proceed (s : State) (rest : Program) : Actor → State
  | .main => { s with main := rest }
  | .handler => { s with handler := rest }

/-- The window that `window` points to, if it is there. -/
def State.shown (s : State) : Option (ℕ × Run) := do
  let id ← s.window
  let run ← s.runs[id]?
  if run.phase = .opened ∨ run.phase = .closing then some (id, run) else none

section Library

variable (lib : Glfw)

/-! ## Statements -/

/-- `glfwSetWindowShouldClose(window, GLFW_TRUE)`. -/
def ui_mainTerminate (s : State) : State :=
  match lib.setWindowShouldClose s.glfw s.shown.isSome, s.shown with
  | .refused, _ => s
  | .done, some (id, run) => s.setRun id { run with shouldClose := true }
  | _, _ => s.fail .noWindow

/-- One statement, and what is left to execute. A call of `join` waits in a place of its own; it
is not possible to go on from there before the thread has ended. A thread that is still joinable
when the program ends is destroyed. -/
def exec (s : State) : Program → Option (State × Program)
  | [] => none
  | .startFetchThread :: rest => some (s, rest)
  | .stopFetchThread :: rest => some (s, rest)
  | .closeIfJoinable :: rest => some (s, if s.uiThread.isSome then .closeWindow :: .join :: rest else rest)
  | .closeWindow :: rest => some (ui_mainTerminate lib s, rest)
  | .join :: rest =>
    match s.uiThread with
    | some id => some (s, .waitFor id :: rest)
    | none => some (s.fail .terminated, rest)
  | .waitFor id :: rest =>
    if s.runs[id]?.all (·.phase = .ended) then some ({ s with uiThread := none }, rest) else none
  | .startUnlessJoinable :: rest =>
    if s.uiThread.isSome then some (s, rest)
    else some ({ s with runs := s.runs ++ [{}], uiThread := some s.runs.length }, rest)
  | .serve :: rest =>
    if s.stopped ∧ s.handler = [] then some ({ s with run := !s.shutdownWebServer, stopped := false }, rest)
    else none
  | .repeatWhileRun :: rest =>
    if s.run then some (s, iteration)
    else if s.uiThread.isSome then some (s.fail .terminated, rest)
    else some (s, rest)
  | .assignShutdown shutdown :: rest => some ({ s with shutdownWebServer := shutdown }, rest)
  | .stopApp :: rest => some ({ s with stopped := true }, rest)

/-! ## Events -/

/-- The messages that touch the window or the server. The others do not, nor do the threads that some of them
start to stop and start the fetching. -/
inductive Message where
  | restart
  | shutdown
  | open_ui
  | update (found : Bool)
  | resetSettings
  | other
deriving DecidableEq, Repr

def Message.handler : Message → Program
  | .restart => WebState.shutdown true
  | .shutdown => WebState.shutdown false
  | .open_ui => startUiThread
  | .update found => if found then WebState.shutdown false else []
  | .resetSettings => WebState.shutdown true
  | .other => []

/-- The next step of a run of `ui_main`; the call of GLFW that it begins with works or not. An
iteration of the loop that leaves the flag alone changes nothing here. -/
def ui_main (s : State) (id : ℕ) (works : Bool) : Option State := do
  let run ← s.runs[id]?
  match run.phase with
  | .starting =>
    if lib.init s.glfw works then some ({ s with glfw := true }.setRun id { run with phase := .initialized })
    else some (s.setRun id { run with phase := .ended })
  | .initialized =>
    if lib.createWindow works then some ({ s with window := some id }.setRun id { phase := .opened })
    else some ({ s with window := none }.setRun id { run with phase := .ended })
  | .opened =>
    if (s.window.bind (s.runs[·]?)).any (lib.windowShouldClose ·.shouldClose) then
      some (s.setRun id { run with phase := .closing })
    else none
  | .closing => some (s.setRun id { run with phase := .destroyed })
  | .destroyed => some ({ s with glfw := false }.setRun id { run with phase := .ended })
  | .ended => none

inductive Event where
  | step (actor : Actor)
  | message (message : Message)
  | ui (id : ℕ) (works : Bool)
  /-- The user closes a window. -/
  | close (id : ℕ)
deriving DecidableEq, Repr

/-- An event, if it is possible. -/
def next (s : State) (event : Event) : Option State :=
  if s.failure.isSome then none
  else
    match event with
    | .step actor => do
      let (s', rest) ← exec lib s (s.program actor)
      some (s'.proceed rest actor)
    | .message message =>
      if s.main.head? = some .serve ∧ s.handler = [] ∧ s.stopped = false then
        some { s with handler := message.handler }
      else none
    | .ui id works => ui_main lib s id works
    | .close id => do
      let run ← s.runs[id]?
      if run.phase = .opened ∧ run.shouldClose = false then some (s.setRun id { run with shouldClose := true })
      else none

end Library

/-- The main loop is about to begin. -/
def initial : State := {}

end OsuTracker.Model.Web.WebState
