import OsuTracker.Machine.Regions

/-! # The fetch thread

One flag and one `std::thread` are shared by everything that starts or stops a fetch loop: the
main loop, the workers that `#resetSession` and `#saveSettings` detach, and the worker that
`restartFetch` detaches unless one is under way. Every thread executes its statements one by one.
A loop reads the flag at the top of each round, and in its first round the settings, which the
window changes before it calls `restartFetch`. The baselines of a session belong to what its loop
read then; settings are told apart by how many selections were stored before.
-/

namespace OsuTracker.Model.Core.FetchThread

open Machine.Regions

/-! ## State -/

/-- Where a loop is: at its `while (fetch)`, in its body, or past it. -/
inductive LoopPosition where
  | test | body | ended
deriving DecidableEq, Repr

/-- A run of `fetchApiData(init)`. -/
structure Loop where
  init : Bool
  position : LoopPosition := .test
  /-- The selections stored when the first round read the settings. -/
  baseline : Option ℕ := none
deriving DecidableEq, Repr

def Loop.live (loop : Loop) : Bool := loop.position ≠ .ended

/-- The globals; a thread is named by its position among the loops ever started. -/
structure Shared where
  fetch : Bool := false
  /-- What `fetchThread` holds until it has been joined. -/
  fetchThread : Option ℕ := none
  loops : List Loop := []
  restarting : Bool := false
  selections : ℕ := 0
  /-- The window has stored a selection and has not called `restartFetch` yet. -/
  selecting : Bool := false
  /-- `std::terminate` was called. -/
  terminated : Bool := false
deriving DecidableEq, Repr

/-! ## Statements -/

inductive Statement where
  | lowerFetch
  | joinIfJoinable
  | join
  | waitFor (id : ℕ)
  | clearStats
  | raiseFetch
  | assignThread (init : Bool)
  | lowerRestarting
deriving DecidableEq, Repr

abbrev Program := List Statement

/-- One statement, and what is left to execute. A call of `join` waits in a place of its own; it
is not possible to go on from there before the loop has ended. Joining no thread throws, and so
does assigning to a thread that is still joinable. -/
def exec (s : Shared) : Program → Option (Shared × Program)
  | [] => none
  | .lowerFetch :: rest => some ({ s with fetch := false }, rest)
  | .joinIfJoinable :: rest => some (s, if s.fetchThread.isSome then .join :: rest else rest)
  | .join :: rest =>
    match s.fetchThread with
    | some id => some (s, .waitFor id :: rest)
    | none => some ({ s with terminated := true }, rest)
  | .waitFor id :: rest =>
    if s.loops[id]?.all (·.live) then none else some ({ s with fetchThread := none }, rest)
  | .clearStats :: rest => some (s, rest)
  | .raiseFetch :: rest => some ({ s with fetch := true }, rest)
  | .assignThread init :: rest =>
    if s.fetchThread.isSome then some ({ s with terminated := true }, rest)
    else some ({ s with loops := s.loops ++ [{ init := init }], fetchThread := some s.loops.length }, rest)
  | .lowerRestarting :: rest => some ({ s with restarting := false }, rest)

def startFetchThread (init : Bool) : Program := [.raiseFetch, .assignThread init]

def stopFetchThread : Program := [.lowerFetch, .joinIfJoinable]

/-- The worker of `#resetSession`, and of `#saveSettings` when the session has to be reset. -/
def resetWorker : Program := stopFetchThread ++ startFetchThread true

/-- The worker of `restartFetch`. -/
def restartWorker : Program :=
  stopFetchThread ++ .clearStats :: startFetchThread true ++ [.lowerRestarting]

/-- The end of an iteration of the main loop and the start of the next one. -/
def nextIteration : Program := stopFetchThread ++ startFetchThread true

/-! ## Events -/

inductive Event where
  | thread (i : ℕ)
  | loop (id : ℕ)
  | select
  | restartFetch
  | reset
  | shutdown
deriving DecidableEq, Repr

/-- One step of a loop. -/
def Loop.step (s : Shared) (loop : Loop) : Option Loop :=
  match loop.position with
  | .test => some { loop with position := if s.fetch then .body else .ended }
  | .body => some { loop with position := .test, baseline := some (loop.baseline.getD s.selections) }
  | .ended => none

/-- The main thread is blocked in the web server. -/
def serving (pool : Pool Shared Program) : Bool := pool.threads[0]? = some []

/-- An event, if it is possible. Requests arrive while the server runs; the window is joined
before the main loop goes on, so a selection is complete by then. -/
def next (pool : Pool Shared Program) (event : Event) : Option (Pool Shared Program) :=
  let s := pool.shared
  if s.terminated then none
  else
    match event with
    | .thread i => do
      let (shared, rest) ← exec s (← pool.threads[i]?)
      some ⟨shared, pool.threads.set i rest⟩
    | .loop id => do
      let loop ← (← s.loops[id]?).step s
      some { pool with shared := { s with loops := s.loops.set id loop } }
    | .select =>
      if serving pool ∧ s.selecting = false then
        some { pool with shared := { s with selections := s.selections + 1, selecting := true } }
      else none
    | .restartFetch =>
      if s.selecting then
        if s.restarting then some { pool with shared := { s with selecting := false } }
        else some ⟨{ s with selecting := false, restarting := true }, pool.threads ++ [restartWorker]⟩
      else none
    | .reset => if serving pool then some { pool with threads := pool.threads ++ [resetWorker] } else none
    | .shutdown =>
      if serving pool ∧ s.selecting = false then some { pool with threads := pool.threads.set 0 nextIteration }
      else none

/-- The first iteration of the main loop. -/
def initial : Pool Shared Program := ⟨{}, [startFetchThread true]⟩

end OsuTracker.Model.Core.FetchThread
