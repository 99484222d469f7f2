import OsuTracker.Machine.Regions

/-! # The switch indicator

A selection of a server or a mode asks for a restart of the fetch loop and puts an indicator up. The
window is not told how the restart goes: every frame looks at the counter of completed cycles, and
takes the indicator down when it has found a zero and then a positive count. One worker at a time
restarts the loop, and it joins the old loop before it starts the new one, so there is one place for
the worker and one for the loop. Every statement is one step.
-/

namespace OsuTracker.Model.View.SwitchIndicator

/-! ## State -/

/-- Where `fetchApiData` is: at its `while (fetch)`, in a cycle, or past the loop. -/
inductive Loop where
  | test | cycle | ended
deriving DecidableEq, Repr

/-- The next statement of the worker of `restartFetch`. -/
inductive Worker where
  | lowerFetch | join | clearStats | clearCount | raiseFetch | startThread | lowerRestarting
deriving DecidableEq, Repr

/-- The globals of the session, and the two static flags of the window. -/
structure State where
  fetch : Bool := true
  /-- The loop that `fetchThread` runs. -/
  loop : Loop := .test
  fetchCount : Int32 := 0
  restarting : Bool := false
  worker : Option Worker := none
  pendingSwitch : Bool := false
  sawReset : Bool := false
deriving DecidableEq, Repr

/-! ## Steps -/

/-- A statement of the worker. `fetchThread` always holds a loop that can be joined; the table and the avatar
URL that are cleared are not read here. -/
def restart (s : State) : Worker → Option State
  | .lowerFetch => some { s with fetch := false, worker := some .join }
  | .join => if s.loop = .ended then some { s with worker := some .clearStats } else none
  | .clearStats => some { s with worker := some .clearCount }
  | .clearCount => some { s with fetchCount := 0, worker := some .raiseFetch }
  | .raiseFetch => some { s with fetch := true, worker := some .startThread }
  | .startThread => some { s with loop := .test, worker := some .lowerRestarting }
  | .lowerRestarting => some { s with restarting := false, worker := none }

/-- A step of the loop; a cycle ends with `fetchCount++`. -/
def fetchApiData (s : State) : Option State :=
  match s.loop with
  | .test => some { s with loop := if s.fetch then .cycle else .ended }
  | .cycle => some { s with fetchCount := s.fetchCount + 1, loop := .test }
  | .ended => none

def restartFetch (s : State) : State :=
  if s.restarting then s else { s with restarting := true, worker := some .lowerFetch }

/-- A choice in one of the two boxes; nobody else sees the flags that are set after the call. -/
def select (s : State) : State := { restartFetch s with pendingSwitch := true, sawReset := false }

/-- The check of a frame. -/
def check (s : State) : State :=
  if s.pendingSwitch then
    let fc := s.fetchCount
    let s := if s.sawReset = false ∧ fc = 0 then { s with sawReset := true } else s
    if s.sawReset = true ∧ 1 ≤ fc then { s with pendingSwitch := false, sawReset := false } else s
  else s

inductive Event where
  | select
  | frame
  | worker
  | loop
deriving DecidableEq, Repr

def next (s : State) : Event → Option State
  | .select => some (select s)
  | .frame => some (check s)
  | .worker => s.worker.bind (restart s)
  | .loop => fetchApiData s

end OsuTracker.Model.View.SwitchIndicator
