import OsuTracker.Model.Api.Fetch
import OsuTracker.Model.Core.Formatter

/-! # Sessions

A fetch loop fetches, formats and waits until it is told to stop; only its first cycle may fetch
with `init` set. Nothing around the fetch or the formatting catches exceptions. A session is what
one loop has completed so far: for each cycle the log of its writes and the state at its end.
-/

namespace OsuTracker.Model.Core.Session

open Cxx Config Formatter Api

/-- One iteration of the loop in `fetchApiData`. -/
def Cycle (sort : StdSort bySort) (r : Responses) (init : Bool) (g : Globals) (log : List Write)
    (result : Outcome Exception Globals) : Prop :=
  ∃ fetched, FetchApiData r init g log fetched ∧ result = fetched.andThen (updateFormat sort)

/-- A completed cycle. -/
structure Record where
  log : List Write
  state : Globals

/-- `fetchApiData(init)` from a state: the completed cycles and their responses. -/
inductive FetchLoop (sort : StdSort bySort) : Bool → Globals → List Responses → List Record → Prop
  | nil {init : Bool} {g : Globals} : FetchLoop sort init g [] []
  | cons {init : Bool} {g g' : Globals} {r : Responses} {log : List Write} {rs : List Responses}
    {records : List Record} (cycle : Cycle sort r init g log (.done g'))
    (later : FetchLoop sort false g' rs records) : FetchLoop sort init g (r :: rs) (⟨log, g'⟩ :: records)

/-- The state after the completed cycles. -/
def lastState (g : Globals) (records : List Record) : Globals := (records.getLast?.map Record.state).getD g

/-- What `restartFetch` clears before it starts the new loop. -/
def clearStats (g : Globals) : Globals :=
  { g with arr := g.arr.clear, arrFormatted := [], user := { g.user with avatarUrl := [] } }

end OsuTracker.Model.Core.Session
