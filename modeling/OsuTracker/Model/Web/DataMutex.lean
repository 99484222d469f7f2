import OsuTracker.Machine.Regions
import OsuTracker.Model.Core.Session
import OsuTracker.Model.Web.MainWs

/-! # The data mutex

The fetch loop runs beside the handlers of the sockets. These take turns, since each holds the
mutex of the sockets from its first statement on. The data mutex is held by the handler of the
overlay while it reads the entries, by `#saveSettings` while it changes and formats them, and by
the fetch loop while it formats them; the endpoint functions of a cycle run before that, without
it. An event is one action of an endpoint function, one statement of the fetch loop or of a
handler, or one acquisition or release of the data mutex. Endpoint functions read the settings when
they are called.
-/

namespace OsuTracker.Model.Web.DataMutex

open Cxx Core.Config Core.Formatter Core.Session Api MainWs

/-! ## State -/

/-- Where the fetch loop is. -/
inductive Fetching where
  | waiting
  | simulating (acts : List Act)
  /-- The threads of the official server have not all been joined. -/
  | endpoints (threads : List (List Act))
  | titanic (init : Bool) (r : Responses) (acts : List Act)
  | titanicAgain (acts : List Act)
  | fetched
  | formatting
  | formatted
  /-- An exception left the thread, and with it the program ended. -/
  | terminated

/-- The fetch loop has the data mutex to itself. -/
def Fetching.owns : Fetching → Bool
  | .formatting | .formatted => true
  | _ => false

/-- Where the handler of a message is. -/
inductive Handler where
  | overlay
  | reading
  /-- Settings to apply; the tracker items of the message come after them. -/
  | applying (items : List (Str × Str)) (j : Json)
  | saving (j : Json)
  | tracking (items : List Json)
  | formatted
  | writing

/-- The handler holds the data mutex. -/
def Handler.holds : Handler → Bool
  | .reading | .saving _ | .tracking _ | .formatted => true
  | _ => false

structure System where
  globals : Globals
  fetching : Fetching := .waiting
  handler : Option Handler := none

/-- Some handler holds the data mutex. -/
def System.held (s : System) : Bool := s.handler.any Handler.holds

/-! ## The fetch loop -/

def titanicActs (app : AppConfig) (init : Bool) (r : TitanicResponse) : List Act :=
  (Titanic.script app init r.users r.stats r.avatar).acts

/-- `fetch_api_data`, up to its first call. -/
def fetchApiData (init : Bool) (r : Responses) (g : Globals) : Fetching :=
  if g.simulateMode then .simulating (Simulate.simulate init)
  else if g.application.server = Server.bancho then .endpoints (banchoThreads g.application init r)
  else if g.application.server = Server.titanic then .titanic init r (titanicActs g.application init r.titanic)
  else .fetched

/-- The first action of a script and what is left of the script. -/
def advance (acts : List Act) (g : Globals) : Option (Except Exception (List Act × Globals)) :=
  match acts with
  | [] => none
  | act :: rest => some ((act.exec g).map fun effect => (rest, effect.2))

/-- What follows the first call of the private server. -/
def titanicReturned (init : Bool) (r : Responses) (status : Int32) (s : System) : System :=
  if status ≠ 200 then
    { s with
      globals := if init then { s.globals with initApiFailed := true } else s.globals
      fetching := .fetched }
  else if s.globals.initApiFailed ∧ init = false then
    { s with
      globals := { s.globals with initApiFailed := false }
      fetching := .titanicAgain (titanicActs s.globals.application true r.titanicAgain) }
  else { s with fetching := .fetched }

/-- One step of one of the threads. -/
def threadStep (i : ℕ) (s : System) : Option System :=
  match s.fetching with
  | .endpoints threads => do
    match ← advance (← threads[i]?) s.globals with
    | .ok (rest, g) => some { s with globals := g, fetching := .endpoints (threads.set i rest) }
    | .error e =>
      some { s with fetching := if e.isCaught then .endpoints (threads.set i []) else .terminated }
  | _ => none

/-- One step of the fetch loop itself. -/
def fetchStep (sort : StdSort bySort) (s : System) : Option System :=
  match s.fetching with
  | .waiting | .terminated => none
  | .simulating acts =>
    match advance acts s.globals with
    | none => some { s with fetching := .fetched }
    | some (.ok (rest, g)) => some { s with globals := g, fetching := .simulating rest }
    | some (.error _) => some { s with fetching := .terminated }
  | .endpoints threads => if threads.all List.isEmpty then some { s with fetching := .fetched } else none
  | .titanic init r acts =>
    match advance acts s.globals with
    | none => some (titanicReturned init r r.titanic.users.status s)
    | some (.ok (rest, g)) => some { s with globals := g, fetching := .titanic init r rest }
    | some (.error e) =>
      some (if e.isCaught then titanicReturned init r (-1) s else { s with fetching := .terminated })
  | .titanicAgain acts =>
    match advance acts s.globals with
    | none => some { s with fetching := .fetched }
    | some (.ok (rest, g)) => some { s with globals := g, fetching := .titanicAgain rest }
    | some (.error e) => some { s with fetching := if e.isCaught then .fetched else .terminated }
  | .fetched => if s.held then none else some { s with fetching := .formatting }
  | .formatting =>
    match updateFormat sort s.globals with
    | .done g => some { s with globals := g, fetching := .formatted }
    | .threw _ g => some { s with globals := g, fetching := .terminated }
  | .formatted => some { s with fetching := .waiting }

/-! ## The handlers -/

/-- A message of a socket; the overlay's handler is the same for a new client. -/
inductive Message where
  | overlay
  | saveSettings (order : MapOrder) (j : Json)

def Message.handler : Message → Option Handler
  | .overlay => some .overlay
  | .saveSettings order j =>
    match incoming j with
    | .ok items => some (.applying (order.run items) j)
    | .error _ => none

/-- A statement of a handler that goes on unless the statement throws. -/
def System.proceed (s : System) (result : Outcome Exception Globals) (rest : Option Handler) : System :=
  match result with
  | .done g => { s with globals := g, handler := rest }
  | .threw _ g => { s with globals := g, handler := none }

def handlerStep (sort : StdSort bySort) (s : System) : Handler → Option System
  | .overlay => if s.fetching.owns then none else some { s with handler := some .reading }
  | .reading => some { s with handler := none }
  | .applying (item :: rest) j => some (s.proceed (applyItem item s.globals) (some (.applying rest j)))
  | .applying [] j => if s.fetching.owns then none else some { s with handler := some (.saving j) }
  | .saving j =>
    match message "trackerConfig" j with
    | .ok items => some { s with handler := some (.tracking items.items) }
    | .error _ => some { s with handler := none }
  | .tracking (item :: rest) => some (s.proceed (trackItem item s.globals) (some (.tracking rest)))
  | .tracking [] => some (s.proceed (updateFormat sort s.globals) (some .formatted))
  | .formatted => some { s with handler := some .writing }
  | .writing => some (s.proceed (write s.globals) none)

/-! ## Events -/

inductive Event where
  | beginCycle (init : Bool) (r : Responses)
  | thread (i : ℕ)
  | fetch
  | message (m : Message)
  | handler

/-- An event, if it is possible; only the first cycle of a session fetches with `init` set, and a
session may begin after any cycle. -/
def next (sort : StdSort bySort) (s : System) (event : Event) : Option System :=
  match s.fetching, event with
  | .terminated, _ => none
  | .waiting, .beginCycle init r => some { s with fetching := fetchApiData init r s.globals }
  | _, .beginCycle _ _ => none
  | _, .thread i => threadStep i s
  | _, .fetch => fetchStep sort s
  | _, .message m =>
    match s.handler with
    | none => some { s with handler := m.handler }
    | some _ => none
  | _, .handler => s.handler.bind (handlerStep sort s)

end OsuTracker.Model.Web.DataMutex
