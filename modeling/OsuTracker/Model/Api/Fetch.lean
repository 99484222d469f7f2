import OsuTracker.Machine.Threads
import OsuTracker.Model.Api.Simulate
import OsuTracker.Model.Api.Titanic

/-! # One fetch

`fetch_api_data` runs the endpoints of the selected server: three threads on the official one, one
call on the private one, which it repeats with `init` set when an earlier baseline had failed. It
is a relation, because the threads interleave; it relates the log of table writes and the state
left, or the exception that no endpoint catches.
-/

namespace OsuTracker.Model.Api

open Cxx Core.Config Machine.Threads

/-- The responses of the private server to one call. -/
structure TitanicResponse where
  users : Http
  stats : Http
  avatar : Option (List UInt8)

/-- All responses of one cycle, whichever server is selected. -/
structure Responses where
  auth : Http
  api : Http
  avatar : Option (List UInt8)
  respektiveUser : Http
  respektiveTarget : Http
  inspector : Http
  titanic : TitanicResponse
  titanicAgain : TitanicResponse

/-- The first thread: `api_auth`, then `api`. -/
def authThread (app : AppConfig) (init : Bool) (r : Responses) : List Act :=
  if Bancho.apiAuth r.auth ≠ 200 then [.authFailed]
  else .authRecovered init :: (Bancho.api app init r.api r.avatar).acts

def banchoThreads (app : AppConfig) (init : Bool) (r : Responses) : List (List Act) :=
  [authThread app init r, (Bancho.respektiveApi init r.respektiveUser r.respektiveTarget).acts,
    (Bancho.inspectorApi init r.inspector).acts]

/-- What a call leaves: its status and the state, or an abort. -/
inductive Called where
  | returned (status : Int32) (g : Globals)
  | aborted (error : Exception) (g : Globals)

/-- `api`, with its `catch`. -/
def callApi (init : Bool) (r : Http) (avatar : Option (List UInt8)) (g : Globals) : List Write × Called :=
  match run Act.exec (Bancho.api g.application init r avatar).acts g with
  | (log, .done g') => (log, .returned r.status g')
  | (log, .threw e g') => (log, if e.isCaught then .returned (-1) g' else .aborted e g')

/-- `titanic`, with its `catch`. -/
def callTitanic (init : Bool) (r : TitanicResponse) (g : Globals) : List Write × Called :=
  match run Act.exec (Titanic.script g.application init r.users r.stats r.avatar).acts g with
  | (log, .done g') => (log, .returned r.users.status g')
  | (log, .threw e g') => (log, if e.isCaught then .returned (-1) g' else .aborted e g')

/-- The branch of the private server. -/
def fetchTitanic (init : Bool) (r : Responses) (g : Globals) : List Write × Outcome Exception Globals :=
  match callTitanic init r.titanic g with
  | (log, .aborted e g') => (log, .threw e g')
  | (log, .returned status g') =>
    if status ≠ 200 then (log, .done (if init then { g' with initApiFailed := true } else g'))
    else if g'.initApiFailed ∧ init = false then
      match callTitanic true r.titanicAgain { g' with initApiFailed := false } with
      | (again, .aborted e g'') => (log ++ again, .threw e g'')
      | (again, .returned _ g'') => (log ++ again, .done g'')
    else (log, .done g')

/-- `fetch_api_data`. -/
def FetchApiData (r : Responses) (init : Bool) (g : Globals) (log : List Write)
    (result : Outcome Exception Globals) : Prop :=
  if g.simulateMode then (log, result) = run Act.exec (Simulate.simulate init) g
  else if g.application.server = Server.bancho then
    Interleaves Act.exec Exception.isCaught (banchoThreads g.application init r) g log result
  else if g.application.server = Server.titanic then (log, result) = fetchTitanic init r g
  else (log, result) = ([], .done g)

end OsuTracker.Model.Api
