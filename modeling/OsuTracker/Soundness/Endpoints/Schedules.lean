import OsuTracker.Soundness.Endpoints.Cycles

/-! # One schedule of every cycle

A cycle is a relation, because the three threads of the official server interleave. The schedule
that finishes each thread before the next one is one of its executions, and can be computed: so
every state has a cycle on every response, and a session can be run on given responses.
-/

namespace OsuTracker.Soundness.Endpoints

open Cxx Model.Core.Config Model.Core.Formatter Model.Core.Session Model.Api Machine.Threads

def runFetch (r : Responses) (init : Bool) (g : Globals) : List Write × Outcome Exception Globals :=
  if g.simulateMode then run Act.exec (Simulate.simulate init) g
  else if g.application.server = Server.bancho then
    runThreads Act.exec Exception.isCaught (banchoThreads g.application init r) g
  else if g.application.server = Server.titanic then fetchTitanic init r g
  else ([], .done g)

theorem fetch_runFetch (r : Responses) (init : Bool) (g : Globals) :
    FetchApiData r init g (runFetch r init g).1 (runFetch r init g).2 := by
  unfold FetchApiData runFetch
  split
  · rfl
  · split
    · exact interleaves_runThreads _ g
    · split <;> rfl

def runCycle (sort : StdSort bySort) (r : Responses) (init : Bool) (g : Globals) : List Write × Outcome Exception Globals :=
  ((runFetch r init g).1, (runFetch r init g).2.andThen (updateFormat sort))

theorem cycle_runCycle (sort : StdSort bySort) (r : Responses) (init : Bool) (g : Globals) :
    Cycle sort r init g (runCycle sort r init g).1 (runCycle sort r init g).2 :=
  ⟨_, fetch_runFetch r init g, rfl⟩

/-- The cycles of a loop, up to the first that an exception escapes. -/
def runLoop (sort : StdSort bySort) : Bool → Globals → List Responses → List Record
  | _, _, [] => []
  | init, g, r :: rest =>
    match runCycle sort r init g with
    | (log, .done next) => ⟨log, next⟩ :: runLoop sort false next rest
    | (_, .threw _ _) => []

/-- When every cycle completes, these are the records of the loop. -/
theorem loop_runLoop (sort : StdSort bySort) {init : Bool} {g : Globals} {rs : List Responses}
    (complete : (runLoop sort init g rs).length = rs.length) : FetchLoop sort init g rs (runLoop sort init g rs) := by
  induction rs generalizing init g with
  | nil => exact .nil
  | cons r rest ih =>
    have cycle := cycle_runCycle sort r init g
    unfold runLoop at complete ⊢
    cases result : runCycle sort r init g with
    | mk log outcome =>
      rw [result] at cycle complete
      cases outcome with
      | done next => exact .cons cycle (ih (Nat.succ.inj complete))
      | threw e next => cases complete

/-! ## Responses -/

/-- A request that fails. -/
def offline : Http := ⟨0, none⟩

/-- A cycle without a network. -/
def unreachable : Responses :=
  ⟨offline, offline, none, offline, offline, offline, ⟨offline, offline, none⟩, ⟨offline, offline, none⟩⟩

/-- A body with the status of a success. -/
def body (members : List (Str × Json)) : Http := ⟨200, some (.obj members)⟩

/-- The official server with the given profile; the other two endpoints do not answer. -/
def profile (members : List (Str × Json)) : Responses :=
  { unreachable with auth := body [("access_token", .str "token")], api := body members }

/-- A user of the official server who has not played yet. -/
def newPlayer : Responses :=
  profile [("statistics", .obj [("grade_counts", .obj [])]), ("username", .str "player")]

/-- The private server, with a number in every member that is read. -/
def titanicProfile (playcount : ℤ) : TitanicResponse where
  users :=
    let ranks (scope : Str) : Json := .obj [(scope, .int 1)]
    body [("name", .str "player"), ("stats", .arr [.obj [("tscore", .int 1), ("rscore", .int 1), ("rank", .int 1),
        ("pp", .int 1), ("ppv1", .int 1), ("acc", .int 1), ("playtime", .int 1), ("playcount", .int playcount),
        ("total_hits", .int 1), ("xh_count", .int 1), ("x_count", .int 1), ("sh_count", .int 1), ("s_count", .int 1),
        ("a_count", .int 1), ("b_count", .int 1), ("c_count", .int 1), ("d_count", .int 1), ("max_combo", .int 1),
        ("replay_views", .int 1)]]),
      ("rankings", .obj [("0", .obj [("performance", ranks "country"), ("ppv1", ranks "global"),
        ("rscore", ranks "global")])])]
  stats := body [("beatmap_modes", .obj [("0", .obj [("count_ranked", .int 1), ("count_approved", .int 1),
    ("count_qualified", .int 1), ("count_loved", .int 1)])])]
  avatar := none

end OsuTracker.Soundness.Endpoints
