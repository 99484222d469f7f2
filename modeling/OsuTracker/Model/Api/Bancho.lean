import OsuTracker.Model.Api.Helpers

/-! # The endpoints of the official server

Three functions run in parallel threads: `api` after `api_auth`, `respektive_api` and
`inspector_api`. Each catches every exception, so a malformed response ends its function after the
fields it has stored so far. Members of the user statistics that are missing or null read as zero.
-/

namespace OsuTracker.Model.Api

open Cxx Core.Config

/-- A response: its status and its body, if that is JSON. A request that fails has status zero and
an empty body. -/
structure Http where
  status : Int32
  body : Option Json

def Http.parse (r : Http) : Except Exception Json :=
  match r.body with
  | some j => .ok j
  | none => .error (.json 101)

namespace Bancho

/-! ## Statistics -/

/-- The readers of a member that may be missing or null. -/
def nsMember (member : Str) (j : Json) : Option Json :=
  match j.find? member with
  | none | some .null => none
  | some value => some value

def nsInt (member : Str) (j : Json) : Except Exception Int32 :=
  match nsMember member j with
  | some value => value.getInt
  | none => .ok 0

def nsFloat (member : Str) (j : Json) : Except Exception Flt :=
  match nsMember member j with
  | some value => value.getFloat
  | none => .ok (Flt.ofInt binary32 0)

def nsLL (member : Str) (j : Json) : Except Exception Int64 :=
  match nsMember member j with
  | some value => value.getLongLong
  | none => .ok 0

/-- `std::to_string(getLevelFromScore(score))`. -/
def levelText (score : Int64) : Str :=
  Core.Helpers.longDoubleToString (Core.Helpers.getLevelFromScore score.toInt)

def intField (key member : Str) : Field := (key, fun j => (nsInt member j).map fun n => stdToString n.toInt)
def floatField (key member : Str) : Field := (key, fun j => (nsFloat member j).map floatToString)
def longLongField (key member : Str) : Field := (key, fun j => (nsLL member j).map fun n => stdToString n.toInt)

/-- The fields read from `statistics`. -/
def statisticsFields : List Field :=
  [("level", fun j => (nsLL "total_score" j).map levelText), longLongField "rankedScore" "ranked_score",
    longLongField "totalScore" "total_score", intField "ppRank" "global_rank",
    intField "countryRank" "country_rank", floatField "pp" "pp", floatField "acc" "hit_accuracy",
    longLongField "playtime" "play_time", intField "playcount" "play_count", intField "maxCombo" "maximum_combo",
    intField "replayViews" "replays_watched_by_others", longLongField "totalHits" "total_hits"]

/-- The fields read from `grade_counts`. -/
def gradeFields : List Field :=
  [intField "silverSS" "ssh", intField "goldSS" "ss", intField "silverS" "sh", intField "goldS" "s",
    intField "a" "a"]

/-- The sums of fields just stored. -/
def gradeSums (init : Bool) : List Act :=
  [.setSum "totalSS" ["silverSS", "goldSS"] init, .setSum "totalS" ["silverS", "goldS"] init,
    .setSum "clears" ["totalSS", "totalS", "a"] init]

/-! ## Endpoints -/

/-- `api_auth`. -/
def apiAuth (r : Http) : Int32 :=
  match r.parse.bind (Json.value Json.getString "access_token" []) with
  | .ok _ => r.status
  | .error _ => -1

/-- `api`, up to its `catch`; the mode indexes an array of four names. -/
def api (app : AppConfig) (init : Bool) (r : Http) (avatar : Option (List UInt8)) : Script Unit :=
  if app.gameMode < 0 ∨ 4 ≤ app.gameMode then Script.read (.error .assertion)
  else if r.status ≠ 200 then pure ()
  else do
    let j ← Script.read r.parse
    match nsMember "statistics" j with
    | none => pure ()
    | some st =>
      let gc ← Script.read (st.at_ "grade_counts")
      let username ← Script.read ((j.index "username").bind Json.getString)
      Script.emit [.setUsername username]
      let url ← Script.read (j.value Json.getString "avatar_url"
        (("https://a.ppy.sh/" : Str) ++ stdToString app.activeId.toInt))
      Script.emit [.refreshAvatar url avatar]
      storeFields statisticsFields st init
      storeFields gradeFields gc init
      Script.emit (gradeSums init ++ calcDifference)

/-- The first element of a non-empty array. -/
def first? : Json → Option Json
  | .arr (j :: _) => some j
  | _ => none

/-- `respektive_api`; the target is the player one rank above and gets no baseline. -/
def respektiveApi (init : Bool) (user target : Http) : Script Unit := do
  match first? (← Script.read user.parse) with
  | none => pure ()
  | some u =>
    let rank ← Script.read ((u.index "rank").bind Json.getInt)
    Script.emit (.setField "scoreRank" (stdToString rank.toInt) init :: calcDifference)
    match first? (← Script.read target.parse) with
    | none => pure ()
    | some t =>
      let targetRank ← Script.read ((t.index "rank").bind Json.getInt)
      Script.emit [.setField "targetRank" (stdToString targetRank.toInt) false]
      let targetUser ← Script.read ((t.index "username").bind Json.getString)
      Script.emit [.setField "targetUser" targetUser false]
      let targetScore ← Script.read ((t.index "score").bind Json.getLongLong)
      let score ← Script.read ((u.index "score").bind Json.getLongLong)
      Script.emit [.setField "targetScore" (stdToString (targetScore - score).toInt) false,
        .clearInvalid "targetRank", .clearInvalid "targetScore"]

/-- The fields of the inspector; the last two are stored as they come. -/
def inspectorFields : List Field :=
  [("b", fun j => (j.value Json.getInt "b" 0).map fun n => stdToString n.toInt),
    ("c", fun j => (j.value Json.getInt "c" 0).map fun n => stdToString n.toInt),
    ("d", fun j => (j.value Json.getInt "d" 0).map fun n => stdToString n.toInt),
    ("totalClears", fun j => j.value Json.getString "clears" []),
    ("completion", fun j => j.value Json.getString "completion" [])]

/-- `inspector_api`. -/
def inspectorApi (init : Bool) (r : Http) : Script Unit :=
  if r.status ≠ 200 then pure ()
  else do
    let j ← Script.read r.parse
    match j.find? "stats" with
    | some (.obj members) =>
      storeFields inspectorFields (.obj members) init
      Script.emit calcDifference
    | _ => pure ()

end Bancho

end OsuTracker.Model.Api
