import OsuTracker.Model.Api.Bancho

/-! # The private server

One function fetches the user and the server statistics and stores all its fields from them. The
statistics of the mode are bound to a constant reference, on which `operator[]` requires the
member to be present; everything else is read through the mutable one. A caught exception makes
the call return `-1`, whatever it had stored by then.
-/

namespace OsuTracker.Model.Api.Titanic

open Cxx Core.Config

/-- `j[k₁][k₂]…` on a mutable value. -/
def path (names : List Str) (j : Json) : Except Exception Json := names.foldlM (fun j name => j.index name) j

/-- `j[k₁][k₂]…` on a constant value. -/
def constPath (names : List Str) (j : Json) : Except Exception Json :=
  names.foldlM (fun j name => j.indexConst name) j

/-- `j[position]`; a negative position is a huge unsigned one, to which an array cannot grow, and
from the largest of them it wraps to nothing and is read outside. -/
def element (position : Int32) (j : Json) : Except Exception Json :=
  if 0 ≤ position then j.indexNat position.toInt.toNat
  else
    match j with
    | .null | .arr _ =>
      .error (if position = -1 then .assertion else .lengthError "vector::_M_default_append")
    | _ => .error (.json 305)

/-- The beatmaps of a mode that count for completion. -/
def countMaps (mode : Str) (j : Json) : Except Exception Int32 :=
  (["count_ranked", "count_approved", "count_qualified", "count_loved"] : List Str).foldlM (fun total member =>
    ((path ["beatmap_modes", mode, member] j).bind Json.getInt).map (total + ·)) 0

def completionDenom (mode : Int32) (j : Json) : Except Exception Int32 := do
  let totalMaps ← countMaps (stdToString mode.toInt) j
  if mode = 0 then pure totalMaps else (countMaps "0" j).map (totalMaps + ·)

def intField (key : Str) (names : List Str) : Field :=
  (key, fun j => ((constPath names j).bind Json.getInt).map fun n => stdToString n.toInt)
def floatField (key member : Str) : Field :=
  (key, fun j => ((j.indexConst member).bind Json.getFloat).map floatToString)
def longLongField (key member : Str) : Field :=
  (key, fun j => ((j.indexConst member).bind Json.getLongLong).map fun n => stdToString n.toInt)

/-- The fields read from the statistics of the mode. -/
def statsFields : List Field :=
  [("level", fun j => ((j.indexConst "tscore").bind Json.getLongLong).map Bancho.levelText),
    longLongField "rankedScore" "rscore", longLongField "totalScore" "tscore", intField "ppRank" ["rank"],
    floatField "pp" "pp", floatField "ppv1" "ppv1",
    ("acc", fun j => ((j.indexConst "acc").bind Json.getFloat).map fun x =>
      floatToString (Flt.mul binary32 x (Flt.ofInt binary32 100))),
    longLongField "playtime" "playtime", intField "playcount" ["playcount"],
    longLongField "totalHits" "total_hits", intField "silverSS" ["xh_count"], intField "goldSS" ["x_count"],
    intField "silverS" ["sh_count"], intField "goldS" ["s_count"], intField "a" ["a_count"],
    intField "b" ["b_count"], intField "c" ["c_count"], intField "d" ["d_count"],
    intField "maxCombo" ["max_combo"], intField "replayViews" ["replay_views"]]

/-- The fields read from the rankings of the mode. -/
def rankingFields : List Field :=
  [intField "countryRank" ["performance", "country"], intField "ppv1Rank" ["ppv1", "global"],
    intField "scoreRank" ["rscore", "global"]]

def sums (completionDenom : Int32) (init : Bool) : List Act :=
  Bancho.gradeSums init ++
    [.setSum "totalClears" ["clears", "b", "c", "d"] init, .setCompletion completionDenom init]

/-- The stores of `titanic`. -/
def stores (app : AppConfig) (init : Bool) (users stats : Http) (avatar : Option (List UInt8)) : Script Unit := do
  let j ← Script.read users.parse
  let j2 ← Script.read stats.parse
  let denominator ← Script.read (completionDenom app.gameMode j2)
  let username ← Script.read ((j.index "name").bind Json.getString)
  Script.emit [.setUsername username]
  let url ← Script.read (j.value Json.getString "avatar_url"
    (("https://a.titanic.sh/" : Str) ++ stdToString app.activeId.toInt))
  Script.emit [.refreshAvatar url avatar]
  let s ← Script.read ((j.index "stats").bind (element app.gameMode))
  storeFields statsFields s init
  let rnk ← Script.read (path ["rankings", stdToString app.gameMode.toInt] j)
  storeFields rankingFields rnk init
  Script.emit (sums denominator init)

/-- `titanic`, up to its `catch`. -/
def script (app : AppConfig) (init : Bool) (users stats : Http) (avatar : Option (List UInt8)) : Script Unit := do
  stores app init users stats avatar
  Script.emit calcDifference

end OsuTracker.Model.Api.Titanic
