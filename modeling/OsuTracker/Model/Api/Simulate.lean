import OsuTracker.Model.Api.Helpers

/-! # Simulated statistics

Without a network, the first cycle stores fixed baselines, then fixed current values.
-/

namespace OsuTracker.Model.Api.Simulate

open Cxx

def baseline : List (Str × Str) :=
  [("level", "100"), ("scoreRank", "100"), ("ppRank", "50000"), ("ppv1Rank", "50000"), ("countryRank", "2000"),
    ("pp", "1000"), ("ppv1", "1000"), ("acc", "99"), ("playtime", "100000"), ("playcount", "25000"),
    ("maxCombo", "5000"), ("totalHits", "5000000"), ("replayViews", "1000"), ("rankedScore", "10000000000"),
    ("totalScore", "10000000000"), ("clears", "10000"), ("totalClears", "15000"), ("silverSS", "1000"),
    ("goldSS", "1000"), ("silverS", "1000"), ("goldS", "1000"), ("a", "1000"), ("b", "1000"), ("c", "1000"),
    ("d", "1000"), ("totalSS", "2000"), ("totalS", "2000"), ("targetRank", "99"), ("targetUser", "OtherPlayer"),
    ("targetScore", "20000000000"), ("completion", "50.00")]

def current : List (Str × Str) :=
  [("level", "100.5"), ("scoreRank", "50"), ("ppRank", "20000"), ("ppv1Rank", "20000"), ("countryRank", "500"),
    ("pp", "2000"), ("ppv1", "2000"), ("acc", "99.5"), ("playtime", "200000"), ("playcount", "35000"),
    ("maxCombo", "6000"), ("totalHits", "6000000"), ("replayViews", "2000"), ("rankedScore", "20000000000"),
    ("totalScore", "20000000000"), ("clears", "20000"), ("totalClears", "20000"), ("silverSS", "2000"),
    ("goldSS", "2000"), ("silverS", "2000"), ("goldS", "2000"), ("a", "2000"), ("b", "2000"), ("c", "2000"),
    ("d", "2000"), ("totalSS", "3000"), ("totalS", "3000"), ("targetRank", "99.5"), ("targetUser", "OtherPlayer"),
    ("targetScore", "30000000000"), ("completion", "51.00")]

def simulate (init : Bool) : List Act :=
  if init then
    .setUsername "Player" :: baseline.map (fun field => .setField field.1 field.2 true) ++
      current.map (fun field => .setField field.1 field.2 false) ++ calcDifference
  else []

end OsuTracker.Model.Api.Simulate
