import OsuTracker.Cxx.Text

/-! # The application settings and the stat table

`AppConfig` holds the seven settings; an enumeration value is its underlying `int`, because `set`
stores whatever number it reads. The stat table is a vector of `DataEntry`; keys, types and server
support are compiled in, so `StatTable` carries the fact that its entries are the compiled ones up
to `sort`, `display` and the three texts. Both are dispatched on the FNV-1a hash of a name, never
on the name itself. The display name of an entry is shown by the pages only and is left out.
-/

namespace OsuTracker.Model.Core.Config

open Cxx

/-- `static_cast<uint32_t>` of a signed `char`. -/
def signExtend (c : UInt8) : UInt32 := c.toInt8.toInt32.toUInt32

/-- FNV-1a. -/
def hash (str : Str) : UInt32 :=
  str.foldl (fun h c => (h ^^^ signExtend c) * 16777619) 2166136261

abbrev GameMode := Int32
abbrev Server := Int32

namespace GameMode

def osu : GameMode := 0
def taiko : GameMode := 1
def fruits : GameMode := 2
def mania : GameMode := 3

end GameMode

namespace Server

def bancho : Server := 0
def titanic : Server := 1

end Server

inductive DataType where
  | string | int | float | longLong
deriving DecidableEq, Repr

inductive FormatType where
  | string | int | decimal | rank | time | percent
deriving DecidableEq, Repr

/-! ## Settings -/

structure AppConfig where
  banchoId : Int32 := 0
  titanicId : Int32 := 0
  clientId : Int32 := 0
  clientSecret : Str := []
  apiInterval : Int32 := 7000
  gameMode : GameMode := GameMode.osu
  server : Server := Server.bancho
deriving DecidableEq, Repr

/-- The field a case of the `switch` in `set` and `get` stands for. -/
inductive Setting where
  | banchoId | titanicId | clientId | clientSecret | apiInterval | gameMode | server
deriving DecidableEq, Repr

/-- The first case whose label hashes as the key does. -/
def dispatch {α : Type} (cases : List (Str × α)) (key : Str) : Option α :=
  (cases.find? fun label => hash label.1 == hash key).map Prod.snd

/-- The cases of `set`; `osuId` is the name of `banchoId` in older files. -/
def setCases : List (Str × Setting) :=
  [("osuId", .banchoId), ("banchoId", .banchoId), ("titanicId", .titanicId), ("clientId", .clientId),
    ("clientSecret", .clientSecret), ("apiInterval", .apiInterval), ("gameMode", .gameMode),
    ("server", .server)]

def getCases : List (Str × Setting) := setCases.tail

namespace AppConfig

/-- The user ID on the active server. -/
def activeId (c : AppConfig) : Int32 := if c.server = Server.titanic then c.titanicId else c.banchoId

/-- The statement of one case of `set`; only `clientSecret` takes any text. -/
def assign (c : AppConfig) (setting : Setting) (value : Str) : Except Exception AppConfig :=
  match setting with
  | .banchoId => (stoi value).map fun n => { c with banchoId := n }
  | .titanicId => (stoi value).map fun n => { c with titanicId := n }
  | .clientId => (stoi value).map fun n => { c with clientId := n }
  | .clientSecret => .ok { c with clientSecret := value }
  | .apiInterval => (stoi value).map fun n => { c with apiInterval := n }
  | .gameMode => (stoi value).map fun n => { c with gameMode := n }
  | .server => (stoi value).map fun n => { c with server := n }

/-- A key that hashes as none of the names changes nothing. -/
def set (c : AppConfig) (key value : Str) : Except Exception AppConfig :=
  match dispatch setCases key with
  | some setting => c.assign setting value
  | none => .ok c

/-- The text of one setting. -/
def text (c : AppConfig) : Setting → Str
  | .banchoId => stdToString c.banchoId.toInt
  | .titanicId => stdToString c.titanicId.toInt
  | .clientId => stdToString c.clientId.toInt
  | .clientSecret => c.clientSecret
  | .apiInterval => stdToString c.apiInterval.toInt
  | .gameMode => stdToString c.gameMode.toInt
  | .server => stdToString c.server.toInt

def get (c : AppConfig) (key : Str) : Str :=
  match dispatch getCases key with
  | some setting => c.text setting
  | none => []

def toArray (c : AppConfig) : List (Str × Str) :=
  [("banchoId", c.text .banchoId), ("titanicId", c.text .titanicId), ("clientId", c.text .clientId),
    ("clientSecret", c.text .clientSecret), ("apiInterval", c.text .apiInterval),
    ("gameMode", c.text .gameMode), ("server", c.text .server)]

end AppConfig

theorem dispatch_setCases (label : Str × Setting) (member : label ∈ setCases) :
    dispatch setCases label.1 = some label.2 := by
  have all : ∀ label ∈ setCases, dispatch setCases label.1 = some label.2 := by decide +kernel
  exact all label member

/-- Writing a field's own text back changes nothing. -/
theorem AppConfig.assign_text (c other : AppConfig) (setting : Setting) :
    c.assign setting (other.text setting) = .ok (match setting with
      | .banchoId => { c with banchoId := other.banchoId }
      | .titanicId => { c with titanicId := other.titanicId }
      | .clientId => { c with clientId := other.clientId }
      | .clientSecret => { c with clientSecret := other.clientSecret }
      | .apiInterval => { c with apiInterval := other.apiInterval }
      | .gameMode => { c with gameMode := other.gameMode }
      | .server => { c with server := other.server }) := by
  cases setting <;> simp [assign, text, Except.map]

/-! ## The stat table -/

structure DataEntry where
  key : Str
  sort : Int32
  init : Str
  current : Str
  change : Str
  dataType : DataType
  formatType : FormatType
  single : Bool
  positive : Bool
  display : Bool
  banchoSupport : Bool
  titanicSupport : Bool
deriving DecidableEq, Repr

/-- What no statement of the program changes in an entry of `arr`. -/
structure EntryKind where
  key : Str
  dataType : DataType
  formatType : FormatType
  single : Bool
  positive : Bool
  banchoSupport : Bool
  titanicSupport : Bool
deriving DecidableEq, Repr

def DataEntry.kind (e : DataEntry) : EntryKind :=
  ⟨e.key, e.dataType, e.formatType, e.single, e.positive, e.banchoSupport, e.titanicSupport⟩

/-- A row of the initialiser: empty texts, shown, growing values good. -/
def entry (key : Str) (sort : Int32) (dataType : DataType) (formatType : FormatType)
    (single banchoSupport titanicSupport : Bool) : DataEntry :=
  ⟨key, sort, [], [], [], dataType, formatType, single, true, true, banchoSupport, titanicSupport⟩

/-- The initialiser of `data::arr`. -/
def initialArr : List DataEntry :=
  [entry "level" 1 .float .decimal false true true,
    entry "scoreRank" 2 .int .rank false true true,
    entry "ppRank" 3 .int .rank false true true,
    entry "ppv1Rank" 4 .int .rank false false true,
    entry "countryRank" 5 .int .rank false true true,
    entry "pp" 6 .float .decimal false true true,
    entry "ppv1" 7 .float .decimal false false true,
    entry "acc" 8 .float .percent false true true,
    entry "playtime" 9 .longLong .time false true true,
    entry "playcount" 10 .int .int false true true,
    entry "maxCombo" 11 .int .int false true true,
    entry "totalHits" 12 .longLong .int false true true,
    entry "replayViews" 13 .int .int false true true,
    entry "rankedScore" 14 .longLong .int false true true,
    entry "totalScore" 15 .longLong .int false true true,
    entry "clears" 16 .int .int false true false,
    entry "totalClears" 17 .int .int false true true,
    entry "silverSS" 18 .int .int false true true,
    entry "goldSS" 19 .int .int false true true,
    entry "silverS" 20 .int .int false true true,
    entry "goldS" 21 .int .int false true true,
    entry "a" 22 .int .int false true true,
    entry "b" 23 .int .int false true true,
    entry "c" 24 .int .int false true true,
    entry "d" 25 .int .int false true true,
    entry "totalSS" 26 .int .int false true true,
    entry "totalS" 27 .int .int false true true,
    entry "targetRank" 28 .int .rank true true false,
    entry "targetUser" 29 .string .string true true false,
    entry "targetScore" 30 .longLong .int true true false,
    entry "completion" 31 .float .percent false true true]

/-- The names of the cases of `getIndex`, case `i` returning `i`. -/
def keys : List Str :=
  ["level", "scoreRank", "ppRank", "ppv1Rank", "countryRank", "pp", "ppv1", "acc", "playtime",
    "playcount", "maxCombo", "totalHits", "replayViews", "rankedScore", "totalScore", "clears",
    "totalClears", "silverSS", "goldSS", "silverS", "goldS", "a", "b", "c", "d", "totalSS", "totalS",
    "targetRank", "targetUser", "targetScore", "completion"]

/-- The position of a key in `arr`, by hash; none stands for `-1`. -/
def getIndex (key : Str) : Option ℕ := keys.findIdx? fun name => hash name == hash key

theorem keys_eq : keys = initialArr.map DataEntry.key := by decide +kernel

theorem keys_nodup : keys.Nodup := by decide +kernel

/-- The hash separates the compiled names, so each is found at its own position. -/
theorem getIndex_keys (i : ℕ) (bound : i < keys.length) : getIndex keys[i] = some i := by
  have all : ∀ i : Fin 31, getIndex (keys.get i) = some i.val := by decide +kernel
  exact all ⟨i, bound⟩

theorem getIndex_lt {key : Str} {i : ℕ} (found : getIndex key = some i) : i < keys.length := by
  obtain ⟨bound, _⟩ := List.findIdx?_eq_some_iff_getElem.mp found
  exact bound

/-- Two known names at one position are the same name. -/
theorem getIndex_inj {key other : Str} (known : key ∈ keys) (otherKnown : other ∈ keys)
    (same : getIndex key = getIndex other) : key = other := by
  obtain ⟨i, bound, rfl⟩ := List.getElem_of_mem known
  obtain ⟨j, otherBound, rfl⟩ := List.getElem_of_mem otherKnown
  rw [getIndex_keys, getIndex_keys] at same
  simp only [Option.some.inj same]

end OsuTracker.Model.Core.Config
