import OsuTracker.Cxx.Sort
import OsuTracker.Model.Core.ConfigFile

/-! # Display formatting

`updateFormat` copies `arr`, sorts the copy by `sort` and formats its texts in place. Integer and
playtime formatting always return; `formatFloat` looks for the decimal point of what `snprintf`
wrote into its 64-byte buffer and throws when there is none. An exception leaves the entries
before the failing one formatted and the others raw.
-/

namespace OsuTracker.Model.Core.Formatter

open Cxx Config

/-! ## Numbers -/

/-- `str.insert(position, ",")`. -/
def insertComma (position : ℕ) (str : Str) : Str :=
  str.take position ++ ((',' : UInt8) :: str.drop position)

/-- The separator loop: a comma at `position`, then three places further left. -/
def insertCommas : ℕ → Str → Str
  | 0, str => str
  | 1, str => insertComma 1 str
  | 2, str => insertComma 2 str
  | 3, str => insertComma 3 str
  | n + 4, str => insertCommas (n + 1) (insertComma (n + 4) str)

/-- Digit groups of three, separated by commas. -/
def groupDigits (str : Str) : Str := insertCommas (str.length - 3) str

/-- `formatNumber`; the magnitude is the unsigned negation, so every `long long` has one. -/
def formatNumber (numStr : Str) (showPlus : Bool := false) (c : Str := []) : Str :=
  match stoll numStr with
  | .error _ => "Invalid"
  | .ok num =>
    let isNegative := num < 0
    let str := groupDigits (decimal num.toInt.natAbs)
    let str := if c = "#" then ('#' : UInt8) :: str else str
    if isNegative then ('-' : UInt8) :: str else if showPlus then ('+' : UInt8) :: str else str

/-- The text that `snprintf` leaves in a buffer of 64 bytes. -/
def buffered (text : Str) : Str := text.take 63

def formatFloat (numStr : Str) (showPlus : Bool := false) : Except Exception Str :=
  match strtod numStr with
  | none => .ok "Invalid"
  | some num =>
    let str := buffered (printFixed 3 num)
    let isNegative := str.head? = some ('-' : UInt8)
    let str := if isNegative then str.drop 1 else str
    let intPart := str.takeWhile (· ≠ ('.' : UInt8))
    let decPart := str.dropWhile (· ≠ ('.' : UInt8))
    -- no point: find returns npos, and substr from npos is out of range
    if decPart = [] then .error (.outOfRange "basic_string::substr")
    else
      let grouped := groupDigits intPart
      let signed := if isNegative then ('-' : UInt8) :: grouped
        else if showPlus then ('+' : UInt8) :: grouped else grouped
      .ok (signed ++ decPart)

/-- `strtol`, saturating, into the 64-bit `long` of the Linux build; a Windows build saturates at 32
bits. -/
def strtol (text : Str) : Option ℤ :=
  (scanInteger text).map fun n => max (-2 ^ 63) (min (2 ^ 63 - 1) n)

def formatPlaytime (secondsStr : Str) (showPlus : Bool := false) : Str :=
  match strtol secondsStr with
  | none => "Invalid"
  | some seconds =>
    let number (n : ℤ) : Str := stdToString (Int32.ofInt n).toInt
    let str := buffered (number (seconds.tdiv 3600) ++ "h " ++
      number ((seconds.tmod 3600).tdiv 60) ++ "m " ++ number (seconds.tmod 60) ++ "s")
    if showPlus then ('+' : UInt8) :: str else str

/-! ## Entries -/

/-- One branch of the format switch: `plain` for `init` and `current`, `signed` for `change`. The
time branch is the one that does not look at the sign of the change it wrote. -/
def formatTexts (plain signed : Str → Except Exception Str) (marksSign noDiff noCurrent : Bool)
    (data : DataEntry) : Outcome Exception DataEntry :=
  (Outcome.ofExcept data ((plain data.init).map (data.setSlot .init))).andThen fun data =>
  (if noCurrent then .done data
    else Outcome.ofExcept data ((plain data.current).map (data.setSlot .current))).andThen fun data =>
  if noDiff then .done data
  else Outcome.ofExcept data ((signed data.change).map fun s =>
    let data := if marksSign ∧ s.head? = some ('-' : UInt8) then { data with positive := false } else data
    data.setSlot .change s)

def percent (text : Except Exception Str) : Except Exception Str := text.map (· ++ ("%" : Str))

/-- The branch of an entry, by its data type and format type; other pairs format nothing. -/
def formatBranch (dataType : DataType) (formatType : FormatType) :
    Bool → Bool → DataEntry → Outcome Exception DataEntry :=
  match dataType, formatType with
  | .int, .int | .longLong, .int =>
    formatTexts (fun s => .ok (formatNumber s)) (fun s => .ok (formatNumber s true)) true
  | .int, .rank | .longLong, .rank =>
    formatTexts (fun s => .ok (formatNumber s false "#")) (fun s => .ok (formatNumber s true)) true
  | .int, .time | .longLong, .time =>
    formatTexts (fun s => .ok (formatPlaytime s)) (fun s => .ok (formatPlaytime s true)) false
  | .float, .decimal => formatTexts formatFloat (formatFloat · true) true
  | .float, .percent =>
    formatTexts (fun s => percent (formatFloat s)) (fun s => percent (formatFloat s true)) true
  | _, _ => fun _ _ data => .done data

/-- The switch over the server; a value that is neither server supports everything. -/
def supports (server : Server) (data : DataEntry) : Bool :=
  if server = Server.bancho then data.banchoSupport
  else if server = Server.titanic then data.titanicSupport
  else true

/-- The body of the formatting loop. -/
def formatEntry (server : Server) (data : DataEntry) : Outcome Exception DataEntry :=
  if data.init = [] ∧ data.single = false then .done { data with init := [], change := [] }
  else if supports server data = false then .done data
  else
    let noDiff := !data.single && data.init == data.current
    let noCurrent := data.current == []
    let data := if noDiff then { data with change := [] } else data
    formatBranch data.dataType data.formatType noDiff noCurrent data

/-- The loop over the sorted copy, in place. -/
def formatEntries (server : Server) : List DataEntry → Outcome Exception (List DataEntry)
  | [] => .done []
  | data :: rest =>
    match formatEntry server data with
    | .done formatted =>
      match formatEntries server rest with
      | .done others => .done (formatted :: others)
      | .threw e others => .threw e (formatted :: others)
    | .threw e partly => .threw e (partly :: rest)

/-- `a.sort < b.sort`. -/
abbrev bySort : DataEntry → DataEntry → Bool := StdSort.byKey fun e => e.sort.toInt

abbrev stableBySort : StdSort bySort := StdSort.stable fun e : DataEntry => e.sort.toInt

def updateFormat (sort : StdSort bySort) (g : Globals) : Outcome Exception Globals :=
  match formatEntries g.application.server (sort.run g.arr.entries) with
  | .done formatted => .done { g with arrFormatted := formatted }
  | .threw e formatted => .threw e { g with arrFormatted := formatted }

/-! ## What formatting keeps -/

private theorem key_ofExcept (data : DataEntry) (result : Except Exception Str) (place : Str → DataEntry)
    (keeps : ∀ s, (place s).key = data.key) :
    (Outcome.ofExcept data (result.map place)).state.key = data.key := by
  cases result with
  | ok s => exact keeps s
  | error e => rfl

theorem key_formatTexts (plain signed : Str → Except Exception Str) (marksSign noDiff noCurrent : Bool)
    (data : DataEntry) : (formatTexts plain signed marksSign noDiff noCurrent data).state.key = data.key := by
  refine Outcome.andThen_state (P := fun e : DataEntry => e.key = data.key) ?_ fun first same => ?_
  · exact key_ofExcept data _ _ fun s => data.key_setSlot .init s
  refine Outcome.andThen_state (P := fun e : DataEntry => e.key = data.key) ?_ fun second same => ?_
  · split
    · exact same
    · exact (key_ofExcept first _ _ fun s => first.key_setSlot .current s).trans same
  · split
    · exact same
    · refine (key_ofExcept second _ _ fun s => ?_).trans same
      rw [DataEntry.key_setSlot]
      split <;> rfl

theorem key_formatBranch (dataType : DataType) (formatType : FormatType) (noDiff noCurrent : Bool)
    (data : DataEntry) : (formatBranch dataType formatType noDiff noCurrent data).state.key = data.key := by
  unfold formatBranch
  split <;> first | exact key_formatTexts .. | rfl

theorem key_formatEntry (server : Server) (data : DataEntry) :
    (formatEntry server data).state.key = data.key := by
  unfold formatEntry
  split
  · rfl
  · split
    · rfl
    · rw [key_formatBranch]
      split <;> rfl

theorem map_key_formatEntries (server : Server) (entries : List DataEntry) :
    (formatEntries server entries).state.map DataEntry.key = entries.map DataEntry.key := by
  induction entries with
  | nil => rfl
  | cons data rest ih =>
    have own := key_formatEntry server data
    unfold formatEntries
    cases first : formatEntry server data with
    | done formatted =>
      cases second : formatEntries server rest with
      | done others => simp_all
      | threw e others => simp_all
    | threw e partly => simp_all

theorem formatEntries_isDone (server : Server) (entries : List DataEntry) :
    (formatEntries server entries).isDone = true ↔ ∀ e ∈ entries, (formatEntry server e).isDone = true := by
  induction entries with
  | nil => simp [formatEntries]
  | cons data rest ih =>
    rw [List.forall_mem_cons, ← ih]
    cases first : formatEntry server data <;> cases second : formatEntries server rest <;>
      simp [formatEntries, first, second]

/-- Whether formatting returns does not depend on the order of the entries. -/
theorem updateFormat_isDone (sort : StdSort bySort) (g : Globals) :
    (updateFormat sort g).isDone = true ↔
      ∀ e ∈ g.arr.entries, (formatEntry g.application.server e).isDone = true := by
  have permuted : ∀ e, e ∈ sort.run g.arr.entries ↔ e ∈ g.arr.entries := fun _ => (sort.perm _).mem_iff
  simp only [← permuted, ← formatEntries_isDone]
  unfold updateFormat
  cases formatEntries g.application.server (sort.run g.arr.entries) <;> rfl

/-- The formatted entries are the sorted ones under the same keys. -/
theorem map_key_updateFormat {sort : StdSort bySort} {g g' : Globals} (returned : updateFormat sort g = .done g') :
    g'.arr = g.arr ∧ g'.arrFormatted.map DataEntry.key = (sort.run g.arr.entries).map DataEntry.key := by
  have keys := map_key_formatEntries g.application.server (sort.run g.arr.entries)
  unfold updateFormat at returned
  cases formatted : formatEntries g.application.server (sort.run g.arr.entries) with
  | done entries =>
    rw [formatted] at keys returned
    cases returned
    exact ⟨rfl, keys⟩
  | threw e entries =>
    rw [formatted] at returned
    cases returned

/-- Formatting assigns `arrFormatted` and nothing else, also when it throws. -/
theorem updateFormat_state (sort : StdSort bySort) (g : Globals) :
    ∃ formatted, (updateFormat sort g).state = { g with arrFormatted := formatted } := by
  unfold updateFormat
  cases formatEntries g.application.server (sort.run g.arr.entries) with
  | done formatted => exact ⟨formatted, rfl⟩
  | threw e formatted => exact ⟨formatted, rfl⟩

end OsuTracker.Model.Core.Formatter
