import OsuTracker.Soundness.BaselineCapture
import OsuTracker.Soundness.Formatting

/-! # Missing values and invalid ones

A text without a number is formatted as "Invalid", and so is an empty one. The formatting loop
leaves an empty current value alone and a change that it knows to be none, but it formats the
baseline and the change of an entry that has no difference column, and the change of an entry that
has moved, whether there is one or not.
-/

namespace OsuTracker.Soundness.InvalidTexts

open Cxx Model.Core.Config Model.Core.Formatter Model.Core.Session Model.Api Endpoints BaselineCapture Formatting

/-! ## Texts -/

def invalidTexts : List Str := ["Invalid", "Invalid%"]

/-- Whether a reader returns is decided by running it. -/
def decidableReturns {α : Type} (result : Except Exception α) : Decidable (∃ a, result = .ok a) :=
  match result with
  | .ok a => .isTrue ⟨a, rfl⟩
  | .error _ => .isFalse nofun

instance (type : DataType) (text : Str) : Decidable (Reads type text) :=
  match type with
  | .string => .isTrue trivial
  | .int => decidableReturns (stoi text)
  | .float => decidableReturns (stof text)
  | .longLong => decidableReturns (stoll text)

/-- A text with another character is neither invalid nor empty. -/
theorem valid_of_mem {text : Str} {c : UInt8} (inside : c ∈ text) (other : c ∉ ("Invalid%" : Str)) :
    text ≠ [] ∧ text ∉ invalidTexts := by
  have letters : ∀ c ∈ ("Invalid" : Str), c ∈ ("Invalid%" : Str) := by decide +kernel
  refine ⟨List.ne_nil_of_mem inside, fun invalid => ?_⟩
  simp only [invalidTexts, List.mem_cons, List.not_mem_nil, or_false] at invalid
  rcases invalid with rfl | rfl
  · exact other (letters c inside)
  · exact other inside

/-- A function that prints numbers of a type, and anything missing as invalid. -/
structure Prints (type : DataType) (print : Str → Except Exception Str) : Prop where
  missing : ∃ s ∈ invalidTexts, print [] = .ok s
  number : ∀ text s, Reads type text → print text = .ok s → s ≠ [] ∧ s ∉ invalidTexts

theorem scanInteger_of_reads {type : DataType} (integer : type = .int ∨ type = .longLong) {text : Str}
    (reads : Reads type text) : ∃ n : Int64, scanInteger text = some n.toInt := by
  rcases integer with rfl | rfl
  · obtain ⟨n, read⟩ := reads
    have low := n.le_toInt
    have high := n.toInt_lt
    refine ⟨Int64.ofInt n.toInt, ?_⟩
    rw [stoi_eq_ok_iff.mp read, Int64.toInt_ofInt_of_le (by omega) (by omega)]
  · obtain ⟨n, read⟩ := reads
    exact ⟨n, stoll_eq_ok_iff.mp read⟩

theorem prints_formatNumber {type : DataType} (integer : type = .int ∨ type = .longLong) (showPlus : Bool) (c : Str) :
    Prints type fun text => .ok (formatNumber text showPlus c) where
  missing := ⟨"Invalid", by decide, rfl⟩
  number := by
    intro text s reads printed
    obtain ⟨n, scanned⟩ := scanInteger_of_reads integer reads
    have read : stoll text = .ok n := stoll_eq_ok_iff.mpr scanned
    obtain ⟨first, digits⟩ := List.exists_mem_of_ne_nil _ (decimal_ne_nil n.toInt.natAbs)
    have grouped : first ∈ groupDigits (decimal n.toInt.natAbs) := by
      rw [← filter_groupDigits] at digits
      exact (List.mem_filter.mp digits).1
    have isDigit := decimal_isDigit _ first digits
    refine valid_of_mem (c := first) ?_ fun letter => ?_
    · rw [← Except.ok.inj printed, formatNumber, read]
      simp only
      repeat' split
      all_goals simp [grouped]
    · have letters : ∀ c ∈ ("Invalid%" : Str), Cxx.isDigit c = false := by decide +kernel
      rw [letters first letter] at isDigit
      cases isDigit

theorem prints_formatPlaytime {type : DataType} (integer : type = .int ∨ type = .longLong) (showPlus : Bool) :
    Prints type fun text => .ok (formatPlaytime text showPlus) where
  missing := ⟨"Invalid", by decide, rfl⟩
  number := by
    intro text s reads printed
    obtain ⟨n, scanned⟩ := scanInteger_of_reads integer reads
    refine valid_of_mem (c := 'h') ?_ (by decide)
    rw [← Except.ok.inj printed, formatPlaytime_eq scanned]
    have letter : ('h' : UInt8) ∈ ("h " : Str) := by decide
    simp [clock, letter]

theorem strtod_of_reads {text : Str} (reads : Reads .float text) : ∃ x, strtod text = some x := by
  obtain ⟨x, read⟩ := reads
  unfold stof at read
  unfold strtod
  split at read
  · cases read
  · next scanned => exact ⟨_, by rw [scanned]; rfl⟩
  · next scanned => exact ⟨_, by rw [scanned]; rfl⟩

theorem point_mem {str : Str} (some_ : str.dropWhile (· ≠ ('.' : UInt8)) ≠ []) :
    ('.' : UInt8) ∈ str.dropWhile (· ≠ ('.' : UInt8)) := by
  have stops := List.head_dropWhile_not (· ≠ ('.' : UInt8)) some_
  rw [decide_eq_false_iff_not, not_not] at stops
  have member := List.head_mem some_
  rwa [stops] at member

/-- What `formatFloat` makes of a number has a point. -/
theorem point_of_formatFloat {text s : Str} {showPlus : Bool} (reads : Reads .float text)
    (printed : formatFloat text showPlus = .ok s) : ('.' : UInt8) ∈ s := by
  obtain ⟨x, read⟩ := strtod_of_reads reads
  unfold formatFloat at printed
  simp only [read] at printed
  split at printed
  all_goals
    split at printed
    · cases printed
    · next some_ =>
      rw [← Except.ok.inj printed]
      exact List.mem_append_right _ (point_mem some_)

theorem prints_formatFloat (showPlus : Bool) : Prints .float fun text => formatFloat text showPlus where
  missing := ⟨"Invalid", by decide, rfl⟩
  number := fun _ _ reads printed => valid_of_mem (point_of_formatFloat reads printed) (by decide)

theorem prints_percent (showPlus : Bool) : Prints .float fun text => percent (formatFloat text showPlus) where
  missing := ⟨"Invalid%", by decide, rfl⟩
  number := by
    intro text s reads printed
    obtain ⟨number, formatted, rfl⟩ := map_eq_ok printed
    exact valid_of_mem (List.mem_append_left _ (point_of_formatFloat reads formatted)) (by decide)

/-! ## Branches -/

/-- The pairs of types that the table has. -/
def numericFormats : List (DataType × FormatType) :=
  [(.int, .int), (.int, .rank), (.longLong, .int), (.longLong, .time), (.float, .decimal), (.float, .percent)]

theorem branch_prints : ∀ pair ∈ numericFormats, ∃ plain signed marksSign,
    formatBranch pair.1 pair.2 = formatTexts plain signed marksSign ∧ Prints pair.1 plain ∧ Prints pair.1 signed := by
  have whole {type : DataType} (integer : type = .int ∨ type = .longLong) (c : Str) : ∃ plain signed marksSign,
      formatTexts (fun s => .ok (formatNumber s false c)) (fun s => .ok (formatNumber s true)) true =
        formatTexts plain signed marksSign ∧ Prints type plain ∧ Prints type signed :=
    ⟨_, _, _, rfl, prints_formatNumber integer false c, prints_formatNumber integer true []⟩
  have time : ∃ plain signed marksSign, formatBranch .longLong .time = formatTexts plain signed marksSign ∧
      Prints .longLong plain ∧ Prints .longLong signed :=
    ⟨fun s => .ok (formatPlaytime s), fun s => .ok (formatPlaytime s true), false, rfl,
      prints_formatPlaytime (.inr rfl) false, prints_formatPlaytime (.inr rfl) true⟩
  have decimal : ∃ plain signed marksSign, formatBranch .float .decimal = formatTexts plain signed marksSign ∧
      Prints .float plain ∧ Prints .float signed :=
    ⟨fun s => formatFloat s, fun s => formatFloat s true, true, rfl, prints_formatFloat false, prints_formatFloat true⟩
  have percents : ∃ plain signed marksSign, formatBranch .float .percent = formatTexts plain signed marksSign ∧
      Prints .float plain ∧ Prints .float signed :=
    ⟨fun s => percent (formatFloat s), fun s => percent (formatFloat s true), true, rfl,
      prints_percent false, prints_percent true⟩
  simp only [numericFormats, List.forall_mem_cons, List.not_mem_nil, false_imp_iff, implies_true, and_true]
  exact ⟨whole (.inl rfl) [], whole (.inl rfl) "#", whole (.inr rfl) [], time, decimal, percents⟩

theorem numericFormat_of_compiled (t : StatTable) {e : DataEntry} (member : e ∈ t.entries)
    (numeric : e.dataType ≠ .string) : (e.dataType, e.formatType) ∈ numericFormats := by
  have all : ∀ kind ∈ initialArr.map DataEntry.kind, kind.dataType ≠ .string →
      (kind.dataType, kind.formatType) ∈ numericFormats := by decide +kernel
  exact all e.kind (t.compiled ▸ List.mem_map_of_mem member) numeric

/-! ## Entries -/

/-- Every text of a numeric entry is a number of its type, if there is one. -/
def Numbers (t : StatTable) : Prop :=
  ∀ e ∈ t.entries, e.dataType ≠ .string → ∀ slot, e.slot slot ≠ [] → Reads e.dataType (e.slot slot)

/-- The formatted texts of an entry: empty where the raw ones are, and never invalid. -/
structure Clean (e e' : DataEntry) : Prop where
  empty : ∀ slot, e.slot slot = [] → e'.slot slot = []
  valid : ∀ slot, e'.slot slot ∉ invalidTexts

/-- The texts that are formatted without a look at them are there. -/
def Filled (e : DataEntry) : Prop :=
  if e.single then e.init ≠ [] ∧ e.change ≠ [] else e.init ≠ [] → e.init ≠ e.current → e.change ≠ []

theorem valid_of_reads {type : DataType} (numeric : type ≠ .string) {text : Str} (reads : text ≠ [] → Reads type text) :
    text ∉ invalidTexts := by
  have unread : ∀ text ∈ invalidTexts, text ≠ [] ∧ ¬Reads .int text ∧ ¬Reads .longLong text ∧ ¬Reads .float text := by
    decide +kernel
  intro invalid
  obtain ⟨some_, int, longLong, float⟩ := unread text invalid
  cases type with
  | string => exact numeric rfl
  | int => exact int (reads some_)
  | longLong => exact longLong (reads some_)
  | float => exact float (reads some_)

/-- An entry that is not formatted, because it has no baseline. -/
theorem clean_of_unformatted {server : Server} {e e' : DataEntry} (numeric : e.dataType ≠ .string)
    (numbers : ∀ slot, e.slot slot ≠ [] → Reads e.dataType (e.slot slot)) (missing : e.init = [] ∧ e.single = false)
    (done : formatEntry server e = .done e') : Clean e e' := by
  rw [formatEntry, if_pos missing] at done
  cases done
  constructor
  · intro slot empty
    cases slot with
    | init | change => rfl
    | current => exact empty
  · intro slot
    cases slot with
    | init | change => exact (by decide : ([] : Str) ∉ invalidTexts)
    | current => exact valid_of_reads numeric (numbers .current)

/-- An entry is clean exactly when what is formatted unseen is there. -/
theorem clean_iff_filled {server : Server} {e e' : DataEntry} (numeric : e.dataType ≠ .string)
    (format : (e.dataType, e.formatType) ∈ numericFormats)
    (numbers : ∀ slot, e.slot slot ≠ [] → Reads e.dataType (e.slot slot)) (supported : supports server e = true)
    (done : formatEntry server e = .done e') : Clean e e' ↔ Filled e := by
  by_cases missing : e.init = [] ∧ e.single = false
  · refine iff_of_true (clean_of_unformatted numeric numbers missing done) ?_
    rw [Filled, if_neg (by simp [missing.2])]
    exact fun some_ => absurd missing.1 some_
  · have formatted : e.init ≠ [] ∨ e.single = true := by
      rw [not_and_or, Bool.not_eq_false] at missing
      exact missing
    obtain ⟨plain, signed, marksSign, branch, printsPlain, printsSigned⟩ := branch_prints _ format
    have kinds : (prepared e).dataType = e.dataType ∧ (prepared e).formatType = e.formatType ∧
        (prepared e).init = e.init ∧ (prepared e).current = e.current ∧
        (prepared e).change = if unmoved e then [] else e.change := by
      rw [prepared]
      split <;> exact ⟨rfl, rfl, rfl, rfl, rfl⟩
    obtain ⟨type, formatType, init, current, change⟩ := kinds
    rw [formatEntry_eq supported formatted, type, formatType, branch] at done
    have texts := texts_of_done done
    -- a missing text is printed as an invalid one, a number is not
    have unseen {print : Str → Except Exception Str} (prints : Prints e.dataType print) {text s : Str}
        (printed : print text = .ok s) (valid : s ∉ invalidTexts) : text ≠ [] := by
      rintro rfl
      obtain ⟨own, invalid, same⟩ := prints.missing
      rw [Except.ok.inj (printed.symm.trans same)] at valid
      exact valid invalid
    constructor
    · intro clean
      have baseline : e.init ≠ [] := unseen printsPlain (init ▸ texts.init) (clean.valid .init)
      have moved (moves : unmoved e = false) : e.change ≠ [] := by
        have text := texts.change
        rw [change] at text
        simp only [moves, Bool.false_eq_true, ↓reduceIte] at text
        exact unseen printsSigned text (clean.valid .change)
      unfold Filled
      split
      · next single => exact ⟨baseline, moved (by simp [unmoved, single])⟩
      · next multiple => exact fun _ differs => moved (by simp [unmoved, differs])
    · intro filled
      have baseline : e.init ≠ [] := by
        rcases formatted with some_ | single
        · exact some_
        · rw [Filled, if_pos single] at filled
          exact filled.1
      have moved (moves : unmoved e = false) : e.change ≠ [] := by
        unfold Filled at filled
        split at filled
        · exact filled.2
        · next multiple => exact filled baseline fun same => by simp [unmoved, multiple, same] at moves
      have initText := printsPlain.number _ _ (numbers .init baseline) (init ▸ texts.init)
      have currentText : (e.current = [] → e'.current = []) ∧ e'.current ∉ invalidTexts := by
        have text := texts.current
        rw [current] at text
        by_cases empty : e.current = []
        · rw [if_pos (by simp [empty])] at text
          rw [text, empty]
          exact ⟨fun _ => rfl, by decide⟩
        · rw [if_neg (by simp [empty])] at text
          exact ⟨fun none => absurd none empty, (printsPlain.number _ _ (numbers .current empty) text).2⟩
      have changeText : (e.change = [] → e'.change = []) ∧ e'.change ∉ invalidTexts := by
        have text := texts.change
        rw [change] at text
        cases moves : unmoved e with
        | true =>
          simp only [moves, ↓reduceIte] at text
          rw [text]
          exact ⟨fun _ => rfl, by decide⟩
        | false =>
          simp only [moves, Bool.false_eq_true, ↓reduceIte] at text
          have some_ := moved moves
          exact ⟨fun none => absurd none some_, (printsSigned.number _ _ (numbers .change some_) text).2⟩
      constructor
      · intro slot empty
        cases slot with
        | init => exact absurd empty baseline
        | current => exact currentText.1 empty
        | change => exact changeText.1 empty
      · intro slot
        cases slot with
        | init => exact initText.2
        | current => exact currentText.2
        | change => exact changeText.2

/-! ## Runs -/

/-- All numeric entries of the server's are clean. -/
def AllClean (g : Globals) : Prop :=
  ∀ e ∈ g.arr.entries, e.dataType ≠ .string → supports g.application.server e = true →
    ∀ e' ∈ g.arrFormatted, e'.key = e.key → Clean e e'

/-- All numeric entries of the server's are filled. -/
def AllFilled (g : Globals) : Prop :=
  ∀ e ∈ g.arr.entries, e.dataType ≠ .string → supports g.application.server e = true → Filled e

theorem allClean_iff_of_cycle {sort : StdSort bySort} {r : Responses} {init : Bool} {g g' : Globals} {log : List Write}
    (cycle : Cycle sort r init g log (.done g')) (numbers : Numbers g'.arr) : AllClean g' ↔ AllFilled g' := by
  obtain ⟨fetched, texts, _, done, state⟩ := formatted_of_cycle cycle
  have table : g'.arr = fetched.arr := by rw [state]
  have app : g'.application = fetched.application := by rw [state]
  refine forall₂_congr fun e member => forall₂_congr fun numeric supported => ?_
  have format := numericFormat_of_compiled g'.arr member numeric
  rw [app] at supported
  obtain ⟨⟨copy, inside, key⟩, formatted⟩ := formatted_of_done done (table ▸ member)
  have own {e' : DataEntry} (listed : e' ∈ g'.arrFormatted) (same : e'.key = e.key) : Clean e e' ↔ Filled e :=
    clean_iff_filled numeric format (numbers e member numeric) supported (formatted e' listed same)
  exact ⟨fun all => (own inside key).mp (all copy inside key), fun filled e' listed same => (own listed same).mpr filled⟩

/-- At the end of every cycle of a run, exactly the filled tables are clean. -/
theorem clean_iff {sort : StdSort bySort} {init : Bool} {g : Globals} {rs : List Responses} {records : List Record}
    (run : FetchLoop sort init g rs records) :
    ∀ record ∈ records, Numbers record.state.arr → (AllClean record.state ↔ AllFilled record.state) := by
  induction run with
  | nil => nofun
  | cons cycle _ ih => exact List.forall_mem_cons.mpr ⟨allClean_iff_of_cycle cycle, ih⟩

/-! ## The target on the official server -/

/-- The official server never stores a baseline of the target. -/
theorem targetInit_kept {sort : StdSort bySort} {r : Responses} {init : Bool} {g g' : Globals} {log : List Write}
    (live : g.simulateMode = false) (bancho : g.application.server = Server.bancho)
    (cycle : Cycle sort r init g log (.done g')) {key : Str} (target : key ∈ targetKeys) :
    g'.arr.slot key .init = g.arr.slot key .init := by
  have known : ∀ key ∈ targetKeys, key ∈ keys := by decide +kernel
  obtain ⟨fetched, run, table⟩ := bancho_run live bancho cycle
  obtain ⟨parts, threads, planned⟩ := bancho_planned g.application init r
  rw [threads] at run
  rw [table]
  refine run.preserves (P := fun next => next.arr.slot key .init = g.arr.slot key .init) ?_ rfl
  intro act inPool s written next same ran
  have own := planned.known inPool
  refine Eq.trans ?_ same
  rw [arr_exec ran]
  refine slot_applyWrites_of_not_written s.arr (fun w member => (write_exec own ran member).1) (known key target) ?_
  rintro w member rfl baseline
  obtain ⟨stores, flagged⟩ := (write_exec own ran member).2.1 baseline
  rcases inPool_threadsOf inPool with front | ⟨part, listed, late⟩
  · exact not_target_of_baseline (planned.baseline front stores) target
  · rw [(planned.late part listed act late).unset] at flagged
    cases flagged

theorem not_filled_of_missing {g : Globals} (bancho : g.application.server = Server.bancho)
    (missing : g.arr.slot "targetRank" .init = []) : ¬AllFilled g := by
  have compiled : ∀ kind ∈ initialArr.map DataEntry.kind, kind.key = "targetRank" →
      kind.dataType ≠ .string ∧ kind.single = true ∧ kind.banchoSupport = true := by
    decide +kernel
  have known : ("targetRank" : Str) ∈ keys := by decide +kernel
  obtain ⟨e, member, key⟩ := g.arr.exists_entry known
  obtain ⟨numeric, single, supported⟩ := compiled e.kind (g.arr.compiled ▸ List.mem_map_of_mem member) key
  intro filled
  have own : Filled e := filled e member numeric (by rw [supports, if_pos bancho]; exact supported)
  rw [Filled, if_pos (show e.single = true from single)] at own
  rw [← key, g.arr.slot_key member] at missing
  exact own.1 missing

/-- A session on the official server has no filled table, so it shows an invalid text after every cycle. -/
theorem official_not_filled {sort : StdSort bySort} {init : Bool} {g : Globals} {rs : List Responses}
    {records : List Record} (run : FetchLoop sort init g rs records) (live : g.simulateMode = false)
    (bancho : g.application.server = Server.bancho) (missing : g.arr.slot "targetRank" .init = []) :
    ∀ record ∈ records, ¬AllFilled record.state := by
  induction run with
  | nil => nofun
  | @cons init g g' r log rs records cycle _ ih =>
    have effect : Effect g log g' := cycle_effect cycle
    have server : g'.application.server = Server.bancho := by rw [effect.application, bancho]
    have still : g'.arr.slot "targetRank" .init = [] := (targetInit_kept live bancho cycle (by decide)).trans missing
    exact List.forall_mem_cons.mpr ⟨not_filled_of_missing server still, ih (effect.simulateMode.trans live) server still⟩

/-! ## Examples -/

instance (t : StatTable) : Decidable (Numbers t) :=
  decidable_of_iff (∀ e ∈ t.entries, e.dataType ≠ .string →
      ∀ slot ∈ [Slot.init, .current, .change], e.slot slot ≠ [] → Reads e.dataType (e.slot slot))
    ⟨fun all e member numeric slot => all e member numeric slot (by cases slot <;> decide),
      fun all e member numeric slot _ => all e member numeric slot⟩

instance (e : DataEntry) : Decidable (Filled e) :=
  inferInstanceAs (Decidable (if e.single then e.init ≠ [] ∧ e.change ≠ [] else e.init ≠ [] → e.init ≠ e.current → e.change ≠ []))

instance (g : Globals) : Decidable (AllFilled g) :=
  inferInstanceAs (Decidable (∀ e ∈ g.arr.entries, _ → _ → _))

/-- The private server fails, and answers from the second cycle on. -/
theorem lateTitanic_clean : ∃ records, FetchLoop stableBySort true onTitanic lateTitanic records ∧
    records.length = 2 ∧ ∀ record ∈ records, Numbers record.state.arr ∧ AllClean record.state := by
  have run : FetchLoop stableBySort true onTitanic lateTitanic _ := loop_runLoop stableBySort (by decide +kernel)
  have filled : ∀ record ∈ runLoop stableBySort true onTitanic lateTitanic,
      Numbers record.state.arr ∧ AllFilled record.state := by
    decide +kernel
  refine ⟨_, run, by decide +kernel, fun record member => ?_⟩
  obtain ⟨numbers, all⟩ := filled record member
  exact ⟨numbers, (clean_iff run record member numbers).mpr all⟩

instance (e e' : DataEntry) : Decidable (Clean e e') :=
  decidable_of_iff (∀ slot ∈ [Slot.init, .current, .change],
      (e.slot slot = [] → e'.slot slot = []) ∧ e'.slot slot ∉ invalidTexts)
    ⟨fun all => ⟨fun slot => (all slot (by cases slot <;> decide)).1, fun slot => (all slot (by cases slot <;> decide)).2⟩,
      fun clean slot _ => ⟨clean.empty slot, clean.valid slot⟩⟩

instance (g : Globals) : Decidable (AllClean g) :=
  inferInstanceAs (Decidable (∀ e ∈ g.arr.entries, _ → _ → ∀ e' ∈ g.arrFormatted, _ → _))

/-- On the official server the target rank never gets a baseline, and its missing one is shown as invalid. -/
theorem newPlayer_invalid : ¬∀ (sort : StdSort bySort) (init : Bool) (g : Globals) (rs : List Responses)
    (records : List Record), FetchLoop sort init g rs records →
      ∀ record ∈ records, Numbers record.state.arr → AllClean record.state := by
  intro all
  have run : FetchLoop stableBySort true {} [newPlayer] _ := loop_runLoop stableBySort (by decide +kernel)
  have unclean : ¬∀ record ∈ runLoop stableBySort true {} [newPlayer],
      Numbers record.state.arr → AllClean record.state := by
    decide +kernel
  exact unclean (all _ _ _ _ _ run)

end OsuTracker.Soundness.InvalidTexts
