import OsuTracker.Soundness.Formatting

/-! # The signs of displayed changes

Numbers and ranks print the sign of every change that is a `long long`, and mark the entry as
shrinking by it. A playing time is printed with a plus sign in front whatever its sign is, its
hours as an `int`, and it never marks the entry; so it is right for growing times only, and only
as long as the hours fit.
-/

namespace OsuTracker.Soundness.ChangeSigns

open Cxx Model.Core.Config Model.Core.Formatter Formatting

/-! ## What a change denotes -/

def isSign (c : UInt8) : Bool := c = ('-' : UInt8) ∨ c = ('+' : UInt8)

/-- The magnitude of a change: a clock, or a number with separators. -/
def Denotes (formatType : FormatType) (text : Str) (n : ℕ) : Prop :=
  match formatType with
  | .time => ∃ hours minutes seconds : ℕ, text = clock hours minutes seconds ∧ n = 3600 * hours + 60 * minutes + seconds
  | _ => text.filter (· ≠ (',' : UInt8)) = decimal n

/-- The formatted entry shows the change `d`, with its sign and in its colour. -/
structure Signed (formatType : FormatType) (e : DataEntry) (d : ℤ) : Prop where
  sign : e.change.head? = some (if d < 0 then ('-' : UInt8) else ('+' : UInt8))
  alone : ∀ c ∈ e.change.tail, isSign c = false
  magnitude : Denotes formatType e.change.tail d.natAbs
  colour : e.positive = false ↔ d < 0

/-- An integer entry with a change that is shown. -/
structure Changed (server : Server) (e : DataEntry) (d : ℤ) : Prop where
  supported : supports server e = true
  multiple : e.single = false
  integer : e.dataType = .int ∨ e.dataType = .longLong
  format : e.formatType = .int ∨ e.formatType = .rank ∨ e.formatType = .time
  baseline : e.init ≠ []
  moved : e.init ≠ e.current
  change : e.change = stdToString d
  nonzero : d ≠ 0

/-- The changes that a format can show. -/
def InReach (formatType : FormatType) (d : ℤ) : Prop :=
  match formatType with
  | .time => 0 < d ∧ d < 3600 * 2 ^ 31
  | _ => -2 ^ 63 ≤ d ∧ d < 2 ^ 63

/-! ## Numbers -/

theorem isSign_of_isDigit {c : UInt8} (digit : isDigit c = true) : isSign c = false := by
  rw [isSign, decide_eq_false_iff_not]
  rintro (rfl | rfl) <;> exact absurd digit (by decide)

theorem unsigned_groupDigits (n : ℕ) : ∀ c ∈ groupDigits (decimal n), isSign c = false := by
  intro c member
  by_cases comma : c = (',' : UInt8)
  · rw [comma]
    decide
  · have inDigits : c ∈ decimal n := by
      rw [← filter_groupDigits n]
      exact List.mem_filter.mpr ⟨member, by simpa using comma⟩
    exact isSign_of_isDigit (decimal_isDigit n c inDigits)

theorem formatNumber_inRange {d : ℤ} (low : -2 ^ 63 ≤ d) (high : d < 2 ^ 63) :
    formatNumber (stdToString d) true =
      (if d < 0 then ('-' : UInt8) else ('+' : UInt8)) :: groupDigits (decimal d.natAbs) := by
  have value : (Int64.ofInt d).toInt = d := Int64.toInt_ofInt_of_le low high
  have read : stoll (stdToString d) = .ok (Int64.ofInt d) := by
    rw [stoll_eq_ok_iff, scanInteger_stdToString, value]
  have negative : Int64.ofInt d < 0 ↔ d < 0 := by
    rw [Int64.lt_iff_toInt_lt, value]
    rfl
  have unranked : ¬([] : Str) = ("#" : Str) := by decide
  simp only [formatNumber, read, value, negative, if_neg unranked, ↓reduceIte]
  split <;> rfl

theorem formatNumber_outside {d : ℤ} (outside : ¬(-2 ^ 63 ≤ d ∧ d < 2 ^ 63)) :
    formatNumber (stdToString d) true = "Invalid" := by
  have failed : stoll (stdToString d) = .error (.outOfRange "stoll") := by
    rw [stoll, scanInteger_stdToString]
    exact if_neg outside
  rw [formatNumber, failed]

/-! ## Clocks -/

/-- Two numbers before the same letter. -/
theorem decimal_append_inj {m n : ℕ} {letter : UInt8} (notDigit : isDigit letter = false) {rest rest' : Str}
    (same : decimal m ++ letter :: rest = decimal n ++ letter :: rest') : m = n ∧ rest = rest' := by
  have digits (n : ℕ) (rest : Str) : (decimal n ++ letter :: rest).takeWhile isDigit = decimal n := by
    rw [List.takeWhile_append_of_pos (decimal_isDigit n), List.takeWhile_cons_of_neg (by simp [notDigit]), List.append_nil]
  have front : decimal m = decimal n := by rw [← digits m rest, same, digits]
  have value := congrArg digitsValue front
  rw [digitsValue_decimal, digitsValue_decimal] at value
  rw [front] at same
  exact ⟨value, (List.cons.inj (List.append_cancel_left same)).2⟩

theorem stdToString_natCast (n : ℕ) : stdToString n = decimal n := by
  rw [stdToString, if_neg (by omega), Int.natAbs_natCast]

/-- A clock is read in one way. -/
theorem clock_inj {h m s h' m' s' : ℕ} (same : clock h m s = clock h' m' s') : h = h' ∧ m = m' ∧ s = s' := by
  have letters : ("h " : Str) = [('h' : UInt8), (' ' : UInt8)] ∧ ("m " : Str) = [('m' : UInt8), (' ' : UInt8)] ∧
      ("s" : Str) = [('s' : UInt8)] := by decide
  simp only [clock, stdToString_natCast, letters, List.append_assoc, List.cons_append, List.nil_append] at same
  obtain ⟨hours, rest⟩ := decimal_append_inj (by decide) same
  obtain ⟨minutes, rest⟩ := decimal_append_inj (by decide) (List.cons.inj rest).2
  obtain ⟨seconds, _⟩ := decimal_append_inj (by decide) (List.cons.inj rest).2
  exact ⟨hours, minutes, seconds⟩

theorem unsigned_clock (h m s : ℕ) : ∀ c ∈ clock h m s, isSign c = false := by
  have digits (n : ℕ) : ∀ c ∈ stdToString (n : ℤ), isSign c = false := by
    rw [stdToString_natCast]
    exact fun c member => isSign_of_isDigit (decimal_isDigit n c member)
  have letters : ∀ c ∈ ("h " : Str) ++ ("m " : Str) ++ ("s" : Str), isSign c = false := by decide +kernel
  intro c member
  simp only [clock, List.mem_append] at member letters
  rcases member with ((((inHours | h) | inMinutes) | m) | inSeconds) | s
  · exact digits _ c inHours
  · exact letters c (.inl (.inl h))
  · exact digits _ c inMinutes
  · exact letters c (.inl (.inr m))
  · exact digits _ c inSeconds
  · exact letters c (.inr s)

/-! ## Which changes are shown -/

theorem signed_number_iff {formatType : FormatType} (notTime : formatType ≠ .time) {e : DataEntry} {d : ℤ}
    (change : e.change = formatNumber (stdToString d) true)
    (colour : e.positive = (e.change.head? != some ('-' : UInt8))) :
    Signed formatType e d ↔ -2 ^ 63 ≤ d ∧ d < 2 ^ 63 := by
  constructor
  · intro signed
    by_contra outside
    have sign := signed.sign
    rw [change, formatNumber_outside outside] at sign
    split at sign <;> exact absurd sign (by decide)
  · rintro ⟨low, high⟩
    have text := change.trans (formatNumber_inRange low high)
    have number : Denotes formatType (groupDigits (decimal d.natAbs)) d.natAbs := by
      cases formatType <;> first | exact absurd rfl notTime | exact filter_groupDigits _
    refine ⟨by rw [text, List.head?_cons], ?_, ?_, ?_⟩
    · rw [text]
      exact unsigned_groupDigits _
    · rw [text]
      exact number
    · rw [colour, text, List.head?_cons]
      by_cases negative : d < 0
      · simp only [if_pos negative]
        exact iff_of_true (by decide) negative
      · simp only [if_neg negative]
        exact iff_of_false (by decide) negative

/-- A clock of a positive change. -/
theorem clock_of_pos {d : ℤ} (positive : 0 < d) : formatPlaytime (stdToString d) true = ('+' : UInt8) ::
    clock (Int32.ofInt (clamp d / 3600)).toInt ((clamp d % 3600 / 60).toNat : ℤ) ((clamp d % 60).toNat : ℤ) := by
  have nonneg : 0 ≤ clamp d := by
    rw [clamp]
    omega
  have small {n : ℤ} (low : 0 ≤ n) (high : n < 60) : (Int32.ofInt n).toInt = (n.toNat : ℤ) := by
    rw [Int32.toInt_ofInt_of_le (by omega) (by omega)]
    omega
  have minutes : (Int32.ofInt (clamp d % 3600 / 60)).toInt = _ := small (by omega) (by omega)
  have seconds : (Int32.ofInt (clamp d % 60)).toInt = _ := small (by omega) (by omega)
  rw [formatPlaytime_eq (scanInteger_stdToString d), Int.tmod_eq_emod_of_nonneg nonneg,
    Int.tmod_eq_emod_of_nonneg nonneg, Int.tdiv_eq_ediv_of_nonneg nonneg, Int.tdiv_eq_ediv_of_nonneg (by omega), minutes,
    seconds]
  rfl

theorem signed_time_iff {e : DataEntry} {d : ℤ} (nonzero : d ≠ 0)
    (change : e.change = formatPlaytime (stdToString d) true) (colour : e.positive = true) :
    Signed .time e d ↔ 0 < d ∧ d < 3600 * 2 ^ 31 := by
  constructor
  · intro signed
    have positive : 0 < d := by
      have sign := signed.sign
      rw [change, formatPlaytime_eq (scanInteger_stdToString d), if_pos rfl, List.singleton_append, List.head?_cons,
        Option.some.injEq] at sign
      split at sign
      · exact absurd sign (by decide)
      · omega
    have alone := signed.alone
    obtain ⟨hours, minutes, seconds, same, total⟩ := signed.magnitude
    rw [change, clock_of_pos positive, List.tail_cons] at alone same
    have bounded := (Int32.ofInt (clamp d / 3600)).toInt_lt
    generalize (Int32.ofInt (clamp d / 3600)).toInt = shown at alone same bounded
    -- a wrapped number of hours would print a sign of its own
    have nonneg : 0 ≤ shown := by
      by_contra negative
      have minus : ('-' : UInt8) ∈ clock shown ((clamp d % 3600 / 60).toNat : ℤ) ((clamp d % 60).toNat : ℤ) := by
        rw [clock, stdToString, if_pos (by omega)]
        exact List.mem_cons_self
      exact absurd (alone _ minus) (by decide)
    obtain ⟨natural, rfl⟩ := Int.eq_ofNat_of_zero_le nonneg
    obtain ⟨rfl, rfl, rfl⟩ := clock_inj same
    exact ⟨positive, by omega⟩
  · rintro ⟨positive, high⟩
    have same : clamp d = d := by
      rw [clamp]
      omega
    have hours : (Int32.ofInt (d / 3600)).toInt = ((d / 3600).toNat : ℤ) := by
      rw [Int32.toInt_ofInt_of_le (by omega) (by omega)]
      omega
    have text := change.trans (clock_of_pos positive)
    rw [same, hours] at text
    refine ⟨?_, ?_, ?_, ?_⟩
    · rw [text, List.head?_cons, if_neg (by omega)]
    · rw [text]
      exact unsigned_clock _ _ _
    · rw [text]
      exact ⟨_, _, _, rfl, by omega⟩
    · rw [colour]
      exact iff_of_false (by decide) (by omega)

/-- One entry. -/
theorem signed_entry_iff {server : Server} {e e' : DataEntry} {d : ℤ} (changed : Changed server e d)
    (compiled : e.positive = true) (done : formatEntry server e = .done e') :
    Signed e.formatType e' d ↔ InReach e.formatType d := by
  have moves : unmoved e = false := by simp [unmoved, changed.multiple, changed.moved]
  have same : prepared e = e := by rw [prepared, moves]; rfl
  rw [formatEntry_eq changed.supported (.inl changed.baseline), same, moves] at done
  have number {plain : Str → Except Exception Str} (notTime : e.formatType ≠ .time)
      (ran : formatTexts plain (fun s => .ok (formatNumber s true)) true false (e.current == []) e = .done e') :
      Signed e.formatType e' d ↔ -2 ^ 63 ≤ d ∧ d < 2 ^ 63 := by
    have texts := texts_of_done ran
    have change := texts.change
    rw [changed.change] at change
    exact signed_number_iff notTime (Except.ok.inj change).symm (by simpa [compiled] using texts.positive)
  have time {plain : Str → Except Exception Str}
      (ran : formatTexts plain (fun s => .ok (formatPlaytime s true)) false false (e.current == []) e = .done e') :
      Signed .time e' d ↔ 0 < d ∧ d < 3600 * 2 ^ 31 := by
    have texts := texts_of_done ran
    have change := texts.change
    rw [changed.change] at change
    exact signed_time_iff changed.nonzero (Except.ok.inj change).symm (by simpa [compiled] using texts.positive)
  rw [formatBranch_integer changed.integer] at done
  rcases changed.format with format | format | format <;> rw [format] at done number ⊢ <;>
    simp only [formatBranch] at done
  · exact number nofun done
  · exact number nofun done
  · exact time done

/-- Exactly when every change is shown with its sign. -/
theorem signed_iff {sort : StdSort bySort} {g g' : Globals} (done : updateFormat sort g = .done g') :
    (∀ e ∈ g.arr.entries, ∀ d, Changed g.application.server e d →
      ∀ e' ∈ g'.arrFormatted, e'.key = e.key → Signed e.formatType e' d) ↔
      ∀ e ∈ g.arr.entries, ∀ d, Changed g.application.server e d → InReach e.formatType d := by
  have compiled : ∀ kind ∈ initialArr.map DataEntry.kind, kind.positive = true := by decide +kernel
  refine forall₂_congr fun e member => forall₂_congr fun d changed => ?_
  have positive : e.positive = true := compiled e.kind (g.arr.compiled ▸ List.mem_map_of_mem member)
  obtain ⟨⟨copy, inside, key⟩, formatted⟩ := formatted_of_done done member
  constructor
  · intro all
    exact (signed_entry_iff changed positive (formatted copy inside key)).mp (all copy inside key)
  · exact fun inReach e' listed same => (signed_entry_iff changed positive (formatted e' listed same)).mpr inReach

/-- The playing time, changed from two hours, and a table with it. -/
def playtime (current change : Str) : DataEntry :=
  { entry "playtime" 9 .longLong .time false true true with init := "7200", current := current, change := change }

def played (current change : Str) : Globals where
  arr := ((StatTable.initial.setSlot "playtime" .init "7200").setSlot "playtime" .current current).setSlot
    "playtime" .change change

theorem updateFormat_played (current change : Str)
    (done : (updateFormat stableBySort (played current change)).isDone = true) :
    ∃ g', updateFormat stableBySort (played current change) = .done g' :=
  ⟨_, Outcome.eq_done_of_isDone done⟩

/-- One hour more. -/
theorem hourMore_signed : ∃ g', updateFormat stableBySort (played "10800" "3600") = .done g' ∧
    ∀ e ∈ (played "10800" "3600").arr.entries, ∀ d, Changed Server.bancho e d →
      ∀ e' ∈ g'.arrFormatted, e'.key = e.key → Signed e.formatType e' d := by
  obtain ⟨g', done⟩ := updateFormat_played "10800" "3600" (by decide +kernel)
  have only : ∀ e ∈ (played "10800" "3600").arr.entries,
      e.init = [] ∨ e.formatType = .time ∧ scanInteger e.change = some 3600 := by
    decide +kernel
  refine ⟨g', done, (signed_iff done).mpr fun e member d changed => ?_⟩
  obtain ⟨time, hour⟩ := (only e member).resolve_left changed.baseline
  have same : d = 3600 := by
    rw [changed.change, scanInteger_stdToString] at hour
    exact Option.some.inj hour
  rw [time, same]
  exact ⟨by decide, by decide⟩

/-- One hour less is shown as a growth by minus one hour. -/
theorem hourLess_shown_growing : ¬∀ (sort : StdSort bySort) (g g' : Globals), updateFormat sort g = .done g' →
    ∀ e ∈ g.arr.entries, ∀ d, Changed g.application.server e d →
      ∀ e' ∈ g'.arrFormatted, e'.key = e.key → Signed e.formatType e' d := by
  intro all
  obtain ⟨g', done⟩ := updateFormat_played "3600" "-3600" (by decide +kernel)
  have member : playtime "3600" "-3600" ∈ (played "3600" "-3600").arr.entries := by decide +kernel
  have changed : Changed Server.bancho (playtime "3600" "-3600") (-3600) :=
    ⟨by decide, by decide, by decide, by decide, by decide, by decide, by decide +kernel, by decide⟩
  obtain ⟨⟨copy, inside, key⟩, formatted⟩ := formatted_of_done done member
  have sign := (all _ _ _ done _ member _ changed copy inside key).sign
  have own : formatEntry Server.bancho (playtime "3600" "-3600") = .done copy := formatted copy inside key
  have text : (formatEntry Server.bancho (playtime "3600" "-3600")).state.change.head? = some ('+' : UInt8) := by
    decide +kernel
  rw [own] at text
  exact absurd (sign.symm.trans text) (by decide)

end OsuTracker.Soundness.ChangeSigns
