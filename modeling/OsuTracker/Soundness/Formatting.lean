import OsuTracker.Soundness.Printing

/-! # The texts of a formatted entry

When formatting returns, an entry the server supports has each of its texts formatted by the
functions of its branch, except an empty current text and the change of an entry that has not
moved. The entries of the formatted copy are found again by their keys.
-/

namespace OsuTracker.Soundness.Formatting

open Cxx Model.Core.Config Model.Core.Formatter

/-! ## Numbers and clocks -/

theorem filter_insertComma (position : ℕ) (str : Str) :
    (insertComma position str).filter (· ≠ (',' : UInt8)) = str.filter (· ≠ (',' : UInt8)) := by
  rw [insertComma, List.filter_append, List.filter_cons_of_neg (by simp), ← List.filter_append, List.take_append_drop]

theorem filter_insertCommas (position : ℕ) (str : Str) :
    (insertCommas position str).filter (· ≠ (',' : UInt8)) = str.filter (· ≠ (',' : UInt8)) := by
  fun_induction insertCommas position str with
  | case1 => rfl
  | case2 | case3 | case4 => exact filter_insertComma ..
  | case5 str n ih => rw [ih, filter_insertComma]

/-- The separators are all that grouping adds. -/
theorem filter_groupDigits (n : ℕ) : (groupDigits (decimal n)).filter (· ≠ (',' : UInt8)) = decimal n := by
  rw [groupDigits, filter_insertCommas, List.filter_eq_self]
  intro c member
  have digit := decimal_isDigit n c member
  rw [decide_eq_true_eq]
  rintro rfl
  exact absurd digit (by decide)

/-- Hours, minutes and seconds, as they are printed. -/
def clock (hours minutes seconds : ℤ) : Str :=
  stdToString hours ++ ("h " : Str) ++ stdToString minutes ++ ("m " : Str) ++ stdToString seconds ++ ("s" : Str)

theorem length_stdToString_le {n : ℤ} (low : -2 ^ 31 ≤ n) (high : n < 2 ^ 31) : (stdToString n).length ≤ 11 := by
  have digits : (decimal n.natAbs).length ≤ 9 + 1 := decimal_length_le (by omega)
  rw [stdToString]
  split
  · rw [List.length_cons]
    omega
  · omega

/-- A printed clock fits into its buffer. -/
theorem buffered_clock (hours minutes seconds : Int32) :
    buffered (clock hours.toInt minutes.toInt seconds.toInt) = clock hours.toInt minutes.toInt seconds.toInt := by
  have first := length_stdToString_le hours.le_toInt hours.toInt_lt
  have second := length_stdToString_le minutes.le_toInt minutes.toInt_lt
  have third := length_stdToString_le seconds.le_toInt seconds.toInt_lt
  have suffixes : ("h " : Str).length = 2 ∧ ("m " : Str).length = 2 ∧ ("s" : Str).length = 1 := by decide
  apply List.take_of_length_le
  simp only [clock, List.length_append, suffixes]
  omega

/-- What `strtol` makes of a number. -/
def clamp (n : ℤ) : ℤ := max (-2 ^ 63) (min (2 ^ 63 - 1) n)

/-- A playing time is a clock of three `int`s. -/
theorem formatPlaytime_eq {text : Str} {n : ℤ} (scanned : scanInteger text = some n) (showPlus : Bool) :
    formatPlaytime text showPlus = (if showPlus then [('+' : UInt8)] else []) ++
      clock (Int32.ofInt ((clamp n).tdiv 3600)).toInt (Int32.ofInt (((clamp n).tmod 3600).tdiv 60)).toInt
        (Int32.ofInt ((clamp n).tmod 60)).toInt := by
  rw [formatPlaytime, strtol, scanned, ← buffered_clock]
  cases showPlus <;> rfl

/-! ## Branches -/

/-- The texts after one branch of the format switch. -/
structure Texts (plain signed : Str → Except Exception Str) (marksSign noDiff noCurrent : Bool)
    (data e : DataEntry) : Prop where
  init : plain data.init = .ok e.init
  current : if noCurrent then e.current = data.current else plain data.current = .ok e.current
  change : if noDiff then e.change = data.change else signed data.change = .ok e.change
  positive : e.positive = (data.positive && (noDiff || !marksSign || e.change.head? != some ('-' : UInt8)))

theorem texts_of_done {plain signed : Str → Except Exception Str} {marksSign noDiff noCurrent : Bool}
    {data e : DataEntry} (done : formatTexts plain signed marksSign noDiff noCurrent data = .done e) :
    Texts plain signed marksSign noDiff noCurrent data e := by
  obtain ⟨first, init, rest⟩ := Outcome.andThen_eq_done.mp done
  obtain ⟨second, current, change⟩ := Outcome.andThen_eq_done.mp rest
  obtain ⟨initText, initOk, rfl⟩ := map_eq_ok (Outcome.ofExcept_eq_done.mp init)
  have kept : second.init = initText ∧ second.change = data.change ∧ second.positive = data.positive ∧
      if noCurrent then second.current = data.current else plain data.current = .ok second.current := by
    cases noCurrent with
    | true =>
      cases current
      exact ⟨rfl, rfl, rfl, rfl⟩
    | false =>
      obtain ⟨currentText, currentOk, rfl⟩ := map_eq_ok (Outcome.ofExcept_eq_done.mp current)
      exact ⟨rfl, rfl, rfl, currentOk⟩
  obtain ⟨sameInit, sameChange, samePositive, currentOk⟩ := kept
  cases noDiff with
  | true =>
    cases change
    exact ⟨sameInit ▸ initOk, currentOk, sameChange, by simp [samePositive]⟩
  | false =>
    obtain ⟨changeText, changeOk, rfl⟩ := map_eq_ok (Outcome.ofExcept_eq_done.mp change)
    rw [sameChange] at changeOk
    by_cases minus : marksSign = true ∧ changeText.head? = some ('-' : UInt8)
    · simp only [if_pos minus]
      exact ⟨sameInit ▸ initOk, currentOk, changeOk, by simp [DataEntry.setSlot, minus]⟩
    · simp only [if_neg minus]
      refine ⟨sameInit ▸ initOk, currentOk, changeOk, ?_⟩
      have unmarked : (!marksSign || changeText.head? != some ('-' : UInt8)) = true := by
        cases marksSign with
        | false => rfl
        | true => simpa using minus
      simp only [DataEntry.setSlot, samePositive, Bool.false_or, unmarked, Bool.and_true]

/-! ## One entry -/

/-- The entry has not moved. -/
def unmoved (e : DataEntry) : Bool := !e.single && e.init == e.current

/-- What a branch is run on. -/
def prepared (e : DataEntry) : DataEntry := if unmoved e then { e with change := [] } else e

/-- A supported entry is formatted by its branch unless it misses a baseline that it should have. -/
theorem formatEntry_eq {server : Server} {e : DataEntry} (supported : supports server e = true)
    (formatted : e.init ≠ [] ∨ e.single = true) : formatEntry server e =
      formatBranch (prepared e).dataType (prepared e).formatType (unmoved e) (e.current == []) (prepared e) := by
  have known : ¬(e.init = [] ∧ e.single = false) := by
    rintro ⟨empty, notSingle⟩
    rcases formatted with full | single
    · exact full empty
    · rw [notSingle] at single
      cases single
  rw [formatEntry, if_neg known, if_neg (by simp [supported])]
  rfl

/-- The two integer types are formatted alike. -/
theorem formatBranch_integer {dataType : DataType} (integer : dataType = .int ∨ dataType = .longLong)
    (formatType : FormatType) : formatBranch dataType formatType = formatBranch .longLong formatType := by
  rcases integer with rfl | rfl <;> cases formatType <;> rfl

/-! ## The formatted copy -/

/-- The loop formats each entry, and nothing else ends up in the copy. -/
theorem mem_of_formatEntries {server : Server} {entries formatted : List DataEntry}
    (done : formatEntries server entries = .done formatted) :
    (∀ e ∈ entries, ∃ e' ∈ formatted, formatEntry server e = .done e') ∧
      ∀ e' ∈ formatted, ∃ e ∈ entries, formatEntry server e = .done e' := by
  induction entries generalizing formatted with
  | nil =>
    cases done
    exact ⟨nofun, nofun⟩
  | cons e rest ih =>
    unfold formatEntries at done
    split at done
    · next e' own =>
      split at done
      · next others ran =>
        cases done
        obtain ⟨left, right⟩ := ih ran
        refine ⟨List.forall_mem_cons.mpr ⟨⟨e', List.mem_cons_self, own⟩, fun other member => ?_⟩,
          List.forall_mem_cons.mpr ⟨⟨e, List.mem_cons_self, own⟩, fun other member => ?_⟩⟩
        · obtain ⟨copy, inside, formatted⟩ := left other member
          exact ⟨copy, List.mem_cons_of_mem _ inside, formatted⟩
        · obtain ⟨raw, inside, formatted⟩ := right other member
          exact ⟨raw, List.mem_cons_of_mem _ inside, formatted⟩
      · cases done
    · cases done

/-- Every entry has its formatted copy, under its own key and no other. -/
theorem formatted_of_done {sort : StdSort bySort} {g g' : Globals} (done : updateFormat sort g = .done g')
    {e : DataEntry} (member : e ∈ g.arr.entries) :
    (∃ e' ∈ g'.arrFormatted, e'.key = e.key) ∧
      ∀ e' ∈ g'.arrFormatted, e'.key = e.key → formatEntry g.application.server e = .done e' := by
  unfold updateFormat at done
  split at done
  · next formatted ran =>
    cases done
    obtain ⟨left, right⟩ := mem_of_formatEntries ran
    have sorted : ∀ other, other ∈ sort.run g.arr.entries ↔ other ∈ g.arr.entries :=
      fun other => (sort.perm _).mem_iff
    have sameKey {other e' : DataEntry} (own : formatEntry g.application.server other = .done e') : e'.key = other.key := by
      have key := key_formatEntry g.application.server other
      rwa [own] at key
    constructor
    · obtain ⟨e', inside, own⟩ := left e ((sorted e).mpr member)
      exact ⟨e', inside, sameKey own⟩
    · intro e' inside key
      obtain ⟨other, listed, own⟩ := right e' inside
      have same : other = e := g.arr.eq_of_key_eq ((sorted other).mp listed) member ((sameKey own).symm.trans key)
      exact same ▸ own
  · cases done

end OsuTracker.Soundness.Formatting
