import OsuTracker.Cxx.FloatText
import OsuTracker.Model.Core.Formatter

/-! # Numbers that can be formatted

`formatFloat` throws exactly on texts that `strtod` reads as a NaN, an infinity or a number with
so many digits that its point does not fit into the buffer. Integers, ranks and playtimes always
format, so an entry formats when the three texts of a float do.
-/

namespace OsuTracker.Soundness.Printing

open Cxx Model.Core.Config Model.Core.Formatter

/-! ## Texts -/

/-- Rounded to three decimals, at most 62 digits before the point, or 61 after a minus sign. -/
def Printable : Flt → Prop
  | .finite negative mantissa exponent =>
    divRoundEven ((Flt.finite negative mantissa exponent).num * 10 ^ 3)
      (Flt.finite negative mantissa exponent).den / 10 ^ 3 < 10 ^ (if negative then 61 else 62)
  | _ => False

/-- What `strtod` reads at the front of the text, if anything, is printable. -/
def Shows (text : Str) : Prop := ∀ x, strtod text = some x → Printable x

instance (x : Flt) : Decidable (Printable x) :=
  match x with
  | .finite _ _ _ => inferInstanceAs (Decidable (_ < _))
  | .nan _ | .inf _ => .isFalse id

instance (text : Str) : Decidable (Shows text) :=
  match read : strtod text with
  | none => .isTrue fun _ found => nomatch read.symm.trans found
  | some x => decidable_of_iff (Printable x) (by simp [Shows, read])

theorem shows_nil : Shows [] := nofun

/-- Exactly the printable numbers have their point in the buffer. -/
theorem point_iff (x : Flt) :
    ((buffered (printFixed 3 x)).dropWhile (· ≠ ('.' : UInt8)) ≠ []) ↔ Printable x := by
  cases x with
  | nan negative => cases negative <;> exact ⟨fun point => absurd (by decide) point, False.elim⟩
  | inf negative => cases negative <;> exact ⟨fun point => absurd (by decide) point, False.elim⟩
  | finite negative mantissa exponent =>
    rw [printFixed, buffered, ne_eq, dropWhile_take_printRatio, Printable]
    generalize divRoundEven _ _ / 10 ^ 3 = whole
    have positive : (decimal whole).length ≤ 61 + 1 ↔ whole < 10 ^ (61 + 1) := decimal_length_le_iff
    have negated : (decimal whole).length ≤ 60 + 1 ↔ whole < 10 ^ (60 + 1) := decimal_length_le_iff
    cases negative with
    | false =>
      simp only [signText, Bool.false_eq_true, ↓reduceIte, List.length_nil]
      omega
    | true =>
      simp only [signText, ↓reduceIte, List.length_singleton]
      omega

/-- Dropping a minus sign does not lose the point. -/
private theorem dropWhile_unsigned (str : Str) :
    (if str.head? = some ('-' : UInt8) then str.drop 1 else str).dropWhile (· ≠ ('.' : UInt8)) =
      str.dropWhile (· ≠ ('.' : UInt8)) := by
  split
  · next sign =>
    cases str with
    | nil => rfl
    | cons c rest =>
      obtain rfl : c = ('-' : UInt8) := by simpa using sign
      rfl
  · rfl

theorem formatFloat_returns_iff (text : Str) (showPlus : Bool) :
    (∃ formatted, formatFloat text showPlus = .ok formatted) ↔ Shows text := by
  unfold formatFloat Shows
  cases strtod text with
  | none => exact ⟨fun _ => nofun, fun _ => ⟨_, rfl⟩⟩
  | some x =>
    simp only [dropWhile_unsigned, Option.some.injEq, forall_eq', ← point_iff]
    split
    · next missing => exact ⟨nofun, fun point => absurd missing point⟩
    · next point => exact ⟨fun _ => point, fun _ => ⟨_, rfl⟩⟩

/-! ## Entries -/

private theorem percent_returns {result : Except Exception Str} (returned : ∃ s, result = .ok s) :
    ∃ s, percent result = .ok s := by
  obtain ⟨s, rfl⟩ := returned
  exact ⟨_, rfl⟩

theorem formatTexts_isDone {plain signed : Str → Except Exception Str} {marksSign noDiff noCurrent : Bool}
    {data : DataEntry} (init : ∃ s, plain data.init = .ok s) (current : ∃ s, plain data.current = .ok s)
    (change : ∃ s, signed data.change = .ok s) :
    (formatTexts plain signed marksSign noDiff noCurrent data).isDone = true := by
  obtain ⟨first, init⟩ := init
  obtain ⟨second, current⟩ := current
  obtain ⟨third, change⟩ := change
  have same : (data.setSlot .init first).current = data.current ∧ (data.setSlot .init first).change = data.change :=
    ⟨rfl, rfl⟩
  have after : ((data.setSlot .init first).setSlot .current second).change = data.change := rfl
  cases noCurrent <;> cases noDiff <;>
    simp only [formatTexts, init, Except.map, Outcome.ofExcept_ok, Outcome.andThen, same, current, change, after,
      Bool.false_eq_true, ↓reduceIte, Outcome.isDone]

/-- An entry formats when it is no float or its texts can be shown. -/
theorem formatBranch_isDone (dataType : DataType) (formatType : FormatType) (noDiff noCurrent : Bool)
    {data : DataEntry} (shows : dataType = .float → Shows data.init ∧ Shows data.current ∧ Shows data.change) :
    (formatBranch dataType formatType noDiff noCurrent data).isDone = true := by
  unfold formatBranch
  split
  · exact formatTexts_isDone ⟨_, rfl⟩ ⟨_, rfl⟩ ⟨_, rfl⟩
  · exact formatTexts_isDone ⟨_, rfl⟩ ⟨_, rfl⟩ ⟨_, rfl⟩
  · exact formatTexts_isDone ⟨_, rfl⟩ ⟨_, rfl⟩ ⟨_, rfl⟩
  · exact formatTexts_isDone ⟨_, rfl⟩ ⟨_, rfl⟩ ⟨_, rfl⟩
  · exact formatTexts_isDone ⟨_, rfl⟩ ⟨_, rfl⟩ ⟨_, rfl⟩
  · exact formatTexts_isDone ⟨_, rfl⟩ ⟨_, rfl⟩ ⟨_, rfl⟩
  · obtain ⟨init, current, change⟩ := shows rfl
    exact formatTexts_isDone ((formatFloat_returns_iff _ _).mpr init) ((formatFloat_returns_iff _ _).mpr current)
      ((formatFloat_returns_iff _ _).mpr change)
  · obtain ⟨init, current, change⟩ := shows rfl
    exact formatTexts_isDone (percent_returns ((formatFloat_returns_iff _ _).mpr init))
      (percent_returns ((formatFloat_returns_iff _ _).mpr current))
      (percent_returns ((formatFloat_returns_iff _ _).mpr change))
  · rfl

/-- Entries without a baseline are not formatted. -/
theorem formatEntry_isDone (server : Server) {data : DataEntry}
    (shows : data.dataType = .float → (data.init ≠ [] ∨ data.single = true) →
      Shows data.init ∧ Shows data.current ∧ Shows data.change) : (formatEntry server data).isDone = true := by
  unfold formatEntry
  split
  · rfl
  · next known =>
    have formatted : data.init ≠ [] ∨ data.single = true := by
      by_contra neither
      simp only [not_or, ne_eq, not_not, Bool.not_eq_true] at neither
      exact known neither
    split
    · rfl
    · refine formatBranch_isDone _ _ _ _ fun float => ?_
      split at float
      · next unchanged =>
        obtain ⟨init, current, _⟩ := shows float formatted
        simp only [unchanged, ↓reduceIte]
        exact ⟨init, current, shows_nil⟩
      · next changed =>
        simp only [changed]
        exact shows float formatted

/-! ## Differences -/

/-- A baseline and a current text that both print, and so does their difference. -/
def Comparable (baseline text : Str) : Prop :=
  Shows text ∧ ∀ x y, stof text = .ok x → stof baseline = .ok y → (Flt.sub binary32 x y).isFinite = true

instance (baseline text : Str) : Decidable (Comparable baseline text) :=
  match current : stof text, init : stof baseline with
  | .ok x, .ok y =>
    decidable_of_iff (Shows text ∧ (Flt.sub binary32 x y).isFinite = true) (by simp [Comparable, current, init])
  | .error e, _ => decidable_of_iff (Shows text) (by simp [Comparable, current])
  | _, .error e => decidable_of_iff (Shows text) (by simp [Comparable, init])

/-- A printable text that `stof` reads is finite. -/
theorem isFinite_of_shows {text : Str} {x : Flt} (shows : Shows text) (read : stof text = .ok x) :
    x.isFinite = true := by
  unfold stof at read
  unfold Shows strtod at shows
  split at read
  · cases read
  · next negative num den scanned =>
    split at read
    · cases read
    · next accepted =>
      cases read
      simp only [Numeral.toFlt]
      split
      · rfl
      · next nonzero =>
        have inRange : rangeError binary32 num den = false := by
          rw [Bool.eq_false_iff]
          exact fun failed => accepted ⟨nonzero, failed⟩
        rw [binary32.isFinite_round_sign negative false]
        simpa using (Bool.or_eq_false_iff.mp inRange).1
  · next negative numeral special scanned =>
    cases numeral with
    | nan =>
      have printable : Printable (.nan negative) := shows _ (by rw [scanned]; rfl)
      exact printable.elim
    | inf =>
      have printable : Printable (.inf negative) := shows _ (by rw [scanned]; rfl)
      exact printable.elim
    | ratio num den => exact absurd rfl (special num den)

theorem comparable_self {text : Str} (shows : Shows text) : Comparable text text := by
  refine ⟨shows, fun x y first second => ?_⟩
  obtain rfl := Except.ok.inj (first.symm.trans second)
  exact Flt.isFinite_sub_self binary32 (isFinite_of_shows shows first)

private theorem printable_of_small {x : Flt} (finite : x.isFinite = true) (small : x.num < 2 ^ 130 * x.den) :
    Printable x := by
  cases x with
  | nan negative => cases finite
  | inf negative => cases finite
  | finite negative mantissa exponent =>
    have thousandths : divRoundEven ((Flt.finite negative mantissa exponent).num * 10 ^ 3)
        (Flt.finite negative mantissa exponent).den ≤ 2 ^ 130 * 10 ^ 3 := by
      apply divRoundEven_le
      calc (Flt.finite negative mantissa exponent).num * 10 ^ 3
          < 2 ^ 130 * (Flt.finite negative mantissa exponent).den * 10 ^ 3 := Nat.mul_lt_mul_of_pos_right small (by decide)
        _ = 2 ^ 130 * 10 ^ 3 * (Flt.finite negative mantissa exponent).den := by ring
    have whole : divRoundEven ((Flt.finite negative mantissa exponent).num * 10 ^ 3)
        (Flt.finite negative mantissa exponent).den / 10 ^ 3 ≤ 2 ^ 130 := by omega
    refine lt_of_le_of_lt whole ?_
    cases negative <;> norm_num

/-- Every finite `float` is printed so that it can be formatted. -/
theorem shows_floatToString {x : Flt} (fits : x.Fits binary32) (finite : x.isFinite = true) :
    Shows (floatToString x) := by
  cases x with
  | nan negative => cases finite
  | inf negative => cases finite
  | finite negative mantissa exponent =>
    intro y read
    have bounded : (Flt.finite negative mantissa exponent).num < 2 ^ 128 * (Flt.finite negative mantissa exponent).den :=
      fits.2
    have scanned := scanNumeral_printRatio negative (Flt.finite negative mantissa exponent).num
      (Flt.finite negative mantissa exponent).den
    have text : floatToString (.finite negative mantissa exponent) = printRatio 6 negative
        (Flt.finite negative mantissa exponent).num (Flt.finite negative mantissa exponent).den := rfl
    have millionths : divRoundEven ((Flt.finite negative mantissa exponent).num * 10 ^ 6)
        (Flt.finite negative mantissa exponent).den ≤ 2 ^ 128 * 10 ^ 6 := by
      apply divRoundEven_le
      calc (Flt.finite negative mantissa exponent).num * 10 ^ 6
          < 2 ^ 128 * (Flt.finite negative mantissa exponent).den * 10 ^ 6 := Nat.mul_lt_mul_of_pos_right bounded (by decide)
        _ = 2 ^ 128 * 10 ^ 6 * (Flt.finite negative mantissa exponent).den := by ring
    rw [strtod, text, scanned] at read
    obtain rfl := Option.some.inj read
    generalize divRoundEven ((Flt.finite negative mantissa exponent).num * 10 ^ 6)
      (Flt.finite negative mantissa exponent).den = scaled at millionths
    simp only [Numeral.toFlt]
    split
    · exact printable_of_small rfl (by simp [Flt.num, Flt.den])
    · have stays : (binary64.round negative scaled (10 ^ 6)).isFinite = true := by
        have below (k : ℕ) (wide : 130 ≤ k) : 2 * scaled < 2 ^ k * 10 ^ 6 :=
          calc 2 * scaled ≤ 2 * (2 ^ 128 * 10 ^ 6) := Nat.mul_le_mul_left 2 millionths
            _ < 2 ^ 130 * 10 ^ 6 := by decide
            _ ≤ 2 ^ k * 10 ^ 6 := Nat.mul_le_mul_right _ (Nat.pow_le_pow_right (by decide) wide)
        exact binary64.isFinite_round negative (below binary64.maxExponent (by decide))
      have doubled := binary64.num_round_le negative scaled (10 ^ 6)
      generalize binary64.round negative scaled (10 ^ 6) = y at stays doubled ⊢
      refine printable_of_small stays (lt_of_mul_lt_mul_right (lt_of_le_of_lt doubled ?_) (Nat.zero_le (10 ^ 6)))
      calc 2 * scaled * y.den ≤ 2 ^ 129 * 10 ^ 6 * y.den := Nat.mul_le_mul_right _ (by omega)
        _ < 2 ^ 130 * 10 ^ 6 * y.den := Nat.mul_lt_mul_of_pos_right (by decide) y.den_pos
        _ = 2 ^ 130 * y.den * 10 ^ 6 := by ring

end OsuTracker.Soundness.Printing
