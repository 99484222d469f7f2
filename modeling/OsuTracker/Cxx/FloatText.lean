import OsuTracker.Cxx.Floating
import Mathlib.Algebra.Order.Field.Power
import Mathlib.Data.Rat.Cast.Order
import Mathlib.Tactic.NormNum
import Mathlib.Tactic.Linarith
import Mathlib.Tactic.Positivity

/-! # Reading printed floating-point numbers

`std::to_string` writes a sign, digits, a point and six more digits, a NaN or an infinity, and
`std::stof` accepts all of it: what is scanned is the printed multiple of one millionth, it is far
above the subnormal range, and rounding it back does not leave the finite range. The leading
exponent of a fraction is bounded from both sides in `ℚ`, where the two one-sided powers of the
integer definition meet in one.
-/

namespace OsuTracker.Cxx

/-! ## Scanning -/

theorem isDigit_fixedDigits (width n : ℕ) : ∀ c ∈ fixedDigits width n, isDigit c = true := by
  induction width generalizing n with
  | zero => intro c member; cases member
  | succ width ih =>
    intro c member
    rcases List.mem_append.mp member with front | last
    · exact ih _ c front
    · rw [List.mem_singleton.mp last]
      exact isDigit_digit (Nat.mod_lt _ (by decide))

theorem length_fixedDigits (width n : ℕ) : (fixedDigits width n).length = width := by
  induction width generalizing n with
  | zero => rfl
  | succ width ih => simp [fixedDigits, ih]

private theorem foldl_digits (digits : Str) (start : ℕ) :
    digits.foldl (fun value c => 10 * value + digitValue c) start =
      start * 10 ^ digits.length + digitsValue digits := by
  induction digits generalizing start with
  | nil => simp [digitsValue]
  | cons c rest ih =>
    rw [digitsValue, List.foldl_cons, ih, List.foldl_cons, ih (10 * 0 + digitValue c), List.length_cons, pow_succ]
    ring

theorem digitsValue_append (front back : Str) :
    digitsValue (front ++ back) = digitsValue front * 10 ^ back.length + digitsValue back := by
  rw [digitsValue, List.foldl_append, foldl_digits]
  rfl

theorem digitsValue_fixedDigits (width n : ℕ) : digitsValue (fixedDigits width n) = n % 10 ^ width := by
  induction width generalizing n with
  | zero => rw [pow_zero, Nat.mod_one]; rfl
  | succ width ih =>
    rw [fixedDigits, digitsValue_append_singleton, ih, digitValue_digit (Nat.mod_lt _ (by decide)), pow_succ',
      Nat.mod_mul]
    omega

private theorem takeWhile_digits {digits : Str} (all : ∀ c ∈ digits, isDigit c = true) (rest : Str)
    (stop : rest.head?.all fun c => !isDigit c) :
    (digits ++ rest).takeWhile isDigit = digits ∧ (digits ++ rest).dropWhile isDigit = rest := by
  have taken : rest.takeWhile isDigit = [] ∧ rest.dropWhile isDigit = rest := by
    cases rest with
    | nil => exact ⟨rfl, rfl⟩
    | cons c rest =>
      have other : isDigit c = false := by simpa using stop
      simp [other]
  constructor
  · rw [List.takeWhile_append_of_pos all, taken.1, List.append_nil]
  · rw [List.dropWhile_append_of_pos all, taken.2]

/-- A decimal numeral with a point is scanned as the integer of its digits over a power of ten. -/
theorem scanDecimal_fixed (whole : ℕ) (width n : ℕ) :
    scanDecimal (decimal whole ++ (('.' : UInt8) :: fixedDigits width n)) =
      some (.ratio (whole * 10 ^ width + n % 10 ^ width) (10 ^ width)) := by
  have front := takeWhile_digits (decimal_isDigit whole) (('.' : UInt8) :: fixedDigits width n) rfl
  have back := takeWhile_digits (isDigit_fixedDigits width n) [] rfl
  rw [List.append_nil] at back
  have value : (decimal whole ++ fixedDigits width n).foldl (fun value c => 10 * value + digitValue c) 0 =
      whole * 10 ^ width + n % 10 ^ width := by
    change digitsValue _ = _
    rw [digitsValue_append, digitsValue_decimal, length_fixedDigits, digitsValue_fixedDigits]
  unfold scanDecimal scanPositional
  simp only [front.1, front.2, List.head?_cons, ↓reduceIte, List.tail_cons, back.1, back.2, decimal_ne_nil,
    false_and, value, scanExponent, length_fixedDigits, Nat.mul_one]
  congr 2
  · simp
  · simp

private theorem decimal_eq_cons (n : ℕ) : ∃ c rest, decimal n = c :: rest ∧ isDigit c = true := by
  cases front : decimal n with
  | nil => exact absurd front (decimal_ne_nil n)
  | cons c rest => exact ⟨c, rest, rfl, decimal_isDigit n c (front ▸ List.mem_cons_self)⟩

private theorem toLower_digit {c : UInt8} (digit : isDigit c = true) : toLower c = c := by
  simp only [isDigit, Bool.and_eq_true, decide_eq_true_eq] at digit
  rw [toLower, if_neg]
  simp only [Bool.and_eq_true, decide_eq_true_eq]
  omega

/-- A text that starts with a digit other than a hexadecimal mark is scanned as a decimal. -/
private theorem scanNumeral_digit (negative : Bool) {c : UInt8} {rest : Str} (digit : isDigit c = true)
    (decimalMark : (rest.map toLower).head? ≠ some ('x' : UInt8)) :
    scanNumeral (signText negative ++ c :: rest) = (scanDecimal (c :: rest)).map fun numeral => (negative, numeral) := by
  have blank : isSpace c = false := not_isSpace_of_isDigit digit
  have sign : takeSign ((signText negative ++ c :: rest).dropWhile isSpace) = (negative, c :: rest) := by
    cases negative with
    | false =>
      rw [signText, if_neg (by decide), List.nil_append, List.dropWhile_cons, if_neg (by simp [blank])]
      exact takeSign_of_isDigit rest digit
    | true => rfl
  have value : 48 ≤ c.toNat ∧ c.toNat ≤ 57 := by
    simpa only [isDigit, Bool.and_eq_true, decide_eq_true_eq] using digit
  have notN : toLower c ≠ ('n' : UInt8) := by
    rw [toLower_digit digit]
    rintro rfl
    exact absurd value (by decide)
  have notI : toLower c ≠ ('i' : UInt8) := by
    rw [toLower_digit digit]
    rintro rfl
    exact absurd value (by decide)
  have notNan : ((c :: rest).take 3).map toLower ≠ ("nan" : Str) := by
    intro same
    exact notN (List.cons.inj same).1
  have notInf : ((c :: rest).take 3).map toLower ≠ ("inf" : Str) := by
    intro same
    exact notI (List.cons.inj same).1
  have notHex : (((c :: rest).take 3).map toLower).take 2 ≠ ("0x" : Str) := by
    intro same
    cases rest with
    | nil => cases (List.cons.inj same).2
    | cons mark rest =>
      apply decimalMark
      rw [List.map_cons, List.head?_cons]
      exact congrArg some (List.cons.inj (List.cons.inj same).2).1
  simp only [scanNumeral, sign, if_neg notNan, if_neg notInf, if_neg notHex, Option.none_or]

theorem scanNumeral_fixed (negative : Bool) (whole width n : ℕ) :
    scanNumeral (signText negative ++ decimal whole ++ (('.' : UInt8) :: fixedDigits width n)) =
      some (negative, .ratio (whole * 10 ^ width + n % 10 ^ width) (10 ^ width)) := by
  obtain ⟨c, rest, front, digit⟩ := decimal_eq_cons whole
  have scanned := scanDecimal_fixed whole width n
  rw [front] at scanned
  rw [front, List.append_assoc, List.cons_append, scanNumeral_digit negative digit, ← List.cons_append, scanned]
  · rfl
  · have others : ∀ c ∈ rest, isDigit c = true := fun c member =>
      decimal_isDigit whole c (front ▸ List.mem_cons_of_mem _ member)
    cases rest with
    | nil => exact fun same => absurd (Option.some.inj same) (by decide)
    | cons mark rest =>
      have other := others mark List.mem_cons_self
      simp only [List.cons_append, List.map_cons, List.head?_cons, toLower_digit other, ne_eq, Option.some.injEq]
      rintro rfl
      exact absurd other (by decide)

/-- Six printed decimals are scanned as the printed number of millionths. -/
theorem scanNumeral_printRatio (negative : Bool) (num den : ℕ) :
    scanNumeral (printRatio 6 negative num den) =
      some (negative, .ratio (divRoundEven (num * 10 ^ 6) den) (10 ^ 6)) := by
  rw [printRatio, scanNumeral_fixed, Nat.mod_mod]
  congr 3
  exact Nat.div_add_mod' _ _

/-! ## Leading exponents -/

private theorem toNat_zpow (x : ℤ) : (2 : ℚ) ^ x.toNat = 2 ^ x * 2 ^ (-x).toNat := by
  have split : (x.toNat : ℤ) = x + (-x).toNat := by omega
  rw [← zpow_natCast, split, zpow_add₀ two_ne_zero, zpow_natCast]

private theorem cross_le (a b : ℕ) (x : ℤ) : b * 2 ^ x.toNat ≤ a * 2 ^ (-x).toNat ↔ (b : ℚ) * 2 ^ x ≤ a := by
  have positive : (0 : ℚ) < 2 ^ (-x).toNat := by positivity
  rw [← Nat.cast_le (α := ℚ)]
  push_cast
  rw [toNat_zpow x, ← mul_assoc, mul_le_mul_iff_left₀ positive]

/-- The leading exponent brackets the fraction between two powers of two. -/
theorem leadingExponent_bounds {num den : ℕ} (numerator : 0 < num) (denominator : 0 < den) :
    (den : ℚ) * 2 ^ leadingExponent num den ≤ num ∧ (num : ℚ) < den * 2 ^ (leadingExponent num den + 1) := by
  have numLow : (2 : ℚ) ^ (Nat.log2 num : ℤ) ≤ num := by
    rw [zpow_natCast]
    exact_mod_cast Nat.log2_self_le (Nat.ne_of_gt numerator)
  have numHigh : (num : ℚ) < 2 ^ ((Nat.log2 num : ℤ) + 1) := by
    have bound : num < 2 ^ (Nat.log2 num + 1) := Nat.lt_log2_self
    exact_mod_cast bound
  have denLow : (2 : ℚ) ^ (Nat.log2 den : ℤ) ≤ den := by
    rw [zpow_natCast]
    exact_mod_cast Nat.log2_self_le (Nat.ne_of_gt denominator)
  have denHigh : (den : ℚ) < 2 ^ ((Nat.log2 den : ℤ) + 1) := by
    have bound : den < 2 ^ (Nat.log2 den + 1) := Nat.lt_log2_self
    exact_mod_cast bound
  unfold leadingExponent
  simp only [cross_le]
  split
  · next fits =>
    refine ⟨fits, ?_⟩
    calc (num : ℚ) < 2 ^ ((Nat.log2 num : ℤ) + 1) := numHigh
      _ = 2 ^ (Nat.log2 den : ℤ) * 2 ^ ((Nat.log2 num : ℤ) - Nat.log2 den + 1) := by
        rw [← zpow_add₀ two_ne_zero]
        congr 1
        ring
      _ ≤ den * 2 ^ ((Nat.log2 num : ℤ) - Nat.log2 den + 1) := by gcongr
  · next above =>
    constructor
    · calc (den : ℚ) * 2 ^ ((Nat.log2 num : ℤ) - Nat.log2 den - 1)
          ≤ 2 ^ ((Nat.log2 den : ℤ) + 1) * 2 ^ ((Nat.log2 num : ℤ) - Nat.log2 den - 1) := by gcongr
        _ = 2 ^ (Nat.log2 num : ℤ) := by
          rw [← zpow_add₀ two_ne_zero]
          congr 1
          ring
        _ ≤ num := numLow
    · rw [sub_add_cancel]
      exact not_le.mp above

/-! ## Rounding -/

theorem divRoundEven_le {a b k : ℕ} (below : a < k * b) : divRoundEven a b ≤ k := by
  have quotient : a / b < k := Nat.div_lt_of_lt_mul (Nat.mul_comm k b ▸ below)
  simp only [divRoundEven]
  split_ifs <;> omega

private theorem le_divRoundEven {a b k : ℕ} (positive : 0 < b) (above : k * b ≤ a) : k ≤ divRoundEven a b := by
  have quotient : k ≤ a / b := (Nat.le_div_iff_mul_le positive).mpr above
  simp only [divRoundEven]
  split_ifs <;> omega

theorem divRoundEven_mul (k : ℕ) {b : ℕ} (positive : 0 < b) : divRoundEven (k * b) b = k := by
  simp only [divRoundEven, Nat.mul_mod_left, Nat.mul_zero, if_pos positive]
  exact Nat.mul_div_cancel _ positive

/-- A datum of a format: at most the full significand, and below the overflow threshold. -/
def Flt.Fits (format : FloatFormat) : Flt → Prop
  | .finite _ mantissa exponent => mantissa ≤ 2 ^ format.precision ∧
      mantissa * 2 ^ exponent.toNat < 2 ^ format.maxExponent * 2 ^ (-exponent).toNat
  | _ => True

theorem FloatFormat.fits_round (format : FloatFormat) (negative : Bool) (num : ℕ) {den : ℕ} (positive : 0 < den) :
    (format.round negative num den).Fits format := by
  unfold FloatFormat.round
  simp only
  split
  · next bounded =>
    refine ⟨?_, bounded⟩
    rcases Nat.eq_zero_or_pos num with rfl | numerator
    · have denominator : 0 < den * 2 ^ (format.quantum 0 den).toNat := by positivity
      have zero := divRoundEven_mul 0 denominator
      rw [Nat.zero_mul] at zero
      rw [Nat.zero_mul, zero]
      exact Nat.zero_le _
    · apply divRoundEven_le
      rw [← Nat.mul_assoc]
      apply not_le.mp
      rw [cross_le, not_le]
      push_cast
      calc (num : ℚ) < den * 2 ^ (leadingExponent num den + 1) := (leadingExponent_bounds numerator positive).2
        _ ≤ den * 2 ^ ((format.precision : ℤ) + format.quantum num den) := by
          have above : leadingExponent num den + 1 - format.precision ≤ format.quantum num den := le_max_right _ _
          refine mul_le_mul_of_nonneg_left (zpow_le_zpow_right₀ one_le_two ?_) (Nat.cast_nonneg den)
          omega
        _ = 2 ^ format.precision * den * 2 ^ format.quantum num den := by
          rw [zpow_add₀ two_ne_zero, zpow_natCast]
          ring
  · trivial

/-- A value below half the threshold stays finite, whatever the rounding. -/
theorem FloatFormat.isFinite_round (format : FloatFormat) (negative : Bool) {num den : ℕ}
    (small : 2 * num < 2 ^ format.maxExponent * den) : (format.round negative num den).isFinite = true := by
  unfold FloatFormat.round
  simp only
  rw [if_pos]
  · rfl
  · have doubled := divRoundEven_mul_le (num * 2 ^ (-format.quantum num den).toNat)
      (den * 2 ^ (format.quantum num den).toNat)
    have scale : 0 < 2 ^ (-format.quantum num den).toNat := by positivity
    refine lt_of_mul_lt_mul_left ?_ (Nat.zero_le den)
    calc den * (divRoundEven (num * 2 ^ (-format.quantum num den).toNat)
            (den * 2 ^ (format.quantum num den).toNat) * 2 ^ (format.quantum num den).toNat)
        = divRoundEven (num * 2 ^ (-format.quantum num den).toNat) (den * 2 ^ (format.quantum num den).toNat) *
            (den * 2 ^ (format.quantum num den).toNat) := by ring
      _ ≤ 2 * (num * 2 ^ (-format.quantum num den).toNat) := doubled
      _ = 2 * num * 2 ^ (-format.quantum num den).toNat := by ring
      _ < 2 ^ format.maxExponent * den * 2 ^ (-format.quantum num den).toNat :=
        Nat.mul_lt_mul_of_pos_right small scale
      _ = den * (2 ^ format.maxExponent * 2 ^ (-format.quantum num den).toNat) := by ring

/-! ## Range errors -/

/-- Nothing from a millionth on is subnormal. -/
private theorem normal_round {num den : ℕ} (numerator : 0 < num) (denominator : 0 < den)
    (large : den ≤ num * 2 ^ 20) {sign negative : Bool} {mantissa : ℕ} {exponent : ℤ}
    (rounded : binary32.round sign num den = .finite negative mantissa exponent) :
    2 ^ 23 * 2 ^ (-exponent).toNat ≤ mantissa * 2 ^ exponent.toNat * 2 ^ 149 := by
  obtain ⟨low, high⟩ := leadingExponent_bounds numerator denominator
  have leading : -20 ≤ leadingExponent num den := by
    by_contra below
    have power : (2 : ℚ) ^ (leadingExponent num den + 1) ≤ 2 ^ (-20 : ℤ) :=
      zpow_le_zpow_right₀ one_le_two (by omega)
    have large : (den : ℚ) ≤ num * 2 ^ 20 := by exact_mod_cast large
    have small : (num : ℚ) < den * 2 ^ (-20 : ℤ) :=
      lt_of_lt_of_le high (mul_le_mul_of_nonneg_left power (by positivity))
    have scaled : (2 : ℚ) ^ (-20 : ℤ) = 1 / 2 ^ 20 := by norm_num
    rw [scaled, mul_one_div, lt_div_iff₀ (by positivity)] at small
    exact absurd large (not_le.mpr small)
  have quantum : binary32.quantum num den = leadingExponent num den - 23 := by
    simp only [FloatFormat.quantum, binary32]
    omega
  unfold FloatFormat.round at rounded
  simp only at rounded
  split at rounded
  · injection rounded with _ significand scale
    subst scale significand
    have full : 2 ^ 23 ≤ divRoundEven (num * 2 ^ (-binary32.quantum num den).toNat)
        (den * 2 ^ (binary32.quantum num den).toNat) := by
      apply le_divRoundEven (by positivity)
      rw [← Nat.mul_assoc, cross_le]
      calc ((2 ^ 23 * den : ℕ) : ℚ) * 2 ^ binary32.quantum num den
          = den * 2 ^ leadingExponent num den := by
            rw [quantum, zpow_sub₀ two_ne_zero]
            push_cast
            ring
        _ ≤ num := low
    have shift : 2 ^ (-binary32.quantum num den).toNat ≤ 2 ^ (binary32.quantum num den).toNat * 2 ^ 149 := by
      rw [← pow_add]
      apply Nat.pow_le_pow_right (by decide)
      omega
    calc 2 ^ 23 * 2 ^ (-binary32.quantum num den).toNat
        ≤ divRoundEven (num * 2 ^ (-binary32.quantum num den).toNat)
            (den * 2 ^ (binary32.quantum num den).toNat) *
            (2 ^ (binary32.quantum num den).toNat * 2 ^ 149) := Nat.mul_le_mul full shift
      _ = _ := by ring
  · cases rounded

/-- A text of millionths that rounds to something finite is read without a range error. -/
private theorem stof_of_finite {text : Str} {negative : Bool} {scaled : ℕ}
    (scanned : scanNumeral text = some (negative, .ratio scaled (10 ^ 6)))
    (finite : (binary32.round false scaled (10 ^ 6)).isFinite = true) : ∃ x, stof text = .ok x := by
  rw [stof, scanned]
  simp only
  by_cases zero : scaled = 0
  · rw [if_neg (by simp [zero])]
    exact ⟨_, rfl⟩
  · have accepted : rangeError binary32 scaled (10 ^ 6) = false := by
      cases rounded : binary32.round false scaled (10 ^ 6) with
      | nan negative => rw [rounded] at finite; cases finite
      | inf negative => rw [rounded] at finite; cases finite
      | finite negative mantissa exponent =>
        have large : 10 ^ 6 ≤ scaled * 2 ^ 20 := by omega
        have normal := normal_round (Nat.pos_of_ne_zero zero) (by decide) large rounded
        simp only [rangeError, rounded, Flt.isFinite, Flt.num, Flt.den, Bool.not_true, Bool.false_or,
          Bool.and_eq_false_imp, decide_eq_true_eq]
        intro subnormal
        exact absurd normal (not_le.mpr subnormal)
    rw [if_neg fun failed => by rw [accepted] at failed; cases failed.2]
    exact ⟨_, rfl⟩

/-- The text of a number of moderate size is read back. -/
theorem stof_printRatio (negative : Bool) {num den : ℕ} (small : num < 2 ^ 126 * den) :
    ∃ x, stof (printRatio 6 negative num den) = .ok x := by
  refine stof_of_finite (scanNumeral_printRatio negative num den) (FloatFormat.isFinite_round _ _ ?_)
  have doubled := divRoundEven_mul_le (num * 10 ^ 6) den
  refine lt_of_mul_lt_mul_left ?_ (Nat.zero_le den)
  calc den * (2 * divRoundEven (num * 10 ^ 6) den)
      = 2 * (divRoundEven (num * 10 ^ 6) den * den) := by ring
    _ ≤ 2 * (2 * (num * 10 ^ 6)) := Nat.mul_le_mul_left 2 doubled
    _ = 4 * 10 ^ 6 * num := by ring
    _ < 4 * 10 ^ 6 * (2 ^ 126 * den) := Nat.mul_lt_mul_of_pos_left small (by decide)
    _ = den * (2 ^ binary32.maxExponent * 10 ^ 6) := by
      simp only [binary32]
      ring

/-- Half of the finite range and more is a multiple of the unit in the last place there. -/
private theorem large_dvd {mantissa : ℕ} {exponent : ℕ} (significand : mantissa ≤ 2 ^ 24)
    (large : 2 ^ 127 ≤ mantissa * 2 ^ exponent) : 2 ^ 104 ∣ mantissa * 2 ^ exponent := by
  by_cases above : 104 ≤ exponent
  · exact Dvd.dvd.mul_left (pow_dvd_pow 2 above) mantissa
  · have scale : 2 ^ exponent ≤ 2 ^ 103 := Nat.pow_le_pow_right (by decide) (by omega)
    have whole : mantissa * 2 ^ exponent = 2 ^ 127 := by
      refine le_antisymm ?_ large
      calc mantissa * 2 ^ exponent ≤ 2 ^ 24 * 2 ^ 103 := Nat.mul_le_mul significand scale
        _ = 2 ^ 127 := by decide
    rw [whole]
    exact pow_dvd_pow 2 (by decide)

private theorem leadingExponent_large {magnitude : ℕ} (large : 2 ^ 127 ≤ magnitude) (bounded : magnitude < 2 ^ 128)
    {unit : ℕ} (positive : 0 < unit) : leadingExponent (magnitude * unit) unit = 127 := by
  have numerator : 0 < magnitude * unit := Nat.mul_pos (by omega) positive
  have scale : (0 : ℚ) < unit := by exact_mod_cast positive
  obtain ⟨low, high⟩ := leadingExponent_bounds numerator positive
  rw [Nat.cast_mul, mul_comm, mul_le_mul_iff_left₀ scale] at low
  rw [Nat.cast_mul, mul_comm (unit : ℚ), mul_lt_mul_iff_left₀ scale] at high
  have below : (2 : ℚ) ^ leadingExponent (magnitude * unit) unit < 2 ^ (128 : ℤ) :=
    lt_of_le_of_lt low (by exact_mod_cast bounded)
  have above : (2 : ℚ) ^ (127 : ℤ) < 2 ^ (leadingExponent (magnitude * unit) unit + 1) :=
    lt_of_le_of_lt (by exact_mod_cast large) high
  rw [zpow_lt_zpow_iff_right₀ one_lt_two] at below above
  omega

private theorem isFinite_round_large {magnitude : ℕ} (large : 2 ^ 127 ≤ magnitude) (bounded : magnitude < 2 ^ 128)
    (multiple : 2 ^ 104 ∣ magnitude) : (binary32.round false (magnitude * 10 ^ 6) (10 ^ 6)).isFinite = true := by
  have quantum : binary32.quantum (magnitude * 10 ^ 6) (10 ^ 6) = 104 := by
    simp only [FloatFormat.quantum, leadingExponent_large large bounded (by decide : 0 < 10 ^ 6)]
    rfl
  obtain ⟨k, rfl⟩ := multiple
  have whole : divRoundEven (2 ^ 104 * k * 10 ^ 6 * 2 ^ (-104 : ℤ).toNat) (10 ^ 6 * 2 ^ (104 : ℤ).toNat) = k := by
    have scaled : 2 ^ 104 * k * 10 ^ 6 * 2 ^ (-104 : ℤ).toNat = k * (10 ^ 6 * 2 ^ (104 : ℤ).toNat) := by
      change 2 ^ 104 * k * 10 ^ 6 * 1 = k * (10 ^ 6 * 2 ^ 104)
      ring
    rw [scaled]
    exact divRoundEven_mul k (by decide)
  unfold FloatFormat.round
  simp only [quantum, whole]
  rw [if_pos]
  · rfl
  · change k * 2 ^ 104 < 2 ^ 128 * 1
    omega

/-- Every datum of the format is read back from its text. -/
theorem stof_floatToString {x : Flt} (fits : x.Fits binary32) : ∃ y, stof (floatToString x) = .ok y := by
  cases x with
  | nan negative => cases negative <;> exact ⟨_, rfl⟩
  | inf negative => cases negative <;> exact ⟨_, rfl⟩
  | finite negative mantissa exponent =>
    obtain ⟨significand, bounded⟩ := fits
    change mantissa ≤ 2 ^ 24 at significand
    change mantissa * 2 ^ exponent.toNat < 2 ^ 128 * 2 ^ (-exponent).toNat at bounded
    change ∃ y, stof (printRatio 6 negative (mantissa * 2 ^ exponent.toNat) (2 ^ (-exponent).toNat)) = .ok y
    rcases lt_or_ge exponent 0 with fraction | integer
    · have noScale : exponent.toNat = 0 := by omega
      have unit : 1 ≤ 2 ^ (-exponent).toNat := Nat.one_le_two_pow
      refine stof_printRatio negative ?_
      rw [noScale]
      omega
    · have noFraction : (-exponent).toNat = 0 := by omega
      rw [noFraction] at bounded ⊢
      have scanned := scanNumeral_printRatio negative (mantissa * 2 ^ exponent.toNat) (2 ^ 0)
      have printed : divRoundEven (mantissa * 2 ^ exponent.toNat * 10 ^ 6) (2 ^ 0) =
          mantissa * 2 ^ exponent.toNat * 10 ^ 6 := by
        have whole := divRoundEven_mul (mantissa * 2 ^ exponent.toNat * 10 ^ 6) Nat.one_pos
        rwa [Nat.mul_one] at whole
      rw [printed] at scanned
      refine stof_of_finite scanned ?_
      rcases lt_or_ge (mantissa * 2 ^ exponent.toNat) (2 ^ 127) with small | large
      · apply FloatFormat.isFinite_round
        change 2 * (mantissa * 2 ^ exponent.toNat * 10 ^ 6) < 2 ^ 128 * 10 ^ 6
        omega
      · exact isFinite_round_large large (by simpa using bounded) (large_dvd significand large)

/-! ## Data of a format -/

namespace Flt

theorem den_pos (x : Flt) : 0 < x.den := by
  cases x <;> simp [den]

theorem fits_convert (format : FloatFormat) (x : Flt) : (x.convert format).Fits format := by
  cases x with
  | nan negative => trivial
  | inf negative => trivial
  | finite negative mantissa exponent => exact format.fits_round _ _ (den_pos _)

theorem fits_ofInt (format : FloatFormat) (n : ℤ) : (ofInt format n).Fits format :=
  format.fits_round _ _ Nat.one_pos

theorem fits_mul (format : FloatFormat) (x y : Flt) : (mul format x y).Fits format := by
  unfold mul
  split
  · trivial
  · trivial
  · split
    · exact format.fits_round _ _ (Nat.mul_pos (den_pos x) (den_pos y))
    · split <;> trivial

end Flt

theorem printRatio_ne_nil (decimals : ℕ) (negative : Bool) (num den : ℕ) : printRatio decimals negative num den ≠ [] := by
  simp [printRatio, decimal_ne_nil]

theorem floatToString_ne_nil (x : Flt) : floatToString x ≠ [] := by
  cases x with
  | nan negative => cases negative <;> decide
  | inf negative => cases negative <;> decide
  | finite negative mantissa exponent => exact printRatio_ne_nil 6 _ _ _

/-! ## Magnitudes -/

/-- Rounding at most doubles a magnitude. -/
theorem FloatFormat.num_round_le (format : FloatFormat) (negative : Bool) (num den : ℕ) :
    (format.round negative num den).num * den ≤ 2 * num * (format.round negative num den).den := by
  unfold FloatFormat.round
  simp only
  split
  · have doubled := divRoundEven_mul_le (num * 2 ^ (-format.quantum num den).toNat)
      (den * 2 ^ (format.quantum num den).toNat)
    calc divRoundEven (num * 2 ^ (-format.quantum num den).toNat) (den * 2 ^ (format.quantum num den).toNat) *
          2 ^ (format.quantum num den).toNat * den
        = divRoundEven (num * 2 ^ (-format.quantum num den).toNat) (den * 2 ^ (format.quantum num den).toNat) *
            (den * 2 ^ (format.quantum num den).toNat) := by ring
      _ ≤ 2 * (num * 2 ^ (-format.quantum num den).toNat) := doubled
      _ = 2 * num * 2 ^ (-format.quantum num den).toNat := by ring
  · simp [Flt.num]

theorem FloatFormat.isFinite_round_sign (format : FloatFormat) (negative other : Bool) (num den : ℕ) :
    (format.round negative num den).isFinite = (format.round other num den).isFinite := by
  unfold FloatFormat.round
  simp only
  split <;> rfl

namespace Flt

theorem fits_add (format : FloatFormat) (x y : Flt) : (add format x y).Fits format := by
  unfold add
  split
  · trivial
  · trivial
  · split <;> trivial
  · trivial
  · trivial
  · simp only
    split
    · exact ⟨Nat.zero_le _, by simp⟩
    · exact format.fits_round _ _ (Nat.mul_pos (den_pos x) (den_pos y))

theorem fits_sub (format : FloatFormat) (x y : Flt) : (sub format x y).Fits format := by
  unfold sub
  split
  · split <;> trivial
  · exact fits_add format x _

/-- A finite datum minus itself is zero. -/
theorem isFinite_sub_self (format : FloatFormat) {x : Flt} (finite : x.isFinite = true) :
    (sub format x x).isFinite = true := by
  cases x with
  | nan negative => cases finite
  | inf negative => cases finite
  | finite negative mantissa exponent =>
    have cancels : (Flt.finite negative mantissa exponent).signedNum * (Flt.finite (!negative) mantissa exponent).den +
        (Flt.finite (!negative) mantissa exponent).signedNum * (Flt.finite negative mantissa exponent).den = 0 := by
      cases negative <;> simp [signedNum, isNegative, num, den]
    simp only [sub, add, negate, cancels, ↓reduceIte]
    rfl

end Flt

/-! ## The point -/

private theorem dropWhile_take_eq_nil {front back : Str} {c : UInt8} (apart : c ∉ front) (limit : ℕ) :
    ((front ++ c :: back).take limit).dropWhile (· ≠ c) = [] ↔ limit ≤ front.length := by
  induction front generalizing limit with
  | nil => cases limit <;> simp
  | cons first rest ih =>
    obtain ⟨other, others⟩ := not_or.mp (List.mem_cons.not.mp apart)
    cases limit with
    | zero => simp
    | succ limit =>
      have skipped : decide (first ≠ c) = true := by simpa using Ne.symm other
      rw [List.cons_append, List.take_succ_cons, List.dropWhile_cons, if_pos skipped, ih others, List.length_cons]
      omega

private theorem point_not_mem_decimal (n : ℕ) : ('.' : UInt8) ∉ decimal n := fun member =>
  absurd (decimal_isDigit n _ member) (by decide)

/-- A front part of a printed number has no point exactly when it ends within sign and digits. -/
theorem dropWhile_take_printRatio (decimals : ℕ) (negative : Bool) (num den limit : ℕ) :
    ((printRatio decimals negative num den).take limit).dropWhile (· ≠ ('.' : UInt8)) = [] ↔
      limit ≤ (signText negative).length + (decimal (divRoundEven (num * 10 ^ decimals) den / 10 ^ decimals)).length := by
  have apart : ('.' : UInt8) ∉ signText negative ++ decimal (divRoundEven (num * 10 ^ decimals) den / 10 ^ decimals) := by
    rw [List.mem_append, not_or]
    exact ⟨by cases negative <;> decide, point_not_mem_decimal _⟩
  rw [printRatio, dropWhile_take_eq_nil apart, List.length_append]

theorem digitsValue_lt {digits : Str} (all : ∀ c ∈ digits, isDigit c = true) :
    digitsValue digits < 10 ^ digits.length := by
  induction digits with
  | nil => decide
  | cons c rest ih =>
    obtain ⟨own, others⟩ := List.forall_mem_cons.mp all
    have smaller := ih others
    have value : digitValue c ≤ 9 := by
      simp only [isDigit, Bool.and_eq_true, decide_eq_true_eq] at own
      rw [digitValue]
      omega
    have split := digitsValue_append [c] rest
    have single : digitsValue [c] = digitValue c := by simp [digitsValue]
    rw [List.singleton_append, single] at split
    rw [split, List.length_cons, pow_succ]
    have scaled := Nat.mul_le_mul_right (10 ^ rest.length) value
    omega

theorem decimal_length_le_iff {n k : ℕ} : (decimal n).length ≤ k + 1 ↔ n < 10 ^ (k + 1) := by
  refine ⟨fun short => ?_, decimal_length_le⟩
  have value := digitsValue_lt (decimal_isDigit n)
  rw [digitsValue_decimal] at value
  exact lt_of_lt_of_le value (Nat.pow_le_pow_right (by decide) short)

end OsuTracker.Cxx
