import OsuTracker.Soundness.Formatting

/-! # Formatted integers

The separator loop cuts groups of three from the right end of the numeral and stops at a front of
one to three digits. What stands before the separators is always still a prefix of the numeral, so
the groups put together are the numeral again; the sign and the digits then give the number back.
-/

namespace OsuTracker.Soundness.NumberFormat

open Cxx Model.Core.Formatter Formatting

/-! ## Numerals in groups -/

/-- The decimal numeral of a number, without leading zeros. -/
structure Numeral (n : ℕ) (digits : Str) : Prop where
  digit : ∀ c ∈ digits, isDigit c = true
  value : digitsValue digits = n
  leading : digits.head? = some ('0' : UInt8) → digits = ("0" : Str)

/-- A front of one to three digits and later groups of exactly three. -/
structure Groups (groups : List Str) : Prop where
  nonempty : groups ≠ []
  front : ∀ group, groups.head? = some group → 1 ≤ group.length ∧ group.length ≤ 3
  later : ∀ group ∈ groups.tail, group.length = 3

/-- Digit groups with commas between them that are a numeral once the commas are deleted. -/
def Grouped (n : ℕ) (text : Str) : Prop :=
  ∃ groups, Groups groups ∧ (∀ group ∈ groups, ∀ c ∈ group, isDigit c = true) ∧
    text = [(',' : UInt8)].intercalate groups ∧ Numeral n (text.filter (· ≠ (',' : UInt8)))

/-- The sign in front of a formatted number. -/
def sign (v : Int64) (showPlus : Bool) : Str :=
  if v < 0 then ("-" : Str) else if showPlus then ("+" : Str) else []

theorem decimal_leading (n : ℕ) (zero : (decimal n).head? = some ('0' : UInt8)) : decimal n = ("0" : Str) := by
  induction n using Nat.strong_induction_on with
  | _ n ih =>
    rw [decimal_eq] at zero ⊢
    split
    · next small =>
      rw [if_pos small] at zero
      rw [Option.some.inj zero]
      rfl
    · next large =>
      rw [if_neg large, List.head?_append_of_ne_nil _ (decimal_ne_nil _)] at zero
      have front := congrArg digitsValue (ih (n / 10) (by omega) zero)
      rw [digitsValue_decimal] at front
      have none : n / 10 = 0 := front.trans (by decide)
      omega

theorem numeral_decimal (n : ℕ) : Numeral n (decimal n) :=
  ⟨decimal_isDigit n, digitsValue_decimal n, decimal_leading n⟩

/-! ## The separator loop -/

theorem intercalate_append_singleton (separator : Str) {groups : List Str} (nonempty : groups ≠ []) (last : Str) :
    separator.intercalate (groups ++ [last]) = separator.intercalate groups ++ separator ++ last := by
  induction groups with
  | nil => exact absurd rfl nonempty
  | cons group rest ih =>
    cases rest with
    | nil => simp only [List.cons_append, List.nil_append, List.intercalate_cons_cons, List.intercalate_singleton]
    | cons next others =>
      have tail := ih (List.cons_ne_nil _ _)
      simp only [List.cons_append, List.intercalate_cons_cons, List.append_assoc] at tail ⊢
      rw [tail]

theorem Groups.singleton {group : Str} (low : 1 ≤ group.length) (high : group.length ≤ 3) : Groups [group] where
  nonempty := List.cons_ne_nil _ _
  front other first := by
    cases first
    exact ⟨low, high⟩
  later := nofun

theorem Groups.append {groups : List Str} (front : Groups groups) {last : Str} (three : last.length = 3) :
    Groups (groups ++ [last]) where
  nonempty := by simp
  front group first := by
    rw [List.head?_append_of_ne_nil _ front.nonempty] at first
    exact front.front group first
  later group member := by
    rw [List.tail_append_of_ne_nil front.nonempty] at member
    rcases List.mem_append.mp member with old | new
    · exact front.later group old
    · rw [List.mem_singleton.mp new]
      exact three

/-- The last comma of the loop. -/
private theorem insertComma_eq {position : ℕ} {str : Str} (low : 1 ≤ position) (high : position ≤ 3)
    (bound : position ≤ str.length) : ∃ groups, Groups groups ∧ groups.flatten = str.take position ∧
      insertComma position str = [(',' : UInt8)].intercalate groups ++ (',' : UInt8) :: str.drop position := by
  have length : (str.take position).length = position := List.length_take_of_le bound
  refine ⟨[str.take position], .singleton (by omega) (by omega), by simp, ?_⟩
  rw [List.intercalate_singleton]
  rfl

/-- The loop cuts what stands before its position into groups and leaves the rest alone. -/
theorem insertCommas_eq {position : ℕ} {str : Str} (positive : 0 < position) (bound : position ≤ str.length) :
    ∃ groups, Groups groups ∧ groups.flatten = str.take position ∧
      insertCommas position str = [(',' : UInt8)].intercalate groups ++ (',' : UInt8) :: str.drop position := by
  fun_induction insertCommas position str with
  | case1 => omega
  | case2 | case3 | case4 => exact insertComma_eq (by decide) (by decide) bound
  | case5 n str ih =>
    -- the groups of what is left of the comma just inserted, and the three digits up to it
    have left : (insertComma (n + 4) str).take (n + 1) = str.take (n + 1) := by
      rw [insertComma, List.take_append_of_le_length (by rw [List.length_take]; omega), List.take_take]
      congr 1
      omega
    have right : (insertComma (n + 4) str).drop (n + 1) =
        (str.take (n + 4)).drop (n + 1) ++ (',' : UInt8) :: str.drop (n + 4) := by
      rw [insertComma, List.drop_append_of_le_length (by rw [List.length_take]; omega)]
    have longer : n + 1 ≤ (insertComma (n + 4) str).length := by
      simp only [insertComma, List.length_append, List.length_take, List.length_cons]
      omega
    have three : ((str.take (n + 4)).drop (n + 1)).length = 3 := by
      rw [List.length_drop, List.length_take]
      omega
    have split := List.take_append_drop (n + 1) (str.take (n + 4))
    rw [List.take_take, Nat.min_eq_left (by omega)] at split
    obtain ⟨groups, shape, whole, text⟩ := ih (by omega) longer
    refine ⟨groups ++ [(str.take (n + 4)).drop (n + 1)], shape.append three, ?_, ?_⟩
    · rw [List.flatten_append, whole, left, List.flatten_singleton]
      exact split
    · rw [text, right, intercalate_append_singleton _ shape.nonempty, List.append_assoc, List.append_assoc]
      rfl

/-- Grouping cuts the whole text. -/
theorem groupDigits_eq {str : Str} (nonempty : str ≠ []) :
    ∃ groups, Groups groups ∧ groups.flatten = str ∧ groupDigits str = [(',' : UInt8)].intercalate groups := by
  by_cases short : str.length ≤ 3
  · have none : str.length - 3 = 0 := by omega
    refine ⟨[str], .singleton (List.length_pos_iff.mpr nonempty) short, by simp, ?_⟩
    rw [groupDigits, none, List.intercalate_singleton]
    rfl
  · have last : (str.drop (str.length - 3)).length = 3 := by
      rw [List.length_drop]
      omega
    have bound : str.length - 3 ≤ str.length := by omega
    obtain ⟨groups, shape, whole, text⟩ := insertCommas_eq (by omega) bound
    refine ⟨groups ++ [str.drop (str.length - 3)], shape.append last, ?_, ?_⟩
    · rw [List.flatten_append, whole, List.flatten_singleton, List.take_append_drop]
    · rw [groupDigits, text, intercalate_append_singleton _ shape.nonempty, List.append_assoc]
      rfl

theorem grouped_groupDigits (n : ℕ) : Grouped n (groupDigits (decimal n)) := by
  obtain ⟨groups, shape, whole, text⟩ := groupDigits_eq (decimal_ne_nil n)
  refine ⟨groups, shape, fun group member c inside => ?_, text, ?_⟩
  · refine decimal_isDigit n c ?_
    rw [← whole]
    exact List.mem_flatten_of_mem member inside
  · rw [filter_groupDigits]
    exact numeral_decimal n

/-! ## Formatted numbers -/

/-- What stands in front of a number is no digit. -/
theorem filter_isDigit_grouped (n : ℕ) (v : Int64) (showPlus : Bool) {c : Str} (hash : c = [] ∨ c = ("#" : Str)) :
    (sign v showPlus ++ c ++ groupDigits (decimal n)).filter isDigit = decimal n := by
  have signs : (sign v showPlus).filter isDigit = [] := by
    rw [sign]
    split
    · decide
    · split <;> decide
  have hashes : c.filter isDigit = [] := by rcases hash with rfl | rfl <;> decide
  have digits : (groupDigits (decimal n)).filter isDigit = decimal n := by
    have comma (c : UInt8) (digit : isDigit c = true) : c ≠ (',' : UInt8) := by
      rintro rfl
      exact absurd digit (by decide)
    have twice : ((groupDigits (decimal n)).filter (· ≠ (',' : UInt8))).filter isDigit = decimal n := by
      rw [filter_groupDigits, List.filter_eq_self]
      exact decimal_isDigit n
    rw [List.filter_filter] at twice
    refine (List.filter_congr fun c _ => ?_).trans twice
    by_cases digit : isDigit c = true
    · simp [digit, comma c digit]
    · simp [digit]
  rw [List.filter_append, List.filter_append, signs, hashes, digits]
  rfl

theorem formatNumber_eq {text : Str} {v : Int64} (read : stoll text = .ok v) (showPlus : Bool) {c : Str}
    (hash : c = [] ∨ c = ("#" : Str)) :
    formatNumber text showPlus c = sign v showPlus ++ c ++ groupDigits (decimal v.toInt.natAbs) := by
  have marked : (if c = ("#" : Str) then ('#' : UInt8) :: groupDigits (decimal v.toInt.natAbs)
      else groupDigits (decimal v.toInt.natAbs)) = c ++ groupDigits (decimal v.toInt.natAbs) := by
    rcases hash with rfl | rfl <;> rfl
  simp only [formatNumber, read, marked, sign]
  split
  · rfl
  · split <;> rfl

/-- A formatted number starts with a minus sign exactly when it is negative. -/
theorem head_formatted (v : Int64) (showPlus : Bool) {c : Str} (hash : c = [] ∨ c = ("#" : Str)) :
    (sign v showPlus ++ c ++ groupDigits (decimal v.toInt.natAbs)).head? = some ('-' : UInt8) ↔ v < 0 := by
  rw [sign]
  split
  · next negative => exact iff_of_true rfl negative
  · next positive =>
    refine iff_of_false ?_ positive
    split
    · rw [List.append_assoc]
      exact fun first => absurd (Option.some.inj first) (by decide)
    · rcases hash with rfl | rfl
      · intro first
        have digit := decimal_isDigit v.toInt.natAbs ('-' : UInt8) (by
          rw [← filter_groupDigits]
          exact List.mem_filter.mpr ⟨List.mem_of_head? first, by decide⟩)
        exact absurd digit (by decide)
      · exact fun first => absurd (Option.some.inj first) (by decide)

/-- The text of a number shows it exactly, and no two numbers have one text. -/
theorem formatNumber_exact (showPlus : Bool) {c : Str} (hash : c = [] ∨ c = ("#" : Str)) :
    (∀ text v, stoll text = .ok v → ∃ number, Grouped v.toInt.natAbs number ∧
      formatNumber text showPlus c = sign v showPlus ++ c ++ number) ∧
    ∀ text other v w, stoll text = .ok v → stoll other = .ok w →
      formatNumber text showPlus c = formatNumber other showPlus c → v = w := by
  refine ⟨fun text v read => ⟨_, grouped_groupDigits _, formatNumber_eq read showPlus hash⟩, ?_⟩
  intro text other v w read readOther same
  rw [formatNumber_eq read showPlus hash, formatNumber_eq readOther showPlus hash] at same
  have magnitude : v.toInt.natAbs = w.toInt.natAbs := by
    have digits := congrArg (fun s => digitsValue (s.filter isDigit)) same
    simpa only [filter_isDigit_grouped _ _ _ hash, digitsValue_decimal] using digits
  have negative : v < 0 ↔ w < 0 := by
    rw [← head_formatted v showPlus hash, same, head_formatted w showPlus hash]
  rw [Int64.lt_iff_toInt_lt, Int64.lt_iff_toInt_lt] at negative
  have zero : (0 : Int64).toInt = 0 := rfl
  exact Int64.toInt_inj.mp (by omega)

theorem formatNumber_exact_rank :
    (∀ text v, stoll text = .ok v → ∃ number, Grouped v.toInt.natAbs number ∧
      formatNumber text false "#" = sign v false ++ ("#" : Str) ++ number) ∧
    ∀ text other v w, stoll text = .ok v → stoll other = .ok w →
      formatNumber text false "#" = formatNumber other false "#" → v = w :=
  formatNumber_exact false (.inr rfl)

example : formatNumber "-9223372036854775808" true = "-9,223,372,036,854,775,808" := by decide +kernel

end OsuTracker.Soundness.NumberFormat
