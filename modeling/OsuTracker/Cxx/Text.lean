import OsuTracker.Cxx.Outcome
import Mathlib.Data.List.TakeWhile
import Mathlib.Tactic.Ring

/-! # Byte strings and decimal text

A `std::string` is its list of bytes. Decimal output is described by its last-digit equation,
decimal input by the longest digit prefix after blanks and a sign, as `strtol` reads it in base
ten. Reading what was written returns the same integer, so every bounded reader below inverts
`std::to_string` exactly on its own range.
-/

namespace OsuTracker.Cxx

/-- A `std::string`: its bytes in order. -/
abbrev Str := List UInt8

/-- The bytes of an ASCII literal. -/
def bytes (literal : String) : Str := literal.toList.map Char.toUInt8

instance : Coe String Str := ⟨bytes⟩
instance coeChar : Coe Char UInt8 := ⟨Char.toUInt8⟩

instance : LawfulBEq Str := inferInstance

/-! ## Digits -/

/-- The ASCII digit of a number below ten. -/
def digit (n : ℕ) : UInt8 := UInt8.ofNat (48 + n)

def isDigit (c : UInt8) : Bool := 48 ≤ c.toNat && c.toNat ≤ 57

def digitValue (c : UInt8) : ℕ := c.toNat - 48

theorem digit_toNat {n : ℕ} (small : n < 10) : (digit n).toNat = 48 + n := by
  rw [digit, UInt8.toNat_ofNat', Nat.mod_eq_of_lt (by omega)]

theorem isDigit_digit {n : ℕ} (small : n < 10) : isDigit (digit n) = true := by
  simp only [isDigit, digit_toNat small, Bool.and_eq_true, decide_eq_true_eq]
  omega

theorem digitValue_digit {n : ℕ} (small : n < 10) : digitValue (digit n) = n := by
  simp only [digitValue, digit_toNat small]
  omega

/-- The digits of `n`, leading first; any fuel above `n` is enough. -/
def decimalFrom : ℕ → ℕ → Str
  | 0, _ => []
  | fuel + 1, n => if n < 10 then [digit n] else decimalFrom fuel (n / 10) ++ [digit (n % 10)]

def decimal (n : ℕ) : Str := decimalFrom (n + 1) n

theorem decimalFrom_eq {fuel n : ℕ} (enough : n < fuel) : decimalFrom fuel n = decimal n := by
  induction n using Nat.strong_induction_on generalizing fuel with
  | _ n ih =>
    obtain ⟨fuel, rfl⟩ := Nat.exists_eq_succ_of_ne_zero (Nat.ne_of_gt (Nat.zero_lt_of_lt enough))
    by_cases small : n < 10
    · simp only [decimal, decimalFrom, if_pos small]
    · have left : decimalFrom fuel (n / 10) = decimal (n / 10) := ih (n / 10) (by omega) (by omega)
      have right : decimalFrom n (n / 10) = decimal (n / 10) := ih (n / 10) (by omega) (by omega)
      simp only [decimal, decimalFrom, if_neg small, left, right]

/-- Decimal text grows by its last digit. -/
theorem decimal_eq (n : ℕ) :
    decimal n = if n < 10 then [digit n] else decimal (n / 10) ++ [digit (n % 10)] := by
  by_cases small : n < 10
  · simp only [decimal, decimalFrom, if_pos small]
  · have tail : decimalFrom n (n / 10) = decimal (n / 10) := decimalFrom_eq (by omega)
    rw [decimal, decimalFrom, if_neg small, tail, if_neg small]

theorem decimal_ne_nil (n : ℕ) : decimal n ≠ [] := by
  rw [decimal_eq]
  split <;> simp

theorem decimal_isDigit (n : ℕ) : ∀ c ∈ decimal n, isDigit c = true := by
  induction n using Nat.strong_induction_on with
  | _ n ih =>
    intro c member
    rw [decimal_eq] at member
    split at member
    · next small =>
      rw [List.mem_singleton.mp member]
      exact isDigit_digit small
    · rcases List.mem_append.mp member with front | last
      · exact ih (n / 10) (by omega) c front
      · rw [List.mem_singleton.mp last]
        exact isDigit_digit (Nat.mod_lt _ (by decide))

/-- The number a digit string denotes, leading digit first. -/
def digitsValue (digits : Str) : ℕ := digits.foldl (fun value c => 10 * value + digitValue c) 0

theorem digitsValue_append_singleton (digits : Str) (c : UInt8) :
    digitsValue (digits ++ [c]) = 10 * digitsValue digits + digitValue c := by
  simp only [digitsValue, List.foldl_append, List.foldl_cons, List.foldl_nil]

theorem digitsValue_decimal (n : ℕ) : digitsValue (decimal n) = n := by
  induction n using Nat.strong_induction_on with
  | _ n ih =>
    rw [decimal_eq]
    split
    · next small => simpa only [digitsValue, List.foldl_cons, List.foldl_nil, Nat.mul_zero, Nat.zero_add]
        using digitValue_digit small
    · rw [digitsValue_append_singleton, ih (n / 10) (by omega), digitValue_digit (Nat.mod_lt _ (by decide))]
      omega

theorem decimal_length_le {n k : ℕ} (bound : n < 10 ^ (k + 1)) : (decimal n).length ≤ k + 1 := by
  induction k generalizing n with
  | zero =>
    rw [decimal_eq, if_pos (by simpa using bound)]
    exact le_rfl
  | succ k ih =>
    rw [decimal_eq]
    split
    · simp
    · have smaller : n / 10 < 10 ^ (k + 1) := by
        rw [Nat.div_lt_iff_lt_mul (by decide)]
        rwa [pow_succ] at bound
      simpa using ih smaller

/-! ## Signed integers -/

/-- `std::to_string` of an integer. -/
def stdToString (n : ℤ) : Str := if n < 0 then ('-' : UInt8) :: decimal n.natAbs else decimal n.natAbs

theorem stdToString_ne_nil (n : ℤ) : stdToString n ≠ [] := by
  rw [stdToString]
  split
  · exact List.cons_ne_nil _ _
  · exact decimal_ne_nil _

theorem stdToString_ascii (n : ℤ) : ∀ c ∈ stdToString n, c.toNat < 128 := by
  have digits : ∀ c ∈ decimal n.natAbs, c.toNat < 128 := by
    intro c member
    have digit := decimal_isDigit n.natAbs c member
    simp only [isDigit, Bool.and_eq_true, decide_eq_true_eq] at digit
    omega
  rw [stdToString]
  split
  · rintro c (_ | ⟨_, member⟩)
    · decide
    · exact digits c member
  · exact digits

/-- `isspace` in the C locale. -/
def isSpace (c : UInt8) : Bool := c.toNat == 32 || (9 ≤ c.toNat && c.toNat ≤ 13)

/-- An optional sign and what follows it. -/
def takeSign : Str → Bool × Str
  | c :: rest =>
    if c = ('-' : UInt8) then (true, rest)
    else if c = ('+' : UInt8) then (false, rest)
    else (false, c :: rest)
  | [] => (false, [])

/-- The exact integer at the front of a text, or none when no digit follows blanks and sign. -/
def scanInteger (text : Str) : Option ℤ :=
  let (negative, body) := takeSign (text.dropWhile isSpace)
  let digits := body.takeWhile isDigit
  if digits = [] then none
  else some (if negative then -(digitsValue digits : ℤ) else (digitsValue digits : ℤ))

theorem not_isSpace_of_isDigit {c : UInt8} (digit : isDigit c = true) : isSpace c = false := by
  simp only [isDigit, Bool.and_eq_true, decide_eq_true_eq] at digit
  simp only [isSpace, Bool.or_eq_false_iff, beq_eq_false_iff_ne, Bool.and_eq_false_imp, decide_eq_true_eq,
    decide_eq_false_iff_not]
  omega

theorem takeSign_of_isDigit {c : UInt8} (rest : Str) (digit : isDigit c = true) :
    takeSign (c :: rest) = (false, c :: rest) := by
  have notMinus : c ≠ ('-' : UInt8) := by rintro rfl; exact absurd digit (by decide)
  have notPlus : c ≠ ('+' : UInt8) := by rintro rfl; exact absurd digit (by decide)
  simp only [takeSign, if_neg notMinus, if_neg notPlus]

/-- A text of digits is the number they denote. -/
theorem scanInteger_of_digits {digits : Str} (some_ : digits ≠ []) (all : ∀ c ∈ digits, isDigit c = true) :
    scanInteger digits = some (digitsValue digits : ℤ) := by
  cases digits with
  | nil => exact absurd rfl some_
  | cons c rest =>
    have digit : isDigit c = true := all c List.mem_cons_self
    have dropped : (c :: rest).dropWhile isSpace = c :: rest := by
      rw [List.dropWhile_cons, if_neg (by simp [not_isSpace_of_isDigit digit])]
    have whole : (c :: rest).takeWhile isDigit = c :: rest := List.takeWhile_eq_self_iff.mpr all
    simp only [scanInteger, dropped, takeSign_of_isDigit rest digit, whole, if_neg (List.cons_ne_nil _ _),
      Bool.false_eq_true, ↓reduceIte]

/-- Reading back written decimal text gives the integer it came from. -/
theorem scanInteger_stdToString (n : ℤ) : scanInteger (stdToString n) = some n := by
  have value : (digitsValue (decimal n.natAbs) : ℤ) = n.natAbs := by rw [digitsValue_decimal]
  rw [stdToString]
  split
  · next negative =>
    have blank : isSpace ('-' : UInt8) = false := by decide
    have dropped : (('-' : UInt8) :: decimal n.natAbs).dropWhile isSpace = ('-' : UInt8) :: decimal n.natAbs := by
      rw [List.dropWhile_cons, if_neg (by simp [blank])]
    have whole : (decimal n.natAbs).takeWhile isDigit = decimal n.natAbs :=
      List.takeWhile_eq_self_iff.mpr (decimal_isDigit n.natAbs)
    simp only [scanInteger, dropped, takeSign, ↓reduceIte, whole, if_neg (decimal_ne_nil _), value]
    congr 1
    omega
  · next nonneg =>
    rw [scanInteger_of_digits (decimal_ne_nil _) (decimal_isDigit _), value]
    congr 1
    omega

/-- `std::stoi`: a text without a number is invalid, a number outside `int` out of range. -/
def stoi (text : Str) : Except Exception Int32 :=
  match scanInteger text with
  | none => .error (.invalidArgument "stoi")
  | some n => if -2 ^ 31 ≤ n ∧ n < 2 ^ 31 then .ok (Int32.ofInt n) else .error (.outOfRange "stoi")

/-- `std::stoll`. -/
def stoll (text : Str) : Except Exception Int64 :=
  match scanInteger text with
  | none => .error (.invalidArgument "stoll")
  | some n => if -2 ^ 63 ≤ n ∧ n < 2 ^ 63 then .ok (Int64.ofInt n) else .error (.outOfRange "stoll")

@[simp] theorem stoi_stdToString (n : Int32) : stoi (stdToString n.toInt) = .ok n := by
  rw [stoi, scanInteger_stdToString]
  simp only [Int32.le_toInt, Int32.toInt_lt, and_self, ↓reduceIte, Int32.ofInt_toInt]

@[simp] theorem stoll_stdToString (n : Int64) : stoll (stdToString n.toInt) = .ok n := by
  rw [stoll, scanInteger_stdToString]
  simp only [Int64.le_toInt, Int64.toInt_lt, and_self, ↓reduceIte, Int64.ofInt_toInt]

theorem stoi_eq_ok_iff {text : Str} {n : Int32} : stoi text = .ok n ↔ scanInteger text = some n.toInt := by
  rw [stoi]
  cases scanInteger text with
  | none => simp
  | some m =>
    simp only [Option.some.injEq]
    split
    · next range =>
      rw [Except.ok.injEq]
      constructor
      · rintro rfl
        exact (Int32.toInt_ofInt_of_le range.1 range.2).symm
      · rintro rfl
        exact Int32.ofInt_toInt n
    · next range =>
      refine ⟨nofun, ?_⟩
      rintro rfl
      exact absurd ⟨n.le_toInt, n.toInt_lt⟩ range

theorem stoll_eq_ok_iff {text : Str} {n : Int64} : stoll text = .ok n ↔ scanInteger text = some n.toInt := by
  rw [stoll]
  cases scanInteger text with
  | none => simp
  | some m =>
    simp only [Option.some.injEq]
    split
    · next range =>
      rw [Except.ok.injEq]
      constructor
      · rintro rfl
        exact (Int64.toInt_ofInt_of_le range.1 range.2).symm
      · rintro rfl
        exact Int64.ofInt_toInt n
    · next range =>
      refine ⟨nofun, ?_⟩
      rintro rfl
      exact absurd ⟨n.le_toInt, n.toInt_lt⟩ range

end OsuTracker.Cxx
