import OsuTracker.Cxx.Text
import Mathlib.Data.Nat.Log

/-! # Binary floating point and its text

A datum is a NaN, an infinity or `± mantissa · 2 ^ exponent`; a format rounds a nonnegative
fraction to the nearest datum, ties to even, and overflows to an infinity. Printing with a fixed
number of decimals rounds the exact value once, as `printf` does. Reading accepts what `strtod`
accepts: blanks, a sign, then a decimal or hexadecimal number, an infinity or a NaN.
-/

namespace OsuTracker.Cxx

inductive Flt where
  | nan (negative : Bool)
  | inf (negative : Bool)
  | finite (negative : Bool) (mantissa : ℕ) (exponent : ℤ)
deriving DecidableEq, Repr

/-- A binary format: significand bits, least exponent, and the exponent finite data stay below. -/
structure FloatFormat where
  precision : ℕ
  minExponent : ℤ
  maxExponent : ℕ

def binary32 : FloatFormat := ⟨24, -149, 128⟩
def binary64 : FloatFormat := ⟨53, -1074, 1024⟩

/-! ## Rounding -/

/-- `a / b` to the nearest natural number, ties to even. -/
def divRoundEven (a b : ℕ) : ℕ :=
  let quotient := a / b
  let twice := 2 * (a % b)
  if twice < b then quotient else if b < twice then quotient + 1 else quotient + quotient % 2

/-- Rounding at most doubles a fraction. -/
theorem divRoundEven_mul_le (a b : ℕ) : divRoundEven a b * b ≤ 2 * a := by
  have split : b * (a / b) + a % b = a := Nat.div_add_mod a b
  simp only [divRoundEven]
  split_ifs with below above
  · calc a / b * b = b * (a / b) := Nat.mul_comm _ _
      _ ≤ 2 * a := by omega
  · calc (a / b + 1) * b = b * (a / b) + b := by ring
      _ ≤ 2 * a := by omega
  · have parity : a / b % 2 ≤ 1 := by omega
    calc (a / b + a / b % 2) * b ≤ (a / b + 1) * b := Nat.mul_le_mul_right b (by omega)
      _ = b * (a / b) + b := by ring
      _ ≤ 2 * a := by omega

/-- The exponent of the leading bit of `num / den`. -/
def leadingExponent (num den : ℕ) : ℤ :=
  let guess : ℤ := (Nat.log2 num : ℤ) - Nat.log2 den
  if den * 2 ^ guess.toNat ≤ num * 2 ^ (-guess).toNat then guess else guess - 1

namespace FloatFormat

/-- The exponent of the last significand bit that `num / den` keeps. -/
def quantum (format : FloatFormat) (num den : ℕ) : ℤ :=
  max format.minExponent (leadingExponent num den + 1 - format.precision)

/-- The datum nearest to `± num / den`. -/
def round (format : FloatFormat) (negative : Bool) (num den : ℕ) : Flt :=
  let exponent := format.quantum num den
  let mantissa := divRoundEven (num * 2 ^ (-exponent).toNat) (den * 2 ^ exponent.toNat)
  if mantissa * 2 ^ exponent.toNat < 2 ^ format.maxExponent * 2 ^ (-exponent).toNat then
    .finite negative mantissa exponent
  else .inf negative

end FloatFormat

namespace Flt

/-- The magnitude of a finite datum as a fraction; other data have none. -/
def num : Flt → ℕ
  | finite _ mantissa exponent => mantissa * 2 ^ exponent.toNat
  | _ => 0

def den : Flt → ℕ
  | finite _ _ exponent => 2 ^ (-exponent).toNat
  | _ => 1

def isNegative : Flt → Bool
  | nan negative | inf negative | finite negative _ _ => negative

def isFinite : Flt → Bool
  | finite _ _ _ => true
  | _ => false

def negate : Flt → Flt
  | nan negative => nan !negative
  | inf negative => inf !negative
  | finite negative mantissa exponent => finite (!negative) mantissa exponent

/-- The signed numerator over `den`. -/
def signedNum (x : Flt) : ℤ := if x.isNegative then -(x.num : ℤ) else (x.num : ℤ)

/-- Conversion to another format. -/
def convert (format : FloatFormat) : Flt → Flt
  | nan negative => nan negative
  | inf negative => inf negative
  | x => format.round x.isNegative x.num x.den

def ofInt (format : FloatFormat) (n : ℤ) : Flt := format.round (n < 0) n.natAbs 1

/-- Addition; the sum of opposite infinities is the negative quiet NaN of the hardware. -/
def add (format : FloatFormat) : Flt → Flt → Flt
  | nan negative, _ => nan negative
  | _, nan negative => nan negative
  | inf left, inf right => if left = right then inf left else nan true
  | inf negative, _ => inf negative
  | _, inf negative => inf negative
  | x, y =>
    let total := x.signedNum * y.den + y.signedNum * x.den
    if total = 0 then finite (x.isNegative && y.isNegative) 0 0
    else format.round (total < 0) total.natAbs (x.den * y.den)

def sub (format : FloatFormat) (x y : Flt) : Flt :=
  match y with
  | nan negative => if let nan own := x then nan own else nan negative
  | _ => add format x y.negate

def mul (format : FloatFormat) : Flt → Flt → Flt
  | nan negative, _ => nan negative
  | _, nan negative => nan negative
  | x, y =>
    let negative := x.isNegative ^^ y.isNegative
    if x.isFinite && y.isFinite then format.round negative (x.num * y.num) (x.den * y.den)
    else if (x.isFinite && x.num == 0) || (y.isFinite && y.num == 0) then nan true
    else inf negative

def div (format : FloatFormat) : Flt → Flt → Flt
  | nan negative, _ => nan negative
  | _, nan negative => nan negative
  | inf _, inf _ => nan true
  | inf left, y => inf (left ^^ y.isNegative)
  | x, inf right => finite (x.isNegative ^^ right) 0 0
  | x, y =>
    let negative := x.isNegative ^^ y.isNegative
    if y.num = 0 then if x.num = 0 then nan true else inf negative
    else format.round negative (x.num * y.den) (x.den * y.num)

/-- The integer part of a finite datum. -/
def truncate? : Flt → Option ℤ
  | finite negative mantissa exponent =>
    let magnitude := (finite negative mantissa exponent).num / (finite negative mantissa exponent).den
    some (if negative then -(magnitude : ℤ) else (magnitude : ℤ))
  | _ => none

/-- `static_cast<int>`: what does not fit becomes the indefinite integer. -/
def toInt32 (x : Flt) : Int32 :=
  match x.truncate? with
  | some n => if -2 ^ 31 ≤ n ∧ n < 2 ^ 31 then Int32.ofInt n else Int32.minValue
  | none => Int32.minValue

def toInt64 (x : Flt) : Int64 :=
  match x.truncate? with
  | some n => if -2 ^ 63 ≤ n ∧ n < 2 ^ 63 then Int64.ofInt n else Int64.minValue
  | none => Int64.minValue

end Flt

/-! ## Printing -/

/-- The last `width` decimal digits of `n`, zeros included. -/
def fixedDigits : ℕ → ℕ → Str
  | 0, _ => []
  | width + 1, n => fixedDigits width (n / 10) ++ [digit (n % 10)]

def signText (negative : Bool) : Str := if negative then ['-'] else []

/-- `± num / den` with a fixed number of decimals. -/
def printRatio (decimals : ℕ) (negative : Bool) (num den : ℕ) : Str :=
  let scaled := divRoundEven (num * 10 ^ decimals) den
  signText negative ++ decimal (scaled / 10 ^ decimals) ++
    (('.' : UInt8) :: fixedDigits decimals (scaled % 10 ^ decimals))

/-- `%.Nf`. -/
def printFixed (decimals : ℕ) : Flt → Str
  | .nan negative => signText negative ++ "nan"
  | .inf negative => signText negative ++ "inf"
  | .finite negative mantissa exponent =>
    printRatio decimals negative (Flt.finite negative mantissa exponent).num
      (Flt.finite negative mantissa exponent).den

/-- `std::to_string` of a floating-point number. -/
def floatToString (x : Flt) : Str := printFixed 6 x

/-! ## Reading -/

/-- A number as written, before it is rounded to a format. -/
inductive Numeral where
  | nan
  | inf
  | ratio (num den : ℕ)
deriving DecidableEq, Repr

def toLower (c : UInt8) : UInt8 := if 65 ≤ c.toNat && c.toNat ≤ 90 then c + 32 else c

def isHexDigit (c : UInt8) : Bool := isDigit c || (97 ≤ (toLower c).toNat && (toLower c).toNat ≤ 102)

def hexDigitValue (c : UInt8) : ℕ := if isDigit c then digitValue c else (toLower c).toNat - 87

/-- The optional exponent after `marker`: an optional sign and at least one digit. -/
def scanExponent (marker : UInt8) : Str → ℤ
  | c :: rest =>
    if toLower c = marker then
      let (negative, body) := takeSign rest
      let digits := body.takeWhile isDigit
      if negative then -(digitsValue digits : ℤ) else (digitsValue digits : ℤ)
    else 0
  | [] => 0

/-- Digits, an optional point with more digits, an optional exponent. `pointBits` is the weight of
one fractional digit in powers of `exponentBase`. -/
def scanPositional (isDigit : UInt8 → Bool) (digitValue : UInt8 → ℕ) (base exponentBase pointWeight : ℕ)
    (marker : UInt8) (text : Str) : Option Numeral :=
  let whole := text.takeWhile isDigit
  let rest := text.dropWhile isDigit
  let fraction := if rest.head? = some ('.' : UInt8) then rest.tail.takeWhile isDigit else []
  let rest := if rest.head? = some ('.' : UInt8) then rest.tail.dropWhile isDigit else rest
  if whole = [] ∧ fraction = [] then none
  else
    let value := (whole ++ fraction).foldl (fun value c => base * value + digitValue c) 0
    let exponent := scanExponent marker rest - (fraction.length * pointWeight : ℕ)
    some (.ratio (value * exponentBase ^ exponent.toNat) (exponentBase ^ (-exponent).toNat))

def scanDecimal : Str → Option Numeral := scanPositional isDigit digitValue 10 10 1 ('e' : UInt8)

def scanHexadecimal : Str → Option Numeral :=
  scanPositional isHexDigit hexDigitValue 16 2 4 ('p' : UInt8)

/-- What `strtod` recognises at the front of a text. -/
def scanNumeral (text : Str) : Option (Bool × Numeral) :=
  let (negative, body) := takeSign (text.dropWhile isSpace)
  let lower := (body.take 3).map toLower
  if lower = "nan" then some (negative, .nan)
  else if lower = "inf" then some (negative, .inf)
  else
    let hexadecimal := if lower.take 2 = "0x" then scanHexadecimal (body.drop 2) else none
    (hexadecimal.or (scanDecimal body)).map fun numeral => (negative, numeral)

def Numeral.toFlt (format : FloatFormat) (negative : Bool) : Numeral → Flt
  | .nan => .nan negative
  | .inf => .inf negative
  | .ratio num den => if num = 0 then .finite negative 0 0 else format.round negative num den

/-- `strtod`: the number at the front of a text, if there is one. -/
def strtod (text : Str) : Option Flt :=
  (scanNumeral text).map fun (negative, numeral) => numeral.toFlt binary64 negative

/-- The range error of a conversion: an infinite result, or a subnormal one that is inexact. Whether it
is subnormal is judged after rounding; a C library that judges it before also reports what is rounded
up to the least normal number. -/
def rangeError (format : FloatFormat) (num den : ℕ) : Bool :=
  let nearest := format.round false num den
  !nearest.isFinite ||
    (nearest.num * 2 ^ (-format.minExponent).toNat < 2 ^ (format.precision - 1) * nearest.den &&
      nearest.num * den != num * nearest.den)

/-- `std::stof`. -/
def stof (text : Str) : Except Exception Flt :=
  match scanNumeral text with
  | none => .error (.invalidArgument "stof")
  | some (negative, .ratio num den) =>
    if num ≠ 0 ∧ rangeError binary32 num den then .error (.outOfRange "stof")
    else .ok ((Numeral.ratio num den).toFlt binary32 negative)
  | some (negative, numeral) => .ok (numeral.toFlt binary32 negative)

end OsuTracker.Cxx
