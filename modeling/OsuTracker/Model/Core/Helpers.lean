import OsuTracker.Cxx.Floating
import Mathlib.Algebra.Order.Floor.Ring
import Mathlib.Data.Rat.Floor

/-! # Helpers

`replace` searches on from the end of what it inserted. The level of a score is found by binary
search over the score each level needs; extended precision is read as exact rationals, and the
result is rounded to three decimals, half away from zero, before it is printed with six.
-/

namespace OsuTracker.Model.Core.Helpers

open Cxx

/-! ## Replacing -/

/-- `str.find(pattern, start)`. -/
def find (str pattern : Str) (start : ℕ) : Option ℕ :=
  (List.range' start (str.length + 1 - start)).find? fun position => pattern.isPrefixOf (str.drop position)

/-- The loop of `replace`; the text after `start` shrinks, so its length is enough fuel. -/
def replaceFrom (pattern replacement : Str) : ℕ → ℕ → Str → Str
  | 0, _, str => str
  | fuel + 1, start, str =>
    match find str pattern start with
    | none => str
    | some position =>
      replaceFrom pattern replacement fuel (position + replacement.length)
        (str.take position ++ replacement ++ str.drop (position + pattern.length))

def replace (str pattern replacement : Str) : Str :=
  if pattern = [] then str else replaceFrom pattern replacement (str.length + 1) 0 str

/-! ## Levels -/

def scoreNeeded (n : ℤ) : ℚ :=
  if n ≤ 100 then 5000 / 3 * (4 * n * n * n - 3 * n * n - n) + 5 / 4 * (9 / 5) ^ (n - 60)
  else 26931190827 + 99999999999 * (n - 100)

/-- The search loop over `low..high`; `level` is the last one found affordable. -/
def searchLevel (totalScore : ℚ) : ℕ → ℤ → ℤ → ℤ → ℤ
  | 0, _, _, level => level
  | fuel + 1, low, high, level =>
    if low ≤ high then
      let mid := (low + high) / 2
      if scoreNeeded mid ≤ totalScore then searchLevel totalScore fuel (mid + 1) high mid
      else searchLevel totalScore fuel low (mid - 1) level
    else level

/-- `std::round`, half away from zero. -/
def stdRound (x : ℚ) : ℤ := if 0 ≤ x then ⌊x + 1 / 2⌋ else -⌊-x + 1 / 2⌋

def getLevelFromScore (totalScore : ℚ) : ℚ :=
  if totalScore < 0 then 1
  else
    let level := searchLevel totalScore 1500 1 1500 1
    let baseScore := scoreNeeded level
    let nextScore := scoreNeeded (level + 1)
    let fraction := (totalScore - baseScore) / (nextScore - baseScore)
    stdRound ((level + fraction) * 1000) / 1000

/-- `std::to_string` of an extended-precision number. -/
def longDoubleToString (x : ℚ) : Str := printRatio 6 (x < 0) x.num.natAbs x.den

end OsuTracker.Model.Core.Helpers
