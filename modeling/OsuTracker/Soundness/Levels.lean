import OsuTracker.Cxx.FloatText
import OsuTracker.Model.Core.Helpers
import Mathlib.Tactic.Linarith
import Mathlib.Tactic.NormNum
import Mathlib.Tactic.Positivity

/-! # Levels

The level of a 64-bit score is a number of moderate size: the search stays between the first and
the last level, every level needs at least one point more than the one before, and the fraction
towards the next level is at most the score. So its text is read back without a range error.
-/

namespace OsuTracker.Soundness.Levels

open Cxx Model.Core.Helpers

theorem searchLevel_mem (totalScore : ℚ) (fuel : ℕ) {low high level : ℤ} (lower : 1 ≤ low) (upper : high ≤ 1500)
    (inside : 1 ≤ level ∧ level ≤ 1500) :
    1 ≤ searchLevel totalScore fuel low high level ∧ searchLevel totalScore fuel low high level ≤ 1500 := by
  induction fuel generalizing low high level with
  | zero => exact inside
  | succ fuel ih =>
    unfold searchLevel
    split
    · next ordered =>
      have middle : low ≤ (low + high) / 2 ∧ (low + high) / 2 ≤ high := by omega
      simp only
      split
      · exact ih (by omega) upper (by omega)
      · exact ih lower (by omega) inside
    · exact inside

/-- Each level needs at least one point more than the one before. -/
theorem scoreNeeded_step {n : ℤ} (positive : 1 ≤ n) : scoreNeeded n + 1 ≤ scoreNeeded (n + 1) := by
  have whole : (1 : ℚ) ≤ n := by exact_mod_cast positive
  rcases lt_trichotomy n 100 with below | rfl | above
  · have small : n ≤ 100 := by omega
    have next : n + 1 ≤ 100 := by omega
    have growth : ((9 : ℚ) / 5) ^ (n - 60) ≤ (9 / 5) ^ (n + 1 - 60) :=
      zpow_le_zpow_right₀ (by norm_num) (by omega)
    simp only [scoreNeeded, if_pos small, if_pos next]
    push_cast
    nlinarith
  · simp only [scoreNeeded]
    norm_num
  · have large : ¬n ≤ 100 := by omega
    have next : ¬n + 1 ≤ 100 := by omega
    simp only [scoreNeeded, if_neg large, if_neg next]
    push_cast
    linarith

theorem scoreNeeded_bounds {n : ℤ} (positive : 1 ≤ n) (bounded : n ≤ 1500) :
    0 ≤ scoreNeeded n ∧ scoreNeeded n ≤ 2 ^ 60 := by
  have lower : (1 : ℚ) ≤ n := by exact_mod_cast positive
  have upper : (n : ℚ) ≤ 1500 := by exact_mod_cast bounded
  by_cases small : n ≤ 100
  · have top : (n : ℚ) ≤ 100 := by exact_mod_cast small
    have growth : ((9 : ℚ) / 5) ^ (n - 60) ≤ (9 / 5) ^ (40 : ℤ) := zpow_le_zpow_right₀ (by norm_num) (by omega)
    have positive : 0 < ((9 : ℚ) / 5) ^ (n - 60) := by positivity
    have largest : ((9 : ℚ) / 5) ^ (40 : ℤ) ≤ 2 ^ 40 := by norm_num
    simp only [scoreNeeded, if_pos small]
    constructor
    · have cubic : (0 : ℚ) ≤ 4 * n * n * n - 3 * n * n - n := by
        nlinarith [mul_nonneg (sub_nonneg.mpr lower) (sub_nonneg.mpr lower)]
      linarith
    · have cubic : (4 * n * n * n - 3 * n * n - n : ℚ) ≤ 4 * 100 * 100 * 100 := by
        nlinarith [mul_nonneg (sub_nonneg.mpr lower) (sub_nonneg.mpr top)]
      linarith
  · have above : (101 : ℚ) ≤ n := by exact_mod_cast (by omega : 101 ≤ n)
    simp only [scoreNeeded, if_neg small]
    constructor <;> linarith

theorem abs_stdRound_le (x : ℚ) : |(stdRound x : ℚ)| ≤ |x| + 1 := by
  unfold stdRound
  split
  · next positive =>
    have low := Int.lt_floor_add_one (x + 1 / 2)
    have high := Int.floor_le (x + 1 / 2)
    rw [abs_le, abs_of_nonneg positive]
    constructor <;> linarith
  · next negative =>
    have low := Int.lt_floor_add_one (-x + 1 / 2)
    have high := Int.floor_le (-x + 1 / 2)
    have sign : x < 0 := not_le.mp negative
    rw [abs_le, abs_of_neg sign]
    push_cast
    constructor <;> linarith

/-- The level of any 64-bit score. -/
theorem abs_getLevelFromScore_lt {score : ℚ} (small : score ≤ 2 ^ 63) : |getLevelFromScore score| < 2 ^ 126 := by
  unfold getLevelFromScore
  split
  · norm_num
  · next sign =>
    have positive : 0 ≤ score := not_lt.mp sign
    have first : 1 ≤ (1 : ℤ) ∧ (1 : ℤ) ≤ 1500 := by omega
    obtain ⟨lower, upper⟩ := searchLevel_mem score 1500 (le_refl 1) (le_refl 1500) first
    simp only
    generalize searchLevel score 1500 1 1500 1 = level at lower upper
    have step := scoreNeeded_step lower
    obtain ⟨base, top⟩ := scoreNeeded_bounds lower upper
    have levels : |(level : ℚ)| ≤ 1500 := by
      rw [abs_of_nonneg (by exact_mod_cast (by omega : 0 ≤ level))]
      exact_mod_cast upper
    have fraction : |(score - scoreNeeded level) / (scoreNeeded (level + 1) - scoreNeeded level)| ≤ 2 ^ 63 := by
      rw [abs_div, abs_of_pos (a := scoreNeeded (level + 1) - scoreNeeded level) (by linarith)]
      refine (div_le_self (abs_nonneg _) (by linarith)).trans ?_
      rw [abs_le]
      constructor <;> linarith
    have sum := abs_add_le (level : ℚ) ((score - scoreNeeded level) / (scoreNeeded (level + 1) - scoreNeeded level))
    have rounded := abs_stdRound_le
      ((level + (score - scoreNeeded level) / (scoreNeeded (level + 1) - scoreNeeded level)) * 1000)
    rw [abs_mul, abs_of_pos (a := (1000 : ℚ)) (by norm_num)] at rounded
    rw [abs_div, abs_of_pos (a := (1000 : ℚ)) (by norm_num), div_lt_iff₀ (by norm_num)]
    linarith

theorem stof_longDoubleToString {x : ℚ} (small : |x| < 2 ^ 126) : ∃ y, stof (longDoubleToString x) = .ok y := by
  refine stof_printRatio _ ?_
  have denominator : (0 : ℚ) < x.den := by exact_mod_cast x.den_pos
  have ratio : |x| = (x.num.natAbs : ℚ) / x.den := by
    rw [Rat.abs_def, Rat.divInt_eq_div, Int.cast_natCast, Int.cast_natCast]
  rw [ratio, div_lt_iff₀ denominator] at small
  exact_mod_cast small

end OsuTracker.Soundness.Levels
