import OsuTracker.Soundness.Levels

/-! # Searching and interpolating levels

The thresholds increase strictly, so the search ends with the last level whose threshold the score
has reached. Within a level the interpolated value grows linearly from one whole number to the
next, so it is monotone across all thresholds and beyond the last one searched; rounding to three
decimals keeps the order, and moves a value to the next level when less than half a thousandth is
missing.
-/

namespace OsuTracker.Soundness.LevelSearch

open Model.Core.Helpers Levels

/-! ## The search -/

theorem scoreNeeded_lt {m n : ℤ} (positive : 1 ≤ m) (less : m < n) : scoreNeeded m < scoreNeeded n := by
  induction n, (Int.add_one_le_iff.mpr less) using Int.leInduction with
  | base => linarith [scoreNeeded_step positive]
  | succ k above ih =>
    have step := scoreNeeded_step (show 1 ≤ k by omega)
    linarith [ih (by omega)]

theorem scoreNeeded_le {m n : ℤ} (positive : 1 ≤ m) (ordered : m ≤ n) : scoreNeeded m ≤ scoreNeeded n := by
  rcases ordered.lt_or_eq with less | rfl
  · exact (scoreNeeded_lt positive less).le
  · exact le_rfl

/-- What is known when the window is `low..high`: every level before it is reached and none after it. -/
structure Window (score : ℚ) (low high level : ℤ) : Prop where
  lower : 1 ≤ low
  ordered : low ≤ high + 1
  upper : high ≤ 1500
  reached : ∀ n, 1 ≤ n → n < low → scoreNeeded n ≤ score
  missed : ∀ n, high < n → n ≤ 1500 → score < scoreNeeded n
  level_eq : level = max 1 (low - 1)

/-- The last level reached, or the first one if there is none. -/
structure IsLevel (score : ℚ) (n : ℤ) : Prop where
  lower : 1 ≤ n
  upper : n ≤ 1500
  largest : ∀ m, 1 ≤ m → m ≤ 1500 → scoreNeeded m ≤ score → m ≤ n
  reached : scoreNeeded n ≤ score ∨ n = 1 ∧ score < scoreNeeded 1

theorem isLevel_of_window {score : ℚ} {low high level : ℤ} (window : Window score low high level)
    (empty : high < low) : IsLevel score level := by
  obtain ⟨lower, ordered, upper, reached, missed, rfl⟩ := window
  have last : low = high + 1 := by omega
  refine ⟨by omega, by omega, fun m positive bounded holds => ?_, ?_⟩
  · by_contra beyond
    exact absurd holds (not_le.mpr (missed m (by omega) bounded))
  · rcases lower.lt_or_eq with more | rfl
    · have before : max 1 (low - 1) = low - 1 := by omega
      rw [before]
      exact .inl (reached (low - 1) (by omega) (by omega))
    · exact .inr ⟨by omega, missed 1 (by omega) (by omega)⟩

theorem isLevel_search (score : ℚ) (fuel : ℕ) {low high level : ℤ} (window : Window score low high level)
    (enough : high - low < fuel) : IsLevel score (searchLevel score fuel low high level) := by
  induction fuel generalizing low high level with
  | zero => exact isLevel_of_window window (by push_cast at enough; omega)
  | succ fuel ih =>
    unfold searchLevel
    split
    · next ordered =>
      obtain ⟨lower, _, upper, reached, missed, level_eq⟩ := window
      have middle : low ≤ (low + high) / 2 ∧ (low + high) / 2 ≤ high := by omega
      simp only
      generalize (low + high) / 2 = mid at middle
      split
      · next affordable =>
        refine ih ⟨by omega, by omega, upper, fun n positive before => ?_, missed, by omega⟩ (by push_cast at enough; omega)
        exact (scoreNeeded_le positive (by omega)).trans affordable
      · next unaffordable =>
        refine ih ⟨lower, by omega, by omega, reached, fun n after _ => ?_, level_eq⟩ (by push_cast at enough; omega)
        exact (not_le.mp unaffordable).trans_le (scoreNeeded_le (by omega) (by omega))
    · next closed => exact isLevel_of_window window (not_le.mp closed)

/-- The search as `getLevelFromScore` starts it. -/
def levelOf (score : ℚ) : ℤ := searchLevel score 1500 1 1500 1

theorem isLevel_levelOf (score : ℚ) : IsLevel score (levelOf score) :=
  isLevel_search score 1500 ⟨le_rfl, by omega, le_rfl, by omega, by omega, by omega⟩ (by norm_num)

theorem levelOf_eq {score : ℚ} {n : ℤ} (lower : 1 ≤ n) (upper : n ≤ 1500) (reached : scoreNeeded n ≤ score)
    (missed : score < scoreNeeded (n + 1)) : levelOf score = n := by
  obtain ⟨first, last, largest, own⟩ := isLevel_levelOf score
  refine le_antisymm ?_ (largest n lower upper reached)
  rcases own with own | ⟨same, _⟩
  · by_contra above
    exact absurd (own.trans_lt missed) (not_lt.mpr (scoreNeeded_le (by omega) (by omega)))
  · omega

/-! ## Interpolation -/

/-- The level with its fraction, before rounding. -/
def interpolated (score : ℚ) : ℚ :=
  levelOf score + (score - scoreNeeded (levelOf score)) / (scoreNeeded (levelOf score + 1) - scoreNeeded (levelOf score))

theorem getLevelFromScore_eq {score : ℚ} (sign : 0 ≤ score) :
    getLevelFromScore score = stdRound (interpolated score * 1000) / 1000 := by
  rw [getLevelFromScore, if_neg (not_lt.mpr sign)]
  rfl

theorem abs_stdRound_sub_le (x : ℚ) : |(stdRound x : ℚ) - x| ≤ 1 / 2 := by
  unfold stdRound
  split
  · have low := Int.lt_floor_add_one (x + 1 / 2)
    have high := Int.floor_le (x + 1 / 2)
    rw [abs_le]
    constructor <;> linarith
  · have low := Int.lt_floor_add_one (-x + 1 / 2)
    have high := Int.floor_le (-x + 1 / 2)
    rw [abs_le]
    push_cast
    constructor <;> linarith

theorem stdRound_mono {x y : ℚ} (ordered : x ≤ y) : stdRound x ≤ stdRound y := by
  unfold stdRound
  split
  · next positive =>
    rw [if_pos (positive.trans ordered)]
    exact Int.floor_le_floor (by linarith)
  · next negative =>
    split
    · have first : 0 ≤ ⌊-x + 1 / 2⌋ := Int.floor_nonneg.mpr (by linarith)
      have second : 0 ≤ ⌊y + 1 / 2⌋ := Int.floor_nonneg.mpr (by linarith)
      omega
    · exact neg_le_neg (Int.floor_le_floor (by linarith))

theorem interpolated_mono {s t : ℚ} (ordered : s ≤ t) : interpolated s ≤ interpolated t := by
  obtain ⟨first, last, largest, reached⟩ := isLevel_levelOf s
  obtain ⟨lower, upper, most, own⟩ := isLevel_levelOf t
  have gap (score : ℚ) : 0 < scoreNeeded (levelOf score + 1) - scoreNeeded (levelOf score) := by
    linarith [scoreNeeded_step (isLevel_levelOf score).lower]
  unfold interpolated
  rcases lt_trichotomy (levelOf s) (levelOf t) with less | same | more
  · -- below the next threshold on the left, at or above the own one on the right
    have missed : s < scoreNeeded (levelOf s + 1) := by
      by_contra holds
      have := largest (levelOf s + 1) (by omega) (by omega) (not_lt.mp holds)
      omega
    have left : (s - scoreNeeded (levelOf s)) / (scoreNeeded (levelOf s + 1) - scoreNeeded (levelOf s)) ≤ 1 := by
      rw [div_le_one (gap s)]
      linarith
    have right : 0 ≤ (t - scoreNeeded (levelOf t)) / (scoreNeeded (levelOf t + 1) - scoreNeeded (levelOf t)) := by
      refine div_nonneg ?_ (gap t).le
      rcases own with own | ⟨one, _⟩
      · linarith
      · omega
    have step : (levelOf s : ℚ) + 1 ≤ levelOf t := by exact_mod_cast less
    linarith
  · rw [same]
    have grows := div_le_div_of_nonneg_right (by linarith : s - scoreNeeded (levelOf t) ≤ t - scoreNeeded (levelOf t))
      (gap t).le
    linarith
  · rcases reached with reached | ⟨one, _⟩
    · have := most (levelOf s) (by omega) (by omega) (reached.trans ordered)
      omega
    · omega

/-- What the search finds, that the interpolation is defined, how far the result is from it, and
that a higher score is never shown as a lower level. -/
theorem levels_ordered :
    (∀ m n : ℤ, 1 ≤ m → m < n → n ≤ 1501 → scoreNeeded m < scoreNeeded n) ∧
      (∀ s : ℤ, 0 ≤ s → s < 2 ^ 63 →
        IsLevel s (searchLevel s 1500 1 1500 1) ∧
          scoreNeeded (searchLevel s 1500 1 1500 1 + 1) - scoreNeeded (searchLevel s 1500 1 1500 1) ≠ 0 ∧
          ∀ n : ℤ, n = searchLevel s 1500 1 1500 1 →
            |getLevelFromScore s - (n + (s - scoreNeeded n) / (scoreNeeded (n + 1) - scoreNeeded n))| ≤ 1 / 2000) ∧
      ∀ s t : ℤ, 0 ≤ s → s ≤ t → t < 2 ^ 63 → getLevelFromScore s ≤ getLevelFromScore t := by
  refine ⟨fun m n positive less _ => scoreNeeded_lt positive less, fun s sign _ => ?_, fun s t sign ordered _ => ?_⟩
  · have found := isLevel_levelOf s
    refine ⟨found, ?_, ?_⟩
    · exact (sub_pos.mpr ((lt_add_one _).trans_le (scoreNeeded_step found.lower))).ne'
    · rintro n rfl
      rw [getLevelFromScore_eq (by exact_mod_cast sign)]
      have close := abs_stdRound_sub_le (interpolated s * 1000)
      change |(stdRound (interpolated s * 1000) : ℚ) / 1000 - interpolated s| ≤ 1 / 2000
      rw [abs_le] at close ⊢
      constructor <;> linarith
  · rw [getLevelFromScore_eq (by exact_mod_cast sign), getLevelFromScore_eq (by exact_mod_cast sign.trans ordered)]
    have rounded : stdRound (interpolated s * 1000) ≤ stdRound (interpolated t * 1000) :=
      stdRound_mono (by linarith [interpolated_mono (show (s : ℚ) ≤ t by exact_mod_cast ordered)])
    have whole : (stdRound (interpolated s * 1000) : ℚ) ≤ stdRound (interpolated t * 1000) := by exact_mod_cast rounded
    linarith

/-! ## The level that is shown -/

/-- Within a level the whole part is the level, except in its last half thousandth. -/
theorem shown_iff {n s : ℤ} (lower : 1 ≤ n) (upper : n ≤ 1500) (reached : scoreNeeded n ≤ s)
    (missed : s < scoreNeeded (n + 1)) :
    (n ≤ getLevelFromScore s ∧ getLevelFromScore s < n + 1) ↔
      2000 * (s - scoreNeeded n) < 1999 * (scoreNeeded (n + 1) - scoreNeeded n) := by
  have width : 0 < scoreNeeded (n + 1) - scoreNeeded n := by linarith [scoreNeeded_step lower]
  have sign : (0 : ℚ) ≤ s := (scoreNeeded_bounds lower upper).1.trans reached
  have value : interpolated s = n + (s - scoreNeeded n) / (scoreNeeded (n + 1) - scoreNeeded n) := by
    rw [interpolated, levelOf_eq lower upper reached missed]
  have inside : 0 ≤ (s - scoreNeeded n) / (scoreNeeded (n + 1) - scoreNeeded n) :=
    div_nonneg (by linarith) width.le
  have short : 2000 * (s - scoreNeeded n) < 1999 * (scoreNeeded (n + 1) - scoreNeeded n) ↔
      (s - scoreNeeded n) / (scoreNeeded (n + 1) - scoreNeeded n) < 1999 / 2000 := by
    rw [div_lt_div_iff₀ width (by norm_num)]
    constructor <;> intro less <;> linarith
  have positive : (1 : ℚ) ≤ n := by exact_mod_cast lower
  rw [getLevelFromScore_eq sign, value, short]
  generalize (s - scoreNeeded n) / (scoreNeeded (n + 1) - scoreNeeded n) = fraction at inside
  have rounds : stdRound ((n + fraction) * 1000) = ⌊(n + fraction) * 1000 + 1 / 2⌋ := by
    rw [stdRound, if_pos (by positivity)]
  have bottom : n * 1000 ≤ ⌊(n + fraction) * 1000 + 1 / 2⌋ := by
    rw [Int.le_floor]
    push_cast
    linarith
  have top : ⌊(n + fraction) * 1000 + 1 / 2⌋ < (n + 1) * 1000 ↔ fraction < 1999 / 2000 := by
    rw [Int.floor_lt]
    push_cast
    constructor <;> intro less <;> linarith
  rw [rounds, le_div_iff₀ (by norm_num), div_lt_iff₀ (by norm_num), ← top]
  constructor
  · rintro ⟨_, less⟩
    exact_mod_cast less
  · intro less
    exact ⟨by exact_mod_cast bottom, by exact_mod_cast less⟩

theorem middle_of_level_two :
    ((2 : ℤ) : ℚ) ≤ getLevelFromScore (60000 : ℤ) ∧ getLevelFromScore (60000 : ℤ) < ((2 : ℤ) : ℚ) + 1 :=
  (shown_iff (n := 2) (s := 60000) (by norm_num) (by norm_num) (by decide +kernel) (by decide +kernel)).mpr
    (by decide +kernel)

/-- One point is missing to level 3. -/
theorem level_two_shown_as_three :
    scoreNeeded 2 ≤ (129999 : ℤ) ∧ (129999 : ℤ) < scoreNeeded 3 ∧ getLevelFromScore (129999 : ℤ) = 3 := by
  decide +kernel

end OsuTracker.Soundness.LevelSearch
