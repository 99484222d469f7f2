import OsuTracker.Machine.Loops
import OsuTracker.Machine.Segments
import OsuTracker.Soundness.Extraction

/-! # Which names are protected

The loop over the segments of a name goes from separator to separator and looks at the text behind
each. It may stand at the end of the name, behind a separator in last place, but never past it.
-/

namespace OsuTracker.Soundness.ProtectedNames

open Cxx Model.Updater Extraction Machine.Loops Machine.Segments

/-! ## Runs -/

/-- Characters that are no separators, as many in a row as there are. -/
def MaximalRun (filename run : Str) : Prop :=
  run ≠ [] ∧ ∃ before after, Segment isSeparator filename before run after

theorem protected_iff (filename : Str) :
    Protected filename ↔ ∃ run, MaximalRun filename run ∧ run.head? = some ('_' : UInt8) := by
  constructor
  · rintro ⟨segment, member, starts⟩
    refine ⟨segment, ⟨?_, mem_splitOnP_iff.mp member⟩, starts⟩
    rintro rfl
    cases starts
  · rintro ⟨run, ⟨-, stands⟩, starts⟩
    exact ⟨run, mem_splitOnP_iff.mpr stands, starts⟩

/-! ## The loop -/

/-- The body of the loop, if it goes on behind another separator. -/
def iteration (filename : Str) (pos : ℕ) : Option ℕ :=
  if pos < filename.length then
    match substr filename pos ((findFirstOf filename pos).map (· - pos)) with
    | .error _ => none
    | .ok segment =>
      if segment.head? = some ('_' : UInt8) then none else (findFirstOf filename pos).map (· + 1)
  else none

theorem lt_of_findFirstOf {filename : Str} {pos next : ℕ} (found : findFirstOf filename pos = some next) :
    next < filename.length := by
  obtain ⟨i, first, rfl⟩ := Option.map_eq_some_iff.mp found
  obtain ⟨bound, -⟩ := List.findIdx?_eq_some_iff_getElem.mp first
  rw [List.length_drop] at bound
  omega

/-- An iteration that goes on moves the position, at most to the end of the name, and leaves what
is to be found to the rest of the loop. -/
theorem iteration_spec {filename : Str} {pos next : ℕ} (moved : iteration filename pos = some next) :
    pos < next ∧ next ≤ filename.length ∧ segmentLoop filename pos = segmentLoop filename next := by
  by_cases inside : pos < filename.length
  · obtain ⟨segment, cut, segments⟩ := segment_at inside
    rw [iteration, if_pos inside, cut] at moved
    by_cases hidden : segment.head? = some ('_' : UInt8)
    · simp only [if_pos hidden] at moved
      cases moved
    · simp only [if_neg hidden] at moved
      obtain ⟨separator, found, rfl⟩ := Option.map_eq_some_iff.mp moved
      have forward := le_of_findFirstOf found
      have bound := lt_of_findFirstOf found
      refine ⟨by omega, by omega, ?_⟩
      rw [segmentLoop_eq, segmentLoop_eq, segments, found, List.any_cons, beq_eq_false_iff_ne.mpr hidden,
        Bool.false_or]
  · rw [iteration, if_neg inside] at moved
    cases moved

theorem inside_next {filename : Str} (pos next : ℕ) (_ : pos ≤ filename.length)
    (moved : iteration filename pos = some next) : next ≤ filename.length :=
  (iteration_spec moved).2.1

/-- What is left of the name gets shorter. -/
theorem iteration_shrinks {filename : Str} (pos next : ℕ) (_ : pos ≤ filename.length)
    (moved : iteration filename pos = some next) : filename.length - next < filename.length - pos := by
  obtain ⟨forward, bound, -⟩ := iteration_spec moved
  omega

theorem inside_of_reaches {filename : Str} {pos : ℕ} (reaches : Reaches (iteration filename) 0 pos) :
    pos ≤ filename.length :=
  Reaches.keeps inside_next (Nat.zero_le filename.length) reaches

theorem skip_of_reaches {filename : Str} {pos : ℕ} (reaches : Reaches (iteration filename) 0 pos) :
    skip filename = segmentLoop filename pos :=
  Reaches.relates (fun pos next => segmentLoop filename pos = segmentLoop filename next) (fun _ => rfl)
    (fun _ _ _ => Eq.trans) inside_next (fun _ _ _ moved => (iteration_spec moved).2.2)
    (Nat.zero_le filename.length) reaches

/-- The loop stops, cuts inside the name only, and finds the runs that begin with an underscore. -/
structure Recognises (filename : Str) : Prop where
  ends : ∃ last, EndsIn (iteration filename) 0 last ∧ skip filename = segmentLoop filename last
  inRange : ∀ pos, Reaches (iteration filename) 0 pos → ∀ count, ∃ segment, substr filename pos count = .ok segment
  skips : ∃ hidden, skip filename = .ok hidden ∧
    (hidden = true ↔ ∃ run, MaximalRun filename run ∧ run.head? = some ('_' : UInt8))

theorem skip_recognises (filename : Str) : Recognises filename := by
  constructor
  · obtain ⟨last, reaches, stops⟩ :=
      exists_end (filename.length - ·) inside_next iteration_shrinks (Nat.zero_le filename.length)
    exact ⟨last, ⟨reaches, stops⟩, skip_of_reaches reaches⟩
  · intro pos reaches count
    have inside := inside_of_reaches reaches
    cases count with
    | none => exact ⟨_, if_neg (Nat.not_lt.mpr inside)⟩
    | some count => exact ⟨_, if_neg (Nat.not_lt.mpr inside)⟩
  · obtain ⟨hidden, skips, meaning⟩ := skip_eq filename
    exact ⟨hidden, skips, meaning.trans (protected_iff filename)⟩

example : skip "/fonts\\_mine/a.ttf" = .ok true ∧ skip "fonts_mine//a_.ttf\\" = .ok false := by
  rw [skip, skip, segmentLoop_eq, segmentLoop_eq]
  exact ⟨congrArg _ (by decide +kernel), congrArg _ (by decide +kernel)⟩

end OsuTracker.Soundness.ProtectedNames
