import OsuTracker.Machine.Loops
import OsuTracker.Machine.Pieces
import OsuTracker.Model.Core.Helpers

/-! # What replacing does

`replace` searches a string that it rewrites as it goes. What it has not passed yet is always the
end of the string it was given, so it finds the occurrences that a scan of that string finds.
-/

namespace OsuTracker.Soundness.Replacing

open Cxx Model.Core.Helpers Machine.Substitution Machine.Loops Machine.Pieces

/-! ## Searching -/

theorem find_nil {front pattern : Str} (nonempty : pattern ≠ []) : find front pattern front.length = none := by
  obtain ⟨c, tail, rfl⟩ := List.exists_cons_of_ne_nil nonempty
  have one : front.length + 1 - front.length = 1 := by omega
  simp [find, one]

theorem find_cons (front : Str) (c : UInt8) (rest pattern : Str) :
    find (front ++ c :: rest) pattern front.length =
      if pattern <+: c :: rest then some front.length
      else find (front ++ [c] ++ rest) pattern (front ++ [c]).length := by
  have left : (front ++ c :: rest).length + 1 - front.length = rest.length + 1 + 1 := by
    rw [List.length_append, List.length_cons]
    omega
  have after : (front ++ [c] ++ rest).length + 1 - (front ++ [c]).length = rest.length + 1 := by
    rw [List.length_append]
    omega
  rw [find, left, List.range'_succ, List.find?_cons, List.drop_left, find, after, List.append_assoc,
    List.singleton_append, List.length_append, List.length_singleton]
  by_cases starts : pattern <+: c :: rest
  · rw [if_pos starts, List.isPrefixOf_iff_prefix.mpr starts]
  · rw [if_neg starts, Bool.eq_false_iff.mpr (mt List.isPrefixOf_iff_prefix.mp starts)]

/-- The search behind `front` finds the first occurrence in `rest`. -/
theorem find_spec {pattern : Str} (nonempty : pattern ≠ []) (front rest : Str) :
    (find (front ++ rest) pattern front.length = none ∧ Clear pattern [] rest) ∨
      ∃ before after, rest = before ++ (pattern ++ after) ∧ Clear pattern (pattern ++ after) before ∧
        find (front ++ rest) pattern front.length = some (front.length + before.length) := by
  induction rest generalizing front with
  | nil =>
    rw [List.append_nil]
    exact .inl ⟨find_nil nonempty, trivial⟩
  | cons c rest ih =>
    rw [find_cons]
    by_cases starts : pattern <+: c :: rest
    · obtain ⟨after, same⟩ := starts
      rw [if_pos ⟨after, same⟩]
      exact .inr ⟨[], after, same.symm, trivial, rfl⟩
    · rw [if_neg starts]
      rcases ih (front ++ [c]) with ⟨unfound, clear⟩ | ⟨before, after, same, clear, found⟩
      · exact .inl ⟨unfound, by rwa [List.append_nil], clear⟩
      · refine .inr ⟨c :: before, after, congrArg (c :: ·) same, ⟨same ▸ starts, clear⟩, ?_⟩
        rw [found, List.length_append, List.length_singleton, List.length_cons, Nat.add_assoc, Nat.add_comm 1]

/-! ## Iterations -/

/-- The variables of the loop. -/
structure Position where
  start : ℕ
  str : Str
deriving DecidableEq, Repr

/-- The body of the loop, if its condition holds. -/
def iteration (pattern replacement : Str) (s : Position) : Option Position :=
  (find s.str pattern s.start).map fun position =>
    ⟨position + replacement.length, s.str.take position ++ replacement ++ s.str.drop (position + pattern.length)⟩

/-- The search goes on behind `front`, with `rest` still to be searched. -/
def behind (front rest : Str) : Position := ⟨front.length, front ++ rest⟩

@[simp] theorem take_behind (front rest : Str) : (behind front rest).str.take (behind front rest).start = front :=
  List.take_left

@[simp] theorem drop_behind (front rest : Str) : (behind front rest).str.drop (behind front rest).start = rest :=
  List.drop_left

/-- Behind `front` the loop stops, or the first occurrence in `rest` is replaced and passed. -/
theorem iteration_spec {pattern : Str} (nonempty : pattern ≠ []) (replacement front rest : Str) :
    (iteration pattern replacement (behind front rest) = none ∧ Clear pattern [] rest) ∨
      ∃ before after, rest = before ++ (pattern ++ after) ∧ Clear pattern (pattern ++ after) before ∧
        iteration pattern replacement (behind front rest) = some (behind (front ++ before ++ replacement) after) := by
  rcases find_spec nonempty front rest with ⟨unfound, clear⟩ | ⟨before, after, rfl, clear, found⟩
  · exact .inl ⟨by rw [iteration, behind, unfound]; rfl, clear⟩
  · refine .inr ⟨before, after, rfl, clear, ?_⟩
    have position : front.length + before.length + replacement.length = (front ++ before ++ replacement).length := by
      rw [List.length_append, List.length_append]
    have rewritten : (front ++ (before ++ (pattern ++ after))).take (front.length + before.length) ++ replacement ++
        (front ++ (before ++ (pattern ++ after))).drop (front.length + before.length + pattern.length) =
          front ++ before ++ replacement ++ after := by
      rw [← List.append_assoc front before, ← List.length_append, List.take_left, ← List.append_assoc _ pattern,
        ← List.length_append, List.drop_left]
    rw [iteration, behind, found, Option.map_some, rewritten, position, behind]

theorem replaceFrom_stop {pattern replacement : Str} (fuel : ℕ) (s : Position)
    (stops : iteration pattern replacement s = none) :
    replaceFrom pattern replacement (fuel + 1) s.start s.str = s.str := by
  rw [replaceFrom, Option.map_eq_none_iff.mp stops]

theorem replaceFrom_next {pattern replacement : Str} (fuel : ℕ) (s t : Position)
    (moved : iteration pattern replacement s = some t) :
    replaceFrom pattern replacement (fuel + 1) s.start s.str = replaceFrom pattern replacement fuel t.start t.str := by
  obtain ⟨position, found, rfl⟩ := Option.map_eq_some_iff.mp moved
  rw [replaceFrom, found]

/-! ## Replacing -/

/-- The loop, when it is behind `front`. -/
theorem replaceFrom_eq {pattern : Str} (nonempty : pattern ≠ []) (replacement : Str) (fuel : ℕ) (front rest : Str)
    (enough : rest.length < fuel) :
    replaceFrom pattern replacement fuel front.length (front ++ rest) =
      front ++ substitute [(pattern, replacement)] rest := by
  induction fuel generalizing front rest with
  | zero => omega
  | succ fuel ih =>
    rcases iteration_spec nonempty replacement front rest with
      ⟨stops, clear⟩ | ⟨before, after, rfl, clear, moved⟩
    · rw [substitute_single_of_clear replacement clear]
      exact replaceFrom_stop fuel _ stops
    · have shorter : after.length < fuel := by
        have := List.length_pos_of_ne_nil nonempty
        simp only [List.length_append] at enough
        omega
      calc replaceFrom pattern replacement (fuel + 1) front.length (front ++ (before ++ (pattern ++ after)))
          = replaceFrom pattern replacement fuel (front ++ before ++ replacement).length
              (front ++ before ++ replacement ++ after) := replaceFrom_next fuel _ _ moved
        _ = front ++ before ++ replacement ++ substitute [(pattern, replacement)] after := ih _ after shorter
        _ = front ++ substitute [(pattern, replacement)] (before ++ (pattern ++ after)) := by
          rw [substitute_single_clear replacement clear, substitute_single_name replacement nonempty]
          simp only [List.append_assoc]

theorem replace_eq {pattern : Str} (nonempty : pattern ≠ []) (str replacement : Str) :
    replace str pattern replacement = substitute [(pattern, replacement)] str := by
  rw [replace, if_neg nonempty]
  exact replaceFrom_eq nonempty replacement (str.length + 1) [] str (Nat.lt_succ_self _)

/-- Replacing one character by nothing drops it everywhere. -/
theorem replace_singleton (str : Str) (c : UInt8) : replace str [c] [] = str.filter (· ≠ c) := by
  rw [replace_eq (List.cons_ne_nil c [])]
  induction str with
  | nil => rfl
  | cons d str ih =>
    by_cases same : c = d
    · subst same
      have dropped : substitute [([c], [])] ([c] ++ str) = [] ++ substitute [([c], [])] str :=
        substitute_name (List.cons_ne_nil c []) (by simp)
      rw [List.singleton_append] at dropped
      rw [dropped, ih, List.filter_cons_of_neg (by simp), List.nil_append]
    · have kept : ∀ entry ∈ [([c], ([] : Str))], ¬entry.1 <+: d :: str := by
        intro entry member starts
        rw [List.mem_singleton.mp member, List.cons_prefix_cons] at starts
        exact same starts.1
      rw [substitute_cons kept, ih, List.filter_cons_of_pos (by simpa using Ne.symm same)]

/-! ## The loop -/

/-- The loop stops and its string is returned: the pieces between the leftmost occurrences that do not
overlap, joined with the replacement. All that is searched is the end of the string given, and what has
been passed stays. -/
structure SplitsAndJoins (str pattern replacement : Str) : Prop where
  ends : ∃ last, EndsIn (iteration pattern replacement) ⟨0, str⟩ last ∧ replace str pattern replacement = last.str
  joined : ∃ pieces, Cut pattern str pieces ∧ (∀ other, Cut pattern str other → other = pieces) ∧
    replace str pattern replacement = replacement.intercalate pieces
  searched : ∀ s, Reaches (iteration pattern replacement) ⟨0, str⟩ s →
    s.start ≤ s.str.length ∧ s.str.drop s.start <:+ str
  /-- The next search begins behind the text that was inserted. -/
  inserted : ∀ s t, Reaches (iteration pattern replacement) ⟨0, str⟩ s → iteration pattern replacement s = some t →
    ∃ before, s.str.drop s.start = before ++ (pattern ++ t.str.drop t.start) ∧
      t.str.take t.start = s.str.take s.start ++ before ++ replacement
  passed : ∀ s t, Reaches (iteration pattern replacement) ⟨0, str⟩ s → Reaches (iteration pattern replacement) s t →
    s.start ≤ t.start ∧ t.str.take s.start = s.str.take s.start

/-- Behind some text, with an end of the string given still to be searched. -/
def Within (str : Str) (s : Position) : Prop := ∃ front rest, s = behind front rest ∧ rest <:+ str

theorem within_start (str : Str) : Within str ⟨0, str⟩ := ⟨[], str, rfl, List.suffix_rfl⟩

variable {str pattern replacement : Str}

/-- What an iteration does in such a state. -/
theorem iteration_within (nonempty : pattern ≠ []) {s t : Position} (within : Within str s)
    (moved : iteration pattern replacement s = some t) :
    ∃ front before after, s = behind front (before ++ (pattern ++ after)) ∧
      t = behind (front ++ before ++ replacement) after ∧ before ++ (pattern ++ after) <:+ str := by
  obtain ⟨front, rest, rfl, ending⟩ := within
  rcases iteration_spec nonempty replacement front rest with ⟨stops, _⟩ | ⟨before, after, rfl, _, next⟩
  · cases stops.symm.trans moved
  · obtain rfl := Option.some.inj (next.symm.trans moved)
    exact ⟨front, before, after, rfl, rfl, ending⟩

theorem within_next (nonempty : pattern ≠ []) (s t : Position) (within : Within str s)
    (moved : iteration pattern replacement s = some t) : Within str t := by
  obtain ⟨front, before, after, -, rfl, ending⟩ := iteration_within nonempty within moved
  refine ⟨_, after, rfl, List.IsSuffix.trans ?_ ending⟩
  rw [← List.append_assoc]
  exact List.suffix_append _ after

/-- What is still to be searched gets shorter. -/
theorem iteration_shrinks (nonempty : pattern ≠ []) (s t : Position) (within : Within str s)
    (moved : iteration pattern replacement s = some t) :
    (t.str.drop t.start).length < (s.str.drop s.start).length := by
  obtain ⟨front, before, after, rfl, rfl, -⟩ := iteration_within nonempty within moved
  have := List.length_pos_of_ne_nil nonempty
  rw [drop_behind, drop_behind, List.length_append, List.length_append]
  omega

/-- What is in front of the position stays. -/
def Kept (s t : Position) : Prop := s.start ≤ t.start ∧ t.str.take s.start = s.str.take s.start

theorem Kept.trans {s t u : Position} (first : Kept s t) (second : Kept t u) : Kept s u := by
  refine ⟨first.1.trans second.1, ?_⟩
  calc u.str.take s.start = (u.str.take t.start).take s.start := by rw [List.take_take, min_eq_left first.1]
    _ = (t.str.take t.start).take s.start := by rw [second.2]
    _ = t.str.take s.start := by rw [List.take_take, min_eq_left first.1]
    _ = s.str.take s.start := first.2

theorem iteration_kept (nonempty : pattern ≠ []) (s t : Position) (within : Within str s)
    (moved : iteration pattern replacement s = some t) : Kept s t := by
  obtain ⟨front, before, after, rfl, rfl, -⟩ := iteration_within nonempty within moved
  have longer : (behind (front ++ before ++ replacement) after).str = front ++ (before ++ replacement ++ after) := by
    simp only [behind, List.append_assoc]
  refine ⟨?_, ?_⟩
  · simp only [behind, List.length_append]
    omega
  · rw [take_behind, longer]
    exact List.take_left

theorem splitsAndJoins (nonempty : pattern ≠ []) : SplitsAndJoins str pattern replacement := by
  have within {s : Position} (reaches : Reaches (iteration pattern replacement) ⟨0, str⟩ s) : Within str s :=
    Reaches.keeps (within_next nonempty) (within_start str) reaches
  constructor
  · have ends := exists_endsIn (fun fuel s => replaceFrom pattern replacement fuel s.start s.str) Position.str
      (fun s => (s.str.drop s.start).length) (within_next nonempty) (iteration_shrinks nonempty) replaceFrom_stop
      replaceFrom_next (within_start str) (Nat.lt_succ_self str.length)
    rwa [replace, if_neg nonempty]
  · refine ⟨pieces pattern str, cut_pieces nonempty str, fun other cut => (cut_iff nonempty).mp cut, ?_⟩
    rw [replace_eq nonempty, (cut_pieces nonempty str).substitute_eq nonempty]
  · intro s reaches
    obtain ⟨front, rest, rfl, ending⟩ := within reaches
    refine ⟨?_, by rwa [drop_behind]⟩
    simp only [behind, List.length_append]
    omega
  · intro s t reaches moved
    obtain ⟨front, before, after, rfl, rfl, -⟩ := iteration_within nonempty (within reaches) moved
    exact ⟨before, by rw [drop_behind, drop_behind], by rw [take_behind, take_behind]⟩
  · intro s t reaches onward
    exact Reaches.relates Kept (fun s => ⟨le_rfl, rfl⟩) (fun _ _ _ => Kept.trans) (within_next nonempty)
      (iteration_kept nonempty) (within reaches) onward

theorem replace_splits_and_joins (str pattern replacement : Str) :
    (pattern = [] → replace str pattern replacement = str) ∧
      (pattern ≠ [] → SplitsAndJoins str pattern replacement) :=
  ⟨fun empty => if_pos empty, splitsAndJoins⟩

/-- The pattern overlaps itself, and the replacement contains it. -/
example : replace "aaaaa" "aa" "aab" = "aabaaba" := by decide +kernel

end OsuTracker.Soundness.Replacing
