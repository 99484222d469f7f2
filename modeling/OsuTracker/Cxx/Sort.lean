import Mathlib.Data.List.Sort

/-! # `std::sort`

Sorting by a comparison promises a permutation in which no element is less than an earlier one;
the order of equivalent elements is unspecified. A `StdSort` is any function with that promise,
so a result about all of them holds of every implementation and every tie.
-/

namespace OsuTracker.Cxx

structure StdSort {α : Type*} (less : α → α → Bool) where
  run : List α → List α
  perm : ∀ xs, (run xs).Perm xs
  sorted : ∀ xs, (run xs).Pairwise fun a b => less b a = false

namespace StdSort

variable {α κ : Type*} [LinearOrder κ]

/-- The comparison of two elements by a key. -/
def byKey (key : α → κ) (a b : α) : Bool := decide (key a < key b)

/-- The stable sort by a key is one of the allowed ones. -/
def stable (key : α → κ) : StdSort (byKey key) where
  run := List.insertionSort fun a b => key a ≤ key b
  perm := List.perm_insertionSort _
  sorted xs := by
    have : Std.Total fun a b : α => key a ≤ key b := ⟨fun a b => le_total (key a) (key b)⟩
    have : IsTrans α fun a b => key a ≤ key b := ⟨fun _ _ _ => le_trans⟩
    refine (List.pairwise_insertionSort (fun a b => key a ≤ key b) xs).imp fun ordered => ?_
    simpa [byKey] using ordered

/-- So is the one that reverses ties. -/
def reversingTies (key : α → κ) : StdSort (byKey key) where
  run xs := (stable key).run xs.reverse
  perm xs := ((stable key).perm xs.reverse).trans (List.reverse_perm xs)
  sorted xs := (stable key).sorted xs.reverse

private theorem eq_of_key_eq {key : α → κ} {xs : List α} (increasing : xs.Pairwise fun a b => key a < key b)
    {a b : α} (left : a ∈ xs) (right : b ∈ xs) (same : key a = key b) : a = b := by
  have separated : ∀ ⦃a⦄, a ∈ xs → ∀ ⦃b⦄, b ∈ xs → key a = key b → a = b :=
    List.Pairwise.forall_of_forall_of_flip (fun _ _ _ => rfl)
      (increasing.imp fun below equal => absurd equal (ne_of_lt below))
      (increasing.imp fun below equal => absurd equal (ne_of_gt below))
  exact separated left right same

/-- A list whose keys strictly increase is what every sort makes of its permutations. -/
theorem run_eq_of_perm {key : α → κ} (sort : StdSort (byKey key)) {xs ys : List α} (perm : xs.Perm ys)
    (increasing : ys.Pairwise fun a b => key a < key b) : sort.run xs = ys := by
  have permuted := (sort.perm xs).trans perm
  refine @List.Perm.eq_of_pairwise _ (fun a b => key a ≤ key b) _ _ ?_ ?_ ?_ permuted
  · intro a b left right below above
    exact eq_of_key_eq increasing (permuted.mem_iff.mp left) right (le_antisymm below above)
  · exact (sort.sorted xs).imp fun ordered => by simpa [byKey] using ordered
  · exact increasing.imp le_of_lt

/-- Sorting a list whose keys strictly increase returns it. -/
theorem run_eq_self {key : α → κ} (sort : StdSort (byKey key)) {xs : List α}
    (increasing : xs.Pairwise fun a b => key a < key b) : sort.run xs = xs :=
  sort.run_eq_of_perm (.refl xs) increasing

private theorem not_sublist_swap {xs : List α} (distinct : xs.Nodup) {a b : α} (sub : [a, b].Sublist xs) :
    ¬[b, a].Sublist xs := by
  induction xs with
  | nil => cases sub
  | cons x xs ih =>
    obtain ⟨fresh, rest⟩ := List.nodup_cons.mp distinct
    rintro (_ | _) <;> rcases sub with (_ | _)
    · next swapped inside => exact ih rest inside swapped
    · next swapped _ => exact fresh (swapped.mem (by simp))
    · next _ inside => exact fresh (inside.mem (by simp))
    · next same _ => exact fresh (same.mem (by simp))

private theorem pair_sublist_stable (key : α → κ) {a b : α} {xs : List α} (ordered : key a ≤ key b)
    (sub : [a, b].Sublist xs) : [a, b].Sublist ((stable key).run xs) := by
  have : Std.Total fun a b : α => key a ≤ key b := ⟨fun a b => le_total (key a) (key b)⟩
  have : IsTrans α fun a b => key a ≤ key b := ⟨fun _ _ _ => le_trans⟩
  exact List.pair_sublist_insertionSort ordered sub

/-- A list that every sort returns unchanged has strictly increasing keys. -/
theorem increasing_of_runs {key : α → κ} {xs : List α} (distinct : xs.Nodup)
    (unchanged : ∀ sort : StdSort (byKey key), sort.run xs = xs) : xs.Pairwise fun a b => key a < key b := by
  have ordered : xs.Pairwise fun a b => key a ≤ key b := by
    have sorted := (stable key).sorted xs
    rw [unchanged] at sorted
    exact sorted.imp fun below => by simpa [byKey] using below
  rw [List.pairwise_iff_forall_sublist] at ordered ⊢
  intro a b sub
  refine lt_of_le_of_ne (ordered sub) fun same => ?_
  have swapped : [b, a].Sublist xs := by
    have moved := pair_sublist_stable key (le_of_eq same.symm) (by simpa using sub.reverse)
    rwa [← unchanged (reversingTies key)]
  exact not_sublist_swap distinct sub swapped

end StdSort

end OsuTracker.Cxx
