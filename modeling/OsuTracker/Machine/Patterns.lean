import Mathlib.Data.List.Forall2

/-! # Backtracking patterns

A pattern is a sequence of words and of repetitions of a class of letters. The matcher tries longer
repetitions first and goes back when the rest does not match, so it lists all matches that begin
at a place, the preferred one first; a search takes the first match at the leftmost place that has
one. What is listed is just what fits, so a match that is the only one is found.
-/

namespace OsuTracker.Machine.Patterns

variable {α : Type*}

inductive Piece (α : Type*) where
  | word (text : List α)
  | repeated (least : ℕ) (allowed : α → Bool)

abbrev Pattern (α : Type*) := List (Piece α)

def Piece.Fits : Piece α → List α → Prop
  | .word text, taken => taken = text
  | .repeated least allowed, taken => least ≤ taken.length ∧ ∀ a ∈ taken, allowed a = true

/-! ## Matching -/

/-- The heads of a list that consist of allowed letters, the longest first, with what follows. -/
def heads (allowed : α → Bool) : List α → List (List α × List α)
  | [] => [([], [])]
  | a :: s =>
    if allowed a then (heads allowed s).map (fun cut => (a :: cut.1, cut.2)) ++ [([], a :: s)] else [([], a :: s)]

theorem mem_heads {allowed : α → Bool} {s taken rest : List α} :
    (taken, rest) ∈ heads allowed s ↔ (∀ a ∈ taken, allowed a = true) ∧ taken ++ rest = s := by
  induction s generalizing taken with
  | nil => simp +contextual [heads]
  | cons a s ih =>
    cases taken with
    | nil =>
      unfold heads
      split <;> simp
    | cons b taken =>
      unfold heads
      split
      · next permitted =>
        simp only [List.mem_append, List.mem_map, Prod.exists, Prod.mk.injEq, List.cons.injEq, List.mem_singleton,
          reduceCtorEq, false_and, or_false, List.forall_mem_cons, List.cons_append]
        constructor
        · rintro ⟨taken', rest', listed, ⟨rfl, rfl⟩, rfl⟩
          obtain ⟨all, same⟩ := ih.mp listed
          exact ⟨⟨permitted, all⟩, rfl, same⟩
        · rintro ⟨⟨_, all⟩, rfl, same⟩
          exact ⟨taken, rest, ih.mpr ⟨all, same⟩, ⟨rfl, rfl⟩, rfl⟩
      · next refused =>
        simp only [List.mem_singleton, Prod.mk.injEq, reduceCtorEq, false_and, List.forall_mem_cons, List.cons_append,
          List.cons.injEq, false_iff]
        rintro ⟨⟨permitted, _⟩, rfl, _⟩
        exact refused permitted

section Matching

variable [DecidableEq α]

def Piece.takes : Piece α → List α → List (List α × List α)
  | .word text, s => if text <+: s then [(text, s.drop text.length)] else []
  | .repeated least allowed, s => (heads allowed s).filter fun cut => least ≤ cut.1.length

theorem Piece.mem_takes {piece : Piece α} {s taken rest : List α} :
    (taken, rest) ∈ piece.takes s ↔ piece.Fits taken ∧ taken ++ rest = s := by
  cases piece with
  | word text =>
    change (taken, rest) ∈ (if text <+: s then [(text, s.drop text.length)] else []) ↔ _
    split
    · next starts =>
      obtain ⟨later, rfl⟩ := starts
      simp only [List.drop_left, List.mem_singleton, Prod.mk.injEq, Piece.Fits]
      constructor
      · rintro ⟨rfl, rfl⟩
        exact ⟨rfl, rfl⟩
      · rintro ⟨rfl, same⟩
        exact ⟨rfl, List.append_cancel_left same⟩
    · next starts =>
      simp only [List.not_mem_nil, Piece.Fits, false_iff]
      rintro ⟨rfl, same⟩
      exact starts ⟨rest, same⟩
  | repeated least allowed =>
    rw [Piece.takes, List.mem_filter, mem_heads, decide_eq_true_iff]
    exact ⟨fun ⟨⟨all, same⟩, long⟩ => ⟨⟨long, all⟩, same⟩, fun ⟨⟨long, all⟩, same⟩ => ⟨⟨all, same⟩, long⟩⟩

/-- The matches that begin at the front: the text of every piece, and what follows. -/
def results : Pattern α → List α → List (List (List α) × List α)
  | [], s => [([], s)]
  | piece :: rest, s =>
    (piece.takes s).flatMap fun cut => (results rest cut.2).map fun found => (cut.1 :: found.1, found.2)

theorem mem_results {pattern : Pattern α} {s rest : List α} {texts : List (List α)} :
    (texts, rest) ∈ results pattern s ↔ List.Forall₂ Piece.Fits pattern texts ∧ texts.flatten ++ rest = s := by
  induction pattern generalizing s texts with
  | nil =>
    simp only [results, List.mem_singleton, Prod.mk.injEq, List.forall₂_nil_left_iff]
    constructor
    · rintro ⟨rfl, rfl⟩
      exact ⟨rfl, rfl⟩
    · rintro ⟨rfl, rfl⟩
      exact ⟨rfl, rfl⟩
  | cons piece pattern ih =>
    simp only [results, List.mem_flatMap, List.mem_map, Prod.exists, Prod.mk.injEq, Piece.mem_takes,
      List.forall₂_cons_left_iff]
    constructor
    · rintro ⟨taken, later, ⟨fits, rfl⟩, texts', rest', listed, rfl, rfl⟩
      obtain ⟨others, rfl⟩ := ih.mp listed
      exact ⟨⟨taken, texts', fits, others, rfl⟩, by simp⟩
    · rintro ⟨⟨taken, texts', fits, others, rfl⟩, same⟩
      exact ⟨taken, _, ⟨fits, by simpa using same⟩, texts', rest, ih.mpr ⟨others, rfl⟩, rfl, rfl⟩

/-! ## Searching -/

/-- What comes before the match, the texts of its pieces, and what follows it. -/
def search (pattern : Pattern α) : List α → Option (List α × List (List α) × List α)
  | [] => (results pattern []).head?.map fun found => ([], found)
  | a :: s =>
    match (results pattern (a :: s)).head? with
    | some found => some ([], found)
    | none => (search pattern s).map fun found => (a :: found.1, found.2)

/-- Where no match begins, the search goes on. -/
theorem search_append {pattern : Pattern α} {front rest : List α}
    (none : ∀ tail, tail <:+ front → tail ≠ [] → results pattern (tail ++ rest) = []) :
    search pattern (front ++ rest) = (search pattern rest).map fun found => (front ++ found.1, found.2) := by
  induction front with
  | nil => simp
  | cons a front ih =>
    have here := none (a :: front) (List.suffix_refl _) (List.cons_ne_nil _ _)
    rw [List.cons_append] at here
    rw [List.cons_append, search, here, ih fun tail ends => none tail (ends.trans (List.suffix_cons a front))]
    cases search pattern rest <;> rfl

/-- The only match at the front is found. -/
theorem search_of_unique {pattern : Pattern α} {s rest : List α} {texts : List (List α)}
    (fits : List.Forall₂ Piece.Fits pattern texts) (whole : texts.flatten ++ rest = s)
    (unique : ∀ texts' rest', List.Forall₂ Piece.Fits pattern texts' → texts'.flatten ++ rest' = s → texts' = texts) :
    search pattern s = some ([], texts, rest) := by
  have listed : (texts, rest) ∈ results pattern s := mem_results.mpr ⟨fits, whole⟩
  have first : (results pattern s).head? = some (texts, rest) := by
    cases all : results pattern s with
    | nil =>
      rw [all] at listed
      cases listed
    | cons found others =>
      obtain ⟨fits', whole'⟩ := mem_results.mp (all ▸ List.mem_cons_self : found ∈ results pattern s)
      have same := unique _ _ fits' whole'
      have rests : found.2 = rest := by
        rw [same, ← whole] at whole'
        exact List.append_cancel_left whole'
      exact congrArg some (Prod.ext same rests)
  cases s with
  | nil => rw [search, first, Option.map_some]
  | cons a s => rw [search, first]

end Matching

end OsuTracker.Machine.Patterns
