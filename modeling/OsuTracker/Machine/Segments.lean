import Mathlib.Data.List.Basic
import Mathlib.Tactic.Common

/-! # Segments of a text

The segments between the separators of a text are its stretches without a separator that reach on
both sides to one or to the end of the text.
-/

namespace OsuTracker.Machine.Segments

variable {α : Type*} (separates : α → Bool)

/-- Between `before` and `after` stands a stretch without a separator that cannot be made longer. -/
structure Segment (text before segment after : List α) : Prop where
  split : text = before ++ segment ++ after
  plain : ∀ c ∈ segment, separates c = false
  left : ∀ c ∈ before.getLast?, separates c = true
  right : ∀ c ∈ after.head?, separates c = true

/-- No separator, or a first one. -/
theorem first_separator (text : List α) :
    (∀ c ∈ text, separates c = false) ∨
      ∃ first c rest, text = first ++ c :: rest ∧ (∀ d ∈ first, separates d = false) ∧ separates c = true := by
  induction text with
  | nil => exact .inl nofun
  | cons c text ih =>
    cases here : separates c with
    | true => exact .inr ⟨[], c, text, rfl, nofun, here⟩
    | false =>
      rcases ih with plain | ⟨first, d, rest, rfl, plain, found⟩
      · exact .inl (List.forall_mem_cons.mpr ⟨here, plain⟩)
      · exact .inr ⟨c :: first, d, rest, rfl, List.forall_mem_cons.mpr ⟨here, plain⟩, found⟩

/-- Induction on the separators. -/
theorem separator_induction {motive : List α → Prop} (last : ∀ text, (∀ c ∈ text, separates c = false) → motive text)
    (next : ∀ first c rest, (∀ d ∈ first, separates d = false) → separates c = true → motive rest →
      motive (first ++ c :: rest)) (text : List α) : motive text := by
  rcases first_separator separates text with plain | ⟨first, c, rest, same, plain, found⟩
  · exact last text plain
  · have shorter : rest.length < text.length := by
      rw [same, List.length_append, List.length_cons]
      omega
    rw [same]
    exact next first c rest plain found (separator_induction last next rest)
termination_by text.length

variable {separates}

/-- A text without a separator is its own segment. -/
theorem Segment.whole {text : List α} (plain : ∀ c ∈ text, separates c = false) :
    Segment separates text [] text [] where
  split := by rw [List.nil_append, List.append_nil]
  plain := plain
  left := nofun
  right := nofun

theorem Segment.first {first rest : List α} {c : α} (plain : ∀ d ∈ first, separates d = false)
    (found : separates c = true) : Segment separates (first ++ c :: rest) [] first (c :: rest) where
  split := rfl
  plain := plain
  left := nofun
  right := by
    intro d here
    obtain rfl := Option.some.inj here
    exact found

/-- A segment behind a separator. -/
theorem Segment.behind {text before segment after : List α} (own : Segment separates text before segment after)
    (front : List α) {c : α} (found : separates c = true) :
    Segment separates (front ++ c :: text) (front ++ c :: before) segment after where
  split := by rw [own.split, List.append_assoc front, List.append_assoc front, List.cons_append, List.cons_append]
  plain := own.plain
  left := by
    intro d here
    cases last : before.getLast? with
    | none =>
      simp only [List.getLast?_append, List.getLast?_cons, last, Option.getD_none, Option.some_or] at here
      exact Option.some.inj here ▸ found
    | some e =>
      simp only [List.getLast?_append, List.getLast?_cons, last, Option.getD_some, Option.some_or] at here
      exact own.left d (last.trans here)
  right := own.right

theorem Segment.mem_splitOnP {text before segment after : List α} (own : Segment separates text before segment after) :
    segment ∈ text.splitOnP separates := by
  have leads : segment ∈ (segment ++ after).splitOnP separates := by
    cases after with
    | nil =>
      rw [List.append_nil, List.splitOnP_eq_singleton own.plain]
      exact List.mem_singleton_self _
    | cons c rear =>
      rw [List.splitOnP_append_cons_of_forall_mem own.plain c (own.right c rfl)]
      exact List.mem_cons_self
  rw [own.split, List.append_assoc]
  rcases List.eq_nil_or_concat' before with rfl | ⟨front, c, rfl⟩
  · exact leads
  · have found : separates c = true := own.left c List.getLast?_concat
    rw [List.append_assoc, List.singleton_append, List.splitOnP_append_cons front _ found]
    exact List.mem_append_right _ leads

theorem mem_splitOnP_iff {text segment : List α} :
    segment ∈ text.splitOnP separates ↔ ∃ before after, Segment separates text before segment after := by
  refine ⟨fun member => ?_, fun ⟨_, _, own⟩ => own.mem_splitOnP⟩
  induction text using separator_induction separates with
  | last text plain =>
    rw [List.splitOnP_eq_singleton plain, List.mem_singleton] at member
    subst member
    exact ⟨[], [], .whole plain⟩
  | next first c rest plain found ih =>
    rw [List.splitOnP_append_cons_of_forall_mem plain c found, List.mem_cons] at member
    rcases member with rfl | member
    · exact ⟨[], c :: rest, .first plain found⟩
    · obtain ⟨before, after, own⟩ := ih member
      exact ⟨first ++ c :: before, after, own.behind first found⟩

end OsuTracker.Machine.Segments
