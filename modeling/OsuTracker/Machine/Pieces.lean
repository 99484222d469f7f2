import OsuTracker.Machine.Substitution

/-! # Cutting at a name

A text is cut at the occurrences of a name that a search from left to right finds: in front of each
of them the name starts nowhere, and the search goes on behind it. There is one way to do so, and
joining the pieces with a value is putting the value for the name.
-/

namespace OsuTracker.Machine.Pieces

open Substitution

variable {α : Type*}

/-- The pieces of a text between the leftmost occurrences of a name that do not overlap. -/
inductive Cut (name : List α) : List α → List (List α) → Prop
  | last {text : List α} (clear : Clear name [] text) : Cut name text [text]
  | next {piece rest : List α} {pieces : List (List α)} (clear : Clear name (name ++ rest) piece)
      (later : Cut name rest pieces) : Cut name (piece ++ (name ++ rest)) (piece :: pieces)

variable {name : List α}

theorem Cut.ne_nil {text : List α} {pieces : List (List α)} (cut : Cut name text pieces) : pieces ≠ [] := by
  cases cut <;> exact List.cons_ne_nil _ _

/-- A character in front at which the name does not start belongs to the first piece. -/
theorem Cut.cons {c : α} {text first : List α} {pieces : List (List α)} (absent : ¬name <+: c :: text)
    (cut : Cut name text (first :: pieces)) : Cut name (c :: text) ((c :: first) :: pieces) := by
  cases cut with
  | last clear => exact .last ⟨by rwa [List.append_nil], clear⟩
  | @next _ rest _ clear later =>
    have longer : Clear name (name ++ rest) (c :: first) := ⟨absent, clear⟩
    exact .next longer later

/-! ## The pieces -/

variable [DecidableEq α]

/-- `skip` counts what is left of the occurrence found last. -/
def cutFrom (name : List α) : ℕ → List α → List (List α)
  | _, [] => [[]]
  | skip + 1, _ :: text => cutFrom name skip text
  | 0, c :: text =>
    if name <+: c :: text then [] :: cutFrom name (name.length - 1) text
    else (cutFrom name 0 text).modifyHead (c :: ·)

def pieces (name text : List α) : List (List α) := cutFrom name 0 text

theorem cutFrom_eq (skip : ℕ) (text : List α) : cutFrom name skip text = pieces name (text.drop skip) := by
  induction text generalizing skip with
  | nil => cases skip <;> rfl
  | cons c text ih =>
    cases skip with
    | zero => rfl
    | succ skip => exact ih skip

theorem pieces_name (nonempty : name ≠ []) (rest : List α) : pieces name (name ++ rest) = [] :: pieces name rest := by
  obtain ⟨c, tail, rfl⟩ := List.exists_cons_of_ne_nil nonempty
  have starts : c :: tail <+: c :: (tail ++ rest) := List.prefix_append (c :: tail) rest
  rw [List.cons_append, pieces, cutFrom, if_pos starts, cutFrom_eq, List.length_cons, Nat.add_sub_cancel,
    List.drop_left]

theorem pieces_cons {c : α} {text : List α} (absent : ¬name <+: c :: text) :
    pieces name (c :: text) = (pieces name text).modifyHead (c :: ·) := by
  rw [pieces, cutFrom, if_neg absent]
  rfl

theorem pieces_clear {part rest : List α} (clear : Clear name rest part) :
    pieces name (part ++ rest) = (pieces name rest).modifyHead (part ++ ·) := by
  induction part with
  | nil => exact List.modifyHead_id.symm ▸ rfl
  | cons c part ih =>
    rw [List.cons_append, pieces_cons clear.1, ih clear.2, List.modifyHead_modifyHead]
    rfl

theorem cut_pieces (nonempty : name ≠ []) (text : List α) : Cut name text (pieces name text) := by
  induction text using text_induction [] name nonempty nofun with
  | nil => exact .last trivial
  | found other value rest member => cases member
  | itself rest _ ih =>
    rw [pieces_name nonempty]
    have front : Clear name (name ++ rest) [] := trivial
    exact .next front ih
  | neither c text _ absent ih =>
    rw [pieces_cons absent]
    cases shown : pieces name text with
    | nil => exact absurd shown ih.ne_nil
    | cons first others =>
      rw [shown] at ih
      exact ih.cons absent

/-- A text is cut in one way. -/
theorem cut_iff (nonempty : name ≠ []) {text : List α} {cut : List (List α)} :
    Cut name text cut ↔ cut = pieces name text := by
  constructor
  · intro cuts
    induction cuts with
    | @last text clear =>
      have whole := pieces_clear clear
      rw [List.append_nil] at whole
      rw [whole]
      simp [pieces, cutFrom]
    | @next piece rest cut clear later ih =>
      rw [pieces_clear clear, pieces_name nonempty, List.modifyHead_cons, List.append_nil, ih]
  · rintro rfl
    exact cut_pieces nonempty text

/-- Putting a value for the name is joining the pieces with it. -/
theorem Cut.substitute_eq (nonempty : name ≠ []) {text : List α} {cut : List (List α)} (cuts : Cut name text cut)
    (value : List α) : substitute [(name, value)] text = value.intercalate cut := by
  induction cuts with
  | last clear => rw [substitute_single_of_clear value clear, List.intercalate_singleton]
  | next clear later ih =>
    rw [substitute_single_clear value clear, substitute_single_name value nonempty, ih,
      List.intercalate_cons_of_ne_nil later.ne_nil, List.append_assoc]

end OsuTracker.Machine.Pieces
