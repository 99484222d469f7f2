import Mathlib.Data.List.Nodup

/-! # Entries read in order into named cells

Every entry names a cell. Reading it puts a value there, leaves the cell, or fails, and a failure
ends the reading. What is intended looks at one cell and its own entry only. With distinct names
the two agree exactly when they agree cell by cell: behind a failure when the entry asks for what
the cell holds already, elsewhere when reading the entry does what the entry asks for.
-/

namespace OsuTracker.Machine.NamedEntries

variable {ι κ ν : Type*} [DecidableEq κ] (name : ι → κ) (effect : ι → Option (Option ν)) (accepted : ι → Option ν)

/-- The cells after reading; no effect at all is a failure. -/
def readAll : List ι → (κ → ν) → κ → ν
  | [], cells => cells
  | entry :: rest, cells =>
    match effect entry with
    | none => cells
    | some none => readAll rest cells
    | some (some value) => readAll rest (Function.update cells (name entry) value)

/-- Each cell with the value its own entry asks for. -/
def intended (entries : List ι) (cells : κ → ν) (key : κ) : ν :=
  ((entries.find? fun entry => name entry = key).bind accepted).getD (cells key)

variable {name effect accepted}

theorem readAll_of_not_mem {entries : List ι} {key : κ} (absent : key ∉ entries.map name) (cells : κ → ν) :
    readAll name effect entries cells key = cells key := by
  induction entries generalizing cells with
  | nil => rfl
  | cons entry rest ih =>
    rw [List.map_cons, List.mem_cons, not_or] at absent
    rw [readAll]
    cases effect entry with
    | none => rfl
    | some change =>
      cases change with
      | none => exact ih absent.2 cells
      | some value => exact (ih absent.2 _).trans (Function.update_of_ne absent.1 ..)

/-- The cell of one entry depends on that entry, and on whether a failure came before it. -/
theorem readAll_name {before after : List ι} {entry : ι} (distinct : ((before ++ entry :: after).map name).Nodup)
    (cells : κ → ν) : readAll name effect (before ++ entry :: after) cells (name entry) =
      if before.all fun e => (effect e).isSome then (effect entry).join.getD (cells (name entry))
      else cells (name entry) := by
  induction before generalizing cells with
  | nil =>
    have absent : name entry ∉ after.map name := (List.nodup_cons.mp distinct).1
    rw [List.nil_append, readAll, List.all_nil, if_pos rfl]
    cases effect entry with
    | none => rfl
    | some change =>
      cases change with
      | none => exact readAll_of_not_mem absent cells
      | some value => exact (readAll_of_not_mem absent _).trans (Function.update_self ..)
  | cons first before ih =>
    have later := (List.nodup_cons.mp distinct).2
    have other : name entry ≠ name first := by
      intro same
      exact (List.nodup_cons.mp distinct).1 (same ▸ List.mem_map_of_mem (List.mem_append_right _ List.mem_cons_self))
    rw [List.cons_append, readAll, List.all_cons]
    cases effect first with
    | none => rfl
    | some change =>
      cases change with
      | none => exact ih later cells
      | some value =>
        have rest := ih later (Function.update cells (name first) value)
        rwa [Function.update_of_ne other] at rest

theorem intended_of_not_mem {entries : List ι} {key : κ} (absent : key ∉ entries.map name) (cells : κ → ν) :
    intended name accepted entries cells key = cells key := by
  have none : (entries.find? fun entry => name entry = key) = none := by
    rw [List.find?_eq_none]
    intro entry member same
    exact absent (of_decide_eq_true same ▸ List.mem_map_of_mem member)
  rw [intended, none]
  rfl

theorem intended_name {before after : List ι} {entry : ι} (distinct : ((before ++ entry :: after).map name).Nodup)
    (cells : κ → ν) : intended name accepted (before ++ entry :: after) cells (name entry) =
      (accepted entry).getD (cells (name entry)) := by
  have first : (before.find? fun e => name e = name entry) = none := by
    rw [List.find?_eq_none]
    intro e member same
    rw [List.map_append, List.nodup_append] at distinct
    exact distinct.2.2 _ (List.mem_map_of_mem member) _ List.mem_cons_self (of_decide_eq_true same)
  rw [intended, List.find?_append, first, Option.none_or, List.find?_cons_of_pos (by simp)]
  rfl

/-- Exactly when reading does what is intended. -/
theorem readAll_eq_intended_iff {entries : List ι} (distinct : (entries.map name).Nodup) (cells : κ → ν) :
    readAll name effect entries cells = intended name accepted entries cells ↔
      ∀ before entry after, entries = before ++ entry :: after →
        (if before.all fun e => (effect e).isSome then (effect entry).join.getD (cells (name entry))
          else cells (name entry)) = (accepted entry).getD (cells (name entry)) := by
  constructor
  · rintro same before entry after rfl
    rw [← readAll_name distinct, ← intended_name distinct, same]
  · intro each
    funext key
    by_cases present : key ∈ entries.map name
    · obtain ⟨entry, member, rfl⟩ := List.mem_map.mp present
      obtain ⟨before, after, rfl⟩ := List.append_of_mem member
      rw [readAll_name distinct, intended_name distinct, each before entry after rfl]
    · rw [readAll_of_not_mem present, intended_of_not_mem present]

end OsuTracker.Machine.NamedEntries
