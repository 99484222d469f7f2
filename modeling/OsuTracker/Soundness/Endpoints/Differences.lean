import OsuTracker.Soundness.Endpoints.TitanicScript

/-! # Computing the differences

`calcDifference` reads the baseline and the current value of every entry that has both, by the
type of the entry, and throws on the first that is no number. It writes changes only, so whether
it returns depends on the table it starts from.
-/

namespace OsuTracker.Soundness.Endpoints

open Cxx Model.Core.Config Model.Api Machine.Threads

/-- The iteration of an entry returns. -/
def Computes (data : DataEntry) : Prop :=
  data.init = [] ∨ data.current = [] ∨ (Reads data.dataType data.current ∧ Reads data.dataType data.init)

/-- `calcDifference` returns. -/
def Computable (t : StatTable) : Prop := ∀ e ∈ t.entries, Computes e

/-- Both texts of a difference are read by the same reader. -/
private theorem read_both_ok_iff {α β : Type} (read : Str → Except Exception α) (combine : α → α → β) (x y : Str) :
    (∃ b, ((read x).bind fun first => (read y).bind fun second => .ok (combine first second)) = .ok b) ↔
      (∃ a, read x = .ok a) ∧ ∃ a, read y = .ok a := by
  constructor
  · rintro ⟨b, bound⟩
    obtain ⟨first, readFirst, rest⟩ := bind_eq_ok.mp bound
    obtain ⟨second, readSecond, _⟩ := bind_eq_ok.mp rest
    exact ⟨⟨first, readFirst⟩, second, readSecond⟩
  · rintro ⟨⟨first, readFirst⟩, second, readSecond⟩
    exact ⟨combine first second, by rw [readFirst, readSecond]; rfl⟩

theorem difference_ok_iff (data : DataEntry) :
    (∃ text, difference data = .ok text) ↔ Reads data.dataType data.current ∧ Reads data.dataType data.init := by
  unfold difference
  cases data.dataType with
  | string => exact ⟨fun _ => ⟨trivial, trivial⟩, fun _ => ⟨none, rfl⟩⟩
  | int => exact read_both_ok_iff stoi _ _ _
  | float => exact read_both_ok_iff stof _ _ _
  | longLong => exact read_both_ok_iff stoll _ _ _

theorem calcWrites_ok_iff (data : DataEntry) : (∃ written, calcWrites data = .ok written) ↔ Computes data := by
  unfold calcWrites Computes
  split
  · next empty => exact ⟨fun _ => empty.elim .inl fun current => .inr (.inl current), fun _ => ⟨[], rfl⟩⟩
  · next full =>
    rw [not_or] at full
    simp only [full.1, full.2, false_or, ← difference_ok_iff]
    constructor
    · rintro ⟨written, mapped⟩
      obtain ⟨text, result, _⟩ := map_eq_ok mapped
      exact ⟨text, result⟩
    · rintro ⟨text, result⟩
      exact ⟨_, by rw [result]; rfl⟩

/-! ## Errors of the readers -/

theorem isCaught_stoi {text : Str} {e : Exception} (failed : stoi text = .error e) : e.isCaught = true := by
  unfold stoi at failed
  split at failed
  · cases failed; rfl
  · split at failed
    · cases failed
    · cases failed; rfl

theorem isCaught_stoll {text : Str} {e : Exception} (failed : stoll text = .error e) : e.isCaught = true := by
  unfold stoll at failed
  split at failed
  · cases failed; rfl
  · split at failed
    · cases failed
    · cases failed; rfl

theorem isCaught_stof {text : Str} {e : Exception} (failed : stof text = .error e) : e.isCaught = true := by
  unfold stof at failed
  split at failed
  · cases failed; rfl
  · split at failed
    · cases failed; rfl
    · cases failed
  · cases failed

private theorem isCaught_read_both {α β : Type} (read : Str → Except Exception α) (combine : α → α → β) (x y : Str)
    {e : Exception} (caught : ∀ {text : Str} {e : Exception}, read text = .error e → e.isCaught = true)
    (failed : ((read x).bind fun first => (read y).bind fun second => .ok (combine first second)) = .error e) :
    e.isCaught = true := by
  rcases bind_eq_error failed with first | ⟨_, _, rest⟩
  · exact caught first
  · rcases bind_eq_error rest with second | ⟨_, _, returned⟩
    · exact caught second
    · cases returned

theorem isCaught_difference {data : DataEntry} {e : Exception} (failed : difference data = .error e) :
    e.isCaught = true := by
  unfold difference at failed
  cases type : data.dataType with
  | string => rw [type] at failed; cases failed
  | int => rw [type] at failed; exact isCaught_read_both stoi _ _ _ isCaught_stoi failed
  | float => rw [type] at failed; exact isCaught_read_both stof _ _ _ isCaught_stof failed
  | longLong => rw [type] at failed; exact isCaught_read_both stoll _ _ _ isCaught_stoll failed

theorem isCaught_calcWrites {data : DataEntry} {e : Exception} (failed : calcWrites data = .error e) :
    e.isCaught = true := by
  unfold calcWrites at failed
  split at failed
  · cases failed
  · cases result : difference data with
    | ok text => rw [result] at failed; cases failed
    | error own =>
      rw [result] at failed
      cases failed
      exact isCaught_difference result

/-! ## The pass over the table -/

/-- The same baselines and current values. -/
def SameValues (t t' : StatTable) : Prop :=
  ∀ key ∈ keys, ∀ slot, slot ≠ .change → t'.slot key slot = t.slot key slot

theorem SameValues.symm {t t' : StatTable} (same : SameValues t t') : SameValues t' t :=
  fun key known slot stored => (same key known slot stored).symm

/-- Entries at one position of two tables with the same values. -/
theorem SameValues.entry {t t' : StatTable} (same : SameValues t t') {i : ℕ} {e e' : DataEntry}
    (here : t.entries[i]? = some e) (there : t'.entries[i]? = some e') :
    e'.dataType = e.dataType ∧ e'.init = e.init ∧ e'.current = e.current := by
  have kinds : e'.kind = e.kind := by
    have position := congrArg (·[i]?) (t.compiled.trans t'.compiled.symm)
    simp only [List.getElem?_map, here, there, Option.map_some] at position
    exact (Option.some.inj position).symm
  have key : e'.key = e.key := congrArg EntryKind.key kinds
  have member := List.mem_of_getElem? here
  have member' := List.mem_of_getElem? there
  have value {slot : Slot} (stored : slot ≠ .change) : e'.slot slot = e.slot slot := by
    rw [← t.slot_key member, ← t'.slot_key member', key]
    exact same e.key (t.key_mem_keys member) slot stored
  have init : e'.slot .init = e.slot .init := value (by decide)
  have current : e'.slot .current = e.slot .current := value (by decide)
  exact ⟨congrArg EntryKind.dataType kinds, init, current⟩

theorem SameValues.computes {t t' : StatTable} (same : SameValues t t') (i : ℕ) :
    (∀ e, t.entries[i]? = some e → Computes e) ↔ ∀ e, t'.entries[i]? = some e → Computes e := by
  have transfer {t t' : StatTable} (same : SameValues t t') (all : ∀ e, t.entries[i]? = some e → Computes e) :
      ∀ e, t'.entries[i]? = some e → Computes e := by
    intro e' there
    have bound : i < t.entries.length := by
      rw [t.length_entries, ← t'.length_entries]
      exact (List.getElem?_eq_some_iff.mp there).1
    obtain ⟨type, init, current⟩ := same.entry (List.getElem?_eq_getElem bound) there
    have computes := all _ (List.getElem?_eq_getElem bound)
    rwa [Computes, type, init, current]
  exact ⟨transfer same, transfer same.symm⟩

/-- One iteration, on the entry at its position. -/
theorem exec_calcEntry (i : ℕ) (g : Globals) :
    (∃ effect, (Act.calcEntry i).exec g = .ok effect ∧ ∀ e, g.arr.entries[i]? = some e → Computes e) ∨
      ∃ error e, (Act.calcEntry i).exec g = .error error ∧ error.isCaught = true ∧ g.arr.entries[i]? = some e ∧
        ¬Computes e := by
  cases found : g.arr.entries[i]? with
  | none =>
    have nothing : (Act.calcEntry i).writes g.arr = .ok [] := by simp only [Act.writes, found]
    exact .inl ⟨_, exec_of_writes nothing, fun _ same => by cases same⟩
  | some data =>
    have own : (Act.calcEntry i).writes g.arr = calcWrites data := by simp only [Act.writes, found]
    cases result : calcWrites data with
    | ok written =>
      refine .inl ⟨_, exec_of_writes (own.trans result), fun e same => ?_⟩
      rw [← Option.some.inj same]
      exact (calcWrites_ok_iff data).mp ⟨written, result⟩
    | error error =>
      refine .inr ⟨error, data, ?_, isCaught_calcWrites result, rfl, fun computes => ?_⟩
      · rw [Act.exec, own, result]
        rfl
      · obtain ⟨written, returned⟩ := (calcWrites_ok_iff data).mpr computes
        cases result.symm.trans returned

theorem sameValues_calcEntry {i : ℕ} {g next : Globals} {written : List Write}
    (ran : (Act.calcEntry i).exec g = .ok (written, next)) : SameValues g.arr next.arr := by
  have known : Known (.calcEntry i) := ⟨nofun, nofun⟩
  exact fun key asked slot stored => slot_exec known ran asked stored nofun nofun

/-- Iterations write changes only, and return when each of them does. -/
theorem run_calcEntries (positions : List ℕ) (g : Globals) :
    ∃ log result, run Act.exec (positions.map .calcEntry) g = (log, result) ∧
      (∀ w ∈ log, w.slot = .change ∧ w.key ∈ keys) ∧
      (result.isDone = true ↔ ∀ i ∈ positions, ∀ e, g.arr.entries[i]? = some e → Computes e) ∧
      ∀ e s, result = .threw e s → e.isCaught = true := by
  induction positions generalizing g with
  | nil => exact ⟨[], .done g, rfl, nofun, ⟨fun _ => nofun, fun _ => rfl⟩, nofun⟩
  | cons i rest ih =>
    rcases exec_calcEntry i g with ⟨⟨written, next⟩, ran, computes⟩ | ⟨error, e, threw, caught, found, not⟩
    · obtain ⟨log, result, later, changes, done, handled⟩ := ih next
      have same := sameValues_calcEntry ran
      refine ⟨written ++ log, result, ?_, ?_, ?_, handled⟩
      · rw [List.map_cons, run_cons_ok ran, later]
      · refine List.forall_mem_append.mpr ⟨fun w member => ?_, changes⟩
        rcases writes_of_not_stored rfl (exec_ok ran).1 member with change | ⟨cleared, _⟩
        · exact change
        · cases cleared
      · rw [done, List.forall_mem_cons, and_iff_right computes]
        exact forall₂_congr fun j _ => (same.computes j).symm
    · refine ⟨[], .threw error g, ?_, nofun, ?_, ?_⟩
      · rw [List.map_cons, run_cons_error threw]
      · exact ⟨nofun, fun all => absurd (all i List.mem_cons_self e found) not⟩
      · rintro own s same
        cases same
        exact caught

/-- `calcDifference` as a whole. -/
theorem run_calcDifference (g : Globals) : ∃ log result, run Act.exec calcDifference g = (log, result) ∧
    (∀ w ∈ log, w.slot = .change ∧ w.key ∈ keys) ∧ (result.isDone = true ↔ Computable g.arr) ∧
    ∀ e s, result = .threw e s → e.isCaught = true := by
  obtain ⟨log, result, ran, changes, done, caught⟩ := run_calcEntries (List.range keys.length) g
  refine ⟨log, result, ran, changes, done.trans ?_, caught⟩
  constructor
  · intro all e member
    obtain ⟨i, bound, rfl⟩ := List.getElem_of_mem member
    have inside : i < keys.length := g.arr.length_entries ▸ bound
    exact all i (List.mem_range.mpr inside) _ (List.getElem?_eq_getElem bound)
  · exact fun all i _ e found => all e (List.mem_of_getElem? found)

end OsuTracker.Soundness.Endpoints
