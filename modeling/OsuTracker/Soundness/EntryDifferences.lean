import OsuTracker.Soundness.Endpoints.Differences

/-! # One entry after the other

`calcDifference` is one pass over the table that ends at the first entry it cannot read: the
entries before it get their differences, all others keep the change they had. So whether an entry
is treated as it should be depends on the entries before it, and on what its change happens to be.
-/

namespace OsuTracker.Soundness.EntryDifferences

open Cxx Model.Core.Config Model.Api Machine.Threads Endpoints

/-! ## What the differences are -/

/-- The integer that a text denotes in an integer type. -/
def number (type : DataType) (text : Str) : Option ℤ :=
  match type with
  | .int => (stoi text).toOption.map Int32.toInt
  | .longLong => (stoll text).toOption.map Int64.toInt
  | _ => none

def Representable (type : DataType) (n : ℤ) : Prop :=
  match type with
  | .int => -2 ^ 31 ≤ n ∧ n < 2 ^ 31
  | .longLong => -2 ^ 63 ≤ n ∧ n < 2 ^ 63
  | _ => False

/-- Both texts of an integer entry can be read, and their difference is a value of its type. -/
structure HasDifference (e : DataEntry) (d : ℤ) : Prop where
  reads : ∃ current init, number e.dataType e.current = some current ∧ number e.dataType e.init = some init ∧
    d = current - init
  fits : Representable e.dataType d

/-- An entry and what `calcDifference` should make of it, whatever the other entries are. -/
structure Treated (e e' : DataEntry) : Prop where
  computed : ∀ d, HasDifference e d → e'.change = stdToString d
  kept : e.init = [] ∨ e.current = [] → e'.change = e.change
  others : { e' with change := e.change } = e

/-- Every entry is treated on its own. -/
def Independent (t t' : StatTable) : Prop := List.Forall₂ Treated t.entries t'.entries

theorem toOption_eq_some {α : Type} {result : Except Exception α} {a : α} (read : result.toOption = some a) :
    result = .ok a := by
  cases result with
  | ok own => exact congrArg Except.ok (Option.some.inj read)
  | error e => cases read

theorem toInt_sub_int {a b : Int32} (fits : Representable .int (a.toInt - b.toInt)) :
    (a - b).toInt = a.toInt - b.toInt := by
  obtain ⟨low, high⟩ := fits
  rw [Int32.toInt_sub, Int.bmod_eq_of_le (by omega) (by omega)]

theorem toInt_sub_longLong {a b : Int64} (fits : Representable .longLong (a.toInt - b.toInt)) :
    (a - b).toInt = a.toInt - b.toInt := by
  obtain ⟨low, high⟩ := fits
  rw [Int64.toInt_sub, Int.bmod_eq_of_le (by omega) (by omega)]

/-- An entry with a difference is one that `calcDifference` computes, with that text. -/
theorem difference_of_hasDifference {e : DataEntry} {d : ℤ} (has : HasDifference e d) :
    difference e = .ok (some (stdToString d)) := by
  obtain ⟨⟨current, init, readCurrent, readInit, rfl⟩, fits⟩ := has
  unfold difference
  cases type : e.dataType with
  | string | float => rw [type] at fits; exact fits.elim
  | int =>
    rw [type] at readCurrent readInit fits
    obtain ⟨c, gotC, rfl⟩ := Option.map_eq_some_iff.mp readCurrent
    obtain ⟨i, gotI, rfl⟩ := Option.map_eq_some_iff.mp readInit
    simp only [toOption_eq_some gotC, toOption_eq_some gotI]
    exact congrArg (fun n => Except.ok (some (stdToString n))) (toInt_sub_int fits)
  | longLong =>
    rw [type] at readCurrent readInit fits
    obtain ⟨c, gotC, rfl⟩ := Option.map_eq_some_iff.mp readCurrent
    obtain ⟨i, gotI, rfl⟩ := Option.map_eq_some_iff.mp readInit
    simp only [toOption_eq_some gotC, toOption_eq_some gotI]
    exact congrArg (fun n => Except.ok (some (stdToString n))) (toInt_sub_longLong fits)

theorem number_nil (type : DataType) : number type [] = none := by cases type <;> rfl

theorem HasDifference.filled {e : DataEntry} {d : ℤ} (has : HasDifference e d) : ¬(e.init = [] ∨ e.current = []) := by
  obtain ⟨⟨current, init, readCurrent, readInit, _⟩, _⟩ := has
  rintro (empty | empty)
  · rw [empty, number_nil] at readInit
    cases readInit
  · rw [empty, number_nil] at readCurrent
    cases readCurrent

theorem HasDifference.computes {e : DataEntry} {d : ℤ} (has : HasDifference e d) : Computes e :=
  .inr (.inr ((difference_ok_iff e).mp ⟨_, difference_of_hasDifference has⟩))

/-! ## The pass over the entries -/

/-- One entry after its iteration, if that returns. -/
def recomputed (e : DataEntry) : Option DataEntry :=
  (calcWrites e).toOption.map fun writes => writes.foldl (fun e w => e.setSlot w.slot w.value) e

/-- The entries after the loop. -/
def calcPass : List DataEntry → List DataEntry
  | [] => []
  | e :: rest =>
    match recomputed e with
    | some e' => e' :: calcPass rest
    | none => e :: rest

theorem recomputed_eq_none {e : DataEntry} : recomputed e = none ↔ ¬Computes e := by
  rw [← calcWrites_ok_iff, recomputed]
  cases calcWrites e with
  | ok writes => simp [Except.toOption]
  | error error => simp [Except.toOption]

theorem treated_recomputed {e e' : DataEntry} (ran : recomputed e = some e') : Treated e e' := by
  obtain ⟨writes, calculated, rfl⟩ := Option.map_eq_some_iff.mp ran
  replace calculated := toOption_eq_some calculated
  unfold calcWrites at calculated
  split at calculated
  · next empty =>
    cases calculated
    exact ⟨fun d has => absurd empty has.filled, fun _ => rfl, rfl⟩
  · next filled =>
    obtain ⟨text, result, rfl⟩ := map_eq_ok calculated
    refine ⟨fun d has => ?_, fun empty => absurd empty filled, by cases text <;> rfl⟩
    rw [difference_of_hasDifference has] at result
    cases result
    rfl

/-- An entry that the loop does not reach is treated well only if nothing was to be done. -/
theorem treated_self_iff {e : DataEntry} : Treated e e ↔ ∀ d, HasDifference e d → e.change = stdToString d :=
  ⟨fun treated => treated.computed, fun done => ⟨done, fun _ => rfl, rfl⟩⟩

/-- The pass treats all entries well if those behind an unreadable one have their differences. -/
theorem treated_calcPass_iff (entries : List DataEntry) : List.Forall₂ Treated entries (calcPass entries) ↔
    entries.Pairwise fun before e => ¬Computes before → ∀ d, HasDifference e d → e.change = stdToString d := by
  induction entries with
  | nil => exact iff_of_true .nil .nil
  | cons first rest ih =>
    rw [calcPass, List.pairwise_cons]
    cases ran : recomputed first with
    | some first' =>
      have computes : Computes first := by
        by_contra unreadable
        rw [recomputed_eq_none.mpr unreadable] at ran
        cases ran
      rw [List.forall₂_cons, ih, and_iff_right (treated_recomputed ran)]
      exact (and_iff_right fun e _ unreadable => absurd computes unreadable).symm
    | none =>
      have unreadable := recomputed_eq_none.mp ran
      have self : Treated first first := treated_self_iff.mpr fun d has => absurd has.computes unreadable
      rw [List.forall₂_cons, and_iff_right self, List.forall₂_same]
      constructor
      · intro all
        have done : ∀ e ∈ rest, ∀ d, HasDifference e d → e.change = stdToString d :=
          fun e member => treated_self_iff.mp (all e member)
        exact ⟨fun e member _ => done e member, List.pairwise_of_forall_mem_list fun _ _ e member _ => done e member⟩
      · exact fun ⟨done, _⟩ e member => treated_self_iff.mpr (done e member unreadable)

/-! ## The loop -/

/-- The writes of an iteration change its own entry. -/
theorem entries_applyWrites {t : StatTable} {front rest : List DataEntry} {e : DataEntry}
    (split : t.entries = front ++ e :: rest) {written : List Write} (calculated : calcWrites e = .ok written) :
    ∃ e', recomputed e = some e' ∧ (applyWrites t written).entries = front ++ e' :: rest := by
  have here : t.entries[front.length]? = some e := by rw [split]; simp
  refine ⟨_, by rw [recomputed, calculated]; rfl, ?_⟩
  unfold calcWrites at calculated
  split at calculated
  · cases calculated
    exact split
  · obtain ⟨text, result, rfl⟩ := map_eq_ok calculated
    cases text with
    | none => exact split
    | some change =>
      have effect := t.entries_setSlot here .change change
      rw [split, List.set_append_right _ _ le_rfl, Nat.sub_self] at effect
      exact effect

theorem entries_run (front rest : List DataEntry) {g : Globals} (split : g.arr.entries = front ++ rest) :
    (run Act.exec ((List.range' front.length rest.length).map .calcEntry) g).2.state.arr.entries =
      front ++ calcPass rest := by
  induction rest generalizing front g with
  | nil => exact split
  | cons e rest ih =>
    have here : g.arr.entries[front.length]? = some e := by rw [split]; simp
    have own : (Act.calcEntry front.length).writes g.arr = calcWrites e := by simp only [Act.writes, here]
    rw [List.length_cons, List.range'_succ, List.map_cons, calcPass]
    cases calculated : calcWrites e with
    | error error =>
      have stops : recomputed e = none := by rw [recomputed, calculated]; rfl
      have threw : (Act.calcEntry front.length).exec g = .error error := by
        rw [Act.exec, own, calculated]
        rfl
      rw [run_cons_error threw, stops]
      exact split
    | ok written =>
      obtain ⟨e', ran, entries⟩ := entries_applyWrites split calculated
      have later := ih (front ++ [e']) (g := { g with arr := applyWrites g.arr written }) (by simp [entries])
      rw [run_cons_ok (exec_of_writes (own.trans calculated)), ran]
      simpa [Act.effect] using later

/-- The table after `calcDifference`, whether it returns or throws. -/
theorem entries_calcDifference (g : Globals) :
    (run Act.exec calcDifference g).2.state.arr.entries = calcPass g.arr.entries := by
  have all : List.range' 0 g.arr.entries.length = List.range keys.length := by
    rw [g.arr.length_entries, List.range_eq_range']
  have pass := entries_run [] g.arr.entries (g := g) rfl
  rwa [List.length_nil, all] at pass

/-- Exactly when all entries are treated independently. -/
theorem calcDifference_independent_iff (g : Globals) : Independent g.arr (run Act.exec calcDifference g).2.state.arr ↔
    g.arr.entries.Pairwise fun before e => ¬Computes before → ∀ d, HasDifference e d → e.change = stdToString d := by
  rw [Independent, entries_calcDifference, treated_calcPass_iff]

/-- The total of clears came as a text that is no number; one more silver SS has been counted. -/
def badClears : Globals where
  arr := ((((StatTable.initial.setSlot "totalClears" .init "10").setSlot "totalClears" .current "n/a").setSlot
    "silverSS" .init "1").setSlot "silverSS" .current "2")

/-- The loop ends at the total of clears, and the new silver SS is not shown. -/
theorem badClears_hides_silverSS : ¬∀ g : Globals, Independent g.arr (run Act.exec calcDifference g).2.state.arr := by
  intro all
  have treated := (List.forall₂_iff_get.mp (all badClears)).2 17 (by decide +kernel) (by decide +kernel)
  have difference : HasDifference (badClears.arr.entries.get ⟨17, by decide +kernel⟩) 1 :=
    ⟨⟨2, 1, by decide +kernel, by decide +kernel, rfl⟩, by decide +kernel, by decide +kernel⟩
  have change := treated.computed 1 difference
  exact absurd change (by decide +kernel)

end OsuTracker.Soundness.EntryDifferences
