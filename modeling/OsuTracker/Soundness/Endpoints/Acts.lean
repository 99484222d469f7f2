import OsuTracker.Machine.Threads
import OsuTracker.Model.Api.Helpers

/-! # What one action does to the table

An action stores at most one field, as current value and, with its init flag, also as baseline;
`calcDifference` writes changes only. `Holds` says that the field an action stores still has the
text it stored. An action establishes its own fact whenever it runs, runs whenever the fields it
reads hold integers, and keeps the facts of all actions that store other fields.
-/

namespace OsuTracker.Soundness.Endpoints

open Cxx Model.Core.Config Model.Api Machine.Threads

/-- The key of the field that an action stores. -/
def storedKey : Act → Option Str
  | .setField key _ _ => some key
  | .setSum key _ _ => some key
  | .setCompletion _ _ => some "completion"
  | _ => none

def setsInit : Act → Bool
  | .setField _ _ setInit => setInit
  | .setSum _ _ setInit => setInit
  | .setCompletion _ setInit => setInit
  | _ => false

theorem storedKey_of_setsInit {act : Act} (flagged : setsInit act = true) : ∃ key, storedKey act = some key := by
  cases act with
  | setField key value setInit => exact ⟨key, rfl⟩
  | setSum key addends setInit => exact ⟨key, rfl⟩
  | setCompletion completionDenom setInit => exact ⟨_, rfl⟩
  | _ => cases flagged

/-- The action names fields of the table only. -/
def Known (act : Act) : Prop :=
  (∀ key, storedKey act = some key → key ∈ keys) ∧ ∀ key, act = .clearInvalid key → key ∈ keys

/-! ## Running one action -/

theorem exec_ok {act : Act} {g next : Globals} {written : List Write} (ran : act.exec g = .ok (written, next)) :
    act.writes g.arr = .ok written ∧ next = { act.effect g with arr := applyWrites g.arr written } := by
  unfold Act.exec at ran
  cases writes : act.writes g.arr with
  | error e => rw [writes] at ran; cases ran
  | ok ws =>
    rw [writes] at ran
    obtain ⟨rfl, rfl⟩ := Prod.mk.inj (Except.ok.inj ran)
    exact ⟨rfl, rfl⟩

theorem exec_of_writes {act : Act} {g : Globals} {written : List Write} (writes : act.writes g.arr = .ok written) :
    act.exec g = .ok (written, { act.effect g with arr := applyWrites g.arr written }) := by
  rw [Act.exec, writes]
  rfl

theorem arr_exec {act : Act} {g next : Globals} {written : List Write} (ran : act.exec g = .ok (written, next)) :
    next.arr = applyWrites g.arr written := by rw [(exec_ok ran).2]

/-- No action changes the settings or the mode of the program. -/
theorem settings_exec {act : Act} {g next : Globals} {written : List Write}
    (ran : act.exec g = .ok (written, next)) :
    next.application = g.application ∧ next.simulateMode = g.simulateMode := by
  rw [(exec_ok ran).2]
  cases act with
  | refreshAvatar url download =>
    simp only [Act.effect]
    split
    · exact ⟨rfl, rfl⟩
    · cases download <;> exact ⟨rfl, rfl⟩
  | authRecovered init => simp only [Act.effect]; split <;> exact ⟨rfl, rfl⟩
  | _ => exact ⟨rfl, rfl⟩

/-- Only the authorisation of the official server touches the failure flag. -/
theorem initApiFailed_exec {act : Act} (failed : act ≠ .authFailed) (recovered : ∀ init, act ≠ .authRecovered init)
    {g next : Globals} {written : List Write} (ran : act.exec g = .ok (written, next)) :
    next.initApiFailed = g.initApiFailed := by
  rw [(exec_ok ran).2]
  cases act with
  | refreshAvatar url download =>
    simp only [Act.effect]
    split
    · rfl
    · cases download <;> rfl
  | authFailed => exact absurd rfl failed
  | authRecovered init => exact absurd rfl (recovered init)
  | _ => rfl

/-- A storing action writes one field. -/
theorem writes_of_storedKey {act : Act} {t : StatTable} {written : List Write} {key : Str}
    (stores : storedKey act = some key) (ran : act.writes t = .ok written) :
    ∃ value, written = fieldWrites key value (setsInit act) := by
  cases act with
  | setField own value setInit =>
    cases stores
    cases ran
    exact ⟨value, rfl⟩
  | setSum own addends setInit =>
    cases stores
    obtain ⟨total, _, rfl⟩ := map_eq_ok ran
    exact ⟨_, rfl⟩
  | setCompletion completionDenom setInit =>
    cases stores
    obtain ⟨total, _, rfl⟩ := map_eq_ok ran
    exact ⟨_, rfl⟩
  | _ => cases stores

/-- `calcDifference` writes the difference of an entry into its change. -/
theorem change_of_calcWrites {data : DataEntry} {written : List Write} (ran : calcWrites data = .ok written)
    {w : Write} (member : w ∈ written) :
    w.slot = .change ∧ w.key = data.key ∧ difference data = .ok (some w.value) := by
  unfold calcWrites at ran
  split at ran
  · cases ran
    cases member
  · obtain ⟨text, result, rfl⟩ := map_eq_ok ran
    cases text with
    | none => cases member
    | some change =>
      rw [show w = ⟨data.key, .change, change⟩ from List.mem_singleton.mp member]
      exact ⟨rfl, rfl, result⟩

/-- Every other write is a change, or empties the current value of an invalid field. -/
theorem writes_of_not_stored {act : Act} {t : StatTable} {written : List Write} (stores : storedKey act = none)
    (ran : act.writes t = .ok written) {w : Write} (member : w ∈ written) :
    (w.slot = .change ∧ w.key ∈ keys) ∨ (act = .clearInvalid w.key ∧ w.slot = .current ∧ w.value = []) := by
  cases act with
  | setField | setSum | setCompletion => cases stores
  | clearInvalid key =>
    cases ran
    split at member
    · rw [List.mem_singleton.mp member]
      exact .inr ⟨rfl, rfl, rfl⟩
    · cases member
  | calcEntry i =>
    simp only [Act.writes] at ran
    cases found : t.entries[i]? with
    | none => rw [found] at ran; cases ran; cases member
    | some data =>
      rw [found] at ran
      obtain ⟨slot, key, _⟩ := change_of_calcWrites ran member
      rw [slot, key]
      exact .inl ⟨rfl, t.key_mem_keys (List.mem_of_getElem? found)⟩
  | raise e => cases ran
  | _ => cases ran; cases member

/-- A change is written by an iteration of `calcDifference`. -/
theorem calcEntry_of_change {act : Act} {t : StatTable} {written : List Write} (ran : act.writes t = .ok written)
    {w : Write} (member : w ∈ written) (change : w.slot = .change) :
    ∃ i data, act = .calcEntry i ∧ t.entries[i]? = some data ∧ calcWrites data = .ok written := by
  have field {key value : Str} {setInit : Bool} (inside : w ∈ fieldWrites key value setInit) : w.slot ≠ .change := by
    rcases List.mem_cons.mp inside with rfl | more
    · exact nofun
    · split at more
      · rw [List.mem_singleton.mp more]
        exact nofun
      · cases more
  cases stores : storedKey act with
  | some key =>
    obtain ⟨value, rfl⟩ := writes_of_storedKey stores ran
    exact absurd change (field member)
  | none =>
    cases act with
    | setField | setSum | setCompletion => cases stores
    | clearInvalid key =>
      cases ran
      split at member
      · rw [List.mem_singleton.mp member] at change
        cases change
      · cases member
    | calcEntry i =>
      simp only [Act.writes] at ran
      cases found : t.entries[i]? with
      | none => rw [found] at ran; cases ran; cases member
      | some data =>
        rw [found] at ran
        exact ⟨i, data, rfl, found, ran⟩
    | raise e => cases ran
    | _ => cases ran; cases member

/-- What an action may have written. -/
theorem write_exec {act : Act} (known : Known act) {g next : Globals} {written : List Write}
    (ran : act.exec g = .ok (written, next)) {w : Write} (member : w ∈ written) :
    w.key ∈ keys ∧ (w.slot = .init → storedKey act = some w.key ∧ setsInit act = true) ∧
      (w.slot = .current → storedKey act = some w.key ∨ act = .clearInvalid w.key ∧ w.value = []) := by
  have writes := (exec_ok ran).1
  cases stores : storedKey act with
  | some key =>
    obtain ⟨value, rfl⟩ := writes_of_storedKey stores writes
    rcases List.mem_cons.mp member with rfl | inside
    · exact ⟨known.1 key stores, nofun, fun _ => .inl rfl⟩
    · split at inside
      · next flagged =>
        rw [List.mem_singleton.mp inside]
        exact ⟨known.1 key stores, fun _ => ⟨rfl, flagged⟩, nofun⟩
      · cases inside
  | none =>
    rcases writes_of_not_stored stores writes member with ⟨slot, inTable⟩ | ⟨rfl, slot, empty⟩
    · exact ⟨inTable, by simp [slot], by simp [slot]⟩
    · exact ⟨known.2 w.key rfl, by simp [slot], fun _ => .inr ⟨rfl, empty⟩⟩

/-- The text an action stores, when it is fixed by the response. -/
theorem value_of_setField {key value : Str} {setInit : Bool} {g next : Globals} {written : List Write}
    (ran : (Act.setField key value setInit).exec g = .ok (written, next)) {w : Write} (member : w ∈ written) :
    w.value = value := by
  cases (exec_ok ran).1
  rcases List.mem_cons.mp member with rfl | inside
  · rfl
  · split at inside
    · rw [List.mem_singleton.mp inside]
    · cases inside

/-! ## Frames -/

/-- A slot that no write of a list names keeps its text. -/
theorem slot_applyWrites_of_not_written (t : StatTable) {writes : List Write} (known : ∀ w ∈ writes, w.key ∈ keys)
    {key : Str} (asked : key ∈ keys) {slot : Slot} (others : ∀ w ∈ writes, w.key = key → w.slot ≠ slot) :
    (applyWrites t writes).slot key slot = t.slot key slot := by
  rcases slot_applyWrites t known asked slot with same | ⟨w, member, sameKey, sameSlot, _⟩
  · exact same
  · exact absurd sameSlot (others w member sameKey)

/-- An action changes baselines and current values of the field it stores, and of no other. -/
theorem slot_exec {act : Act} (known : Known act) {g next : Globals} {written : List Write}
    (ran : act.exec g = .ok (written, next)) {key : Str} (asked : key ∈ keys) {slot : Slot}
    (stored : slot ≠ .change) (other : storedKey act ≠ some key) (uncleared : act ≠ .clearInvalid key) :
    next.arr.slot key slot = g.arr.slot key slot := by
  rw [arr_exec ran]
  refine slot_applyWrites_of_not_written g.arr (fun w member => (write_exec known ran member).1) asked ?_
  rintro w member rfl rfl
  obtain ⟨_, baseline, current⟩ := write_exec known ran member
  cases slot : w.slot with
  | init => exact other (baseline slot).1
  | current => exact (current slot).elim other fun cleared => uncleared cleared.1
  | change => exact stored slot

/-- Without its init flag it leaves that baseline too. -/
theorem init_exec {act : Act} (known : Known act) (unset : setsInit act = false) {g next : Globals}
    {written : List Write} (ran : act.exec g = .ok (written, next)) {key : Str} (asked : key ∈ keys) :
    next.arr.slot key .init = g.arr.slot key .init := by
  rw [arr_exec ran]
  refine slot_applyWrites_of_not_written g.arr (fun w member => (write_exec known ran member).1) asked ?_
  intro w member _ baseline
  have flagged := ((write_exec known ran member).2.1 baseline).2
  rw [unset] at flagged
  cases flagged

/-- Only the difference of an entry writes a change. -/
theorem change_exec {act : Act} (known : Known act) (other : ∀ i, act ≠ .calcEntry i) {g next : Globals}
    {written : List Write} (ran : act.exec g = .ok (written, next)) {key : Str} (asked : key ∈ keys) :
    next.arr.slot key .change = g.arr.slot key .change := by
  rw [arr_exec ran]
  refine slot_applyWrites_of_not_written g.arr (fun w member => (write_exec known ran member).1) asked ?_
  intro w member _ change
  obtain ⟨i, _, same, _⟩ := calcEntry_of_change (exec_ok ran).1 member change
  exact other i same

theorem slot_stored {key value : Str} (asked : key ∈ keys) (setInit : Bool) (t : StatTable) :
    (applyWrites t (fieldWrites key value setInit)).slot key .current = value ∧
      (setInit = true → (applyWrites t (fieldWrites key value setInit)).slot key .init = value) := by
  cases setInit <;> simp [applyWrites, fieldWrites, StatTable.slot_setSlot, asked]

/-! ## Facts -/

/-- The field that an action stores has the kind of text it stores. -/
def Holds : Act → Globals → Prop
  | .setField key value setInit, g =>
    g.arr.slot key .current = value ∧ (setInit = true → g.arr.slot key .init = value)
  | .setSum key _ setInit, g =>
    ∃ n : Int32, g.arr.slot key .current = stdToString n.toInt ∧
      (setInit = true → g.arr.slot key .init = stdToString n.toInt)
  | .setCompletion _ setInit, g =>
    ∃ x, g.arr.slot "completion" .current = floatToString x ∧
      (setInit = true → g.arr.slot "completion" .init = floatToString x)
  | _, _ => True

theorem holds_exec {act : Act} (known : Known act) {g next : Globals} {written : List Write}
    (ran : act.exec g = .ok (written, next)) : Holds act next := by
  have stored := arr_exec ran
  cases act with
  | setField key value setInit =>
    cases (exec_ok ran).1
    simp only [Holds, stored]
    exact slot_stored (known.1 key rfl) setInit g.arr
  | setSum key addends setInit =>
    obtain ⟨total, _, rfl⟩ := map_eq_ok (exec_ok ran).1
    simp only [Holds, stored]
    exact ⟨total, slot_stored (known.1 key rfl) setInit g.arr⟩
  | setCompletion completionDenom setInit =>
    obtain ⟨total, _, rfl⟩ := map_eq_ok (exec_ok ran).1
    simp only [Holds, stored]
    exact ⟨_, slot_stored (known.1 _ rfl) setInit g.arr⟩
  | _ => trivial

/-- Facts depend on the stored field alone. -/
theorem Holds.congr {act : Act} {g g' : Globals} (holds : Holds act g)
    (same : ∀ key, storedKey act = some key → ∀ slot, slot ≠ .change → g'.arr.slot key slot = g.arr.slot key slot) :
    Holds act g' := by
  cases act with
  | setField key value setInit =>
    simpa only [Holds, same key rfl .current (by decide), same key rfl .init (by decide)] using holds
  | setSum key addends setInit =>
    simpa only [Holds, same key rfl .current (by decide), same key rfl .init (by decide)] using holds
  | setCompletion completionDenom setInit =>
    simpa only [Holds, same _ rfl .current (by decide), same _ rfl .init (by decide)] using holds
  | _ => trivial

/-- An action keeps the facts of the actions that store other fields, and its own. -/
theorem holds_stable {act other : Act} (known : Known act) (otherKnown : Known other)
    (apart : ∀ key, storedKey act = some key → storedKey other = some key → other = act)
    (uncleared : ∀ key, storedKey act = some key → other ≠ .clearInvalid key) {g next : Globals}
    {written : List Write} (holds : Holds act g) (ran : other.exec g = .ok (written, next)) : Holds act next := by
  by_cases own : other = act
  · exact own ▸ holds_exec otherKnown ran
  · exact holds.congr fun key stores slot kept => slot_exec otherKnown ran (known.1 key stores) kept
      (fun same => own (apart key stores same)) (uncleared key stores)

end OsuTracker.Soundness.Endpoints
