import OsuTracker.Model.Core.Config
import Mathlib.Data.List.Nodup

/-! # The stat table as a structure

`StatTable` is `data::arr` together with the fact that its entries are the compiled ones: every
statement of the program writes a text, `sort` or `display` of an entry in place. A value is
addressed by the key of its entry and a slot, so the effect of a write is stated once for all
entries, through `getIndex` as in the code.
-/

namespace OsuTracker.Model.Core.Config

open Cxx

/-- The three texts of an entry. -/
inductive Slot where
  | init | current | change
deriving DecidableEq, Repr

def DataEntry.slot (e : DataEntry) : Slot → Str
  | .init => e.init
  | .current => e.current
  | .change => e.change

def DataEntry.setSlot (e : DataEntry) (s : Slot) (value : Str) : DataEntry :=
  match s with
  | .init => { e with init := value }
  | .current => { e with current := value }
  | .change => { e with change := value }

@[simp] theorem DataEntry.kind_setSlot (e : DataEntry) (s : Slot) (value : Str) :
    (e.setSlot s value).kind = e.kind := by cases s <;> rfl

@[simp] theorem DataEntry.key_setSlot (e : DataEntry) (s : Slot) (value : Str) :
    (e.setSlot s value).key = e.key := by cases s <;> rfl

@[simp] theorem DataEntry.slot_setSlot (e : DataEntry) (s s' : Slot) (value : Str) :
    (e.setSlot s value).slot s' = if s' = s then value else e.slot s' := by
  cases s <;> cases s' <;> rfl

/-- `data::arr`: the compiled entries with any texts, sort values and display flags. -/
structure StatTable where
  entries : List DataEntry
  compiled : entries.map DataEntry.kind = initialArr.map DataEntry.kind

namespace StatTable

@[ext] theorem ext {t t' : StatTable} (same : t.entries = t'.entries) : t = t' := by
  cases t; cases t'; cases same; rfl

def initial : StatTable := ⟨initialArr, rfl⟩

theorem map_key (t : StatTable) : t.entries.map DataEntry.key = keys := by
  have projected := congrArg (List.map EntryKind.key) t.compiled
  rw [List.map_map, List.map_map] at projected
  rw [keys_eq]
  exact projected

theorem length_entries (t : StatTable) : t.entries.length = keys.length := by
  rw [← t.map_key, List.length_map]

theorem key_mem_keys (t : StatTable) {e : DataEntry} (member : e ∈ t.entries) : e.key ∈ keys := by
  rw [← t.map_key]
  exact List.mem_map_of_mem member

theorem key_getElem (t : StatTable) (i : ℕ) (bound : i < t.entries.length) :
    t.entries[i].key = keys.get ⟨i, t.length_entries ▸ bound⟩ := by
  have lookup := List.getElem_of_eq t.map_key (i := i) (by simpa using bound)
  rwa [List.getElem_map] at lookup

/-- The position that `getIndex` returns for the key of an entry is the entry's own. -/
theorem getIndex_key (t : StatTable) (i : ℕ) (bound : i < t.entries.length) :
    getIndex t.entries[i].key = some i := by
  rw [t.key_getElem i bound, List.get_eq_getElem, getIndex_keys]

/-- Entries are determined by their keys. -/
theorem eq_of_key_eq (t : StatTable) {e e' : DataEntry} (member : e ∈ t.entries)
    (other : e' ∈ t.entries) (same : e.key = e'.key) : e = e' := by
  obtain ⟨i, bound, rfl⟩ := List.getElem_of_mem member
  obtain ⟨j, otherBound, rfl⟩ := List.getElem_of_mem other
  have position := t.getIndex_key i bound
  rw [same, t.getIndex_key j otherBound] at position
  simp only [Option.some.inj position]

theorem exists_entry (t : StatTable) {key : Str} (known : key ∈ keys) : ∃ e ∈ t.entries, e.key = key := by
  rw [← t.map_key] at known
  exact List.mem_map.mp known

/-- An in-place change of one entry that keeps what is compiled in. -/
def modify (t : StatTable) (i : ℕ) (f : DataEntry → DataEntry) (keeps : ∀ e, (f e).kind = e.kind) :
    StatTable where
  entries := t.entries.modify i f
  compiled := by
    rw [← t.compiled]
    apply List.ext_getElem
    · simp
    · intro j _ _
      simp only [List.getElem_map, List.getElem_modify]
      split <;> simp [keeps]

/-- An in-place change of every entry. -/
def mapEntries (t : StatTable) (f : DataEntry → DataEntry) (keeps : ∀ e, (f e).kind = e.kind) :
    StatTable where
  entries := t.entries.map f
  compiled := by
    rw [← t.compiled, List.map_map]
    exact List.map_congr_left fun e _ => keeps e

private theorem foldl_modify_append {β : Type} (f : β → DataEntry → DataEntry) (items : List β)
    (front rest : List DataEntry) (fits : items.length = rest.length) :
    (items.zipIdx front.length).foldl (fun built item => built.modify item.2 (f item.1)) (front ++ rest) =
      front ++ List.zipWith (fun e item => f item e) rest items := by
  induction items generalizing front rest with
  | nil => rw [List.eq_nil_of_length_eq_zero fits.symm]; rfl
  | cons item items ih =>
    cases rest with
    | nil => simp at fits
    | cons e rest =>
      have here : (front ++ e :: rest).modify front.length (f item) = (front ++ [f item e]) ++ rest := by
        simp [List.modify_eq_set_getElem?]
      have next := ih (front ++ [f item e]) rest (by simpa using fits)
      rw [List.length_append, List.length_singleton] at next
      rw [List.zipIdx_cons, List.foldl_cons, here, next, List.zipWith_cons_cons, List.append_assoc]
      rfl

/-- A pass over the table that changes entry `i` by item `i`. -/
theorem entries_foldl_modify {β : Type} (t : StatTable) (f : β → DataEntry → DataEntry)
    (keeps : ∀ item e, (f item e).kind = e.kind) (items : List β) (fits : items.length = t.entries.length) :
    (items.zipIdx.foldl (fun built item => built.modify item.2 (f item.1) (keeps item.1)) t).entries =
      List.zipWith (fun e item => f item e) t.entries items := by
  have entries (pairs : List (β × ℕ)) (t : StatTable) :
      (pairs.foldl (fun built item => built.modify item.2 (f item.1) (keeps item.1)) t).entries =
        pairs.foldl (fun built item => built.modify item.2 (f item.1)) t.entries := by
    induction pairs generalizing t with
    | nil => rfl
    | cons pair pairs ih => exact ih _
  rw [entries]
  exact foldl_modify_append f items [] t.entries fits

/-- Changes of distinct entries: each is changed by its own item, the others stay. -/
theorem getElem?_foldl_modify {β : Type} (t : StatTable) (f : β → DataEntry → DataEntry)
    (keeps : ∀ item e, (f item e).kind = e.kind) (items : List (β × ℕ)) (distinct : (items.map Prod.snd).Nodup) :
    (∀ item ∈ items, (items.foldl (fun t item => t.modify item.2 (f item.1) (keeps item.1)) t).entries[item.2]? =
      t.entries[item.2]?.map (f item.1)) ∧
    ∀ i ∉ items.map Prod.snd,
      (items.foldl (fun t item => t.modify item.2 (f item.1) (keeps item.1)) t).entries[i]? = t.entries[i]? := by
  induction items generalizing t with
  | nil => exact ⟨nofun, fun _ _ => rfl⟩
  | cons first rest ih =>
    obtain ⟨fresh, others⟩ := List.nodup_cons.mp distinct
    obtain ⟨changed, kept⟩ := ih (t.modify first.2 (f first.1) (keeps first.1)) others
    have untouched {i : ℕ} (apart : first.2 ≠ i) :
        (t.modify first.2 (f first.1) (keeps first.1)).entries[i]? = t.entries[i]? := by
      simp [modify, apart]
    refine ⟨List.forall_mem_cons.mpr ⟨?_, fun item member => ?_⟩, fun i absent => ?_⟩
    · rw [List.foldl_cons, kept first.2 fresh]
      simp only [modify, List.getElem?_modify, ↓reduceIte, Option.map_eq_map]
    · have apart : first.2 ≠ item.2 := fun same => fresh (same ▸ List.mem_map_of_mem member)
      rw [List.foldl_cons, changed item member, untouched apart]
    · rw [List.map_cons, List.mem_cons, not_or] at absent
      rw [List.foldl_cons, kept i absent.2, untouched (Ne.symm absent.1)]

/-- `arr[getIndex(key)]`, for a name the program knows. -/
def find? (t : StatTable) (key : Str) : Option DataEntry := (getIndex key).bind (t.entries[·]?)

/-- `arr[getIndex(key)].slot = value`, for a name the program knows. -/
def setSlot (t : StatTable) (key : Str) (s : Slot) (value : Str) : StatTable :=
  match getIndex key with
  | some i => t.modify i (·.setSlot s value) (fun e => e.kind_setSlot s value)
  | none => t

/-- The text in one slot of the entry with a key. -/
def slot (t : StatTable) (key : Str) (s : Slot) : Str := ((t.find? key).map (·.slot s)).getD []

theorem find?_eq_some (t : StatTable) {e : DataEntry} (member : e ∈ t.entries) :
    t.find? e.key = some e := by
  obtain ⟨i, bound, rfl⟩ := List.getElem_of_mem member
  simp only [find?, t.getIndex_key i bound, Option.bind_some, List.getElem?_eq_getElem bound]

theorem slot_key (t : StatTable) {e : DataEntry} (member : e ∈ t.entries) (s : Slot) :
    t.slot e.key s = e.slot s := by
  simp only [slot, t.find?_eq_some member, Option.map_some, Option.getD_some]

/-- A write through a key changes the entry at the position of that key. -/
theorem entries_setSlot (t : StatTable) {i : ℕ} {e : DataEntry} (here : t.entries[i]? = some e) (s : Slot)
    (value : Str) : (t.setSlot e.key s value).entries = t.entries.set i (e.setSlot s value) := by
  obtain ⟨bound, rfl⟩ := List.getElem?_eq_some_iff.mp here
  simp only [setSlot, t.getIndex_key i bound, modify, List.modify_eq_set_getElem?, here, Option.map_some,
    Option.getD_some, Option.map_eq_map]

/-- The effect of one write on every slot of every known entry. -/
theorem slot_setSlot (t : StatTable) {key other : Str} (known : key ∈ keys) (otherKnown : other ∈ keys)
    (s s' : Slot) (value : Str) :
    (t.setSlot key s value).slot other s' =
      if other = key ∧ s' = s then value else t.slot other s' := by
  obtain ⟨i, bound, rfl⟩ := List.getElem_of_mem known
  obtain ⟨j, otherBound, rfl⟩ := List.getElem_of_mem otherKnown
  have inside : j < t.entries.length := t.length_entries ▸ otherBound
  have same : keys[j] = keys[i] ↔ i = j := by
    rw [List.Nodup.getElem_inj_iff keys_nodup]
    exact eq_comm
  simp only [setSlot, getIndex_keys, slot, find?, Option.bind_some, modify, List.getElem?_modify,
    List.getElem?_eq_getElem inside, same]
  by_cases here : i = j
  · simp only [here, Option.map_eq_map, Option.map_some, Option.getD_some, ↓reduceIte, DataEntry.slot_setSlot,
      true_and]
  · simp only [here, Option.map_eq_map, Option.map_some, Option.getD_some, ↓reduceIte, false_and]

def setDisplay (t : StatTable) (i : ℕ) (display : Bool) : StatTable :=
  t.modify i (fun e => { e with display := display }) (fun _ => rfl)

def setSort (t : StatTable) (i : ℕ) (sort : Int32) : StatTable :=
  t.modify i (fun e => { e with sort := sort }) (fun _ => rfl)

/-- Both fields at once. -/
theorem setSort_setDisplay (t : StatTable) (i : ℕ) (display : Bool) (sort : Int32) :
    (t.setDisplay i display).setSort i sort =
      t.modify i (fun e => { e with display := display, sort := sort }) (fun _ => rfl) := by
  apply StatTable.ext
  simp only [setDisplay, setSort, modify]
  apply List.ext_getElem (by simp)
  intro j _ _
  simp only [List.getElem_modify]
  split <;> rfl

/-- A change of the other fields leaves every text. -/
theorem slot_modify (t : StatTable) (i : ℕ) {f : DataEntry → DataEntry} (keeps : ∀ e, (f e).kind = e.kind)
    (texts : ∀ e s, (f e).slot s = e.slot s) (key : Str) (s : Slot) :
    (t.modify i f keeps).slot key s = t.slot key s := by
  simp only [slot, find?, modify]
  cases getIndex key with
  | none => rfl
  | some j =>
    simp only [Option.bind_some, List.getElem?_modify, Option.map_eq_map, Option.map_map]
    split <;> simp [Function.comp_def, texts]

@[simp] theorem slot_setDisplay (t : StatTable) (i : ℕ) (display : Bool) (key : Str) (s : Slot) :
    (t.setDisplay i display).slot key s = t.slot key s :=
  t.slot_modify i _ (fun _ s => by cases s <;> rfl) key s

@[simp] theorem slot_setSort (t : StatTable) (i : ℕ) (sort : Int32) (key : Str) (s : Slot) :
    (t.setSort i sort).slot key s = t.slot key s :=
  t.slot_modify i _ (fun _ s => by cases s <;> rfl) key s

/-- All init, current and change texts are empty. -/
def IsClear (t : StatTable) : Prop := ∀ e ∈ t.entries, ∀ s, e.slot s = []

theorem isClear_iff (t : StatTable) : t.IsClear ↔ ∀ key ∈ keys, ∀ s, t.slot key s = [] := by
  constructor
  · intro clear key known s
    obtain ⟨e, member, rfl⟩ := t.exists_entry known
    rw [t.slot_key member]
    exact clear e member s
  · intro clear e member s
    rw [← t.slot_key member]
    exact clear e.key (t.key_mem_keys member) s

theorem isClear_initial : initial.IsClear := by
  have texts : ∀ e ∈ initialArr, e.init = [] ∧ e.current = [] ∧ e.change = [] := by decide +kernel
  intro e member s
  obtain ⟨init, current, change⟩ := texts e member
  cases s with
  | init => exact init
  | current => exact current
  | change => exact change

/-- `e.init = e.current = e.change = ""` for every entry. -/
def clear (t : StatTable) : StatTable :=
  t.mapEntries (fun e => { e with init := [], current := [], change := [] }) (fun _ => rfl)

theorem isClear_clear (t : StatTable) : t.clear.IsClear := by
  intro e member s
  obtain ⟨old, _, rfl⟩ := List.mem_map.mp member
  cases s <;> rfl

end StatTable

end OsuTracker.Model.Core.Config
