import OsuTracker.Soundness.Endpoints.Acts

/-! # Threads that supply what they read

Each endpoint first stores its fields, every sum after its addends, and only then computes
differences and the target of the score ranking. A pool of such threads that store different
fields runs all its stores, and at the end each stored field still has what was stored in it,
however the threads interleave and wherever the later actions throw.
-/

namespace OsuTracker.Soundness.Endpoints

open Cxx Model.Core.Config Model.Api Machine.Threads

def targetKeys : List Str := ["targetRank", "targetUser", "targetScore"]

/-- The fields that are stored with the init flag. -/
def baselineKeys : List Str := keys.filter (· ∉ targetKeys)

theorem mem_keys_of_baseline {key : Str} (baseline : key ∈ baselineKeys) : key ∈ keys :=
  (List.mem_filter.mp baseline).1

theorem not_target_of_baseline {key : Str} (baseline : key ∈ baselineKeys) : key ∉ targetKeys := by
  simpa using (List.mem_filter.mp baseline).2

/-! ## Sums after their addends -/

/-- The action stores an integer under the key. -/
def IntStore (key : Str) : Act → Prop
  | .setField own value _ => own = key ∧ ∃ n : Int32, value = stdToString n.toInt
  | .setSum own _ _ => own = key
  | _ => False

/-- The fields that an action reads are stored by actions before it. -/
def Supplied (before : List Act) : Act → Prop
  | .setSum _ addends _ => ∀ key ∈ addends, ∃ act ∈ before, IntStore key act
  | .setCompletion _ _ => ∃ act ∈ before, IntStore "totalClears" act
  | .clearInvalid _ => False
  | .calcEntry _ => False
  | .raise _ => False
  | _ => True

def Supply : List Act → List Act → Prop
  | _, [] => True
  | before, act :: rest => Supplied before act ∧ Supply (before ++ [act]) rest

theorem supply_append {before first second : List Act} :
    Supply before (first ++ second) ↔ Supply before first ∧ Supply (before ++ first) second := by
  induction first generalizing before with
  | nil => simp [Supply]
  | cons act rest ih => simp [Supply, ih, and_assoc]

/-- Actions that read nothing. -/
theorem supply_of_forall {front : List Act} (reads : ∀ act ∈ front, ∀ before, Supplied before act) (before : List Act) :
    Supply before front := by
  induction front generalizing before with
  | nil => trivial
  | cons act rest ih =>
    obtain ⟨own, others⟩ := List.forall_mem_cons.mp reads
    exact ⟨own before, ih others _⟩

theorem Supplied.more {before more : List Act} (part : ∀ act ∈ before, act ∈ more) {act : Act}
    (supplied : Supplied before act) : Supplied more act := by
  cases act with
  | setSum key addends setInit =>
    intro addend member
    obtain ⟨b, inside, stores⟩ := supplied addend member
    exact ⟨b, part b inside, stores⟩
  | setCompletion completionDenom setInit =>
    obtain ⟨b, inside, stores⟩ := supplied
    exact ⟨b, part b inside, stores⟩
  | _ => exact supplied

theorem Supply.more {before more rest : List Act} (part : ∀ act ∈ before, act ∈ more) (supply : Supply before rest) :
    Supply more rest := by
  induction rest generalizing before more with
  | nil => trivial
  | cons act rest ih =>
    refine ⟨supply.1.more part, ih (fun other member => ?_) supply.2⟩
    rcases List.mem_append.mp member with old | new
    · exact List.mem_append_left _ (part other old)
    · exact List.mem_append_right _ new

theorem Supply.supplied {front before after : List Act} {act : Act} (supply : Supply [] front)
    (split : front = before ++ act :: after) : Supplied before act := by
  subst split
  exact (supply_append.mp supply).2.1

theorem int_of_holds {key : Str} {act : Act} {g : Globals} (stores : IntStore key act) (holds : Holds act g) :
    ∃ n : Int32, g.arr.slot key .current = stdToString n.toInt := by
  cases act with
  | setField own value setInit =>
    obtain ⟨rfl, n, rfl⟩ := stores
    exact ⟨n, holds.1⟩
  | setSum own addends setInit =>
    obtain rfl := stores
    obtain ⟨n, current, _⟩ := holds
    exact ⟨n, current⟩
  | _ => exact stores.elim

theorem getIntField_ok {t : StatTable} {key : Str} (int : ∃ n : Int32, t.slot key .current = stdToString n.toInt) :
    ∃ n, getIntField t key = .ok n := by
  obtain ⟨n, text⟩ := int
  exact ⟨n, by rw [getIntField, text, stoi_stdToString]⟩

theorem sumFields_ok {t : StatTable} {addends : List Str}
    (ints : ∀ key ∈ addends, ∃ n : Int32, t.slot key .current = stdToString n.toInt) :
    ∃ total, sumFields t addends = .ok total := by
  have from_ (start : Int32) :
      ∃ total, addends.foldlM (fun total key => (getIntField t key).map (total + ·)) start = .ok total := by
    induction addends generalizing start with
    | nil => exact ⟨start, rfl⟩
    | cons key rest ih =>
      obtain ⟨own, others⟩ := List.forall_mem_cons.mp ints
      obtain ⟨n, read⟩ := getIntField_ok own
      obtain ⟨total, later⟩ := ih others (start + n)
      refine ⟨total, ?_⟩
      rw [List.foldlM_cons, read]
      exact later
  exact from_ 0

/-- A supplied action runs. -/
theorem exec_of_supplied {before : List Act} {act : Act} (supplied : Supplied before act) {g : Globals}
    (facts : ∀ b ∈ before, Holds b g) : ∃ written next, act.exec g = .ok (written, next) := by
  have supplies {key : Str} (stored : ∃ b ∈ before, IntStore key b) :
      ∃ n : Int32, g.arr.slot key .current = stdToString n.toInt := by
    obtain ⟨b, member, stores⟩ := stored
    exact int_of_holds stores (facts b member)
  have returns : ∃ written, act.writes g.arr = .ok written := by
    cases act with
    | setSum key addends setInit =>
      obtain ⟨total, sum⟩ := sumFields_ok fun key member => supplies (supplied key member)
      exact ⟨_, by rw [Act.writes, sum]; rfl⟩
    | setCompletion completionDenom setInit =>
      obtain ⟨total, read⟩ := getIntField_ok (supplies supplied)
      exact ⟨_, by rw [Act.writes, read]; rfl⟩
    | clearInvalid key => exact supplied.elim
    | calcEntry i => exact supplied.elim
    | raise e => exact supplied.elim
    | _ => exact ⟨_, rfl⟩
  obtain ⟨written, writes⟩ := returns
  exact ⟨written, _, exec_of_writes writes⟩

/-! ## Plans -/

/-- An action after the stores of its thread: it stores no field that has a baseline. -/
structure Late (act : Act) : Prop where
  stores : ∀ key, storedKey act = some key → key ∈ targetKeys
  unset : setsInit act = false
  clears : ∀ key, act = .clearInvalid key → key ∈ targetKeys

/-- For each thread its stores and what follows them. -/
structure Planned (init : Bool) (parts : List (List Act × List Act)) : Prop where
  supply : ∀ part ∈ parts, Supply [] part.1
  unique : ((parts.flatMap Prod.fst).filterMap storedKey).Nodup
  stores : ∀ key ∈ (parts.flatMap Prod.fst).filterMap storedKey, key ∈ baselineKeys
  flagged : ∀ part ∈ parts, ∀ act ∈ part.1, ∀ key, storedKey act = some key → setsInit act = init
  late : ∀ part ∈ parts, ∀ act ∈ part.2, Late act

def threadsOf (parts : List (List Act × List Act)) : List (List Act) := parts.map fun part => part.1 ++ part.2

/-- All stores of a plan. -/
abbrev fronts (parts : List (List Act × List Act)) : List Act := parts.flatMap Prod.fst

theorem inPool_threadsOf {parts : List (List Act × List Act)} {act : Act} (member : InPool (threadsOf parts) act) :
    act ∈ fronts parts ∨ ∃ part ∈ parts, act ∈ part.2 := by
  obtain ⟨thread, inside, mem⟩ := member
  obtain ⟨part, listed, rfl⟩ := List.mem_map.mp inside
  rcases List.mem_append.mp mem with front | late
  · exact .inl (List.mem_flatMap.mpr ⟨part, listed, front⟩)
  · exact .inr ⟨part, listed, late⟩

theorem inPool_of_front {parts : List (List Act × List Act)} {act : Act} (member : act ∈ fronts parts) :
    InPool (threadsOf parts) act := by
  obtain ⟨part, listed, front⟩ := List.mem_flatMap.mp member
  exact ⟨_, List.mem_map_of_mem listed, List.mem_append_left _ front⟩

private theorem not_cleared {front : List Act} (supply : Supply [] front) {act : Act} (member : act ∈ front)
    (key : Str) : act ≠ .clearInvalid key := by
  rintro rfl
  obtain ⟨before, after, split⟩ := List.append_of_mem member
  exact supply.supplied split

/-- Two members of a list that are mapped to the same value, where the values are distinct. -/
theorem eq_of_nodup_filterMap {α β : Type} {f : α → Option β} {l : List α} (distinct : (l.filterMap f).Nodup) {a b : α}
    {value : β} (left : a ∈ l) (right : b ∈ l) (first : f a = some value) (second : f b = some value) : a = b := by
  induction l with
  | nil => cases left
  | cons head rest ih =>
    have absent {c : α} (inside : c ∈ rest) (same : f c = some value) : f head ≠ some value := fun found => by
      rw [List.filterMap_cons_some found] at distinct
      exact (List.nodup_cons.mp distinct).1 (List.mem_filterMap.mpr ⟨c, inside, same⟩)
    have shorter : (rest.filterMap f).Nodup := distinct.sublist ((List.sublist_cons_self head rest).filterMap f)
    rcases List.mem_cons.mp left with rfl | inLeft <;> rcases List.mem_cons.mp right with rfl | inRight
    · rfl
    · exact absurd first (absent inRight second)
    · exact absurd second (absent inLeft first)
    · exact ih shorter inLeft inRight

namespace Planned

variable {init : Bool} {parts : List (List Act × List Act)} (planned : Planned init parts)

include planned

theorem baseline {act : Act} (member : act ∈ fronts parts) {key : Str} (stores : storedKey act = some key) :
    key ∈ baselineKeys :=
  planned.stores key (List.mem_filterMap.mpr ⟨act, member, stores⟩)

theorem known {act : Act} (member : InPool (threadsOf parts) act) : Known act := by
  have target : ∀ key ∈ targetKeys, key ∈ keys := by decide +kernel
  rcases inPool_threadsOf member with front | ⟨part, listed, late⟩
  · obtain ⟨part, listed, inside⟩ := List.mem_flatMap.mp front
    exact ⟨fun key stores => mem_keys_of_baseline (planned.baseline front stores),
      fun key cleared => absurd cleared (not_cleared (planned.supply part listed) inside key)⟩
  · have late := planned.late part listed act late
    exact ⟨fun key stores => target key (late.stores key stores), fun key cleared => target key (late.clears key cleared)⟩

/-- Only the front of a thread stores a field with a baseline. -/
theorem front_of_stores {act : Act} (member : InPool (threadsOf parts) act) {key : Str}
    (stores : storedKey act = some key) (asked : key ∈ baselineKeys) : act ∈ fronts parts := by
  rcases inPool_threadsOf member with front | ⟨part, listed, late⟩
  · exact front
  · exact absurd ((planned.late part listed act late).stores key stores) (not_target_of_baseline asked)

theorem uncleared {act : Act} (member : InPool (threadsOf parts) act) {key : Str} (asked : key ∈ baselineKeys) :
    act ≠ .clearInvalid key := by
  rcases inPool_threadsOf member with front | ⟨part, listed, late⟩
  · obtain ⟨part, listed, inside⟩ := List.mem_flatMap.mp front
    exact not_cleared (planned.supply part listed) inside key
  · exact fun cleared => not_target_of_baseline asked ((planned.late part listed act late).clears key cleared)

theorem setsInit_of_stores {act : Act} (member : act ∈ fronts parts) {key : Str} (stores : storedKey act = some key) :
    setsInit act = init := by
  obtain ⟨part, listed, inside⟩ := List.mem_flatMap.mp member
  exact planned.flagged part listed act inside key stores

theorem init_of_setsInit {act : Act} (member : InPool (threadsOf parts) act) (flagged : setsInit act = true) :
    init = true := by
  rcases inPool_threadsOf member with front | ⟨part, listed, late⟩
  · obtain ⟨key, stores⟩ := storedKey_of_setsInit flagged
    rw [← planned.setsInit_of_stores front stores, flagged]
  · rw [(planned.late part listed act late).unset] at flagged
    cases flagged

/-- No action of the pool undoes a store. -/
theorem stable {act other : Act} (member : act ∈ fronts parts) (inPool : InPool (threadsOf parts) other)
    {g next : Globals} {written : List Write} (holds : Holds act g) (ran : other.exec g = .ok (written, next)) :
    Holds act next :=
  holds_stable (planned.known (inPool_of_front member)) (planned.known inPool)
    (fun _ stores same => eq_of_nodup_filterMap planned.unique
      (planned.front_of_stores inPool same (planned.baseline member stores)) member same stores)
    (fun _ stores => planned.uncleared inPool (planned.baseline member stores)) holds ran

/-- Every store takes effect and keeps it. -/
theorem holds {caught : Exception → Bool} {g : Globals} {log : List Write} {result : Outcome Exception Globals}
    (run : Interleaves Act.exec caught (threadsOf parts) g log result) (returned : result.isDone = true) :
    ∀ act ∈ fronts parts, Holds act result.state := by
  intro act member
  obtain ⟨part, listed, inside⟩ := List.mem_flatMap.mp member
  obtain ⟨i, here⟩ := List.getElem?_of_mem listed
  have thread : (threadsOf parts)[i]? = some (part.1 ++ part.2) := by rw [threadsOf, List.getElem?_map, here]; rfl
  refine run.establishes Holds returned thread ?_ ?_ act inside
  · intro stored front other inPool s written next holds ran
    exact planned.stable (List.mem_flatMap.mpr ⟨part, listed, front⟩) inPool holds ran
  · intro before stored after split s facts
    obtain ⟨written, next, ran⟩ := exec_of_supplied ((planned.supply part listed).supplied split) facts
    have front : stored ∈ part.1 := split ▸ List.mem_append_right _ List.mem_cons_self
    exact ⟨written, next, ran,
      holds_exec (planned.known (inPool_of_front (List.mem_flatMap.mpr ⟨part, listed, front⟩))) ran⟩

/-- Without the init flag no baseline changes. -/
theorem init_kept {caught : Exception → Bool} (unset : init = false) {g : Globals} {log : List Write}
    {result : Outcome Exception Globals} (run : Interleaves Act.exec caught (threadsOf parts) g log result)
    {key : Str} (asked : key ∈ keys) : result.state.arr.slot key .init = g.arr.slot key .init := by
  refine run.preserves (P := fun next => next.arr.slot key .init = g.arr.slot key .init) ?_ rfl
  intro act inPool s written next same ran
  have unflagged : setsInit act = false := by
    cases flagged : setsInit act with
    | false => rfl
    | true => rw [planned.init_of_setsInit inPool flagged] at unset; cases unset
  rw [init_exec (planned.known inPool) unflagged ran asked, same]

end Planned

end OsuTracker.Soundness.Endpoints
