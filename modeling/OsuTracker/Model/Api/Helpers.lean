import OsuTracker.Cxx.FloatText
import OsuTracker.Model.Core.Helpers
import OsuTracker.Model.Core.ConfigFile

/-! # Effects of the endpoint functions

An endpoint function computes from its response a list of actions on the globals: stores of
fields, sums of fields just stored, one action per entry for `calcDifference`, and at the end the
exception it threw, if any. Running an action yields the writes to the stat table, in order, and
the next state, so a run of the fetch loop comes with the log of everything it wrote and the
table at its end is the old one with that log applied.
-/

namespace OsuTracker.Model.Api

open Cxx Core.Config

/-! ## Writes -/

structure Write where
  key : Str
  slot : Slot
  value : Str
deriving DecidableEq, Repr

/-- The table after a list of writes. -/
def applyWrites (t : StatTable) (writes : List Write) : StatTable :=
  writes.foldl (fun t w => t.setSlot w.key w.slot w.value) t

theorem applyWrites_append (t : StatTable) (first second : List Write) :
    applyWrites t (first ++ second) = applyWrites (applyWrites t first) second := List.foldl_append ..

/-- A slot holds its old text or one that was written to it. -/
theorem slot_applyWrites (t : StatTable) {writes : List Write} (known : ∀ w ∈ writes, w.key ∈ keys) {key : Str}
    (asked : key ∈ keys) (slot : Slot) :
    (applyWrites t writes).slot key slot = t.slot key slot ∨
      ∃ w ∈ writes, w.key = key ∧ w.slot = slot ∧ (applyWrites t writes).slot key slot = w.value := by
  induction writes generalizing t with
  | nil => exact .inl rfl
  | cons w rest ih =>
    obtain ⟨own, others⟩ := List.forall_mem_cons.mp known
    rcases ih (t.setSlot w.key w.slot w.value) others with same | ⟨later, member, found⟩
    · have effect := t.slot_setSlot own asked w.slot slot w.value
      by_cases here : key = w.key ∧ slot = w.slot
      · rw [if_pos here] at effect
        exact .inr ⟨w, List.mem_cons_self, here.1.symm, here.2.symm, same.trans effect⟩
      · rw [if_neg here] at effect
        exact .inl (same.trans effect)
    · exact .inr ⟨later, List.mem_cons_of_mem _ member, found⟩

/-- A slot that was written holds a text that was written to it. -/
theorem slot_applyWrites_of_written (t : StatTable) {writes : List Write} (known : ∀ w ∈ writes, w.key ∈ keys) {key : Str}
    (asked : key ∈ keys) {slot : Slot} (written : ∃ w ∈ writes, w.key = key ∧ w.slot = slot) :
    ∃ w ∈ writes, w.key = key ∧ w.slot = slot ∧ (applyWrites t writes).slot key slot = w.value := by
  induction writes generalizing t with
  | nil => obtain ⟨w, member, _⟩ := written; cases member
  | cons first rest ih =>
    obtain ⟨own, others⟩ := List.forall_mem_cons.mp known
    by_cases again : ∃ w ∈ rest, w.key = key ∧ w.slot = slot
    · obtain ⟨w, member, found⟩ := ih (t.setSlot first.key first.slot first.value) others again
      exact ⟨w, List.mem_cons_of_mem _ member, found⟩
    · obtain ⟨w, member, sameKey, sameSlot⟩ := written
      rcases List.mem_cons.mp member with rfl | inRest
      · refine ⟨w, List.mem_cons_self, sameKey, sameSlot, ?_⟩
        rcases slot_applyWrites (t.setSlot w.key w.slot w.value) others asked slot with same | ⟨later, inside, here⟩
        · refine Eq.trans same ?_
          rw [t.slot_setSlot own asked, if_pos ⟨sameKey.symm, sameSlot.symm⟩]
        · exact absurd ⟨later, inside, here.1, here.2.1⟩ again
      · exact absurd ⟨w, inRest, sameKey, sameSlot⟩ again

/-- The effect on one slot depends on that slot alone. -/
theorem slot_applyWrites_congr {t t' : StatTable} {writes : List Write} (known : ∀ w ∈ writes, w.key ∈ keys) {key : Str}
    (asked : key ∈ keys) {slot : Slot} (same : t.slot key slot = t'.slot key slot) :
    (applyWrites t writes).slot key slot = (applyWrites t' writes).slot key slot := by
  induction writes generalizing t t' with
  | nil => exact same
  | cons first rest ih =>
    obtain ⟨own, others⟩ := List.forall_mem_cons.mp known
    refine ih others ?_
    rw [t.slot_setSlot own asked, t'.slot_setSlot own asked, same]

/-! ## Actions -/

inductive Act where
  | setUsername (name : Str)
  | refreshAvatar (url : Str) (download : Option (List UInt8))
  | setField (key value : Str) (setInit : Bool)
  | setSum (key : Str) (addends : List Str) (setInit : Bool)
  | setCompletion (completionDenom : Int32) (setInit : Bool)
  | clearInvalid (key : Str)
  | calcEntry (i : ℕ)
  | authFailed
  | authRecovered (init : Bool)
  | raise (error : Exception)
deriving DecidableEq

/-- `std::stoi(arr[getIndex(key)].current)`. -/
def getIntField (t : StatTable) (key : Str) : Except Exception Int32 := stoi (t.slot key .current)

/-- The writes of `setField`. -/
def fieldWrites (key value : Str) (setInit : Bool) : List Write :=
  ⟨key, .current, value⟩ :: if setInit then [⟨key, .init, value⟩] else []

def sumFields (t : StatTable) (addends : List Str) : Except Exception Int32 :=
  addends.foldlM (fun total key => (getIntField t key).map (total + ·)) 0

/-- `(static_cast<float>(a) / static_cast<float>(b)) * 100`. -/
def completionOf (total denominator : Int32) : Flt :=
  Flt.mul binary32 (Flt.div binary32 (Flt.ofInt binary32 total.toInt) (Flt.ofInt binary32 denominator.toInt))
    (Flt.ofInt binary32 100)

/-- The text that `calcDifference` stores in `change` of an entry, by its data type. -/
def difference (data : DataEntry) : Except Exception (Option Str) :=
  match data.dataType with
  | .string => .ok none
  | .int => do
    let current ← stoi data.current
    let init ← stoi data.init
    pure (some (stdToString (current - init).toInt))
  | .float => do
    let current ← stof data.current
    let init ← stof data.init
    pure (some (floatToString (Flt.sub binary32 current init)))
  | .longLong => do
    let current ← stoll data.current
    let init ← stoll data.init
    pure (some (stdToString (current - init).toInt))

/-- One iteration of the loop of `calcDifference`. -/
def calcWrites (data : DataEntry) : Except Exception (List Write) :=
  if data.init = [] ∨ data.current = [] then .ok []
  else (difference data).map fun text => (text.map fun change => ⟨data.key, .change, change⟩).toList

/-- What an action writes to the stat table. -/
def Act.writes (act : Act) (t : StatTable) : Except Exception (List Write) :=
  match act with
  | .setField key value setInit => .ok (fieldWrites key value setInit)
  | .setSum key addends setInit =>
    (sumFields t addends).map fun total => fieldWrites key (stdToString total.toInt) setInit
  | .setCompletion completionDenom setInit =>
    (getIntField t "totalClears").map fun total =>
      fieldWrites "completion" (floatToString (completionOf total completionDenom)) setInit
  | .clearInvalid key => .ok (if t.slot key .current = "Invalid" then [⟨key, .current, []⟩] else [])
  | .calcEntry i =>
    match t.entries[i]? with
    | some data => calcWrites data
    | none => .ok []
  | .raise e => .error e
  | _ => .ok []

/-- What an action does to the other globals; an avatar is downloaded when its URL is new. -/
def Act.effect (act : Act) (g : Globals) : Globals :=
  match act with
  | .setUsername name => { g with user := { g.user with username := name } }
  | .refreshAvatar url download =>
    if url = g.user.avatarUrl then g
    else
      match download with
      | some data => { g with user := { g.user with avatarUrl := url, avatarBytes := data, avatarDirty := true } }
      | none => { g with user := { g.user with avatarUrl := url } }
  | .authFailed => { g with initApiFailed := true }
  | .authRecovered init => if g.initApiFailed ∧ init = false then { g with initApiFailed := false } else g
  | _ => g

def Act.exec (act : Act) (g : Globals) : Except Exception (List Write × Globals) :=
  (act.writes g.arr).map fun writes => (writes, { act.effect g with arr := applyWrites g.arr writes })

/-- The actions of `calcDifference`. -/
def calcDifference : List Act := (List.range keys.length).map .calcEntry

/-! ## Scripts -/

/-- The actions an endpoint function has emitted, and how it goes on. -/
def Script (α : Type) := List Act × Except Exception α

namespace Script

variable {α β : Type}

instance : Monad Script where
  pure a := ([], .ok a)
  bind script next :=
    match script.2 with
    | .ok a => (script.1 ++ (next a).1, (next a).2)
    | .error e => (script.1, .error e)

def emit (acts : List Act) : Script Unit := (acts, .ok ())

/-- A computation on the response. -/
def read (result : Except Exception α) : Script α := ([], result)

/-- The actions to run, the exception last. -/
def acts (script : Script α) : List Act :=
  script.1 ++ match script.2 with
    | .ok _ => []
    | .error e => [.raise e]

end Script

/-- One `setField` of a table of fields: the key and how its text is read from the response. -/
abbrev Field := Str × (Json → Except Exception Str)

/-- Fields stored one after the other from one value. -/
def storeFields (fields : List Field) (source : Json) (init : Bool) : Script Unit :=
  fields.forM fun field => do
    let value ← Script.read (field.2 source)
    Script.emit [.setField field.1 value init]

theorem storeFields_cons (field : Field) (rest : List Field) (source : Json) (init : Bool) :
    storeFields (field :: rest) source init = match field.2 source with
      | .ok value => (.setField field.1 value init :: (storeFields rest source init).1,
          (storeFields rest source init).2)
      | .error e => ([], .error e) := by
  simp only [storeFields, List.forM_eq_forM, List.forM_cons, Bind.bind, Script.read, Script.emit]
  cases field.2 source <;> rfl

end OsuTracker.Model.Api
