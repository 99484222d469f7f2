import OsuTracker.Model.Core.EnvFile
import OsuTracker.Model.Web.MainWs

/-! # Dispatch on the hash of a name

`set`, `get` and `getIndex` compare the hash of a key with those of their case labels, so a key
does what the label with its hash does, whether or not it is that label. The labels themselves
hash apart. A key is dispatched exactly when no other label has its hash; some short texts that
are no names fail this.
-/

namespace OsuTracker.Soundness.HashDispatch

open Cxx Model.Core Model.Core.Config Model.Web.MainWs

/-! ## What exact dispatch means -/

def setNames : List Str := setCases.map Prod.fst

def getNames : List Str := getCases.map Prod.fst

/-- All case labels. -/
def names : List Str := setNames ++ keys

/-- A list can be run without one of its items. -/
def Skips {α : Type} (step : α → Globals → Outcome Exception Globals) (item : α) : Prop :=
  ∀ before after g, Outcome.each step (before ++ item :: after) g = Outcome.each step (before ++ after) g

/-- The key stands for itself only: in the three functions, and in everything that is read from a
file or a message. -/
structure Exact (key : Str) : Prop where
  index : ∀ i, getIndex key = some i ↔ keys[i]? = some key
  set : ∀ (c c' : AppConfig) value, c.set key value = .ok c' → c' ≠ c → key ∈ setNames
  get : ∀ c : AppConfig, c.get key ≠ [] → key ∈ getNames
  main : key ∉ setNames → ∀ dump value, Skips (readMain dump) (key, value)
  display : key ∉ keys → ∀ value g, readDisplay (key, value) g = g
  env : key ∉ setNames → ∀ line value, Helpers.split2tuple line ('=' : UInt8) = (key, value) → Skips readEnvLine line
  setting : key ∉ setNames → ∀ value, Skips applyItem (key, value)
  row : key ∉ keys → ∀ item : Json, (item.indexConst "key").bind Json.getString = .ok key → Skips trackItem item

/-- No label but the key itself has its hash. -/
def Separated (key : Str) : Prop := ∀ name ∈ names, Config.hash name = Config.hash key → name = key

instance (key : Str) : Decidable (Separated key) :=
  inferInstanceAs (Decidable (∀ name ∈ names, Config.hash name = Config.hash key → name = key))

/-! ## Keys with the hash of a label -/

theorem getIndex_congr {key name : Str} (same : Config.hash name = Config.hash key) : getIndex key = getIndex name := by
  rw [getIndex, getIndex, same]

theorem dispatch_congr {α : Type} (cases : List (Str × α)) {key name : Str} (same : Config.hash name = Config.hash key) :
    dispatch cases key = dispatch cases name := by
  rw [dispatch, dispatch, same]

/-- The labels hash apart. -/
theorem separated_of_mem {key : Str} (listed : key ∈ names) : Separated key := by
  have all : ∀ key ∈ names, Separated key := by decide +kernel
  exact all key listed

theorem dispatch_eq_none {α : Type} {cases : List (Str × α)} {key : Str}
    (apart : ∀ label ∈ cases, Config.hash label.1 ≠ Config.hash key) : dispatch cases key = none := by
  rw [dispatch, List.find?_eq_none.mpr fun label member => by simpa using apart label member]
  rfl

theorem getIndex_eq_none {key : Str} (apart : ∀ name ∈ keys, Config.hash name ≠ Config.hash key) : getIndex key = none := by
  rw [getIndex, List.findIdx?_eq_none_iff]
  intro name member
  simpa using apart name member

/-! ## Separated keys -/

section Separated

variable {key : Str}

theorem Separated.getIndex_iff (separated : Separated key) (i : ℕ) : getIndex key = some i ↔ keys[i]? = some key := by
  constructor
  · intro found
    obtain ⟨bound, matched, _⟩ := List.findIdx?_eq_some_iff_getElem.mp found
    have listed : keys[i] ∈ names := List.mem_append_right _ (List.getElem_mem bound)
    rw [List.getElem?_eq_getElem bound, separated _ listed (by simpa using matched)]
  · intro here
    obtain ⟨bound, rfl⟩ := List.getElem?_eq_some_iff.mp here
    exact getIndex_keys i bound

theorem Separated.getIndex_unknown (separated : Separated key) (unknown : key ∉ keys) : getIndex key = none := by
  refine getIndex_eq_none fun name member same => unknown ?_
  exact separated name (List.mem_append_right _ member) same ▸ member

theorem Separated.dispatch_setCases (separated : Separated key) (unknown : key ∉ setNames) :
    dispatch setCases key = none := by
  refine dispatch_eq_none fun label member same => unknown ?_
  have listed : label.1 ∈ setNames := List.mem_map_of_mem member
  exact separated label.1 (List.mem_append_left _ listed) same ▸ listed

theorem Separated.dispatch_getCases (separated : Separated key) (unknown : key ∉ getNames) :
    dispatch getCases key = none := by
  refine dispatch_eq_none fun label member same => unknown ?_
  have listed : label.1 ∈ setNames := List.mem_map_of_mem (List.mem_of_mem_tail member)
  exact separated label.1 (List.mem_append_left _ listed) same ▸ List.mem_map_of_mem member

theorem Separated.set_unknown (separated : Separated key) (unknown : key ∉ setNames) (c : AppConfig) (value : Str) :
    c.set key value = .ok c := by
  rw [AppConfig.set, separated.dispatch_setCases unknown]

end Separated

/-- An item that does nothing in any state can be left out. -/
theorem skips_of_done {α : Type} {step : α → Globals → Outcome Exception Globals} {item : α}
    (idle : ∀ g, step item g = .done g) : Skips step item := by
  intro before after g
  rw [Outcome.each_append, Outcome.each_append]
  congr 1
  funext next
  rw [Outcome.each_cons, idle next, Outcome.andThen_done]

theorem exact_of_separated {key : Str} (separated : Separated key) : Exact key where
  index := separated.getIndex_iff
  set c c' value stored changed := by
    by_contra unknown
    rw [separated.set_unknown unknown] at stored
    exact changed (Except.ok.inj stored).symm
  get c given := by
    by_contra unknown
    rw [AppConfig.get, separated.dispatch_getCases unknown] at given
    exact given rfl
  main unknown dump value := by
    apply skips_of_done
    intro g
    rw [readMain, separated.set_unknown unknown]
    rfl
  display unknown value g := by
    rw [readDisplay, separated.getIndex_unknown unknown]
  env unknown line value split := by
    apply skips_of_done
    intro g
    simp only [readEnvLine, split, separated.set_unknown unknown, Except.map, Outcome.ofExcept_ok, ite_self]
  setting unknown value := by
    apply skips_of_done
    intro g
    rw [applyItem, separated.set_unknown unknown]
    rfl
  row unknown item named := by
    apply skips_of_done
    intro g
    rw [trackItem, named]
    simp only [separated.getIndex_unknown unknown]

/-! ## Collisions -/

/-- Every setting can be changed from its default. -/
theorem set_one (setting : Setting) : ∃ c', ({} : AppConfig).assign setting "1" = .ok c' ∧ c' ≠ {} := by
  cases setting <;> exact ⟨_, by rfl, by decide +kernel⟩

/-- Dispatch is exact on a key if and only if no other label has its hash. -/
theorem exact_iff_separated (key : Str) : Exact key ↔ Separated key := by
  refine ⟨fun exact name listed same => ?_, exact_of_separated⟩
  rcases List.mem_append.mp listed with inSet | inKeys
  · obtain ⟨label, member, rfl⟩ := List.mem_map.mp inSet
    obtain ⟨c', stored, changed⟩ := set_one label.2
    have collides : ({} : AppConfig).set key "1" = .ok c' := by
      rw [AppConfig.set, dispatch_congr setCases same, dispatch_setCases label member]
      exact stored
    -- a key that sets something is a label, and the labels hash apart
    have known : key ∈ names := List.mem_append_left _ (exact.set _ _ _ collides changed)
    exact separated_of_mem known _ listed same
  · obtain ⟨i, bound, rfl⟩ := List.getElem_of_mem inKeys
    have found : getIndex key = some i := (getIndex_congr same).trans (getIndex_keys i bound)
    exact Option.some.inj ((List.getElem?_eq_getElem bound).symm.trans ((exact.index i).mp found))

/-- The text hashes as the name of the user ID does, so it sets it. -/
theorem unknown_key_sets_banchoId :
    ("rxvhyi" : Str) ∉ names ∧ ({} : AppConfig).set "rxvhyi" "1" = .ok { banchoId := 1 } ∧
      getIndex ("gwqqjuw" : Str) = some 0 ∧ ("gwqqjuw" : Str) ∉ keys ∧ ¬∀ key, Exact key := by
  refine ⟨by decide +kernel, by decide +kernel, by decide +kernel, by decide +kernel, fun exact => ?_⟩
  have known := (exact "rxvhyi").set {} { banchoId := 1 } "1" (by decide +kernel) (by decide +kernel)
  exact absurd known (by decide +kernel)

end OsuTracker.Soundness.HashDispatch
