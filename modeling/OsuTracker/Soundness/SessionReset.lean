import OsuTracker.Model.Web.MainWs

/-! # When saving settings resets the session

The handler compares the incoming texts of the six session settings with the rendered fields, while
`set` parses numbers leniently and also answers to the old name of the user ID and to any name with
the same hash. So for each setting there is the item under its own name, which the handler looks at,
and the last item that is stored for it, which decides on its value. A message is judged rightly if
some setting is edited, or if there is a respelled one exactly when there is a renamed one.
-/

namespace OsuTracker.Soundness.SessionReset

open Cxx Model.Core.Config Model.Core.Formatter Model.Web.MainWs

/-! ## Values -/

/-- The settings of `identityKeys`. -/
def identitySettings : List Setting := [.banchoId, .titanicId, .clientId, .clientSecret, .gameMode, .server]

def identity (c : AppConfig) : Int32 × Int32 × Int32 × Str × GameMode × Server :=
  (c.banchoId, c.titanicId, c.clientId, c.clientSecret, c.gameMode, c.server)

/-- The text that a setting shows after an accepted value has been stored. -/
def rendered (setting : Setting) (value : Str) : Str :=
  if setting = .clientSecret then value
  else
    match stoi value with
    | .ok n => stdToString n.toInt
    | .error _ => []

theorem stdToString_injective {m n : Int32} (same : stdToString m.toInt = stdToString n.toInt) : m = n := by
  have read := stoi_stdToString m
  rw [same, stoi_stdToString] at read
  exact (Except.ok.inj read).symm

theorem identity_eq_iff (c c' : AppConfig) :
    identity c = identity c' ↔ ∀ setting ∈ identitySettings, c.text setting = c'.text setting := by
  simp only [identity, Prod.mk.injEq, identitySettings, List.forall_mem_cons, AppConfig.text, List.not_mem_nil,
    false_implies, implies_true, and_true]
  constructor
  · rintro ⟨bancho, titanic, client, secret, mode, server⟩
    rw [bancho, titanic, client, secret, mode, server]
    exact ⟨rfl, rfl, rfl, rfl, rfl, rfl⟩
  · rintro ⟨bancho, titanic, client, secret, mode, server⟩
    exact ⟨stdToString_injective bancho, stdToString_injective titanic, stdToString_injective client, secret,
      stdToString_injective mode, stdToString_injective server⟩

theorem rendered_text (c : AppConfig) (setting : Setting) : rendered setting (c.text setting) = c.text setting := by
  cases setting <;> simp [rendered, AppConfig.text]

theorem text_assign {c c' : AppConfig} {own : Setting} {value : Str} (stored : c.assign own value = .ok c')
    (setting : Setting) : c'.text setting = if setting = own then rendered setting value else c.text setting := by
  by_cases secret : own = .clientSecret
  · subst secret
    cases stored
    cases setting <;> rfl
  · obtain ⟨n, read, same⟩ : ∃ n, stoi value = .ok n ∧ c'.text setting =
        if setting = own then stdToString n.toInt else c.text setting := by
      cases own <;> first | exact absurd rfl secret | skip
      all_goals
        obtain ⟨n, read, rfl⟩ := map_eq_ok stored
        exact ⟨n, read, by cases setting <;> rfl⟩
    rw [same]
    split
    · next own => rw [own, rendered, if_neg secret, read]
    · rfl

theorem text_set {c c' : AppConfig} {item : Str × Str} (stored : c.set item.1 item.2 = .ok c') (setting : Setting) :
    c'.text setting =
      if dispatch setCases item.1 = some setting then rendered setting item.2 else c.text setting := by
  unfold AppConfig.set at stored
  split at stored
  · next own found =>
    rw [text_assign stored, found]
    simp only [Option.some.injEq, eq_comm]
  · next found =>
    cases stored
    rw [found, if_neg nofun]

/-! ## Items in effect -/

/-- The last item stored for a setting, under whatever name. -/
def inEffect (setting : Setting) : List (Str × Str) → Option (Str × Str)
  | [] => none
  | item :: rest =>
    (inEffect setting rest).or (if dispatch setCases item.1 = some setting then some item else none)

theorem text_each {items : List (Str × Str)} {g g' : Globals} (ran : Outcome.each applyItem items g = .done g')
    (setting : Setting) : g'.application.text setting =
      ((inEffect setting items).map fun item => rendered setting item.2).getD (g.application.text setting) := by
  induction items generalizing g with
  | nil =>
    cases ran
    rfl
  | cons item rest ih =>
    obtain ⟨next, first, others⟩ := Outcome.andThen_eq_done.mp ran
    obtain ⟨c', stored, same⟩ := map_eq_ok (Outcome.ofExcept_eq_done.mp first)
    subst same
    rw [ih others, inEffect, text_set stored]
    cases inEffect setting rest with
    | some later => rfl
    | none =>
      simp only [Option.map_none, Option.getD_none, Option.none_or]
      split <;> rfl

/-! ## The decision -/

/-- The six names address their settings, in `set` as in `get`. -/
theorem setting_of_identityKey : ∀ key ∈ identityKeys,
    ∃ setting ∈ identitySettings, dispatch setCases key = some setting ∧ dispatch getCases key = some setting := by
  decide +kernel

theorem incoming_nodup {j : Json} {items : List (Str × Str)} (built : incoming j = .ok items) :
    (items.map Prod.fst).Nodup := by
  obtain ⟨list, _, filled⟩ := bind_eq_ok.mp built
  refine foldlM_preserves (P := fun built => (built.map Prod.fst).Nodup) ?_ List.nodup_nil filled
  intro built item next distinct stored
  obtain ⟨_, _, stored⟩ := bind_eq_ok.mp stored
  obtain ⟨value, _, stored⟩ := bind_eq_ok.mp stored
  obtain ⟨_, _, stored⟩ := bind_eq_ok.mp stored
  obtain ⟨key, _, stored⟩ := bind_eq_ok.mp stored
  cases stored
  exact nodup_assign key value distinct

/-- Some of the six names comes with another text than its field shows. -/
def Differs (items : List (Str × Str)) (c : AppConfig) : Prop :=
  ∃ item ∈ items, item.1 ∈ identityKeys ∧ item.2 ≠ c.get item.1

instance (items : List (Str × Str)) (c : AppConfig) : Decidable (Differs items c) :=
  inferInstanceAs (Decidable (∃ item ∈ items, _))

theorem resetSession_iff {items : List (Str × Str)} (distinct : (items.map Prod.fst).Nodup) (c : AppConfig) :
    resetSession items c = true ↔ Differs items c := by
  simp only [resetSession, List.any_eq_true]
  constructor
  · rintro ⟨key, listed, differs⟩
    cases found : items.lookup key with
    | none => simp [found] at differs
    | some value =>
      exact ⟨(key, value), mem_of_lookup found, listed, by simpa [found] using differs⟩
  · rintro ⟨⟨key, value⟩, member, listed, differs⟩
    refine ⟨key, listed, ?_⟩
    rw [lookup_of_mem distinct member]
    simpa using differs

/-! ## Kinds of settings -/

section Kinds

variable (items : List (Str × Str)) (c : AppConfig) (setting : Setting)

/-- Under its own name the setting comes with another text than it shows. -/
def Retyped : Prop :=
  ∃ item ∈ items, item.1 ∈ identityKeys ∧ dispatch setCases item.1 = some setting ∧ item.2 ≠ c.text setting

instance : Decidable (Retyped items c setting) := inferInstanceAs (Decidable (∃ item ∈ items, _))

/-- Retyped, and the last item for it denotes another value. -/
def Edited : Prop := Retyped items c setting ∧ ∃ item ∈ inEffect setting items, rendered setting item.2 ≠ c.text setting

/-- Retyped, but the last item for it, under whatever name, denotes the value that it has. -/
def Respelled : Prop :=
  Retyped items c setting ∧ ∃ item ∈ inEffect setting items, rendered setting item.2 = c.text setting

/-- Not retyped, but the last item for it is under another name and denotes another value. -/
def Renamed : Prop :=
  ¬Retyped items c setting ∧ ∃ item ∈ inEffect setting items,
    item.1 ∉ identityKeys ∧ rendered setting item.2 ≠ c.text setting

instance : Decidable (Edited items c setting) := inferInstanceAs (Decidable (_ ∧ ∃ item ∈ inEffect setting items, _))

instance : Decidable (Respelled items c setting) :=
  inferInstanceAs (Decidable (_ ∧ ∃ item ∈ inEffect setting items, _))

instance : Decidable (Renamed items c setting) :=
  inferInstanceAs (Decidable (_ ∧ ∃ item ∈ inEffect setting items, _))

end Kinds

section Kinds

variable {items : List (Str × Str)} {c : AppConfig}

theorem mem_of_inEffect {setting : Setting} {items : List (Str × Str)} {item : Str × Str}
    (last : item ∈ inEffect setting items) : item ∈ items ∧ dispatch setCases item.1 = some setting := by
  induction items with
  | nil => cases last
  | cons first rest ih =>
    rw [inEffect, Option.mem_def, Option.or_eq_some_iff] at last
    rcases last with later | ⟨_, here⟩
    · obtain ⟨member, found⟩ := ih later
      exact ⟨List.mem_cons_of_mem _ member, found⟩
    · obtain ⟨found, same⟩ := Option.ite_none_right_eq_some.mp here
      cases same
      exact ⟨List.mem_cons_self, found⟩

theorem exists_inEffect {setting : Setting} {item : Str × Str} (member : item ∈ items)
    (addressed : dispatch setCases item.1 = some setting) : ∃ last, last ∈ inEffect setting items := by
  induction items with
  | nil => cases member
  | cons first rest ih =>
    cases later : inEffect setting rest with
    | some last => exact ⟨last, by simp [inEffect, later]⟩
    | none =>
      rcases List.mem_cons.mp member with rfl | inside
      · exact ⟨item, by simp [inEffect, later, addressed]⟩
      · obtain ⟨last, there⟩ := ih inside
        cases later.symm.trans there

/-- The handler sees a difference where a setting is retyped. -/
theorem differs_iff : Differs items c ↔ ∃ setting ∈ identitySettings, Retyped items c setting := by
  constructor
  · rintro ⟨item, member, named, differs⟩
    obtain ⟨setting, listed, sets, gets⟩ := setting_of_identityKey item.1 named
    rw [AppConfig.get, gets] at differs
    exact ⟨setting, listed, item, member, named, sets, differs⟩
  · rintro ⟨setting, -, item, member, named, addressed, differs⟩
    obtain ⟨other, -, sets, gets⟩ := setting_of_identityKey item.1 named
    cases addressed.symm.trans sets
    refine ⟨item, member, named, ?_⟩
    rwa [AppConfig.get, gets]

theorem retyped_iff (setting : Setting) :
    Retyped items c setting ↔ Edited items c setting ∨ Respelled items c setting := by
  constructor
  · intro retyped
    have ⟨item, member, _, addressed, _⟩ := retyped
    obtain ⟨last, there⟩ := exists_inEffect member addressed
    by_cases same : rendered setting last.2 = c.text setting
    · exact .inr ⟨retyped, last, there, same⟩
    · exact .inl ⟨retyped, last, there, same⟩
  · rintro (edited | respelled)
    · exact edited.1
    · exact respelled.1

/-- A setting changes if it is edited or renamed: what is not retyped comes under its own name as it is shown. -/
theorem changes_iff (setting : Setting) :
    (∃ item ∈ inEffect setting items, rendered setting item.2 ≠ c.text setting) ↔
      Edited items c setting ∨ Renamed items c setting := by
  constructor
  · rintro ⟨last, there, changes⟩
    by_cases retyped : Retyped items c setting
    · exact .inl ⟨retyped, last, there, changes⟩
    · refine .inr ⟨retyped, last, there, fun own => changes ?_, changes⟩
      obtain ⟨member, addressed⟩ := mem_of_inEffect there
      have shown : last.2 = c.text setting := by
        by_contra other
        exact retyped ⟨last, member, own, addressed, other⟩
      rw [shown, rendered_text]
  · rintro (⟨-, last, there, changes⟩ | ⟨-, last, there, -, changes⟩) <;> exact ⟨last, there, changes⟩

end Kinds

/-- What the loop over the items changes. -/
theorem identity_each {items : List (Str × Str)} {g g' : Globals} (ran : Outcome.each applyItem items g = .done g') :
    identity g.application ≠ identity g'.application ↔
      ∃ setting ∈ identitySettings, ∃ item ∈ inEffect setting items,
        rendered setting item.2 ≠ g.application.text setting := by
  rw [Ne, identity_eq_iff]
  simp only [text_each ran, not_forall, exists_prop]
  refine exists_congr fun setting => and_congr_right fun _ => ?_
  cases inEffect setting items with
  | none => simp
  | some item => simp [eq_comm]

theorem application_of_saved {order : MapOrder} {sort : StdSort bySort} {j : Json} {g g' : Globals}
    {items : List (Str × Str)} (built : incoming j = .ok items) (saved : saveSettings order sort j g = .done g') :
    ∃ stored, Outcome.each applyItem (order.run items) g = .done stored ∧ g'.application = stored.application := by
  simp only [saveSettings, built, Outcome.andThen_assoc] at saved
  obtain ⟨stored, ran, later⟩ := Outcome.andThen_eq_done.mp saved
  simp only [← Outcome.andThen_assoc] at later
  have kept := tracked_preserves (P := fun g => g.application = stored.application) (fun _ _ _ same => same)
    (fun _ _ _ same => same) (fun _ _ same => same) (fun _ _ same => same) sort j rfl
  rw [later] at kept
  exact ⟨stored, ran, kept⟩

/-- A saved message schedules a reset exactly when it changes the session settings, if it edits one, or if it
respells one exactly when it renames one. -/
theorem reset_iff_changed {order : MapOrder} {sort : StdSort bySort} {j : Json} {g g' : Globals}
    {items : List (Str × Str)} (built : incoming j = .ok items) (saved : saveSettings order sort j g = .done g') :
    (savedWithReset j g = true ↔ identity g.application ≠ identity g'.application) ↔
      (∃ setting ∈ identitySettings, Edited (order.run items) g.application setting) ∨
        ((∃ setting ∈ identitySettings, Respelled (order.run items) g.application setting) ↔
          ∃ setting ∈ identitySettings, Renamed (order.run items) g.application setting) := by
  obtain ⟨stored, ran, same⟩ := application_of_saved built saved
  have scheduled : savedWithReset j g = true ↔ Differs (order.run items) g.application := by
    simp only [savedWithReset, built, resetSession_iff (incoming_nodup built), Differs, (order.perm items).mem_iff]
  rw [scheduled, same, identity_each ran, differs_iff]
  simp only [retyped_iff, changes_iff, and_or_left, exists_or]
  by_cases edited : ∃ setting, setting ∈ identitySettings ∧ Edited (order.run items) g.application setting
  · simp only [edited, true_or]
  · simp only [edited, false_or]

/-- A message with one setting. -/
def saving (key value : Str) : Json :=
  .obj [("msg", .obj [("applicationConfig", .arr [.obj [("key", .str key), ("value", .str value)]]),
    ("trackerConfig", .arr [])])]

theorem newUserId_resets : ∃ g', saveSettings .inserted stableBySort (saving "banchoId" "7562902") {} = .done g' ∧
    savedWithReset (saving "banchoId" "7562902") {} = true ∧ identity {} ≠ identity g'.application := by
  have returned : (saveSettings .inserted stableBySort (saving "banchoId" "7562902") {}).isDone = true := by
    decide +kernel
  have saved := Outcome.eq_done_of_isDone returned
  have scheduled : savedWithReset (saving "banchoId" "7562902") {} = true := by decide +kernel
  exact ⟨_, saved, scheduled, ((reset_iff_changed rfl saved).mpr (.inl (by decide +kernel))).mp scheduled⟩

/-- The user ID 0 written as `00` resets the session, and a new one under its old name does not. -/
theorem resets_misjudged :
    (∃ g', saveSettings .inserted stableBySort (saving "banchoId" "00") {} = .done g' ∧
        identity {} = identity g'.application ∧ savedWithReset (saving "banchoId" "00") {} = true) ∧
      ∃ g', saveSettings .inserted stableBySort (saving "osuId" "7562902") {} = .done g' ∧
        identity {} ≠ identity g'.application ∧ savedWithReset (saving "osuId" "7562902") {} = false := by
  have first : (saveSettings .inserted stableBySort (saving "banchoId" "00") {}).isDone = true := by decide +kernel
  have second : (saveSettings .inserted stableBySort (saving "osuId" "7562902") {}).isDone = true := by
    decide +kernel
  exact ⟨⟨_, Outcome.eq_done_of_isDone first, by decide +kernel, by decide +kernel⟩,
    ⟨_, Outcome.eq_done_of_isDone second, by decide +kernel, by decide +kernel⟩⟩

end OsuTracker.Soundness.SessionReset
