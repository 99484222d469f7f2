import OsuTracker.Soundness.ConfigText
import OsuTracker.Soundness.FirstRun

/-! # The settings can always be written

A text that is not UTF-8 would keep the settings from being written, after the file has been emptied.
No such text gets into them: what is assigned comes from a file or a message that the parser has
accepted, as the text of a string or as the dump of another value. After any history the settings
are written, and the file parses.
-/

namespace OsuTracker.Soundness.SettingsTexts

open Cxx Cxx.Utf8 Cxx.JsonText Cxx.JsonDump Model.Core.Config Model.Core.Formatter Model.Web.MainWs
open ConfigValidity FirstRun ConfigText

/-! ## Histories -/

/-- What happens to the settings; a file and a message are the bytes that arrive. A restart is that of a
release build: `readEnv` of a debug build may store a secret that is not UTF-8. -/
inductive Event where
  | read (disk : Disk)
  | save (order : MapOrder) (sort : StdSort bySort) (text : Str)
  | selectServer (index : Fin 2)
  | selectMode (index : Fin 4)
  | resetSettings
  | restart (simulate : Bool)

/-- A message that does not parse is not handled. -/
def Event.operations : Event → List Operation
  | .read disk => [.setting (.read (content disk))]
  | .save order sort text =>
    match JsonParser.parse text with
    | .ok j => [.setting (.save order sort j)]
    | .error _ => []
  | .selectServer index => [.setting (.selectServer index)]
  | .selectMode index => [.setting (.selectMode index)]
  | .resetSettings => [.resetSettings]
  | .restart simulate => [.restart simulate]

section Reached

variable (dumpFloat : Flt → Str)

/-- The state after a history that began with a file. -/
def reached (disk : Disk) (history : List Event) : Globals :=
  runHistory (dumpText dumpFloat) (history.flatMap Event.operations) (started (content disk))

end Reached

/-- The secret and the texts of the file are UTF-8. -/
structure Texts (g : Globals) : Prop where
  secret : Json.isUtf8 g.application.clientSecret = true
  file : ∀ j, g.configJson = .json j → Utf8Texts j

theorem texts_content (disk : Disk) : ∀ j, content disk = .json j → Utf8Texts j := by
  intro j parsed
  unfold content at parsed
  split at parsed
  · cases parsed
  · split at parsed
    · next accepted =>
      cases parsed
      exact (parse_plain accepted).utf8Texts
    · cases parsed

theorem texts_started (disk : Disk) : Texts (started (content disk)) :=
  ⟨Json.isUtf8_of_ascii nofun, texts_content disk⟩

/-! ## Values -/

theorem texts_of_lookup {members : List (Str × Json)} {key : Str} {j : Json} (inner : ∀ m ∈ members, Utf8Texts m.2)
    (there : members.lookup key = some j) : Utf8Texts j :=
  inner (key, j) (mem_of_lookup there)

theorem texts_index {j j' : Json} {key : Str} (texts : Utf8Texts j) (found : j.index key = .ok j') : Utf8Texts j' := by
  cases texts with
  | null =>
    cases found
    exact .null
  | @obj members _ inner =>
    cases there : members.lookup key with
    | none =>
      rw [Json.index, there] at found
      cases found
      exact .null
    | some value =>
      rw [Json.index, there] at found
      cases found
      exact texts_of_lookup inner there
  | _ => cases found

theorem texts_indexConst {j j' : Json} {key : Str} (texts : Utf8Texts j) (found : j.indexConst key = .ok j') :
    Utf8Texts j' := by
  cases texts with
  | @obj members _ inner =>
    cases there : members.lookup key with
    | none =>
      rw [Json.indexConst, there] at found
      cases found
    | some value =>
      rw [Json.indexConst, there] at found
      cases found
      exact texts_of_lookup inner there
  | _ => cases found

/-- A loop over a value that is no container visits the value itself. -/
theorem texts_items {j : Json} (texts : Utf8Texts j) : ∀ item ∈ j.items, Utf8Texts item := by
  cases j with
  | null => exact List.forall_mem_nil _
  | arr elements =>
    cases texts with
    | arr inner => exact inner
  | obj members =>
    cases texts with
    | obj _ inner => exact List.forall_mem_map.mpr inner
  | bool value => exact List.forall_mem_singleton.mpr texts
  | int value => exact List.forall_mem_singleton.mpr texts
  | float value => exact List.forall_mem_singleton.mpr texts
  | str value => exact List.forall_mem_singleton.mpr texts

/-! ## What is assigned -/

theorem mem_assign {key value : Str} {items : List (Str × Str)} {item : Str × Str}
    (member : item ∈ assign key value items) : item.2 = value ∨ item ∈ items := by
  induction items with
  | nil => exact .inl (congrArg Prod.snd (List.mem_singleton.mp member))
  | cons first rest ih =>
    rw [assign] at member
    split at member
    · rcases List.mem_cons.mp member with rfl | later
      · exact .inl rfl
      · exact .inr (List.mem_cons_of_mem _ later)
    · rcases List.mem_cons.mp member with rfl | later
      · exact .inr List.mem_cons_self
      · exact (ih later).imp_right (List.mem_cons_of_mem _)

private theorem texts_collected {elements : List Json} {built items : List (Str × Str)}
    (texts : ∀ j ∈ elements, Utf8Texts j) (kept : ∀ item ∈ built, Json.isUtf8 item.2 = true)
    (collected : (elements.foldlM (fun built item => do
      let value ← (← item.indexConst "value").getString
      let key ← (← item.indexConst "key").getString
      pure (assign key value built)) built : Except Exception (List (Str × Str))) = .ok items) :
    ∀ item ∈ items, Json.isUtf8 item.2 = true := by
  induction elements generalizing built with
  | nil =>
    cases collected
    exact kept
  | cons first rest ih =>
    obtain ⟨own, others⟩ := List.forall_mem_cons.mp texts
    rw [List.foldlM_cons] at collected
    obtain ⟨next, step, later⟩ := bind_eq_ok.mp collected
    refine ih others (fun item member => ?_) later
    obtain ⟨j, found, step⟩ := bind_eq_ok.mp step
    obtain ⟨value, text, step⟩ := bind_eq_ok.mp step
    obtain ⟨_, _, step⟩ := bind_eq_ok.mp step
    obtain ⟨key, _, step⟩ := bind_eq_ok.mp step
    cases step
    rcases mem_assign member with same | earlier
    · have inner := texts_indexConst own found
      cases inner with
      | str utf8 =>
        cases text
        rwa [same]
      | _ => cases text
    · exact kept item earlier

theorem texts_savedItems (order : MapOrder) {j : Json} (texts : Utf8Texts j) :
    ∀ item ∈ savedItems order j, Json.isUtf8 item.2 = true := by
  intro item member
  unfold savedItems at member
  cases collected : incoming j with
  | error e =>
    rw [collected] at member
    cases member
  | ok items =>
    rw [collected] at member
    obtain ⟨settings, found, loop⟩ := bind_eq_ok.mp collected
    obtain ⟨message, first, second⟩ := bind_eq_ok.mp found
    have inner := texts_items (texts_index (texts_index texts first) second)
    exact texts_collected inner (fun _ none => by cases none) loop item ((order.perm items).mem_iff.mp member)

section Read

variable {dumpFloat : Flt → Str} (digits : ∀ value, Json.isUtf8 (dumpFloat value) = true)

include digits

theorem texts_dumpText {j : Json} (texts : Utf8Texts j) : Json.isUtf8 (dumpText dumpFloat j) = true := by
  have formed (value : Flt) : WellFormed (dumpFloat value) := (wellFormed_iff_isUtf8 _).mpr (digits value)
  rw [dumpText]
  rcases dumpAt_total dumpFloat none 512 0 j with ⟨_, text, written⟩ | ⟨rejected, _⟩
  · rw [dump, written]
    exact (wellFormed_iff_isUtf8 text).mp (wellFormed_dumpAt dumpFloat none formed j 512 0 written)
  · exact absurd texts rejected

theorem texts_mainText {j : Json} (texts : Utf8Texts j) : Json.isUtf8 (mainText (dumpText dumpFloat) j) = true := by
  cases j with
  | null => exact Json.isUtf8_of_ascii nofun
  | str value =>
    cases texts with
    | str utf8 => exact utf8
  | bool value => exact texts_dumpText digits texts
  | int value => exact texts_dumpText digits texts
  | float value => exact texts_dumpText digits texts
  | arr elements => exact texts_dumpText digits texts
  | obj members => exact texts_dumpText digits texts

theorem texts_readItems {file : FileContent} (texts : ∀ j, file = .json j → Utf8Texts j) :
    ∀ item ∈ readItems (dumpText dumpFloat) file, Json.isUtf8 item.2 = true := by
  intro item member
  cases file with
  | absent => cases member
  | invalid => cases member
  | json j =>
    obtain ⟨m, listed, rfl⟩ := List.mem_map.mp member
    exact texts_mainText digits (section_texts (texts j rfl) "Main" m listed)

end Read

/-! ## Steps -/

theorem texts_applyItem {item : Str × Str} (utf8 : Json.isUtf8 item.2 = true) {g : Globals} (texts : Texts g) :
    Texts (applyItem item g).state := by
  unfold applyItem
  cases stored : g.application.set item.1 item.2 with
  | error e => exact texts
  | ok c =>
    refine ⟨?_, texts.file⟩
    change Json.isUtf8 c.clientSecret = true
    unfold AppConfig.set at stored
    split at stored
    · next setting _ =>
      cases setting with
      | clientSecret =>
        cases stored
        exact utf8
      | _ =>
        obtain ⟨n, _, rfl⟩ := map_eq_ok stored
        exact texts.secret
    · cases stored
      exact texts.secret

theorem texts_write {g : Globals} (texts : Texts g) : Texts (write g).state := by
  rw [write_eq, if_pos texts.secret]
  refine ⟨texts.secret, fun j written => ?_⟩
  cases written
  exact (plain_configValue (fun _ => True) texts.secret).utf8Texts

theorem texts_saveSettings (order : MapOrder) (sort : StdSort bySort) {j : Json} (sent : Utf8Texts j) {g : Globals}
    (texts : Texts g) : Texts (saveSettings order sort j g).state := by
  have utf8 := texts_savedItems order sent
  unfold savedItems at utf8
  unfold saveSettings
  cases collected : incoming j with
  | error e => exact texts
  | ok items =>
    rw [collected] at utf8
    refine Outcome.andThen_state (Outcome.andThen_state (Outcome.andThen_state ?_ ?_) ?_) fun next kept => texts_write kept
    · exact Outcome.each_preserves (fun item member next kept => texts_applyItem (utf8 item member) kept) texts
    · exact fun next kept => trackItems_preserves (fun _ _ _ kept => ⟨kept.secret, kept.file⟩)
        (fun _ _ _ kept => ⟨kept.secret, kept.file⟩) j kept
    · intro next kept
      obtain ⟨formatted, state⟩ := updateFormat_state sort next
      rw [state]
      exact ⟨kept.secret, kept.file⟩

section Run

variable {dumpFloat : Flt → Str} (digits : ∀ value, Json.isUtf8 (dumpFloat value) = true)

include digits

theorem texts_read {g : Globals} (texts : Texts g) : Texts (read (dumpText dumpFloat) g).1 := by
  have utf8 := texts_readItems digits texts.file
  cases file : g.configJson with
  | absent => simpa only [Model.Core.Config.read, file] using texts
  | invalid => simpa only [Model.Core.Config.read, file] using texts
  | json j =>
    rw [file] at utf8
    rw [read_state _ file]
    refine Outcome.andThen_state ?_ fun next kept => ?_
    · refine Outcome.each_preserves (fun item member next kept => ?_) texts
      have listed : (item.1, mainText (dumpText dumpFloat) item.2) ∈ readItems (dumpText dumpFloat) (.json j) :=
        List.mem_map.mpr ⟨item, member, rfl⟩
      exact texts_applyItem (utf8 _ listed) kept
    · refine Outcome.each_preserves (P := Texts) (fun item _ next kept => ?_) kept
      change Texts (readDisplay item next)
      unfold readDisplay
      split
      · exact ⟨kept.secret, kept.file⟩
      · exact kept

theorem texts_operation {event : Event} {operation : Operation} (listed : operation ∈ event.operations) {g : Globals}
    (texts : Texts g) : Texts (operation.run (dumpText dumpFloat) g) := by
  cases event with
  | read disk =>
    obtain rfl := List.mem_singleton.mp listed
    exact texts_read digits ⟨texts.secret, texts_content disk⟩
  | save order sort text =>
    cases parsed : JsonParser.parse text with
    | ok j =>
      have only : operation ∈ [Operation.setting (.save order sort j)] := by
        simpa only [Event.operations, parsed] using listed
      obtain rfl := List.mem_singleton.mp only
      exact texts_saveSettings order sort (parse_plain parsed).utf8Texts texts
    | error e =>
      have none : operation ∈ ([] : List Operation) := by simpa only [Event.operations, parsed] using listed
      cases none
  | selectServer index =>
    obtain rfl := List.mem_singleton.mp listed
    exact texts_write ⟨texts.secret, texts.file⟩
  | selectMode index =>
    obtain rfl := List.mem_singleton.mp listed
    exact texts_write ⟨texts.secret, texts.file⟩
  | resetSettings =>
    obtain rfl := List.mem_singleton.mp listed
    exact ⟨Json.isUtf8_of_ascii nofun, nofun⟩
  | restart simulate =>
    obtain rfl := List.mem_singleton.mp listed
    refine Outcome.andThen_state (P := Texts) ?_ fun next kept => ?_
    · split
      · exact texts_write texts
      · exact texts
    · have kept := texts_read digits kept
      exact ⟨kept.secret, kept.file⟩

theorem texts_reached (disk : Disk) (history : List Event) : Texts (reached dumpFloat disk history) := by
  have all : ∀ operation ∈ history.flatMap Event.operations, ∃ event : Event, operation ∈ event.operations := by
    intro operation listed
    obtain ⟨event, _, inside⟩ := List.mem_flatMap.mp listed
    exact ⟨event, inside⟩
  have start := texts_started disk
  unfold reached runHistory
  generalize started (content disk) = g at start
  generalize history.flatMap Event.operations = operations at all
  induction operations generalizing g with
  | nil => exact start
  | cons operation rest ih =>
    obtain ⟨⟨event, inside⟩, others⟩ := List.forall_mem_cons.mp all
    exact ih _ (texts_operation digits inside start) others

/-- After any history the settings are written, and what is written parses as they are. -/
theorem settings_written (disk : Disk) (history : List Event) :
    ∃ text, writeText dumpFloat (reached dumpFloat disk history) = (some text, none) ∧
      JsonParser.parse text = .ok (configValue (reached dumpFloat disk history)) := by
  have plain := plain_configValue (ReadsBack dumpFloat) (texts_reached digits disk history).secret
  obtain ⟨text, written, derived⟩ := plain.dump_derives dumpFloat (show ∀ step ∈ some 4, step ≤ 1024 by simp)
  exact ⟨text, by rw [writeText, written], JsonParser.parse_of_derives derived⟩

end Run

/-- A file whose secret is a list, and a message that ends inside a string. -/
def listSecret : Disk := some "\x7b\"Main\":\x7b\"clientSecret\":[1.5,\"x\"]\x7d\x7d"

def listHistory : List Event := [.restart false, .save .inserted stableBySort "\x7b\"msg", .selectServer 1]

theorem settings_written_list : (∀ _ : Flt, Json.isUtf8 "1.5" = true) ∧
    ∃ text, writeText (fun _ => "1.5") (reached (fun _ => "1.5") listSecret listHistory) = (some text, none) ∧
      JsonParser.parse text = .ok (configValue (reached (fun _ => "1.5") listSecret listHistory)) := by
  have digits : ∀ _ : Flt, Json.isUtf8 "1.5" = true := fun _ => Json.isUtf8_of_ascii (by decide +kernel)
  exact ⟨digits, settings_written digits listSecret listHistory⟩

end OsuTracker.Soundness.SettingsTexts
