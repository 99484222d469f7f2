import OsuTracker.Cxx.JsonText
import OsuTracker.Model.Core.ConfigText
import OsuTracker.Soundness.ConfigRoundTrip

/-! # The bytes of the configuration file refine its value

Writing leaves bytes that parse to the value written, or none that parse when the client secret is
not UTF-8. Reading parses first, and the settings it hands on are texts of a parsed value, which
`dump` never rejects. So whatever a process does, whatever bytes it starts from and whatever bytes others put
there, memory and file go through the states of the model whose file is a value.
-/

namespace OsuTracker.Soundness.ConfigText

open Cxx JsonText Model.Core.Config ConfigRoundTrip

/-! ## Writing -/

private theorem keys_utf8 : ∀ key ∈ keys, Json.isUtf8 key = true := by
  intro key known
  have ascii : ∀ key ∈ keys, ∀ c ∈ key, c.toNat < 128 := by decide +kernel
  exact Json.isUtf8_of_ascii (ascii key known)

private theorem mainMembers_keys (c : AppConfig) :
    (mainMembers c).map Prod.fst =
      ["banchoId", "titanicId", "clientId", "clientSecret", "apiInterval", "gameMode", "server"] := rfl

private theorem plain_mainValue {float : Flt → Prop} {value : Str} (utf8 : Json.isUtf8 value = true) :
    Plain float (mainValue value) := by
  rw [mainValue]
  split_ifs
  · exact .null
  · exact .str utf8

private theorem plain_displayMember {float : Flt → Prop} (e : DataEntry) : Plain float (displayMember e).2 := by
  have distinct : (["visible", "sort"] : List Str).Nodup := by decide
  refine .obj distinct ?_ ?_
  · simp only [List.forall_mem_cons, List.not_mem_nil, false_imp_iff, implies_true, and_true]
    exact ⟨Json.isUtf8_of_ascii (by decide +kernel), Json.isUtf8_of_ascii (by decide +kernel)⟩
  · simp only [List.forall_mem_cons, List.not_mem_nil, false_imp_iff, implies_true, and_true]
    exact ⟨.bool _, .int (e.sort.le_toInt.trans' (by decide)) (e.sort.toInt_lt.trans (by decide))⟩

/-- With a UTF-8 secret the written value is one that a document can hold. -/
theorem plain_configValue (float : Flt → Prop) {g : Globals} (utf8 : Json.isUtf8 g.application.clientSecret = true) :
    Plain float (configValue g) := by
  have texts : ∀ item ∈ g.application.toArray, Json.isUtf8 item.2 = true :=
    List.all_eq_true.mp ((toArray_isUtf8 g.application).trans utf8)
  have main : Plain float (.obj (mainMembers g.application)) := by
    refine .obj ?_ ?_ ?_
    · rw [mainMembers_keys]
      decide +kernel
    · have ascii : ∀ key ∈ (mainMembers g.application).map Prod.fst, ∀ c ∈ key, c.toNat < 128 := by
        rw [mainMembers_keys]
        decide +kernel
      exact fun m member => Json.isUtf8_of_ascii (ascii m.1 (List.mem_map_of_mem member))
    · intro m member
      obtain ⟨item, listed, rfl⟩ := List.mem_map.mp member
      exact plain_mainValue (texts item listed)
  have keyed : (g.arr.entries.map displayMember).map Prod.fst = keys := by
    rw [List.map_map, ← g.arr.map_key]
    rfl
  have display : Plain float (.obj (g.arr.entries.map displayMember)) := by
    refine .obj (keyed ▸ keys_nodup) ?_ ?_
    · exact fun m member => keys_utf8 m.1 (keyed ▸ List.mem_map_of_mem member)
    · intro m member
      obtain ⟨e, _, rfl⟩ := List.mem_map.mp member
      exact plain_displayMember e
  have distinct : (["Main", "Display"] : List Str).Nodup := by decide
  rw [configValue_eq]
  refine .obj distinct ?_ ?_
  · simp only [List.forall_mem_cons, List.not_mem_nil, false_imp_iff, implies_true, and_true]
    exact ⟨Json.isUtf8_of_ascii (by decide +kernel), Json.isUtf8_of_ascii (by decide +kernel)⟩
  · simp only [List.forall_mem_cons, List.not_mem_nil, false_imp_iff, implies_true, and_true]
    exact ⟨main, display⟩

/-- A secret that is not UTF-8 is written as a text, since only an empty one is null. -/
private theorem utf8_of_texts {g : Globals} (texts : Utf8Texts (configValue g)) :
    Json.isUtf8 g.application.clientSecret = true := by
  rw [configValue_eq] at texts
  cases texts with
  | obj _ inner =>
    have main : Utf8Texts (.obj (mainMembers g.application)) := inner _ List.mem_cons_self
    cases main with
    | obj _ inner =>
      have member : (("clientSecret" : Str), mainValue g.application.clientSecret) ∈ mainMembers g.application := by
        simp [mainMembers, AppConfig.toArray, AppConfig.text]
      have secret : Utf8Texts (mainValue g.application.clientSecret) := inner _ member
      rw [mainValue] at secret
      split_ifs at secret with empty
      · rw [empty]
        exact Json.isUtf8_of_ascii (by simp)
      · cases secret with
        | str utf8 => exact utf8

section Steps

variable (dumpFloat : Flt → Str)

/-- The written bytes are what the model says was written. -/
theorem content_writeText (g : Globals) : content (writeText dumpFloat g).1 = (write g).state.configJson := by
  rw [write_eq, writeText]
  by_cases utf8 : Json.isUtf8 g.application.clientSecret = true
  · have bounded : ∀ step ∈ some 4, step ≤ 1024 := by simp
    obtain ⟨text, written, derived⟩ := (plain_configValue _ utf8).dump_derives dumpFloat bounded
    rw [written, if_pos utf8]
    simp only [content, JsonParser.parse_of_derives derived, Outcome.state]
  · have rejected : JsonDump.dump dumpFloat (some 4) (configValue g) = .error (.json 316) :=
      (dump_eq_error_iff dumpFloat (some 4) _).mpr fun texts => utf8 (utf8_of_texts texts)
    have empty : JsonParser.parse [] = .error (.json 101) := rfl
    rw [rejected, if_neg utf8]
    simp only [content, empty, Outcome.state]

/-! ## Reading -/

/-- A memory whose file is the given one. -/
def withFile (file : FileContent) (g : Globals) : Globals := { g with configJson := file }

/-- A loop commutes with a view of its state that every pass commutes with. -/
private theorem each_withFile {α : Type} {body body' : α → Globals → Outcome Exception Globals} {items : List α}
    (file : FileContent)
    (follows : ∀ item ∈ items, ∀ g, body' item (withFile file g) = (body item g).map (withFile file)) (g : Globals) :
    Outcome.each body' items (withFile file g) = (Outcome.each body items g).map (withFile file) := by
  induction items generalizing g with
  | nil => rfl
  | cons item rest ih =>
    rw [Outcome.each_cons, Outcome.each_cons, follows item List.mem_cons_self]
    exact Outcome.map_andThen _ fun s => ih (fun other member => follows other (List.mem_cons_of_mem _ member)) s

/-- On the members of a parsed value the text of a setting is the model's. -/
private theorem settingText_eq {j : Json} (texts : Utf8Texts j) :
    settingText dumpFloat j = .ok (mainText (dumpText dumpFloat) j) := by
  obtain ⟨text, written⟩ := exists_dump dumpFloat none texts
  cases j <;> simp only [settingText, mainText, dumpText, written]

private theorem readSetting_withFile (file : FileContent) {item : Str × Json} (texts : Utf8Texts item.2) (g : Globals) :
    readMain (dumpText dumpFloat) item (withFile file g) = (readSetting dumpFloat item g).map (withFile file) := by
  rw [readMain, readSetting, settingText_eq dumpFloat texts]
  change Outcome.ofExcept _ ((g.application.set item.1 _).map _) = (Outcome.ofExcept g (Except.map _ _)).map _
  cases g.application.set item.1 (mainText (dumpText dumpFloat) item.2) <;> rfl

private theorem readDisplay_withFile (file : FileContent) (item : Str × Json) (g : Globals) :
    readDisplay item (withFile file g) = withFile file (readDisplay item g) := by
  unfold readDisplay
  split <;> rfl

/-- The members of a section of a parsed value have UTF-8 texts. -/
theorem section_texts {j : Json} (texts : Utf8Texts j) (key : Str) :
    ∀ item ∈ section? key j, Utf8Texts item.2 := by
  cases texts with
  | @obj members _ inner =>
    intro item member
    rw [section?, Json.find?] at member
    cases found : members.lookup key with
    | none => simp [found] at member
    | some value =>
      have texts : Utf8Texts value := inner (key, value) (mem_of_lookup found)
      cases texts with
      | obj _ inner =>
        simp only [found] at member
        exact inner item member
      | _ => simp [found] at member
  | _ => intro item member; cases member

/-- Reading the bytes is reading their value; only the number of the logged exception may differ. -/
theorem read_withFile (disk : Disk) (g : Globals) :
    (read (dumpText dumpFloat) (withFile (content disk) g)).1 = withFile (content disk) (readText dumpFloat disk g).1 ∧
      (read (dumpText dumpFloat) (withFile (content disk) g)).2.isSome = (readText dumpFloat disk g).2.isSome := by
  cases disk with
  | none => exact ⟨rfl, rfl⟩
  | some text =>
    cases parsed : JsonParser.parse text with
    | error e =>
      have file : content (some text) = .invalid := by simp only [content, parsed]
      rw [file]
      simp only [readText, parsed]
      exact ⟨rfl, rfl⟩
    | ok j =>
      have texts := (parse_plain parsed).utf8Texts
      have loops : readValue (dumpText dumpFloat) j (withFile (.json j) g) =
          ((Outcome.each (readSetting dumpFloat) (section? "Main" j) g).andThen
            (Outcome.each (fun item g => .done (readDisplay item g)) (section? "Display" j))).map
              (withFile (.json j)) := by
        rw [readValue, each_withFile (.json j) fun item member g =>
          readSetting_withFile dumpFloat (.json j) (section_texts texts "Main" item member) g]
        refine Outcome.map_andThen _ fun g => each_withFile (.json j) (fun item _ g => ?_) g
        rw [readDisplay_withFile]
        rfl
      have file : content (some text) = .json j := by simp only [content, parsed]
      rw [file]
      simp only [readText, parsed]
      generalize (Outcome.each (readSetting dumpFloat) (section? "Main" j) g).andThen _ = result at loops
      have opened : (withFile (.json j) g).configJson = .json j := rfl
      cases result with
      | done s => simp only [Model.Core.Config.read, opened, loops, Outcome.map, and_self]
      | threw e s => simp only [Model.Core.Config.read, opened, loops, Outcome.map, Option.isSome_some, and_self]

/-! ## Runs -/

/-- Memory and file of a run on bytes, as the model of the value sees them. -/
def abstraction (s : Globals × Disk) : Globals := withFile (content s.2) s.1

theorem onValue_abstraction (step : FileStep) (s : Globals × Disk) :
    step.onValue dumpFloat (abstraction s) = abstraction (step.onDisk dumpFloat s) := by
  cases step with
  | write =>
    have file := content_writeText dumpFloat s.1
    rw [write_eq] at file
    rw [FileStep.onValue, FileStep.onDisk, write_eq]
    change _ = withFile (content (writeText dumpFloat s.1).1) s.1
    rw [file]
    change Outcome.state (if Json.isUtf8 s.1.application.clientSecret = true then _ else _) = _
    split_ifs <;> rfl
  | read => exact (read_withFile dumpFloat s.2 s.1).1
  | remove => rfl
  | memory step => exact step.fileless s.1 (content s.2)
  | replace disk => rfl

/-- Any run on the bytes of the file, from whatever bytes and memory and whatever others do with the file, is
a run of the model whose file is a value. -/
theorem run_refines (steps : List FileStep) (s : Globals × Disk) :
    steps.foldl (FileStep.onValue dumpFloat) (abstraction s) =
      abstraction (steps.foldl (FileStep.onDisk dumpFloat) s) := by
  induction steps generalizing s with
  | nil => rfl
  | cons step rest ih => rw [List.foldl_cons, List.foldl_cons, onValue_abstraction, ih]

end Steps

end OsuTracker.Soundness.ConfigText
