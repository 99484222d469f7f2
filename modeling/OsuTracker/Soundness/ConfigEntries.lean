import OsuTracker.Machine.NamedEntries
import OsuTracker.Soundness.SessionReset

/-! # One bad entry of the configuration file

The reader assigns the settings and then shows the entries of the table, in file order. A number
that `std::stoi` rejects throws out of the one `try` block, so every entry behind it, and all of
`Display`, keeps the value in memory; a bad item of `Display` is only skipped. A client secret of
any type and a sort value of any number type are taken over, the latter truncated.
-/

namespace OsuTracker.Soundness.ConfigEntries

open Cxx Model.Core.Config Machine.NamedEntries SessionReset

/-! ## Entries and their cells -/

/-- What an entry of the file sets: a setting, or one field of an entry of the table. -/
inductive Name where
  | setting (setting : Setting)
  | visible (position : ℕ)
  | sort (position : ℕ)
deriving DecidableEq

inductive Value where
  | text (text : Str)
  | shown (display : Bool)
  | place (sort : Int32)
deriving DecidableEq

/-- The value in memory; numbers are settings by their texts. -/
def view (g : Globals) : Name → Value
  | .setting setting => .text (g.application.text setting)
  | .visible position => .shown ((g.arr.entries[position]?).any DataEntry.display)
  | .sort position => .place (((g.arr.entries[position]?).map DataEntry.sort).getD 0)

abbrev Entry := Name × Json

def mainEntries (main : List (Str × Json)) : List Entry :=
  main.filterMap fun item => (dispatch setCases item.1).map fun setting => (.setting setting, item.2)

/-- The two fields of one item of `Display`. -/
def itemEntries (item : Str × Json) : List Entry :=
  match getIndex item.1, item.2 with
  | some i, .obj members =>
    (members.lookup ("visible" : Str)).toList.map (Name.visible i, ·) ++
      (members.lookup ("sort" : Str)).toList.map (Name.sort i, ·)
  | _, _ => []

/-- All entries of the file, in the order in which they are read. -/
def fileEntries (main display : List (Str × Json)) : List Entry := mainEntries main ++ display.flatMap itemEntries

/-- An object with object members `Main` and `Display`, of distinct known names. -/
structure Shape (j : Json) (main display : List (Str × Json)) : Prop where
  main_ : j.find? "Main" = some (.obj main)
  display_ : j.find? "Display" = some (.obj display)
  mainKnown : ∀ item ∈ main, item.1 ∈ setCases.map Prod.fst
  mainDistinct : (main.map Prod.fst).Nodup
  oneUser : ("osuId" : Str) ∉ main.map Prod.fst ∨ ("banchoId" : Str) ∉ main.map Prod.fst
  displayKnown : ∀ item ∈ display, item.1 ∈ keys
  displayDistinct : (display.map Prod.fst).Nodup

section Entries

variable (dump : Json → Str)

/-- An integer setting whose text is no number. -/
def rejected : Entry → Bool
  | (.setting .clientSecret, _) => false
  | (.setting _, j) => (stoi (mainText dump j)).toOption.isNone
  | _ => false

/-- The value of an acceptable entry: a number that `stoi` reads, a secret that is a text or null, a
boolean, an integer in the range of `int`. -/
def accepted : Entry → Option Value
  | (.setting .clientSecret, .str text) => some (.text text)
  | (.setting .clientSecret, .null) => some (.text [])
  | (.setting .clientSecret, _) => none
  | (.setting _, j) => (stoi (mainText dump j)).toOption.map fun n => .text (stdToString n.toInt)
  | (.visible _, .bool display) => some (.shown display)
  | (.sort _, .int n) => if -2 ^ 31 ≤ n ∧ n < 2 ^ 31 then some (.place (Int32.ofInt n)) else none
  | _ => none

/-- The value that is taken over from an entry that is not acceptable. -/
def converted : Entry → Option Value
  | (.setting .clientSecret, .str _) | (.setting .clientSecret, .null) => none
  | (.setting .clientSecret, j) => some (.text (dump j))
  | (.sort _, .int n) => if -2 ^ 31 ≤ n ∧ n < 2 ^ 31 then none else some (.place (Int32.ofInt n))
  | (.sort _, .float x) => some (.place x.toInt32)
  | _ => none

/-- Every setting has the value of its own acceptable entry, or the one it had. -/
def Independent (entries : List Entry) (g g' : Globals) : Prop :=
  ∀ name, view g' name = intended Prod.fst (accepted dump) entries (view g) name

/-- Behind a rejected entry all acceptable ones ask for the values in memory; before it no entry that
is not acceptable is converted to another value. -/
def Undisturbed (entries : List Entry) (g : Globals) : Prop :=
  ∀ before entry after, entries = before ++ entry :: after →
    ∀ value ∈ (if before.any (rejected dump) then accepted dump entry else converted dump entry),
      value = view g entry.1

/-! ## Reading one entry -/

/-- What the reader does with an entry. -/
def effect (entry : Entry) : Option (Option Value) :=
  if rejected dump entry then none else some ((accepted dump entry).or (converted dump entry))

theorem isSome_effect (entry : Entry) : (effect dump entry).isSome = !rejected dump entry := by
  unfold effect
  cases rejected dump entry <;> rfl

theorem accepted_of_rejected {entry : Entry} (bad : rejected dump entry = true) :
    accepted dump entry = none ∧ converted dump entry = none := by
  obtain ⟨name, j⟩ := entry
  cases name with
  | setting setting =>
    cases setting <;> first | cases bad | skip
    all_goals
      simp only [rejected, Option.isNone_iff_eq_none] at bad
      simp only [accepted, bad, converted, Option.map_none, and_self]
  | visible position => cases bad
  | sort position => cases bad

theorem converted_of_accepted {entry : Entry} {value : Value} (asks : accepted dump entry = some value) :
    converted dump entry = none := by
  obtain ⟨name, j⟩ := entry
  cases name with
  | setting setting =>
    cases setting with
    | clientSecret => cases j <;> first | rfl | cases asks
    | _ => rfl
  | visible position => rfl
  | sort position =>
    cases j with
    | int n =>
      simp only [accepted] at asks
      split at asks
      · next inRange => simp only [converted, if_pos inRange]
      · cases asks
    | float x => cases asks
    | _ => rfl

/-! ## Reading the file -/

theorem effect_of_assign {c c' : AppConfig} {setting : Setting} {j : Json}
    (stored : c.assign setting (mainText dump j) = .ok c') :
    effect dump (.setting setting, j) = some (some (.text (rendered setting (mainText dump j)))) := by
  cases setting with
  | clientSecret => cases j <;> rfl
  | _ =>
    obtain ⟨n, read, _⟩ := map_eq_ok stored
    simp only [effect, rejected, accepted, rendered, read, Except.toOption, Option.isNone_some, Bool.false_eq_true,
      ↓reduceIte, Option.map_some, Option.some_or, reduceCtorEq]

theorem effect_of_failed {c : AppConfig} {setting : Setting} {j : Json} {e : Exception}
    (failed : c.assign setting (mainText dump j) = .error e) : effect dump (.setting setting, j) = none := by
  have bad : rejected dump (.setting setting, j) = true := by
    cases setting with
    | clientSecret => cases failed
    | _ =>
      cases read : stoi (mainText dump j) with
      | ok n => simp only [AppConfig.assign, read, Except.map] at failed; cases failed
      | error own => simp only [rejected, read, Except.toOption, Option.isNone_none]
  rw [effect, if_pos bad]

theorem view_assign {g : Globals} {c' : AppConfig} {setting : Setting} {text : Str}
    (stored : g.application.assign setting text = .ok c') :
    view { g with application := c' } =
      Function.update (view g) (.setting setting) (.text (rendered setting text)) := by
  funext name
  cases name with
  | setting other =>
    rw [Function.update_apply, view, text_assign stored]
    by_cases same : other = setting
    · rw [if_pos same, if_pos (congrArg Name.setting same), same]
    · rw [if_neg same, if_neg fun equal => same (Name.setting.inj equal)]
      rfl
  | visible position => rw [Function.update_apply, if_neg nofun]; rfl
  | sort position => rw [Function.update_apply, if_neg nofun]; rfl

/-- The settings are read in order, up to the first that is rejected. -/
theorem readAll_main (main : List (Str × Json)) (more : List Entry) (g : Globals) :
    readAll Prod.fst (effect dump) (mainEntries main ++ more) (view g) =
      match Outcome.each (readMain dump) main g with
      | .done g' => readAll Prod.fst (effect dump) more (view g')
      | .threw _ g' => view g' := by
  induction main generalizing g with
  | nil => rfl
  | cons item rest ih =>
    rw [Outcome.each_cons, mainEntries]
    cases found : dispatch setCases item.1 with
    | none =>
      have skipped : readMain dump item g = .done g := by simp only [readMain, AppConfig.set, found]; rfl
      rw [List.filterMap_cons_none (by rw [found]; rfl), skipped]
      exact ih g
    | some setting =>
      rw [List.filterMap_cons_some (b := (Name.setting setting, item.2)) (by rw [found]; rfl), List.cons_append, readAll]
      cases stored : g.application.assign setting (mainText dump item.2) with
      | error e =>
        have threw : readMain dump item g = .threw e g := by
          simp only [readMain, AppConfig.set, found, stored, Except.map, Outcome.ofExcept_error]
        rw [effect_of_failed dump stored, threw]
        rfl
      | ok c' =>
        have done : readMain dump item g = .done { g with application := c' } := by
          simp only [readMain, AppConfig.set, found, stored, Except.map, Outcome.ofExcept_ok]
        rw [effect_of_assign dump stored, done]
        simp only [← view_assign stored]
        exact ih _

theorem view_setDisplay (g : Globals) {i : ℕ} (inside : i < g.arr.entries.length) (display : Bool) :
    view { g with arr := g.arr.setDisplay i display } = Function.update (view g) (.visible i) (.shown display) := by
  funext name
  cases name with
  | setting setting => rw [Function.update_apply, if_neg (by simp)]; rfl
  | visible position =>
    rw [Function.update_apply]
    by_cases same : position = i
    · subst same
      simp [view, StatTable.setDisplay, StatTable.modify, List.getElem?_eq_getElem inside]
    · rw [if_neg fun equal => same (Name.visible.inj equal)]
      simp [view, StatTable.setDisplay, StatTable.modify, Ne.symm same]
  | sort position =>
    rw [Function.update_apply, if_neg (by simp)]
    simp only [view, StatTable.setDisplay, StatTable.modify, List.getElem?_modify, Option.map_eq_map, Option.map_map]
    split <;> rfl

theorem view_setSort (g : Globals) {i : ℕ} (inside : i < g.arr.entries.length) (sort : Int32) :
    view { g with arr := g.arr.setSort i sort } = Function.update (view g) (.sort i) (.place sort) := by
  funext name
  cases name with
  | setting setting => rw [Function.update_apply, if_neg nofun]; rfl
  | visible position =>
    rw [Function.update_apply, if_neg nofun]
    simp only [view, StatTable.setSort, StatTable.modify, List.getElem?_modify, Option.map_eq_map]
    split
    · cases g.arr.entries[position]? <;> rfl
    · cases g.arr.entries[position]? <;> rfl
  | sort position =>
    rw [Function.update_apply]
    by_cases same : position = i
    · subst same
      simp [view, StatTable.setSort, StatTable.modify, List.getElem?_eq_getElem inside]
    · rw [if_neg fun equal => same (Name.sort.inj equal)]
      simp [view, StatTable.setSort, StatTable.modify, Ne.symm same]

theorem readAll_sort {i : ℕ} (members : List (Str × Json)) (more : List Entry) (g : Globals)
    (inside : i < g.arr.entries.length) : readAll Prod.fst (effect dump)
      ((members.lookup ("sort" : Str)).toList.map (Name.sort i, ·) ++ more) (view g) =
        readAll Prod.fst (effect dump) more (view { g with arr := match members.lookup ("sort" : Str) with
          | some (.int n) => g.arr.setSort i (Int32.ofInt n)
          | some (.float x) => g.arr.setSort i x.toInt32
          | _ => g.arr }) := by
  have place := view_setSort g inside
  cases members.lookup ("sort" : Str) with
  | none => rfl
  | some j =>
    cases j with
    | int n =>
      have written : effect dump (.sort i, .int n) = some (some (.place (Int32.ofInt n))) := by
        rw [effect, if_neg (by simp [rejected])]
        simp only [accepted, converted]
        by_cases inRange : -2 ^ 31 ≤ n ∧ n < 2 ^ 31
        · rw [if_pos inRange, if_pos inRange, Option.some_or]
        · rw [if_neg inRange, if_neg inRange, Option.none_or]
      simp only [Option.toList_some, List.map_cons, List.map_nil, List.singleton_append, readAll, written, place]
    | float x => simp only [place]; rfl
    | _ => rfl

/-- One item of `Display`. -/
theorem readAll_item (item : Str × Json) (more : List Entry) (g : Globals) :
    readAll Prod.fst (effect dump) (itemEntries item ++ more) (view g) =
      readAll Prod.fst (effect dump) more (view (readDisplay item g)) := by
  obtain ⟨key, value⟩ := item
  cases found : getIndex key with
  | none =>
    have nothing : itemEntries (key, value) = [] := by simp only [itemEntries, found]
    have same : readDisplay (key, value) g = g := by simp only [readDisplay, found]
    rw [nothing, same]
    rfl
  | some i =>
    cases value with
    | obj members =>
      have inside (t : StatTable) : i < t.entries.length := t.length_entries ▸ getIndex_lt found
      have unchanged := readAll_sort dump members more g (inside g.arr)
      simp only [itemEntries, readDisplay, found, List.append_assoc]
      cases visible : members.lookup ("visible" : Str) with
      | none => exact unchanged
      | some j =>
        cases j with
        | bool display =>
          have sorted := readAll_sort dump members more { g with arr := g.arr.setDisplay i display } (inside _)
          rw [view_setDisplay g (inside g.arr)] at sorted
          exact sorted
        | _ => exact unchanged
    | _ => simp only [itemEntries, readDisplay, found, List.nil_append]

theorem readAll_display (display : List (Str × Json)) (g : Globals) :
    readAll Prod.fst (effect dump) (display.flatMap itemEntries) (view g) =
      view (display.foldl (fun g item => readDisplay item g) g) := by
  induction display generalizing g with
  | nil => rfl
  | cons item rest ih => rw [List.flatMap_cons, readAll_item, ih]; rfl

/-- The reader as a reader of entries into cells. -/
theorem view_readValue {j : Json} {main display : List (Str × Json)} (shape : Shape j main display) (g : Globals) :
    view (readValue dump j g).state = readAll Prod.fst (effect dump) (fileEntries main display) (view g) := by
  have mainSection : section? "Main" j = main := by simp only [section?, shape.main_]
  have displaySection : section? "Display" j = display := by simp only [section?, shape.display_]
  rw [fileEntries, readAll_main, readValue, mainSection, displaySection]
  cases Outcome.each (readMain dump) main g with
  | threw e g' => rfl
  | done g' =>
    rw [Outcome.andThen_done, Outcome.each_eq_foldl (fun g item => readDisplay item g) (fun _ _ _ => rfl)]
    exact (readAll_display dump display g').symm

end Entries

/-! ## The names of a file -/

/-- Two labels of one setting are equal, or the two names of the user ID. -/
theorem label_cases : ∀ a ∈ setCases, ∀ b ∈ setCases, a.2 = b.2 →
    a.1 = b.1 ∨ a.1 = "osuId" ∧ b.1 = "banchoId" ∨ a.1 = "banchoId" ∧ b.1 = "osuId" := by decide +kernel

theorem nodup_mainEntries {j : Json} {main display : List (Str × Json)} (shape : Shape j main display) :
    ((mainEntries main).map Prod.fst).Nodup := by
  rw [mainEntries, List.map_filterMap, List.Nodup, List.pairwise_filterMap]
  refine (List.pairwise_map.mp shape.mainDistinct).imp_of_mem ?_
  intro a b left right differs name first name' second same
  obtain ⟨⟨label, setting⟩, listed, own⟩ := List.mem_map.mp (shape.mainKnown a left)
  obtain ⟨⟨label', setting'⟩, listed', own'⟩ := List.mem_map.mp (shape.mainKnown b right)
  have found := dispatch_setCases _ listed
  have found' := dispatch_setCases _ listed'
  simp only at own own' found found'
  rw [own] at found
  rw [own'] at found'
  simp only [found, found', Option.map_some, Option.some.injEq] at first second
  have settings : setting = setting' := by
    rw [← first, ← second] at same
    exact Name.setting.inj same
  rcases label_cases _ listed _ listed' settings with equal | ⟨osu, bancho⟩ | ⟨bancho, osu⟩
  · exact differs (own ▸ own' ▸ equal)
  · rcases shape.oneUser with absent | absent
    · exact absent (osu ▸ own ▸ List.mem_map_of_mem left)
    · exact absent (bancho ▸ own' ▸ List.mem_map_of_mem right)
  · rcases shape.oneUser with absent | absent
    · exact absent (osu ▸ own' ▸ List.mem_map_of_mem right)
    · exact absent (bancho ▸ own ▸ List.mem_map_of_mem left)

/-- The entries of an item name its position. -/
theorem position_of_itemEntries {item : Str × Json} {entry : Entry} (member : entry ∈ itemEntries item) :
    ∃ i, getIndex item.1 = some i ∧ (entry.1 = .visible i ∨ entry.1 = .sort i) := by
  unfold itemEntries at member
  split at member
  · next i members found _ =>
    refine ⟨i, found, ?_⟩
    rcases List.mem_append.mp member with shown | placed
    · obtain ⟨j, _, rfl⟩ := List.mem_map.mp shown
      exact .inl rfl
    · obtain ⟨j, _, rfl⟩ := List.mem_map.mp placed
      exact .inr rfl
  · cases member

theorem nodup_itemEntries (item : Str × Json) : ((itemEntries item).map Prod.fst).Nodup := by
  unfold itemEntries
  split
  · next i members _ _ =>
    cases members.lookup ("visible" : Str) <;> cases members.lookup ("sort" : Str) <;> simp
  · exact .nil

theorem nodup_displayEntries {j : Json} {main display : List (Str × Json)} (shape : Shape j main display) :
    ((display.flatMap itemEntries).map Prod.fst).Nodup := by
  rw [List.map_flatMap, List.nodup_flatMap]
  refine ⟨fun item _ => nodup_itemEntries item, ?_⟩
  refine (List.pairwise_map.mp shape.displayDistinct).imp_of_mem fun {a b} left right differs => ?_
  rintro name inFirst inSecond
  obtain ⟨entry, member, rfl⟩ := List.mem_map.mp inFirst
  obtain ⟨other, member', same⟩ := List.mem_map.mp inSecond
  obtain ⟨i, found, own⟩ := position_of_itemEntries member
  obtain ⟨i', found', own'⟩ := position_of_itemEntries member'
  have positions : i = i' := by
    rcases own with own | own <;> rcases own' with own' | own' <;> rw [own, own'] at same <;> cases same <;> rfl
  exact differs (getIndex_inj (shape.displayKnown a left) (shape.displayKnown b right)
    (found.trans (positions ▸ found'.symm)))

theorem nodup_fileEntries {j : Json} {main display : List (Str × Json)} (shape : Shape j main display) :
    ((fileEntries main display).map Prod.fst).Nodup := by
  rw [fileEntries, List.map_append, List.nodup_append]
  refine ⟨nodup_mainEntries shape, nodup_displayEntries shape, ?_⟩
  intro name inMain other inDisplay same
  obtain ⟨entry, member, rfl⟩ := List.mem_map.mp inMain
  obtain ⟨item, _, isSetting⟩ := List.mem_filterMap.mp member
  obtain ⟨setting, _, rfl⟩ := Option.map_eq_some_iff.mp isSetting
  obtain ⟨entry', member', rfl⟩ := List.mem_map.mp inDisplay
  obtain ⟨shown, _, inside⟩ := List.mem_flatMap.mp member'
  obtain ⟨i, _, position⟩ := position_of_itemEntries inside
  rcases position with own | own <;> rw [own] at same <;> cases same

/-! ## When the entries are independent -/

variable (dump : Json → Str)

/-- What an entry's own cell shows and what the entry asks for are the same thing, or it is disturbed. -/
theorem undisturbed_iff (entries : List Entry) (g : Globals) : Undisturbed dump entries g ↔
    ∀ before entry after, entries = before ++ entry :: after →
      (if before.all fun e => (effect dump e).isSome then (effect dump entry).join.getD (view g entry.1)
        else view g entry.1) = (accepted dump entry).getD (view g entry.1) := by
  refine forall_congr' fun before => forall_congr' fun entry => forall_congr' fun after => imp_congr_right fun _ => ?_
  have reached : (before.all fun e => (effect dump e).isSome) = !before.any (rejected dump) := by
    simp only [isSome_effect, List.not_any_eq_all_not]
  rw [reached]
  cases before.any (rejected dump) with
  | true =>
    simp only [Bool.not_true, Bool.false_eq_true, ↓reduceIte]
    cases accepted dump entry with
    | none => simp
    | some value => simp [eq_comm]
  | false =>
    simp only [Bool.not_false, Bool.false_eq_true, ↓reduceIte]
    cases bad : rejected dump entry with
    | true =>
      obtain ⟨nothing, same⟩ := accepted_of_rejected dump bad
      simp [effect, bad, nothing, same]
    | false =>
      cases asks : accepted dump entry with
      | some value => simp [effect, bad, asks, converted_of_accepted dump asks]
      | none =>
        cases taken : converted dump entry <;> simp [effect, bad, asks, taken]

/-- Exactly when every setting follows its own entry. -/
theorem read_independent_iff {g : Globals} {j : Json} {main display : List (Str × Json)} (file : g.configJson = .json j)
    (shape : Shape j main display) : Independent dump (fileEntries main display) g (read dump g).1 ↔
      Undisturbed dump (fileEntries main display) g := by
  rw [undisturbed_iff, ← readAll_eq_intended_iff (nodup_fileEntries shape), ← view_readValue dump shape,
    ← read_state dump file, funext_iff]
  rfl

/-- A file whose middle setting is the ID of the private server, and which hides the level. -/
def ids (titanicId : Str) : List (Str × Json) :=
  [("banchoId", .str "7562902"), ("titanicId", .str titanicId), ("clientId", .str "12345")]

def hiddenLevel : List (Str × Json) := [("level", .obj [("visible", .bool false), ("sort", .int 1)])]

def configFile (titanicId : Str) : Json := .obj [("Main", .obj (ids titanicId)), ("Display", .obj hiddenLevel)]

theorem shape_configFile (titanicId : Str) : Shape (configFile titanicId) (ids titanicId) hiddenLevel := by
  have names : (ids titanicId).map Prod.fst = (["banchoId", "titanicId", "clientId"] : List Str) := rfl
  have labels : ∀ label ∈ (["banchoId", "titanicId", "clientId"] : List Str), label ∈ setCases.map Prod.fst := by
    decide +kernel
  have mainKnown : ∀ item ∈ ids titanicId, item.1 ∈ setCases.map Prod.fst :=
    fun item member => labels item.1 (names ▸ List.mem_map_of_mem member)
  exact ⟨rfl, rfl, mainKnown, by rw [names]; decide +kernel, .inl (by rw [names]; decide +kernel), by decide +kernel,
    by decide +kernel⟩

/-- With a number there, every setting of the file is read. -/
theorem goodId_independent :
    Independent (fun _ => []) (fileEntries (ids "1") hiddenLevel) { configJson := .json (configFile "1") }
      (read (fun _ => []) { configJson := .json (configFile "1") }).1 := by
  have acceptable : ∀ entry ∈ fileEntries (ids "1") hiddenLevel,
      rejected (fun _ => []) entry = false ∧ converted (fun _ => []) entry = none := by
    decide +kernel
  refine (read_independent_iff _ rfl (shape_configFile "1")).mpr fun before entry after split value asked => ?_
  have early : before.any (rejected fun _ => []) = false :=
    List.any_eq_false.mpr fun other member => by simp [acceptable other (split ▸ List.mem_append_left _ member)]
  have own := (acceptable entry (split ▸ List.mem_append_right _ List.mem_cons_self)).2
  rw [early, if_neg Bool.false_ne_true, own] at asked
  cases asked

/-- With an empty text there, the client ID is lost, and the level is shown. -/
theorem emptyId_hides_later : ¬∀ (dump : Json → Str) (g : Globals) (j : Json) (main display : List (Str × Json)),
    g.configJson = .json j → Shape j main display →
      Independent dump (fileEntries main display) g (read dump g).1 := by
  intro all
  have clientId := all (fun _ => []) { configJson := .json (configFile []) } _ _ _ rfl (shape_configFile [])
    (.setting .clientId)
  exact absurd clientId (by decide +kernel)

end OsuTracker.Soundness.ConfigEntries
