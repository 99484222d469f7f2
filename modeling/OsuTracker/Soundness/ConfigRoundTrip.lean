import OsuTracker.Model.Core.ConfigFile

/-! # Settings survive the configuration file

The file that `write` leaves is one object with the settings and one with a member per entry of
the stat table, in table order and without repeated keys. Reading it assigns each setting its own
text and shows each entry as it was shown, over whatever the memory held before.
-/

namespace OsuTracker.Soundness.ConfigRoundTrip

open Cxx Model.Core.Config

/-! ## The written value -/

def mainMembers (c : AppConfig) : List (Str × Json) := c.toArray.map fun item => (item.1, mainValue item.2)

def displayMember (e : DataEntry) : Str × Json :=
  (e.key, .obj [("visible", .bool e.display), ("sort", .int e.sort.toInt)])

private theorem foldl_main (items : List (Str × Str)) (members : List (Str × Json)) :
    items.foldl (fun j item => j.setAt ["Main", item.1] (mainValue item.2)) (Json.obj [("Main", .obj members)]) =
      .obj [("Main", .obj (items.foldl (fun built item => assign item.1 (mainValue item.2) built) members))] := by
  induction items generalizing members with
  | nil => rfl
  | cons item rest ih => exact ih _

private theorem main_eq (c : AppConfig) :
    c.toArray.foldl (fun j item => j.setAt ["Main", item.1] (mainValue item.2)) Json.null =
      .obj [("Main", .obj (mainMembers c))] := by
  have distinct : ((mainMembers c).map Prod.fst).Nodup := by
    change (["banchoId", "titanicId", "clientId", "clientSecret", "apiInterval", "gameMode", "server"] :
      List Str).Nodup
    decide +kernel
  have listed : (mainMembers c).foldl (fun built item => assign item.1 item.2 built) [] = mainMembers c := by
    simpa using foldl_assign_of_nodup [] (mainMembers c) (by simpa using distinct)
  have rest := foldl_main c.toArray.tail [("banchoId", mainValue (c.text .banchoId))]
  rw [mainMembers, List.foldl_map] at listed
  rw [mainMembers, ← listed]
  exact rest

/-- What has been written after some entries of the table. -/
private def written (main : Json) (members : List (Str × Json)) : Json :=
  if members = [] then .obj [("Main", main)] else .obj [("Main", main), ("Display", .obj members)]

private theorem setAt_written (main : Json) {members : List (Str × Json)} {e : DataEntry}
    (fresh : e.key ∉ members.map Prod.fst) :
    ((written main members).setAt ["Display", e.key, "visible"] (.bool e.display)).setAt
        ["Display", e.key, "sort"] (.int e.sort.toInt) =
      written main (members ++ [displayMember e]) := by
  have shown : (written main members).setAt ["Display", e.key, "visible"] (.bool e.display) =
      .obj [("Main", main), ("Display", .obj (members ++ [(e.key, .obj [("visible", .bool e.display)])]))] := by
    rw [written]
    split
    · next none => rw [none]; rfl
    · have absent := lookup_of_not_mem fresh
      have appended := assign_of_not_mem (.obj [("visible", .bool e.display)]) fresh
      change Json.obj [("Main", main), ("Display", .obj (assign e.key
        (Json.setAt ["visible"] ((members.lookup e.key).getD .null) (.bool e.display)) members))] = _
      rw [absent, ← appended]
      rfl
  have found : (members ++ [(e.key, Json.obj [("visible", .bool e.display)])]).lookup e.key =
      some (.obj [("visible", .bool e.display)]) := by
    rw [← assign_of_not_mem _ fresh, lookup_assign_self]
  have appended : assign e.key (displayMember e).2 (members ++ [(e.key, .obj [("visible", .bool e.display)])]) =
      members ++ [displayMember e] := by
    rw [assign_append _ _ fresh, assign, if_pos rfl]
    rfl
  rw [shown, written, if_neg (by simp), ← appended]
  change Json.obj [("Main", main), ("Display", .obj (assign e.key (Json.setAt ["sort"]
    (((members ++ [(e.key, Json.obj [("visible", .bool e.display)])]).lookup e.key).getD .null)
    (.int e.sort.toInt)) _))] = _
  rw [found]
  rfl

private theorem foldl_written (main : Json) (entries : List DataEntry) (members : List (Str × Json))
    (distinct : (members.map Prod.fst ++ entries.map DataEntry.key).Nodup) :
    entries.foldl (fun j e => (j.setAt ["Display", e.key, "visible"] (.bool e.display)).setAt
        ["Display", e.key, "sort"] (.int e.sort.toInt)) (written main members) =
      written main (members ++ entries.map displayMember) := by
  induction entries generalizing members with
  | nil => simp
  | cons e rest ih =>
    have fresh : e.key ∉ members.map Prod.fst := fun present =>
      (List.nodup_append.mp distinct).2.2 _ present _ (by simp) rfl
    rw [List.foldl_cons, setAt_written main fresh, ih _ (by simpa [displayMember] using distinct)]
    simp

theorem configValue_eq (g : Globals) :
    configValue g =
      .obj [("Main", .obj (mainMembers g.application)), ("Display", .obj (g.arr.entries.map displayMember))] := by
  have nonempty : g.arr.entries.map displayMember ≠ [] := by
    intro empty
    have length := congrArg List.length empty
    rw [List.length_map, g.arr.length_entries] at length
    exact absurd length (by decide)
  have display := foldl_written (.obj (mainMembers g.application)) g.arr.entries []
    (by simpa [g.arr.map_key] using keys_nodup)
  rw [List.nil_append, written, written, if_pos rfl, if_neg nonempty] at display
  rw [configValue, main_eq]
  exact display

/-! ## Reading it -/

section Read

variable (dump : Json → Str)

theorem mainText_mainValue (value : Str) : mainText dump (mainValue value) = value := by
  rw [mainValue]
  split
  · next empty => exact empty.symm
  · rfl

/-- A written setting is assigned the text it was written with. -/
private theorem readMain_written (g : Globals) (c : AppConfig) {label : Str}
    (setting : Setting) (known : (label, setting) ∈ setCases) {result : AppConfig}
    (assigned : g.application.assign setting (c.text setting) = .ok result) :
    readMain dump (label, mainValue (c.text setting)) g = .done { g with application := result } := by
  simp only [readMain, mainText_mainValue, AppConfig.set, dispatch_setCases _ known, assigned, Except.map,
    Outcome.ofExcept_ok]

theorem readMain_each (c : AppConfig) (g : Globals) :
    Outcome.each (readMain dump) (mainMembers c) g = .done { g with application := c } := by
  rw [mainMembers, AppConfig.toArray]
  simp only [List.map_cons, List.map_nil]
  rw [Outcome.each_cons, readMain_written dump g c .banchoId (by decide +kernel) (AppConfig.assign_text ..),
    Outcome.andThen_done, Outcome.each_cons,
    readMain_written dump _ c .titanicId (by decide +kernel) (AppConfig.assign_text ..),
    Outcome.andThen_done, Outcome.each_cons,
    readMain_written dump _ c .clientId (by decide +kernel) (AppConfig.assign_text ..),
    Outcome.andThen_done, Outcome.each_cons,
    readMain_written dump _ c .clientSecret (by decide +kernel) (AppConfig.assign_text ..),
    Outcome.andThen_done, Outcome.each_cons,
    readMain_written dump _ c .apiInterval (by decide +kernel) (AppConfig.assign_text ..),
    Outcome.andThen_done, Outcome.each_cons,
    readMain_written dump _ c .gameMode (by decide +kernel) (AppConfig.assign_text ..),
    Outcome.andThen_done, Outcome.each_cons,
    readMain_written dump _ c .server (by decide +kernel) (AppConfig.assign_text ..)]
  rfl

end Read

/-- An entry shown as another one. -/
def shownAs (shown e : DataEntry) : DataEntry := { e with display := shown.display, sort := shown.sort }

private theorem readDisplay_written (g : Globals) (e : DataEntry) (i : ℕ) (position : getIndex e.key = some i) :
    readDisplay (displayMember e) g = { g with arr := g.arr.modify i (shownAs e) (fun _ => rfl) } := by
  have visible : ([("visible", .bool e.display), ("sort", .int e.sort.toInt)] : List (Str × Json)).lookup
      ("visible" : Str) = some (.bool e.display) := rfl
  have sort : ([("visible", .bool e.display), ("sort", .int e.sort.toInt)] : List (Str × Json)).lookup
      ("sort" : Str) = some (.int e.sort.toInt) := rfl
  simp only [readDisplay, displayMember, position, visible, sort, Int32.ofInt_toInt, StatTable.setSort_setDisplay]
  rfl

private theorem readDisplay_foldl (written : List (DataEntry × ℕ))
    (position : ∀ item ∈ written, getIndex item.1.key = some item.2) (g : Globals) :
    (written.map Prod.fst).foldl (fun g e => readDisplay (displayMember e) g) g =
      { g with arr := written.foldl (fun t item => t.modify item.2 (shownAs item.1) (fun _ => rfl)) g.arr } := by
  induction written generalizing g with
  | nil => rfl
  | cons item rest ih =>
    rw [List.map_cons, List.foldl_cons, readDisplay_written g _ _ (position item List.mem_cons_self),
      ih fun other member => position other (List.mem_cons_of_mem _ member)]
    rfl

/-- Reading the written members shows every entry as it was written. -/
theorem readDisplay_each (t : StatTable) (g : Globals) :
    ∃ arr : StatTable, arr.entries = List.zipWith (fun e shown => shownAs shown e) g.arr.entries t.entries ∧
      Outcome.each (fun item g => .done (readDisplay item g)) (t.entries.map displayMember) g =
        (.done { g with arr := arr } : Outcome Exception Globals) := by
  have position : ∀ item ∈ t.entries.zipIdx, getIndex item.1.key = some item.2 := by
    intro item member
    obtain ⟨bound, lookup⟩ := List.mem_zipIdx' member
    rw [lookup]
    exact t.getIndex_key _ bound
  refine ⟨_, g.arr.entries_foldl_modify shownAs (fun _ _ => rfl) t.entries ?_, ?_⟩
  · rw [t.length_entries, g.arr.length_entries]
  · have run := readDisplay_foldl t.entries.zipIdx position g
    rw [List.zipIdx_map_fst] at run
    rw [Outcome.each_eq_foldl (fun g item => readDisplay item g) (fun _ _ _ => rfl), List.foldl_map, run]

/-- Every setting and every entry's display and sort survive a write and a read in any other
state, and no text of that state changes. -/
theorem read_write (dump : Json → Str) (g g' : Globals) (valid : Json.isUtf8 g.application.clientSecret = true) :
    ∃ saved h : Globals, write g = .done saved ∧
      read dump { g' with configJson := saved.configJson } = (h, none) ∧
      h.application = g.application ∧
      h.arr.entries.map (fun e => (e.key, e.display, e.sort)) =
        g.arr.entries.map (fun e => (e.key, e.display, e.sort)) ∧
      h.arr.entries.map (fun e => (e.key, e.init, e.current, e.change)) =
        g'.arr.entries.map (fun e => (e.key, e.init, e.current, e.change)) := by
  let read := { g' with configJson := .json (configValue g), application := g.application }
  obtain ⟨arr, entries, display⟩ := readDisplay_each g.arr read
  have value : readValue dump (configValue g) { g' with configJson := .json (configValue g) } =
      .done { read with arr := arr } := by
    rw [readValue]
    simp only [configValue_eq]
    change (Outcome.each (readMain dump) (mainMembers g.application) _).andThen
      (Outcome.each _ (g.arr.entries.map displayMember)) = _
    rw [readMain_each, Outcome.andThen, ← configValue_eq]
    exact display
  have lengths : g'.arr.entries.length = g.arr.entries.length := by
    rw [g'.arr.length_entries, g.arr.length_entries]
  refine ⟨_, { read with arr := arr }, (by rw [write_eq, if_pos valid]), ?_, rfl, ?_, ?_⟩
  · simp only [Model.Core.Config.read, value]
  · change arr.entries.map _ = _
    apply List.ext_getElem (by simp [arr.length_entries, g.arr.length_entries])
    intro i left right
    have bound : i < arr.entries.length := by simpa using left
    have other : i < g.arr.entries.length := by simpa using right
    have key : arr.entries[i].key = g.arr.entries[i].key := by
      rw [arr.key_getElem i bound, g.arr.key_getElem i other]
    simp only [List.getElem_map, key, Prod.mk.injEq, true_and]
    simp only [entries, List.getElem_zipWith, shownAs, and_self]
  · change arr.entries.map _ = _
    rw [entries, List.map_zipWith]
    apply List.ext_getElem (by simp [read, lengths])
    intro i _ _
    simp only [List.getElem_zipWith, List.getElem_map]
    rfl

/-- Settings of a taiko player, written and read back by a fresh process. -/
theorem read_write_taiko :
    ∃ saved h : Globals,
      write { application := { banchoId := 7562902, clientSecret := "secret", gameMode := 1 } } = .done saved ∧
      read (fun _ => []) { ({} : Globals) with configJson := saved.configJson } = (h, none) ∧
      h.application = { banchoId := 7562902, clientSecret := "secret", gameMode := 1 } ∧
      h.arr.entries.map (fun e => (e.key, e.display, e.sort)) =
        StatTable.initial.entries.map (fun e => (e.key, e.display, e.sort)) ∧
      h.arr.entries.map (fun e => (e.key, e.init, e.current, e.change)) =
        StatTable.initial.entries.map (fun e => (e.key, e.init, e.current, e.change)) :=
  read_write (fun _ => []) { application := { banchoId := 7562902, clientSecret := "secret", gameMode := 1 } } {}
    (Json.isUtf8_of_ascii (by decide +kernel))

end OsuTracker.Soundness.ConfigRoundTrip
