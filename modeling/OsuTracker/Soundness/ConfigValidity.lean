import OsuTracker.Model.Web.MainWs

/-! # Which settings can become invalid

The settings page offers four modes, two servers and intervals from five seconds on, and the
window offers the same modes and servers. Neither the reader of the file nor the message handler
checks any of it: `set` stores whatever number it parses. A run keeps the settings valid exactly
when, in every file and message, the last number that gets stored for each of the three settings
is one the page would have offered.
-/

namespace OsuTracker.Soundness.ConfigValidity

open Cxx Model.Core.Config Model.Core.Formatter Model.Web.MainWs

/-! ## Ranges -/

/-- What the settings page offers; the other settings are free. -/
def InRange : Setting → Int32 → Prop
  | .gameMode, n => 0 ≤ n.toInt ∧ n.toInt ≤ 3
  | .server, n => n = Server.bancho ∨ n = Server.titanic
  | .apiInterval, n => 5000 ≤ n.toInt
  | _, _ => True

instance : ∀ setting n, Decidable (InRange setting n)
  | .gameMode, _ => inferInstanceAs (Decidable (_ ∧ _))
  | .server, _ => inferInstanceAs (Decidable (_ ∨ _))
  | .apiInterval, n => inferInstanceAs (Decidable (5000 ≤ n.toInt))
  | .banchoId, _ | .titanicId, _ | .clientId, _ | .clientSecret, _ => .isTrue trivial

/-- The number stored for a setting. -/
def number (c : AppConfig) : Setting → Int32
  | .banchoId => c.banchoId
  | .titanicId => c.titanicId
  | .clientId => c.clientId
  | .clientSecret => 0
  | .apiInterval => c.apiInterval
  | .gameMode => c.gameMode
  | .server => c.server

structure Valid (c : AppConfig) : Prop where
  gameMode : InRange .gameMode c.gameMode
  server : InRange .server c.server
  apiInterval : InRange .apiInterval c.apiInterval

theorem valid_iff (c : AppConfig) : Valid c ↔ ∀ setting, InRange setting (number c setting) := by
  constructor
  · rintro ⟨gameMode, server, apiInterval⟩ setting
    cases setting <;> first | exact gameMode | exact server | exact apiInterval | trivial
  · intro ranges
    exact ⟨ranges .gameMode, ranges .server, ranges .apiInterval⟩

theorem valid_default : Valid {} where
  gameMode := by
    change (0 : ℤ) ≤ 0 ∧ (0 : ℤ) ≤ 3
    decide
  server := .inl rfl
  apiInterval := by
    change (5000 : ℤ) ≤ 7000
    decide

/-! ## Stored numbers -/

/-- A number stored for a setting. -/
def place (c : AppConfig) : Setting → Int32 → AppConfig
  | .banchoId, n => { c with banchoId := n }
  | .titanicId, n => { c with titanicId := n }
  | .clientId, n => { c with clientId := n }
  | .clientSecret, _ => c
  | .apiInterval, n => { c with apiInterval := n }
  | .gameMode, n => { c with gameMode := n }
  | .server, n => { c with server := n }

private theorem assign_eq (c : AppConfig) {own : Setting} (numeric : own ≠ .clientSecret) (text : Str) :
    c.assign own text = (stoi text).map (place c own) := by
  cases own <;> first | rfl | exact absurd rfl numeric

private theorem number_place (c : AppConfig) {own : Setting} (numeric : own ≠ .clientSecret) (n : Int32)
    (setting : Setting) : number (place c own n) setting = if setting = own then n else number c setting := by
  cases own <;> first | exact absurd rfl numeric | (cases setting <;> rfl)

/-- The number an item stores for a setting, if it is that setting's item and has one. -/
def stores (setting : Setting) (item : Str × Str) : Option Int32 :=
  if dispatch setCases item.1 = some setting ∧ setting ≠ .clientSecret then (stoi item.2).toOption else none

/-- Whether `set` returns; it parses a number for every known key but the secret's. -/
def accepts (item : Str × Str) : Bool :=
  match dispatch setCases item.1 with
  | none => true
  | some own => own = .clientSecret || (stoi item.2).toOption.isSome

/-- The last number stored for a setting before the first item that throws. -/
def lastStored (setting : Setting) : List (Str × Str) → Option Int32
  | [] => none
  | item :: rest => if accepts item then (lastStored setting rest).or (stores setting item) else none

theorem set_eq_error (c : AppConfig) {item : Str × Str} (rejected : accepts item = false) :
    ∃ e, c.set item.1 item.2 = .error e := by
  cases found : dispatch setCases item.1 with
  | none => simp [accepts, found] at rejected
  | some own =>
    simp only [accepts, found, Bool.or_eq_false_iff, decide_eq_false_iff_not] at rejected
    cases parsed : stoi item.2 with
    | ok n => simp [parsed, Except.toOption] at rejected
    | error e => exact ⟨e, by simp only [AppConfig.set, found, assign_eq c rejected.1, parsed, Except.map]⟩

theorem set_eq_ok (c : AppConfig) {item : Str × Str} (accepted : accepts item = true) :
    ∃ c', c.set item.1 item.2 = .ok c' ∧
      ∀ setting, number c' setting = (stores setting item).getD (number c setting) := by
  cases found : dispatch setCases item.1 with
  | none => exact ⟨c, by simp only [AppConfig.set, found], fun setting => by simp [stores, found]⟩
  | some own =>
    by_cases secret : own = .clientSecret
    · subst secret
      refine ⟨{ c with clientSecret := item.2 }, by simp only [AppConfig.set, found, AppConfig.assign], fun setting => ?_⟩
      cases setting <;> simp [stores, found, number]
    · simp only [accepts, found, secret, decide_false, Bool.false_or] at accepted
      obtain ⟨n, parsed⟩ := Option.isSome_iff_exists.mp accepted
      have read : stoi item.2 = .ok n := by
        cases text : stoi item.2 <;> simp_all [Except.toOption]
      refine ⟨place c own n, by simp only [AppConfig.set, found, assign_eq c secret, read, Except.map], fun setting => ?_⟩
      rw [number_place c secret, stores, found, parsed]
      by_cases same : setting = own
      · simp [same, secret]
      · simp [same, Ne.symm same]

/-- After a loop over items each setting holds the last number stored, or its old one. -/
theorem number_each (items : List (Str × Str)) (g : Globals) (setting : Setting) :
    number (Outcome.each applyItem items g).state.application setting =
      (lastStored setting items).getD (number g.application setting) := by
  induction items generalizing g with
  | nil => rfl
  | cons item rest ih =>
    rw [Outcome.each_cons, lastStored]
    cases accepted : accepts item with
    | false =>
      obtain ⟨e, thrown⟩ := set_eq_error g.application accepted
      simp [applyItem, thrown, Except.map]
    | true =>
      obtain ⟨c', stored, numbers⟩ := set_eq_ok g.application accepted
      simp only [applyItem, stored, Except.map, Outcome.ofExcept_ok, Outcome.andThen, ih, numbers, if_true]
      cases lastStored setting rest <;> rfl

/-- The last number stored for each setting is one the page offers. -/
def Checked (items : List (Str × Str)) : Prop := ∀ setting n, lastStored setting items = some n → InRange setting n

/-- Valid settings stay valid under exactly the checked items. -/
theorem valid_each_iff (items : List (Str × Str)) {g : Globals} (valid : Valid g.application) :
    Valid (Outcome.each applyItem items g).state.application ↔ Checked items := by
  rw [valid_iff] at valid ⊢
  simp only [number_each]
  constructor
  · intro ranges setting n stored
    simpa [stored] using ranges setting
  · intro checked setting
    cases stored : lastStored setting items with
    | none => exact valid setting
    | some n => exact checked setting n stored

/-! ## Writers of the settings -/

inductive Op where
  | read (content : FileContent)
  | save (order : MapOrder) (sort : StdSort bySort) (j : Json)
  | selectServer (index : Fin 2)
  | selectMode (index : Fin 4)

section Runs

variable (dump : Json → Str)

/-- The state that an operation leaves, throwing or not. -/
def Op.run : Op → Globals → Globals
  | .read content, g => (Model.Core.Config.read dump { g with configJson := content }).1
  | .save order sort j, g => (saveSettings order sort j g).state
  | .selectServer index, g =>
    (write { g with application := { g.application with server := Int32.ofNat index } }).state
  | .selectMode index, g =>
    (write { g with application := { g.application with gameMode := Int32.ofNat index } }).state

/-- The items of a file, as texts. -/
def readItems : FileContent → List (Str × Str)
  | .json j => (section? "Main" j).map fun item => (item.1, mainText dump item.2)
  | _ => []

/-- The items of a message, in map order. -/
def savedItems (order : MapOrder) (j : Json) : List (Str × Str) :=
  match incoming j with
  | .ok items => order.run items
  | .error _ => []

/-- The items an operation hands to `set`, in order. -/
def Op.items : Op → List (Str × Str)
  | .read content => readItems dump content
  | .save order _ j => savedItems order j
  | _ => []

theorem application_read (content : FileContent) (g : Globals) :
    ((Op.read content).run dump g).application =
      (Outcome.each applyItem (readItems dump content) { g with configJson := content }).state.application := by
  cases content with
  | absent => rfl
  | invalid => rfl
  | json j =>
    have loop : Outcome.each applyItem (readItems dump (.json j)) { g with configJson := .json j } =
        Outcome.each (readMain dump) (section? "Main" j) { g with configJson := .json j } := Outcome.each_map ..
    rw [Op.run, read_state dump (j := j) rfl, loop, readValue]
    cases Outcome.each (readMain dump) (section? "Main" j) { g with configJson := .json j } with
    | threw e g' => rfl
    | done next =>
      refine Outcome.each_preserves (P := fun g : Globals => g.application = next.application) ?_ rfl
      intro item _ g same
      simp only [Outcome.state, readDisplay]
      split <;> exact same

theorem application_saveSettings (order : MapOrder) (sort : StdSort bySort) (j : Json) (g : Globals) :
    (saveSettings order sort j g).state.application =
      (Outcome.each applyItem (savedItems order j) g).state.application := by
  unfold saveSettings savedItems
  cases incoming j with
  | error e => rfl
  | ok items =>
    simp only [Outcome.andThen_assoc]
    cases Outcome.each applyItem (order.run items) g with
    | threw e g' => rfl
    | done next =>
      simp only [Outcome.andThen_done, ← Outcome.andThen_assoc]
      exact tracked_preserves (P := fun g => g.application = next.application) (fun _ _ _ same => same)
        (fun _ _ _ same => same) (fun _ _ same => same) (fun _ _ same => same) sort j rfl

private theorem application_write (g : Globals) : (write g).state.application = g.application := by
  rw [write_eq]
  split <;> rfl

/-- One operation on valid settings. -/
theorem valid_run_iff (op : Op) {g : Globals} (valid : Valid g.application) :
    Valid (op.run dump g).application ↔ Checked (op.items dump) := by
  have free : Checked [] := fun _ _ stored => by cases stored
  cases op with
  | read content =>
    rw [application_read]
    exact valid_each_iff _ (g := { g with configJson := content }) valid
  | save order sort j =>
    rw [Op.run, application_saveSettings]
    exact valid_each_iff _ valid
  | selectServer index =>
    rw [Op.run, application_write]
    have offered : ∀ index : Fin 2, Int32.ofNat index = Server.bancho ∨ Int32.ofNat index = Server.titanic := by
      decide
    exact iff_of_true ⟨valid.gameMode, offered index, valid.apiInterval⟩ free
  | selectMode index =>
    rw [Op.run, application_write]
    have offered : ∀ index : Fin 4, 0 ≤ (Int32.ofNat index).toInt ∧ (Int32.ofNat index).toInt ≤ 3 := by decide
    exact iff_of_true ⟨offered index, valid.server, valid.apiInterval⟩ free

def runOps (ops : List Op) (g : Globals) : Globals := ops.foldl (fun g op => op.run dump g) g

/-- Every state of a run from the default settings is valid exactly when each file and message of
the run last stores numbers that the page offers. -/
theorem valid_runs_iff (ops : List Op) (g : Globals) (start : g.application = {}) :
    (∀ done, done <+: ops → Valid (runOps dump done g).application) ↔ ∀ op ∈ ops, Checked (op.items dump) := by
  have valid : Valid g.application := start ▸ valid_default
  clear start
  induction ops generalizing g with
  | nil =>
    refine iff_of_true (fun done prefixed => ?_) (fun op member => by cases member)
    rw [List.prefix_nil.mp prefixed]
    exact valid
  | cons op rest ih =>
    have step := valid_run_iff dump op valid
    constructor
    · intro reached
      have next : Valid (op.run dump g).application := reached [op] ⟨rest, rfl⟩
      have later := (ih (op.run dump g) next).mp fun done prefixed =>
        reached (op :: done) (List.cons_prefix_cons.mpr ⟨rfl, prefixed⟩)
      exact List.forall_mem_cons.mpr ⟨step.mp next, later⟩
    · intro checked done prefixed
      obtain ⟨own, others⟩ := List.forall_mem_cons.mp checked
      have next := step.mpr own
      cases done with
      | nil => exact valid
      | cons head done =>
        obtain ⟨rfl, shorter⟩ := List.cons_prefix_cons.mp prefixed
        exact (ih (head.run dump g) next).mpr others done shorter

end Runs

/-- A mode the page does not offer, as an edited file would hold it. -/
def modeSeven : FileContent := .json (.obj [("Main", .obj [("gameMode", .str "7")])])

/-- Reading that file leaves a mode behind the four names that the fetch loop indexes. -/
theorem modeSeven_invalid : ¬Valid (runOps (fun _ => []) [.read modeSeven] {}).application := by
  have stored : (runOps (fun _ => []) [.read modeSeven] {}).application.gameMode = 7 := by decide +kernel
  intro valid
  have range := valid.gameMode.2
  rw [stored] at range
  exact absurd range (by decide)

/-- A run over a saved file, a page with the shortest interval and a selected mode. -/
def offeredRun : List Op :=
  [.read (.json (.obj [("Main", .obj [("gameMode", .str "3"), ("server", .str "1")])])),
    .save .inserted stableBySort (.obj [("msg", .obj [("applicationConfig",
      .arr [.obj [("key", .str "apiInterval"), ("value", .str "5000")]])])]), .selectMode 2]

theorem offeredRun_valid : (runOps (fun _ => []) offeredRun {}).application.gameMode = GameMode.fruits ∧
    ∀ done, done <+: offeredRun → Valid (runOps (fun _ => []) done {}).application := by
  refine ⟨by decide +kernel, (valid_runs_iff (fun _ => []) offeredRun {} rfl).mpr fun op member setting n stored => ?_⟩
  have ranges : ∀ op ∈ offeredRun, (lastStored setting (op.items fun _ => [])).all fun n => InRange setting n := by
    cases setting <;> decide +kernel
  have own := ranges op member
  rw [stored] at own
  exact of_decide_eq_true own

end OsuTracker.Soundness.ConfigValidity
