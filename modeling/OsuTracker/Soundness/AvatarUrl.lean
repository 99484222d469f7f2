import OsuTracker.Model.Main
import OsuTracker.Soundness.Endpoints.Schedules

/-! # The avatar and its URL

A profile that names a new URL is recorded before its picture is fetched, so a download that fails
leaves the former bytes under the new URL, and no later cycle asks for that URL again. What a
cycle does to the avatar is a fold over the URLs it reads, in order; the downloads that succeed are
recorded beside it.
-/

namespace OsuTracker.Soundness.AvatarUrl

open Cxx Model.Core.Config Model.Core.Formatter Model.Core.Session Model.Api Model.Main Machine.Threads Endpoints

/-! ## The avatar -/

/-- A URL and the bytes that belong to it. -/
abbrev Avatar := Str × List UInt8

def avatar (g : Globals) : Avatar := (g.user.avatarUrl, g.user.avatarBytes)

/-- A URL that a profile names, and its bytes if a download succeeds. -/
abbrev Request := Str × Option (List UInt8)

/-- What is in memory after a request. -/
def store (a : Avatar) (r : Request) : Avatar := if r.1 = a.1 then a else (r.1, r.2.getD a.2)

/-- What a request downloads. -/
def downloaded (a : Avatar) (r : Request) : List Avatar := if r.1 = a.1 then [] else r.2.toList.map fun data => (r.1, data)

/-- The avatar in memory, with every download that has succeeded. -/
structure Picture where
  avatar : Avatar
  downloads : List Avatar

def Picture.request (p : Picture) (r : Request) : Picture := ⟨store p.avatar r, downloaded p.avatar r ++ p.downloads⟩

/-- The bytes are those of a download of the URL, if there is one. -/
def Picture.Matches (p : Picture) : Prop := p.avatar.1 ≠ [] → p.avatar ∈ p.downloads

/-- A new URL is downloaded, or its bytes are in memory already. -/
def Sound (p : Picture) (r : Request) : Prop :=
  r.1 = p.avatar.1 ∨ r.2 ≠ none ∨ r.1 = [] ∨ (r.1, p.avatar.2) ∈ p.downloads

def AllSound : Picture → List Request → Prop
  | _, [] => True
  | p, r :: rest => Sound p r ∧ AllSound (p.request r) rest

instance (p : Picture) (r : Request) : Decidable (Sound p r) :=
  inferInstanceAs (Decidable (r.1 = p.avatar.1 ∨ r.2 ≠ none ∨ r.1 = [] ∨ (r.1, p.avatar.2) ∈ p.downloads))

instance decidableAllSound : (p : Picture) → (requests : List Request) → Decidable (AllSound p requests)
  | _, [] => .isTrue trivial
  | p, r :: rest =>
    have := decidableAllSound (p.request r) rest
    inferInstanceAs (Decidable (Sound p r ∧ AllSound (p.request r) rest))

/-- One request keeps the match exactly when it is sound. -/
theorem matches_request_iff {p : Picture} (holds : p.Matches) (r : Request) : (p.request r).Matches ↔ Sound p r := by
  obtain ⟨url, answer⟩ := r
  by_cases known : url = p.avatar.1
  · simp only [Picture.request, store, downloaded, known, ↓reduceIte, Sound, true_or, iff_true]
    exact holds
  · cases answer with
    | some data => simp [Picture.request, store, downloaded, known, Picture.Matches, Sound]
    | none => simp [Picture.request, store, downloaded, known, Picture.Matches, Sound, Decidable.imp_iff_not_or]

theorem matches_requests {p : Picture} (holds : p.Matches) {requests : List Request} (sound : AllSound p requests) :
    (requests.foldl Picture.request p).Matches := by
  induction requests generalizing p with
  | nil => exact holds
  | cons r rest ih => exact ih ((matches_request_iff holds r).mpr sound.1) sound.2

theorem avatar_requests (p : Picture) (requests : List Request) :
    (requests.foldl Picture.request p).avatar = requests.foldl store p.avatar := by
  induction requests generalizing p with
  | nil => rfl
  | cons r rest ih => exact ih (p.request r)

/-! ## The requests of a cycle -/

def request? : Act → Option Request
  | .refreshAvatar url download => some (url, download)
  | _ => none

def scriptRequests (acts : List Act) : List Request := acts.filterMap request?

def callRequests (init : Bool) (r : TitanicResponse) (g : Globals) : List Request :=
  scriptRequests (Titanic.script g.application init r.users r.stats r.avatar).acts

/-- The second call of the private server runs only after a success that finds a baseline missing. -/
def titanicRequests (init : Bool) (r : Responses) (g : Globals) : List Request :=
  callRequests init r.titanic g ++
    match (callTitanic init r.titanic g).2 with
    | .returned status g' =>
      if status = 200 ∧ g'.initApiFailed ∧ init = false then callRequests true r.titanicAgain g' else []
    | .aborted _ _ => []

def requests (r : Responses) (init : Bool) (g : Globals) : List Request :=
  if g.simulateMode then []
  else if g.application.server = Server.bancho then scriptRequests (authThread g.application init r)
  else if g.application.server = Server.titanic then titanicRequests init r g
  else []

/-! ## Scripts -/

/-- What an action does to the avatar. -/
def storeAct (a : Avatar) (act : Act) : Avatar := ((request? act).map (store a)).getD a

theorem foldl_storeAct (a : Avatar) (acts : List Act) : acts.foldl storeAct a = (scriptRequests acts).foldl store a := by
  induction acts generalizing a with
  | nil => rfl
  | cons act rest ih =>
    rw [List.foldl_cons, ih, scriptRequests, scriptRequests]
    cases found : request? act with
    | none => rw [List.filterMap_cons_none found, storeAct, found, Option.map_none, Option.getD_none]
    | some r =>
      rw [List.filterMap_cons_some found, List.foldl_cons, storeAct, found, Option.map_some, Option.getD_some]

theorem avatar_exec {act : Act} {g next : Globals} {written : List Write} (ran : act.exec g = .ok (written, next)) :
    avatar next = storeAct (avatar g) act := by
  rw [(exec_ok ran).2]
  cases act with
  | refreshAvatar url download =>
    change avatar (Act.effect (.refreshAvatar url download) g) = store (avatar g) (url, download)
    by_cases known : url = g.user.avatarUrl
    · have same : Act.effect (.refreshAvatar url download) g = g := if_pos known
      exact (congrArg avatar same).trans (if_pos (show url = (avatar g).1 from known)).symm
    · refine Eq.trans ?_ (if_neg (show ¬url = (avatar g).1 from known)).symm
      cases download with
      | some data => exact congrArg avatar (if_neg known)
      | none => exact congrArg avatar (if_neg known)
  | authRecovered init =>
    change avatar (Act.effect (.authRecovered init) g) = avatar g
    by_cases missing : g.initApiFailed = true ∧ init = false
    · exact (congrArg avatar (show Act.effect (.authRecovered init) g = { g with initApiFailed := false } from
        if_pos missing)).trans rfl
    · exact congrArg avatar (if_neg missing)
  | _ => rfl

theorem quiet_of_none {act : Act} (idle : request? act = none) : Quiet Act.exec avatar act := by
  intro g written next ran
  rw [avatar_exec ran, storeAct, idle]
  rfl

/-- The actions before which nothing throws. -/
inductive Sure : Act → Prop
  | name (name : Str) : Sure (.setUsername name)
  | avatar (url : Str) (download : Option (List UInt8)) : Sure (.refreshAvatar url download)
  | recovered (init : Bool) : Sure (.authRecovered init)

theorem Sure.moves {act : Act} (sure : Sure act) : Moves Act.exec AvatarUrl.avatar storeAct act := by
  intro g
  have writes : act.writes g.arr = .ok [] := by cases sure <;> rfl
  have ran := exec_of_writes writes
  exact ⟨_, _, ran, avatar_exec ran⟩

/-- A script whose requests all come before an action that may throw. -/
def Fronted (acts : List Act) : Prop :=
  ∃ sure rest, acts = sure ++ rest ∧ (∀ act ∈ sure, Sure act) ∧ ∀ act ∈ rest, request? act = none

theorem fronted_of_none {acts : List Act} (idle : ∀ act ∈ acts, request? act = none) : Fronted acts :=
  ⟨[], acts, rfl, nofun, idle⟩

theorem Fronted.cons {act : Act} {acts : List Act} (sure : Sure act) (later : Fronted acts) : Fronted (act :: acts) := by
  obtain ⟨front, rest, rfl, surely, idle⟩ := later
  exact ⟨act :: front, rest, rfl, List.forall_mem_cons.mpr ⟨sure, surely⟩, idle⟩

theorem Fronted.append {acts more : List Act} (fronted : Fronted acts) (idle : ∀ act ∈ more, request? act = none) :
    Fronted (acts ++ more) := by
  obtain ⟨front, rest, rfl, surely, quiet⟩ := fronted
  exact ⟨front, rest ++ more, List.append_assoc .., surely, List.forall_mem_append.mpr ⟨quiet, idle⟩⟩

theorem scriptRequests_front {sure rest : List Act} (idle : ∀ act ∈ rest, request? act = none) :
    scriptRequests (sure ++ rest) = scriptRequests sure := by
  rw [scriptRequests, List.filterMap_append, List.filterMap_eq_nil_iff.mpr idle, List.append_nil]
  rfl

/-- A script alone. -/
theorem Fronted.run {acts : List Act} (fronted : Fronted acts) (g : Globals) :
    avatar (run Act.exec acts g).2.state = (scriptRequests acts).foldl store (avatar g) := by
  obtain ⟨sure, rest, rfl, surely, idle⟩ := fronted
  rw [run_in_order (fun act member => (surely act member).moves) (fun act member => quiet_of_none (idle act member)) g,
    foldl_storeAct, scriptRequests_front idle]

/-! ## The endpoint functions -/

/-- Actions without a request. -/
def Idle (acts : List Act) : Prop := ∀ act ∈ acts, request? act = none

theorem idle_store (init : Bool) (values : List (Str × Str)) : Idle (values.map (Endpoints.store init)) := by
  intro act member
  obtain ⟨value, _, rfl⟩ := List.mem_map.mp member
  rfl

theorem idle_calcDifference : Idle calcDifference := by
  intro act member
  obtain ⟨i, _, rfl⟩ := List.mem_map.mp member
  rfl

theorem Idle.append {acts more : List Act} (idle : Idle acts) (later : Idle more) : Idle (acts ++ more) :=
  List.forall_mem_append.mpr ⟨idle, later⟩

theorem Idle.acts {α : Type} {script : Script α} (idle : Idle script.1) : Idle script.acts := by
  refine idle.append fun act member => ?_
  split at member
  · cases member
  · rw [List.mem_singleton.mp member]
    rfl

theorem Fronted.acts {α : Type} {script : Script α} (fronted : Fronted script.1) : Fronted script.acts := by
  refine fronted.append fun act member => ?_
  split at member
  · cases member
  · rw [List.mem_singleton.mp member]
    rfl

theorem api_fronted (app : AppConfig) (init : Bool) (r : Http) (answer : Option (List UInt8)) :
    Fronted (Bancho.api app init r answer).1 := by
  let Q (acts : List Act) (_ : Except Exception Unit) : Prop := Fronted acts
  have empty : Fronted [] := fronted_of_none nofun
  have profile (name url : Str) {more : List Act} (idle : Idle more) :
      Fronted (.setUsername name :: .refreshAvatar url answer :: more) :=
    ((fronted_of_none idle).cons (.avatar url answer)).cons (.name name)
  suffices meets : Meets Q (Bancho.api app init r answer) from meets
  unfold Bancho.api
  split
  · exact empty
  split
  · exact empty
  refine walk_read _ (fun _ => empty) fun j _ => ?_
  split
  · exact empty
  next st _ =>
  refine walk_read _ (fun _ => empty) fun gc _ => walk_read _ (fun _ => empty) fun name _ => walk_emit ?_
  refine walk_read _ (fun _ => empty.cons (.name name)) fun url _ => walk_emit ?_
  refine walk_fields (P := fun _ _ => True) (fun _ _ _ _ => trivial) ?_ fun statistics _ _ => ?_
  · exact fun values _ _ _ => profile name url (idle_store init values)
  refine walk_fields (P := fun _ _ => True) (fun _ _ _ _ => trivial) ?_ fun grades _ _ => ?_
  · exact fun values _ _ _ => profile name url ((idle_store init statistics).append (idle_store init values))
  · have sums : Idle (Bancho.gradeSums init ++ calcDifference) := by
      refine Idle.append ?_ idle_calcDifference
      simp [Idle, Bancho.gradeSums, request?]
    exact profile name url ((idle_store init statistics).append ((idle_store init grades).append sums))

theorem authThread_fronted (app : AppConfig) (init : Bool) (r : Responses) : Fronted (authThread app init r) := by
  unfold authThread
  split
  · exact fronted_of_none (by simp [request?])
  · exact (api_fronted app init r.api r.avatar).acts.cons (.recovered init)

theorem respektiveApi_idle (init : Bool) (user target : Http) : Idle (Bancho.respektiveApi init user target).1 := by
  let Q (acts : List Act) (_ : Except Exception Unit) : Prop := Idle acts
  have field (key value : Str) (setInit : Bool) {more : List Act} (later : Idle more) :
      Idle (.setField key value setInit :: more) := List.forall_mem_cons.mpr ⟨rfl, later⟩
  have rank (value : Str) {more : List Act} (later : Idle more) :
      Idle (Act.setField "scoreRank" value init :: calcDifference ++ more) :=
    field _ _ _ (idle_calcDifference.append later)
  suffices meets : Meets Q (Bancho.respektiveApi init user target) from meets
  unfold Bancho.respektiveApi
  refine walk_read _ nofun fun body _ => ?_
  split
  · exact nofun
  next u _ =>
  refine walk_read _ nofun fun scoreRank _ => walk_emit (walk_read _ (fun _ => rank _ nofun) fun other _ => ?_)
  split
  · exact rank _ nofun
  next t _ =>
  refine walk_read _ (fun _ => rank _ nofun) fun targetRank _ => walk_emit ?_
  refine walk_read _ (fun _ => rank _ (field _ _ _ nofun)) fun targetUser _ => walk_emit ?_
  refine walk_read _ (fun _ => rank _ (field _ _ _ (field _ _ _ nofun))) fun targetScore _ => ?_
  refine walk_read _ (fun _ => rank _ (field _ _ _ (field _ _ _ nofun))) fun score _ => ?_
  refine rank _ (field _ _ _ (field _ _ _ (field _ _ _ ?_)))
  simp [Idle, request?]

theorem inspectorApi_idle (init : Bool) (r : Http) : Idle (Bancho.inspectorApi init r).1 := by
  let Q (acts : List Act) (_ : Except Exception Unit) : Prop := Idle acts
  suffices meets : Meets Q (Bancho.inspectorApi init r) from meets
  unfold Bancho.inspectorApi
  split
  · exact nofun
  refine walk_read _ nofun fun j _ => ?_
  split
  · refine walk_fields (P := fun _ _ => True) (fun _ _ _ _ => trivial) (fun values _ _ _ => idle_store init values) ?_
    exact fun values _ _ => (idle_store init values).append idle_calcDifference
  · exact nofun

theorem titanic_fronted (app : AppConfig) (init : Bool) (r : TitanicResponse) :
    Fronted (Titanic.script app init r.users r.stats r.avatar).acts := by
  obtain ⟨head, values, profile, _, shape⟩ := titanic_storesFields app init r.users r.stats r.avatar
  have front {more : List Act} (idle : Idle more) : Fronted (head ++ more) := by
    refine ⟨head, more, rfl, fun act member => ?_, idle⟩
    cases profile act member with
    | name name => exact .name name
    | avatar url download => exact .avatar url download
  rw [script_acts]
  refine Fronted.append ?_ fun act member => ?_
  · split at shape
    · rw [callStores, shape.2]
      exact front (idle_store init values)
    · obtain ⟨_, denominator, acts⟩ := shape
      rw [callStores, acts, List.append_assoc]
      refine front ((idle_store init values).append ?_)
      simp [Idle, Titanic.sums, Bancho.gradeSums, request?]
  · cases closing_afterStores _ act member <;> rfl

/-! ## One cycle -/

theorem avatar_callTitanic {init : Bool} {r : TitanicResponse} {g g' : Globals} {log : List Write} {status : Int32}
    (called : callTitanic init r g = (log, .returned status g')) :
    avatar g' = (callRequests init r g).foldl store (avatar g) := by
  have ran := (titanic_fronted g.application init r).run g
  unfold callTitanic at called
  split at called
  · next returned =>
    obtain ⟨_, same⟩ := Prod.mk.inj called
    cases same
    rw [returned] at ran
    exact ran
  · next threw =>
    obtain ⟨_, same⟩ := Prod.mk.inj called
    rw [threw] at ran
    split at same
    · cases same
      exact ran
    · cases same

theorem avatar_fetchTitanic {init : Bool} {r : Responses} {g g' : Globals} {log : List Write}
    (fetched : fetchTitanic init r g = (log, .done g')) :
    avatar g' = (titanicRequests init r g).foldl store (avatar g) := by
  unfold fetchTitanic at fetched
  rw [titanicRequests, List.foldl_append]
  split at fetched
  · cases (Prod.mk.inj fetched).2
  · next first status middle called =>
    rw [← avatar_callTitanic called, called]
    split at fetched
    · next failed =>
      obtain ⟨_, same⟩ := Prod.mk.inj fetched
      cases same
      simp only [failed, false_and, ↓reduceIte, List.foldl_nil]
      split <;> rfl
    · next success =>
      split at fetched
      · next missing =>
        have again : status = 200 ∧ middle.initApiFailed = true ∧ init = false := ⟨not_not.mp success, missing⟩
        simp only [if_pos again]
        split at fetched
        · cases (Prod.mk.inj fetched).2
        · next second status' last calledAgain =>
          obtain ⟨_, same⟩ := Prod.mk.inj fetched
          cases same
          exact avatar_callTitanic (g := { middle with initApiFailed := false }) calledAgain
      · next present =>
        obtain ⟨_, same⟩ := Prod.mk.inj fetched
        cases same
        simp only [if_neg fun all : status = 200 ∧ _ => present all.2, List.foldl_nil]

/-- A cycle makes its requests one after the other, and changes the avatar by them alone. -/
theorem avatar_cycle {sort : StdSort bySort} {r : Responses} {init : Bool} {g g' : Globals} {log : List Write}
    (cycle : Cycle sort r init g log (.done g')) : avatar g' = (requests r init g).foldl store (avatar g) := by
  obtain ⟨fetched, fetch, ended⟩ := cycle
  obtain ⟨middle, rfl, formatted⟩ := Outcome.andThen_eq_done.mp ended.symm
  have unformatted : avatar g' = avatar middle := by
    obtain ⟨texts, state⟩ := updateFormat_state sort middle
    rw [formatted] at state
    cases state
    rfl
  rw [unformatted, requests]
  unfold FetchApiData at fetch
  split at fetch
  · next simulated =>
    rw [if_pos simulated]
    have idle : Idle (Simulate.simulate init) := by
      cases init with
      | false => exact nofun
      | true =>
        refine List.forall_mem_cons.mpr ⟨rfl, Idle.append (Idle.append ?_ ?_) idle_calcDifference⟩
        · intro act member
          obtain ⟨field, _, rfl⟩ := List.mem_map.mp member
          rfl
        · intro act member
          obtain ⟨field, _, rfl⟩ := List.mem_map.mp member
          rfl
    have ran := (fronted_of_none idle).run g
    rw [← fetch, scriptRequests, List.filterMap_eq_nil_iff.mpr idle] at ran
    exact ran
  · next live =>
    rw [if_neg live]
    split at fetch
    · next bancho =>
      obtain ⟨sure, rest, acts, surely, idle⟩ := authThread_fronted g.application init r
      rw [if_pos bancho, acts, scriptRequests_front idle, ← foldl_storeAct]
      have here : (banchoThreads g.application init r)[0]? = some (sure ++ rest) := congrArg some acts
      refine fetch.in_order rfl here (fun act member => (surely act member).moves)
        (fun act member => quiet_of_none (idle act member)) fun j thread there apart act member => quiet_of_none ?_
      match j with
      | 0 => exact absurd rfl apart
      | 1 => exact (respektiveApi_idle init r.respektiveUser r.respektiveTarget).acts act (Option.some.inj there ▸ member)
      | 2 => exact (inspectorApi_idle init r.inspector).acts act (Option.some.inj there ▸ member)
      | j + 3 => cases there
    · next other =>
      rw [if_neg other]
      split at fetch
      · next titanic =>
        rw [if_pos titanic]
        exact avatar_fetchTitanic fetch.symm
      · next unknown =>
        rw [if_neg unknown]
        obtain ⟨_, same⟩ := Prod.mk.inj fetch
        cases same
        rfl

/-! ## Runs -/

section Runs

variable (dump : Json → Str) (sort : StdSort bySort)

/-- Every sequence of cycles, of starts of sessions and of other changes that leave the user alone, with
the downloads that have succeeded so far; `allowed` is a condition on the requests of each cycle. -/
inductive Reached (allowed : Picture → List Request → Prop) : Globals → List Avatar → Prop
  | start (g : Globals) (fresh : g.user.avatarUrl = []) : Reached allowed g []
  | cycle {r : Responses} {init : Bool} {g g' : Globals} {log : List Write} {downloads : List Avatar}
    (before : Reached allowed g downloads) (meets : allowed ⟨avatar g, downloads⟩ (requests r init g))
    (cycle : Cycle sort r init g log (.done g')) :
    Reached allowed g' ((requests r init g).foldl Picture.request ⟨avatar g, downloads⟩).downloads
  | begins {way : Way} {g g' : Globals} {downloads : List Avatar} (before : Reached allowed g downloads)
    (begins : Begins dump sort way g g') : Reached allowed g' downloads
  | other {g g' : Globals} {downloads : List Avatar} (before : Reached allowed g downloads) (same : g'.user = g.user) :
    Reached allowed g' downloads

variable {dump sort}

/-- A session begins with the same user, or with no URL. -/
theorem user_of_begins {way : Way} {g g' : Globals} (begins : Begins dump sort way g g') :
    g'.user = g.user ∨ g'.user.avatarUrl = [] := by
  cases begins with
  | restartFetch => exact .inr rfl
  | resetSession => exact .inl rfl
  | @saveSettings order j _ _ _ saved =>
    have kept := apart_user.saveSettings order sort j g
    rw [saved] at kept
    exact .inl kept
  | @restart simulate _ _ prepared =>
    have kept := apart_user.prepare dump simulate g
    rw [prepared] at kept
    exact .inl kept
  | @resetSettings simulate _ _ prepared =>
    have kept := apart_user.prepare dump simulate (resetSettings g)
    rw [prepared] at kept
    exact .inl (kept.trans (apart_user.resetSettings g))

/-- When every new URL is downloaded or has its bytes in memory, the avatar matches its URL after
every run. -/
theorem avatar_matches {g : Globals} {downloads : List Avatar} (reached : Reached dump sort AllSound g downloads) :
    Picture.Matches ⟨avatar g, downloads⟩ := by
  induction reached with
  | start g fresh => exact fun given => absurd fresh given
  | @cycle r init g g' log downloads before meets cycle ih =>
    have kept := matches_requests ih meets
    have same := avatar_requests ⟨avatar g, downloads⟩ (requests r init g)
    rw [← avatar_cycle cycle] at same
    rwa [← same]
  | begins before begins ih =>
    rcases user_of_begins begins with same | cleared
    · rw [avatar, same]
      exact ih
    · exact fun given => absurd cleared given
  | other before same ih =>
    rw [avatar, same]
    exact ih

end Runs

/-- A profile of the official server with the answer to a download of its avatar. -/
def profileWith (url : Str) (answer : Option (List UInt8)) : Responses :=
  { profile [("statistics", .obj [("grade_counts", .obj [])]), ("username", .str "player"), ("avatar_url", .str url)] with
    avatar := answer }

def afterCycle (r : Responses) (init : Bool) (g : Globals) : Globals := (runCycle stableBySort r init g).2.state

theorem reached_afterCycle {allowed : Picture → List Request → Prop} {g : Globals} {downloads : List Avatar}
    (before : Reached (fun _ => []) stableBySort allowed g downloads) (r : Responses) (init : Bool)
    (meets : allowed ⟨avatar g, downloads⟩ (requests r init g))
    (returned : (runCycle stableBySort r init g).2.isDone = true) :
    Reached (fun _ => []) stableBySort allowed (afterCycle r init g)
      ((requests r init g).foldl Picture.request ⟨avatar g, downloads⟩).downloads := by
  have cycle := cycle_runCycle stableBySort r init g
  rw [Outcome.eq_done_of_isDone returned] at cycle
  exact .cycle before meets cycle

/-- After a restart a download of the same picture may fail. -/
theorem restarted_picture_matches : ∃ downloads : List Avatar, downloads = [(("a/1" : Str), [1])] ∧
    Picture.Matches ⟨avatar (afterCycle (profileWith "a/1" none) true
      (clearStats (afterCycle (profileWith "a/1" (some [1])) true {}))), downloads⟩ := by
  have first := reached_afterCycle (.start {} rfl) (profileWith "a/1" (some [1])) true
    (by decide +kernel : AllSound _ _) (by decide +kernel)
  have again := reached_afterCycle (.begins first (.restartFetch _)) (profileWith "a/1" none) true
    (by decide +kernel) (by decide +kernel)
  exact ⟨_, by decide +kernel, avatar_matches again⟩

/-- The second user's picture cannot be fetched, and it is not asked for again when it could be. -/
theorem failed_download_keeps_bytes :
    ¬∀ g downloads, Reached (fun _ => []) stableBySort (fun _ _ => True) g downloads →
      Picture.Matches ⟨avatar g, downloads⟩ := by
  intro all
  have start : Reached (fun _ => []) stableBySort (fun _ _ => True) {} [] := .start {} rfl
  have first := reached_afterCycle start (profileWith "a/1" (some [1])) true trivial (by decide +kernel)
  have second := reached_afterCycle first (profileWith "a/2" none) false trivial (by decide +kernel)
  have third := reached_afterCycle second (profileWith "a/2" (some [2])) false trivial (by decide +kernel)
  exact absurd (all _ _ third (by decide +kernel)) (by decide +kernel)

end OsuTracker.Soundness.AvatarUrl
