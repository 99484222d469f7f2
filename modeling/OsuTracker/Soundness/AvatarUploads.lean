import OsuTracker.Model.View.AvatarUpload

/-! # No avatar is lost

The window has the mutex from before it reads the bytes until after it has lowered the flag, and an
endpoint function has it from before it stores the bytes until after it has raised the flag. So
while nobody has the mutex, the flag is up or the texture is that of the bytes; between its test of
the flag and its lowering it, the window can rely on the flag being up, since nobody else lowers it.
-/

namespace OsuTracker.Soundness.AvatarUploads

open Model.View.AvatarUpload Machine.Regions

variable {Texture : Type} (decode : List UInt8 → Option Texture)

/-! ## Events -/

/-- What each event does. -/
inductive Moves (pool : Pool (Shared Texture) Thread) : Event → Pool (Shared Texture) Thread → Prop
  | draws {i : ℕ} {position position' : Ui} {s' : Shared Texture} (here : pool.threads[i]? = some (.ui position))
      (drawn : draw decode pool.shared position = some (s', position')) :
      Moves pool (.thread i) ⟨s', pool.threads.set i (.ui position')⟩
  | publishes {i : ℕ} {position position' : Producer} {s' : Shared Texture}
      (here : pool.threads[i]? = some (.producer position))
      (published : publish pool.shared position = some (s', position')) :
      Moves pool (.thread i) ⟨s', pool.threads.set i (.producer position')⟩
  | downloads (data : List UInt8) :
      Moves pool (.download data) { pool with threads := pool.threads ++ [.producer (.locking data)] }
  | opens (closed : pool.threads[0]? = some (.ui .closed)) :
      Moves pool .openWindow { pool with threads := pool.threads.set 0 (.ui .opening) }
  | closes (atHead : pool.threads[0]? = some (.ui .frame)) :
      Moves pool .closeWindow ⟨{ pool.shared with avatarTex := none }, pool.threads.set 0 (.ui .closed)⟩

variable {decode}

theorem moves_of_next {pool pool' : Pool (Shared Texture) Thread} {event : Event}
    (moved : next decode pool event = some pool') : Moves decode pool event pool' := by
  cases event with
  | thread i =>
    obtain ⟨thread, here, later⟩ := Option.bind_eq_some_iff.mp moved
    obtain ⟨⟨s', thread'⟩, ran, same⟩ := Option.bind_eq_some_iff.mp later
    cases same
    cases thread with
    | ui position =>
      obtain ⟨⟨s', position'⟩, drawn, same⟩ := Option.map_eq_some_iff.mp ran
      cases same
      exact .draws here drawn
    | producer position =>
      obtain ⟨⟨s', position'⟩, published, same⟩ := Option.map_eq_some_iff.mp ran
      cases same
      exact .publishes here published
  | download data =>
    cases moved
    exact .downloads data
  | openWindow =>
    obtain ⟨closed, same⟩ := Option.ite_none_right_eq_some.mp moved
    cases same
    exact .opens closed
  | closeWindow =>
    obtain ⟨atHead, same⟩ := Option.ite_none_right_eq_some.mp moved
    cases same
    exact .closes atHead

/-! ## Invariants -/

/-- The thread holds the mutex. -/
def Inside : Thread → Prop
  | .ui .building | .ui .clearing | .ui .unlocking => True
  | .producer (.storing _) | .producer .marking | .producer .unlocking => True
  | _ => False

variable (decode)

/-- The texture of the window, if it is running, is that of the bytes, or is to be built anew. -/
def Shows (s : Shared Texture) : Prop :=
  ∀ texture, s.avatarTex = some texture → s.avatarDirty = true ∨ texture = build decode s.avatarBytes

def Free (s : Shared Texture) : Prop := s.locked = false ∧ Shows decode s

/-- What is known while a thread holds the mutex. -/
def Held (thread : Thread) (s : Shared Texture) : Prop :=
  s.locked = true ∧
    match thread with
    | .producer (.storing _) => Shows decode s
    | .producer .unlocking => s.avatarDirty = true
    | .ui .clearing | .ui .unlocking => s.avatarTex = some (build decode s.avatarBytes)
    | _ => True

/-- From its test of the flag until it lowers it, the window knows that the flag is up. -/
def Due (position : Ui) (s : Shared Texture) : Prop :=
  match position with
  | .dropping | .locking | .building | .clearing => s.avatarDirty = true
  | _ => True

structure Invariant (pool : Pool (Shared Texture) Thread) : Prop where
  owned : Owned Inside (Free decode) (Held decode) pool
  /-- There is one window. -/
  window : ∀ (i : ℕ) (position : Ui), pool.threads[i]? = some (.ui position) → i = 0 ∧ Due position pool.shared

variable {decode} {pool : Pool (Shared Texture) Thread}

theorem shows_of_dirty {s : Shared Texture} (dirty : s.avatarDirty = true) : Shows decode s := fun _ _ => .inl dirty

/-- While the mutex is free, no thread is between locking and unlocking it. -/
theorem Invariant.nobody (invariant : Invariant decode pool) (unlocked : pool.shared.locked = false) :
    ∀ thread ∈ pool.threads, ¬Inside thread := by
  intro thread listed inside
  have locked := (invariant.owned.held thread listed inside).1
  exact Bool.false_ne_true (unlocked.symm.trans locked)

/-- A step of the window between two statements outside its lock: whoever is inside is another thread. -/
theorem Invariant.held_outside (invariant : Invariant decode pool) {i : ℕ} {position : Ui} {s' : Shared Texture}
    (here : pool.threads[i]? = some (.ui position)) (out : ¬Inside (.ui position))
    (same : ∀ producer, Held decode (.producer producer) pool.shared → Held decode (.producer producer) s') :
    ∀ thread ∈ pool.threads, Inside thread → Held decode thread pool.shared → Held decode thread s' := by
  intro thread listed inside held
  cases thread with
  | producer position => exact same position held
  | ui other =>
    obtain ⟨j, there⟩ := List.getElem?_of_mem listed
    have first := (invariant.window i position here).1
    have also := (invariant.window j other there).1
    subst first also
    exact absurd (Option.some.inj (here.symm.trans there) ▸ inside) out

/-! ## Steps -/

theorem owned_draws (invariant : Invariant decode pool) {i : ℕ} {position position' : Ui} {s' : Shared Texture}
    (here : pool.threads[i]? = some (.ui position)) (drawn : draw decode pool.shared position = some (s', position')) :
    Owned Inside (Free decode) (Held decode) ⟨s', pool.threads.set i (.ui position')⟩ := by
  have owned := invariant.owned
  have due := (invariant.window i position here).2
  cases position with
  | closed => cases drawn
  | opening =>
    simp only [draw] at drawn
    split at drawn
    · next empty =>
      cases drawn
      -- the texture of no bytes is none
      have shows : Shows decode { pool.shared with avatarTex := some none } := by
        rintro texture ⟨⟩
        exact .inr (if_pos empty).symm
      refine owned.passes here id id (fun free => ⟨free.1, shows⟩) ?_
      refine invariant.held_outside here id fun producer held => ⟨held.1, ?_⟩
      cases producer <;> first | exact shows | exact held.2
    · cases drawn
      exact owned.passes here id id id fun _ _ _ => id
  | marking =>
    cases drawn
    refine owned.passes here id id (fun free => ⟨free.1, shows_of_dirty rfl⟩) ?_
    refine invariant.held_outside here id fun producer held => ⟨held.1, ?_⟩
    cases producer <;> first | exact shows_of_dirty rfl | rfl | trivial
  | frame =>
    cases drawn
    refine owned.passes here id ?_ id fun _ _ _ => id
    split <;> exact id
  | dropping =>
    cases drawn
    refine owned.passes here id id (fun free => ⟨free.1, shows_of_dirty due⟩) ?_
    refine invariant.held_outside here id fun producer held => ⟨held.1, ?_⟩
    cases producer <;> first | exact shows_of_dirty due | exact held.2
  | locking =>
    obtain ⟨held, same⟩ := Option.ite_none_left_eq_some.mp drawn
    cases same
    exact owned.enters here id trivial (invariant.nobody (eq_false_of_ne_true held)) fun _ => ⟨rfl, trivial⟩
  | building =>
    cases drawn
    exact owned.stays here trivial trivial fun held => ⟨held.1, rfl⟩
  | clearing =>
    cases drawn
    exact owned.stays here trivial trivial id
  | unlocking =>
    cases drawn
    refine owned.leaves here trivial id fun held => ⟨rfl, fun texture shown => .inr ?_⟩
    exact Option.some.inj (shown.symm.trans held.2)

theorem owned_publishes (invariant : Invariant decode pool) {i : ℕ} {position position' : Producer}
    {s' : Shared Texture} (here : pool.threads[i]? = some (.producer position))
    (published : publish pool.shared position = some (s', position')) :
    Owned Inside (Free decode) (Held decode) ⟨s', pool.threads.set i (.producer position')⟩ := by
  have owned := invariant.owned
  cases position with
  | locking data =>
    obtain ⟨held, same⟩ := Option.ite_none_left_eq_some.mp published
    cases same
    exact owned.enters here id trivial (invariant.nobody (eq_false_of_ne_true held)) fun free => ⟨rfl, free.2⟩
  | storing data =>
    cases published
    exact owned.stays here trivial trivial fun held => ⟨held.1, trivial⟩
  | marking =>
    cases published
    exact owned.stays here trivial trivial fun held => ⟨held.1, rfl⟩
  | unlocking =>
    cases published
    exact owned.leaves here trivial id fun held => ⟨rfl, shows_of_dirty held.2⟩
  | returned => cases published

/-- Only the window lowers the flag. -/
theorem due_drawn {s s' : Shared Texture} {position position' : Ui}
    (drawn : draw decode s position = some (s', position')) (due : Due position s) : Due position' s' := by
  cases position with
  | closed => cases drawn
  | opening =>
    simp only [draw] at drawn
    split at drawn <;> cases drawn <;> trivial
  | frame =>
    cases drawn
    split
    · next dirty => exact dirty
    · trivial
  | locking =>
    obtain ⟨-, same⟩ := Option.ite_none_left_eq_some.mp drawn
    cases same
    exact due
  | dropping | building =>
    cases drawn
    exact due
  | marking | clearing | unlocking =>
    cases drawn
    trivial

theorem due_published {s s' : Shared Texture} {position position' : Producer}
    (published : publish s position = some (s', position')) {ui : Ui} (due : Due ui s) : Due ui s' := by
  cases position with
  | locking data =>
    obtain ⟨-, same⟩ := Option.ite_none_left_eq_some.mp published
    cases same
    exact due
  | storing data | unlocking =>
    cases published
    exact due
  | marking =>
    cases published
    cases ui <;> first | rfl | trivial
  | returned => cases published

/-- The first thread stays the window; the others stay endpoint functions. -/
theorem window_set (invariant : Invariant decode pool) {i : ℕ} {thread thread' : Thread} {s' : Shared Texture}
    (here : pool.threads[i]? = some thread)
    (own : ∀ position', thread' = .ui position' → i = 0 ∧ Due position' s')
    (other : i = 0 ∨ ∀ position, Due position pool.shared → Due position s') (j : ℕ) (position : Ui)
    (there : (pool.threads.set i thread')[j]? = some (.ui position)) : j = 0 ∧ Due position s' := by
  by_cases same : i = j
  · subst same
    have bound : i < pool.threads.length := (List.getElem?_eq_some_iff.mp here).1
    rw [List.getElem?_set_self bound] at there
    exact own position (Option.some.inj there)
  · rw [List.getElem?_set_ne same] at there
    obtain ⟨first, due⟩ := invariant.window j position there
    rcases other with first' | stable
    · exact absurd (first'.trans first.symm) same
    · exact ⟨first, stable position due⟩

/-! ## Runs -/

theorem invariant_next (pool : Pool (Shared Texture) Thread) (event : Event) (pool' : Pool (Shared Texture) Thread)
    (invariant : Invariant decode pool) (moved : next decode pool event = some pool') : Invariant decode pool' := by
  have owned := invariant.owned
  cases moves_of_next moved with
  | draws here drawn =>
    obtain ⟨first, due⟩ := invariant.window _ _ here
    refine ⟨owned_draws invariant here drawn, window_set invariant here ?_ (.inl first)⟩
    rintro position' ⟨⟩
    exact ⟨first, due_drawn drawn due⟩
  | publishes here published =>
    refine ⟨owned_publishes invariant here published, window_set invariant here (by nofun) (.inr ?_)⟩
    exact fun _ => due_published published
  | downloads data =>
    refine ⟨owned.spawn id, fun i position there => ?_⟩
    rcases Nat.lt_or_ge i pool.threads.length with front | back
    · rw [List.getElem?_append_left front] at there
      exact invariant.window i position there
    · rw [List.getElem?_append_right back] at there
      cases List.mem_singleton.mp (List.mem_of_getElem? there)
  | opens closed =>
    refine ⟨owned.passes closed id id id fun _ _ _ => id, window_set invariant closed ?_ (.inl rfl)⟩
    rintro position' ⟨⟩
    exact ⟨rfl, trivial⟩
  | closes atHead =>
    have unseen : Shows decode { pool.shared with avatarTex := none } := fun _ shown => nomatch shown
    refine ⟨owned.passes atHead id id (fun free => ⟨free.1, unseen⟩) ?_, window_set invariant atHead ?_ (.inl rfl)⟩
    · refine invariant.held_outside atHead id fun producer held => ⟨held.1, ?_⟩
      cases producer <;> first | exact unseen | exact held.2
    · rintro position' ⟨⟩
      exact ⟨rfl, trivial⟩

theorem invariant_initial : Invariant decode initial := by
  refine ⟨Owned.single (fun _ => ⟨rfl, fun _ shown => nomatch shown⟩) False.elim, fun i position there => ?_⟩
  cases i with
  | zero =>
    cases there
    exact ⟨rfl, trivial⟩
  | succ i => cases there

/-- While the window runs, the mutex is free and the flag is down, the window shows the last avatar. -/
theorem no_avatar_lost {events : List Event} {pool : Pool (Shared Texture) Thread} {texture : Option Texture}
    (ran : execute (next decode) initial events = some pool) (running : pool.shared.avatarTex = some texture)
    (unlocked : pool.shared.locked = false) (clean : pool.shared.avatarDirty = false) :
    texture = build decode pool.shared.avatarBytes := by
  have invariant : Invariant decode pool := execute_preserves invariant_next invariant_initial ran
  obtain ⟨-, shows⟩ := invariant.owned.free (invariant.nobody unlocked)
  rcases shows texture running with dirty | same
  · exact absurd (clean.symm.trans dirty) Bool.false_ne_true
  · exact same

/-- The second download is stored between the test of the flag and the lock; the window then closes and opens. -/
def stored : List Event :=
  [.download [1], .thread 1, .thread 1, .thread 1, .thread 1, .openWindow, .thread 0, .thread 0, .thread 0,
    .download [2], .thread 0, .thread 2, .thread 2, .thread 2, .thread 2, .thread 0, .thread 0, .thread 0, .thread 0,
    .closeWindow, .openWindow, .thread 0, .thread 0, .thread 0, .thread 0, .thread 0, .thread 0, .thread 0, .thread 0]

theorem stored_shown : ∃ pool, execute (next some) initial stored = some pool ∧
    pool.shared.avatarTex = some (build some pool.shared.avatarBytes) ∧ pool.shared.avatarBytes = [2] := by
  have ends : (execute (next some) initial stored).map (·.shared) = some ⟨[2], false, false, some (some [2])⟩ := by
    decide
  obtain ⟨pool, ran, shared⟩ := Option.map_eq_some_iff.mp ends
  have running : pool.shared.avatarTex = some (some [2]) := by rw [shared]
  refine ⟨pool, ran, running.trans (congrArg some ?_), by rw [shared]⟩
  exact no_avatar_lost ran running (by rw [shared]) (by rw [shared])

end OsuTracker.Soundness.AvatarUploads
