import OsuTracker.Model.Core.FetchThread

/-! # The lifecycle of the fetch thread

A program is inside its turn from lowering the flag to assigning the new thread. While nobody is
inside, exactly the loop that `fetchThread` holds is live; a thread inside has at most that loop
left, and none once it has joined. When a turn begins only while no other thread is inside, this
describes every reachable state. The workers of messages do not look whether another turn is
under way, and two of them are enough to join one thread twice or to terminate the program.
-/

namespace OsuTracker.Soundness.ThreadLifecycle

open Model.Core.FetchThread Machine.Regions

/-! ## Events -/

/-- What each event does. -/
inductive Moves (pool : Pool Shared Program) : Event → Pool Shared Program → Prop
  | thread {i : ℕ} {p p' : Program} {s' : Shared} (here : pool.threads[i]? = some p)
      (ran : exec pool.shared p = some (s', p')) : Moves pool (.thread i) ⟨s', pool.threads.set i p'⟩
  | loop {id : ℕ} {loop stepped : Loop} (found : pool.shared.loops[id]? = some loop)
      (moved : loop.step pool.shared = some stepped) :
      Moves pool (.loop id) { pool with shared := { pool.shared with loops := pool.shared.loops.set id stepped } }
  | select (served : pool.threads[0]? = some []) (idle : pool.shared.selecting = false) :
      Moves pool .select
        { pool with shared := { pool.shared with selections := pool.shared.selections + 1, selecting := true } }
  | dropped (stored : pool.shared.selecting = true) (busy : pool.shared.restarting = true) :
      Moves pool .restartFetch { pool with shared := { pool.shared with selecting := false } }
  | restarted (stored : pool.shared.selecting = true) (idle : pool.shared.restarting = false) :
      Moves pool .restartFetch
        ⟨{ pool.shared with selecting := false, restarting := true }, pool.threads ++ [restartWorker]⟩
  | reset (served : pool.threads[0]? = some []) :
      Moves pool .reset { pool with threads := pool.threads ++ [resetWorker] }
  | shutdown (served : pool.threads[0]? = some []) (idle : pool.shared.selecting = false) :
      Moves pool .shutdown { pool with threads := pool.threads.set 0 nextIteration }

theorem moves_of_next {pool pool' : Pool Shared Program} {event : Event} (moved : next pool event = some pool') :
    Moves pool event pool' := by
  unfold next at moved
  by_cases ended : pool.shared.terminated = true
  · rw [if_pos ended] at moved
    cases moved
  rw [if_neg ended] at moved
  cases event with
  | thread i =>
    obtain ⟨p, here, later⟩ := Option.bind_eq_some_iff.mp moved
    obtain ⟨⟨s', p'⟩, ran, same⟩ := Option.bind_eq_some_iff.mp later
    cases same
    exact .thread here ran
  | loop id =>
    obtain ⟨loop, found, later⟩ := Option.bind_eq_some_iff.mp moved
    obtain ⟨stepped, ran, same⟩ := Option.bind_eq_some_iff.mp later
    cases same
    exact .loop found ran
  | select =>
    obtain ⟨⟨served, idle⟩, same⟩ := Option.ite_none_right_eq_some.mp moved
    cases same
    exact .select (of_decide_eq_true served) idle
  | restartFetch =>
    obtain ⟨stored, later⟩ := Option.ite_none_right_eq_some.mp moved
    by_cases busy : pool.shared.restarting = true
    · rw [if_pos busy] at later
      cases later
      exact .dropped stored busy
    · rw [if_neg busy] at later
      cases later
      exact .restarted stored (eq_false_of_ne_true busy)
  | reset =>
    obtain ⟨served, same⟩ := Option.ite_none_right_eq_some.mp moved
    cases same
    exact .reset (of_decide_eq_true served)
  | shutdown =>
    obtain ⟨⟨served, idle⟩, same⟩ := Option.ite_none_right_eq_some.mp moved
    cases same
    exact .shutdown (of_decide_eq_true served) idle

/-! ## Turns -/

def Inside (p : Program) : Prop := p.head? ≠ some .lowerFetch ∧ .assignThread true ∈ p

instance (p : Program) : Decidable (Inside p) := inferInstanceAs (Decidable (_ ∧ _))

def LiveLoop (s : Shared) (id : ℕ) : Prop := ∃ loop, s.loops[id]? = some loop ∧ loop.live = true

/-- No thread is inside. -/
def Free (s : Shared) : Prop :=
  s.terminated = false ∧ s.fetch = true ∧
    ∃ id, s.fetchThread = some id ∧ LiveLoop s id ∧ ∀ other, LiveLoop s other → other = id

/-- A thread is inside, with the given rest of its program. -/
def Held (p : Program) (s : Shared) : Prop :=
  s.terminated = false ∧
    match p with
    | .joinIfJoinable :: _ | .join :: _ => ∃ id, s.fetchThread = some id ∧ ∀ other, LiveLoop s other → other = id
    | .waitFor id :: _ => s.fetchThread = some id ∧ ∀ other, LiveLoop s other → other = id
    | .assignThread _ :: _ => s.fetch = true ∧ s.fetchThread = none ∧ ∀ other, ¬LiveLoop s other
    | _ => s.fetchThread = none ∧ ∀ other, ¬LiveLoop s other

/-- What is left of a program once it has joined. -/
def joinedPrograms : List Program :=
  [startFetchThread true, .clearStats :: startFetchThread true ++ [.lowerRestarting],
    startFetchThread true ++ [.lowerRestarting]]

/-- The rests of the programs that threads execute. -/
inductive Valid : Program → Prop
  | finished : Valid []
  | releasing : Valid [.lowerRestarting]
  | starts {rest : Program} (later : rest ∈ joinedPrograms) : Valid (.lowerFetch :: .joinIfJoinable :: rest)
  | tests {rest : Program} (later : rest ∈ joinedPrograms) : Valid (.joinIfJoinable :: rest)
  | joins {rest : Program} (later : rest ∈ joinedPrograms) : Valid (.join :: rest)
  | waits (id : ℕ) {rest : Program} (later : rest ∈ joinedPrograms) : Valid (.waitFor id :: rest)
  | joined {rest : Program} (later : rest ∈ joinedPrograms) : Valid rest
  | raised {rest : Program} (later : rest = [] ∨ rest = [.lowerRestarting]) : Valid (.assignThread true :: rest)

theorem inside_joined {rest : Program} (later : rest ∈ joinedPrograms) : Inside rest := by
  have all : ∀ rest ∈ joinedPrograms, Inside rest := by decide
  exact all rest later

theorem inside_cons {statement : Statement} {rest : Program} (begun : statement ≠ .lowerFetch)
    (later : rest ∈ joinedPrograms) : Inside (statement :: rest) :=
  ⟨fun same => begun (Option.some.inj same), List.mem_cons_of_mem _ (inside_joined later).2⟩

theorem held_joined {rest : Program} (later : rest ∈ joinedPrograms) {s : Shared} :
    Held rest s ↔ s.terminated = false ∧ s.fetchThread = none ∧ ∀ other, ¬LiveLoop s other := by
  simp only [joinedPrograms, startFetchThread, List.mem_cons, List.not_mem_nil, or_false, List.cons_append,
    List.nil_append] at later
  rcases later with rfl | rfl | rfl <;> exact Iff.rfl

theorem valid_exec {s s' : Shared} {p p' : Program} (valid : Valid p) (ran : exec s p = some (s', p')) : Valid p' := by
  cases valid with
  | finished => cases ran
  | releasing =>
    cases ran
    exact .finished
  | starts later =>
    cases ran
    exact .tests later
  | tests later =>
    cases ran
    split
    · exact .joins later
    · exact .joined later
  | joins later =>
    simp only [exec] at ran
    split at ran
    · cases ran
      exact .waits _ later
    · cases ran
      exact .joined later
  | waits id later =>
    simp only [exec] at ran
    split at ran
    · cases ran
    · cases ran
      exact .joined later
  | joined later =>
    simp only [joinedPrograms, startFetchThread, List.mem_cons, List.not_mem_nil, or_false, List.cons_append,
      List.nil_append] at later
    rcases later with rfl | rfl | rfl
    · cases ran
      exact .raised (.inl rfl)
    · cases ran
      exact .joined (by decide)
    · cases ran
      exact .raised (.inr rfl)
  | raised later =>
    simp only [exec] at ran
    split at ran <;> cases ran <;> rcases later with rfl | rfl
    · exact .finished
    · exact .releasing
    · exact .finished
    · exact .releasing

/-- Taking turns, with programs that are what is left of the known ones. -/
structure Turns (pool : Pool Shared Program) : Prop extends Owned Inside Free Held pool where
  valid : ∀ p ∈ pool.threads, Valid p

/-! ## Statements -/

theorem held_of_free {s : Shared} (free : Free s) (rest : Program) :
    Held (.joinIfJoinable :: rest) { s with fetch := false } := by
  obtain ⟨alive, _, id, handle, _, only⟩ := free
  exact ⟨alive, id, handle, only⟩

/-- The loop that was waited for was the last one. -/
theorem joined_of_waited {s : Shared} {id : ℕ} {rest : Program} (held : Held (.waitFor id :: rest) s)
    (ended : ¬(s.loops[id]?.all (·.live)) = true) : ∀ other, ¬LiveLoop s other := by
  intro other live
  obtain rfl := held.2.2 other live
  obtain ⟨loop, found, alive⟩ := live
  exact ended (by rw [found]; exact alive)

theorem free_of_assigned {s : Shared} (alive : s.terminated = false) (raised : s.fetch = true)
    (none : ∀ other, ¬LiveLoop s other) (init : Bool) :
    Free { s with loops := s.loops ++ [{ init := init }], fetchThread := some s.loops.length } := by
  refine ⟨alive, raised, s.loops.length, rfl, ⟨{ init := init }, by simp, rfl⟩, ?_⟩
  rintro other ⟨loop, found, live⟩
  rcases Nat.lt_trichotomy other s.loops.length with front | same | back
  · exact absurd ⟨loop, (List.getElem?_append_left front).symm.trans found, live⟩ (none other)
  · exact same
  · have outside : (s.loops ++ [{ init := init }])[other]? = (Option.none : Option Loop) :=
      List.getElem?_eq_none (by rw [List.length_append, List.length_singleton]; omega)
    cases outside.symm.trans found

/-- A step of a thread keeps the turns, if it begins one only while nobody is inside. -/
theorem turns_thread {pool : Pool Shared Program} (turns : Turns pool) {i : ℕ} {p p' : Program} {s' : Shared}
    (here : pool.threads[i]? = some p) (ran : exec pool.shared p = some (s', p'))
    (exclusive : p.head? = some .lowerFetch → ∀ q ∈ pool.threads, ¬Inside q) :
    Turns ⟨s', pool.threads.set i p'⟩ := by
  have valid := turns.valid p (List.mem_of_getElem? here)
  refine ⟨?_, fun q listed => ?_⟩
  · have owned := turns.toOwned
    cases valid with
    | finished => cases ran
    | releasing =>
      cases ran
      exact owned.passes here (by decide) (by decide) id fun _ _ _ => id
    | starts later =>
      cases ran
      exact owned.enters here (fun inside => inside.1 rfl) (inside_cons (by nofun) later) (exclusive rfl)
        fun free => held_of_free free _
    | @tests rest later =>
      have inside : Inside (.joinIfJoinable :: rest) := inside_cons (by nofun) later
      obtain ⟨alive, id, handle, only⟩ := owned.held _ (List.mem_of_getElem? here) inside
      simp only [exec, handle, Option.isSome_some, ↓reduceIte, Option.some.injEq, Prod.mk.injEq] at ran
      obtain ⟨rfl, rfl⟩ := ran
      exact owned.stays here inside (inside_cons (by nofun) later) fun _ => ⟨alive, id, handle, only⟩
    | @joins rest later =>
      have inside : Inside (.join :: rest) := inside_cons (by nofun) later
      obtain ⟨alive, id, handle, only⟩ := owned.held _ (List.mem_of_getElem? here) inside
      simp only [exec, handle, Option.some.injEq, Prod.mk.injEq] at ran
      obtain ⟨rfl, rfl⟩ := ran
      exact owned.stays here inside (inside_cons (by nofun) later) fun _ => ⟨alive, handle, only⟩
    | waits id later =>
      simp only [exec] at ran
      split at ran
      · cases ran
      · next ended =>
        cases ran
        exact owned.stays here (inside_cons (by nofun) later) (inside_joined later) fun held =>
          (held_joined later).mpr ⟨held.1, rfl, joined_of_waited (s := pool.shared) held ended⟩
    | joined later =>
      have inside := inside_joined later
      obtain ⟨alive, handle, none⟩ := (held_joined later).mp (owned.held _ (List.mem_of_getElem? here) inside)
      simp only [joinedPrograms, startFetchThread, List.mem_cons, List.not_mem_nil, or_false, List.cons_append,
        List.nil_append] at later
      rcases later with rfl | rfl | rfl <;> cases ran
      · exact owned.stays here inside (by decide) fun _ => ⟨alive, rfl, handle, none⟩
      · exact owned.stays here inside (by decide) fun _ => ⟨alive, handle, none⟩
      · exact owned.stays here inside (by decide) fun _ => ⟨alive, rfl, handle, none⟩
    | @raised rest later =>
      have inside : Inside (.assignThread true :: rest) := ⟨by nofun, List.mem_cons_self⟩
      have left : ¬Inside rest := by rcases later with rfl | rfl <;> decide
      obtain ⟨alive, raised, handle, none⟩ := owned.held _ (List.mem_of_getElem? here) inside
      simp only [exec, handle, Option.isSome_none, Bool.false_eq_true, ↓reduceIte, Option.some.injEq,
        Prod.mk.injEq] at ran
      obtain ⟨rfl, rfl⟩ := ran
      exact owned.leaves here inside left fun _ => free_of_assigned alive raised none true
  · rcases List.mem_or_eq_of_mem_set listed with old | rfl
    · exact turns.valid q old
    · exact valid_exec valid ran

/-! ## Loops -/

/-- A step of a loop that goes on while the flag is set brings no loop to life and ends none. -/
theorem liveLoop_stepped {s : Shared} {id other : ℕ} {loop stepped : Loop} (found : s.loops[id]? = some loop)
    (moved : loop.step s = some stepped) :
    (LiveLoop { s with loops := s.loops.set id stepped } other → LiveLoop s other) ∧
      (s.fetch = true → LiveLoop s other → LiveLoop { s with loops := s.loops.set id stepped } other) := by
  have bound : id < s.loops.length := (List.getElem?_eq_some_iff.mp found).1
  have before : loop.live = true := by
    cases at_ : loop.position <;> simp_all [Loop.live, Loop.step]
  by_cases same : id = other
  · subst same
    refine ⟨fun _ => ⟨loop, found, before⟩, fun raised _ => ⟨stepped, by simp [bound], ?_⟩⟩
    simp only [Loop.step, raised, ↓reduceIte] at moved
    split at moved <;> cases moved <;> rfl
  · have kept : (s.loops.set id stepped)[other]? = s.loops[other]? := List.getElem?_set_ne same
    constructor
    · rintro ⟨live, there, alive⟩
      exact ⟨live, kept ▸ there, alive⟩
    · rintro _ ⟨live, there, alive⟩
      exact ⟨live, kept.trans there, alive⟩

theorem free_stepped {s : Shared} {id : ℕ} {loop stepped : Loop} (found : s.loops[id]? = some loop)
    (moved : loop.step s = some stepped) (free : Free s) : Free { s with loops := s.loops.set id stepped } := by
  obtain ⟨alive, raised, handle, held, live, only⟩ := free
  exact ⟨alive, raised, handle, held, (liveLoop_stepped found moved).2 raised live,
    fun other lives => only other ((liveLoop_stepped found moved).1 lives)⟩

/-- What a thread inside knows bounds the live loops from above. -/
theorem held_stepped {s : Shared} {id : ℕ} {loop stepped : Loop} (found : s.loops[id]? = some loop)
    (moved : loop.step s = some stepped) (p : Program) (held : Held p s) :
    Held p { s with loops := s.loops.set id stepped } := by
  have fewer (other : ℕ) : LiveLoop { s with loops := s.loops.set id stepped } other → LiveLoop s other :=
    (liveLoop_stepped found moved).1
  obtain ⟨alive, known⟩ := held
  refine ⟨alive, ?_⟩
  split at known
  · obtain ⟨handle, held, only⟩ := known
    exact ⟨handle, held, fun other lives => only other (fewer other lives)⟩
  · obtain ⟨handle, held, only⟩ := known
    exact ⟨handle, held, fun other lives => only other (fewer other lives)⟩
  · exact ⟨known.1, fun other lives => known.2 other (fewer other lives)⟩
  · exact ⟨known.1, known.2.1, fun other lives => known.2.2 other (fewer other lives)⟩
  · exact ⟨known.1, fun other lives => known.2 other (fewer other lives)⟩

/-! ## Runs -/

/-- A thread lowers the flag only while no thread is inside. -/
def Exclusive (pool : Pool Shared Program) : Event → Prop
  | .thread i => (pool.threads[i]?.bind (·.head?) = some .lowerFetch) → ∀ p ∈ pool.threads, ¬Inside p
  | _ => True

instance (pool : Pool Shared Program) : ∀ event, Decidable (Exclusive pool event)
  | .thread _ => inferInstanceAs (Decidable (_ → _))
  | .loop _ | .select | .restartFetch | .reset | .shutdown => .isTrue trivial

/-- A new worker has not lowered the flag. -/
theorem turns_spawn {s' : Shared} {pool : Pool Shared Program} (turns : Turns pool) {rest : Program}
    (later : rest ∈ joinedPrograms) (free : Free pool.shared → Free s')
    (held : ∀ p, Held p pool.shared → Held p s') :
    Turns ⟨s', pool.threads ++ [.lowerFetch :: .joinIfJoinable :: rest]⟩ := by
  refine ⟨(turns.toOwned.env free held).spawn fun inside => inside.1 rfl, fun p listed => ?_⟩
  rcases List.mem_append.mp listed with old | new
  · exact turns.valid p old
  · rw [List.mem_singleton.mp new]
    exact .starts later

theorem turns_next (pool : Pool Shared Program) (event : Event) (pool' : Pool Shared Program) (turns : Turns pool)
    (exclusive : Exclusive pool event) (moved : next pool event = some pool') : Turns pool' := by
  cases moves_of_next moved with
  | thread here ran =>
    refine turns_thread turns here ran fun starts => exclusive ?_
    rw [here]
    exact starts
  | loop found stepped =>
    exact ⟨turns.toOwned.env (free_stepped found stepped) (held_stepped found stepped), turns.valid⟩
  | select => exact ⟨turns.toOwned.env id fun _ => id, turns.valid⟩
  | dropped => exact ⟨turns.toOwned.env id fun _ => id, turns.valid⟩
  | restarted => exact turns_spawn turns (by decide) id fun _ => id
  | reset => exact turns_spawn turns (by decide) id fun _ => id
  | shutdown served =>
    refine ⟨turns.toOwned.passes served (by decide) (by decide) id fun _ _ _ => id, fun p listed => ?_⟩
    rcases List.mem_or_eq_of_mem_set listed with old | rfl
    · exact turns.valid p old
    · exact .starts (by decide)

theorem turns_initial : Turns initial := by
  refine ⟨Owned.single (fun out => absurd (by decide) out) fun _ => ⟨rfl, rfl, ?_⟩, fun p listed => ?_⟩
  · rintro other ⟨loop, found, _⟩
    cases found
  · rw [List.mem_singleton.mp listed]
    exact .joined (by decide)

/-! ## Safety -/

def waitsFor (p : Program) (id : ℕ) : Prop := p.head? = some (.waitFor id)

/-- One live loop at most, no call of `std::terminate`, and no thread is waited for twice. -/
structure Safe (pool : Pool Shared Program) : Prop where
  single : ∀ first second, LiveLoop pool.shared first → LiveLoop pool.shared second → first = second
  running : pool.shared.terminated = false
  joinedOnce : ∀ (i j : ℕ) (p q : Program) (id : ℕ), pool.threads[i]? = some p → pool.threads[j]? = some q →
    waitsFor p id → waitsFor q id → i = j

theorem inside_of_waitsFor {p : Program} {id : ℕ} (valid : Valid p) (waits : waitsFor p id) : Inside p := by
  cases valid with
  | finished => cases waits
  | releasing => cases waits
  | starts later => cases waits
  | tests later => cases waits
  | joins later => cases waits
  | waits id later => exact inside_cons (by nofun) later
  | joined later => exact inside_joined later
  | raised later => cases waits

theorem held_single {p : Program} {s : Shared} (held : Held p s) {first second : ℕ} (one : LiveLoop s first)
    (two : LiveLoop s second) : first = second := by
  obtain ⟨_, known⟩ := held
  split at known
  · obtain ⟨_, _, only⟩ := known
    exact (only first one).trans (only second two).symm
  · obtain ⟨_, _, only⟩ := known
    exact (only first one).trans (only second two).symm
  · exact (known.2 first one).trans (known.2 second two).symm
  · exact absurd one (known.2.2 first)
  · exact absurd one (known.2 first)

theorem safe_of_turns {pool : Pool Shared Program} (turns : Turns pool) : Safe pool := by
  have known : (∀ p ∈ pool.threads, ¬Inside p) ∨ ∃ p ∈ pool.threads, Inside p := by
    by_cases some_ : ∃ p ∈ pool.threads, Inside p
    · exact .inr some_
    · exact .inl fun p listed inside => some_ ⟨p, listed, inside⟩
  constructor
  · intro first second one two
    rcases known with none | ⟨p, listed, inside⟩
    · obtain ⟨_, _, _, _, _, only⟩ := turns.free none
      exact (only first one).trans (only second two).symm
    · exact held_single (turns.held p listed inside) one two
  · rcases known with none | ⟨p, listed, inside⟩
    · exact (turns.free none).1
    · exact (turns.held p listed inside).1
  · intro i j p q id first second waitsFirst waitsSecond
    exact turns.exclusive i j p q first second
      (inside_of_waitsFor (turns.valid p (List.mem_of_getElem? first)) waitsFirst)
      (inside_of_waitsFor (turns.valid q (List.mem_of_getElem? second)) waitsSecond)

/-- In runs in which turns do not overlap, every state is safe. -/
theorem lifecycle_safe {events : List Event} {pool : Pool Shared Program}
    (ran : execute next initial events = some pool) (exclusive : Respects next Exclusive initial events) :
    Safe pool :=
  safe_of_turns (execute_invariant turns_next turns_initial ran exclusive)

/-- A reset, a switch of the mode and a restart of the server, one after the other. -/
def separateTurns : List Event :=
  [.thread 0, .thread 0, .loop 0, .reset, .thread 1, .thread 1, .thread 1, .loop 0, .loop 0, .thread 1, .thread 1,
    .thread 1, .select, .restartFetch, .thread 2, .loop 1, .thread 2, .thread 2, .thread 2, .thread 2, .thread 2,
    .thread 2, .thread 2, .shutdown, .thread 0, .thread 0, .loop 2]

theorem separateTurns_safe : ∃ pool, execute next initial separateTurns = some pool ∧ Safe pool := by
  obtain ⟨pool, ran⟩ := Option.isSome_iff_exists.mp
    (by decide +kernel : (execute next initial separateTurns).isSome = true)
  exact ⟨pool, ran, lifecycle_safe ran (by decide +kernel)⟩

/-- Two `#resetSession` messages: both workers find the first loop's thread joinable. -/
def doubleJoin : List Event :=
  [.thread 0, .thread 0, .reset, .reset, .thread 1, .thread 2, .thread 1, .thread 2, .thread 1, .thread 2]

/-- Two `#resetSession` messages: the second worker finds nothing to join and starts a loop first. -/
def doubleStart : List Event :=
  [.thread 0, .thread 0, .reset, .reset, .thread 1, .loop 0, .thread 1, .thread 1, .thread 1, .thread 2, .thread 2,
    .thread 2, .thread 2, .thread 1, .thread 1]

theorem resets_collide :
    (execute next initial doubleJoin).map (·.threads) =
        some [[], .waitFor 0 :: startFetchThread true, .waitFor 0 :: startFetchThread true] ∧
      (execute next initial doubleStart).map (·.shared.terminated) = some true ∧
      ¬∀ events pool, execute next initial events = some pool → Safe pool := by
  have ends : (execute next initial doubleStart).map (·.shared.terminated) = some true := by decide +kernel
  refine ⟨by decide +kernel, ends, fun safe => ?_⟩
  obtain ⟨pool, ran, terminated⟩ := Option.map_eq_some_iff.mp ends
  exact absurd (terminated.symm.trans (safe _ pool ran).running) (by decide)

end OsuTracker.Soundness.ThreadLifecycle
