import OsuTracker.Soundness.ThreadLifecycle

/-! # Switching the server or the mode

Without resets and without a restart of the server, the guard of `restartFetch` lets one worker
run at a time, and turns never overlap. The guard is still up when the worker has started the new
loop, and a call of `restartFetch` in that moment is dropped. The session belongs to the last
selection in the runs in which every dropped call had stored its selection before that loop read
the settings.
-/

namespace OsuTracker.Soundness.SwitchKept

open Model.Core.FetchThread Machine.Regions ThreadLifecycle

/-! ## The guard -/

/-- Events of the window, of threads and of loops. -/
def Switching (event : Event) : Prop := event ≠ .reset ∧ event ≠ .shutdown

instance : DecidablePred Switching := fun _ => inferInstanceAs (Decidable (_ ∧ _))

/-- One thread at most has statements left, the main thread or the worker of `restartFetch`. -/
structure Guarded (pool : Pool Shared Program) : Prop extends Turns pool where
  alone : ∀ (i j : ℕ) (p q : Program), pool.threads[i]? = some p → pool.threads[j]? = some q →
    p ≠ [] → q ≠ [] → i = j
  served : pool.shared.selecting = true ∨ pool.shared.restarting = true → pool.threads[0]? = some []
  idle : pool.shared.restarting = false → ∀ (i : ℕ) (p : Program), pool.threads[i]? = some p → p ≠ [] → i = 0

/-- A statement changes nothing about selections, and only the last one of a restart ends it. -/
theorem exec_frame {s s' : Shared} {p p' : Program} (ran : exec s p = some (s', p')) :
    p ≠ [] ∧ s'.selecting = s.selecting ∧ s'.selections = s.selections ∧
      (s'.restarting = s.restarting ∨ s'.restarting = false ∧ p = .lowerRestarting :: p') := by
  cases p with
  | nil => cases ran
  | cons statement rest =>
    refine ⟨List.cons_ne_nil _ _, ?_⟩
    cases statement with
    | lowerFetch | joinIfJoinable | clearStats | raiseFetch =>
      cases ran
      exact ⟨rfl, rfl, .inl rfl⟩
    | join | waitFor id | assignThread init =>
      simp only [exec] at ran
      split at ran <;> cases ran
      all_goals exact ⟨rfl, rfl, .inl rfl⟩
    | lowerRestarting =>
      cases ran
      exact ⟨rfl, rfl, .inr ⟨rfl, rfl⟩⟩

theorem valid_lowerRestarting {rest : Program} (valid : Valid (.lowerRestarting :: rest)) : rest = [] := by
  generalize same : Statement.lowerRestarting :: rest = p at valid
  cases valid with
  | releasing => exact (List.cons.inj same).2
  | joined later =>
    subst same
    exact absurd later (by simp [joinedPrograms, startFetchThread])
  | finished | starts later | tests later | joins later | waits id later | raised later => cases same

theorem guarded_exclusive {pool : Pool Shared Program} (guarded : Guarded pool) : ∀ event, Exclusive pool event
  | .thread i => fun starts q listed inside => by
    obtain ⟨p, here, head⟩ := Option.bind_eq_some_iff.mp starts
    obtain ⟨j, there⟩ := List.getElem?_of_mem listed
    have busy : p ≠ [] := by
      rintro rfl
      cases head
    have also : q ≠ [] := by
      rintro rfl
      exact absurd inside (by decide)
    obtain rfl := guarded.alone i j p q here there busy also
    obtain rfl := Option.some.inj (here.symm.trans there)
    exact inside.1 head
  | .loop _ | .select | .restartFetch | .reset | .shutdown => trivial

/-- The guard in a step of a thread. -/
theorem guarded_thread {pool : Pool Shared Program} (guarded : Guarded pool) {i : ℕ} {p p' : Program} {s' : Shared}
    (here : pool.threads[i]? = some p) (ran : exec pool.shared p = some (s', p'))
    (turns : Turns ⟨s', pool.threads.set i p'⟩) : Guarded ⟨s', pool.threads.set i p'⟩ := by
  obtain ⟨busy, selecting, _, restarting⟩ := exec_frame ran
  have only {j : ℕ} {q : Program} (there : (pool.threads.set i p')[j]? = some q) (left : q ≠ []) : j = i := by
    by_contra apart
    rw [List.getElem?_set_ne (Ne.symm apart)] at there
    exact apart (guarded.alone j i q p there here left busy)
  refine ⟨turns, ?_, ?_, ?_⟩
  · intro j k q r first second leftFirst leftSecond
    exact (only first leftFirst).trans (only second leftSecond).symm
  · intro begun
    have before : pool.shared.selecting = true ∨ pool.shared.restarting = true := by
      rcases begun with selected | restarted
      · exact .inl (selecting.symm.trans selected)
      · rcases restarting with same | ⟨lowered, _⟩
        · exact .inr (same.symm.trans restarted)
        · cases lowered.symm.trans restarted
    have served := guarded.served before
    have apart : i ≠ 0 := by
      rintro rfl
      exact busy (Option.some.inj (here.symm.trans served))
    exact (List.getElem?_set_ne apart).trans served
  · intro ended j q there left
    obtain rfl := only there left
    rcases restarting with same | ⟨_, rfl⟩
    · exact guarded.idle (same.symm.trans ended) j p here busy
    · -- the worker is done
      have last := valid_lowerRestarting (guarded.valid _ (List.mem_of_getElem? here))
      have bound : j < pool.threads.length := (List.getElem?_eq_some_iff.mp here).1
      rw [List.getElem?_set_self bound] at there
      exact absurd ((Option.some.inj there).symm.trans last) left

theorem guarded_next (pool : Pool Shared Program) (event : Event) (pool' : Pool Shared Program)
    (guarded : Guarded pool) (switching : Switching event) (moved : next pool event = some pool') :
    Guarded pool' := by
  have turns := turns_next pool event pool' guarded.toTurns (guarded_exclusive guarded event) moved
  cases moves_of_next moved with
  | thread here ran => exact guarded_thread guarded here ran turns
  | loop found stepped => exact ⟨turns, guarded.alone, guarded.served, guarded.idle⟩
  | select served => exact ⟨turns, guarded.alone, fun _ => served, guarded.idle⟩
  | dropped stored busy => exact ⟨turns, guarded.alone, fun _ => guarded.served (.inr busy), guarded.idle⟩
  | restarted stored idle =>
    have served := guarded.served (.inl stored)
    -- nobody else has statements left
    have only {i : ℕ} {p : Program} (there : (pool.threads ++ [restartWorker])[i]? = some p) (left : p ≠ []) :
        i = pool.threads.length := by
      rcases Nat.lt_trichotomy i pool.threads.length with front | same | back
      · rw [List.getElem?_append_left front] at there
        obtain rfl := guarded.idle idle i p there left
        exact absurd (Option.some.inj (there.symm.trans served)) left
      · exact same
      · rw [List.getElem?_eq_none (by rw [List.length_append, List.length_singleton]; omega)] at there
        cases there
    refine ⟨turns, ?_, fun _ => ?_, nofun⟩
    · intro i j p q first second leftFirst leftSecond
      exact (only first leftFirst).trans (only second leftSecond).symm
    · exact (List.getElem?_append_left (List.getElem?_eq_some_iff.mp served).1).trans served
  | reset => exact absurd rfl switching.1
  | shutdown => exact absurd rfl switching.2

theorem guarded_initial : Guarded initial := by
  have front {i : ℕ} {p : Program} (there : initial.threads[i]? = some p) : i = 0 := by
    have bound : i < 1 := (List.getElem?_eq_some_iff.mp there).1
    omega
  refine ⟨turns_initial, ?_, ?_, ?_⟩
  · exact fun i j p q first second _ _ => (front first).trans (front second).symm
  · rintro (selected | restarted)
    · cases selected
    · cases restarted
  · exact fun _ i p there _ => front there

/-- Restarts alone never collide. -/
theorem restarts_safe {events : List Event} {pool : Pool Shared Program}
    (ran : execute next initial events = some pool) (switching : ∀ event ∈ events, Switching event) : Safe pool := by
  have respects : Respects next (fun _ event => Switching event) initial events := respects_of_forall switching
  exact safe_of_turns (execute_invariant guarded_next guarded_initial ran respects).toTurns

/-! ## What the loop read -/

/-- What the loop that `fetchThread` holds read in its first round. -/
def baselineRead (s : Shared) : Option ℕ := do
  let id ← s.fetchThread
  let loop ← s.loops[id]?
  loop.baseline

/-- If it has read the settings, then all the stored selections. -/
def Current (s : Shared) : Prop := ∀ read ∈ baselineRead s, read = s.selections

instance (s : Shared) : Decidable (Current s) := inferInstanceAs (Decidable (∀ read ∈ baselineRead s, _))

/-- A thread has yet to start its loop. -/
def Starting (pool : Pool Shared Program) : Prop := ∃ p ∈ pool.threads, .assignThread true ∈ p

instance (pool : Pool Shared Program) : Decidable (Starting pool) :=
  inferInstanceAs (Decidable (∃ p ∈ pool.threads, _))

/-- A call of `restartFetch` is dropped only before the new loop is started, or as long as what it
read is still current. -/
def Covered (pool : Pool Shared Program) : Event → Prop
  | .restartFetch => pool.shared.restarting = true → Starting pool ∨ Current pool.shared
  | _ => True

instance (pool : Pool Shared Program) : ∀ event, Decidable (Covered pool event)
  | .restartFetch => inferInstanceAs (Decidable (_ → _))
  | .thread _ | .loop _ | .select | .reset | .shutdown => .isTrue trivial

/-- Once every selection has been handed over, a loop that reads the current settings is running
or about to be started. -/
structure Kept (pool : Pool Shared Program) : Prop extends Guarded pool where
  inits : ∀ loop ∈ pool.shared.loops, loop.init = true
  current : pool.shared.selecting = false → Starting pool ∨ Current pool.shared

theorem exec_starts {s s' : Shared} {p p' : Program} (ran : exec s p = some (s', p'))
    (starts : .assignThread true ∈ p) : .assignThread true ∈ p' ∨ p = .assignThread true :: p' := by
  cases p with
  | nil => cases ran
  | cons statement rest =>
    have later (other : .assignThread true ≠ statement) : .assignThread true ∈ rest :=
      (List.mem_cons.mp starts).resolve_left other
    cases statement with
    | lowerFetch | clearStats | raiseFetch | lowerRestarting =>
      cases ran
      exact .inl (later (by simp))
    | joinIfJoinable =>
      cases ran
      split
      · exact .inl (List.mem_cons_of_mem _ (later (by simp)))
      · exact .inl (later (by simp))
    | join =>
      simp only [exec] at ran
      split at ran <;> cases ran
      · exact .inl (List.mem_cons_of_mem _ (later (by simp)))
      · exact .inl (later (by simp))
    | waitFor id =>
      simp only [exec] at ran
      split at ran <;> cases ran
      exact .inl (later (by simp))
    | assignThread init =>
      have same : p' = rest := by
        simp only [exec] at ran
        split at ran <;> cases ran <;> rfl
      rcases List.mem_cons.mp starts with first | more
      · exact .inr (by rw [first, same])
      · exact .inl (same ▸ more)

/-- A thread with statements left that starts no loop only has to end its restart. -/
theorem valid_starts {p : Program} (valid : Valid p) (busy : p ≠ []) :
    .assignThread true ∈ p ∨ p = [.lowerRestarting] := by
  cases valid with
  | finished => exact absurd rfl busy
  | releasing => exact .inr rfl
  | starts later => exact .inl (List.mem_cons_of_mem _ (List.mem_cons_of_mem _ (inside_joined later).2))
  | tests later => exact .inl (List.mem_cons_of_mem _ (inside_joined later).2)
  | joins later => exact .inl (List.mem_cons_of_mem _ (inside_joined later).2)
  | waits id later => exact .inl (List.mem_cons_of_mem _ (inside_joined later).2)
  | joined later => exact .inl (inside_joined later).2
  | raised later => exact .inl List.mem_cons_self

theorem baseline_stepped {s : Shared} {loop stepped : Loop} (moved : loop.step s = some stepped) {read : ℕ}
    (listed : read ∈ stepped.baseline) : read ∈ loop.baseline ∨ read = s.selections := by
  simp only [Loop.step] at moved
  split at moved <;> cases moved
  · exact .inl listed
  · cases before : loop.baseline with
    | none =>
      rw [before] at listed
      exact .inr (Option.some.inj listed).symm
    | some old =>
      rw [before] at listed
      exact .inl listed

theorem current_stepped {s : Shared} {id : ℕ} {loop stepped : Loop} (found : s.loops[id]? = some loop)
    (moved : loop.step s = some stepped) (current : Current s) :
    Current { s with loops := s.loops.set id stepped } := by
  intro read listed
  obtain ⟨handle, held, rest⟩ := Option.bind_eq_some_iff.mp listed
  obtain ⟨now, there, reads⟩ := Option.bind_eq_some_iff.mp rest
  have before (old : Loop) (was : s.loops[handle]? = some old) (it : read ∈ old.baseline) : read = s.selections :=
    current read (Option.bind_eq_some_iff.mpr ⟨handle, held, Option.bind_eq_some_iff.mpr ⟨old, was, it⟩⟩)
  by_cases same : id = handle
  · subst same
    have bound : id < s.loops.length := (List.getElem?_eq_some_iff.mp found).1
    obtain rfl := Option.some.inj ((List.getElem?_set_self bound).symm.trans there)
    exact (baseline_stepped moved reads).elim (before loop found) fun read => read
  · exact before now ((List.getElem?_set_ne same).symm.trans there) reads

/-- Every thread starts its loop with `init`. -/
theorem inits_exec {s s' : Shared} {p p' : Program} (valid : Valid p) (ran : exec s p = some (s', p'))
    (inits : ∀ loop ∈ s.loops, loop.init = true) : ∀ loop ∈ s'.loops, loop.init = true := by
  cases valid with
  | finished => cases ran
  | releasing | starts later | tests later =>
    cases ran
    exact inits
  | joins later | waits id later =>
    simp only [exec] at ran
    split at ran <;> cases ran
    all_goals exact inits
  | joined later =>
    simp only [joinedPrograms, startFetchThread, List.mem_cons, List.not_mem_nil, or_false, List.cons_append,
      List.nil_append] at later
    rcases later with rfl | rfl | rfl <;> cases ran <;> exact inits
  | raised later =>
    simp only [exec] at ran
    split at ran <;> cases ran
    · exact inits
    · intro loop member
      rcases List.mem_append.mp member with old | new
      · exact inits loop old
      · rw [List.mem_singleton.mp new]

/-- The statements: a new loop has read nothing, and no other one touches what was read. -/
theorem kept_thread {pool : Pool Shared Program} (kept : Kept pool) {i : ℕ} {p p' : Program} {s' : Shared}
    (here : pool.threads[i]? = some p) (ran : exec pool.shared p = some (s', p'))
    (guarded : Guarded ⟨s', pool.threads.set i p'⟩) : Kept ⟨s', pool.threads.set i p'⟩ := by
  obtain ⟨busy, selecting, _, _⟩ := exec_frame ran
  have listed := List.mem_of_getElem? here
  have bound : i < pool.threads.length := (List.getElem?_eq_some_iff.mp here).1
  have own : p' ∈ pool.threads.set i p' := List.mem_of_getElem? (List.getElem?_set_self bound)
  refine ⟨guarded, inits_exec (kept.valid p listed) ran kept.inits, fun chosen => ?_⟩
  rcases valid_starts (kept.valid p listed) busy with starts | rfl
  · rcases exec_starts ran starts with later | rfl
    · exact .inl ⟨p', own, later⟩
    · have inside : Inside (.assignThread true :: p') := ⟨by nofun, List.mem_cons_self⟩
      obtain ⟨_, _, handle, _⟩ := kept.held _ listed inside
      simp only [exec, handle, Option.isSome_none, Bool.false_eq_true, ↓reduceIte, Option.some.injEq, Prod.mk.injEq,
        and_true] at ran
      subst ran
      refine .inr fun read reads => ?_
      simp [baselineRead] at reads
  · rcases kept.current (selecting.symm.trans chosen) with ⟨q, among, starts⟩ | current
    · obtain ⟨j, there⟩ := List.getElem?_of_mem among
      obtain rfl := kept.alone i j _ q here there busy (List.ne_nil_of_mem starts)
      cases here.symm.trans there
      exact absurd starts (by decide)
    · cases ran
      exact .inr current

theorem kept_next (pool : Pool Shared Program) (event : Event) (pool' : Pool Shared Program) (kept : Kept pool)
    (allowed : Switching event ∧ Covered pool event) (moved : next pool event = some pool') : Kept pool' := by
  have guarded := guarded_next pool event pool' kept.toGuarded allowed.1 moved
  cases moves_of_next moved with
  | thread here ran => exact kept_thread kept here ran guarded
  | @loop id loop stepped found went =>
    refine ⟨guarded, fun other member => ?_, fun chosen => ?_⟩
    · rcases List.mem_or_eq_of_mem_set member with old | rfl
      · exact kept.inits other old
      · have init : other.init = loop.init := by
          simp only [Loop.step] at went
          split at went <;> cases went <;> rfl
        exact init.trans (kept.inits loop (List.mem_of_getElem? found))
    · exact (kept.current chosen).imp_right (current_stepped found went)
  | select => exact ⟨guarded, kept.inits, fun chosen => by cases chosen⟩
  | dropped stored busy => exact ⟨guarded, kept.inits, fun _ => allowed.2 busy⟩
  | restarted =>
    exact ⟨guarded, kept.inits, fun _ => .inl ⟨restartWorker, List.mem_append_right _ List.mem_cons_self, by decide⟩⟩
  | reset => exact absurd rfl allowed.1.1
  | shutdown => exact absurd rfl allowed.1.2

theorem kept_initial : Kept initial :=
  ⟨guarded_initial, nofun, fun _ => .inl ⟨_, List.mem_cons_self, by decide⟩⟩

/-- The running loop, when no thread has statements left and no selection is being handed over. -/
theorem switch_kept {events : List Event} {pool : Pool Shared Program}
    (ran : execute next initial events = some pool) (switching : ∀ event ∈ events, Switching event)
    (covered : Respects next Covered initial events) (handedOver : pool.shared.selecting = false)
    (finished : ∀ p ∈ pool.threads, p = []) :
    ∃ id loop, pool.shared.fetchThread = some id ∧ pool.shared.loops[id]? = some loop ∧ loop.live = true ∧
      (∀ other, LiveLoop pool.shared other → other = id) ∧ loop.init = true ∧
      (loop.baseline = none ∨ loop.baseline = some pool.shared.selections) := by
  have kept := execute_invariant kept_next kept_initial ran ((respects_of_forall switching).and covered)
  have none (p : Program) (listed : p ∈ pool.threads) : ¬Inside p := by
    rw [finished p listed]
    decide
  obtain ⟨_, _, id, handle, ⟨loop, found, live⟩, only⟩ := kept.free none
  refine ⟨id, loop, handle, found, live, only, kept.inits loop (List.mem_of_getElem? found), ?_⟩
  rcases kept.current handedOver with ⟨p, listed, starts⟩ | current
  · rw [finished p listed] at starts
    exact absurd starts List.not_mem_nil
  · cases read : loop.baseline with
    | none => exact .inl rfl
    | some selections =>
      have reads : selections ∈ baselineRead pool.shared :=
        Option.bind_eq_some_iff.mpr ⟨id, handle, Option.bind_eq_some_iff.mpr ⟨loop, found, read⟩⟩
      exact .inr (congrArg some (current selections reads))

/-- Two selections; the second one is stored before the first restart has started its loop. -/
def earlySecond : List Event :=
  [.thread 0, .thread 0, .loop 0, .loop 0, .select, .restartFetch, .thread 1, .loop 0, .select, .thread 1, .thread 1,
    .restartFetch, .thread 1, .thread 1, .thread 1, .thread 1, .thread 1, .loop 1, .loop 1]

theorem earlySecond_kept : ∃ pool, execute next initial earlySecond = some pool ∧
    ∃ id loop, pool.shared.fetchThread = some id ∧ pool.shared.loops[id]? = some loop ∧ loop.live = true ∧
      (∀ other, LiveLoop pool.shared other → other = id) ∧ loop.init = true ∧
      (loop.baseline = none ∨ loop.baseline = some pool.shared.selections) := by
  have ends : (execute next initial earlySecond).any
      (fun pool => pool.shared.selecting = false ∧ ∀ p ∈ pool.threads, p = []) = true := by decide +kernel
  obtain ⟨pool, ran, state⟩ := (Option.any_eq_true _ _).mp ends
  obtain ⟨handedOver, finished⟩ := of_decide_eq_true state
  exact ⟨pool, ran, switch_kept ran (by decide +kernel) (by decide +kernel) handedOver finished⟩

/-- The second selection is stored after the new loop has read the settings and before the guard
is down: the loop that runs from then on has read only the first one. -/
def lateSecond : List Event :=
  [.thread 0, .thread 0, .loop 0, .loop 0, .select, .restartFetch, .thread 1, .loop 0, .thread 1, .thread 1, .thread 1,
    .thread 1, .thread 1, .thread 1, .loop 1, .loop 1, .select, .restartFetch, .thread 1]

theorem lateSecond_lost :
    (∀ event ∈ lateSecond, Switching event) ∧
      execute next initial lateSecond =
        some ⟨{ fetch := true, fetchThread := some 1, selections := 2,
                loops := [⟨true, .ended, some 0⟩, ⟨true, .test, some 1⟩] }, [[], []]⟩ := by
  decide +kernel

end OsuTracker.Soundness.SwitchKept
