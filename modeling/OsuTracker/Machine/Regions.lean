import Mathlib.Data.List.Basic

/-! # Threads that take turns

A labelled machine runs a list of events; what every permitted event preserves holds after every
run of permitted events, and what a rank leads to cannot be missed. In a pool of threads over one
shared state, some positions of a program lie inside a region that is meant for one thread at a
time. When no thread enters while another one is inside, the shared state is free, or described by
the position of the one thread inside.
-/

namespace OsuTracker.Machine.Regions

/-! ## Runs of events -/

section Runs

variable {C L : Type*} (next : C → L → Option C)

/-- The events in order; none if one of them is not possible. -/
def execute : C → List L → Option C
  | c, [] => some c
  | c, event :: rest => (next c event).bind (execute · rest)

/-- Every event is allowed in the state before it. -/
def Respects (allowed : C → L → Prop) : C → List L → Prop
  | _, [] => True
  | c, event :: rest => allowed c event ∧
    match next c event with
    | some c' => Respects allowed c' rest
    | none => True

instance decidableRespects {allowed : C → L → Prop} [∀ c event, Decidable (allowed c event)] :
    ∀ c events, Decidable (Respects next allowed c events)
  | _, [] => .isTrue trivial
  | c, event :: rest =>
    match moved : next c event with
    | some c' =>
      have : Decidable (Respects next allowed c' rest) := decidableRespects c' rest
      decidable_of_iff (allowed c event ∧ Respects next allowed c' rest) (by simp only [Respects, moved])
    | none => decidable_of_iff (allowed c event) (by simp only [Respects, moved, and_true])

variable {next}

/-- The invariant rule. -/
theorem execute_invariant {P : C → Prop} {allowed : C → L → Prop}
    (step : ∀ c event c', P c → allowed c event → next c event = some c' → P c') {c c' : C} {events : List L}
    (start : P c) (ran : execute next c events = some c') (respects : Respects next allowed c events) : P c' := by
  induction events generalizing c with
  | nil =>
    cases ran
    exact start
  | cons event rest ih =>
    obtain ⟨middle, moved, later⟩ := Option.bind_eq_some_iff.mp ran
    obtain ⟨now, after⟩ := respects
    rw [moved] at after
    exact ih (step c event middle start now moved) later after

/-- The rule for what every event preserves. -/
theorem execute_preserves {P : C → Prop} (step : ∀ c event c', P c → next c event = some c' → P c') {c c' : C}
    {events : List L} (start : P c) (ran : execute next c events = some c') : P c' := by
  induction events generalizing c with
  | nil =>
    cases ran
    exact start
  | cons event rest ih =>
    obtain ⟨middle, moved, later⟩ := Option.bind_eq_some_iff.mp ran
    exact ih (step c event middle start moved) later

/-- A machine that records more makes the same runs. -/
theorem execute_project {D : Type*} {next' : D → L → Option D} (project : D → C)
    (follows : ∀ d event, (next' d event).map project = next (project d) event) (d : D) (events : List L) :
    (execute next' d events).map project = execute next (project d) events := by
  induction events generalizing d with
  | nil => rfl
  | cons event rest ih =>
    simp only [execute, ← follows]
    cases next' d event with
    | none => rfl
    | some d' => exact ih d'

/-- A condition on the events alone. -/
theorem respects_of_forall {Q : L → Prop} {c : C} {events : List L} (all : ∀ event ∈ events, Q event) :
    Respects next (fun _ event => Q event) c events := by
  induction events generalizing c with
  | nil => trivial
  | cons event rest ih =>
    obtain ⟨own, others⟩ := List.forall_mem_cons.mp all
    refine ⟨own, ?_⟩
    cases next c event with
    | none => trivial
    | some c' => exact ih others

/-- Two conditions that agree as long as the first is kept to are kept to by the same runs. -/
theorem respects_congr {P : C → Prop} {allowed permitted : C → L → Prop}
    (agree : ∀ c event, P c → (allowed c event ↔ permitted c event))
    (step : ∀ c event c', P c → allowed c event → next c event = some c' → P c') {c : C} (start : P c)
    (events : List L) : Respects next allowed c events ↔ Respects next permitted c events := by
  induction events generalizing c with
  | nil => exact Iff.rfl
  | cons event rest ih =>
    simp only [Respects, ← agree c event start]
    refine and_congr_right fun now => ?_
    cases moved : next c event with
    | none => exact Iff.rfl
    | some c' => exact ih (step c event c' start now moved)

theorem Respects.and {allowed permitted : C → L → Prop} {c : C} {events : List L}
    (first : Respects next allowed c events) (second : Respects next permitted c events) :
    Respects next (fun c event => allowed c event ∧ permitted c event) c events := by
  induction events generalizing c with
  | nil => trivial
  | cons event rest ih =>
    obtain ⟨now, later⟩ := first
    obtain ⟨also, after⟩ := second
    refine ⟨⟨now, also⟩, ?_⟩
    cases moved : next c event with
    | none => trivial
    | some c' =>
      rw [moved] at later after
      exact ih later after

end Runs

/-! ## What has to come -/

section Progress

variable {C L : Type*} (next : C → L → Option C) (allowed : L → Prop) (goal : C → Prop)

/-- Whichever of the allowed events happen, the goal is reached; until then one of them is possible. -/
inductive Inevitable : C → Prop
  | reached {c : C} (arrived : goal c) : Inevitable c
  | later {c c' : C} {event : L} (permitted : allowed event) (possible : next c event = some c')
      (all : ∀ event c', allowed event → next c event = some c' → Inevitable c') : Inevitable c

variable {next allowed goal}

/-- The rank rule. -/
theorem Inevitable.of_rank {P : C → Prop} (rank : C → ℕ)
    (progress : ∀ c, P c → ¬goal c → ∃ event c', allowed event ∧ next c event = some c')
    (step : ∀ c event c', P c → ¬goal c → allowed event → next c event = some c' →
      (goal c' ∨ P c') ∧ rank c' < rank c) {c : C} (start : P c) : Inevitable next allowed goal c := by
  induction bound : rank c using Nat.strongRecOn generalizing c with
  | ind n ih =>
    by_cases arrived : goal c
    · exact .reached arrived
    · obtain ⟨event, c', permitted, possible⟩ := progress c start arrived
      refine .later permitted possible fun event c' permitted moved => ?_
      obtain ⟨arrives | kept, smaller⟩ := step c event c' start arrived permitted moved
      · exact .reached arrives
      · exact ih _ (bound ▸ smaller) kept rfl

/-- One goal after another. -/
theorem Inevitable.trans {goal' : C → Prop} {c : C} (first : Inevitable next allowed goal c)
    (second : ∀ c, goal c → Inevitable next allowed goal' c) : Inevitable next allowed goal' c := by
  induction first with
  | reached arrived => exact second _ arrived
  | later permitted possible _ ih => exact .later permitted possible ih

/-- What every event keeps on the way still holds at the goal. -/
theorem Inevitable.keeping {P : C → Prop}
    (step : ∀ c event c', ¬goal c → P c → allowed event → next c event = some c' → P c') {c : C}
    (comes : Inevitable next allowed goal c) (start : P c) :
    Inevitable next allowed (fun c => goal c ∧ P c) c := by
  induction comes with
  | reached arrived => exact .reached ⟨arrived, start⟩
  | @later c c' event permitted possible _ ih =>
    by_cases arrived : goal c
    · exact .reached ⟨arrived, start⟩
    · refine .later permitted possible fun event c' permitted moved => ?_
      exact ih event c' permitted moved (step c event c' arrived start permitted moved)

end Progress

/-! ## Pools -/

structure Pool (S P : Type*) where
  shared : S
  threads : List P
deriving DecidableEq, Repr

variable {S P : Type*} (Inside : P → Prop) (Free : S → Prop) (Held : P → S → Prop)

/-- At most one thread is inside; it determines what is known about the shared state. -/
structure Owned (pool : Pool S P) : Prop where
  exclusive : ∀ (i j : ℕ) (p q : P), pool.threads[i]? = some p → pool.threads[j]? = some q →
    Inside p → Inside q → i = j
  free : (∀ p ∈ pool.threads, ¬Inside p) → Free pool.shared
  held : ∀ p ∈ pool.threads, Inside p → Held p pool.shared

variable {Inside Free Held}

/-- A pool with one thread. -/
theorem Owned.single {s : S} {p : P} (free : ¬Inside p → Free s) (held : Inside p → Held p s) :
    Owned Inside Free Held ⟨s, [p]⟩ := by
  refine ⟨fun i j q r first second _ _ => ?_, fun none => free (none p List.mem_cons_self), fun q listed inside => ?_⟩
  · have front : i < 1 := (List.getElem?_eq_some_iff.mp first).1
    have also : j < 1 := (List.getElem?_eq_some_iff.mp second).1
    omega
  · obtain rfl := List.mem_singleton.mp listed
    exact held inside

/-- One step of a thread, by where it starts and where it ends. -/
private theorem Owned.step {pool : Pool S P} (owned : Owned Inside Free Held pool) {i : ℕ} {p p' : P} {s' : S}
    (here : pool.threads[i]? = some p)
    (enter : ¬Inside p → Inside p' → (∀ q ∈ pool.threads, ¬Inside q) ∧ (Free pool.shared → Held p' s'))
    (stay : Inside p → Inside p' → Held p pool.shared → Held p' s')
    (leave : Inside p → ¬Inside p' → Held p pool.shared → Free s')
    (outside : ¬Inside p → ¬Inside p' →
      (Free pool.shared → Free s') ∧ ∀ q ∈ pool.threads, Inside q → Held q pool.shared → Held q s') :
    Owned Inside Free Held ⟨s', pool.threads.set i p'⟩ := by
  have bound : i < pool.threads.length := (List.getElem?_eq_some_iff.mp here).1
  have own : (pool.threads.set i p')[i]? = some p' := by simp [bound]
  have member : p ∈ pool.threads := List.mem_of_getElem? here
  -- another thread inside: then this one neither was inside nor is now
  have alone {j : ℕ} {q : P} (apart : i ≠ j) (there : pool.threads[j]? = some q) (inside : Inside q) :
      ¬Inside p ∧ ¬Inside p' := by
    have out : ¬Inside p := fun also => apart (owned.exclusive i j p q here there also inside)
    exact ⟨out, fun entered => (enter out entered).1 q (List.mem_of_getElem? there) inside⟩
  have other {j : ℕ} {q : P} (apart : i ≠ j) (there : (pool.threads.set i p')[j]? = some q) :
      pool.threads[j]? = some q := (List.getElem?_set_ne apart).symm.trans there
  constructor
  · intro a b q r first second insideFirst insideSecond
    by_cases atA : i = a <;> by_cases atB : i = b
    · exact atA.symm.trans atB
    · subst atA
      obtain rfl := Option.some.inj (own.symm.trans first)
      exact absurd insideFirst (alone atB (other atB second) insideSecond).2
    · subst atB
      obtain rfl := Option.some.inj (own.symm.trans second)
      exact absurd insideSecond (alone atA (other atA first) insideFirst).2
    · exact owned.exclusive a b q r (other atA first) (other atB second) insideFirst insideSecond
  · intro none
    have out : ¬Inside p' := none p' (List.mem_of_getElem? own)
    by_cases inside : Inside p
    · exact leave inside out (owned.held p member inside)
    · refine (outside inside out).1 (owned.free fun q listed insideQ => ?_)
      obtain ⟨j, there⟩ := List.getElem?_of_mem listed
      by_cases same : i = j
      · subst same
        exact inside (Option.some.inj (here.symm.trans there) ▸ insideQ)
      · exact none q (List.mem_of_getElem? ((List.getElem?_set_ne same).trans there)) insideQ
  · intro q listed insideQ
    obtain ⟨j, there⟩ := List.getElem?_of_mem listed
    by_cases same : i = j
    · subst same
      obtain rfl := Option.some.inj (own.symm.trans there)
      by_cases inside : Inside p
      · exact stay inside insideQ (owned.held p member inside)
      · obtain ⟨empty, held⟩ := enter inside insideQ
        exact held (owned.free empty)
    · obtain ⟨out, still⟩ := alone same (other same there) insideQ
      have listed : q ∈ pool.threads := List.mem_of_getElem? (other same there)
      exact (outside out still).2 q listed insideQ (owned.held q listed insideQ)

section Steps

variable {pool : Pool S P} (owned : Owned Inside Free Held pool) {i : ℕ} {p p' : P} {s' : S}
  (here : pool.threads[i]? = some p)

include owned here

/-- A thread may enter while nobody is inside. -/
theorem Owned.enters (out : ¬Inside p) (entered : Inside p') (empty : ∀ q ∈ pool.threads, ¬Inside q)
    (held : Free pool.shared → Held p' s') : Owned Inside Free Held ⟨s', pool.threads.set i p'⟩ :=
  owned.step here (fun _ _ => ⟨empty, held⟩) (fun inside => absurd inside out) (fun inside => absurd inside out)
    (fun _ outside => absurd entered outside)

theorem Owned.stays (inside : Inside p) (still : Inside p') (held : Held p pool.shared → Held p' s') :
    Owned Inside Free Held ⟨s', pool.threads.set i p'⟩ :=
  owned.step here (fun out => absurd inside out) (fun _ _ => held) (fun _ out => absurd still out)
    (fun out => absurd inside out)

theorem Owned.leaves (inside : Inside p) (left : ¬Inside p') (free : Held p pool.shared → Free s') :
    Owned Inside Free Held ⟨s', pool.threads.set i p'⟩ :=
  owned.step here (fun out => absurd inside out) (fun _ still => absurd still left) (fun _ _ => free)
    (fun out => absurd inside out)

/-- A step outside does not disturb who is inside. -/
theorem Owned.passes (out : ¬Inside p) (still : ¬Inside p') (free : Free pool.shared → Free s')
    (held : ∀ q ∈ pool.threads, Inside q → Held q pool.shared → Held q s') :
    Owned Inside Free Held ⟨s', pool.threads.set i p'⟩ :=
  owned.step here (fun _ entered => absurd entered still) (fun inside => absurd inside out)
    (fun inside => absurd inside out) (fun _ _ => ⟨free, held⟩)

end Steps

/-- A step that is no thread's. -/
theorem Owned.env {pool : Pool S P} (owned : Owned Inside Free Held pool) {s' : S}
    (free : Free pool.shared → Free s') (held : ∀ p, Held p pool.shared → Held p s') :
    Owned Inside Free Held { pool with shared := s' } :=
  ⟨owned.exclusive, fun none => free (owned.free none), fun p listed inside => held p (owned.held p listed inside)⟩

/-- A new thread starts outside. -/
theorem Owned.spawn {pool : Pool S P} (owned : Owned Inside Free Held pool) {p : P} (out : ¬Inside p) :
    Owned Inside Free Held { pool with threads := pool.threads ++ [p] } := by
  have old {i : ℕ} {q : P} (there : (pool.threads ++ [p])[i]? = some q) (inside : Inside q) :
      pool.threads[i]? = some q := by
    rcases Nat.lt_or_ge i pool.threads.length with front | back
    · rwa [List.getElem?_append_left front] at there
    · rw [List.getElem?_append_right back] at there
      have new := List.mem_singleton.mp (List.mem_of_getElem? there)
      exact absurd (new ▸ inside) out
  constructor
  · intro i j q r first second insideFirst insideSecond
    exact owned.exclusive i j q r (old first insideFirst) (old second insideSecond) insideFirst insideSecond
  · exact fun none => owned.free fun q listed => none q (List.mem_append_left _ listed)
  · intro q listed inside
    obtain ⟨i, there⟩ := List.getElem?_of_mem listed
    exact owned.held q (List.mem_of_getElem? (old there inside)) inside

end OsuTracker.Machine.Regions
