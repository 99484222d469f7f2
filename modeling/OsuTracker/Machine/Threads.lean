import OsuTracker.Cxx.Outcome

/-! # Threads that run scripts

A thread is a list of actions. Threads interleave action by action over one state; every action
either changes the state and records what it wrote, or throws. A caught exception ends its thread
and leaves the others running, an uncaught one ends everything. The rules below are those of a
parallel composition: what all actions preserve, a run preserves; a fact that one action
establishes and every action keeps holds at the end; and what a run recorded was recorded by some
action of some thread.
-/

namespace OsuTracker.Machine.Threads

open Cxx

variable {A S W E : Type*} (exec : A → S → Except E (List W × S)) (caught : E → Bool)

/-- A complete interleaving, with everything it recorded and the state it leaves. -/
inductive Interleaves : List (List A) → S → List W → Outcome E S → Prop
  | done {threads : List (List A)} {s : S} (finished : ∀ thread ∈ threads, thread = []) :
    Interleaves threads s [] (.done s)
  | step {threads : List (List A)} {s next : S} {i : ℕ} {act : A} {rest : List A} {written log : List W}
    {result : Outcome E S} (here : threads[i]? = some (act :: rest)) (ran : exec act s = .ok (written, next))
    (later : Interleaves (threads.set i rest) next log result) : Interleaves threads s (written ++ log) result
  | stop {threads : List (List A)} {s : S} {i : ℕ} {act : A} {rest : List A} {e : E} {log : List W}
    {result : Outcome E S} (here : threads[i]? = some (act :: rest)) (threw : exec act s = .error e)
    (handled : caught e = true) (later : Interleaves (threads.set i []) s log result) :
    Interleaves threads s log result
  | abort {threads : List (List A)} {s : S} {i : ℕ} {act : A} {rest : List A} {e : E}
    (here : threads[i]? = some (act :: rest)) (threw : exec act s = .error e) (escapes : caught e = false) :
    Interleaves threads s [] (.threw e s)

variable {exec caught}

/-- The actions still to run. -/
def InPool (threads : List (List A)) (act : A) : Prop := ∃ thread ∈ threads, act ∈ thread

theorem inPool_of_getElem? {threads : List (List A)} {i : ℕ} {thread : List A} (here : threads[i]? = some thread)
    {act : A} (member : act ∈ thread) : InPool threads act :=
  ⟨thread, List.mem_of_getElem? here, member⟩

private theorem inPool_set {threads : List (List A)} {i : ℕ} {thread shorter : List A}
    (here : threads[i]? = some thread) (part : ∀ act ∈ shorter, act ∈ thread) {act : A}
    (member : InPool (threads.set i shorter) act) : InPool threads act := by
  obtain ⟨other, inside, mem⟩ := member
  rcases List.mem_or_eq_of_mem_set inside with old | rfl
  · exact ⟨other, old, mem⟩
  · exact inPool_of_getElem? here (part act mem)

/-- Running an action leaves no new one in the pool. -/
theorem inPool_of_step {threads : List (List A)} {i : ℕ} {first : A} {rest : List A}
    (here : threads[i]? = some (first :: rest)) {act : A} (member : InPool (threads.set i rest) act) :
    InPool threads act :=
  inPool_set here (fun _ => List.mem_cons_of_mem _) member

theorem inPool_of_stop {threads : List (List A)} {i : ℕ} {first : A} {rest : List A}
    (here : threads[i]? = some (first :: rest)) {act : A} (member : InPool (threads.set i []) act) :
    InPool threads act :=
  inPool_set here (fun _ empty => by cases empty) member

/-! ## Rules -/

/-- The invariant rule, for actions that record what the run has in its log. -/
theorem Interleaves.preserves_logged {P : S → Prop} {threads : List (List A)} {s : S} {log : List W}
    {result : Outcome E S} (run : Interleaves exec caught threads s log result)
    (step : ∀ act, InPool threads act → ∀ s written next, (∀ w ∈ written, w ∈ log) → P s →
      exec act s = .ok (written, next) → P next) (start : P s) : P result.state := by
  induction run with
  | done finished => exact start
  | step here ran later ih =>
    have kept := step _ (inPool_of_getElem? here List.mem_cons_self) _ _ _ (fun _ => List.mem_append_left _) start ran
    exact ih (fun act member s written next logged => step act (inPool_of_step here member) s written next
      fun w inside => List.mem_append_right _ (logged w inside)) kept
  | stop here threw handled later ih =>
    exact ih (fun act member => step act (inPool_of_stop here member)) start
  | abort here threw escapes => exact start

/-- The invariant rule. -/
theorem Interleaves.preserves {P : S → Prop} {threads : List (List A)} {s : S} {log : List W} {result : Outcome E S}
    (run : Interleaves exec caught threads s log result)
    (step : ∀ act, InPool threads act → ∀ s written next, P s → exec act s = .ok (written, next) → P next)
    (start : P s) : P result.state :=
  run.preserves_logged (fun act inPool s written next _ => step act inPool s written next) start

/-- Everything recorded was recorded by an action that ran. -/
theorem Interleaves.forall_log {P : W → Prop} {threads : List (List A)} {s : S} {log : List W}
    {result : Outcome E S} (run : Interleaves exec caught threads s log result)
    (step : ∀ act, InPool threads act → ∀ s written next, exec act s = .ok (written, next) → ∀ w ∈ written, P w) :
    ∀ w ∈ log, P w := by
  induction run with
  | done finished => intro w member; cases member
  | step here ran later ih =>
    intro w member
    rcases List.mem_append.mp member with now | after
    · exact step _ (inPool_of_getElem? here List.mem_cons_self) _ _ _ ran w now
    · exact ih (fun act inside => step act (inPool_of_step here inside)) w after
  | stop here threw handled later ih => exact ih fun act inside => step act (inPool_of_stop here inside)
  | abort here threw escapes => intro w member; cases member

/-- A part of the state that every action updates by what it records is the replay of the log. -/
theorem Interleaves.replay {T : Type*} (view : S → T) (apply : T → W → T) {threads : List (List A)} {s : S}
    {log : List W} {result : Outcome E S} (run : Interleaves exec caught threads s log result)
    (step : ∀ act s written next, exec act s = .ok (written, next) → view next = written.foldl apply (view s)) :
    view result.state = log.foldl apply (view s) := by
  induction run with
  | done finished => rfl
  | step here ran later ih => rw [ih, step _ _ _ _ ran, List.foldl_append]
  | stop here threw handled later ih => exact ih
  | abort here threw escapes => rfl

/-- A run whose actions throw nothing uncaught finishes. -/
theorem Interleaves.isDone {P : S → Prop} {threads : List (List A)} {s : S} {log : List W} {result : Outcome E S}
    (run : Interleaves exec caught threads s log result)
    (step : ∀ act, InPool threads act → ∀ s written next, P s → exec act s = .ok (written, next) → P next)
    (safe : ∀ act, InPool threads act → ∀ s e, P s → exec act s = .error e → caught e = true) (start : P s) :
    result.isDone = true := by
  induction run with
  | done finished => rfl
  | step here ran later ih =>
    have kept := step _ (inPool_of_getElem? here List.mem_cons_self) _ _ _ start ran
    exact ih (fun act member => step act (inPool_of_step here member))
      (fun act member => safe act (inPool_of_step here member)) kept
  | stop here threw handled later ih =>
    exact ih (fun act member => step act (inPool_of_stop here member))
      (fun act member => safe act (inPool_of_stop here member)) start
  | abort here threw escapes =>
    have handled := safe _ (inPool_of_getElem? here List.mem_cons_self) _ _ start threw
    rw [handled] at escapes
    cases escapes

/-- Facts established in program order: each action of a front part `sure` of one thread runs once
the facts of the actions before it hold, and no action undoes an established fact. -/
private theorem establishes_from {fact : A → S → Prop} {threads : List (List A)} {s : S} {log : List W}
    {result : Outcome E S} (run : Interleaves exec caught threads s log result) (returned : result.isDone = true)
    {i : ℕ} {known : A → Prop} {sure rest : List A} (here : threads[i]? = some (sure ++ rest))
    (held : ∀ act, known act → fact act s)
    (stable : ∀ act, known act ∨ act ∈ sure → ∀ other, InPool threads other → ∀ s written next,
      fact act s → exec other s = .ok (written, next) → fact act next)
    (runs : ∀ before act after, sure = before ++ act :: after → ∀ s, (∀ b, known b ∨ b ∈ before → fact b s) →
      ∃ written next, exec act s = .ok (written, next) ∧ fact act next) :
    ∀ act, known act ∨ act ∈ sure → fact act result.state := by
  induction run generalizing known sure rest with
  | done finished =>
    have empty := finished _ (List.mem_of_getElem? here)
    rintro act (old | new)
    · exact held act old
    · rw [(List.append_eq_nil_iff.mp empty).1] at new
      cases new
  | @step threads s next j first others written log result there ran later ih =>
    have member := inPool_of_getElem? there List.mem_cons_self
    have kept : ∀ act, known act → fact act next := fun act old =>
      stable act (.inl old) first member _ _ _ (held act old) ran
    have keeps : ∀ act, known act ∨ act ∈ sure → ∀ other, InPool (threads.set j others) other →
        ∀ s written next, fact act s → exec other s = .ok (written, next) → fact act next :=
      fun act either other inside => stable act either other (inPool_of_step there inside)
    by_cases own : j = i
    · subst own
      have bound : j < threads.length := (List.getElem?_eq_some_iff.mp there).1
      have script := Option.some.inj (there.symm.trans here)
      have shorter : (threads.set j others)[j]? = some others := by simp [bound]
      cases sure with
      | nil =>
        have remaining : (threads.set j others)[j]? = some ([] ++ others) := shorter
        exact ih returned remaining kept keeps runs
      | cons act sure =>
        obtain ⟨rfl, rfl⟩ := List.cons.inj script
        obtain ⟨written', next', ran', established⟩ := runs [] first sure rfl s fun b either =>
          held b (either.resolve_right List.not_mem_nil)
        obtain ⟨rfl, rfl⟩ := Prod.mk.inj (Except.ok.inj (ran.symm.trans ran'))
        have grown : ∀ act, known act ∨ act = first → fact act next := by
          rintro act (old | rfl)
          · exact kept act old
          · exact established
        have regroup {act : A} {others : List A} :
            (known act ∨ act = first) ∨ act ∈ others ↔ known act ∨ act ∈ first :: others := by
          rw [List.mem_cons, or_assoc]
        have all := ih returned shorter grown (fun act either => keeps act (regroup.mp either)) ?_
        · exact fun act either => all act (regroup.mpr either)
        · rintro before act after rfl s facts
          exact runs (first :: before) act after rfl s fun b either => facts b (regroup.mpr either)
    · exact ih returned ((List.getElem?_set_ne own).trans here) kept keeps runs
  | @stop threads s j first others e log result there threw handled later ih =>
    have keeps : ∀ act, known act ∨ act ∈ sure → ∀ other, InPool (threads.set j []) other →
        ∀ s written next, fact act s → exec other s = .ok (written, next) → fact act next :=
      fun act either other inside => stable act either other (inPool_of_stop there inside)
    by_cases own : j = i
    · subst own
      have bound : j < threads.length := (List.getElem?_eq_some_iff.mp there).1
      have script := Option.some.inj (there.symm.trans here)
      cases sure with
      | nil =>
        have remaining : (threads.set j [])[j]? = some ([] ++ []) := by simp [bound]
        exact ih returned remaining held keeps runs
      | cons act sure =>
        obtain ⟨rfl, rfl⟩ := List.cons.inj script
        obtain ⟨written', next', ran', _⟩ := runs [] first sure rfl s fun b either =>
          held b (either.resolve_right List.not_mem_nil)
        cases threw.symm.trans ran'
    · exact ih returned ((List.getElem?_set_ne own).trans here) held keeps runs
  | abort there threw escapes => cases returned

theorem Interleaves.establishes (fact : A → S → Prop) {threads : List (List A)} {s : S} {log : List W}
    {result : Outcome E S} (run : Interleaves exec caught threads s log result) (returned : result.isDone = true)
    {i : ℕ} {sure rest : List A} (here : threads[i]? = some (sure ++ rest))
    (stable : ∀ act ∈ sure, ∀ other, InPool threads other → ∀ s written next,
      fact act s → exec other s = .ok (written, next) → fact act next)
    (runs : ∀ before act after, sure = before ++ act :: after → ∀ s, (∀ b ∈ before, fact b s) →
      ∃ written next, exec act s = .ok (written, next) ∧ fact act next) :
    ∀ act ∈ sure, fact act result.state := by
  have nothing : ∀ act, False → fact act s := fun _ none => none.elim
  have all := establishes_from run returned here nothing
    (fun act either => stable act (either.resolve_left id))
    (fun before act after split s facts => runs before act after split s fun b member => facts b (.inr member))
  exact fun act member => all act (.inr member)

/-! ## A part of the state that one thread changes -/

section Part

variable {T : Type*} {view : S → T} {apply : T → A → T}

/-- The action leaves the part alone. -/
def Quiet (exec : A → S → Except E (List W × S)) (view : S → T) (act : A) : Prop :=
  ∀ s written next, exec act s = .ok (written, next) → view next = view s

/-- The action returns in every state, and changes the part by itself. -/
def Moves (exec : A → S → Except E (List W × S)) (view : S → T) (apply : T → A → T) (act : A) : Prop :=
  ∀ s, ∃ written next, exec act s = .ok (written, next) ∧ view next = apply (view s) act

private theorem quiet_set {threads : List (List A)} {i j : ℕ} {thread shorter : List A}
    (quiet : ∀ k other, threads[k]? = some other → k ≠ i → ∀ act ∈ other, Quiet exec view act)
    (here : threads[j]? = some thread) (part : ∀ act ∈ shorter, act ∈ thread) :
    ∀ k other, (threads.set j shorter)[k]? = some other → k ≠ i → ∀ act ∈ other, Quiet exec view act := by
  intro k other there apart act member
  by_cases same : j = k
  · subst same
    have bound : j < threads.length := (List.getElem?_eq_some_iff.mp here).1
    rw [List.getElem?_set_self bound] at there
    exact quiet j thread here apart act (part act (Option.some.inj there ▸ member))
  · rw [List.getElem?_set_ne same] at there
    exact quiet k other there apart act member

/-- A part that only the front of one thread changes, by actions that always return, is changed by
them in program order. -/
theorem Interleaves.in_order {threads : List (List A)} {s : S} {log : List W} {result : Outcome E S}
    (run : Interleaves exec caught threads s log result) (returned : result.isDone = true) {i : ℕ} {sure rest : List A}
    (here : threads[i]? = some (sure ++ rest)) (moves : ∀ act ∈ sure, Moves exec view apply act)
    (late : ∀ act ∈ rest, Quiet exec view act)
    (quiet : ∀ j thread, threads[j]? = some thread → j ≠ i → ∀ act ∈ thread, Quiet exec view act) :
    view result.state = sure.foldl apply (view s) := by
  induction run generalizing sure rest with
  | done finished =>
    have empty := finished _ (List.mem_of_getElem? here)
    rw [(List.append_eq_nil_iff.mp empty).1]
    rfl
  | @step threads s next j first others written log result there ran later ih =>
    have remaining := quiet_set quiet there fun act => List.mem_cons_of_mem first
    by_cases own : j = i
    · subst own
      have bound : j < threads.length := (List.getElem?_eq_some_iff.mp there).1
      have script := Option.some.inj (there.symm.trans here)
      have shorter : (threads.set j others)[j]? = some others := List.getElem?_set_self bound
      cases sure with
      | nil =>
        rw [List.nil_append] at script
        subst script
        obtain ⟨firstQuiet, othersQuiet⟩ := List.forall_mem_cons.mp late
        have nothingSure : (threads.set j others)[j]? = some ([] ++ others) := shorter
        rw [ih returned nothingSure nofun othersQuiet remaining]
        exact firstQuiet s written next ran
      | cons act sure =>
        obtain ⟨rfl, rfl⟩ := List.cons.inj script
        obtain ⟨own, others⟩ := List.forall_mem_cons.mp moves
        obtain ⟨written', next', ran', moved⟩ := own s
        obtain ⟨rfl, rfl⟩ := Prod.mk.inj (Except.ok.inj (ran.symm.trans ran'))
        rw [ih returned shorter others late remaining, moved]
        rfl
    · rw [ih returned ((List.getElem?_set_ne own).trans here) moves late remaining]
      rw [quiet j _ there own first List.mem_cons_self s written next ran]
  | @stop threads s j first others e log result there threw handled later ih =>
    have remaining := quiet_set quiet there fun act (none : act ∈ []) => nomatch none
    by_cases own : j = i
    · subst own
      have bound : j < threads.length := (List.getElem?_eq_some_iff.mp there).1
      have script := Option.some.inj (there.symm.trans here)
      cases sure with
      | nil =>
        have nothingLeft : (threads.set j [])[j]? = some ([] ++ []) := List.getElem?_set_self bound
        exact ih returned nothingLeft nofun nofun remaining
      | cons act sure =>
        obtain ⟨rfl, rfl⟩ := List.cons.inj script
        obtain ⟨written, next, ran, _⟩ := moves first List.mem_cons_self s
        cases threw.symm.trans ran
    · exact ih returned ((List.getElem?_set_ne own).trans here) moves late remaining
  | abort there threw escapes => cases returned

end Part

/-! ## Running the threads in order -/

variable (exec caught)

/-- One script alone, up to the first exception. -/
def run : List A → S → List W × Outcome E S
  | [], s => ([], .done s)
  | act :: rest, s =>
    match exec act s with
    | .ok (written, next) => (written ++ (run rest next).1, (run rest next).2)
    | .error e => ([], .threw e s)

/-- The schedule that finishes each thread before the next one starts. -/
def runThreads : List (List A) → S → List W × Outcome E S
  | [], s => ([], .done s)
  | thread :: rest, s =>
    match run exec thread s with
    | (log, .done next) => (log ++ (runThreads rest next).1, (runThreads rest next).2)
    | (log, .threw e next) =>
      if caught e then (log ++ (runThreads rest next).1, (runThreads rest next).2) else (log, .threw e next)

variable {exec caught}

theorem run_cons_ok {act : A} {s next : S} {written : List W} (ran : exec act s = .ok (written, next))
    (rest : List A) :
    run exec (act :: rest) s = (written ++ (run exec rest next).1, (run exec rest next).2) := by
  simp only [run, ran]

theorem run_cons_error {act : A} {s : S} {e : E} (threw : exec act s = .error e) (rest : List A) :
    run exec (act :: rest) s = ([], .threw e s) := by
  simp only [run, threw]

/-- A front part that returns is followed by the rest. -/
theorem run_append {front : List A} {s next : S} {log : List W} (returned : run exec front s = (log, .done next))
    (back : List A) :
    run exec (front ++ back) s = (log ++ (run exec back next).1, (run exec back next).2) := by
  induction front generalizing s log with
  | nil =>
    obtain ⟨rfl, same⟩ := Prod.mk.inj returned
    cases same
    rfl
  | cons act rest ih =>
    cases ran : exec act s with
    | error e =>
      rw [run_cons_error ran] at returned
      cases (Prod.mk.inj returned).2
    | ok effect =>
      rw [run_cons_ok ran] at returned
      obtain ⟨rfl, ended⟩ := Prod.mk.inj returned
      rw [List.cons_append, run_cons_ok ran, ih (Prod.ext rfl ended), List.append_assoc]

/-- A script that throws has run everything before the action that threw. -/
theorem run_eq_threw {acts : List A} {s next : S} {log : List W} {e : E}
    (threw : run exec acts s = (log, .threw e next)) :
    ∃ before act after, acts = before ++ act :: after ∧ run exec before s = (log, .done next) ∧
      exec act next = .error e := by
  induction acts generalizing s log with
  | nil => cases (Prod.mk.inj threw).2
  | cons act rest ih =>
    cases ran : exec act s with
    | error own =>
      rw [run_cons_error ran] at threw
      obtain ⟨rfl, ended⟩ := Prod.mk.inj threw
      cases ended
      exact ⟨[], act, rest, rfl, rfl, ran⟩
    | ok effect =>
      rw [run_cons_ok ran] at threw
      obtain ⟨rfl, ended⟩ := Prod.mk.inj threw
      obtain ⟨before, failed, after, rfl, ranBefore, failure⟩ := ih (Prod.ext rfl ended)
      exact ⟨act :: before, failed, after, rfl, by rw [run_cons_ok ran, ranBefore], failure⟩

/-- A script that returns has run all its actions. -/
theorem ran_of_run {acts : List A} {s next : S} {log : List W} (returned : run exec acts s = (log, .done next)) {act : A}
    (member : act ∈ acts) : ∃ at_ written after, exec act at_ = .ok (written, after) ∧ ∀ w ∈ written, w ∈ log := by
  induction acts generalizing s log with
  | nil => cases member
  | cons first rest ih =>
    cases ran : exec first s with
    | error e =>
      rw [run_cons_error ran] at returned
      cases (Prod.mk.inj returned).2
    | ok effect =>
      rw [run_cons_ok ran] at returned
      obtain ⟨rfl, ended⟩ := Prod.mk.inj returned
      rcases List.mem_cons.mp member with rfl | inside
      · exact ⟨s, effect.1, effect.2, ran, fun w => List.mem_append_left _⟩
      · obtain ⟨at_, written, after, here, logged⟩ := ih (Prod.ext rfl ended) inside
        exact ⟨at_, written, after, here, fun w mem => List.mem_append_right _ (logged w mem)⟩

/-- The same for a script alone, which an exception may end. -/
theorem run_in_order {T : Type*} {view : S → T} {apply : T → A → T} {sure rest : List A}
    (moves : ∀ act ∈ sure, Moves exec view apply act) (late : ∀ act ∈ rest, Quiet exec view act) (s : S) :
    view (run exec (sure ++ rest) s).2.state = sure.foldl apply (view s) := by
  induction sure generalizing s with
  | cons act sure ih =>
    obtain ⟨own, others⟩ := List.forall_mem_cons.mp moves
    obtain ⟨written, next, ran, moved⟩ := own s
    rw [List.cons_append, run_cons_ok ran, List.foldl_cons, ← moved]
    exact ih others next
  | nil =>
    clear moves
    induction rest generalizing s with
    | nil => rfl
    | cons act rest ih =>
      obtain ⟨own, others⟩ := List.forall_mem_cons.mp late
      rw [List.nil_append]
      cases ran : exec act s with
      | error e => rw [run_cons_error ran]; rfl
      | ok effect =>
        rw [run_cons_ok ran]
        exact (ih others effect.2).trans (own s effect.1 effect.2 ran)

private theorem interleaves_from (before : ℕ) (thread : List A) (rest : List (List A)) (s : S)
    (later : ∀ s, Interleaves exec caught (List.replicate (before + 1) [] ++ rest) s (runThreads exec caught rest s).1
      (runThreads exec caught rest s).2) :
    Interleaves exec caught (List.replicate before [] ++ thread :: rest) s
      (runThreads exec caught (thread :: rest) s).1 (runThreads exec caught (thread :: rest) s).2 := by
  have finished : List.replicate before [] ++ [] :: rest = List.replicate (before + 1) ([] : List A) ++ rest := by
    rw [List.replicate_succ', List.append_assoc, List.singleton_append]
  induction thread generalizing s with
  | nil =>
    rw [finished]
    exact later s
  | cons act acts ih =>
    have here : (List.replicate before [] ++ (act :: acts) :: rest)[before]? = some (act :: acts) := by simp
    have sets (shorter : List A) : (List.replicate before [] ++ (act :: acts) :: rest).set before shorter =
        List.replicate before [] ++ shorter :: rest := by simp
    cases ran : exec act s with
    | ok effect =>
      have next := ih effect.2
      rw [← sets acts] at next
      have whole := Interleaves.step here ran next
      have same : runThreads exec caught ((act :: acts) :: rest) s =
          (effect.1 ++ (runThreads exec caught (acts :: rest) effect.2).1,
            (runThreads exec caught (acts :: rest) effect.2).2) := by
        simp only [runThreads, run_cons_ok ran]
        cases run exec acts effect.2 with
        | mk log result =>
          cases result with
          | done next => simp only [List.append_assoc]
          | threw e next => by_cases handled : caught e = true <;> simp [handled]
      rw [same]
      exact whole
    | error e =>
      have same : runThreads exec caught ((act :: acts) :: rest) s =
          if caught e then runThreads exec caught rest s else ([], .threw e s) := by
        simp only [runThreads, run_cons_error ran, List.nil_append]
      rw [same]
      by_cases handled : caught e = true
      · rw [if_pos handled]
        refine .stop here ran handled ?_
        rw [sets, finished]
        exact later s
      · rw [if_neg handled]
        exact .abort here ran (by simpa using handled)

/-- That schedule is one of the interleavings, so every pool has a complete one. -/
theorem interleaves_runThreads (threads : List (List A)) (s : S) :
    Interleaves exec caught threads s (runThreads exec caught threads s).1 (runThreads exec caught threads s).2 := by
  have all (before : ℕ) (s : S) : Interleaves exec caught (List.replicate before [] ++ threads) s
      (runThreads exec caught threads s).1 (runThreads exec caught threads s).2 := by
    induction threads generalizing before s with
    | nil =>
      refine .done fun thread member => ?_
      rw [List.append_nil] at member
      exact List.eq_of_mem_replicate member
    | cons thread rest ih => exact interleaves_from before thread rest s fun s => ih (before + 1) s
  exact all 0 s

/-- A script alone is a pool of one thread whose exceptions nothing handles. -/
theorem interleaves_run (acts : List A) (s : S) :
    Interleaves exec (fun _ => false) [acts] s (run exec acts s).1 (run exec acts s).2 := by
  have alone : runThreads exec (fun _ => false) [acts] s = run exec acts s := by
    simp only [runThreads]
    cases run exec acts s with
    | mk log result => cases result <;> simp
  exact alone ▸ interleaves_runThreads [acts] s

end OsuTracker.Machine.Threads
