import Mathlib.Data.List.Basic

/-! # Calls that return or throw

A call leaves a state behind whether it returns or throws: an exception unwinds the stack, not the
assignments already made. `andThen` sequences two calls, `each` is a loop over a list that an
exception leaves early. A loop that throws has applied exactly a prefix of its items.
-/

namespace OsuTracker.Cxx

/-- The ways a call fails. A failed assertion (or an access outside its precondition) is listed
with the exceptions, but no handler catches it. -/
inductive Exception where
  | invalidArgument (what : String)
  | outOfRange (what : String)
  | lengthError (what : String)
  | json (id : ℕ)
  | assertion
deriving DecidableEq, Repr

def Exception.isCaught : Exception → Bool
  | .assertion => false
  | _ => true

theorem map_eq_ok {ε α β : Type*} {f : α → β} {x : Except ε α} {b : β} (mapped : x.map f = .ok b) :
    ∃ a, x = .ok a ∧ f a = b := by
  cases x with
  | ok a => exact ⟨a, rfl, Except.ok.inj mapped⟩
  | error e => cases mapped

theorem bind_eq_ok {ε α β : Type*} {f : α → Except ε β} {x : Except ε α} {b : β} :
    x.bind f = .ok b ↔ ∃ a, x = .ok a ∧ f a = .ok b := by
  cases x with
  | ok a => exact ⟨fun bound => ⟨a, rfl, bound⟩, fun ⟨_, same, bound⟩ => by cases same; exact bound⟩
  | error e => exact ⟨nofun, fun ⟨_, same, _⟩ => by cases same⟩

theorem bind_eq_error {ε α β : Type*} {f : α → Except ε β} {x : Except ε α} {e : ε} (failed : x.bind f = .error e) :
    x = .error e ∨ ∃ a, x = .ok a ∧ f a = .error e := by
  cases x with
  | ok a => exact .inr ⟨a, rfl, failed⟩
  | error own => cases failed; exact .inl rfl

/-- What every step of a fold keeps, a fold that returns keeps. -/
theorem foldlM_preserves {ε α β : Type*} {step : β → α → Except ε β} {P : β → Prop} {items : List α} {start final : β}
    (keeps : ∀ state item next, P state → step state item = .ok next → P next) (holds : P start)
    (folded : items.foldlM step start = .ok final) : P final := by
  induction items generalizing start with
  | nil => exact Except.ok.inj folded ▸ holds
  | cons item rest ih =>
    rw [List.foldlM_cons] at folded
    obtain ⟨next, first, others⟩ := bind_eq_ok.mp folded
    exact ih (keeps start item next holds first) others

/-- A call that returned, or one that threw, with the state it left. -/
inductive Outcome (ε σ : Type*) where
  | done (state : σ)
  | threw (error : ε) (state : σ)
deriving DecidableEq, Repr

namespace Outcome

variable {ε σ α : Type*}

@[simp] def state : Outcome ε σ → σ
  | .done s => s
  | .threw _ s => s

@[simp] def isDone : Outcome ε σ → Bool
  | .done _ => true
  | .threw _ _ => false

theorem eq_done_of_isDone {outcome : Outcome ε σ} (returned : outcome.isDone = true) :
    outcome = .done outcome.state := by
  cases outcome with
  | done s => rfl
  | threw e s => cases returned

/-- The same outcome in a view of the state. -/
@[simp] def map {τ : Type*} (view : σ → τ) : Outcome ε σ → Outcome ε τ
  | .done s => .done (view s)
  | .threw e s => .threw e (view s)

/-- Sequencing: the second call runs only if the first returned. -/
@[simp] def andThen (first : Outcome ε σ) (next : σ → Outcome ε σ) : Outcome ε σ :=
  match first with
  | .done s => next s
  | .threw e s => .threw e s

theorem andThen_done (s : σ) (next : σ → Outcome ε σ) : (done s).andThen next = next s := rfl

/-- A computation without effects, run in a state it does not change when it throws. -/
def ofExcept (s : σ) : Except ε σ → Outcome ε σ
  | .ok s' => .done s'
  | .error e => .threw e s

@[simp] theorem ofExcept_ok (s s' : σ) : ofExcept (ε := ε) s (.ok s') = .done s' := rfl

@[simp] theorem ofExcept_error (s : σ) (e : ε) : ofExcept s (.error e) = .threw e s := rfl

theorem ofExcept_eq_done {s s' : σ} {r : Except ε σ} : ofExcept s r = .done s' ↔ r = .ok s' := by
  cases r <;> simp

theorem ofExcept_eq_threw {s s' : σ} {e : ε} {r : Except ε σ} :
    ofExcept s r = .threw e s' ↔ r = .error e ∧ s = s' := by
  cases r <;> simp

theorem map_andThen {τ : Type*} {view : σ → τ} (first : Outcome ε σ) {next : σ → Outcome ε σ} {next' : τ → Outcome ε τ}
    (follows : ∀ s, next' (view s) = (next s).map view) :
    (first.map view).andThen next' = (first.andThen next).map view := by
  cases first with
  | done s => exact follows s
  | threw e s => rfl

theorem andThen_eq_done {first : Outcome ε σ} {next : σ → Outcome ε σ} {s' : σ} :
    first.andThen next = .done s' ↔ ∃ s, first = .done s ∧ next s = .done s' := by
  cases first <;> simp

theorem andThen_eq_threw {first : Outcome ε σ} {next : σ → Outcome ε σ} {e : ε} {s' : σ} :
    first.andThen next = .threw e s' ↔
      first = .threw e s' ∨ ∃ s, first = .done s ∧ next s = .threw e s' := by
  cases first <;> simp

theorem andThen_assoc (first : Outcome ε σ) (second third : σ → Outcome ε σ) :
    (first.andThen second).andThen third = first.andThen fun s => (second s).andThen third := by
  cases first <;> rfl

/-- A property kept by both halves holds of whatever state the sequence leaves. -/
theorem andThen_state {first : Outcome ε σ} {next : σ → Outcome ε σ} {P : σ → Prop}
    (kept : P first.state) (step : ∀ s, P s → P (next s).state) : P (first.andThen next).state := by
  cases first with
  | done s => exact step s kept
  | threw e s => exact kept

/-- A loop over `items`, left early when its body throws. -/
def each (body : α → σ → Outcome ε σ) : List α → σ → Outcome ε σ
  | [], s => .done s
  | item :: rest, s => (body item s).andThen (each body rest)

@[simp] theorem each_nil (body : α → σ → Outcome ε σ) (s : σ) : each body [] s = .done s := rfl

theorem each_cons (body : α → σ → Outcome ε σ) (item : α) (rest : List α) (s : σ) :
    each body (item :: rest) s = (body item s).andThen (each body rest) := rfl

theorem each_append (body : α → σ → Outcome ε σ) (first second : List α) (s : σ) :
    each body (first ++ second) s = (each body first s).andThen (each body second) := by
  induction first generalizing s with
  | nil => rfl
  | cons item rest ih =>
    simp only [List.cons_append, each_cons]
    cases body item s with
    | done next => exact ih next
    | threw e next => rfl

theorem each_map {β : Type*} (body : α → σ → Outcome ε σ) (f : β → α) (items : List β) (s : σ) :
    each body (items.map f) s = each (fun item => body (f item)) items s := by
  induction items generalizing s with
  | nil => rfl
  | cons item rest ih =>
    rw [List.map_cons, each_cons, each_cons]
    congr 1
    funext next
    exact ih next

/-- What one pass of the body preserves, throwing or not, the loop preserves. -/
theorem each_preserves {body : α → σ → Outcome ε σ} {P : σ → Prop} {items : List α} {s : σ}
    (step : ∀ item ∈ items, ∀ s, P s → P (body item s).state) (start : P s) :
    P (each body items s).state := by
  induction items generalizing s with
  | nil => exact start
  | cons item rest ih =>
    have tail : ∀ other ∈ rest, ∀ s, P s → P (body other s).state :=
      fun other member => step other (List.mem_cons_of_mem _ member)
    exact andThen_state (step item List.mem_cons_self s start) (fun next kept => ih tail kept)

/-- A loop that throws has applied exactly the items before the one that threw. -/
theorem each_eq_threw {body : α → σ → Outcome ε σ} {items : List α} {s s' : σ} {e : ε} :
    each body items s = .threw e s' ↔
      ∃ before item after middle, items = before ++ item :: after ∧
        each body before s = .done middle ∧ body item middle = .threw e s' := by
  constructor
  · intro thrown
    induction items generalizing s with
    | nil => simp at thrown
    | cons head rest ih =>
      rcases andThen_eq_threw.mp thrown with now | ⟨next, returned, later⟩
      · exact ⟨[], head, rest, s, rfl, rfl, now⟩
      · obtain ⟨before, item, after, middle, rfl, applied, failed⟩ := ih later
        refine ⟨head :: before, item, after, middle, rfl, ?_, failed⟩
        rw [each_cons, returned]
        exact applied
  · rintro ⟨before, item, after, middle, rfl, applied, failed⟩
    simp only [each_append, applied, andThen, each_cons, failed]

/-- A loop whose body changes nothing changes nothing. -/
theorem each_eq_self {body : α → σ → Outcome ε σ} {items : List α} {s : σ}
    (idle : ∀ item ∈ items, body item s = .done s) : each body items s = .done s := by
  induction items with
  | nil => rfl
  | cons item rest ih =>
    obtain ⟨own, others⟩ := List.forall_mem_cons.mp idle
    rw [each_cons, own]
    exact ih others

/-- A loop whose body always returns is the corresponding fold. -/
theorem each_eq_foldl {body : α → σ → Outcome ε σ} (step : σ → α → σ) {items : List α}
    (returns : ∀ item ∈ items, ∀ s, body item s = .done (step s item)) (s : σ) :
    each body items s = .done (items.foldl step s) := by
  induction items generalizing s with
  | nil => rfl
  | cons item rest ih =>
    simp only [each_cons, returns item List.mem_cons_self s, andThen, List.foldl_cons]
    exact ih (fun other member => returns other (List.mem_cons_of_mem _ member)) _

end Outcome

end OsuTracker.Cxx
