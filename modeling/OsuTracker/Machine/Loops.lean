import Mathlib.Logic.Relation
import Mathlib.Tactic.Common

/-! # Loops

A loop is given by its body, which goes on to the next state or stops. What the body keeps holds in
every state that the loop passes; what it relates, by a relation that is reflexive and transitive,
is related over the whole run. A body that makes a measure smaller stops, and a function that makes
the iterations with more fuel than that returns what is left where it stops.
-/

namespace OsuTracker.Machine.Loops

variable {σ : Type*} (body : σ → Option σ)

/-- The loop passes from one state to the other. -/
def Reaches : σ → σ → Prop := Relation.ReflTransGen fun s t => body s = some t

/-- The loop stops in the other state. -/
def EndsIn (s t : σ) : Prop := Reaches body s t ∧ body t = none

variable {body} {P : σ → Prop}

theorem Reaches.keeps (step : ∀ s t, P s → body s = some t → P t) {s t : σ} (start : P s)
    (reaches : Reaches body s t) : P t := by
  induction reaches with
  | refl => exact start
  | tail _ moved ih => exact step _ _ ih moved

/-- What every iteration relates, under an invariant. -/
theorem Reaches.relates (R : σ → σ → Prop) (refl : ∀ s, R s s) (trans : ∀ s t u, R s t → R t u → R s u)
    (keeps : ∀ s t, P s → body s = some t → P t) (step : ∀ s t, P s → body s = some t → R s t) {s t : σ}
    (start : P s) (reaches : Reaches body s t) : R s t := by
  induction reaches with
  | refl => exact refl s
  | tail before moved ih => exact trans _ _ _ ih (step _ _ (Reaches.keeps keeps start before) moved)

/-- The iterations made with enough fuel. -/
theorem exists_endsIn {β : Type*} (run : ℕ → σ → β) (value : σ → β) (measure : σ → ℕ)
    (keeps : ∀ s t, P s → body s = some t → P t) (shrinks : ∀ s t, P s → body s = some t → measure t < measure s)
    (stop : ∀ fuel s, body s = none → run (fuel + 1) s = value s)
    (next : ∀ fuel s t, body s = some t → run (fuel + 1) s = run fuel t) {s : σ} (start : P s) {fuel : ℕ}
    (enough : measure s < fuel) : ∃ t, EndsIn body s t ∧ run fuel s = value t := by
  induction fuel generalizing s with
  | zero => exact absurd enough (Nat.not_lt_zero _)
  | succ fuel ih =>
    cases moved : body s with
    | none => exact ⟨s, ⟨.refl, moved⟩, stop fuel s moved⟩
    | some t =>
      have left : measure t < fuel := Nat.lt_of_lt_of_le (shrinks s t start moved) (Nat.lt_succ_iff.mp enough)
      obtain ⟨u, ⟨reaches, stops⟩, same⟩ := ih (keeps s t start moved) left
      exact ⟨u, ⟨.head moved reaches, stops⟩, (next fuel s t moved).trans same⟩

theorem exists_end (measure : σ → ℕ) (keeps : ∀ s t, P s → body s = some t → P t)
    (shrinks : ∀ s t, P s → body s = some t → measure t < measure s) {s : σ} (start : P s) :
    ∃ t, EndsIn body s t := by
  obtain ⟨t, ends, -⟩ := exists_endsIn (fun _ _ => ()) (fun _ => ()) measure keeps shrinks (fun _ _ _ => rfl)
    (fun _ _ _ _ => rfl) start (Nat.lt_succ_self (measure s))
  exact ⟨t, ends⟩

end OsuTracker.Machine.Loops
