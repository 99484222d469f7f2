import Mathlib.Data.List.Basic
import Mathlib.Tactic.Common

/-! # Matched brackets

In a list of items some open a block and some close one. A parser that keeps the positions of the
blocks that are still open on a stack, and completes the opening item when it meets the closing
one, builds the flattening of a forest, in which every bracket is at the position that was recorded
for it. The forest can be read back from the recorded positions.
-/

namespace OsuTracker.Machine.Brackets

variable {A : Type*}

inductive Forest (A : Type*) where
  | nil
  | leaf (item : A) (rest : Forest A)
  | block (opening : A) (inner : Forest A) (closing : A) (rest : Forest A)

namespace Forest

def flatten : Forest A → List A
  | nil => []
  | leaf item rest => item :: rest.flatten
  | block opening inner closing rest => opening :: (inner.flatten ++ closing :: rest.flatten)

/-- How many items. -/
def size : Forest A → ℕ
  | nil => 0
  | leaf _ rest => rest.size + 1
  | block _ inner _ rest => inner.size + rest.size + 2

@[simp] theorem length_flatten (f : Forest A) : f.flatten.length = f.size := by
  induction f with
  | nil => rfl
  | leaf item rest ih => rw [flatten, List.length_cons, ih, size]
  | block opening inner closing rest ihInner ih =>
    rw [flatten, List.length_cons, List.length_append, List.length_cons, ihInner, ih, size]
    omega

def append : Forest A → Forest A → Forest A
  | nil, g => g
  | leaf item rest, g => leaf item (rest.append g)
  | block opening inner closing rest, g => block opening inner closing (rest.append g)

@[simp] theorem flatten_append (f g : Forest A) : (f.append g).flatten = f.flatten ++ g.flatten := by
  induction f with
  | nil => rfl
  | leaf item rest ih => rw [append, flatten, ih, flatten, List.cons_append]
  | block opening inner closing rest _ ih =>
    rw [append, flatten, ih, flatten, List.cons_append, List.append_assoc, List.cons_append]

/-! ## Positions -/

/-- The items from a position on are those of the forest. -/
def At (items : List A) : ℕ → Forest A → Prop
  | _, nil => True
  | o, leaf item rest => items[o]? = some item ∧ rest.At items (o + 1)
  | o, block opening inner closing rest => items[o]? = some opening ∧ inner.At items (o + 1) ∧
    items[o + 1 + inner.size]? = some closing ∧ rest.At items (o + inner.size + 2)

theorem at_flatten (f : Forest A) (before after : List A) : f.At (before ++ (f.flatten ++ after)) before.length := by
  induction f generalizing before after with
  | nil => trivial
  | leaf item rest ih =>
    refine ⟨by simp [flatten], ?_⟩
    have later := ih (before ++ [item]) after
    rwa [List.append_assoc, List.length_append, List.length_singleton] at later
  | block opening inner closing rest ihInner ih =>
    have shape : before ++ ((block opening inner closing rest).flatten ++ after) =
        (before ++ [opening]) ++ (inner.flatten ++ (closing :: rest.flatten ++ after)) := by simp [flatten]
    have also : before ++ ((block opening inner closing rest).flatten ++ after) =
        (before ++ opening :: (inner.flatten ++ [closing])) ++ (rest.flatten ++ after) := by simp [flatten]
    refine ⟨by simp [flatten], ?_, ?_, ?_⟩
    · have inside := ihInner (before ++ [opening]) (closing :: rest.flatten ++ after)
      rwa [← shape, List.length_append, List.length_singleton] at inside
    · have front : ((before ++ [opening]) ++ inner.flatten).length = before.length + 1 + inner.size := by
        simp only [List.length_append, List.length_cons, List.length_nil, length_flatten]
      rw [shape, ← List.append_assoc, ← front, List.cons_append, List.getElem?_append_right (Nat.le_refl _),
        Nat.sub_self]
      rfl
    · have later := ih (before ++ opening :: (inner.flatten ++ [closing])) after
      rw [← also] at later
      have front : (before ++ opening :: (inner.flatten ++ [closing])).length = before.length + inner.size + 2 := by
        simp only [List.length_append, List.length_cons, length_flatten, List.length_nil]
        omega
      rwa [front] at later

section Linked

variable (Plain : A → Prop) (Pair : ℕ → A → ℕ → A → Prop)

/-- Brackets and the positions recorded for them. -/
def Linked : ℕ → Forest A → Prop
  | _, nil => True
  | o, leaf item rest => Plain item ∧ rest.Linked (o + 1)
  | o, block opening inner closing rest => Pair o opening (o + 1 + inner.size) closing ∧ inner.Linked (o + 1) ∧
    rest.Linked (o + inner.size + 2)

variable {Plain Pair}

theorem Linked.append {o : ℕ} {f g : Forest A} (first : f.Linked Plain Pair o)
    (second : g.Linked Plain Pair (o + f.size)) : (f.append g).Linked Plain Pair o := by
  induction f generalizing o with
  | nil => exact second
  | leaf item rest ih =>
    refine ⟨first.1, ih first.2 ?_⟩
    rwa [Nat.add_assoc, Nat.add_comm 1]
  | block opening inner closing rest _ ih =>
    obtain ⟨pair, inside, later⟩ := first
    refine ⟨pair, inside, ih later ?_⟩
    have same : o + inner.size + 2 + rest.size = o + (block opening inner closing rest).size := by
      rw [size]
      omega
    rwa [same]

omit Plain Pair in
theorem forall₂_append {B : Type*} {R : A → B → Prop} {first second : List A} {items : List B}
    (related : List.Forall₂ R (first ++ second) items) :
    ∃ front back, items = front ++ back ∧ List.Forall₂ R first front ∧ List.Forall₂ R second back := by
  induction first generalizing items with
  | nil => exact ⟨[], items, rfl, .nil, related⟩
  | cons a first ih =>
    cases related with
    | cons own later =>
      obtain ⟨front, back, rfl, one, two⟩ := ih later
      exact ⟨_ :: front, back, rfl, .cons own one, two⟩

/-- Items put for the items, one by one, with brackets for brackets. -/
theorem Linked.transfer {B : Type*} {R : A → B → Prop} {Plain' : B → Prop} {Pair' : ℕ → B → ℕ → B → Prop}
    (plain : ∀ a b, R a b → Plain a → Plain' b)
    (pair : ∀ o a p c b d, R a b → R c d → Pair o a p c → Pair' o b p d) {f : Forest A} {o : ℕ}
    (linked : f.Linked Plain Pair o) {items : List B} (related : List.Forall₂ R f.flatten items) :
    ∃ g : Forest B, g.flatten = items ∧ g.size = f.size ∧ g.Linked Plain' Pair' o := by
  induction f generalizing o items with
  | nil =>
    cases related
    exact ⟨nil, rfl, rfl, trivial⟩
  | leaf item rest ih =>
    cases related with
    | @cons _ b _ _ first later =>
      obtain ⟨g, flat, same, own⟩ := ih linked.2 later
      exact ⟨leaf b g, congrArg _ flat, congrArg (· + 1) same, plain _ _ first linked.1, own⟩
  | block opening inner closing rest ihInner ih =>
    obtain ⟨paired, inside, after⟩ := linked
    cases related with
    | @cons _ b _ _ first later =>
      obtain ⟨innerItems, others, rfl, within, behind⟩ := forall₂_append later
      cases behind with
      | @cons _ d _ _ last behind =>
        obtain ⟨g, flat, same, own⟩ := ihInner inside within
        obtain ⟨g', flat', same', own'⟩ := ih after behind
        refine ⟨block b g d g', ?_, ?_, ?_⟩
        · rw [flatten, flat, flat']
        · rw [size, size, same, same']
        · refine ⟨?_, own, ?_⟩
          · rw [same]
            exact pair _ _ _ _ _ _ first last paired
          · rwa [same]

end Linked

/-! ## Reading the forest back -/

section Reading

variable (opens : A → Bool) (partner : A → ℕ)

/-- The forest of the items between two positions; the distance is enough fuel. -/
def read (items : List A) : ℕ → ℕ → ℕ → Forest A
  | 0, _, _ => nil
  | fuel + 1, o, stop =>
    if o < stop then
      match items[o]? with
      | none => nil
      | some item =>
        if opens item then
          match items[partner item]? with
          | none => nil
          | some closing =>
            block item (read items fuel (o + 1) (partner item)) closing (read items fuel (partner item + 1) stop)
        else leaf item (read items fuel (o + 1) stop)
    else nil

variable {opens partner} {Plain : A → Prop} {Pair : ℕ → A → ℕ → A → Prop}

theorem read_eq (plain : ∀ item, Plain item → opens item = false)
    (pair : ∀ o opening p closing, Pair o opening p closing → opens opening = true ∧ partner opening = p)
    {items : List A} {f : Forest A} {o fuel : ℕ} (linked : f.Linked Plain Pair o) (located : f.At items o)
    (enough : f.size ≤ fuel) : read opens partner items fuel o (o + f.size) = f := by
  induction f generalizing o fuel with
  | nil => cases fuel <;> simp [read, size]
  | leaf item rest ih =>
    obtain ⟨fuel, rfl⟩ : ∃ less, fuel = less + 1 := ⟨fuel - 1, by rw [size] at enough; omega⟩
    have later : read opens partner items fuel (o + 1) (o + 1 + rest.size) = rest :=
      ih linked.2 located.2 (Nat.le_of_succ_le_succ enough)
    have same : o + (leaf item rest).size = o + 1 + rest.size := by
      rw [size]
      omega
    rw [same, read, if_pos (by omega), located.1]
    simp only [plain item linked.1, Bool.false_eq_true, ↓reduceIte, later]
  | block opening inner closing rest ihInner ih =>
    obtain ⟨fuel, rfl⟩ : ∃ less, fuel = less + 1 := ⟨fuel - 1, by rw [size] at enough; omega⟩
    obtain ⟨paired, inside, after⟩ := linked
    obtain ⟨here, within, there, behind⟩ := located
    obtain ⟨opened, recorded⟩ := pair _ _ _ _ paired
    rw [size] at enough
    have innerRead := ihInner inside within (by omega : inner.size ≤ fuel)
    have restRead := ih after behind (by omega : rest.size ≤ fuel)
    have same : o + (block opening inner closing rest).size = o + inner.size + 2 + rest.size := by
      rw [size]
      omega
    have next : o + 1 + inner.size + 1 = o + inner.size + 2 := by omega
    rw [same, read, if_pos (by omega), here]
    simp only [opened, ↓reduceIte, recorded, there, innerRead, next, restRead]

end Reading

end Forest

/-! ## Matching with a stack -/

section Stack

variable (Plain Opens : A → Prop) (Pair : ℕ → A → ℕ → A → Prop)

/-- What has been read, with the positions of the open blocks, the innermost one first. -/
inductive Stacked : List A → List ℕ → Prop
  | base {f : Forest A} (linked : f.Linked Plain Pair 0) : Stacked f.flatten []
  | frame {items : List A} {positions : List ℕ} {opening : A} {f : Forest A} (below : Stacked items positions)
    (opens : Opens opening) (linked : f.Linked Plain Pair (items.length + 1)) :
    Stacked (items ++ opening :: f.flatten) (items.length :: positions)

variable {Plain Opens Pair} {items : List A} {positions : List ℕ}

/-- More of the innermost block. -/
private theorem Stacked.extend (stacked : Stacked Plain Opens Pair items positions) {g : Forest A}
    (linked : g.Linked Plain Pair items.length) : Stacked Plain Opens Pair (items ++ g.flatten) positions := by
  cases stacked with
  | @base f own =>
    rw [← Forest.flatten_append]
    rw [Forest.length_flatten] at linked
    exact .base (own.append (by rwa [Nat.zero_add]))
  | @frame items positions opening f below opens own =>
    have longer : items ++ opening :: f.flatten ++ g.flatten = items ++ opening :: (f.append g).flatten := by simp
    rw [longer]
    refine .frame below opens (own.append ?_)
    have front : (items ++ opening :: f.flatten).length = items.length + 1 + f.size := by
      simp only [List.length_append, List.length_cons, Forest.length_flatten]
      omega
    rwa [front] at linked

theorem Stacked.leaf (stacked : Stacked Plain Opens Pair items positions) {item : A} (plain : Plain item) :
    Stacked Plain Opens Pair (items ++ [item]) positions :=
  stacked.extend (g := .leaf item .nil) ⟨plain, trivial⟩

theorem Stacked.opening (stacked : Stacked Plain Opens Pair items positions) {item : A} (opens : Opens item) :
    Stacked Plain Opens Pair (items ++ [item]) (items.length :: positions) :=
  .frame (f := .nil) stacked opens trivial

/-- The item of the innermost open block. -/
theorem Stacked.top {p : ℕ} (stacked : Stacked Plain Opens Pair items (p :: positions)) :
    ∃ opening, items[p]? = some opening ∧ Opens opening := by
  cases stacked with
  | @frame items _ opening f below opens linked => exact ⟨opening, by simp, opens⟩

/-- The innermost open block is completed. -/
theorem Stacked.closing {p : ℕ} (stacked : Stacked Plain Opens Pair items (p :: positions)) {opening closing : A}
    (pair : Pair p opening items.length closing) :
    Stacked Plain Opens Pair (items.set p opening ++ [closing]) positions := by
  cases stacked with
  | @frame items _ old f below opens linked =>
    have front : (items ++ old :: f.flatten).length = items.length + 1 + f.size := by
      simp only [List.length_append, List.length_cons, Forest.length_flatten]
      omega
    have shape : (items ++ old :: f.flatten).set items.length opening ++ [closing] =
        items ++ (Forest.block opening f closing .nil).flatten := by
      simp [Forest.flatten]
    rw [front] at pair
    rw [shape]
    exact below.extend ⟨pair, linked, trivial⟩

theorem Stacked.forest (stacked : Stacked Plain Opens Pair items []) :
    ∃ f : Forest A, f.flatten = items ∧ f.Linked Plain Pair 0 := by
  cases stacked with
  | base linked => exact ⟨_, rfl, linked⟩

end Stack

end OsuTracker.Machine.Brackets
