import Mathlib.Data.List.Infix
import Mathlib.Tactic.Common

/-! # Putting values for names

A text is searched for several names from left to right, and every name found is replaced by its
value, all at once. One can also go over the text once for each name. When no name starts inside
another, the passes put in what the simultaneous substitution does, for as long as each of them
finds its name only where the text had it from the beginning.
-/

namespace OsuTracker.Machine.Substitution

variable {α : Type*} [DecidableEq α]

/-! ## Occurrences -/

/-- At how many positions of a text a name starts. -/
def occurrences (name : List α) : List α → ℕ
  | [] => 0
  | c :: text => (if name <+: c :: text then 1 else 0) + occurrences name text

/-- The name starts nowhere in `part`, when `rest` follows. -/
def Clear (name rest : List α) : List α → Prop
  | [] => True
  | c :: part => ¬name <+: c :: (part ++ rest) ∧ Clear name rest part

theorem occurrences_le_append (name part rest : List α) : occurrences name rest ≤ occurrences name (part ++ rest) := by
  induction part with
  | nil => exact le_rfl
  | cons c part ih => exact ih.trans (Nat.le_add_left _ _)

theorem occurrences_append_eq {name part rest : List α} :
    occurrences name (part ++ rest) = occurrences name rest ↔ Clear name rest part := by
  induction part with
  | nil => exact iff_of_true rfl trivial
  | cons c part ih =>
    have more := occurrences_le_append name part rest
    rw [List.cons_append, occurrences, Clear, ← ih]
    split
    · next starts => exact ⟨fun same => by omega, fun clear => absurd starts clear.1⟩
    · next starts => exact ⟨fun same => ⟨starts, by omega⟩, fun clear => by omega⟩

/-! ## Substitution -/

/-- `skip` counts what is left of the name found last. -/
def scan (values : List (List α × List α)) : ℕ → List α → List α
  | _, [] => []
  | skip + 1, _ :: text => scan values skip text
  | 0, c :: text =>
    match values.find? fun entry => entry.1 <+: c :: text with
    | some (name, value) => value ++ scan values (name.length - 1) text
    | none => c :: scan values 0 text

/-- Every name replaced by its value, from left to right and all at once. -/
def substitute (values : List (List α × List α)) (text : List α) : List α := scan values 0 text

variable {values : List (List α × List α)}

theorem scan_eq (skip : ℕ) (text : List α) : scan values skip text = substitute values (text.drop skip) := by
  induction text generalizing skip with
  | nil => cases skip <;> rfl
  | cons c text ih =>
    cases skip with
    | zero => rfl
    | succ skip => exact ih skip

theorem substitute_name {name value rest : List α} (nonempty : name ≠ [])
    (found : (values.find? fun entry => entry.1 <+: name ++ rest) = some (name, value)) :
    substitute values (name ++ rest) = value ++ substitute values rest := by
  obtain ⟨c, tail, rfl⟩ := List.exists_cons_of_ne_nil nonempty
  rw [List.cons_append] at found ⊢
  rw [substitute, scan]
  simp only [found, scan_eq, List.length_cons, Nat.add_sub_cancel, List.drop_left]

theorem substitute_cons {c : α} {text : List α} (unfound : ∀ entry ∈ values, ¬entry.1 <+: c :: text) :
    substitute values (c :: text) = c :: substitute values text := by
  have none : (values.find? fun entry => entry.1 <+: c :: text) = Option.none :=
    List.find?_eq_none.mpr fun entry listed => by simpa using unfound entry listed
  rw [substitute, scan]
  simp only [none, scan_eq, List.drop_zero]

theorem substitute_clear {part rest : List α} (clear : ∀ entry ∈ values, Clear entry.1 rest part) :
    substitute values (part ++ rest) = part ++ substitute values rest := by
  induction part with
  | nil => rfl
  | cons c part ih =>
    rw [List.cons_append, substitute_cons fun entry listed => (clear entry listed).1,
      ih fun entry listed => (clear entry listed).2, List.cons_append]

/-! ## One name -/

section Single

variable {name rest : List α} (value : List α)

theorem substitute_single_clear {part : List α} (clear : Clear name rest part) :
    substitute [(name, value)] (part ++ rest) = part ++ substitute [(name, value)] rest :=
  substitute_clear fun entry member => by rwa [List.mem_singleton.mp member]

theorem substitute_single_name (nonempty : name ≠ []) (rest : List α) :
    substitute [(name, value)] (name ++ rest) = value ++ substitute [(name, value)] rest :=
  substitute_name nonempty (by simp)

theorem substitute_single_of_clear {text : List α} (clear : Clear name [] text) :
    substitute [(name, value)] text = text := by
  have whole := substitute_single_clear value clear
  rwa [List.append_nil, show substitute [(name, value)] [] = [] from rfl, List.append_nil] at whole

end Single

/-! ## Names that stay apart -/

/-- No name starts inside another, and none begins another. -/
structure Apart (names : List (List α)) : Prop where
  nonempty : ∀ name ∈ names, name ≠ []
  inside : ∀ name ∈ names, ∀ other ∈ names, ∀ rest, Clear name rest other.tail
  start : ∀ name ∈ names, ∀ other ∈ names, ∀ rest, name <+: other ++ rest → name = other

omit [DecidableEq α] in
theorem Apart.clear {names : List (List α)} (apart : Apart names) {name other : List α} (listed : name ∈ names)
    (also : other ∈ names) (different : name ≠ other) (rest : List α) : Clear name rest other := by
  obtain ⟨c, tail, rfl⟩ := List.exists_cons_of_ne_nil (apart.nonempty other also)
  exact ⟨fun starts => different (apart.start name listed _ also rest starts), apart.inside name listed _ also rest⟩

/-- A name by itself is found once. -/
theorem Apart.occurrences_self {names : List (List α)} (apart : Apart names) {name : List α} (listed : name ∈ names)
    (rest : List α) : occurrences name (name ++ rest) = occurrences name rest + 1 := by
  have inside := occurrences_append_eq.mpr (apart.inside name listed name listed rest)
  obtain ⟨c, tail, rfl⟩ := List.exists_cons_of_ne_nil (apart.nonempty name listed)
  have here : c :: tail <+: c :: (tail ++ rest) := List.prefix_append (c :: tail) rest
  rw [List.cons_append, occurrences, if_pos here, Nat.add_comm]
  exact congrArg (· + 1) inside

/-- Reading a text that may begin with a name of the list, with another name, or with neither. -/
theorem text_induction (values : List (List α × List α)) (name : List α) (own : name ≠ [])
    (nonempty : ∀ entry ∈ values, entry.1 ≠ []) {motive : List α → Prop} (nil : motive [])
    (found : ∀ other value rest, (other, value) ∈ values →
      (values.find? fun entry => entry.1 <+: other ++ rest) = some (other, value) → motive rest →
        motive (other ++ rest))
    (itself : ∀ rest, (∀ entry ∈ values, ¬entry.1 <+: name ++ rest) → motive rest → motive (name ++ rest))
    (neither : ∀ c text, (∀ entry ∈ values, ¬entry.1 <+: c :: text) → ¬name <+: c :: text → motive text →
      motive (c :: text)) (text : List α) : motive text := by
  induction length : text.length using Nat.strong_induction_on generalizing text with
  | _ n ih =>
    have shorter {front rest : List α} (same : front ++ rest = text) (nonempty : front ≠ []) : motive rest := by
      have := List.length_pos_of_ne_nil nonempty
      refine ih rest.length ?_ rest rfl
      rw [← length, ← same, List.length_append]
      omega
    cases first : values.find? fun entry => entry.1 <+: text with
    | some entry =>
      have member := List.mem_of_find?_eq_some first
      have starts := List.find?_some first
      obtain ⟨rest, same⟩ := of_decide_eq_true starts
      rw [← same] at first ⊢
      exact found entry.1 entry.2 rest member first (shorter same (nonempty entry member))
    | none =>
      have unfound : ∀ entry ∈ values, ¬entry.1 <+: text := fun entry member => by
        simpa using List.find?_eq_none.mp first entry member
      by_cases starts : name <+: text
      · obtain ⟨rest, same⟩ := starts
        rw [← same] at unfound ⊢
        exact itself rest unfound (shorter same own)
      · cases text with
        | nil => exact nil
        | cons c text => exact neither c text unfound starts (shorter (List.singleton_append) (List.cons_ne_nil c []))

/-! ## Passes -/

section Passes

variable {names : List (List α)} (apart : Apart names) (listed : ∀ entry ∈ values, entry.1 ∈ names)
  {name value : List α} (also : name ∈ names) (new : ∀ entry ∈ values, entry.1 ≠ name)

include apart listed also new

/-- A pass for one more name. The text has that name at least as often as before any substitution;
if it has it no more often, the pass does what the simultaneous substitution does. -/
private theorem pass_spec (text : List α) :
    occurrences name text ≤ occurrences name (substitute values text) ∧
      (occurrences name (substitute values text) = occurrences name text →
        substitute [(name, value)] (substitute values text) = substitute (values ++ [(name, value)]) text) := by
  have own := apart.nonempty name also
  induction text using text_induction values name own fun entry member => apart.nonempty _ (listed entry member) with
  | nil => exact ⟨le_rfl, fun _ => rfl⟩
  | found other w rest member found ih =>
    -- the value of another name comes in; the name starts nowhere in what goes out
    obtain ⟨least, equal⟩ := ih
    have nonempty := apart.nonempty other (listed _ member)
    have before := occurrences_append_eq.mpr (apart.clear also (listed _ member) (new _ member).symm rest)
    have both : substitute (values ++ [(name, value)]) (other ++ rest) =
        w ++ substitute (values ++ [(name, value)]) rest :=
      substitute_name nonempty (by rw [List.find?_append, found]; rfl)
    have more := occurrences_le_append name w (substitute values rest)
    rw [before, substitute_name nonempty found, both]
    refine ⟨least.trans more, fun settled => ?_⟩
    have clear : Clear name (substitute values rest) w := occurrences_append_eq.mp (by omega)
    rw [substitute_single_clear value clear, equal (by omega)]
  | itself rest unfound ih =>
    -- the name stays until its pass
    obtain ⟨least, equal⟩ := ih
    have old : substitute values (name ++ rest) = name ++ substitute values rest :=
      substitute_clear fun entry member => apart.clear (listed _ member) also (new _ member) rest
    have none : (values.find? fun entry => entry.1 <+: name ++ rest) = Option.none :=
      List.find?_eq_none.mpr fun entry member => by simpa using unfound entry member
    have both : substitute (values ++ [(name, value)]) (name ++ rest) =
        value ++ substitute (values ++ [(name, value)]) rest :=
      substitute_name own (by rw [List.find?_append, none]; simp)
    rw [old, both, substitute_single_name value own, apart.occurrences_self also, apart.occurrences_self also]
    exact ⟨by omega, fun settled => by rw [equal (by omega)]⟩
  | neither c text unfound absent ih =>
    obtain ⟨least, equal⟩ := ih
    have both : substitute (values ++ [(name, value)]) (c :: text) =
        c :: substitute (values ++ [(name, value)]) text := by
      refine substitute_cons fun entry member => ?_
      rcases List.mem_append.mp member with old | last
      · exact unfound entry old
      · rwa [List.mem_singleton.mp last]
    rw [substitute_cons unfound, both, occurrences, occurrences, if_neg absent]
    refine ⟨by omega, fun settled => ?_⟩
    have still : ¬name <+: c :: substitute values text := by
      intro starts
      rw [if_pos starts] at settled
      omega
    rw [if_neg still] at settled
    have behind : Clear name (substitute values text) [c] := ⟨still, trivial⟩
    exact (substitute_single_clear value behind).trans (congrArg (c :: ·) (equal (by omega)))

theorem substitute_pass {text : List α} (settled : occurrences name (substitute values text) = occurrences name text) :
    substitute [(name, value)] (substitute values text) = substitute (values ++ [(name, value)]) text :=
  (pass_spec apart listed also new text).2 settled

end Passes

/-- One pass over the text for each name, in order. -/
def passes (values : List (List α × List α)) (text : List α) : List α :=
  values.foldl (fun text entry => substitute [entry] text) text

/-- Before the turn of each name, what is made of the text has that name as often as the text. -/
def Settled (made : List (List α × List α) → List α) (values : List (List α × List α)) (text : List α) : Prop :=
  ∀ before name value after, values = before ++ (name, value) :: after →
    occurrences name (made before) = occurrences name text

theorem settled_iff {made : List (List α × List α) → List α} {text : List α} : Settled made values text ↔
    ∀ (i : ℕ) (bound : i < values.length),
      occurrences values[i].1 (made (values.take i)) = occurrences values[i].1 text := by
  constructor
  · intro settled i bound
    refine settled (values.take i) _ values[i].2 (values.drop (i + 1)) ?_
    rw [← List.drop_eq_getElem_cons bound, List.take_append_drop]
  · rintro settled before name value after rfl
    simpa using settled before.length (by simp)

instance {made : List (List α × List α) → List α} {text : List α} : Decidable (Settled made values text) :=
  decidable_of_iff _ settled_iff.symm

theorem passes_concat (before : List (List α × List α)) (entry : List α × List α) (text : List α) :
    passes (before ++ [entry]) text = substitute [entry] (passes before text) := by
  rw [passes, List.foldl_append]
  rfl

theorem substitute_nil (text : List α) : substitute [] text = text := by
  induction text with
  | nil => rfl
  | cons c text ih => rw [substitute_cons (by simp), ih]

section Runs

variable {text : List α} (apart : Apart (values.map Prod.fst)) (distinct : (values.map Prod.fst).Nodup)

include apart distinct

/-- What was put in by earlier passes is what the simultaneous substitution puts in. -/
private theorem passes_eq_of_split {before after : List (List α × List α)} (split : values = before ++ after)
    (settled : ∀ front name value rest, before = front ++ (name, value) :: rest →
      passes front text = substitute front text →
        occurrences name (substitute front text) = occurrences name text) :
    passes before text = substitute before text := by
  induction before using List.reverseRecOn generalizing after with
  | nil => exact (substitute_nil text).symm
  | append_singleton front entry ih =>
    obtain ⟨name, value⟩ := entry
    have inner : values = front ++ (name, value) :: after := by rw [split, List.append_assoc, List.singleton_append]
    have earlier := ih inner fun _ other w rest same =>
      settled _ other w (rest ++ [(name, value)]) (by rw [same, List.append_assoc]; rfl)
    have listed : ∀ entry ∈ front, entry.1 ∈ values.map Prod.fst := fun entry member =>
      List.mem_map_of_mem (inner ▸ List.mem_append_left _ member)
    have also : name ∈ values.map Prod.fst := by simp [inner]
    have new : ∀ entry ∈ front, entry.1 ≠ name := by
      rw [inner, List.map_append, List.nodup_append] at distinct
      intro entry member
      exact distinct.2.2 _ (List.mem_map_of_mem member) _ List.mem_cons_self
    rw [passes_concat, earlier]
    exact substitute_pass apart listed also new (settled front name value [] rfl earlier)

/-- The passes substitute once, and never in what an earlier one put in, exactly when the simultaneous
substitution of the values of earlier names completes no later name. -/
theorem passes_iff : passes values text = substitute values text ∧ Settled (passes · text) values text ↔
    Settled (substitute · text) values text := by
  constructor
  · rintro ⟨-, settled⟩ before name value after split
    have same := passes_eq_of_split apart distinct split fun front other w rest inner same => by
      rw [← same]
      exact settled front other w (rest ++ (name, value) :: after) (by rw [split, inner, List.append_assoc]; rfl)
    exact (congrArg (occurrences name) same.symm).trans (settled before name value after split)
  · intro settled
    refine ⟨passes_eq_of_split apart distinct (List.append_nil values).symm fun front name value rest inner _ =>
      settled front name value rest inner, fun before name value after split => ?_⟩
    have same := passes_eq_of_split apart distinct split fun front other w rest inner _ =>
      settled front other w (rest ++ (name, value) :: after) (by rw [split, inner, List.append_assoc]; rfl)
    exact (congrArg (occurrences name) same).trans (settled before name value after split)

end Runs

/-! ## Names between delimiters -/

/-- A name between doubled delimiters. -/
def wrap (opening closing : α) (name : List α) : List α := [opening, opening] ++ name ++ [closing, closing]

section Wrap

variable {opening closing : α}

omit [DecidableEq α] in
theorem wrap_eq (name : List α) : wrap opening closing name = opening :: opening :: (name ++ [closing, closing]) := by
  rw [wrap, List.append_assoc]
  rfl

omit [DecidableEq α] in
theorem wrap_injective : Function.Injective (wrap opening closing) := by
  intro name other same
  rw [wrap_eq, wrap_eq] at same
  simpa using same

omit [DecidableEq α] in
/-- What does not begin with the opening delimiter twice is clear of wrapped names. -/
private theorem clear_of_not_mem {name rest part : List α} (free : opening ∉ part) :
    Clear (wrap opening closing name) rest part := by
  induction part with
  | nil => trivial
  | cons c part ih =>
    rw [List.mem_cons, not_or] at free
    refine ⟨fun starts => ?_, ih free.2⟩
    rw [wrap_eq, List.cons_prefix_cons] at starts
    exact free.1 starts.1

omit [DecidableEq α] in
/-- Names without the delimiters stay apart when they are wrapped. -/
theorem apart_wrap {names : List (List α)} (different : opening ≠ closing)
    (free : ∀ name ∈ names, opening ∉ name ∧ closing ∉ name) : Apart (names.map (wrap opening closing)) := by
  refine ⟨?_, ?_, ?_⟩
  · intro name member
    obtain ⟨name, -, rfl⟩ := List.mem_map.mp member
    rw [wrap_eq]
    exact List.cons_ne_nil _ _
  · intro name member other also rest
    obtain ⟨name, -, rfl⟩ := List.mem_map.mp member
    obtain ⟨other, listed, rfl⟩ := List.mem_map.mp also
    have rear : opening ∉ other ++ [closing, closing] := by simp [(free other listed).1, different]
    rw [wrap_eq other, List.tail_cons]
    refine ⟨fun starts => ?_, clear_of_not_mem rear⟩
    -- one position further in, the second opening delimiter of the name meets none
    rw [wrap_eq, List.cons_prefix_cons] at starts
    cases shown : other ++ [closing, closing] with
    | nil => simp at shown
    | cons c shown' =>
      rw [shown, List.cons_append, List.cons_prefix_cons] at starts
      exact rear (shown ▸ starts.2.1 ▸ List.mem_cons_self)
  · classical
    intro name member other also rest starts
    obtain ⟨name, listed, rfl⟩ := List.mem_map.mp member
    obtain ⟨other, listed', rfl⟩ := List.mem_map.mp also
    obtain ⟨after, same⟩ := starts
    have body {name : List α} (absent : closing ∉ name) (rest : List α) :
        (name ++ closing :: rest).takeWhile (· ≠ closing) = name := by
      rw [List.takeWhile_append_of_pos fun c member => by simpa using ne_of_mem_of_not_mem member absent]
      simp
    simp only [wrap_eq, List.cons_append, List.append_assoc, List.cons.injEq, true_and] at same
    have bodies := congrArg (List.takeWhile (· ≠ closing)) same
    rw [body (free name listed).2, body (free other listed').2] at bodies
    rw [bodies]

end Wrap

end OsuTracker.Machine.Substitution
