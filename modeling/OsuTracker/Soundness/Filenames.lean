import OsuTracker.Model.Web.Filenames

/-! # What a request can open

The loop over a file name changes it in place and erases characters as it goes. What it has not
passed is always the end of the name it was given, so it does what one scan of that name does. The
result is a name that the scan leaves alone: no forbidden character, no separator in front, and no
special name at the start of a component; in particular no component leads out of the directory.
-/

namespace OsuTracker.Soundness.Filenames

open Cxx Model.Web.Mustache Model.Web.Filenames

/-! ## Special names -/

def specialNames : List (Str × Bool) :=
  [("AUX", false), ("CON", false), ("COM", true), ("LPT", true), ("NUL", false), ("PRN", false), ("..", false)]

/-- The length of the special name in front of a text. -/
def special (text : Str) : Option ℕ := specialNames.findSome? fun name => deviceName name.1 name.2 text

/-- The text with the special name in front of it replaced. -/
def withoutSpecial (text : Str) : Str :=
  match special text with
  | none => text
  | some length => replacement :: text.drop length

theorem deviceName_of_ne {a c : UInt8} {pattern text : Str} {numbered : Bool} (differs : toUpper c ≠ a) :
    deviceName (a :: pattern) numbered (c :: text) = none := by
  unfold deviceName
  rw [if_neg]
  intro same
  exact differs (List.head_eq_of_cons_eq same)

theorem sanitizeSpecialFile_append (front rest pattern : Str) (numbered : Bool) :
    sanitizeSpecialFile (front ++ rest) front.length pattern numbered =
      front ++ (match deviceName pattern numbered rest with
        | none => rest
        | some length => replacement :: rest.drop length) := by
  unfold sanitizeSpecialFile
  rw [List.drop_left]
  cases deviceName pattern numbered rest with
  | none => rfl
  | some length =>
    dsimp only
    rw [List.take_left, List.drop_append, Nat.add_sub_cancel_left, List.drop_eq_nil_of_le (Nat.le_add_right _ _)]
    rfl

/-- Only the names that begin with the letter in front can stand there. -/
theorem sanitizeSpecialFiles_append (front : Str) (c : UInt8) (rest : Str) :
    sanitizeSpecialFiles (front ++ c :: rest) front.length = front ++ withoutSpecial (c :: rest) := by
  have here : charAt (front ++ c :: rest) front.length = c := by simp [charAt]
  have none_of {letter : UInt8} (is_ : toUpper c = letter) (a : UInt8) (differs : a ≠ letter) (pattern : Str)
      (numbered : Bool) : deviceName (a :: pattern) numbered (c :: rest) = none :=
    deviceName_of_ne (is_ ▸ differs.symm)
  have aux : bytes "AUX" = ('A' : UInt8) :: bytes "UX" := rfl
  have con : bytes "CON" = ('C' : UInt8) :: bytes "ON" := rfl
  have com : bytes "COM" = ('C' : UInt8) :: bytes "OM" := rfl
  have lpt : bytes "LPT" = ('L' : UInt8) :: bytes "PT" := rfl
  have nul : bytes "NUL" = ('N' : UInt8) :: bytes "UL" := rfl
  have prn : bytes "PRN" = ('P' : UInt8) :: bytes "RN" := rfl
  have dots : bytes ".." = ('.' : UInt8) :: bytes "." := rfl
  unfold sanitizeSpecialFiles withoutSpecial special specialNames
  simp only [here, aux, con, com, lpt, nul, prn, dots, List.findSome?_cons, List.findSome?_nil]
  split
  · next is_ =>
    simp (disch := decide) only [sanitizeSpecialFile_append, none_of is_]
    cases deviceName ('A' :: bytes "UX") false (c :: rest) <;> rfl
  split
  · next is_ =>
    simp (disch := decide) only [sanitizeSpecialFile_append, none_of is_]
    cases deviceName ('C' :: bytes "ON") false (c :: rest) with
    | none => cases deviceName ('C' :: bytes "OM") true (c :: rest) <;> rfl
    | some length =>
      have replaced : toUpper replacement ≠ 'C' := by decide
      simp only [deviceName_of_ne replaced]
  split
  · next is_ =>
    simp (disch := decide) only [sanitizeSpecialFile_append, none_of is_]
    cases deviceName ('L' :: bytes "PT") true (c :: rest) <;> rfl
  split
  · next is_ =>
    simp (disch := decide) only [sanitizeSpecialFile_append, none_of is_]
    cases deviceName ('N' :: bytes "UL") false (c :: rest) <;> rfl
  split
  · next is_ =>
    simp (disch := decide) only [sanitizeSpecialFile_append, none_of is_]
    cases deviceName ('P' :: bytes "RN") false (c :: rest) <;> rfl
  split
  · next is_ =>
    simp (disch := decide) only [sanitizeSpecialFile_append, none_of is_]
    cases deviceName ('.' :: bytes ".") false (c :: rest) <;> rfl
  · next a cl l n p dot =>
    simp only [deviceName_of_ne a, deviceName_of_ne cl, deviceName_of_ne l, deviceName_of_ne n, deviceName_of_ne p,
      deviceName_of_ne dot]

/-! ## One scan -/

/-- `skip` counts what is left of the special name found last. -/
def scan : ℕ → Bool → Bool → Str → Str
  | _, _, _, [] => []
  | skip + 1, front, check, _ :: rest => scan skip front check rest
  | 0, front, check, c :: rest =>
    match if check then special (c :: rest) else none with
    | some length => replacement :: scan (length - 1) false false rest
    | none =>
      if isForbidden c then replacement :: scan 0 false false rest
      else if isSeparator c then if front then replacement :: scan 0 false false rest else c :: scan 0 false true rest
      else c :: scan 0 false false rest

theorem scan_eq (skip : ℕ) (front check : Bool) (text : Str) :
    scan skip front check text = scan 0 front check (text.drop skip) := by
  induction text generalizing skip with
  | nil => cases skip <;> rfl
  | cons c rest ih =>
    cases skip with
    | zero => rfl
    | succ skip => exact ih skip

/-- A special name: its letters, its digit if it has one, and the end or a character behind it. -/
theorem deviceName_eq_some {pattern text : Str} {numbered : Bool} {length : ℕ} :
    deviceName pattern numbered text = some length ↔
      (text.take pattern.length).map toUpper = pattern ∧
        (numbered = true → ('1' : UInt8) ≤ charAt text pattern.length ∧ charAt text pattern.length ≤ ('9' : UInt8)) ∧
        length = (if numbered then pattern.length + 1 else pattern.length) ∧
        (text.length ≤ length ∨ charAt text length ∈ bytes ".:/\\") := by
  unfold deviceName
  cases numbered with
  | false =>
    simp only [Bool.false_eq_true, false_and, ↓reduceIte, false_imp_iff, true_and]
    split
    · next same =>
      split
      · next ends =>
        simp only [Option.some.injEq, same, true_and]
        exact ⟨fun is_ => is_ ▸ ⟨rfl, ends⟩, fun both => both.1.symm⟩
      · next ends => exact iff_of_false nofun fun all => ends (all.2.1 ▸ all.2.2)
    · next differs => exact iff_of_false nofun fun all => differs all.1
  | true =>
    simp only [true_and, ↓reduceIte, true_imp_iff]
    split
    · next same =>
      split
      · next none => exact iff_of_false nofun fun all => none all.2.1
      · next digit =>
        split
        · next ends =>
          simp only [Option.some.injEq, same, not_not.mp digit, true_and]
          exact ⟨fun is_ => is_ ▸ ⟨rfl, ends⟩, fun both => both.1.symm⟩
        · next ends => exact iff_of_false nofun fun all => ends (all.2.2.1 ▸ all.2.2.2)
    · next differs => exact iff_of_false nofun fun all => differs all.1

theorem special_cases {text : Str} {length : ℕ} (found : special text = some length) :
    ∃ name ∈ specialNames, deviceName name.1 name.2 text = some length :=
  List.exists_of_findSome?_eq_some found

theorem special_pos {text : Str} {length : ℕ} (found : special text = some length) : 0 < length := by
  obtain ⟨name, member, named⟩ := special_cases found
  have some_ : ∀ name ∈ specialNames, name.1 ≠ [] := by decide +kernel
  have long := List.length_pos_of_ne_nil (some_ name member)
  rw [(deviceName_eq_some.mp named).2.2.1]
  split <;> omega

theorem charAt_append (passed : Str) (c : UInt8) (rest : Str) : charAt (passed ++ c :: rest) passed.length = c := by
  simp [charAt]

theorem set_append (passed : Str) (c : UInt8) (rest : Str) :
    (passed ++ c :: rest).set passed.length replacement = passed ++ replacement :: rest := by
  simp

/-- What one iteration does to the rest of the name. -/
def scanned (front check : Bool) (c : UInt8) (rest : Str) : (UInt8 × Str) × Bool :=
  match if check then special (c :: rest) else none with
  | some length => ((replacement, rest.drop (length - 1)), false)
  | none =>
    if isForbidden c then ((replacement, rest), false)
    else if isSeparator c then if front then ((replacement, rest), false) else ((c, rest), true)
    else ((c, rest), false)

theorem scan_cons (front check : Bool) (c : UInt8) (rest : Str) :
    scan 0 front check (c :: rest) =
      (scanned front check c rest).1.1 :: scan 0 false (scanned front check c rest).2 (scanned front check c rest).1.2 := by
  rw [scan, scanned]
  cases if check then special (c :: rest) else none with
  | some length => exact congrArg _ (scan_eq _ _ _ _)
  | none =>
    dsimp only
    split
    · rfl
    · split
      · split <;> rfl
      · rfl

theorem sanitizeAt_append (passed : Str) (c : UInt8) (rest : Str) (check : Bool) :
    sanitizeAt (passed ++ c :: rest) passed.length check =
      (passed ++ (scanned (passed.length = 0) check c rest).1.1 :: (scanned (passed.length = 0) check c rest).1.2,
        (scanned (passed.length = 0) check c rest).2) := by
  have front : (if check then sanitizeSpecialFiles (passed ++ c :: rest) passed.length else passed ++ c :: rest) =
      passed ++ (match if check then special (c :: rest) else none with
        | none => c :: rest
        | some length => replacement :: (c :: rest).drop length) := by
    cases check with
    | false => rfl
    | true => exact sanitizeSpecialFiles_append passed c rest
  unfold sanitizeAt scanned
  dsimp only
  rw [front]
  cases found : if check then special (c :: rest) else none with
  | some length =>
    dsimp only
    have plain : isForbidden replacement = false ∧ isSeparator replacement = false := by decide
    have some_ : 0 < length := by
      cases check with
      | false => cases found
      | true => exact special_pos found
    obtain ⟨less, rfl⟩ : ∃ less, length = less + 1 := ⟨length - 1, by omega⟩
    rw [charAt_append, plain.1, plain.2]
    rfl
  | none =>
    dsimp only
    rw [charAt_append]
    by_cases forbidden : isForbidden c = true
    · rw [if_pos forbidden, if_pos forbidden, set_append]
    · rw [if_neg forbidden, if_neg forbidden]
      by_cases separator : isSeparator c = true
      · rw [if_pos separator, if_pos separator]
        by_cases first : passed.length = 0
        · rw [if_pos first, if_pos (decide_eq_true first), set_append]
        · rw [if_neg first, if_neg (by simpa using first)]
      · rw [if_neg separator, if_neg separator]

theorem length_scanned (front check : Bool) (c : UInt8) (rest : Str) :
    (scanned front check c rest).1.2.length ≤ rest.length := by
  unfold scanned
  cases if check then special (c :: rest) else none with
  | some length =>
    dsimp only
    rw [List.length_drop]
    omega
  | none =>
    dsimp only
    split
    · exact le_rfl
    · split
      · split <;> exact le_rfl
      · exact le_rfl

/-- The loop leaves what it has passed, and scans the rest. -/
theorem sanitizeFrom_append (fuel : ℕ) (passed rest : Str) (check : Bool) (enough : rest.length ≤ fuel) :
    sanitizeFrom fuel (passed ++ rest) passed.length check =
      passed ++ scan 0 (passed.length = 0) check rest := by
  induction fuel generalizing passed rest check with
  | zero =>
    obtain rfl := List.eq_nil_of_length_eq_zero (Nat.le_zero.mp enough)
    rw [scan]
    rfl
  | succ fuel ih =>
    cases rest with
    | nil => simp [sanitizeFrom, scan]
    | cons c rest =>
      have inside : passed.length < (passed ++ c :: rest).length := by simp
      rw [sanitizeFrom, if_pos inside, sanitizeAt_append, scan_cons]
      dsimp only
      generalize replaced : scanned (passed.length = 0) check c rest = step
      have shorter : step.1.2.length ≤ fuel := by
        rw [← replaced]
        exact (length_scanned _ _ c rest).trans (Nat.le_of_succ_le_succ enough)
      have later := ih (passed ++ [step.1.1]) step.1.2 step.2 shorter
      rw [List.append_assoc, List.singleton_append, List.length_append, List.length_singleton] at later
      rw [later, List.append_assoc]
      simp

/-- Sanitizing is one scan of the first characters. -/
theorem sanitizeFilename_eq (data : Str) : sanitizeFilename data = scan 0 true true (data.take 255) :=
  sanitizeFrom_append _ [] (data.take 255) true le_rfl

/-! ## What the scan leaves alone -/

/-- Up to the first separator a text differs from another one in underscores only. -/
inductive Shadow : Str → Str → Prop
  | nil : Shadow [] []
  | same (c : UInt8) {text out : Str} (later : Shadow text out) : Shadow (c :: text) (c :: out)
  | replaced (c : UInt8) {text out : Str} (later : Shadow text out) : Shadow (c :: text) (replacement :: out)
  | separator {c : UInt8} (separates : isSeparator c = true) (text out : Str) : Shadow (c :: text) (c :: out)

theorem shadow_scan (text : Str) : Shadow text (scan 0 false false text) := by
  induction text with
  | nil => exact .nil
  | cons c rest ih =>
    rw [scan]
    simp only [Bool.false_eq_true, ↓reduceIte]
    split
    · exact .replaced c ih
    · split
      · next separates => exact .separator separates _ _
      · exact .same c ih

/-- Characters of which special names are made. -/
def InName (c : UInt8) : Prop := c ≠ replacement ∧ isSeparator c = false

theorem shadow_take {text out : Str} (shadow : Shadow text out) {n : ℕ} (letters : ∀ c ∈ out.take n, InName c) :
    text.take n = out.take n ∧ (n ≤ out.length → Shadow (text.drop n) (out.drop n)) := by
  induction shadow generalizing n with
  | nil => exact ⟨rfl, fun _ => by rw [List.drop_nil]; exact .nil⟩
  | same c later ih =>
    cases n with
    | zero => exact ⟨rfl, fun _ => .same c later⟩
    | succ n =>
      obtain ⟨front, back⟩ := ih (List.forall_mem_cons.mp letters).2
      exact ⟨congrArg (c :: ·) front, fun fits => back (Nat.le_of_succ_le_succ fits)⟩
  | replaced c later _ =>
    cases n with
    | zero => exact ⟨rfl, fun _ => .replaced c later⟩
    | succ n => exact absurd rfl (letters replacement List.mem_cons_self).1
  | @separator c separates text out =>
    cases n with
    | zero => exact ⟨rfl, fun _ => .separator separates text out⟩
    | succ n =>
      have own := (letters c List.mem_cons_self).2
      rw [separates] at own
      cases own

theorem inName_of_toUpper {c : UInt8} (upper : InName (toUpper c)) : InName c := by
  constructor
  · rintro rfl
    exact upper.1 (by decide)
  · cases separates : isSeparator c with
    | false => rfl
    | true =>
      have either : c = '/' ∨ c = '\\' := by simpa [isSeparator] using separates
      have own := upper.2
      rcases either with rfl | rfl <;> revert own <;> decide

theorem inName_of_digit {c : UInt8} (low : ('1' : UInt8) ≤ c) (high : c ≤ ('9' : UInt8)) : InName c := by
  constructor
  · rintro rfl
    revert high
    decide
  · cases separates : isSeparator c with
    | false => rfl
    | true =>
      have either : c = '/' ∨ c = '\\' := by simpa [isSeparator] using separates
      rcases either with rfl | rfl
      · revert low
        decide
      · revert high
        decide

theorem charAt_eq_of_take {text out : Str} {n i : ℕ} (same : text.take n = out.take n) (before : i < n) :
    charAt text i = charAt out i := by
  have here := congrArg (·[i]?) same
  simp only [List.getElem?_take_of_lt before] at here
  rw [charAt, charAt, List.getD_eq_getElem?_getD, List.getD_eq_getElem?_getD, here]

theorem charAt_drop (text : Str) (n : ℕ) : charAt text n = charAt (text.drop n) 0 := by
  simp [charAt]

/-- A special name in front of the shadow of a text stands in front of the text. -/
theorem deviceName_shadow {text out : Str} (shadow : Shadow text out) {pattern : Str} {numbered : Bool} {length : ℕ}
    (letters : ∀ c ∈ pattern, InName c) (named : deviceName pattern numbered out = some length) :
    deviceName pattern numbered text = some length := by
  obtain ⟨matched, digit, long, ends⟩ := deviceName_eq_some.mp named
  have inside : pattern.length ≤ out.length := by
    have same := congrArg List.length matched
    rw [List.length_map, List.length_take] at same
    omega
  have front : ∀ c ∈ out.take pattern.length, InName c := fun c member =>
    inName_of_toUpper (letters _ (matched ▸ List.mem_map_of_mem member))
  have all : (∀ c ∈ out.take length, InName c) ∧ length ≤ out.length := by
    cases numbered with
    | false =>
      simp only [Bool.false_eq_true, ↓reduceIte] at long
      exact long ▸ ⟨front, inside⟩
    | true =>
      obtain ⟨low, high⟩ := digit rfl
      have own := inName_of_digit low high
      have there : pattern.length < out.length := by
        by_contra outside
        have none : charAt out pattern.length = 0 := by
          simp [charAt, List.getElem?_eq_none (Nat.le_of_not_lt outside)]
        rw [none] at low
        revert low
        decide
      simp only [↓reduceIte] at long
      rw [long]
      refine ⟨fun c member => ?_, there⟩
      rw [List.take_add_one, List.getElem?_eq_getElem there] at member
      rcases List.mem_append.mp member with old | new
      · exact front c old
      · rw [List.mem_singleton.mp new]
        rw [charAt, List.getD_eq_getElem?_getD, List.getElem?_eq_getElem there] at own
        exact own
  obtain ⟨same, behind⟩ := shadow_take shadow all.1
  have behind := behind all.2
  have covers : pattern.length ≤ length := by
    rw [long]
    split <;> omega
  refine deviceName_eq_some.mpr ⟨?_, fun isNumbered => ?_, long, ?_⟩
  · have shorter := congrArg (List.take pattern.length) same
    rw [List.take_take, List.take_take, Nat.min_eq_left covers] at shorter
    rw [shorter, matched]
  · have before : pattern.length < length := by
      rw [long, isNumbered]
      exact Nat.lt_succ_self _
    rw [charAt_eq_of_take same before]
    exact digit isNumbered
  · rw [charAt_drop]
    rw [charAt_drop] at ends
    cases shown : out.drop length with
    | nil =>
      rw [shown] at behind
      cases none : text.drop length with
      | nil => exact .inl (List.drop_eq_nil_iff.mp none)
      | cons c rest =>
        rw [none] at behind
        cases behind
    | cons d later =>
      rw [shown] at behind ends
      have some_ : ¬out.length ≤ length := fun short => by
        rw [List.drop_eq_nil_of_le short] at shown
        cases shown
      have follows : d ∈ bytes ".:/\\" := ends.resolve_left some_
      refine .inr ?_
      cases none : text.drop length with
      | nil =>
        rw [none] at behind
        cases behind
      | cons c rest =>
        rw [none] at behind
        cases behind with
        | same => exact follows
        | replaced => exact absurd follows (by decide)
        | separator => exact follows

theorem letters_inName : ∀ name ∈ specialNames, ∀ c ∈ name.1, InName c := by
  unfold InName
  decide +kernel

theorem special_shadow {text out : Str} (shadow : Shadow text out) (unnamed : special text = none) :
    special out = none := by
  cases named : special out with
  | none => rfl
  | some length =>
    obtain ⟨name, member, found⟩ := special_cases named
    have also := deviceName_shadow shadow (letters_inName name member) found
    exact absurd also (by rw [List.findSome?_eq_none_iff.mp unnamed name member]; exact nofun)

/-- No special name begins with an underscore or with a separator. -/
theorem special_of_not_inName {c : UInt8} (out : Str) (other : ¬InName c) : special (c :: out) = none := by
  refine List.findSome?_eq_none_iff.mpr fun name member => ?_
  cases found : deviceName name.1 name.2 (c :: out) with
  | none => rfl
  | some length =>
    obtain ⟨matched, _⟩ := deviceName_eq_some.mp found
    have some_ : ∀ name ∈ specialNames, name.1 ≠ [] := by decide +kernel
    obtain ⟨a, pattern, shape⟩ := List.exists_cons_of_ne_nil (some_ name member)
    rw [shape] at matched
    have first : toUpper c = a := List.head_eq_of_cons_eq matched
    have letter := letters_inName name member a (by rw [shape]; exact List.mem_cons_self)
    exact absurd (inName_of_toUpper (first ▸ letter)) other

/-- Nothing of a text would be changed: `front` when nothing has been passed, `check` at the start of
a component. -/
def Untouched : Bool → Bool → Str → Prop
  | _, _, [] => True
  | front, check, c :: rest => isForbidden c = false ∧ (isSeparator c = true → front = false) ∧
    (check = true → special (c :: rest) = none) ∧ Untouched false (isSeparator c) rest

theorem untouched_replacement {front check : Bool} {rest : Str} (later : Untouched false false rest) :
    Untouched front check (replacement :: rest) :=
  ⟨by decide, fun separates => absurd separates (by decide), fun _ => special_of_not_inName rest fun own => own.1 rfl,
    later⟩

theorem untouched_scan (n : ℕ) (front check : Bool) (text : Str) (bound : text.length ≤ n) :
    Untouched front check (scan 0 front check text) := by
  induction n generalizing front check text with
  | zero =>
    obtain rfl := List.eq_nil_of_length_eq_zero (Nat.le_zero.mp bound)
    trivial
  | succ n ih =>
    cases text with
    | nil => trivial
    | cons c rest =>
      have short : rest.length ≤ n := Nat.le_of_succ_le_succ bound
      rw [scan]
      cases named : if check then special (c :: rest) else none with
      | some length =>
        dsimp only
        rw [scan_eq]
        exact untouched_replacement (ih _ _ _ (by rw [List.length_drop]; omega))
      | none =>
        have unnamed (checked : check = true) : special (c :: rest) = none := by rwa [if_pos checked] at named
        dsimp only
        split
        · exact untouched_replacement (ih _ _ _ short)
        · next allowed =>
          split
          · next separates =>
            split
            · exact untouched_replacement (ih _ _ _ short)
            · next behind =>
              refine ⟨eq_false_of_ne_true allowed, fun _ => eq_false_of_ne_true behind, fun _ => ?_, ?_⟩
              · refine special_of_not_inName _ fun own => ?_
                have joins := own.2
                rw [separates] at joins
                cases joins
              · rw [separates]
                exact ih _ _ _ short
          · next joins =>
            refine ⟨eq_false_of_ne_true allowed, fun separates => absurd separates joins, fun checked => ?_, ?_⟩
            · exact special_shadow (.same c (shadow_scan rest)) (unnamed checked)
            · rw [eq_false_of_ne_true joins]
              exact ih _ _ _ short

theorem scan_untouched {front check : Bool} {text : Str} (untouched : Untouched front check text) :
    scan 0 front check text = text := by
  induction text generalizing front check with
  | nil => rfl
  | cons c rest ih =>
    obtain ⟨allowed, relative, unnamed, later⟩ := untouched
    have none : (if check then special (c :: rest) else none) = none := by
      split
      · next checked => exact unnamed checked
      · rfl
    rw [scan, none]
    dsimp only
    rw [if_neg (by rw [allowed]; decide)]
    by_cases separates : isSeparator c = true
    · rw [if_pos separates, relative separates, if_neg (by decide)]
      rw [separates] at later
      rw [ih later]
    · rw [if_neg separates]
      rw [eq_false_of_ne_true separates] at later
      rw [ih later]

theorem length_scan (n : ℕ) (front check : Bool) (text : Str) (bound : text.length ≤ n) :
    (scan 0 front check text).length ≤ text.length := by
  induction n generalizing front check text with
  | zero =>
    obtain rfl := List.eq_nil_of_length_eq_zero (Nat.le_zero.mp bound)
    exact le_rfl
  | succ n ih =>
    cases text with
    | nil => exact le_rfl
    | cons c rest =>
      have shorter := length_scanned front check c rest
      rw [scan_cons, List.length_cons, List.length_cons]
      exact Nat.succ_le_succ ((ih _ _ _ (shorter.trans (Nat.le_of_succ_le_succ bound))).trans shorter)

/-- A name that is safe to open: short, without characters that no file name should have, relative,
and without a special name at the start of a component. -/
structure Safe (text : Str) : Prop where
  short : text.length ≤ 255
  allowed : ∀ c ∈ text, isForbidden c = false
  relative : ∀ c rest, text = c :: rest → isSeparator c = false
  first : special text = none
  components : ∀ front c rest, text = front ++ c :: rest → isSeparator c = true → special rest = none

theorem untouched_iff {front check : Bool} {text : Str} :
    Untouched front check text ↔ (∀ c ∈ text, isForbidden c = false) ∧
      (front = true → ∀ c rest, text = c :: rest → isSeparator c = false) ∧ (check = true → special text = none) ∧
      ∀ passed c rest, text = passed ++ c :: rest → isSeparator c = true → special rest = none := by
  induction text generalizing front check with
  | nil =>
    refine iff_of_true trivial ⟨nofun, fun _ => nofun, fun _ => by decide +kernel, fun passed c rest same => ?_⟩
    exact absurd same (by simp)
  | cons c rest ih =>
    rw [Untouched, ih]
    constructor
    · rintro ⟨allowed, relative, unnamed, others, _, next, later⟩
      refine ⟨List.forall_mem_cons.mpr ⟨allowed, others⟩, fun isFront d tail same => ?_, unnamed, fun passed d tail same
        separates => ?_⟩
      · cases same
        refine eq_false_of_ne_true fun separates => ?_
        rw [isFront] at relative
        cases relative separates
      · cases passed with
        | nil =>
          cases same
          exact next separates
        | cons _ passed =>
          cases same
          exact later passed d tail rfl separates
    · rintro ⟨allowed, relative, unnamed, components⟩
      obtain ⟨own, others⟩ := List.forall_mem_cons.mp allowed
      refine ⟨own, fun separates => eq_false_of_ne_true fun isFront => ?_, unnamed, others, nofun,
        fun separates => components [] c rest rfl separates,
        fun passed d tail same => components (c :: passed) d tail (congrArg (c :: ·) same)⟩
      rw [relative isFront c rest rfl] at separates
      cases separates

theorem safe_iff {text : Str} : Safe text ↔ text.length ≤ 255 ∧ Untouched true true text := by
  rw [untouched_iff]
  constructor
  · rintro ⟨short, allowed, relative, first, components⟩
    exact ⟨short, allowed, fun _ => relative, fun _ => first, components⟩
  · rintro ⟨short, allowed, relative, first, components⟩
    exact ⟨short, allowed, relative rfl, first rfl, components⟩

theorem safe_sanitizeFilename (data : Str) : Safe (sanitizeFilename data) := by
  rw [safe_iff, sanitizeFilename_eq]
  refine ⟨(length_scan _ _ _ _ le_rfl).trans ?_, untouched_scan _ _ _ _ le_rfl⟩
  rw [List.length_take]
  exact Nat.min_le_left _ _

theorem sanitizeFilename_of_safe {data : Str} (safe : Safe data) : sanitizeFilename data = data := by
  obtain ⟨short, untouched⟩ := safe_iff.mp safe
  rw [sanitizeFilename_eq, List.take_of_length_le short, scan_untouched untouched]

/-- Every name is made safe, and exactly the safe names are left as they are. -/
theorem sanitizeFilename_safe (data : Str) :
    Safe (sanitizeFilename data) ∧ (sanitizeFilename data = data ↔ Safe data) :=
  ⟨safe_sanitizeFilename data, fun same => same ▸ safe_sanitizeFilename data, sanitizeFilename_of_safe⟩

/-! ## Directories -/

/-- One component further from a directory; `.` and the empty component stay there. -/
def follow (directory : List Str) (component : Str) : List Str :=
  if component = [] ∨ component = "." then directory
  else if component = ".." then directory.dropLast
  else directory ++ [component]

/-- Components end at a slash, as on Linux; Windows also ends them at a backslash. -/
def resolve (directory : List Str) (path : Str) : List Str := (path.splitOn ('/' : UInt8)).foldl follow directory

theorem special_dots {text : Str} (ends : text.length ≤ 2 ∨ charAt text 2 = '/') (dots : text.take 2 = "..") :
    special text ≠ none := by
  have named : deviceName ".." false text = some 2 := by
    refine deviceName_eq_some.mpr ⟨?_, nofun, rfl, ends.imp_right fun slash => ?_⟩
    · have two : (bytes "..").length = 2 := rfl
      rw [two, dots]
      decide
    · rw [slash]
      decide
  intro unnamed
  have none : deviceName ".." false text = none :=
    List.findSome?_eq_none_iff.mp unnamed ("..", false) (by decide +kernel)
  rw [named] at none
  cases none

theorem splitOn_cons (c : UInt8) (text : Str) : ∃ first others, text.splitOn ('/' : UInt8) = first :: others ∧
    (c :: text).splitOn ('/' : UInt8) =
      if c = '/' then [] :: first :: others else (c :: first) :: others := by
  obtain ⟨first, others, split⟩ := List.exists_cons_of_ne_nil (List.splitOn_ne_nil ('/' : UInt8) text)
  refine ⟨first, others, split, ?_⟩
  rw [List.splitOn_cons_eq_if_modifyHead, split]
  by_cases same : c = '/' <;> simp [same]

/-- The first component ends where the text does, or before a slash. -/
theorem head_splitOn {text first : Str} {others : List Str} (split : text.splitOn ('/' : UInt8) = first :: others) :
    ∃ rest, text = first ++ rest ∧ (rest = [] ∨ rest.head? = some ('/' : UInt8)) := by
  induction text generalizing first others with
  | nil =>
    cases split
    exact ⟨[], rfl, .inl rfl⟩
  | cons c text ih =>
    obtain ⟨own, later, inner, shape⟩ := splitOn_cons c text
    rw [shape] at split
    by_cases same : c = '/'
    · rw [if_pos same] at split
      cases split
      exact ⟨c :: text, rfl, .inr (congrArg some same)⟩
    · rw [if_neg same] at split
      cases split
      obtain ⟨rest, whole, ends⟩ := ih inner
      exact ⟨rest, congrArg (c :: ·) whole, ends⟩

/-- No component of an untouched text leads to the directory above. -/
theorem ne_dots_of_untouched {front check : Bool} {text : Str} (untouched : Untouched front check text) {first : Str}
    {others : List Str} (split : text.splitOn ('/' : UInt8) = first :: others) :
    (check = true → first ≠ "..") ∧ ∀ component ∈ others, component ≠ (bytes "..") := by
  induction text generalizing front check first others with
  | nil =>
    cases split
    exact ⟨fun _ => by decide, nofun⟩
  | cons c text ih =>
    obtain ⟨_, _, unnamed, later⟩ := untouched
    refine ⟨fun checked dots => ?_, ?_⟩
    · obtain ⟨rest, whole, ends⟩ := head_splitOn split
      rw [dots] at whole
      refine special_dots ?_ ?_ (unnamed checked)
      · rw [whole]
        rcases ends with none | slash
        · rw [none]
          exact .inl le_rfl
        · obtain ⟨tail, shape⟩ : ∃ tail, rest = ('/' : UInt8) :: tail := by
            cases rest with
            | nil => cases slash
            | cons d tail => exact ⟨tail, by rw [Option.some.inj slash]⟩
          rw [shape]
          exact .inr rfl
      · rw [whole]
        rfl
    · obtain ⟨own, behind, inner, shape⟩ := splitOn_cons c text
      obtain ⟨starts, all⟩ := ih later inner
      rw [shape] at split
      by_cases same : c = '/'
      · rw [if_pos same] at split
        cases split
        refine List.forall_mem_cons.mpr ⟨starts ?_, all⟩
        rw [same]
        decide
      · rw [if_neg same] at split
        cases split
        exact all

theorem prefix_follow {components : List Str} (none : ∀ component ∈ components, component ≠ (bytes ".."))
    (directory : List Str) : directory <+: components.foldl follow directory := by
  induction components generalizing directory with
  | nil => exact List.prefix_rfl
  | cons component components ih =>
    obtain ⟨own, others⟩ := List.forall_mem_cons.mp none
    refine List.IsPrefix.trans ?_ (ih others _)
    unfold follow
    rw [if_neg own]
    split
    · exact List.prefix_rfl
    · exact List.prefix_append _ _

theorem resolve_append (start : List Str) (directory path : Str) :
    resolve start (directory ++ ('/' : UInt8) :: path) = resolve (resolve start directory) path := by
  rw [resolve, List.splitOn_append_cons_self, List.foldl_append]
  rfl

/-- Whatever a request names below `/static/`, and whatever a template is loaded by, the file is
below the directory that it is looked for in. -/
theorem opened_inside (start : List Str) (name : Str) :
    resolve start "www/static" <+: resolve start (staticFile name) ∧
      ∀ directory, resolve start directory <+: resolve start (directory ++ ('/' : UInt8) :: sanitizeFilename name) := by
  have inside (directory : Str) :
      resolve start directory <+: resolve start (directory ++ ('/' : UInt8) :: sanitizeFilename name) := by
    rw [resolve_append]
    obtain ⟨first, others, split⟩ :=
      List.exists_cons_of_ne_nil (List.splitOn_ne_nil ('/' : UInt8) (sanitizeFilename name))
    have untouched := (safe_iff.mp (safe_sanitizeFilename name)).2
    obtain ⟨starts, all⟩ := ne_dots_of_untouched untouched split
    change _ <+: ((sanitizeFilename name).splitOn ('/' : UInt8)).foldl follow (resolve start directory)
    rw [split]
    exact prefix_follow (List.forall_mem_cons.mpr ⟨starts rfl, all⟩) _
  have shape : staticFile name = bytes "www/static" ++ ('/' : UInt8) :: sanitizeFilename name := rfl
  exact ⟨shape ▸ inside _, inside⟩

end OsuTracker.Soundness.Filenames
