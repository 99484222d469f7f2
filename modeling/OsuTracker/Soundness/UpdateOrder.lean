import OsuTracker.Model.Api.Update
import OsuTracker.Soundness.Replacing

/-! # The order of versions

A version is compared as the number that its components form when their digits are written one
after the other. Up to the component that decides between two versions the newer one is ahead; it
stays ahead when at least as many digits follow as in the older version, and otherwise only when
what it has so far makes up for the digits that are missing.
-/

namespace OsuTracker.Soundness.UpdateOrder

open Cxx Model.Core.Helpers Model.Api Model.Api.Update Replacing

/-! ## Versions -/

structure Version where
  major : ℕ
  minor : ℕ
  patch : ℕ
deriving DecidableEq, Repr

namespace Version

def tag (v : Version) : Str :=
  ('v' : UInt8) :: (decimal v.major ++ ('.' : UInt8) :: (decimal v.minor ++ ('.' : UInt8) :: decimal v.patch))

/-- Lexicographically less. -/
def Older (v w : Version) : Prop :=
  v.major < w.major ∨ v.major = w.major ∧ (v.minor < w.minor ∨ v.minor = w.minor ∧ v.patch < w.patch)

instance (v w : Version) : Decidable (v.Older w) := inferInstanceAs (Decidable (_ ∨ _))

/-- The digits of all components, as one number. -/
def number (v : Version) : ℕ := digitsValue (decimal v.major ++ (decimal v.minor ++ decimal v.patch))

end Version

/-- The component that decides between two versions. -/
inductive Component where
  | major | minor | patch
deriving DecidableEq, Repr

namespace Version

def deciding (v w : Version) : Component :=
  if v.major ≠ w.major then .major else if v.minor ≠ w.minor then .minor else .patch

/-- The digits up to a component. -/
def front (v : Version) : Component → Str
  | .major => decimal v.major
  | .minor => decimal v.major ++ decimal v.minor
  | .patch => decimal v.major ++ decimal v.minor ++ decimal v.patch

/-- The digits after a component. -/
def rest (v : Version) : Component → Str
  | .major => decimal v.minor ++ decimal v.patch
  | .minor => decimal v.patch
  | .patch => []

/-- The newer version has no fewer digits after the deciding component, or its digits up to there
exceed those of the older one with as many more of its digits as are missing; when these are
equal, the remaining digits decide, and may be equal if ties are allowed. -/
def Ahead (newer older : Version) (ties : Prop) : Prop :=
  let component := newer.deciding older
  let missing := (older.rest component).length - (newer.rest component).length
  let extended := older.front component ++ (older.rest component).take missing
  let remaining := (older.rest component).drop missing
  missing = 0 ∨ digitsValue extended < digitsValue (newer.front component) ∨
    digitsValue extended = digitsValue (newer.front component) ∧
      (digitsValue remaining < digitsValue (newer.rest component) ∨
        ties ∧ digitsValue remaining = digitsValue (newer.rest component))

instance (newer older : Version) (ties : Prop) [Decidable ties] : Decidable (newer.Ahead older ties) :=
  inferInstanceAs (Decidable (_ ∨ _))

/-- The newer one of two versions is ahead, strictly if it is the latest release. -/
def Ordered (latest running : Version) : Prop :=
  (running.Older latest → latest.Ahead running False) ∧ (latest.Older running → running.Ahead latest True)

instance (latest running : Version) : Decidable (latest.Ordered running) := inferInstanceAs (Decidable (_ ∧ _))

end Version

/-! ## The signed version -/

private theorem filter_decimal (n : ℕ) {c : UInt8} (letter : isDigit c = false) :
    (decimal n).filter (· ≠ c) = decimal n := by
  refine List.filter_eq_self.mpr fun other member => ?_
  have digit := decimal_isDigit n other member
  simp only [ne_eq, decide_not, Bool.not_eq_true', decide_eq_false_iff_not]
  rintro rfl
  cases letter.symm.trans digit

theorem isDigit_components (v : Version) :
    ∀ c ∈ decimal v.major ++ (decimal v.minor ++ decimal v.patch), isDigit c = true := by
  intro c member
  rcases List.mem_append.mp member with major | others
  · exact decimal_isDigit _ c major
  · rcases List.mem_append.mp others with minor | patch
    · exact decimal_isDigit _ c minor
    · exact decimal_isDigit _ c patch

theorem digits_of_tag (v : Version) :
    replace (replace v.tag "v" []) "." [] = decimal v.major ++ (decimal v.minor ++ decimal v.patch) := by
  have letters : ("v" : Str) = [('v' : UInt8)] ∧ ("." : Str) = [('.' : UInt8)] := by decide
  have letter : isDigit ('v' : UInt8) = false := by decide
  have dot : isDigit ('.' : UInt8) = false := by decide
  have apart : ('.' : UInt8) ≠ ('v' : UInt8) := by decide
  have numbers : v.tag.filter (· ≠ ('v' : UInt8)) =
      decimal v.major ++ ('.' : UInt8) :: (decimal v.minor ++ ('.' : UInt8) :: decimal v.patch) := by
    simp only [Version.tag, List.filter_cons, List.filter_append, filter_decimal _ letter]
    simp [apart]
  rw [letters.1, letters.2, replace_singleton, replace_singleton, numbers]
  simp only [List.filter_cons, List.filter_append, filter_decimal _ dot]
  simp

/-- Stripping a leading zero does not change the number. -/
theorem scanInteger_signedVer (v : Version) : scanInteger (signedVer v.tag) = some (v.number : ℤ) := by
  have digits := isDigit_components v
  have long : 1 < (decimal v.major ++ (decimal v.minor ++ decimal v.patch)).length := by
    have major := List.length_pos_of_ne_nil (decimal_ne_nil v.major)
    have minor := List.length_pos_of_ne_nil (decimal_ne_nil v.minor)
    simp only [List.length_append]
    omega
  simp only [signedVer, digits_of_tag, Version.number]
  generalize decimal v.major ++ (decimal v.minor ++ decimal v.patch) = text at digits long
  split
  · next zero =>
    obtain ⟨rest, rfl⟩ := List.head?_eq_some_iff.mp zero
    have some_ : rest ≠ [] := by
      rintro rfl
      exact absurd long (by simp)
    have value : digitsValue (('0' : UInt8) :: rest) = digitsValue rest := by
      rw [← List.singleton_append, digitsValue_append]
      have none : digitsValue [('0' : UInt8)] = 0 := by decide
      rw [none, Nat.zero_mul, Nat.zero_add]
    rw [List.drop_one, List.tail_cons, value]
    exact scanInteger_of_digits some_ fun c member => digits c (List.mem_cons_of_mem _ member)
  · exact scanInteger_of_digits (List.ne_nil_of_length_pos (by omega)) digits

/-! ## Comparing the numbers -/

private theorem place_lt (high high' : ℕ) {low low' base : ℕ} (fits : low < base) (fits' : low' < base) :
    high * base + low < high' * base + low' ↔ high < high' ∨ high = high' ∧ low < low' := by
  rcases Nat.lt_trichotomy high high' with less | rfl | more
  · have step : (high + 1) * base ≤ high' * base := Nat.mul_le_mul_right base less
    rw [Nat.add_mul] at step
    exact ⟨fun _ => .inl less, fun _ => by omega⟩
  · simp
  · have step : (high' + 1) * base ≤ high * base := Nat.mul_le_mul_right base more
    rw [Nat.add_mul] at step
    exact ⟨fun less => by omega, fun either => by omega⟩

private theorem place_eq {high high' low low' base : ℕ} (fits : low < base) (fits' : low' < base) :
    high * base + low = high' * base + low' ↔ high = high' ∧ low = low' := by
  have first := place_lt high high' fits fits'
  have second := place_lt high' high fits' fits
  omega

theorem decimal_length_mono {m n : ℕ} (ordered : m ≤ n) : (decimal m).length ≤ (decimal n).length := by
  obtain ⟨k, length⟩ := Nat.exists_eq_succ_of_ne_zero (List.length_pos_of_ne_nil (decimal_ne_nil n)).ne'
  rw [length]
  exact decimal_length_le_iff.mpr (ordered.trans_lt (decimal_length_le_iff.mp length.le))

theorem digitsValue_front_lt {older newer : Version} (less : older.Older newer) :
    digitsValue (older.front (newer.deciding older)) < digitsValue (newer.front (newer.deciding older)) := by
  -- a component that follows is written with at least as many digits when it is larger
  have extend (text : Str) {m n : ℕ} (grows : m < n) :
      digitsValue (text ++ decimal m) < digitsValue (text ++ decimal n) := by
    rw [digitsValue_append, digitsValue_append, digitsValue_decimal, digitsValue_decimal]
    have weight := Nat.mul_le_mul_left (digitsValue text)
      (Nat.pow_le_pow_right (show 0 < 10 by decide) (decimal_length_mono grows.le))
    omega
  rcases less with major | ⟨major, minor | ⟨minor, patch⟩⟩
  · have decides : newer.deciding older = .major := by rw [Version.deciding, if_pos (by omega)]
    rw [decides]
    simpa only [Version.front, digitsValue_decimal] using major
  · have decides : newer.deciding older = .minor := by
      rw [Version.deciding, if_neg (by omega), if_pos (by omega)]
    rw [decides, Version.front, Version.front, major]
    exact extend _ minor
  · have decides : newer.deciding older = .patch := by
      rw [Version.deciding, if_neg (by omega), if_neg (by omega)]
    rw [decides, Version.front, Version.front, major, minor]
    exact extend _ patch

theorem number_eq (v : Version) (component : Component) :
    v.number = digitsValue (v.front component) * 10 ^ (v.rest component).length + digitsValue (v.rest component) := by
  rw [← digitsValue_append]
  cases component <;> simp [Version.number, Version.front, Version.rest]

theorem isDigit_rest (v : Version) (component : Component) : ∀ c ∈ v.rest component, isDigit c = true := by
  intro c member
  refine isDigit_components v c ?_
  cases component with
  | major => exact List.mem_append_right _ member
  | minor => exact List.mem_append_right _ (List.mem_append_right _ member)
  | patch => cases member

/-- Being ahead is having the greater number. -/
theorem ahead_iff {older newer : Version} (less : older.Older newer) (ties : Prop) :
    newer.Ahead older ties ↔ older.number < newer.number ∨ ties ∧ older.number = newer.number := by
  have fronts := digitsValue_front_lt less
  simp only [Version.Ahead]
  generalize newer.deciding older = component at fronts
  have digits := isDigit_rest older component
  have fits := digitsValue_lt (isDigit_rest newer component)
  rw [number_eq older component, number_eq newer component]
  generalize older.rest component = tail at digits
  generalize newer.rest component = own at fits
  by_cases missing : tail.length - own.length = 0
  · -- no digit is missing
    have short : tail.length ≤ own.length := by omega
    have bound := digitsValue_lt digits
    have weight := Nat.pow_le_pow_right (show 0 < 10 by decide) short
    have scaled := Nat.mul_le_mul fronts weight
    rw [Nat.succ_mul] at scaled
    have greater : digitsValue (older.front component) * 10 ^ tail.length + digitsValue tail <
        digitsValue (newer.front component) * 10 ^ own.length + digitsValue own := by omega
    exact ⟨fun _ => .inl greater, fun _ => .inl missing⟩
  · have split (k : ℕ) (length : (tail.drop k).length = own.length) :
        digitsValue (older.front component) * 10 ^ tail.length + digitsValue tail =
          digitsValue (older.front component ++ tail.take k) * 10 ^ own.length + digitsValue (tail.drop k) := by
      rw [← digitsValue_append, ← length, ← digitsValue_append, List.append_assoc, List.take_append_drop]
    have length : (tail.drop (tail.length - own.length)).length = own.length := by
      rw [List.length_drop]
      omega
    have remaining : digitsValue (tail.drop (tail.length - own.length)) <
        10 ^ (tail.drop (tail.length - own.length)).length :=
      digitsValue_lt fun c member => digits c (List.mem_of_mem_drop member)
    rw [length] at remaining
    rw [split _ length, place_lt _ _ remaining fits, place_eq remaining fits]
    simp only [missing, false_or]
    tauto

/-! ## The decision -/

theorem newRelease_iff {latest running : Version} {n m : Int32} (read : stoi (signedVer latest.tag) = .ok n)
    (own : stoi (signedVer running.tag) = .ok m) {r : Http} {request : Json} (ok : r.status = 200)
    (body : r.body = some request) (tag : request.find? "tag_name" = some (.str latest.tag)) :
    newRelease (signedVer running.tag) false r = .ok (some request) ↔ running.number < latest.number := by
  have number {v : Version} {k : Int32} (value : stoi (signedVer v.tag) = .ok k) : (v.number : ℤ) = k.toInt := by
    rw [stoi_eq_ok_iff, scanInteger_signedVer] at value
    exact Option.some.inj value
  have named : request.index "tag_name" = .ok (.str latest.tag) := by
    cases request with
    | obj members =>
      have found : members.lookup ("tag_name" : Str) = some (.str latest.tag) := tag
      rw [Json.index, found]
      rfl
    | null | bool | int | float | str | arr => cases tag
  have decided : newRelease (signedVer running.tag) false r = .ok (if m < n then some request else none) := by
    simp only [newRelease, ok, ne_eq, not_true_eq_false, ↓reduceIte, Http.parse, body, bind, named, Except.bind,
      Json.getString, read, own, Bool.false_eq_true, false_and, false_or]
    rfl
  rw [decided, Except.ok.injEq, Option.ite_none_right_eq_some, and_iff_left rfl, Int32.lt_iff_toInt_lt, ← number read,
    ← number own, Nat.cast_lt]

/-- The code follows the order of the versions exactly when the newer one is ahead. -/
theorem update_ordered_iff {latest running : Version} {n m : Int32} (read : stoi (signedVer latest.tag) = .ok n)
    (own : stoi (signedVer running.tag) = .ok m) {r : Http} {request : Json} (ok : r.status = 200)
    (body : r.body = some request) (tag : request.find? "tag_name" = some (.str latest.tag)) :
    (newRelease (signedVer running.tag) false r = .ok (some request) ↔ running.Older latest) ↔
      latest.Ordered running := by
  rw [newRelease_iff read own ok body tag]
  by_cases newer : running.Older latest
  · have notOlder : ¬latest.Older running := by
      simp only [Version.Older] at newer ⊢
      omega
    simp only [Version.Ordered, newer, notOlder, ahead_iff newer, iff_true, true_implies, false_implies, and_true,
      false_and, or_false]
  · by_cases older : latest.Older running
    · simp only [Version.Ordered, newer, older, ahead_iff older, iff_false, true_implies, false_implies, true_and,
        Nat.not_lt]
      exact Nat.le_iff_lt_or_eq
    · have same : latest = running := by
        cases latest
        cases running
        simp only [Version.Older] at newer older
        simp only [Version.mk.injEq]
        omega
      subst same
      simp only [Version.Ordered, newer, lt_self_iff_false, false_implies, and_self]

/-- The answer for a release. -/
def released (v : Version) : Json := .obj [("tag_name", .str v.tag)]

theorem nextPatch_downloaded : newRelease (signedVer (Version.tag ⟨0, 5, 1⟩)) false ⟨200, some (released ⟨0, 5, 2⟩)⟩ =
    .ok (some (released ⟨0, 5, 2⟩)) :=
  ((update_ordered_iff (n := 52) (m := 51) (stoi_eq_ok_iff.mpr (by decide +kernel))
    (stoi_eq_ok_iff.mpr (by decide +kernel)) rfl rfl rfl).mpr (by decide +kernel)).mpr (by decide)

/-- After `v0.5.10`, whose number is 510, the release `v0.6.0` with the number 60 is not seen. -/
theorem minorRelease_missed : Version.Older ⟨0, 5, 10⟩ ⟨0, 6, 0⟩ ∧
    newRelease (signedVer (Version.tag ⟨0, 5, 10⟩)) false ⟨200, some (released ⟨0, 6, 0⟩)⟩ = .ok none :=
  ⟨by decide, rfl⟩

end OsuTracker.Soundness.UpdateOrder
