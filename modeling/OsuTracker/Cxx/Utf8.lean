import OsuTracker.Cxx.Json

/-! # UTF-8 as the JSON library checks it

The scanner of the library names, for each first byte, the ranges of the bytes that must follow;
the serializer walks a table of states instead. Both are the same machine, whose state is the list
of ranges still owed, and what it accepts is a sequence of encoded scalar values: the texts that
`Json.isUtf8` accepts.
-/

namespace OsuTracker.Cxx.Utf8

/-- The least and the greatest byte that may stand in a place. -/
abbrev Range := ℕ × ℕ

def Range.Holds (range : Range) (c : UInt8) : Prop := range.1 ≤ c.toNat ∧ c.toNat ≤ range.2

instance decidableHolds (range : Range) (c : UInt8) : Decidable (range.Holds c) :=
  inferInstanceAs (Decidable (_ ∧ _))

/-- A byte that continues a sequence. -/
def tail : Range := (0x80, 0xBF)

/-- The ranges that a first byte asks for, none for a byte that starts no sequence. -/
def leadRanges (c : UInt8) : Option (List Range) :=
  let n := c.toNat
  if n < 0x80 then some []
  else if n < 0xC2 then none
  else if n < 0xE0 then some [tail]
  else if n = 0xE0 then some [(0xA0, 0xBF), tail]
  else if n = 0xED then some [(0x80, 0x9F), tail]
  else if n < 0xF0 then some [tail, tail]
  else if n = 0xF0 then some [(0x90, 0xBF), tail, tail]
  else if n < 0xF4 then some [tail, tail, tail]
  else if n = 0xF4 then some [(0x80, 0x8F), tail, tail]
  else none

/-- What is owed after one more byte, none when the byte is out of place. -/
def owe : List Range → UInt8 → Option (List Range)
  | [], c => leadRanges c
  | range :: owed, c => if range.Holds c then some owed else none

def owes : List Range → Str → Option (List Range)
  | owed, [] => some owed
  | owed, c :: rest => (owe owed c).bind fun owed => owes owed rest

/-- Every sequence is complete. -/
def WellFormed (s : Str) : Prop := owes [] s = some []

instance decidableWellFormed (s : Str) : Decidable (WellFormed s) := inferInstanceAs (Decidable (_ = _))

theorem owes_append (owed : List Range) (front back : Str) :
    owes owed (front ++ back) = (owes owed front).bind fun owed => owes owed back := by
  induction front generalizing owed with
  | nil => rfl
  | cons c rest ih =>
    rw [List.cons_append, owes, owes, Option.bind_assoc]
    congr 1
    funext next
    exact ih next

theorem WellFormed.append {front back : Str} (left : WellFormed front) (right : WellFormed back) :
    WellFormed (front ++ back) := by
  rw [WellFormed, owes_append, left]
  exact right

/-! ## Scalar values -/

def Scalar (n : ℕ) : Prop := n < 0xD800 ∨ 0xDFFF < n ∧ n < 0x110000

/-- The bytes of a code point, whose parts do not overlap. -/
def codepointBytes (n : ℕ) : Str :=
  if n < 0x80 then [UInt8.ofNat n]
  else if n ≤ 0x7FF then [UInt8.ofNat (0xC0 + n / 0x40), UInt8.ofNat (0x80 + n % 0x40)]
  else if n ≤ 0xFFFF then
    [UInt8.ofNat (0xE0 + n / 0x1000), UInt8.ofNat (0x80 + n / 0x40 % 0x40), UInt8.ofNat (0x80 + n % 0x40)]
  else
    [UInt8.ofNat (0xF0 + n / 0x40000), UInt8.ofNat (0x80 + n / 0x1000 % 0x40),
      UInt8.ofNat (0x80 + n / 0x40 % 0x40), UInt8.ofNat (0x80 + n % 0x40)]

private theorem toNat_ofNat {n : ℕ} (small : n < 256) : (UInt8.ofNat n).toNat = n := by
  rw [UInt8.toNat_ofNat', Nat.mod_eq_of_lt (by omega)]

theorem codepointBytes_eq_utf8EncodeChar (c : Char) : codepointBytes c.toNat = String.utf8EncodeChar c := by
  have range : c.toNat < 0x110000 := by
    rcases c.valid with below | ⟨_, below⟩
    · exact Nat.lt_trans below (by decide)
    · exact below
  change codepointBytes c.val.toNat = _
  change c.val.toNat < _ at range
  unfold codepointBytes String.utf8EncodeChar
  generalize c.val.toNat = n at range
  have tails (k : ℕ) : 0x80 + k % 0x40 = k % 0x40 + 0x80 := Nat.add_comm _ _
  simp only [tails]
  split_ifs <;> first | rfl | omega | skip
  · rw [Nat.mod_eq_of_lt (by omega : n / 64 < 0x20), Nat.add_comm]
  · rw [Nat.mod_eq_of_lt (by omega : n / 4096 < 0x10), Nat.add_comm]
  · rw [Nat.mod_eq_of_lt (by omega : n / 262144 < 0x08), Nat.add_comm]

private theorem owes_cons_iff (range : Range) (owed : List Range) (s : Str) :
    owes (range :: owed) s = some [] ↔ ∃ c rest, s = c :: rest ∧ range.Holds c ∧ owes owed rest = some [] := by
  cases s with
  | nil => simp [owes]
  | cons c rest =>
    rw [owes, owe]
    split
    · next holds => simp [holds]
    · next fails => simp [fails]

/-- The ranges after a first byte, by how many bytes follow it. -/
theorem leadRanges_eq_some {c : UInt8} {ranges : List Range} (lead : leadRanges c = some ranges) :
    (ranges = [] ∧ c.toNat < 0x80) ∨
    (ranges = [tail] ∧ 0xC2 ≤ c.toNat ∧ c.toNat < 0xE0) ∨
    (ranges = [(if c.toNat = 0xE0 then 0xA0 else 0x80, if c.toNat = 0xED then 0x9F else 0xBF), tail] ∧
      0xE0 ≤ c.toNat ∧ c.toNat < 0xF0) ∨
    (ranges = [(if c.toNat = 0xF0 then 0x90 else 0x80, if c.toNat = 0xF4 then 0x8F else 0xBF), tail, tail] ∧
      0xF0 ≤ c.toNat ∧ c.toNat < 0xF5) := by
  simp only [leadRanges] at lead
  split_ifs at lead <;> cases lead <;> simp_all [tail]
  all_goals omega

private theorem ofNat_eq {n : ℕ} {c : UInt8} (value : n = c.toNat) : UInt8.ofNat n = c := by
  rw [value, UInt8.ofNat_toNat]

/-- A well-formed text starts with an encoded scalar value. -/
theorem WellFormed.exists_scalar {c : UInt8} {rest : Str} (formed : WellFormed (c :: rest)) :
    ∃ n back, Scalar n ∧ c :: rest = codepointBytes n ++ back ∧ WellFormed back := by
  rw [WellFormed, owes, owe] at formed
  obtain ⟨ranges, lead, formed⟩ := Option.bind_eq_some_iff.mp formed
  obtain ⟨rfl, one⟩ | ⟨rfl, low, high⟩ | ⟨rfl, low, high⟩ | ⟨rfl, low, high⟩ := leadRanges_eq_some lead
  · refine ⟨c.toNat, rest, Or.inl (by omega), ?_, formed⟩
    rw [codepointBytes, if_pos one, UInt8.ofNat_toNat]
    rfl
  · obtain ⟨d, rest, rfl, second, formed⟩ := (owes_cons_iff _ _ _).mp formed
    simp only [Range.Holds, tail] at second
    refine ⟨(c.toNat - 0xC0) * 0x40 + (d.toNat - 0x80), rest, Or.inl (by omega), ?_, formed⟩
    rw [codepointBytes, if_neg (by omega), if_pos (by omega), ofNat_eq (c := c) (by omega),
      ofNat_eq (c := d) (by omega)]
    rfl
  · obtain ⟨d, rest, rfl, second, formed⟩ := (owes_cons_iff _ _ _).mp formed
    obtain ⟨e, rest, rfl, third, formed⟩ := (owes_cons_iff _ _ _).mp formed
    simp only [Range.Holds, tail] at second third
    have within : 0x80 ≤ d.toNat ∧ d.toNat ≤ 0xBF ∧ (c.toNat = 0xE0 → 0xA0 ≤ d.toNat) ∧
        (c.toNat = 0xED → d.toNat ≤ 0x9F) := by
      split_ifs at second <;> omega
    clear second
    refine ⟨(c.toNat - 0xE0) * 0x1000 + (d.toNat - 0x80) * 0x40 + (e.toNat - 0x80), rest, ?_, ?_, formed⟩
    · rw [Scalar]
      omega
    · rw [codepointBytes, if_neg (by omega), if_neg (by omega), if_pos (by omega), ofNat_eq (c := c) (by omega),
        ofNat_eq (c := d) (by omega), ofNat_eq (c := e) (by omega)]
      rfl
  · obtain ⟨d, rest, rfl, second, formed⟩ := (owes_cons_iff _ _ _).mp formed
    obtain ⟨e, rest, rfl, third, formed⟩ := (owes_cons_iff _ _ _).mp formed
    obtain ⟨f, rest, rfl, fourth, formed⟩ := (owes_cons_iff _ _ _).mp formed
    simp only [Range.Holds, tail] at second third fourth
    have within : 0x80 ≤ d.toNat ∧ d.toNat ≤ 0xBF ∧ (c.toNat = 0xF0 → 0x90 ≤ d.toNat) ∧
        (c.toNat = 0xF4 → d.toNat ≤ 0x8F) := by
      split_ifs at second <;> omega
    clear second
    refine ⟨(c.toNat - 0xF0) * 0x40000 + (d.toNat - 0x80) * 0x1000 + (e.toNat - 0x80) * 0x40 + (f.toNat - 0x80),
      rest, ?_, ?_, formed⟩
    · rw [Scalar]
      omega
    · rw [codepointBytes, if_neg (by omega), if_neg (by omega), if_neg (by omega), ofNat_eq (c := c) (by omega),
        ofNat_eq (c := d) (by omega), ofNat_eq (c := e) (by omega), ofNat_eq (c := f) (by omega)]
      rfl

private theorem owes_cons {range : Range} {n : ℕ} (small : n < 256) (low : range.1 ≤ n) (high : n ≤ range.2)
    (owed : List Range) (rest : Str) : owes (range :: owed) (UInt8.ofNat n :: rest) = owes owed rest := by
  have holds : range.Holds (UInt8.ofNat n) := by rwa [Range.Holds, toNat_ofNat small, and_iff_right low]
  rw [owes, owe, if_pos holds, Option.bind_some]

private theorem owes_lead {n : ℕ} {ranges : List Range} (lead : leadRanges (UInt8.ofNat n) = some ranges) (rest : Str) :
    owes [] (UInt8.ofNat n :: rest) = owes ranges rest := by
  rw [owes, owe, lead, Option.bind_some]

private theorem leadRanges_three {n k : ℕ} (low : 0xE0 ≤ n) (high : n < 0xF0) (six : k < 0x40)
    (overlong : n = 0xE0 → 0x20 ≤ k) (surrogate : n = 0xED → k < 0x20) :
    ∃ range : Range, leadRanges (UInt8.ofNat n) = some [range, tail] ∧ range.1 ≤ 0x80 + k ∧ 0x80 + k ≤ range.2 := by
  rw [leadRanges, toNat_ofNat (by omega), if_neg (by omega), if_neg (by omega), if_neg (by omega)]
  by_cases first : n = 0xE0
  · exact ⟨_, if_pos first, by have := overlong first; omega, by omega⟩
  · rw [if_neg first]
    by_cases last : n = 0xED
    · exact ⟨_, if_pos last, by omega, by have := surrogate last; omega⟩
    · rw [if_neg last, if_pos high]
      exact ⟨tail, rfl, by rw [tail]; omega, by rw [tail]; omega⟩

private theorem leadRanges_four {n k : ℕ} (low : 0xF0 ≤ n) (high : n < 0xF5) (six : k < 0x40)
    (overlong : n = 0xF0 → 0x10 ≤ k) (last : n = 0xF4 → k < 0x10) :
    ∃ range : Range, leadRanges (UInt8.ofNat n) = some [range, tail, tail] ∧
      range.1 ≤ 0x80 + k ∧ 0x80 + k ≤ range.2 := by
  rw [leadRanges, toNat_ofNat (by omega), if_neg (by omega), if_neg (by omega), if_neg (by omega),
    if_neg (by omega), if_neg (by omega), if_neg (by omega)]
  by_cases first : n = 0xF0
  · exact ⟨_, if_pos first, by have := overlong first; omega, by omega⟩
  · rw [if_neg first]
    by_cases below : n < 0xF4
    · rw [if_pos below]
      exact ⟨tail, rfl, by rw [tail]; omega, by rw [tail]; omega⟩
    · have four : n = 0xF4 := by omega
      exact ⟨_, by rw [if_neg below, if_pos four], by omega, by have := last four; omega⟩

/-- An encoded scalar value is one complete sequence. -/
theorem wellFormed_codepointBytes {n : ℕ} (scalar : Scalar n) : WellFormed (codepointBytes n) := by
  have range : n < 0xD800 ∨ 0xDFFF < n ∧ n < 0x110000 := scalar
  have tails (k : ℕ) (owed : List Range) (rest : Str) :
      owes (tail :: owed) (UInt8.ofNat (0x80 + k % 0x40) :: rest) = owes owed rest :=
    owes_cons (by omega) (by simp [tail]) (by simp only [tail]; omega) owed rest
  unfold codepointBytes WellFormed
  split_ifs with one two three
  · have lead : leadRanges (UInt8.ofNat n) = some [] := by rw [leadRanges, toNat_ofNat (by omega), if_pos one]
    rw [owes_lead lead]
    rfl
  · have lead : leadRanges (UInt8.ofNat (0xC0 + n / 0x40)) = some [tail] := by
      rw [leadRanges, toNat_ofNat (by omega)]
      split_ifs <;> first | rfl | omega
    rw [owes_lead lead, tails]
    rfl
  · obtain ⟨range, lead, low, high⟩ := leadRanges_three (n := 0xE0 + n / 0x1000) (k := n / 0x40 % 0x40)
      (by omega) (by omega) (by omega) (by omega) (by omega)
    rw [owes_lead lead, owes_cons (by omega) low high, tails]
    rfl
  · obtain ⟨range, lead, low, high⟩ := leadRanges_four (n := 0xF0 + n / 0x40000) (k := n / 0x1000 % 0x40)
      (by omega) (by omega) (by omega) (by omega) (by omega)
    rw [owes_lead lead, owes_cons (by omega) low high, tails, tails]
    rfl

/-! ## The texts of the model -/

/-- A well-formed text is its characters, encoded one after the other. -/
theorem wellFormed_iff_exists_chars (s : Str) :
    WellFormed s ↔ ∃ chars : List Char, chars.flatMap String.utf8EncodeChar = s := by
  constructor
  · intro formed
    induction length : s.length using Nat.strong_induction_on generalizing s with
    | _ k ih =>
      cases s with
      | nil => exact ⟨[], rfl⟩
      | cons c rest =>
        obtain ⟨n, back, scalar, split, formed⟩ := formed.exists_scalar
        have char : (Char.ofNat n).toNat = n := by
          rw [Char.ofNat, dif_pos (by rw [Nat.isValidChar]; exact scalar)]
          rfl
        have first := codepointBytes_eq_utf8EncodeChar (Char.ofNat n)
        rw [char] at first
        have shorter : back.length < k := by
          have nonempty := List.length_pos_of_ne_nil (String.utf8EncodeChar_ne_nil (c := Char.ofNat n))
          rw [← length, split, List.length_append, first]
          omega
        obtain ⟨chars, rfl⟩ := ih back.length shorter back formed rfl
        exact ⟨Char.ofNat n :: chars, by rw [List.flatMap_cons, split, first]⟩
  · rintro ⟨chars, rfl⟩
    induction chars with
    | nil => exact rfl
    | cons c rest ih =>
      rw [List.flatMap_cons, ← codepointBytes_eq_utf8EncodeChar]
      exact (wellFormed_codepointBytes c.valid).append ih

/-- What the ranges accept is what the language accepts as UTF-8. -/
theorem wellFormed_iff_isUtf8 (s : Str) : WellFormed s ↔ Json.isUtf8 s = true := by
  have encoded (chars : List Char) :
      (⟨s.toArray⟩ : ByteArray) = chars.utf8Encode ↔ chars.flatMap String.utf8EncodeChar = s := by
    rw [List.utf8Encode, eq_comm (b := (_ : ByteArray)), ByteArray.ext_iff, List.data_toByteArray]
    exact ⟨List.toArray_inj, congrArg List.toArray⟩
  rw [wellFormed_iff_exists_chars, Json.isUtf8, ByteArray.validateUTF8_eq_true_iff]
  constructor
  · rintro ⟨chars, same⟩
    exact ⟨chars, (encoded chars).mpr same⟩
  · rintro ⟨chars, same⟩
    exact ⟨chars, (encoded chars).mp same⟩

end OsuTracker.Cxx.Utf8
