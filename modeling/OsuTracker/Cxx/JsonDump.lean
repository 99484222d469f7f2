import OsuTracker.Cxx.Utf8

/-! # JSON text as it is written

The serializer walks its table of UTF-8 states over the bytes of a text, escapes what JSON does not
allow in a string and copies the rest; a byte out of place, or a text that ends inside a sequence,
is an exception. A value is written without blanks, or over several lines with an indentation that
grows by a fixed step, copied from a string of blanks that is doubled once where it is too short.
-/

namespace OsuTracker.Cxx.JsonDump

open Utf8

/-! ## The decoder -/

/-- The table: the class of each byte, then sixteen transitions for each state. -/
def utf8d : List ℕ :=
  .replicate 128 0 ++ .replicate 16 1 ++ .replicate 16 9 ++ .replicate 32 7 ++ [8, 8] ++ .replicate 30 2 ++
    [0xA, 3, 3, 3, 3, 3, 3, 3, 3, 3, 3, 3, 3, 4, 3, 3, 0xB, 6, 6, 6, 5, 8, 8, 8, 8, 8, 8, 8, 8, 8, 8, 8,
      0, 1, 2, 3, 5, 8, 7, 1, 1, 1, 4, 6, 1, 1, 1, 1,
      1, 1, 1, 1, 1, 1, 1, 1, 1, 1, 1, 1, 1, 1, 1, 1, 1, 0, 1, 1, 1, 1, 1, 0, 1, 0, 1, 1, 1, 1, 1, 1,
      1, 2, 1, 1, 1, 1, 1, 2, 1, 2, 1, 1, 1, 1, 1, 1, 1, 1, 1, 1, 1, 1, 1, 2, 1, 1, 1, 1, 1, 1, 1, 1,
      1, 2, 1, 1, 1, 1, 1, 1, 1, 2, 1, 1, 1, 1, 1, 1, 1, 1, 1, 1, 1, 1, 1, 3, 1, 3, 1, 1, 1, 1, 1, 1,
      1, 3, 1, 1, 1, 1, 1, 3, 1, 3, 1, 1, 1, 1, 1, 1, 1, 3, 1, 1, 1, 1, 1, 1, 1, 1, 1, 1, 1, 1, 1, 1]

def accept : ℕ := 0
def reject : ℕ := 1

/-- The state of the decoder and the bits of the code point it has read. -/
structure Decoder where
  state : ℕ := accept
  codepoint : ℕ := 0

def Decoder.decode (d : Decoder) (c : UInt8) : Decoder :=
  let type := utf8d.getD c.toNat 0
  { state := utf8d.getD (256 + d.state * 16 + type) 0
    codepoint :=
      if d.state ≠ accept then (c.toNat % 0x40 + d.codepoint * 0x40) % 2 ^ 32 else (0xFF >>> type) &&& c.toNat }

/-! ## Texts -/

def hexDigit (n : ℕ) : UInt8 := if n < 10 then UInt8.ofNat (48 + n) else UInt8.ofNat (87 + n)

/-- `\u` and four hexadecimal digits. -/
def unicodeEscape (n : ℕ) : Str :=
  [92, 117, hexDigit (n / 0x1000 % 0x10), hexDigit (n / 0x100 % 0x10), hexDigit (n / 0x10 % 0x10), hexDigit (n % 0x10)]

/-- What is written for a code point that ends with the byte `c`. -/
def escape (codepoint : ℕ) (c : UInt8) : Str :=
  if codepoint = 0x08 then "\\b"
  else if codepoint = 0x09 then "\\t"
  else if codepoint = 0x0A then "\\n"
  else if codepoint = 0x0C then "\\f"
  else if codepoint = 0x0D then "\\r"
  else if codepoint = 0x22 then "\\\""
  else if codepoint = 0x5C then "\\\\"
  else if codepoint ≤ 0x1F then unicodeEscape codepoint
  else [c]

/-- The loop of `dump_escaped` with the strict error handler. -/
def dumpEscapedFrom (d : Decoder) : Str → Except Exception Str
  | [] => if d.state = accept then .ok [] else .error (.json 316)
  | c :: rest =>
    let next := d.decode c
    if next.state = accept then (dumpEscapedFrom next rest).map (escape next.codepoint c ++ ·)
    else if next.state = reject then .error (.json 316)
    else (dumpEscapedFrom next rest).map (c :: ·)

def dumpEscaped (s : Str) : Except Exception Str := dumpEscapedFrom {} s

/-! ## What a text is written as -/

/-- What a state of the table owes. -/
def owed : ℕ → Option (List Range)
  | 0 => some []
  | 2 => some [tail]
  | 3 => some [tail, tail]
  | 4 => some [(0xA0, 0xBF), tail]
  | 5 => some [(0x80, 0x9F), tail]
  | 6 => some [(0x90, 0xBF), tail, tail]
  | 7 => some [tail, tail, tail]
  | 8 => some [(0x80, 0x8F), tail, tail]
  | _ => none

theorem owed_eq_none_iff {state : ℕ} (small : state < 9) : owed state = none ↔ state = reject := by
  have all : ∀ state : Fin 9, owed state.val = none ↔ state.val = reject := by decide
  exact all ⟨state, small⟩

/-- The table follows the ranges, from every state and for every byte. -/
theorem owed_decode {d : Decoder} {ranges : List Range} (known : owed d.state = some ranges) (c : UInt8) :
    (d.decode c).state < 9 ∧ owed (d.decode c).state = owe ranges c := by
  have all : ∀ state : Fin 9, ∀ n : Fin 256,
      let next := utf8d.getD (256 + state.val * 16 + utf8d.getD n.val 0) 0
      next < 9 ∧ (owed state).all fun ranges => owed next == owe ranges (UInt8.ofNat n.val) := by
    decide +kernel
  have small : d.state < 9 := by
    by_contra large
    match d.state, large, known with
    | state + 9, _, known => cases known
  obtain ⟨below, step⟩ := all ⟨d.state, small⟩ ⟨c.toNat, c.toNat_lt⟩
  simp only [known, Option.all_some, UInt8.ofNat_toNat, beq_iff_eq] at step
  exact ⟨below, step⟩

/-- The bits of a code point followed by the least ones of a range. -/
@[irreducible] def shift (codepoint : ℕ) (range : Range) : ℕ := codepoint * 0x40 + (range.1 - 0x80)

/-- The least code point that the bits read so far can still become. -/
def least (codepoint : ℕ) (ranges : List Range) : ℕ := ranges.foldl shift codepoint

theorem shift_mono {low high : ℕ} (below : low ≤ high) (range : Range) : shift low range ≤ shift high range := by
  unfold shift
  exact Nat.add_le_add_right (Nat.mul_le_mul_right _ below) _

theorem least_mono {low high : ℕ} (below : low ≤ high) (ranges : List Range) : least low ranges ≤ least high ranges := by
  induction ranges generalizing low high with
  | nil => exact below
  | cons range rest ih => exact ih (shift_mono below range)

/-- The decoder has read a part of a sequence that is no longer than its code point needs. -/
structure Decoder.Pending (d : Decoder) (ranges : List Range) : Prop where
  state : owed d.state = some ranges
  least : ranges ≠ [] → 0x80 ≤ least d.codepoint ranges
  bits : ranges ≠ [] → (d.codepoint + 1) * 0x40 ^ ranges.length ≤ 2 ^ 21
  tails : ∀ range ∈ ranges, 0x80 ≤ range.1 ∧ range.2 ≤ 0xBF

theorem Decoder.Pending.state_eq_accept {d : Decoder} {ranges : List Range} (pending : d.Pending ranges) :
    d.state = accept ↔ ranges = [] := by
  have known := pending.state
  constructor
  · intro accepted
    rw [accepted] at known
    exact (Option.some.inj known).symm
  · rintro rfl
    unfold owed at known
    split at known <;> first | assumption | cases known

/-- A first byte of a sequence. -/
theorem Decoder.pending_lead {d : Decoder} (accepted : d.state = accept) {c : UInt8} {ranges : List Range}
    (lead : leadRanges c = some ranges) :
    (d.decode c).Pending ranges ∧ (ranges = [] → (d.decode c).codepoint = c.toNat) ∧
      (ranges ≠ [] → 0x80 ≤ c.toNat) := by
  have all : ∀ n : Fin 256, (leadRanges (UInt8.ofNat n.val)).all fun ranges =>
      let codepoint := (0xFF >>> utf8d.getD n.val 0) &&& n.val
      (ranges == [] || (0x80 ≤ JsonDump.least codepoint ranges && 0x80 ≤ n.val &&
        (codepoint + 1) * 0x40 ^ ranges.length ≤ 2 ^ 21)) &&
      (ranges != [] || codepoint == n.val) &&
      ranges.all fun range => 0x80 ≤ range.1 && range.2 ≤ 0xBF := by
    decide +kernel
  have byte := all ⟨c.toNat, c.toNat_lt⟩
  have bits : (d.decode c).codepoint = (0xFF >>> utf8d.getD c.toNat 0) &&& c.toNat := by
    simp only [Decoder.decode, accepted, ne_eq, not_true_eq_false, ↓reduceIte]
  have state : owed (d.decode c).state = some ranges := by
    have start : owed d.state = some [] := by
      rw [accepted]
      rfl
    rw [(owed_decode start c).2]
    exact lead
  simp only [UInt8.ofNat_toNat, lead, Option.all_some, Bool.and_eq_true, Bool.or_eq_true, beq_iff_eq,
    decide_eq_true_eq, bne_iff_ne, List.all_eq_true, ← bits] at byte
  obtain ⟨⟨long, short⟩, tails⟩ := byte
  refine ⟨⟨state, fun pending => ?_, fun pending => ?_, tails⟩, fun complete => ?_, fun pending => ?_⟩
  · exact (long.resolve_left pending).1.1
  · exact (long.resolve_left pending).2
  · exact short.resolve_left (not_not.mpr complete)
  · exact (long.resolve_left pending).1.2

/-- A byte that continues a sequence. -/
theorem Decoder.Pending.tail {d : Decoder} {range : Range} {ranges : List Range} (pending : d.Pending (range :: ranges))
    {c : UInt8} (holds : range.Holds c) :
    (d.decode c).Pending ranges ∧ 0x80 ≤ c.toNat ∧ 0x80 ≤ JsonDump.least (d.decode c).codepoint ranges := by
  obtain ⟨low, high⟩ := pending.tails range List.mem_cons_self
  have least := pending.least (List.cons_ne_nil _ _)
  have bits := pending.bits (List.cons_ne_nil _ _)
  have inside : d.state ≠ accept := fun accepted => List.cons_ne_nil _ _ (pending.state_eq_accept.mp accepted)
  have between : range.1 ≤ c.toNat ∧ c.toNat ≤ range.2 := holds
  have positive : 0 < 0x40 ^ ranges.length := Nat.pow_pos (by decide)
  rw [List.length_cons, pow_succ', ← Nat.mul_assoc] at bits
  have small : (d.codepoint + 1) * 0x40 ≤ 2 ^ 21 := le_trans (Nat.le_mul_of_pos_right _ positive) bits
  have codepoint : (d.decode c).codepoint = c.toNat % 0x40 + d.codepoint * 0x40 := by
    simp only [Decoder.decode, ne_eq, inside, not_false_eq_true, ↓reduceIte]
    exact Nat.mod_eq_of_lt (by omega)
  have above : 0x80 ≤ JsonDump.least (d.decode c).codepoint ranges := by
    refine le_trans least (least_mono ?_ ranges)
    unfold shift
    rw [codepoint, Nat.add_comm]
    exact Nat.add_le_add_right (by omega) _
  refine ⟨⟨?_, fun _ => above, fun _ => ?_, fun other member => pending.tails other (List.mem_cons_of_mem _ member)⟩,
    by omega, above⟩
  · rw [(owed_decode pending.state c).2, owe, if_pos holds]
  · refine le_trans (Nat.mul_le_mul_right _ ?_) bits
    rw [codepoint]
    omega

/-- The escape of a byte: only ASCII characters are escaped. -/
def escapeByte (c : UInt8) : Str := escape c.toNat c

theorem escape_of_le {codepoint : ℕ} (above : 0x80 ≤ codepoint) (c : UInt8) : escape codepoint c = [c] := by
  unfold escape
  repeat rw [if_neg (by omega)]

theorem Decoder.Pending.next {d : Decoder} {ranges next : List Range} (pending : d.Pending ranges) {c : UInt8}
    (owing : owe ranges c = some next) :
    (d.decode c).Pending next ∧ (next ≠ [] → escapeByte c = [c]) ∧
      (next = [] → escape (d.decode c).codepoint c = escapeByte c) := by
  cases ranges with
  | nil =>
    obtain ⟨pending', single, inside⟩ := Decoder.pending_lead (pending.state_eq_accept.mpr rfl) owing
    refine ⟨pending', fun more => escape_of_le (inside more) c, fun complete => ?_⟩
    rw [single complete, escapeByte]
  | cons range rest =>
    rw [owe] at owing
    split at owing
    · next holds =>
      obtain rfl := Option.some.inj owing
      obtain ⟨pending', high, least⟩ := pending.tail holds
      refine ⟨pending', fun _ => escape_of_le high c, ?_⟩
      rintro rfl
      rw [escape_of_le (show 0x80 ≤ (d.decode c).codepoint from least), escapeByte, escape_of_le high]
    · cases owing

theorem dumpEscapedFrom_eq (s : Str) {d : Decoder} {ranges : List Range} (pending : d.Pending ranges) :
    dumpEscapedFrom d s = if owes ranges s = some [] then .ok (s.flatMap escapeByte) else .error (.json 316) := by
  induction s generalizing d ranges with
  | nil =>
    rw [dumpEscapedFrom, owes]
    simp only [pending.state_eq_accept, Option.some.injEq, List.flatMap_nil]
  | cons c rest ih =>
    obtain ⟨small, state⟩ := owed_decode pending.state c
    rw [owes]
    cases owing : owe ranges c with
    | none =>
      have rejected : (d.decode c).state = reject := (owed_eq_none_iff small).mp (state.trans owing)
      rw [dumpEscapedFrom]
      simp only [rejected]
      rfl
    | some next =>
      obtain ⟨pending', inside, complete⟩ := pending.next owing
      have accepted : (d.decode c).state ≠ reject := by
        intro rejected
        have state := pending'.state
        rw [rejected] at state
        cases state
      rw [dumpEscapedFrom]
      simp only [pending'.state_eq_accept, if_neg accepted, ih pending', Option.bind_some, List.flatMap_cons]
      by_cases finished : next = []
      · rw [if_pos finished, complete finished]
        split <;> rfl
      · rw [if_neg finished, inside finished]
        split <;> rfl

/-- A text is written with its ASCII characters escaped one by one, and only if it is UTF-8. -/
theorem dumpEscaped_eq (s : Str) :
    dumpEscaped s = if Json.isUtf8 s then .ok (s.flatMap escapeByte) else .error (.json 316) := by
  have start : ({} : Decoder).Pending [] := by
    refine ⟨rfl, fun pending => absurd rfl pending, fun pending => absurd rfl pending, ?_⟩
    simp
  rw [dumpEscaped, dumpEscapedFrom_eq s start]
  simp only [← wellFormed_iff_isUtf8, WellFormed]

/-- The bytes that are owed are not ASCII. -/
theorem high_of_owe {ranges next : List Range} (high : ∀ range ∈ ranges, 0x80 ≤ range.1) {c : UInt8}
    (owing : owe ranges c = some next) : ∀ range ∈ next, 0x80 ≤ range.1 := by
  cases ranges with
  | nil =>
    have all : ∀ n : Fin 256, (leadRanges (UInt8.ofNat n.val)).all fun ranges => ranges.all fun range => 0x80 ≤ range.1 := by
      decide +kernel
    have own := all ⟨c.toNat, c.toNat_lt⟩
    rw [owe] at owing
    simpa only [UInt8.ofNat_toNat, owing, Option.all_some, List.all_eq_true, decide_eq_true_eq] using own
  | cons range rest =>
    rw [owe] at owing
    split at owing
    · cases owing
      exact fun range later => high range (List.mem_cons_of_mem _ later)
    · cases owing

/-- An escape is as complete as the byte that it stands for. -/
theorem owes_escapeByte {ranges next : List Range} (high : ∀ range ∈ ranges, 0x80 ≤ range.1) {c : UInt8}
    (owing : owe ranges c = some next) : owes ranges (escapeByte c) = some next := by
  by_cases ascii : c.toNat < 0x80
  · cases ranges with
    | nil =>
      have all : ∀ n : Fin 128, leadRanges (UInt8.ofNat n.val) = some [] ∧ owes [] (escapeByte (UInt8.ofNat n.val)) = some [] := by
        decide +kernel
      obtain ⟨lead, escaped⟩ := all ⟨c.toNat, ascii⟩
      rw [UInt8.ofNat_toNat] at lead escaped
      rw [escaped, ← lead]
      exact owing
    | cons range rest =>
      rw [owe] at owing
      split at owing
      · next holds =>
        have low := high range List.mem_cons_self
        have above := holds.1
        omega
      · cases owing
  · rw [escapeByte, escape_of_le (Nat.not_lt.mp ascii), owes, owing]
    rfl

theorem owes_escaped {ranges : List Range} (high : ∀ range ∈ ranges, 0x80 ≤ range.1) {s : Str}
    (formed : owes ranges s = some []) : owes ranges (s.flatMap escapeByte) = some [] := by
  induction s generalizing ranges with
  | nil => exact formed
  | cons c rest ih =>
    rw [owes] at formed
    obtain ⟨next, owing, later⟩ := Option.bind_eq_some_iff.mp formed
    rw [List.flatMap_cons, owes_append, owes_escapeByte high owing]
    exact ih (high_of_owe high owing) later

/-! ## Values -/

def quoted (content : Str) : Str := 34 :: content ++ [34]

section Dump

variable (dumpFloat : Flt → Str) (indent : Option ℕ)

/-- The size of `indent_string` where a line takes `width` blanks: too short, it is doubled once. -/
def resized (size width : ℕ) : ℕ := if size < width then size * 2 else size

/-- The first `width` bytes of `indent_string`, from its `c_str()`. Behind the blanks there is the null
character; what lies behind that is not the string's, and stands here as zeros too. -/
def indentation (size width : ℕ) : Str := .replicate (min width size) 32 ++ .replicate (width - size) 0

/-- A line break and the indentation of the next line, when there is an indentation. -/
def newline (size width : ℕ) : Str := if indent.isSome then 10 :: indentation size width else []

def colon : Str := if indent.isSome then [58, 32] else [58]

mutual

/-- The size of `indent_string` after a value has been written. -/
def sizeAfter (size width : ℕ) : Json → ℕ
  | .arr (first :: rest) =>
    let inner := width + indent.getD 0
    sizeAfterElements (sizeAfter (resized size inner) inner first) inner rest
  | .obj ((_, first) :: rest) =>
    let inner := width + indent.getD 0
    sizeAfterMembers (sizeAfter (resized size inner) inner first) inner rest
  | _ => size

def sizeAfterElements (size inner : ℕ) : List Json → ℕ
  | [] => size
  | value :: rest => sizeAfterElements (sizeAfter size inner value) inner rest

def sizeAfterMembers (size inner : ℕ) : List (Str × Json) → ℕ
  | [] => size
  | (_, value) :: rest => sizeAfterMembers (sizeAfter size inner value) inner rest

end

mutual

/-- `dump` of a value whose line starts with an indentation of the given width, `indent_string` having
the given size. -/
def dumpAt (size width : ℕ) : Json → Except Exception Str
  | .null => .ok "null"
  | .bool value => .ok (if value then "true" else "false")
  | .int value => .ok (stdToString value)
  | .float value => .ok (if value.isFinite then dumpFloat value else "null")
  | .str value => (dumpEscaped value).map quoted
  | .arr [] => .ok "[]"
  | .arr (first :: rest) => do
    let inner := width + indent.getD 0
    let grown := resized size inner
    let after := sizeAfter indent grown inner first
    let last := sizeAfterElements indent after inner rest
    let first ← dumpAt grown inner first
    let rest ← dumpElements after inner rest
    .ok (91 :: newline indent grown inner ++ first ++ rest ++ newline indent last width ++ [93])
  | .obj [] => .ok "\x7b\x7d"
  | .obj ((key, first) :: rest) => do
    let inner := width + indent.getD 0
    let grown := resized size inner
    let after := sizeAfter indent grown inner first
    let last := sizeAfterMembers indent after inner rest
    let key ← dumpEscaped key
    let first ← dumpAt grown inner first
    let rest ← dumpMembers after inner rest
    .ok (123 :: newline indent grown inner ++ quoted key ++ colon indent ++ first ++ rest ++
      newline indent last width ++ [125])

def dumpElements (size inner : ℕ) : List Json → Except Exception Str
  | [] => .ok []
  | value :: rest => do
    let after := sizeAfter indent size inner value
    let value ← dumpAt size inner value
    let rest ← dumpElements after inner rest
    .ok (44 :: newline indent size inner ++ value ++ rest)

def dumpMembers (size inner : ℕ) : List (Str × Json) → Except Exception Str
  | [] => .ok []
  | (key, value) :: rest => do
    let after := sizeAfter indent size inner value
    let key ← dumpEscaped key
    let value ← dumpAt size inner value
    let rest ← dumpMembers after inner rest
    .ok (44 :: newline indent size inner ++ quoted key ++ colon indent ++ value ++ rest)

end

/-- `dump()` without an indentation, or `dump(indent)`. -/
def dump (j : Json) : Except Exception Str := dumpAt dumpFloat indent 512 0 j

end Dump

example : dump (fun _ => []) none (.obj [("client_id", .int (-7)), ("a\n", .arr [.null, .bool true])]) =
    .ok "\x7b\"client_id\":-7,\"a\\n\":[null,true]\x7d" := by decide +kernel

end OsuTracker.Cxx.JsonDump
