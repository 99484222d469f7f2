import OsuTracker.Cxx.Utf8

/-! # The tokens of a JSON text

The scanner of the JSON library. What it reads next never depends on the parser, so a text is its
list of tokens, which ends with the end of the input or with the first place where no token can be
read. A null byte ends the input. The loop over a string is bounded by the bytes that are left, of
which every turn takes some.
-/

namespace OsuTracker.Cxx.JsonLexer

open Utf8

inductive Token where
  | beginArray | endArray | beginObject | endObject | nameSeparator | valueSeparator
  | literalTrue | literalFalse | literalNull
  | valueString (value : Str)
  | valueUnsigned (value : ℕ)
  | valueInteger (value : ℤ)
  | valueFloat (value : Flt)
  | endOfInput
  | parseError
deriving DecidableEq

/-! ## Strings -/

/-- `next_byte_in_range`: the bytes in the given ranges and what follows them. -/
def nextByteInRange : List Range → Str → Option (Str × Str)
  | [], text => some ([], text)
  | range :: ranges, c :: rest =>
    if range.Holds c then (nextByteInRange ranges rest).map fun (taken, rest) => (c :: taken, rest) else none
  | _ :: _, [] => none

/-- The value of a hexadecimal digit. -/
def hexValue (c : UInt8) : Option ℕ :=
  let n := c.toNat
  if 0x30 ≤ n ∧ n ≤ 0x39 then some (n - 0x30)
  else if 0x41 ≤ n ∧ n ≤ 0x46 then some (n - 0x37)
  else if 0x61 ≤ n ∧ n ≤ 0x66 then some (n - 0x57)
  else none

def getCodepoint : Str → Option (ℕ × Str)
  | a :: b :: c :: d :: rest => do
    some ((← hexValue a) * 0x1000 + (← hexValue b) * 0x100 + (← hexValue c) * 0x10 + (← hexValue d), rest)
  | _ => none

/-- What follows `\u`: a code point, or two surrogates of one. -/
def scanUnicode (text : Str) : Option (Str × Str) := do
  let (codepoint1, rest) ← getCodepoint text
  if 0xD800 ≤ codepoint1 ∧ codepoint1 ≤ 0xDBFF then
    match rest with
    | 92 :: 117 :: rest => do
      let (codepoint2, rest) ← getCodepoint rest
      if 0xDC00 ≤ codepoint2 ∧ codepoint2 ≤ 0xDFFF then
        some (codepointBytes (codepoint1 * 0x400 + codepoint2 - 0x35FDC00), rest)
      else none
    | _ => none
  else if 0xDC00 ≤ codepoint1 ∧ codepoint1 ≤ 0xDFFF then none
  else some (codepointBytes codepoint1, rest)

/-- The character that one character after a backslash stands for. -/
def simpleEscape (c : UInt8) : Option UInt8 :=
  [((34 : UInt8), (34 : UInt8)), (92, 92), (47, 47), (98, 8), (102, 12), (110, 10), (114, 13), (116, 9)].lookup c

/-- What follows a backslash. -/
def scanEscape : Str → Option (Str × Str)
  | [] => none
  | c :: rest =>
    match simpleEscape c with
    | some character => some ([character], rest)
    | none => if c = 117 then scanUnicode rest else none

/-- One turn of the loop in a string: the bytes it adds and what is left. -/
def scanPiece (c : UInt8) (rest : Str) : Option (Str × Str) :=
  if c = 92 then scanEscape rest
  else if c.toNat < 0x20 then none
  else (leadRanges c).bind fun ranges => (nextByteInRange ranges rest).map fun (taken, rest) => (c :: taken, rest)

def scanStringFrom : ℕ → Str → Option (Str × Str)
  | 0, _ => none
  | _ + 1, [] => none
  | fuel + 1, c :: rest =>
    if c = 34 then some ([], rest)
    else do
      let (piece, rest) ← scanPiece c rest
      let (more, rest) ← scanStringFrom fuel rest
      some (piece ++ more, rest)

/-- What follows an opening quotation mark. -/
def scanString (text : Str) : Option (Str × Str) := scanStringFrom (text.length + 1) text

/-! ## Numbers -/

/-- The labels of `scan_number`. -/
inductive NumberState where
  | minus | zero | any1 | decimal1 | decimal2 | exponent | sign | any2
deriving DecidableEq

inductive NumberType where
  | unsigned | integer | float
deriving DecidableEq

namespace NumberState

/-- The label a character leads to. -/
def next (state : NumberState) (c : UInt8) : Option NumberState :=
  match state with
  | minus => if c = 48 then some zero else if isDigit c then some any1 else none
  | zero => if c = 46 then some decimal1 else if c = 101 ∨ c = 69 then some exponent else none
  | any1 =>
    if isDigit c then some any1 else if c = 46 then some decimal1
    else if c = 101 ∨ c = 69 then some exponent else none
  | decimal1 => if isDigit c then some decimal2 else none
  | decimal2 => if isDigit c then some decimal2 else if c = 101 ∨ c = 69 then some exponent else none
  | exponent => if c = 43 ∨ c = 45 then some sign else if isDigit c then some any2 else none
  | sign => if isDigit c then some any2 else none
  | any2 => if isDigit c then some any2 else none

/-- The labels from which any other character ends the number. -/
def done : NumberState → Bool
  | zero | any1 | decimal2 | any2 => true
  | minus | decimal1 | exponent | sign => false

/-- The type of a number from a label on. -/
def enter : NumberState → NumberType → NumberType
  | minus, _ => .integer
  | decimal1, _ | exponent, _ => .float
  | _, type => type

end NumberState

/-- The characters of a number after a label has been reached, its type and what is left. -/
def scanNumberFrom (state : NumberState) (type : NumberType) : Str → Option (Str × NumberType × Str)
  | [] => if state.done then some ([], type, []) else none
  | c :: rest =>
    match state.next c with
    | some next => (scanNumberFrom next (next.enter type) rest).map fun (digits, type, rest) => (c :: digits, type, rest)
    | none => if state.done then some ([], type, c :: rest) else none

/-- Integers that do not fit 64 bits are read as floating-point numbers. -/
def convertNumber (type : NumberType) (text : Str) : Token :=
  let real := Token.valueFloat ((strtod text).getD (.finite false 0 0))
  match type, scanInteger text with
  | .unsigned, some n => if n < 2 ^ 64 then .valueUnsigned n.toNat else real
  | .integer, some n => if -2 ^ 63 ≤ n ∧ n < 2 ^ 63 then .valueInteger n else real
  | _, _ => real

def scanNumber (c : UInt8) (rest : Str) : Token × Str :=
  let state := if c = 45 then NumberState.minus else if c = 48 then .zero else .any1
  match scanNumberFrom state (state.enter .unsigned) rest with
  | some (digits, type, rest) => (convertNumber type (c :: digits), rest)
  | none => (.parseError, [])

/-! ## Tokens -/

def scanLiteral (literal : Str) (token : Token) (text : Str) : Token × Str :=
  if literal <+: text then (token, text.drop literal.length) else (.parseError, [])

def isBlank (c : UInt8) : Bool := c == 32 || c == 9 || c == 10 || c == 13

/-- The tokens of one character. -/
def structural (c : UInt8) : Option Token :=
  [((91 : UInt8), Token.beginArray), (93, .endArray), (123, .beginObject), (125, .endObject),
    (58, .nameSeparator), (44, .valueSeparator)].lookup c

/-- The literals by their first character. -/
def literal (c : UInt8) : Option (Str × Token) :=
  [((116 : UInt8), (("true" : Str), Token.literalTrue)), (102, ("false", .literalFalse)),
    (110, ("null", .literalNull))].lookup c

/-- `scan` after the blanks. -/
def scanToken : Str → Token × Str
  | [] => (.endOfInput, [])
  | c :: rest =>
    match structural c, literal c with
    | some token, _ => (token, rest)
    | none, some (word, token) => scanLiteral word token (c :: rest)
    | none, none =>
      if c = 34 then
        match scanString rest with
        | some (value, rest) => (.valueString value, rest)
        | none => (.parseError, [])
      else if c = 45 ∨ isDigit c then scanNumber c rest
      else if c = 0 then (.endOfInput, rest)
      else (.parseError, [])

def scan (text : Str) : Token × Str := scanToken (text.dropWhile isBlank)

/-- The tokens after which there is another one. -/
def Token.more : Token → Bool
  | endOfInput | parseError => false
  | _ => true

def tokensFrom : ℕ → Str → List Token
  | 0, _ => []
  | fuel + 1, text =>
    let (token, rest) := scan text
    if token.more then token :: tokensFrom fuel rest else [token]

/-- The tokens of a text without a byte order mark. -/
def tokens (text : Str) : List Token := tokensFrom (text.length + 1) text

def skipBom : Str → Option Str
  | [] => some []
  | c :: rest =>
    if c = 0xEF then
      match rest with
      | 0xBB :: 0xBF :: rest => some rest
      | _ => none
    else some (c :: rest)

/-- The tokens of a document: a broken byte order mark is no token. -/
def lex (text : Str) : List Token :=
  match skipBom text with
  | some text => tokens text
  | none => [.parseError]

/-! ## Every turn takes some bytes -/

theorem nextByteInRange_eq_some {ranges : List Range} {text taken rest : Str}
    (success : nextByteInRange ranges text = some (taken, rest)) :
    text = taken ++ rest ∧ taken.length = ranges.length ∧ ∀ back, owes ranges (taken ++ back) = owes [] back := by
  induction ranges generalizing text taken with
  | nil =>
    rw [nextByteInRange] at success
    cases success
    exact ⟨rfl, rfl, fun _ => rfl⟩
  | cons range ranges ih =>
    cases text with
    | nil => cases success
    | cons c text =>
      rw [nextByteInRange] at success
      split_ifs at success with holds
      obtain ⟨⟨inner, left⟩, next, same⟩ := Option.map_eq_some_iff.mp success
      cases same
      obtain ⟨rfl, length, owing⟩ := ih next
      refine ⟨rfl, by rw [List.length_cons, List.length_cons, length], fun back => ?_⟩
      rw [List.cons_append, owes, owe, if_pos holds, Option.bind_some, owing]

private theorem getCodepoint_length {text rest : Str} {n : ℕ} (success : getCodepoint text = some (n, rest)) :
    rest.length < text.length := by
  unfold getCodepoint at success
  split at success
  · simp only [bind, Option.bind_eq_some_iff, Option.some.injEq, Prod.mk.injEq] at success
    obtain ⟨_, _, _, _, _, _, _, _, _, rfl⟩ := success
    simp only [List.length_cons]
    omega
  · cases success

private theorem scanUnicode_length {text piece rest : Str} (success : scanUnicode text = some (piece, rest)) :
    rest.length < text.length := by
  unfold scanUnicode at success
  obtain ⟨⟨codepoint1, left⟩, first, success⟩ := Option.bind_eq_some_iff.mp success
  have shorter := getCodepoint_length first
  dsimp only at success
  split_ifs at success
  · split at success
    · obtain ⟨⟨codepoint2, after⟩, second, success⟩ := Option.bind_eq_some_iff.mp success
      have again := getCodepoint_length second
      dsimp only at success
      split_ifs at success
      obtain ⟨_, rfl⟩ := Prod.mk.inj (Option.some.inj success)
      simp only [List.length_cons] at shorter
      omega
    · cases success
  · obtain ⟨_, rfl⟩ := Prod.mk.inj (Option.some.inj success)
    exact shorter

private theorem scanEscape_length {text piece rest : Str} (success : scanEscape text = some (piece, rest)) :
    rest.length < text.length := by
  cases text with
  | nil => cases success
  | cons c text =>
    rw [scanEscape] at success
    rw [List.length_cons]
    split at success
    · obtain ⟨_, rfl⟩ := Prod.mk.inj (Option.some.inj success)
      exact Nat.lt_succ_self _
    · split_ifs at success
      exact Nat.lt_succ_of_lt (scanUnicode_length success)

theorem scanPiece_length {c : UInt8} {text piece rest : Str} (success : scanPiece c text = some (piece, rest)) :
    rest.length ≤ text.length := by
  unfold scanPiece at success
  split_ifs at success
  · exact (scanEscape_length success).le
  · obtain ⟨ranges, lead, success⟩ := Option.bind_eq_some_iff.mp success
    obtain ⟨⟨taken, left⟩, next, same⟩ := Option.map_eq_some_iff.mp success
    cases same
    obtain ⟨rfl, _⟩ := nextByteInRange_eq_some next
    simp

theorem scanStringFrom_eq {fuel : ℕ} {text : Str} (enough : text.length < fuel) :
    scanStringFrom fuel text = scanString text := by
  induction length : text.length using Nat.strong_induction_on generalizing fuel text with
  | _ k ih =>
    obtain ⟨fuel, rfl⟩ := Nat.exists_eq_succ_of_ne_zero (Nat.ne_of_gt (Nat.zero_lt_of_lt enough))
    cases text with
    | nil => rfl
    | cons c rest =>
      rw [scanString, scanStringFrom, scanStringFrom]
      cases turn : scanPiece c rest with
      | none => rfl
      | some taken =>
        obtain ⟨piece, left⟩ := taken
        have shorter := scanPiece_length turn
        simp only [List.length_cons] at length enough ⊢
        have own : scanStringFrom fuel left = scanString left := ih _ (by omega) (by omega) rfl
        have other : scanStringFrom (rest.length + 1) left = scanString left := ih _ (by omega) (by omega) rfl
        simp only [bind, Option.bind_some, own, other]

/-- The loop over a string, without its bound. -/
theorem scanString_cons (c : UInt8) (rest : Str) :
    scanString (c :: rest) =
      if c = 34 then some ([], rest)
      else (scanPiece c rest).bind fun (piece, rest) =>
        (scanString rest).map fun (more, rest) => (piece ++ more, rest) := by
  rw [scanString, scanStringFrom]
  split_ifs
  · rfl
  · cases turn : scanPiece c rest with
    | none => rfl
    | some taken =>
      obtain ⟨piece, left⟩ := taken
      have shorter := scanPiece_length turn
      have own : scanStringFrom (c :: rest).length left = scanString left :=
        scanStringFrom_eq (by rw [List.length_cons]; omega)
      simp only [bind, Option.bind_some, own]
      cases scanString left <;> rfl

theorem scanString_length {text value rest : Str} (success : scanString text = some (value, rest)) :
    rest.length < text.length := by
  induction length : text.length using Nat.strong_induction_on generalizing text value with
  | _ k ih =>
    cases text with
    | nil => cases success
    | cons c text =>
      rw [scanString_cons] at success
      rw [List.length_cons] at length
      split_ifs at success
      · obtain ⟨_, rfl⟩ := Prod.mk.inj (Option.some.inj success)
        omega
      · obtain ⟨⟨piece, left⟩, turn, success⟩ := Option.bind_eq_some_iff.mp success
        obtain ⟨⟨more, after⟩, next, same⟩ := Option.map_eq_some_iff.mp success
        obtain ⟨_, rfl⟩ := Prod.mk.inj same
        have shorter := scanPiece_length turn
        have later := ih left.length (by omega) next rfl
        omega

theorem scanNumberFrom_length {state : NumberState} {type result : NumberType} {text digits rest : Str}
    (success : scanNumberFrom state type text = some (digits, result, rest)) : rest.length ≤ text.length := by
  induction text generalizing state type digits with
  | nil =>
    rw [scanNumberFrom] at success
    split_ifs at success
    cases success
    rfl
  | cons c text ih =>
    rw [scanNumberFrom] at success
    split at success
    · obtain ⟨⟨_, _, _⟩, next, same⟩ := Option.map_eq_some_iff.mp success
      cases same
      exact (ih next).trans (Nat.le_succ _)
    · split_ifs at success
      cases success
      rfl

/-! ## The list of tokens -/

private theorem literal_word {c : UInt8} {word : Str} {kind : Token} (found : literal c = some (word, kind)) :
    word ≠ [] ∧ kind.more = true := by
  have all : ∀ n : Fin 256, (literal (UInt8.ofNat n.val)).all fun entry => entry.1 != [] && entry.2.more := by
    decide +kernel
  have own := all ⟨c.toNat, c.toNat_lt⟩
  simpa [found] using own

private theorem scanLiteral_length {word text rest : Str} {kind token : Token} (nonempty : word ≠ [])
    (success : scanLiteral word kind text = (token, rest)) (more : token.more = true) : rest.length < text.length := by
  unfold scanLiteral at success
  split_ifs at success with front
  · cases success
    have positive := List.length_pos_of_ne_nil nonempty
    have within := front.length_le
    rw [List.length_drop]
    omega
  · cases success
    cases more

private theorem scanNumber_length {c : UInt8} {text rest : Str} {token : Token}
    (success : scanNumber c text = (token, rest)) (more : token.more = true) : rest.length ≤ text.length := by
  unfold scanNumber at success
  dsimp only at success
  split at success
  · next found =>
    cases success
    exact scanNumberFrom_length found
  · cases success
    cases more

private theorem scanToken_length {text rest : Str} {token : Token} (success : scanToken text = (token, rest))
    (more : token.more = true) : rest.length < text.length := by
  cases text with
  | nil =>
    cases success
    cases more
  | cons c text =>
    rw [scanToken] at success
    rw [List.length_cons]
    split at success
    · cases success
      exact Nat.lt_succ_self _
    · next word kind _ found =>
      exact scanLiteral_length (literal_word found).1 success more
    · split_ifs at success
      · split at success
        · next found =>
          cases success
          exact Nat.lt_succ_of_lt (scanString_length found)
        · cases success
          cases more
      · exact Nat.lt_succ_of_le (scanNumber_length success more)
      all_goals
        cases success
        cases more

theorem scan_length {text rest : Str} {token : Token} (success : scan text = (token, rest))
    (more : token.more = true) : rest.length < text.length :=
  Nat.lt_of_lt_of_le (scanToken_length success more) (List.dropWhile_suffix _).length_le

theorem tokensFrom_eq {fuel : ℕ} {text : Str} (enough : text.length < fuel) : tokensFrom fuel text = tokens text := by
  induction length : text.length using Nat.strong_induction_on generalizing fuel text with
  | _ k ih =>
    obtain ⟨fuel, rfl⟩ := Nat.exists_eq_succ_of_ne_zero (Nat.ne_of_gt (Nat.zero_lt_of_lt enough))
    rw [tokens, tokensFrom, tokensFrom]
    split
    next token rest found =>
    split_ifs with more
    · have shorter := scan_length found more
      rw [ih rest.length (by omega) (by omega) rfl, ih rest.length (by omega) (by omega) rfl]
    · rfl

/-- The list of tokens, without its bound. -/
theorem tokens_eq {text rest : Str} {token : Token} (found : scan text = (token, rest)) :
    tokens text = if token.more then token :: tokens rest else [token] := by
  rw [tokens, tokensFrom, found]
  dsimp only
  split_ifs with more
  · rw [tokensFrom_eq (scan_length found more)]
  · rfl

theorem tokens_blank {c : UInt8} (blank : isBlank c = true) (text : Str) : tokens (c :: text) = tokens text := by
  have same : scan (c :: text) = scan text := by rw [scan, scan, List.dropWhile_cons, if_pos blank]
  cases found : scan text with
  | mk token rest => rw [tokens_eq (same.trans found), tokens_eq found]

/-! ## What the tokens carry -/

/-- Texts are UTF-8 and integers have 64 bits. -/
def Token.Readable : Token → Prop
  | valueString value => WellFormed value
  | valueUnsigned value => value < 2 ^ 64
  | valueInteger value => -2 ^ 63 ≤ value ∧ value < 2 ^ 63
  | _ => True

private theorem wellFormed_ascii {c : UInt8} (ascii : c.toNat < 0x80) : WellFormed [c] := by
  rw [WellFormed, owes, owe, leadRanges, if_pos ascii]
  rfl

private theorem hexValue_lt {c : UInt8} {n : ℕ} (digit : hexValue c = some n) : n < 0x10 := by
  unfold hexValue at digit
  dsimp only at digit
  split_ifs at digit <;> (cases digit; omega)

private theorem getCodepoint_lt {text rest : Str} {n : ℕ} (success : getCodepoint text = some (n, rest)) :
    n < 0x10000 := by
  unfold getCodepoint at success
  split at success
  · simp only [bind, Option.bind_eq_some_iff, Option.some.injEq, Prod.mk.injEq] at success
    obtain ⟨a, ha, b, hb, c, hc, d, hd, rfl, _⟩ := success
    have := hexValue_lt ha
    have := hexValue_lt hb
    have := hexValue_lt hc
    have := hexValue_lt hd
    omega
  · cases success

private theorem scanUnicode_wellFormed {text piece rest : Str} (success : scanUnicode text = some (piece, rest)) :
    WellFormed piece := by
  unfold scanUnicode at success
  obtain ⟨⟨codepoint1, left⟩, first, success⟩ := Option.bind_eq_some_iff.mp success
  have small := getCodepoint_lt first
  dsimp only at success
  split_ifs at success with high low
  · split at success
    · obtain ⟨⟨codepoint2, after⟩, second, success⟩ := Option.bind_eq_some_iff.mp success
      dsimp only at success
      split_ifs at success with paired
      obtain ⟨rfl, _⟩ := Prod.mk.inj (Option.some.inj success)
      exact wellFormed_codepointBytes (Or.inr (by omega))
    · cases success
  · obtain ⟨rfl, _⟩ := Prod.mk.inj (Option.some.inj success)
    refine wellFormed_codepointBytes ?_
    rw [Scalar]
    omega

private theorem simpleEscape_ascii {c character : UInt8} (simple : simpleEscape c = some character) :
    character.toNat < 0x80 := by
  have all : ∀ n : Fin 256, (simpleEscape (UInt8.ofNat n.val)).all fun character => character.toNat < 0x80 := by
    decide +kernel
  simpa [simple] using all ⟨c.toNat, c.toNat_lt⟩

theorem scanPiece_wellFormed {c : UInt8} {text piece rest : Str} (success : scanPiece c text = some (piece, rest)) :
    WellFormed piece := by
  unfold scanPiece at success
  split_ifs at success
  · cases text with
    | nil => cases success
    | cons mark text =>
      rw [scanEscape] at success
      split at success
      · next simple =>
        obtain ⟨rfl, _⟩ := Prod.mk.inj (Option.some.inj success)
        exact wellFormed_ascii (simpleEscape_ascii simple)
      · split_ifs at success
        exact scanUnicode_wellFormed success
  · obtain ⟨ranges, lead, success⟩ := Option.bind_eq_some_iff.mp success
    obtain ⟨⟨taken, left⟩, next, same⟩ := Option.map_eq_some_iff.mp success
    cases same
    obtain ⟨_, _, owing⟩ := nextByteInRange_eq_some next
    have complete := owing []
    rw [List.append_nil] at complete
    rw [WellFormed, owes, owe, lead, Option.bind_some, complete]
    rfl

/-- Whatever bytes stand between the quotation marks, the text read from them is UTF-8. -/
theorem scanString_wellFormed {text value rest : Str} (success : scanString text = some (value, rest)) :
    WellFormed value := by
  induction length : text.length using Nat.strong_induction_on generalizing text value rest with
  | _ k ih =>
    cases text with
    | nil => cases success
    | cons c text =>
      rw [scanString_cons] at success
      rw [List.length_cons] at length
      split_ifs at success
      · obtain ⟨rfl, _⟩ := Prod.mk.inj (Option.some.inj success)
        exact rfl
      · obtain ⟨⟨piece, left⟩, turn, success⟩ := Option.bind_eq_some_iff.mp success
        obtain ⟨⟨more, after⟩, next, same⟩ := Option.map_eq_some_iff.mp success
        obtain ⟨rfl, _⟩ := Prod.mk.inj same
        have shorter := scanPiece_length turn
        exact (scanPiece_wellFormed turn).append (ih left.length (by omega) next rfl)

theorem convertNumber_readable (type : NumberType) (text : Str) : (convertNumber type text).Readable := by
  unfold convertNumber
  dsimp only
  split
  · split_ifs with range
    · rw [Token.Readable]
      omega
    · trivial
  · split_ifs with range
    · exact range
    · trivial
  · trivial

private theorem table_readable {c : UInt8} :
    (∀ token, structural c = some token → token.Readable) ∧
      ∀ word token, literal c = some (word, token) → token.Readable := by
  constructor
  · intro token found
    have member := mem_of_lookup found
    simp only [List.mem_cons, Prod.mk.injEq, List.not_mem_nil, or_false] at member
    rcases member with ⟨_, rfl⟩ | ⟨_, rfl⟩ | ⟨_, rfl⟩ | ⟨_, rfl⟩ | ⟨_, rfl⟩ | ⟨_, rfl⟩ <;> trivial
  · intro word token found
    have member := mem_of_lookup found
    simp only [List.mem_cons, Prod.mk.injEq, List.not_mem_nil, or_false] at member
    rcases member with ⟨_, _, rfl⟩ | ⟨_, _, rfl⟩ | ⟨_, _, rfl⟩ <;> trivial

private theorem scanToken_readable (text : Str) : (scanToken text).1.Readable := by
  cases text with
  | nil => trivial
  | cons c rest =>
    rw [scanToken]
    split
    · next found => exact table_readable.1 _ found
    · next found =>
      rw [scanLiteral]
      split_ifs
      · exact table_readable.2 _ _ found
      · trivial
    · split_ifs
      · split
        · next found => exact scanString_wellFormed found
        · trivial
      · rw [scanNumber]
        split
        · exact convertNumber_readable _ _
        · trivial
      all_goals trivial

theorem tokens_readable (text : Str) : ∀ token ∈ tokens text, token.Readable := by
  induction length : text.length using Nat.strong_induction_on generalizing text with
  | _ k ih =>
    cases found : scan text with
    | mk first rest =>
      have readable : first.Readable := by
        have own := scanToken_readable (text.dropWhile isBlank)
        rwa [← scan, found] at own
      intro token member
      rw [tokens_eq found] at member
      split_ifs at member with more
      · rcases List.mem_cons.mp member with rfl | later
        · exact readable
        · exact ih rest.length (by have := scan_length found more; omega) rest rfl token later
      · rwa [List.mem_singleton.mp member]

theorem lex_readable (text : Str) : ∀ token ∈ lex text, token.Readable := by
  rw [lex]
  split
  · exact tokens_readable _
  · intro token member
    rw [List.mem_singleton.mp member]
    trivial

end OsuTracker.Cxx.JsonLexer
