import OsuTracker.Cxx.JsonLexer

/-! # JSON text as it is read

The parser of the JSON library keeps the arrays and objects it is inside of on a stack and never
calls itself. The grammar of values is stated apart from it, as a relation between the tokens read,
the value and the tokens left; the parser accepts exactly what the grammar derives. A member that
is named again replaces the earlier one at its place.
-/

namespace OsuTracker.Cxx.JsonParser

open JsonLexer

/-- An array or object that is being read: what it holds, and the key of the next member. -/
inductive Frame where
  | array (elements : List Json)
  | object (members : List (Str × Json)) (key : Str)

def syntaxError : Exception := .json 101

mutual

/-- `sax_parse_internal` before a value. -/
def parseValue (stack : List Frame) : List Token → Except Exception (Json × List Token)
  | .beginObject :: .endObject :: rest => parseRest stack (.obj []) rest
  | .beginObject :: .valueString key :: .nameSeparator :: rest => parseValue (.object [] key :: stack) rest
  | .beginArray :: .endArray :: rest => parseRest stack (.arr []) rest
  | .beginArray :: rest => parseValue (.array [] :: stack) rest
  | .literalNull :: rest => parseRest stack .null rest
  | .literalTrue :: rest => parseRest stack (.bool true) rest
  | .literalFalse :: rest => parseRest stack (.bool false) rest
  | .valueString value :: rest => parseRest stack (.str value) rest
  | .valueUnsigned value :: rest => parseRest stack (.int value) rest
  | .valueInteger value :: rest => parseRest stack (.int value) rest
  | .valueFloat value :: rest => if value.isFinite then parseRest stack (.float value) rest else .error (.json 406)
  | _ => .error syntaxError

/-- `sax_parse_internal` after a value. -/
def parseRest (stack : List Frame) (value : Json) (tokens : List Token) : Except Exception (Json × List Token) :=
  match stack, tokens with
  | [], rest => .ok (value, rest)
  | .array elements :: stack, .valueSeparator :: rest => parseValue (.array (elements ++ [value]) :: stack) rest
  | .array elements :: stack, .endArray :: rest => parseRest stack (.arr (elements ++ [value])) rest
  | .object members key :: stack, .valueSeparator :: .valueString next :: .nameSeparator :: rest =>
    parseValue (.object (assign key value members) next :: stack) rest
  | .object members key :: stack, .endObject :: rest => parseRest stack (.obj (assign key value members)) rest
  | _, _ => .error syntaxError

end

/-- `parse`: nothing but blanks may follow the value. -/
def parse (text : Str) : Except Exception Json :=
  match parseValue [] (lex text) with
  | .ok (value, .endOfInput :: _) => .ok value
  | .ok _ => .error syntaxError
  | .error error => .error error

/-! ## The grammar -/

/-- What a stretch of tokens can stand for: a value, or what follows the bracket of an array or
of an object. -/
inductive Item where
  | value (j : Json)
  | elements (values : List Json)
  | members (entries : List (Str × Json))

/-- The object of some members, a repeated one replacing the earlier one. -/
def objectOf (entries : List (Str × Json)) : Json := .obj (entries.foldl (fun built m => assign m.1 m.2 built) [])

/-- The tokens of an item in front of other tokens. -/
inductive Derives : Item → List Token → List Token → Prop where
  | null {rest : List Token} : Derives (.value .null) (.literalNull :: rest) rest
  | yes {rest : List Token} : Derives (.value (.bool true)) (.literalTrue :: rest) rest
  | no {rest : List Token} : Derives (.value (.bool false)) (.literalFalse :: rest) rest
  | str {text : Str} {rest : List Token} : Derives (.value (.str text)) (.valueString text :: rest) rest
  | unsigned {n : ℕ} {rest : List Token} : Derives (.value (.int n)) (.valueUnsigned n :: rest) rest
  | integer {n : ℤ} {rest : List Token} : Derives (.value (.int n)) (.valueInteger n :: rest) rest
  | float {x : Flt} {rest : List Token} (finite : x.isFinite = true) :
      Derives (.value (.float x)) (.valueFloat x :: rest) rest
  | emptyArray {rest : List Token} : Derives (.value (.arr [])) (.beginArray :: .endArray :: rest) rest
  | array {values : List Json} {tokens rest : List Token} (inner : Derives (.elements values) tokens rest) :
      Derives (.value (.arr values)) (.beginArray :: tokens) rest
  | emptyObject {rest : List Token} : Derives (.value (.obj [])) (.beginObject :: .endObject :: rest) rest
  | object {entries : List (Str × Json)} {tokens rest : List Token} (inner : Derives (.members entries) tokens rest) :
      Derives (.value (objectOf entries)) (.beginObject :: tokens) rest
  | lastElement {j : Json} {tokens rest : List Token} (only : Derives (.value j) tokens (.endArray :: rest)) :
      Derives (.elements [j]) tokens rest
  | element {j : Json} {values : List Json} {tokens later rest : List Token}
      (first : Derives (.value j) tokens (.valueSeparator :: later)) (others : Derives (.elements values) later rest) :
      Derives (.elements (j :: values)) tokens rest
  | lastMember {key : Str} {j : Json} {tokens rest : List Token} (only : Derives (.value j) tokens (.endObject :: rest)) :
      Derives (.members [(key, j)]) (.valueString key :: .nameSeparator :: tokens) rest
  | member {key : Str} {j : Json} {entries : List (Str × Json)} {tokens later rest : List Token}
      (first : Derives (.value j) tokens (.valueSeparator :: later)) (others : Derives (.members entries) later rest) :
      Derives (.members ((key, j) :: entries)) (.valueString key :: .nameSeparator :: tokens) rest

theorem Derives.suffix {item : Item} {tokens rest : List Token} (derived : Derives item tokens rest) :
    rest <:+ tokens := by
  induction derived with
  | null | yes | no | str | unsigned | integer | float => exact List.suffix_cons _ _
  | emptyArray | emptyObject => exact (List.suffix_cons _ _).trans (List.suffix_cons _ _)
  | array _ ih | object _ ih => exact ih.trans (List.suffix_cons _ _)
  | lastElement _ ih => exact (List.suffix_cons _ _).trans ih
  | element _ _ first others => exact others.trans ((List.suffix_cons _ _).trans first)
  | lastMember _ ih => exact ((List.suffix_cons _ _).trans ih).trans ((List.suffix_cons _ _).trans (List.suffix_cons _ _))
  | member _ _ first others =>
    exact (others.trans ((List.suffix_cons _ _).trans first)).trans
      ((List.suffix_cons _ _).trans (List.suffix_cons _ _))

/-! ## What the grammar derives is accepted -/

/-- What the parser does with the tokens of an item, inside any frames. -/
def Item.Parses (tokens rest : List Token) : Item → Prop
  | value j => tokens.head? ≠ some .endArray ∧ ∀ stack, parseValue stack tokens = parseRest stack j rest
  | elements values => tokens.head? ≠ some .endArray ∧ ∀ stack read,
      parseValue (.array read :: stack) tokens = parseRest stack (.arr (read ++ values)) rest
  | members entries => ∃ key later, tokens = .valueString key :: .nameSeparator :: later ∧ ∀ stack read,
      parseValue (.object read key :: stack) later =
        parseRest stack (.obj (entries.foldl (fun built m => assign m.1 m.2 built) read)) rest

theorem Derives.parses {item : Item} {tokens rest : List Token} (derived : Derives item tokens rest) :
    item.Parses tokens rest := by
  induction derived with
  | null | yes | no | str | unsigned | integer | emptyArray | emptyObject =>
    exact ⟨by simp, fun stack => by rw [parseValue]⟩
  | float finite => exact ⟨by simp, fun stack => by rw [parseValue, if_pos finite]⟩
  | array _ ih =>
    refine ⟨by simp, fun stack => ?_⟩
    rw [parseValue, ih.2 stack [], List.nil_append]
    rintro rest rfl
    exact ih.1 rfl
  | object _ ih =>
    obtain ⟨key, later, rfl, parsed⟩ := ih
    refine ⟨by simp, fun stack => ?_⟩
    rw [parseValue, parsed stack []]
    rfl
  | lastElement _ ih =>
    refine ⟨ih.1, fun stack read => ?_⟩
    rw [ih.2, parseRest]
  | element _ _ first others =>
    refine ⟨first.1, fun stack read => ?_⟩
    rw [first.2, parseRest, others.2, List.append_assoc]
    rfl
  | lastMember _ ih =>
    refine ⟨_, _, rfl, fun stack read => ?_⟩
    rw [ih.2, parseRest]
    rfl
  | member _ _ first others =>
    obtain ⟨next, later, rfl, parsed⟩ := others
    refine ⟨_, _, rfl, fun stack read => ?_⟩
    rw [first.2, parseRest, parsed]
    rfl

/-! ## What is accepted is derived -/

private theorem parseRest_array {stack : List Frame} {read : List Json} {j : Json} {tokens : List Token}
    {result : Json × List Token} (parsed : parseRest (.array read :: stack) j tokens = .ok result) :
    (∃ rest, tokens = .valueSeparator :: rest ∧ parseValue (.array (read ++ [j]) :: stack) rest = .ok result) ∨
      ∃ rest, tokens = .endArray :: rest ∧ parseRest stack (.arr (read ++ [j])) rest = .ok result := by
  unfold parseRest at parsed
  split at parsed
  · next none => cases none
  · next same =>
    cases same
    exact Or.inl ⟨_, rfl, parsed⟩
  · next same =>
    cases same
    exact Or.inr ⟨_, rfl, parsed⟩
  · next same => cases same
  · next same => cases same
  · cases parsed

private theorem parseRest_object {stack : List Frame} {read : List (Str × Json)} {key : Str} {j : Json}
    {tokens : List Token} {result : Json × List Token}
    (parsed : parseRest (.object read key :: stack) j tokens = .ok result) :
    (∃ next rest, tokens = .valueSeparator :: .valueString next :: .nameSeparator :: rest ∧
        parseValue (.object (assign key j read) next :: stack) rest = .ok result) ∨
      ∃ rest, tokens = .endObject :: rest ∧ parseRest stack (.obj (assign key j read)) rest = .ok result := by
  unfold parseRest at parsed
  split at parsed
  · next none => cases none
  · next same => cases same
  · next same => cases same
  · next same =>
    cases same
    exact Or.inl ⟨_, _, rfl, parsed⟩
  · next same =>
    cases same
    exact Or.inr ⟨_, rfl, parsed⟩
  · cases parsed

/-- A successful run read an item first: a value, or what its innermost frame still lacked. -/
private theorem derives_of_parseValue (bound : ℕ) {tokens : List Token} (short : tokens.length ≤ bound)
    {result : Json × List Token} :
    (∀ stack, parseValue stack tokens = .ok result → ∃ j rest, Derives (.value j) tokens rest ∧
      rest.length < tokens.length ∧ parseRest stack j rest = .ok result) ∧
    (∀ stack read, parseValue (.array read :: stack) tokens = .ok result → ∃ values rest,
      Derives (.elements values) tokens rest ∧ rest.length < tokens.length ∧
      parseRest stack (.arr (read ++ values)) rest = .ok result) ∧
    (∀ stack read key, parseValue (.object read key :: stack) tokens = .ok result → ∃ entries rest,
      Derives (.members entries) (.valueString key :: .nameSeparator :: tokens) rest ∧ rest.length < tokens.length ∧
      parseRest stack (.obj (entries.foldl (fun built m => assign m.1 m.2 built) read)) rest = .ok result) := by
  induction bound generalizing tokens with
  | zero =>
    obtain rfl := List.eq_nil_of_length_eq_zero (Nat.le_zero.mp short)
    exact ⟨fun _ parsed => (by cases parsed), fun _ _ parsed => (by cases parsed), fun _ _ _ parsed => (by cases parsed)⟩
  | succ bound ih =>
    have own : ∀ stack, parseValue stack tokens = .ok result → ∃ j rest, Derives (.value j) tokens rest ∧
        rest.length < tokens.length ∧ parseRest stack j rest = .ok result := by
      intro stack parsed
      unfold parseValue at parsed
      split at parsed
      · exact ⟨_, _, .emptyObject, by simp only [List.length_cons]; omega, parsed⟩
      · simp only [List.length_cons] at short
        obtain ⟨entries, rest, derived, shorter, parsed⟩ := (ih (by omega)).2.2 _ _ _ parsed
        exact ⟨_, rest, .object derived, by simp only [List.length_cons]; omega, parsed⟩
      · exact ⟨_, _, .emptyArray, by simp only [List.length_cons]; omega, parsed⟩
      · simp only [List.length_cons] at short
        obtain ⟨values, rest, derived, shorter, parsed⟩ := (ih (by omega)).2.1 _ _ parsed
        exact ⟨_, rest, .array derived, by simp only [List.length_cons]; omega, parsed⟩
      · exact ⟨_, _, .null, by simp, parsed⟩
      · exact ⟨_, _, .yes, by simp, parsed⟩
      · exact ⟨_, _, .no, by simp, parsed⟩
      · exact ⟨_, _, .str, by simp, parsed⟩
      · exact ⟨_, _, .unsigned, by simp, parsed⟩
      · exact ⟨_, _, .integer, by simp, parsed⟩
      · split_ifs at parsed with finite
        exact ⟨_, _, .float finite, by simp, parsed⟩
      · cases parsed
    refine ⟨own, fun stack read parsed => ?_, fun stack read key parsed => ?_⟩
    · obtain ⟨j, rest, first, shorter, parsed⟩ := own _ parsed
      obtain ⟨later, rfl, parsed⟩ | ⟨later, rfl, parsed⟩ := parseRest_array parsed
      · simp only [List.length_cons] at shorter
        obtain ⟨values, rest, others, shorter', parsed⟩ := (ih (by omega)).2.1 _ _ parsed
        rw [List.append_assoc] at parsed
        exact ⟨j :: values, rest, .element first others, by omega, parsed⟩
      · simp only [List.length_cons] at shorter
        exact ⟨[j], later, .lastElement first, by omega, parsed⟩
    · obtain ⟨j, rest, first, shorter, parsed⟩ := own _ parsed
      obtain ⟨next, later, rfl, parsed⟩ | ⟨later, rfl, parsed⟩ := parseRest_object parsed
      · simp only [List.length_cons] at shorter
        obtain ⟨entries, rest, others, shorter', parsed⟩ := (ih (by omega)).2.2 _ _ _ parsed
        exact ⟨(key, j) :: entries, rest, .member first others, by omega, parsed⟩
      · simp only [List.length_cons] at shorter
        exact ⟨[(key, j)], later, .lastMember first, by omega, parsed⟩

/-- The stack machine reads a value exactly where the grammar has one. -/
theorem parseValue_eq_ok_iff (tokens rest : List Token) (j : Json) :
    parseValue [] tokens = .ok (j, rest) ↔ Derives (.value j) tokens rest := by
  constructor
  · intro parsed
    obtain ⟨value, later, derived, _, parsed⟩ := (derives_of_parseValue tokens.length le_rfl).1 _ parsed
    rw [parseRest] at parsed
    cases parsed
    exact derived
  · intro derived
    rw [derived.parses.2 [], parseRest]

theorem parse_of_derives {text : Str} {j : Json} {rest : List Token}
    (derived : Derives (.value j) (lex text) (.endOfInput :: rest)) : parse text = .ok j := by
  rw [parse, (parseValue_eq_ok_iff _ _ _).mpr derived]

theorem derives_of_parse {text : Str} {j : Json} (parsed : parse text = .ok j) :
    ∃ rest, Derives (.value j) (lex text) (.endOfInput :: rest) := by
  rw [parse] at parsed
  split at parsed
  · next value rest found =>
    cases parsed
    exact ⟨rest, (parseValue_eq_ok_iff _ _ _).mp found⟩
  · cases parsed
  · cases parsed

/-- A document is accepted exactly when its tokens are those of one value, and with that value. -/
theorem parse_eq_ok_iff (text : Str) (j : Json) :
    parse text = .ok j ↔ ∃ rest, Derives (.value j) (lex text) (.endOfInput :: rest) :=
  ⟨derives_of_parse, fun ⟨_, derived⟩ => parse_of_derives derived⟩

end OsuTracker.Cxx.JsonParser
