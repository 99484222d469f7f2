import OsuTracker.Model.Web.TemplateRegister
import Mathlib.Data.List.Infix

/-! # Meta tags are read back

A head is written from nodes: text, tags with a name and a content in either order, and other meta
tags. The quotes of a tag separate its parts, so each of the two expressions can only match where a
tag with the name begins whose attributes are in its order, and there in one way. What is
extracted is then the content of the first such tag with the name in front, or else of the first
one with the content in front.
-/

namespace OsuTracker.Soundness.MetaTags

open Cxx Machine.Patterns Model.Web.TemplateRegister

/-! ## Heads -/

def mark : UInt8 := '"'
def close : UInt8 := '>'

/-- Text between the values of a tag, and names. -/
def Plain (text : Str) : Prop := ∀ c ∈ text, c ≠ mark ∧ c ≠ close ∧ c ≠ ('=' : UInt8)

instance : DecidablePred Plain := fun text =>
  inferInstanceAs (Decidable (∀ c ∈ text, c ≠ mark ∧ c ≠ close ∧ c ≠ ('=' : UInt8)))

/-- An attribute without its value: its key and the equals sign. -/
def nameKey : Str := "name="
def contentKey : Str := "content="

inductive Node where
  | text (text : Str)
  /-- A tag with a name and a content, and what stands before, between and behind them. -/
  | tag (contentFirst : Bool) (before between behind name content : Str)
  | other (attributes : Str)
deriving DecidableEq, Repr

/-- Texts with a quote between each two of them. -/
def joined : Str → List Str → Str
  | first, [] => first
  | first, next :: rest => first ++ mark :: joined next rest

/-- A tag, cut at its quotes. -/
def Node.write : Node → Str
  | .text content => content
  | .tag false before between behind name content =>
    joined (tagStart ++ before ++ nameKey) [name, between ++ contentKey, content, behind ++ [close]]
  | .tag true before between behind name content =>
    joined (tagStart ++ before ++ contentKey) [content, between ++ nameKey, name, behind ++ [close]]
  | .other attributes => tagStart ++ attributes ++ [close]

/-- The nodes in order. -/
def write (nodes : List Node) : Str := nodes.flatMap Node.write

/-- No tag begins in a text, whatever follows it; the values of a tag contain no quotes, and a content
does not end like the start of an attribute; other tags have neither a name nor a content. -/
def Node.WellFormed : Node → Prop
  | .text content => ∀ tail ∈ content.tails, tail ≠ [] → ¬tail <+: tagStart ∧ ¬tagStart <+: tail
  | .tag _ before between behind name content =>
    (Plain before ∧ before ≠ []) ∧ (Plain between ∧ between ≠ []) ∧ Plain behind ∧ Plain name ∧
      (mark ∉ content ∧ ¬contentKey <:+ content)
  | .other attributes =>
    ¬nameKey <:+: tagStart ++ attributes ++ [close] ∧ ¬contentKey <:+: tagStart ++ attributes ++ [close]

instance : DecidablePred Node.WellFormed := fun node => by
  cases node <;> unfold Node.WellFormed <;> infer_instance

/-- The content of a tag with the name, if its attributes are in the order. -/
def Node.content (contentFirst : Bool) (name : Str) : Node → Option Str
  | .tag contentFirst' _ _ _ name' content => if contentFirst' = contentFirst ∧ name' = name then some content else none
  | _ => none

def firstContent (contentFirst : Bool) (name : Str) (nodes : List Node) : Option Str :=
  nodes.findSome? (Node.content contentFirst name)

/-! ## Quotes -/

/-- A quote in a text whose first quote is known is that one, or a later one. -/
theorem quote_cases {first rest x w v : Str} (inFirst : mark ∉ first) (inWord : mark ∉ w)
    (whole : x ++ w ++ mark :: v = first ++ mark :: rest) :
    x ++ w = first ∧ v = rest ∨ ∃ x', x = first ++ mark :: x' ∧ x' ++ w ++ mark :: v = rest := by
  obtain ⟨more, same, after⟩ | ⟨more, same, after⟩ := List.append_eq_append_iff.mp whole
  · cases more with
    | nil => exact .inl ⟨by simpa using same.symm, (List.cons.inj after).2⟩
    | cons c more =>
      obtain ⟨rfl, -⟩ := List.cons.inj after
      exact absurd (same ▸ List.mem_append_right _ List.mem_cons_self) inFirst
  · cases more with
    | nil => exact .inl ⟨by simpa using same, (List.cons.inj after).2.symm⟩
    | cons c more =>
      obtain ⟨rfl, rest_⟩ := List.cons.inj after
      -- the word does not contain the first quote, so it lies behind it
      obtain ⟨word, _, inside⟩ | ⟨x', rfl, inside⟩ := List.append_eq_append_iff.mp same
      · cases word with
        | nil => exact absurd (inside ▸ List.mem_cons_self) inWord
        | cons c word => exact absurd (inside ▸ List.mem_append_right _ List.mem_cons_self) inWord
      · cases x' with
        | nil => exact absurd ((List.nil_append w ▸ inside) ▸ List.mem_cons_self) inWord
        | cons c x' =>
          obtain ⟨rfl, rfl⟩ := List.cons.inj inside
          exact .inr ⟨x', rfl, rest_.symm⟩

/-- A word in front of a quote ends one of the texts between the quotes. -/
theorem among_three {x w v first second last : Str} (free : ∀ text ∈ [first, second, last], mark ∉ text) (inWord : mark ∉ w)
    (whole : x ++ w ++ mark :: v = joined first [second, last]) :
    x ++ w = first ∧ v = joined second [last] ∨ ∃ y, y ++ w = second ∧ v = last := by
  simp only [List.forall_mem_cons, List.not_mem_nil, false_imp_iff, implies_true, and_true] at free
  obtain ⟨word, rest⟩ | ⟨y, -, later⟩ := quote_cases free.1 inWord whole
  · exact .inl ⟨word, rest⟩
  · obtain ⟨word, rest⟩ | ⟨z, -, later⟩ := quote_cases free.2.1 inWord later
    · exact .inr ⟨y, word, rest⟩
    · have quoted : z ++ w ++ mark :: v = last := later
      exact absurd (quoted ▸ List.mem_append_right _ List.mem_cons_self) free.2.2

theorem among_five {x w v first second third fourth last : Str}
    (free : ∀ text ∈ [first, second, third, fourth, last], mark ∉ text) (inWord : mark ∉ w)
    (whole : x ++ w ++ mark :: v = joined first [second, third, fourth, last]) :
    x ++ w = first ∧ v = joined second [third, fourth, last] ∨
      (∃ y, y ++ w = second ∧ v = joined third [fourth, last]) ∨
      (∃ y, y ++ w = third ∧ v = joined fourth [last]) ∨ ∃ y, y ++ w = fourth ∧ v = last := by
  have ⟨own, next, others⟩ : mark ∉ first ∧ mark ∉ second ∧ ∀ text ∈ [third, fourth, last], mark ∉ text := by
    rwa [List.forall_mem_cons, List.forall_mem_cons] at free
  obtain ⟨word, rest⟩ | ⟨y, -, later⟩ := quote_cases own inWord whole
  · exact .inl ⟨word, rest⟩
  · obtain ⟨word, rest⟩ | ⟨z, -, later⟩ := quote_cases next inWord later
    · exact .inr (.inl ⟨y, word, rest⟩)
    · obtain ⟨word, rest⟩ | found := among_three others inWord later
      · exact .inr (.inr (.inl ⟨z, word, rest⟩))
      · exact .inr (.inr (.inr found))

/-- The text up to the next quote. -/
theorem value_of_quote {value v text rest : Str} (free : mark ∉ text) (inValue : mark ∉ value)
    (whole : value ++ mark :: v = text ++ mark :: rest) : value = text ∧ v = rest := by
  obtain ⟨same, rest⟩ | ⟨x', none, _⟩ := quote_cases (x := []) free inValue whole
  · exact ⟨same, rest⟩
  · cases text <;> cases none

/-- What contains no end of a tag lies inside the tag. -/
theorem inside_tag {x y tail rest : Str} (ends : close ∈ tail) (free : close ∉ x) (whole : x ++ y = tail ++ rest) :
    ∃ v, tail = x ++ v ∧ y = v ++ rest := by
  obtain ⟨v, rfl, same⟩ | ⟨v, rfl, _⟩ := List.append_eq_append_iff.mp whole
  · exact ⟨v, rfl, same⟩
  · exact absurd (List.mem_append_left _ ends) free

theorem mark_of_plain {text : Str} (plain : Plain text) : mark ∉ text := fun among => (plain _ among).1 rfl

theorem close_of_plain {text : Str} (plain : Plain text) : close ∉ text := fun among => (plain _ among).2.1 rfl

theorem ne_key_of_plain {text key : Str} (plain : Plain text) (equals : ('=' : UInt8) ∈ key) (y : Str) : text ≠ y ++ key :=
  fun same => (plain _ (same ▸ List.mem_append_right y equals)).2.2 rfl

theorem nameKey_ne (x y : Str) : x ++ nameKey ≠ y ++ contentKey := by
  intro same
  have backwards := congrArg List.reverse same
  rw [List.reverse_append, List.reverse_append] at backwards
  have letters : nameKey.reverse = bytes "=eman" ∧ contentKey.reverse = bytes "=tnetnoc" := by decide +kernel
  rw [letters.1, letters.2] at backwards
  cases backwards

theorem letters : mark ∉ nameKey ∧ mark ∉ contentKey ∧ close ∉ tagStart ∧ close ∉ nameKey ∧ close ∉ contentKey ∧
    close ≠ mark ∧ ('=' : UInt8) ∈ nameKey ∧ ('=' : UInt8) ∈ contentKey := by
  decide +kernel

/-! ## Keys in a tag -/

section Keys

variable {A B last value content x y v : Str}

/-- What the parts of a tag are free of: `A` and `B` stand before the keys, `last` behind the values. -/
structure Apart (A B last value content : Str) : Prop where
  first : mark ∉ A
  second : mark ∉ B
  last : mark ∉ last
  plain : Plain value
  quotes : mark ∉ content
  key : ¬contentKey <:+ content

theorem Apart.nameFirst (apart : Apart A B last value content) :
    ∀ text ∈ [A ++ nameKey, value, B ++ contentKey, content, last], mark ∉ text := by
  obtain ⟨markName, markContent, _⟩ := letters
  simp [apart.first, apart.second, apart.last, mark_of_plain apart.plain, apart.quotes, markName, markContent]

theorem Apart.contentFirst (apart : Apart A B last value content) :
    ∀ text ∈ [A ++ contentKey, content, B ++ nameKey, value, last], mark ∉ text := by
  obtain ⟨markName, markContent, _⟩ := letters
  simp [apart.first, apart.second, apart.last, mark_of_plain apart.plain, apart.quotes, markName, markContent]

/-- A name is looked up in a tag with the name in front. -/
theorem name_of_nameFirst (apart : Apart A B last value content) (plain : Plain y)
    (whole : x ++ nameKey ++ mark :: (y ++ mark :: v) = joined (A ++ nameKey) [value, B ++ contentKey, content, last]) :
    x = A ∧ y = value ∧ v = joined (B ++ contentKey) [content, last] := by
  obtain ⟨markName, _, _, _, _, _, equals, _⟩ := letters
  obtain ⟨word, rest⟩ | ⟨z, word, _⟩ | ⟨z, word, _⟩ | ⟨_, _, rest⟩ := among_five apart.nameFirst markName whole
  · obtain ⟨same, later⟩ := value_of_quote (mark_of_plain apart.plain) (mark_of_plain plain) rest
    exact ⟨List.append_cancel_right word, same, later⟩
  · exact absurd word.symm (ne_key_of_plain apart.plain equals z)
  · exact absurd word (nameKey_ne z B)
  · exact absurd (rest ▸ List.mem_append_right _ List.mem_cons_self) apart.last

theorem name_of_contentFirst (apart : Apart A B last value content) (plain : Plain y)
    (whole : x ++ nameKey ++ mark :: (y ++ mark :: v) = joined (A ++ contentKey) [content, B ++ nameKey, value, last]) :
    v = last := by
  obtain ⟨markName, _, _, _, _, _, equals, _⟩ := letters
  obtain ⟨word, _⟩ | ⟨_, _, rest⟩ | ⟨_, _, rest⟩ | ⟨_, _, rest⟩ := among_five apart.contentFirst markName whole
  · exact absurd word (nameKey_ne x A)
  · -- the content ends like a name, but what follows it is no value
    have second : mark ∉ B ++ nameKey := apart.contentFirst _ (by simp)
    obtain ⟨same, _⟩ := value_of_quote second (mark_of_plain plain) rest
    exact absurd same (ne_key_of_plain plain equals B)
  · exact (value_of_quote (mark_of_plain apart.plain) (mark_of_plain plain) rest).2
  · exact absurd (rest ▸ List.mem_append_right _ List.mem_cons_self) apart.last

/-- The start of a content is the one of the tag. -/
theorem content_of_nameFirst (apart : Apart A B last value content)
    (whole : x ++ contentKey ++ mark :: v = joined (A ++ nameKey) [value, B ++ contentKey, content, last]) :
    v = joined content [last] := by
  obtain ⟨_, markContent, _, _, _, _, _, equals⟩ := letters
  obtain ⟨word, _⟩ | ⟨z, word, _⟩ | ⟨_, _, rest⟩ | ⟨z, word, _⟩ := among_five apart.nameFirst markContent whole
  · exact absurd word.symm (nameKey_ne A x)
  · exact absurd word.symm (ne_key_of_plain apart.plain equals z)
  · exact rest
  · exact absurd ⟨z, word⟩ apart.key

theorem content_of_contentFirst (apart : Apart A B last value content)
    (whole : x ++ contentKey ++ mark :: v = joined (A ++ contentKey) [content, B ++ nameKey, value, last]) :
    x = A ∧ v = joined content [B ++ nameKey, value, last] := by
  obtain ⟨_, markContent, _, _, _, _, _, equals⟩ := letters
  obtain ⟨word, rest⟩ | ⟨z, word, _⟩ | ⟨z, word, _⟩ | ⟨z, word, _⟩ := among_five apart.contentFirst markContent whole
  · exact ⟨List.append_cancel_right word, rest⟩
  · exact absurd ⟨z, word⟩ apart.key
  · exact absurd word.symm (nameKey_ne B z)
  · exact absurd word.symm (ne_key_of_plain apart.plain equals z)

theorem content_of_second (apart : Apart A B last value content)
    (whole : x ++ contentKey ++ mark :: v = joined (B ++ contentKey) [content, last]) :
    x ++ contentKey = B ++ contentKey ∧ v = joined content [last] := by
  obtain ⟨_, markContent, _⟩ := letters
  have all : ∀ text ∈ [B ++ contentKey, content, last], mark ∉ text := fun text among =>
    apart.nameFirst text (List.mem_cons_of_mem _ (List.mem_cons_of_mem _ among))
  obtain found | ⟨z, word, _⟩ := among_three all markContent whole
  · exact found
  · exact absurd ⟨z, word⟩ apart.key

theorem name_of_second (apart : Apart A B last value content) (plain : Plain y)
    (whole : x ++ nameKey ++ mark :: (y ++ mark :: v) = joined (B ++ nameKey) [value, last]) :
    x ++ nameKey = B ++ nameKey ∧ y = value := by
  obtain ⟨markName, _, _, _, _, _, equals, _⟩ := letters
  have all : ∀ text ∈ [B ++ nameKey, value, last], mark ∉ text := fun text among =>
    apart.contentFirst text (List.mem_cons_of_mem _ (List.mem_cons_of_mem _ among))
  obtain ⟨word, rest⟩ | ⟨z, word, _⟩ := among_three all markName whole
  · exact ⟨word, (value_of_quote (mark_of_plain apart.plain) (mark_of_plain plain) rest).1⟩
  · exact absurd word.symm (ne_key_of_plain apart.plain equals z)

/-- A tag, as its parts. -/
theorem apart_of_tag {contentFirst : Bool} {before between behind name content : Str}
    (formed : (Node.tag contentFirst before between behind name content).WellFormed) :
    Apart (tagStart ++ before) between (behind ++ [close]) name content := by
  obtain ⟨⟨plainBefore, _⟩, ⟨plainBetween, _⟩, plainBehind, plain, quotes, key⟩ := formed
  have start : mark ∉ tagStart := by decide +kernel
  have differs : mark ≠ close := by decide
  refine ⟨?_, mark_of_plain plainBetween, ?_, plain, quotes, key⟩
  · simp [start, mark_of_plain plainBefore]
  · simp [differs, mark_of_plain plainBehind]

end Keys

/-! ## One match -/

theorem fits_regex1 {name : Str} {texts : List Str} (fits : List.Forall₂ Piece.Fits (regex1 name) texts) :
    ∃ a b c, texts = [tagStart, a, nameText name, b, contentStart, c, quote] ∧ close ∉ a ∧ close ∉ b ∧ mark ∉ c := by
  simp only [regex1, List.forall₂_cons_left_iff, List.forall₂_nil_left_iff] at fits
  obtain ⟨_, _, rfl, ⟨a, _, ⟨_, inA⟩, ⟨_, _, rfl, ⟨b, _, ⟨_, inB⟩, ⟨_, _, rfl, ⟨c, _, ⟨_, inC⟩,
    ⟨_, _, rfl, rfl, rfl⟩, rfl⟩, rfl⟩, rfl⟩, rfl⟩, rfl⟩, rfl⟩ := fits
  refine ⟨a, b, c, rfl, fun among => ?_, fun among => ?_, fun among => ?_⟩
  · simpa [close] using inA _ among
  · simpa [close] using inB _ among
  · simpa [mark] using inC _ among

theorem fits_regex2 {name : Str} {texts : List Str} (fits : List.Forall₂ Piece.Fits (regex2 name) texts) :
    ∃ a c b, texts = [tagStart, a, contentStart, c, quote, b, nameText name] ∧ close ∉ a ∧ mark ∉ c ∧ close ∉ b := by
  simp only [regex2, List.forall₂_cons_left_iff, List.forall₂_nil_left_iff] at fits
  obtain ⟨_, _, rfl, ⟨a, _, ⟨_, inA⟩, ⟨_, _, rfl, ⟨c, _, ⟨_, inC⟩, ⟨_, _, rfl, ⟨b, _, ⟨_, inB⟩,
    ⟨_, _, rfl, rfl, rfl⟩, rfl⟩, rfl⟩, rfl⟩, rfl⟩, rfl⟩, rfl⟩ := fits
  refine ⟨a, c, b, rfl, fun among => ?_, fun among => ?_, fun among => ?_⟩
  · simpa [close] using inA _ among
  · simpa [mark] using inC _ among
  · simpa [close] using inB _ among

theorem nameText_eq (name : Str) : nameText name = nameKey ++ mark :: (name ++ [mark]) := by
  have letters : bytes "name=\"" = nameKey ++ [mark] ∧ quote = [mark] := by decide +kernel
  change bytes "name=\"" ++ name ++ quote = _
  rw [letters.1, letters.2]
  simp

theorem contentStart_eq : contentStart = contentKey ++ [mark] := by decide +kernel

theorem quote_eq : quote = [mark] := by decide +kernel

/-- Behind the last quote of a tag is its end. -/
theorem close_of_suffix {front tail : Str} (ends : tail <:+ front ++ [close]) (some_ : tail ≠ []) : close ∈ tail := by
  obtain ⟨u, same⟩ := ends
  obtain rfl | ⟨tail, last, rfl⟩ := tail.eq_nil_or_concat
  · exact absurd rfl some_
  · rw [List.concat_eq_append, ← List.append_assoc] at same
    have lasts : [last] = [close] := (List.append_inj' same rfl).2
    rw [List.concat_eq_append, lasts]
    exact List.mem_append_right _ List.mem_cons_self

theorem close_of_tag {contentFirst : Bool} {before between behind name content tail : Str}
    (ends : tail <:+ (Node.tag contentFirst before between behind name content).write) (some_ : tail ≠ []) :
    close ∈ tail := by
  cases contentFirst with
  | false =>
    have last : tail <:+ joined (tagStart ++ before ++ nameKey) [name, between ++ contentKey, content, behind] ++ [close] := by
      simpa [Node.write, joined] using ends
    exact close_of_suffix last some_
  | true =>
    have last : tail <:+ joined (tagStart ++ before ++ contentKey) [content, between ++ nameKey, name, behind] ++ [close] := by
      simpa [Node.write, joined] using ends
    exact close_of_suffix last some_

/-- No match begins in a text. -/
theorem not_in_text {content tail rest later : Str} (formed : (Node.text content).WellFormed) (ends : tail <:+ content)
    (some_ : tail ≠ []) (whole : tagStart ++ later = tail ++ rest) : False := by
  obtain ⟨shorter, longer⟩ := formed tail ((List.mem_tails _ _).mpr ends) some_
  rcases List.prefix_or_prefix_of_prefix ⟨rest, rfl⟩ (whole ▸ List.prefix_append tagStart later) with starts | starts
  · exact shorter starts
  · exact longer starts

/-- A match of the first expression begins at a tag that has the name in front, and is the whole of
its attributes. -/
theorem regex1_cases {node : Node} (formed : node.WellFormed) {name : Str} (plain : Plain name)
    {u tail rest rest' : Str} {texts : List Str} (whole : u ++ tail = node.write) (some_ : tail ≠ [])
    (fits : List.Forall₂ Piece.Fits (regex1 name) texts) (found : texts.flatten ++ rest' = tail ++ rest) :
    ∃ before between behind content a, node = .tag false before between behind name content ∧
      u ++ tagStart ++ a = tagStart ++ before ∧
      texts = [tagStart, a, nameText name, between, contentStart, content, quote] := by
  obtain ⟨a, b, c, rfl, inA, inB, inC⟩ := fits_regex1 fits
  obtain ⟨markName, markContent, closeStart, closeName, closeContent, closeMark, eqName, eqContent⟩ := letters
  have shape : tagStart ++ a ++ nameKey ++ mark :: name ++ mark :: b ++ contentKey ++ [mark] ++ (c ++ mark :: rest') =
      tail ++ rest := by
    simpa [nameText_eq, contentStart_eq, quote_eq] using found
  have free : close ∉ tagStart ++ a ++ nameKey ++ mark :: name ++ mark :: b ++ contentKey ++ [mark] := by
    simp [closeStart, closeName, closeContent, closeMark, inA, inB, close_of_plain plain]
  cases node with
  | text content =>
    exact (not_in_text formed ⟨u, whole⟩ some_ (by simpa using shape)).elim
  | other attributes =>
    obtain ⟨v, rfl, _⟩ := inside_tag (close_of_suffix ⟨u, whole⟩ some_) free shape
    refine absurd ?_ formed.1
    have within : nameKey <:+: (Node.other attributes).write := by
      rw [← whole]
      exact ⟨u ++ (tagStart ++ a), mark :: name ++ mark :: b ++ contentKey ++ [mark] ++ v, by simp⟩
    exact within
  | tag contentFirst before between behind name' content =>
    have ends : tail <:+ (Node.tag contentFirst before between behind name' content).write := ⟨u, whole⟩
    obtain ⟨v, rfl, after⟩ := inside_tag (close_of_tag ends some_) free shape
    have parts : u ++ tagStart ++ a ++ nameKey ++ mark :: (name ++ mark :: (b ++ contentKey ++ mark :: v)) =
        (Node.tag contentFirst before between behind name' content).write := by
      simpa using whole
    have apart := apart_of_tag formed
    cases contentFirst with
    | false =>
      obtain ⟨begins, rfl, rest1⟩ := name_of_nameFirst apart plain parts
      obtain ⟨same, rfl⟩ := content_of_second apart rest1
      obtain ⟨rfl, -⟩ := value_of_quote apart.quotes inC (after.trans (List.append_assoc _ _ _))
      obtain rfl := List.append_cancel_right same
      exact ⟨before, b, behind, c, a, rfl, begins, rfl⟩
    | true =>
      have none := name_of_contentFirst apart plain parts
      exact absurd (none ▸ List.mem_append_right _ List.mem_cons_self) apart.last

/-- A match of the second expression begins at a tag that has the content in front. -/
theorem regex2_cases {node : Node} (formed : node.WellFormed) {name : Str} (plain : Plain name)
    {u tail rest rest' : Str} {texts : List Str} (whole : u ++ tail = node.write) (some_ : tail ≠ [])
    (fits : List.Forall₂ Piece.Fits (regex2 name) texts) (found : texts.flatten ++ rest' = tail ++ rest) :
    ∃ before between behind content a, node = .tag true before between behind name content ∧
      u ++ tagStart ++ a = tagStart ++ before ∧
      texts = [tagStart, a, contentStart, content, quote, between, nameText name] := by
  obtain ⟨a, c, b, rfl, inA, inC, inB⟩ := fits_regex2 fits
  obtain ⟨_, _, closeStart, closeName, closeContent, closeMark, _, _⟩ := letters
  have shape : tagStart ++ a ++ contentKey ++ [mark] ++ (c ++ mark :: (b ++ nameKey ++ mark :: (name ++ mark :: rest'))) =
      tail ++ rest := by
    simpa [nameText_eq, contentStart_eq, quote_eq] using found
  have free : close ∉ tagStart ++ a ++ contentKey ++ [mark] := by
    simp [closeStart, closeContent, closeMark, inA]
  cases node with
  | text content =>
    exact (not_in_text formed ⟨u, whole⟩ some_ (by simpa using shape)).elim
  | other attributes =>
    obtain ⟨v, rfl, _⟩ := inside_tag (close_of_suffix ⟨u, whole⟩ some_) free shape
    refine absurd ?_ formed.2
    have within : contentKey <:+: (Node.other attributes).write := by
      rw [← whole]
      exact ⟨u ++ (tagStart ++ a), [mark] ++ v, by simp⟩
    exact within
  | tag contentFirst before between behind name' content =>
    have ends : tail <:+ (Node.tag contentFirst before between behind name' content).write := ⟨u, whole⟩
    obtain ⟨v, rfl, after⟩ := inside_tag (close_of_tag ends some_) free shape
    have parts : u ++ tagStart ++ a ++ contentKey ++ mark :: v =
        (Node.tag contentFirst before between behind name' content).write := by
      simpa using whole
    have apart := apart_of_tag formed
    have last : close ∈ behind ++ [close] := List.mem_append_right _ List.mem_cons_self
    cases contentFirst with
    | false =>
      obtain rfl := content_of_nameFirst apart parts
      obtain ⟨-, later⟩ := value_of_quote apart.quotes inC (after.trans (List.append_assoc _ _ _))
      -- behind the content of this tag there is no quote before its end
      have freeName : close ∉ b ++ nameKey ++ [mark] := by simp [inB, closeName, closeMark]
      obtain ⟨v, quoted, _⟩ := inside_tag (y := name ++ mark :: rest') last freeName (by simpa [joined] using later)
      exact absurd (quoted ▸ by simp) apart.last
    | true =>
      obtain ⟨begins, rfl⟩ := content_of_contentFirst apart parts
      obtain ⟨rfl, later⟩ := value_of_quote apart.quotes inC (after.trans (List.append_assoc _ _ _))
      have freeName : close ∉ b ++ nameKey ++ mark :: (name ++ [mark]) := by
        simp [inB, closeName, closeMark, close_of_plain plain]
      have closed : close ∈ joined (between ++ nameKey) [name', behind ++ [close]] := by simp [joined]
      obtain ⟨v, quoted, _⟩ := inside_tag (y := rest') closed freeName (by simpa using later)
      obtain ⟨same, rfl⟩ := name_of_second (v := v) apart plain (by simpa using quoted.symm)
      obtain rfl := List.append_cancel_right same
      exact ⟨before, b, behind, c, a, rfl, begins, rfl⟩

theorem fits_inTag {text : Str} (plain : Plain text) (some_ : text ≠ []) : inTag.Fits text :=
  ⟨List.length_pos_of_ne_nil some_, fun c among => by simpa [close] using (plain c among).2.1⟩

theorem fits_inQuotes {text : Str} (quotes : mark ∉ text) : inQuotes.Fits text :=
  ⟨Nat.zero_le _, fun c among => decide_eq_true fun same : c = mark => quotes (same ▸ among)⟩

theorem search_regex1 {before between behind name content : Str} (plain : Plain name)
    (formed : (Node.tag false before between behind name content).WellFormed) (rest : Str) :
    search (regex1 name) ((Node.tag false before between behind name content).write ++ rest) =
      some ([], [tagStart, before, nameText name, between, contentStart, content, quote], behind ++ [close] ++ rest) := by
  have ⟨⟨plainBefore, someBefore⟩, ⟨plainBetween, someBetween⟩, _, _, quotes, _⟩ := formed
  refine search_of_unique ?_ ?_ fun texts rest' fits found => ?_
  · exact .cons rfl (.cons (fits_inTag plainBefore someBefore) (.cons rfl (.cons (fits_inTag plainBetween someBetween)
      (.cons rfl (.cons (fits_inQuotes quotes) (.cons rfl .nil))))))
  · simp [Node.write, joined, nameText_eq, contentStart_eq, quote_eq]
  · have some_ : (Node.tag false before between behind name content).write ≠ [] := by simp [Node.write, joined]
    obtain ⟨_, _, _, _, a, same, begins, rfl⟩ := regex1_cases formed plain (List.nil_append _) some_ fits found
    cases same
    rw [List.append_cancel_left begins]

theorem search_regex2 {before between behind name content : Str} (plain : Plain name)
    (formed : (Node.tag true before between behind name content).WellFormed) (rest : Str) :
    search (regex2 name) ((Node.tag true before between behind name content).write ++ rest) =
      some ([], [tagStart, before, contentStart, content, quote, between, nameText name], behind ++ [close] ++ rest) := by
  have ⟨⟨plainBefore, someBefore⟩, ⟨plainBetween, someBetween⟩, _, _, quotes, _⟩ := formed
  refine search_of_unique ?_ ?_ fun texts rest' fits found => ?_
  · exact .cons rfl (.cons (fits_inTag plainBefore someBefore) (.cons rfl (.cons (fits_inQuotes quotes)
      (.cons rfl (.cons (fits_inTag plainBetween someBetween) (.cons rfl .nil))))))
  · simp [Node.write, joined, nameText_eq, contentStart_eq, quote_eq]
  · have some_ : (Node.tag true before between behind name content).write ≠ [] := by simp [Node.write, joined]
    obtain ⟨_, _, _, _, a, same, begins, rfl⟩ := regex2_cases formed plain (List.nil_append _) some_ fits found
    cases same
    rw [List.append_cancel_left begins]

/-! ## Heads -/

theorem content_eq_some {node : Node} {contentFirst : Bool} {name content : Str}
    (found : node.content contentFirst name = some content) :
    ∃ before between behind, node = .tag contentFirst before between behind name content := by
  cases node with
  | tag order before between behind name' content' =>
    obtain ⟨⟨rfl, rfl⟩, same⟩ := Option.ite_none_right_eq_some.mp found
    cases same
    exact ⟨before, between, behind, rfl⟩
  | text => cases found
  | other => cases found

section Captured

variable {pattern : Pattern UInt8} {piece : ℕ} {contentFirst : Bool} {name : Str}

/-- An expression that matches nowhere but at the tags that it is for captures the content of the
first one. -/
theorem captured_write (empty : results pattern [] = [])
    (none : ∀ node : Node, node.WellFormed → node.content contentFirst name = none →
      ∀ tail rest, tail <:+ node.write → tail ≠ [] → results pattern (tail ++ rest) = [])
    (here : ∀ node : Node, node.WellFormed → ∀ content, node.content contentFirst name = some content →
      ∀ rest, captured pattern piece (node.write ++ rest) = some content)
    {nodes : List Node} (formed : ∀ node ∈ nodes, node.WellFormed) :
    captured pattern piece (write nodes) = firstContent contentFirst name nodes := by
  induction nodes with
  | nil =>
    change (search pattern []).map _ = Option.none
    rw [search, empty]
    rfl
  | cons node nodes ih =>
    obtain ⟨own, others⟩ := List.forall_mem_cons.mp formed
    rw [write, List.flatMap_cons, firstContent, List.findSome?_cons]
    cases found : node.content contentFirst name with
    | some content => exact here node own content found _
    | none =>
      rw [captured, search_append fun tail ends some_ => none node own found tail _ ends some_, Option.map_map]
      exact ih others

end Captured

theorem captured_regex1 {name : Str} (plain : Plain name) {nodes : List Node} (formed : ∀ node ∈ nodes, node.WellFormed) :
    captured (regex1 name) 5 (write nodes) = firstContent false name nodes := by
  refine captured_write (by rfl) (fun node own absent tail rest ends some_ => ?_) (fun node own content found rest => ?_) formed
  · refine List.eq_nil_iff_forall_not_mem.mpr fun ⟨texts, rest'⟩ listed => ?_
    obtain ⟨fits, found⟩ := mem_results.mp listed
    obtain ⟨u, whole⟩ := ends
    obtain ⟨_, _, _, _, _, rfl, _⟩ := regex1_cases own plain whole some_ fits found
    simp [Node.content] at absent
  · obtain ⟨before, between, behind, rfl⟩ := content_eq_some found
    rw [captured, search_regex1 plain own]
    rfl

theorem captured_regex2 {name : Str} (plain : Plain name) {nodes : List Node} (formed : ∀ node ∈ nodes, node.WellFormed) :
    captured (regex2 name) 3 (write nodes) = firstContent true name nodes := by
  refine captured_write (by rfl) (fun node own absent tail rest ends some_ => ?_) (fun node own content found rest => ?_) formed
  · refine List.eq_nil_iff_forall_not_mem.mpr fun ⟨texts, rest'⟩ listed => ?_
    obtain ⟨fits, found⟩ := mem_results.mp listed
    obtain ⟨u, whole⟩ := ends
    obtain ⟨_, _, _, _, _, rfl, _⟩ := regex2_cases own plain whole some_ fits found
    simp [Node.content] at absent
  · obtain ⟨before, between, behind, rfl⟩ := content_eq_some found
    rw [captured, search_regex2 plain own]
    rfl

/-- What is extracted from a head: the content of the first tag that has the name in front, or else
of the first one that has the content in front. -/
theorem extractMeta_write {name : MetaName} (plain : Plain name.text) {nodes : List Node}
    (formed : ∀ node ∈ nodes, node.WellFormed) :
    extractMeta (write nodes) name =
      ((firstContent false name.text nodes).or (firstContent true name.text nodes)).getD [] := by
  rw [extractMeta, captured_regex1 plain formed, captured_regex2 plain formed]

def basicHead : List Node :=
  [.text "<head>\n    ", .other " charset=\"utf-8\"", .text "\n    ", .tag false " " "    " "" "type" "overlay",
    .text "\n    ", .tag true " " " " " /" "title" "Basic", .text "\n    ", .tag false " " " " "" "title" "Basic > Small",
    .text "\n    ", .tag true " " " " "" "creator" "Railgun",
    .text "\n    <link rel=\"icon\" href=\"../static/favicon.ico\">\n"]

theorem extractMeta_write_basicHead : Plain MetaName.title.text ∧ (∀ node ∈ basicHead, node.WellFormed) ∧
    extractMeta (write basicHead) .title = "Basic > Small" := by
  have plain : Plain MetaName.title.text := by decide +kernel
  have formed : ∀ node ∈ basicHead, node.WellFormed := by decide +kernel
  refine ⟨plain, formed, ?_⟩
  rw [extractMeta_write plain formed]
  decide +kernel

end OsuTracker.Soundness.MetaTags
