import OsuTracker.Cxx.JsonDump
import OsuTracker.Cxx.JsonParser

/-! # JSON documents survive being written and read

What the parser returns is plain: its texts are UTF-8, its integers have 64 bits, its numbers are
finite and no object repeats a key. A plain value is written as a text whose tokens are exactly its
own, so reading the text returns the value, in one line or in many. The blanks of an indentation are
doubled once where they do not suffice, which is enough up to 1024. The digits of a floating-point
number are the serializer's business: of them it is only asked that they read back.
-/

namespace OsuTracker.Cxx.JsonText

open Utf8 JsonLexer JsonParser JsonDump

/-! ## Plain values -/

theorem induction {motive : Json → Prop} (null : motive .null) (bool : ∀ value, motive (.bool value))
    (int : ∀ value, motive (.int value)) (float : ∀ value, motive (.float value)) (str : ∀ value, motive (.str value))
    (arr : ∀ elements, (∀ j ∈ elements, motive j) → motive (.arr elements))
    (obj : ∀ members, (∀ m ∈ members, motive m.2) → motive (.obj members)) (j : Json) : motive j := by
  match j with
  | .null => exact null
  | .bool value => exact bool value
  | .int value => exact int value
  | .float value => exact float value
  | .str value => exact str value
  | .arr elements => exact arr elements fun j _ => induction null bool int float str arr obj j
  | .obj members => exact obj members fun m _ => induction null bool int float str arr obj m.2
termination_by j
decreasing_by
  · next member =>
    have smaller := List.sizeOf_lt_of_mem member
    rw [Json.arr.sizeOf_spec]
    omega
  · next member =>
    have smaller := List.sizeOf_lt_of_mem member
    have part : sizeOf m = 1 + sizeOf m.1 + sizeOf m.2 := rfl
    rw [Json.obj.sizeOf_spec]
    omega

/-- Values that a document can hold, with a condition on their floating-point numbers. -/
inductive Plain (float : Flt → Prop) : Json → Prop where
  | null : Plain float .null
  | bool (value : Bool) : Plain float (.bool value)
  | int {value : ℤ} (low : -2 ^ 63 ≤ value) (high : value < 2 ^ 64) : Plain float (.int value)
  | float {value : Flt} (finite : value.isFinite = true) (holds : float value) : Plain float (.float value)
  | str {value : Str} (utf8 : Json.isUtf8 value = true) : Plain float (.str value)
  | arr {elements : List Json} (inner : ∀ j ∈ elements, Plain float j) : Plain float (.arr elements)
  | obj {members : List (Str × Json)} (distinct : (members.map Prod.fst).Nodup)
      (keys : ∀ m ∈ members, Json.isUtf8 m.1 = true) (inner : ∀ m ∈ members, Plain float m.2) :
      Plain float (.obj members)

/-! ## What the parser returns -/

private theorem mem_assign {key : Str} {j : Json} {members : List (Str × Json)} {m : Str × Json}
    (member : m ∈ assign key j members) : m = (key, j) ∨ m ∈ members := by
  induction members with
  | nil => exact Or.inl (List.mem_singleton.mp member)
  | cons first rest ih =>
    rw [assign] at member
    split_ifs at member with same
    · rcases List.mem_cons.mp member with rfl | later
      · exact Or.inl (by rw [same])
      · exact Or.inr (List.mem_cons_of_mem _ later)
    · rcases List.mem_cons.mp member with rfl | later
      · exact Or.inr List.mem_cons_self
      · exact (ih later).imp_right (List.mem_cons_of_mem _)

private theorem foldl_assign_plain (entries built : List (Str × Json)) (distinct : (built.map Prod.fst).Nodup) :
    ((entries.foldl (fun built m => assign m.1 m.2 built) built).map Prod.fst).Nodup ∧
      ∀ m ∈ entries.foldl (fun built m => assign m.1 m.2 built) built, m ∈ built ∨ m ∈ entries := by
  induction entries generalizing built with
  | nil => exact ⟨distinct, fun m member => Or.inl member⟩
  | cons entry rest ih =>
    obtain ⟨nodup, members⟩ := ih _ (nodup_assign entry.1 entry.2 distinct)
    refine ⟨nodup, fun m member => ?_⟩
    rcases members m member with assigned | later
    · rcases mem_assign assigned with rfl | earlier
      · exact Or.inr List.mem_cons_self
      · exact Or.inl earlier
    · exact Or.inr (List.mem_cons_of_mem _ later)

/-- An item whose values are plain. -/
def plainItem : Item → Prop
  | .value j => Plain (fun _ => True) j
  | .elements values => ∀ j ∈ values, Plain (fun _ => True) j
  | .members entries => ∀ m ∈ entries, Json.isUtf8 m.1 = true ∧ Plain (fun _ => True) m.2

private theorem derives_plain {item : Item} {tokens rest : List Token} (derived : Derives item tokens rest)
    (readable : ∀ token ∈ tokens, token.Readable) : plainItem item := by
  induction derived with
  | null => exact .null
  | yes => exact .bool true
  | no => exact .bool false
  | str => exact .str ((wellFormed_iff_isUtf8 _).mp (readable _ List.mem_cons_self))
  | unsigned =>
    have own : _ < 2 ^ 64 := readable _ List.mem_cons_self
    exact .int (by omega) (by exact_mod_cast own)
  | integer =>
    have own : _ ∧ _ := readable _ List.mem_cons_self
    exact .int own.1 (own.2.trans (by decide))
  | float finite => exact .float finite trivial
  | emptyArray => exact .arr (by simp)
  | emptyObject => exact .obj (by simp) (by simp) (by simp)
  | array _ ih => exact .arr (ih fun token member => readable token (List.mem_cons_of_mem _ member))
  | @object entries _ _ _ ih =>
    obtain ⟨distinct, members⟩ := foldl_assign_plain entries [] (by simp)
    have entry := ih fun token member => readable token (List.mem_cons_of_mem _ member)
    refine .obj distinct (fun m member => ?_) fun m member => ?_
    · exact (entry m ((members m member).resolve_left (by simp))).1
    · exact (entry m ((members m member).resolve_left (by simp))).2
  | lastElement _ ih =>
    intro j member
    rw [List.mem_singleton.mp member]
    exact ih readable
  | element first _ ihFirst ihOthers =>
    intro j member
    rcases List.mem_cons.mp member with rfl | later
    · exact ihFirst readable
    · refine ihOthers (fun token listed => ?_) j later
      exact readable token (first.suffix.mem (List.mem_cons_of_mem _ listed))
  | lastMember _ ih =>
    intro m member
    rw [List.mem_singleton.mp member]
    refine ⟨(wellFormed_iff_isUtf8 _).mp (readable _ List.mem_cons_self), ih fun token listed => ?_⟩
    exact readable token (List.mem_cons_of_mem _ (List.mem_cons_of_mem _ listed))
  | @member _ _ _ tokens _ _ first _ ihFirst ihOthers =>
    have inner : ∀ token ∈ tokens, token.Readable := fun token listed =>
      readable token (List.mem_cons_of_mem _ (List.mem_cons_of_mem _ listed))
    intro m member
    rcases List.mem_cons.mp member with rfl | later
    · exact ⟨(wellFormed_iff_isUtf8 _).mp (readable _ List.mem_cons_self), ihFirst inner⟩
    · exact ihOthers (fun token listed => inner token (first.suffix.mem (List.mem_cons_of_mem _ listed))) m later

theorem parse_plain {text : Str} {j : Json} (parsed : parse text = .ok j) : Plain (fun _ => True) j := by
  obtain ⟨rest, derived⟩ := derives_of_parse parsed
  exact derives_plain derived (lex_readable text)

/-! ## What the serializer rejects -/

/-- Every text of a value, keys included, is UTF-8. -/
inductive Utf8Texts : Json → Prop where
  | null : Utf8Texts .null
  | bool (value : Bool) : Utf8Texts (.bool value)
  | int (value : ℤ) : Utf8Texts (.int value)
  | float (value : Flt) : Utf8Texts (.float value)
  | str {value : Str} (utf8 : Json.isUtf8 value = true) : Utf8Texts (.str value)
  | arr {elements : List Json} (inner : ∀ j ∈ elements, Utf8Texts j) : Utf8Texts (.arr elements)
  | obj {members : List (Str × Json)} (keys : ∀ m ∈ members, Json.isUtf8 m.1 = true)
      (inner : ∀ m ∈ members, Utf8Texts m.2) : Utf8Texts (.obj members)

theorem Plain.utf8Texts {float : Flt → Prop} {j : Json} (plain : Plain float j) : Utf8Texts j := by
  induction plain with
  | null => exact .null
  | bool value => exact .bool value
  | int low high => exact .int _
  | float finite holds => exact .float _
  | str utf8 => exact .str utf8
  | arr inner ih => exact .arr ih
  | obj distinct keys inner ih => exact .obj keys ih

section Dump

variable (dumpFloat : Flt → Str) (indent : Option ℕ)

private theorem dumpEscaped_total (s : Str) :
    (Json.isUtf8 s = true ∧ dumpEscaped s = .ok (s.flatMap escapeByte)) ∨
      (¬ Json.isUtf8 s = true ∧ dumpEscaped s = .error (.json 316)) := by
  rw [dumpEscaped_eq]
  by_cases utf8 : Json.isUtf8 s = true
  · exact Or.inl ⟨utf8, if_pos utf8⟩
  · exact Or.inr ⟨utf8, if_neg utf8⟩

/-- A value is written, all its texts being UTF-8, or there is one exception. -/
def Total (size width : ℕ) (j : Json) : Prop :=
  (Utf8Texts j ∧ ∃ text, dumpAt dumpFloat indent size width j = .ok text) ∨
    (¬ Utf8Texts j ∧ dumpAt dumpFloat indent size width j = .error (.json 316))

private theorem dumpElements_total (size inner : ℕ) {elements : List Json}
    (total : ∀ j ∈ elements, ∀ size, Total dumpFloat indent size inner j) :
    ((∀ j ∈ elements, Utf8Texts j) ∧ ∃ text, dumpElements dumpFloat indent size inner elements = .ok text) ∨
      (¬ (∀ j ∈ elements, Utf8Texts j) ∧ dumpElements dumpFloat indent size inner elements = .error (.json 316)) := by
  induction elements generalizing size with
  | nil => exact Or.inl ⟨by simp, [], by rw [dumpElements]⟩
  | cons first rest ih =>
    have others := ih (sizeAfter indent size inner first) fun j member => total j (List.mem_cons_of_mem _ member)
    rw [dumpElements]
    simp only [List.forall_mem_cons]
    rcases total first List.mem_cons_self size with ⟨texts, text, written⟩ | ⟨texts, failed⟩
    · rcases others with ⟨all, more, others⟩ | ⟨all, others⟩
      · exact Or.inl ⟨⟨texts, all⟩, _, by rw [written, others]; rfl⟩
      · exact Or.inr ⟨fun both => all both.2, by rw [written, others]; rfl⟩
    · exact Or.inr ⟨fun both => texts both.1, by rw [failed]; rfl⟩

private theorem dumpMembers_total (size inner : ℕ) {members : List (Str × Json)}
    (total : ∀ m ∈ members, ∀ size, Total dumpFloat indent size inner m.2) :
    ((∀ m ∈ members, Json.isUtf8 m.1 = true ∧ Utf8Texts m.2) ∧
        ∃ text, dumpMembers dumpFloat indent size inner members = .ok text) ∨
      (¬ (∀ m ∈ members, Json.isUtf8 m.1 = true ∧ Utf8Texts m.2) ∧
        dumpMembers dumpFloat indent size inner members = .error (.json 316)) := by
  induction members generalizing size with
  | nil => exact Or.inl ⟨by simp, [], by rw [dumpMembers]⟩
  | cons first rest ih =>
    obtain ⟨key, j⟩ := first
    have others := ih (sizeAfter indent size inner j) fun m member => total m (List.mem_cons_of_mem _ member)
    rw [dumpMembers]
    simp only [List.forall_mem_cons]
    rcases dumpEscaped_total key with ⟨utf8, key⟩ | ⟨utf8, key⟩
    · rcases total (_, j) List.mem_cons_self size with ⟨texts, text, written⟩ | ⟨texts, failed⟩
      · rcases others with ⟨all, more, others⟩ | ⟨all, others⟩
        · exact Or.inl ⟨⟨⟨utf8, texts⟩, all⟩, _, by rw [key, written, others]; rfl⟩
        · exact Or.inr ⟨fun both => all both.2, by rw [key, written, others]; rfl⟩
      · exact Or.inr ⟨fun both => texts both.1.2, by rw [key, failed]; rfl⟩
    · exact Or.inr ⟨fun both => utf8 both.1.1, by rw [key]; rfl⟩

theorem dumpAt_total (size width : ℕ) (j : Json) : Total dumpFloat indent size width j := by
  induction j using induction generalizing size width with
  | null => exact Or.inl ⟨.null, _, by rw [dumpAt]⟩
  | bool value => exact Or.inl ⟨.bool value, _, by rw [dumpAt]⟩
  | int value => exact Or.inl ⟨.int value, _, by rw [dumpAt]⟩
  | float value => exact Or.inl ⟨.float value, _, by rw [dumpAt]⟩
  | str value =>
    rw [Total, dumpAt]
    rcases dumpEscaped_total value with ⟨utf8, written⟩ | ⟨utf8, failed⟩
    · exact Or.inl ⟨.str utf8, _, by rw [written]; rfl⟩
    · exact Or.inr ⟨fun texts => (by cases texts with | str own => exact utf8 own), by rw [failed]; rfl⟩
  | arr elements ih =>
    cases elements with
    | nil => exact Or.inl ⟨.arr (by simp), _, by rw [dumpAt]⟩
    | cons first rest =>
      have others := dumpElements_total dumpFloat indent
        (sizeAfter indent (resized size (width + indent.getD 0)) (width + indent.getD 0) first) (width + indent.getD 0)
        fun j member size => ih j (List.mem_cons_of_mem _ member) size _
      rw [Total, dumpAt]
      rcases ih first List.mem_cons_self (resized size (width + indent.getD 0)) (width + indent.getD 0) with
        ⟨texts, text, written⟩ | ⟨texts, failed⟩
      · rcases others with ⟨all, more, others⟩ | ⟨all, others⟩
        · exact Or.inl ⟨.arr (List.forall_mem_cons.mpr ⟨texts, all⟩), _, by rw [written, others]; rfl⟩
        · refine Or.inr ⟨fun own => ?_, by rw [written, others]; rfl⟩
          cases own with
          | arr inner => exact all fun j member => inner j (List.mem_cons_of_mem _ member)
      · refine Or.inr ⟨fun own => ?_, by rw [failed]; rfl⟩
        cases own with
        | arr inner => exact texts (inner first List.mem_cons_self)
  | obj members ih =>
    cases members with
    | nil => exact Or.inl ⟨.obj (by simp) (by simp), _, by rw [dumpAt]⟩
    | cons first rest =>
      obtain ⟨key, j⟩ := first
      have others := dumpMembers_total dumpFloat indent
        (sizeAfter indent (resized size (width + indent.getD 0)) (width + indent.getD 0) j) (width + indent.getD 0)
        fun m member size => ih m (List.mem_cons_of_mem _ member) size _
      rw [Total, dumpAt]
      rcases dumpEscaped_total key with ⟨utf8, key⟩ | ⟨utf8, key⟩
      · rcases ih (_, j) List.mem_cons_self (resized size (width + indent.getD 0)) (width + indent.getD 0) with
          ⟨texts, text, written⟩ | ⟨texts, failed⟩
        · rcases others with ⟨all, more, others⟩ | ⟨all, others⟩
          · refine Or.inl ⟨.obj ?_ ?_, _, by rw [key, written, others]; rfl⟩
            · exact List.forall_mem_cons.mpr ⟨utf8, fun m member => (all m member).1⟩
            · exact List.forall_mem_cons.mpr ⟨texts, fun m member => (all m member).2⟩
          · refine Or.inr ⟨fun own => ?_, by rw [key, written, others]; rfl⟩
            cases own with
            | obj keys inner =>
              exact all fun m member => ⟨keys m (List.mem_cons_of_mem _ member), inner m (List.mem_cons_of_mem _ member)⟩
        · refine Or.inr ⟨fun own => ?_, by rw [key, failed]; rfl⟩
          cases own with
          | obj keys inner => exact texts (inner _ List.mem_cons_self)
      · refine Or.inr ⟨fun own => ?_, by rw [key]; rfl⟩
        cases own with
        | obj keys inner => exact utf8 (keys _ List.mem_cons_self)

/-- Every value is written or rejected for a text that is not UTF-8, in any layout. -/
theorem dump_eq_error_iff (j : Json) :
    dump dumpFloat indent j = .error (.json 316) ↔ ¬ Utf8Texts j := by
  rcases dumpAt_total dumpFloat indent 512 0 j with ⟨texts, text, written⟩ | ⟨texts, failed⟩
  · rw [dump, written]
    exact ⟨fun same => (by cases same), fun none => absurd texts none⟩
  · rw [dump, failed]
    exact ⟨fun _ => texts, fun _ => rfl⟩

theorem exists_dump {j : Json} (texts : Utf8Texts j) : ∃ text, dump dumpFloat indent j = .ok text := by
  rcases dumpAt_total dumpFloat indent 512 0 j with ⟨_, written⟩ | ⟨none, _⟩
  · exact written
  · exact absurd texts none

/-! ## The bytes of what is written -/

theorem wellFormed_ascii {s : Str} (ascii : ∀ c ∈ s, c.toNat < 128) : WellFormed s :=
  (wellFormed_iff_isUtf8 s).mpr (Json.isUtf8_of_ascii ascii)

private theorem wellFormed_newline (size width : ℕ) : WellFormed (newline indent size width) := by
  refine wellFormed_ascii fun c among => ?_
  rw [newline] at among
  split at among
  · rcases List.mem_cons.mp among with rfl | inside
    · decide
    · rcases List.mem_append.mp inside with blank | behind
      · rw [List.eq_of_mem_replicate blank]
        decide
      · rw [List.eq_of_mem_replicate behind]
        decide
  · cases among

private theorem wellFormed_colon : WellFormed (colon indent) := by
  rw [colon]
  split <;> exact wellFormed_ascii (by decide +kernel)

private theorem wellFormed_quoted {s text : Str} (written : dumpEscaped s = .ok text) : WellFormed (quoted text) := by
  have formed : WellFormed text := by
    rcases dumpEscaped_total s with ⟨utf8, escaped⟩ | ⟨_, failed⟩
    · rw [written] at escaped
      cases escaped
      exact owes_escaped (fun range none => by cases none) ((wellFormed_iff_isUtf8 s).mpr utf8)
    · rw [written] at failed
      cases failed
  have mark : WellFormed [(34 : UInt8)] := wellFormed_ascii (by decide +kernel)
  exact (mark.append formed).append mark

section Bytes

variable (digits : ∀ value, WellFormed (dumpFloat value))

private theorem wellFormed_dumpElements {size inner : ℕ} {elements : List Json}
    (each : ∀ j ∈ elements, ∀ size text, dumpAt dumpFloat indent size inner j = .ok text → WellFormed text) {text : Str}
    (written : dumpElements dumpFloat indent size inner elements = .ok text) : WellFormed text := by
  induction elements generalizing size text with
  | nil =>
    rw [dumpElements] at written
    cases written
    rfl
  | cons first rest ih =>
    rw [dumpElements] at written
    obtain ⟨value, first', written⟩ := bind_eq_ok.mp written
    obtain ⟨others, rest', written⟩ := bind_eq_ok.mp written
    cases written
    have comma : WellFormed [(44 : UInt8)] := wellFormed_ascii (by decide +kernel)
    have own := each first List.mem_cons_self size value first'
    have later := ih (fun j member => each j (List.mem_cons_of_mem _ member)) rest'
    exact ((comma.append (wellFormed_newline indent size inner)).append own).append later

private theorem wellFormed_dumpMembers {size inner : ℕ} {members : List (Str × Json)}
    (each : ∀ m ∈ members, ∀ size text, dumpAt dumpFloat indent size inner m.2 = .ok text → WellFormed text)
    {text : Str} (written : dumpMembers dumpFloat indent size inner members = .ok text) : WellFormed text := by
  induction members generalizing size text with
  | nil =>
    rw [dumpMembers] at written
    cases written
    rfl
  | cons first rest ih =>
    obtain ⟨key, j⟩ := first
    rw [dumpMembers] at written
    obtain ⟨label, key', written⟩ := bind_eq_ok.mp written
    obtain ⟨value, first', written⟩ := bind_eq_ok.mp written
    obtain ⟨others, rest', written⟩ := bind_eq_ok.mp written
    cases written
    have comma : WellFormed [(44 : UInt8)] := wellFormed_ascii (by decide +kernel)
    have own := each (key, j) List.mem_cons_self size value first'
    have later := ih (fun m member => each m (List.mem_cons_of_mem _ member)) rest'
    exact ((((comma.append (wellFormed_newline indent size inner)).append (wellFormed_quoted key')).append
      (wellFormed_colon indent)).append own).append later

include digits

/-- Whatever is written is UTF-8. -/
theorem wellFormed_dumpAt (j : Json) (size width : ℕ) {text : Str}
    (written : dumpAt dumpFloat indent size width j = .ok text) : WellFormed text := by
  induction j using induction generalizing size width text with
  | null =>
    rw [dumpAt] at written
    cases written
    exact wellFormed_ascii (by decide +kernel)
  | bool value =>
    rw [dumpAt] at written
    cases written
    cases value <;> exact wellFormed_ascii (by decide +kernel)
  | int value =>
    rw [dumpAt] at written
    cases written
    exact wellFormed_ascii (stdToString_ascii value)
  | float value =>
    rw [dumpAt] at written
    cases written
    split
    · exact digits value
    · exact wellFormed_ascii (by decide +kernel)
  | str value =>
    rw [dumpAt] at written
    obtain ⟨content, escaped, rfl⟩ := map_eq_ok written
    exact wellFormed_quoted escaped
  | arr elements ih =>
    cases elements with
    | nil =>
      rw [dumpAt] at written
      cases written
      exact wellFormed_ascii (by decide +kernel)
    | cons first rest =>
      rw [dumpAt] at written
      obtain ⟨value, first', written⟩ := bind_eq_ok.mp written
      obtain ⟨others, rest', written⟩ := bind_eq_ok.mp written
      cases written
      have opens : WellFormed [(91 : UInt8)] := wellFormed_ascii (by decide +kernel)
      have closes : WellFormed [(93 : UInt8)] := wellFormed_ascii (by decide +kernel)
      have own := ih first List.mem_cons_self _ _ first'
      have later := wellFormed_dumpElements dumpFloat indent
        (fun j member size text => ih j (List.mem_cons_of_mem _ member) size _) rest'
      exact ((((opens.append (wellFormed_newline indent _ _)).append own).append later).append
        (wellFormed_newline indent _ _)).append closes
  | obj members ih =>
    cases members with
    | nil =>
      rw [dumpAt] at written
      cases written
      exact wellFormed_ascii (by decide +kernel)
    | cons first rest =>
      obtain ⟨key, j⟩ := first
      rw [dumpAt] at written
      obtain ⟨label, key', written⟩ := bind_eq_ok.mp written
      obtain ⟨value, first', written⟩ := bind_eq_ok.mp written
      obtain ⟨others, rest', written⟩ := bind_eq_ok.mp written
      cases written
      have opens : WellFormed [(123 : UInt8)] := wellFormed_ascii (by decide +kernel)
      have closes : WellFormed [(125 : UInt8)] := wellFormed_ascii (by decide +kernel)
      have own := ih (key, j) List.mem_cons_self _ _ first'
      have later := wellFormed_dumpMembers dumpFloat indent
        (fun m member size text => ih m (List.mem_cons_of_mem _ member) size _) rest'
      exact ((((((opens.append (wellFormed_newline indent _ _)).append (wellFormed_quoted key')).append
        (wellFormed_colon indent)).append own).append later).append (wellFormed_newline indent _ _)).append closes

end Bytes

/-! ## Room for the blanks -/

/-- `indent_string` has the blanks of the line, and doubled those of the lines inside. -/
def Roomy (size width : ℕ) : Prop := width ≤ size ∧ width + indent.getD 0 ≤ size * 2

theorem le_resized (size width : ℕ) : size ≤ resized size width := by
  rw [resized]
  split <;> omega

private theorem le_sizeAfterElements {inner : ℕ} {elements : List Json}
    (each : ∀ j ∈ elements, ∀ size, size ≤ sizeAfter indent size inner j) (size : ℕ) :
    size ≤ sizeAfterElements indent size inner elements := by
  induction elements generalizing size with
  | nil => rfl
  | cons j elements ih =>
    have own := each j List.mem_cons_self size
    exact own.trans (ih (fun j member => each j (List.mem_cons_of_mem _ member)) _)

private theorem le_sizeAfterMembers {inner : ℕ} {members : List (Str × Json)}
    (each : ∀ m ∈ members, ∀ size, size ≤ sizeAfter indent size inner m.2) (size : ℕ) :
    size ≤ sizeAfterMembers indent size inner members := by
  induction members generalizing size with
  | nil => rfl
  | cons m members ih =>
    have own := each m List.mem_cons_self size
    exact own.trans (ih (fun m member => each m (List.mem_cons_of_mem _ member)) _)

/-- The blanks never get fewer. -/
theorem le_sizeAfter (size width : ℕ) (j : Json) : size ≤ sizeAfter indent size width j := by
  induction j using induction generalizing size width with
  | null | bool value | int value | float value | str value => rfl
  | arr elements ih =>
    cases elements with
    | nil => rfl
    | cons first rest =>
      have own := ih first List.mem_cons_self (resized size (width + indent.getD 0)) (width + indent.getD 0)
      have others := le_sizeAfterElements indent fun j member size =>
        ih j (List.mem_cons_of_mem _ member) size (width + indent.getD 0)
      rw [sizeAfter]
      exact ((le_resized _ _).trans own).trans (others _)
  | obj members ih =>
    cases members with
    | nil => rfl
    | cons first rest =>
      have own := ih first List.mem_cons_self (resized size (width + indent.getD 0)) (width + indent.getD 0)
      have others := le_sizeAfterMembers indent fun m member size =>
        ih m (List.mem_cons_of_mem _ member) size (width + indent.getD 0)
      rw [sizeAfter]
      exact ((le_resized _ _).trans own).trans (others _)

variable {indent} in
theorem Roomy.mono {size size' width : ℕ} (roomy : Roomy indent size width) (more : size ≤ size') :
    Roomy indent size' width := by
  obtain ⟨own, inner⟩ := roomy
  exact ⟨own.trans more, inner.trans (by omega)⟩

variable {indent} in
/-- One doubling is enough: a line inside is longer by no more than this one has room for. -/
theorem Roomy.inside {size width : ℕ} (roomy : Roomy indent size width) :
    Roomy indent (resized size (width + indent.getD 0)) (width + indent.getD 0) := by
  obtain ⟨own, inner⟩ := roomy
  unfold Roomy resized
  split <;> omega

theorem roomy_start (bounded : ∀ step ∈ indent, step ≤ 1024) : Roomy indent 512 0 := by
  refine ⟨by omega, ?_⟩
  cases indent with
  | none => decide
  | some step =>
    have own := bounded step rfl
    rw [Option.getD_some]
    omega

/-! ## The tokens of what is written -/

/-- What follows a written value: the end, a line break or a closing character. -/
def Delimited (rest : Str) : Prop := ∀ c ∈ rest.head?, c = 44 ∨ c = 93 ∨ c = 125 ∨ c = 10

/-- The scanner reads a number back from the digits the serializer chose for it. -/
def ReadsBack (value : Flt) : Prop :=
  ∀ rest, Delimited rest → scan (dumpFloat value ++ rest) = (.valueFloat value, rest)

end Dump

theorem tokens_of_scan {text rest : Str} {token : Token} (found : scan text = (token, rest)) (more : token.more = true) :
    tokens text = token :: tokens rest := by
  rw [tokens_eq found, if_pos more]

/-- A structural character is its token. -/
theorem tokens_structural {c : UInt8} {token : Token} (found : structural c = some token) (more : token.more = true)
    (solid : isBlank c = false) (rest : Str) : tokens (c :: rest) = token :: tokens rest := by
  have own : scan (c :: rest) = (token, rest) := by
    rw [scan, List.dropWhile_cons, if_neg (by simp [solid]), scanToken, found]
  exact tokens_of_scan own more

theorem tokens_blanks (width : ℕ) (rest : Str) : tokens (.replicate width 32 ++ rest) = tokens rest := by
  induction width with
  | zero => rfl
  | succ width ih => rw [List.replicate_succ, List.cons_append, tokens_blank rfl, ih]

theorem tokens_newline (indent : Option ℕ) {size width : ℕ} (room : width ≤ size) (rest : Str) :
    tokens (newline indent size width ++ rest) = tokens rest := by
  rw [newline]
  split_ifs
  · rw [List.cons_append, tokens_blank rfl, indentation, Nat.min_eq_left room, Nat.sub_eq_zero_of_le room,
      List.replicate_zero, List.append_nil, tokens_blanks]
  · rfl

theorem tokens_colon (indent : Option ℕ) (rest : Str) : tokens (colon indent ++ rest) = .nameSeparator :: tokens rest := by
  rw [colon]
  split_ifs
  · rw [List.cons_append, tokens_structural (show structural 58 = some .nameSeparator from rfl) rfl rfl,
      List.cons_append, tokens_blank rfl]
    rfl
  · exact tokens_structural rfl rfl rfl rest

theorem tokens_literal {c : UInt8} {word : Str} {token : Token} (plain : structural c = none)
    (found : literal c = some (word, token)) (more : token.more = true) (solid : isBlank c = false)
    (front : word.head? = some c) (rest : Str) : tokens (word ++ rest) = token :: tokens rest := by
  obtain ⟨tail, rfl⟩ : ∃ tail, word = c :: tail := by
    cases word with
    | nil => cases front
    | cons first tail => exact ⟨tail, by rw [Option.some.inj front]⟩
  have own : scan (c :: tail ++ rest) = (token, rest) := by
    rw [scan, List.cons_append, List.dropWhile_cons, if_neg (by simp [solid]), scanToken, plain, found]
    change scanLiteral (c :: tail) token (c :: tail ++ rest) = _
    unfold scanLiteral
    rw [if_pos (List.prefix_append (c :: tail) rest), List.drop_left]
  exact tokens_of_scan own more

/-! ## Strings -/

theorem hexValue_hexDigit {n : ℕ} (small : n < 0x10) : hexValue (hexDigit n) = some n := by
  have all : ∀ n : Fin 16, hexValue (hexDigit n.val) = some n.val := by decide
  exact all ⟨n, small⟩

private theorem leadRanges_ascii {c : UInt8} (ascii : c.toNat < 0x80) : leadRanges c = some [] := by
  rw [leadRanges, if_pos ascii]

/-- The two characters of a short escape are read in one turn. -/
private theorem scanPiece_short {c mark : UInt8} (read : simpleEscape mark = some c) (text : Str) :
    scanPiece 92 ([mark] ++ text) = some ([c], text) := by
  rw [scanPiece, if_pos rfl, List.singleton_append, scanEscape, read]

private theorem scanPiece_unicode {n : ℕ} (small : n < 0x20) (text : Str) :
    scanPiece 92 ((unicodeEscape n).tail ++ text) = some ([UInt8.ofNat n], text) := by
  have digits : getCodepoint ((unicodeEscape n).tail.tail ++ text) = some (n, text) := by
    rw [unicodeEscape]
    simp only [List.tail_cons, List.cons_append, List.nil_append, getCodepoint]
    rw [hexValue_hexDigit (by omega), hexValue_hexDigit (by omega), hexValue_hexDigit (by omega),
      hexValue_hexDigit (by omega)]
    simp only [bind, Option.bind_some, Option.some.injEq, Prod.mk.injEq, and_true]
    omega
  have bytes : codepointBytes n = [UInt8.ofNat n] := by rw [codepointBytes, if_pos (by omega)]
  have escaped : scanPiece 92 ((unicodeEscape n).tail ++ text) = scanUnicode ((unicodeEscape n).tail.tail ++ text) := rfl
  rw [escaped, scanUnicode, digits]
  simp only [bind, Option.bind_some]
  rw [if_neg (by omega), if_neg (by omega), bytes]

/-- What is written for an ASCII character is read in one turn. -/
private theorem scanPiece_escapeByte {c : UInt8} (ascii : c.toNat < 0x80) :
    ∃ first tail, escapeByte c = first :: tail ∧ first ≠ 34 ∧
      ∀ text, scanPiece first (tail ++ text) = some ([c], text) := by
  by_cases short : c ∈ ([8, 9, 10, 12, 13, 34, 92] : List UInt8)
  · simp only [List.mem_cons, List.not_mem_nil, or_false] at short
    rcases short with rfl | rfl | rfl | rfl | rfl | rfl | rfl
    · exact ⟨92, [98], by decide, by decide, scanPiece_short (by decide)⟩
    · exact ⟨92, [116], by decide, by decide, scanPiece_short (by decide)⟩
    · exact ⟨92, [110], by decide, by decide, scanPiece_short (by decide)⟩
    · exact ⟨92, [102], by decide, by decide, scanPiece_short (by decide)⟩
    · exact ⟨92, [114], by decide, by decide, scanPiece_short (by decide)⟩
    · exact ⟨92, [34], by decide, by decide, scanPiece_short (by decide)⟩
    · exact ⟨92, [92], by decide, by decide, scanPiece_short (by decide)⟩
  · have other {d : UInt8} (member : d ∈ ([8, 9, 10, 12, 13, 34, 92] : List UInt8)) : c.toNat ≠ d.toNat := by
      intro same
      exact short (UInt8.toNat_inj.mp same ▸ member)
    have long : escapeByte c = if c.toNat ≤ 0x1F then unicodeEscape c.toNat else [c] := by
      have one : c.toNat ≠ 8 := other (d := 8) (by decide)
      have two : c.toNat ≠ 9 := other (d := 9) (by decide)
      have three : c.toNat ≠ 10 := other (d := 10) (by decide)
      have four : c.toNat ≠ 12 := other (d := 12) (by decide)
      have five : c.toNat ≠ 13 := other (d := 13) (by decide)
      have six : c.toNat ≠ 34 := other (d := 34) (by decide)
      have seven : c.toNat ≠ 92 := other (d := 92) (by decide)
      rw [escapeByte, escape, if_neg one, if_neg two, if_neg three, if_neg four, if_neg five, if_neg six, if_neg seven]
    rw [long]
    split_ifs with control
    · refine ⟨92, (unicodeEscape c.toNat).tail, rfl, by decide, fun text => ?_⟩
      rw [scanPiece_unicode (by omega), UInt8.ofNat_toNat]
    · have notEscape : c ≠ 92 := by rintro rfl; exact short (by decide)
      refine ⟨c, [], rfl, by rintro rfl; exact short (by decide), fun text => ?_⟩
      rw [List.nil_append, scanPiece, if_neg notEscape, if_neg (by omega), leadRanges_ascii ascii]
      rfl

/-- The bytes after a first byte: they are taken together and none of them is escaped. -/
private theorem owes_split {ranges : List Range} {s : Str} (owing : owes ranges s = some [])
    (tails : ∀ range ∈ ranges, 0x80 ≤ range.1) :
    ∃ trail back, s = trail ++ back ∧ (∀ text, nextByteInRange ranges (trail ++ text) = some (trail, text)) ∧
      trail.flatMap escapeByte = trail ∧ WellFormed back := by
  induction ranges generalizing s with
  | nil => exact ⟨[], s, rfl, fun _ => rfl, rfl, owing⟩
  | cons range ranges ih =>
    cases s with
    | nil => cases owing
    | cons c rest =>
      rw [owes, owe] at owing
      split_ifs at owing with holds
      · obtain ⟨trail, back, rfl, taken, copied, formed⟩ := ih owing fun other member =>
          tails other (List.mem_cons_of_mem _ member)
        have high : 0x80 ≤ c.toNat := (tails range List.mem_cons_self).trans holds.1
        refine ⟨c :: trail, back, rfl, fun text => ?_, ?_, formed⟩
        · rw [List.cons_append, nextByteInRange, if_pos holds, taken]
          rfl
        · rw [List.flatMap_cons, copied, escapeByte, escape_of_le high]
          rfl
      · cases owing

theorem scanString_escaped {s : Str} (formed : WellFormed s) (rest : Str) :
    scanString (s.flatMap escapeByte ++ 34 :: rest) = some (s, rest) := by
  induction length : s.length using Nat.strong_induction_on generalizing s with
  | _ k ih =>
    cases s with
    | nil => rw [List.flatMap_nil, List.nil_append, scanString_cons, if_pos rfl]
    | cons c back =>
      rw [List.length_cons] at length
      by_cases ascii : c.toNat < 0x80
      · obtain ⟨first, tail, written, other, read⟩ := scanPiece_escapeByte ascii
        have later : WellFormed back := by
          rwa [WellFormed, owes, owe, leadRanges_ascii ascii] at formed
        rw [List.flatMap_cons, written, List.append_assoc, List.cons_append, scanString_cons, if_neg other, read]
        simp only [Option.bind_some]
        rw [ih back.length (by omega) later rfl]
        rfl
      · rw [WellFormed, owes, owe] at formed
        obtain ⟨ranges, lead, owing⟩ := Option.bind_eq_some_iff.mp formed
        have tails : ∀ range ∈ ranges, 0x80 ≤ range.1 := by
          obtain ⟨rfl, low⟩ | ⟨rfl, _⟩ | ⟨rfl, _⟩ | ⟨rfl, _⟩ := leadRanges_eq_some lead
          · omega
          all_goals
            simp only [List.mem_cons, List.not_mem_nil, or_false, forall_eq_or_imp, forall_eq, tail]
            first | omega | (split_ifs <;> omega)
        obtain ⟨trail, back, rfl, taken, copied, formed⟩ := owes_split owing tails
        have notQuote : c ≠ 34 := by rintro rfl; exact ascii (by decide)
        have notEscape : c ≠ 92 := by rintro rfl; exact ascii (by decide)
        rw [List.flatMap_cons, List.flatMap_append, copied, escapeByte, escape_of_le (by omega), List.singleton_append,
          List.cons_append, scanString_cons, if_neg notQuote, scanPiece, if_neg notEscape, if_neg (by omega), lead,
          Option.bind_some, List.append_assoc, taken]
        simp only [Option.map_some, Option.bind_some]
        rw [ih back.length (by rw [List.length_append] at length; omega) formed rfl]
        rfl

/-- A written text is one token, whatever follows it. -/
theorem tokens_quoted {s : Str} (utf8 : Json.isUtf8 s = true) (rest : Str) :
    tokens (quoted (s.flatMap escapeByte) ++ rest) = .valueString s :: tokens rest := by
  have read := scanString_escaped ((wellFormed_iff_isUtf8 s).mpr utf8) rest
  have own : scan (34 :: (s.flatMap escapeByte ++ 34 :: rest)) = (.valueString s, rest) := by
    have plain : structural 34 = none := rfl
    have noLiteral : literal 34 = none := rfl
    rw [scan, List.dropWhile_cons, if_neg (by decide), scanToken, plain, noLiteral]
    simp only [↓reduceIte, read]
  have same : quoted (s.flatMap escapeByte) ++ rest = 34 :: (s.flatMap escapeByte ++ 34 :: rest) := by
    simp only [quoted, List.cons_append, List.append_assoc, List.nil_append]
  rw [same, tokens_of_scan own rfl]

/-! ## Integers -/

private theorem stop_done {rest : Str} (delimited : Delimited rest) {state : NumberState} (done : state.done = true)
    (type : NumberType) : scanNumberFrom state type rest = some ([], type, rest) := by
  cases rest with
  | nil => rw [scanNumberFrom, if_pos done]
  | cons c rest =>
    have stop : state.next c = none := by
      cases state <;> cases done <;> rcases delimited c (by simp) with rfl | rfl | rfl | rfl <;> rfl
    rw [scanNumberFrom, stop]
    simp only [done, ↓reduceIte]

private theorem scanNumberFrom_digits {digits rest : Str} (all : ∀ c ∈ digits, isDigit c = true)
    (delimited : Delimited rest) (type : NumberType) :
    scanNumberFrom .any1 type (digits ++ rest) = some (digits, type, rest) := by
  induction digits with
  | nil => exact stop_done delimited rfl type
  | cons c digits ih =>
    have next : NumberState.any1.next c = some .any1 := by
      rw [NumberState.next, if_pos (all c List.mem_cons_self)]
    rw [List.cons_append, scanNumberFrom, next]
    simp only [NumberState.enter]
    rw [ih fun other member => all other (List.mem_cons_of_mem _ member)]
    rfl

/-- Only zero is written with a leading zero. -/
private theorem decimal_cons {n : ℕ} {c : UInt8} {digits : Str} (written : decimal n = c :: digits) :
    isDigit c = true ∧ (c = 48 → digits = []) := by
  refine ⟨decimal_isDigit n c (written ▸ List.mem_cons_self), ?_⟩
  rintro rfl
  have zero : n = 0 := by
    induction n using Nat.strong_induction_on generalizing digits with
    | _ n ih =>
      rw [decimal_eq] at written
      split_ifs at written with small
      · have first := congrArg UInt8.toNat (List.cons.inj written).1
        rw [digit_toNat small] at first
        exact Nat.add_left_cancel first
      · cases front : decimal (n / 10) with
        | nil => exact absurd front (decimal_ne_nil _)
        | cons d more =>
          rw [front, List.cons_append] at written
          obtain ⟨rfl, _⟩ := List.cons.inj written
          have none := ih (n / 10) (by omega) front
          omega
  rw [zero] at written
  exact (List.cons.inj written).2.symm

/-- The digits of a number, read up to what follows them. -/
private theorem scanNumberFrom_decimal {n : ℕ} {c : UInt8} {digits rest : Str} (written : decimal n = c :: digits)
    (delimited : Delimited rest) (type : NumberType) :
    scanNumberFrom (if c = 48 then .zero else .any1) type (digits ++ rest) = some (digits, type, rest) := by
  split_ifs with zero
  · rw [(decimal_cons written).2 zero, List.nil_append]
    exact stop_done delimited rfl type
  · refine scanNumberFrom_digits (fun d member => ?_) delimited type
    exact decimal_isDigit n d (written ▸ List.mem_cons_of_mem _ member)

private theorem structural_digit {c : UInt8} (digit : isDigit c = true ∨ c = 45) :
    structural c = none ∧ literal c = none ∧ c ≠ 34 ∧ isBlank c = false := by
  have all : ∀ n : Fin 256, (isDigit (UInt8.ofNat n.val) = true ∨ UInt8.ofNat n.val = 45) →
      structural (UInt8.ofNat n.val) = none ∧ literal (UInt8.ofNat n.val) = none ∧ UInt8.ofNat n.val ≠ 34 ∧
        isBlank (UInt8.ofNat n.val) = false := by
    decide +kernel
  simpa using all ⟨c.toNat, c.toNat_lt⟩ (by simpa using digit)

private theorem scan_number {c : UInt8} (digit : isDigit c = true ∨ c = 45) (rest : Str) :
    scan (c :: rest) = scanNumber c rest := by
  obtain ⟨plain, noLiteral, noQuote, solid⟩ := structural_digit digit
  rw [scan, List.dropWhile_cons, if_neg (by simp [solid]), scanToken, plain, noLiteral]
  simp only [if_neg noQuote]
  rw [if_pos digit.symm]

/-- The token of an integer: the sign decides on its kind. -/
def intToken (n : ℤ) : Token := if n < 0 then .valueInteger n else .valueUnsigned n.toNat

private theorem scanNumber_positive {n : ℕ} (high : n < 2 ^ 64) {c : UInt8} {digits rest : Str}
    (written : decimal n = c :: digits) (delimited : Delimited rest) :
    scanNumber c (digits ++ rest) = (.valueUnsigned n, rest) := by
  have digit := (decimal_cons written).1
  have notMinus : c ≠ 45 := by rintro rfl; exact absurd digit (by decide)
  have entered : (if c = 48 then NumberState.zero else .any1).enter .unsigned = .unsigned := by split_ifs <;> rfl
  have value : scanInteger (c :: digits) = some (n : ℤ) := by
    rw [← written, scanInteger_of_digits (decimal_ne_nil n) (decimal_isDigit n), digitsValue_decimal]
  rw [scanNumber]
  simp only [if_neg notMinus, entered, scanNumberFrom_decimal written delimited]
  unfold convertNumber
  simp only [value, Int.toNat_natCast]
  rw [if_pos (by exact_mod_cast high)]

private theorem scanNumber_negative {n : ℤ} (low : -2 ^ 63 ≤ n) (negative : n < 0) {rest : Str}
    (delimited : Delimited rest) : scanNumber 45 (decimal n.natAbs ++ rest) = (.valueInteger n, rest) := by
  have value : scanInteger (45 :: decimal n.natAbs) = some n := by
    have own := scanInteger_stdToString n
    rwa [stdToString, if_pos negative] at own
  cases written : decimal n.natAbs with
  | nil => exact absurd written (decimal_ne_nil _)
  | cons c digits =>
    have next : NumberState.minus.next c = some (if c = 48 then .zero else .any1) := by
      rw [NumberState.next, if_pos (decimal_cons written).1]
      split_ifs <;> rfl
    have entered : (if c = 48 then NumberState.zero else .any1).enter .integer = .integer := by split_ifs <;> rfl
    rw [scanNumber, if_pos rfl, NumberState.enter, List.cons_append, scanNumberFrom, next]
    simp only [entered, scanNumberFrom_decimal written delimited, Option.map_some]
    unfold convertNumber
    rw [← written]
    simp only [value]
    rw [if_pos ⟨low, by omega⟩]

/-- A written integer is one token in front of a delimiter. -/
theorem tokens_int {n : ℤ} (low : -2 ^ 63 ≤ n) (high : n < 2 ^ 64) {rest : Str} (delimited : Delimited rest) :
    tokens (stdToString n ++ rest) = intToken n :: tokens rest := by
  have own : scan (stdToString n ++ rest) = (intToken n, rest) := by
    rw [stdToString, intToken]
    split_ifs with negative
    · rw [← scanNumber_negative low negative delimited]
      exact scan_number (Or.inr rfl) _
    · have same : (n.natAbs : ℤ) = n := Int.natAbs_of_nonneg (not_lt.mp negative)
      cases written : decimal n.natAbs with
      | nil => exact absurd written (decimal_ne_nil _)
      | cons c digits =>
        rw [List.cons_append, scan_number (Or.inl (decimal_cons written).1),
          scanNumber_positive (by omega) written delimited]
        congr 2
        omega
  exact tokens_of_scan own (by rw [intToken]; split_ifs <;> rfl)

theorem derives_int (n : ℤ) (rest : List Token) : Derives (.value (.int n)) (intToken n :: rest) rest := by
  rw [intToken]
  split_ifs with negative
  · exact .integer
  · have same : (n.toNat : ℤ) = n := Int.toNat_of_nonneg (not_lt.mp negative)
    have derived : Derives (.value (.int n.toNat)) (.valueUnsigned n.toNat :: rest) rest := .unsigned
    rwa [same] at derived

/-! ## Floating-point numbers -/

/-- A number that ends with its text also ends in front of a delimiter. -/
private theorem scanNumberFrom_append {rest : Str} (delimited : Delimited rest) {state : NumberState}
    {type type' : NumberType} {text digits : Str} (alone : scanNumberFrom state type text = some (digits, type', [])) :
    scanNumberFrom state type (text ++ rest) = some (digits, type', rest) := by
  induction text generalizing state type digits with
  | nil =>
    rw [scanNumberFrom] at alone
    obtain ⟨done, same⟩ := Option.ite_none_right_eq_some.mp alone
    cases same
    exact stop_done delimited done _
  | cons c text ih =>
    rw [List.cons_append, scanNumberFrom]
    rw [scanNumberFrom] at alone
    cases turn : state.next c with
    | none =>
      simp only [turn] at alone
      split at alone <;> cases alone
    | some next =>
      simp only [turn] at alone ⊢
      obtain ⟨⟨later, kind, left⟩, scanned, same⟩ := Option.map_eq_some_iff.mp alone
      cases same
      rw [ih scanned]
      rfl

private theorem scanNumber_append {rest : Str} (delimited : Delimited rest) {c : UInt8} {text : Str} {value : Flt}
    (alone : scanNumber c text = (.valueFloat value, [])) : scanNumber c (text ++ rest) = (.valueFloat value, rest) := by
  unfold scanNumber at alone ⊢
  dsimp only at alone ⊢
  split at alone
  · next digits type left scanned =>
    obtain ⟨token, rfl⟩ := Prod.mk.inj alone
    rw [scanNumberFrom_append delimited scanned, ← token]
  · cases alone

/-- Only the scanner of numbers returns a floating-point number. -/
private theorem scanNumber_of_scanToken {c : UInt8} {text left : Str} {value : Flt}
    (scanned : scanToken (c :: text) = (.valueFloat value, left)) :
    scanNumber c text = (.valueFloat value, left) ∧ (isDigit c = true ∨ c = 45) := by
  by_cases number : isDigit c = true ∨ c = 45
  · obtain ⟨plain, noLiteral, noQuote, -⟩ := structural_digit number
    rw [scanToken, plain, noLiteral] at scanned
    simp only [if_neg noQuote] at scanned
    rw [if_pos number.symm] at scanned
    exact ⟨scanned, number⟩
  · rw [scanToken] at scanned
    cases special : structural c with
    | some token =>
      simp only [special] at scanned
      obtain ⟨rfl, -⟩ := Prod.mk.inj scanned
      simpa using mem_of_lookup special
    | none =>
      cases word : literal c with
      | some found =>
        obtain ⟨text', token⟩ := found
        simp only [special, word, scanLiteral] at scanned
        split at scanned
        · obtain ⟨rfl, -⟩ := Prod.mk.inj scanned
          simpa using mem_of_lookup word
        · cases scanned
      | none =>
        simp only [special, word, if_neg (fun other => number (Or.symm other))] at scanned
        split at scanned
        · split at scanned <;> cases scanned
        · split at scanned <;> cases scanned

/-- A number is read back if its digits, taken alone, are read as that number. -/
theorem readsBack_iff {dumpFloat : Flt → Str} {value : Flt} :
    ReadsBack dumpFloat value ↔ scan (dumpFloat value) = (.valueFloat value, []) := by
  constructor
  · intro back
    have alone := back [] nofun
    rwa [List.append_nil] at alone
  · intro alone rest delimited
    rw [scan] at alone ⊢
    cases solid : (dumpFloat value).dropWhile isBlank with
    | nil =>
      rw [solid] at alone
      cases alone
    | cons c text =>
      rw [solid] at alone
      obtain ⟨number, digit⟩ := scanNumber_of_scanToken alone
      obtain ⟨plain, noLiteral, noQuote, -⟩ := structural_digit digit
      rw [List.dropWhile_append, solid, List.isEmpty_cons, if_neg Bool.false_ne_true, List.cons_append, scanToken,
        plain, noLiteral]
      simp only [if_neg noQuote]
      rw [if_pos digit.symm]
      exact scanNumber_append delimited number

/-! ## Values -/

section Written

variable (dumpFloat : Flt → Str) (indent : Option ℕ)

/-- The text of a value stands for it in front of any delimiter. -/
def StandsFor (j : Json) : Prop := ∀ size width text rest, Roomy indent size width →
  dumpAt dumpFloat indent size width j = .ok text → Delimited rest →
    Derives (.value j) (tokens (text ++ rest)) (tokens rest)

private theorem delimited_close {c : UInt8} (close : c = 93 ∨ c = 125) (size width : ℕ) (rest : Str) :
    Delimited (newline indent size width ++ c :: rest) := by
  intro d member
  rw [newline] at member
  split_ifs at member
  · rw [List.cons_append, List.head?_cons, Option.mem_some_iff] at member
    exact Or.inr (Or.inr (Or.inr member.symm))
  · rw [List.nil_append, List.head?_cons, Option.mem_some_iff] at member
    rcases close with rfl | rfl
    · exact Or.inr (Or.inl member.symm)
    · exact Or.inr (Or.inr (Or.inl member.symm))

private theorem delimited_comma (rest : Str) : Delimited (44 :: rest) := by
  intro c member
  rw [List.head?_cons, Option.mem_some_iff] at member
  exact Or.inl member.symm

private theorem derives_elements {size inner : ℕ} (roomy : Roomy indent size inner) {last width : ℕ}
    (room : width ≤ last) (rest : Str) (elements : List Json)
    (standing : ∀ j ∈ elements, StandsFor dumpFloat indent j) {first : Json}
    (own : StandsFor dumpFloat indent first) {text more : Str}
    (written : dumpAt dumpFloat indent size inner first = .ok text)
    (others : dumpElements dumpFloat indent (sizeAfter indent size inner first) inner elements = .ok more) :
    Derives (.elements (first :: elements)) (tokens (text ++ (more ++ (newline indent last width ++ 93 :: rest))))
      (tokens rest) := by
  induction elements generalizing first text more size with
  | nil =>
    rw [dumpElements] at others
    obtain rfl := Except.ok.inj others
    have derived := own size inner text _ roomy written (delimited_close indent (Or.inl rfl) last width rest)
    rw [tokens_newline indent room, tokens_structural (show structural 93 = some .endArray from rfl) rfl rfl] at derived
    exact .lastElement derived
  | cons second elements ih =>
    rw [dumpElements] at others
    obtain ⟨text', written', others⟩ := bind_eq_ok.mp others
    obtain ⟨more', others', same⟩ := bind_eq_ok.mp others
    obtain rfl := Except.ok.inj same
    have still : Roomy indent (sizeAfter indent size inner first) inner := roomy.mono (le_sizeAfter indent _ _ _)
    have later := ih still (fun j member => standing j (List.mem_cons_of_mem _ member))
      (standing second List.mem_cons_self) written' others'
    have derived := own size inner text _ roomy written (delimited_comma
      (newline indent (sizeAfter indent size inner first) inner ++
        (text' ++ (more' ++ (newline indent last width ++ 93 :: rest)))))
    rw [tokens_structural (show structural 44 = some .valueSeparator from rfl) rfl rfl,
      tokens_newline indent still.1] at derived
    simp only [List.cons_append, List.append_assoc]
    exact .element derived later

private theorem derives_members {size inner : ℕ} (roomy : Roomy indent size inner) {last width : ℕ}
    (room : width ≤ last) (rest : Str) (members : List (Str × Json))
    (keys : ∀ m ∈ members, Json.isUtf8 m.1 = true) (standing : ∀ m ∈ members, StandsFor dumpFloat indent m.2)
    {key : Str} {first : Json} (utf8 : Json.isUtf8 key = true) (own : StandsFor dumpFloat indent first)
    {text more : Str} (written : dumpAt dumpFloat indent size inner first = .ok text)
    (others : dumpMembers dumpFloat indent (sizeAfter indent size inner first) inner members = .ok more) :
    Derives (.members ((key, first) :: members))
      (tokens (quoted (key.flatMap escapeByte) ++
        (colon indent ++ (text ++ (more ++ (newline indent last width ++ 125 :: rest))))))
      (tokens rest) := by
  induction members generalizing key first text more size with
  | nil =>
    rw [dumpMembers] at others
    obtain rfl := Except.ok.inj others
    have derived := own size inner text _ roomy written (delimited_close indent (Or.inr rfl) last width rest)
    rw [tokens_newline indent room, tokens_structural (show structural 125 = some .endObject from rfl) rfl rfl] at derived
    rw [tokens_quoted utf8, tokens_colon]
    exact .lastMember derived
  | cons second members ih =>
    obtain ⟨key', j⟩ := second
    rw [dumpMembers] at others
    obtain ⟨name', named', others⟩ := bind_eq_ok.mp others
    obtain ⟨text', written', others⟩ := bind_eq_ok.mp others
    obtain ⟨more', others', same⟩ := bind_eq_ok.mp others
    obtain rfl := Except.ok.inj same
    have utf8' : Json.isUtf8 key' = true := keys (key', j) List.mem_cons_self
    rw [dumpEscaped_eq, if_pos utf8'] at named'
    obtain rfl := Except.ok.inj named'
    have still : Roomy indent (sizeAfter indent size inner first) inner := roomy.mono (le_sizeAfter indent _ _ _)
    have later := ih still (fun m member => keys m (List.mem_cons_of_mem _ member))
      (fun m member => standing m (List.mem_cons_of_mem _ member)) utf8' (standing (key', j) List.mem_cons_self)
      written' others'
    have derived := own size inner text _ roomy written (delimited_comma
      (newline indent (sizeAfter indent size inner first) inner ++ (quoted (key'.flatMap escapeByte) ++
        (colon indent ++ (text' ++ (more' ++ (newline indent last width ++ 125 :: rest)))))))
    rw [tokens_structural (show structural 44 = some .valueSeparator from rfl) rfl rfl,
      tokens_newline indent still.1] at derived
    rw [tokens_quoted utf8, tokens_colon]
    simp only [List.cons_append, List.append_assoc]
    exact .member derived later

theorem Plain.standsFor {j : Json} (plain : Plain (ReadsBack dumpFloat) j) : StandsFor dumpFloat indent j := by
  induction plain with
  | null =>
    intro size width text rest _ written _
    rw [dumpAt] at written
    obtain rfl := Except.ok.inj written
    rw [tokens_literal rfl (show literal 110 = some (("null" : Str), Token.literalNull) from rfl) rfl rfl rfl]
    exact .null
  | bool value =>
    intro size width text rest _ written _
    rw [dumpAt] at written
    obtain rfl := Except.ok.inj written
    cases value with
    | true =>
      have read := tokens_literal rfl (show literal 116 = some (("true" : Str), Token.literalTrue) from rfl) rfl rfl
        rfl rest
      rw [if_pos rfl, read]
      exact .yes
    | false =>
      have read := tokens_literal rfl (show literal 102 = some (("false" : Str), Token.literalFalse) from rfl) rfl rfl
        rfl rest
      rw [if_neg (by decide), read]
      exact .no
  | int low high =>
    intro size width text rest _ written delimited
    rw [dumpAt] at written
    obtain rfl := Except.ok.inj written
    rw [tokens_int low high delimited]
    exact derives_int _ _
  | float finite holds =>
    intro size width text rest _ written delimited
    rw [dumpAt, if_pos finite] at written
    obtain rfl := Except.ok.inj written
    rw [tokens_of_scan (holds rest delimited) rfl]
    exact .float finite
  | str utf8 =>
    intro size width text rest _ written _
    rw [dumpAt, dumpEscaped_eq, if_pos utf8] at written
    obtain rfl := Except.ok.inj written
    rw [tokens_quoted utf8]
    exact .str
  | @arr elements _ ih =>
    intro size width text rest roomy written _
    cases elements with
    | nil =>
      rw [dumpAt] at written
      obtain rfl := Except.ok.inj written
      have read : tokens (("[]" : Str) ++ rest) = .beginArray :: .endArray :: tokens rest := by
        change tokens (91 :: 93 :: rest) = _
        rw [tokens_structural (show structural 91 = some .beginArray from rfl) rfl rfl,
          tokens_structural (show structural 93 = some .endArray from rfl) rfl rfl]
      rw [read]
      exact .emptyArray
    | cons first elements =>
      rw [dumpAt] at written
      obtain ⟨text', written', others⟩ := bind_eq_ok.mp written
      obtain ⟨more', others', same⟩ := bind_eq_ok.mp others
      obtain rfl := Except.ok.inj same
      have room : width ≤ sizeAfter indent size width (.arr (first :: elements)) :=
        roomy.1.trans (le_sizeAfter indent _ _ _)
      rw [sizeAfter] at room
      have derived := derives_elements dumpFloat indent roomy.inside room rest elements
        (fun j member => ih j (List.mem_cons_of_mem _ member)) (ih first List.mem_cons_self) written' others'
      simp only [List.cons_append, List.append_assoc, List.nil_append]
      rw [tokens_structural (show structural 91 = some .beginArray from rfl) rfl rfl,
        tokens_newline indent roomy.inside.1]
      exact .array derived
  | @obj members distinct keys _ ih =>
    intro size width text rest roomy written _
    have whole : objectOf members = .obj members := by
      rw [objectOf, foldl_assign_of_nodup [] members (by simpa using distinct), List.nil_append]
    cases members with
    | nil =>
      rw [dumpAt] at written
      obtain rfl := Except.ok.inj written
      have read : tokens (("\x7b\x7d" : Str) ++ rest) = .beginObject :: .endObject :: tokens rest := by
        change tokens (123 :: 125 :: rest) = _
        rw [tokens_structural (show structural 123 = some .beginObject from rfl) rfl rfl,
          tokens_structural (show structural 125 = some .endObject from rfl) rfl rfl]
      rw [read]
      exact .emptyObject
    | cons first members =>
      obtain ⟨key, j⟩ := first
      rw [dumpAt] at written
      obtain ⟨name, named, others⟩ := bind_eq_ok.mp written
      obtain ⟨text', written', others⟩ := bind_eq_ok.mp others
      obtain ⟨more', others', same⟩ := bind_eq_ok.mp others
      obtain rfl := Except.ok.inj same
      have utf8 : Json.isUtf8 key = true := keys (key, j) List.mem_cons_self
      rw [dumpEscaped_eq, if_pos utf8] at named
      obtain rfl := Except.ok.inj named
      have room : width ≤ sizeAfter indent size width (.obj ((key, j) :: members)) :=
        roomy.1.trans (le_sizeAfter indent _ _ _)
      rw [sizeAfter] at room
      have derived := derives_members dumpFloat indent roomy.inside room rest members
        (fun m member => keys m (List.mem_cons_of_mem _ member))
        (fun m member => ih m (List.mem_cons_of_mem _ member)) utf8 (ih (key, j) List.mem_cons_self) written' others'
      simp only [List.cons_append, List.append_assoc, List.nil_append]
      rw [tokens_structural (show structural 123 = some .beginObject from rfl) rfl rfl,
        tokens_newline indent roomy.inside.1, ← whole]
      exact .object derived

/-- A text whose tokens stand for a value has no byte order mark. -/
private theorem lex_eq_tokens {j : Json} {text : Str} {rest : List Token}
    (derived : Derives (.value j) (tokens text) rest) : lex text = tokens text := by
  have start : skipBom text = some text := by
    cases text with
    | nil => rfl
    | cons c back =>
      have unmarked : c ≠ 0xEF := by
        rintro rfl
        have broken : scan (0xEF :: back) = (.parseError, []) := rfl
        rw [tokens_eq broken] at derived
        cases derived
      simp only [skipBom, if_neg unmarked]
  rw [lex, start]

section Bounded

variable {indent} (bounded : ∀ step ∈ indent, step ≤ 1024)
include bounded

/-- The tokens of a written document are those of its value. -/
theorem Plain.dump_derives {j : Json} (plain : Plain (ReadsBack dumpFloat) j) :
    ∃ text, dump dumpFloat indent j = .ok text ∧ Derives (.value j) (lex text) [.endOfInput] := by
  obtain ⟨text, written⟩ := exists_dump dumpFloat indent plain.utf8Texts
  have derived := plain.standsFor dumpFloat indent 512 0 text [] (roomy_start indent bounded) written
    fun c member => (by cases member)
  rw [List.append_nil] at derived
  refine ⟨text, written, ?_⟩
  rw [lex_eq_tokens derived]
  exact derived

/-- A plain value, written in one line or with an indentation that one doubling makes room for, is read back. -/
theorem parse_dump {j : Json} (plain : Plain (ReadsBack dumpFloat) j) :
    ∃ text, dump dumpFloat indent j = .ok text ∧ parse text = .ok j := by
  obtain ⟨text, written, derived⟩ := plain.dump_derives dumpFloat bounded
  exact ⟨text, written, parse_of_derives derived⟩

end Bounded

/-- A line that takes more blanks than there are shows the null character, and the scanner stops at it. -/
private theorem tokens_short {step size width : ℕ} (short : size < width) (rest : Str) :
    tokens (newline (some step) size width ++ rest) = [.endOfInput] := by
  obtain ⟨behind, more⟩ : ∃ behind, width - size = behind + 1 := ⟨width - size - 1, by omega⟩
  have stops (rest : Str) : scan (0 :: rest) = (.endOfInput, rest) := rfl
  rw [newline, Option.isSome_some, if_pos rfl, indentation, Nat.min_eq_right short.le, more, List.replicate_succ,
    List.cons_append, tokens_blank rfl, List.append_assoc, tokens_blanks, List.cons_append, tokens_eq (stops _)]
  rfl

/-- With a wider indentation nothing that has members or elements is read back: 1024 is the limit. -/
theorem parse_dump_wide {step : ℕ} (wide : 1024 < step) {j : Json}
    (filled : (∃ first rest, j = .arr (first :: rest)) ∨ ∃ first rest, j = .obj (first :: rest)) {text : Str}
    (written : dump dumpFloat (some step) j = .ok text) : parse text = .error syntaxError := by
  have short : resized 512 (0 + step) < 0 + step := by
    rw [resized, if_pos (by omega)]
    omega
  have stops {c : UInt8} {token : Token} (opens : structural c = some token) (more : token.more = true)
      (solid : isBlank c = false) (unmarked : c ≠ 0xEF) (rest : Str) :
      lex (c :: (newline (some step) (resized 512 (0 + step)) (0 + step) ++ rest)) = [token, .endOfInput] := by
    rw [lex]
    simp only [skipBom, if_neg unmarked]
    exact (tokens_structural opens more solid _).trans (congrArg _ (tokens_short short rest))
  rcases filled with ⟨first, rest, rfl⟩ | ⟨⟨key, first⟩, rest, rfl⟩ <;> rw [dump, dumpAt] at written
  · obtain ⟨_, _, written⟩ := bind_eq_ok.mp written
    obtain ⟨_, _, written⟩ := bind_eq_ok.mp written
    cases written
    simp only [List.cons_append, List.append_assoc, Option.getD_some]
    rw [parse, stops (show structural 91 = some .beginArray from rfl) rfl rfl (by decide)]
    rfl
  · obtain ⟨_, _, written⟩ := bind_eq_ok.mp written
    obtain ⟨_, _, written⟩ := bind_eq_ok.mp written
    obtain ⟨_, _, written⟩ := bind_eq_ok.mp written
    cases written
    simp only [List.cons_append, List.append_assoc, Option.getD_some]
    rw [parse, stops (show structural 123 = some .beginObject from rfl) rfl rfl (by decide)]
    rfl

/-- A half, and the digits it is written with. -/
def half : Flt := .finite false (2 ^ 52) (-53)

theorem readsBack_half : ReadsBack (fun _ => "0.5") half := readsBack_iff.mpr (by decide +kernel)

theorem parse_dump_nested :
    ∃ text, dump (fun _ => "0.5") (some 4) (.obj [("a", .arr [.null, .int (-7), .float half]), ("b", .str "\n\"")]) =
        .ok text ∧
      parse text = .ok (.obj [("a", .arr [.null, .int (-7), .float half]), ("b", .str "\n\"")]) := by
  refine parse_dump _ (by simp) (.obj (by decide) ?_ ?_)
  · simp only [List.forall_mem_cons, List.not_mem_nil, false_imp_iff, implies_true, and_true]
    exact ⟨Json.isUtf8_of_ascii (by decide +kernel), Json.isUtf8_of_ascii (by decide +kernel)⟩
  · simp only [List.forall_mem_cons, List.not_mem_nil, false_imp_iff, implies_true, and_true]
    refine ⟨.arr ?_, .str (Json.isUtf8_of_ascii (by decide +kernel))⟩
    simp only [List.forall_mem_cons, List.not_mem_nil, false_imp_iff, implies_true, and_true]
    exact ⟨.null, .int (by decide) (by decide), .float rfl readsBack_half⟩

/-! ## Reading, writing and reading again -/

/-- A floating-point number is part of a value. -/
inductive Occurs (x : Flt) : Json → Prop where
  | float : Occurs x (.float x)
  | arr {elements : List Json} {j : Json} (member : j ∈ elements) (inner : Occurs x j) : Occurs x (.arr elements)
  | obj {members : List (Str × Json)} {m : Str × Json} (member : m ∈ members) (inner : Occurs x m.2) :
      Occurs x (.obj members)

theorem Plain.of_occurs {float : Flt → Prop} {j : Json} (plain : Plain (fun _ => True) j)
    (holds : ∀ x, Occurs x j → float x) : Plain float j := by
  induction plain with
  | null => exact .null
  | bool value => exact .bool value
  | int low high => exact .int low high
  | float finite _ => exact .float finite (holds _ .float)
  | str utf8 => exact .str utf8
  | arr _ ih => exact .arr fun j member => ih j member fun x inner => holds x (.arr member inner)
  | obj distinct keys _ ih =>
    exact .obj distinct keys fun m member => ih m member fun x inner => holds x (.obj member inner)

/-- Whatever document is accepted, its value is written without an exception and accepted again, if its
floating-point numbers read back and the indentation has room. -/
theorem dump_parse (bounded : ∀ step ∈ indent, step ≤ 1024) {text : Str} {j : Json} (parsed : parse text = .ok j)
    (floats : ∀ x, Occurs x j → ReadsBack dumpFloat x) :
    ∃ written, dump dumpFloat indent j = .ok written ∧ parse written = .ok j := by
  have plain : Plain (ReadsBack dumpFloat) j := (parse_plain parsed).of_occurs floats
  obtain ⟨written, dumped, derived⟩ := plain.dump_derives dumpFloat bounded
  exact ⟨written, dumped, parse_of_derives derived⟩

/-- A document with a byte order mark, blanks, an escaped letter, a repeated member and a number that is not
an integer. -/
theorem dump_parse_repeated :
    ∃ written, dump (fun _ => "0.5") (some 2) (.obj [("x", .float half)]) = .ok written ∧
      parse written = .ok (.obj [("x", .float half)]) := by
  have read : lex (0xEF :: 0xBB :: 0xBF :: bytes "\x7b \"\\u0078\" : true, \"x\":50e-2 \x7d") =
      [.beginObject, .valueString "x", .nameSeparator, .literalTrue, .valueSeparator, .valueString "x",
        .nameSeparator, .valueFloat half, .endObject, .endOfInput] := by
    decide +kernel
  have derived : Derives (.value (.obj [("x", .float half)]))
      (lex (0xEF :: 0xBB :: 0xBF :: bytes "\x7b \"\\u0078\" : true, \"x\":50e-2 \x7d")) [.endOfInput] := by
    have object : objectOf [("x", .bool true), ("x", .float half)] = .obj [("x", .float half)] := rfl
    rw [read, ← object]
    exact .object (.member .yes (.lastMember (.float rfl)))
  refine dump_parse _ _ (by simp) (parse_of_derives derived) fun x occurs => ?_
  cases occurs with
  | obj member inner =>
    rw [List.mem_singleton.mp member] at inner
    cases inner
    exact readsBack_half

end Written

end OsuTracker.Cxx.JsonText
