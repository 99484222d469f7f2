import OsuTracker.Soundness.Mustache.Render

/-! # What values do to a page

A template is rendered in a family of contexts at once. When the values that tags and blocks find
are of one shape for the whole family, then so is the text. Two families matter. Where contexts
differ only in the texts of their strings and every tag escapes, the characters that mark up a page
are the same in all of them. And where they differ in one string that is only written raw, that
string stands in the page as it is, at places that do not depend on it.
-/

namespace OsuTracker.Soundness.Mustache.Values

open Cxx Model.Web.Mustache Model.Web.Mustache.Template Machine.Brackets Compile Render

/-! ## Families -/

section Families

variable {I : Type}

/-- Nothing is found, or a value of the given kind. -/
def Found (Q : (I → Value) → Prop) (found : I → Option Value) : Prop :=
  (∀ i, found i = none) ∨ ∃ v, Q v ∧ ∀ i, found i = some (v i)

/-- All fail in the same way, or all write a text of the given kind. -/
def Uniformly (Txt : (I → Str) → Prop) (rendered : I → Except Failure Str) : Prop :=
  (∃ e, ∀ i, rendered i = .error e) ∨ ∃ text, Txt text ∧ ∀ i, rendered i = .ok (text i)

/-- A block is left out, or entered with values of the given kind. -/
def Enters (Val : (I → Value) → Prop) (entries : I → Entry) : Prop :=
  (∀ i, entries i = .skip) ∨ (∃ v, Val v ∧ ∀ i, entries i = .enter (v i)) ∨
    ∃ elements : List (I → Value), (∀ v ∈ elements, Val v) ∧ ∀ i, entries i = .each (elements.map (· i))

/-- Kinds of texts that pages are put together from. -/
structure Composes (Txt : (I → Str) → Prop) : Prop where
  same (text : Str) : Txt fun _ => text
  append {first second : I → Str} : Txt first → Txt second → Txt fun i => first i ++ second i

variable {Val Q : (I → Value) → Prop} {Txt : (I → Str) → Prop}

theorem Uniformly.bind_map {first second : I → Except Failure Str} {join : Str → Str → Str}
    (one : Uniformly Txt first) (two : Uniformly Txt second)
    (joins : ∀ a b : I → Str, Txt a → Txt b → Txt fun i => join (a i) (b i)) :
    Uniformly Txt fun i => (first i).bind fun a => (second i).map fun b => join a b := by
  rcases one with ⟨e, failed⟩ | ⟨a, textA, written⟩
  · exact .inl ⟨e, fun i => by simp only [failed]; rfl⟩
  · rcases two with ⟨e, failed⟩ | ⟨b, textB, also⟩
    · exact .inl ⟨e, fun i => by simp only [written, failed]; rfl⟩
    · exact .inr ⟨_, joins a b textA textB, fun i => by simp only [written, also]; rfl⟩

theorem Uniformly.map {rendered : I → Except Failure Str} {f : Str → Str} (one : Uniformly Txt rendered)
    (maps : ∀ a : I → Str, Txt a → Txt fun i => f (a i)) : Uniformly Txt fun i => (rendered i).map f := by
  rcases one with ⟨e, failed⟩ | ⟨a, text, written⟩
  · exact .inl ⟨e, fun i => by simp only [failed]; rfl⟩
  · exact .inr ⟨_, maps a text, fun i => by simp only [written]; rfl⟩

/-- Looking for something in the values of a stack, from the top. -/
theorem found_findSome {look : Value → Option Value} {stack : List (I → Value)}
    (each : ∀ v ∈ stack, Found Q fun i => look (v i)) : Found Q fun i => (stack.map (· i)).findSome? look := by
  induction stack with
  | nil => exact .inl fun _ => rfl
  | cons v stack ih =>
    obtain ⟨own, others⟩ := List.forall_mem_cons.mp each
    rcases own with absent | ⟨w, kind, found⟩
    · have later := ih others
      simpa only [List.map_cons, List.findSome?_cons, absent] using later
    · exact .inr ⟨w, kind, fun i => by simp only [List.map_cons, List.findSome?_cons, found]⟩

/-- What a name stands for. -/
theorem found_context {name : Str} {stack : List (I → Value)} (dot : name = "." → ∀ v ∈ stack, Q v)
    (path : ('.' : UInt8) ∈ name → ∀ v ∈ stack, Found Q fun i => (v i).path? (name.splitOn ('.' : UInt8)))
    (member : ('.' : UInt8) ∉ name → ∀ v ∈ stack, Found Q fun i => (v i).member? name) (onlyFirst : Bool) :
    Found Q fun i => findContext name (stack.map (· i)) onlyFirst := by
  unfold findContext
  by_cases top : name = "."
  · simp only [if_pos top]
    cases stack with
    | nil => exact .inl fun _ => rfl
    | cons v stack => exact .inr ⟨v, dot top v List.mem_cons_self, fun _ => rfl⟩
  · simp only [if_neg top]
    by_cases dotted : ('.' : UInt8) ∈ name
    · simp only [if_pos dotted]
      cases onlyFirst with
      | true =>
        simp only [↓reduceIte, ← List.map_take]
        exact found_findSome fun v inside => path dotted v (List.mem_of_mem_take inside)
      | false => exact found_findSome (path dotted)
    · simp only [if_neg dotted]
      exact found_findSome (member dotted)

/-! ## Forests and templates -/

/-- What is asked of the tags and blocks of a template. -/
structure Fits (Val : (I → Value) → Prop) (Txt : (I → Str) → Prop) (t : Template) : Prop where
  tags : ∀ action ∈ t.actions, action.t = .tag ∨ action.t = .unescapeTag → ∀ stack : List (I → Value),
    (∀ v ∈ stack, Val v) → ∀ onlyFirst, Uniformly Txt fun i => t.tagText action (stack.map (· i)) onlyFirst
  blocks : ∀ action ∈ t.actions, action.t = .openBlock ∨ action.t = .elseBlock → ∀ stack : List (I → Value),
    (∀ v ∈ stack, Val v) → Enters Val fun i => t.entry action (stack.map (· i))

variable {partials : Str → List Value → ℕ → Except Failure Str} {t : Template}

theorem uniformly_each (composes : Composes Txt) {indent : ℕ} {inner : I → Value → Except Failure Str}
    {elements : List (I → Value)} (each : ∀ v ∈ elements, Uniformly Txt fun i => inner i (v i)) :
    Uniformly Txt fun i => eachText indent (inner i) (elements.map (· i)) := by
  induction elements with
  | nil => exact .inr ⟨_, composes.same [], fun _ => rfl⟩
  | cons v elements ih =>
    obtain ⟨own, others⟩ := List.forall_mem_cons.mp each
    exact own.bind_map (ih others) fun a b textA textB =>
      composes.append (composes.append (composes.same (blanks indent)) textA) textB

theorem uniformly_leaf (composes : Composes Txt) (fits : Fits Val Txt t)
    (objects : ∀ v, Val v → ∃ isObject, ∀ i, (v i).isObject = isObject) {indent : ℕ}
    (inclusion : ∀ action ∈ t.actions, action.t = .partialTag → ∀ indent, ∀ stack : List (I → Value),
      (∀ v ∈ stack, Val v) → Uniformly Txt fun i => partials (t.tagName action) (stack.map (· i)) indent)
    {piece : Piece} (member : piece.action ∈ t.actions) {stack : List (I → Value)} (values : ∀ v ∈ stack, Val v) :
    Uniformly Txt fun i => leafText partials t indent piece (stack.map (· i)) := by
  have top : ∃ isObject, ∀ i, (stack.map (· i)).head?.elim false (·.isObject) = isObject := by
    cases stack with
    | nil => exact ⟨false, fun _ => rfl⟩
    | cons v stack => exact objects v (values v List.mem_cons_self)
  obtain ⟨isObject, object⟩ := top
  unfold leafText
  cases kind : piece.action.t with
  | partialTag => exact inclusion _ member kind _ stack values
  | tag =>
    simp only [object]
    exact fits.tags _ member (.inl kind) stack values _
  | unescapeTag =>
    simp only [object]
    exact fits.tags _ member (.inr kind) stack values _
  | ignore => exact .inr ⟨_, composes.same [], fun _ => rfl⟩
  | openBlock => exact .inr ⟨_, composes.same [], fun _ => rfl⟩
  | closeBlock => exact .inr ⟨_, composes.same [], fun _ => rfl⟩
  | elseBlock => exact .inr ⟨_, composes.same [], fun _ => rfl⟩

theorem uniformly_forest (composes : Composes Txt) (fits : Fits Val Txt t)
    (objects : ∀ v, Val v → ∃ isObject, ∀ i, (v i).isObject = isObject) {indent : ℕ}
    (inclusion : ∀ action ∈ t.actions, action.t = .partialTag → ∀ indent, ∀ stack : List (I → Value),
      (∀ v ∈ stack, Val v) → Uniformly Txt fun i => partials (t.tagName action) (stack.map (· i)) indent)
    {f : Forest Piece} {o : ℕ}
    (linked : Linked t o f) (members : ∀ piece ∈ f.flatten, piece.action ∈ t.actions) {stack : List (I → Value)}
    (values : ∀ v ∈ stack, Val v) : Uniformly Txt fun i => renderForest partials t indent f (stack.map (· i)) := by
  have joins (fragment : ℕ × ℕ) (a b : I → Str) (textA : Txt a) (textB : Txt b) :
      Txt fun i => t.renderFragment fragment indent ++ a i ++ b i :=
    composes.append (composes.append (composes.same _) textA) textB
  induction f generalizing o stack with
  | nil => exact .inr ⟨_, composes.same [], fun _ => rfl⟩
  | leaf piece rest ih =>
    obtain ⟨own, others⟩ := List.forall_mem_cons.mp members
    exact (uniformly_leaf composes fits objects inclusion own values).bind_map (ih linked.2 others values)
      (joins piece.fragment)
  | block opening inner closing rest ihInner ih =>
    obtain ⟨own, others⟩ := List.forall_mem_cons.mp members
    obtain ⟨pair, inside, behind⟩ := linked
    have within (v : I → Value) (kind : Val v) : Uniformly Txt fun i =>
        (renderForest partials t indent inner (v i :: stack.map (· i))).map
          (· ++ t.renderFragment closing.fragment indent) :=
      (ihInner inside (fun piece there => others piece (List.mem_append_left _ there))
        (List.forall_mem_cons.mpr ⟨kind, values⟩)).map fun a text => composes.append text (composes.same _)
    refine Uniformly.bind_map ?_ (ih behind (fun piece there => others piece
      (List.mem_append_right _ (List.mem_cons_of_mem _ there))) values) (joins opening.fragment)
    rcases fits.blocks _ own pair.block stack values with skipped | ⟨v, kind, entered⟩ | ⟨elements, kinds, entered⟩
    · simp only [skipped, blockText]
      exact .inr ⟨_, composes.same [], fun _ => rfl⟩
    · simp only [entered, blockText]
      exact within v kind
    · simp only [entered, blockText]
      exact uniformly_each composes fun v there => within v (kinds v there)

/-- The template, and those it includes. -/
inductive Includes (files : Str → Str) : Template → Template → Prop
  | self {t : Template} : Includes files t t
  | step {t next other : Template} {action : Action} (member : action ∈ t.actions) (kind : action.t = .partialTag)
    (compiled : parse (files (t.tagName action)) = .ok next) (later : Includes files next other) :
    Includes files t other

theorem Includes.eq_of_none {files : Str → Str} {other : Template} (included : Includes files t other)
    (none : ∀ action ∈ t.actions, action.t ≠ .partialTag) : other = t := by
  cases included with
  | self => rfl
  | step member kind => exact absurd kind (none _ member)

/-- Rendering a template in a family of contexts. -/
theorem uniformly_tree (composes : Composes Txt) (objects : ∀ v, Val v → ∃ isObject, ∀ i, (v i).isObject = isObject)
    {files : Str → Str} (depth : ℕ) {body : Str} {t : Template} (parsed : parse body = .ok t)
    (fits : ∀ other, Includes files t other → Fits Val Txt other) (indent : ℕ) {stack : List (I → Value)}
    (values : ∀ v ∈ stack, Val v) : Uniformly Txt fun i => renderTree files depth t (stack.map (· i)) indent := by
  induction depth generalizing body t indent stack with
  | zero => exact .inl ⟨.unfinished, fun _ => rfl⟩
  | succ depth ih =>
    obtain ⟨_, _, linked, last, whole⟩ := parse_tree parsed
    refine Uniformly.map (uniformly_forest composes (fits t .self) objects
      (fun action member kind indent stack values => ?_) linked (fun piece there => ?_) values) fun a text =>
      composes.append (composes.append (composes.same (blanks indent)) text) (composes.same _)
    · cases compiled : parse (files (t.tagName action)) with
      | error e => exact .inl ⟨e, fun _ => rfl⟩
      | ok next =>
        exact ih compiled (fun other later => fits other (.step member kind compiled later)) indent values
    · rw [← pieces_actions, whole]
      exact List.mem_map_of_mem (List.mem_append_left _ there)

theorem found_path (members : ∀ v, Q v → ∀ name, Found Q fun i => (v i).member? name) {v : I → Value} (kind : Q v)
    (names : List Str) : Found Q fun i => (v i).path? names := by
  unfold Value.path?
  have along (found : I → Option Value) (some_ : Found Q found) :
      Found Q fun i => names.foldl (fun view name => view.bind (Value.member? name)) (found i) := by
    induction names generalizing found with
    | nil => exact some_
    | cons name names ih =>
      refine ih (fun i => (found i).bind (Value.member? name)) ?_
      rcases some_ with absent | ⟨w, also, there⟩
      · exact .inl fun i => by simp only [absent, Option.bind_none]
      · simpa only [there, Option.bind_some] using members w also name
  exact along (fun i => some (v i)) (.inr ⟨v, kind, fun _ => rfl⟩)

end Families

/-! ## Texts of strings -/

/-- The characters that delimit tags, attributes and their values. -/
def isMarkup (c : UInt8) : Bool :=
  c = '<' ∨ c = '>' ∨ c = '"' ∨ c = '\'' ∨ c = '/' ∨ c = '`' ∨ c = '='

def markup (text : Str) : Str := text.filter isMarkup

theorem markup_append (first second : Str) : markup (first ++ second) = markup first ++ markup second :=
  List.filter_append ..

theorem markup_escapeChar (c : UInt8) : markup (escapeChar c) = [] := by
  unfold escapeChar
  repeat' split
  all_goals first
    | decide +kernel
    | skip
  next amp lt gt quot apos slash grave equals =>
    simp [markup, isMarkup, lt, gt, quot, apos, slash, grave, equals]

theorem markup_escape (text : Str) : markup (escape text) = [] := by
  induction text with
  | nil => rfl
  | cons c text ih =>
    rw [escape, List.flatMap_cons, markup_append, markup_escapeChar]
    exact ih

section Strings

variable {I : Type}

/-- Contexts that differ in the texts of their strings only. -/
inductive SameShape : (I → Value) → Prop
  | null : SameShape fun _ => .null
  | bool (value : Bool) : SameShape fun _ => .bool value
  | number (value : ℤ) : SameShape fun _ => .number value
  | string (text : I → Str) : SameShape fun i => .string (text i)
  | list {elements : List (I → Value)} (each : ∀ v ∈ elements, SameShape v) :
    SameShape fun i => .list (elements.map (· i))
  | object {members : List (Str × (I → Value))} (each : ∀ entry ∈ members, SameShape entry.2) :
    SameShape fun i => .object (members.map fun entry => (entry.1, entry.2 i))

theorem found_lookup {members : List (Str × (I → Value))} (each : ∀ entry ∈ members, SameShape entry.2) (name : Str) :
    Found SameShape fun i => (members.map fun entry => (entry.1, entry.2 i)).lookup name := by
  induction members with
  | nil => exact .inl fun _ => rfl
  | cons entry members ih =>
    obtain ⟨own, others⟩ := List.forall_mem_cons.mp each
    by_cases same : name = entry.1
    · exact .inr ⟨entry.2, own, fun i => by simp [same]⟩
    · have differs : (name == entry.1) = false := by simpa using same
      simpa only [List.map_cons, List.lookup_cons, differs] using ih others

theorem sameShape_member (v : I → Value) (shape : SameShape v) (name : Str) :
    Found SameShape fun i => (v i).member? name := by
  cases shape with
  | null => exact .inl fun _ => rfl
  | bool value => exact .inl fun _ => rfl
  | number value => exact .inl fun _ => rfl
  | string text => exact .inl fun _ => rfl
  | list each => exact .inl fun _ => rfl
  | object each => exact found_lookup each name

theorem sameShape_object (v : I → Value) (shape : SameShape v) : ∃ isObject, ∀ i, (v i).isObject = isObject := by
  cases shape with
  | null => exact ⟨false, fun _ => rfl⟩
  | bool value => exact ⟨false, fun _ => rfl⟩
  | number value => exact ⟨false, fun _ => rfl⟩
  | string text => exact ⟨false, fun _ => rfl⟩
  | list each => exact ⟨false, fun _ => rfl⟩
  | object each => exact ⟨true, fun _ => rfl⟩

theorem sameShape_context (name : Str) {stack : List (I → Value)} (shapes : ∀ v ∈ stack, SameShape v)
    (onlyFirst : Bool) : Found SameShape fun i => findContext name (stack.map (· i)) onlyFirst :=
  found_context (fun _ => shapes) (fun _ v there => found_path sameShape_member (shapes v there) _)
    (fun _ v there => sameShape_member v (shapes v there) name) onlyFirst

/-- Texts with the same markup. -/
def SameMarkup (text : I → Str) : Prop := ∀ i j, markup (text i) = markup (text j)

theorem composes_sameMarkup : Composes (SameMarkup (I := I)) where
  same _ _ _ := rfl
  append first second i j := by rw [markup_append, markup_append, first i j, second i j]

/-- A template that writes no string raw. -/
def Escapes (t : Template) : Prop := ∀ action ∈ t.actions, action.t ≠ .unescapeTag

theorem enters_openBlock {found : I → Option Value} (some_ : Found SameShape found) :
    Enters SameShape fun i => openBlock (found i) := by
  rcases some_ with absent | ⟨v, shape, there⟩
  · exact .inl fun i => by simp only [absent, openBlock]
  · simp only [there]
    cases shape with
    | null => exact .inl fun _ => rfl
    | bool value =>
      cases value with
      | false => exact .inl fun _ => rfl
      | true => exact .inr (.inl ⟨_, .bool true, fun _ => rfl⟩)
    | number value => exact .inr (.inl ⟨_, .number value, fun _ => rfl⟩)
    | string text => exact .inr (.inl ⟨_, .string text, fun _ => rfl⟩)
    | list each => exact .inr (.inr ⟨_, each, fun _ => rfl⟩)
    | object each => exact .inr (.inl ⟨_, .object each, fun _ => rfl⟩)

theorem enters_elseBlock {found : I → Option Value} (some_ : Found SameShape found) :
    Enters SameShape fun i => elseBlock (found i) := by
  rcases some_ with absent | ⟨v, shape, there⟩
  · exact .inr (.inl ⟨_, .null, fun i => by simp only [absent, elseBlock]⟩)
  · simp only [there]
    cases shape with
    | null => exact .inr (.inl ⟨_, .null, fun _ => rfl⟩)
    | bool value =>
      cases value with
      | false => exact .inr (.inl ⟨_, .null, fun _ => rfl⟩)
      | true => exact .inl fun _ => rfl
    | number value => exact .inl fun _ => rfl
    | string text => exact .inl fun _ => rfl
    | @list elements each =>
      cases elements with
      | nil => exact .inr (.inl ⟨_, .null, fun _ => rfl⟩)
      | cons v elements => exact .inl fun _ => rfl
    | object each => exact .inl fun _ => rfl

theorem fits_of_escapes {t : Template} (escapes : Escapes t) : Fits (SameShape (I := I)) SameMarkup t where
  tags action member kind stack shapes onlyFirst := by
    have tag : action.t = .tag := kind.resolve_right (escapes action member)
    have shape : ∃ v, SameShape v ∧
        ∀ i, (findContext (t.tagName action) (stack.map (· i)) onlyFirst).getD (.string []) = v i := by
      rcases sameShape_context (t.tagName action) shapes onlyFirst with absent | ⟨v, shape, found⟩
      · exact ⟨_, .string fun _ => [], fun i => by simp only [absent, Option.getD_none]⟩
      · exact ⟨v, shape, fun i => by simp only [found, Option.getD_some]⟩
    obtain ⟨v, shape, found⟩ := shape
    simp only [tagText, found, tag]
    cases shape with
    | null => exact .inl ⟨_, fun _ => rfl⟩
    | bool value => exact .inr ⟨_, fun _ _ => rfl, fun _ => rfl⟩
    | number value => exact .inr ⟨_, fun _ _ => rfl, fun _ => rfl⟩
    | string text => exact .inr ⟨fun i => escape (text i), fun i j => by rw [markup_escape, markup_escape], fun _ => rfl⟩
    | list each => exact .inl ⟨.runtimeError (bytes "not implemented tag type" ++ stdToString 5), fun _ => rfl⟩
    | object each => exact .inl ⟨.runtimeError (bytes "not implemented tag type" ++ stdToString 6), fun _ => rfl⟩
  blocks action member kind stack shapes := by
    have found := sameShape_context (t.tagName action) shapes false
    unfold entry
    split
    · exact enters_openBlock found
    · exact enters_elseBlock found

/-- What escaped strings say does not change the markup of a page, nor whether it can be rendered. -/
theorem markup_eq {files : Str → Str} {body : Str} {t : Template} (parsed : parse body = .ok t)
    (escapes : ∀ other, Includes files t other → Escapes other) (depth : ℕ) {contexts : I → Value}
    (shape : SameShape contexts) (i j : I) :
    (render files depth t (contexts i)).map markup = (render files depth t (contexts j)).map markup := by
  have values : ∀ v ∈ [contexts], SameShape v := List.forall_mem_singleton.mpr shape
  have rendered := uniformly_tree composes_sameMarkup sameShape_object depth parsed
    (fun other included => fits_of_escapes (escapes other included)) 0 values
  simp only [render, renderTemplate_eq files depth parsed]
  rcases rendered with ⟨e, failed⟩ | ⟨text, same, written⟩
  · simp only [List.map_cons, List.map_nil] at failed
    rw [failed, failed]
    rfl
  · simp only [List.map_cons, List.map_nil] at written
    rw [written, written]
    exact congrArg Except.ok (same i j)

end Strings

def profileTemplate : Str := "<b title=\"{{name}}\">{{name}}</b>"

def profile (hostile : Bool) : Value := .object [("name", .string (if hostile then "\"><script>" else "peppy"))]

theorem markup_eq_profile : ∃ t, parse profileTemplate = .ok t ∧
    (render (fun _ => []) 1 t (profile false)).map markup = (render (fun _ => []) 1 t (profile true)).map markup := by
  cases parsed : parse profileTemplate with
  | error e =>
    have accepted : (parse profileTemplate).isOk = true := by decide +kernel
    rw [parsed] at accepted
    cases accepted
  | ok t =>
    have kinds : ((parse profileTemplate).toOption.all fun t =>
        t.actions.all fun action => action.t = .tag ∨ action.t = .ignore) = true := by decide +kernel
    rw [parsed] at kinds
    simp only [Except.toOption, Option.all_some, List.all_eq_true, decide_eq_true_eq] at kinds
    have shape : SameShape profile :=
      @SameShape.object Bool [(bytes "name", fun hostile => .string (if hostile then "\"><script>" else "peppy"))]
        (List.forall_mem_singleton.mpr (.string _))
    refine ⟨t, rfl, markup_eq parsed (fun other included action member => ?_) 1 shape false true⟩
    obtain rfl := included.eq_of_none fun action member kind => by
      rcases kinds action member with same | same <;> rw [same] at kind <;> cases kind
    rcases kinds action member with same | same <;> rw [same] <;> decide

/-! ## A string written raw -/

section Content

variable {name : Str} {members : List (Str × Value)}

/-- A context with a string as one of its members. -/
def context (name : Str) (members : List (Str × Value)) (content : Str) : Value :=
  .object (assign name (.string content) members)

/-- The same value whatever the string is. -/
def Same (v : Str → Value) : Prop := ∃ w, ∀ content, v content = w

def OnStack (name : Str) (members : List (Str × Value)) (v : Str → Value) : Prop :=
  Same v ∨ ∀ content, v content = context name members content

/-- The string stands in the text as it is, between pieces that do not depend on it. -/
def InPlaces (text : Str → Str) : Prop :=
  ∃ (first : Str) (rest : List Str), ∀ content, text content = first ++ rest.flatMap (content ++ ·)

theorem composes_inPlaces : Composes InPlaces where
  same text := ⟨text, [], fun _ => (List.append_nil text).symm⟩
  append := by
    rintro one two ⟨first, rest, written⟩ ⟨next, others, also⟩
    rcases List.eq_nil_or_concat rest with rfl | ⟨front, last, rfl⟩
    · exact ⟨first ++ next, others, fun content => by simp [written, also]⟩
    · exact ⟨first, front ++ (last ++ next) :: others, fun content => by simp [written, also]⟩

theorem lookup_assign_of_ne {key other : Str} (differs : other ≠ key) (value : Value) (members : List (Str × Value)) :
    (assign key value members).lookup other = members.lookup other := by
  induction members with
  | nil => simp [assign, differs]
  | cons member rest ih =>
    obtain ⟨own, old⟩ := member
    by_cases same : own = key
    · subst same
      have apart : (other == own) = false := by simpa using differs
      simp [assign, List.lookup_cons, apart]
    · simp only [assign, if_neg same, List.lookup_cons, ih]

theorem same_member {v : Str → Value} (same : Same v) (other : Str) :
    Found Same fun content => (v content).member? other := by
  obtain ⟨w, same⟩ := same
  simp only [same]
  cases w.member? other with
  | none => exact .inl fun _ => rfl
  | some found => exact .inr ⟨_, ⟨found, fun _ => rfl⟩, fun _ => rfl⟩

theorem context_member {other : Str} (differs : other ≠ name) :
    Found Same fun content => (context name members content).member? other := by
  simp only [context, Value.member?, lookup_assign_of_ne differs]
  cases members.lookup other with
  | none => exact .inl fun _ => rfl
  | some found => exact .inr ⟨_, ⟨found, fun _ => rfl⟩, fun _ => rfl⟩

theorem found_mono {I : Type} {Q Q' : (I → Value) → Prop} (weaker : ∀ v, Q v → Q' v) {found : I → Option Value}
    (some_ : Found Q found) : Found Q' found :=
  some_.imp_right fun ⟨v, kind, there⟩ => ⟨v, weaker v kind, there⟩

private theorem foldl_none (names : List Str) :
    names.foldl (fun view name => view.bind (Value.member? name)) none = none := by
  induction names with
  | nil => rfl
  | cons _ _ ih => exact ih

/-- Along a path of two names or more the string is not found: it has no members. -/
theorem context_path (first second : Str) (names : List Str) :
    Found Same fun content => (context name members content).path? (first :: second :: names) := by
  simp only [Value.path?, List.foldl_cons, Option.bind_some]
  by_cases same : first = name
  · subst same
    have string (content : Str) : (context first members content).member? first = some (.string content) :=
      lookup_assign_self first _ members
    simp only [string]
    exact .inl fun _ => foldl_none names
  · have member : Found Same fun content => (context name members content).member? first := context_member same
    rcases member with absent | ⟨v, kind, there⟩
    · simp only [absent]
      exact .inl fun _ => foldl_none names
    · simp only [there]
      exact found_path (fun _ kind name => same_member kind name) kind (second :: names)

theorem onStack_path {v : Str → Value} (kind : OnStack name members v) {other : Str} (dotted : ('.' : UInt8) ∈ other) :
    Found (OnStack name members) fun content => (v content).path? (other.splitOn ('.' : UInt8)) := by
  refine found_mono (fun _ => .inl) ?_
  rcases kind with same | root
  · exact found_path (fun _ kind name => same_member kind name) same _
  · obtain ⟨front, back, rfl⟩ := List.append_of_mem dotted
    rw [List.splitOn_append_cons_self]
    obtain ⟨first, others, split⟩ := List.exists_cons_of_ne_nil (List.splitOn_ne_nil ('.' : UInt8) front)
    obtain ⟨second, rest, also⟩ := List.exists_cons_of_ne_nil (List.splitOn_ne_nil ('.' : UInt8) back)
    have longer : others ++ second :: rest ≠ [] := by simp
    obtain ⟨next, names, shape⟩ := List.exists_cons_of_ne_nil longer
    simp only [root, split, also, List.cons_append, shape]
    exact context_path first _ _

/-- Another name stands for what does not depend on the string, or for the whole context. -/
theorem onStack_context {other : Str} (differs : other ≠ name) {stack : List (Str → Value)}
    (values : ∀ v ∈ stack, OnStack name members v) (onlyFirst : Bool) :
    Found (OnStack name members) fun content => findContext other (stack.map (· content)) onlyFirst := by
  refine found_context (fun _ => values) (fun dotted v there => onStack_path (values v there) dotted)
    (fun _ v there => found_mono (fun _ => .inl) ?_) onlyFirst
  rcases values v there with same | root
  · exact same_member same other
  · simp only [root]
    exact context_member differs

/-- The name of the string stands for it, or for what does not depend on it. -/
theorem content_context (plain : ('.' : UInt8) ∉ name) {stack : List (Str → Value)}
    (values : ∀ v ∈ stack, OnStack name members v) (onlyFirst : Bool) :
    Found (fun v => Same v ∨ ∀ content, v content = .string content)
      fun content => findContext name (stack.map (· content)) onlyFirst := by
  refine found_context (fun dot => absurd (dot ▸ by decide +kernel) plain) (fun dotted => absurd dotted plain)
    (fun _ v there => ?_) onlyFirst
  rcases values v there with same | root
  · exact found_mono (fun _ => .inl) (same_member same name)
  · simp only [root]
    exact .inr ⟨_, .inr fun _ => rfl, fun content => lookup_assign_self name _ members⟩

/-- The name is only used in tags that write it raw. -/
def Raw (name : Str) (t : Template) : Prop :=
  ∀ action ∈ t.actions, t.tagName action = name →
    action.t ≠ .tag ∧ action.t ≠ .openBlock ∧ action.t ≠ .elseBlock

instance (name : Str) (t : Template) : Decidable (Raw name t) := inferInstanceAs (Decidable (∀ _ ∈ _, _))

/-- What a value is written as. -/
def valueText (action : Action) : Value → Except Failure Str
  | .bool value => .ok (if value then "true" else "false")
  | .number value => .ok (stdToString value)
  | .string value => .ok (if action.t = .tag then escape value else value)
  | other => .error (.runtimeError (bytes "not implemented tag type" ++ stdToString other.typeNumber))

theorem tagText_eq (t : Template) (action : Action) (stack : List Value) (onlyFirst : Bool) :
    t.tagText action stack onlyFirst =
      valueText action ((findContext (t.tagName action) stack onlyFirst).getD (.string [])) := rfl

theorem uniformly_same {rendered : Str → Except Failure Str} (r : Except Failure Str)
    (same : ∀ content, rendered content = r) : Uniformly InPlaces rendered := by
  cases r with
  | error e => exact .inl ⟨e, same⟩
  | ok text => exact .inr ⟨_, composes_inPlaces.same text, same⟩

theorem enters_same {entries : Str → Entry} (r : Entry) (same : ∀ content, entries content = r) :
    Enters (OnStack name members) entries := by
  cases r with
  | skip => exact .inl same
  | enter w => exact .inr (.inl ⟨fun _ => w, .inl ⟨w, fun _ => rfl⟩, same⟩)
  | each elements =>
    refine .inr (.inr ⟨elements.map fun w _ => w, fun v there => ?_, fun content => ?_⟩)
    · obtain ⟨w, _, rfl⟩ := List.mem_map.mp there
      exact .inl ⟨w, fun _ => rfl⟩
    · rw [same, List.map_map]
      exact congrArg Entry.each (List.map_id _).symm

theorem fits_of_raw (plain : ('.' : UInt8) ∉ name) {t : Template} (raw : Raw name t) :
    Fits (OnStack name members) InPlaces t where
  tags action member kind stack values onlyFirst := by
    simp only [tagText_eq]
    by_cases own : t.tagName action = name
    · have unescaped : action.t = .unescapeTag := kind.resolve_left (raw action member own).1
      rw [own]
      rcases content_context plain values onlyFirst with absent | ⟨v, ⟨w, same⟩ | string, there⟩
      · simp only [absent]
        exact uniformly_same _ fun _ => rfl
      · simp only [there, same]
        exact uniformly_same _ fun _ => rfl
      · simp only [there, string, Option.getD_some, valueText, unescaped]
        exact .inr ⟨id, ⟨[], [[]], fun content => by simp⟩, fun _ => rfl⟩
    · rcases onStack_context own values onlyFirst with absent | ⟨v, ⟨w, same⟩ | root, there⟩
      · simp only [absent]
        exact uniformly_same _ fun _ => rfl
      · simp only [there, same]
        exact uniformly_same _ fun _ => rfl
      · simp only [there, root]
        exact uniformly_same (.error (.runtimeError (bytes "not implemented tag type" ++ stdToString 6))) fun _ => rfl
  blocks action member kind stack values := by
    have own : t.tagName action ≠ name := fun same =>
      kind.elim (raw action member same).2.1 (raw action member same).2.2
    simp only [entry]
    rcases onStack_context own values false with absent | ⟨v, ⟨w, same⟩ | root, there⟩
    · simp only [absent]
      exact enters_same _ fun _ => rfl
    · simp only [there, same]
      exact enters_same _ fun _ => rfl
    · simp only [there]
      split
      · exact .inr (.inl ⟨v, .inr root, fun content => by simp only [root]; rfl⟩)
      · exact .inl fun content => by simp only [root]; rfl

theorem onStack_object (v : Str → Value) (kind : OnStack name members v) :
    ∃ isObject, ∀ content, (v content).isObject = isObject := by
  rcases kind with ⟨w, same⟩ | root
  · exact ⟨w.isObject, fun content => by rw [same]⟩
  · exact ⟨true, fun content => by rw [root]; rfl⟩

/-- A template writes such a string as it is, wherever it writes it. -/
theorem uniformly_content (plain : ('.' : UInt8) ∉ name) {files : Str → Str} {body : Str} {t : Template}
    (parsed : parse body = .ok t) (raw : ∀ other, Includes files t other → Raw name other) (depth : ℕ) :
    Uniformly InPlaces fun content => render files depth t (context name members content) := by
  have values : ∀ v ∈ [context name members], OnStack name members v :=
    List.forall_mem_singleton.mpr (.inr fun _ => rfl)
  have rendered := uniformly_tree composes_inPlaces onStack_object depth parsed
    (fun other included => fits_of_raw plain (raw other included)) 0 values
  simp only [render, renderTemplate_eq files depth parsed]
  rcases rendered with ⟨e, failed⟩ | ⟨text, places, written⟩
  · simp only [List.map_cons, List.map_nil] at failed
    exact .inl ⟨e, fun content => by simp only [failed]; rfl⟩
  · simp only [List.map_cons, List.map_nil] at written
    exact .inr ⟨text, places, fun content => by simp only [written]; rfl⟩

end Content

/-- What a page is rendered to before it is put into the layout. -/
def pageContent (files : Str → Str) (depth : ℕ) (page : Str) (members : List (Str × Value)) : Except Failure Str :=
  (parse (files page)).bind fun t => render files depth t (.object members)

/-- The response to a page is the layout with what the page was rendered to at places that do not
depend on it: nothing in the page is taken for a tag of the layout. -/
theorem layout_eq {files : Str → Str} {base : Template} (parsed : parse (files "base.html") = .ok base)
    (raw : ∀ other, Includes files base other → Raw Layout.contentKey other) (depth : ℕ)
    (members : List (Str × Value)) :
    (∃ e, ∀ page, Layout.render files depth page members =
        (pageContent files depth page members).bind fun _ => .error e) ∨
      ∃ (first : Str) (rest : List Str), ∀ page, Layout.render files depth page members =
        (pageContent files depth page members).map fun content => first ++ rest.flatMap (content ++ ·) := by
  have shape (page : Str) : Layout.render files depth page members =
      (pageContent files depth page members).bind fun content =>
        render files depth base (context Layout.contentKey members content) := by
    unfold Layout.render pageContent
    cases parse (files page) with
    | error e => rfl
    | ok t =>
      dsimp only [Except.bind]
      cases render files depth t (.object members) with
      | error e => rfl
      | ok content =>
        dsimp only
        rw [parsed]
        rfl
  have plain : ('.' : UInt8) ∉ Layout.contentKey := by decide +kernel
  have places : Uniformly InPlaces fun content => render files depth base (context Layout.contentKey members content) :=
    uniformly_content plain parsed raw depth
  rcases places with ⟨e, failed⟩ | ⟨text, ⟨first, rest, same⟩, written⟩
  · exact .inl ⟨e, fun page => (shape page).trans (congrArg _ (funext failed))⟩
  · refine .inr ⟨first, rest, fun page => (shape page).trans ?_⟩
    rw [show (fun content => render files depth base (context Layout.contentKey members content)) =
      fun content => .ok (first ++ rest.flatMap (content ++ ·)) from
      funext fun content => (written content).trans (congrArg _ (same content))]
    rfl

/-- A layout, and a page that shows a string. -/
def smallFiles (name : Str) : Str :=
  if name = "base.html" then "<main>{{{route_content}}}</main>" else "<p>{{x}}</p>"

theorem layout_eq_small :
    (∃ e, ∀ page, Layout.render smallFiles 1 page [("x", .string "{{x}}")] =
        (pageContent smallFiles 1 page [("x", .string "{{x}}")]).bind fun _ => .error e) ∨
      ∃ (first : Str) (rest : List Str), ∀ page,
        Layout.render smallFiles 1 page [("x", .string "{{x}}")] =
          (pageContent smallFiles 1 page [("x", .string "{{x}}")]).map fun content =>
            first ++ rest.flatMap (content ++ ·) := by
  cases parsed : parse (smallFiles "base.html") with
  | error e =>
    have accepted : (parse (smallFiles "base.html")).isOk = true := by decide +kernel
    rw [parsed] at accepted
    cases accepted
  | ok base =>
    have checked : ((parse (smallFiles "base.html")).toOption.all fun t =>
        decide (Raw Layout.contentKey t) && t.actions.all fun action => action.t ≠ .partialTag) = true := by decide +kernel
    rw [parsed] at checked
    simp only [Except.toOption, Option.all_some, Bool.and_eq_true, decide_eq_true_eq, List.all_eq_true] at checked
    refine layout_eq parsed (fun other included => ?_) 1 _
    obtain rfl := included.eq_of_none checked.2
    exact checked.1

end OsuTracker.Soundness.Mustache.Values
