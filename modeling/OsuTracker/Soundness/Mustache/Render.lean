import OsuTracker.Soundness.Mustache.Compile

/-! # Rendering block by block

A template can be rendered without jumps and without taking values off a stack: the text of a
forest is the text of its first tag or block and the text of the rest, and a block is left out, or
rendered in the values that it is entered with. What the loop over the compiled vectors writes is
this text, whatever is on the stack, and it leaves the stack as it was.
-/

namespace OsuTracker.Soundness.Mustache.Render

open Cxx Model.Web.Mustache Model.Web.Mustache.Template Machine.Brackets Compile

/-! ## The text of a forest -/

section Tree

variable (partials : Str → List Value → ℕ → Except Failure Str) (t : Template) (indent : ℕ)

/-- What stands for a tag. -/
def leafText (piece : Piece) (stack : List Value) : Except Failure Str :=
  match piece.action.t with
  | .partialTag =>
    partials (t.tagName piece.action) stack (if piece.action.pos = 0 then 0 else indent + piece.action.pos)
  | .tag | .unescapeTag => t.tagText piece.action stack ((stack.head?.elim false (·.isObject)) && piece.inside)
  | _ => .ok []

/-- A block for each of some values. -/
def eachText (inner : Value → Except Failure Str) : List Value → Except Failure Str
  | [] => .ok []
  | v :: elements => (inner v).bind fun first => (eachText inner elements).map fun later => blanks indent ++ first ++ later

def blockText (inner : Value → Except Failure Str) : Entry → Except Failure Str
  | .skip => .ok []
  | .enter v => inner v
  | .each elements => eachText indent inner elements

def renderForest : Forest Piece → List Value → Except Failure Str
  | .nil, _ => .ok []
  | .leaf piece rest, stack =>
    (leafText partials t indent piece stack).bind fun own =>
      (renderForest rest stack).map fun later => t.renderFragment piece.fragment indent ++ own ++ later
  | .block opening inner closing rest, stack =>
    (blockText indent (fun v => (renderForest inner (v :: stack)).map (· ++ t.renderFragment closing.fragment indent))
      (t.entry opening.action stack)).bind fun own =>
      (renderForest rest stack).map fun later => t.renderFragment opening.fragment indent ++ own ++ later

end Tree

/-- The text behind the last tag. -/
def lastFragment (t : Template) : ℕ × ℕ := t.fragments.getD (t.fragments.length - 1) (0, 0)

/-- The text of a template. -/
def renderTree (files : Str → Str) : ℕ → Template → List Value → ℕ → Except Failure Str
  | 0, _, _, _ => .error .unfinished
  | depth + 1, t, stack, indent =>
    (renderForest (fun name stack indent =>
      (parse (files name)).bind fun other => renderTree files depth other stack indent) t indent (tree t) stack).map
      fun text => blanks indent ++ text ++ t.renderFragment (lastFragment t) indent

/-! ## The loop -/

theorem piece_at {t : Template} {i : ℕ} {piece : Piece} (found : (pieces t)[i]? = some piece) (absent : Action) :
    t.actions.getD i absent = piece.action ∧ t.fragments.getD i (0, 0) = piece.fragment ∧
      insideBlock (t.actions.take i).reverse 0 = piece.inside := by
  rw [pieces, List.getElem?_map, List.getElem?_zipIdx] at found
  obtain ⟨entry, also, rfl⟩ := Option.map_eq_some_iff.mp found
  obtain ⟨action, here, rfl⟩ := Option.map_eq_some_iff.mp also
  refine ⟨by rw [List.getD_eq_getElem?_getD, here]; rfl, ?_, ?_⟩
  · rw [Nat.zero_add]
  · rw [Nat.zero_add]

section Loop

variable {written : Str → List Value → ℕ → Str → Except Failure (List Value × Str)}
  {partials : Str → List Value → ℕ → Except Failure Str}
  (agree : ∀ name stack indent out,
    written name stack indent out = (partials name stack indent).map fun text => (stack, out ++ text))
  {t : Template} {indent : ℕ}

include agree in
theorem renderFrom_leaf {o actionEnd fuel : ℕ} {piece : Piece} (found : (pieces t)[o]? = some piece)
    (plain : Plain piece.action) (before : o < actionEnd) (stack : List Value) (out : Str) :
    renderFrom written t (fuel + 1) o actionEnd stack indent out =
      (leafText partials t indent piece stack).bind fun own =>
        renderFrom written t fuel (o + 1) actionEnd stack indent (out ++ t.renderFragment piece.fragment indent ++ own) := by
  obtain ⟨action, fragment, inside⟩ := piece_at found ⟨'!', .ignore, 0, 0, 0, false⟩
  rw [renderFrom, if_pos before]
  dsimp only
  rw [action, fragment, leafText]
  cases kind : piece.action.t with
  | ignore => simp [Except.bind]
  | partialTag =>
    dsimp only
    rw [agree]
    cases partials (t.tagName piece.action) stack (if piece.action.pos = 0 then 0 else indent + piece.action.pos) with
    | error e => rfl
    | ok text => rfl
  | tag =>
    dsimp only
    rw [isTagInsideObjectBlock, inside]
  | unescapeTag =>
    dsimp only
    rw [isTagInsideObjectBlock, inside]
  | openBlock => rw [Plain, kind] at plain; cases plain
  | elseBlock => rw [Plain, kind] at plain; cases plain
  | closeBlock => rw [Plain, kind] at plain; cases plain

/-- The text in front of a closing tag, at the end of the loop over its block or on the way. -/
theorem renderFrom_close {o actionEnd fuel : ℕ} {piece : Piece} (found : (pieces t)[o]? = some piece)
    (closes : piece.action.t = .closeBlock) (stack : List Value) (out : Str) :
    renderFrom written t (fuel + 1) o actionEnd stack indent out =
      if o < actionEnd then
        renderFrom written t fuel (o + 1) actionEnd stack.tail indent (out ++ t.renderFragment piece.fragment indent)
      else .ok (stack, out ++ t.renderFragment (t.fragments.getD actionEnd (0, 0)) indent) := by
  obtain ⟨action, fragment, _⟩ := piece_at found ⟨'!', .ignore, 0, 0, 0, false⟩
  rw [renderFrom]
  dsimp only
  rw [action, fragment, closes]

section Open

variable {o actionEnd fuel : ℕ} {piece : Piece} (found : (pieces t)[o]? = some piece)
  (opens : piece.action.t = .openBlock ∨ piece.action.t = .elseBlock) (before : o < actionEnd) {stack : List Value}

include found opens before

theorem renderFrom_skip (out : Str) (skips : t.entry piece.action stack = .skip) :
    renderFrom written t (fuel + 1) o actionEnd stack indent out =
      renderFrom written t fuel (piece.action.pos + 1) actionEnd stack indent
        (out ++ t.renderFragment piece.fragment indent) := by
  obtain ⟨action, fragment, _⟩ := piece_at found ⟨'!', .ignore, 0, 0, 0, false⟩
  rw [renderFrom, if_pos before]
  dsimp only
  rw [action, fragment]
  rcases opens with kind | kind <;> simp only [kind, skips]

theorem renderFrom_enter (out : Str) {v : Value} (enters : t.entry piece.action stack = .enter v) :
    renderFrom written t (fuel + 1) o actionEnd stack indent out =
      renderFrom written t fuel (o + 1) actionEnd (v :: stack) indent
        (out ++ t.renderFragment piece.fragment indent) := by
  obtain ⟨action, fragment, _⟩ := piece_at found ⟨'!', .ignore, 0, 0, 0, false⟩
  rw [renderFrom, if_pos before]
  dsimp only
  rw [action, fragment]
  rcases opens with kind | kind <;> simp only [kind, enters]

theorem renderFrom_each (out : Str) {elements : List Value} (enters : t.entry piece.action stack = .each elements) :
    renderFrom written t (fuel + 1) o actionEnd stack indent out =
      (elements.foldlM (fun (s : List Value × Str) v =>
        (renderFrom written t fuel (o + 1) piece.action.pos (v :: s.1) indent (s.2 ++ blanks indent)).map fun s =>
          (s.1.tail, s.2)) (stack, out ++ t.renderFragment piece.fragment indent)).bind fun s =>
        renderFrom written t fuel (piece.action.pos + 1) actionEnd s.1 indent s.2 := by
  obtain ⟨action, fragment, _⟩ := piece_at found ⟨'!', .ignore, 0, 0, 0, false⟩
  rw [renderFrom, if_pos before]
  dsimp only
  rw [action, fragment]
  rcases opens with kind | kind <;> simp only [kind, enters]

end Open

/-- The loop over the elements of a list; every round writes its text and takes its element off. -/
theorem fold_eachText {round : List Value × Str → Value → Except Failure (List Value × Str)}
    {inner : Value → Except Failure Str} {stack : List Value}
    (rounds : ∀ v out, round (stack, out) v = (inner v).map fun text => (stack, out ++ (blanks indent ++ text)))
    (elements : List Value) (out : Str) :
    elements.foldlM round (stack, out) = (eachText indent inner elements).map fun text => (stack, out ++ text) := by
  induction elements generalizing out with
  | nil => simp [eachText, Except.map, pure, Except.pure]
  | cons v elements ih =>
    rw [List.foldlM_cons, rounds, eachText]
    cases inner v with
    | error e => rfl
    | ok first =>
      refine (ih _).trans ?_
      cases eachText indent inner elements with
      | error e => rfl
      | ok later => simp [Except.map, Except.bind]

include agree in
/-- The loop over a forest writes its text and goes on behind it with the same stack. -/
theorem renderFrom_forest {f : Forest Piece} {o actionEnd bound fuel : ℕ} (linked : Linked t o f)
    (located : f.At (pieces t) o) (fits : o + f.size ≤ actionEnd) (bounded : actionEnd ≤ bound)
    (enough : bound < fuel + o) {stack : List Value} {out : Str} {k : Str → Except Failure (List Value × Str)}
    (after : ∀ text fuel, bound < fuel + (o + f.size) →
      renderFrom written t fuel (o + f.size) actionEnd stack indent (out ++ text) = k text) :
    renderFrom written t fuel o actionEnd stack indent out =
      (renderForest partials t indent f stack).bind k := by
  induction f generalizing o actionEnd fuel stack out k with
  | nil =>
    have here := after [] fuel enough
    rwa [List.append_nil] at here
  | leaf piece rest ih =>
    rw [Forest.size] at fits after
    obtain ⟨fuel, rfl⟩ : ∃ less, fuel = less + 1 := ⟨fuel - 1, by omega⟩
    rw [renderFrom_leaf agree located.1 linked.1 (by omega), renderForest]
    cases leafText partials t indent piece stack with
    | error e => rfl
    | ok own =>
      have next : o + 1 + rest.size = o + (rest.size + 1) := by omega
      refine (ih linked.2 located.2 (by omega) bounded (by omega) (k := fun later =>
        k (t.renderFragment piece.fragment indent ++ own ++ later)) fun text fuel left => ?_).trans ?_
      · rw [next] at left ⊢
        rw [← after _ fuel left]
        simp only [List.append_assoc]
      · cases renderForest partials t indent rest stack <;> rfl
  | block opening inner closing rest ihInner ih =>
    rw [Forest.size] at fits after
    obtain ⟨fuel, rfl⟩ : ∃ less, fuel = less + 1 := ⟨fuel - 1, by omega⟩
    obtain ⟨pair, inside, behind⟩ := linked
    obtain ⟨here, within, there, later⟩ := located
    have next : o + inner.size + 2 + rest.size = o + (inner.size + rest.size + 2) := by omega
    -- behind the closing tag, with what the block has written
    have resume (own : Str) (fuel : ℕ) (left : bound < fuel + (o + inner.size + 2)) :
        renderFrom written t fuel (o + inner.size + 2) actionEnd stack indent
            (out ++ t.renderFragment opening.fragment indent ++ own) =
          (renderForest partials t indent rest stack).bind fun later =>
            k (t.renderFragment opening.fragment indent ++ own ++ later) := by
      refine ih behind later (by omega) bounded left fun text fuel left => ?_
      rw [next] at left ⊢
      rw [← after _ fuel left]
      simp only [List.append_assoc]
    have shape (block : Except Failure Str) :
        (block.bind fun own => (renderForest partials t indent rest stack).map fun later =>
          t.renderFragment opening.fragment indent ++ own ++ later).bind k =
        block.bind fun own => (renderForest partials t indent rest stack).bind fun later =>
          k (t.renderFragment opening.fragment indent ++ own ++ later) := by
      cases block with
      | error e => rfl
      | ok own => cases renderForest partials t indent rest stack <;> rfl
    have inFront : o < actionEnd := by omega
    rw [renderForest, shape]
    cases entered : t.entry opening.action stack with
    | skip =>
      have jumped := resume [] fuel (by omega)
      rw [List.append_nil] at jumped
      rw [renderFrom_skip here pair.block inFront out entered, pair.pos,
        show o + 1 + inner.size + 1 = o + inner.size + 2 by omega, jumped]
      rfl
    | enter v =>
      rw [renderFrom_enter here pair.block inFront out entered]
      dsimp only [blockText]
      refine (ihInner inside within (by omega) bounded (by omega) (k := fun text =>
        (renderForest partials t indent rest stack).bind fun later => k (t.renderFragment opening.fragment indent ++
          (text ++ t.renderFragment closing.fragment indent) ++ later)) fun text fuel left => ?_).trans ?_
      · obtain ⟨fuel, rfl⟩ : ∃ less, fuel = less + 1 := ⟨fuel - 1, by omega⟩
        rw [renderFrom_close there pair.closes, if_pos (by omega),
          show o + 1 + inner.size + 1 = o + inner.size + 2 by omega, ← resume _ fuel (by omega)]
        simp only [List.append_assoc, List.tail_cons]
      · cases renderForest partials t indent inner (v :: stack) <;> rfl
    | each elements =>
      rw [renderFrom_each here pair.block inFront out entered, pair.pos]
      dsimp only [blockText]
      have rounds (v : Value) (out : Str) :
          (renderFrom written t fuel (o + 1) (o + 1 + inner.size) (v :: stack) indent (out ++ blanks indent)).map
              (fun s => (s.1.tail, s.2)) =
            ((renderForest partials t indent inner (v :: stack)).map
              (· ++ t.renderFragment closing.fragment indent)).map fun text => (stack, out ++ (blanks indent ++ text)) := by
        rw [ihInner inside within le_rfl (by omega) (by omega) (k := fun text =>
          .ok (v :: stack, out ++ blanks indent ++ text ++ t.renderFragment closing.fragment indent))
          fun text fuel left => ?_]
        · cases renderForest partials t indent inner (v :: stack) with
          | error e => rfl
          | ok text => simp [Except.map, Except.bind]
        · obtain ⟨fuel, rfl⟩ : ∃ less, fuel = less + 1 := ⟨fuel - 1, by omega⟩
          obtain ⟨_, last, _⟩ := piece_at there ⟨'!', .ignore, 0, 0, 0, false⟩
          rw [renderFrom_close there pair.closes, if_neg (lt_irrefl _), last]
      rw [fold_eachText rounds, show o + 1 + inner.size + 1 = o + inner.size + 2 by omega]
      cases eachText indent (fun v => (renderForest partials t indent inner (v :: stack)).map
        (· ++ t.renderFragment closing.fragment indent)) elements with
      | error e => rfl
      | ok own => exact resume own fuel (by omega)

end Loop

/-! ## Templates -/

/-- What rendering writes into a template's output, with every value still on the stack. -/
theorem renderTemplate_eq (files : Str → Str) (depth : ℕ) {body : Str} {t : Template} (parsed : parse body = .ok t)
    (stack : List Value) (indent : ℕ) (out : Str) :
    renderTemplate files depth t stack indent out =
      (renderTree files depth t stack indent).map fun text => (stack, out ++ text) := by
  induction depth generalizing body t stack indent out with
  | zero => rfl
  | succ depth ih =>
    obtain ⟨_, paired, linked, last, whole⟩ := parse_tree parsed
    have length : t.actions.length = (tree t).size + 1 := by
      rw [← pieces_actions, List.length_map, whole, List.length_append, Forest.length_flatten, List.length_singleton]
    have agree (name : Str) (stack : List Value) (indent : ℕ) (out : Str) :
        ((parse (files name)).bind fun other => renderTemplate files depth other stack indent out) =
          ((parse (files name)).bind fun other => renderTree files depth other stack indent).map
            fun text => (stack, out ++ text) := by
      cases compiled : parse (files name) with
      | error e => rfl
      | ok other => exact ih compiled stack indent out
    have located : (tree t).At (pieces t) 0 := by
      have all := (tree t).at_flatten [] [last]
      rwa [List.nil_append, ← whole] at all
    have fits : 0 + (tree t).size ≤ t.fragments.length - 1 := by omega
    rw [renderTemplate, renderInternal, renderTree]
    refine (renderFrom_forest agree linked located fits le_rfl (by omega) (k := fun text =>
      .ok (stack, out ++ blanks indent ++ text ++ t.renderFragment (lastFragment t) indent))
      fun text fuel left => ?_).trans ?_
    · obtain ⟨fuel, rfl⟩ : ∃ less, fuel = less + 1 := ⟨fuel - 1, by omega⟩
      rw [renderFrom, if_neg (by omega)]
      rfl
    · generalize renderForest _ t indent (tree t) stack = rendered
      cases rendered with
      | error e => rfl
      | ok text => simp [Except.map, Except.bind]

/-- Jumping through the vectors renders the blocks of the template, each in its own values. -/
theorem render_eq {body : Str} {t : Template} (parsed : parse body = .ok t) (files : Str → Str) (depth : ℕ)
    (context : Value) :
    Linked t 0 (tree t) ∧ (∃ last : Piece, pieces t = (tree t).flatten ++ [last]) ∧
      render files depth t context = renderTree files depth t [context] 0 := by
  obtain ⟨_, _, linked, whole⟩ := parse_tree parsed
  refine ⟨linked, whole, ?_⟩
  rw [render, renderTemplate_eq files depth parsed]
  cases renderTree files depth t [context] 0 with
  | error e => rfl
  | ok text => rfl

/-- A list, with what is shown when it is empty. -/
def listTemplate : Str := "{{#l}}[{{x}}]{{/l}}{{^l}}none{{/l}}"

theorem render_eq_list : ∃ t, parse listTemplate = .ok t ∧ Linked t 0 (tree t) ∧
    (∃ last : Piece, pieces t = (tree t).flatten ++ [last]) ∧
    render (fun _ => []) 1 t (.object [("l", .list [.object [("x", .number 1)], .null])]) =
      renderTree (fun _ => []) 1 t [.object [("l", .list [.object [("x", .number 1)], .null])]] 0 := by
  cases parsed : parse listTemplate with
  | error e =>
    have accepted : (parse listTemplate).isOk = true := by decide +kernel
    rw [parsed] at accepted
    cases accepted
  | ok t => exact ⟨t, rfl, render_eq parsed _ _ _⟩

/-! ## Ends -/

def Ends (rendered : Except Failure Str) : Prop := rendered ≠ .error .unfinished

theorem Ends.bind_map {first second : Except Failure Str} {join : Str → Str → Str} (one : Ends first)
    (two : Ends second) : Ends (first.bind fun a => second.map fun b => join a b) := by
  cases first with
  | error e => exact fun failed => one (congrArg Except.error (Except.error.inj failed))
  | ok a =>
    cases second with
    | error e => exact fun failed => two (congrArg Except.error (Except.error.inj failed))
    | ok b => exact nofun

theorem Ends.map {rendered : Except Failure Str} {f : Str → Str} (one : Ends rendered) : Ends (rendered.map f) := by
  cases rendered with
  | error e => exact fun failed => one (congrArg Except.error (Except.error.inj failed))
  | ok a => exact nofun

theorem ends_tagText (t : Template) (action : Action) (stack : List Value) (onlyFirst : Bool) :
    Ends (t.tagText action stack onlyFirst) := by
  unfold tagText
  split <;> exact nofun

theorem ends_each {inner : Value → Except Failure Str} (each : ∀ v, Ends (inner v)) (indent : ℕ)
    (elements : List Value) : Ends (eachText indent inner elements) := by
  induction elements with
  | nil => exact nofun
  | cons v elements ih => exact (each v).bind_map ih

theorem ends_forest {partials : Str → List Value → ℕ → Except Failure Str} {t : Template} {indent : ℕ}
    {f : Forest Piece} (none : ∀ piece ∈ f.flatten, piece.action.t ≠ .partialTag) (stack : List Value) :
    Ends (renderForest partials t indent f stack) := by
  induction f generalizing stack with
  | nil => exact nofun
  | leaf piece rest ih =>
    obtain ⟨own, others⟩ := List.forall_mem_cons.mp none
    refine Ends.bind_map ?_ (ih others stack)
    unfold leafText
    split
    · next kind => exact absurd kind own
    · exact ends_tagText _ _ _ _
    · exact ends_tagText _ _ _ _
    · exact nofun
  | block opening inner closing rest ihInner ih =>
    obtain ⟨_, others⟩ := List.forall_mem_cons.mp none
    have within (v : Value) : Ends ((renderForest partials t indent inner (v :: stack)).map
        (· ++ t.renderFragment closing.fragment indent)) :=
      (ihInner (fun piece there => others piece (List.mem_append_left _ there)) (v :: stack)).map
    refine Ends.bind_map ?_ (ih (fun piece there => others piece
      (List.mem_append_right _ (List.mem_cons_of_mem _ there))) stack)
    cases t.entry opening.action stack with
    | skip => exact nofun
    | enter v => exact within v
    | each elements => exact ends_each within indent elements

/-- Compiling ends for every text, and rendering for every template that includes no other. -/
theorem mustache_ends (body : Str) : parse body ≠ .error .unfinished ∧
    ∀ t, parse body = .ok t → (∀ action ∈ t.actions, action.t ≠ .partialTag) →
      ∀ files depth context, render files (depth + 1) t context ≠ .error .unfinished := by
  refine ⟨parse_ne_unfinished body, fun t parsed none files depth context => ?_⟩
  obtain ⟨_, _, _, last, whole⟩ := parse_tree parsed
  have free : ∀ piece ∈ (tree t).flatten, piece.action.t ≠ .partialTag := fun piece there => by
    refine none _ ?_
    rw [← pieces_actions, whole]
    exact List.mem_map_of_mem (List.mem_append_left _ there)
  have ends : Ends (renderTree files (depth + 1) t [context] 0) := (ends_forest free [context]).map
  rw [render, renderTemplate_eq files (depth + 1) parsed]
  cases shown : renderTree files (depth + 1) t [context] 0 with
  | error e =>
    intro failed
    exact ends (shown.trans (congrArg Except.error (Except.error.inj failed)))
  | ok text => exact nofun

end OsuTracker.Soundness.Mustache.Render
