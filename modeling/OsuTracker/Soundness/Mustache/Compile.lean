import OsuTracker.Machine.Brackets
import OsuTracker.Model.Web.Mustache

/-! # Compiled templates

The parser keeps the positions of the open blocks on a stack and completes a block's action when it
meets the closing tag of the same name. Every template that it accepts is therefore a forest of
blocks whose two ends know where the other one is; taking away the lines of standalone tags moves
fragments and indents partials, but keeps the forest. The loop over the tags always ends.
-/

namespace OsuTracker.Soundness.Mustache.Compile

open Cxx Model.Core.Helpers Model.Web.Mustache Machine.Brackets

/-! ## Brackets -/

def isPlain : ActionType → Bool
  | .openBlock | .elseBlock | .closeBlock => false
  | _ => true

def Plain (action : Action) : Prop := isPlain action.t = true

/-- A block without an end. -/
def Opens (action : Action) : Prop := action.missingEndPair = true

/-- The two ends of a block, by the positions where they are and the name in both tags. -/
structure Pair (body : Str) (o : ℕ) (opening : Action) (p : ℕ) (closing : Action) : Prop where
  block : opening.t = .openBlock ∨ opening.t = .elseBlock
  matched : opening.hasEndMatch = true
  pos : opening.pos = p
  closes : closing.t = .closeBlock
  back : closing.pos = o
  name : slice body opening.start opening.last = slice body closing.start closing.last

theorem block_of_opens {action : Action} (opens : Opens action) : action.t = .openBlock ∨ action.t = .elseBlock := by
  unfold Opens Action.missingEndPair at opens
  cases shown : action.t <;> simp_all

/-! ## A tag -/

/-- What a tag does to the actions and to the open blocks. -/
inductive Tagged (body : Str) (p p' : Parser) : Prop
  | plain {action : Action} (actions : p'.actions = p.actions ++ [action])
    (positions : p'.blockPositions = p.blockPositions) (plain : Plain action)
  | opened {action : Action} (actions : p'.actions = p.actions ++ [action])
    (positions : p'.blockPositions = p.actions.length :: p.blockPositions) (opens : Opens action)
  | closed {position : ℕ} {matched action : Action} (block : p.blockPositions = position :: p'.blockPositions)
    (found : p.actions[position]? = some matched)
    (actions : p'.actions =
      p.actions.set position { matched with pos := p.actions.length, hasEndMatch := true } ++ [action])
    (closes : action.t = .closeBlock) (back : action.pos = position)
    (name : slice body matched.start matched.last = slice body action.start action.last)

/-- What a tag leaves: it moves on by the third brace at most, and its delimiters are not empty. -/
structure Moved (body : Str) (endIdx : ℕ) (p p' : Parser) : Prop where
  fragments : p'.fragments = p.fragments
  current : p'.current = p.current ∨
    p'.current = p.current + 1 ∧ p.tagClose = "\x7d\x7d" ∧ charAt body (endIdx + 2) = ('\x7d' : UInt8)
  opening : p.tagOpen ≠ [] → p'.tagOpen ≠ []
  closing : p.tagClose ≠ [] → p'.tagClose ≠ []

theorem delimiters_cases {body : Str} {idx endIdx : ℕ} {p p' : Parser}
    (taken : p.delimiters body idx endIdx = .ok p') :
    ∃ opening closing, opening ≠ [] ∧ closing ≠ [] ∧ p' = { p with tagOpen := opening, tagClose := closing } := by
  unfold Parser.delimiters at taken
  dsimp only at taken
  split at taken
  · split at taken
    · cases taken
    · split at taken
      · cases taken
      · split at taken
        · cases taken
        · next some_ other _ =>
          cases taken
          exact ⟨_, _, some_, other, rfl⟩
  · cases taken

theorem tag_cases {body : Str} {idx endIdx : ℕ} {p p' : Parser} (taken : p.tag body idx endIdx = .ok p') :
    Tagged body p p' ∧ Moved body endIdx p p' := by
  unfold Parser.tag at taken
  dsimp only at taken
  split at taken
  · cases taken
    exact ⟨.opened rfl rfl rfl, rfl, .inl rfl, id, id⟩
  split at taken
  · split at taken
    · cases taken
    · next position outer block =>
      split at taken
      · cases taken
      · next matched found =>
        split at taken
        · next name =>
          cases taken
          exact ⟨.closed block found rfl rfl rfl name.symm, rfl, .inl rfl, id, id⟩
        · cases taken
  split at taken
  · cases taken
    exact ⟨.opened rfl rfl rfl, rfl, .inl rfl, id, id⟩
  split at taken
  · cases taken
    exact ⟨.plain rfl rfl rfl, rfl, .inl rfl, id, id⟩
  split at taken
  · cases taken
    exact ⟨.plain rfl rfl rfl, rfl, .inl rfl, id, id⟩
  split at taken
  · split at taken
    · cases taken
    · next known =>
      split at taken
      · cases taken
      · next brace =>
        cases taken
        exact ⟨.plain rfl rfl rfl, rfl,
          .inr ⟨rfl, not_not.mp (not_or.mp known).2, not_not.mp brace⟩, id, id⟩
  split at taken
  · cases taken
    exact ⟨.plain rfl rfl rfl, rfl, .inl rfl, id, id⟩
  split at taken
  · split at taken
    · cases taken
    · obtain ⟨opening, closing, some_, other, rfl⟩ := delimiters_cases taken
      exact ⟨.plain rfl rfl rfl, rfl, .inl rfl, fun _ => some_, fun _ => other⟩
  · cases taken
    exact ⟨.plain rfl rfl rfl, rfl, .inl rfl, id, id⟩

/-! ## The loop over the tags -/

/-- What has been compiled so far. -/
structure Building (body : Str) (p : Parser) : Prop where
  stacked : Stacked Plain Opens (Pair body) p.actions p.blockPositions
  paired : p.fragments.length = p.actions.length
  inside : p.current ≤ body.length
  opening : p.tagOpen ≠ []
  closing : p.tagClose ≠ []

theorem building_start (body : Str) : Building body {} :=
  ⟨.base (f := .nil) trivial, rfl, Nat.zero_le _, by decide +kernel, by decide +kernel⟩

theorem stacked_tagged {body : Str} {p p' : Parser} (tagged : Tagged body p p')
    (stacked : Stacked Plain Opens (Pair body) p.actions p.blockPositions) :
    Stacked Plain Opens (Pair body) p'.actions p'.blockPositions ∧ p'.actions.length = p.actions.length + 1 := by
  cases tagged with
  | plain actions positions plain =>
    rw [actions, positions]
    exact ⟨stacked.leaf plain, List.length_append⟩
  | opened actions positions opens =>
    rw [actions, positions]
    exact ⟨stacked.opening opens, List.length_append⟩
  | @closed position matched action block found actions closes back name =>
    rw [block] at stacked
    rw [actions]
    obtain ⟨opening, same, opens⟩ := stacked.top
    obtain rfl := Option.some.inj (found.symm.trans same)
    have kind := block_of_opens opens
    exact ⟨stacked.closing ⟨kind, rfl, rfl, closes, back, name⟩, by simp⟩

theorem find_bounds {body pattern : Str} {start position : ℕ} (found : find body pattern start = some position) :
    start ≤ position ∧ position + pattern.length ≤ body.length := by
  unfold find at found
  have starts := List.find?_some found
  obtain ⟨low, high⟩ := List.mem_range'_1.mp (List.mem_of_find?_eq_some found)
  have fits := (List.isPrefixOf_iff_prefix.mp starts).length_le
  rw [List.length_drop] at fits
  omega

theorem lt_length_of_charAt {body : Str} {i : ℕ} (some_ : charAt body i ≠ 0) : i < body.length := by
  by_contra outside
  exact some_ (by simp [charAt, List.getElem?_eq_none (Nat.le_of_not_lt outside)])

/-- One iteration: the fragment in front of a tag, and the tag. -/
theorem building_step {body : Str} {p p' : Parser} {found endIdx : ℕ} (building : Building body p)
    (opened : find body p.tagOpen p.current = some found)
    (closed : find body p.tagClose (found + p.tagOpen.length) = some endIdx)
    (taken : { p with fragments := p.fragments ++ [(p.current, found)],
                      current := endIdx + p.tagClose.length }.tag body (found + p.tagOpen.length) endIdx = .ok p') :
    Building body p' ∧ p.current < p'.current := by
  obtain ⟨tagged, moved⟩ := tag_cases taken
  obtain ⟨stacked, longer⟩ := stacked_tagged tagged building.stacked
  obtain ⟨after, _⟩ := find_bounds opened
  obtain ⟨later, fits⟩ := find_bounds closed
  have some_ : 0 < p.tagClose.length := List.length_pos_of_ne_nil building.closing
  refine ⟨⟨stacked, ?_, ?_, moved.opening building.opening, moved.closing building.closing⟩, ?_⟩
  · rw [moved.fragments, longer, List.length_append, building.paired, List.length_singleton]
  · rcases moved.current with same | ⟨next, two, brace⟩
    · rw [same]
      exact fits
    · have third : endIdx + 2 < body.length := lt_length_of_charAt (by rw [brace]; decide)
      have length : p.tagClose.length = 2 := congrArg List.length two
      rw [next]
      exact (by omega : endIdx + p.tagClose.length + 1 ≤ body.length)
  · rcases moved.current with same | ⟨next, _, _⟩
    · rw [same]
      exact (by omega : p.current < endIdx + p.tagClose.length)
    · rw [next]
      exact (by omega : p.current < endIdx + p.tagClose.length + 1)

/-- What stands behind the last tag. -/
def finish (body : Str) (p : Parser) : Parser :=
  { p with fragments := p.fragments ++ [(p.current, body.length)] }.emplace ⟨'!', .ignore, 0, 0, 0, false⟩

theorem run_cases {body : Str} {fuel : ℕ} {p p' : Parser} (building : Building body p)
    (ran : Parser.run body fuel p = .ok p') : ∃ q, Building body q ∧ p' = finish body q := by
  induction fuel generalizing p with
  | zero => cases ran
  | succ fuel ih =>
    rw [Parser.run] at ran
    split at ran
    · cases ran
      exact ⟨p, building, rfl⟩
    · next found opened =>
      dsimp only at ran
      split at ran
      · cases ran
      · next endIdx closed =>
        split at ran
        · cases ran
        · obtain ⟨middle, taken, later⟩ := bind_eq_ok.mp ran
          exact ih (building_step building opened closed taken).1 later

private theorem invalidTemplate_ne {α : Type} (msg : Str) :
    (.error (invalidTemplate msg) : Except Failure α) ≠ .error .unfinished := fun same => by cases same

theorem delimiters_ne_unfinished {body : Str} {p : Parser} {idx endIdx : ℕ} :
    p.delimiters body idx endIdx ≠ .error .unfinished := by
  intro failed
  unfold Parser.delimiters at failed
  dsimp only at failed
  split at failed
  · split at failed
    · exact invalidTemplate_ne _ failed
    · split at failed
      · exact invalidTemplate_ne _ failed
      · split at failed
        · exact invalidTemplate_ne _ failed
        · cases failed
  · exact invalidTemplate_ne _ failed

/-- A closing tag finds the action of its block. -/
theorem tag_ne_unfinished {body : Str} {p : Parser} {idx endIdx : ℕ}
    (stacked : Stacked Plain Opens (Pair body) p.actions p.blockPositions) :
    p.tag body idx endIdx ≠ .error .unfinished := by
  intro failed
  unfold Parser.tag at failed
  dsimp only at failed
  split at failed
  · cases failed
  split at failed
  · split at failed
    · exact invalidTemplate_ne _ failed
    · next position outer block =>
      rw [block] at stacked
      obtain ⟨opening, found, _⟩ := stacked.top
      rw [found] at failed
      dsimp only at failed
      split at failed
      · cases failed
      · exact invalidTemplate_ne _ failed
  split at failed
  · cases failed
  split at failed
  · cases failed
  split at failed
  · cases failed
  split at failed
  · split at failed
    · exact invalidTemplate_ne _ failed
    · split at failed
      · exact invalidTemplate_ne _ failed
      · cases failed
  split at failed
  · cases failed
  split at failed
  · split at failed
    · exact invalidTemplate_ne _ failed
    · exact delimiters_ne_unfinished failed
  · cases failed

theorem run_ne_unfinished {body : Str} {fuel : ℕ} {p : Parser} (building : Building body p)
    (enough : body.length < fuel + p.current) : Parser.run body fuel p ≠ .error .unfinished := by
  induction fuel generalizing p with
  | zero => exact absurd building.inside (by omega)
  | succ fuel ih =>
    intro failed
    rw [Parser.run] at failed
    split at failed
    · cases failed
    · next found opened =>
      dsimp only at failed
      split at failed
      · exact invalidTemplate_ne _ failed
      · next endIdx closed =>
        split at failed
        · exact invalidTemplate_ne _ failed
        · rcases bind_eq_error failed with own | ⟨middle, taken, later⟩
          · refine tag_ne_unfinished ?_ own
            exact building.stacked
          · obtain ⟨kept, forward⟩ := building_step building opened closed taken
            exact ih kept (by omega) later

/-- Compiling always ends. -/
theorem parse_ne_unfinished (body : Str) : parse body ≠ .error .unfinished := by
  intro failed
  rcases bind_eq_error failed with own | ⟨p, _, later⟩
  · exact run_ne_unfinished (building_start body) (by omega) own
  · dsimp only at later
    split at later
    · exact invalidTemplate_ne _ later
    · cases later

/-! ## Standalone tags -/

/-- What becomes of an action: a partial may get an indentation. -/
def Similar (action action' : Action) : Prop :=
  action' = action ∨ action.t = .partialTag ∧ ∃ n, action' = { action with pos := n }

theorem Similar.trans {a b c : Action} (first : Similar a b) (second : Similar b c) : Similar a c := by
  rcases first with rfl | ⟨kind, n, rfl⟩
  · exact second
  · rcases second with rfl | ⟨_, m, rfl⟩
    · exact .inr ⟨kind, n, rfl⟩
    · exact .inr ⟨kind, m, rfl⟩

theorem similar_refl (actions : List Action) : List.Forall₂ Similar actions actions :=
  List.forall₂_same.mpr fun _ _ => .inl rfl

theorem similar_trans {first second third : List Action} (one : List.Forall₂ Similar first second)
    (two : List.Forall₂ Similar second third) : List.Forall₂ Similar first third := by
  induction one generalizing third with
  | nil => exact two
  | cons own _ ih =>
    cases two with
    | cons also later => exact .cons (own.trans also) (ih later)

theorem similar_set {actions : List Action} {i : ℕ} {action action' : Action} (found : actions[i]? = some action)
    (similar : Similar action action') : List.Forall₂ Similar actions (actions.set i action') := by
  induction actions generalizing i with
  | nil => exact .nil
  | cons first rest ih =>
    cases i with
    | zero =>
      obtain rfl := Option.some.inj found
      exact .cons similar (similar_refl rest)
    | succ i => exact .cons (.inl rfl) (ih found)

theorem standalone_similar (body : Str) (t : List (ℕ × ℕ) × List Action) (i : ℕ) :
    (standalone body t i).1.length = t.1.length ∧ List.Forall₂ Similar t.2 (standalone body t i).2 := by
  unfold standalone
  split
  · next action before after found _ _ =>
    split
    · exact ⟨rfl, similar_refl _⟩
    · dsimp only
      split
      · exact ⟨rfl, similar_refl _⟩
      split
      · exact ⟨rfl, similar_refl _⟩
      have actions (n : ℕ) : List.Forall₂ Similar t.2
          (if action.t = .partialTag then t.2.set i { action with pos := n } else t.2) := by
        split
        · next kind => exact similar_set found (.inr ⟨kind, n, rfl⟩)
        · exact similar_refl _
      split
      · exact ⟨List.length_set, actions _⟩
      · exact ⟨by rw [List.length_set, List.length_set], actions _⟩
  · exact ⟨rfl, similar_refl _⟩

theorem standalones_similar (body : Str) (positions : List ℕ) (t : List (ℕ × ℕ) × List Action) :
    (positions.foldl (standalone body) t).1.length = t.1.length ∧
      List.Forall₂ Similar t.2 (positions.foldl (standalone body) t).2 := by
  induction positions generalizing t with
  | nil => exact ⟨rfl, similar_refl _⟩
  | cons i positions ih =>
    obtain ⟨length, similar⟩ := standalone_similar body t i
    obtain ⟨same, later⟩ := ih (standalone body t i)
    exact ⟨same.trans length, similar_trans similar later⟩

/-! ## The forest of a template -/

/-- A tag with the text in front of it; `inside` says whether a block of the template is open. -/
structure Piece where
  fragment : ℕ × ℕ
  action : Action
  inside : Bool

def pieces (t : Template) : List Piece :=
  t.actions.zipIdx.map fun entry =>
    ⟨t.fragments.getD entry.2 (0, 0), entry.1, Template.insideBlock (t.actions.take entry.2).reverse 0⟩

def opensBlock (piece : Piece) : Bool := piece.action.t = .openBlock ∨ piece.action.t = .elseBlock

/-- The blocks of a template, by the positions that were recorded for them. -/
def tree (t : Template) : Forest Piece :=
  Forest.read opensBlock (·.action.pos) (pieces t) (pieces t).length 0 ((pieces t).length - 1)

/-- The brackets of a template. -/
def Linked (t : Template) : ℕ → Forest Piece → Prop :=
  Forest.Linked (fun piece => Plain piece.action) fun o opening p closing => Pair t.body o opening.action p closing.action

theorem pieces_actions (t : Template) : (pieces t).map (·.action) = t.actions := by
  rw [pieces, List.map_map]
  exact List.zipIdx_map_fst ..

theorem pair_similar {body : Str} {o p : ℕ} {a b c d : Action} (first : Similar a b) (second : Similar c d)
    (pair : Pair body o a p c) : Pair body o b p d := by
  rcases first with rfl | ⟨kind, _⟩
  · rcases second with rfl | ⟨kind, _⟩
    · exact pair
    · exact absurd (pair.closes.symm.trans kind) (by decide)
  · rcases pair.block with block | block
    · exact absurd (block.symm.trans kind) (by decide)
    · exact absurd (block.symm.trans kind) (by decide)

theorem plain_similar {a b : Action} (similar : Similar a b) (plain : Plain a) : Plain b := by
  rcases similar with rfl | ⟨_, n, rfl⟩
  · exact plain
  · exact plain

theorem opensBlock_of_pair {body : Str} {o p : ℕ} {opening closing : Piece}
    (pair : Pair body o opening.action p closing.action) : opensBlock opening = true ∧ opening.action.pos = p :=
  ⟨decide_eq_true pair.block, pair.pos⟩

theorem opensBlock_of_plain {piece : Piece} (plain : Plain piece.action) : opensBlock piece = false := by
  refine decide_eq_false fun block => ?_
  rcases block with kind | kind <;> rw [Plain, kind] at plain <;> cases plain

/-- A template that compiles is a forest of blocks, and the text behind the last tag. -/
theorem parse_tree {body : Str} {t : Template} (parsed : parse body = .ok t) :
    t.body = body ∧ t.fragments.length = t.actions.length ∧ Linked t 0 (tree t) ∧
      ∃ last : Piece, pieces t = (tree t).flatten ++ [last] := by
  obtain ⟨p, ran, later⟩ := bind_eq_ok.mp parsed
  dsimp only at later
  split at later
  · cases later
  · next complete =>
    cases later
    obtain ⟨q, building, rfl⟩ := run_cases (building_start body) ran
    obtain ⟨lengths, similar⟩ :=
      standalones_similar body (List.range ((finish body q).actions.length - 1)).reverse
        ((finish body q).fragments, (finish body q).actions)
    generalize (List.range ((finish body q).actions.length - 1)).reverse.foldl (standalone body)
      ((finish body q).fragments, (finish body q).actions) = after at lengths similar ⊢
    have paired : (finish body q).fragments.length = (finish body q).actions.length := by
      simp only [finish, Parser.emplace, List.length_append, building.paired, List.length_singleton]
    refine ⟨rfl, lengths.trans (paired.trans similar.length_eq), ?_⟩
    -- no block is left open
    have closed : q.blockPositions = [] := by
      cases shown : q.blockPositions with
      | nil => rfl
      | cons position outer =>
        have stacked := building.stacked
        rw [shown] at stacked
        obtain ⟨opening, found, opens⟩ := stacked.top
        have member : opening ∈ (finish body q).actions := List.mem_append_left _ (List.mem_of_getElem? found)
        exact absurd opens (List.find?_eq_none.mp complete opening member)
    have stacked := building.stacked
    rw [closed] at stacked
    obtain ⟨f, flat, linked⟩ := stacked.forest
    -- the pieces are those of the forest, and one more
    have related : List.Forall₂ (fun action piece => Similar action (Piece.action piece)) (finish body q).actions
        (pieces ⟨body, after.1, after.2⟩) := by
      rw [← List.forall₂_map_right_iff, pieces_actions]
      exact similar
    obtain ⟨front, back, whole, inFront, behind⟩ := Forest.forall₂_append related
    rw [← flat] at inFront
    cases behind with
    | @cons _ last _ _ _ none =>
      cases none
      have plain (a : Action) (b : Piece) (similar : Similar a b.action) : Plain a → Plain b.action :=
        plain_similar similar
      have pair (o : ℕ) (a : Action) (p : ℕ) (c : Action) (b d : Piece) (first : Similar a b.action)
          (second : Similar c d.action) : Pair body o a p c → Pair body o b.action p d.action :=
        pair_similar first second
      obtain ⟨g, same, size, own⟩ := linked.transfer plain pair inFront
      rw [← same] at whole
      have located : g.At (pieces ⟨body, after.1, after.2⟩) 0 := whole ▸ g.at_flatten [] [last]
      have length : (pieces ⟨body, after.1, after.2⟩).length = g.size + 1 := by
        rw [whole, List.length_append, Forest.length_flatten, List.length_singleton]
      have read : tree ⟨body, after.1, after.2⟩ = g := by
        have leaf (piece : Piece) : Plain piece.action → opensBlock piece = false := opensBlock_of_plain
        have block (o : ℕ) (opening : Piece) (p : ℕ) (closing : Piece) :
            Pair body o opening.action p closing.action → opensBlock opening = true ∧ opening.action.pos = p :=
          opensBlock_of_pair
        have all := Forest.read_eq leaf block own located (Nat.le_succ g.size)
        rw [tree, length, Nat.add_sub_cancel]
        rwa [Nat.zero_add] at all
      rw [read]
      exact ⟨own, last, whole⟩

end OsuTracker.Soundness.Mustache.Compile
