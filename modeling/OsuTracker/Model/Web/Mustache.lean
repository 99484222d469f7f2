import OsuTracker.Cxx.Json
import OsuTracker.Model.Core.Helpers

/-! # Mustache templates

A template is compiled to two vectors: the actions of its tags, with the positions that a block
jumps between, and the fragments of text in front of them. Rendering goes over the vectors from
left to right, jumps, and keeps the values it is inside of on a stack. Contexts hold no functions, and
numbers only as integers.
A partial is another template; a template that includes itself for ever never returns, which the
number of nested partials stands for.
-/

namespace OsuTracker.Model.Web.Mustache

open Cxx Core.Helpers

inductive Failure where
  | invalidTemplate (what : Str)
  | runtimeError (what : Str)
  /-- Nothing returns. -/
  | unfinished
deriving DecidableEq, Repr

def invalidTemplate (msg : Str) : Failure := .invalidTemplate (bytes "crow::mustache error: " ++ msg)

/-! ## Contexts -/

inductive Value where
  | null
  | bool (value : Bool)
  | number (value : ℤ)
  | string (value : Str)
  | list (elements : List Value)
  | object (members : List (Str × Value))

namespace Value

/-- The number of the type. -/
def typeNumber : Value → ℤ
  | null => 0
  | bool false => 1
  | bool true => 2
  | number _ => 3
  | string _ => 4
  | list _ => 5
  | object _ => 6

def isObject : Value → Bool
  | object _ => true
  | _ => false

/-- A member, when the value is an object that has it. -/
def member? (name : Str) : Value → Option Value
  | object members => members.lookup name
  | _ => none

/-- The members of members along a path of names. -/
def path? (v : Value) (names : List Str) : Option Value :=
  names.foldl (fun view name => view.bind (member? name)) (some v)

end Value

/-- `find_context`; the top of the stack comes first. -/
def findContext (name : Str) (stack : List Value) (onlyFirst : Bool) : Option Value :=
  if name = "." then stack.head?
  else if ('.' : UInt8) ∈ name then
    if onlyFirst then (stack.take 1).findSome? fun view => view.path? (name.splitOn ('.' : UInt8))
    else stack.findSome? fun view => view.path? (name.splitOn ('.' : UInt8))
  else stack.findSome? fun view => view.member? name

def escapeChar (c : UInt8) : Str :=
  if c = '&' then "&amp;"
  else if c = '<' then "&lt;"
  else if c = '>' then "&gt;"
  else if c = '"' then "&quot;"
  else if c = '\'' then "&#39;"
  else if c = '/' then "&#x2F;"
  else if c = '`' then "&#x60;"
  else if c = '=' then "&#x3D;"
  else [c]

def escape (text : Str) : Str := text.flatMap escapeChar

/-! ## Templates -/

inductive ActionType where
  | ignore | tag | unescapeTag | openBlock | closeBlock | elseBlock | partialTag
deriving DecidableEq, Repr

structure Action where
  tagChar : UInt8
  t : ActionType
  start : ℕ
  last : ℕ
  /-- Where the other end of a block is, and the indentation of a partial. -/
  pos : ℕ := 0
  hasEndMatch : Bool := false
deriving DecidableEq, Repr

def Action.missingEndPair (action : Action) : Bool :=
  match action.t with
  | .openBlock | .elseBlock => !action.hasEndMatch
  | _ => false

structure Template where
  body : Str
  fragments : List (ℕ × ℕ)
  actions : List Action
deriving DecidableEq, Repr

/-- `substr(first, second - first)`; a negative length goes to the end of the text. -/
def slice (body : Str) (first second : ℕ) : Str :=
  if first ≤ second then (body.drop first).take (second - first) else body.drop first

/-! ## Compiling -/

/-- `body_[i]`; the text ends with a null. -/
def charAt (body : Str) (i : ℕ) : UInt8 := body.getD i 0

/-- `while (body_[idx] == ' ') idx++;` -/
def skipBlanks (body : Str) (idx : ℕ) : ℕ := idx + ((body.drop idx).takeWhile (· == (' ' : UInt8))).length

/-- `while (body_[endIdx - 1] == ' ') endIdx--;` -/
def dropBlanks (body : Str) (endIdx : ℕ) : ℕ :=
  endIdx - ((body.take endIdx).reverse.takeWhile (· == (' ' : UInt8))).length

structure Parser where
  tagOpen : Str := "\x7b\x7b"
  tagClose : Str := "\x7d\x7d"
  /-- The innermost open block first. -/
  blockPositions : List ℕ := []
  current : ℕ := 0
  fragments : List (ℕ × ℕ) := []
  actions : List Action := []
deriving DecidableEq, Repr

def Parser.emplace (p : Parser) (action : Action) : Parser := { p with actions := p.actions ++ [action] }

/-- `{{=<open> <close>=}}`, with the positions inside the two equals signs trimmed. -/
def Parser.delimiters (body : Str) (idx endIdx : ℕ) (p : Parser) : Except Failure Parser :=
  let inside := slice body idx endIdx
  let opening := inside.takeWhile (· != (' ' : UInt8))
  if idx < endIdx ∧ (' ' : UInt8) ∈ inside then
    let closing := (inside.drop opening.length).dropWhile (· == (' ' : UInt8))
    if opening = [] then .error (invalidTemplate "\x7b\x7b=: empty open tag")
    else if closing = [] then .error (invalidTemplate "\x7b\x7b=: empty close tag")
    else if (' ' : UInt8) ∈ closing then
      .error (invalidTemplate (bytes "\x7b\x7b=: invalid open/close tag: " ++ opening ++ bytes " " ++ closing))
    else .ok { p with tagOpen := opening, tagClose := closing }
  else .error (invalidTemplate "\x7b\x7b=: cannot find space between new open/close tags")

/-- The tag from `idx` to `endIdx`. -/
def Parser.tag (body : Str) (idx endIdx : ℕ) (p : Parser) : Except Failure Parser :=
  let tagChar := charAt body idx
  let first := skipBlanks body (idx + 1)
  let last := dropBlanks body endIdx
  if tagChar = '#' then
    .ok ({ p with blockPositions := p.actions.length :: p.blockPositions }.emplace ⟨tagChar, .openBlock, first, last, 0, false⟩)
  else if tagChar = '/' then
    match p.blockPositions with
    | [] => .error (invalidTemplate (bytes "unexpected closing tag: " ++ slice body first last))
    | position :: outer =>
      match p.actions[position]? with
      | none => .error .unfinished
      | some matched =>
        if slice body first last = slice body matched.start matched.last then
          let actions := p.actions.set position { matched with pos := p.actions.length, hasEndMatch := true }
          .ok ({ p with blockPositions := outer, actions := actions }.emplace
            ⟨tagChar, .closeBlock, first, last, position, false⟩)
        else
          .error (invalidTemplate (bytes "not matched \x7b\x7b" ++ matched.tagChar :: bytes "\x7b\x7b/ pair: " ++
            slice body matched.start matched.last ++ bytes ", " ++ slice body first last))
  else if tagChar = '^' then
    .ok ({ p with blockPositions := p.actions.length :: p.blockPositions }.emplace ⟨tagChar, .elseBlock, first, last, 0, false⟩)
  else if tagChar = '!' then .ok (p.emplace ⟨tagChar, .ignore, idx + 1, endIdx, 0, false⟩)
  else if tagChar = '>' then .ok (p.emplace ⟨tagChar, .partialTag, first, last, 0, false⟩)
  else if tagChar = '\x7b' then
    if p.tagOpen ≠ "\x7b\x7b" ∨ p.tagClose ≠ "\x7d\x7d" then
      .error (invalidTemplate "cannot use triple mustache when delimiter changed")
    else if charAt body (endIdx + 2) ≠ '\x7d' then .error (invalidTemplate "\x7b\x7b\x7b: \x7d\x7d not matched")
    else .ok ({ p with current := p.current + 1 }.emplace ⟨tagChar, .unescapeTag, first, last, 0, false⟩)
  else if tagChar = '&' then .ok (p.emplace ⟨tagChar, .unescapeTag, first, last, 0, false⟩)
  else if tagChar = '=' then
    let p := p.emplace ⟨tagChar, .ignore, idx + 1, endIdx, 0, false⟩
    if charAt body (endIdx - 1) ≠ '=' then
      .error (invalidTemplate (bytes "\x7b\x7b=: not matching = tag: " ++ slice body (idx + 1) (endIdx - 1)))
    else p.delimiters body (skipBlanks body (idx + 1)) (dropBlanks body (endIdx - 1))
  else .ok (p.emplace ⟨tagChar, .tag, skipBlanks body idx, last, 0, false⟩)

/-- The loop over the tags; each of them takes at least one character. -/
def Parser.run (body : Str) : ℕ → Parser → Except Failure Parser
  | 0, _ => .error .unfinished
  | fuel + 1, p =>
    match find body p.tagOpen p.current with
    | none =>
      .ok ({ p with fragments := p.fragments ++ [(p.current, body.length)] }.emplace ⟨'!', .ignore, 0, 0, 0, false⟩)
    | some found =>
      let idx := found + p.tagOpen.length
      match find body p.tagClose idx with
      | none => .error (invalidTemplate "not matched opening tag")
      | some endIdx =>
        if endIdx = idx then .error (invalidTemplate "empty tag is not allowed")
        else
          ({ p with fragments := p.fragments ++ [(p.current, found)], current := endIdx + p.tagClose.length }.tag
            body idx endIdx).bind (run body fuel)

/-- One step of the loop that takes a tag that is alone on its line away with the line. -/
def standalone (body : Str) (t : List (ℕ × ℕ) × List Action) (i : ℕ) : List (ℕ × ℕ) × List Action :=
  match t.2[i]?, t.1[i]?, t.1[i + 1]? with
  | some action, some before, some after =>
    if action.t = .tag ∨ action.t = .unescapeTag then t
    else
      let line := (body.take before.2).drop before.1
      let blanksBefore := (line.reverse.takeWhile (· == (' ' : UInt8))).length
      let allSpaceBefore := decide (blanksBefore = line.length)
      let j := before.2 - blanksBefore
      if (allSpaceBefore ∧ 0 < i) ∨ (!allSpaceBefore ∧ charAt body (j - 1) ≠ '\n') then t
      else
        let next := (body.take after.2).drop after.1
        let blanksAfter := (next.takeWhile (· == (' ' : UInt8))).length
        let allSpaceAfter := decide (blanksAfter = next.length)
        let k := after.1 + blanksAfter
        if (allSpaceAfter ∧ i + 2 ≠ t.2.length) ∨ (!allSpaceAfter ∧
            ¬(charAt body k = '\n' ∨ (charAt body k = '\r' ∧ k + 1 < body.length ∧ charAt body (k + 1) = '\n'))) then t
        else
          let actions := if action.t = .partialTag then t.2.set i { action with pos := blanksBefore } else t.2
          let fragments := t.1.set i (before.1, j)
          if allSpaceAfter then (fragments, actions)
          else (fragments.set (i + 1) (if charAt body k = '\n' then k + 1 else k + 2, after.2), actions)
  | _, _, _ => t

def parse (body : Str) : Except Failure Template :=
  (Parser.run body (body.length + 1) {}).bind fun p =>
    match p.actions.find? Action.missingEndPair with
    | some action =>
      .error (invalidTemplate (bytes "open tag has no matching end tag \x7b\x7b" ++ action.tagChar ::
        bytes " \x7b\x7b/ pair: " ++ slice body action.start action.last))
    | none =>
      let t := (List.range (p.actions.length - 1)).reverse.foldl (standalone body) (p.fragments, p.actions)
      .ok ⟨body, t.1, t.2⟩

/-! ## Rendering -/

def blanks (n : ℕ) : Str := List.replicate n ' '

namespace Template

def tagName (t : Template) (action : Action) : Str := slice t.body action.start action.last

/-- A fragment; behind every line but the last one of the template stands the indentation. -/
def renderFragment (t : Template) (fragment : ℕ × ℕ) (indent : ℕ) : Str :=
  if indent = 0 then slice t.body fragment.1 fragment.2
  else (List.range' fragment.1 (fragment.2 - fragment.1)).flatMap fun i =>
    charAt t.body i :: (if charAt t.body i = '\n' ∧ i + 1 ≠ t.body.length then blanks indent else [])

/-- The loop of `isTagInsideObjectBlock` over the actions before, the last one first. -/
def insideBlock : List Action → ℤ → Bool
  | [], _ => false
  | action :: earlier, openedBlock =>
    match action.t with
    | .openBlock => if openedBlock = 0 then true else insideBlock earlier (openedBlock - 1)
    | .closeBlock => insideBlock earlier (openedBlock + 1)
    | _ => insideBlock earlier openedBlock

def isTagInsideObjectBlock (t : Template) (current : ℕ) (stack : List Value) : Bool :=
  (stack.head?.elim false (·.isObject)) && insideBlock (t.actions.take current).reverse 0

/-- What a tag writes. -/
def tagText (t : Template) (action : Action) (stack : List Value) (onlyFirst : Bool) : Except Failure Str :=
  match (findContext (t.tagName action) stack onlyFirst).getD (.string []) with
  | .bool value => .ok (if value then "true" else "false")
  | .number value => .ok (stdToString value)
  | .string value => .ok (if action.t = .tag then escape value else value)
  | other => .error (.runtimeError (bytes "not implemented tag type" ++ stdToString other.typeNumber))

/-- What becomes of a block: it is left out, entered with a value on the stack, or entered for
each of some values. -/
inductive Entry where
  | skip
  | enter (v : Value)
  | each (elements : List Value)

def openBlock : Option Value → Entry
  | none => .skip
  | some (.list elements) => .each elements
  | some (.bool false) | some .null => .skip
  | some v => .enter v

def elseBlock : Option Value → Entry
  | none => .enter .null
  | some (.list elements) => if elements = [] then .enter .null else .skip
  | some (.bool false) | some .null => .enter .null
  | some _ => .skip

def entry (t : Template) (action : Action) (stack : List Value) : Entry :=
  if action.t = .openBlock then openBlock (findContext (t.tagName action) stack false)
  else elseBlock (findContext (t.tagName action) stack false)

section Render

variable (partials : Str → List Value → ℕ → Str → Except Failure (List Value × Str)) (t : Template)

/-- The loop of `render_internal` from `current` on. -/
def renderFrom : ℕ → ℕ → ℕ → List Value → ℕ → Str → Except Failure (List Value × Str)
  | 0, _, _, _, _, _ => .error .unfinished
  | fuel + 1, current, actionEnd, stack, indent, out =>
    if current < actionEnd then
      let out := out ++ t.renderFragment (t.fragments.getD current (0, 0)) indent
      let action := t.actions.getD current ⟨'!', .ignore, 0, 0, 0, false⟩
      match action.t with
      | .ignore => renderFrom fuel (current + 1) actionEnd stack indent out
      | .partialTag =>
        (partials (t.tagName action) stack (if action.pos = 0 then 0 else indent + action.pos) out).bind fun s =>
          renderFrom fuel (current + 1) actionEnd s.1 indent s.2
      | .tag | .unescapeTag =>
        (t.tagText action stack (t.isTagInsideObjectBlock current stack)).bind fun text =>
          renderFrom fuel (current + 1) actionEnd stack indent (out ++ text)
      | .openBlock | .elseBlock =>
        match t.entry action stack with
        | .skip => renderFrom fuel (action.pos + 1) actionEnd stack indent out
        | .enter v => renderFrom fuel (current + 1) actionEnd (v :: stack) indent out
        | .each elements =>
          (elements.foldlM (fun (s : List Value × Str) v =>
            (renderFrom fuel (current + 1) action.pos (v :: s.1) indent (s.2 ++ blanks indent)).map fun s =>
              (s.1.tail, s.2)) (stack, out)).bind fun s =>
            renderFrom fuel (action.pos + 1) actionEnd s.1 indent s.2
      | .closeBlock => renderFrom fuel (current + 1) actionEnd stack.tail indent out
    else .ok (stack, out ++ t.renderFragment (t.fragments.getD actionEnd (0, 0)) indent)

def renderInternal (actionBegin actionEnd : ℕ) (stack : List Value) (indent : ℕ) (out : Str) :
    Except Failure (List Value × Str) :=
  renderFrom partials t (t.actions.length + 1) actionBegin actionEnd stack indent (out ++ blanks indent)

end Render

end Template

/-- A template in a context; `files` is what is loaded under the name of a partial. -/
def renderTemplate (files : Str → Str) : ℕ → Template → List Value → ℕ → Str → Except Failure (List Value × Str)
  | 0, _, _, _, _ => .error .unfinished
  | depth + 1, t, stack, indent, out =>
    t.renderInternal (fun name stack indent out =>
      (parse (files name)).bind fun other => renderTemplate files depth other stack indent out)
      0 (t.fragments.length - 1) stack indent out

def render (files : Str → Str) (depth : ℕ) (t : Template) (context : Value) : Except Failure Str :=
  (renderTemplate files depth t [context] 0 []).map (·.2)

/-! ## Pages -/

namespace Layout

def contentKey : Str := "route_content"

/-- `Layout::render`: the page, put into the layout. -/
def render (files : Str → Str) (depth : ℕ) (page : Str) (members : List (Str × Value)) : Except Failure Str :=
  (parse (files page)).bind fun t =>
    (Mustache.render files depth t (.object members)).bind fun content =>
      (parse (files "base.html")).bind fun base =>
        Mustache.render files depth base (.object (assign contentKey (.string content) members))

end Layout

end OsuTracker.Model.Web.Mustache
