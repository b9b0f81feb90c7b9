import CartoStyle.Sheet.Token
import CartoStyle.Sheet.Block

/-!
From tokens to the block tree. The tokens are taken one by one; the state
holds the finished top-level blocks, the open blocks from the innermost
outwards, and the header tokens seen since the last statement. An opening
brace turns the header into an open block and a closing brace finishes the
innermost one. A header without selectors, such as a lone title, is dropped
when a statement follows it.
-/

namespace CartoStyle.Sheet

/-- The tokens that stand in front of a block, as far as they have been seen. -/
structure Header where
  /-- The offset of the first of them. -/
  start : Nat
  /-- The alternatives that a comma has ended. -/
  finished : List String := []
  /-- The alternative in progress. -/
  current : String := ""
  title : Option String := none
  /-- A selector or a comma is among them. -/
  selects : Bool := false

namespace Header

/-- The alternatives of a header, of which empty ones are left out. -/
def selectors (h : Header) : List String :=
  if h.current.isEmpty then h.finished else h.finished ++ [h.current]

/-- A header with one more token. Adjacent selectors form one alternative, a comma ends it,
and the last title counts. -/
def push (h : Header) : Token → Header
  | .selector text | .pseudoSelector text =>
    { h with current := h.current ++ text, selects := true }
  | .comma => { h with finished := h.selectors, current := "", selects := true }
  | .title text => { h with title := some text }
  | _ => h

end Header

/-- A block whose closing brace has not been seen. -/
structure OpenBlock where
  /-- The offset of its opening brace. -/
  start : Nat
  selectors : List String
  title : Option String
  id : Nat
  properties : KeyMap (List String) := .empty
  children : List Block := []

structure Progress where
  directives : Directives := {}
  /-- The finished top-level blocks. -/
  blocks : List Block := []
  /-- The open blocks, the innermost first. -/
  stack : List OpenBlock := []
  header : Option Header := none
  /-- The last number given to a block of the current group. -/
  lastId : Nat := 0

namespace Progress

def fail {α : Type} (source : String) (offset : Nat) (fault : SheetFault) : Except Error α := do
  throw (.nesting (← Position.ofOffset source offset) fault)

def openBlock (p : Progress) (source : String) (start : Nat) : Except Error Progress :=
  match p.header with
  | none => fail source start .missingSelector
  | some h =>
    if h.selectors.isEmpty then fail source h.start .missingSelector
    else
      let id := if p.stack.isEmpty then 1 else p.lastId + 1
      let opened : OpenBlock := { start, selectors := h.selectors, title := h.title, id }
      .ok { p with stack := opened :: p.stack, header := none, lastId := id }

def close (p : Progress) (b : OpenBlock) (level : Nat) : Block where
  selectors := b.selectors
  title := b.title
  properties := b.properties
  level := level
  group := p.blocks.length
  id := b.id
  children := b.children

/-- A closing brace, a property or a directive, where no header is pending. -/
def statement (p : Progress) (source : String) (start : Nat) (t : Token) :
    Except Error Progress :=
  match t, p.stack with
  | .closeBrace, [] => fail source start .strayClose
  | .closeBrace, [b] => .ok { p with stack := [], blocks := p.blocks ++ [p.close b 1] }
  | .closeBrace, b :: parent :: rest =>
    let child := p.close b (rest.length + 2)
    .ok { p with stack := { parent with children := parent.children ++ [child] } :: rest }
  | .property prop, [] => fail source start (.strayProperty prop.key)
  | .property prop, b :: rest =>
    .ok { p with
      stack := { b with properties := b.properties.insert prop.key prop.values } :: rest }
  | .mode text, [] => .ok { p with directives := { p.directives with mode := some text } }
  | .styleTitle text, [] => .ok { p with directives := { p.directives with title := some text } }
  | .styleAbstract text, [] =>
    .ok { p with directives := { p.directives with abstract := some text } }
  | _, _ => fail source start .nestedDirective

def step (p : Progress) (source : String) (t : Located) : Except Error Progress :=
  if t.token.isHeader || t.token.isTrivia then
    .ok { p with header := some ((p.header.getD { start := t.start }).push t.token) }
  else
    match t.token, p.header with
    | .openBrace, _ => p.openBlock source t.start
    | token, none => p.statement source t.start token
    | token, some h =>
      if h.selects then fail source t.start .missingOpen
      else { p with header := none }.statement source t.start token

def finish (p : Progress) (source : String) : Except Error Stylesheet :=
  match p.header.filter (·.selects), p.stack with
  | some h, _ => fail source h.start .missingBlock
  | none, b :: _ => fail source b.start .unclosedBlock
  | none, [] => .ok { directives := p.directives, blocks := p.blocks }

end Progress

/-- The block tree of some tokens. The source only serves to place errors. -/
def Stylesheet.ofTokens (source : String) (tokens : List Located) : Except Error Stylesheet := do
  let last ← tokens.foldlM (fun p t => p.step source t) ({} : Progress)
  last.finish source

def Stylesheet.parse (source : String) : Except Error Stylesheet := do
  Stylesheet.ofTokens source (← lex source)

end CartoStyle.Sheet
