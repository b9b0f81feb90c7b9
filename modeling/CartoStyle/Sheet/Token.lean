import CartoStyle.Error
import CartoStyle.Lexicon
import CartoStyle.Text.Blank
import CartoStyle.Text.Split

/-!
Tokens of a stylesheet. The text is tiled by the longest match over the
patterns of the token kinds, and each tile is read into a token: directives,
titles and properties lose their punctuation. Every token keeps the byte range
of its tile. Blanks, line ends and comments are tokens too; the parser asks
for the list without them.
-/

namespace CartoStyle.Sheet

/-- A property and its comma-separated values. -/
structure Property where
  key : String
  values : List String
deriving DecidableEq, Repr

inductive Token where
  | whitespace
  | newline
  | openBrace
  | closeBrace
  | comma
  | mode (text : String)
  | styleTitle (text : String)
  | styleAbstract (text : String)
  | pseudoSelector (text : String)
  | selector (text : String)
  | property (property : Property)
  | title (text : String)
  | comment
deriving DecidableEq, Repr

/-- A token and the byte range of the text it was read from. -/
structure Located where
  token : Token
  start : Nat
  stop : Nat
deriving DecidableEq, Repr

namespace Token

def isTrivia : Token → Bool
  | whitespace | newline | comment => true
  | _ => false

def isHeader : Token → Bool
  | selector _ | pseudoSelector _ | title _ | comma => true
  | _ => false

def isDirective : Token → Bool
  | mode _ | styleTitle _ | styleAbstract _ => true
  | _ => false

def describe : Token → String
  | whitespace => "<whitespace>"
  | newline => "<newline>"
  | openBrace => "<open>"
  | closeBrace => "<close>"
  | comma => "<comma>"
  | mode text => "<mode:" ++ text ++ ">"
  | styleTitle text => "<style-title:" ++ text ++ ">"
  | styleAbstract text => "<style-abstract:" ++ text ++ ">"
  | pseudoSelector text => "<pseudo-selector:" ++ text ++ ">"
  | selector text => "<selector:" ++ text ++ ">"
  | property p => "<property:" ++ p.key ++ "=" ++ "|".intercalate p.values ++ ">"
  | title text => "<title:" ++ text ++ ">"
  | comment => "<comment>"

inductive Kind where
  | openBrace
  | comma
  | whitespace
  | newline
  | closeBrace
  | mode
  | styleTitle
  | styleAbstract
  | pseudoSelector
  | selector
  | property
  | title
  | comment
deriving DecidableEq, Repr

section Patterns

open Pattern

def among (s : String) : Pattern := one s.toList.contains

def except (s : String) : Pattern := one (!s.toList.contains ·)

def directive (keyword : String) : Pattern :=
  inOrder [literal keyword, many (except ";"), literal ";"]

def bracket : Pattern := inOrder [literal "[", many (except "]"), literal "]"]

def partName : Pattern :=
  seq (literal ":") (atLeastOne (one fun c => c.isAlphanum || c == '-' || c == '(' || c == ')'))

def families : List String :=
  ["fill", "stroke", "mark", "label", "raster", "font", "halo", "size", "rotation", "opacity"]

/-- A key, a colon, and a value in which quotes hide the characters that would end it. -/
def declaration : Pattern :=
  inOrder [
    anyOf (families.map literal),
    many (one fun c => c.isAlphanum || c == '_' || c == '-'),
    many (among " \t"),
    literal ":",
    many (anyOf [
      except "\x7b\x7d;'\"",
      inOrder [literal "'", many (except "'"), literal "'"],
      inOrder [literal "\"", many (except "\""), literal "\""]]),
    literal ";"]

/-- A comment after its opening and any fixed beginning, up to the first closing. -/
def commentRest : Pattern :=
  inOrder [
    many (except "*"), atLeastOne (among "*"),
    many (inOrder [except "/*", many (except "*"), atLeastOne (among "*")]),
    literal "/"]

def Kind.pattern : Kind → Pattern
  | openBrace => literal "\x7b"
  | comma => literal ","
  | whitespace => atLeastOne (among " \t\x0c")
  | newline => seq (optional (among "\r")) (literal "\n")
  | closeBrace => seq (literal "\x7d") (many (among ";"))
  | mode => directive "@mode"
  | styleTitle => directive "@styleTitle"
  | styleAbstract => directive "@styleAbstract"
  | pseudoSelector => anyOf [seq (literal "*") partName, seq bracket partName, partName]
  | selector => alt (literal "*") bracket
  | property => declaration
  | title => inOrder [literal "/*", many (among " \t\r\n"), literal "@title", commentRest]
  | comment => seq (literal "/*") commentRest

end Patterns

/-- The kinds in order of precedence: fixed texts first, and titles before other comments. -/
def lexicon : Lexicon Kind where
  kinds := [.openBrace, .comma, .whitespace, .newline, .closeBrace, .mode, .styleTitle,
    .styleAbstract, .pseudoSelector, .selector, .property, .title, .comment]
  pattern := Kind.pattern

/-- The argument of a directive, without its semicolon and the quotes around it. -/
def directiveText (keyword : String) (cs : List Char) : String :=
  let argument := (cs.drop keyword.length).dropLast
  String.ofList (Text.dropEnds Text.isQuote (Text.dropEnds Text.isBlank argument))

/-- The title in a comment, without the delimiters, the keyword and the quotes around it. -/
def titleText (cs : List Char) : String :=
  let inner := Text.dropEnds Text.isBlank (cs.drop 2).dropLast.dropLast
  let text := Text.dropEnds Text.isBlank (Text.dropLeading "@title".toList inner)
  String.ofList (Text.dropEnds Text.isBlank (Text.dropEnds Text.isQuote text))

/-- A declaration cut at its first colon, and the value at its top-level commas. -/
def declarationOf (cs : List Char) : Property :=
  let key := cs.takeWhile (· != ':')
  let value := (cs.drop (key.length + 1)).dropLast
  let parts := (Text.splitTop ',' value).map (Text.dropEnds Text.isBlank)
  { key := String.ofList (Text.dropEnds Text.isBlank key)
    values := (parts.filter (!·.isEmpty)).map String.ofList }

def ofTile : Kind → List Char → Token
  | .openBrace, _ => openBrace
  | .comma, _ => comma
  | .whitespace, _ => whitespace
  | .newline, _ => newline
  | .closeBrace, _ => closeBrace
  | .mode, cs => mode (directiveText "@mode" cs)
  | .styleTitle, cs => styleTitle (directiveText "@styleTitle" cs)
  | .styleAbstract, cs => styleAbstract (directiveText "@styleAbstract" cs)
  | .pseudoSelector, cs => pseudoSelector (String.ofList cs)
  | .selector, cs => selector (String.ofList cs)
  | .property, cs => property (declarationOf cs)
  | .title, cs => title (titleText cs)
  | .comment, _ => comment

end Token

def locate : Nat → List (Token.Kind × List Char) → List Located
  | _, [] => []
  | start, (kind, cs) :: later =>
    let stop := start + byteLength cs
    ⟨Token.ofTile kind cs, start, stop⟩ :: locate stop later

/-- The start of a text up to its first line end, cut off after thirty-two characters. -/
def fragment (cs : List Char) : String :=
  let line := cs.takeWhile (· != '\n')
  let ended := line.length < cs.length
  let line := if ended && line.getLast? == some '\r' then line.dropLast else line
  String.ofList (line.take 32)

def tokenize (source : String) : Except Error (List Located) :=
  let cs := source.toList
  let (tiles, rest) := Token.lexicon.tiles cs
  if rest.isEmpty then .ok (locate 0 tiles)
  else .error (.lexical (Position.after (cs.take (cs.length - rest.length))) (fragment rest))

def lex (source : String) : Except Error (List Located) :=
  (tokenize source).map (·.filter (!·.token.isTrivia))

theorem lex_eq_ok_iff {source : String} {ts : List Located} :
    lex source = .ok ts ↔
      ∃ all, tokenize source = .ok all ∧ ts = all.filter (!·.token.isTrivia) := by
  rw [lex]
  cases tokenize source with
  | error e => simp [Except.map]
  | ok all => simp [Except.map, eq_comm]

end CartoStyle.Sheet
