import CartoStyle.Error
import CartoStyle.Lexicon
import CartoStyle.Text.Blank
import CartoStyle.Expression.Basic
import CartoStyle.Expression.Lexeme

/-!
Property values. A value is a sequence of atoms: colours, numbers, texts,
attributes in brackets, words, and calls of a function with arguments between
commas. Several atoms form an array, or the text of a label. Words are texts,
apart from the two truth values and the names of functions.
-/

namespace CartoStyle.PropertyValue

inductive Token where
  | hex (colour : String)
  | number (value : Float)
  | quoted (text : String)
  | brace (name : String)
  | word (text : String)
  | openParen
  | closeParen
  | comma

inductive Kind where
  | openParen
  | closeParen
  | comma
  | blanks
  | hex
  | number
  | quoted
  | brace
  | word
deriving DecidableEq, Repr

def isHexDigit (c : Char) : Bool :=
  c.isDigit || ('a' ≤ c && c ≤ 'f') || ('A' ≤ c && c ≤ 'F')

open Pattern in
def Kind.pattern : Kind → Pattern
  | openParen => literal "("
  | closeParen => literal ")"
  | comma => literal ","
  | blanks => Lexeme.blanks
  | hex => seq (literal "#") (atLeastOne (one isHexDigit))
  | number => Lexeme.numeral
  | quoted => Lexeme.quoted
  | brace => inOrder [literal "[", many (one (· != ']')), literal "]"]
  | word =>
    seq (one fun c => c.isAlpha || c == '_' || c == '@')
      (many (one fun c =>
        c.isAlphanum || c == '_' || c == '-' || c == '.' || c == ':' || c == '/'))

def lexicon : Lexicon Kind where
  kinds := [.openParen, .closeParen, .comma, .blanks, .hex, .number, .quoted, .brace, .word]
  pattern := Kind.pattern

def Token.ofLexeme? : Kind × List Char → Option Token
  | (.blanks, _) => none
  | (.openParen, _) => some .openParen
  | (.closeParen, _) => some .closeParen
  | (.comma, _) => some .comma
  | (.hex, cs) => some (.hex (String.ofList cs))
  | (.number, cs) => some (.number (Lexeme.number cs))
  | (.quoted, cs) => some (.quoted (String.ofList (Lexeme.inner cs)))
  | (.brace, cs) => some (.brace (String.ofList (Text.dropEnds Text.isBlank (Lexeme.inner cs))))
  | (.word, cs) => some (.word (String.ofList cs))

def tokens? (text : String) : Option (List Token) :=
  (lexicon.tiling? text.toList).map (·.filterMap Token.ofLexeme?)

def wordExpression (w : String) : Expression :=
  if w = "true" then .truth true else if w = "false" then .truth false else .text w

/-- The expression of an argument; several atoms form an array. -/
def argument : List Expression → Except ValueFault Expression
  | [] => .error .emptyArgument
  | [e] => .ok e
  | es => .ok (.array es)

mutual

/-- Atoms up to the end, a comma or a closing parenthesis. The first argument bounds the
nesting of calls. -/
def atoms : Nat → List Token → Except ValueFault (List Expression × List Token)
  | 0, _ => .error .trailing
  | _ + 1, [] => .ok ([], [])
  | _ + 1, .comma :: ts => .ok ([], .comma :: ts)
  | _ + 1, .closeParen :: ts => .ok ([], .closeParen :: ts)
  | fuel + 1, t :: ts => do
    let (e, rest) ← atom fuel t ts
    let (es, rest) ← atoms fuel rest
    return (e :: es, rest)

/-- One atom, given its first token. A word in front of a parenthesis names a function. -/
def atom : Nat → Token → List Token → Except ValueFault (Expression × List Token)
  | _, .hex colour, ts => .ok (.hex colour, ts)
  | _, .number x, ts => .ok (.number x, ts)
  | _, .quoted s, ts => .ok (.text s, ts)
  | _, .brace name, ts => .ok (.apply .brace [.get name], ts)
  | 0, .word _, .openParen :: _ => .error .trailing
  | _ + 1, .word w, .openParen :: .closeParen :: ts => .ok (.apply (.ofName w.toLower) [], ts)
  | fuel + 1, .word w, .openParen :: ts => do
    let (args, rest) ← arguments fuel ts
    return (.apply (.ofName w.toLower) args, rest)
  | _, .word w, ts => .ok (wordExpression w, ts)
  | _, _, _ => .error .punctuation

def arguments : Nat → List Token → Except ValueFault (List Expression × List Token)
  | 0, _ => .error .trailing
  | fuel + 1, ts => do
    let (es, rest) ← atoms fuel ts
    let arg ← argument es
    match rest with
    | .comma :: rest => do
      let (args, rest) ← arguments fuel rest
      return (arg :: args, rest)
    | .closeParen :: rest => return ([arg], rest)
    | _ => throw .unclosedCall

end

def fuelFor (ts : List Token) : Nat := 3 * ts.length + 3

/-- The expression of the atoms of a property. Several atoms are the text of a label and an
array elsewhere. -/
def combine (key : String) : List Expression → Except ValueFault Expression
  | [] => .error .empty
  | [e] => .ok e
  | es => .ok (.apply (if key = "label" then .text else .array) es)

def ofTokens (key : String) (ts : List Token) : Except ValueFault Expression := do
  match ← atoms (fuelFor ts) ts with
  | (es, []) => combine key es
  | _ => throw .trailing

def parse (key text : String) : Except Error Expression :=
  match tokens? text with
  | none => .error (.value key text .unreadable)
  | some ts => (ofTokens key ts).mapError (.value key text)

end CartoStyle.PropertyValue
