import CartoStyle.Error
import CartoStyle.Lexicon
import CartoStyle.Expression.Basic
import CartoStyle.Expression.Lexeme

/-!
Conditions, the content of selector brackets. A condition is a disjunction of
conjunctions of negations of comparisons, with parentheses around any of it.
An attribute is compared with a value, matched against a pattern, or tested
for null. Keywords are read in any mixture of cases. A test for null is an
equality with the null literal; a combination of one operand is the operand.
-/

namespace CartoStyle.Condition

inductive Token where
  | openParen
  | closeParen
  | equal
  | notEqual
  | greater
  | greaterOrEqual
  | less
  | lessOrEqual
  | and
  | or
  | not
  | like
  | ilike
  | is
  | null
  | number (value : Float)
  | quoted (text : String)
  | identifier (name : String)

inductive Kind where
  | blanks
  | fixed (token : Token) (spelling : String)
  | keyword (token : Token) (spelling : String)
  | number
  | quoted
  | identifier

open Pattern in
def Kind.pattern : Kind → Pattern
  | blanks => Lexeme.blanks
  | fixed _ spelling => literal spelling
  | keyword _ spelling => anyCase spelling
  | number => Lexeme.numeral
  | quoted => Lexeme.quoted
  | identifier =>
    seq (one fun c => c.isAlpha || c == '_' || c == '@')
      (many (one fun c => c.isAlphanum || c == '_' || c == '-' || c == '.' || c == ':'))

/-- The kinds in order of precedence: a keyword is no identifier. -/
def lexicon : Lexicon Kind where
  kinds := [
    .fixed .openParen "(", .fixed .closeParen ")",
    .fixed .equal "=", .fixed .equal "==", .fixed .notEqual "!=", .fixed .notEqual "<>",
    .fixed .greater ">", .fixed .greaterOrEqual ">=", .fixed .less "<", .fixed .lessOrEqual "<=",
    .keyword .and "and", .keyword .or "or", .keyword .not "not", .keyword .like "like",
    .keyword .ilike "ilike", .keyword .is "is", .keyword .null "null",
    .blanks, .number, .quoted, .identifier]
  pattern := Kind.pattern

/-- The token of a lexeme; blanks are none. -/
def Token.ofLexeme? : Kind × List Char → Option Token
  | (.blanks, _) => none
  | (.fixed token _, _) => some token
  | (.keyword token _, _) => some token
  | (.number, cs) => some (.number (Lexeme.number cs))
  | (.quoted, cs) => some (.quoted (String.ofList (Lexeme.inner cs)))
  | (.identifier, cs) => some (.identifier (String.ofList cs))

def tokens? (text : String) : Option (List Token) :=
  (lexicon.tiling? text.toList).map (·.filterMap Token.ofLexeme?)

/-- What a part of a condition is read as, and the tokens after it. -/
abbrev Reading := Except FilterFault (Expression × List Token)

/-- The literal after an operator. An identifier is a truth value or a text. -/
def operand : List Token → Reading
  | .number x :: ts => .ok (.number x, ts)
  | .quoted s :: ts => .ok (.text s, ts)
  | .null :: ts => .ok (.null, ts)
  | .identifier w :: ts =>
    .ok (if w = "true" then .literal (.bool true)
      else if w = "false" then .literal (.bool false) else .text w, ts)
  | _ => .error .value

def Token.comparison? : Token → Option Operator
  | equal => some .equal
  | notEqual => some .notEqual
  | greater => some .greater
  | greaterOrEqual => some .greaterOrEqual
  | less => some .less
  | lessOrEqual => some .lessOrEqual
  | like => some .like
  | ilike => some .ilike
  | _ => none

def compareWith (op : Operator) (subject : Expression) (ts : List Token) : Reading :=
  (operand ts).map fun (value, rest) => (.apply op [subject, value], rest)

def negate (e : Expression) : Expression := .apply .not [e]

def negated (r : Reading) : Reading := r.map fun (e, rest) => (negate e, rest)

def predicate (subject : Expression) : List Token → Reading
  | .not :: .like :: ts => negated (compareWith .like subject ts)
  | .not :: .ilike :: ts => negated (compareWith .ilike subject ts)
  | .not :: _ => .error .likeAfterNot
  | .is :: .null :: ts => .ok (.apply .equal [subject, .null], ts)
  | .is :: .not :: .null :: ts => .ok (negate (.apply .equal [subject, .null]), ts)
  | .is :: _ => .error .nullAfterIs
  | t :: ts =>
    match t.comparison? with
    | some op => compareWith op subject ts
    | none => .error .comparisonOperator
  | [] => .error .comparisonOperator

def comparison : List Token → Reading
  | .identifier name :: ts => predicate (.get name) ts
  | _ => .error .attributeName

/-- Operands under an operator; a single one stands for itself. -/
def combine (op : Operator) (first : Expression) (others : List Expression) : Expression :=
  if others.isEmpty then first else .apply op (first :: others)

mutual

/-- Conjunctions separated by the word or. The first argument bounds the nesting of calls. -/
def disjunction : Nat → List Token → Reading
  | 0, _ => .error .trailing
  | fuel + 1, ts => do
    let (first, rest) ← conjunction fuel ts
    let (others, rest) ← disjuncts fuel rest
    return (combine .any first others, rest)

def disjuncts : Nat → List Token → Except FilterFault (List Expression × List Token)
  | fuel + 1, .or :: ts => do
    let (e, rest) ← conjunction fuel ts
    let (es, rest) ← disjuncts fuel rest
    return (e :: es, rest)
  | _, ts => .ok ([], ts)

def conjunction : Nat → List Token → Reading
  | 0, _ => .error .trailing
  | fuel + 1, ts => do
    let (first, rest) ← negation fuel ts
    let (others, rest) ← conjuncts fuel rest
    return (combine .all first others, rest)

def conjuncts : Nat → List Token → Except FilterFault (List Expression × List Token)
  | fuel + 1, .and :: ts => do
    let (e, rest) ← negation fuel ts
    let (es, rest) ← conjuncts fuel rest
    return (e :: es, rest)
  | _, ts => .ok ([], ts)

def negation : Nat → List Token → Reading
  | 0, _ => .error .trailing
  | fuel + 1, .not :: ts => negated (negation fuel ts)
  | fuel + 1, .openParen :: ts => do
    match ← disjunction fuel ts with
    | (e, .closeParen :: rest) => return (e, rest)
    | _ => throw .missingClose
  | _ + 1, ts => comparison ts

end

/-- A bound on the nesting of calls that reading some tokens takes. -/
def fuelFor (ts : List Token) : Nat := 4 * ts.length + 4

def ofTokens (ts : List Token) : Except FilterFault Expression := do
  match ← disjunction (fuelFor ts) ts with
  | (e, []) => return e
  | _ => throw .trailing

def parse (text : String) : Except Error Expression :=
  match tokens? text with
  | none => .error (.filter text .unreadable)
  | some ts => (ofTokens ts).mapError (.filter text)

end CartoStyle.Condition
