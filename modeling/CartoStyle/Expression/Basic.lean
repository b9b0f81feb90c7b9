import CartoStyle.Text.Blank
import CartoStyle.Decimal.Layout
import CartoStyle.Decimal.Numeral

/-!
Expressions. Property values and selector conditions are both read into one
kind of tree: a literal, or an operator applied to arguments. The operator
says how the arguments are meant, as a colour, an attribute, a symbol or a
combination of filters. Reading an expression as a value forgets the
operators that only mark what a text is.
-/

namespace CartoStyle

inductive Literal where
  | null
  | bool (value : Bool)
  | number (value : Float)
  | text (value : String)

inductive Operator where
  | any
  | all
  | not
  | equal
  | notEqual
  | greater
  | greaterOrEqual
  | less
  | lessOrEqual
  | like
  | ilike
  | get
  | hex
  | symbol
  | url
  | array
  | bool
  | text
  | brace
  | other (name : String)
deriving DecidableEq, Repr

namespace Operator

def name : Operator → String
  | any => "any"
  | all => "all"
  | not => "!"
  | equal => "=="
  | notEqual => "!="
  | greater => ">"
  | greaterOrEqual => ">="
  | less => "<"
  | lessOrEqual => "<="
  | like => "like"
  | ilike => "ilike"
  | get => "get"
  | hex => "hex"
  | symbol => "symbol"
  | url => "url"
  | array => "array"
  | bool => "bool"
  | text => "text"
  | brace => "brace"
  | other name => name

def known : List Operator :=
  [any, all, not, equal, notEqual, greater, greaterOrEqual, less, lessOrEqual, like, ilike, get,
    hex, symbol, url, array, bool, text, brace]

/-- The operator of a name. The word not is a second name of the negation. -/
def ofName (name : String) : Operator :=
  if name = "not" then not
  else (known.find? fun op => op.name == name).getD (other name)

def isComparison : Operator → Bool
  | equal | notEqual | greater | greaterOrEqual | less | lessOrEqual | like | ilike => true
  | _ => false

def isCombination : Operator → Bool
  | any | all => true
  | _ => false

def isOther : Operator → Bool
  | other _ => true
  | _ => false

theorem ofName_name {op : Operator} (h : op.isOther = false) : ofName op.name = op := by
  cases op <;> first | decide | cases h

end Operator

/-- A literal, or an operator applied to arguments. -/
inductive Expression where
  | literal (value : Literal)
  | apply (op : Operator) (args : List Expression)

/-- Induction over an expression: what holds of every argument holds of the operator applied to
them. -/
@[elab_as_elim, induction_eliminator]
theorem Expression.induction {motive : Expression → Prop}
    (literal : ∀ value, motive (.literal value))
    (apply : ∀ op args, (∀ e ∈ args, motive e) → motive (.apply op args)) (e : Expression) :
    motive e :=
  @Expression.rec motive (fun es => ∀ e ∈ es, motive e) literal apply nofun
    (fun _ _ he hes => List.forall_mem_cons.mpr ⟨he, hes⟩) e

/-- What is left of an expression when the operators that mark texts are forgotten. -/
inductive Value where
  | null
  | bool (value : Bool)
  | number (value : Float)
  | text (value : String)
  | list (items : List Value)
  | unknown (expression : Expression)

namespace Value

def asText? : Value → Option String
  | text s => some s
  | _ => none

/-- The number of a number, or of a text that is a numeral. -/
def asNumber? : Value → Option Float
  | number x => some x
  | text s => Decimal.read? (Text.trim s)
  | _ => none

def toText? : Value → Option String
  | text s => some s
  | number x => some (Decimal.display x)
  | bool b => some (if b then "true" else "false")
  | _ => none

/-- The items of a list; any other value is its own only item. -/
def toList : Value → List Value
  | list items => items
  | v => [v]

end Value

namespace Expression

def null : Expression := .literal .null

def text (s : String) : Expression := .literal (.text s)

def number (x : Float) : Expression := .literal (.number x)

def hex (colour : String) : Expression := .apply .hex [text colour]

def symbol (name : String) : Expression := .apply .symbol [text name]

def url (target : String) : Expression := .apply .url [text target]

def get (name : String) : Expression := .apply .get [text name]

def truth (b : Bool) : Expression := .apply .bool [text (if b then "true" else "false")]

def array (items : List Expression) : Expression := .apply .array items

def op? : Expression → Option Operator
  | literal _ => none
  | apply op _ => some op

def args : Expression → List Expression
  | literal _ => []
  | apply _ args => args

/-- A truth value, or the text of one; everything else is false. -/
def isTrue : Value → Bool
  | .bool b => b
  | .text s => s == "true"
  | _ => false

mutual

/-- The value of an expression. Operators that are no marks make it unknown. -/
def read : Expression → Value
  | literal .null => .null
  | literal (.bool b) => .bool b
  | literal (.number x) => .number x
  | literal (.text s) => .text s
  | apply .array args => .list (readAll args)
  | apply .get args | apply .hex args | apply .symbol args | apply .url args => readFirst args
  | apply .bool args => .bool (isTrue (readFirst args))
  | e => .unknown e

def readFirst : List Expression → Value
  | [] => .null
  | e :: _ => e.read

def readAll : List Expression → List Value
  | [] => []
  | e :: es => e.read :: readAll es

end

def attribute? : Expression → Option String
  | apply .get (name :: _) => name.read.toText?
  | _ => none

end Expression

end CartoStyle
