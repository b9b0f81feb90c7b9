import CartoStyle.Error
import CartoStyle.Expression.Shape
import CartoStyle.Text.Quoting

/-!
The written forms of expressions. Filter expressions have a condition text,
the canonical content of a selector bracket; not every expression is one. All
expressions have a value text, the form in which they stand as the value of a
property.
-/

namespace CartoStyle.Expression

/-- The attribute of a test for null, which is an equality with the null literal. -/
def nullTest? : Expression → Option String
  | apply .equal [subject, literal .null] => subject.attribute?
  | _ => none

def operandText? : Value → Option String
  | .text s => some (Text.quote s)
  | .number x => some (Decimal.display x)
  | .bool b => some (if b then "true" else "false")
  | .null => some "null"
  | _ => none

def comparisonText (e : Expression) : Except Error (String × String) :=
  match e.args.head?.bind attribute? with
  | none => .error (.filter e.shape .attribute)
  | some name =>
    match (e.args[1]?).bind (operandText? ·.read) with
    | none => .error (.filter e.shape .comparisonValue)
    | some value => .ok (name, value)

/-- The sign of a comparison in a condition, where a single character stands for equality. -/
def sign : Operator → String
  | .equal => "="
  | op => op.name

/-- Whether an expression needs parentheses as an operand. -/
def isCombination (e : Expression) : Bool := e.op?.any Operator.isCombination

def comparisonCondition (op : Operator) (e : Expression) : Except Error String :=
  match e.nullTest? with
  | some name => .ok (name ++ " is null")
  | none => do
    let (name, value) ← comparisonText e
    return name ++ " " ++ sign op ++ " " ++ value

mutual

def condition : Expression → Except Error String
  | e@(literal _) => .error (.filter e.shape .literalCondition)
  | apply .any args => return " or ".intercalate (← operands args)
  | apply .all args => return " and ".intercalate (← operands args)
  | apply .not [] => .error (.filter "not" .bareNegation)
  | apply .not (inner :: _) =>
    match inner.nullTest? with
    | some name => .ok (name ++ " is not null")
    | none =>
      match inner.op? with
      | some .like | some .ilike => do
        let (name, value) ← comparisonText inner
        return name ++ " not " ++ (inner.op?.map Operator.name).getD "" ++ " " ++ value
      | _ => return "not (" ++ (← inner.condition) ++ ")"
  | e@(apply op _) =>
    if op.isComparison then comparisonCondition op e else .error (.filter op.name .operator)

/-- The condition texts of operands, combinations among them in parentheses. -/
def operands : List Expression → Except Error (List String)
  | [] => .ok []
  | e :: es => do
    let text ← e.condition
    let texts ← operands es
    return (if e.isCombination then "(" ++ text ++ ")" else text) :: texts

end

/-- Operands that are joined by the word and. -/
theorem condition_all (args : List Expression) :
    (apply .all args).condition = (do return " and ".intercalate (← operands args)) := by
  rw [condition]

/-- Operands that are joined by the word or. -/
theorem condition_any (args : List Expression) :
    (apply .any args).condition = (do return " or ".intercalate (← operands args)) := by
  rw [condition]

def literalText : Literal → String
  | .null => "null"
  | .bool b => if b then "true" else "false"
  | .number x => Decimal.display x
  | .text s => if Text.isBareWord s then s else Text.quote s

mutual

def valueText : Expression → String
  | literal l => literalText l
  | apply .hex args | apply .get args => plainFirst args
  | e@(apply .bool _) => if isTrue e.read then "true" else "false"
  | apply .symbol args => "symbol(" ++ Text.quote ((readFirst args).toText?.getD "") ++ ")"
  | apply .url args => "url(" ++ Text.quote ((readFirst args).toText?.getD "") ++ ")"
  | apply .array args | apply .text args => " ".intercalate (valueTexts args)
  | apply .brace args => "[" ++ " ".intercalate (valueTexts args) ++ "]"
  | apply (.other name) args => name ++ "(" ++ ", ".intercalate (valueTexts args) ++ ")"
  | e => e.condition.toOption.getD ""

/-- The value text of the first of some expressions, without quotes around a text. -/
def plainFirst : List Expression → String
  | [] => ""
  | literal (.text s) :: _ => s
  | e :: _ => e.valueText

def valueTexts : List Expression → List String
  | [] => []
  | e :: es => e.valueText :: valueTexts es

end

end CartoStyle.Expression
