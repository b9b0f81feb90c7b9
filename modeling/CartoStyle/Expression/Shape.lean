import CartoStyle.Expression.Basic
import CartoStyle.Text.Escape

/-!
The shape of an expression, written out on one line with every literal and
operator named. Messages show it where an expression has no text of its own.
-/

namespace CartoStyle

/-- Numbers in shapes keep a point, and have an exponent outside the range from a
ten-thousandth to ten to the sixteenth. -/
def shapeNumber : Decimal.Layout := ⟨.up, some (-4, 15), true⟩

def Literal.shape : Literal → String
  | .null => "Null"
  | .bool b => "Bool(" ++ (if b then "true" else "false") ++ ")"
  | .number x => "Number(" ++ shapeNumber.write x ++ ")"
  | .text s => "String(" ++ Text.escape s ++ ")"

def Operator.shape : Operator → String
  | .any => "Any"
  | .all => "All"
  | .not => "Not"
  | .equal => "Eq"
  | .notEqual => "Ne"
  | .greater => "Gt"
  | .greaterOrEqual => "Ge"
  | .less => "Lt"
  | .lessOrEqual => "Le"
  | .like => "Like"
  | .ilike => "ILike"
  | .get => "Get"
  | .hex => "Hex"
  | .symbol => "Symbol"
  | .url => "Url"
  | .array => "Array"
  | .bool => "Bool"
  | .text => "Text"
  | .brace => "Brace"
  | .other name => "Other(" ++ Text.escape name ++ ")"

mutual

def Expression.shape : Expression → String
  | .literal l => "Literal(" ++ l.shape ++ ")"
  | .apply op args =>
    "Tagged \x7b op: " ++ op.shape ++ ", args: [" ++ ", ".intercalate (Expression.shapes args) ++
      "] \x7d"

def Expression.shapes : List Expression → List String
  | [] => []
  | e :: es => e.shape :: Expression.shapes es

end

end CartoStyle
