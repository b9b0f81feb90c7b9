import CartoStyle.Expression.Written

/-!
Filters of a style document, and their relation to expressions. A filter
combines tests of attributes. Every filter has an expression; an expression
has a filter if its operators combine, negate or compare, no combination is
empty, and null is only compared for equality. A combination of one operand
becomes that operand.
-/

namespace CartoStyle

inductive Comparator where
  | equal
  | notEqual
  | greater
  | greaterOrEqual
  | less
  | lessOrEqual
  /-- A match against a pattern, in whatever case. -/
  | like
deriving DecidableEq, Repr

inductive FilterValue where
  | bool (value : Bool)
  | number (value : Float)
  | text (value : String)

inductive Filter where
  | and (filters : List Filter)
  | or (filters : List Filter)
  | not (filter : Filter)
  | comparison (comparator : Comparator) (property : String) (value : FilterValue)
  | isNull (property : String)

def Comparator.operator : Comparator → Operator
  | equal => .equal
  | notEqual => .notEqual
  | greater => .greater
  | greaterOrEqual => .greaterOrEqual
  | less => .less
  | lessOrEqual => .lessOrEqual
  | like => .like

/-- The comparison of an operator. Both kinds of pattern match are one. -/
def Comparator.ofOperator? : Operator → Option Comparator
  | .equal => some equal
  | .notEqual => some notEqual
  | .greater => some greater
  | .greaterOrEqual => some greaterOrEqual
  | .less => some less
  | .lessOrEqual => some lessOrEqual
  | .like | .ilike => some like
  | _ => none

def FilterValue.expression : FilterValue → Expression
  | bool b => .literal (.bool b)
  | number x => .number x
  | text s => .text s

def FilterValue.ofValue? : Value → Option FilterValue
  | .bool b => some (bool b)
  | .number x => some (number x)
  | .text s => some (text s)
  | _ => none

namespace Filter

mutual

def expression : Filter → Expression
  | and filters => .apply .all (expressions filters)
  | or filters => .apply .any (expressions filters)
  | not filter => .apply .not [filter.expression]
  | comparison comparator property value =>
    .apply comparator.operator [.get property, value.expression]
  | isNull property => .apply .equal [.get property, .null]

def expressions : List Filter → List Expression
  | [] => []
  | f :: fs => f.expression :: expressions fs

end

/-- The error that an expression is no filter, which quotes its text. -/
def invalid {α : Type} (e : Expression) (fault : FilterFault) : Except Error α :=
  .error (.filter e.valueText fault)

def ofComparison (e : Expression) (op : Operator) (comparator : Comparator)
    (args : List Expression) : Except Error Filter :=
  match args.head?.bind Expression.attribute? with
  | none => invalid e .comparisonAttribute
  | some property =>
    match op, args[1]?.map Expression.read with
    | .equal, some .null => .ok (isNull property)
    | _, value =>
      match value.bind FilterValue.ofValue? with
      | some value => .ok (comparison comparator property value)
      | none => invalid e .comparisonValue

/-- The combination of some filters; one alone stands for itself. -/
def combine (e : Expression) (join : List Filter → Filter) : List Filter → Except Error Filter
  | [] => invalid e .emptyCombination
  | [f] => .ok f
  | fs => .ok (join fs)

mutual

def ofExpression : Expression → Except Error Filter
  | e@(.literal _) => invalid e .literalFilter
  | e@(.apply .any args) => do combine e or (← ofExpressions args)
  | e@(.apply .all args) => do combine e and (← ofExpressions args)
  | e@(.apply .not []) => invalid e .bareNegation
  | .apply .not (inner :: _) => return not (← ofExpression inner)
  | e@(.apply op args) =>
    match Comparator.ofOperator? op with
    | some comparator => ofComparison e op comparator args
    | none => invalid e .operator

def ofExpressions : List Expression → Except Error (List Filter)
  | [] => .ok []
  | e :: es => do
    let f ← ofExpression e
    let fs ← ofExpressions es
    return f :: fs

end

end Filter

end CartoStyle
