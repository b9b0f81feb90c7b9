import CartoStyle.Expression.Condition
import CartoStyle.Style.Filter

/-!
Selector lists and what they select. A selector is a star or some conditions
in brackets, all of which must hold; of the selectors in a list one must. A
condition that bounds a scale attribute from one side gives the scale range of
the rule and is no part of the filter. In the other direction the branches of
a disjunction become selectors and the operands of a conjunction become
brackets.
-/

namespace CartoStyle

/-- The scales at which a rule applies, with either bound absent if there is none. -/
structure ScaleRange where
  min : Option Float := none
  max : Option Float := none

def ScaleRange.isEmpty (r : ScaleRange) : Bool := r.min.isNone && r.max.isNone

/-- What the selectors of a rule say about features and scales. -/
structure Selection where
  filter : Option Filter := none
  scale : Option ScaleRange := none

namespace Selector

/-- A character outside brackets, or the content of a pair of brackets. -/
inductive Piece where
  | outside (c : Char)
  | bracket (content : List Char)

/-- A selector cut at its brackets. An opening bracket that is never closed stands for
itself. -/
def pieces : List Char → List Piece
  | [] => []
  | c :: cs =>
    if c = '[' ∧ ']' ∈ cs then
      .bracket (cs.takeWhile (· != ']')) :: pieces (cs.dropWhile (· != ']')).tail
    else .outside c :: pieces cs
termination_by cs => cs.length
decreasing_by
  · have := (List.dropWhile_suffix (· != ']') (l := cs)).length_le
    simp only [List.length_tail, List.length_cons]
    omega
  · simp

def outsideOf (cs : List Char) : List Char :=
  (pieces cs).filterMap fun
    | .outside c => some c
    | .bracket _ => none

def contentsOf (cs : List Char) : List (List Char) :=
  (pieces cs).filterMap fun
    | .outside _ => none
    | .bracket content => some content

/-- The conditions of a selector, without those that are blank. -/
def conditionTexts (selector : String) : List String :=
  ((contentsOf selector.toList).map (Text.dropEnds Text.isBlank)).filterMap fun text =>
    if text.isEmpty then none else some (String.ofList text)

/-- Outside its brackets a selector is blank or a star. -/
def isPlain (selector : String) : Bool :=
  let outside := Text.dropEnds Text.isBlank (outsideOf selector.toList)
  outside.isEmpty || outside == ['*']

/-- The scale range after a condition that bounds a scale attribute from one side; nothing if
the condition is no such bound. -/
def bound? (scaleAttributes : List String) (range : ScaleRange) : Expression → Option ScaleRange
  | .apply op (subject :: value :: _) => do
    let name ← subject.attribute?
    guard (scaleAttributes.contains name)
    let scale ← value.read.asNumber?
    match op with
    | .greater | .greaterOrEqual => some { range with min := some scale }
    | .less | .lessOrEqual => some { range with max := some scale }
    | _ => none
  | _ => none

def sortConditions (scaleAttributes : List String) :
    ScaleRange → List String → Except Error (List Expression × ScaleRange)
  | range, [] => .ok ([], range)
  | range, text :: texts => do
    let e ← Condition.parse text
    match bound? scaleAttributes range e with
    | some range => sortConditions scaleAttributes range texts
    | none =>
      let (es, range) ← sortConditions scaleAttributes range texts
      return (e :: es, range)

def conjunction? : List Expression → Option Expression
  | [] => none
  | [e] => some e
  | es => some (.apply .all es)

def alternatives (scaleAttributes : List String) :
    ScaleRange → List String → Except Error (List (Option Expression) × ScaleRange)
  | range, [] => .ok ([], range)
  | range, selector :: selectors =>
    if isPlain selector then do
      let (es, range) ← sortConditions scaleAttributes range (conditionTexts selector)
      let (others, range) ← alternatives scaleAttributes range selectors
      return (conjunction? es :: others, range)
    else .error (.filter selector .selectorForm)

/-- The filter of some alternatives. One without conditions makes the rule unconditional. -/
def filterOf (alternatives : List (Option Expression)) : Except Error (Option Filter) :=
  let conditions := alternatives.filterMap id
  if conditions.isEmpty || alternatives.any Option.isNone then .ok none
  else some <$> Filter.ofExpression (.apply .any conditions)

end Selector

def Selection.ofSelectors (scaleAttributes selectors : List String) : Except Error Selection := do
  let (alternatives, range) ← Selector.alternatives scaleAttributes {} selectors
  let filter ← Selector.filterOf alternatives
  return { filter, scale := if range.isEmpty then none else some range }

def ScaleRange.brackets (r : ScaleRange) (name : String) : String :=
  let bracket (sign : String) : Option Float → String
    | none => ""
    | some x => "[" ++ name ++ sign ++ Decimal.display x ++ "]"
  bracket " > " r.min ++ bracket " < " r.max

/-- The operands of a combination; another expression is its own only operand. -/
def Expression.branches (op : Operator) (e : Expression) : List Expression :=
  if e.op? = some op then e.args else [e]

def Selector.ofBranch (scaleBrackets : String) (branch : Expression) : Except Error String := do
  let conditions ← (branch.branches .all).mapM Expression.condition
  return String.join (conditions.map fun text => "[" ++ text ++ "]") ++ scaleBrackets

def Selection.selectors (s : Selection) (scaleAttribute : String) : Except Error (List String) :=
  let scaleBrackets := (s.scale.map (·.brackets scaleAttribute)).getD ""
  match s.filter with
  | none => .ok [if scaleBrackets.isEmpty then "*" else scaleBrackets]
  | some filter => (filter.expression.branches .any).mapM (Selector.ofBranch scaleBrackets)

end CartoStyle
