import CartoStyle.Text.Position
import CartoStyle.Text.Escape

/-!
Errors and warnings. An error ends a conversion and names its cause; the
wording of every cause is given here, in one place. A warning is collected
beside the result.
-/

namespace CartoStyle

inductive SheetFault where
  | strayClose
  | missingSelector
  | strayProperty (key : String)
  | missingOpen
  | missingBlock
  | unclosedBlock
  | nestedDirective
deriving DecidableEq, Repr

inductive FilterFault where
  | unreadable
  | trailing
  | missingClose
  | attributeName
  | likeAfterNot
  | nullAfterIs
  | comparisonOperator
  | value
  | literalCondition
  | bareNegation
  | attribute
  | comparisonValue
  | operator
  | literalFilter
  | emptyCombination
  | comparisonAttribute
  | selectorForm
deriving DecidableEq, Repr

inductive ValueFault where
  | unreadable
  | trailing
  | empty
  | punctuation
  | emptyArgument
  | unclosedCall
  | number
  | numbers
  | text
  | missingGraphic
  | graphic
  | enhancement
  | colorMapType
  | colorMapEntry
  | colour
  | quantity
  | entryOpacity
deriving DecidableEq, Repr

inductive Error where
  /-- No kind of token starts here. -/
  | lexical (place : Position) (fragment : String)
  /-- The tokens do not nest. -/
  | nesting (place : Position) (fault : SheetFault)
  /-- A mark has a symbol outside the known ones. -/
  | symbol (name : String)
  /-- A property has a number of values that its target cannot take. -/
  | arity (property expected : String) (found : Nat)
  /-- A selector condition is no filter. -/
  | filter (subject : String) (fault : FilterFault)
  /-- A property value is not of the expected kind. -/
  | value (property text : String) (fault : ValueFault)
  /-- A byte offset lies inside a character. -/
  | offset (byte : Nat)
deriving DecidableEq, Repr

def SheetFault.message : SheetFault → String
  | .strayClose => "closing brace without matching '\x7b'"
  | .missingSelector => "block without selector"
  | .strayProperty key => "property '" ++ key ++ "' outside of any block"
  | .missingOpen => "expected '\x7b' after selector"
  | .missingBlock => "selector without block"
  | .unclosedBlock => "unclosed block, missing '\x7d'"
  | .nestedDirective => "directive inside a block"

def FilterFault.message : FilterFault → String
  | .unreadable => "unrecognized condition syntax"
  | .trailing => "unexpected trailing input"
  | .missingClose => "missing ')'"
  | .attributeName => "expected an attribute name"
  | .likeAfterNot => "expected 'like' after 'not'"
  | .nullAfterIs => "expected 'null' after 'is'"
  | .comparisonOperator => "expected a comparison operator"
  | .value => "expected a value"
  | .literalCondition => "a condition must be an operator expression"
  | .bareNegation => "negation without operand"
  | .attribute => "missing attribute"
  | .comparisonValue => "unsupported comparison value"
  | .operator => "not a filter operator"
  | .literalFilter => "a literal is not a filter"
  | .emptyCombination => "empty combination"
  | .comparisonAttribute => "comparison without attribute"
  | .selectorForm => "only '*' and bracketed conditions are supported"

def ValueFault.message : ValueFault → String
  | .unreadable => "unrecognized value syntax"
  | .trailing => "unexpected trailing input"
  | .empty => "empty value"
  | .punctuation => "unexpected punctuation"
  | .emptyArgument => "empty function argument"
  | .unclosedCall => "unclosed function call"
  | .number => "expected a number"
  | .numbers => "expected numbers"
  | .text => "expected a single value"
  | .missingGraphic => "missing graphic"
  | .graphic => "expected symbol(...) or url(...)"
  | .enhancement => "expected normalize or histogram"
  | .colorMapType => "expected ramp, intervals or values"
  | .colorMapEntry => "expected color-map-entry(...)"
  | .colour => "expected a colour"
  | .quantity => "expected a numeric quantity"
  | .entryOpacity => "expected a numeric opacity"

def Error.message : Error → String
  | .lexical place fragment =>
    s!"unrecognized input at line {place.line}, column {place.column}: " ++ Text.escape fragment
  | .nesting place fault =>
    s!"structural error at line {place.line}, column {place.column}: " ++ fault.message
  | .symbol name => "unsupported mark symbol: " ++ Text.escape name
  | .arity property expected found =>
    s!"property '{property}' expects {expected} value(s), found {found}"
  | .filter subject fault =>
    "invalid filter in selector " ++ Text.escape subject ++ ": " ++ fault.message
  | .value property text fault =>
    "invalid value " ++ Text.escape text ++ " for property '" ++ property ++ "': " ++ fault.message
  | .offset byte => s!"byte offset {byte} is inside a character"

/-- Conditions reported beside a result. -/
inductive Warning where
  /-- The stylesheet names a mode other than the flat one. -/
  | mode (name : String)
deriving DecidableEq, Repr

def Warning.message : Warning → String
  | .mode name =>
    "only 'Flat' mode is supported, '" ++ name ++ "' will be translated as flat GeoCSS"

/-- The position of a byte offset, or the error that it has none. -/
def Position.ofOffset (source : String) (offset : Nat) : Except Error Position :=
  match Position.at? source offset with
  | some place => .ok place
  | none => .error (.offset offset)

end CartoStyle
