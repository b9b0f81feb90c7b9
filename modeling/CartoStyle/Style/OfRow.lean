import CartoStyle.Expression.PropertyValue
import CartoStyle.Rule.Parts
import CartoStyle.Text.Split
import CartoStyle.Style.Document

/-!
Symbolizers of rows. Each kind of symbolizer takes its fields from properties
of the row, and points also from the parts of the rule. A property that is
absent leaves its field absent; one that is there must have a value of the
right kind. Of several faults the first one in the order of the fields counts.
-/

namespace CartoStyle.Style

/-- The row of one symbolizer, its index in the rule, and the parts of the rule. -/
structure Instance where
  row : CartoStyle.Rule.Row
  parts : CartoStyle.Rule.Parts
  index : Nat

def expressionOf (key : String) : Option String → Except Error (Option Expression)
  | none => .ok none
  | some text => some <$> PropertyValue.parse key text

def valueOf {α : Type} (fault : ValueFault) (find : Value → Option α) (key : String) :
    Option String → Except Error (Option α)
  | none => .ok none
  | some text => do
    match find (← PropertyValue.parse key text).read with
    | some found => return some found
    | none => throw (.value key text fault)

def numberOf : String → Option String → Except Error (Option Float) :=
  valueOf .number Value.asNumber?

def numbersOf : String → Option String → Except Error (Option (List Float)) :=
  valueOf .numbers fun v => v.toList.mapM Value.asNumber?

def textOf : String → Option String → Except Error (Option String) :=
  valueOf .text Value.toText?

namespace Instance

def raw? (i : Instance) (key : String) : Option String := i.row.get? key

def part? (i : Instance) (part key : String) : Option String := i.parts.value? part i.index key

def expression (i : Instance) (key : String) : Except Error (Option Expression) :=
  expressionOf key (i.raw? key)

def number (i : Instance) (key : String) : Except Error (Option Float) := numberOf key (i.raw? key)

def numbers (i : Instance) (key : String) : Except Error (Option (List Float)) :=
  numbersOf key (i.raw? key)

def text (i : Instance) (key : String) : Except Error (Option String) := textOf key (i.raw? key)

def partNumber (i : Instance) (part key : String) : Except Error (Option Float) :=
  numberOf key (i.part? part key)

end Instance

/-- The colour of an expression that is one: a hexadecimal form or a name. -/
def colorOf? (e : Expression) : Option String :=
  match e with
  | .apply .hex _ | .literal (.text _) => e.read.toText?
  | _ => none

def color? (e : Option Expression) : Option String := e.bind colorOf?

def isGraphic (e : Expression) : Bool := e.op? == some .symbol || e.op? == some .url

def orElse {α : Type} (first second : Except Error (Option α)) : Except Error (Option α) := do
  match ← first with
  | some v => return some v
  | none => second

/-- The opacity of a graphic, which only points have as a property of their own. -/
def graphicOpacity (i : Instance) (key : String) : Except Error (Option Float) :=
  orElse (i.partNumber key "opacity") (if key = "mark" then i.number "mark-opacity" else .ok none)

def Graphic.ofInstance (i : Instance) (key : String) : Except Error Graphic := do
  let some graphic ← i.expression key | throw (.value key "" .missingGraphic)
  let size ← orElse (i.partNumber key "size") (i.number (key ++ "-size"))
  let rotate ← orElse (i.partNumber key "rotation") (i.number (key ++ "-rotation"))
  let opacity ← graphicOpacity i key
  if graphic.op? = some .url then
    return .icon { image := graphic.read.toText?, size, rotate, opacity }
  let .text name := graphic.read | throw (.value key graphic.valueText .graphic)
  let some symbol := Symbol.ofCssName? name | throw (.symbol name)
  let color ← color? <$> expressionOf "fill" (i.part? key "fill")
  let fillOpacity ← i.partNumber key "fill-opacity"
  let strokeColor ← color? <$> expressionOf "stroke" (i.part? key "stroke")
  let strokeWidth ← i.partNumber key "stroke-width"
  let strokeOpacity ← i.partNumber key "stroke-opacity"
  return .mark { symbol, color, fillOpacity, opacity, radius := size.map (· / 2.0), rotate,
                 strokeColor, strokeWidth, strokeOpacity }

def graphicIf (i : Instance) (key : String) (e : Option Expression) :
    Except Error (Option Graphic) :=
  if e.any isGraphic then some <$> Graphic.ofInstance i key else .ok none

def Line.ofInstance (i : Instance) : Except Error Line := do
  let stroke ← i.expression "stroke"
  let graphicStroke ← graphicIf i "stroke" stroke
  let width ← i.number "stroke-width"
  let opacity ← i.number "stroke-opacity"
  let join ← i.text "stroke-linejoin"
  let cap ← i.text "stroke-linecap"
  let dasharray ← i.numbers "stroke-dasharray"
  let dashOffset ← i.number "stroke-dashoffset"
  let perpendicularOffset ← i.number "stroke-offset"
  return { color := color? stroke, width, opacity, join, cap, dasharray, dashOffset,
           perpendicularOffset, graphicStroke }

/-- The colour of a fill; a transparent one has none. -/
def fillColor? (e : Option Expression) : Option String := (color? e).filter (· != "transparent")

/-- The fill of a row. Without a colour and a graphic it is fully transparent. -/
def Fill.ofInstance (i : Instance) : Except Error Fill := do
  let fill ← i.expression "fill"
  let graphicFill ← graphicIf i "fill" fill
  let fillOpacity ← i.number "fill-opacity"
  let outlineColor ← color? <$> i.expression "stroke"
  let outlineWidth ← i.number "stroke-width"
  let outlineOpacity ← i.number "stroke-opacity"
  let outlineDasharray ← i.numbers "stroke-dasharray"
  let color := fillColor? fill
  let opacity := if color.isNone && graphicFill.isNone then some 0.0 else none
  return { color, fillOpacity, opacity, outlineColor, outlineWidth, outlineOpacity,
           outlineDasharray, graphicFill }

mutual

/-- The template of a label expression: references become names in double braces. -/
def template : Expression → String
  | .apply .get args => "\x7b\x7b" ++ ((Expression.readFirst args).toText?.getD "") ++ "\x7d\x7d"
  | .apply .text args | .apply .brace args => String.join (templates args)
  | .apply .array args => " ".intercalate (templates args)
  | e => e.read.toText?.getD e.valueText

def templates : List Expression → List String
  | [] => []
  | e :: es => template e :: templates es

end

def fontsOf (families : String) : Except Error (List String) := do
  let fonts ← (Text.splitTopLevel ',' families).mapM fun family =>
    textOf "font-family" (some (Text.trim family))
  return fonts.filterMap id

def offsetOf : Option (List Float) → Except Error (Option (Float × Float))
  | none => .ok none
  | some [x, y] => .ok (some (x, y))
  | some xs => .error (.arity "label-offset" "2" xs.length)

def Label.ofInstance (i : Instance) : Except Error Label := do
  let label ← i.expression "label"
  let font ← (i.raw? "font-family").mapM fontsOf
  let size ← i.number "font-size"
  let fontStyle ← i.text "font-style"
  let fontWeight ← i.text "font-weight"
  let color ← color? <$> i.expression "font-fill"
  let haloWidth ← i.number "halo-radius"
  let haloColor ← color? <$> i.expression "halo-color"
  let haloOpacity ← i.number "halo-opacity"
  let rotate ← i.number "label-rotation"
  let offset ← offsetOf (← i.numbers "label-offset")
  return { template := label.map Style.template, font, size, fontStyle, fontWeight, color,
           haloWidth, haloColor, haloOpacity, offset, rotate }

end CartoStyle.Style
