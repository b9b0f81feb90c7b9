import CartoStyle.Settings
import CartoStyle.Sheet.Outline
import CartoStyle.Rule.Row
import CartoStyle.Style.Document
import CartoStyle.Style.Template

/-!
Outlines of style documents. Every geometry symbolizer of a rule opens a row,
and a label shares the row of the geometry in front of it. The rows are merged
into one property list: a value that all rows share is written once, otherwise
every row has its own and the word none stands for an absent one. Fields of
marks go to blocks for the parts, in which a row without a value takes that of
the first row with one.
-/

namespace CartoStyle.Style

/-- What a row says: properties, and properties of parts. -/
structure Entry where
  properties : List (String × String) := []
  /-- A part, a key and a value. -/
  parts : List (String × String × String) := []

def Entry.append (a b : Entry) : Entry := ⟨a.properties ++ b.properties, a.parts ++ b.parts⟩

/-- A property that is left out if its value is absent. -/
def property (key : String) (value : Option String) : List (String × String) :=
  (value.map (key, ·)).toList

def partProperty (part key : String) (value : Option String) : List (String × String × String) :=
  (value.map (part, key, ·)).toList

def numberText (x : Option Float) : Option String := x.map Decimal.display

def numbersText (xs : Option (List Float)) : Option String :=
  xs.map fun xs => (Expression.array (xs.map .number)).valueText

/-- The expression of a colour: hexadecimal forms keep their sign, names are words. -/
def colorExpression (color : String) : Expression :=
  if color.toList.head? = some '#' then .hex color else .text color

def colorText (color : Option String) : Option String :=
  color.map fun color => (colorExpression color).valueText

def wordText (text : Option String) : Option String :=
  text.map fun text => (Expression.text text).valueText

def Mark.entry (key : String) (m : Mark) : Entry where
  properties :=
    property key (some (Expression.symbol m.symbol.cssName).valueText) ++
    property (key ++ "-size") (numberText (m.radius.map (· * 2.0))) ++
    property (key ++ "-rotation") (numberText m.rotate) ++
    if key = "mark" then property "mark-opacity" (numberText m.opacity) else []
  parts :=
    partProperty key "fill" (colorText m.color) ++
    partProperty key "fill-opacity" (numberText m.fillOpacity) ++
    partProperty key "stroke" (colorText m.strokeColor) ++
    partProperty key "stroke-width" (numberText m.strokeWidth) ++
    partProperty key "stroke-opacity" (numberText m.strokeOpacity) ++
    if key = "mark" then [] else partProperty key "opacity" (numberText m.opacity)

def Icon.entry (key : String) (i : Icon) : Entry where
  properties :=
    property key (some (Expression.url (i.image.getD "")).valueText) ++
    property (key ++ "-size") (numberText i.size) ++
    property (key ++ "-rotation") (numberText i.rotate) ++
    if key = "mark" then property "mark-opacity" (numberText i.opacity) else []
  parts := if key = "mark" then [] else partProperty key "opacity" (numberText i.opacity)

def Graphic.entry (key : String) : Graphic → Entry
  | mark m => m.entry key
  | icon i => i.entry key

def Line.entry (l : Line) : Entry :=
  let stroke : Entry := match l.graphicStroke with
    | some graphic => graphic.entry "stroke"
    | none => { properties := property "stroke" (colorText l.color) }
  let others :=
    property "stroke-width" (numberText l.width) ++
    property "stroke-opacity" (numberText l.opacity) ++
    property "stroke-linejoin" (wordText l.join) ++
    property "stroke-linecap" (wordText l.cap) ++
    property "stroke-dasharray" (numbersText l.dasharray) ++
    property "stroke-dashoffset" (numberText l.dashOffset) ++
    property "stroke-offset" (numberText l.perpendicularOffset)
  stroke.append { properties := others }

def Fill.entry (f : Fill) : Entry :=
  let fill : Entry := match f.graphicFill with
    | some graphic => graphic.entry "fill"
    | none => { properties := property "fill" (some ((colorText f.color).getD "transparent")) }
  let others :=
    property "fill-opacity" (numberText f.fillOpacity) ++
    property "stroke" (colorText f.outlineColor) ++
    property "stroke-width" (numberText f.outlineWidth) ++
    property "stroke-opacity" (numberText f.outlineOpacity) ++
    property "stroke-dasharray" (numbersText f.outlineDasharray)
  fill.append { properties := others }

def fontText (fonts : List String) : String :=
  ", ".intercalate (fonts.map fun font => (Expression.text font).valueText)

def offsetText (p : Float × Float) : String := Decimal.display p.1 ++ " " ++ Decimal.display p.2

def Label.entry (l : Label) : Entry where
  properties :=
    property "label" (l.template.map fun t => (Template.expression t).valueText) ++
    property "font-family" (l.font.map fontText) ++
    property "font-size" (numberText l.size) ++
    property "font-style" (wordText l.fontStyle) ++
    property "font-weight" (wordText l.fontWeight) ++
    property "font-fill" (colorText l.color) ++
    property "halo-radius" (numberText l.haloWidth) ++
    property "halo-color" (colorText l.haloColor) ++
    property "halo-opacity" (numberText l.haloOpacity) ++
    property "label-offset" (l.offset.map offsetText) ++
    property "label-rotation" (numberText l.rotate)

def ColorMapEntry.expression (e : ColorMapEntry) : Expression :=
  let label := if e.label.isSome || e.opacity.isSome then [e.label.getD ""] else []
  .apply (.other "color-map-entry")
    ([colorExpression e.color, .number (e.quantity.getD 0.0)] ++ label.map .text ++
      (e.opacity.map Expression.number).toList)

def entriesText (entries : List ColorMapEntry) : String :=
  ", ".intercalate (entries.map fun e => e.expression.valueText)

/-- The expression of the name of a channel, a number where it is the text of one. -/
def channelExpression (c : Channel) : Expression :=
  let name := c.source.getD ""
  match Decimal.read? name with
  | some x => if Decimal.display x = name then .number x else .text name
  | none => .text name

/-- The value text of a contrast property that channels may have: one value if all agree and
one for each otherwise. It cannot be written if only some channels have it. -/
def contrastText {α : Type} [BEq α] (key : String) (write : α → String)
    (values : List (Option α)) : Except Error (Option String) :=
  let present := values.filterMap id
  match present with
  | [] => .ok none
  | first :: _ =>
    if present.length ≠ values.length then
      .error (.arity key (toString values.length) present.length)
    else if present.all (· == first) then .ok (some (write first))
    else .ok (some (" ".intercalate (present.map write)))

def Raster.contrasts (r : Raster) : List (Option Contrast) :=
  match r.channels with
  | some (.rgb red green blue) => [red.contrast, green.contrast, blue.contrast]
  | some (.gray gray) => [gray.contrast]
  | none => [r.contrast]

def Raster.channelsExpression (r : Raster) : Expression :=
  match r.channels with
  | some (.rgb red green blue) => .array ([red, green, blue].map channelExpression)
  | some (.gray gray) => channelExpression gray
  | none => .text "auto"

def Raster.entry (r : Raster) : Except Error Entry := do
  let enhancement ← contrastText "raster-contrast-enhancement" Enhancement.name
    (r.contrasts.map fun c => c.bind (·.enhancement))
  let gamma ← contrastText "raster-gamma" Decimal.display
    (r.contrasts.map fun c => c.bind (·.gamma))
  let properties :=
    property "raster-opacity" (numberText r.opacity) ++
    property "raster-channels" (some r.channelsExpression.valueText) ++
    property "raster-color-map" ((r.colorMap.bind (·.entries)).map entriesText) ++
    property "raster-color-map-type" ((r.colorMap.bind (·.kind)).map ColorMapKind.name) ++
    property "raster-contrast-enhancement" enhancement ++
    property "raster-gamma" gamma
  return { properties }

def Symbolizer.entry : Symbolizer → Except Error Entry
  | mark m => .ok (m.entry "mark")
  | icon i => .ok (i.entry "mark")
  | line l => .ok l.entry
  | fill f => .ok f.entry
  | label l => .ok l.entry
  | raster r => r.entry

/-- The symbolizers of each row: a label shares the row of the geometry in front of it. -/
def layOut : List Symbolizer → List (List Symbolizer)
  | [] => []
  | .label l :: later => [.label l] :: layOut later
  | geometry :: .label l :: later => [geometry, .label l] :: layOut later
  | geometry :: later => [geometry] :: layOut later

def rowEntry (row : List Symbolizer) : Except Error Entry := do
  return (← row.mapM Symbolizer.entry).foldl Entry.append {}

/-- The values of a key over all rows: one if all rows share it, and else one for each row. -/
def collapse (values : List (Option String)) : List String :=
  match values with
  | some first :: _ =>
    if values.all (· == some first) then [first] else values.map (·.getD "none")
  | _ => values.map (·.getD "none")

/-- Absent values replaced by the first one that is present. -/
def backfill (values : List (Option String)) : List (Option String) :=
  let first := values.findSome? id
  values.map (·.or first)

def Entry.partValue? (e : Entry) (part key : String) : Option String :=
  e.parts.findSome? fun (p, k, v) => if p = part ∧ k = key then some v else none

def mergeValues (rows : List Entry) (key : String) : List String :=
  let values := rows.map (·.properties.lookup key)
  if CartoStyle.Rule.listKeys.contains key then (values.filterMap id).take 1 else collapse values

/-- The properties of all rows, in the order in which they first occur. -/
def mergeProperties (rows : List Entry) : Sheet.PropertyList :=
  (rows.flatMap fun row => row.properties.map (·.1)).eraseDups.map fun key =>
    (key, mergeValues rows key)

def mergePart (rows : List Entry) (part : String) : Sheet.OutlinePart where
  part := part
  properties :=
    let used := (rows.flatMap Entry.parts).filter (·.1 == part)
    (used.map (·.2.1)).eraseDups.map fun key =>
      (key, collapse (backfill (rows.map (·.partValue? part key))))

def mergeParts (rows : List Entry) : List Sheet.OutlinePart :=
  (rows.flatMap fun row => row.parts.map (·.1)).eraseDups.map (mergePart rows)

def Rule.outline (scaleAttribute : String) (r : Rule) (group : Nat) :
    Except Error Sheet.OutlineRule := do
  let selectors ← Selection.selectors { filter := r.filter, scale := r.scale } scaleAttribute
  let rows ← (layOut r.symbolizers).mapM rowEntry
  return { selectors, title := if r.name.isEmpty then none else some r.name,
           properties := mergeProperties rows, parts := mergeParts rows, group }

def outline (settings : Settings) (s : Style) : Except Error Sheet.Outline := do
  let rules ← s.rules.zipIdx.mapM fun (rule, group) => rule.outline settings.scaleAttribute group
  return { mode := if settings.emitMode then some "Flat" else none
           title := if s.name.isEmpty then none else some s.name
           abstract := s.abstract
           rules }

end CartoStyle.Style
