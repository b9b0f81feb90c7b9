import CartoStyle.Style.Document
import CartoStyle.Tree.Basic

/-!
The tree form of style documents. Every part of a document is a record, with
its absent fields left out; symbolizers carry their kind and filters their
type. Reading accepts every tree in which the required fields are present and
all fields that are present have the right type.
-/

namespace CartoStyle

open CartoStyle.Tree

def Comparator.spelling : Comparator → String
  | equal => "=="
  | notEqual => "!="
  | greater => ">"
  | greaterOrEqual => ">="
  | less => "<"
  | lessOrEqual => "<="
  | like => "*="

def Comparator.all : List Comparator :=
  [equal, notEqual, greater, greaterOrEqual, less, lessOrEqual, like]

namespace FilterValue

def tree : FilterValue → Tree
  | bool b => .bool b
  | number x => .number x
  | text s => .text s

def ofTree? : Tree → Option FilterValue
  | .bool b => some (bool b)
  | .number x => some (number x)
  | .text s => some (text s)
  | _ => none

end FilterValue

namespace Filter

mutual

def tree : Filter → Tree
  | and filters => .object [("type", .text "and"), ("filters", .list (trees filters))]
  | or filters => .object [("type", .text "or"), ("filters", .list (trees filters))]
  | not filter => .object [("type", .text "not"), ("filter", filter.tree)]
  | comparison comparator property value =>
    .object [("type", .text "comparison"), ("operator", .text comparator.spelling),
      ("property", .text property), ("value", value.tree)]
  | isNull property => .object [("type", .text "isNull"), ("property", .text property)]

def trees : List Filter → List Tree
  | [] => []
  | f :: fs => f.tree :: trees fs

end

def comparisonOf? (fs : Fields) : Option Filter := do
  guard (unrepeated ["operator", "property", "value"] fs)
  let comparator ← required (spelled? Comparator.spelling Comparator.all) "operator" fs
  let property ← required text? "property" fs
  let value ← required FilterValue.ofTree? "value" fs
  return comparison comparator property value

def isNullOf? (fs : Fields) : Option Filter := do
  guard (unrepeated ["property"] fs)
  let property ← required text? "property" fs
  return isNull property

mutual

def ofTree? : Tree → Option Filter
  | .object fs =>
    if unrepeated ["type"] fs then
      match (fs.lookup "type").bind text? with
      | some "and" => if unrepeated ["filters"] fs then (filtersIn? fs).map and else none
      | some "or" => if unrepeated ["filters"] fs then (filtersIn? fs).map or else none
      | some "not" => if unrepeated ["filter"] fs then (filterIn? fs).map not else none
      | some "comparison" => comparisonOf? fs
      | some "isNull" => isNullOf? fs
      | _ => none
    else none
  | .list [.text "and", t] => (filtersOf? t).map and
  | .list [.text "or", t] => (filtersOf? t).map or
  | .list [.text "not", t] => (ofTree? t).map not
  | .list [.text "comparison", operator, property, value] =>
    comparisonOf? [("operator", operator), ("property", property), ("value", value)]
  | .list [.text "isNull", property] => isNullOf? [("property", property)]
  | _ => none

def filtersIn? : List (String × Tree) → Option (List Filter)
  | [] => none
  | (name, t) :: fs => if name = "filters" then filtersOf? t else filtersIn? fs

def filterIn? : List (String × Tree) → Option Filter
  | [] => none
  | (name, t) :: fs => if name = "filter" then ofTree? t else filterIn? fs

def filtersOf? : Tree → Option (List Filter)
  | .list items => ofTrees? items
  | _ => none

def ofTrees? : List Tree → Option (List Filter)
  | [] => some []
  | t :: ts => do
    let f ← ofTree? t
    let fs ← ofTrees? ts
    return f :: fs

end

end Filter

namespace ScaleRange

def tree (r : ScaleRange) : Tree :=
  .object (field "min" .number r.min ++ field "max" .number r.max)

def ofTree? (t : Tree) : Option ScaleRange := do
  let fs ← t.fields? ["min", "max"]
  let min ← optional number? "min" fs
  let max ← optional number? "max" fs
  return { min, max }

end ScaleRange

namespace Style

namespace Mark

def fields (m : Mark) : Fields :=
  [("wellKnownName", .text m.symbol.documentName)] ++
  field "color" .text m.color ++
  field "fillOpacity" .number m.fillOpacity ++
  field "opacity" .number m.opacity ++
  field "radius" .number m.radius ++
  field "rotate" .number m.rotate ++
  field "strokeColor" .text m.strokeColor ++
  field "strokeWidth" .number m.strokeWidth ++
  field "strokeOpacity" .number m.strokeOpacity

def ofTree? (t : Tree) : Option Mark := do
  let fs ← t.fields? ["wellKnownName", "color", "fillOpacity", "opacity", "radius", "rotate",
    "strokeColor", "strokeWidth", "strokeOpacity"]
  let symbol ← required (spelled? Symbol.documentName Symbol.all) "wellKnownName" fs
  let color ← optional text? "color" fs
  let fillOpacity ← optional number? "fillOpacity" fs
  let opacity ← optional number? "opacity" fs
  let radius ← optional number? "radius" fs
  let rotate ← optional number? "rotate" fs
  let strokeColor ← optional text? "strokeColor" fs
  let strokeWidth ← optional number? "strokeWidth" fs
  let strokeOpacity ← optional number? "strokeOpacity" fs
  return { symbol, color, fillOpacity, opacity, radius, rotate, strokeColor, strokeWidth,
           strokeOpacity }

end Mark

namespace Icon

def fields (i : Icon) : Fields :=
  field "image" .text i.image ++
  field "size" .number i.size ++
  field "rotate" .number i.rotate ++
  field "opacity" .number i.opacity

def ofTree? (t : Tree) : Option Icon := do
  let fs ← t.fields? ["image", "size", "rotate", "opacity"]
  let image ← optional text? "image" fs
  let size ← optional number? "size" fs
  let rotate ← optional number? "rotate" fs
  let opacity ← optional number? "opacity" fs
  return { image, size, rotate, opacity }

end Icon

def kindTree (kind : String) (fs : Fields) : Tree := .object (("kind", .text kind) :: fs)

namespace Graphic

def tree : Graphic → Tree
  | mark m => kindTree "Mark" m.fields
  | icon i => kindTree "Icon" i.fields

def ofTree? (t : Tree) : Option Graphic := do
  match ← t.tagged? "kind" with
  | ("Mark", t) => (Mark.ofTree? t).map mark
  | ("Icon", t) => (Icon.ofTree? t).map icon
  | _ => none

end Graphic

namespace Line

def fields (l : Line) : Fields :=
  field "color" .text l.color ++
  field "width" .number l.width ++
  field "opacity" .number l.opacity ++
  field "join" .text l.join ++
  field "cap" .text l.cap ++
  field "dasharray" numbers l.dasharray ++
  field "dashOffset" .number l.dashOffset ++
  field "perpendicularOffset" .number l.perpendicularOffset ++
  field "graphicStroke" Graphic.tree l.graphicStroke

def ofTree? (t : Tree) : Option Line := do
  let fs ← t.fields? ["color", "width", "opacity", "join", "cap", "dasharray", "dashOffset",
    "perpendicularOffset", "graphicStroke"]
  let color ← optional text? "color" fs
  let width ← optional number? "width" fs
  let opacity ← optional number? "opacity" fs
  let join ← optional text? "join" fs
  let cap ← optional text? "cap" fs
  let dasharray ← optional (list? number?) "dasharray" fs
  let dashOffset ← optional number? "dashOffset" fs
  let perpendicularOffset ← optional number? "perpendicularOffset" fs
  let graphicStroke ← optional Graphic.ofTree? "graphicStroke" fs
  return { color, width, opacity, join, cap, dasharray, dashOffset, perpendicularOffset,
           graphicStroke }

end Line

namespace Fill

def fields (f : Fill) : Fields :=
  field "color" .text f.color ++
  field "fillOpacity" .number f.fillOpacity ++
  field "opacity" .number f.opacity ++
  field "outlineColor" .text f.outlineColor ++
  field "outlineWidth" .number f.outlineWidth ++
  field "outlineOpacity" .number f.outlineOpacity ++
  field "outlineDasharray" numbers f.outlineDasharray ++
  field "graphicFill" Graphic.tree f.graphicFill

def ofTree? (t : Tree) : Option Fill := do
  let fs ← t.fields? ["color", "fillOpacity", "opacity", "outlineColor", "outlineWidth",
    "outlineOpacity", "outlineDasharray", "graphicFill"]
  let color ← optional text? "color" fs
  let fillOpacity ← optional number? "fillOpacity" fs
  let opacity ← optional number? "opacity" fs
  let outlineColor ← optional text? "outlineColor" fs
  let outlineWidth ← optional number? "outlineWidth" fs
  let outlineOpacity ← optional number? "outlineOpacity" fs
  let outlineDasharray ← optional (list? number?) "outlineDasharray" fs
  let graphicFill ← optional Graphic.ofTree? "graphicFill" fs
  return { color, fillOpacity, opacity, outlineColor, outlineWidth, outlineOpacity,
           outlineDasharray, graphicFill }

end Fill

namespace Label

def pairTree (p : Float × Float) : Tree := numbers [p.1, p.2]

/-- The two numbers of a list of exactly two. -/
def pair? : Tree → Option (Float × Float)
  | .list [.number x, .number y] => some (x, y)
  | _ => none

def fields (l : Label) : Fields :=
  field "label" .text l.template ++
  field "font" texts l.font ++
  field "size" .number l.size ++
  field "fontStyle" .text l.fontStyle ++
  field "fontWeight" .text l.fontWeight ++
  field "color" .text l.color ++
  field "haloWidth" .number l.haloWidth ++
  field "haloColor" .text l.haloColor ++
  field "haloOpacity" .number l.haloOpacity ++
  field "offset" pairTree l.offset ++
  field "rotate" .number l.rotate

def ofTree? (t : Tree) : Option Label := do
  let fs ← t.fields? ["label", "font", "size", "fontStyle", "fontWeight", "color", "haloWidth",
    "haloColor", "haloOpacity", "offset", "rotate"]
  let template ← optional text? "label" fs
  let font ← optional (list? text?) "font" fs
  let size ← optional number? "size" fs
  let fontStyle ← optional text? "fontStyle" fs
  let fontWeight ← optional text? "fontWeight" fs
  let color ← optional text? "color" fs
  let haloWidth ← optional number? "haloWidth" fs
  let haloColor ← optional text? "haloColor" fs
  let haloOpacity ← optional number? "haloOpacity" fs
  let offset ← optional pair? "offset" fs
  let rotate ← optional number? "rotate" fs
  return { template, font, size, fontStyle, fontWeight, color, haloWidth, haloColor,
           haloOpacity, offset, rotate }

end Label

namespace ColorMapEntry

def tree (e : ColorMapEntry) : Tree :=
  .object ([("color", .text e.color)] ++
    field "quantity" .number e.quantity ++
    field "label" .text e.label ++
    field "opacity" .number e.opacity)

def ofTree? (t : Tree) : Option ColorMapEntry := do
  let fs ← t.fields? ["color", "quantity", "label", "opacity"]
  let color ← required text? "color" fs
  let quantity ← optional number? "quantity" fs
  let label ← optional text? "label" fs
  let opacity ← optional number? "opacity" fs
  return { color, quantity, label, opacity }

end ColorMapEntry

namespace ColorMap

def tree (m : ColorMap) : Tree :=
  .object (field "type" (fun k => .text (ColorMapKind.name k)) m.kind ++
    field "colorMapEntries" (fun es => .list (es.map ColorMapEntry.tree)) m.entries)

def ofTree? (t : Tree) : Option ColorMap := do
  let fs ← t.fields? ["type", "colorMapEntries"]
  let kind ← optional (spelled? ColorMapKind.name ColorMapKind.all) "type" fs
  let entries ← optional (list? ColorMapEntry.ofTree?) "colorMapEntries" fs
  return { kind, entries }

end ColorMap

namespace Contrast

def tree (c : Contrast) : Tree :=
  .object (field "enhancementType" (fun e => .text (Enhancement.name e)) c.enhancement ++
    field "gammaValue" .number c.gamma)

def ofTree? (t : Tree) : Option Contrast := do
  let fs ← t.fields? ["enhancementType", "gammaValue"]
  let enhancement ← optional (spelled? Enhancement.name Enhancement.all) "enhancementType" fs
  let gamma ← optional number? "gammaValue" fs
  return { enhancement, gamma }

end Contrast

namespace Channel

def tree (c : Channel) : Tree :=
  .object (field "sourceChannelName" .text c.source ++
    field "contrastEnhancement" Contrast.tree c.contrast)

def ofTree? (t : Tree) : Option Channel := do
  let fs ← t.fields? ["sourceChannelName", "contrastEnhancement"]
  let source ← optional text? "sourceChannelName" fs
  let contrast ← optional Contrast.ofTree? "contrastEnhancement" fs
  return { source, contrast }

end Channel

namespace Channels

def tree : Channels → Tree
  | rgb red green blue =>
    .object [("redChannel", red.tree), ("greenChannel", green.tree), ("blueChannel", blue.tree)]
  | gray shade => .object [("grayChannel", shade.tree)]

def rgb? (fs : Fields) : Option Channels := do
  guard (unrepeated ["redChannel", "greenChannel", "blueChannel"] fs)
  let red ← required Channel.ofTree? "redChannel" fs
  let green ← required Channel.ofTree? "greenChannel" fs
  let blue ← required Channel.ofTree? "blueChannel" fs
  return rgb red green blue

def gray? (fs : Fields) : Option Channels := do
  guard (unrepeated ["grayChannel"] fs)
  let shade ← required Channel.ofTree? "grayChannel" fs
  return gray shade

/-- The channels of a tree: the three colours if they are all there, and else the gray one. -/
def ofTree? : Tree → Option Channels
  | .object fs => (rgb? fs).orElse fun _ => gray? fs
  | _ => none

end Channels

namespace Raster

def fields (r : Raster) : Fields :=
  field "opacity" .number r.opacity ++
  field "colorMap" ColorMap.tree r.colorMap ++
  field "channelSelection" Channels.tree r.channels ++
  field "contrastEnhancement" Contrast.tree r.contrast

def ofTree? (t : Tree) : Option Raster := do
  let fs ← t.fields? ["opacity", "colorMap", "channelSelection", "contrastEnhancement"]
  let opacity ← optional number? "opacity" fs
  let colorMap ← optional ColorMap.ofTree? "colorMap" fs
  let channels ← optional Channels.ofTree? "channelSelection" fs
  let contrast ← optional Contrast.ofTree? "contrastEnhancement" fs
  return { opacity, colorMap, channels, contrast }

end Raster

namespace Symbolizer

def tree : Symbolizer → Tree
  | mark m => kindTree "Mark" m.fields
  | icon i => kindTree "Icon" i.fields
  | line l => kindTree "Line" l.fields
  | fill f => kindTree "Fill" f.fields
  | label l => kindTree "Text" l.fields
  | raster r => kindTree "Raster" r.fields

def ofTree? (t : Tree) : Option Symbolizer := do
  match ← t.tagged? "kind" with
  | ("Mark", t) => (Mark.ofTree? t).map mark
  | ("Icon", t) => (Icon.ofTree? t).map icon
  | ("Line", t) => (Line.ofTree? t).map line
  | ("Fill", t) => (Fill.ofTree? t).map fill
  | ("Text", t) => (Label.ofTree? t).map label
  | ("Raster", t) => (Raster.ofTree? t).map raster
  | _ => none

end Symbolizer

namespace Rule

def tree (r : Rule) : Tree :=
  .object ([("name", .text r.name)] ++
    field "filter" Filter.tree r.filter ++
    field "scaleDenominator" ScaleRange.tree r.scale ++
    [("symbolizers", .list (r.symbolizers.map Symbolizer.tree))])

def ofTree? (t : Tree) : Option Rule := do
  let fs ← t.fields? ["name", "filter", "scaleDenominator", "symbolizers"]
  let name ← required text? "name" fs
  let filter ← optional Filter.ofTree? "filter" fs
  let scale ← optional ScaleRange.ofTree? "scaleDenominator" fs
  let symbolizers ← required (list? Symbolizer.ofTree?) "symbolizers" fs
  return { name, filter, scale, symbolizers }

end Rule

def tree (s : Style) : Tree :=
  .object ([("name", .text s.name)] ++
    field "abstract" .text s.abstract ++
    [("rules", .list (s.rules.map Rule.tree))])

def ofTree? (t : Tree) : Option Style := do
  let fs ← t.fields? ["name", "abstract", "rules"]
  let name ← required text? "name" fs
  let abstract ← optional text? "abstract" fs
  let rules ← required (list? Rule.ofTree?) "rules" fs
  return { name, abstract, rules }

end Style

end CartoStyle
