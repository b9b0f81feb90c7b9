import CartoStyle.Style.Symbol
import CartoStyle.Style.Selector

/-!
Style documents. A style is a list of rules, each with a filter, a range of
scales and the symbolizers that draw the features it selects. Most fields are
optional; an absent field leaves the matter to the renderer. Two symbolizers
are taken for the same when their fields are equal as numbers and texts.
-/

namespace CartoStyle.Style

/-- A point drawn as a symbol. -/
structure Mark where
  symbol : Symbol
  color : Option String := none
  fillOpacity : Option Float := none
  opacity : Option Float := none
  radius : Option Float := none
  rotate : Option Float := none
  strokeColor : Option String := none
  strokeWidth : Option Float := none
  strokeOpacity : Option Float := none
deriving BEq

/-- A point drawn as an image. -/
structure Icon where
  image : Option String := none
  size : Option Float := none
  rotate : Option Float := none
  opacity : Option Float := none
deriving BEq

/-- What a point, a repeated stroke or a repeated fill is drawn with. -/
inductive Graphic where
  | mark (mark : Mark)
  | icon (icon : Icon)
deriving BEq

structure Line where
  color : Option String := none
  width : Option Float := none
  opacity : Option Float := none
  join : Option String := none
  cap : Option String := none
  dasharray : Option (List Float) := none
  dashOffset : Option Float := none
  perpendicularOffset : Option Float := none
  graphicStroke : Option Graphic := none
deriving BEq

/-- A filled area with an outline. -/
structure Fill where
  color : Option String := none
  fillOpacity : Option Float := none
  opacity : Option Float := none
  outlineColor : Option String := none
  outlineWidth : Option Float := none
  outlineOpacity : Option Float := none
  outlineDasharray : Option (List Float) := none
  graphicFill : Option Graphic := none
deriving BEq

structure Label where
  /-- A template in which double braces enclose the names of attributes. -/
  template : Option String := none
  font : Option (List String) := none
  size : Option Float := none
  fontStyle : Option String := none
  fontWeight : Option String := none
  color : Option String := none
  haloWidth : Option Float := none
  haloColor : Option String := none
  haloOpacity : Option Float := none
  offset : Option (Float × Float) := none
  rotate : Option Float := none
deriving BEq

structure ColorMapEntry where
  color : String
  quantity : Option Float := none
  label : Option String := none
  opacity : Option Float := none
deriving BEq

structure ColorMap where
  kind : Option ColorMapKind := none
  entries : Option (List ColorMapEntry) := none
deriving BEq

structure Contrast where
  enhancement : Option Enhancement := none
  gamma : Option Float := none
deriving BEq

def Contrast.isEmpty (c : Contrast) : Bool := c.enhancement.isNone && c.gamma.isNone

structure Channel where
  source : Option String := none
  contrast : Option Contrast := none
deriving BEq

/-- The raster channels that give the colours, or the one that gives the shades. -/
inductive Channels where
  | rgb (red green blue : Channel)
  | gray (gray : Channel)
deriving BEq

structure Raster where
  opacity : Option Float := none
  colorMap : Option ColorMap := none
  channels : Option Channels := none
  contrast : Option Contrast := none
deriving BEq

inductive Symbolizer where
  | mark (mark : Mark)
  | icon (icon : Icon)
  | line (line : Line)
  | fill (fill : Fill)
  | label (label : Label)
  | raster (raster : Raster)
deriving BEq

def Graphic.symbolizer : Graphic → Symbolizer
  | mark m => .mark m
  | icon i => .icon i

/-- What is drawn where. -/
structure Rule where
  name : String
  filter : Option Filter := none
  scale : Option ScaleRange := none
  symbolizers : List Symbolizer

end CartoStyle.Style

namespace CartoStyle

structure Style where
  name : String
  abstract : Option String := none
  rules : List Style.Rule

end CartoStyle
