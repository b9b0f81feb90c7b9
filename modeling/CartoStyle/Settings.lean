/-!
Settings of a conversion: which attributes stand for the scale, how nested
lines are indented, and whether the mode is written.
-/

namespace CartoStyle

structure Settings where
  /-- The attributes that selectors bound to limit the scale. -/
  scaleAttributes : List String := ["@sd", "@scale"]
  /-- The indentation of one level. -/
  indent : String := "  "
  /-- The mode stands at the top of written stylesheets. -/
  emitMode : Bool := true
deriving DecidableEq, Repr

/-- The attribute with which scale ranges are written. -/
def Settings.scaleAttribute (s : Settings) : String := s.scaleAttributes.headD "@sd"

end CartoStyle
