import CartoStyle.Text.Blank

/-!
Words with a fixed set of spellings: the symbols of marks, the kinds of colour
maps, and the kinds of contrast enhancement. Stylesheets name them in any
mixture of cases and with blanks around; documents spell them in one way.
-/

namespace CartoStyle.Style

/-- The value whose spelling is a name, up to case and blanks around it. -/
def findSpelled {α : Type} (spelling : α → String) (values : List α) (name : String) : Option α :=
  values.find? fun v => spelling v == (Text.trim name).toLower

inductive Symbol where
  | circle
  | square
  | triangle
  | star
  | cross
  | x
  | vertline
  | horline
  | slash
  | backslash
  | dot
  | plus
  | times
  | oarrow
  | carrow
deriving DecidableEq, Repr

namespace Symbol

def all : List Symbol :=
  [circle, square, triangle, star, cross, x, vertline, horline, slash, backslash, dot, plus,
    times, oarrow, carrow]

def cssName : Symbol → String
  | circle => "circle"
  | square => "square"
  | triangle => "triangle"
  | star => "star"
  | cross => "cross"
  | x => "x"
  | vertline => "shape://vertline"
  | horline => "shape://horline"
  | slash => "shape://slash"
  | backslash => "shape://backslash"
  | dot => "shape://dot"
  | plus => "shape://plus"
  | times => "shape://times"
  | oarrow => "shape://oarrow"
  | carrow => "shape://carrow"

def documentName : Symbol → String
  | circle => "Circle"
  | square => "Square"
  | triangle => "Triangle"
  | star => "Star"
  | cross => "Cross"
  | x => "X"
  | shape => shape.cssName

def ofCssName? (name : String) : Option Symbol := findSpelled cssName all name

end Symbol

inductive ColorMapKind where
  | ramp
  | intervals
  | values
deriving DecidableEq, Repr

namespace ColorMapKind

def all : List ColorMapKind := [ramp, intervals, values]

def name : ColorMapKind → String
  | ramp => "ramp"
  | intervals => "intervals"
  | values => "values"

def ofName? (text : String) : Option ColorMapKind := findSpelled name all text

end ColorMapKind

inductive Enhancement where
  | normalize
  | histogram
deriving DecidableEq, Repr

namespace Enhancement

def all : List Enhancement := [normalize, histogram]

def name : Enhancement → String
  | normalize => "normalize"
  | histogram => "histogram"

def ofName? (text : String) : Option Enhancement := findSpelled name all text

end Enhancement

end CartoStyle.Style
