import CartoStyle.KeyMap

/-!
Rows. A property may carry several values, one for each symbolizer of a rule.
The properties of a rule are laid out as rows with one value per key: a single
value stands in every row, the i-th of several in row i, and the value none
leaves the key out. The keys of a row decide which symbolizers it describes.
-/

namespace CartoStyle.Rule

abbrev PropertyMap := KeyMap (List String)

abbrev Row := KeyMap String

/-- Keys whose values form one list for all rows. -/
def listKeys : List String := ["raster-color-map", "font-family"]

def rowCount (properties : PropertyMap) : Nat :=
  let counts := properties.entries.filterMap fun (key, values) =>
    if listKeys.contains key then none else some values.length
  max (counts.foldl max 0) (if properties.isEmpty then 0 else 1)

def valueAt? (row : Nat) (key : String) (values : List String) : Option String :=
  if listKeys.contains key then some (", ".intercalate values)
  else match values with
    | [single] => some single
    | several => several[row]?

def rowAt (properties : PropertyMap) (row : Nat) : Row :=
  properties.filterMap fun key values => (valueAt? row key values).filter (· != "none")

def splitRows (properties : PropertyMap) : List Row :=
  (List.range (rowCount properties)).map (rowAt properties)

/-- The kinds of symbolizers that a row can describe. -/
inductive Kind where
  | point
  | line
  | polygon
  | raster
  | text
deriving DecidableEq, Repr

def geometryKind? (row : Row) : Option Kind :=
  if row.contains "mark" then some .point
  else if row.contains "stroke" && !row.contains "fill" then some .line
  else if row.contains "fill" then some .polygon
  else if row.entries.any fun (key, _) => "raster-".toList.isPrefixOf key.toList then some .raster
  else none

/-- The kinds of symbolizers that a row describes, geometry before text. -/
def kinds (row : Row) : List Kind :=
  (geometryKind? row).toList ++ if row.contains "label" then [.text] else []

end CartoStyle.Rule
