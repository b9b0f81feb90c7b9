import CartoStyle.Style.Tree
import CartoStyle.Tree.Yaml.Block
import CartoStyle.Tree.Yaml.Printer

/-!
Files with style documents, in JSON or in YAML. In YAML the names of a style
and of its rules and the abstract are texts however they are spelled, and the
bounds of scales are numbers even if their digits begin with a needless zero.
-/

namespace CartoStyle.Style

inductive Format where
  | json
  | yaml
deriving DecidableEq, Repr

def Format.write (format : Format) (s : Style) : String :=
  match format with
  | .json => Json.write s.tree ++ "\n"
  | .yaml => Yaml.write s.tree

def spellRange (n : Yaml.Node) : Yaml.Node := (n.mapField "min" .numeral).mapField "max" .numeral

def spellRule (n : Yaml.Node) : Yaml.Node :=
  (n.mapField "name" .spelled).mapField "scaleDenominator" spellRange

/-- A YAML document in which the fields that hold texts or numbers do. -/
def spellFields (n : Yaml.Node) : Yaml.Node :=
  ((n.mapField "name" .spelled).mapField "abstract" .spelledUnlessNull).mapField "rules"
    (.mapItems spellRule)

def Format.read? (format : Format) (text : String) : Option Style :=
  match format with
  | .json => (Json.parse? text).bind Style.ofTree?
  | .yaml => (Yaml.parse? text).bind fun n => Style.ofTree? (spellFields n).tree

end CartoStyle.Style
