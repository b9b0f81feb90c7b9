import CartoStyle.Style.OfSheet
import CartoStyle.Style.Outline

/-!
Conversions between stylesheet texts and style documents, in both directions.
A mode other than the flat one is read as flat and reported by a warning;
writing has nothing to warn of.
-/

namespace CartoStyle

def languageName : String := "geocss"

/-- A result and what was noticed on the way. -/
structure Converted (α : Type) where
  output : α
  warnings : List Warning

def Sheet.Directives.warnings (d : Sheet.Directives) : List Warning :=
  match d.mode with
  | some mode => if mode = "Flat" then [] else [.mode mode]
  | none => []

def readStyle (settings : Settings) (source : String) : Except Error (Converted Style) := do
  let sheet ← Sheet.Stylesheet.parse source
  let style ← Style.ofSheet settings sheet
  return { output := style, warnings := sheet.directives.warnings }

def writeStyle (settings : Settings) (style : Style) : Except Error (Converted String) := do
  let outline ← style.outline settings
  return { output := outline.render settings.indent, warnings := [] }

end CartoStyle
