import CartoStyle.Settings
import CartoStyle.Sheet.Nesting
import CartoStyle.Style.RasterOfRow

/-!
Style documents of stylesheets. Every rule record gives one rule, whose
symbolizers come from its rows in order; of equal symbolizers the first one is
kept.
-/

namespace CartoStyle.Style

def Symbolizer.ofInstance (i : Instance) : CartoStyle.Rule.Kind → Except Error Symbolizer
  | .point => do return (← Graphic.ofInstance i "mark").symbolizer
  | .line => do return .line (← Line.ofInstance i)
  | .polygon => do return .fill (← Fill.ofInstance i)
  | .text => do return .label (← Label.ofInstance i)
  | .raster => do return .raster (← Raster.ofInstance i)

def symbolizersOf (i : Instance) : Except Error (List Symbolizer) :=
  (CartoStyle.Rule.kinds i.row).mapM (Symbolizer.ofInstance i)

/-- The items without those that equal an earlier one. -/
def distinct {α : Type} [BEq α] (items : List α) : List α :=
  items.foldl (fun kept item => if kept.any (· == item) then kept else kept ++ [item]) []

def Rule.ofRecord (settings : Settings) (pseudo : List CartoStyle.Rule.Record)
    (record : CartoStyle.Rule.Record) : Except Error Rule := do
  let selection ← Selection.ofSelectors settings.scaleAttributes record.selectors
  let parts := CartoStyle.Rule.Parts.ofRecords record pseudo
  let symbolizers ← record.rows.zipIdx.mapM fun (row, index) => symbolizersOf { row, parts, index }
  return { name := record.title.getD "", filter := selection.filter, scale := selection.scale,
           symbolizers := distinct symbolizers.flatten }

def ofSheet (settings : Settings) (sheet : Sheet.Stylesheet) : Except Error Style := do
  let records := CartoStyle.Rule.Records.ofSheet sheet
  let rules ← records.rules.mapM (Rule.ofRecord settings records.pseudo)
  return { name := sheet.directives.title.getD "", abstract := sheet.directives.abstract, rules }

end CartoStyle.Style
