import CartoStyle.Main
import CartoStyle.Pattern.Longest
import CartoStyle.Proofs.Sheet.Acceptance
import CartoStyle.Proofs.Sheet.Derivation
import CartoStyle.Proofs.Pattern.Matching
import CartoStyle.Proofs.Pattern.PrefixFree
import CartoStyle.Proofs.Lexicon
import CartoStyle.Proofs.Sheet.Comment
import CartoStyle.Proofs.Sheet.Lexeme
import CartoStyle.Proofs.Text.Trimming
import CartoStyle.Proofs.Text.Splitting
import CartoStyle.Proofs.Sheet.Declaration
import CartoStyle.Proofs.Sheet.Annotation
import CartoStyle.Proofs.Sheet.Rendering
import CartoStyle.Proofs.Sheet.Outline
import CartoStyle.Proofs.Decimal.Numeral
import CartoStyle.Proofs.Expression.Lexeme
import CartoStyle.Proofs.Value.Grammar
import CartoStyle.Proofs.Value.Lexeme
import CartoStyle.Proofs.Value.Rendering
import CartoStyle.Proofs.Sheet.Closed
import CartoStyle.Proofs.Value.Closed
import CartoStyle.Proofs.Condition.Grammar
import CartoStyle.Proofs.Condition.Lexeme
import CartoStyle.Proofs.Condition.Rendering
import CartoStyle.Proofs.Style.Filter
import CartoStyle.Proofs.Style.Selector
import CartoStyle.Proofs.Style.Template
import CartoStyle.Proofs.Style.Field
import CartoStyle.Proofs.Style.Entry
import CartoStyle.Proofs.Style.Graphic
import CartoStyle.Proofs.Style.Stroke
import CartoStyle.Proofs.Style.Label
import CartoStyle.Proofs.Decimal.Double
import CartoStyle.Proofs.Style.Channel
import CartoStyle.Proofs.Style.Raster
import CartoStyle.Proofs.Style.Row
import CartoStyle.Proofs.Condition.Derivation
import CartoStyle.Proofs.Style.Truth
import CartoStyle.Proofs.Style.Alternatives
import CartoStyle.Proofs.Style.Path
import CartoStyle.Proofs.Style.Scale
import CartoStyle.Proofs.Rule.Row
import CartoStyle.Proofs.Style.Merging
import CartoStyle.Proofs.Rule.PseudoSelector
import CartoStyle.Proofs.Rule.Records
import CartoStyle.Proofs.Rule.Parts
import CartoStyle.Proofs.Style.PartMerging
import CartoStyle.Proofs.Style.Equality
import CartoStyle.Proofs.Style.Arrangement
import CartoStyle.Proofs.Style.RuleOutline
import CartoStyle.Proofs.Style.RoundTrip
import CartoStyle.Proofs.Style.PlainRows
import CartoStyle.Proofs.Lexicon.Tiling
import CartoStyle.Proofs.Sheet.Tiling
import CartoStyle.Proofs.Sheet.LineEnd
import CartoStyle.Proofs.Sheet.Concatenation
import CartoStyle.Proofs.Rule.Group
import CartoStyle.Proofs.Style.Isolation
import CartoStyle.Proofs.Fault
import CartoStyle.Proofs.Style.Content
import CartoStyle.Proofs.Style.Legible
import CartoStyle.Proofs.Style.LegibleRow
import CartoStyle.Proofs.Style.LegibleMerging
import CartoStyle.Proofs.Style.LegibleFilter
import CartoStyle.Proofs.Style.LegibleStyle
import CartoStyle.Proofs.Style.Rereading
import CartoStyle.Proofs.Style.MarkRows
import CartoStyle.Proofs.Style.WriteFault
import CartoStyle.Proofs.Style.Tests
import CartoStyle.Proofs.Sheet.Path
import CartoStyle.Proofs.Sheet.Numbering
import CartoStyle.Proofs.Rule.Assembly
import CartoStyle.Proofs.Value.Language
import CartoStyle.Proofs.Style.Decoding
import CartoStyle.Proofs.Condition.Unambiguity
import CartoStyle.Proofs.Value.Derivation
import CartoStyle.Proofs.Value.Unambiguity
import CartoStyle.Proofs.Style.Unwrapping
import CartoStyle.Proofs.Style.ConditionFilter
import CartoStyle.Proofs.Condition.Canonical
import CartoStyle.Proofs.Style.RowSplitting
import CartoStyle.Proofs.Rule.SingleValue
import CartoStyle.Proofs.Style.Nesting
import CartoStyle.Proofs.Style.PartSelector
import CartoStyle.Proofs.Style.TemplateCut
import CartoStyle.Proofs.Sheet.Agreement
import CartoStyle.Proofs.Sheet.Listing
import CartoStyle.Proofs.Text.Position
