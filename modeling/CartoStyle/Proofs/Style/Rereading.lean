import CartoStyle.Proofs.Style.LegibleStyle
import CartoStyle.Proofs.Tree.Json
import CartoStyle.Style.Tree

/-!
What is written of a legible style can be read again. The style keeps its name and its rules
their names. A rule gets no more symbolizers than it had, but for rasters that the colour map of
another row makes of labels that stand alone. Neither holds of every style that can be written.
-/

namespace CartoStyle

open Sheet Style Rule

namespace Style

/-- How many symbolizers the rows of a rule get from each other. -/
def gained (symbolizers : List Symbolizer) : Nat :=
  ((layOut symbolizers).map (spill (layOut symbolizers))).sum

variable {r back : Rule} {rules backs : List Rule}

theorem map_name_eq (h : List.Forall₂ Rule.IsRereadAs rules backs) :
    backs.map (·.name) = rules.map (·.name) := by
  induction h with
  | nil => rfl
  | cons hrule _ ih => rw [List.map_cons, List.map_cons, hrule.name, ih]

theorem Rule.IsRereadAs.length_le (hback : r.IsRereadAs back) (h : r.IsLegible) :
    back.symbolizers.length ≤ r.symbolizers.length + gained r.symbolizers := by
  obtain ⟨es, parts, read, hentries, hparts, hread, hback⟩ := hback.rows
  obtain ⟨again, hagain, hlength⟩ := exists_symbolizers (h.isToldBy hentries) hparts
  obtain rfl := Except.ok.inj (hread.symm.trans hagain)
  rw [flatten_layOut] at hlength
  rw [hback]
  exact (distinct_sublist read.flatten).length_le.trans hlength

/-- Without a colour map no row gets anything from another. -/
theorem gained_eq_zero {symbolizers : List Symbolizer}
    (h : ∀ s ∈ symbolizers, s.hasColorMap = false) : gained symbolizers = 0 := by
  have hnone : (layOut symbolizers).any (·.any Symbolizer.hasColorMap) = false := by
    rw [← List.any_flatten, flatten_layOut]
    exact List.any_eq_false.mpr fun s hs => by simp [h s hs]
  refine List.sum_eq_zero fun n hn => ?_
  obtain ⟨row, -, rfl⟩ := List.mem_map.mp hn
  rw [spill, hnone, Bool.and_false]
  rfl

end Style

section Acceptance

/-- Whatever is written of a legible style is read as a style of the same name, with as many
rules of the same names. -/
theorem exists_readStyle_of_writeStyle {s : Style} (h : s.IsLegible) {text : Converted String}
    (hwrite : writeStyle {} s = .ok text) :
    ∃ back, readStyle {} text.output = .ok back ∧ back.output.name = s.name ∧
      back.output.rules.map (·.name) = s.rules.map (·.name) := by
  obtain ⟨back, hread, hname, hrules⟩ :=
    exists_readStyle isUsable_default.identifier isUsable_default.indent h hwrite
  exact ⟨_, hread, hname, map_name_eq hrules⟩

/-- Major roads in black, with an empty list of dashes. -/
def majorRoads : Style where
  name := "Roads"
  rules := [{
    name := "Major roads"
    filter := some (.comparison .equal "class" (.text "major"))
    symbolizers := [.line { color := some "black", dasharray := some [] }] }]

def majorRoadsText : String :=
  "@mode 'Flat';\n@styleTitle 'Roads';\n\n/* @title Major roads */\n[class = 'major'] \x7b\n" ++
  "  stroke: black;\n  stroke-dasharray: ;\n\x7d\n"

theorem isLegible_majorRoads : majorRoads.IsLegible where
  name := ⟨by decide, .of_all (by decide) (by decide)⟩
  abstract := forall_mem_none
  rules := by
    have hclass : Condition.IsIdentifier "class" :=
      Condition.isIdentifier_of_lower rfl rfl (by decide) (by decide) (by decide)
    have hmajor : "major".toList.all (fun c => c != ']' && c != '\n') = true := by decide
    have hblack : IsPaint "black" := isPaint_of_isColor (Or.inr ⟨by decide, Or.inl (by decide)⟩)
    refine List.forall_mem_singleton.mpr ⟨isTitleText_of_checks (by decide) (by decide)
      (by decide), ⟨fun f hf => ?_, forall_mem_none⟩, List.forall_mem_singleton.mpr ?_⟩
    · cases hf
      refine Or.inl (Or.inl (.comparison .equal hclass (.text (Or.inl (by decide)) fun c hc => ?_)))
      have hchar := List.all_eq_true.mp hmajor c hc
      simp only [Bool.and_eq_true, bne_iff_ne] at hchar
      exact ⟨hchar.1, fun _ => hchar.2⟩
    · exact ⟨by simpa using hblack, forall_mem_none, forall_mem_none, forall_mem_none,
        forall_mem_none, by simp, forall_mem_none, forall_mem_none, forall_mem_none⟩

theorem exists_readStyle_majorRoads : ∃ text back, writeStyle {} majorRoads = .ok text ∧
    text.output = majorRoadsText ∧ readStyle {} majorRoadsText = .ok back ∧
      back.output.name = "Roads" ∧ back.output.rules.map (·.name) = ["Major roads"] := by
  have hwritten : (writeStyle {} majorRoads).toOption.map (·.output) = some majorRoadsText := by
    decide +kernel
  obtain ⟨text, hwrite, htext⟩ := exists_of_toOption hwritten
  obtain ⟨back, hread, hname, hrules⟩ := exists_readStyle_of_writeStyle isLegible_majorRoads hwrite
  exact ⟨text, back, hwrite, htext, htext ▸ hread, hname, hrules⟩

/-- Whatever is written of the style is read as a style with the same names. -/
def Style.ComesBack (s : Style) : Prop :=
  ∀ text, writeStyle {} s = .ok text → ∃ back, readStyle {} text.output = .ok back ∧
    back.output.name = s.name ∧ back.output.rules.map (·.name) = s.rules.map (·.name)

theorem not_comesBack {s : Style} {text : String}
    (hwrite : (writeStyle {} s).toOption.map (·.output) = some text)
    (hread : ((readStyle {} text).toOption.map fun back =>
      (back.output.name, back.output.rules.map (·.name))) ≠ some (s.name, s.rules.map (·.name))) :
    ¬ s.ComesBack := by
  intro h
  obtain ⟨written, hwritten, rfl⟩ := exists_of_toOption hwrite
  obtain ⟨back, hback, hname, hrules⟩ := h written hwritten
  rw [hback] at hread
  exact hread (by rw [← hname, ← hrules]; rfl)

def primaryRule (name color : String) : Style.Rule where
  name := "Primary"
  filter := some (.comparison .equal name (.text "primary"))
  symbolizers := [.line { color := some color }]

def labelRule (label : Style.Label) : Style.Rule where
  name := "Numbers"
  symbolizers := [.label label]

/-- Styles with a name that ends its directive, a title that ends its comment, an attribute of two
words, a colour that is none, a label without a font, and a placeholder that closes early; each
with what is written of it. -/
def illegibleStyles : List (Style × String) := [
  ({ name := "Roads; paths", rules := [] }, "@mode 'Flat';\n@styleTitle 'Roads; paths';\n"),
  ({ name := "", rules := [{ name := "Roads */ paths", symbolizers := [] }] },
    "@mode 'Flat';\n\n/* @title Roads */ paths */\n* \x7b\n\x7d\n"),
  ({ name := "", rules := [primaryRule "road type" "black"] },
    "@mode 'Flat';\n\n/* @title Primary */\n[road type = 'primary'] \x7b\n" ++
      "  stroke: black;\n\x7d\n"),
  ({ name := "", rules := [primaryRule "class" "#road"] },
    "@mode 'Flat';\n\n/* @title Primary */\n[class = 'primary'] \x7b\n  stroke: #road;\n\x7d\n"),
  ({ name := "", rules := [labelRule { template := some "No", font := some [] }] },
    "@mode 'Flat';\n\n/* @title Numbers */\n* \x7b\n  label: No;\n  font-family: ;\n\x7d\n"),
  ({ name := "", rules := [labelRule { template := some "\x7b\x7bref]\x7d\x7d" }] },
    "@mode 'Flat';\n\n/* @title Numbers */\n* \x7b\n  label: [ref]];\n\x7d\n")]

theorem every_of_mem_illegibleStyles :
    ∀ p ∈ illegibleStyles, p.1.tree.Every Lexeme.IsQuotable Decimal.IsFinite := by
  simp [illegibleStyles, primaryRule, labelRule, Style.tree, Style.Rule.tree, Filter.tree,
    FilterValue.tree, Style.Symbolizer.tree, Style.kindTree, Style.Line.fields,
    Style.Label.fields, Tree.field, Tree.texts, Comparator.spelling, Lexeme.IsQuotable]

theorem not_comesBack_of_mem_illegibleStyles : ∀ p ∈ illegibleStyles, ¬ p.1.ComesBack := by
  have hwrite : ∀ p ∈ illegibleStyles,
      (writeStyle {} p.1).toOption.map (·.output) = some p.2 := by decide +kernel
  have hread : ∀ p ∈ illegibleStyles, ((readStyle {} p.2).toOption.map fun back =>
      (back.output.name, back.output.rules.map (·.name))) ≠
        some (p.1.name, p.1.rules.map (·.name)) := by decide +kernel
  exact fun p hp => not_comesBack (hwrite p hp) (hread p hp)

/-- Quotes that can be written and finite numbers are not enough. -/
theorem not_forall_comesBack :
    ¬ ∀ s : Style, s.tree.Every Lexeme.IsQuotable Decimal.IsFinite → s.ComesBack := by
  intro h
  obtain ⟨p, hp⟩ := List.exists_mem_of_ne_nil illegibleStyles (List.cons_ne_nil _ _)
  exact not_comesBack_of_mem_illegibleStyles p hp (h p.1 (every_of_mem_illegibleStyles p hp))

end Acceptance

section Symbolizers

variable {settings : Settings} {s : Style} {text : Converted String} {back : Converted Style}

theorem forall₂_length_le {backs : List Style.Rule} (h : s.IsLegible)
    (hrules : List.Forall₂ Rule.IsRereadAs s.rules backs) :
    List.Forall₂ (fun r q => q.symbolizers.length ≤ r.symbolizers.length + gained r.symbolizers)
      s.rules backs :=
  List.forall₂_iff_get.mpr ⟨hrules.length_eq, fun _ hi hq =>
    (hrules.get hi hq).length_le (h.rules _ (List.getElem_mem hi))⟩

/-- A rule comes back with no more symbolizers than it had and its rows get from each other. -/
theorem length_symbolizers_le (hname : Condition.IsIdentifier settings.scaleAttribute)
    (hindent : IsIndent settings.indent) (h : s.IsLegible)
    (hwrite : writeStyle settings s = .ok text)
    (hread : readStyle settings text.output = .ok back) :
    List.Forall₂ (fun r q => q.symbolizers.length ≤ r.symbolizers.length + gained r.symbolizers)
      s.rules back.output.rules := by
  obtain ⟨again, hagain, -, hrules⟩ := exists_readStyle hname hindent h hwrite
  obtain rfl := Except.ok.inj (hread.symm.trans hagain)
  exact forall₂_length_le h hrules

/-- Rules without a colour map come back with no more symbolizers than they had. -/
theorem length_symbolizers_le_of_no_colorMap
    (hname : Condition.IsIdentifier settings.scaleAttribute) (hindent : IsIndent settings.indent)
    (h : s.IsLegible) (hmaps : ∀ r ∈ s.rules, ∀ x ∈ r.symbolizers, x.hasColorMap = false)
    (hwrite : writeStyle settings s = .ok text)
    (hread : readStyle settings text.output = .ok back) :
    List.Forall₂ (fun r q => q.symbolizers.length ≤ r.symbolizers.length)
      s.rules back.output.rules := by
  obtain ⟨again, hagain, -, hrules⟩ := exists_readStyle hname hindent h hwrite
  obtain rfl := Except.ok.inj (hread.symm.trans hagain)
  have hlengths := forall₂_length_le h hrules
  refine List.forall₂_iff_get.mpr ⟨hlengths.length_eq, fun i hi hq => ?_⟩
  have hlength := hlengths.get hi hq
  rwa [gained_eq_zero (hmaps _ (List.get_mem s.rules ⟨i, hi⟩)), Nat.add_zero] at hlength

def labelledRelief : Style where
  name := ""
  rules := [{
    name := ""
    symbolizers := [
      .label { template := some "Relief" },
      .raster {
        opacity := some 0.5
        colorMap := some { entries := some [{ color := "#ff0000", quantity := some 0.5 }] } }] }]

def labelledReliefText : String :=
  "@mode 'Flat';\n\n* \x7b\n  label: Relief, none;\n  raster-opacity: none, 0.5;\n" ++
  "  raster-channels: none, auto;\n  raster-color-map: color-map-entry(#ff0000, 0.5);\n\x7d\n"

theorem isLegible_labelledRelief : labelledRelief.IsLegible := by
  have hhalf : IsLegibleNumber 0.5 := by
    have hdisplay : Decimal.display 0.5 ≠ "-inf" := by decide +kernel
    exact hdisplay
  have hred : IsColor "#ff0000" :=
    Or.inl ⟨"ff0000".toList, rfl, by decide, List.all_eq_true.mp (by decide)⟩
  have hlabel : Label.IsLegible { template := some "Relief" } := by
    have hcut : Template.cut "Relief".toList = [.literal "Relief".toList] := by decide +kernel
    refine ⟨fun t ht => ?_, forall_mem_none, forall_mem_none, forall_mem_none, forall_mem_none,
      forall_mem_none, forall_mem_none, forall_mem_none, forall_mem_none, forall_mem_none,
      forall_mem_none⟩
    cases ht
    rw [hcut]
    exact List.forall_mem_singleton.mpr (Or.inl (by decide))
  have hentry : ColorMapEntry.IsLegible { color := "#ff0000", quantity := some 0.5 } :=
    ⟨hred, by simpa using hhalf, forall_mem_none, forall_mem_none⟩
  have hraster : Raster.IsLegible {
      opacity := some 0.5
      colorMap := some { entries := some [{ color := "#ff0000", quantity := some 0.5 }] } } := by
    refine ⟨by simpa using hhalf, ?_, ?_, ?_, ?_⟩ <;>
      simp [Raster.sources, Raster.gammas, Raster.contrasts, hentry]
  refine ⟨⟨by decide, .nil⟩, forall_mem_none, List.forall_mem_singleton.mpr
    ⟨⟨by simp, .nil, .nil⟩, ⟨forall_mem_none, forall_mem_none⟩, ?_⟩⟩
  exact List.forall_mem_cons.mpr ⟨hlabel, List.forall_mem_singleton.mpr hraster⟩

theorem writeStyle_labelledRelief :
    (writeStyle {} labelledRelief).toOption.map (·.output) = some labelledReliefText := by
  decide +kernel

theorem length_symbolizers_labelledRelief : ∃ text back,
    writeStyle {} labelledRelief = .ok text ∧ text.output = labelledReliefText ∧
      readStyle {} labelledReliefText = .ok back ∧ List.Forall₂ (fun r q =>
        q.symbolizers.length ≤ r.symbolizers.length + gained r.symbolizers)
          labelledRelief.rules back.output.rules := by
  obtain ⟨text, hwrite, htext⟩ := exists_of_toOption writeStyle_labelledRelief
  obtain ⟨back, hread, -⟩ := exists_readStyle isUsable_default.identifier isUsable_default.indent
    isLegible_labelledRelief hwrite
  exact ⟨text, _, hwrite, htext, htext ▸ hread, length_symbolizers_le isUsable_default.identifier
    isUsable_default.indent isLegible_labelledRelief hwrite hread⟩

/-- A round trip can add a symbolizer. -/
theorem not_forall_length_symbolizers_le : ¬ ∀ (s : Style) (r q : Style.Rule)
    (text : Converted String) (back : Converted Style), s.rules = [r] →
      writeStyle {} s = .ok text → readStyle {} text.output = .ok back →
        back.output.rules = [q] → q.symbolizers.length ≤ r.symbolizers.length := by
  intro h
  have hcounts : (readStyle {} labelledReliefText).toOption.map
    (·.output.rules.map (·.symbolizers.length)) = some [3] := by decide +kernel
  obtain ⟨text, hwrite, htext⟩ := exists_of_toOption writeStyle_labelledRelief
  obtain ⟨back, hread, hlengths⟩ := exists_of_toOption hcounts
  obtain ⟨q, hq⟩ := List.length_eq_one_iff.mp (by simpa using congrArg List.length hlengths)
  rw [hq] at hlengths
  have hmany : q.symbolizers.length = 3 := by simpa using hlengths
  have hfew : q.symbolizers.length ≤ 2 := h labelledRelief _ q text back rfl hwrite
    (htext ▸ hread) hq
  omega

/-- A line whose colour is written without quotes, so that it is two colours when it is read. -/
def twoColoredLine : Style where
  name := ""
  rules := [{ name := "", symbolizers := [.line { color := some "#fff,red" }] }]

/-- The bound does not hold of all styles. -/
theorem not_forall_length_symbolizers_le_add_gained : ¬ ∀ (s : Style)
    (text : Converted String) (back : Converted Style), writeStyle {} s = .ok text →
      readStyle {} text.output = .ok back →
        List.Forall₂ (fun r q => q.symbolizers.length ≤
          r.symbolizers.length + gained r.symbolizers) s.rules back.output.rules := by
  intro h
  have hwritten : (writeStyle {} twoColoredLine).toOption.map (·.output) =
      some "@mode 'Flat';\n\n* \x7b\n  stroke: #fff,red;\n\x7d\n" := by decide +kernel
  have hcounts :
      (readStyle {} "@mode 'Flat';\n\n* \x7b\n  stroke: #fff,red;\n\x7d\n").toOption.map
        (·.output.rules.map (·.symbolizers.length)) = some [2] := by decide +kernel
  obtain ⟨text, hwrite, htext⟩ := exists_of_toOption hwritten
  obtain ⟨back, hread, hlengths⟩ := exists_of_toOption hcounts
  obtain ⟨q, hq⟩ := List.length_eq_one_iff.mp (by simpa using congrArg List.length hlengths)
  have hfew := h twoColoredLine text back hwrite (htext ▸ hread)
  rw [hq] at hlengths hfew
  have hmany : q.symbolizers.length = 2 := by simpa using hlengths
  have hgained : gained [.line { color := some "#fff,red" }] = 0 :=
    gained_eq_zero (List.forall_mem_singleton.mpr rfl)
  have hone : q.symbolizers.length ≤ 1 + gained [.line { color := some "#fff,red" }] :=
    (List.forall₂_cons.mp hfew).1
  omega

end Symbolizers

end CartoStyle
