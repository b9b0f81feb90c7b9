import CartoStyle.Proofs.Style.Graphic

/-!
Lines and fills are read back from their rows. A line is drawn in a colour or
with a graphic; a fill has a colour, or a graphic, or it is transparent.
-/

namespace CartoStyle.Style

open Decimal Lexeme PropertyValue

/-- The fields of a line have written forms, and it has a colour or a graphic. -/
structure Line.IsWritable (l : Line) : Prop where
  drawn : l.color.isSome = l.graphicStroke.isNone
  color : ∀ c ∈ l.color, IsColor c
  width : ∀ x ∈ l.width, IsNumber x
  opacity : ∀ x ∈ l.opacity, IsNumber x
  join : ∀ s ∈ l.join, IsQuotable s
  cap : ∀ s ∈ l.cap, IsQuotable s
  dasharray : ∀ xs ∈ l.dasharray, IsNumbers xs
  dashOffset : ∀ x ∈ l.dashOffset, IsNumber x
  perpendicularOffset : ∀ x ∈ l.perpendicularOffset, IsNumber x
  graphicStroke : ∀ g ∈ l.graphicStroke, g.IsWritable

/-- The fields of a fill have written forms. It is transparent if it has neither a colour nor
a graphic, and it does not have both. -/
structure Fill.IsWritable (f : Fill) : Prop where
  filled : f.color.isNone = true ∨ f.graphicFill.isNone = true
  opacity : f.opacity = if f.color.isNone && f.graphicFill.isNone then some 0.0 else none
  color : ∀ c ∈ f.color, IsColor c ∧ c ≠ "transparent"
  fillOpacity : ∀ x ∈ f.fillOpacity, IsNumber x
  outlineColor : ∀ c ∈ f.outlineColor, IsColor c
  outlineWidth : ∀ x ∈ f.outlineWidth, IsNumber x
  outlineOpacity : ∀ x ∈ f.outlineOpacity, IsNumber x
  outlineDasharray : ∀ xs ∈ f.outlineDasharray, IsNumbers xs
  graphicFill : ∀ g ∈ f.graphicFill, g.IsWritable

def Line.others (l : Line) : List (String × String) :=
  property "stroke-width" (numberText l.width) ++
  property "stroke-opacity" (numberText l.opacity) ++
  property "stroke-linejoin" (wordText l.join) ++
  property "stroke-linecap" (wordText l.cap) ++
  property "stroke-dasharray" (numbersText l.dasharray) ++
  property "stroke-dashoffset" (numberText l.dashOffset) ++
  property "stroke-offset" (numberText l.perpendicularOffset)

def Line.otherKeys : List String :=
  ["stroke-width", "stroke-opacity", "stroke-linejoin", "stroke-linecap", "stroke-dasharray",
    "stroke-dashoffset", "stroke-offset"]

def Fill.others (f : Fill) : List (String × String) :=
  property "fill-opacity" (numberText f.fillOpacity) ++
  property "stroke" (colorText f.outlineColor) ++
  property "stroke-width" (numberText f.outlineWidth) ++
  property "stroke-opacity" (numberText f.outlineOpacity) ++
  property "stroke-dasharray" (numbersText f.outlineDasharray)

def Fill.otherKeys : List String :=
  ["fill-opacity", "stroke", "stroke-width", "stroke-opacity", "stroke-dasharray"]

/-- What a graphic says, or a single property where there is none. -/
def paint (key : String) (graphic : Option Graphic) (plain : Option String) : Entry :=
  match graphic with
  | some g => g.entry key
  | none => { properties := property key plain }

theorem Line.entry_eq (l : Line) :
    l.entry = (paint "stroke" l.graphicStroke (colorText l.color)).append
      { properties := l.others } := by
  unfold Line.entry paint
  cases l.graphicStroke <;> rfl

theorem Fill.entry_eq (f : Fill) :
    f.entry = (paint "fill" f.graphicFill (some ((colorText f.color).getD "transparent"))).append
      { properties := f.others } := by
  unfold Fill.entry paint
  cases f.graphicFill <;> rfl

section Paint

variable {i : Instance} {e : Entry} {key : String} {graphic : Option Graphic}
  {plain : Option String} {others : List (String × String)}

theorem lookup_paint_eq_none {k : String} (hk : k ∉ graphicKeys key) :
    (paint key graphic plain).properties.lookup k = none := by
  cases graphic with
  | none =>
    simp only [graphicKeys, List.mem_cons, not_or] at hk
    simp [paint, lookup_property, hk]
  | some g => exact g.lookup_entry_eq_none hk

theorem isSome_lookup_paint (hkey : key ∈ partNames) (h : graphic = none → plain.isSome = true) :
    ((paint key graphic plain).properties.lookup key).isSome = true := by
  cases graphic with
  | none => simpa [paint, lookup_property] using h rfl
  | some g =>
    rw [paint, g.lookup_key hkey]
    rfl

theorem partValue?_others (part k : String) :
    ({ properties := others } : Entry).partValue? part k = none := rfl

/-- The properties besides the stroke or the fill are found in the row. -/
theorem Instance.Draws.raw_others (h : i.Draws ((paint key graphic plain).append
      { properties := others })) {k : String} (hk : k ∉ graphicKeys key) (hlabel : k ∉ labelKeys) :
    i.raw? k = others.lookup k := by
  rw [h.raw k hlabel, lookup_append, lookup_paint_eq_none hk, Option.none_or]

/-- A graphic that is written with other properties is found in the row and the parts. -/
theorem Instance.Draws.depicts {g : Graphic} (h : i.Draws ((g.entry key).append
      { properties := others })) (hkey : key ∈ partNames)
    (hothers : ∀ k ∈ graphicKeys key, others.lookup k = none) : i.Depicts key g where
  raw k hk := by
    have hlabel : ∀ key ∈ partNames, ∀ k ∈ graphicKeys key, k ∉ labelKeys := by decide
    rw [h.raw k (hlabel key hkey k hk), lookup_append, hothers k hk, Option.or_none]
  part k := by
    rw [h.part key hkey, partValue?_append, partValue?_others, Option.or_none]

theorem Instance.Draws.raw_plain {v : Option String} (h : i.Draws (Entry.append
      { properties := property key v } { properties := others })) (hkey : key ∈ partNames)
    (hothers : ∀ k ∈ graphicKeys key, others.lookup k = none) : i.raw? key = v := by
  have hlabel : ∀ key ∈ partNames, key ∉ labelKeys := by decide
  rw [h.raw key (hlabel key hkey), lookup_append, hothers key List.mem_cons_self, Option.or_none]
  simp [lookup_property]

theorem isGraphic_expression (g : Graphic) : isGraphic g.expression = true := by
  cases g <;> rfl

theorem colorOf?_expression (g : Graphic) : colorOf? g.expression = none := by
  cases g <;> rfl

theorem isGraphic_colorExpression (color : String) :
    isGraphic (colorExpression color) = false := by
  rw [colorExpression]
  split <;> rfl

end Paint

section Reading

variable {i : Instance} {key : String}

theorem graphicIf_some {g : Graphic} (h : i.Depicts key g) (hkey : key ∈ partNames)
    (hg : g.IsWritable) : graphicIf i key (some g.expression) = .ok (some g) := by
  rw [graphicIf, Option.any_some, isGraphic_expression, if_pos rfl,
    Graphic.ofInstance_eq h hkey hg]
  rfl

theorem graphicIf_color (color : Option String) :
    graphicIf i key (color.map colorExpression) = .ok none := by
  cases color with
  | none => rfl
  | some c =>
    rw [graphicIf, Option.map_some, Option.any_some, isGraphic_colorExpression]
    rfl

theorem Line.lookup_others_eq_none (l : Line) {k : String} (hk : k ∉ otherKeys) :
    l.others.lookup k = none := by
  simp only [otherKeys, List.mem_cons, not_or] at hk
  simp [Line.others, lookup_property, List.lookup_append, hk]

theorem Line.lookup_others (l : Line) :
    ∀ k ∈ graphicKeys "stroke", l.others.lookup k = none := by
  have hkeys : ∀ k ∈ graphicKeys "stroke", k ∉ otherKeys := by decide
  exact fun k hk => l.lookup_others_eq_none (hkeys k hk)

theorem Line.raw?_eq {l : Line} (h : i.Draws l.entry) :
    i.raw? "stroke-width" = numberText l.width ∧
    i.raw? "stroke-opacity" = numberText l.opacity ∧
    i.raw? "stroke-linejoin" = wordText l.join ∧
    i.raw? "stroke-linecap" = wordText l.cap ∧
    i.raw? "stroke-dasharray" = numbersText l.dasharray ∧
    i.raw? "stroke-dashoffset" = numberText l.dashOffset ∧
    i.raw? "stroke-offset" = numberText l.perpendicularOffset := by
  rw [Line.entry_eq] at h
  refine ⟨?_, ?_, ?_, ?_, ?_, ?_, ?_⟩ <;> rw [h.raw_others (by decide) (by decide)] <;>
    simp [Line.others, lookup_property, List.lookup_append]

/-- The colour of a line, or its graphic. -/
theorem Line.stroke_eq {l : Line} (hl : l.IsWritable) (h : i.Draws l.entry) :
    ∃ e, i.expression "stroke" = .ok e ∧ graphicIf i "stroke" e = .ok l.graphicStroke ∧
      color? e = l.color := by
  have hdrawn := hl.drawn
  have hkey : "stroke" ∈ partNames := by decide
  rw [Line.entry_eq] at h
  cases hgraphic : l.graphicStroke with
  | some g =>
    rw [hgraphic] at h hdrawn
    have hcolor : l.color = none := by simpa using hdrawn
    have hg := hl.graphicStroke g hgraphic
    have hdepicts : i.Depicts "stroke" g := h.depicts hkey l.lookup_others
    exact ⟨_, hdepicts.expression hkey hg, graphicIf_some hdepicts hkey hg,
      (colorOf?_expression g).trans hcolor.symm⟩
  | none =>
    rw [hgraphic] at h
    have hraw : i.raw? "stroke" = colorText l.color := h.raw_plain hkey l.lookup_others
    refine ⟨_, ?_, graphicIf_color l.color, color?_map l.color⟩
    rw [Instance.expression, hraw, expressionOf_colorText hl.color]

/-- A line is read back. -/
theorem Line.ofInstance_eq {l : Line} (hl : l.IsWritable) (h : i.Draws l.entry) :
    Line.ofInstance i = .ok l := by
  obtain ⟨hwidth, hopacity, hjoin, hcap, hdasharray, hdashOffset, hoffset⟩ := Line.raw?_eq h
  obtain ⟨e, hstroke, hgraphic, hcolor⟩ := Line.stroke_eq hl h
  simp only [Line.ofInstance, hstroke, hgraphic, hcolor, bind, Except.bind,
    Instance.number_eq hwidth hl.width, Instance.number_eq hopacity hl.opacity,
    Instance.text_eq hjoin hl.join, Instance.text_eq hcap hl.cap,
    Instance.numbers_eq (by decide) hdasharray hl.dasharray,
    Instance.number_eq hdashOffset hl.dashOffset,
    Instance.number_eq hoffset hl.perpendicularOffset]
  rfl

theorem Fill.lookup_others_eq_none (f : Fill) {k : String} (hk : k ∉ otherKeys) :
    f.others.lookup k = none := by
  simp only [otherKeys, List.mem_cons, not_or] at hk
  simp [Fill.others, lookup_property, List.lookup_append, hk]

theorem Fill.lookup_others (f : Fill) :
    ∀ k ∈ graphicKeys "fill", f.others.lookup k = none := by
  have hkeys : ∀ k ∈ graphicKeys "fill", k ∉ otherKeys := by decide
  exact fun k hk => f.lookup_others_eq_none (hkeys k hk)

theorem Fill.raw?_eq {f : Fill} (h : i.Draws f.entry) :
    i.raw? "fill-opacity" = numberText f.fillOpacity ∧
    i.raw? "stroke" = colorText f.outlineColor ∧
    i.raw? "stroke-width" = numberText f.outlineWidth ∧
    i.raw? "stroke-opacity" = numberText f.outlineOpacity ∧
    i.raw? "stroke-dasharray" = numbersText f.outlineDasharray := by
  rw [Fill.entry_eq] at h
  refine ⟨?_, ?_, ?_, ?_, ?_⟩ <;> rw [h.raw_others (by decide) (by decide)] <;>
    simp [Fill.others, lookup_property, List.lookup_append]

theorem valueText_transparent : (Expression.text "transparent").valueText = "transparent" := by
  rw [Expression.text, Expression.valueText, Expression.literalText]
  rfl

/-- The colour of a fill, or its graphic. -/
theorem Fill.fill_eq {f : Fill} (hf : f.IsWritable) (h : i.Draws f.entry) :
    ∃ e, i.expression "fill" = .ok e ∧ graphicIf i "fill" e = .ok f.graphicFill ∧
      fillColor? e = f.color := by
  have hfilled := hf.filled
  have hkey : "fill" ∈ partNames := by decide
  rw [Fill.entry_eq] at h
  cases hgraphic : f.graphicFill with
  | some g =>
    rw [hgraphic] at h hfilled
    have hcolor : f.color = none := by simpa using hfilled
    have hg := hf.graphicFill g hgraphic
    have hdepicts : i.Depicts "fill" g := h.depicts hkey f.lookup_others
    refine ⟨_, hdepicts.expression hkey hg, graphicIf_some hdepicts hkey hg, ?_⟩
    rw [fillColor?, color?, Option.bind_some, colorOf?_expression, hcolor]
    rfl
  | none =>
    rw [hgraphic] at h
    have hraw : i.raw? "fill" = some ((colorText f.color).getD "transparent") :=
      h.raw_plain hkey f.lookup_others
    rw [Instance.expression, hraw]
    cases hcolor : f.color with
    | none =>
      have hparse : PropertyValue.parse "fill" "transparent" = .ok (.text "transparent") := by
        have hatom : IsAtom (Expression.text "transparent") := .text (Or.inl (by decide))
        have hparse : PropertyValue.parse "fill" (Expression.text "transparent").valueText =
            .ok (.text "transparent") := parse_atom hatom
        rwa [valueText_transparent] at hparse
      exact ⟨_, expressionOf_some hparse, rfl, rfl⟩
    | some c =>
      obtain ⟨hwritten, hvisible⟩ := hf.color c hcolor
      refine ⟨_, expressionOf_some (parse_atom (isAtom_colorExpression hwritten)),
        graphicIf_color (some c), ?_⟩
      have hc : color? (some (colorExpression c)) = some c := color?_map (some c)
      rw [fillColor?, hc]
      simp [hvisible]

/-- A fill is read back. -/
theorem Fill.ofInstance_eq {f : Fill} (hf : f.IsWritable) (h : i.Draws f.entry) :
    Fill.ofInstance i = .ok f := by
  obtain ⟨hopacity, hcolor, hwidth, houtlineOpacity, hdasharray⟩ := Fill.raw?_eq h
  obtain ⟨e, hfill, hgraphic, hfillColor⟩ := Fill.fill_eq hf h
  simp only [Fill.ofInstance, hfill, hgraphic, hfillColor, bind, Except.bind,
    Instance.number_eq hopacity hf.fillOpacity, Instance.color_eq hcolor hf.outlineColor,
    Instance.number_eq hwidth hf.outlineWidth,
    Instance.number_eq houtlineOpacity hf.outlineOpacity,
    Instance.numbers_eq (by decide) hdasharray hf.outlineDasharray, ← hf.opacity]
  rfl

end Reading

section Writing

theorem isSteady_paint {key : String} {graphic : Option Graphic} {plain : Option String}
    (hkey : key ∈ partNames) (hgraphic : ∀ g ∈ graphic, g.IsWritable)
    (hplain : ∀ v ∈ plain, IsSteady v) : (paint key graphic plain).IsSteady := by
  cases graphic with
  | some g => exact Graphic.isSteady_entry hkey (hgraphic g rfl)
  | none => exact ⟨isCell_property (isRowKey_of_mem_partNames hkey).1 hplain, nofun⟩

/-- What a line says can stand in a row. -/
theorem Line.isSteady_entry {l : Line} (h : l.IsWritable) : l.entry.IsSteady := by
  rw [Line.entry_eq]
  refine (isSteady_paint (by decide) h.graphicStroke (isSteady_colorText h.color)).append
    ⟨?_, nofun⟩
  simp only [Line.others, List.forall_mem_append]
  exact ⟨⟨⟨⟨⟨⟨isCell_property (by decide) (isSteady_numberText h.width),
    isCell_property (by decide) (isSteady_numberText h.opacity)⟩,
    isCell_property (by decide) (isSteady_wordText h.join)⟩,
    isCell_property (by decide) (isSteady_wordText h.cap)⟩,
    isCell_property (by decide) (isSteady_numbersText h.dasharray)⟩,
    isCell_property (by decide) (isSteady_numberText h.dashOffset)⟩,
    isCell_property (by decide) (isSteady_numberText h.perpendicularOffset)⟩

/-- What a fill says can stand in a row. -/
theorem Fill.isSteady_entry {f : Fill} (h : f.IsWritable) : f.entry.IsSteady := by
  have hfill : ∀ v ∈ some ((colorText f.color).getD "transparent"), IsSteady v := by
    rintro v ⟨⟩
    cases hcolor : f.color with
    | none =>
      rw [colorText, Option.map_none, Option.getD_none, ← valueText_transparent]
      exact isSteady_text (Or.inl (by decide))
    | some c => exact isSteady_colorExpression (h.color c hcolor).1
  rw [Fill.entry_eq]
  refine (isSteady_paint (by decide) h.graphicFill hfill).append ⟨?_, nofun⟩
  simp only [Fill.others, List.forall_mem_append]
  exact ⟨⟨⟨⟨isCell_property (by decide) (isSteady_numberText h.fillOpacity),
    isCell_property (by decide) (isSteady_colorText h.outlineColor)⟩,
    isCell_property (by decide) (isSteady_numberText h.outlineWidth)⟩,
    isCell_property (by decide) (isSteady_numberText h.outlineOpacity)⟩,
    isCell_property (by decide) (isSteady_numbersText h.outlineDasharray)⟩

end Writing

end CartoStyle.Style
