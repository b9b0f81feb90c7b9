import CartoStyle.Proofs.Style.Entry
import CartoStyle.Proofs.Style.Template

/-!
Labels are read back from their rows. The families of a font are one list for
all rows of a rule, which is split at its commas once more when a label is read.
-/

namespace CartoStyle.Style

open Decimal Lexeme PropertyValue

structure IsFont (fonts : List String) : Prop where
  ne_nil : fonts ≠ []
  families : ∀ f ∈ fonts, IsQuotable f

/-- The fields of a label have written forms, and it has a template. -/
structure Label.IsWritable (l : Label) : Prop where
  present : l.template.isSome = true
  template : ∀ t ∈ l.template, Template.IsWritable t
  font : ∀ fs ∈ l.font, IsFont fs
  size : ∀ x ∈ l.size, IsNumber x
  fontStyle : ∀ s ∈ l.fontStyle, IsQuotable s
  fontWeight : ∀ s ∈ l.fontWeight, IsQuotable s
  color : ∀ c ∈ l.color, IsColor c
  haloWidth : ∀ x ∈ l.haloWidth, IsNumber x
  haloColor : ∀ c ∈ l.haloColor, IsColor c
  haloOpacity : ∀ x ∈ l.haloOpacity, IsNumber x
  offset : ∀ p ∈ l.offset, IsNumber p.1 ∧ IsNumber p.2
  rotate : ∀ x ∈ l.rotate, IsNumber x

def Instance.Labels (i : Instance) (e : Entry) : Prop :=
  ∀ key ∈ labelKeys, i.raw? key = e.properties.lookup key

section Reading

variable {i : Instance}

theorem fontsOf_fontText {fonts : List String} (h : IsFont fonts) :
    fontsOf (fontText fonts) = .ok fonts := by
  have hsteady : ∀ t ∈ fonts.map fun f => (Expression.text f).valueText, IsSteady t :=
    List.forall_mem_map.mpr fun f hf => isSteady_text (h.families f hf)
  have hread : fonts.mapM ((fun family => textOf "font-family" (some family)) ∘
      fun f => (Expression.text f).valueText) = .ok (fonts.map some) :=
    mapM_eq_ok fun f hf => valueOf_eq (parse_atom (.text (h.families f hf))) rfl
  have hlist := mapM_splitTopLevel_intercalate (f := fun t => textOf "font-family" (some t))
    (by simpa using h.ne_nil) hsteady
  rw [fontsOf, fontText, hlist, List.mapM_map, hread]
  show Except.ok ((fonts.map some).filterMap id) = _
  simp

theorem Label.raw?_eq {l : Label} (h : i.Labels l.entry) :
    i.raw? "label" = l.template.map (fun t => (Template.expression t).valueText) ∧
    i.raw? "font-family" = l.font.map fontText ∧
    i.raw? "font-size" = numberText l.size ∧
    i.raw? "font-style" = wordText l.fontStyle ∧
    i.raw? "font-weight" = wordText l.fontWeight ∧
    i.raw? "font-fill" = colorText l.color ∧
    i.raw? "halo-radius" = numberText l.haloWidth ∧
    i.raw? "halo-color" = colorText l.haloColor ∧
    i.raw? "halo-opacity" = numberText l.haloOpacity ∧
    i.raw? "label-offset" = l.offset.map offsetText ∧
    i.raw? "label-rotation" = numberText l.rotate := by
  refine ⟨?_, ?_, ?_, ?_, ?_, ?_, ?_, ?_, ?_, ?_, ?_⟩ <;> rw [h _ (by decide)] <;>
    simp [Label.entry, lookup_property, List.lookup_append]

theorem Label.template_eq {l : Label} (hl : l.IsWritable)
    (h : i.raw? "label" = l.template.map fun t => (Template.expression t).valueText) :
    ∃ e, i.expression "label" = .ok e ∧ e.map Style.template = l.template := by
  obtain ⟨t, ht⟩ := Option.isSome_iff_exists.mp hl.present
  have hwritable := hl.template t ht
  rw [Instance.expression, h, ht]
  refine ⟨_, expressionOf_some hwritable.parse_eq, ?_⟩
  rw [Option.map_some, hwritable.template_eq]

theorem Label.font_eq {l : Label} (hl : l.IsWritable)
    (h : i.raw? "font-family" = l.font.map fontText) :
    (i.raw? "font-family").mapM fontsOf = .ok l.font := by
  rw [h]
  cases hfont : l.font with
  | none => rfl
  | some fonts =>
    show some <$> fontsOf (fontText fonts) = _
    rw [fontsOf_fontText (hl.font fonts hfont)]
    rfl

theorem offsetText_eq (p : Float × Float) :
    offsetText p = " ".intercalate ([p.1, p.2].map display) := by
  rw [← String.toList_inj]
  simp [offsetText]

theorem Label.IsWritable.isNumbers {l : Label} (h : l.IsWritable) :
    ∀ p ∈ l.offset, IsNumbers [p.1, p.2] := by
  intro p hp
  exact ⟨nofun, by simp [h.offset p hp]⟩

theorem Label.offset_eq {l : Label} (hl : l.IsWritable)
    (h : i.raw? "label-offset" = l.offset.map offsetText) :
    ∃ xs, i.numbers "label-offset" = .ok xs ∧ offsetOf xs = .ok l.offset := by
  rw [Instance.numbers, h]
  cases hoffset : l.offset with
  | none => exact ⟨none, rfl, rfl⟩
  | some p =>
    rw [Option.map_some, offsetText_eq]
    exact ⟨_, valueOf_numbers (by decide) (hl.isNumbers p hoffset), rfl⟩

/-- A label is read back. -/
theorem Label.ofInstance_eq {l : Label} (hl : l.IsWritable) (h : i.Labels l.entry) :
    Label.ofInstance i = .ok l := by
  obtain ⟨hlabel, hfont, hsize, hstyle, hweight, hcolor, hhalo, hhaloColor, hhaloOpacity, hoffset,
    hrotate⟩ := Label.raw?_eq h
  obtain ⟨e, hexpression, htemplate⟩ := Label.template_eq hl hlabel
  obtain ⟨xs, hnumbers, hoffset⟩ := Label.offset_eq hl hoffset
  simp only [Label.ofInstance, hexpression, htemplate, Label.font_eq hl hfont, hnumbers, hoffset,
    bind, Except.bind, Instance.number_eq hsize hl.size, Instance.text_eq hstyle hl.fontStyle,
    Instance.text_eq hweight hl.fontWeight, Instance.color_eq hcolor hl.color,
    Instance.number_eq hhalo hl.haloWidth, Instance.color_eq hhaloColor hl.haloColor,
    Instance.number_eq hhaloOpacity hl.haloOpacity, Instance.number_eq hrotate hl.rotate]
  rfl

end Reading

section Writing

theorem isListing_fontText {fonts : List String} (h : IsFont fonts) :
    IsListing (fontText fonts) :=
  ⟨_, by simpa using h.ne_nil,
    List.forall_mem_map.mpr fun f hf => isSteady_text (h.families f hf), rfl⟩

/-- What a label says can stand in a row. -/
theorem Label.isSteady_entry {l : Label} (h : l.IsWritable) : l.entry.IsSteady := by
  refine ⟨?_, nofun⟩
  have htemplate : ∀ v ∈ l.template.map fun t => (Template.expression t).valueText,
      IsSteady v := by
    intro v hv
    obtain ⟨t, ht, rfl⟩ := Option.map_eq_some_iff.mp hv
    exact (h.template t ht).isSteady
  have hoffset : ∀ v ∈ l.offset.map offsetText, IsSteady v := by
    intro v hv
    obtain ⟨p, hp, rfl⟩ := Option.map_eq_some_iff.mp hv
    rw [offsetText_eq]
    exact isSteady_numbers (h.isNumbers p hp)
  have hfont : ∀ p ∈ property "font-family" (l.font.map fontText), IsCell p := by
    refine forall_mem_property.mpr fun v hv => ?_
    obtain ⟨fonts, hfonts, rfl⟩ := Option.map_eq_some_iff.mp hv
    have hkey : Sheet.Token.IsKey "font-family" :=
      ⟨"font", by decide, "-family".toList, rfl, by simp [Sheet.Token.isKeyChar]⟩
    exact isCell_of_isListing hkey (by decide) (isListing_fontText (h.font fonts hfonts))
  simp only [Label.entry, List.forall_mem_append]
  exact ⟨⟨⟨⟨⟨⟨⟨⟨⟨⟨isCell_property (by decide) htemplate, hfont⟩,
    isCell_property (by decide) (isSteady_numberText h.size)⟩,
    isCell_property (by decide) (isSteady_wordText h.fontStyle)⟩,
    isCell_property (by decide) (isSteady_wordText h.fontWeight)⟩,
    isCell_property (by decide) (isSteady_colorText h.color)⟩,
    isCell_property (by decide) (isSteady_numberText h.haloWidth)⟩,
    isCell_property (by decide) (isSteady_colorText h.haloColor)⟩,
    isCell_property (by decide) (isSteady_numberText h.haloOpacity)⟩,
    isCell_property (by decide) hoffset⟩,
    isCell_property (by decide) (isSteady_numberText h.rotate)⟩

end Writing

end CartoStyle.Style
