import CartoStyle.Proofs.Style.Content

/-!
Symbolizers whose texts can be read, which asks for less than that they come back: numbers may
change on the way, and colours, images and names may be missing. Every value that such a
symbolizer writes can stand in a row and is what its key needs.
-/

namespace CartoStyle.Style

open Decimal Lexeme PropertyValue CartoStyle.Rule

def IsLegibleNumber (x : Float) : Prop := display x ≠ "-inf"

theorem isLegibleNumber_of_isNumber {x : Float} (h : IsNumber x) : IsLegibleNumber x := by
  intro hinfinite
  have haccepted := h.accepted
  rw [hinfinite] at haccepted
  exact absurd (Pattern.accepts_iff.mpr haccepted) (by decide)

/-- The value can stand in a row and is what its key needs. -/
structure Suits (key v : String) : Prop where
  steady : IsSteady v
  accepted : IsAccepted key v

section Values

variable {key v : String}

theorem isAccepted_of_content {content : Content} (hkey : contentOf key = content)
    (h : content.Accepts key v) : IsAccepted key v := by
  rw [IsAccepted, hkey]
  exact h

theorem suits_atom (hkey : contentOf key = .paint ∨ contentOf key = .expression) {e : Expression}
    (hatom : IsAtom e) (hsteady : IsSteady e.valueText)
    (hdraws : isGraphic e = true → IsDrawing e) : Suits key e.valueText := by
  refine ⟨hsteady, ?_⟩
  rcases hkey with hkey | hkey
  · exact isAccepted_of_content hkey ⟨e, parse_atom hatom, hdraws⟩
  · exact isAccepted_of_content hkey (fault?_eq_none_iff.mpr ⟨e, parse_atom hatom⟩)

end Values

/-- The text of the colour can be the value of a key that paints, whatever it is read as. -/
def IsPaint (color : String) : Prop := Suits "stroke" (colorExpression color).valueText

theorem isPaint_of_isColor {color : String} (h : IsColor color) : IsPaint color := by
  refine suits_atom (Or.inl (by decide)) (isAtom_colorExpression h) (isSteady_colorExpression h) ?_
  rw [isGraphic_colorExpression]
  nofun

/-- The text of every field of a mark is read. -/
structure Mark.IsLegible (m : Mark) : Prop where
  color : ∀ c ∈ m.color, IsPaint c
  fillOpacity : ∀ x ∈ m.fillOpacity, IsLegibleNumber x
  opacity : ∀ x ∈ m.opacity, IsLegibleNumber x
  radius : ∀ x ∈ m.radius, IsLegibleNumber (x * 2.0)
  rotate : ∀ x ∈ m.rotate, IsLegibleNumber x
  strokeColor : ∀ c ∈ m.strokeColor, IsPaint c
  strokeWidth : ∀ x ∈ m.strokeWidth, IsLegibleNumber x
  strokeOpacity : ∀ x ∈ m.strokeOpacity, IsLegibleNumber x

theorem Mark.IsWritable.isLegible {m : Mark} (h : m.IsWritable) : m.IsLegible where
  color c hc := isPaint_of_isColor (h.color c hc)
  fillOpacity x hx := isLegibleNumber_of_isNumber (h.fillOpacity x hx)
  opacity x hx := isLegibleNumber_of_isNumber (h.opacity x hx)
  radius x hx := isLegibleNumber_of_isNumber (h.radius x hx).double
  rotate x hx := isLegibleNumber_of_isNumber (h.rotate x hx)
  strokeColor c hc := isPaint_of_isColor (h.strokeColor c hc)
  strokeWidth x hx := isLegibleNumber_of_isNumber (h.strokeWidth x hx)
  strokeOpacity x hx := isLegibleNumber_of_isNumber (h.strokeOpacity x hx)

structure Icon.IsLegible (i : Icon) : Prop where
  image : ∀ s ∈ i.image, IsQuotable s
  size : ∀ x ∈ i.size, IsLegibleNumber x
  rotate : ∀ x ∈ i.rotate, IsLegibleNumber x
  opacity : ∀ x ∈ i.opacity, IsLegibleNumber x

def Graphic.IsLegible : Graphic → Prop
  | mark m => m.IsLegible
  | icon i => i.IsLegible

structure Line.IsLegible (l : Line) : Prop where
  color : ∀ c ∈ l.color, IsPaint c
  width : ∀ x ∈ l.width, IsLegibleNumber x
  opacity : ∀ x ∈ l.opacity, IsLegibleNumber x
  join : ∀ s ∈ l.join, IsQuotable s
  cap : ∀ s ∈ l.cap, IsQuotable s
  dasharray : ∀ xs ∈ l.dasharray, ∀ x ∈ xs, IsLegibleNumber x
  dashOffset : ∀ x ∈ l.dashOffset, IsLegibleNumber x
  perpendicularOffset : ∀ x ∈ l.perpendicularOffset, IsLegibleNumber x
  graphicStroke : ∀ g ∈ l.graphicStroke, g.IsLegible

structure Fill.IsLegible (f : Fill) : Prop where
  color : ∀ c ∈ f.color, IsPaint c
  fillOpacity : ∀ x ∈ f.fillOpacity, IsLegibleNumber x
  outlineColor : ∀ c ∈ f.outlineColor, IsPaint c
  outlineWidth : ∀ x ∈ f.outlineWidth, IsLegibleNumber x
  outlineOpacity : ∀ x ∈ f.outlineOpacity, IsLegibleNumber x
  outlineDasharray : ∀ xs ∈ f.outlineDasharray, ∀ x ∈ xs, IsLegibleNumber x
  graphicFill : ∀ g ∈ f.graphicFill, g.IsLegible

structure Label.IsLegible (l : Label) : Prop where
  template : ∀ t ∈ l.template, ∀ p ∈ Template.cut t.toList, p.IsLegible
  font : ∀ fs ∈ l.font, IsFont fs
  size : ∀ x ∈ l.size, IsLegibleNumber x
  fontStyle : ∀ s ∈ l.fontStyle, IsQuotable s
  fontWeight : ∀ s ∈ l.fontWeight, IsQuotable s
  color : ∀ c ∈ l.color, IsPaint c
  haloWidth : ∀ x ∈ l.haloWidth, IsLegibleNumber x
  haloColor : ∀ c ∈ l.haloColor, IsPaint c
  haloOpacity : ∀ x ∈ l.haloOpacity, IsLegibleNumber x
  offset : ∀ p ∈ l.offset, IsLegibleNumber p.1 ∧ IsLegibleNumber p.2
  rotate : ∀ x ∈ l.rotate, IsLegibleNumber x

structure ColorMapEntry.IsLegible (e : ColorMapEntry) : Prop where
  color : IsColor e.color
  quantity : ∀ x ∈ e.quantity, IsLegibleNumber x
  label : ∀ s ∈ e.label, IsQuotable s
  opacity : ∀ x ∈ e.opacity, IsLegibleNumber x

structure Raster.IsLegible (r : Raster) : Prop where
  opacity : ∀ x ∈ r.opacity, IsLegibleNumber x
  sources : ∀ s ∈ r.sources, ∀ name ∈ s, IsChannelName name
  gammas : ∀ x, some x ∈ r.gammas → IsLegibleNumber x
  ne_nil : ∀ m ∈ r.colorMap, ∀ es ∈ m.entries, es ≠ []
  entries : ∀ m ∈ r.colorMap, ∀ es ∈ m.entries, ∀ e ∈ es, e.IsLegible

def Symbolizer.IsLegible : Symbolizer → Prop
  | mark m => m.IsLegible
  | icon i => i.IsLegible
  | line l => l.IsLegible
  | fill f => f.IsLegible
  | label l => l.IsLegible
  | raster r => r.IsLegible

section Numbers

variable {x : Float} {xs : List Float} {key : String}

/-- The text of a legible number is one atom that is read as a number. -/
theorem exists_numberAtom (h : IsLegibleNumber x) : ∃ e y, Writes .atom (display x).toList [e] ∧
    e.read.toList = [e.read] ∧ e.read.asNumber? = some y := by
  by_cases hfinite : IsFinite x
  · exact ⟨.number (Lexeme.number (display x).toList), _,
      ⟨_, spells_numeral (matches_display hfinite), .number _⟩, rfl, rfl⟩
  · have hname := display_of_not_isFinite hfinite
    rw [← or_assoc] at hname
    have hname := hname.resolve_right h
    have hquotable : IsQuotable (display x) := by
      rcases hname with hname | hname <;> rw [hname] <;> exact Or.inl (by decide)
    have hwrites := writes_text hquotable
    rw [valueText_infinite hname] at hwrites
    have hnumber : ∃ y, Decimal.read? (Text.trim (display x)) = some y := by
      rcases hname with hname | hname <;> rw [hname] <;> exact ⟨_, rfl⟩
    obtain ⟨y, hy⟩ := hnumber
    exact ⟨_, y, hwrites, rfl, hy⟩

theorem isSteady_display (h : IsLegibleNumber x) : IsSteady (display x) := by
  by_cases hfinite : IsFinite x
  · exact isSteady_number hfinite
  · have hname := display_of_not_isFinite hfinite
    rw [← or_assoc] at hname
    have hname := hname.resolve_right h
    rw [← valueText_infinite hname]
    rcases hname with hname | hname <;> rw [hname] <;> exact isSteady_text (Or.inl (by decide))

theorem exists_numberOf (key : String) (h : IsLegibleNumber x) :
    ∃ y, numberOf key (some (display x)) = .ok (some y) := by
  obtain ⟨e, y, hwrites, -, hy⟩ := exists_numberAtom h
  exact ⟨y, valueOf_eq (hwrites.single.parse_eq rfl) hy⟩

theorem mapM_asNumber?_eq {es : List Expression} {ys : List Float}
    (h : List.Forall₂ (fun e y => e.read.asNumber? = some y) es ys) :
    (es.map Expression.read).mapM Value.asNumber? = some ys := by
  induction h with
  | nil => rfl
  | cons hy _ ih =>
    rw [List.map_cons, List.mapM_cons, hy, ih]
    rfl

/-- The texts of legible numbers in a row are read as as many numbers. -/
theorem exists_numbersOf {key : String} (hkey : key ≠ "label") (hne : xs ≠ [])
    (h : ∀ x ∈ xs, IsLegibleNumber x) :
    ∃ ys, numbersOf key (some (" ".intercalate (xs.map display))) = .ok (some ys) ∧
      ys.length = xs.length := by
  obtain ⟨es, hes⟩ := exists_forall₂ fun x hx => exists_numberAtom (h x hx)
  obtain ⟨ys, hys⟩ : ∃ ys, List.Forall₂ (fun e y => e.read.asNumber? = some y) es ys :=
    exists_forall₂ fun e he => by
      obtain ⟨x, -, y, -, -, hy⟩ := exists_of_forall₂ hes he
      exact ⟨y, hy⟩
  have hnil : es ≠ [] := by
    rintro rfl
    exact hne (List.forall₂_nil_right_iff.mp hes)
  have hwrites : Writes .atoms (" ".intercalate (xs.map display)).toList es :=
    writes_intercalate_atoms hnil (List.forall₂_map_left_iff.mpr
      (hes.imp fun _ _ ⟨_, hwrites, _⟩ => hwrites))
  refine ⟨ys, valueOf_eq (hwrites.parse_eq (combine_eq hnil)) ?_, ?_⟩
  · rw [toList_read_whole hkey hnil fun e he => by
      obtain ⟨x, -, y, -, hlist, -⟩ := exists_of_forall₂ hes he
      exact hlist]
    exact mapM_asNumber?_eq hys
  · rw [← hys.length_eq, hes.length_eq]

end Numbers

section Values

variable {key v : String}

theorem suits_numberText (hkey : contentOf key = .number) {x : Option Float}
    (h : ∀ y ∈ x, IsLegibleNumber y) : ∀ v ∈ numberText x, Suits key v := by
  intro v hv
  obtain ⟨y, hy, rfl⟩ := Option.map_eq_some_iff.mp hv
  obtain ⟨z, hz⟩ := exists_numberOf key (h y hy)
  exact ⟨isSteady_display (h y hy), isAccepted_of_content hkey (fault?_eq_none_iff.mpr ⟨_, hz⟩)⟩

theorem suits_wordText (hkey : contentOf key = .word) {s : Option String}
    (h : ∀ t ∈ s, IsQuotable t) : ∀ v ∈ wordText s, Suits key v := by
  intro v hv
  have hread : textOf key (wordText s) = .ok s := textOf_wordText h
  rw [Option.mem_def.mp hv] at hread
  exact ⟨isSteady_wordText h v hv, isAccepted_of_content hkey (fault?_eq_none_iff.mpr ⟨_, hread⟩)⟩

/-- What suits a key that paints suits every key of a colour. -/
theorem Suits.of_paint (hkey : key ∈ ["stroke", "fill", "font-fill", "halo-color"])
    (h : Suits "stroke" v) : Suits key v := by
  obtain ⟨hsteady, hpaint⟩ := h
  have hlabel : key ≠ "label" := by
    rintro rfl
    exact absurd hkey (by decide)
  have hcontent : contentOf key = .paint ∨ contentOf key = .expression := by
    simp only [List.mem_cons, List.not_mem_nil, or_false] at hkey
    rcases hkey with rfl | rfl | rfl | rfl <;> decide
  obtain ⟨e, hparse, hdraws⟩ : Content.Accepts "stroke" v .paint := hpaint
  have hparse := parse_of_ne_label (by decide) hlabel hparse
  rcases hcontent with hcontent | hcontent
  · exact ⟨hsteady, isAccepted_of_content hcontent ⟨e, hparse, hdraws⟩⟩
  · exact ⟨hsteady, isAccepted_of_content hcontent (fault?_eq_none_iff.mpr ⟨e, hparse⟩)⟩

theorem suits_colorText (hkey : key ∈ ["stroke", "fill", "font-fill", "halo-color"])
    {color : Option String} (h : ∀ c ∈ color, IsPaint c) : ∀ v ∈ colorText color, Suits key v := by
  intro v hv
  obtain ⟨c, hc, rfl⟩ := Option.map_eq_some_iff.mp hv
  exact (h c hc).of_paint hkey

theorem isQuotable_image {i : Icon} (h : i.IsLegible) : IsQuotable (i.image.getD "") := by
  cases himage : i.image with
  | none => exact Or.inl (by simp)
  | some s => exact h.image s himage

theorem Graphic.suits_expression {g : Graphic} (hkey : key ∈ partNames) (h : g.IsLegible) :
    Suits key g.expression.valueText := by
  have hatom : IsAtom g.expression ∧ IsSteady g.expression.valueText := by
    cases g with
    | mark m =>
      exact ⟨.symbol m.symbol.isQuotable_cssName,
        isSteady_drawing (Or.inl rfl) m.symbol.isQuotable_cssName⟩
    | icon i =>
      exact ⟨.url (isQuotable_image h), isSteady_drawing (Or.inr rfl) (isQuotable_image h)⟩
  have hdraws : IsDrawing g.expression := by
    cases g with
    | mark m => exact Or.inr ⟨_, rfl, by rw [m.symbol.ofCssName?_cssName]; rfl⟩
    | icon i => exact Or.inl rfl
  rcases eq_of_mem_partNames hkey with rfl | rfl | rfl
  · exact ⟨hatom.2, isAccepted_of_content (show contentOf "mark" = .graphic by decide)
      ⟨_, parse_atom hatom.1, hdraws⟩⟩
  all_goals exact suits_atom (Or.inl (by decide)) hatom.1 hatom.2 fun _ => hdraws

end Values

/-- The property can stand in a row and is what its key needs, or it is an empty list of dashes,
which is not read at all. -/
def IsLegibleCell (p : String × String) : Prop :=
  p = ("stroke-dasharray", "") ∨ IsCell p ∧ IsAccepted p.1 p.2

structure Entry.IsLegible (e : Entry) : Prop where
  cells : ∀ p ∈ e.properties, IsLegibleCell p
  parts : ∀ p ∈ e.parts, p.1 ∈ partNames ∧ isRowKey p.2.1 = true ∧ Suits p.2.1 p.2.2
  body : e.parts ≠ [] → e.properties ≠ []

theorem Entry.IsLegible.append {a b : Entry} (ha : a.IsLegible) (hb : b.IsLegible) :
    (a.append b).IsLegible where
  cells := List.forall_mem_append.mpr ⟨ha.cells, hb.cells⟩
  parts := List.forall_mem_append.mpr ⟨ha.parts, hb.parts⟩
  body hparts hnil := by
    obtain ⟨hna, hnb⟩ := List.append_eq_nil_iff.mp hnil
    refine hparts (List.append_eq_nil_iff.mpr ⟨?_, ?_⟩)
    · exact Classical.byContradiction fun h => ha.body h hna
    · exact Classical.byContradiction fun h => hb.body h hnb

section Cells

variable {key part : String} {value : Option String}

theorem isLegibleCell_property (hkey : isRowKey key = true) (h : ∀ v ∈ value, Suits key v) :
    ∀ p ∈ property key value, IsLegibleCell p :=
  forall_mem_property.mpr fun v hv =>
    Or.inr ⟨isCell_of_isRowKey hkey (h v hv).steady, (h v hv).accepted⟩

theorem suits_partProperty (hpart : part ∈ partNames) (hkey : isRowKey key = true)
    (h : ∀ v ∈ value, Suits key v) : ∀ p ∈ partProperty part key value,
      p.1 ∈ partNames ∧ isRowKey p.2.1 = true ∧ Suits p.2.1 p.2.2 :=
  forall_mem_partProperty.mpr fun v hv => ⟨hpart, hkey, h v hv⟩

/-- Dashes are read, unless there are none. -/
theorem isLegibleCell_dashes {xs : Option (List Float)}
    (h : ∀ ys ∈ xs, ∀ x ∈ ys, IsLegibleNumber x) :
    ∀ p ∈ property "stroke-dasharray" (numbersText xs), IsLegibleCell p := by
  refine forall_mem_property.mpr fun v hv => ?_
  obtain ⟨ys, hys, rfl⟩ := Option.map_eq_some_iff.mp hv
  rw [valueText_numbers]
  by_cases hnil : ys = []
  · subst hnil
    exact Or.inl rfl
  · obtain ⟨zs, hzs, -⟩ :=
      exists_numbersOf (show "stroke-dasharray" ≠ "label" by decide) hnil (h ys hys)
    have hsteady : IsSteady (" ".intercalate (ys.map display)) :=
      isSteady_words (by simpa using hnil)
        (List.forall_mem_map.mpr fun x hx => isSteady_display (h ys hys x hx))
    have hkey : contentOf "stroke-dasharray" = .numbers := by decide
    exact Or.inr ⟨isCell_of_isRowKey (by decide) hsteady,
      isAccepted_of_content hkey (fault?_eq_none_iff.mpr ⟨_, hzs⟩)⟩

theorem isLegibleCell_listing (hkey : Sheet.Token.IsKey key) (hlist : key ∈ listKeys)
    (h : ∀ v ∈ value, IsListing v ∧ IsAccepted key v) :
    ∀ p ∈ property key value, IsLegibleCell p :=
  forall_mem_property.mpr fun v hv =>
    Or.inr ⟨isCell_of_isListing hkey hlist (h v hv).1, (h v hv).2⟩

end Cells

section Entries

variable {key : String}

theorem isLegibleCell_markOpacity {opacity : Option Float} (h : ∀ x ∈ opacity, IsLegibleNumber x) :
    ∀ p ∈ (if key = "mark" then property "mark-opacity" (numberText opacity) else []),
      IsLegibleCell p := by
  split
  · exact isLegibleCell_property (by decide) (suits_numberText (by decide) h)
  · exact List.forall_mem_nil _

theorem suits_partOpacity (hkey : key ∈ partNames) {opacity : Option Float}
    (h : ∀ x ∈ opacity, IsLegibleNumber x) :
    ∀ p ∈ (if key = "mark" then [] else partProperty key "opacity" (numberText opacity)),
      p.1 ∈ partNames ∧ isRowKey p.2.1 = true ∧ Suits p.2.1 p.2.2 := by
  split
  · exact List.forall_mem_nil _
  · exact suits_partProperty hkey (by decide) (suits_numberText (by decide) h)

theorem Graphic.IsLegible.numbers {g : Graphic} (h : g.IsLegible) :
    (∀ x ∈ g.size, IsLegibleNumber x) ∧ (∀ x ∈ g.rotate, IsLegibleNumber x) ∧
      ∀ x ∈ g.opacity, IsLegibleNumber x := by
  cases g with
  | mark m =>
    refine ⟨fun x hx => ?_, h.rotate, h.opacity⟩
    obtain ⟨r, hr, rfl⟩ := Option.map_eq_some_iff.mp hx
    exact h.radius r hr
  | icon i => exact ⟨h.size, h.rotate, h.opacity⟩

/-- The properties of a graphic of either kind. -/
theorem Graphic.properties_entry (g : Graphic) : (g.entry key).properties =
    property key (some g.expression.valueText) ++ property (key ++ "-size") (numberText g.size) ++
      property (key ++ "-rotation") (numberText g.rotate) ++
      if key = "mark" then property "mark-opacity" (numberText g.opacity) else [] := by
  cases g <;> rfl

theorem Graphic.isLegible_entry {g : Graphic} (hkey : key ∈ partNames) (h : g.IsLegible) :
    (g.entry key).IsLegible := by
  obtain ⟨hself, hsizeKey, hrotationKey⟩ := isRowKey_of_mem_partNames hkey
  obtain ⟨hsizeNumber, hrotationNumber⟩ := contentOf_of_mem_partNames hkey
  obtain ⟨hsize, hrotate, hopacity⟩ := h.numbers
  have hgraphic : ∀ v ∈ some g.expression.valueText, Suits key v := by
    rintro v ⟨⟩
    exact suits_expression hkey h
  refine ⟨?_, ?_, fun _ hnil => ?_⟩
  · rw [properties_entry]
    simp only [List.forall_mem_append]
    exact ⟨⟨⟨isLegibleCell_property hself hgraphic,
      isLegibleCell_property hsizeKey (suits_numberText hsizeNumber hsize)⟩,
      isLegibleCell_property hrotationKey (suits_numberText hrotationNumber hrotate)⟩,
      isLegibleCell_markOpacity hopacity⟩
  · cases g with
    | mark m =>
      simp only [Graphic.entry, Mark.entry, List.forall_mem_append]
      exact ⟨⟨⟨⟨⟨suits_partProperty hkey (by decide) (suits_colorText (by decide) h.color),
        suits_partProperty hkey (by decide) (suits_numberText (by decide) h.fillOpacity)⟩,
        suits_partProperty hkey (by decide) (suits_colorText (by decide) h.strokeColor)⟩,
        suits_partProperty hkey (by decide) (suits_numberText (by decide) h.strokeWidth)⟩,
        suits_partProperty hkey (by decide) (suits_numberText (by decide) h.strokeOpacity)⟩,
        suits_partOpacity hkey h.opacity⟩
    | icon i => exact suits_partOpacity hkey h.opacity
  · rw [properties_entry] at hnil
    simp [property] at hnil

theorem isLegible_paint {graphic : Option Graphic} {plain : Option String} (hkey : key ∈ partNames)
    (hgraphic : ∀ g ∈ graphic, g.IsLegible) (hplain : ∀ v ∈ plain, Suits key v) :
    (paint key graphic plain).IsLegible := by
  cases graphic with
  | some g => exact Graphic.isLegible_entry hkey (hgraphic g rfl)
  | none =>
    exact ⟨isLegibleCell_property (isRowKey_of_mem_partNames hkey).1 hplain, List.forall_mem_nil _,
      fun hparts => absurd rfl hparts⟩

theorem Line.isLegible_entry {l : Line} (h : l.IsLegible) : l.entry.IsLegible := by
  rw [Line.entry_eq]
  refine (isLegible_paint (by decide) h.graphicStroke
    (suits_colorText (by decide) h.color)).append
    ⟨?_, List.forall_mem_nil _, fun hparts => absurd rfl hparts⟩
  simp only [Line.others, List.forall_mem_append]
  exact ⟨⟨⟨⟨⟨⟨isLegibleCell_property (by decide) (suits_numberText (by decide) h.width),
    isLegibleCell_property (by decide) (suits_numberText (by decide) h.opacity)⟩,
    isLegibleCell_property (by decide) (suits_wordText (by decide) h.join)⟩,
    isLegibleCell_property (by decide) (suits_wordText (by decide) h.cap)⟩,
    isLegibleCell_dashes h.dasharray⟩,
    isLegibleCell_property (by decide) (suits_numberText (by decide) h.dashOffset)⟩,
    isLegibleCell_property (by decide) (suits_numberText (by decide) h.perpendicularOffset)⟩

theorem Fill.isLegible_entry {f : Fill} (h : f.IsLegible) : f.entry.IsLegible := by
  have hfill : ∀ v ∈ some ((colorText f.color).getD "transparent"), Suits "fill" v := by
    rintro v ⟨⟩
    cases hcolor : f.color with
    | none =>
      have hquotable : IsQuotable "transparent" := Or.inl (by decide)
      have hsuits : Suits "fill" (Expression.text "transparent").valueText :=
        suits_atom (Or.inl (by decide)) (.text hquotable) (isSteady_text hquotable) nofun
      rwa [valueText_transparent] at hsuits
    | some c => exact suits_colorText (by decide) h.color _ (by rw [hcolor]; rfl)
  rw [Fill.entry_eq]
  refine (isLegible_paint (by decide) h.graphicFill hfill).append
    ⟨?_, List.forall_mem_nil _, fun hparts => absurd rfl hparts⟩
  simp only [Fill.others, List.forall_mem_append]
  exact ⟨⟨⟨⟨isLegibleCell_property (by decide) (suits_numberText (by decide) h.fillOpacity),
    isLegibleCell_property (by decide) (suits_colorText (by decide) h.outlineColor)⟩,
    isLegibleCell_property (by decide) (suits_numberText (by decide) h.outlineWidth)⟩,
    isLegibleCell_property (by decide) (suits_numberText (by decide) h.outlineOpacity)⟩,
    isLegibleCell_dashes h.outlineDasharray⟩

theorem suits_template {template : Option String}
    (h : ∀ t ∈ template, ∀ p ∈ Template.cut t.toList, p.IsLegible) :
    ∀ v ∈ template.map fun t => (Template.expression t).valueText, Suits "label" v := by
  intro v hv
  obtain ⟨t, ht, rfl⟩ := Option.map_eq_some_iff.mp hv
  have hparse := Template.parse_expression fun p hp => (h t ht p hp).isReadable
  have hkey : contentOf "label" = .expression := by decide
  exact ⟨Template.isSteady_expression (h t ht),
    isAccepted_of_content hkey (fault?_eq_none_iff.mpr ⟨_, hparse⟩)⟩

theorem suits_offset {offset : Option (Float × Float)}
    (h : ∀ p ∈ offset, IsLegibleNumber p.1 ∧ IsLegibleNumber p.2) :
    ∀ v ∈ offset.map offsetText, Suits "label-offset" v := by
  intro v hv
  obtain ⟨p, hp, rfl⟩ := Option.map_eq_some_iff.mp hv
  have hnumbers : ∀ x ∈ [p.1, p.2], IsLegibleNumber x := by simp [h p hp]
  obtain ⟨ys, hys, hlength⟩ := exists_numbersOf (show "label-offset" ≠ "label" by decide)
    (List.cons_ne_nil _ _) hnumbers
  obtain ⟨y, z, rfl⟩ := List.length_eq_two.mp hlength
  have hkey : contentOf "label-offset" = .offset := by decide
  rw [offsetText_eq]
  exact ⟨isSteady_words (by simp) (List.forall_mem_map.mpr fun x hx =>
    isSteady_display (hnumbers x hx)), isAccepted_of_content hkey ⟨_, _, hys, rfl⟩⟩

theorem isLegibleCell_font {font : Option (List String)} (h : ∀ fs ∈ font, IsFont fs) :
    ∀ p ∈ property "font-family" (font.map fontText), IsLegibleCell p := by
  have hfamily : Sheet.Token.IsKey "font-family" :=
    ⟨"font", by decide, "-family".toList, rfl, by simp [Sheet.Token.isKeyChar]⟩
  refine isLegibleCell_listing hfamily (by decide) fun v hv => ?_
  obtain ⟨fonts, hfonts, rfl⟩ := Option.map_eq_some_iff.mp hv
  have hkey : contentOf "font-family" = .fonts := by decide
  exact ⟨isListing_fontText (h fonts hfonts),
    isAccepted_of_content hkey (fault?_eq_none_iff.mpr ⟨_, fontsOf_fontText (h fonts hfonts)⟩)⟩

theorem Label.isLegible_entry {l : Label} (h : l.IsLegible) : l.entry.IsLegible := by
  refine ⟨?_, List.forall_mem_nil _, fun hparts => absurd rfl hparts⟩
  simp only [Label.entry, List.forall_mem_append]
  exact ⟨⟨⟨⟨⟨⟨⟨⟨⟨⟨isLegibleCell_property (by decide) (suits_template h.template),
    isLegibleCell_font h.font⟩,
    isLegibleCell_property (by decide) (suits_numberText (by decide) h.size)⟩,
    isLegibleCell_property (by decide) (suits_wordText (by decide) h.fontStyle)⟩,
    isLegibleCell_property (by decide) (suits_wordText (by decide) h.fontWeight)⟩,
    isLegibleCell_property (by decide) (suits_colorText (by decide) h.color)⟩,
    isLegibleCell_property (by decide) (suits_numberText (by decide) h.haloWidth)⟩,
    isLegibleCell_property (by decide) (suits_colorText (by decide) h.haloColor)⟩,
    isLegibleCell_property (by decide) (suits_numberText (by decide) h.haloOpacity)⟩,
    isLegibleCell_property (by decide) (suits_offset h.offset)⟩,
    isLegibleCell_property (by decide) (suits_numberText (by decide) h.rotate)⟩

end Entries

end CartoStyle.Style
