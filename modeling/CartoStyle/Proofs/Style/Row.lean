import CartoStyle.Proofs.KeyMap
import CartoStyle.Proofs.Style.Label
import CartoStyle.Proofs.Style.Raster
import CartoStyle.Proofs.Style.Stroke
import CartoStyle.Style.OfSheet

/-!
Rows of symbolizers. A geometry, a label, or a label that shares the row of a
geometry is read back from a row that says the same: the keys that the row has
tell which kinds it describes, and each kind finds its own keys.
-/

namespace CartoStyle.Style

open CartoStyle.Rule

def Symbolizer.IsWritable : Symbolizer → Prop
  | mark m => m.IsWritable
  | icon i => i.IsWritable
  | line l => l.IsWritable
  | fill f => f.IsWritable
  | label l => l.IsWritable
  | raster r => r.IsWritable

def Symbolizer.kind : Symbolizer → Kind
  | mark _ | icon _ => .point
  | line _ => .line
  | fill _ => .polygon
  | label _ => .text
  | raster _ => .raster

section Geometry

variable {row : Row} {ps qs : List (String × String)}

def isRasterKey (key : String) : Bool := "raster-".toList.isPrefixOf key.toList

def geometryOf (ps : List (String × String)) : Option Kind :=
  if (ps.lookup "mark").isSome then some .point
  else if (ps.lookup "stroke").isSome && !(ps.lookup "fill").isSome then some .line
  else if (ps.lookup "fill").isSome then some .polygon
  else if ps.any fun p => isRasterKey p.1 then some .raster
  else none

/-- Font families do not tell the geometry of a row. -/
theorem geometryKind?_eq (h : ∀ key, key ≠ "font-family" → row.get? key = ps.lookup key) :
    geometryKind? row = geometryOf ps := by
  have hraster : (row.entries.any fun p => isRasterKey p.1) =
      ps.any fun p => isRasterKey p.1 := by
    rw [Bool.eq_iff_iff]
    refine (KeyMap.any_key_iff row isRasterKey).trans ?_
    rw [List.any_eq_true]
    constructor
    · rintro ⟨key, hkey, hsome⟩
      rw [h key (by rintro rfl; cases hkey), List.lookup_isSome_iff] at hsome
      obtain ⟨p, hp, heq⟩ := hsome
      obtain rfl : key = p.1 := beq_iff_eq.mp heq
      exact ⟨p, hp, hkey⟩
    · rintro ⟨p, hp, hkey⟩
      refine ⟨p.1, hkey, ?_⟩
      rw [h p.1 (by rintro heq; rw [heq] at hkey; cases hkey), List.lookup_isSome_iff]
      exact ⟨p, hp, beq_self_eq_true p.1⟩
  rw [geometryKind?, geometryOf, ← hraster]
  simp only [KeyMap.contains_eq_isSome]
  rw [h "mark" (by decide), h "stroke" (by decide), h "fill" (by decide)]
  rfl

theorem kinds_eq (h : ∀ key, key ≠ "font-family" → row.get? key = ps.lookup key) :
    kinds row = (geometryOf ps).toList ++
      if (ps.lookup "label").isSome then [.text] else [] := by
  rw [kinds, geometryKind?_eq h, KeyMap.contains_eq_isSome, h "label" (by decide)]

/-- Keys of labels do not tell the geometry of a row. -/
theorem geometryOf_append (ps : List (String × String)) (h : ∀ p ∈ qs, p.1 ∈ labelKeys) :
    geometryOf (ps ++ qs) = geometryOf ps := by
  have hlookup (key : String) (hkey : key ∉ labelKeys) : qs.lookup key = none := by
    rw [List.lookup_eq_none_iff]
    intro p hp
    rw [bne_iff_ne]
    rintro rfl
    exact hkey (h p hp)
  have hraster : (qs.any fun p => isRasterKey p.1) = false := by
    rw [List.any_eq_false]
    intro p hp
    have hkeys : ∀ key ∈ labelKeys, isRasterKey key = false := by decide
    simp [hkeys p.1 (h p hp)]
  simp only [geometryOf, List.lookup_append, List.any_append, hraster, Bool.or_false]
  rw [hlookup "mark" (by decide), hlookup "stroke" (by decide), hlookup "fill" (by decide)]
  simp only [Option.or_none]

end Geometry

/-- The text of the colour map of a symbolizer, which all rows of a rule share. -/
def Symbolizer.colorMapText : Symbolizer → Option String
  | raster r => (r.colorMap.bind (·.entries)).map entriesText
  | _ => none

def Symbolizer.fontText : Symbolizer → Option String
  | label l => l.font.map Style.fontText
  | _ => none

/-- The entry of a geometry tells its kind, leaves the keys of labels alone and is read back as
the geometry. -/
structure Symbolizer.IsDrawnBy (s : Symbolizer) (e : Entry) : Prop where
  entry : s.entry = .ok e
  steady : e.IsSteady
  anchored : ∃ key, key ∉ listKeys ∧ (e.properties.lookup key).isSome = true
  geometry : geometryOf e.properties = some s.kind
  colorMap : e.properties.lookup "raster-color-map" = s.colorMapText
  unlabelled : ∀ key ∈ labelKeys, e.properties.lookup key = none
  reads : ∀ i : Instance, i.Draws e → Symbolizer.ofInstance i s.kind = .ok s

section Drawing

theorem Graphic.isDrawnBy {g : Graphic} (h : g.IsWritable) :
    g.symbolizer.IsDrawnBy (g.entry "mark") where
  entry := by cases g <;> rfl
  steady := Graphic.isSteady_entry (by decide) h
  anchored := ⟨"mark", by decide, by rw [g.lookup_key (by decide)]; rfl⟩
  colorMap := by
    have hnone : (g.entry "mark").properties.lookup "raster-color-map" = none :=
      g.lookup_entry_eq_none (by decide)
    cases g <;> exact hnone
  geometry := by
    rw [geometryOf, g.lookup_key (by decide)]
    cases g <;> rfl
  unlabelled key hkey := by
    have hkeys : ∀ k ∈ labelKeys, k ∉ graphicKeys "mark" := by decide
    exact g.lookup_entry_eq_none (hkeys key hkey)
  reads i hi := by
    have hkeys : ∀ k ∈ graphicKeys "mark", k ∉ labelKeys := by decide
    have hdepicts : i.Depicts "mark" g :=
      ⟨fun k hk => hi.raw k (hkeys k hk), fun k => hi.part "mark" (by decide) k⟩
    have hkind : g.symbolizer.kind = .point := by cases g <;> rfl
    rw [hkind, Symbolizer.ofInstance, Graphic.ofInstance_eq hdepicts (by decide) h]
    rfl

theorem Line.lookup_entry_eq_none (l : Line) {key : String} (hgraphic : key ∉ graphicKeys "stroke")
    (hother : key ∉ otherKeys) : l.entry.properties.lookup key = none := by
  rw [entry_eq, lookup_append, lookup_paint_eq_none hgraphic, l.lookup_others_eq_none hother]
  rfl

theorem Line.isSome_lookup_stroke {l : Line} (h : l.IsWritable) :
    (l.entry.properties.lookup "stroke").isSome = true := by
  rw [entry_eq, lookup_append, l.lookup_others "stroke" (by decide), Option.or_none]
  refine isSome_lookup_paint (by decide) fun hnone => ?_
  have hdrawn := h.drawn
  rw [hnone] at hdrawn
  simpa [colorText] using hdrawn

theorem Line.isDrawnBy {l : Line} (h : l.IsWritable) : (Symbolizer.line l).IsDrawnBy l.entry where
  entry := rfl
  steady := isSteady_entry h
  anchored := ⟨"stroke", by decide, isSome_lookup_stroke h⟩
  colorMap := l.lookup_entry_eq_none (by decide) (by decide)
  geometry := by
    rw [geometryOf, l.lookup_entry_eq_none (by decide) (by decide), isSome_lookup_stroke h,
      l.lookup_entry_eq_none (by decide) (by decide)]
    rfl
  unlabelled key hkey := by
    have hkeys : ∀ k ∈ labelKeys, k ∉ graphicKeys "stroke" ∧ k ∉ otherKeys := by decide
    exact l.lookup_entry_eq_none (hkeys key hkey).1 (hkeys key hkey).2
  reads i hi := by
    show (do return Symbolizer.line (← Line.ofInstance i)) = _
    rw [Line.ofInstance_eq h hi]
    rfl

theorem Fill.lookup_entry_eq_none (f : Fill) {key : String} (hgraphic : key ∉ graphicKeys "fill")
    (hother : key ∉ otherKeys) : f.entry.properties.lookup key = none := by
  rw [entry_eq, lookup_append, lookup_paint_eq_none hgraphic, f.lookup_others_eq_none hother]
  rfl

theorem Fill.isSome_lookup_fill (f : Fill) : (f.entry.properties.lookup "fill").isSome = true := by
  rw [entry_eq, lookup_append, f.lookup_others "fill" (by decide), Option.or_none]
  exact isSome_lookup_paint (by decide) fun _ => rfl

theorem Fill.isDrawnBy {f : Fill} (h : f.IsWritable) : (Symbolizer.fill f).IsDrawnBy f.entry where
  entry := rfl
  steady := isSteady_entry h
  anchored := ⟨"fill", by decide, f.isSome_lookup_fill⟩
  colorMap := f.lookup_entry_eq_none (by decide) (by decide)
  geometry := by
    rw [geometryOf, f.lookup_entry_eq_none (by decide) (by decide), f.isSome_lookup_fill]
    simp [Symbolizer.kind]
  unlabelled key hkey := by
    have hkeys : ∀ k ∈ labelKeys, k ∉ graphicKeys "fill" ∧ k ∉ otherKeys := by decide
    exact f.lookup_entry_eq_none (hkeys key hkey).1 (hkeys key hkey).2
  reads i hi := by
    show (do return Symbolizer.fill (← Fill.ofInstance i)) = _
    rw [Fill.ofInstance_eq h hi]
    rfl

theorem Raster.exists_isDrawnBy {r : Raster} (h : r.IsWritable) :
    ∃ e, (Symbolizer.raster r).IsDrawnBy e := by
  obtain ⟨enhancements, gammas, hentry, hsteady, hreads⟩ := exists_entry h
  have hlookup {key : String} (hkey : key ∉ ["raster-opacity", "raster-channels",
      "raster-color-map", "raster-color-map-type", "raster-contrast-enhancement",
      "raster-gamma"]) : (r.properties enhancements gammas).lookup key = none := by
    simp only [List.mem_cons, not_or] at hkey
    simp [properties, lookup_property, List.lookup_append, hkey]
  have hchannels : ((r.properties enhancements gammas).any fun p => isRasterKey p.1) = true := by
    have hkey : isRasterKey "raster-channels" = true := by decide
    refine List.any_eq_true.mpr ⟨("raster-channels", r.channelsExpression.valueText), ?_, hkey⟩
    simp [properties, property]
  refine ⟨_, hentry, hsteady, ⟨"raster-channels", by decide, ?_⟩, ?_, ?_, fun key hkey => ?_,
    fun i hi => ?_⟩
  · simp [properties, lookup_property, List.lookup_append]
  · rw [geometryOf, hlookup (by decide), hlookup (by decide), hlookup (by decide), hchannels]
    rfl
  · simp [properties, lookup_property, List.lookup_append, Symbolizer.colorMapText]
  · have hkeys : ∀ k ∈ labelKeys, k ∉ ["raster-opacity", "raster-channels", "raster-color-map",
      "raster-color-map-type", "raster-contrast-enhancement", "raster-gamma"] := by decide
    exact hlookup (hkeys key hkey)
  · show (do return Symbolizer.raster (← Raster.ofInstance i)) = _
    rw [hreads i hi]
    rfl

/-- Every geometry that can be written is drawn by its entry. -/
theorem Symbolizer.exists_isDrawnBy {s : Symbolizer} (h : s.IsWritable) (hkind : s.kind ≠ .text) :
    ∃ e, s.IsDrawnBy e := by
  cases s with
  | mark m => exact ⟨_, Graphic.isDrawnBy (g := .mark m) h⟩
  | icon i => exact ⟨_, Graphic.isDrawnBy (g := .icon i) h⟩
  | line l => exact ⟨_, Line.isDrawnBy h⟩
  | fill f => exact ⟨_, Fill.isDrawnBy h⟩
  | label l => exact absurd rfl hkind
  | raster r => exact Raster.exists_isDrawnBy h

end Drawing

/-- The row and the parts say what the entry says. Font families are shared by all rows, so
only with a label there is a word about them. -/
structure Instance.Says (i : Instance) (e : Entry) : Prop where
  raw : ∀ key, key ≠ "font-family" → i.raw? key = e.properties.lookup key
  font : (e.properties.lookup "label").isSome = true →
    i.raw? "font-family" = e.properties.lookup "font-family"
  part : ∀ part ∈ partNames, ∀ key, i.part? part key = e.partValue? part key

/-- A geometry, a label, or both in one row, all with written forms. -/
inductive IsRow : List Symbolizer → Prop
  | geometry {s : Symbolizer} (h : s.IsWritable) (hkind : s.kind ≠ .text) : IsRow [s]
  | label {l : Label} (h : l.IsWritable) : IsRow [.label l]
  | both {s : Symbolizer} {l : Label} (h : s.IsWritable) (hkind : s.kind ≠ .text)
      (hl : l.IsWritable) : IsRow [s, .label l]

/-- The entry of a row tells what it shares with other rows and is read back as the row. -/
structure IsWrittenBy (row : List Symbolizer) (e : Entry) : Prop where
  entry : rowEntry row = .ok e
  steady : e.IsSteady
  anchored : ∃ key, key ∉ listKeys ∧ (e.properties.lookup key).isSome = true
  colorMap : e.properties.lookup "raster-color-map" = row.findSome? Symbolizer.colorMapText
  font : e.properties.lookup "font-family" = row.findSome? Symbolizer.fontText
  label : (e.properties.lookup "label").isSome = true → ∃ l, Symbolizer.label l ∈ row
  reads : ∀ i : Instance, i.Says e → symbolizersOf i = .ok row

section Reading

variable {i : Instance} {s : Symbolizer} {l : Label} {e : Entry}

/-- Only labels have a font. -/
theorem Symbolizer.fontText_eq_none (hkind : s.kind ≠ .text) : s.fontText = none := by
  cases s with
  | label l => exact absurd rfl hkind
  | _ => rfl

theorem Symbolizer.IsDrawnBy.isWrittenBy (h : s.IsDrawnBy e) (hkind : s.kind ≠ .text) :
    IsWrittenBy [s] e where
  entry := by
    rw [rowEntry, List.mapM_cons, h.entry]
    rfl
  steady := h.steady
  anchored := h.anchored
  colorMap := by
    rw [h.colorMap]
    cases htext : s.colorMapText <;> simp [htext]
  font := by
    have hnone := fontText_eq_none hkind
    rw [h.unlabelled _ (by decide)]
    simp [hnone]
  label hlabel := by
    rw [h.unlabelled _ (by decide)] at hlabel
    cases hlabel
  reads i hi := by
    have hdraws : i.Draws e := ⟨fun key hkey => hi.raw key (by rintro rfl; exact hkey (by decide)),
      hi.part⟩
    have hkinds : kinds i.row = [s.kind] := by
      rw [kinds_eq hi.raw, h.geometry, h.unlabelled _ (by decide)]
      rfl
    rw [symbolizersOf, hkinds, List.mapM_cons, h.reads i hdraws]
    rfl

theorem Label.key_mem_labelKeys (l : Label) : ∀ p ∈ l.entry.properties, p.1 ∈ labelKeys := by
  simp only [Label.entry, List.forall_mem_append, forall_mem_property]
  refine ⟨⟨⟨⟨⟨⟨⟨⟨⟨⟨?_, ?_⟩, ?_⟩, ?_⟩, ?_⟩, ?_⟩, ?_⟩, ?_⟩, ?_⟩, ?_⟩, ?_⟩ <;> intro _ _ <;> decide

theorem Label.lookup_entry_eq_none (l : Label) {key : String} (hkey : key ∉ labelKeys) :
    l.entry.properties.lookup key = none := by
  rw [List.lookup_eq_none_iff]
  intro p hp
  rw [bne_iff_ne]
  rintro rfl
  exact hkey (l.key_mem_labelKeys p hp)

theorem Label.isSome_lookup_label (h : l.IsWritable) :
    (l.entry.properties.lookup "label").isSome = true := by
  simpa [Label.entry, lookup_property, List.lookup_append] using h.present

theorem Label.lookup_font (l : Label) :
    l.entry.properties.lookup "font-family" = l.font.map Style.fontText := by
  simp [Label.entry, lookup_property, List.lookup_append]

theorem Label.isWrittenBy (h : l.IsWritable) : IsWrittenBy [.label l] l.entry where
  entry := rfl
  steady := isSteady_entry h
  anchored := ⟨"label", by decide, isSome_lookup_label h⟩
  colorMap := l.lookup_entry_eq_none (by decide)
  font := by
    rw [l.lookup_font]
    cases hfont : l.font <;> simp [Symbolizer.fontText, hfont]
  label _ := ⟨l, List.mem_singleton_self _⟩
  reads i hi := by
    have hlabels : i.Labels l.entry := by
      intro key _
      by_cases hfont : key = "font-family"
      · rw [hfont]
        exact hi.font (isSome_lookup_label h)
      · exact hi.raw key hfont
    have hgeometry : geometryOf l.entry.properties = none :=
      geometryOf_append [] l.key_mem_labelKeys
    have hkinds : kinds i.row = [.text] := by
      rw [kinds_eq hi.raw, hgeometry, if_pos (isSome_lookup_label h)]
      rfl
    show (kinds i.row).mapM (Symbolizer.ofInstance i) = _
    rw [hkinds, List.mapM_cons, Symbolizer.ofInstance, Label.ofInstance_eq h hlabels]
    rfl

/-- In a shared row the keys of labels are those of the label. -/
theorem Symbolizer.IsDrawnBy.lookup_append_label (h : s.IsDrawnBy e) {key : String}
    (hkey : key ∈ labelKeys) :
    (e.append l.entry).properties.lookup key = l.entry.properties.lookup key := by
  rw [lookup_append, h.unlabelled key hkey, Option.none_or]

theorem Symbolizer.IsDrawnBy.isSome_lookup_label (h : s.IsDrawnBy e) (hl : l.IsWritable) :
    ((e.append l.entry).properties.lookup "label").isSome = true := by
  rw [h.lookup_append_label (by decide)]
  exact Label.isSome_lookup_label hl

/-- A label finds its keys in the row of a geometry. -/
theorem Symbolizer.IsDrawnBy.labels_append (h : s.IsDrawnBy e) (hl : l.IsWritable)
    (hi : i.Says (e.append l.entry)) : i.Labels l.entry := by
  intro key hkey
  rw [← h.lookup_append_label hkey]
  by_cases hfont : key = "font-family"
  · rw [hfont]
    exact hi.font (h.isSome_lookup_label hl)
  · exact hi.raw key hfont

/-- A geometry finds its keys in the row that it shares with a label. -/
theorem draws_append_label (hi : i.Says (e.append l.entry)) : i.Draws e where
  raw key hkey := by
    rw [hi.raw key (by rintro rfl; exact hkey (by decide)), lookup_append,
      l.lookup_entry_eq_none hkey, Option.or_none]
  part part hpart key := by
    rw [hi.part part hpart key, partValue?_append]
    exact Option.or_none

theorem Symbolizer.IsDrawnBy.kinds_append (h : s.IsDrawnBy e) (hl : l.IsWritable)
    (hi : i.Says (e.append l.entry)) : kinds i.row = [s.kind, .text] := by
  have hgeometry : geometryOf (e.append l.entry).properties = some s.kind := by
    rw [← h.geometry]
    exact geometryOf_append _ l.key_mem_labelKeys
  rw [kinds_eq hi.raw, hgeometry, if_pos (h.isSome_lookup_label hl)]
  rfl

/-- A geometry and a label are written in one row and read back from it. -/
theorem Symbolizer.IsDrawnBy.append_label (h : s.IsDrawnBy e) (hkind : s.kind ≠ .text)
    (hl : l.IsWritable) : IsWrittenBy [s, .label l] (e.append l.entry) where
  entry := by
    rw [rowEntry, List.mapM_cons, h.entry]
    rfl
  steady := h.steady.append (Label.isSteady_entry hl)
  anchored := by
    obtain ⟨key, hkey, hsome⟩ := h.anchored
    refine ⟨key, hkey, ?_⟩
    rw [lookup_append, Option.isSome_or, hsome]
    rfl
  colorMap := by
    have hnone : (Symbolizer.label l).colorMapText = none := rfl
    rw [lookup_append, h.colorMap, l.lookup_entry_eq_none (by decide), Option.or_none]
    cases htext : s.colorMapText <;> simp [htext, hnone]
  font := by
    have hnone := fontText_eq_none hkind
    have hfont : (Symbolizer.label l).fontText = l.font.map Style.fontText := rfl
    rw [h.lookup_append_label (by decide), l.lookup_font]
    cases htext : l.font <;> simp [hnone, hfont, htext]
  label _ := ⟨l, by simp⟩
  reads i hi := by
    rw [symbolizersOf, h.kinds_append hl hi, List.mapM_cons, h.reads i (draws_append_label hi),
      List.mapM_cons, Symbolizer.ofInstance, Label.ofInstance_eq hl (h.labels_append hl hi)]
    rfl

/-- Every row has an entry that is read back as the row. -/
theorem IsRow.exists_isWrittenBy {row : List Symbolizer} (h : IsRow row) :
    ∃ e, IsWrittenBy row e := by
  cases h with
  | geometry h hkind =>
    obtain ⟨e, he⟩ := Symbolizer.exists_isDrawnBy h hkind
    exact ⟨e, he.isWrittenBy hkind⟩
  | label h => exact ⟨_, Label.isWrittenBy h⟩
  | both h hkind hl =>
    obtain ⟨e, he⟩ := Symbolizer.exists_isDrawnBy h hkind
    exact ⟨_, he.append_label hkind hl⟩

end Reading

end CartoStyle.Style
