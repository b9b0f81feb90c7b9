import CartoStyle.Proofs.Style.Schema
import CartoStyle.Proofs.Style.WriteFault
import CartoStyle.Proofs.Tree.Json
import CartoStyle.Style.File

/-!
A style document is read back from its JSON form, and from every tree that
extends it. Each record has its slots, which are its fields and those left out;
that the extension of its object is read as the record follows slot by slot. A
file keeps the document if the numbers in it come back.
-/

namespace CartoStyle

open CartoStyle.Tree

variable {gs : Fields} {u : Tree}

namespace Style

section Symbolizers

theorem Symbol.find?_documentName (s : Symbol) :
    all.find? (documentName · == documentName s) = some s := by
  cases s <;> decide

def Mark.slots (m : Mark) : Slots :=
  [("wellKnownName", some (.text m.symbol.documentName)),
    ("color", m.color.map .text), ("fillOpacity", m.fillOpacity.map .number),
    ("opacity", m.opacity.map .number), ("radius", m.radius.map .number),
    ("rotate", m.rotate.map .number), ("strokeColor", m.strokeColor.map .text),
    ("strokeWidth", m.strokeWidth.map .number), ("strokeOpacity", m.strokeOpacity.map .number)]

theorem Mark.fields_eq (m : Mark) : m.fields = present m.slots := by
  simp [fields, present, slots, field, Function.comp_def]

theorem Mark.exists_tagged? {m : Mark}
    (h : Extends (.part .symbolizer) (kindTree "Mark" m.fields) u) :
    ∃ t, u.tagged? "kind" = some ("Mark", t) ∧ ofTree? t = some m := by
  rw [kindTree, m.fields_eq] at h
  obtain ⟨gs, htagged, hholds⟩ := h.exists_tagged? rfl (by decide)
  refine ⟨_, htagged, ?_⟩
  have hunrepeated := unrepeated_of_holds hholds
  simp only [slots, List.forall_mem_cons, List.map_cons, List.map_nil] at hholds hunrepeated
  obtain ⟨hsymbol, hcolor, hfillOpacity, hopacity, hradius, hrotate, hstrokeColor, hstrokeWidth,
    hstrokeOpacity, -⟩ := hholds
  have hsymbol : required (spelled? Symbol.documentName Symbol.all) "wellKnownName" gs =
      some m.symbol :=
    hsymbol.required fun u hu => by
      rw [Extends.eq_of_data hu, spelled?_text Symbol.find?_documentName]
  rw [ofTree?, fields?, if_pos hunrepeated, Option.bind_eq_bind, Option.bind_some, hsymbol,
    hcolor.text, hfillOpacity.number, hopacity.number, hradius.number, hrotate.number,
    hstrokeColor.text, hstrokeWidth.number, hstrokeOpacity.number]
  rfl

def Icon.slots (i : Icon) : Slots :=
  [("image", i.image.map .text), ("size", i.size.map .number), ("rotate", i.rotate.map .number),
    ("opacity", i.opacity.map .number)]

theorem Icon.fields_eq (i : Icon) : i.fields = present i.slots := by
  simp [fields, present, slots, field, Function.comp_def]

theorem Icon.exists_tagged? {i : Icon}
    (h : Extends (.part .symbolizer) (kindTree "Icon" i.fields) u) :
    ∃ t, u.tagged? "kind" = some ("Icon", t) ∧ ofTree? t = some i := by
  rw [kindTree, i.fields_eq] at h
  obtain ⟨gs, htagged, hholds⟩ := h.exists_tagged? rfl (by decide)
  refine ⟨_, htagged, ?_⟩
  have hunrepeated := unrepeated_of_holds hholds
  simp only [slots, List.forall_mem_cons, List.map_cons, List.map_nil] at hholds hunrepeated
  obtain ⟨himage, hsize, hrotate, hopacity, -⟩ := hholds
  rw [ofTree?, fields?, if_pos hunrepeated, Option.bind_eq_bind, Option.bind_some, himage.text,
    hsize.number, hrotate.number, hopacity.number]
  rfl

theorem Graphic.ofTree?_of_extends {g : Graphic} (h : Extends (.part .symbolizer) g.tree u) :
    ofTree? u = some g := by
  cases g with
  | mark m =>
    obtain ⟨t, htagged, hread⟩ := Mark.exists_tagged? h
    simp [ofTree?, htagged, hread]
  | icon i =>
    obtain ⟨t, htagged, hread⟩ := Icon.exists_tagged? h
    simp [ofTree?, htagged, hread]

def Line.slots (l : Line) : Slots :=
  [("color", l.color.map .text), ("width", l.width.map .number),
    ("opacity", l.opacity.map .number), ("join", l.join.map .text), ("cap", l.cap.map .text),
    ("dasharray", l.dasharray.map numbers), ("dashOffset", l.dashOffset.map .number),
    ("perpendicularOffset", l.perpendicularOffset.map .number),
    ("graphicStroke", l.graphicStroke.map Graphic.tree)]

theorem Line.fields_eq (l : Line) : l.fields = present l.slots := by
  simp [fields, present, slots, field, Function.comp_def]

theorem Line.exists_tagged? {l : Line}
    (h : Extends (.part .symbolizer) (kindTree "Line" l.fields) u) :
    ∃ t, u.tagged? "kind" = some ("Line", t) ∧ ofTree? t = some l := by
  rw [kindTree, l.fields_eq] at h
  obtain ⟨gs, htagged, hholds⟩ := h.exists_tagged? rfl (by decide)
  refine ⟨_, htagged, ?_⟩
  have hunrepeated := unrepeated_of_holds hholds
  simp only [slots, List.forall_mem_cons, List.map_cons, List.map_nil] at hholds hunrepeated
  obtain ⟨hcolor, hwidth, hopacity, hjoin, hcap, hdasharray, hdashOffset, hperpendicularOffset,
    hgraphicStroke, -⟩ := hholds
  have hgraphicStroke : optional Graphic.ofTree? "graphicStroke" gs = some l.graphicStroke :=
    hgraphicStroke.optional rfl fun _ _ _ hu => Graphic.ofTree?_of_extends hu
  rw [ofTree?, fields?, if_pos hunrepeated, Option.bind_eq_bind, Option.bind_some, hcolor.text,
    hwidth.number, hopacity.number, hjoin.text, hcap.text, hdasharray.numbers, hdashOffset.number,
    hperpendicularOffset.number, hgraphicStroke]
  rfl

def Fill.slots (f : Fill) : Slots :=
  [("color", f.color.map .text), ("fillOpacity", f.fillOpacity.map .number),
    ("opacity", f.opacity.map .number), ("outlineColor", f.outlineColor.map .text),
    ("outlineWidth", f.outlineWidth.map .number),
    ("outlineOpacity", f.outlineOpacity.map .number),
    ("outlineDasharray", f.outlineDasharray.map numbers),
    ("graphicFill", f.graphicFill.map Graphic.tree)]

theorem Fill.fields_eq (f : Fill) : f.fields = present f.slots := by
  simp [fields, present, slots, field, Function.comp_def]

theorem Fill.exists_tagged? {f : Fill}
    (h : Extends (.part .symbolizer) (kindTree "Fill" f.fields) u) :
    ∃ t, u.tagged? "kind" = some ("Fill", t) ∧ ofTree? t = some f := by
  rw [kindTree, f.fields_eq] at h
  obtain ⟨gs, htagged, hholds⟩ := h.exists_tagged? rfl (by decide)
  refine ⟨_, htagged, ?_⟩
  have hunrepeated := unrepeated_of_holds hholds
  simp only [slots, List.forall_mem_cons, List.map_cons, List.map_nil] at hholds hunrepeated
  obtain ⟨hcolor, hfillOpacity, hopacity, houtlineColor, houtlineWidth, houtlineOpacity,
    houtlineDasharray, hgraphicFill, -⟩ := hholds
  have hgraphicFill : optional Graphic.ofTree? "graphicFill" gs = some f.graphicFill :=
    hgraphicFill.optional rfl fun _ _ _ hu => Graphic.ofTree?_of_extends hu
  rw [ofTree?, fields?, if_pos hunrepeated, Option.bind_eq_bind, Option.bind_some, hcolor.text,
    hfillOpacity.number, hopacity.number, houtlineColor.text, houtlineWidth.number,
    houtlineOpacity.number, houtlineDasharray.numbers, hgraphicFill]
  rfl

def Label.slots (l : Label) : Slots :=
  [("label", l.template.map .text), ("font", l.font.map texts), ("size", l.size.map .number),
    ("fontStyle", l.fontStyle.map .text), ("fontWeight", l.fontWeight.map .text),
    ("color", l.color.map .text), ("haloWidth", l.haloWidth.map .number),
    ("haloColor", l.haloColor.map .text), ("haloOpacity", l.haloOpacity.map .number),
    ("offset", l.offset.map pairTree), ("rotate", l.rotate.map .number)]

theorem Label.fields_eq (l : Label) : l.fields = present l.slots := by
  simp [fields, present, slots, field, Function.comp_def]

theorem Label.exists_tagged? {l : Label}
    (h : Extends (.part .symbolizer) (kindTree "Text" l.fields) u) :
    ∃ t, u.tagged? "kind" = some ("Text", t) ∧ ofTree? t = some l := by
  rw [kindTree, l.fields_eq] at h
  obtain ⟨gs, htagged, hholds⟩ := h.exists_tagged? rfl (by decide)
  refine ⟨_, htagged, ?_⟩
  have hunrepeated := unrepeated_of_holds hholds
  simp only [slots, List.forall_mem_cons, List.map_cons, List.map_nil] at hholds hunrepeated
  obtain ⟨htemplate, hfont, hsize, hfontStyle, hfontWeight, hcolor, hhaloWidth, hhaloColor,
    hhaloOpacity, hoffset, hrotate, -⟩ := hholds
  have hoffset : optional pair? "offset" gs = some l.offset :=
    hoffset.optional rfl fun _ _ _ hu => by rw [Extends.eq_of_data hu]; rfl
  rw [ofTree?, fields?, if_pos hunrepeated, Option.bind_eq_bind, Option.bind_some, htemplate.text,
    hfont.texts, hsize.number, hfontStyle.text, hfontWeight.text, hcolor.text, hhaloWidth.number,
    hhaloColor.text, hhaloOpacity.number, hoffset, hrotate.number]
  rfl

end Symbolizers

section Rasters

theorem ColorMapKind.find?_name (k : ColorMapKind) : all.find? (name · == name k) = some k := by
  cases k <;> decide

theorem Enhancement.find?_name (e : Enhancement) : all.find? (name · == name e) = some e := by
  cases e <;> decide

def ColorMapEntry.slots (e : ColorMapEntry) : Slots :=
  [("color", some (.text e.color)), ("quantity", e.quantity.map .number),
    ("label", e.label.map .text), ("opacity", e.opacity.map .number)]

theorem ColorMapEntry.tree_eq (e : ColorMapEntry) : e.tree = .object (present e.slots) := by
  simp [tree, present, slots, field, Function.comp_def]

theorem ColorMapEntry.ofTree?_of_extends {e : ColorMapEntry}
    (h : Extends (.part .colorMapEntry) e.tree u) : ofTree? u = some e := by
  rw [e.tree_eq] at h
  obtain ⟨gs, rfl, hholds⟩ := h.exists_holds (by simp [slots]) (by simp [slots, Part.names])
  have hunrepeated := unrepeated_of_holds hholds
  simp only [slots, List.forall_mem_cons, List.map_cons, List.map_nil] at hholds hunrepeated
  obtain ⟨hcolor, hquantity, hlabel, hopacity, -⟩ := hholds
  have hcolor : required text? "color" gs = some e.color :=
    hcolor.required fun u hu => by rw [Extends.eq_of_data hu]; rfl
  rw [ofTree?, fields?, if_pos hunrepeated, Option.bind_eq_bind, Option.bind_some, hcolor,
    hquantity.number, hlabel.text, hopacity.number]
  rfl

def ColorMap.slots (m : ColorMap) : Slots :=
  [("type", m.kind.map fun k => .text k.name),
    ("colorMapEntries", m.entries.map fun es => .list (es.map ColorMapEntry.tree))]

theorem ColorMap.tree_eq (m : ColorMap) : m.tree = .object (present m.slots) := by
  simp [tree, present, slots, field, Function.comp_def]

theorem ColorMap.ofTree?_of_extends {m : ColorMap} (h : Extends (.part .colorMap) m.tree u) :
    ofTree? u = some m := by
  rw [m.tree_eq] at h
  obtain ⟨gs, rfl, hholds⟩ := h.exists_holds (by simp [slots]) (by simp [slots, Part.names])
  have hunrepeated := unrepeated_of_holds hholds
  simp only [slots, List.forall_mem_cons, List.map_cons, List.map_nil] at hholds hunrepeated
  obtain ⟨hkind, hentries, -⟩ := hholds
  have hkind : optional (spelled? ColorMapKind.name ColorMapKind.all) "type" gs = some m.kind :=
    hkind.optional rfl fun k _ u hu => by
      rw [Extends.eq_of_data hu, spelled?_text ColorMapKind.find?_name]
  have hentries : optional (list? ColorMapEntry.ofTree?) "colorMapEntries" gs = some m.entries :=
    hentries.optional rfl fun es _ u hu =>
      Extends.list?_eq hu fun _ _ _ ht => ColorMapEntry.ofTree?_of_extends ht
  rw [ofTree?, fields?, if_pos hunrepeated, Option.bind_eq_bind, Option.bind_some, hkind, hentries]
  rfl

def Contrast.slots (c : Contrast) : Slots :=
  [("enhancementType", c.enhancement.map fun e => .text e.name),
    ("gammaValue", c.gamma.map .number)]

theorem Contrast.tree_eq (c : Contrast) : c.tree = .object (present c.slots) := by
  simp [tree, present, slots, field, Function.comp_def]

theorem Contrast.ofTree?_of_extends {c : Contrast} (h : Extends (.part .contrast) c.tree u) :
    ofTree? u = some c := by
  rw [c.tree_eq] at h
  obtain ⟨gs, rfl, hholds⟩ := h.exists_holds (by simp [slots]) (by simp [slots, Part.names])
  have hunrepeated := unrepeated_of_holds hholds
  simp only [slots, List.forall_mem_cons, List.map_cons, List.map_nil] at hholds hunrepeated
  obtain ⟨henhancement, hgamma, -⟩ := hholds
  have henhancement : optional (spelled? Enhancement.name Enhancement.all) "enhancementType" gs =
      some c.enhancement :=
    henhancement.optional rfl fun e _ u hu => by
      rw [Extends.eq_of_data hu, spelled?_text Enhancement.find?_name]
  rw [ofTree?, fields?, if_pos hunrepeated, Option.bind_eq_bind, Option.bind_some, henhancement,
    hgamma.number]
  rfl

def Channel.slots (c : Channel) : Slots :=
  [("sourceChannelName", c.source.map .text),
    ("contrastEnhancement", c.contrast.map Contrast.tree)]

theorem Channel.tree_eq (c : Channel) : c.tree = .object (present c.slots) := by
  simp [tree, present, slots, field, Function.comp_def]

theorem Channel.ofTree?_of_extends {c : Channel} (h : Extends (.part .channel) c.tree u) :
    ofTree? u = some c := by
  rw [c.tree_eq] at h
  obtain ⟨gs, rfl, hholds⟩ := h.exists_holds (by simp [slots]) (by simp [slots, Part.names])
  have hunrepeated := unrepeated_of_holds hholds
  simp only [slots, List.forall_mem_cons, List.map_cons, List.map_nil] at hholds hunrepeated
  obtain ⟨hsource, hcontrast, -⟩ := hholds
  have hcontrast : optional Contrast.ofTree? "contrastEnhancement" gs = some c.contrast :=
    hcontrast.optional rfl fun _ _ _ hu => Contrast.ofTree?_of_extends hu
  rw [ofTree?, fields?, if_pos hunrepeated, Option.bind_eq_bind, Option.bind_some, hsource.text,
    hcontrast]
  rfl

def Channels.slots : Channels → Slots
  | rgb red green blue =>
    [("redChannel", some red.tree), ("greenChannel", some green.tree),
      ("blueChannel", some blue.tree), ("grayChannel", none)]
  | gray shade =>
    [("redChannel", none), ("greenChannel", none), ("blueChannel", none),
      ("grayChannel", some shade.tree)]

theorem Channels.tree_eq (c : Channels) : c.tree = .object (present c.slots) := by
  cases c <;> rfl

/-- The gray channel is not taken for the colours, as the colours are all needed. -/
theorem Channels.ofTree?_of_extends {c : Channels} (h : Extends (.part .channels) c.tree u) :
    ofTree? u = some c := by
  rw [c.tree_eq] at h
  obtain ⟨gs, rfl, hholds⟩ := h.exists_holds (by cases c <;> simp [slots])
    (by cases c <;> simp [slots, Part.names])
  have hread {name : String} {channel : Channel}
      (hchannel : Holds (.part .channel) name (some channel.tree) gs) :
      required Channel.ofTree? name gs = some channel :=
    hchannel.required fun _ hu => Channel.ofTree?_of_extends hu
  have hunrepeated := unrepeated_of_holds hholds
  cases c with
  | rgb red green blue =>
    simp only [slots, List.forall_mem_cons, List.map_cons, List.map_nil] at hholds hunrepeated
    obtain ⟨hred, hgreen, hblue, -⟩ := hholds
    have hcolors : unrepeated ["redChannel", "greenChannel", "blueChannel"] gs = true := by
      simp only [unrepeated, List.all_cons, List.all_nil, Bool.and_eq_true] at hunrepeated ⊢
      exact ⟨hunrepeated.1, hunrepeated.2.1, hunrepeated.2.2.1, trivial⟩
    rw [ofTree?, rgb?, hcolors, hread hred, hread hgreen, hread hblue]
    rfl
  | gray shade =>
    simp only [slots, List.forall_mem_cons, List.map_cons, List.map_nil] at hholds hunrepeated
    obtain ⟨hred, -, -, hgray, -⟩ := hholds
    have hnone : required Channel.ofTree? "redChannel" gs = none := by
      rcases hred.lookup_none with hred | hred <;> rw [required, hred] <;> rfl
    have hshade : unrepeated ["grayChannel"] gs = true := by
      simp only [unrepeated, List.all_cons, List.all_nil, Bool.and_eq_true] at hunrepeated ⊢
      exact hunrepeated.2.2.2
    have hrgb : rgb? gs = none := by
      rw [rgb?, hnone]
      cases unrepeated ["redChannel", "greenChannel", "blueChannel"] gs <;> rfl
    rw [ofTree?, hrgb, gray?, hshade, hread hgray]
    rfl

def Raster.slots (r : Raster) : Slots :=
  [("opacity", r.opacity.map .number), ("colorMap", r.colorMap.map ColorMap.tree),
    ("channelSelection", r.channels.map Channels.tree),
    ("contrastEnhancement", r.contrast.map Contrast.tree)]

theorem Raster.fields_eq (r : Raster) : r.fields = present r.slots := by
  simp [fields, present, slots, field, Function.comp_def]

theorem Raster.exists_tagged? {r : Raster}
    (h : Extends (.part .symbolizer) (kindTree "Raster" r.fields) u) :
    ∃ t, u.tagged? "kind" = some ("Raster", t) ∧ ofTree? t = some r := by
  rw [kindTree, r.fields_eq] at h
  obtain ⟨gs, htagged, hholds⟩ := h.exists_tagged? rfl (by decide)
  refine ⟨_, htagged, ?_⟩
  have hunrepeated := unrepeated_of_holds hholds
  simp only [slots, List.forall_mem_cons, List.map_cons, List.map_nil] at hholds hunrepeated
  obtain ⟨hopacity, hcolorMap, hchannels, hcontrast, -⟩ := hholds
  have hcolorMap : optional ColorMap.ofTree? "colorMap" gs = some r.colorMap :=
    hcolorMap.optional rfl fun _ _ _ hu => ColorMap.ofTree?_of_extends hu
  have hchannels : optional Channels.ofTree? "channelSelection" gs = some r.channels :=
    hchannels.optional rfl fun _ _ _ hu => Channels.ofTree?_of_extends hu
  have hcontrast : optional Contrast.ofTree? "contrastEnhancement" gs = some r.contrast :=
    hcontrast.optional rfl fun _ _ _ hu => Contrast.ofTree?_of_extends hu
  rw [ofTree?, fields?, if_pos hunrepeated, Option.bind_eq_bind, Option.bind_some, hopacity.number,
    hcolorMap, hchannels, hcontrast]
  rfl

end Rasters

theorem Symbolizer.ofTree?_of_extends {y : Symbolizer} (h : Extends (.part .symbolizer) y.tree u) :
    ofTree? u = some y := by
  cases y with
  | mark m =>
    obtain ⟨t, htagged, hread⟩ := Mark.exists_tagged? h
    simp [ofTree?, htagged, hread]
  | icon i =>
    obtain ⟨t, htagged, hread⟩ := Icon.exists_tagged? h
    simp [ofTree?, htagged, hread]
  | line l =>
    obtain ⟨t, htagged, hread⟩ := Line.exists_tagged? h
    simp [ofTree?, htagged, hread]
  | fill f =>
    obtain ⟨t, htagged, hread⟩ := Fill.exists_tagged? h
    simp [ofTree?, htagged, hread]
  | label l =>
    obtain ⟨t, htagged, hread⟩ := Label.exists_tagged? h
    simp [ofTree?, htagged, hread]
  | raster r =>
    obtain ⟨t, htagged, hread⟩ := Raster.exists_tagged? h
    simp [ofTree?, htagged, hread]

end Style

section Filters

theorem Comparator.find?_spelling (c : Comparator) :
    all.find? (spelling · == spelling c) = some c := by
  cases c <;> decide

theorem FilterValue.ofTree?_tree (v : FilterValue) : ofTree? v.tree = some v := by
  cases v <;> rfl

namespace Filter

theorem trees_eq_map (fs : List Filter) : trees fs = fs.map tree := by
  induction fs with
  | nil => rfl
  | cons f fs ih => rw [trees, ih, List.map_cons]

theorem ofTrees?_eq_mapM (ts : List Tree) : ofTrees? ts = ts.mapM ofTree? := by
  induction ts with
  | nil => rw [ofTrees?]; rfl
  | cons t ts ih => rw [ofTrees?, ih, List.mapM_cons]

theorem filtersOf?_eq_list? (t : Tree) : filtersOf? t = list? ofTree? t := by
  cases t <;> simp [filtersOf?, list?, ofTrees?_eq_mapM]

theorem required_cons {α : Type} (read : Tree → Option α) (name : String) (f : String × Tree)
    (fs : Fields) : required read name (f :: fs) =
      if f.1 = name then read f.2 else required read name fs := by
  rw [required, List.lookup_cons, BEq.comm]
  by_cases h : f.1 = name
  · simp [h]
  · rw [if_neg h, beq_eq_false_iff_ne.mpr h, required]

theorem filtersIn?_eq (fs : Fields) : filtersIn? fs = required (list? ofTree?) "filters" fs := by
  induction fs with
  | nil => rw [filtersIn?]; rfl
  | cons f fs ih => rw [filtersIn?, ih, filtersOf?_eq_list?, required_cons]

theorem filterIn?_eq (fs : Fields) : filterIn? fs = required ofTree? "filter" fs := by
  induction fs with
  | nil => rw [filterIn?]; rfl
  | cons f fs ih => rw [filterIn?, ih, required_cons]

def slots : Filter → Slots
  | and filters => [("type", some (.text "and")), ("filters", some (.list (trees filters)))]
  | or filters => [("type", some (.text "or")), ("filters", some (.list (trees filters)))]
  | not filter => [("type", some (.text "not")), ("filter", some filter.tree)]
  | comparison comparator property value =>
    [("type", some (.text "comparison")), ("operator", some (.text comparator.spelling)),
      ("property", some (.text property)), ("value", some value.tree)]
  | isNull property => [("type", some (.text "isNull")), ("property", some (.text property))]

theorem tree_eq (f : Filter) : f.tree = .object (present f.slots) := by
  cases f <;> rw [tree, slots] <;> rfl

theorem exists_holds {f : Filter} (h : Extends (.part .filter) f.tree u) :
    ∃ gs, u = .object gs ∧
      ∀ slot ∈ f.slots, Holds (Part.shape .filter slot.1) slot.1 slot.2 gs := by
  rw [tree_eq] at h
  refine h.exists_holds ?_ ?_
  · cases f <;> simp [slots]
  · cases f <;> simp [slots, Part.names, present, field, text?, filterNames]

/-- A type is read as it is written. -/
theorem type_eq {kind : String} (h : Holds .data "type" (some (.text kind)) gs) :
    (gs.lookup "type").bind text? = some kind :=
  h.required fun u hu => by rw [hu.eq_of_data]; rfl

theorem filtersIn?_of_holds {fs : List Filter}
    (hread : ∀ f ∈ fs, ∀ u, Extends (.part .filter) f.tree u → ofTree? u = some f)
    (h : Holds (.parts .filter) "filters" (some (.list (trees fs))) gs) :
    filtersIn? gs = some fs := by
  rw [trees_eq_map] at h
  rw [filtersIn?_eq]
  exact h.required fun u hu => hu.list?_eq hread

theorem comparisonOf?_of_holds {c : Comparator} {property : String} {v : FilterValue}
    (hoperator : Holds .data "operator" (some (.text c.spelling)) gs)
    (hproperty : Holds .data "property" (some (.text property)) gs)
    (hvalue : Holds .data "value" (some v.tree) gs) :
    comparisonOf? gs = some (comparison c property v) := by
  have hunrepeated : unrepeated ["operator", "property", "value"] gs = true := by
    simp [unrepeated, hoperator.length_le, hproperty.length_le, hvalue.length_le]
  have hoperator : required (spelled? Comparator.spelling Comparator.all) "operator" gs = some c :=
    hoperator.required fun u hu => by
      rw [hu.eq_of_data, spelled?_text Comparator.find?_spelling]
  have hproperty : required text? "property" gs = some property :=
    hproperty.required fun u hu => by rw [hu.eq_of_data]; rfl
  have hvalue : required FilterValue.ofTree? "value" gs = some v :=
    hvalue.required fun u hu => by rw [hu.eq_of_data, FilterValue.ofTree?_tree]
  rw [comparisonOf?, hunrepeated, hoperator, hproperty, hvalue]
  rfl

theorem isNullOf?_of_holds {property : String}
    (hproperty : Holds .data "property" (some (.text property)) gs) :
    isNullOf? gs = some (isNull property) := by
  have hread : required text? "property" gs = some property :=
    hproperty.required fun u hu => by rw [hu.eq_of_data]; rfl
  rw [isNullOf?, hproperty.unrepeated, hread]
  rfl

/-- By induction on the filter, as the filters in it are read from extensions of their trees. -/
theorem ofTree?_of_extends (f : Filter) :
    ∀ u, Extends (.part .filter) f.tree u → ofTree? u = some f := by
  induction f using Filter.induction with
  | and fs ih =>
    intro u h
    obtain ⟨gs, rfl, hholds⟩ := exists_holds h
    simp only [slots, List.forall_mem_cons] at hholds
    obtain ⟨htype, hfilters, -⟩ := hholds
    rw [ofTree?, if_pos htype.unrepeated, type_eq htype]
    simp only [if_pos hfilters.unrepeated, filtersIn?_of_holds ih hfilters, Option.map_some]
  | or fs ih =>
    intro u h
    obtain ⟨gs, rfl, hholds⟩ := exists_holds h
    simp only [slots, List.forall_mem_cons] at hholds
    obtain ⟨htype, hfilters, -⟩ := hholds
    rw [ofTree?, if_pos htype.unrepeated, type_eq htype]
    simp only [if_pos hfilters.unrepeated, filtersIn?_of_holds ih hfilters, Option.map_some]
  | not f ih =>
    intro u h
    obtain ⟨gs, rfl, hholds⟩ := exists_holds h
    simp only [slots, List.forall_mem_cons] at hholds
    obtain ⟨htype, hfilter, -⟩ := hholds
    have hread : filterIn? gs = some f := by
      rw [filterIn?_eq]
      exact hfilter.required ih
    rw [ofTree?, if_pos htype.unrepeated, type_eq htype]
    simp only [if_pos hfilter.unrepeated, hread, Option.map_some]
  | comparison c name v =>
    intro u h
    obtain ⟨gs, rfl, hholds⟩ := exists_holds h
    simp only [slots, List.forall_mem_cons] at hholds
    obtain ⟨htype, hoperator, hproperty, hvalue, -⟩ := hholds
    rw [ofTree?, if_pos htype.unrepeated, type_eq htype]
    exact comparisonOf?_of_holds hoperator hproperty hvalue
  | isNull name =>
    intro u h
    obtain ⟨gs, rfl, hholds⟩ := exists_holds h
    simp only [slots, List.forall_mem_cons] at hholds
    obtain ⟨htype, hproperty, -⟩ := hholds
    rw [ofTree?, if_pos htype.unrepeated, type_eq htype]
    exact isNullOf?_of_holds hproperty

end Filter

def ScaleRange.slots (r : ScaleRange) : Slots :=
  [("min", r.min.map .number), ("max", r.max.map .number)]

theorem ScaleRange.tree_eq (r : ScaleRange) : r.tree = .object (present r.slots) := by
  simp [tree, present, slots, field, Function.comp_def]

theorem ScaleRange.ofTree?_of_extends {r : ScaleRange} (h : Extends (.part .scale) r.tree u) :
    ofTree? u = some r := by
  rw [r.tree_eq] at h
  obtain ⟨gs, rfl, hholds⟩ := h.exists_holds (by simp [slots]) (by simp [slots, Part.names])
  have hunrepeated := unrepeated_of_holds hholds
  simp only [slots, List.forall_mem_cons, List.map_cons, List.map_nil] at hholds hunrepeated
  obtain ⟨hmin, hmax, -⟩ := hholds
  rw [ofTree?, fields?, if_pos hunrepeated, Option.bind_eq_bind, Option.bind_some, hmin.number,
    hmax.number]
  rfl

end Filters

namespace Style

def Rule.slots (r : Rule) : Slots :=
  [("name", some (.text r.name)), ("filter", r.filter.map Filter.tree),
    ("scaleDenominator", r.scale.map ScaleRange.tree),
    ("symbolizers", some (.list (r.symbolizers.map Symbolizer.tree)))]

theorem Rule.tree_eq (r : Rule) : r.tree = .object (present r.slots) := by
  simp [tree, present, slots, field, Function.comp_def]

theorem Rule.ofTree?_of_extends {r : Rule} (h : Extends (.part .rule) r.tree u) :
    ofTree? u = some r := by
  rw [r.tree_eq] at h
  obtain ⟨gs, rfl, hholds⟩ := h.exists_holds (by simp [slots]) (by simp [slots, Part.names])
  have hunrepeated := unrepeated_of_holds hholds
  simp only [slots, List.forall_mem_cons, List.map_cons, List.map_nil] at hholds hunrepeated
  obtain ⟨hname, hfilter, hscale, hsymbolizers, -⟩ := hholds
  have hname : required text? "name" gs = some r.name :=
    hname.required fun u hu => by rw [Extends.eq_of_data hu]; rfl
  have hfilter : optional Filter.ofTree? "filter" gs = some r.filter :=
    hfilter.optional (by simp [Filter.ofTree?]) fun f _ => f.ofTree?_of_extends
  have hscale : optional ScaleRange.ofTree? "scaleDenominator" gs = some r.scale :=
    hscale.optional rfl fun _ _ _ hu => ScaleRange.ofTree?_of_extends hu
  have hsymbolizers : required (list? Symbolizer.ofTree?) "symbolizers" gs = some r.symbolizers :=
    hsymbolizers.required fun u hu =>
      Extends.list?_eq hu fun _ _ _ ht => Symbolizer.ofTree?_of_extends ht
  rw [ofTree?, fields?, if_pos hunrepeated, Option.bind_eq_bind, Option.bind_some, hname, hfilter,
    hscale, hsymbolizers]
  rfl

def slots (s : Style) : Slots :=
  [("name", some (.text s.name)), ("abstract", s.abstract.map .text),
    ("rules", some (.list (s.rules.map Rule.tree)))]

theorem tree_eq (s : Style) : s.tree = .object (present s.slots) := by
  simp [tree, present, slots, field, Function.comp_def]

theorem ofTree?_of_extends {s : Style} (h : Extends (.part .style) s.tree u) :
    ofTree? u = some s := by
  rw [s.tree_eq] at h
  obtain ⟨gs, rfl, hholds⟩ := h.exists_holds (by simp [slots]) (by simp [slots, Part.names])
  have hunrepeated := unrepeated_of_holds hholds
  simp only [slots, List.forall_mem_cons, List.map_cons, List.map_nil] at hholds hunrepeated
  obtain ⟨hname, habstract, hrules, -⟩ := hholds
  have hname : required text? "name" gs = some s.name :=
    hname.required fun u hu => by rw [Extends.eq_of_data hu]; rfl
  have hrules : required (list? Rule.ofTree?) "rules" gs = some s.rules :=
    hrules.required fun u hu => Extends.list?_eq hu fun _ _ _ ht => Rule.ofTree?_of_extends ht
  rw [ofTree?, fields?, if_pos hunrepeated, Option.bind_eq_bind, Option.bind_some, hname,
    habstract.text, hrules]
  rfl

/-- A document with finite numbers is read back from what its JSON form holds, and from every tree
with unknown fields or with nulls for absent fields added to the objects of that form. -/
theorem decodes_of_extends {s : Style} (hs : s.tree.IsFinite) :
    ofTree? (Json.content s.tree) = some s ∧
      ∀ t, Extends (.part .style) (Json.content s.tree) t → ofTree? t = some s := by
  rw [Json.content_of_isFinite hs]
  exact ⟨ofTree?_of_extends (.refl _ _), fun t => ofTree?_of_extends⟩

theorem Format.read?_write {s : Style} (hnumbers : s.tree.EveryNumber Json.ReadsBack)
    (hdepth : Json.depth s.tree ≤ 127) : Format.json.read? (Format.json.write s) = some s := by
  have htext : Json.parse? (Json.write s.tree ++ "\n") = some s.tree :=
    Json.parse?_write hnumbers hdepth (by simp [Json.isSpace])
  rw [Format.read?, Format.write, htext]
  exact ofTree?_of_extends (.refl _ _)

def relief : Style where
  name := "Relief"
  rules := [
    { name := ""
      filter := some (.not (.isNull "ref"))
      symbolizers := [.raster { opacity := some 0.5, channels := some (.gray {}) }] }]

/-- The filter of the relief with an unknown field in either of its objects. -/
def reliefFilter : Tree :=
  .object [("type", .text "not"), ("filters", .text "none"),
    ("filter", .object [("type", .text "isNull"), ("property", .text "ref"),
      ("filter", .bool true)])]

def reliefSymbolizer : Tree :=
  .object [("colorMap", .null), ("radius", .object []), ("kind", .text "Raster"),
    ("opacity", .number 0.5),
    ("channelSelection", .object [("grayChannel", .object [("contrastEnhancement", .null)]),
      ("alphaChannel", .object [])])]

/-- The tree of the relief with further fields in all of its objects. -/
def reliefTree : Tree :=
  .object [("name", .text "Relief"),
    ("rules", .list [.object [("name", .text ""), ("filter", reliefFilter),
      ("symbolizers", .list [reliefSymbolizer]), ("scaleDenominator", .null)]]),
    ("kind", .text "Style"), ("abstract", .null)]

theorem extends_reliefFilter :
    Extends (.part .filter) (Filter.not (.isNull "ref")).tree reliefFilter := by
  have hisNull : Extends (.part .filter) (Filter.isNull "ref").tree
      (.object [("type", .text "isNull"), ("property", .text "ref"), ("filter", .bool true)]) := by
    rw [Filter.tree]
    exact @Extends.of_fields _ _ _ _ [("filter", .bool true)]
      (.cons ⟨rfl, .refl _ _⟩ (.cons ⟨rfl, .refl _ _⟩ .nil))
      ⟨by decide, by simp [Part.names, text?, filterNames], by decide⟩ (.refl _)
  rw [Filter.tree]
  exact @Extends.of_fields _ _ _ [("type", _), ("filter", _)] [("filters", .text "none")]
    (.cons ⟨rfl, .refl _ _⟩ (.cons ⟨by rfl, hisNull⟩ .nil))
    ⟨by decide, by simp [Part.names, text?, filterNames], by decide⟩ (.cons _ (.swap _ _ _))

theorem extends_reliefSymbolizer :
    Extends (.part .symbolizer)
      (Symbolizer.raster { opacity := some 0.5, channels := some (.gray {}) }).tree
      reliefSymbolizer := by
  have hchannel : Extends (.part .channel) (Channel.tree {})
      (.object [("contrastEnhancement", .null)]) :=
    @Extends.of_fields _ _ _ [] [("contrastEnhancement", .null)] .nil
      ⟨by decide, by simp, by decide⟩ (.refl _)
  have hchannels : Extends (.part .channels) (Channels.gray {}).tree
      (.object [("grayChannel", .object [("contrastEnhancement", .null)]),
        ("alphaChannel", .object [])]) :=
    @Extends.of_fields _ _ _ [("grayChannel", _)] [("alphaChannel", .object [])]
      (.cons ⟨by rfl, hchannel⟩ .nil) ⟨by decide, by simp [Part.names], by decide⟩ (.refl _)
  exact @Extends.of_fields _ _ _ [("kind", _), ("opacity", _), ("channelSelection", _)]
    [("colorMap", .null), ("radius", .object [])]
    (.cons ⟨rfl, .refl _ _⟩ (.cons ⟨rfl, .refl _ _⟩ (.cons ⟨by rfl, hchannels⟩ .nil)))
    ⟨by decide, by simp [Part.names, text?, symbolizerNames], by decide⟩
    (@List.perm_append_comm _ [_, _] [_, _, _])

theorem extends_reliefTree : Extends (.part .style) relief.tree reliefTree := by
  have hrule : Extends (.part .rule)
      (.object [("name", .text ""), ("filter", (Filter.not (.isNull "ref")).tree),
        ("symbolizers", .list
          [(Symbolizer.raster { opacity := some 0.5, channels := some (.gray {}) }).tree])])
      (.object [("name", .text ""), ("filter", reliefFilter),
        ("symbolizers", .list [reliefSymbolizer]), ("scaleDenominator", .null)]) :=
    @Extends.of_fields _ _ _ [("name", _), ("filter", _), ("symbolizers", _)]
      [("scaleDenominator", .null)]
      (.cons ⟨rfl, .refl _ _⟩ (.cons ⟨by rfl, extends_reliefFilter⟩
        (.cons ⟨by rfl, .of_items (.cons extends_reliefSymbolizer .nil)⟩ .nil)))
      ⟨by decide, by simp, by decide⟩ (.refl _)
  exact @Extends.of_fields _ _ _ [("name", _), ("rules", _)]
    [("kind", .text "Style"), ("abstract", .null)]
    (.cons ⟨rfl, .refl _ _⟩ (.cons ⟨by rfl, .of_items (.cons hrule .nil)⟩ .nil))
    ⟨by decide, by simp [Part.names], by decide⟩ (.refl _)

theorem isFinite_relief : relief.tree.IsFinite := by
  have hhalf : Decimal.IsFinite 0.5 := Decimal.isFinite_iff.mpr (by decide +kernel)
  simp [relief, tree, Rule.tree, Filter.tree, Symbolizer.tree, kindTree, Raster.fields,
    Channels.tree, Channel.tree, field, hhalf]

theorem decodes_relief :
    relief.tree.IsFinite ∧ Extends (.part .style) (Json.content relief.tree) reliefTree ∧
      ofTree? (Json.content relief.tree) = some relief ∧ ofTree? reliefTree = some relief := by
  have hextends : Extends (.part .style) (Json.content relief.tree) reliefTree := by
    rw [Json.content_of_isFinite isFinite_relief]
    exact extends_reliefTree
  obtain ⟨hread, hfurther⟩ := decodes_of_extends isFinite_relief
  exact ⟨isFinite_relief, hextends, hread, hfurther _ hextends⟩

end Style

end CartoStyle
