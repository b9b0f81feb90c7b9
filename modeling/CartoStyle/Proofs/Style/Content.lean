import CartoStyle.Proofs.Fault
import CartoStyle.Proofs.Style.Arrangement

/-!
What the readers of rows need the values of keys to be. A row whose values all are what their
keys need describes symbolizers of every kind that its keys name, whatever the values mean: no
reader asks for more than the content of each value, but for the contrasts of rasters, whose
numbers have to fit the channels.
-/

namespace CartoStyle.Style

open CartoStyle.Rule

/-- What the readers of a key need its value to be. -/
inductive Content where
  | graphic
  /-- A colour or a graphic. -/
  | paint
  | number
  | numbers
  | offset
  | word
  | expression
  | fonts
  | entries
  | kind
  | other
deriving DecidableEq

def numberKeys : List String :=
  ["mark-size", "mark-rotation", "mark-opacity", "stroke-size", "stroke-rotation",
    "stroke-width", "stroke-opacity", "stroke-dashoffset", "stroke-offset", "fill-size",
    "fill-rotation", "fill-opacity", "font-size", "halo-radius", "halo-opacity", "label-rotation",
    "raster-opacity", "size", "rotation", "opacity"]

def contentOf (key : String) : Content :=
  if key = "mark" then .graphic
  else if key ∈ ["stroke", "fill"] then .paint
  else if key ∈ numberKeys then .number
  else if key ∈ ["stroke-linejoin", "stroke-linecap", "font-style", "font-weight"] then .word
  else if key ∈ ["label", "font-fill", "halo-color"] then .expression
  else if key = "stroke-dasharray" then .numbers
  else if key = "label-offset" then .offset
  else if key = "font-family" then .fonts
  else if key = colorMapKey then .entries
  else if key = "raster-color-map-type" then .kind
  else .other

/-- The expression draws a graphic that exists. -/
def IsDrawing (e : Expression) : Prop :=
  e.op? = some .url ∨ ∃ name, e.read = .text name ∧ (Symbol.ofCssName? name).isSome = true

def Content.Accepts (key v : String) : Content → Prop
  | graphic => ∃ e, PropertyValue.parse key v = .ok e ∧ IsDrawing e
  | paint => ∃ e, PropertyValue.parse key v = .ok e ∧ (isGraphic e = true → IsDrawing e)
  | number => fault? (numberOf key (some v)) = none
  | numbers => fault? (numbersOf key (some v)) = none
  | offset => ∃ xs p, numbersOf key (some v) = .ok xs ∧ offsetOf xs = .ok p
  | word => fault? (textOf key (some v)) = none
  | expression => fault? (PropertyValue.parse key v) = none
  | fonts => fault? (fontsOf v) = none
  | entries => fault? (entriesOf v) = none
  | kind => ∃ name, textOf key (some v) = .ok (some name) ∧
      (ColorMapKind.ofName? name).isSome = true
  | other => True

def IsAccepted (key v : String) : Prop := (contentOf key).Accepts key v

/-- The values of a contrast property are enough for some channels and not too many. -/
def FitsChannels (channels found : Nat) : Prop := found ≤ 1 ∨ channels = 3 ∧ found = 3

/-- The channels and the contrasts of a row are read and fit together. -/
def Instance.HasContrasts (i : Instance) : Prop :=
  ∃ channels enhancement enhancements gammas,
    i.expression "raster-channels" = .ok channels ∧ i.expression enhancementKey = .ok enhancement ∧
    enhancementsOf enhancement = .ok enhancements ∧ i.numbers gammaKey = .ok gammas ∧
    let count := (channelNames ((channels.map (·.read.toList)).getD [])).length
    (count ≤ 1 ∨ count = 3) ∧ FitsChannels count enhancements.length ∧
      FitsChannels count (gammas.getD []).length

/-- All values of the row and of the parts are what their keys need. -/
structure Instance.IsLegible (i : Instance) : Prop where
  raw : ∀ key v, i.raw? key = some v → IsAccepted key v
  part : ∀ part ∈ partNames, ∀ key v, i.part? part key = some v → IsAccepted key v
  contrasts : i.HasContrasts

namespace Instance.IsLegible

section Values

variable {i : Instance} {part key : String}

theorem accepts (h : i.IsLegible) {v : String} (hv : i.raw? key = some v) {content : Content}
    (hkey : contentOf key = content) : content.Accepts key v := by
  rw [← hkey]
  exact h.raw key v hv

theorem number (h : i.IsLegible) (hkey : contentOf key = .number) :
    fault? (i.number key) = none := by
  rw [Instance.number]
  cases hv : i.raw? key with
  | none => rfl
  | some v => exact h.accepts hv hkey

theorem partNumber (h : i.IsLegible) (hpart : part ∈ partNames)
    (hkey : contentOf key = .number) : fault? (i.partNumber part key) = none := by
  rw [Instance.partNumber]
  cases hv : i.part? part key with
  | none => rfl
  | some v =>
    have haccepted := h.part part hpart key v hv
    rwa [IsAccepted, hkey] at haccepted

theorem numbers (h : i.IsLegible) (hkey : contentOf key = .numbers) :
    fault? (i.numbers key) = none := by
  rw [Instance.numbers]
  cases hv : i.raw? key with
  | none => rfl
  | some v => exact h.accepts hv hkey

theorem text (h : i.IsLegible) (hkey : contentOf key = .word) : fault? (i.text key) = none := by
  rw [Instance.text]
  cases hv : i.raw? key with
  | none => rfl
  | some v => exact h.accepts hv hkey

theorem expression (h : i.IsLegible) (hkey : contentOf key = .expression) :
    fault? (i.expression key) = none := by
  rw [Instance.expression]
  cases hv : i.raw? key with
  | none => rfl
  | some v => exact (fault?_bind_pure _).trans (h.accepts hv hkey)

theorem paint (h : i.IsLegible) (hkey : contentOf key = .paint) :
    ∃ e, i.expression key = .ok e ∧ ∀ x ∈ e, isGraphic x = true → IsDrawing x := by
  rw [Instance.expression]
  cases hv : i.raw? key with
  | none => exact ⟨none, rfl, fun x hx => absurd hx (Option.not_mem_none x)⟩
  | some v =>
    obtain ⟨e, hparse, hdraws⟩ := h.accepts hv hkey
    exact ⟨some e, expressionOf_some hparse, by simpa using hdraws⟩

theorem partColor (h : i.IsLegible) (hpart : part ∈ partNames) (hkey : contentOf key = .paint) :
    fault? (color? <$> expressionOf key (i.part? part key)) = none := by
  cases hv : i.part? part key with
  | none => rfl
  | some v =>
    have haccepted := h.part part hpart key v hv
    rw [IsAccepted, hkey] at haccepted
    obtain ⟨e, hparse, -⟩ := haccepted
    rw [expressionOf_some hparse]
    rfl

end Values

end Instance.IsLegible

section Kinds

variable {i : Instance} {key : String}

theorem fault?_orElse {α : Type} {first second : Except Error (Option α)}
    (hfirst : fault? first = none) (hsecond : fault? second = none) :
    fault? (orElse first second) = none := by
  refine fault?_bind_eq_none hfirst fun a _ => ?_
  cases a with
  | none => exact hsecond
  | some v => rfl

theorem contentOf_of_mem_partNames (hkey : key ∈ partNames) :
    contentOf (key ++ "-size") = .number ∧ contentOf (key ++ "-rotation") = .number := by
  rcases eq_of_mem_partNames hkey with rfl | rfl | rfl <;> decide

theorem Instance.IsLegible.graphicOpacity (h : i.IsLegible) (hkey : key ∈ partNames) :
    fault? (graphicOpacity i key) = none := by
  refine fault?_orElse (h.partNumber hkey (by decide)) ?_
  split
  · exact h.number (by decide)
  · rfl

/-- A graphic is read where its key has a drawing. -/
theorem Graphic.fault?_ofInstance (h : i.IsLegible) (hkey : key ∈ partNames) {e : Expression}
    (he : i.expression key = .ok (some e)) (hdraws : IsDrawing e) :
    fault? (Graphic.ofInstance i key) = none := by
  obtain ⟨hsize, hrotation⟩ := contentOf_of_mem_partNames hkey
  rw [Graphic.ofInstance, he, ok_bind]
  refine fault?_bind_eq_none
    (fault?_orElse (h.partNumber hkey (by decide)) (h.number hsize)) fun size _ => ?_
  refine fault?_bind_eq_none
    (fault?_orElse (h.partNumber hkey (by decide)) (h.number hrotation)) fun rotate _ => ?_
  refine fault?_bind_eq_none (h.graphicOpacity hkey) fun opacity _ => ?_
  split
  · rfl
  · next hurl =>
    obtain ⟨name, hread, hsymbol⟩ := hdraws.resolve_left hurl
    obtain ⟨symbol, hsymbol⟩ := Option.isSome_iff_exists.mp hsymbol
    simp only [hread, hsymbol]
    refine fault?_bind_eq_none (h.partColor hkey (by decide)) fun color _ => ?_
    refine fault?_bind_eq_none (h.partNumber hkey (by decide)) fun fillOpacity _ => ?_
    refine fault?_bind_eq_none (h.partColor hkey (by decide)) fun strokeColor _ => ?_
    refine fault?_bind_eq_none (h.partNumber hkey (by decide)) fun strokeWidth _ => ?_
    exact fault?_bind_eq_none (h.partNumber hkey (by decide)) fun strokeOpacity _ => rfl

theorem fault?_graphicIf (h : i.IsLegible) (hkey : key ∈ partNames) {e : Option Expression}
    (he : i.expression key = .ok e) (hdraws : ∀ x ∈ e, isGraphic x = true → IsDrawing x) :
    fault? (graphicIf i key e) = none := by
  rw [graphicIf]
  split
  · next hgraphic =>
    cases e with
    | none => cases hgraphic
    | some x =>
      rw [fault?_map]
      exact Graphic.fault?_ofInstance h hkey he (hdraws x rfl (by simpa using hgraphic))
  · rfl

theorem Line.fault?_ofInstance (h : i.IsLegible) : fault? (Line.ofInstance i) = none := by
  obtain ⟨e, he, hdraws⟩ := h.paint (show contentOf "stroke" = .paint by decide)
  rw [Line.ofInstance, he, ok_bind]
  refine fault?_bind_eq_none (fault?_graphicIf h (by decide) he hdraws) fun graphic _ => ?_
  refine fault?_bind_eq_none (h.number (by decide)) fun width _ => ?_
  refine fault?_bind_eq_none (h.number (by decide)) fun opacity _ => ?_
  refine fault?_bind_eq_none (h.text (by decide)) fun join _ => ?_
  refine fault?_bind_eq_none (h.text (by decide)) fun cap _ => ?_
  refine fault?_bind_eq_none (h.numbers (by decide)) fun dasharray _ => ?_
  refine fault?_bind_eq_none (h.number (by decide)) fun dashOffset _ => ?_
  exact fault?_bind_eq_none (h.number (by decide)) fun offset _ => rfl

theorem Fill.fault?_ofInstance (h : i.IsLegible) : fault? (Fill.ofInstance i) = none := by
  obtain ⟨e, he, hdraws⟩ := h.paint (show contentOf "fill" = .paint by decide)
  obtain ⟨outline, houtline, -⟩ := h.paint (show contentOf "stroke" = .paint by decide)
  have hcolor : color? <$> i.expression "stroke" = .ok (color? outline) := by
    rw [houtline]
    rfl
  rw [Fill.ofInstance, he, ok_bind, hcolor]
  refine fault?_bind_eq_none (fault?_graphicIf h (by decide) he hdraws) fun graphic _ => ?_
  refine fault?_bind_eq_none (h.number (by decide)) fun opacity _ => ?_
  rw [ok_bind]
  refine fault?_bind_eq_none (h.number (by decide)) fun width _ => ?_
  refine fault?_bind_eq_none (h.number (by decide)) fun outlineOpacity _ => ?_
  exact fault?_bind_eq_none (h.numbers (by decide)) fun dasharray _ => rfl

theorem Label.fault?_ofInstance (h : i.IsLegible) : fault? (Label.ofInstance i) = none := by
  have hcolor {key : String} (hkey : contentOf key = .expression) :
      fault? (color? <$> i.expression key) = none := (fault?_map _).trans (h.expression hkey)
  have hfont : fault? ((i.raw? "font-family").mapM fontsOf) = none := by
    have hkey : contentOf "font-family" = .fonts := by decide
    cases hv : i.raw? "font-family" with
    | none => rfl
    | some v => exact (fault?_map _).trans (h.accepts hv hkey)
  have hoffset : ∃ xs p, i.numbers "label-offset" = .ok xs ∧ offsetOf xs = .ok p := by
    rw [Instance.numbers]
    cases hv : i.raw? "label-offset" with
    | none => exact ⟨none, none, rfl, rfl⟩
    | some v => exact h.accepts hv (show contentOf "label-offset" = .offset by decide)
  obtain ⟨xs, p, hxs, hp⟩ := hoffset
  rw [Label.ofInstance]
  refine fault?_bind_eq_none (h.expression (by decide)) fun label _ => ?_
  refine fault?_bind_eq_none hfont fun font _ => ?_
  refine fault?_bind_eq_none (h.number (by decide)) fun size _ => ?_
  refine fault?_bind_eq_none (h.text (by decide)) fun fontStyle _ => ?_
  refine fault?_bind_eq_none (h.text (by decide)) fun fontWeight _ => ?_
  refine fault?_bind_eq_none (hcolor (by decide)) fun color _ => ?_
  refine fault?_bind_eq_none (h.number (by decide)) fun haloWidth _ => ?_
  refine fault?_bind_eq_none (hcolor (by decide)) fun haloColor _ => ?_
  refine fault?_bind_eq_none (h.number (by decide)) fun haloOpacity _ => ?_
  refine fault?_bind_eq_none (h.number (by decide)) fun rotate _ => ?_
  rw [hxs, ok_bind, hp]
  rfl

theorem fault?_colorMapKind (h : i.IsLegible) : fault? (colorMapKind i) = none := by
  rw [colorMapKind]
  cases hv : i.raw? "raster-color-map-type" with
  | none =>
    have hnone : i.text "raster-color-map-type" = .ok none := by rw [Instance.text, hv]; rfl
    rw [hnone]
    rfl
  | some v =>
    have hkey : contentOf "raster-color-map-type" = .kind := by decide
    obtain ⟨name, hname, hkind⟩ := h.accepts hv hkey
    obtain ⟨kind, hkind⟩ := Option.isSome_iff_exists.mp hkind
    have hsome : i.text "raster-color-map-type" = .ok (some name) := by
      rw [Instance.text, hv, hname]
    simp only [hsome, bind, Except.bind, hkind]
    rfl

theorem ColorMap.fault?_ofInstance (h : i.IsLegible) : fault? (ColorMap.ofInstance i) = none := by
  have hentries : fault? ((i.raw? colorMapKey).mapM entriesOf) = none := by
    have hkey : contentOf colorMapKey = .entries := by decide
    cases hv : i.raw? colorMapKey with
    | none => rfl
    | some v => exact (fault?_map _).trans (h.accepts hv hkey)
  rw [ColorMap.ofInstance]
  refine fault?_bind_eq_none (fault?_colorMapKind h) fun kind _ => ?_
  exact fault?_bind_eq_none hentries fun entries _ => rfl

theorem checkCount_of_fitsChannels {channels found : Nat} (key : String)
    (h : FitsChannels channels found) : checkCount channels key found = .ok () := by
  refine if_pos ?_
  simpa [FitsChannels] using h

theorem Raster.fault?_ofInstance (h : i.IsLegible) : fault? (Raster.ofInstance i) = none := by
  obtain ⟨channels, enhancement, enhancements, gammas, hchannels, henhancement, henhancements,
    hgammas, hcount, hfits, hgammaFits⟩ := h.contrasts
  rw [Raster.ofInstance]
  refine fault?_bind_eq_none (h.number (by decide)) fun opacity _ => ?_
  refine fault?_bind_eq_none (ColorMap.fault?_ofInstance h) fun colorMap _ => ?_
  have hwrong : ¬ (((channelNames ((channels.map (·.read.toList)).getD [])).length == 2) ||
      decide ((channelNames ((channels.map (·.read.toList)).getD [])).length > 3)) = true := by
    simp only [Bool.or_eq_true, beq_iff_eq, decide_eq_true_eq]
    omega
  simp only [hchannels, bind, Except.bind, if_neg hwrong, henhancement, henhancements, hgammas,
    checkCount_of_fitsChannels _ hfits, checkCount_of_fitsChannels _ hgammaFits]
  split <;> rfl

theorem contains_mark_of_point_mem_kinds {row : Row} (h : .point ∈ kinds row) :
    row.contains "mark" = true := by
  by_contra hmark
  rw [kinds, geometryKind?, if_neg hmark] at h
  simp only [List.mem_append, Option.mem_toList] at h
  rcases h with h | h
  · repeat' split at h
    all_goals cases h
  · split at h <;> simp at h

/-- A legible row describes a symbolizer of every kind that its keys name. -/
theorem Symbolizer.fault?_ofInstance (h : i.IsLegible) {kind : Kind} (hkind : kind ∈ kinds i.row) :
    fault? (Symbolizer.ofInstance i kind) = none := by
  cases kind with
  | point =>
    have hmark : (i.raw? "mark").isSome = true := by
      rw [Instance.raw?, ← KeyMap.contains_eq_isSome]
      exact contains_mark_of_point_mem_kinds hkind
    obtain ⟨v, hv⟩ := Option.isSome_iff_exists.mp hmark
    obtain ⟨e, hparse, hdraws⟩ := h.accepts hv (show contentOf "mark" = .graphic by decide)
    have he : i.expression "mark" = .ok (some e) := by
      rw [Instance.expression, hv]
      exact expressionOf_some hparse
    exact (fault?_bind_pure _).trans (Graphic.fault?_ofInstance h (by decide) he hdraws)
  | line => exact (fault?_bind_pure _).trans (Line.fault?_ofInstance h)
  | polygon => exact (fault?_bind_pure _).trans (Fill.fault?_ofInstance h)
  | text => exact (fault?_bind_pure _).trans (Label.fault?_ofInstance h)
  | raster => exact (fault?_bind_pure _).trans (Raster.fault?_ofInstance h)

/-- A legible row is read, with a symbolizer for every kind that its keys name. -/
theorem Instance.IsLegible.exists_symbolizersOf (h : i.IsLegible) :
    ∃ symbolizers, symbolizersOf i = .ok symbolizers ∧
      symbolizers.length = (kinds i.row).length := by
  have hfault : fault? (symbolizersOf i) = none := by
    rw [symbolizersOf, fault?_mapM, List.findSome?_eq_none_iff]
    exact fun kind hkind => Symbolizer.fault?_ofInstance h hkind
  obtain ⟨symbolizers, hread⟩ := fault?_eq_none_iff.mp hfault
  exact ⟨symbolizers, hread, ((mapM_eq_ok_iff.mp hread).length_eq).symm⟩

end Kinds

end CartoStyle.Style
