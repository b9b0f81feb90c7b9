import CartoStyle.Proofs.Style.Legible

/-!
Rasters and rows of symbolizers whose texts can be read. What a row says is read, whatever colour
map other rows have, since its channels and its contrasts are its own.
-/

namespace CartoStyle.Style

open Decimal Lexeme PropertyValue CartoStyle.Rule

def IsAtomText (text : String) (e : Expression) : Prop := Writes .atom text.toList [e]

section Entries

variable {e : ColorMapEntry}

/-- The labels that an entry of a colour map writes. An opacity needs one in front of it. -/
def ColorMapEntry.labels (e : ColorMapEntry) : List String :=
  if e.label.isSome || e.opacity.isSome then [e.label.getD ""] else []

theorem ColorMapEntry.valueText_expression (e : ColorMapEntry) : e.expression.valueText =
    "color-map-entry" ++ "(" ++ ", ".intercalate ([(colorExpression e.color).valueText,
      display (e.quantity.getD 0.0)] ++ e.labels.map (fun s => (Expression.text s).valueText) ++
        (e.opacity.map display).toList) ++ ")" := by
  have hlabels : (if e.label.isSome || e.opacity.isSome then [e.label.getD ""] else []) =
      e.labels := rfl
  rw [expression, hlabels, Expression.valueText, valueTexts_eq_map]
  cases hopacity : e.opacity <;> simp [valueText_number, Function.comp_def]

theorem ColorMapEntry.IsLegible.quantity_getD (h : e.IsLegible) :
    IsLegibleNumber (e.quantity.getD 0.0) := by
  cases hquantity : e.quantity with
  | none =>
    have hzero : display 0.0 ≠ "-inf" := by decide +kernel
    exact hzero
  | some x => exact h.quantity x hquantity

theorem ColorMapEntry.IsLegible.isQuotable_labels (h : e.IsLegible) :
    ∀ s ∈ e.labels, IsQuotable s := by
  intro s hs
  rw [labels] at hs
  split at hs
  · obtain rfl := List.mem_singleton.mp hs
    cases hlabel : e.label with
    | none => exact Or.inl (by simp)
    | some t => exact h.label t hlabel
  · cases hs

/-- The arguments of an entry of a colour map are read, its numbers as some numbers. -/
theorem ColorMapEntry.exists_args (h : e.IsLegible) : ∃ quantity opacities,
    List.Forall₂ IsAtomText
      ([(colorExpression e.color).valueText, display (e.quantity.getD 0.0)] ++
        e.labels.map (fun s => (Expression.text s).valueText) ++ (e.opacity.map display).toList)
      ([colorExpression e.color, quantity] ++ e.labels.map Expression.text ++ opacities) ∧
    (∃ x, quantity.read.asNumber? = some x) ∧ opacities.length = e.opacity.toList.length ∧
    ∀ o ∈ opacities, ∃ x, o.read.asNumber? = some x := by
  obtain ⟨quantity, x, hquantity, -, hx⟩ := exists_numberAtom h.quantity_getD
  have hcolor := writes_of_isAtom (isAtom_colorExpression h.color)
  have hlabels : List.Forall₂ IsAtomText
      (e.labels.map fun s => (Expression.text s).valueText) (e.labels.map Expression.text) :=
    List.forall₂_map_left_iff.mpr (List.forall₂_map_right_iff.mpr
      (List.forall₂_same.mpr fun s hs => writes_text (h.isQuotable_labels s hs)))
  have hfront := List.rel_append (R := IsAtomText)
    (.cons hcolor (.cons hquantity .nil)) hlabels
  cases hopacity : e.opacity with
  | none =>
    exact ⟨quantity, [], by simpa using hfront, ⟨x, hx⟩, rfl, List.forall_mem_nil _⟩
  | some y =>
    obtain ⟨o, z, ho, -, hz⟩ := exists_numberAtom (h.opacity y hopacity)
    exact ⟨quantity, [o], List.rel_append (R := IsAtomText) hfront
      (.cons ho .nil), ⟨x, hx⟩, rfl, List.forall_mem_singleton.mpr ⟨z, hz⟩⟩

/-- An entry of a colour map is read as some entry. -/
theorem ColorMapEntry.fault?_ofText (h : e.IsLegible) :
    fault? (ColorMapEntry.ofText e.expression.valueText) = none := by
  obtain ⟨quantity, opacities, hargs, ⟨x, hx⟩, hlength, hnumbers⟩ := exists_args h
  have hrows : (([colorExpression e.color, quantity] ++ e.labels.map Expression.text ++
      opacities).map fun f => [f]).map row =
        colorExpression e.color :: quantity :: (e.labels.map Expression.text ++ opacities) := by
    rw [List.map_map]
    exact List.map_id _
  have hwrites := writes_call isCallName_colorMapEntry (List.forall₂_map_right_iff.mpr
    (hargs.imp fun _ _ hf => ⟨List.cons_ne_nil _ _, hf.single⟩))
  rw [← valueText_expression, hrows] at hwrites
  have hparse : PropertyValue.parse colorMapKey e.expression.valueText = _ :=
    hwrites.single.parse_eq rfl
  rw [ofText, hparse]
  have hopacities : opacities = [] ∨ ∃ o y, opacities = [o] ∧ o.read.asNumber? = some y ∧
      e.labels.length = 1 := by
    cases hopacity : e.opacity with
    | none => exact Or.inl (List.length_eq_zero_iff.mp (by simpa [hopacity] using hlength))
    | some y =>
      obtain ⟨o, rfl⟩ := List.length_eq_one_iff.mp (by simpa [hopacity] using hlength)
      obtain ⟨z, hz⟩ := hnumbers o (List.mem_singleton_self o)
      exact Or.inr ⟨o, z, rfl, hz, by simp [labels, hopacity]⟩
  have hlabels : e.labels = [] ∨ ∃ s, e.labels = [s] := by
    rw [labels]
    split
    · exact Or.inr ⟨_, rfl⟩
    · exact Or.inl rfl
  rcases hopacities with rfl | ⟨o, y, rfl, hy, hone⟩
  · rcases hlabels with hlabels | ⟨s, hlabels⟩ <;>
      simp [hlabels, colorOf?_colorExpression, hx, fault?, bind, Except.bind, pure,
        Except.pure]
  · obtain ⟨s, hlabels⟩ := List.length_eq_one_iff.mp hone
    simp [hlabels, colorOf?_colorExpression, hx, hy, fault?, bind, Except.bind, pure, Except.pure]

theorem ColorMapEntry.isSteady_expression_of_isLegible (h : e.IsLegible) :
    IsSteady e.expression.valueText := by
  have hsteady : ∀ t ∈ [(colorExpression e.color).valueText, display (e.quantity.getD 0.0)] ++
      e.labels.map (fun s => (Expression.text s).valueText) ++ (e.opacity.map display).toList,
      IsSteady t := by
    simp only [List.forall_mem_append, List.forall_mem_cons, List.forall_mem_map]
    refine ⟨⟨⟨isSteady_colorExpression h.color, isSteady_display h.quantity_getD,
      List.forall_mem_nil _⟩,
      fun s hs => isSteady_text (h.isQuotable_labels s hs)⟩, fun t ht => ?_⟩
    obtain ⟨x, hx, rfl⟩ := Option.map_eq_some_iff.mp (Option.mem_toList.mp ht)
    exact isSteady_display (h.opacity x hx)
  have hclosed := Sheet.isClosed_intercalate Sheet.isClosed_comma
    (List.forall_mem_map.mpr fun t ht => (hsteady t ht).closed.mono (Nat.zero_le 1))
  refine isSteady_call isCallName_colorMapEntry.word hclosed ?_
  rw [valueText_expression]
  simp

theorem isLegibleCell_entries {entries : Option (List ColorMapEntry)}
    (hne : ∀ es ∈ entries, es ≠ []) (h : ∀ es ∈ entries, ∀ e ∈ es, e.IsLegible) :
    ∀ p ∈ property "raster-color-map" (entries.map entriesText), IsLegibleCell p := by
  have hcolorMap : Sheet.Token.IsKey "raster-color-map" :=
    ⟨"raster", by decide, "-color-map".toList, rfl, by simp [Sheet.Token.isKeyChar]⟩
  refine isLegibleCell_listing hcolorMap (by decide) fun v hv => ?_
  obtain ⟨es, hes, rfl⟩ := Option.map_eq_some_iff.mp hv
  have hsteady : ∀ t ∈ es.map fun e => e.expression.valueText, IsSteady t :=
    List.forall_mem_map.mpr fun e he =>
      ColorMapEntry.isSteady_expression_of_isLegible (h es hes e he)
  have hnil : es.map (fun e => e.expression.valueText) ≠ [] := by simpa using hne es hes
  have hkey : contentOf "raster-color-map" = .entries := by decide
  refine ⟨⟨_, hnil, hsteady, rfl⟩, isAccepted_of_content hkey ?_⟩
  show fault? (entriesOf (entriesText es)) = none
  rw [entriesOf, entriesText, mapM_splitTopLevel_intercalate hnil hsteady, fault?_mapM,
    List.findSome?_eq_none_iff]
  exact List.forall_mem_map.mpr fun e he => ColorMapEntry.fault?_ofText (h es hes e he)

end Entries

section Rasters

variable {r : Raster} {e : Entry} {i : Instance}

/-- A contrast property is written once for all channels or once for each. -/
theorem exists_of_contrastText {α : Type} [BEq α] {key : String} {write : α → String}
    {values : List (Option α)} {text : Option String}
    (h : contrastText key write values = .ok text) : ∃ shared, text = valuesText write shared ∧
      (shared.length ≤ 1 ∨ shared.length = values.length) ∧ ∀ a ∈ shared, some a ∈ values := by
  have hmem : ∀ a ∈ values.filterMap id, some a ∈ values := by simp
  rw [contrastText] at h
  cases hvalues : values.filterMap id with
  | nil =>
    rw [hvalues] at h
    exact ⟨[], (Except.ok.inj h).symm, Or.inl (Nat.zero_le 1), List.forall_mem_nil _⟩
  | cons first rest =>
    rw [hvalues] at h hmem
    by_cases hlength : (first :: rest).length = values.length
    · simp only [hlength, ne_eq, not_true_eq_false, if_false] at h
      split at h
      · exact ⟨[first], (Except.ok.inj h).symm, Or.inl (Nat.le_refl 1),
          List.forall_mem_singleton.mpr (hmem first List.mem_cons_self)⟩
      · exact ⟨first :: rest, (Except.ok.inj h).symm, Or.inr hlength, hmem⟩
    · simp only [ne_eq, hlength, not_false_eq_true, if_true] at h
      cases h

/-- What a raster says, if it can be written. -/
theorem Raster.exists_of_entry (h : r.entry = .ok e) : ∃ enhancements gammas,
    e = { properties := r.properties enhancements gammas } ∧
    (enhancements.length ≤ 1 ∨ enhancements.length = r.contrasts.length) ∧
    (gammas.length ≤ 1 ∨ gammas.length = r.contrasts.length) ∧
    ∀ x ∈ gammas, some x ∈ r.gammas := by
  rw [Raster.entry] at h
  obtain ⟨_, henhancement, h⟩ := bind_eq_ok_iff.mp h
  obtain ⟨_, hgamma, h⟩ := bind_eq_ok_iff.mp h
  obtain ⟨enhancements, rfl, henhancements, -⟩ := exists_of_contrastText henhancement
  obtain ⟨gammas, rfl, hgammas, hmem⟩ := exists_of_contrastText hgamma
  rw [List.length_map] at henhancements hgammas
  exact ⟨enhancements, gammas, (Except.ok.inj h).symm, henhancements, hgammas, hmem⟩

theorem Raster.IsLegible.isChannelName (h : r.IsLegible) :
    ∀ s ∈ r.sources, IsChannelName (s.getD "") := by
  intro s hs
  cases s with
  | none => exact ⟨Or.inl (by simp), by decide⟩
  | some name => exact h.sources _ hs name rfl

theorem Raster.isLegible_entry (h : r.IsLegible) (he : r.entry = .ok e) : e.IsLegible := by
  obtain ⟨enhancements, gammas, rfl, -, -, hmem⟩ := exists_of_entry he
  have hother {key v : String} (hkey : contentOf key = .other) (hv : IsSteady v) : Suits key v :=
    ⟨hv, isAccepted_of_content hkey trivial⟩
  have hchannels : ∀ v ∈ some r.channelsExpression.valueText, Suits "raster-channels" v := by
    rintro v ⟨⟩
    exact hother (by decide) (exists_channelNames h.isChannelName).1
  have hkind : ∀ v ∈ (r.colorMap.bind (·.kind)).map ColorMapKind.name,
      Suits "raster-color-map-type" v := by
    intro v hv
    obtain ⟨kind, -, rfl⟩ := Option.map_eq_some_iff.mp hv
    have hname : textOf "raster-color-map-type" (some kind.name) = .ok (some kind.name) := by
      have hname : textOf "raster-color-map-type" (wordText (some kind.name)) = _ :=
        textOf_wordText (by simpa using kind.isQuotable_name)
      rwa [wordText, Option.map_some, kind.valueText_name] at hname
    refine ⟨?_, isAccepted_of_content
      (show contentOf "raster-color-map-type" = .kind by decide)
      ⟨_, hname, by rw [kind.ofName?_name]; rfl⟩⟩
    rw [← kind.valueText_name]
    exact isSteady_text kind.isQuotable_name
  have henhancements : ∀ v ∈ valuesText Enhancement.name enhancements,
      Suits "raster-contrast-enhancement" v := fun v hv => hother (by decide) <| by
    refine isSteady_valuesText (fun e _ => ?_) v hv
    rw [← e.valueText_name]
    exact isSteady_text e.isQuotable_name
  have hgammas : ∀ v ∈ valuesText display gammas, Suits "raster-gamma" v := fun v hv =>
    hother (by decide) (isSteady_valuesText (fun x hx => isSteady_display (h.gammas x (hmem x hx)))
      v hv)
  have hentries : ∀ p ∈ property "raster-color-map"
      ((r.colorMap.bind (·.entries)).map entriesText), IsLegibleCell p := by
    refine isLegibleCell_entries (fun es hes => ?_) fun es hes => ?_
    all_goals obtain ⟨m, hm, hes⟩ := Option.bind_eq_some_iff.mp hes
    · exact h.ne_nil m hm es hes
    · exact h.entries m hm es hes
  refine ⟨?_, List.forall_mem_nil _, fun hparts => absurd rfl hparts⟩
  simp only [Raster.properties, List.forall_mem_append]
  exact ⟨⟨⟨⟨⟨isLegibleCell_property (by decide) (suits_numberText (by decide) h.opacity),
    isLegibleCell_property (by decide) hchannels⟩, hentries⟩,
    isLegibleCell_property (by decide) hkind⟩, isLegibleCell_property (by decide) henhancements⟩,
    isLegibleCell_property (by decide) hgammas⟩

/-- The gammas of a raster are read as as many numbers. -/
theorem exists_gammas {gammas : List Float} (h : i.raw? gammaKey = valuesText display gammas)
    (hgammas : ∀ x ∈ gammas, IsLegibleNumber x) :
    ∃ xs, i.numbers gammaKey = .ok xs ∧ (xs.getD []).length = gammas.length := by
  rw [Instance.numbers, h, valuesText]
  by_cases hnil : gammas = []
  · subst hnil
    exact ⟨none, rfl, rfl⟩
  · obtain ⟨ys, hys, hlength⟩ := exists_numbersOf (show gammaKey ≠ "label" by decide) hnil hgammas
    rw [if_neg (by simpa using hnil)]
    exact ⟨some ys, hys, hlength⟩

def contrastKeys : List String := ["raster-channels", enhancementKey, gammaKey]

/-- The channels and the contrasts of a raster are read and fit together. -/
theorem Raster.hasContrasts (h : r.IsLegible) (he : r.entry = .ok e)
    (hi : ∀ key ∈ contrastKeys, i.raw? key = e.properties.lookup key) : i.HasContrasts := by
  obtain ⟨enhancements, gammas, rfl, hcount, hgammaCount, hmem⟩ := exists_of_entry he
  have hraw : i.raw? "raster-channels" = some r.channelsExpression.valueText ∧
      i.raw? enhancementKey = valuesText Enhancement.name enhancements ∧
      i.raw? gammaKey = valuesText display gammas := by
    refine ⟨?_, ?_, ?_⟩ <;> rw [hi _ (by simp [contrastKeys])] <;>
      simp [properties, lookup_property, List.lookup_append, enhancementKey, gammaKey]
  obtain ⟨hchannels, henhancement, hgamma⟩ := hraw
  obtain ⟨-, channels, hparse, hnames⟩ := exists_channelNames h.isChannelName
  obtain ⟨enhancement, hread, hshared⟩ := enhancementsOf_eq henhancement
  obtain ⟨xs, hxs, hlength⟩ := exists_gammas hgamma fun x hx => h.gammas x (hmem x hx)
  have hexpression : i.expression "raster-channels" = .ok (some channels) := by
    rw [Instance.expression, hchannels]
    exact expressionOf_some hparse
  refine ⟨some channels, enhancement, enhancements, xs, hexpression, hread, hshared, hxs, ?_⟩
  have hnumber : (channelNames channels.read.toList).length ≤ 1 ∧ r.contrasts.length = 1 ∨
      (channelNames channels.read.toList).length = 3 ∧ r.contrasts.length = 3 := by
    rcases hnames with hnames | ⟨gray, hgray, -, hnames⟩
    · rw [hnames]
      rcases hchannels : r.channels with _ | ⟨_ | _⟩ <;> simp [contrasts, sources, hchannels]
    · rw [hnames]
      simp [contrasts, hgray]
  simp only [Option.map_some, Option.getD_some, FitsChannels, hlength]
  omega

theorem hasContrasts_of_raw?_eq_none (h : ∀ key ∈ contrastKeys, i.raw? key = none) :
    i.HasContrasts := by
  have hexpression {key : String} (hkey : key ∈ contrastKeys) : i.expression key = .ok none := by
    rw [Instance.expression, h key hkey]
    rfl
  have hgamma : i.numbers gammaKey = .ok none := by
    rw [Instance.numbers, h gammaKey (by decide)]
    rfl
  exact ⟨none, none, [], none, hexpression (by decide), hexpression (by decide), rfl, hgamma,
    Or.inl (Nat.zero_le 1), Or.inl (Nat.zero_le 1), Or.inl (Nat.zero_le 1)⟩

end Rasters

def keysOfKind : Rule.Kind → List String
  | .point => graphicKeys "mark"
  | .line => graphicKeys "stroke" ++ Line.otherKeys
  | .polygon => graphicKeys "fill" ++ Fill.otherKeys
  | .text => labelKeys
  | .raster => ["raster-opacity", "raster-color-map", "raster-color-map-type"] ++ contrastKeys

section Symbolizers

variable {s : Symbolizer} {e : Entry} {key : String}

theorem Symbolizer.lookup_eq_none (he : s.entry = .ok e) (hkey : key ∉ keysOfKind s.kind) :
    e.properties.lookup key = none := by
  cases s with
  | mark m =>
    cases he
    exact (Graphic.mark m).lookup_entry_eq_none hkey
  | icon i =>
    cases he
    exact (Graphic.icon i).lookup_entry_eq_none hkey
  | line l =>
    cases he
    obtain ⟨hgraphic, hother⟩ := not_or.mp (mt List.mem_append.mpr hkey)
    exact l.lookup_entry_eq_none hgraphic hother
  | fill f =>
    cases he
    obtain ⟨hgraphic, hother⟩ := not_or.mp (mt List.mem_append.mpr hkey)
    exact f.lookup_entry_eq_none hgraphic hother
  | label l =>
    cases he
    exact l.lookup_entry_eq_none hkey
  | raster r =>
    obtain ⟨enhancements, gammas, rfl, -⟩ := Raster.exists_of_entry he
    simp only [Symbolizer.kind, keysOfKind, contrastKeys, enhancementKey, gammaKey,
      List.cons_append, List.nil_append, List.mem_cons, not_or] at hkey
    simp [Raster.properties, lookup_property, List.lookup_append, hkey]

/-- Only rasters write keys of rasters. -/
theorem Symbolizer.lookup_rasterKey (he : s.entry = .ok e) (hkind : s.kind ≠ .raster)
    (hkey : isRasterKey key = true) : e.properties.lookup key = none := by
  have hnames : ∀ k ∈ keysOfKind s.kind, isRasterKey k = false := by
    cases hself : s.kind with
    | raster => exact absurd hself hkind
    | _ => decide
  refine lookup_eq_none he fun hmem => ?_
  rw [hnames key hmem] at hkey
  cases hkey

theorem Symbolizer.isLegible_entry (h : s.IsLegible) (he : s.entry = .ok e) : e.IsLegible := by
  cases s with
  | mark m =>
    cases he
    exact Graphic.isLegible_entry (g := .mark m) (by decide) h
  | icon i =>
    cases he
    exact Graphic.isLegible_entry (g := .icon i) (by decide) h
  | line l =>
    cases he
    exact Line.isLegible_entry h
  | fill f =>
    cases he
    exact Fill.isLegible_entry h
  | label l =>
    cases he
    exact Label.isLegible_entry h
  | raster r => exact Raster.isLegible_entry h he

theorem Symbolizer.hasContrasts (h : s.IsLegible) (he : s.entry = .ok e) {i : Instance}
    (hi : ∀ key ∈ contrastKeys, i.raw? key = e.properties.lookup key) : i.HasContrasts := by
  by_cases hraster : s.kind = .raster
  · cases s with
    | raster r => exact Raster.hasContrasts h he hi
    | _ => cases hraster
  · have hkeys : ∀ key ∈ contrastKeys, isRasterKey key = true := by decide
    refine hasContrasts_of_raw?_eq_none fun key hkey => ?_
    rw [hi key hkey, lookup_rasterKey he hraster (hkeys key hkey)]

end Symbolizers

/-- The symbolizer has entries of a colour map, which all rows of its rule share. -/
def Symbolizer.hasColorMap : Symbolizer → Bool
  | raster r => (r.colorMap.bind (·.entries)).isSome
  | _ => false

/-- The row holds a label and no geometry. -/
def isLabelRow : List Symbolizer → Bool
  | [.label _] => true
  | _ => false

/-- The entry tells what the row holds: it is read, its contrasts are those of one raster, it has
a label only if the row has one, and without a geometry it has keys of labels only. -/
structure IsToldBy (row : List Symbolizer) (e : Entry) : Prop where
  legible : e.IsLegible
  contrasts : ∀ i : Instance, (∀ key ∈ contrastKeys, i.raw? key = e.properties.lookup key) →
    i.HasContrasts
  labels : (e.properties.lookup "label").isSome.toNat + (!isLabelRow row).toNat ≤ row.length
  geometry : isLabelRow row = true → ∀ key ∉ labelKeys, e.properties.lookup key = none
  colorMap : (e.properties.lookup "raster-color-map").isSome = true →
    row.any Symbolizer.hasColorMap = true

section Rows

variable {s : Symbolizer} {l : Label} {e f : Entry} {row symbolizers : List Symbolizer}

theorem rowEntry_singleton (h : rowEntry [s] = .ok e) : s.entry = .ok e := by
  obtain ⟨fs, hfs, rfl⟩ := rowEntry_eq_ok_iff.mp h
  cases hfs with
  | cons hs hrest =>
    cases hrest
    exact hs

theorem rowEntry_label (h : rowEntry [s, .label l] = .ok e) :
    ∃ f, s.entry = .ok f ∧ e = f.append l.entry := by
  obtain ⟨fs, hfs, rfl⟩ := rowEntry_eq_ok_iff.mp h
  cases hfs with
  | @cons _ f _ _ hs hrest =>
    cases hrest with
    | cons hlabel hnil =>
      cases hlabel
      cases hnil
      exact ⟨f, hs, rfl⟩

theorem Symbolizer.lookup_label (he : s.entry = .ok e) (hkind : s.kind ≠ .text) :
    e.properties.lookup "label" = none := by
  refine lookup_eq_none he ?_
  cases htext : s.kind with
  | text => exact absurd htext hkind
  | _ => decide

theorem Symbolizer.hasColorMap_of_lookup (he : s.entry = .ok e)
    (h : (e.properties.lookup "raster-color-map").isSome = true) : s.hasColorMap = true := by
  by_cases hraster : s.kind = .raster
  · cases s with
    | raster r =>
      obtain ⟨enhancements, gammas, rfl, -⟩ := Raster.exists_of_entry he
      simpa [Raster.properties, lookup_property, List.lookup_append, hasColorMap,
        Option.isSome_bind] using h
    | _ => cases hraster
  · rw [lookup_rasterKey he hraster (by decide)] at h
    cases h

theorem isLabelRow_singleton (hkind : s.kind ≠ .text) : isLabelRow [s] = false := by
  cases s with
  | label l => exact absurd rfl hkind
  | _ => rfl

theorem isToldBy_geometry (h : s.IsLegible) (hkind : s.kind ≠ .text) (he : rowEntry [s] = .ok e) :
    IsToldBy [s] e where
  legible := Symbolizer.isLegible_entry h (rowEntry_singleton he)
  contrasts i hi := Symbolizer.hasContrasts h (rowEntry_singleton he) hi
  labels := by
    rw [Symbolizer.lookup_label (rowEntry_singleton he) hkind, isLabelRow_singleton hkind]
    rfl
  geometry hlabel := by
    rw [isLabelRow_singleton hkind] at hlabel
    cases hlabel
  colorMap hsome := by simpa using Symbolizer.hasColorMap_of_lookup (rowEntry_singleton he) hsome

theorem isToldBy_label (h : l.IsLegible) (he : rowEntry [.label l] = .ok e) :
    IsToldBy [.label l] e where
  legible := Symbolizer.isLegible_entry (s := .label l) h (rowEntry_singleton he)
  contrasts i hi := Symbolizer.hasContrasts (s := .label l) h (rowEntry_singleton he) hi
  labels := Bool.toNat_le _
  geometry _ key hkey := Symbolizer.lookup_eq_none (s := .label l) (rowEntry_singleton he) hkey
  colorMap hsome := by
    have hnone : e.properties.lookup "raster-color-map" = none :=
      Symbolizer.lookup_eq_none (rowEntry_singleton he) (by decide : _ ∉ keysOfKind .text)
    rw [hnone] at hsome
    cases hsome

theorem isToldBy_both (h : s.IsLegible) (hkind : s.kind ≠ .text) (hl : l.IsLegible)
    (he : rowEntry [s, .label l] = .ok e) : IsToldBy [s, .label l] e := by
  obtain ⟨f, hf, rfl⟩ := rowEntry_label he
  have hlookup {key : String} (hkey : key ∉ labelKeys) :
      (f.append l.entry).properties.lookup key = f.properties.lookup key := by
    rw [lookup_append, l.lookup_entry_eq_none hkey, Option.or_none]
  refine ⟨(Symbolizer.isLegible_entry h hf).append (Label.isLegible_entry hl), fun i hi => ?_, ?_,
    fun hlabel => by simp [isLabelRow] at hlabel, fun hsome => ?_⟩
  · have hkeys : ∀ key ∈ contrastKeys, key ∉ labelKeys := by decide
    exact Symbolizer.hasContrasts h hf fun key hkey => by rw [hi key hkey, hlookup (hkeys key hkey)]
  · exact Nat.add_le_add (Bool.toNat_le _) (Bool.toNat_le _)
  · rw [hlookup (by decide)] at hsome
    simp [Symbolizer.hasColorMap_of_lookup hf hsome]

/-- Every row of a layout whose symbolizers can be read is told by its entry. -/
theorem isToldBy_of_mem_layOut (h : ∀ s ∈ symbolizers, s.IsLegible) :
    ∀ row ∈ layOut symbolizers, ∀ e, rowEntry row = .ok e → IsToldBy row e := by
  intro row hrow e he
  have hlegible : ∀ s ∈ row, s.IsLegible := fun s hs => h s (mem_of_mem_layOut hrow hs)
  rcases cases_of_mem_layOut symbolizers row hrow with ⟨l, rfl⟩ | ⟨s, hkind, rfl | ⟨l, rfl⟩⟩
  · exact isToldBy_label (hlegible _ List.mem_cons_self) he
  · exact isToldBy_geometry (hlegible _ List.mem_cons_self) hkind he
  · have hl := hlegible _ (List.mem_cons_of_mem s List.mem_cons_self)
    exact isToldBy_both (hlegible s List.mem_cons_self) hkind hl he

end Rows

end CartoStyle.Style
