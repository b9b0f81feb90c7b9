import CartoStyle.Proofs.Style.Channel

/-!
Rasters are read back from their rows. A colour map is a list of calls with a
colour and a quantity; channels and contrasts are those of the selection.
-/

namespace CartoStyle.Style

open Decimal Lexeme PropertyValue

/-- The fields of an entry of a colour map have written forms. It has a quantity, and a label
if it has an opacity. -/
structure ColorMapEntry.IsWritable (e : ColorMapEntry) : Prop where
  color : IsColor e.color
  present : e.quantity.isSome = true
  quantity : ∀ x ∈ e.quantity, IsNumber x
  label : ∀ s ∈ e.label, IsQuotable s
  opacity : ∀ x ∈ e.opacity, IsNumber x
  labelled : e.opacity.isSome = true → e.label.isSome = true

/-- A colour map with a kind or with entries that can be listed. -/
structure ColorMap.IsWritable (m : ColorMap) : Prop where
  present : m.kind.isSome = true ∨ m.entries.isSome = true
  ne_nil : ∀ es ∈ m.entries, es ≠ []
  entries : ∀ es ∈ m.entries, ∀ e ∈ es, e.IsWritable

def Raster.sources (r : Raster) : List (Option String) :=
  match r.channels with
  | some (.rgb red green blue) => [red.source, green.source, blue.source]
  | some (.gray gray) => [gray.source]
  | none => []

def Raster.enhancements (r : Raster) : List (Option Enhancement) :=
  r.contrasts.map fun c => c.bind (·.enhancement)

def Raster.gammas (r : Raster) : List (Option Float) :=
  r.contrasts.map fun c => c.bind (·.gamma)

/-- The fields of a raster have written forms. Its channels have names, and a contrast property
that one of them has they all have; with channels the raster has no contrast of its own. -/
structure Raster.IsWritable (r : Raster) : Prop where
  opacity : ∀ x ∈ r.opacity, IsNumber x
  colorMap : ∀ m ∈ r.colorMap, m.IsWritable
  named : ∀ s ∈ r.sources, s.isSome = true
  sources : ∀ s ∈ r.sources, ∀ name ∈ s, IsChannelName name
  gray : ∀ gray, r.channels = some (.gray gray) → ∀ name ∈ gray.source, name.toLower ≠ "auto"
  selected : r.channels.isSome = true → r.contrast = none
  contrasts : ∀ c ∈ r.contrasts, ∀ contrast ∈ c, contrast.isEmpty = false
  enhancements : IsUniform r.enhancements
  gammas : IsUniform r.gammas
  numbers : ∀ x, some x ∈ r.gammas → IsNumber x ∧ view x ≠ .zero true

section Entries

variable {e : ColorMapEntry}

theorem isCallName_colorMapEntry : IsCallName "color-map-entry" where
  word := ⟨'c', "olor-map-entry".toList, rfl, rfl, List.all_eq_true.mp (by decide)⟩
  lower := Text.toLower_eq_self (by decide)
  unknown := by decide

def ColorMapEntry.args (e : ColorMapEntry) : List Expression :=
  colorExpression e.color :: .number (e.quantity.getD 0.0) ::
    ((e.label.map Expression.text).toList ++ (e.opacity.map Expression.number).toList)

theorem ColorMapEntry.expression_eq (h : e.IsWritable) :
    e.expression = .apply (.other "color-map-entry") e.args := by
  rw [expression, args]
  cases hlabel : e.label with
  | some label => simp
  | none =>
    have hopacity : e.opacity = none := by
      have hlabelled := h.labelled
      rw [hlabel] at hlabelled
      simpa using hlabelled
    simp [hopacity]

theorem ColorMapEntry.isNumber_quantity (h : e.IsWritable) : IsNumber (e.quantity.getD 0.0) := by
  obtain ⟨q, hq⟩ := Option.isSome_iff_exists.mp h.present
  rw [hq]
  exact h.quantity q hq

theorem ColorMapEntry.forall_mem_args {P : Expression → Prop} (hcolor : P (colorExpression e.color))
    (hquantity : P (.number (e.quantity.getD 0.0))) (hlabel : ∀ s ∈ e.label, P (.text s))
    (hopacity : ∀ x ∈ e.opacity, P (.number x)) : ∀ arg ∈ e.args, P arg := by
  intro arg harg
  simp only [args, List.mem_cons, List.mem_append, Option.mem_toList,
    Option.map_eq_some_iff] at harg
  rcases harg with rfl | rfl | ⟨s, hs, rfl⟩ | ⟨x, hx, rfl⟩
  · exact hcolor
  · exact hquantity
  · exact hlabel s hs
  · exact hopacity x hx

theorem ColorMapEntry.isAtom_expression (h : e.IsWritable) : IsAtom e.expression := by
  have hatoms : ∀ arg ∈ e.args, IsAtom arg :=
    forall_mem_args (isAtom_colorExpression h.color) (.number (isNumber_quantity h))
      (fun s hs => .text (h.label s hs)) fun x hx => .number (h.opacity x hx)
  have hrows : (e.args.map fun arg => [arg]).map row = e.args := by
    rw [List.map_map]
    exact List.map_id _
  rw [expression_eq h, ← hrows]
  refine .call isCallName_colorMapEntry (by simp) fun es hes arg harg => ?_
  obtain ⟨arg', harg', rfl⟩ := List.mem_map.mp hes
  rw [List.mem_singleton.mp harg]
  exact hatoms arg' harg'

/-- An entry of a colour map is read back. -/
theorem ColorMapEntry.ofText_valueText (h : e.IsWritable) :
    ColorMapEntry.ofText e.expression.valueText = .ok e := by
  obtain ⟨q, hq⟩ := Option.isSome_iff_exists.mp h.present
  have hparse : PropertyValue.parse colorMapKey e.expression.valueText = .ok e.expression :=
    parse_atom (isAtom_expression h)
  have hlabelled := h.labelled
  rw [ofText, hparse, expression_eq h, args]
  obtain ⟨color, quantity, label, opacity⟩ := e
  simp only at hq hlabelled
  subst hq
  cases label <;> cases opacity <;>
    simp_all [colorOf?_colorExpression, Expression.number, Expression.text, Expression.read,
      Value.asNumber?, Value.toText?, bind, Except.bind, pure, Except.pure]

theorem ColorMapEntry.isSteady_expression (h : e.IsWritable) :
    IsSteady e.expression.valueText := by
  have hsteady : ∀ arg ∈ e.args, IsSteady arg.valueText := by
    refine forall_mem_args (isSteady_colorExpression h.color) ?_
      (fun s hs => isSteady_text (h.label s hs)) fun x hx => ?_
    · rw [valueText_number]
      exact isSteady_number (isNumber_quantity h).finite
    · rw [valueText_number]
      exact isSteady_number (h.opacity x hx).finite
  have hclosed : Sheet.IsClosed 1
      ([',', ' '].intercalate ((e.args.map Expression.valueText).map String.toList)) := by
    refine Sheet.isClosed_intercalate Sheet.isClosed_comma ?_
    simp only [List.forall_mem_map]
    exact fun arg harg => (hsteady arg harg).closed.mono (Nat.zero_le 1)
  refine isSteady_call isCallName_colorMapEntry.word hclosed ?_
  rw [expression_eq h, Expression.valueText, valueTexts_eq_map]
  simp

end Entries

section Reading

variable {i : Instance} {r : Raster} {e : Entry}

theorem entriesOf_entriesText {es : List ColorMapEntry} (hne : es ≠ [])
    (h : ∀ e ∈ es, e.IsWritable) : entriesOf (entriesText es) = .ok es := by
  have hsteady : ∀ t ∈ es.map fun e => e.expression.valueText, IsSteady t :=
    List.forall_mem_map.mpr fun e he => ColorMapEntry.isSteady_expression (h e he)
  have hlist := mapM_splitTopLevel_intercalate (f := ColorMapEntry.ofText) (by simpa using hne)
    hsteady
  have hread : es.mapM (ColorMapEntry.ofText ∘ fun e => e.expression.valueText) =
      .ok (es.map id) :=
    mapM_eq_ok fun e he => ColorMapEntry.ofText_valueText (h e he)
  rw [entriesOf, entriesText, hlist, List.mapM_map, hread, List.map_id]

theorem ColorMapKind.ofName?_name (k : ColorMapKind) : ColorMapKind.ofName? k.name = some k := by
  refine findSpelled_self ?_ ?_ ?_ ?_
  · cases k <;> decide
  · cases k <;> decide
  · cases k <;> rfl
  · cases k <;> rfl

theorem ColorMapKind.valueText_name (k : ColorMapKind) :
    (Expression.text k.name).valueText = k.name := by
  rw [Expression.text, Expression.valueText, Expression.literalText]
  cases k <;> exact if_pos (by decide)

theorem ColorMapKind.isQuotable_name (k : ColorMapKind) : IsQuotable k.name := by
  cases k <;> exact Or.inl (by decide)

theorem colorMapKind_eq {kind : Option ColorMapKind}
    (h : i.raw? "raster-color-map-type" = kind.map ColorMapKind.name) :
    colorMapKind i = .ok kind := by
  rw [colorMapKind, Instance.text, h]
  cases kind with
  | none => rfl
  | some k =>
    have hname : textOf "raster-color-map-type" (wordText (some k.name)) = .ok (some k.name) := by
      refine textOf_wordText ?_
      rintro name ⟨⟩
      exact k.isQuotable_name
    rw [wordText, Option.map_some, k.valueText_name] at hname
    simp only [Option.map_some, hname, bind, Except.bind, ColorMapKind.ofName?_name]
    rfl

/-- A colour map is read back. -/
theorem ColorMap.ofInstance_eq {colorMap : Option ColorMap}
    (hwritable : ∀ m ∈ colorMap, m.IsWritable)
    (hkind : i.raw? "raster-color-map-type" = (colorMap.bind (·.kind)).map ColorMapKind.name)
    (hentries : i.raw? colorMapKey = (colorMap.bind (·.entries)).map entriesText) :
    ColorMap.ofInstance i = .ok colorMap := by
  rw [ofInstance, colorMapKind_eq hkind, hentries]
  cases colorMap with
  | none => rfl
  | some m =>
    have hm := hwritable m rfl
    have hpresent := hm.present
    have hread : (m.entries.map entriesText).mapM entriesOf = .ok m.entries := by
      cases hes : m.entries with
      | none => rfl
      | some es =>
        show some <$> entriesOf (entriesText es) = _
        rw [entriesOf_entriesText (hm.ne_nil es hes) (hm.entries es hes)]
        rfl
    simp only [Option.bind_some, hread, bind, Except.bind]
    rw [if_neg]
    · rfl
    · cases hkind : m.kind <;> cases hes : m.entries <;> simp_all

theorem isQuotable_auto : IsQuotable "auto" := Or.inl (by decide)

/-- The value text of a channel is that of an atom with its name; a missing name is empty. -/
theorem Channel.exists_atom {c : Channel} (h : IsChannelName (c.source.getD "")) :
    ∃ e, IsAtom e ∧ IsSteady e.valueText ∧ e.valueText = (channelExpression c).valueText ∧
      IsNamed (c.source.getD "") e.read :=
  exists_channelAtom (c := { c with source := some (c.source.getD "") }) rfl h

theorem exists_gray {gray : Channel} (h : IsChannelName (gray.source.getD "")) :
    IsSteady (channelExpression gray).valueText ∧
      ∃ e, PropertyValue.parse "raster-channels" (channelExpression gray).valueText = .ok e ∧
        (channelNames e.read.toList = [gray.source.getD ""] ∨
          (gray.source.getD "").toLower = "auto" ∧ channelNames e.read.toList = []) := by
  obtain ⟨e, hatom, hsteady, htext, hread⟩ := Channel.exists_atom h
  rw [← htext]
  refine ⟨hsteady, e, parse_atom hatom, ?_⟩
  rcases hread with hread | ⟨x, hread, hx⟩
  · by_cases hauto : (gray.source.getD "").toLower = "auto"
    · exact Or.inr ⟨hauto, by simp [hread, Value.toList, channelNames, hauto]⟩
    · exact Or.inl (by simp [hread, Value.toList, channelNames, hauto])
  · exact Or.inl (by simp [hread, Value.toList, channelNames, hx, Value.toText?])

theorem exists_rgb {red green blue : Channel} (hred : IsChannelName (red.source.getD ""))
    (hgreen : IsChannelName (green.source.getD "")) (hblue : IsChannelName (blue.source.getD "")) :
    IsSteady (Expression.array ([red, green, blue].map channelExpression)).valueText ∧
      ∃ e, PropertyValue.parse "raster-channels"
          (Expression.array ([red, green, blue].map channelExpression)).valueText = .ok e ∧
        channelNames e.read.toList = [red, green, blue].map (·.source.getD "") := by
  obtain ⟨e₁, hatom₁, hsteady₁, htext₁, hread₁⟩ := Channel.exists_atom hred
  obtain ⟨e₂, hatom₂, hsteady₂, htext₂, hread₂⟩ := Channel.exists_atom hgreen
  obtain ⟨e₃, hatom₃, hsteady₃, htext₃, hread₃⟩ := Channel.exists_atom hblue
  have hne : [e₁, e₂, e₃] ≠ [] := List.cons_ne_nil _ _
  have htext : (Expression.array ([red, green, blue].map channelExpression)).valueText =
      " ".intercalate ([e₁, e₂, e₃].map Expression.valueText) := by
    rw [Expression.array, Expression.valueText, valueTexts_eq_map]
    simp [htext₁, htext₂, htext₃]
  have hparse := parse_whole "raster-channels" hne (by simp [hatom₁, hatom₂, hatom₃])
  have hlist := toList_read_whole (by decide : "raster-channels" ≠ "label") hne
    (by simp [hread₁.toList_eq, hread₂.toList_eq, hread₃.toList_eq])
  rw [valueText_whole _ hne, ← htext] at hparse
  refine ⟨?_, _, hparse, ?_⟩
  · rw [htext]
    exact isSteady_words (List.cons_ne_nil _ _) (by simp [hsteady₁, hsteady₂, hsteady₃])
  · rw [hlist]
    simp [channelNames, hread₁.toText?_eq, hread₂.toText?_eq, hread₃.toText?_eq]

/-- The channels of a raster can stand in a row and are read back by their names, apart from a
single one with the name that stands for no channel. -/
theorem Raster.exists_channelNames (h : ∀ s ∈ r.sources, IsChannelName (s.getD "")) :
    IsSteady r.channelsExpression.valueText ∧
      ∃ e, PropertyValue.parse "raster-channels" r.channelsExpression.valueText = .ok e ∧
        (channelNames e.read.toList = r.sources.map (·.getD "") ∨
          ∃ gray, r.channels = some (.gray gray) ∧ (gray.source.getD "").toLower = "auto" ∧
            channelNames e.read.toList = []) := by
  cases hchannels : r.channels with
  | none =>
    rw [channelsExpression, sources, hchannels]
    refine ⟨isSteady_text isQuotable_auto, _, parse_atom (.text isQuotable_auto), Or.inl ?_⟩
    have hauto : "auto".toLower = "auto" := Text.toLower_eq_self (by decide)
    simp [Expression.text, Expression.read, Value.toList, channelNames, hauto]
  | some channels =>
    rw [sources, hchannels] at h
    rw [channelsExpression, sources, hchannels]
    cases channels with
    | gray gray =>
      obtain ⟨hsteady, e, hparse, hnames⟩ := exists_gray (h gray.source (by simp))
      exact ⟨hsteady, e, hparse, hnames.imp id fun hauto => ⟨gray, rfl, hauto⟩⟩
    | rgb red green blue =>
      obtain ⟨hsteady, e, hparse, hnames⟩ := exists_rgb (h red.source (by simp))
        (h green.source (by simp)) (h blue.source (by simp))
      exact ⟨hsteady, e, hparse, Or.inl hnames⟩

theorem Raster.IsWritable.isChannelName (h : r.IsWritable) :
    ∀ s ∈ r.sources, IsChannelName (s.getD "") := by
  intro s hs
  obtain ⟨name, hname⟩ := Option.isSome_iff_exists.mp (h.named s hs)
  rw [hname]
  exact h.sources s hs name hname

/-- The channels of a raster can stand in a row and are read back by their names. -/
theorem Raster.exists_channels (h : r.IsWritable) : IsSteady r.channelsExpression.valueText ∧
    ∃ e, PropertyValue.parse "raster-channels" r.channelsExpression.valueText = .ok e ∧
      channelNames e.read.toList = r.sources.map (·.getD "") := by
  obtain ⟨hsteady, e, hparse, hnames | ⟨gray, hgray, hauto, -⟩⟩ :=
    exists_channelNames h.isChannelName
  · exact ⟨hsteady, e, hparse, hnames⟩
  · have hsome := h.named gray.source (by simp [sources, hgray])
    obtain ⟨name, hname⟩ := Option.isSome_iff_exists.mp hsome
    rw [hname] at hauto
    exact absurd hauto (h.gray gray hgray name hname)

/-- The channel finds its contrast again. -/
theorem Raster.contrastAt_eq {enhancements : List Enhancement} {gammas : List Float}
    (h : r.IsWritable)
    (henhancements : ∀ n v, r.enhancements[n]? = some v → forChannel? enhancements n = v)
    (hgammas : ∀ n v, r.gammas[n]? = some v → forChannel? gammas n = v) {n : Nat}
    {c : Option Contrast} (hc : r.contrasts[n]? = some c) :
    contrastAt enhancements gammas n = c := by
  have henhancement : forChannel? enhancements n = c.bind (·.enhancement) :=
    henhancements n _ (by rw [Raster.enhancements, List.getElem?_map, hc]; rfl)
  have hgamma : forChannel? gammas n = c.bind (·.gamma) :=
    hgammas n _ (by rw [Raster.gammas, List.getElem?_map, hc]; rfl)
  rw [contrastAt, henhancement, hgamma]
  cases c with
  | none => rfl
  | some contrast =>
    exact if_neg (by simp [h.contrasts _ (List.mem_of_getElem? hc) contrast rfl])

theorem Raster.checkCount_eq {α : Type} {shared : List α} (key : String)
    (h : shared.length ≤ 1 ∨ shared.length = r.contrasts.length) :
    checkCount r.sources.length key shared.length = .ok () := by
  refine if_pos ?_
  have hcount : r.contrasts.length = 1 ∨ r.sources.length = 3 ∧ r.contrasts.length = 3 := by
    rcases hchannels : r.channels with _ | ⟨_ | _⟩ <;> simp [contrasts, sources, hchannels]
  simp only [Bool.or_eq_true, decide_eq_true_eq, Bool.and_eq_true, beq_iff_eq]
  omega

def Raster.properties (r : Raster) (enhancements : List Enhancement) (gammas : List Float) :
    List (String × String) :=
  property "raster-opacity" (numberText r.opacity) ++
  property "raster-channels" (some r.channelsExpression.valueText) ++
  property "raster-color-map" ((r.colorMap.bind (·.entries)).map entriesText) ++
  property "raster-color-map-type" ((r.colorMap.bind (·.kind)).map ColorMapKind.name) ++
  property "raster-contrast-enhancement" (valuesText Enhancement.name enhancements) ++
  property "raster-gamma" (valuesText display gammas)

theorem Raster.raw?_eq {enhancements : List Enhancement} {gammas : List Float}
    (hraw : ∀ key ∉ labelKeys, i.raw? key = (r.properties enhancements gammas).lookup key) :
    i.raw? "raster-opacity" = numberText r.opacity ∧
    i.raw? "raster-channels" = some r.channelsExpression.valueText ∧
    i.raw? colorMapKey = (r.colorMap.bind (·.entries)).map entriesText ∧
    i.raw? "raster-color-map-type" = (r.colorMap.bind (·.kind)).map ColorMapKind.name ∧
    i.raw? enhancementKey = valuesText Enhancement.name enhancements ∧
    i.raw? gammaKey = valuesText display gammas := by
  refine ⟨?_, ?_, ?_, ?_, ?_, ?_⟩ <;> rw [hraw _ (by decide)] <;>
    simp [properties, lookup_property, List.lookup_append, colorMapKey, enhancementKey, gammaKey]

/-- A raster is read back if its channels find their contrasts. -/
theorem Raster.ofInstance_eq {enhancements : List Enhancement} {gammas : List Float}
    (h : r.IsWritable) (hraw : ∀ key ∉ labelKeys, i.raw? key =
      (r.properties enhancements gammas).lookup key)
    (henhancementCount : enhancements.length ≤ 1 ∨ enhancements.length = r.contrasts.length)
    (hgammaCount : gammas.length ≤ 1 ∨ gammas.length = r.contrasts.length)
    (hnumbers : ∀ x ∈ gammas, IsNumber x)
    (henhancements : ∀ n v, r.enhancements[n]? = some v → forChannel? enhancements n = v)
    (hgammas : ∀ n v, r.gammas[n]? = some v → forChannel? gammas n = v) :
    Raster.ofInstance i = .ok r := by
  obtain ⟨hopacity, hchannels, hentries, hkind, henhancement, hgamma⟩ := raw?_eq hraw
  obtain ⟨-, e, hparse, hnames⟩ := exists_channels h
  obtain ⟨contrast, hcontrast, hshared⟩ := enhancementsOf_eq henhancement
  obtain ⟨xs, hxs, hvalues⟩ := gammas_eq hgamma hnumbers
  have hexpression : i.expression "raster-channels" = .ok (some e) := by
    rw [Instance.expression, hchannels]
    exact expressionOf_some hparse
  have hlength : (r.sources.map (·.getD "")).length = r.sources.length := List.length_map _
  simp only [Raster.ofInstance, Instance.number_eq hopacity h.opacity,
    ColorMap.ofInstance_eq h.colorMap hkind hentries, hexpression, Option.map_some,
    Option.getD_some, hnames, hcontrast, hshared, hxs, hvalues, bind, Except.bind, hlength,
    checkCount_eq _ henhancementCount, checkCount_eq _ hgammaCount]
  have hat {n : Nat} {c : Option Contrast} (hc : r.contrasts[n]? = some c) :
      contrastAt enhancements gammas n = c := contrastAt_eq h henhancements hgammas hc
  have hnamed := h.named
  have hselected := h.selected
  obtain ⟨opacity, colorMap, channels, contrast⟩ := r
  rcases channels with _ | ⟨⟨⟨red, c₁⟩, ⟨green, c₂⟩, ⟨blue, c₃⟩⟩ | ⟨⟨shade, c⟩⟩⟩
  · have h₀ : contrastAt enhancements gammas 0 = contrast := hat rfl
    rw [if_neg (by simp [sources])]
    simp [sources, h₀, pure, Except.pure]
  · have h₁ : contrastAt enhancements gammas 0 = c₁ := hat rfl
    have h₂ : contrastAt enhancements gammas 1 = c₂ := hat rfl
    have h₃ : contrastAt enhancements gammas 2 = c₃ := hat rfl
    obtain rfl : contrast = none := hselected rfl
    simp only [sources, List.forall_mem_cons, Option.isSome_iff_exists] at hnamed
    obtain ⟨⟨_, rfl⟩, ⟨_, rfl⟩, ⟨_, rfl⟩, -⟩ := hnamed
    rw [if_neg (by simp [sources])]
    simp [sources, h₁, h₂, h₃, pure, Except.pure]
  · have h₀ : contrastAt enhancements gammas 0 = c := hat rfl
    obtain rfl : contrast = none := hselected rfl
    simp only [sources, List.forall_mem_cons, Option.isSome_iff_exists] at hnamed
    obtain ⟨⟨_, rfl⟩, -⟩ := hnamed
    rw [if_neg (by simp [sources])]
    simp [sources, h₀, pure, Except.pure]

theorem isSteady_valuesText {α : Type} {write : α → String} {values : List α}
    (h : ∀ x ∈ values, IsSteady (write x)) : ∀ v ∈ valuesText write values, IsSteady v := by
  intro v hv
  rw [valuesText] at hv
  split at hv
  · cases hv
  · next hne =>
    cases hv
    exact isSteady_words (by simpa using hne) (List.forall_mem_map.mpr h)

theorem isListing_entriesText {es : List ColorMapEntry} (hne : es ≠ [])
    (h : ∀ e ∈ es, e.IsWritable) : IsListing (entriesText es) :=
  ⟨_, by simpa using hne,
    List.forall_mem_map.mpr fun e he => ColorMapEntry.isSteady_expression (h e he), rfl⟩

/-- What a raster says can stand in a row. -/
theorem Raster.isCell_properties {enhancements : List Enhancement} {gammas : List Float}
    (h : r.IsWritable) (hnumbers : ∀ x ∈ gammas, IsNumber x) :
    ∀ p ∈ r.properties enhancements gammas, IsCell p := by
  have hchannels : ∀ v ∈ some r.channelsExpression.valueText, IsSteady v := by
    rintro v ⟨⟩
    exact (exists_channels h).1
  have hentries : ∀ p ∈ property "raster-color-map"
      ((r.colorMap.bind (·.entries)).map entriesText), IsCell p := by
    refine forall_mem_property.mpr fun v hv => ?_
    obtain ⟨es, hes, rfl⟩ := Option.map_eq_some_iff.mp hv
    obtain ⟨m, hm, hes⟩ := Option.bind_eq_some_iff.mp hes
    have hwritable := h.colorMap m hm
    have hkey : Sheet.Token.IsKey "raster-color-map" :=
      ⟨"raster", by decide, "-color-map".toList, rfl, by simp [Sheet.Token.isKeyChar]⟩
    exact isCell_of_isListing hkey (by decide)
      (isListing_entriesText (hwritable.ne_nil es hes) (hwritable.entries es hes))
  have hkind : ∀ v ∈ (r.colorMap.bind (·.kind)).map ColorMapKind.name, IsSteady v := by
    intro v hv
    obtain ⟨kind, -, rfl⟩ := Option.map_eq_some_iff.mp hv
    rw [← kind.valueText_name]
    exact isSteady_text kind.isQuotable_name
  have henhancements : ∀ v ∈ valuesText Enhancement.name enhancements, IsSteady v := by
    refine isSteady_valuesText fun e _ => ?_
    rw [← e.valueText_name]
    exact isSteady_text e.isQuotable_name
  have hgammas : ∀ v ∈ valuesText display gammas, IsSteady v :=
    isSteady_valuesText fun x hx => isSteady_number (hnumbers x hx).finite
  simp only [Raster.properties, List.forall_mem_append]
  exact ⟨⟨⟨⟨⟨isCell_property (by decide) (isSteady_numberText h.opacity),
    isCell_property (by decide) hchannels⟩, hentries⟩, isCell_property (by decide) hkind⟩,
    isCell_property (by decide) henhancements⟩, isCell_property (by decide) hgammas⟩

/-- A raster has an entry, which can stand in a row and is read back as the raster. -/
theorem Raster.exists_entry (h : r.IsWritable) : ∃ enhancements gammas,
    r.entry = .ok { properties := r.properties enhancements gammas } ∧
    ({ properties := r.properties enhancements gammas } : Entry).IsSteady ∧
    ∀ i : Instance, i.Draws { properties := r.properties enhancements gammas } →
      Raster.ofInstance i = .ok r := by
  obtain ⟨enhancements, henhancement, henhancementCount, -, henhancements⟩ :=
    exists_contrastText "raster-contrast-enhancement" Enhancement.name h.enhancements
      fun a b _ _ => by cases a <;> cases b <;> decide
  obtain ⟨gammas, hgamma, hgammaCount, hmem, hgammas⟩ :=
    exists_contrastText "raster-gamma" display h.gammas
      fun a b ha hb => eq_of_beq (h.numbers a ha).1.finite (h.numbers b hb).1.finite
        (h.numbers a ha).2 (h.numbers b hb).2
  have hnumbers : ∀ x ∈ gammas, IsNumber x := fun x hx => (h.numbers x (hmem x hx)).1
  have hlength : r.enhancements.length = r.contrasts.length ∧
      r.gammas.length = r.contrasts.length := ⟨List.length_map _, List.length_map _⟩
  rw [hlength.1] at henhancementCount
  rw [hlength.2] at hgammaCount
  refine ⟨enhancements, gammas, ?_, ⟨?_, nofun⟩, fun i hi => ofInstance_eq h hi.raw
    henhancementCount hgammaCount hnumbers henhancements hgammas⟩
  · rw [Raster.entry]
    rw [Raster.enhancements] at henhancement
    rw [Raster.gammas] at hgamma
    simp only [henhancement, hgamma, bind, Except.bind]
    rfl
  · exact isCell_properties h hnumbers

end Reading

end CartoStyle.Style
