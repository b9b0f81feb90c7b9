import CartoStyle.Conversion
import CartoStyle.Proofs.Sheet.Outline
import CartoStyle.Proofs.Style.RuleOutline

/-!
Styles are read back from the stylesheets they are written into. Every rule comes back with
its name, its filter, its scale range and its symbolizers, of which equal ones are kept once.
-/

namespace CartoStyle

open Sheet Style Rule

namespace Style

/-- The rows of the rule agree in what is written once for all of them. -/
structure Rule.SharesRows (r : Rule) : Prop where
  lists : SharesLists (layOut r.symbolizers)
  parts : ∀ es, List.Forall₂ IsWrittenBy (layOut r.symbolizers) es → SharesParts es

def Rule.reread (r : Rule) : Rule := { r with symbolizers := distinct r.symbolizers }

end Style

/-- Scale bounds and nested lines can be written with the settings. -/
structure Settings.IsUsable (settings : Settings) : Prop where
  identifier : Condition.IsIdentifier settings.scaleAttribute
  scale : settings.scaleAttribute ∈ settings.scaleAttributes
  indent : IsIndent settings.indent

theorem isUsable_default : Settings.IsUsable {} where
  identifier := Condition.isIdentifier_of_lower rfl rfl (by decide) (by decide) (by decide)
  scale := by decide
  indent := by simp [IsIndent]

/-- The name and the abstract of the style, and its rules, have written forms. -/
structure Style.IsWritable (scaleAttributes : List String) (s : Style) : Prop where
  name : IsDirectiveText s.name
  abstract : ∀ t, s.abstract = some t → IsDirectiveText t
  rules : ∀ r ∈ s.rules, r.IsWritable scaleAttributes

theorem forall_mem_none {α : Type} {P : α → Prop} : ∀ x ∈ (none : Option α), P x :=
  fun x hx => absurd hx (Option.not_mem_none x)

section Steps

variable {α β : Type} {R : α → β → Prop} {f : α → Nat → Except Error β} {xs : List α}

/-- A step that succeeds at every place succeeds on the list. -/
theorem exists_mapM_zipIdx (h : ∀ x ∈ xs, ∀ n, ∃ y, f x n = .ok y ∧ R x y) (n : Nat) :
    ∃ ys, ((xs.zipIdx n).mapM fun (x, i) => f x i) = .ok ys ∧ List.Forall₂ R xs ys := by
  induction xs generalizing n with
  | nil => exact ⟨[], rfl, .nil⟩
  | cons x xs ih =>
    obtain ⟨y, hy, hrel⟩ := h x List.mem_cons_self n
    obtain ⟨ys, hys, hrels⟩ := ih (fun z hz => h z (List.mem_cons_of_mem x hz)) (n + 1)
    refine ⟨y :: ys, ?_, .cons hrel hrels⟩
    simp only [List.zipIdx_cons, List.mapM_cons, hy, hys]
    rfl

end Steps

section Outlines

variable {settings : Settings} {o : Outline}

/-- The rules of a stylesheet come from its records one by one. -/
theorem ofSheet_eq_of_ofRecord (hrecordable : ∀ q ∈ o.rules, IsRecordable q.spread)
    {rules : List Style.Rule} (hlength : rules.length = o.rules.length)
    (hread : ∀ i (hi : i < o.rules.length) (hr : i < rules.length), Rule.ofRecord settings
      (Records.ofSheet o.spread.sheet).pseudo (recordOf o.rules[i].spread i) = .ok rules[i]) :
    Style.ofSheet settings o.spread.sheet =
      .ok { name := o.title.getD "", abstract := o.abstract, rules } := by
  have hblocks : o.spread.sheet.blocks = o.spread.rules.mapIdx fun i q => q.block i := rfl
  have hrecords := (records_ofSheet hblocks (List.forall_mem_map.mpr hrecordable)).1
  have hrules : (o.spread.rules.mapIdx fun i q => recordOf q i).mapM
      (Rule.ofRecord settings (Records.ofSheet o.spread.sheet).pseudo) = .ok rules := by
    refine mapM_eq_ok_iff.mpr (List.forall₂_iff_get.mpr ⟨?_, fun i hrecord hrule => ?_⟩)
    · simp [Outline.spread, hlength]
    · simpa [Outline.spread] using hread i (by simpa [hlength] using hrule) hrule
  have habstract : o.spread.sheet.directives.abstract = o.abstract := rfl
  have hname : o.spread.sheet.directives.title.getD "" = o.title.getD "" := rfl
  simp only [Style.ofSheet, hrecords, hrules, bind, Except.bind, habstract, hname]
  rfl

/-- The text of an outline is read as the style of its stylesheet. -/
theorem readStyle_render (ho : o.IsRenderable) (hindent : IsIndent settings.indent)
    (hmode : o.unquoted.mode = none ∨ o.unquoted.mode = some "Flat") {back : Style}
    (hread : Style.ofSheet settings o.unquoted.spread.sheet = .ok back) :
    readStyle settings (o.render settings.indent) = .ok { output := back, warnings := [] } := by
  have hwarnings : o.unquoted.spread.sheet.directives.warnings = [] := by
    have hsheet : o.unquoted.spread.sheet.directives.mode = o.unquoted.mode := rfl
    rw [Directives.warnings, hsheet]
    rcases hmode with hnone | hflat
    · rw [hnone]
    · rw [hflat]
      rfl
  simp only [readStyle, parse_of_isRenderable ho hindent, hread, bind, Except.bind, hwarnings]
  rfl

end Outlines

section RoundTrip

variable {settings : Settings} {s : Style} {o : Outline}

structure Style.IsOutlinedBy (scaleAttributes : List String) (s : Style) (o : Outline) : Prop where
  mode : o.mode = none ∨ o.mode = some "Flat"
  name : o.title.getD "" = s.name
  title : ∀ t, o.title = some t → IsDirectiveText t
  abstract : o.abstract = s.abstract
  rules : List.Forall₂ (fun r q => ∃ es, r.IsOutlinedBy scaleAttributes q es) s.rules o.rules

theorem Style.exists_isOutlinedBy (hsettings : settings.IsUsable)
    (h : s.IsWritable settings.scaleAttributes) :
    ∃ o, s.outline settings = .ok o ∧ s.IsOutlinedBy settings.scaleAttributes o := by
  have hrule : ∀ r ∈ s.rules, ∀ group, ∃ q, r.outline settings.scaleAttribute group = .ok q ∧
      ∃ es, r.IsOutlinedBy settings.scaleAttributes q es := by
    intro r hr group
    obtain ⟨q, es, hq, houtlined⟩ :=
      Rule.exists_isOutlinedBy (h.rules r hr) hsettings.identifier hsettings.scale group
    exact ⟨q, hq, es, houtlined⟩
  obtain ⟨rules, hrules, hrelated⟩ := exists_mapM_zipIdx hrule 0
  refine ⟨_, by rw [Style.outline, hrules]; rfl, ?_, ?_, ?_, rfl, hrelated⟩
  · cases settings.emitMode
    · exact Or.inl rfl
    · exact Or.inr rfl
  · exact getD_name s.name
  · intro t ht
    rw [eq_of_name_eq_some ht]
    exact h.name

theorem isDirectiveText_flat : IsDirectiveText "Flat" :=
  ⟨by decide, .of_all (by decide) (by decide)⟩

theorem Style.IsOutlinedBy.writable {scaleAttributes : List String}
    (h : s.IsOutlinedBy scaleAttributes o)
    (habstract : ∀ t, s.abstract = some t → IsDirectiveText t) : o.Writable IsGuarded where
  mode t ht := by
    rcases h.mode with hmode | hmode <;> rw [hmode] at ht <;> cases ht
    exact isDirectiveText_flat
  title := h.title
  abstract := by rwa [h.abstract]
  rules q hq := by
    obtain ⟨r, -, es, houtlined⟩ := exists_of_forall₂ h.rules hq
    exact houtlined.merges.writable

/-- The stylesheet of an outline is read as the style of the outline. -/
theorem Style.IsOutlinedBy.ofSheet_eq (h : s.IsOutlinedBy settings.scaleAttributes o)
    (hwritable : s.IsWritable settings.scaleAttributes) (hshares : ∀ r ∈ s.rules, r.SharesRows) :
    Style.ofSheet settings o.spread.sheet =
      .ok { s with rules := s.rules.map Rule.reread } := by
  have hrecordable : ∀ q ∈ o.rules, IsRecordable q.spread := by
    intro q hq
    obtain ⟨r, -, es, houtlined⟩ := exists_of_forall₂ h.rules hq
    exact houtlined.merges.isRecordable
  have hlength := h.rules.length_eq
  have hblocks : o.spread.sheet.blocks = o.spread.rules.mapIdx fun i q => q.block i := rfl
  have hread : Style.ofSheet settings o.spread.sheet =
      .ok ⟨o.title.getD "", o.abstract, s.rules.map Rule.reread⟩ := by
    refine ofSheet_eq_of_ofRecord hrecordable (by simp [hlength]) fun i hi hr => ?_
    have hi' : i < s.rules.length := by omega
    obtain ⟨es, houtlined⟩ := h.rules.get hi' hi
    have hmem : s.rules[i] ∈ s.rules := List.getElem_mem hi'
    have hget : o.spread.rules[i]? = some o.rules[i].spread := by simp [Outline.spread, hi]
    have hrule := houtlined.ofRecord_eq (hwritable.rules _ hmem).symbolizers
      (hshares _ hmem).lists ((hshares _ hmem).parts es houtlined.entries) hblocks
      (List.forall_mem_map.mpr hrecordable) hget
    simpa [Rule.reread] using hrule
  rw [hread, h.name, h.abstract]

/-- A writable style is read back from its text, with equal symbolizers of a rule kept once. -/
theorem exists_writeStyle_readStyle (hsettings : settings.IsUsable)
    (h : s.IsWritable settings.scaleAttributes) (hshares : ∀ r ∈ s.rules, r.SharesRows) :
    ∃ text, writeStyle settings s = .ok { output := text, warnings := [] } ∧
      readStyle settings text =
        .ok { output := { s with rules := s.rules.map Rule.reread }, warnings := [] } := by
  obtain ⟨o, ho, houtlined⟩ := Style.exists_isOutlinedBy hsettings h
  refine ⟨o.render settings.indent, by rw [writeStyle, ho]; rfl, ?_⟩
  have howritable := houtlined.writable h.abstract
  have hunquoted := howritable.unquoted_eq
  refine readStyle_render howritable.isRenderable hsettings.indent ?_ ?_
  · rw [hunquoted]
    exact houtlined.mode
  · rw [hunquoted]
    exact houtlined.ofSheet_eq h hshares

end RoundTrip

namespace Style

section OneRow

variable {r : Rule}

theorem IsRow.layOut_eq {row : List Symbolizer} (h : IsRow row) : layOut row = [row] := by
  cases h with
  | geometry _ hkind => rw [layOut.eq_4 _ _ (fun l hl => hkind (by rw [hl]; rfl))
      fun _ _ hnil => List.cons_ne_nil _ _ hnil.symm]; rfl
  | label _ => rfl
  | both _ hkind _ => rw [layOut.eq_3 _ _ _ fun l hl => hkind (by rw [hl]; rfl)]; rfl

theorem IsRow.isWritable {row : List Symbolizer} (h : IsRow row) : ∀ s ∈ row, s.IsWritable := by
  cases h with
  | geometry h _ => exact List.forall_mem_singleton.mpr h
  | label h => exact List.forall_mem_singleton.mpr h
  | both h _ hl => exact List.forall_mem_cons.mpr ⟨h, List.forall_mem_singleton.mpr hl⟩

theorem beq_label_eq_false {s : Symbolizer} (hkind : s.kind ≠ .text) (l : Label) :
    (s == .label l) = false := by
  cases s with
  | label k => exact absurd rfl hkind
  | _ => rfl

/-- A geometry differs from a label. -/
theorem IsRow.distinct_eq {row : List Symbolizer} (h : IsRow row) : distinct row = row := by
  cases h with
  | geometry => exact distinct_eq_self (List.pairwise_singleton _ _)
  | label => exact distinct_eq_self (List.pairwise_singleton _ _)
  | both _ hkind _ =>
    exact distinct_eq_self (List.pairwise_pair.mpr (beq_label_eq_false hkind _))

theorem IsRow.exists_font {row : List Symbolizer} (h : IsRow row) :
    ∃ font, ∀ l, Symbolizer.label l ∈ row → l.font = font := by
  cases h with
  | geometry _ hkind =>
    refine ⟨none, fun l hl => absurd ?_ hkind⟩
    rw [← List.mem_singleton.mp hl]
    rfl
  | label _ =>
    rename_i l _
    refine ⟨l.font, fun k hk => ?_⟩
    cases List.mem_singleton.mp hk
    rfl
  | both _ hkind _ =>
    rename_i g l _ _
    refine ⟨l.font, fun k hk => ?_⟩
    rcases List.mem_cons.mp hk with hg | hk
    · exact absurd (by rw [← hg]; rfl) hkind
    · cases List.mem_singleton.mp hk
      rfl

/-- A single row shares everything with itself. -/
theorem Rule.sharesRows_of_isRow (h : r.symbolizers = [] ∨ IsRow r.symbolizers) :
    r.SharesRows := by
  rcases h with hnil | hrow
  · refine ⟨?_, fun es hes => ?_⟩
    · rw [hnil, layOut]
      exact ⟨⟨none, List.forall_mem_nil _⟩, ⟨none, List.forall_mem_nil _⟩⟩
    · rw [hnil, layOut] at hes
      rw [List.forall₂_nil_left_iff.mp hes]
      exact List.forall_mem_nil _
  · refine ⟨?_, fun es hes => ?_⟩
    · rw [hrow.layOut_eq]
      obtain ⟨font, hfont⟩ := hrow.exists_font
      exact ⟨⟨_, List.forall_mem_singleton.mpr rfl⟩, ⟨font, List.forall_mem_singleton.mpr hfont⟩⟩
    · rw [hrow.layOut_eq] at hes
      obtain ⟨e, rfl⟩ := List.length_eq_one_iff.mp hes.length_eq.symm
      intro a ha b hb part _ key
      rw [List.mem_singleton.mp ha, List.mem_singleton.mp hb]

end OneRow

end Style

/-- A style is read back from its text if every rule draws nothing, a geometry, a label, or a
geometry with a label. -/
theorem readStyle_writeStyle {s : Style} (h : s.IsWritable ({} : Settings).scaleAttributes)
    (hrows : ∀ r ∈ s.rules, r.symbolizers = [] ∨ IsRow r.symbolizers) :
    ∃ text, writeStyle {} s = .ok { output := text, warnings := [] } ∧
      readStyle {} text = .ok { output := s, warnings := [] } := by
  obtain ⟨text, hwrite, hread⟩ := exists_writeStyle_readStyle isUsable_default h fun r hr =>
    Rule.sharesRows_of_isRow (hrows r hr)
  have hreread : ∀ r ∈ s.rules, r.reread = r := by
    intro r hr
    have hdistinct : distinct r.symbolizers = r.symbolizers := by
      rcases hrows r hr with hnil | hrow
      · rw [hnil]
        rfl
      · exact hrow.distinct_eq
    rw [Rule.reread, hdistinct]
  have hrules : s.rules.map Rule.reread = s.rules :=
    (List.map_congr_left hreread).trans (List.map_id _)
  rw [hrules] at hread
  exact ⟨text, hwrite, hread⟩

def placeStyle : Style where
  name := "Places"
  abstract := some "Towns and roads"
  rules := [
    { name := "Towns"
      filter := some (.comparison .equal "kind" (.text "town"))
      scale := some { min := some 2.5 }
      symbolizers := [
        .mark { symbol := .circle, color := some "#ff0000", radius := some 1.25 },
        .label { template := some "\x7b\x7bname\x7d\x7d", size := some 2.5 }] },
    { name := "", symbolizers := [.line { color := some "black", width := some 2.5 }] }]

def placeText : String :=
  "@mode 'Flat';\n@styleTitle 'Places';\n@styleAbstract 'Towns and roads';\n\n" ++
  "/* @title Towns */\n[kind = 'town'][@sd > 2.5] \x7b\n" ++
  "  mark: symbol('circle');\n  mark-size: 2.5;\n  label: [name];\n  font-size: 2.5;\n" ++
  "  :mark \x7b\n    fill: #ff0000;\n  \x7d\n\x7d\n\n" ++
  "* \x7b\n  stroke: black;\n  stroke-width: 2.5;\n\x7d\n"

theorem isWritable_nameTemplate : Template.IsWritable "\x7b\x7bname\x7d\x7d" := by
  have hcut : Template.cut "\x7b\x7bname\x7d\x7d".toList = [.placeholder "name".toList] := by
    decide +kernel
  rw [Template.IsWritable, hcut]
  exact List.forall_mem_singleton.mpr ⟨.of_all (by decide) (by decide),
    List.all_eq_true.mp (by decide)⟩

theorem isWritable_redMark :
    Mark.IsWritable { symbol := .circle, color := some "#ff0000", radius := some 1.25 } where
  color := by
    have hred : IsColor "#ff0000" :=
      Or.inl ⟨"ff0000".toList, rfl, by decide, List.all_eq_true.mp (by decide)⟩
    simpa using hred
  fillOpacity := forall_mem_none
  opacity := forall_mem_none
  radius := by
    have hdouble : (1.25 : Float) * 2.0 = 2.5 := by decide +kernel
    have hhalve : (2.5 : Float) / 2.0 = 1.25 := by decide +kernel
    have hradius : IsRadius 1.25 :=
      ⟨by rw [hdouble]; exact Condition.isNumber_five_halves, by rw [hdouble, hhalve]⟩
    simpa using hradius
  rotate := forall_mem_none
  strokeColor := forall_mem_none
  strokeWidth := forall_mem_none
  strokeOpacity := forall_mem_none

theorem isWritable_nameLabel :
    Label.IsWritable { template := some "\x7b\x7bname\x7d\x7d", size := some 2.5 } where
  present := rfl
  template := by simpa using isWritable_nameTemplate
  font := forall_mem_none
  size := by simpa using Condition.isNumber_five_halves
  fontStyle := forall_mem_none
  fontWeight := forall_mem_none
  color := forall_mem_none
  haloWidth := forall_mem_none
  haloColor := forall_mem_none
  haloOpacity := forall_mem_none
  offset := forall_mem_none
  rotate := forall_mem_none

theorem isWritable_blackLine :
    Line.IsWritable { color := some "black", width := some 2.5 } where
  drawn := rfl
  color := by
    have hblack : IsColor "black" := Or.inr ⟨by decide, Or.inl (by decide)⟩
    simpa using hblack
  width := by simpa using Condition.isNumber_five_halves
  opacity := forall_mem_none
  join := forall_mem_none
  cap := forall_mem_none
  dasharray := forall_mem_none
  dashOffset := forall_mem_none
  perpendicularOffset := forall_mem_none
  graphicStroke := forall_mem_none

theorem isRow_of_mem_placeStyle : ∀ r ∈ placeStyle.rules, IsRow r.symbolizers :=
  List.forall_mem_cons.mpr ⟨.both isWritable_redMark (by decide) isWritable_nameLabel,
    List.forall_mem_singleton.mpr (.geometry isWritable_blackLine (by decide))⟩

theorem isWritable_placeStyle : placeStyle.IsWritable ({} : Settings).scaleAttributes := by
  have hkind : Condition.IsIdentifier "kind" :=
    Condition.isIdentifier_of_lower rfl rfl (by decide) (by decide) (by decide)
  have htown : ∀ c ∈ "town".toList, isFilterChar c := by
    have hchars : "town".toList.all (fun c => c != ']' && c != '\n') = true := by decide
    intro c hc
    simpa [isFilterChar] using List.all_eq_true.mp hchars c hc
  have htitle : IsTitleText "Towns" :=
    isTitleText_of_checks (by decide) (by decide) (by decide)
  have huntitled : IsTitleText "" := ⟨by simp, .nil, .nil⟩
  have hselection : Selection.IsWritable isFilterChar ({} : Settings).scaleAttributes
      { filter := some (.comparison .equal "kind" (.text "town"))
        scale := some { min := some 2.5 } } := by
    refine ⟨fun f hf => ?_, fun r hr => ?_⟩
    · cases hf
      exact .comparison .equal hkind (by decide) (.text (Or.inl (by decide)) htown)
    · cases hr
      exact ⟨⟨by simpa using Condition.isNumber_five_halves, forall_mem_none⟩, rfl⟩
  have hsymbolizers (r : Style.Rule) (hr : r ∈ placeStyle.rules) :=
    (isRow_of_mem_placeStyle r hr).isWritable
  have hrules : ∀ r ∈ placeStyle.rules, r.IsWritable ({} : Settings).scaleAttributes := by
    rw [placeStyle] at hsymbolizers ⊢
    refine List.forall_mem_cons.mpr ⟨⟨htitle, hselection, ?_⟩, List.forall_mem_singleton.mpr
      ⟨huntitled, ⟨forall_mem_none, forall_mem_none⟩, ?_⟩⟩
    · exact hsymbolizers _ List.mem_cons_self
    · exact hsymbolizers _ (List.mem_cons_of_mem _ (List.mem_singleton_self _))
  refine ⟨⟨by decide, .of_all (by decide) (by decide)⟩, fun t ht => ?_, hrules⟩
  obtain rfl := Option.some.inj ht
  exact ⟨by decide, .of_all (by decide) (by decide)⟩

theorem readStyle_placeText :
    writeStyle {} placeStyle = .ok { output := placeText, warnings := [] } ∧
      readStyle {} placeText = .ok { output := placeStyle, warnings := [] } := by
  obtain ⟨text, hwrite, hread⟩ := readStyle_writeStyle isWritable_placeStyle fun r hr =>
    Or.inr (isRow_of_mem_placeStyle r hr)
  have htext : (writeStyle {} placeStyle).toOption.map (·.output) = some placeText := by
    decide +kernel
  rw [hwrite] at htext
  obtain rfl := Option.some.inj htext
  exact ⟨hwrite, hread⟩

end CartoStyle
