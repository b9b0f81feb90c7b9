import CartoStyle.Proofs.Style.LegibleFilter
import CartoStyle.Proofs.Style.LegibleMerging
import CartoStyle.Proofs.Style.RoundTrip

/-!
Styles whose texts can be read. Every text that such a style is written into is accepted, and
rules come back one for one under their names. Their symbolizers may change: rows that agree are
one row, and a row may find values of others.
-/

namespace CartoStyle

open Sheet Style Rule

namespace Style

/-- Some symbolizer of the rule says something about a part, which takes a block of its own. -/
def Rule.HasParts (r : Rule) : Prop :=
  ∃ s ∈ r.symbolizers, ∃ e, s.entry = .ok e ∧ e.parts ≠ []

/-- A character that may stand in the texts of the filter of the rule. Blocks of parts repeat the
selectors of the rule, where a line has to hold all of a selector. -/
def Rule.IsFilterChar (r : Rule) (c : Char) : Prop := c ≠ ']' ∧ (r.HasParts → c ≠ '\n')

structure Rule.IsLegible (r : Rule) : Prop where
  name : IsTitleText r.name
  selection : Selection.IsLegible r.IsFilterChar { filter := r.filter, scale := r.scale }
  symbolizers : ∀ s ∈ r.symbolizers, s.IsLegible

/-- The rule comes back under its name, and with the symbolizers that its merged rows describe. -/
structure Rule.IsRereadAs (r back : Rule) : Prop where
  name : back.name = r.name
  rows : ∃ es parts read, (layOut r.symbolizers).mapM rowEntry = .ok es ∧
    (∀ index (_ : index < es.length), ∀ part key, parts.value? part index key =
      (es[index].partValue? part key).or (firstPartValue? es part key)) ∧
    ((splitRows (mergedMap es)).zipIdx.mapM fun (row, index) =>
      symbolizersOf { row, parts, index }) = .ok read ∧
    back.symbolizers = distinct read.flatten

section Rules

variable {r back : Rule} {o : OutlineRule} {es : List Entry} {name : String}

theorem Rule.HasOutline.hasParts (h : r.HasOutline name o es) (hparts : o.parts ≠ []) :
    r.HasParts := by
  obtain ⟨p, hp⟩ := List.exists_mem_of_ne_nil _ hparts
  rw [h.parts] at hp
  obtain ⟨⟨e, he, x, hx, -⟩, -⟩ := mem_mergeParts_iff.mp hp
  obtain ⟨row, hrow, hentry⟩ := exists_of_forall₂ (mapM_eq_ok_iff.mp h.entries) he
  obtain ⟨s, hs, hsaid⟩ := exists_entry_of_parts hentry (List.ne_nil_of_mem hx)
  exact ⟨s, mem_of_mem_layOut hrow hs, hsaid⟩

/-- The rows of a legible rule are told by their entries. -/
theorem Rule.IsLegible.isToldBy (h : r.IsLegible)
    (hentries : (layOut r.symbolizers).mapM rowEntry = .ok es) :
    List.Forall₂ IsToldBy (layOut r.symbolizers) es := by
  have hrows := isToldBy_of_mem_layOut h.symbolizers
  refine List.forall₂_iff_get.mpr ⟨(mapM_eq_ok_iff.mp hentries).length_eq, fun i hrow hi => ?_⟩
  exact hrows _ (List.getElem_mem hrow) _ ((mapM_eq_ok_iff.mp hentries).get hrow hi)

theorem isGuarded_of_isLegibleCell {p : String × String} (h : IsLegibleCell p) :
    Token.IsKey p.1 ∧ IsGuarded p.2 := by
  rcases h with rfl | ⟨hcell, -⟩
  · exact ⟨isKey_of_isRowKey (by decide), rfl⟩
  · exact ⟨hcell.1, isGuarded_of_isCell hcell⟩

/-- The selectors of a legible rule can be read, and nothing in its outline is taken for anything
else. -/
theorem Rule.IsLegible.merges (h : r.IsLegible) (ho : r.HasOutline name o es)
    (hname : Condition.IsIdentifier name) : Merges r.IsFilterChar o es ∧
      ∀ scaleAttributes, ∃ read, Selection.ofSelectors scaleAttributes o.selectors = .ok read := by
  have hinner : ¬ r.IsFilterChar ']' := fun hclose => hclose.1 rfl
  obtain ⟨sels, hsels, hne, hbracketed, hread⟩ := h.selection.exists_selectors hinner hname
  obtain rfl := Except.ok.inj (ho.selectors.symm.trans hsels)
  have hlegible := isLegible_of_isToldBy (h.isToldBy ho.entries)
  refine ⟨⟨ho.properties, ho.parts, fun t ht => ?_, hne, hbracketed, fun hparts hline => ?_,
    fun e he p hp => isGuarded_of_isLegibleCell ((hlegible e he).cells p hp), fun e he p hp => ?_,
    fun e he => (hlegible e he).body⟩, hread⟩
  · rw [ho.titleText t ht]
    exact h.name
  · exact hline.2 (ho.hasParts hparts) rfl
  · obtain ⟨hpart, hkey, hsuits⟩ := (hlegible e he).parts p hp
    exact ⟨hpart, hkey, hsuits.steady⟩

/-- The record of a legible rule is read. -/
theorem Rule.IsLegible.exists_ofRecord {s : Stylesheet} {rules : List OutlineRule} {i : Nat}
    (settings : Settings) (h : r.IsLegible) (ho : r.HasOutline name o es)
    (hname : Condition.IsIdentifier name)
    (hblocks : s.blocks = rules.mapIdx fun i r => r.block i)
    (hrules : ∀ r ∈ rules, IsRecordable r) (hr : rules[i]? = some o.spread) :
    ∃ back, Rule.ofRecord settings (Records.ofSheet s).pseudo (recordOf o.spread i) = .ok back ∧
      r.IsRereadAs back := by
  obtain ⟨hmerges, hread⟩ := h.merges ho hname
  obtain ⟨selection, hselection⟩ := hread settings.scaleAttributes
  have hrows : (recordOf o.spread i).rows = splitRows (mergedMap es) := by
    rw [recordOf, OutlineRule.spread, ho.properties]
    rfl
  have hselection : Selection.ofSelectors settings.scaleAttributes (recordOf o.spread i).selectors =
    .ok selection := hselection
  have htitle : (recordOf o.spread i).title.getD "" = r.name := ho.title
  have hparts := fun index (hindex : index < es.length) =>
    value?_mergeParts hblocks hrules hr ho.parts hmerges.steady hindex
  obtain ⟨read, hsymbolizers, -⟩ := exists_symbolizers (h.isToldBy ho.entries) hparts
  refine ⟨⟨(recordOf o.spread i).title.getD "", selection.filter, selection.scale,
    distinct read.flatten⟩, ?_, htitle, es, _, read, ho.entries, hparts, hsymbolizers, rfl⟩
  simp only [Rule.ofRecord, hselection, hrows, bind, Except.bind, hsymbolizers]
  rfl

end Rules

end Style

structure Style.IsLegible (s : Style) : Prop where
  name : IsDirectiveText s.name
  abstract : ∀ t ∈ s.abstract, ';' ∉ t.toList
  rules : ∀ r ∈ s.rules, r.IsLegible

structure Style.HasOutline (s : Style) (name : String) (o : Outline) : Prop where
  mode : o.mode = none ∨ o.mode = some "Flat"
  title : o.title.getD "" = s.name
  titleText : ∀ t, o.title = some t → t = s.name
  abstract : o.abstract = s.abstract
  rules : List.Forall₂ (fun r q => ∃ es, r.HasOutline name q es) s.rules o.rules

section Reading

variable {settings : Settings} {s : Style} {o : Outline} {name : String}

theorem Style.hasOutline (h : s.outline settings = .ok o) :
    s.HasOutline settings.scaleAttribute o := by
  rw [Style.outline] at h
  obtain ⟨rules, hrules, h⟩ := bind_eq_ok_iff.mp h
  obtain rfl := Except.ok.inj h
  refine ⟨?_, getD_name s.name, fun t ht => eq_of_name_eq_some ht, rfl, ?_⟩
  · cases settings.emitMode
    · exact Or.inl rfl
    · exact Or.inr rfl
  · have houtlines := (mapM_eq_ok_iff.mp hrules).imp fun _ _ hq => Rule.exists_hasOutline hq
    rw [← List.zipIdx_map_fst 0 s.rules]
    exact List.forall₂_map_left_iff.mpr houtlines

theorem Style.HasOutline.exists_merges (ho : s.HasOutline name o) (h : s.IsLegible)
    (hname : Condition.IsIdentifier name) :
    ∀ q ∈ o.rules, ∃ inner es, Merges inner q es := by
  intro q hq
  obtain ⟨r, hr, es, hrule⟩ := exists_of_forall₂ ho.rules hq
  exact ⟨_, es, ((h.rules r hr).merges hrule hname).1⟩

theorem Style.HasOutline.isRenderable (ho : s.HasOutline name o) (h : s.IsLegible)
    (hname : Condition.IsIdentifier name) : o.IsRenderable where
  mode t ht := by
    rcases ho.mode with hmode | hmode <;> rw [hmode] at ht <;> cases ht
    exact isDirectiveText_flat.no_semicolon
  title t ht := by
    rw [ho.titleText t ht]
    exact h.name.no_semicolon
  abstract := by
    rw [ho.abstract]
    exact h.abstract
  rules q hq := by
    obtain ⟨inner, es, hmerges⟩ := ho.exists_merges h hname q hq
    exact hmerges.writable

/-- The stylesheet of a legible style is read, and its rules come back one for one. -/
theorem Style.HasOutline.exists_ofSheet (ho : s.HasOutline settings.scaleAttribute o)
    (h : s.IsLegible) (hname : Condition.IsIdentifier settings.scaleAttribute) :
    ∃ back, Style.ofSheet settings o.unquoted.spread.sheet = .ok back ∧
      back.name = s.name ∧ List.Forall₂ Rule.IsRereadAs s.rules back.rules := by
  have hrecordable : ∀ q ∈ o.unquoted.rules, IsRecordable q.spread := by
    intro q hq
    obtain ⟨inner, es, hmerges⟩ := ho.exists_merges h hname q hq
    exact hmerges.isRecordable
  have hlength := ho.rules.length_eq
  have hblocks : o.unquoted.spread.sheet.blocks =
    o.unquoted.spread.rules.mapIdx fun i q => q.block i := rfl
  have hrule : ∀ i ∈ List.range o.rules.length, ∃ back,
      (∀ q, o.rules[i]? = some q → Rule.ofRecord settings
        (Records.ofSheet o.unquoted.spread.sheet).pseudo (recordOf q.spread i) = .ok back) ∧
      ∀ r, s.rules[i]? = some r → r.IsRereadAs back := by
    intro i hi
    have hio : i < o.rules.length := List.mem_range.mp hi
    have his : i < s.rules.length := by omega
    obtain ⟨es, hr⟩ := ho.rules.get his hio
    have hget : o.unquoted.spread.rules[i]? = some o.rules[i].spread := by
      simp [Outline.spread, Outline.unquoted, hio]
    obtain ⟨back, hback, hreread⟩ := (h.rules _ (List.getElem_mem his)).exists_ofRecord settings hr
      hname hblocks (List.forall_mem_map.mpr hrecordable) hget
    refine ⟨back, fun q hq => ?_, fun r hr => ?_⟩
    · rw [List.getElem?_eq_getElem hio] at hq
      cases hq
      exact hback
    · rw [List.getElem?_eq_getElem his] at hr
      cases hr
      exact hreread
  obtain ⟨rules, hrules⟩ := exists_forall₂ hrule
  have hcount : rules.length = o.rules.length := by rw [← hrules.length_eq, List.length_range]
  have hback (i : Nat) (hi : i < o.rules.length) (hr : i < rules.length) :
      Rule.ofRecord settings (Records.ofSheet o.unquoted.spread.sheet).pseudo
        (recordOf o.rules[i].spread i) = .ok rules[i] ∧
      ∀ r, s.rules[i]? = some r → r.IsRereadAs rules[i] := by
    have hread := hrules.get (by simpa using hi) hr
    simp only [List.get_eq_getElem, List.getElem_range] at hread
    exact ⟨hread.1 _ (List.getElem?_eq_getElem hi), hread.2⟩
  refine ⟨_, ofSheet_eq_of_ofRecord hrecordable hcount fun i hi hr => (hback i hi hr).1, ?_,
    List.forall₂_iff_get.mpr ⟨hlength.trans hcount.symm, fun i his hr => ?_⟩⟩
  · show (o.title.map Sheet.unquoted).getD "" = s.name
    rw [map_unquoted fun t ht => ?_, ho.title]
    rw [ho.titleText t ht]
    exact h.name
  · exact (hback i (hlength ▸ his) hr).2 _ (List.getElem?_eq_getElem his)

/-- A legible style can be written if its symbolizers can. -/
theorem exists_writeStyle (hname : Condition.IsIdentifier settings.scaleAttribute)
    (h : s.IsLegible) (hentries : ∀ r ∈ s.rules, ∀ x ∈ r.symbolizers, ∃ e, x.entry = .ok e) :
    ∃ text, writeStyle settings s = .ok text := by
  have houtline : ∀ r ∈ s.rules, ∀ group, ∃ q, r.outline settings.scaleAttribute group = .ok q := by
    intro r hr group
    have hinner : ¬ r.IsFilterChar ']' := fun hclose => hclose.1 rfl
    obtain ⟨sels, hsels, -⟩ := (h.rules r hr).selection.exists_selectors hinner hname
    have hrow : ∀ row ∈ layOut r.symbolizers, ∃ e, rowEntry row = .ok e := by
      intro row hrow
      obtain ⟨fs, hfs⟩ := exists_mapM_eq_ok fun x (hx : x ∈ row) =>
        hentries r hr x (mem_of_mem_layOut hrow hx)
      exact ⟨_, by rw [rowEntry, hfs]; rfl⟩
    obtain ⟨es, hes⟩ := exists_mapM_eq_ok hrow
    exact ⟨_, by rw [Rule.outline, hsels, hes]; rfl⟩
  obtain ⟨rules, hrules⟩ := exists_mapM_eq_ok fun p (hp : p ∈ s.rules.zipIdx) =>
    houtline p.1 (List.fst_mem_of_mem_zipIdx hp) p.2
  exact ⟨_, by rw [writeStyle, Style.outline, hrules]; rfl⟩

/-- The text of a legible style is read, and its rules come back one for one. -/
theorem exists_readStyle {text : Converted String}
    (hidentifier : Condition.IsIdentifier settings.scaleAttribute)
    (hindent : IsIndent settings.indent) (h : s.IsLegible)
    (hwrite : writeStyle settings s = .ok text) :
    ∃ back, readStyle settings text.output = .ok { output := back, warnings := [] } ∧
      back.name = s.name ∧ List.Forall₂ Rule.IsRereadAs s.rules back.rules := by
  rw [writeStyle] at hwrite
  obtain ⟨o, houtline, hwrite⟩ := bind_eq_ok_iff.mp hwrite
  obtain rfl := Except.ok.inj hwrite
  have ho := Style.hasOutline houtline
  obtain ⟨back, hread, hback⟩ := ho.exists_ofSheet h hidentifier
  refine ⟨back, readStyle_render (ho.isRenderable h hidentifier) hindent ?_ hread, hback⟩
  rw [Outline.unquoted]
  rcases ho.mode with hmode | hmode <;> rw [hmode]
  · exact Or.inl rfl
  · exact Or.inr (by rw [Option.map_some, isDirectiveText_flat.unquoted_eq])

end Reading

end CartoStyle
