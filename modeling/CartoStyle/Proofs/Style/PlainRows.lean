import CartoStyle.Proofs.Style.RoundTrip

/-!
Rules with many rows. Lines and fills without graphics, icons, rasters without the entries of
a colour map, and labels of one font say nothing about parts and agree in what all rows share.
Any list of them is read back in its order, with equal symbolizers kept once.
-/

namespace CartoStyle

namespace Style

/-- Nothing about the symbolizer stands outside its row, but for the font of a label. -/
def Symbolizer.IsPlain : Symbolizer → Prop
  | mark _ => False
  | icon _ => True
  | line l => l.graphicStroke = none
  | fill f => f.graphicFill = none
  | label _ => True
  | raster r => ∀ m ∈ r.colorMap, m.entries = none

/-- The symbolizers of the rule are plain, and its labels have one font. -/
structure Rule.HasPlainRows (r : Rule) : Prop where
  plain : ∀ s ∈ r.symbolizers, s.IsPlain
  font : ∀ k l, Symbolizer.label k ∈ r.symbolizers → Symbolizer.label l ∈ r.symbolizers →
    k.font = l.font

section Parts

variable {s : Symbolizer} {e : Entry} {row : List Symbolizer}

theorem Raster.parts_of_entry {r : Raster} (h : r.entry = .ok e) : e.parts = [] := by
  rw [Raster.entry] at h
  obtain ⟨_, -, h⟩ := bind_eq_ok_iff.mp h
  obtain ⟨_, -, h⟩ := bind_eq_ok_iff.mp h
  rw [← Except.ok.inj h]

/-- Plain symbolizers say nothing about parts. -/
theorem Symbolizer.IsPlain.parts_eq (hs : s.IsPlain) (h : s.entry = .ok e) : e.parts = [] := by
  cases s with
  | mark m => exact hs.elim
  | icon i =>
    rw [← Except.ok.inj h]
    rfl
  | line l =>
    have hplain : l.graphicStroke = none := hs
    rw [← Except.ok.inj h, Line.entry_eq, hplain]
    rfl
  | fill f =>
    have hplain : f.graphicFill = none := hs
    rw [← Except.ok.inj h, Fill.entry_eq, hplain]
    rfl
  | label l =>
    rw [← Except.ok.inj h]
    rfl
  | raster r => exact Raster.parts_of_entry h

theorem parts_of_rowEntry (hrow : ∀ s ∈ row, s.IsPlain) (h : rowEntry row = .ok e) :
    e.parts = [] := by
  by_contra hparts
  obtain ⟨s, hs, f, hentry, hsaid⟩ := exists_entry_of_parts h hparts
  exact hsaid ((hrow s hs).parts_eq hentry)

end Parts

section Sharing

variable {r : Rule}

theorem Symbolizer.IsPlain.colorMapText_eq {s : Symbolizer} (h : s.IsPlain) :
    s.colorMapText = none := by
  cases s with
  | raster r =>
    rw [colorMapText, Option.map_eq_none_iff, Option.bind_eq_none_iff]
    exact h
  | _ => rfl

theorem Rule.HasPlainRows.exists_font (h : r.HasPlainRows) :
    ∃ font, ∀ l, Symbolizer.label l ∈ r.symbolizers → l.font = font := by
  by_cases hlabel : ∃ l, Symbolizer.label l ∈ r.symbolizers
  · obtain ⟨l, hl⟩ := hlabel
    exact ⟨l.font, fun k hk => h.font k l hk hl⟩
  · exact ⟨none, fun l hl => absurd ⟨l, hl⟩ hlabel⟩

/-- Plain rows agree in what is written once for all of them. -/
theorem Rule.HasPlainRows.sharesRows (h : r.HasPlainRows) : r.SharesRows where
  lists := by
    obtain ⟨font, hfont⟩ := h.exists_font
    refine ⟨⟨none, fun row hrow => ?_⟩, ⟨font, fun row hrow l hl => ?_⟩⟩
    · rw [List.findSome?_eq_none_iff]
      exact fun s hs => (h.plain s (mem_of_mem_layOut hrow hs)).colorMapText_eq
    · exact hfont l (mem_of_mem_layOut hrow hl)
  parts es hes := by
    have hnone : ∀ e ∈ es, ∀ part key, e.partValue? part key = none := by
      intro e he part key
      obtain ⟨row, hrow, hwritten⟩ := exists_of_forall₂ hes he
      have hplain : ∀ s ∈ row, s.IsPlain := fun s hs =>
        h.plain s (mem_of_mem_layOut hrow hs)
      rw [Entry.partValue?, parts_of_rowEntry hplain hwritten.entry]
      rfl
    intro e he f hf part _ key
    rw [hnone e he, hnone f hf]

end Sharing

end Style

open Style Sheet

/-- A style whose rules draw any number of plain symbolizers is read back from its text, with
equal symbolizers of a rule kept once. -/
theorem readStyle_writeStyle_of_plain {s : Style}
    (h : s.IsWritable ({} : Settings).scaleAttributes)
    (hplain : ∀ r ∈ s.rules, r.HasPlainRows) :
    ∃ text, writeStyle {} s = .ok { output := text, warnings := [] } ∧
      readStyle {} text =
        .ok { output := { s with rules := s.rules.map Style.Rule.reread }, warnings := [] } :=
  exists_writeStyle_readStyle isUsable_default h fun r hr => (hplain r hr).sharesRows

def roadLine : Symbolizer := .line { color := some "black", width := some 2.5 }

def roadLabel : Symbolizer :=
  .label { template := some "\x7b\x7bname\x7d\x7d", font := some ["Serif"] }

def roadSign : Symbolizer := .icon { image := some "sign.png", size := some 2.5 }

/-- Roads with names and signs, and the same roads once more. -/
def roadStyle : Style where
  name := ""
  rules := [{ name := "", symbolizers := [roadLine, roadLabel, roadSign, roadLine] }]

def roadText : String :=
  "@mode 'Flat';\n\n* \x7b\n  stroke: black, none, black;\n  stroke-width: 2.5, none, 2.5;\n" ++
  "  label: [name], none, none;\n  font-family: Serif;\n" ++
  "  mark: none, url('sign.png'), none;\n  mark-size: none, 2.5, none;\n\x7d\n"

theorem isWritable_roadLine : roadLine.IsWritable := isWritable_blackLine

theorem isWritable_roadLabel : roadLabel.IsWritable where
  present := rfl
  template := by simpa using isWritable_nameTemplate
  font := by
    have hfont : IsFont ["Serif"] :=
      ⟨List.cons_ne_nil _ _, List.forall_mem_singleton.mpr (Or.inl (by decide))⟩
    simpa using hfont
  size := forall_mem_none
  fontStyle := forall_mem_none
  fontWeight := forall_mem_none
  color := forall_mem_none
  haloWidth := forall_mem_none
  haloColor := forall_mem_none
  haloOpacity := forall_mem_none
  offset := forall_mem_none
  rotate := forall_mem_none

theorem isWritable_roadSign : roadSign.IsWritable where
  present := rfl
  image := by
    have hquotable : Lexeme.IsQuotable "sign.png" := Or.inl (by decide)
    simpa using hquotable
  size := by simpa using Condition.isNumber_five_halves
  rotate := forall_mem_none
  opacity := forall_mem_none

theorem isWritable_roadStyle : roadStyle.IsWritable ({} : Settings).scaleAttributes where
  name := ⟨by decide, .nil⟩
  abstract := forall_mem_none
  rules := by
    refine List.forall_mem_singleton.mpr
      ⟨⟨by simp, .nil, .nil⟩, ⟨forall_mem_none, forall_mem_none⟩, ?_⟩
    simp [isWritable_roadLine, isWritable_roadLabel, isWritable_roadSign]

theorem hasPlainRows_roadStyle : ∀ r ∈ roadStyle.rules, r.HasPlainRows := by
  refine List.forall_mem_singleton.mpr ⟨?_, fun k l hk hl => ?_⟩
  · simp [roadLine, roadLabel, roadSign, Symbolizer.IsPlain]
  · have hfont : ∀ m, Symbolizer.label m ∈ [roadLine, roadLabel, roadSign, roadLine] →
        m.font = some ["Serif"] := by
      simp [roadLine, roadLabel, roadSign]
    rw [hfont k hk, hfont l hl]

theorem readStyle_roadText :
    writeStyle {} roadStyle = .ok { output := roadText, warnings := [] } ∧
      readStyle {} roadText = .ok
        { output := { name := "", rules := [
            { name := "", symbolizers := [roadLine, roadLabel, roadSign] }] }
          warnings := [] } := by
  obtain ⟨text, hwrite, hread⟩ :=
    readStyle_writeStyle_of_plain isWritable_roadStyle hasPlainRows_roadStyle
  have htext : (writeStyle {} roadStyle).toOption.map (·.output) = some roadText := by
    decide +kernel
  rw [hwrite] at htext
  obtain rfl := Option.some.inj htext
  exact ⟨hwrite, hread⟩

end CartoStyle
