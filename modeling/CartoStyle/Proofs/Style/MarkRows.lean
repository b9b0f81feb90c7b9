import CartoStyle.Proofs.Style.LegibleStyle

/-!
Rules that draw marks only. What belongs to the part of a mark is written back-filled into a block
of its own, and the number of rows is told from the outer properties alone. So the marks come back
back-filled if two of them differ in symbol, radius, rotation or opacity; otherwise there is one
outer row, and only the first mark comes back.
-/

namespace CartoStyle

open Decimal Rule Sheet Style

namespace Style

/-- The mark with absent fields of its part taken from the first mark that has them. -/
def Mark.filled (ms : List Mark) (m : Mark) : Mark :=
  { m with
    color := m.color.or (ms.findSome? (·.color))
    fillOpacity := m.fillOpacity.or (ms.findSome? (·.fillOpacity))
    strokeColor := m.strokeColor.or (ms.findSome? (·.strokeColor))
    strokeWidth := m.strokeWidth.or (ms.findSome? (·.strokeWidth))
    strokeOpacity := m.strokeOpacity.or (ms.findSome? (·.strokeOpacity)) }

/-- The marks agree in the fields that are written outside of the block of their part. -/
structure Mark.SharesRow (m n : Mark) : Prop where
  symbol : m.symbol = n.symbol
  radius : m.radius = n.radius
  rotate : m.rotate = n.rotate
  opacity : m.opacity = n.opacity

def markEntries (ms : List Mark) : List Entry := ms.map (·.entry "mark")

variable {ms : List Mark} {m n : Mark} {key part : String}

section Filling

variable {α : Type} {x : Option α} {f : Mark → Option α} {P : α → Prop}

theorem forall_mem_filled (hms : ∀ m ∈ ms, ∀ y ∈ f m, P y) (hm : ∀ y ∈ x, P y) :
    ∀ y ∈ x.or (ms.findSome? f), P y := by
  intro y hy
  rcases Option.or_eq_some_iff.mp hy with hown | ⟨-, hfirst⟩
  · exact hm y hown
  · obtain ⟨n, hn, hy⟩ := List.exists_of_findSome?_eq_some hfirst
    exact hms n hn y hy

/-- Back-filled marks have written forms. -/
theorem Mark.IsWritable.filled (hms : ∀ m ∈ ms, m.IsWritable) (hm : m.IsWritable) :
    (m.filled ms).IsWritable where
  color := forall_mem_filled (fun n hn => (hms n hn).color) hm.color
  fillOpacity := forall_mem_filled (fun n hn => (hms n hn).fillOpacity) hm.fillOpacity
  opacity := hm.opacity
  radius := hm.radius
  rotate := hm.rotate
  strokeColor := forall_mem_filled (fun n hn => (hms n hn).strokeColor) hm.strokeColor
  strokeWidth := forall_mem_filled (fun n hn => (hms n hn).strokeWidth) hm.strokeWidth
  strokeOpacity := forall_mem_filled (fun n hn => (hms n hn).strokeOpacity) hm.strokeOpacity

theorem map_or_findSome? {β : Type} (g : α → β) (x : Option α) (f : Mark → Option α) :
    (x.or (ms.findSome? f)).map g = (x.map g).or (ms.findSome? fun m => (f m).map g) := by
  rw [Option.map_or, List.map_findSome?]
  rfl

def markPartKeys : List String :=
  ["fill", "fill-opacity", "stroke", "stroke-width", "stroke-opacity"]

theorem Mark.partValue?_eq_none (h : ¬ (part = "mark" ∧ key ∈ markPartKeys)) (m : Mark) :
    (m.entry "mark").partValue? part key = none := by
  have hparts : ∀ p ∈ (m.entry "mark").parts, p.1 = "mark" ∧ p.2.1 ∈ markPartKeys := by
    simp only [Mark.entry, List.forall_mem_append, forall_mem_partProperty]
    simp [markPartKeys]
  refine Option.eq_none_iff_forall_ne_some.mpr fun v hv => h ?_
  exact hparts _ (mem_of_partValue? hv)

/-- A back-filled mark says about its part what the mark says, or else what the first mark says
that says anything. -/
theorem Mark.partValue?_filled (m : Mark) (part key : String) :
    ((m.filled ms).entry "mark").partValue? part key =
      ((m.entry "mark").partValue? part key).or (firstPartValue? (markEntries ms) part key) := by
  have hfirst : firstPartValue? (markEntries ms) part key =
      ms.findSome? fun n => (n.entry "mark").partValue? part key := by
    rw [firstPartValue?, markEntries, List.findSome?_map]
    rfl
  rw [hfirst]
  by_cases hkey : part = "mark" ∧ key ∈ markPartKeys
  · obtain ⟨rfl, hkey⟩ := hkey
    have hmark : "mark" ∈ partNames := by decide
    simp only [markPartKeys, List.mem_cons, List.not_mem_nil, or_false] at hkey
    rcases hkey with rfl | rfl | rfl | rfl | rfl <;>
      simp only [Mark.partValue?_eq hmark, filled, colorText, numberText, map_or_findSome?]
  · rw [Mark.partValue?_eq_none hkey, Mark.partValue?_eq_none hkey, Option.none_or]
    exact (List.findSome?_eq_none_iff.mpr fun n _ => Mark.partValue?_eq_none hkey n).symm

end Filling

section Rows

variable {parts : Parts} {i : Nat}

theorem layOut_marks (ms : List Mark) :
    layOut (ms.map Symbolizer.mark) = ms.map fun m => [Symbolizer.mark m] := by
  induction ms with
  | nil => rfl
  | cons m ms ih =>
    have hlater (l : Label) (later : List Symbolizer) :
        ms.map Symbolizer.mark ≠ .label l :: later := by
      cases ms <;> simp
    have hgeometry (l : Label) : Symbolizer.mark m ≠ .label l := Symbolizer.noConfusion
    rw [List.map_cons, layOut.eq_4 _ _ hgeometry hlater, ih, List.map_cons]

/-- The entry of a mark is read back as the mark. -/
theorem Mark.IsWritable.isWrittenBy (h : m.IsWritable) :
    IsWrittenBy [.mark m] (m.entry "mark") := by
  have hdrawn := Graphic.isDrawnBy (g := .mark m) h
  exact hdrawn.isWrittenBy nofun

theorem isWrittenBy_marks (h : ∀ m ∈ ms, m.IsWritable) :
    List.Forall₂ IsWrittenBy (layOut (ms.map Symbolizer.mark)) (markEntries ms) := by
  rw [layOut_marks, markEntries, List.forall₂_map_left_iff, List.forall₂_map_right_iff,
    List.forall₂_same]
  exact fun m hm => (h m hm).isWrittenBy

theorem sharesLists_marks (ms : List Mark) : SharesLists (layOut (ms.map Symbolizer.mark)) := by
  rw [layOut_marks]
  refine ⟨⟨none, List.forall_mem_map.mpr fun _ _ => rfl⟩,
    ⟨none, List.forall_mem_map.mpr fun m _ l hl => ?_⟩⟩
  cases List.mem_singleton.mp hl

/-- The merged row at the index of a mark is read as the mark, back-filled. -/
theorem symbolizersOf_mark (h : ∀ m ∈ ms, m.IsWritable) (hi : i < ms.length)
    (hparts : ∀ part key, parts.value? part i key =
      (((ms[i]).entry "mark").partValue? part key).or (firstPartValue? (markEntries ms) part key)) :
    symbolizersOf { row := rowAt (mergedMap (markEntries ms)) i, parts, index := i } =
      .ok [.mark (ms[i].filled ms)] := by
  have hfilled := Mark.IsWritable.filled h (h _ (List.getElem_mem hi))
  refine hfilled.isWrittenBy.reads _ ⟨fun key hkey => ?_, fun hlabel => ?_, fun part _ key => ?_⟩
  · have hes : i < (markEntries ms).length := by simpa [markEntries] using hi
    have hrow := get?_rowAt_eq (isWrittenBy_marks h) (sharesLists_marks ms) hes hkey
    have hentry : (markEntries ms)[i] = (ms[i]).entry "mark" := by simp [markEntries]
    rw [hentry] at hrow
    exact hrow
  · have hunlabelled : ((ms[i].filled ms).entry "mark").properties.lookup "label" = none :=
      (Graphic.mark (ms[i].filled ms)).lookup_entry_eq_none (by decide)
    rw [hunlabelled] at hlabel
    cases hlabel
  · exact (hparts part key).trans (ms[i].partValue?_filled part key).symm

theorem display_inj {x y : Float} (hx : IsNumber x) (hy : IsNumber y)
    (h : display x = display y) : x = y := by
  have hread := hx.reads
  rw [h, hy.reads] at hread
  exact (Option.some.inj hread).symm

theorem numberText_inj {x y : Option Float} (hx : ∀ a ∈ x, IsNumber a) (hy : ∀ a ∈ y, IsNumber a)
    (h : numberText x = numberText y) : x = y := by
  cases x with
  | none =>
    cases y with
    | none => rfl
    | some b => cases h
  | some a =>
    cases y with
    | none => cases h
    | some b => rw [display_inj (hx a rfl) (hy b rfl) (Option.some.inj h)]

/-- The texts of symbols tell them apart. -/
theorem symbol_inj {s t : Symbol}
    (h : (Expression.symbol s.cssName).valueText = (Expression.symbol t.cssName).valueText) :
    s = t := by
  have hs : PropertyValue.parse "mark" (Expression.symbol s.cssName).valueText = _ :=
    PropertyValue.parse_atom (.symbol s.isQuotable_cssName)
  rw [h, PropertyValue.parse_atom (.symbol t.isQuotable_cssName)] at hs
  have hname : s.cssName = t.cssName := by
    injection hs with hs
    injection hs with _ hargs
    injection hargs with htext
    injection htext with htext
    injection htext with htext
    exact htext.symm
  have hfound := Symbol.ofCssName?_cssName s
  rw [hname, Symbol.ofCssName?_cssName] at hfound
  exact (Option.some.inj hfound).symm

/-- Marks share a row exactly if their rows have the same properties. -/
theorem Mark.sharesRow_iff (hm : m.IsWritable) (hn : n.IsWritable) :
    m.SharesRow n ↔ ∀ key ∉ listKeys,
      (m.entry "mark").properties.lookup key = (n.entry "mark").properties.lookup key := by
  constructor
  · rintro ⟨hsymbol, hradius, hrotate, hopacity⟩ key -
    simp only [Mark.entry, hsymbol, hradius, hrotate, hopacity]
  · intro h
    have hsymbol : (Expression.symbol m.symbol.cssName).valueText =
        (Expression.symbol n.symbol.cssName).valueText := by
      simpa [Mark.entry, lookup_property, List.lookup_append] using h "mark" (by decide)
    have hsize : numberText (m.radius.map (· * 2.0)) = numberText (n.radius.map (· * 2.0)) := by
      simpa [Mark.entry, lookup_property, List.lookup_append] using h "mark-size" (by decide)
    have hrotate : numberText m.rotate = numberText n.rotate := by
      simpa [Mark.entry, lookup_property, List.lookup_append] using h "mark-rotation" (by decide)
    have hopacity : numberText m.opacity = numberText n.opacity := by
      simpa [Mark.entry, lookup_property, List.lookup_append] using h "mark-opacity" (by decide)
    have hdouble : m.radius.map (· * 2.0) = n.radius.map (· * 2.0) :=
      numberText_inj (Graphic.IsWritable.numbers (g := .mark m) hm).1
        (Graphic.IsWritable.numbers (g := .mark n) hn).1 hsize
    refine ⟨symbol_inj hsymbol, ?_, numberText_inj hm.rotate hn.rotate hrotate,
      numberText_inj hm.opacity hn.opacity hopacity⟩
    rw [← Mark.radius_eq hm, hdouble, Mark.radius_eq hn]

/-- Marks have a row each, or they agree in all keys of rows and have one row. -/
theorem rowCount_marks (h : ∀ m ∈ ms, m.IsWritable) :
    rowCount (mergedMap (markEntries ms)) = ms.length ∨
      rowCount (mergedMap (markEntries ms)) = 1 ∧ ∀ m ∈ ms, ∀ n ∈ ms, m.SharesRow n := by
  have hsteady := isSteady_of_entries (isWrittenBy_marks h)
  have hanchored : ∀ e ∈ markEntries ms,
      ∃ key, key ∉ listKeys ∧ (e.properties.lookup key).isSome = true := by
    refine List.forall_mem_map.mpr fun m hm => ?_
    exact (h m hm).isWrittenBy.anchored
  rcases rowCount_mergedMap hsteady hanchored with hall | ⟨hone, hagree⟩
  · exact Or.inl (hall.trans (List.length_map _))
  · refine Or.inr ⟨hone, fun m hm n hn => (Mark.sharesRow_iff (h m hm) (h n hn)).mpr ?_⟩
    exact fun key hkey =>
      hagree key hkey _ (List.mem_map_of_mem hm) _ (List.mem_map_of_mem hn)

theorem rowCount_marks_le (h : ∀ m ∈ ms, m.IsWritable) :
    rowCount (mergedMap (markEntries ms)) ≤ ms.length := by
  rcases rowCount_marks h with hall | ⟨hone, -⟩
  · exact Nat.le_of_eq hall
  · cases ms with
    | nil => cases hone
    | cons m ms =>
      rw [hone, List.length_cons]
      omega

/-- Marks that share a row have no more than that row. -/
theorem take_rowCount_marks (h : ∀ m ∈ ms, m.IsWritable)
    (hshares : ∀ m ∈ ms, ∀ n ∈ ms, m.SharesRow n) :
    ms.take (rowCount (mergedMap (markEntries ms))) = ms.take 1 := by
  rcases rowCount_marks h with hall | ⟨hone, -⟩
  · have hfew : rowCount (mergedMap (markEntries ms)) ≤ 1 := by
      have hcollapses := collapsesRows_mergedMap (isSteady_of_entries (isWrittenBy_marks h))
      refine hcollapses.rowCount_le_one fun key hkey => ?_
      refine List.forall_mem_map.mpr fun m hm => List.forall_mem_map.mpr fun n hn => ?_
      exact (Mark.sharesRow_iff (h m hm) (h n hn)).mp (hshares m hm n hn) key hkey
    rw [List.take_of_length_le (Nat.le_of_eq hall.symm), List.take_of_length_le (hall ▸ hfew)]
  · rw [hone]

end Rows

section Reading

variable {r back : Rule}

theorem Rule.IsRereadAs.symbolizers_marks (hback : r.IsRereadAs back)
    (hms : r.symbolizers = ms.map Symbolizer.mark) (h : ∀ m ∈ ms, m.IsWritable) :
    back.symbolizers = distinct ((ms.take (rowCount (mergedMap (markEntries ms)))).map
      fun m => Symbolizer.mark (m.filled ms)) := by
  obtain ⟨es, parts, read, hentries, hparts, hread, hsymbolizers⟩ := hback.rows
  have hwritten : (layOut r.symbolizers).mapM rowEntry = .ok (markEntries ms) := by
    rw [hms]
    exact mapM_eq_ok_iff.mpr ((isWrittenBy_marks h).imp fun _ _ hrow => hrow.entry)
  obtain rfl := Except.ok.inj (hentries.symm.trans hwritten)
  have hcount := rowCount_marks_le h
  obtain rfl : read = (ms.take (rowCount (mergedMap (markEntries ms)))).map
      fun m => [Symbolizer.mark (m.filled ms)] := by
    refine Except.ok.inj (hread.symm.trans (mapM_zipIdx_splitRows (fun i hi => ?_) ?_))
    · have hi : i < ms.length := by
        simp only [List.length_map, List.length_take] at hi
        omega
      have hread := symbolizersOf_mark h hi fun part key => by
        have hvalue := hparts i (by simpa [markEntries] using hi) part key
        simpa [markEntries] using hvalue
      simpa using hread
    · simp [hcount]
  rw [hsymbolizers, ← List.flatMap_def, ← List.map_eq_flatMap]

/-- Marks that differ once they are back-filled are kept apart when they are read. -/
theorem distinct_marks {ns : List Mark} (hsublist : ns.Sublist ms)
    (h : (ms.map (Mark.filled ms)).Pairwise fun a b => (a == b) = false) :
    distinct (ns.map fun m => Symbolizer.mark (m.filled ms)) =
      ns.map fun m => Symbolizer.mark (m.filled ms) := by
  refine distinct_eq_self (List.pairwise_map.mpr ?_)
  exact (List.pairwise_map.mp h).sublist hsublist

end Reading

end Style

/-- Marks come back back-filled, in order, if two of them do not share a row. Otherwise only the
first one comes back. -/
theorem readStyle_marks {settings : Settings} {s : Style} {r : Style.Rule} {i : Nat}
    {ms : List Mark} (hname : Condition.IsIdentifier settings.scaleAttribute)
    (hindent : IsIndent settings.indent) (h : s.IsLegible)
    (hentries : ∀ r ∈ s.rules, ∀ x ∈ r.symbolizers, ∃ e, x.entry = .ok e)
    (hr : s.rules[i]? = some r) (hms : r.symbolizers = ms.map Symbolizer.mark)
    (hwritable : ∀ m ∈ ms, m.IsWritable)
    (hdistinct : (ms.map (Mark.filled ms)).Pairwise fun a b => (a == b) = false) :
    ∃ text back q, writeStyle settings s = .ok text ∧ readStyle settings text.output = .ok back ∧
      back.output.rules[i]? = some q ∧
      ((∃ m ∈ ms, ∃ n ∈ ms, ¬ m.SharesRow n) →
        q.symbolizers = ms.map fun m => Symbolizer.mark (m.filled ms)) ∧
      ((∀ m ∈ ms, ∀ n ∈ ms, m.SharesRow n) →
        q.symbolizers = (ms.take 1).map fun m => Symbolizer.mark (m.filled ms)) := by
  obtain ⟨text, hwrite⟩ := exists_writeStyle hname h hentries
  obtain ⟨back, hread, -, hrules⟩ := exists_readStyle hname hindent h hwrite
  obtain ⟨hi, rfl⟩ := List.getElem?_eq_some_iff.mp hr
  have hq : i < back.rules.length := hrules.length_eq ▸ hi
  have hsymbolizers := (hrules.get hi hq).symbolizers_marks hms hwritable
  rw [distinct_marks (List.take_sublist _ _) hdistinct] at hsymbolizers
  refine ⟨text, _, back.rules[i], hwrite, hread, List.getElem?_eq_getElem hq, fun hdiffer => ?_,
    fun hshares => ?_⟩
  · obtain ⟨m, hm, n, hn, hother⟩ := hdiffer
    have hall := (rowCount_marks hwritable).resolve_right fun hone => hother (hone.2 m hm n hn)
    rwa [hall, List.take_length] at hsymbolizers
  · rwa [take_rowCount_marks hwritable hshares] at hsymbolizers

def circleAndSquare : List Mark :=
  [{ symbol := .circle, color := some "#ff0000", radius := some 1.25 }, { symbol := .square }]

def twoCircles : List Mark :=
  [{ symbol := .circle, color := some "#ff0000" }, { symbol := .circle, color := some "#0000ff" }]

def styleOfMarks (ms : List Mark) : Style where
  name := ""
  rules := [{ name := "", symbolizers := ms.map Symbolizer.mark }]

theorem isLegible_styleOfMarks {ms : List Mark} (h : ∀ m ∈ ms, m.IsWritable) :
    (styleOfMarks ms).IsLegible where
  name := ⟨by simp [styleOfMarks], .nil⟩
  abstract := forall_mem_none
  rules := List.forall_mem_singleton.mpr ⟨⟨by simp, .nil, .nil⟩, ⟨forall_mem_none, forall_mem_none⟩,
    List.forall_mem_map.mpr fun m hm => (h m hm).isLegible⟩

theorem isWritable_coloredMark {symbol : Symbol} {color : Option String}
    (h : ∀ c ∈ color, IsColor c) : Mark.IsWritable { symbol, color } :=
  ⟨h, forall_mem_none, forall_mem_none, forall_mem_none, forall_mem_none, forall_mem_none,
    forall_mem_none, forall_mem_none⟩

theorem exists_entry_styleOfMarks (ms : List Mark) :
    ∀ r ∈ (styleOfMarks ms).rules, ∀ x ∈ r.symbolizers, ∃ e, x.entry = .ok e :=
  List.forall_mem_singleton.mpr (List.forall_mem_map.mpr fun _ _ => ⟨_, rfl⟩)

theorem readStyle_circleAndSquare : ∃ text back q,
    writeStyle {} (styleOfMarks circleAndSquare) = .ok text ∧
      readStyle {} text.output = .ok back ∧ back.output.rules[0]? = some q ∧
      q.symbolizers = [
        .mark { symbol := .circle, color := some "#ff0000", radius := some 1.25 },
        .mark { symbol := .square, color := some "#ff0000" }] := by
  have hwritable : ∀ m ∈ circleAndSquare, m.IsWritable :=
    List.forall_mem_cons.mpr ⟨isWritable_redMark,
      List.forall_mem_singleton.mpr (isWritable_coloredMark forall_mem_none)⟩
  have hdistinct : (circleAndSquare.map (Mark.filled circleAndSquare)).Pairwise
      fun a b => (a == b) = false := by decide +kernel
  have hdiffer : ∃ m ∈ circleAndSquare, ∃ n ∈ circleAndSquare, ¬ m.SharesRow n := by
    refine ⟨_, List.mem_cons_self, _, List.mem_cons_of_mem _ List.mem_cons_self, fun h => ?_⟩
    cases h.symbol
  have hrule : (styleOfMarks circleAndSquare).rules[0]? =
    some { name := "", symbolizers := circleAndSquare.map Symbolizer.mark } := rfl
  obtain ⟨text, back, q, hwrite, hread, hq, hall, -⟩ :=
    readStyle_marks isUsable_default.identifier isUsable_default.indent
      (isLegible_styleOfMarks hwritable) (exists_entry_styleOfMarks _) hrule rfl hwritable hdistinct
  exact ⟨text, back, q, hwrite, hread, hq, hall hdiffer⟩

def twoCirclesText : String :=
  "@mode 'Flat';\n\n* \x7b\n  mark: symbol('circle');\n  :mark \x7b\n" ++
  "    fill: #ff0000, #0000ff;\n  \x7d\n\x7d\n"

/-- Marks can get lost that differ once they are back-filled. -/
theorem not_forall_readStyle_marks : ¬ ∀ ms : List Mark, ms ≠ [] → (∀ m ∈ ms, m.IsWritable) →
    ((ms.map (Mark.filled ms)).Pairwise fun a b => (a == b) = false) →
      ∃ text back q, writeStyle {} (styleOfMarks ms) = .ok text ∧
        readStyle {} text.output = .ok back ∧ back.output.rules = [q] ∧
        q.symbolizers = ms.map fun m => Symbolizer.mark (m.filled ms) := by
  intro h
  have hred : IsColor "#ff0000" :=
    Or.inl ⟨"ff0000".toList, rfl, by decide, List.all_eq_true.mp (by decide)⟩
  have hblue : IsColor "#0000ff" :=
    Or.inl ⟨"0000ff".toList, rfl, by decide, List.all_eq_true.mp (by decide)⟩
  have hwritable : ∀ m ∈ twoCircles, m.IsWritable :=
    List.forall_mem_cons.mpr ⟨isWritable_coloredMark (by simpa using hred),
      List.forall_mem_singleton.mpr (isWritable_coloredMark (by simpa using hblue))⟩
  have hdistinct : (twoCircles.map (Mark.filled twoCircles)).Pairwise
      fun a b => (a == b) = false := by decide +kernel
  obtain ⟨text, back, q, hwrite, hread, hrules, hsymbolizers⟩ :=
    h twoCircles (List.cons_ne_nil _ _) hwritable hdistinct
  have hwritten : (writeStyle {} (styleOfMarks twoCircles)).toOption.map (·.output) =
    some twoCirclesText := by decide +kernel
  have hcounts : (readStyle {} twoCirclesText).toOption.map
    (·.output.rules.map (·.symbolizers.length)) = some [1] := by decide +kernel
  rw [hwrite] at hwritten
  have htext : text.output = twoCirclesText := Option.some.inj hwritten
  rw [← htext, hread] at hcounts
  have hone : back.output.rules.map (·.symbolizers.length) = [1] := Option.some.inj hcounts
  rw [hrules, List.map_singleton, hsymbolizers, List.length_map] at hone
  cases hone

end CartoStyle
