import CartoStyle.Proofs.Style.Equality
import CartoStyle.Proofs.Style.PartMerging

/-!
Symbolizers laid out in rows and read back from the merged rows. A row finds its own values
again, apart from those that all rows share: fonts, colour maps, and what is filled in for
parts. Rows that agree in all of their values are read as one.
-/

namespace CartoStyle.Style

open CartoStyle.Rule

section Layout

variable {symbolizers row : List Symbolizer}

theorem kind_ne_text {s : Symbolizer} (h : ∀ l, s = .label l → False) : s.kind ≠ .text := by
  cases s with
  | label l => exact absurd rfl (h l)
  | _ => exact nofun

theorem flatten_layOut (symbolizers : List Symbolizer) :
    (layOut symbolizers).flatten = symbolizers := by
  induction symbolizers using layOut.induct with
  | case1 => rfl
  | case2 l later ih => rw [layOut, List.flatten_cons, ih]; rfl
  | case3 geometry l later hgeometry ih =>
    rw [layOut.eq_3 _ _ _ hgeometry, List.flatten_cons, ih]
    rfl
  | case4 geometry later hgeometry hlater ih =>
    rw [layOut.eq_4 _ _ hgeometry hlater, List.flatten_cons, ih]
    rfl

theorem mem_of_mem_layOut {s : Symbolizer} (hrow : row ∈ layOut symbolizers) (hs : s ∈ row) :
    s ∈ symbolizers := by
  rw [← flatten_layOut symbolizers]
  exact List.mem_flatten.mpr ⟨row, hrow, hs⟩

/-- A row of a layout holds a label, a geometry, or a geometry and its label. -/
theorem cases_of_mem_layOut (symbolizers : List Symbolizer) :
    ∀ row ∈ layOut symbolizers, (∃ l, row = [.label l]) ∨
      ∃ s, s.kind ≠ .text ∧ (row = [s] ∨ ∃ l, row = [s, .label l]) := by
  induction symbolizers using layOut.induct with
  | case1 => exact List.forall_mem_nil _
  | case2 l later ih =>
    rw [layOut]
    exact List.forall_mem_cons.mpr ⟨Or.inl ⟨l, rfl⟩, ih⟩
  | case3 geometry l later hgeometry ih =>
    rw [layOut.eq_3 _ _ _ hgeometry]
    exact List.forall_mem_cons.mpr
      ⟨Or.inr ⟨geometry, kind_ne_text hgeometry, Or.inr ⟨l, rfl⟩⟩, ih⟩
  | case4 geometry later hgeometry hlater ih =>
    rw [layOut.eq_4 _ _ hgeometry hlater]
    exact List.forall_mem_cons.mpr ⟨Or.inr ⟨geometry, kind_ne_text hgeometry, Or.inl rfl⟩, ih⟩

theorem isRow_of_mem_layOut (h : ∀ s ∈ symbolizers, s.IsWritable) :
    ∀ row ∈ layOut symbolizers, IsRow row := by
  intro row hrow
  have hwritable : ∀ s ∈ row, s.IsWritable := fun s hs => h s (mem_of_mem_layOut hrow hs)
  rcases cases_of_mem_layOut symbolizers row hrow with ⟨l, rfl⟩ | ⟨s, hkind, rfl | ⟨l, rfl⟩⟩
  · exact .label (hwritable _ List.mem_cons_self)
  · exact .geometry (hwritable _ List.mem_cons_self) hkind
  · have hl := hwritable _ (List.mem_cons_of_mem s List.mem_cons_self)
    exact .both (hwritable s List.mem_cons_self) hkind hl

/-- Writable symbolizers have entries that are read back as their rows. -/
theorem exists_entries (h : ∀ s ∈ symbolizers, s.IsWritable) :
    ∃ es, List.Forall₂ IsWrittenBy (layOut symbolizers) es :=
  exists_forall₂ fun row hrow => (isRow_of_mem_layOut h row hrow).exists_isWrittenBy

theorem parts_foldl_append (fs : List Entry) (e : Entry) :
    (fs.foldl Entry.append e).parts = e.parts ++ fs.flatMap Entry.parts := by
  induction fs generalizing e with
  | nil => simp
  | cons f fs ih => rw [List.foldl_cons, ih, Entry.append, List.flatMap_cons, List.append_assoc]

/-- The entry of a row is put together from those of its symbolizers. -/
theorem rowEntry_eq_ok_iff {e : Entry} : rowEntry row = .ok e ↔
    ∃ fs, List.Forall₂ (fun s f => s.entry = .ok f) row fs ∧ fs.foldl Entry.append {} = e := by
  rw [rowEntry, bind_eq_ok_iff]
  simp only [mapM_eq_ok_iff, pure, Except.pure, Except.ok.injEq]

/-- What a row says about parts is said by a symbolizer of the row. -/
theorem exists_entry_of_parts {e : Entry} (h : rowEntry row = .ok e) (hparts : e.parts ≠ []) :
    ∃ s ∈ row, ∃ f, s.entry = .ok f ∧ f.parts ≠ [] := by
  obtain ⟨fs, hfs, rfl⟩ := rowEntry_eq_ok_iff.mp h
  rw [parts_foldl_append, List.nil_append] at hparts
  obtain ⟨p, hp⟩ := List.exists_mem_of_ne_nil _ hparts
  obtain ⟨f, hf, hpf⟩ := List.mem_flatMap.mp hp
  obtain ⟨s, hs, hentry⟩ := exists_of_forall₂ hfs hf
  exact ⟨s, hs, f, hentry, List.ne_nil_of_mem hpf⟩

end Layout

/-- Rows that have the same colour map, and whose labels have the same font. -/
structure SharesLists (rows : List (List Symbolizer)) : Prop where
  colorMap : ∃ text, ∀ row ∈ rows, row.findSome? Symbolizer.colorMapText = text
  font : ∃ font, ∀ row ∈ rows, ∀ l, Symbolizer.label l ∈ row → l.font = font

section Reading

variable {rows : List (List Symbolizer)} {es : List Entry} {row : List Symbolizer} {e f : Entry}
  {parts : Parts} {i : Nat}

/-- The font of the labels is the one that the entry of a row names, if it names one; the entry
of a row with a label does. -/
theorem IsWrittenBy.lookup_font {font : Option (List String)} (h : IsWrittenBy row e)
    (hfont : ∀ l, Symbolizer.label l ∈ row → l.font = font) :
    (e.properties.lookup "font-family" = none ∨
      e.properties.lookup "font-family" = font.map Style.fontText) ∧
    ((e.properties.lookup "label").isSome = true →
      e.properties.lookup "font-family" = font.map Style.fontText) := by
  have hall : ∀ s ∈ row, s.fontText = none ∨ s.fontText = font.map Style.fontText := by
    intro s hs
    cases s with
    | label l => exact Or.inr (congrArg (Option.map Style.fontText) (hfont l hs))
    | _ => exact Or.inl rfl
  rw [h.font]
  refine ⟨findSome?_eq_none_or hall, fun hlabel => ?_⟩
  obtain ⟨l, hl⟩ := h.label hlabel
  exact findSome?_eq_of_agree hall fun _ =>
    ⟨_, hl, congrArg (Option.map Style.fontText) (hfont l hl)⟩

theorem isSteady_of_entries (hentries : List.Forall₂ IsWrittenBy rows es) :
    ∀ e ∈ es, e.IsSteady := by
  intro e he
  obtain ⟨row, -, hrow⟩ := exists_of_forall₂ hentries he
  exact hrow.steady

/-- Under the keys of lists a row finds what it says itself, since all rows say the same. -/
theorem get?_rowAt_colorMap (hentries : List.Forall₂ IsWrittenBy rows es)
    (hshares : SharesLists rows) (he : e ∈ es) :
    (rowAt (mergedMap es) i).get? "raster-color-map" = e.properties.lookup "raster-color-map" := by
  obtain ⟨text, htext⟩ := hshares.colorMap
  have hall : ∀ f ∈ es, f.properties.lookup "raster-color-map" = text := by
    intro f hf
    obtain ⟨row, hrow, hwritten⟩ := exists_of_forall₂ hentries hf
    rw [hwritten.colorMap, htext row hrow]
  have hlisted : HoldsUnder IsListing es "raster-color-map" :=
    holdsUnder_isListing (isSteady_of_entries hentries) (by decide)
  rw [get?_rowAt_listKey hlisted (by decide), hall e he]
  exact findSome?_eq_of_agree (fun f hf => Or.inr (hall f hf)) fun _ => ⟨e, he, hall e he⟩

theorem get?_rowAt_font (hentries : List.Forall₂ IsWrittenBy rows es) (hshares : SharesLists rows)
    (he : e ∈ es) (hlabel : (e.properties.lookup "label").isSome = true) :
    (rowAt (mergedMap es) i).get? "font-family" = e.properties.lookup "font-family" := by
  obtain ⟨font, hfont⟩ := hshares.font
  have hall : ∀ f ∈ es, f.properties.lookup "font-family" = none ∨
      f.properties.lookup "font-family" = font.map Style.fontText := by
    intro f hf
    obtain ⟨row, hrow, hwritten⟩ := exists_of_forall₂ hentries hf
    exact (hwritten.lookup_font (hfont row hrow)).1
  obtain ⟨row, hrow, hwritten⟩ := exists_of_forall₂ hentries he
  have hown := (hwritten.lookup_font (hfont row hrow)).2 hlabel
  have hlisted : HoldsUnder IsListing es "font-family" :=
    holdsUnder_isListing (isSteady_of_entries hentries) (by decide)
  rw [get?_rowAt_listKey hlisted (by decide), hown]
  exact findSome?_eq_of_agree hall fun _ => ⟨e, he, hown⟩

/-- But for fonts, the merged row at an index has the properties of the row at that index. -/
theorem get?_rowAt_eq (hentries : List.Forall₂ IsWrittenBy rows es) (hshares : SharesLists rows)
    (hi : i < es.length) {key : String} (hkey : key ≠ "font-family") :
    (rowAt (mergedMap es) i).get? key = es[i].properties.lookup key := by
  by_cases hlist : key ∈ listKeys
  · have hcolorMap : key = "raster-color-map" := by simpa [listKeys, hkey] using hlist
    rw [hcolorMap]
    exact get?_rowAt_colorMap hentries hshares (List.getElem_mem hi)
  · exact get?_rowAt_mergedMap (holdsUnder_isSteady (isSteady_of_entries hentries) hlist) hlist hi

/-- The merged row at an index says what the row at that index said. -/
theorem says_getElem (hentries : List.Forall₂ IsWrittenBy rows es) (hshares : SharesLists rows)
    (hi : i < es.length)
    (hparts : ∀ part ∈ partNames, ∀ key, parts.value? part i key = es[i].partValue? part key) :
    Instance.Says { row := rowAt (mergedMap es) i, parts, index := i } es[i] where
  raw _ hkey := get?_rowAt_eq hentries hshares hi hkey
  font hlabel := get?_rowAt_font hentries hshares (List.getElem_mem hi) hlabel
  part := hparts

/-- Every merged row is read as the row at its index. -/
theorem symbolizersOf_rowAt (hentries : List.Forall₂ IsWrittenBy rows es)
    (hshares : SharesLists rows) (hrow : i < rows.length) (hi : i < es.length)
    (hparts : ∀ part ∈ partNames, ∀ key, parts.value? part i key = es[i].partValue? part key) :
    symbolizersOf { row := rowAt (mergedMap es) i, parts, index := i } = .ok rows[i] :=
  (hentries.get hrow hi).reads _ (says_getElem hentries hshares hi hparts)

/-- The step that reads every row, over rows that are known one by one. -/
theorem mapM_zipIdx_splitRows {m : PropertyMap}
    (h : ∀ i (hi : i < rows.length), symbolizersOf { row := rowAt m i, parts, index := i } =
      .ok rows[i]) (hcount : rowCount m = rows.length) :
    ((splitRows m).zipIdx.mapM fun (row, index) => symbolizersOf { row, parts, index }) =
      .ok rows := by
  refine mapM_eq_ok_iff.mpr (List.forall₂_iff_get.mpr ⟨?_, fun i hx hy => ?_⟩)
  · simp [splitRows, hcount]
  · simpa [splitRows] using h i hy

/-- What the rows say about parts is the same in all of them. -/
def SharesParts (es : List Entry) : Prop :=
  ∀ e ∈ es, ∀ f ∈ es, ∀ part ∈ partNames, ∀ key, e.partValue? part key = f.partValue? part key

/-- A merged row speaks for every row that it agrees with. -/
theorem says_of_agree (hentries : List.Forall₂ IsWrittenBy rows es) (hshares : SharesLists rows)
    (hsame : SharesParts es) {inst : Instance} (h : inst.Says e) (he : e ∈ es) (hf : f ∈ es)
    (hrow : inst.row = rowAt (mergedMap es) i)
    (hagree : ∀ key ∉ listKeys, e.properties.lookup key = f.properties.lookup key) :
    inst.Says f where
  raw key hkey := by
    by_cases hlist : key ∈ listKeys
    · have hcolorMap : key = "raster-color-map" := by simpa [listKeys, hkey] using hlist
      rw [hcolorMap, Instance.raw?, hrow]
      exact get?_rowAt_colorMap hentries hshares hf
    · rw [h.raw key hkey, hagree key hlist]
  font hlabel := by
    rw [Instance.raw?, hrow]
    exact get?_rowAt_font hentries hshares hf hlabel
  part part hpart key := by rw [h.part part hpart key, hsame e he f hf part hpart key]

/-- The rows are read as they were, or as one if they are all equal. -/
theorem mapM_symbolizersOf (hentries : List.Forall₂ IsWrittenBy rows es)
    (hshares : SharesLists rows) (hsame : SharesParts es)
    (hparts : ∀ i (hi : i < es.length), ∀ part ∈ partNames, ∀ key,
      parts.value? part i key = es[i].partValue? part key) :
    ((splitRows (mergedMap es)).zipIdx.mapM fun (row, index) =>
      symbolizersOf { row, parts, index }) = .ok rows ∨
    ∃ row, ((splitRows (mergedMap es)).zipIdx.mapM fun (row, index) =>
      symbolizersOf { row, parts, index }) = .ok [row] ∧ rows ≠ [] ∧ ∀ r ∈ rows, r = row := by
  have hlength := hentries.length_eq
  have hanchored : ∀ e ∈ es, ∃ key, key ∉ listKeys ∧ (e.properties.lookup key).isSome = true := by
    intro e he
    obtain ⟨row, -, hwritten⟩ := exists_of_forall₂ hentries he
    exact hwritten.anchored
  rcases rowCount_mergedMap (isSteady_of_entries hentries) hanchored with hall | ⟨hone, hagree⟩
  · left
    refine mapM_zipIdx_splitRows (fun i hi => ?_) (hall.trans hlength.symm)
    exact symbolizersOf_rowAt hentries hshares hi (by omega) (hparts i (by omega))
  · by_cases hnil : rows = []
    · subst hnil
      cases hentries
      cases hone
    · right
      have hpos : 0 < rows.length := List.length_pos_iff.mpr hnil
      have hfirst := symbolizersOf_rowAt hentries hshares hpos (by omega) (hparts 0 (by omega))
      have hsays := says_getElem hentries hshares (by omega) (hparts 0 (by omega))
      refine ⟨rows[0], mapM_zipIdx_splitRows (fun i hi => ?_) hone, hnil, fun row hrow => ?_⟩
      · obtain rfl : i = 0 := Nat.lt_one_iff.mp hi
        exact hfirst
      · obtain ⟨i, hi, rfl⟩ := List.getElem_of_mem hrow
        have hes : i < es.length := by omega
        have hother := says_of_agree hentries hshares hsame hsays (List.getElem_mem _)
          (List.getElem_mem hes) rfl fun key hkey =>
            hagree key hkey _ (List.getElem_mem _) _ (List.getElem_mem hes)
        have hread := (hentries.get hi hes).reads _ hother
        exact Except.ok.inj (hread.symm.trans hfirst)

end Reading

end CartoStyle.Style
