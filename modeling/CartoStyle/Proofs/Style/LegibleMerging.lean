import CartoStyle.Proofs.Style.LegibleRow

/-!
Merged rows of symbolizers whose texts can be read. Every row that comes back holds values that
its keys need: its own, but for dashes, where empty lists are lost and later ones move up, and
for the lists that all rows share. Of these a colour map alone tells a kind, so a label that
stands alone comes back with a raster if some raster of the rule has a colour map.
-/

namespace CartoStyle.Style

open PropertyValue CartoStyle.Rule

variable {es : List Entry} {key v : String} {i : Nat}

section Values

theorem isAccepted_of_lookup {e : Entry} (h : e.IsLegible)
    (hlookup : e.properties.lookup key = some v) (hdashes : key = "stroke-dasharray" → v ≠ "") :
    IsAccepted key v := by
  obtain ⟨before, after, hsplit, -⟩ := List.lookup_eq_some_iff.mp hlookup
  rcases h.cells (key, v) (by simp [hsplit]) with hempty | ⟨-, haccepted⟩
  · obtain ⟨hkey, hv⟩ := Prod.mk.inj hempty
    exact absurd hv (hdashes hkey)
  · exact haccepted

theorem isCell_of_isLegible {e : Entry} (h : e.IsLegible)
    (hlookup : e.properties.lookup key = some v) (hdashes : key ≠ "stroke-dasharray") :
    IsCell (key, v) := by
  obtain ⟨before, after, hsplit, -⟩ := List.lookup_eq_some_iff.mp hlookup
  rcases h.cells (key, v) (by simp [hsplit]) with hempty | ⟨hcell, -⟩
  · exact absurd (Prod.mk.inj hempty).1 hdashes
  · exact hcell

/-- Every row finds its own value, but for dashes and shared lists. -/
theorem get?_rowAt_of_isLegible (hes : ∀ e ∈ es, e.IsLegible) (hlist : key ∉ listKeys)
    (hdashes : key ≠ "stroke-dasharray") (hi : i < es.length) :
    (rowAt (mergedMap es) i).get? key = es[i].properties.lookup key := by
  refine get?_rowAt_mergedMap (fun e he v hv => ?_) hlist hi
  obtain ⟨-, hcell⟩ := isCell_of_isLegible (hes e he) hv hdashes
  rwa [if_neg hlist] at hcell

/-- A shared list is the one of the first row that has it. -/
theorem get?_rowAt_listKey_of_isLegible (hes : ∀ e ∈ es, e.IsLegible) (hlist : key ∈ listKeys)
    (i : Nat) : (rowAt (mergedMap es) i).get? key = es.findSome? (·.properties.lookup key) := by
  have hdashes : ∀ key ∈ listKeys, key ≠ "stroke-dasharray" := by decide
  refine get?_rowAt_listKey (fun e he v hv => ?_) hlist i
  obtain ⟨-, hcell⟩ := isCell_of_isLegible (hes e he) hv (hdashes key hlist)
  rwa [if_pos hlist] at hcell

/-- What rows say under a key of their own comes back, but for empty texts. -/
theorem splitValues_of_isLegible (hes : ∀ e ∈ es, e.IsLegible) (hlist : key ∉ listKeys) :
    Sheet.splitValues (", ".intercalate (mergeValues es key)) =
      (collapse (es.map (·.properties.lookup key))).filter (!·.isEmpty) := by
  have hvalues : ∀ v ∈ collapse (es.map (·.properties.lookup key)), v = "" ∨ Sheet.IsValue v := by
    intro v hv
    rcases mem_collapse hv with rfl | hmem
    · exact Or.inr isValue_none
    · obtain ⟨e, he, hlookup⟩ := List.mem_map.mp hmem
      obtain ⟨before, after, hsplit, -⟩ := List.lookup_eq_some_iff.mp hlookup
      rcases (hes e he).cells (key, v) (by simp [hsplit]) with hempty | ⟨⟨-, hcell⟩, -⟩
      · exact Or.inl (Prod.mk.inj hempty).2
      · rw [if_neg hlist] at hcell
        exact Or.inr hcell.isValue
  rw [mergeValues_eq_collapse hlist]
  refine Sheet.splitValues_intercalate_of_isPart (fun v hv => ?_) fun v hv => ?_
  · rcases hvalues v hv with rfl | hvalue
    · exact ⟨by decide, by decide⟩
    · exact hvalue.part
  · rcases hvalues v hv with rfl | hvalue
    · exact .nil
    · exact hvalue.trimmed

theorem mem_of_valueAt? (hlist : key ∉ listKeys) {vs : List String}
    (h : valueAt? i key vs = some v) : v ∈ vs := by
  cases vs with
  | nil => simp [valueAt?, hlist] at h
  | cons w vs =>
    cases vs with
    | nil =>
      rw [valueAt?_single hlist] at h
      exact List.mem_singleton.mpr (Option.some.inj h).symm
    | cons u vs =>
      rw [valueAt?_cons_cons hlist] at h
      exact List.mem_of_getElem? h

/-- Every value of a merged row is what its key needs. -/
theorem isAccepted_of_get?_rowAt (hes : ∀ e ∈ es, e.IsLegible)
    (h : (rowAt (mergedMap es) i).get? key = some v) : IsAccepted key v := by
  by_cases hlist : key ∈ listKeys
  · rw [get?_rowAt_listKey_of_isLegible hes hlist] at h
    obtain ⟨e, he, hlookup⟩ := List.exists_of_findSome?_eq_some h
    refine isAccepted_of_lookup (hes e he) hlookup ?_
    rintro rfl
    exact absurd hlist (by decide)
  · rw [rowAt, KeyMap.get?_filterMap, get?_mergedMap, splitValues_of_isLegible hes hlist] at h
    split at h
    · obtain ⟨hvalue, hnone⟩ := Option.filter_eq_some_iff.mp h
      have hmem := mem_of_valueAt? hlist hvalue
      obtain ⟨hcollapse, hempty⟩ := List.mem_filter.mp hmem
      have hsome := (mem_collapse hcollapse).resolve_left (by simpa using hnone)
      obtain ⟨e, he, hlookup⟩ := List.mem_map.mp hsome
      exact isAccepted_of_lookup (hes e he) hlookup fun _ => by simpa using hempty
    · cases h

/-- Merging adds no rows. -/
theorem rowCount_mergedMap_le (hes : ∀ e ∈ es, e.IsLegible) :
    rowCount (mergedMap es) ≤ es.length := by
  have hused {key : String} (h : key ∈ keysOf es) : 1 ≤ es.length := by
    obtain ⟨e, he, -⟩ := mem_keysOf_iff.mp h
    exact List.length_pos_of_mem he
  refine rowCount_le_iff.mpr ⟨fun hempty => ?_, fun key hlist vs hvs => ?_⟩
  · by_contra hnone
    have hnil : es = [] := List.length_eq_zero_iff.mp (by omega)
    rw [hnil] at hempty
    cases hempty
  · rw [get?_mergedMap, splitValues_of_isLegible hes hlist] at hvs
    split at hvs
    · next hkey =>
      obtain rfl := Option.some.inj hvs
      refine (List.length_filter_le _ _).trans ?_
      have hlength := length_collapse (es.map (·.properties.lookup key))
      rw [List.length_map] at hlength
      have hpos := hused hkey
      omega
    · cases hvs

end Values

section Rows

variable {rows : List (List Symbolizer)} {parts : Parts}

/-- Without a geometry of its own a merged row describes one only if it has a colour map. -/
theorem geometryKind?_rowAt_eq_none (hes : ∀ e ∈ es, e.IsLegible) (hi : i < es.length)
    (hlabel : ∀ key ∉ labelKeys, es[i].properties.lookup key = none)
    (hcolorMap : ∀ e ∈ es, e.properties.lookup "raster-color-map" = none) :
    geometryKind? (rowAt (mergedMap es) i) = none := by
  have hown {key : String} (hlist : key ∉ listKeys) (hdashes : key ≠ "stroke-dasharray")
      (hkey : key ∉ labelKeys) : (rowAt (mergedMap es) i).get? key = none := by
    rw [get?_rowAt_of_isLegible hes hlist hdashes hi, hlabel key hkey]
  have hkeys {key : String} (hkey : isRasterKey key = true) :
      (rowAt (mergedMap es) i).get? key = none := by
    have hnames : ∀ key ∈ "stroke-dasharray" :: labelKeys, isRasterKey key = false := by decide
    have hraster : key ∉ "stroke-dasharray" :: labelKeys := fun hmem => by
      rw [hnames key hmem] at hkey
      cases hkey
    rw [List.mem_cons, not_or] at hraster
    by_cases hlist : key ∈ listKeys
    · have hcolor : key = "raster-color-map" := by
        have hfamily : key ≠ "font-family" := by
          rintro rfl
          exact hraster.2 (by decide)
        simpa [listKeys, hfamily] using hlist
      subst hcolor
      rw [get?_rowAt_listKey_of_isLegible hes hlist, List.findSome?_eq_none_iff]
      exact hcolorMap
    · exact hown hlist hraster.1 hraster.2
  have hraster : ((rowAt (mergedMap es) i).entries.any fun p => isRasterKey p.1) = false := by
    rw [Bool.eq_false_iff, ne_eq, KeyMap.any_key_iff _ isRasterKey]
    rintro ⟨key, hkey, hsome⟩
    rw [hkeys hkey] at hsome
    cases hsome
  have hcontains : ∀ key ∈ ["mark", "stroke", "fill"],
      (rowAt (mergedMap es) i).contains key = false := by
    have hnames : ∀ key ∈ ["mark", "stroke", "fill"], key ∉ listKeys ∧
      key ≠ "stroke-dasharray" ∧ key ∉ labelKeys := by decide
    intro key hkey
    obtain ⟨hlist, hdashes, hlabel⟩ := hnames key hkey
    rw [KeyMap.contains_eq_isSome, hown hlist hdashes hlabel]
    rfl
  rw [geometryKind?, hcontains "mark" (by decide), hcontains "stroke" (by decide),
    hcontains "fill" (by decide)]
  simp only [Bool.false_eq_true, if_false, Bool.false_and, ite_eq_right_iff, reduceCtorEq,
    imp_false]
  exact Bool.eq_false_iff.mp hraster

/-- How many symbolizers a row gets from the others: a label that stands alone comes back with a
raster if some row has a colour map. -/
def spill (rows : List (List Symbolizer)) (row : List Symbolizer) : Nat :=
  (isLabelRow row && rows.any (·.any Symbolizer.hasColorMap)).toNat

theorem length_kinds (row : Row) : (kinds row).length =
    (geometryKind? row).isSome.toNat + (row.contains "label").toNat := by
  rw [kinds, List.length_append]
  cases geometryKind? row <;> cases row.contains "label" <;> rfl

theorem isLegible_of_isToldBy (htold : List.Forall₂ IsToldBy rows es) :
    ∀ e ∈ es, e.IsLegible := by
  intro e he
  obtain ⟨row, -, hrow⟩ := exists_of_forall₂ htold he
  exact hrow.legible

/-- Without a colour map no row says anything about one. -/
theorem lookup_colorMap_eq_none (htold : List.Forall₂ IsToldBy rows es)
    (hcolorMap : rows.any (·.any Symbolizer.hasColorMap) = false) :
    ∀ e ∈ es, e.properties.lookup "raster-color-map" = none := by
  intro e he
  obtain ⟨row, hrow, hsaid⟩ := exists_of_forall₂ htold he
  refine Option.not_isSome_iff_eq_none.mp fun hsome => ?_
  exact List.any_eq_false.mp hcolorMap row hrow (hsaid.colorMap hsome)

/-- A merged row describes at most what the row at its index held and what it gets from the
others. -/
theorem length_kinds_rowAt_le (htold : List.Forall₂ IsToldBy rows es) (hrow : i < rows.length)
    (hi : i < es.length) :
    (kinds (rowAt (mergedMap es) i)).length ≤ rows[i].length + spill rows rows[i] := by
  have hes := isLegible_of_isToldBy htold
  have hown : IsToldBy rows[i] es[i] := htold.get hrow hi
  have hbound := hown.labels
  rw [length_kinds, KeyMap.contains_eq_isSome,
    get?_rowAt_of_isLegible hes (by decide) (by decide) hi, spill]
  have hone := Bool.toNat_le (geometryKind? (rowAt (mergedMap es) i)).isSome
  cases halone : isLabelRow rows[i] with
  | false =>
    rw [halone] at hbound
    simp only [Bool.not_false, Bool.toNat_true, Bool.false_and, Bool.toNat_false] at hbound ⊢
    omega
  | true =>
    rw [halone] at hbound
    cases hcolorMap : rows.any (·.any Symbolizer.hasColorMap) with
    | true =>
      simp only [Bool.not_true, Bool.toNat_false, Bool.and_self, Bool.toNat_true] at hbound ⊢
      omega
    | false =>
      have hnone := geometryKind?_rowAt_eq_none hes hi (hown.geometry halone)
        (lookup_colorMap_eq_none htold hcolorMap)
      rw [hnone]
      simp only [Bool.not_true, Bool.toNat_false, Option.isSome_none, Bool.and_false] at hbound ⊢
      omega

/-- A merged row is read. -/
theorem isLegible_rowAt (htold : List.Forall₂ IsToldBy rows es) (hi : i < es.length)
    (hparts : ∀ part key, parts.value? part i key =
      (es[i].partValue? part key).or (firstPartValue? es part key)) :
    Instance.IsLegible { row := rowAt (mergedMap es) i, parts, index := i } where
  raw key v hv := isAccepted_of_get?_rowAt (isLegible_of_isToldBy htold) hv
  part part _ key v hv := by
    have hvalue := (hparts part key).symm.trans hv
    have hsaid : ∃ e ∈ es, e.partValue? part key = some v := by
      rcases Option.or_eq_some_iff.mp hvalue with hown | ⟨-, hfirst⟩
      · exact ⟨_, List.getElem_mem hi, hown⟩
      · exact exists_of_firstPartValue? hfirst
    obtain ⟨e, he, hlookup⟩ := hsaid
    have hpart := (isLegible_of_isToldBy htold e he).parts _ (mem_of_partValue? hlookup)
    exact hpart.2.2.accepted
  contrasts := by
    have hkeys : ∀ key ∈ contrastKeys, key ∉ listKeys ∧ key ≠ "stroke-dasharray" := by decide
    obtain ⟨row, -, hsaid⟩ := exists_of_forall₂ htold (List.getElem_mem hi)
    refine hsaid.contrasts _ fun key hkey => ?_
    exact get?_rowAt_of_isLegible (isLegible_of_isToldBy htold) (hkeys key hkey).1
      (hkeys key hkey).2 hi

theorem zipIdx_splitRows (m : PropertyMap) :
    (splitRows m).zipIdx = (List.range (rowCount m)).map fun i => (rowAt m i, i) := by
  refine List.ext_getElem (by simp [splitRows]) fun i _ _ => ?_
  simp [splitRows]

/-- Lists that are no longer than others, but for an excess, are no longer all together. -/
theorem length_flatten_le {α β : Type} {xss : List (List α)} {yss : List (List β)}
    {excess : List α → Nat} (hlength : yss.length ≤ xss.length)
    (h : ∀ i (hx : i < xss.length) (hy : i < yss.length),
      yss[i].length ≤ xss[i].length + excess xss[i]) :
    yss.flatten.length ≤ xss.flatten.length + (xss.map excess).sum := by
  induction yss generalizing xss with
  | nil => exact Nat.zero_le _
  | cons ys yss ih =>
    cases xss with
    | nil => cases hlength
    | cons xs xss =>
      have hfirst := h 0 (Nat.zero_lt_succ _) (Nat.zero_lt_succ _)
      have hrest := ih (Nat.le_of_succ_le_succ hlength) fun i hx hy =>
        h (i + 1) (Nat.succ_lt_succ hx) (Nat.succ_lt_succ hy)
      simp only [List.getElem_cons_zero, List.flatten_cons, List.length_append, List.map_cons,
        List.sum_cons] at hfirst hrest ⊢
      omega

/-- The merged rows are read, and no more symbolizers than the rows held and get from each
other. -/
theorem exists_symbolizers (htold : List.Forall₂ IsToldBy rows es)
    (hparts : ∀ index (_ : index < es.length), ∀ part key, parts.value? part index key =
      (es[index].partValue? part key).or (firstPartValue? es part key)) :
    ∃ read, ((splitRows (mergedMap es)).zipIdx.mapM fun (row, index) =>
      symbolizersOf { row, parts, index }) = .ok read ∧
        read.flatten.length ≤ rows.flatten.length + (rows.map (spill rows)).sum := by
  have hcount := rowCount_mergedMap_le (isLegible_of_isToldBy htold)
  have hlength := htold.length_eq
  rw [zipIdx_splitRows, List.mapM_map]
  obtain ⟨read, hread⟩ : ∃ read, List.Forall₂ (fun i symbolizers =>
      symbolizersOf { row := rowAt (mergedMap es) i, parts, index := i } = .ok symbolizers ∧
        symbolizers.length = (kinds (rowAt (mergedMap es) i)).length)
      (List.range (rowCount (mergedMap es))) read := exists_forall₂ fun i hi => by
    have hi : i < es.length := by
      rw [List.mem_range] at hi
      omega
    exact (isLegible_rowAt htold hi (hparts i hi)).exists_symbolizersOf
  have hrows := hread.length_eq
  rw [List.length_range] at hrows
  refine ⟨read, mapM_eq_ok_iff.mpr (hread.imp fun _ _ hi => hi.1), ?_⟩
  refine length_flatten_le (by omega) fun i hrow hi => ?_
  have hkinds := (hread.get (by simpa [hrows] using hi) hi).2
  simp only [List.get_eq_getElem, List.getElem_range] at hkinds
  rw [hkinds]
  exact length_kinds_rowAt_le htold hrow (by omega)

end Rows

end CartoStyle.Style
