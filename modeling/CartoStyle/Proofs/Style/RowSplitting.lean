import CartoStyle.Proofs.Style.Merging

/-!
Rows that are merged and split again, with no sheet in between. Properties that merge some
rows hold, key by key, the collapsed values of the rows, so splitting finds in each row what
the row of the same index said. What is left to decide is how many rows there are, which is
none if no row says anything, one if all rows are equal, and else as many as before.
-/

namespace CartoStyle.Style

open CartoStyle.Rule

def Entry.row (e : Entry) : Row := KeyMap.ofList e.properties

/-- Every key of the row has one value and is not the key of a list, and the word for an
absent value is no value. -/
structure Entry.IsRow (e : Entry) : Prop where
  distinct : (e.properties.map (·.1)).Nodup
  keys : ∀ p ∈ e.properties, p.1 ∉ listKeys
  values : ∀ p ∈ e.properties, p.2 ≠ "none"

variable {es : List Entry} {m : PropertyMap} {e f : Entry} {key : String} {i : Nat}

theorem Entry.IsRow.get?_row (h : e.IsRow) (key : String) :
    e.row.get? key = e.properties.lookup key :=
  KeyMap.get?_ofList_eq_lookup h.distinct key

theorem Entry.IsRow.of_lookup (h : e.IsRow) {v : String} (hv : e.properties.lookup key = some v) :
    key ∉ listKeys ∧ v ≠ "none" :=
  have hmem := KeyMap.mem_of_lookup_eq_some hv
  ⟨h.keys _ hmem, h.values _ hmem⟩

/-- Rows are equal if they agree in all keys of rows, as they have no others. -/
theorem Entry.IsRow.row_eq_iff (he : e.IsRow) (hf : f.IsRow) :
    e.row = f.row ↔ ∀ key ∉ listKeys, e.properties.lookup key = f.properties.lookup key := by
  have hnone {g : Entry} (hg : g.IsRow) {key : String} (hkey : key ∈ listKeys) :
      g.properties.lookup key = none :=
    Option.eq_none_iff_forall_ne_some.mpr fun v hv => (hg.of_lookup hv).1 hkey
  constructor
  · intro heq key _
    rw [← he.get?_row, heq, hf.get?_row]
  · intro hagree
    refine KeyMap.ext_get? fun key => ?_
    rw [he.get?_row, hf.get?_row]
    by_cases hkey : key ∈ listKeys
    · rw [hnone he hkey, hnone hf hkey]
    · exact hagree key hkey

section Merged

theorem get?_ofList_mergeProperties (es : List Entry) (key : String) :
    (KeyMap.ofList (mergeProperties es)).get? key =
      if key ∈ keysOf es then some (mergeValues es key) else none :=
  KeyMap.get?_ofList_map (keysOf es) (mergeValues es) key

/-- Merged properties collapse the rows under every key, since no row uses the key of a list. -/
theorem collapses_mergeProperties (h : ∀ e ∈ es, e.IsRow) (key : String) :
    Collapses (es.map (·.properties.lookup key)) (KeyMap.ofList (mergeProperties es)) key := by
  refine collapses_of_get? mem_keysOf_iff_exists ?_
  rw [get?_ofList_mergeProperties]
  by_cases hused : key ∈ keysOf es
  · obtain ⟨v, hv⟩ := mem_keysOf_iff_exists.mp hused
    obtain ⟨e, he, hv⟩ := List.mem_map.mp hv
    rw [if_pos hused, if_pos hused, mergeValues_eq_collapse ((h e he).of_lookup hv).1]
  · rw [if_neg hused, if_neg hused]

/-- A split row is the row of the same index. -/
theorem rowAt_mergeProperties (h : ∀ e ∈ es, e.IsRow) (hi : i < es.length) :
    rowAt (KeyMap.ofList (mergeProperties es)) i = es[i].row := by
  refine KeyMap.ext_get? fun key => ?_
  rw [(h _ (List.getElem_mem hi)).get?_row]
  refine (collapses_mergeProperties h key).get?_rowAt (fun v hv => ?_) (by simp [hi])
  obtain ⟨e, he, hv⟩ := List.mem_map.mp hv
  exact (h e he).of_lookup hv

theorem isEmpty_mergeProperties (he : e ∈ es) (hne : e.properties ≠ []) :
    (KeyMap.ofList (mergeProperties es)).isEmpty = false := by
  obtain ⟨p, hp⟩ := List.exists_mem_of_ne_nil _ hne
  have hkey : p.1 ∈ keysOf es :=
    List.mem_eraseDups.mpr (List.mem_flatMap.mpr ⟨e, he, List.mem_map_of_mem hp⟩)
  refine KeyMap.isEmpty_ofList ?_
  simpa [mergeProperties, keysOf] using List.ne_nil_of_mem hkey

/-- Rows that say nothing are merged into no properties. -/
theorem mergeProperties_eq_nil (h : ∀ e ∈ es, e.properties = []) : mergeProperties es = [] := by
  have hkeys : (es.flatMap fun e => e.properties.map (·.1)) = [] :=
    List.flatMap_eq_nil_iff.mpr fun e he => by rw [h e he, List.map_nil]
  rw [mergeProperties, hkeys]
  rfl

end Merged

/-- As many of the rows as there are split ones are the split ones. -/
theorem splitRows_eq_take (hrow : ∀ i (hi : i < es.length), rowAt m i = es[i].row)
    (hcount : rowCount m ≤ es.length) : splitRows m = (es.map Entry.row).take (rowCount m) := by
  refine List.ext_getElem (by simp [splitRows, hcount]) fun i hi _ => ?_
  have hindex : i < rowCount m := by simpa [splitRows] using hi
  simpa [splitRows] using hrow i (by omega)

/-- Splitting inverts merging. Rows that say nothing are no rows afterwards, and rows that are
all equal are one of them; other rows come back in order, each as it was. -/
theorem splitRows_mergeProperties (h : ∀ e ∈ es, e.IsRow) :
    splitRows (KeyMap.ofList (mergeProperties es)) =
      if ∀ e ∈ es, e.properties = [] then []
      else if ∀ e ∈ es, ∀ f ∈ es, e.row = f.row then (es.map Entry.row).take 1
      else es.map Entry.row := by
  by_cases hempty : ∀ e ∈ es, e.properties = []
  · rw [if_pos hempty, mergeProperties_eq_nil hempty]
    rfl
  · rw [if_neg hempty]
    obtain ⟨e, he, hsays⟩ : ∃ e ∈ es, e.properties ≠ [] := by simpa using hempty
    have hcollapses : CollapsesRows es (KeyMap.ofList (mergeProperties es)) :=
      fun key _ => collapses_mergeProperties h key
    have hcount := hcollapses.rowCount_eq (List.ne_nil_of_mem he) (isEmpty_mergeProperties he hsays)
    have hpos := List.length_pos_of_mem he
    rw [splitRows_eq_take (fun i hi => rowAt_mergeProperties h hi) (by omega)]
    split
    · next hequal =>
      have hfew := hcollapses.rowCount_le_one fun key hkey e he f hf =>
        ((h e he).row_eq_iff (h f hf)).mp (hequal e he f hf) key hkey
      rw [show rowCount (KeyMap.ofList (mergeProperties es)) = 1 by omega]
    · next hdiffer =>
      rcases hcount with hall | ⟨-, hagree⟩
      · rw [hall]
        exact List.take_of_length_le (Nat.le_of_eq (List.length_map _))
      · refine absurd (fun e he f hf => ?_) hdiffer
        exact ((h e he).row_eq_iff (h f hf)).mpr fun key hkey => hagree key hkey e he f hf

/-- Rows of which the first has no fill, the last says no more than they all do, and one is
like another. -/
def unevenRows : List Entry :=
  [{ properties := [("stroke", "red"), ("stroke-width", "2")] },
    { properties := [("stroke-width", "2"), ("fill", "blue"), ("stroke", "red")] },
    { properties := [("stroke", "red"), ("stroke-width", "2")] },
    { properties := [("stroke-width", "2")] }]

theorem splitRows_unevenRows :
    (∀ e ∈ unevenRows, e.IsRow) ∧
      mergeProperties unevenRows =
        [("stroke", ["red", "red", "red", "none"]), ("stroke-width", ["2"]),
          ("fill", ["none", "blue", "none", "none"])] ∧
      splitRows (KeyMap.ofList (mergeProperties unevenRows)) = unevenRows.map Entry.row := by
  have hrows : ∀ e ∈ unevenRows, e.IsRow := by
    simp only [unevenRows, List.forall_mem_cons]
    exact ⟨⟨by decide, by decide, by decide⟩, ⟨by decide, by decide, by decide⟩,
      ⟨by decide, by decide, by decide⟩, ⟨by decide, by decide, by decide⟩, by simp⟩
  exact ⟨hrows, by decide +kernel, (splitRows_mergeProperties hrows).trans (by decide +kernel)⟩

end CartoStyle.Style
