import CartoStyle.Proofs.Rule.Row
import CartoStyle.Proofs.Sheet.Rendering
import CartoStyle.Proofs.Style.Entry

/-!
The rows of a rule, merged into one list of properties and laid out again. A key has one
value, which every row has, or a value for every row, so each row finds its own values.
Rows that agree in all keys are one row afterwards. This is said of all properties that
collapse the rows, and then of those that are read back from a sheet.
-/

namespace CartoStyle.Style

open CartoStyle.Rule PropertyValue

def keysOf (es : List Entry) : List String :=
  (es.flatMap fun e => e.properties.map (·.1)).eraseDups

def mergedMap (es : List Entry) : PropertyMap := KeyMap.ofList (Sheet.spread (mergeProperties es))

def HoldsUnder (form : String → Prop) (es : List Entry) (key : String) : Prop :=
  ∀ e ∈ es, ∀ v, e.properties.lookup key = some v → form v

/-- Under a key, some properties have the values of rows collapsed, unless all are absent. -/
def Collapses (values : List (Option String)) (m : PropertyMap) (key : String) : Prop :=
  (∃ v, some v ∈ values) ∧ m.get? key = some (collapse values) ∨
    (∀ x ∈ values, x = none) ∧ m.get? key = none

def CollapsesRows (es : List Entry) (m : PropertyMap) : Prop :=
  ∀ key ∉ listKeys, Collapses (es.map (·.properties.lookup key)) m key

variable {es : List Entry} {values : List (Option String)} {m : PropertyMap} {key : String}
  {i : Nat}

section Keys

theorem mem_keysOf_iff : key ∈ keysOf es ↔ ∃ e ∈ es, (e.properties.lookup key).isSome = true := by
  rw [keysOf, List.mem_eraseDups, List.mem_flatMap]
  refine exists_congr fun e => and_congr_right fun _ => ?_
  rw [List.lookup_isSome_iff, List.mem_map]
  exact exists_congr fun p => and_congr_right fun _ => by rw [beq_iff_eq, eq_comm]

theorem mem_keysOf_iff_exists :
    key ∈ keysOf es ↔ ∃ v, some v ∈ es.map (·.properties.lookup key) := by
  rw [mem_keysOf_iff]
  constructor
  · rintro ⟨e, he, hsome⟩
    obtain ⟨v, hv⟩ := Option.isSome_iff_exists.mp hsome
    exact ⟨v, List.mem_map.mpr ⟨e, he, hv⟩⟩
  · rintro ⟨v, hv⟩
    obtain ⟨e, he, hv⟩ := List.mem_map.mp hv
    exact ⟨e, he, Option.isSome_iff_exists.mpr ⟨v, hv⟩⟩

/-- Properties with values that depend on their keys are found with the values that are read. -/
theorem get?_ofList_spread (keys : List String) (f : String → List String) (key : String) :
    (KeyMap.ofList (Sheet.spread (keys.map fun k => (k, f k)))).get? key =
      if key ∈ keys then some (Sheet.splitValues (", ".intercalate (f key))) else none := by
  have hspread : Sheet.spread (keys.map fun k => (k, f k)) =
      keys.map fun k => (k, Sheet.splitValues (", ".intercalate (f k))) :=
    List.map_map
  rw [hspread, KeyMap.get?_ofList_map]

theorem get?_mergedMap (es : List Entry) (key : String) :
    (mergedMap es).get? key = if key ∈ keysOf es then
      some (Sheet.splitValues (", ".intercalate (mergeValues es key))) else none :=
  get?_ofList_spread (keysOf es) (mergeValues es) key

/-- What a row says under a key is one of its properties. -/
theorem isCell_of_lookup {e : Entry} {v : String} (h : e.IsSteady)
    (hlookup : e.properties.lookup key = some v) : IsCell (key, v) := by
  obtain ⟨before, after, hsplit, -⟩ := List.lookup_eq_some_iff.mp hlookup
  exact h.properties _ (by simp [hsplit])

theorem isSteady_of_lookup {e : Entry} {v : String} (h : e.IsSteady) (hkey : key ∉ listKeys)
    (hlookup : e.properties.lookup key = some v) : IsSteady v := by
  obtain ⟨-, hcell⟩ := isCell_of_lookup h hlookup
  rwa [if_neg hkey] at hcell

theorem holdsUnder_isSteady (hsteady : ∀ e ∈ es, e.IsSteady) (hkey : key ∉ listKeys) :
    HoldsUnder IsSteady es key := fun e he _ hv => isSteady_of_lookup (hsteady e he) hkey hv

theorem isListing_of_lookup {e : Entry} {v : String} (h : e.IsSteady) (hkey : key ∈ listKeys)
    (hlookup : e.properties.lookup key = some v) : IsListing v := by
  obtain ⟨-, hcell⟩ := isCell_of_lookup h hlookup
  rwa [if_pos hkey] at hcell

theorem holdsUnder_isListing (hsteady : ∀ e ∈ es, e.IsSteady) (hkey : key ∈ listKeys) :
    HoldsUnder IsListing es key := fun e he _ hv => isListing_of_lookup (hsteady e he) hkey hv

end Keys

section Collapsing

theorem length_collapse (values : List (Option String)) :
    (collapse values).length = 1 ∨ (collapse values).length = values.length := by
  rw [collapse.eq_def]
  split
  · split
    · exact Or.inl rfl
    · exact Or.inr (List.length_map _)
  · exact Or.inr (List.length_map _)

/-- Values that all rows share are one value; otherwise every row has its own. -/
theorem collapse_cases (values : List (Option String)) :
    (∃ v, some v ∈ values ∧ (∀ x ∈ values, x = some v) ∧ collapse values = [v]) ∨
      collapse values = values.map (·.getD "none") := by
  rw [collapse.eq_def]
  split
  · next first rest =>
    split
    · next hall =>
      refine Or.inl ⟨first, List.mem_cons_self, fun x hx => ?_, rfl⟩
      simpa using List.all_eq_true.mp hall x hx
    · exact Or.inr rfl
  · exact Or.inr rfl

theorem collapse_eq_singleton {values : List (Option String)} {v : String} (hne : values ≠ [])
    (h : ∀ x ∈ values, x = some v) : collapse values = [v] := by
  cases values with
  | nil => exact absurd rfl hne
  | cons x xs =>
    obtain rfl := h x List.mem_cons_self
    have hall : (some v :: xs).all (· == some v) = true :=
      List.all_eq_true.mpr fun x hx => beq_iff_eq.mpr (h x hx)
    rw [collapse, if_pos hall]

theorem mem_collapse {v : String} (h : v ∈ collapse values) :
    v = "none" ∨ some v ∈ values := by
  rcases collapse_cases values with ⟨w, hmem, -, hw⟩ | hmap
  · rw [hw] at h
    obtain rfl := List.mem_singleton.mp h
    exact Or.inr hmem
  · rw [hmap] at h
    obtain ⟨x, hx, rfl⟩ := List.mem_map.mp h
    cases x with
    | none => exact Or.inl rfl
    | some v => exact Or.inr hx

/-- Every row finds its value among the collapsed ones. -/
theorem valueAt?_collapse {x : Option String} (hkey : key ∉ listKeys) (hx : values[i]? = some x) :
    valueAt? i key (collapse values) = some (x.getD "none") := by
  rcases collapse_cases values with ⟨v, -, hall, hv⟩ | hmap
  · rw [hv, valueAt?_single hkey, hall x (List.mem_of_getElem? hx), Option.getD_some]
  · rw [hmap]
    cases values with
    | nil => cases hx
    | cons y rest =>
      cases rest with
      | nil =>
        obtain ⟨hi, rfl⟩ := List.getElem?_eq_some_iff.mp hx
        obtain rfl : i = 0 := Nat.lt_one_iff.mp hi
        exact valueAt?_single hkey _
      | cons z rest =>
        refine (valueAt?_cons_cons hkey _ _ _).trans ?_
        show (List.map (·.getD "none") (y :: z :: rest))[i]? = _
        rw [List.getElem?_map, hx]
        rfl

end Collapsing

section Collapses

/-- The word for an absent value is left out of rows, and no other value is. -/
theorem filter_getD_none {x : Option String} (h : ∀ v ∈ x, v ≠ "none") :
    (some (x.getD "none")).filter (· != "none") = x := by
  cases x with
  | none => rfl
  | some v => simp [Option.filter, h v rfl]

/-- Properties that hold collapsed values under the keys that rows use collapse them. -/
theorem collapses_of_get? {used : Prop} [Decidable used] (hused : used ↔ ∃ v, some v ∈ values)
    (h : m.get? key = if used then some (collapse values) else none) :
    Collapses values m key := by
  split at h
  · next hyes => exact Or.inl ⟨hused.mp hyes, h⟩
  · next hno =>
    refine Or.inr ⟨fun x hx => ?_, h⟩
    cases x with
    | none => rfl
    | some v => exact absurd (hused.mpr ⟨v, hx⟩) hno

/-- Every row finds its own value. -/
theorem Collapses.get?_rowAt (h : Collapses values m key)
    (hvalues : ∀ v, some v ∈ values → key ∉ listKeys ∧ v ≠ "none") {x : Option String}
    (hx : values[i]? = some x) : (rowAt m i).get? key = x := by
  have hmem := List.mem_of_getElem? hx
  rw [rowAt, KeyMap.get?_filterMap]
  rcases h with ⟨⟨w, hw⟩, hget⟩ | ⟨hnone, hget⟩
  · rw [hget, Option.bind_some, valueAt?_collapse (hvalues w hw).1 hx]
    exact filter_getD_none fun v hv => (hvalues v (hv ▸ hmem)).2
  · rw [hget, hnone x hmem]
    rfl

theorem Collapses.length_eq (h : Collapses values m key) {vs : List String}
    (hvs : m.get? key = some vs) : vs.length = 1 ∨ vs.length = values.length := by
  rcases h with ⟨-, hget⟩ | ⟨-, hget⟩
  · obtain rfl := Option.some.inj (hget.symm.trans hvs)
    exact length_collapse values
  · cases hget.symm.trans hvs

/-- The values of one row agree. -/
theorem Collapses.eq_of_rowCount (h : Collapses values m key) (hkey : key ∉ listKeys)
    (hcount : rowCount m ≤ 1) {x y : Option String} (hx : x ∈ values) (hy : y ∈ values) :
    x = y := by
  rcases h with ⟨-, hget⟩ | ⟨hnone, -⟩
  · have hlength := (rowCount_le_iff.mp hcount).2 key hkey _ hget
    rcases collapse_cases values with ⟨v, -, hall, -⟩ | hmap
    · rw [hall x hx, hall y hy]
    · rw [hmap, List.length_map] at hlength
      obtain ⟨i, hi, rfl⟩ := List.getElem_of_mem hx
      obtain ⟨j, hj, rfl⟩ := List.getElem_of_mem hy
      obtain rfl : i = j := by omega
      rfl
  · rw [hnone x hx, hnone y hy]

/-- Values that agree are one. -/
theorem Collapses.length_le_one (h : Collapses values m key)
    (hagree : ∀ x ∈ values, ∀ y ∈ values, x = y) {vs : List String}
    (hvs : m.get? key = some vs) : vs.length ≤ 1 := by
  rcases h with ⟨⟨v, hv⟩, hget⟩ | ⟨-, hget⟩
  · obtain rfl := Option.some.inj (hget.symm.trans hvs)
    rw [collapse_eq_singleton (List.ne_nil_of_mem hv) fun x hx => hagree x hx _ hv,
      List.length_singleton]
  · cases hget.symm.trans hvs

theorem CollapsesRows.isEven (h : CollapsesRows es m) : IsEven es.length m := by
  intro key hkey vs hvs
  simpa using (h key hkey).length_eq hvs

/-- Rows that agree have one value for every key. -/
theorem CollapsesRows.rowCount_le_one (h : CollapsesRows es m)
    (hagree : ∀ key ∉ listKeys, ∀ e ∈ es, ∀ f ∈ es,
      e.properties.lookup key = f.properties.lookup key) : rowCount m ≤ 1 := by
  refine rowCount_le_iff.mpr ⟨fun _ => Nat.le_refl 1, fun key hkey vs hvs => ?_⟩
  refine (h key hkey).length_le_one ?_ hvs
  exact List.forall_mem_map.mpr fun e he => List.forall_mem_map.mpr (hagree key hkey e he)

/-- There are as many rows as before, or they agree in all keys of rows and are one. -/
theorem CollapsesRows.rowCount_eq (h : CollapsesRows es m) (hne : es ≠ [])
    (hm : m.isEmpty = false) :
    rowCount m = es.length ∨ rowCount m = 1 ∧ ∀ key ∉ listKeys, ∀ e ∈ es, ∀ f ∈ es,
      e.properties.lookup key = f.properties.lookup key := by
  rcases h.isEven.rowCount_eq (List.length_pos_iff.mpr hne) hm with hone | hall
  · refine Or.inr ⟨hone, fun key hkey e he f hf => ?_⟩
    exact (h key hkey).eq_of_rowCount hkey (Nat.le_of_eq hone) (List.mem_map_of_mem he)
      (List.mem_map_of_mem hf)
  · exact Or.inl hall

end Collapses

section Rows

theorem isValue_none : Sheet.IsValue "none" :=
  (Sheet.isClosed_of_isPlain (List.all_eq_true.mp (by decide))).isValue (by decide)
    (.of_all (by decide) (by decide))

/-- What is written for the values of a key stands in a block and is read back. -/
theorem isValue_of_mem_collapse (h : ∀ v, some v ∈ values → IsSteady v) :
    ∀ v ∈ collapse values, Sheet.IsValue v := by
  intro v hv
  rcases mem_collapse hv with rfl | hmem
  · exact isValue_none
  · exact (h v hmem).isValue

theorem mergeValues_eq_collapse (hkey : key ∉ listKeys) :
    mergeValues es key = collapse (es.map (·.properties.lookup key)) := by
  have hlist : ¬ listKeys.contains key = true := by simpa using hkey
  rw [mergeValues, if_neg hlist]

theorem HoldsUnder.of_mem_lookups {form : String → Prop} (h : HoldsUnder form es key) {v : String}
    (hv : some v ∈ es.map (·.properties.lookup key)) : form v := by
  obtain ⟨e, he, hlookup⟩ := List.mem_map.mp hv
  exact h e he v hlookup

/-- The values of a key are read back as they are, unless they form one list. -/
theorem splitValues_mergeValues (hsteady : HoldsUnder IsSteady es key) (hkey : key ∉ listKeys) :
    Sheet.splitValues (", ".intercalate (mergeValues es key)) =
      collapse (es.map (·.properties.lookup key)) := by
  rw [mergeValues_eq_collapse hkey]
  exact Sheet.splitValues_intercalate
    (isValue_of_mem_collapse fun v => hsteady.of_mem_lookups)

theorem collapses_mergedMap (hsteady : HoldsUnder IsSteady es key) (hkey : key ∉ listKeys) :
    Collapses (es.map (·.properties.lookup key)) (mergedMap es) key :=
  collapses_of_get? mem_keysOf_iff_exists
    (by rw [get?_mergedMap, splitValues_mergeValues hsteady hkey])

/-- Every row finds what it said. -/
theorem get?_rowAt_mergedMap (hsteady : HoldsUnder IsSteady es key) (hkey : key ∉ listKeys)
    (hi : i < es.length) :
    (rowAt (mergedMap es) i).get? key = es[i].properties.lookup key := by
  refine (collapses_mergedMap hsteady hkey).get?_rowAt (fun v hv => ?_) (by simp [hi])
  exact ⟨hkey, (hsteady.of_mem_lookups hv).ne_none⟩

theorem IsListing.splitValues_eq {v : String} {ts : List String} (hts : ∀ t ∈ ts, IsSteady t)
    (hv : v = ", ".intercalate ts) : Sheet.splitValues v = ts := by
  rw [hv]
  exact Sheet.splitValues_intercalate fun t ht => (hts t ht).isValue

theorem IsListing.ne_none {v : String} (h : IsListing v) : v ≠ "none" := by
  obtain ⟨ts, -, hts, hv⟩ := h
  rintro rfl
  have hnone : Sheet.splitValues "none" = ["none"] :=
    Sheet.splitValues_intercalate (List.forall_mem_singleton.mpr isValue_none)
  rw [IsListing.splitValues_eq hts hv] at hnone
  exact (hts "none" (by rw [hnone]; exact List.mem_singleton_self _)).ne_none rfl

/-- The values of a list key are those of the first row that has some. -/
theorem get?_rowAt_listKey (hlisted : HoldsUnder IsListing es key) (hkey : key ∈ listKeys)
    (i : Nat) :
    (rowAt (mergedMap es) i).get? key = es.findSome? (·.properties.lookup key) := by
  have hlist : listKeys.contains key = true := by simpa using hkey
  rw [rowAt, KeyMap.get?_filterMap, get?_mergedMap]
  cases hfirst : es.findSome? (·.properties.lookup key) with
  | none =>
    have hunused : key ∉ keysOf es := by
      rw [mem_keysOf_iff]
      rintro ⟨e, he, hsome⟩
      rw [List.findSome?_eq_none_iff.mp hfirst e he] at hsome
      cases hsome
    rw [if_neg hunused]
    rfl
  | some v =>
    obtain ⟨before, e, after, rfl, hlookup, hbefore⟩ := List.findSome?_eq_some_iff.mp hfirst
    have he : e ∈ before ++ e :: after := by simp
    have hlisting := hlisted e he v hlookup
    obtain ⟨ts, -, hts, hv⟩ := id hlisting
    have hused : key ∈ keysOf (before ++ e :: after) :=
      mem_keysOf_iff.mpr ⟨e, he, by rw [hlookup]; rfl⟩
    have hnone : (before.map (·.properties.lookup key)).filterMap id = [] := by
      rw [List.filterMap_map, List.filterMap_eq_nil_iff]
      exact hbefore
    have hvalues : mergeValues (before ++ e :: after) key = [v] := by
      rw [mergeValues, if_pos hlist, List.map_append, List.map_cons, List.filterMap_append, hnone,
        hlookup]
      rfl
    have hsplit : Sheet.splitValues (", ".intercalate [v]) = ts := by
      rw [String.intercalate_singleton, IsListing.splitValues_eq hts hv]
    rw [if_pos hused, hvalues, Option.bind_some, hsplit,
      valueAt?_listKey hkey, ← hv]
    simp [hlisting.ne_none]

end Rows

section Count

theorem collapsesRows_mergedMap (hsteady : ∀ e ∈ es, e.IsSteady) :
    CollapsesRows es (mergedMap es) :=
  fun _ hkey => collapses_mergedMap (holdsUnder_isSteady hsteady hkey) hkey

/-- Merged rows have as many rows as before, or they agree in all keys of rows and are one. -/
theorem rowCount_mergedMap (hsteady : ∀ e ∈ es, e.IsSteady)
    (hanchored : ∀ e ∈ es, ∃ key, key ∉ listKeys ∧ (e.properties.lookup key).isSome = true) :
    rowCount (mergedMap es) = es.length ∨
      rowCount (mergedMap es) = 1 ∧ ∀ key ∉ listKeys, ∀ e ∈ es, ∀ f ∈ es,
        e.properties.lookup key = f.properties.lookup key := by
  by_cases hnil : es = []
  · subst hnil
    exact Or.inl rfl
  refine (collapsesRows_mergedMap hsteady).rowCount_eq hnil ?_
  obtain ⟨e, he⟩ := List.exists_mem_of_ne_nil es hnil
  obtain ⟨key, -, hsome⟩ := hanchored e he
  have hkeys : keysOf es ≠ [] := List.ne_nil_of_mem (mem_keysOf_iff.mpr ⟨e, he, hsome⟩)
  refine KeyMap.isEmpty_ofList ?_
  simpa [Sheet.spread, mergeProperties, keysOf] using hkeys

end Count

end CartoStyle.Style
