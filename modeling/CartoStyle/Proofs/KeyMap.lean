import CartoStyle.KeyMap

/-!
Lookups in maps. A value is found under a key exactly if the map has the entry;
replacing values and building a map from a function on keys are seen in what is
found.
-/

namespace CartoStyle.KeyMap

variable {α β : Type}

/-- Keys in ascending order are distinct. -/
theorem nodup_keys (m : KeyMap α) : (m.entries.map Prod.fst).Nodup := by
  refine List.pairwise_map.mpr (m.sorted.imp fun {d e} hlt heq => ?_)
  rw [heq] at hlt
  exact String.lt_irrefl e.1 hlt

theorem lookup_eq_some_of_mem {es : List (String × α)} (hdistinct : (es.map Prod.fst).Nodup)
    {key : String} {v : α} (h : (key, v) ∈ es) : es.lookup key = some v := by
  induction es with
  | nil => cases h
  | cons e es ih =>
    obtain ⟨hfirst, hrest⟩ := List.nodup_cons.mp hdistinct
    rcases List.mem_cons.mp h with rfl | h
    · exact List.lookup_cons_self
    · have hne : key ≠ e.1 := by
        rintro rfl
        exact hfirst (List.mem_map.mpr ⟨_, h, rfl⟩)
      rw [List.lookup_cons, beq_eq_false_iff_ne.mpr hne]
      exact ih hrest h

theorem mem_of_lookup_eq_some {es : List (String × α)} {key : String} {v : α}
    (h : es.lookup key = some v) : (key, v) ∈ es := by
  obtain ⟨before, after, rfl, -⟩ := List.lookup_eq_some_iff.mp h
  simp

/-- A value is found under a key exactly if the map has the entry. -/
theorem get?_eq_some_iff (m : KeyMap α) {key : String} {v : α} :
    m.get? key = some v ↔ (key, v) ∈ m.entries :=
  ⟨mem_of_lookup_eq_some, lookup_eq_some_of_mem m.nodup_keys⟩

/-- Maps in which the same values are found are equal. -/
@[ext]
theorem ext_get? {m m' : KeyMap α} (h : ∀ key, m.get? key = m'.get? key) : m = m' := by
  have hmem : ∀ e, e ∈ m.entries ↔ e ∈ m'.entries := fun ⟨key, v⟩ => by
    rw [← get?_eq_some_iff, ← get?_eq_some_iff, h]
  have hnodup (m : KeyMap α) : m.entries.Nodup :=
    List.Pairwise.of_map Prod.fst (fun _ _ => mt (congrArg Prod.fst)) m.nodup_keys
  have hperm : m.entries.Perm m'.entries :=
    (List.perm_ext_iff_of_nodup (hnodup m) (hnodup m')).mpr hmem
  -- Of two lists in the same order that have the same entries, neither can begin differently.
  have hentries : m.entries = m'.entries :=
    hperm.eq_of_pairwise (fun _ _ _ _ hlt hgt => absurd hgt (String.lt_asymm hlt))
      m.sorted m'.sorted
  cases m
  cases m'
  cases hentries
  rfl

/-- In a map of entries with distinct keys, each is found as it is in the list. -/
theorem get?_ofList_eq_lookup {es : List (String × α)} (hdistinct : (es.map Prod.fst).Nodup)
    (key : String) : (ofList es).get? key = es.lookup key := by
  refine Option.ext fun v => ?_
  rw [get?_eq_some_iff, (entries_ofList_perm hdistinct).mem_iff]
  exact ⟨lookup_eq_some_of_mem hdistinct, mem_of_lookup_eq_some⟩

theorem contains_eq_isSome (m : KeyMap α) (key : String) :
    m.contains key = (m.get? key).isSome := by
  rw [Bool.eq_iff_iff, get?, List.lookup_isSome_iff, contains, List.any_eq_true]
  simp only [BEq.comm]

theorem any_key_iff (m : KeyMap α) (p : String → Bool) :
    (m.entries.any fun e => p e.1) = true ↔ ∃ key, p key = true ∧ (m.get? key).isSome = true := by
  simp only [get?, List.lookup_isSome_iff, List.any_eq_true, beq_iff_eq]
  constructor
  · rintro ⟨e, he, hp⟩
    exact ⟨e.1, hp, e, he, rfl⟩
  · rintro ⟨key, hp, e, he, rfl⟩
    exact ⟨e, he, hp⟩

/-- Replaced values are found under the same keys. -/
theorem get?_filterMap (m : KeyMap α) (f : String → α → Option β) (key : String) :
    (m.filterMap f).get? key = (m.get? key).bind (f key) := by
  refine Option.ext fun w => ?_
  rw [get?_eq_some_iff, filterMap, List.mem_filterMap, Option.bind_eq_some_iff]
  constructor
  · rintro ⟨⟨k, v⟩, hmem, hv⟩
    obtain ⟨w', hw, heq⟩ := Option.map_eq_some_iff.mp hv
    cases heq
    exact ⟨v, m.get?_eq_some_iff.mpr hmem, hw⟩
  · rintro ⟨v, hget, hw⟩
    exact ⟨(key, v), m.get?_eq_some_iff.mp hget, by simp [hw]⟩

/-- A map of some entries is not empty. -/
theorem isEmpty_ofList {es : List (String × α)} (h : es ≠ []) :
    (ofList es).isEmpty = false := by
  obtain ⟨e, he⟩ := List.exists_mem_of_ne_nil es h
  have hne : es.filter (·.1 == e.1) ≠ [] :=
    List.ne_nil_of_mem (List.mem_filter.mpr ⟨he, beq_self_eq_true e.1⟩)
  have hget := get?_ofList es e.1
  rw [List.getLast?_eq_some_getLast hne, get?] at hget
  rw [isEmpty]
  cases hentries : (ofList es).entries with
  | nil =>
    rw [hentries] at hget
    cases hget
  | cons d ds => rfl

/-- A map built from a function on keys has its value under each of them. -/
theorem get?_ofList_map (keys : List String) (f : String → α) (key : String) :
    (ofList (keys.map fun k => (k, f k))).get? key = if key ∈ keys then some (f key) else none := by
  rw [get?_ofList]
  by_cases hkey : key ∈ keys
  · rw [if_pos hkey]
    have hne : ((keys.map fun k => (k, f k)).filter (·.1 == key)) ≠ [] := by
      refine List.ne_nil_of_mem (List.mem_filter.mpr ⟨List.mem_map_of_mem hkey, ?_⟩)
      exact beq_self_eq_true key
    obtain ⟨e, he⟩ : ∃ e, ((keys.map fun k => (k, f k)).filter (·.1 == key)).getLast? = some e :=
      ⟨_, List.getLast?_eq_some_getLast hne⟩
    obtain ⟨hmem, heq⟩ := List.mem_filter.mp (List.mem_of_getLast? he)
    obtain ⟨k, -, rfl⟩ := List.mem_map.mp hmem
    obtain rfl : k = key := by simpa using heq
    rw [he]
    rfl
  · rw [if_neg hkey]
    have hnil : ((keys.map fun k => (k, f k)).filter (·.1 == key)) = [] := by
      rw [List.filter_eq_nil_iff]
      intro e he
      obtain ⟨k, hk, rfl⟩ := List.mem_map.mp he
      simp only [beq_iff_eq]
      rintro rfl
      exact hkey hk
    rw [hnil]
    rfl

end CartoStyle.KeyMap
