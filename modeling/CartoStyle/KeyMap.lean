/-!
Maps from text keys to values, kept as a list in strictly ascending order of
the keys. Keys are compared character by character, which is also the order of
their bytes. Inserting under a key that is present replaces its value.
-/

namespace CartoStyle

/-- Entries in strictly ascending order of their keys. -/
structure KeyMap (α : Type) where
  entries : List (String × α)
  sorted : entries.Pairwise (·.1 < ·.1)
deriving DecidableEq

namespace KeyMap

variable {α β : Type}

def empty : KeyMap α := ⟨[], .nil⟩

instance : Inhabited (KeyMap α) := ⟨empty⟩

/-- The entries with one more, put in its place or over the entry with its key. -/
def insertEntry (key : String) (value : α) : List (String × α) → List (String × α)
  | [] => [(key, value)]
  | (k, v) :: rest =>
    if key < k then (key, value) :: (k, v) :: rest
    else if key = k then (key, value) :: rest
    else (k, v) :: insertEntry key value rest

/-- Every key after an insertion is the new one or was there before. -/
theorem key_of_mem_insertEntry {key : String} {value : α} {es : List (String × α)}
    {e : String × α} (h : e ∈ insertEntry key value es) : e.1 = key ∨ e ∈ es := by
  induction es with
  | nil => simp_all [insertEntry]
  | cons head rest ih =>
    obtain ⟨k, v⟩ := head
    simp only [insertEntry] at h
    split at h
    · rcases List.mem_cons.mp h with rfl | h
      · exact Or.inl rfl
      · exact Or.inr h
    · split at h
      · rcases List.mem_cons.mp h with rfl | h
        · exact Or.inl rfl
        · exact Or.inr (List.mem_cons_of_mem _ h)
      · rcases List.mem_cons.mp h with rfl | h
        · exact Or.inr List.mem_cons_self
        · exact (ih h).imp_right (List.mem_cons_of_mem _)

/-- An insertion keeps the order of the keys. -/
theorem sorted_insertEntry {key : String} {value : α} {es : List (String × α)}
    (h : es.Pairwise (·.1 < ·.1)) : (insertEntry key value es).Pairwise (·.1 < ·.1) := by
  induction es with
  | nil => simp [insertEntry]
  | cons head rest ih =>
    obtain ⟨k, v⟩ := head
    obtain ⟨hk, hrest⟩ := List.pairwise_cons.mp h
    simp only [insertEntry]
    split
    · next hlt =>
      refine List.pairwise_cons.mpr ⟨?_, h⟩
      intro e he
      rcases List.mem_cons.mp he with rfl | he
      · exact hlt
      · exact String.lt_trans hlt (hk e he)
    · next hge =>
      split
      · next heq =>
        subst heq
        exact List.pairwise_cons.mpr ⟨hk, hrest⟩
      · next hne =>
        refine List.pairwise_cons.mpr ⟨?_, ih hrest⟩
        intro e he
        rcases key_of_mem_insertEntry he with hkey | he
        · show k < e.1
          rw [hkey]
          exact Std.lt_of_le_of_ne hge (fun h => hne h.symm)
        · exact hk e he

def insert (m : KeyMap α) (key : String) (value : α) : KeyMap α :=
  ⟨insertEntry key value m.entries, sorted_insertEntry m.sorted⟩

/-- The map of a list of entries, of which the last one with a key counts. -/
def ofList (es : List (String × α)) : KeyMap α :=
  es.foldl (fun m e => m.insert e.1 e.2) empty

def get? (m : KeyMap α) (key : String) : Option α := m.entries.lookup key

def contains (m : KeyMap α) (key : String) : Bool := m.entries.any (·.1 == key)

def isEmpty (m : KeyMap α) : Bool := m.entries.isEmpty

private theorem sublist_filterMap (f : String → α → Option β) (es : List (String × α)) :
    ((es.filterMap fun e => (f e.1 e.2).map (e.1, ·)).map Prod.fst).Sublist (es.map Prod.fst) := by
  induction es with
  | nil => exact List.Sublist.refl _
  | cons e es ih =>
    rw [List.filterMap_cons]
    cases f e.1 e.2 with
    | none => exact List.Sublist.cons _ ih
    | some v => exact List.Sublist.cons_cons _ ih

/-- The map with every value replaced or dropped, as a function of key and value says. -/
def filterMap (m : KeyMap α) (f : String → α → Option β) : KeyMap β where
  entries := m.entries.filterMap fun e => (f e.1 e.2).map (e.1, ·)
  sorted := by
    have keys : (m.entries.map Prod.fst).Pairwise (· < ·) := List.pairwise_map.mpr m.sorted
    exact List.pairwise_map.mp (keys.sublist (sublist_filterMap f m.entries))

theorem lookup_insertEntry_self (key : String) (value : α) (es : List (String × α)) :
    (insertEntry key value es).lookup key = some value := by
  induction es with
  | nil => simp [insertEntry]
  | cons head rest ih =>
    obtain ⟨k, v⟩ := head
    simp only [insertEntry]
    split
    · simp
    · split
      · simp
      · next hne => simp [List.lookup_cons, beq_eq_false_iff_ne.mpr hne, ih]

/-- What was put under a key is found there. -/
theorem get?_insert_self (m : KeyMap α) (key : String) (value : α) :
    (m.insert key value).get? key = some value :=
  lookup_insertEntry_self key value m.entries

theorem lookup_insertEntry_of_ne {key other : String} (h : other ≠ key) (value : α)
    (es : List (String × α)) : (insertEntry key value es).lookup other = es.lookup other := by
  have hbeq : (other == key) = false := beq_eq_false_iff_ne.mpr h
  induction es with
  | nil => simp [insertEntry, List.lookup_cons, hbeq]
  | cons head rest ih =>
    obtain ⟨k, v⟩ := head
    simp only [insertEntry]
    split
    · simp [List.lookup_cons, hbeq]
    · split
      · next heq =>
        subst heq
        simp [List.lookup_cons, hbeq]
      · simp [List.lookup_cons, ih]

/-- An insertion leaves the values under other keys. -/
theorem get?_insert_of_ne (m : KeyMap α) {key other : String} (h : other ≠ key) (value : α) :
    (m.insert key value).get? other = m.get? other :=
  lookup_insertEntry_of_ne h value m.entries

theorem get?_foldl_insert (m : KeyMap α) (es : List (String × α)) (key : String) :
    (es.foldl (fun m e => m.insert e.1 e.2) m).get? key =
      (((es.filter (·.1 == key)).getLast?).map Prod.snd).or (m.get? key) := by
  induction es generalizing m with
  | nil => rfl
  | cons e es ih =>
    rw [List.foldl_cons, ih]
    by_cases hkey : e.1 = key
    · subst hkey
      rw [get?_insert_self, List.filter_cons_of_pos (by simp), List.getLast?_cons]
      cases (es.filter (·.1 == e.1)).getLast? <;> rfl
    · rw [get?_insert_of_ne m (Ne.symm hkey), List.filter_cons_of_neg (by simpa using hkey)]

/-- The last entry with a key counts. -/
theorem get?_ofList (es : List (String × α)) (key : String) :
    (ofList es).get? key = ((es.filter (·.1 == key)).getLast?).map Prod.snd := by
  rw [ofList, get?_foldl_insert]
  exact Option.or_none

/-- A new key adds one entry. -/
theorem insertEntry_perm {key : String} (value : α) {es : List (String × α)}
    (h : ∀ e ∈ es, e.1 ≠ key) : (insertEntry key value es).Perm ((key, value) :: es) := by
  induction es with
  | nil => exact .refl _
  | cons head rest ih =>
    obtain ⟨k, v⟩ := head
    simp only [insertEntry]
    split
    · exact .refl _
    · rw [if_neg (Ne.symm (h _ List.mem_cons_self))]
      have hrest := ih fun e he => h e (List.mem_cons_of_mem _ he)
      exact (hrest.cons (k, v)).trans (.swap _ _ _)

theorem foldl_insert_perm {m : KeyMap α} {es : List (String × α)}
    (hdistinct : (es.map Prod.fst).Nodup) (hnew : ∀ e ∈ es, ∀ d ∈ m.entries, d.1 ≠ e.1) :
    (es.foldl (fun m e => m.insert e.1 e.2) m).entries.Perm (m.entries ++ es) := by
  induction es generalizing m with
  | nil => exact .of_eq (List.append_nil _).symm
  | cons e es ih =>
    rw [List.map_cons, List.nodup_cons] at hdistinct
    have hinsert := insertEntry_perm e.2 (hnew e List.mem_cons_self)
    have hlater : ∀ f ∈ es, ∀ d ∈ (m.insert e.1 e.2).entries, d.1 ≠ f.1 := by
      intro f hf d hd heq
      rcases key_of_mem_insertEntry hd with hkey | hd
      · exact hdistinct.1 (List.mem_map.mpr ⟨f, hf, by rw [← heq, hkey]⟩)
      · exact hnew f (List.mem_cons_of_mem e hf) d hd heq
    refine (ih hdistinct.2 hlater).trans ((hinsert.append_right es).trans ?_)
    exact List.perm_middle.symm

/-- Entries with distinct keys are all kept. -/
theorem entries_ofList_perm {es : List (String × α)} (hdistinct : (es.map Prod.fst).Nodup) :
    (ofList es).entries.Perm es :=
  foldl_insert_perm hdistinct fun _ _ _ hd => absurd hd List.not_mem_nil

end KeyMap

end CartoStyle
