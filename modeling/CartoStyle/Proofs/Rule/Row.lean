import CartoStyle.Proofs.KeyMap
import CartoStyle.Rule.Parts

/-!
Rows of properties whose values are laid out evenly: every key has one value for all rows, or
a value for each. Such properties have one row or all of them, and a single row stands for
every other one.
-/

namespace CartoStyle.Rule

variable {m : PropertyMap} {key : String} {i n : Nat}

section Values

theorem valueAt?_single (hkey : key ∉ listKeys) (v : String) : valueAt? i key [v] = some v := by
  have hlist : listKeys.contains key = false := by simpa using hkey
  simp only [valueAt?, hlist]
  rfl

theorem valueAt?_cons_cons (hkey : key ∉ listKeys) (v w : String) (vs : List String) :
    valueAt? i key (v :: w :: vs) = (v :: w :: vs)[i]? := by
  have hlist : listKeys.contains key = false := by simpa using hkey
  simp only [valueAt?, hlist]
  rfl

theorem valueAt?_listKey (hkey : key ∈ listKeys) (vs : List String) :
    valueAt? i key vs = some (", ".intercalate vs) := by
  have hlist : listKeys.contains key = true := by simpa using hkey
  unfold valueAt?
  rw [if_pos hlist]

/-- A value that is alone stands in every row. -/
theorem valueAt?_eq_of_length_le_one {vs : List String} (h : key ∉ listKeys → vs.length ≤ 1)
    (i j : Nat) : valueAt? i key vs = valueAt? j key vs := by
  by_cases hkey : key ∈ listKeys
  · rw [valueAt?_listKey hkey, valueAt?_listKey hkey]
  · cases vs with
    | nil => simp [valueAt?]
    | cons v vs =>
      obtain rfl : vs = [] := List.length_eq_zero_iff.mp (by simpa using h hkey)
      rw [valueAt?_single hkey, valueAt?_single hkey]

end Values

section Count

theorem foldl_max_le_iff {ns : List Nat} {m n : Nat} :
    ns.foldl max m ≤ n ↔ m ≤ n ∧ ∀ x ∈ ns, x ≤ n := by
  induction ns generalizing m with
  | nil => simp
  | cons x ns ih => rw [List.foldl_cons, ih, Nat.max_le, List.forall_mem_cons, and_assoc]

/-- The number of rows is bounded by what bounds the number of values of every key. -/
theorem rowCount_le_iff :
    rowCount m ≤ n ↔ (m.isEmpty = false → 1 ≤ n) ∧
      ∀ key ∉ listKeys, ∀ vs, m.get? key = some vs → vs.length ≤ n := by
  rw [rowCount, Nat.max_le, foldl_max_le_iff, and_comm]
  refine and_congr ?_ ?_
  · cases m.isEmpty <;> simp
  · rw [and_iff_right (Nat.zero_le n)]
    simp only [List.mem_filterMap, KeyMap.get?_eq_some_iff]
    constructor
    · intro h key hkey vs hvs
      exact h vs.length ⟨(key, vs), hvs, by simpa using hkey⟩
    · rintro h x ⟨⟨key, vs⟩, hvs, hx⟩
      by_cases hlist : listKeys.contains key = true
      · rw [if_pos hlist] at hx
        cases hx
      · rw [if_neg hlist] at hx
        cases hx
        exact h key (by simpa using hlist) vs hvs

/-- Every key has one value, or one for each of some rows. -/
def IsEven (n : Nat) (m : PropertyMap) : Prop :=
  ∀ key ∉ listKeys, ∀ vs, m.get? key = some vs → vs.length = 1 ∨ vs.length = n

/-- Even properties have one row or all of them. -/
theorem IsEven.rowCount_eq (h : IsEven n m) (hn : 1 ≤ n) (hm : m.isEmpty = false) :
    rowCount m = 1 ∨ rowCount m = n := by
  obtain ⟨hpos, hlengths⟩ := rowCount_le_iff.mp (Nat.le_refl (rowCount m))
  have hone : 1 ≤ rowCount m := hpos hm
  have hall : rowCount m ≤ n := by
    refine rowCount_le_iff.mpr ⟨fun _ => hn, fun key hkey vs hvs => ?_⟩
    rcases h key hkey vs hvs with hlength | hlength <;> omega
  -- With fewer than all rows, no key has a value for each of them.
  by_cases hfewer : rowCount m < n
  · refine Or.inl (Nat.le_antisymm (rowCount_le_iff.mpr ⟨fun _ => Nat.le_refl 1, ?_⟩) hone)
    intro key hkey vs hvs
    have hbound := hlengths key hkey vs hvs
    rcases h key hkey vs hvs with hlength | hlength <;> omega
  · exact Or.inr (by omega)

/-- If there is one row, it stands for all. -/
theorem get?_rowAt_of_rowCount (h : rowCount m ≤ 1) (i j : Nat) (key : String) :
    (rowAt m i).get? key = (rowAt m j).get? key := by
  rw [rowAt, rowAt, KeyMap.get?_filterMap, KeyMap.get?_filterMap]
  cases hvs : m.get? key with
  | none => rfl
  | some vs =>
    rw [Option.bind_some, Option.bind_some, valueAt?_eq_of_length_le_one
      (fun hkey => (rowCount_le_iff.mp h).2 key hkey vs hvs) i j]

theorem length_splitRows (m : PropertyMap) : (splitRows m).length = rowCount m := by
  rw [splitRows, List.length_map, List.length_range]

theorem getElem?_splitRows (h : i < rowCount m) : (splitRows m)[i]? = some (rowAt m i) := by
  rw [splitRows, List.getElem?_map, List.getElem?_range h]
  rfl

theorem Record.rowFor?_eq (r : Record) (i : Nat) :
    r.rowFor? i = if r.rows.length = 1 then r.rows[0]? else r.rows[i]? := by
  rw [Record.rowFor?]
  split
  · next single hsingle =>
    rw [hsingle]
    rfl
  · next hseveral =>
    rw [if_neg fun hone => ?_]
    obtain ⟨single, hsingle⟩ := List.length_eq_one_iff.mp hone
    exact hseveral single hsingle

/-- Every row of a record with even properties is found. -/
theorem Record.get?_rowFor? {r : Record} (hrows : r.rows = splitRows m) (h : IsEven n m)
    (hm : m.isEmpty = false) (hi : i < n) (key : String) :
    (r.rowFor? i).bind (·.get? key) = (rowAt m i).get? key := by
  have hn : 1 ≤ n := by omega
  rw [Record.rowFor?_eq, hrows, length_splitRows]
  by_cases hone : rowCount m = 1
  · rw [if_pos hone, getElem?_splitRows (by omega)]
    exact get?_rowAt_of_rowCount (Nat.le_of_eq hone) 0 i key
  · have hall : rowCount m = n := (h.rowCount_eq hn hm).resolve_left hone
    rw [if_neg hone, getElem?_splitRows (by omega)]
    rfl

end Count

end CartoStyle.Rule
