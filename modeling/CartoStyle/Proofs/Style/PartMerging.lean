import CartoStyle.Proofs.Rule.Parts
import CartoStyle.Proofs.Style.Merging

/-!
What the rows of a rule say about parts, merged into blocks and looked up again. A row that
says nothing under a key of a part finds there what the first row says that does.
-/

namespace CartoStyle.Style

open CartoStyle.Rule PropertyValue

def partKeysOf (es : List Entry) (part : String) : List String :=
  (((es.flatMap Entry.parts).filter (·.1 == part)).map (·.2.1)).eraseDups

def partMap (es : List Entry) (part : String) : PropertyMap :=
  KeyMap.ofList (Sheet.spread (mergePart es part).properties)

/-- What the first row that says something under a key of a part says. -/
def firstPartValue? (es : List Entry) (part key : String) : Option String :=
  es.findSome? (·.partValue? part key)

variable {es : List Entry} {e : Entry} {part key v : String} {i : Nat}

section Keys

theorem mem_of_partValue? (h : e.partValue? part key = some v) : (part, key, v) ∈ e.parts := by
  rw [Entry.partValue?] at h
  obtain ⟨⟨p, k, w⟩, hmem, hw⟩ := List.exists_of_findSome?_eq_some h
  by_cases hkey : p = part ∧ k = key
  · obtain ⟨rfl, rfl⟩ := hkey
    obtain rfl : w = v := by simpa using hw
    exact hmem
  · simp [hkey] at hw

theorem isSome_partValue?_iff :
    (e.partValue? part key).isSome = true ↔ ∃ v, (part, key, v) ∈ e.parts := by
  constructor
  · intro hsome
    obtain ⟨v, hv⟩ := Option.isSome_iff_exists.mp hsome
    exact ⟨v, mem_of_partValue? hv⟩
  · rintro ⟨v, hmem⟩
    rw [Entry.partValue?, List.findSome?_isSome_iff]
    exact ⟨_, hmem, by simp⟩

theorem mem_partKeysOf_iff :
    key ∈ partKeysOf es part ↔ ∃ e ∈ es, (e.partValue? part key).isSome = true := by
  simp only [partKeysOf, List.mem_eraseDups, List.mem_map, List.mem_filter, List.mem_flatMap,
    isSome_partValue?_iff, beq_iff_eq]
  constructor
  · rintro ⟨⟨p, k, v⟩, ⟨⟨e, he, hmem⟩, rfl⟩, rfl⟩
    exact ⟨e, he, v, hmem⟩
  · rintro ⟨e, he, v, hmem⟩
    exact ⟨_, ⟨⟨e, he, hmem⟩, rfl⟩, rfl⟩

/-- What a row says about a part can stand in a block. -/
theorem isSteady_of_partValue? (h : e.HasSteadyParts) (hvalue : e.partValue? part key = some v) :
    key ∉ listKeys ∧ IsSteady v := by
  obtain ⟨-, hrow, hsteady⟩ := h _ (mem_of_partValue? hvalue)
  exact ⟨not_mem_listKeys_of_isRowKey hrow, hsteady⟩

end Keys

section Backfilling

def partValues (es : List Entry) (part key : String) : List (Option String) :=
  backfill (es.map (·.partValue? part key))

theorem length_partValues (es : List Entry) (part key : String) :
    (partValues es part key).length = es.length := by
  simp [partValues, backfill]

theorem getElem?_partValues (hi : i < es.length) (part key : String) :
    (partValues es part key)[i]? =
      some ((es[i].partValue? part key).or (firstPartValue? es part key)) := by
  simp [partValues, backfill, firstPartValue?, List.findSome?_map, Function.comp_def, hi]

theorem exists_of_firstPartValue? (h : firstPartValue? es part key = some v) :
    ∃ e ∈ es, e.partValue? part key = some v :=
  List.exists_of_findSome?_eq_some h

theorem exists_of_some_mem_partValues (h : some v ∈ partValues es part key) :
    ∃ e ∈ es, e.partValue? part key = some v := by
  obtain ⟨i, hi, hv⟩ := List.getElem_of_mem h
  have hlen : i < es.length := by rwa [length_partValues] at hi
  have hvalue := getElem?_partValues hlen part key
  rw [List.getElem?_eq_getElem hi, hv] at hvalue
  rcases Option.or_eq_some_iff.mp (Option.some.inj hvalue).symm with hown | ⟨-, hfirst⟩
  · exact ⟨es[i], List.getElem_mem hlen, hown⟩
  · exact exists_of_firstPartValue? hfirst

theorem isSteady_of_mem_partValues (hsteady : ∀ e ∈ es, e.HasSteadyParts)
    (h : some v ∈ partValues es part key) : key ∉ listKeys ∧ IsSteady v := by
  obtain ⟨e, he, hvalue⟩ := exists_of_some_mem_partValues h
  exact isSteady_of_partValue? (hsteady e he) hvalue

theorem mem_partKeysOf_iff_exists :
    key ∈ partKeysOf es part ↔ ∃ v, some v ∈ partValues es part key := by
  rw [mem_partKeysOf_iff]
  constructor
  · rintro ⟨e, he, hsome⟩
    obtain ⟨v, hv⟩ := Option.isSome_iff_exists.mp hsome
    obtain ⟨i, hi, rfl⟩ := List.getElem_of_mem he
    have hvalue := getElem?_partValues hi part key
    rw [hv, Option.some_or] at hvalue
    exact ⟨v, List.mem_of_getElem? hvalue⟩
  · rintro ⟨v, hv⟩
    obtain ⟨e, he, hvalue⟩ := exists_of_some_mem_partValues hv
    exact ⟨e, he, Option.isSome_iff_exists.mpr ⟨v, hvalue⟩⟩

end Backfilling

section Blocks

theorem collapses_partMap (hsteady : ∀ e ∈ es, e.HasSteadyParts) (part key : String) :
    Collapses (partValues es part key) (partMap es part) key := by
  have hsplit : Sheet.splitValues (", ".intercalate (collapse (partValues es part key))) =
      collapse (partValues es part key) :=
    Sheet.splitValues_intercalate
      (isValue_of_mem_collapse fun v hv => (isSteady_of_mem_partValues hsteady hv).2)
  refine collapses_of_get? mem_partKeysOf_iff_exists ?_
  rw [← hsplit]
  exact get?_ofList_spread (partKeysOf es part) (fun k => collapse (partValues es part k)) key

theorem isEven_partMap (hsteady : ∀ e ∈ es, e.HasSteadyParts) (part : String) :
    IsEven es.length (partMap es part) := by
  intro key _ vs hvs
  rw [← length_partValues es part key]
  exact (collapses_partMap hsteady part key).length_eq hvs

/-- A row finds what it said about a part, and else what the first row said. -/
theorem get?_rowAt_partMap (hsteady : ∀ e ∈ es, e.HasSteadyParts) (hi : i < es.length)
    (part key : String) : (rowAt (partMap es part) i).get? key =
      (es[i].partValue? part key).or (firstPartValue? es part key) := by
  refine (collapses_partMap hsteady part key).get?_rowAt (fun v hv => ?_)
    (getElem?_partValues hi part key)
  obtain ⟨hkey, hsteady⟩ := isSteady_of_mem_partValues hsteady hv
  exact ⟨hkey, hsteady.ne_none⟩

theorem mem_mergeParts_iff {p : Sheet.OutlinePart} :
    p ∈ mergeParts es ↔ (∃ e ∈ es, ∃ x ∈ e.parts, x.1 = p.part) ∧ p = mergePart es p.part := by
  simp only [mergeParts, List.mem_map, List.mem_eraseDups, List.mem_flatMap]
  constructor
  · rintro ⟨part, hused, rfl⟩
    exact ⟨hused, rfl⟩
  · rintro ⟨hused, hp⟩
    exact ⟨p.part, hused, hp.symm⟩

/-- The block of a part has properties. -/
theorem isEmpty_partMap (h : ∃ e ∈ es, ∃ x ∈ e.parts, x.1 = part) :
    (partMap es part).isEmpty = false := by
  obtain ⟨e, he, ⟨p, k, v⟩, hmem, rfl⟩ := h
  have hkey : k ∈ partKeysOf es p :=
    mem_partKeysOf_iff.mpr ⟨e, he, isSome_partValue?_iff.mpr ⟨v, hmem⟩⟩
  have hkeys := List.ne_nil_of_mem hkey
  refine KeyMap.isEmpty_ofList ?_
  simpa [Sheet.spread, mergePart, partKeysOf] using hkeys

end Blocks

end CartoStyle.Style
