import CartoStyle.Proofs.Rule.Records
import CartoStyle.Proofs.Rule.Row

/-!
The parts of a rule of an outline. They are the parts that stand in its block, each once for
every selector of the rule, and a key of a part is looked up in the properties under its name.
-/

namespace CartoStyle.Rule

open Sheet

section Lookup

variable {parts : Parts} {part key : String} {index : Nat}

theorem findSome?_eq_none_or {α β : Type} {f : α → Option β} {xs : List α} {v : Option β}
    (hall : ∀ x ∈ xs, f x = none ∨ f x = v) : xs.findSome? f = none ∨ xs.findSome? f = v := by
  cases hfound : xs.findSome? f with
  | none => exact Or.inl rfl
  | some w =>
    obtain ⟨x, hx, hfx⟩ := List.exists_of_findSome?_eq_some hfound
    rcases hall x hx with hnone | hv
    · rw [hnone] at hfx
      cases hfx
    · exact Or.inr (hfx.symm.trans hv)

/-- What all items agree on is found, if one of them has it. -/
theorem findSome?_eq_of_agree {α β : Type} {f : α → Option β} {xs : List α} {v : Option β}
    (hall : ∀ x ∈ xs, f x = none ∨ f x = v) (hsome : v.isSome = true → ∃ x ∈ xs, f x = v) :
    xs.findSome? f = v := by
  rcases findSome?_eq_none_or hall with hnone | hv
  · cases v with
    | none => exact hnone
    | some w =>
      obtain ⟨x, hx, hfx⟩ := hsome rfl
      rw [List.findSome?_eq_none_iff.mp hnone x hx] at hfx
      cases hfx
  · exact hv

/-- Parts that name no symbolizer are found by their names alone. -/
theorem Parts.value?_eq_findSome? (h : ∀ x ∈ parts, x.1.index = none ∧ x.1.part ≠ "symbol") :
    parts.value? part index key = parts.findSome? fun x =>
      if x.1.part == part && x.1.index == none then
        (x.2.rowFor? index).bind (·.get? key) else none := by
  have hindexed (name : String) (n : Nat) : (parts.findSome? fun x =>
      if x.1.part == name && x.1.index == some n then
        (x.2.rowFor? index).bind (·.get? key) else none) = none :=
    List.findSome?_eq_none_iff.mpr fun x hx => by simp [(h x hx).1]
  have hsymbol : (parts.findSome? fun x =>
      if x.1.part == "symbol" && x.1.index == none then
        (x.2.rowFor? index).bind (·.get? key) else none) = none :=
    List.findSome?_eq_none_iff.mpr fun x hx => by simp [(h x hx).2]
  simp only [Parts.value?, candidates, List.findSome?_cons, List.findSome?_nil, hindexed, hsymbol]
  cases parts.findSome? _ <;> rfl

end Lookup

section Scope

variable {rule : Record} {pseudo : List Record} {x : PseudoSelector × Record}

theorem mem_ofRecords_iff : x ∈ Parts.ofRecords rule pseudo ↔ x.2 ∈ pseudo ∧
    appliesTo rule x.2 x.1 = true ∧
      ∃ selector ∈ x.2.selectors, PseudoSelector.parse? selector = some x.1 := by
  simp only [Parts.ofRecords, List.mem_flatMap, List.mem_map, List.mem_filter,
    List.mem_filterMap]
  constructor
  · rintro ⟨record, hrecord, p, ⟨hselector, happlies⟩, rfl⟩
    exact ⟨hrecord, happlies, hselector⟩
  · rintro ⟨hrecord, happlies, hselector⟩
    exact ⟨x.2, hrecord, x.1, ⟨hselector, happlies⟩, rfl⟩

variable {rules : List OutlineRule} {r : OutlineRule} {s : Stylesheet} {i : Nat}

/-- A part of another rule applies nowhere else. -/
theorem appliesTo_recordOf {q : OutlineRule} {k id : Nat} {p : OutlinePart} {base part : String}
    {index : Option Nat} (h : appliesTo (recordOf r i) (partRecordOf q k p id)
      { base, part, index } = true) : k = i := by
  simp only [appliesTo, recordOf, partRecordOf, Bool.and_eq_true, Bool.or_eq_true, beq_iff_eq] at h
  rcases h.1 with hgroup | hlevel
  · exact hgroup
  · cases hlevel

/-- The parts that apply to a rule are those of its block. -/
theorem mem_ofRecords_recordOf_iff (hblocks : s.blocks = rules.mapIdx fun i r => r.block i)
    (hrules : ∀ r ∈ rules, IsRecordable r) (hr : rules[i]? = some r) :
    x ∈ Parts.ofRecords (recordOf r i) (Records.ofSheet s).pseudo ↔
      ∃ (j : Nat) (p : OutlinePart), r.parts[j]? = some p ∧ ∃ base ∈ r.selectors,
        x = ({ base, part := p.part, index := none }, partRecordOf r i p (2 + j)) := by
  have hpseudo := (records_ofSheet hblocks hrules).2
  rw [mem_ofRecords_iff]
  constructor
  · rintro ⟨hmem, happlies, selector, hselector, hparse⟩
    obtain ⟨k, q, j, p, hq, hp, hx⟩ := (hpseudo _).mp hmem
    obtain ⟨pseudo, record⟩ := x
    obtain rfl : record = partRecordOf q k p (2 + j) := hx
    obtain ⟨base, hbase, rfl⟩ := List.mem_map.mp hselector
    have hmemq := List.mem_of_getElem? hq
    rw [(hrules q hmemq).parse?_part (List.mem_of_getElem? hp) hbase] at hparse
    obtain rfl := Option.some.inj hparse
    obtain rfl := appliesTo_recordOf happlies
    obtain rfl : q = r := Option.some.inj (hq.symm.trans hr)
    exact ⟨j, p, hp, base, hbase, rfl⟩
  · rintro ⟨j, p, hp, base, hbase, rfl⟩
    have hmemr := List.mem_of_getElem? hr
    refine ⟨(hpseudo _).mpr ⟨i, r, j, p, hr, hp, rfl⟩, ?_, base ++ (":" ++ p.part),
      List.mem_map_of_mem hbase, (hrules r hmemr).parse?_part (List.mem_of_getElem? hp) hbase⟩
    simp [appliesTo, recordOf, partRecordOf, hbase]

/-- The value of a key for a part is what all blocks for the part have under the key. -/
theorem value?_ofRecords (hblocks : s.blocks = rules.mapIdx fun i r => r.block i)
    (hrules : ∀ r ∈ rules, IsRecordable r) (hr : rules[i]? = some r)
    (hnames : ∀ p ∈ r.parts, p.part ≠ "symbol") {part key : String} {index : Nat}
    {v : Option String}
    (hsame : ∀ p ∈ r.parts, p.part = part → ∀ id,
      ((partRecordOf r i p id).rowFor? index).bind (·.get? key) = v)
    (hsome : v.isSome = true → ∃ p ∈ r.parts, p.part = part) :
    (Parts.ofRecords (recordOf r i) (Records.ofSheet s).pseudo).value? part index key = v := by
  have hmem {x} := mem_ofRecords_recordOf_iff (x := x) hblocks hrules hr
  rw [Parts.value?_eq_findSome?]
  · refine findSome?_eq_of_agree (fun x hx => ?_) fun hv => ?_
    · obtain ⟨j, p, hp, base, -, rfl⟩ := hmem.mp hx
      by_cases hpart : p.part = part
      · exact Or.inr (by simpa [hpart] using hsame p (List.mem_of_getElem? hp) hpart _)
      · exact Or.inl (by simp [hpart])
    · obtain ⟨p, hp, hpart⟩ := hsome hv
      obtain ⟨j, hj, rfl⟩ := List.getElem_of_mem hp
      obtain ⟨base, hbase⟩ := List.exists_mem_of_ne_nil _
        (hrules r (List.mem_of_getElem? hr)).selectors_ne_nil
      refine ⟨_, hmem.mpr ⟨j, _, List.getElem?_eq_getElem hj, base, hbase, rfl⟩, ?_⟩
      simpa [hpart] using hsame _ hp hpart _
  · intro x hx
    obtain ⟨j, p, hp, base, -, rfl⟩ := hmem.mp hx
    exact ⟨rfl, hnames p (List.mem_of_getElem? hp)⟩

end Scope

end CartoStyle.Rule
