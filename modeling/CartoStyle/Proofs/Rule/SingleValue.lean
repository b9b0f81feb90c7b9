import CartoStyle.Proofs.Fault
import CartoStyle.Proofs.Rule.Assembly
import CartoStyle.Proofs.Rule.Parts

/-!
Single values in the blocks of parts. The properties of such a block are split into rows of
their own, and a value for the symbolizer of some index is looked for in the row of that index.
A single value stands in each of these rows, so it is found as far as they reach; only if there
is one row alone does it stand for all symbolizers of a rule.
-/

namespace CartoStyle.Rule

open Sheet

/-- Some pseudo-selector speaks about a part of the symbolizer of an index. -/
def Parts.Names (parts : Parts) (part : String) (index : Nat) : Prop :=
  ∃ x ∈ parts, (x.1.part, x.1.index) ∈ candidates part index

variable {parts : Parts} {r : Record} {part key v : String} {i : Nat}

section Lookup

/-- A pseudo-selector that names no symbolizer speaks about the part of each. -/
theorem Parts.names_of_index_eq_none {x : PseudoSelector × Record} (hx : x ∈ parts)
    (hpart : x.1.part = part) (hindex : x.1.index = none) (i : Nat) : parts.Names part i :=
  ⟨x, hx, by simp [candidates, hpart, hindex]⟩

/-- If all pseudo-selectors are those of one record, a value is found if they speak about the
part and the record has the value in the row of the index. -/
theorem Parts.value?_eq_some_iff (honly : ∀ x ∈ parts, x.2 = r) :
    parts.value? part i key = some v ↔
      parts.Names part i ∧ (r.rowFor? i).bind (·.get? key) = some v := by
  constructor
  · intro h
    obtain ⟨⟨name, position⟩, hcandidate, hfound⟩ := List.exists_of_findSome?_eq_some h
    obtain ⟨⟨p, record⟩, hx, hvalue⟩ := List.exists_of_findSome?_eq_some hfound
    obtain rfl : record = r := honly _ hx
    by_cases hname : p.part = name ∧ p.index = position
    · obtain ⟨rfl, rfl⟩ := hname
      exact ⟨⟨_, hx, hcandidate⟩, by simpa using hvalue⟩
    · simp [hname] at hvalue
  · rintro ⟨⟨x, hx, hcandidate⟩, hvalue⟩
    -- Whatever is found comes from the one record, so the order of the names does not matter.
    have hsame : ∀ c : String × Option Nat, ∀ y ∈ parts,
        (if y.1.part == c.1 && y.1.index == c.2 then (y.2.rowFor? i).bind (·.get? key)
          else none) = none ∨
        (if y.1.part == c.1 && y.1.index == c.2 then (y.2.rowFor? i).bind (·.get? key)
          else none) = some v := by
      intro c y hy
      rw [honly y hy, hvalue]
      split
      · exact Or.inr rfl
      · exact Or.inl rfl
    refine findSome?_eq_of_agree (fun c _ => findSome?_eq_none_or (hsame c)) fun _ => ?_
    refine ⟨_, hcandidate, findSome?_eq_of_agree (hsame (x.1.part, x.1.index)) fun _ => ?_⟩
    exact ⟨x, hx, by simp [honly x hx, hvalue]⟩

end Lookup

section Rows

/-- A single value stands in every row. -/
theorem get?_rowAt_single {m : PropertyMap} (hvalue : m.get? key = some [v]) (hv : v ≠ "none")
    (i : Nat) : (rowAt m i).get? key = some v := by
  have hat : valueAt? i key [v] = some v := by
    by_cases hkey : key ∈ listKeys
    · rw [valueAt?_listKey hkey, String.intercalate_singleton]
    · exact valueAt?_single hkey v
  rw [rowAt, KeyMap.get?_filterMap, hvalue, Option.bind_some, hat]
  simp [hv]

theorem get?_splitRows_single {m : PropertyMap} (hvalue : m.get? key = some [v])
    (hv : v ≠ "none") :
    (splitRows m)[i]?.bind (·.get? key) = some v ↔ i < (splitRows m).length := by
  rw [length_splitRows]
  constructor
  · intro h
    by_contra hout
    rw [List.getElem?_eq_none (by rw [length_splitRows]; omega)] at h
    cases h
  · intro hi
    rw [getElem?_splitRows hi]
    exact get?_rowAt_single hvalue hv i

/-- A record has its single value for an index if it has one row alone or a row of that index. -/
theorem Record.get?_rowFor?_single (hrows : r.rows = splitRows r.properties)
    (hvalue : r.properties.get? key = some [v]) (hv : v ≠ "none") :
    (r.rowFor? i).bind (·.get? key) = some v ↔ r.rows.length = 1 ∨ i < r.rows.length := by
  rw [Record.rowFor?_eq, hrows]
  by_cases hone : (splitRows r.properties).length = 1
  · rw [if_pos hone, get?_splitRows_single hvalue hv]
    omega
  · rw [if_neg hone, get?_splitRows_single hvalue hv]
    omega

theorem rows_of_mem_recordsOfAll {bs : List Block} (h : r ∈ recordsOfAll {} bs) :
    r.rows = splitRows r.properties := by
  obtain ⟨branch, -, hgives⟩ := exists_of_forall₂ (forall₂_recordsOfAll {} bs) h
  obtain ⟨b, -, rfl⟩ := hgives
  rfl

/-- The rows of a record about parts are those of its block. -/
theorem rows_of_mem_pseudo {s : Stylesheet} (h : r ∈ (Records.ofSheet s).pseudo) :
    r.rows = splitRows r.properties := by
  rw [Records.ofSheet_eq] at h
  exact rows_of_mem_recordsOfAll (List.mem_filter.mp h).1

end Rows

/-- A single value in the only block for parts that applies to a rule is found for all its
symbolizers exactly if the block speaks about the part of each and has one row alone, or else
no fewer rows than the rule. -/
theorem forall_value?_eq_single_iff {s : Stylesheet} {rule r : Record}
    (hr : r ∈ (Records.ofSheet s).pseudo)
    (honly : ∀ x ∈ Parts.ofRecords rule (Records.ofSheet s).pseudo, x.2 = r)
    (hvalue : r.properties.get? key = some [v]) (hv : v ≠ "none") :
    (∀ i < rule.rows.length,
        (Parts.ofRecords rule (Records.ofSheet s).pseudo).value? part i key = some v) ↔
      (∀ i < rule.rows.length, (Parts.ofRecords rule (Records.ofSheet s).pseudo).Names part i) ∧
        (r.rows.length = 1 ∨ rule.rows.length ≤ r.rows.length) := by
  have hindex {i : Nat} :
      (Parts.ofRecords rule (Records.ofSheet s).pseudo).value? part i key = some v ↔
        (Parts.ofRecords rule (Records.ofSheet s).pseudo).Names part i ∧
          (r.rows.length = 1 ∨ i < r.rows.length) := by
    rw [Parts.value?_eq_some_iff honly,
      Record.get?_rowFor?_single (rows_of_mem_pseudo hr) hvalue hv]
  constructor
  · intro h
    refine ⟨fun i hi => (hindex.mp (h i hi)).1, ?_⟩
    -- The first index without a row in the block is no index of the rule.
    by_contra hshort
    rcases (hindex.mp (h r.rows.length (by omega))).2 with hone | hlt <;> omega
  · rintro ⟨hnames, hrows⟩ i hi
    exact hindex.mpr ⟨hnames i hi, by omega⟩

section Shading

/-- Marks with a block that has one colour for their fill and two for their outline. -/
def shadedSheet (marks : List String) : Stylesheet where
  blocks := [⟨["*"], none, .ofList [("mark", marks)], 1, 0, 1,
    [⟨[":mark"], none, .ofList [("fill", ["red"]), ("stroke", ["black", "white"])], 2, 0, 2, []⟩]⟩]

def markRecord (marks : List String) : Record where
  selectors := ["*"]
  properties := .ofList [("mark", marks)]
  rows := splitRows (.ofList [("mark", marks)])
  title := none
  level := 1
  group := 0
  id := 1

def shadeRecord : Record where
  selectors := ["*:mark"]
  properties := .ofList [("fill", ["red"]), ("stroke", ["black", "white"])]
  rows := splitRows (.ofList [("fill", ["red"]), ("stroke", ["black", "white"])])
  title := none
  level := 2
  group := 0
  id := 2

theorem ofSheet_shadedSheet (marks : List String) :
    Records.ofSheet (shadedSheet marks) = ⟨[markRecord marks], [shadeRecord]⟩ := by
  with_unfolding_all rfl

theorem ofRecords_shadedSheet (marks : List String) :
    Parts.ofRecords (markRecord marks) (Records.ofSheet (shadedSheet marks)).pseudo =
      [({ base := "*", part := "mark", index := none }, shadeRecord)] := by
  rw [ofSheet_shadedSheet]
  with_unfolding_all rfl

theorem parts_shadedSheet (marks : List String) :
    (∀ x ∈ Parts.ofRecords (markRecord marks) (Records.ofSheet (shadedSheet marks)).pseudo,
      x.2 = shadeRecord) ∧
    ∃ x ∈ Parts.ofRecords (markRecord marks) (Records.ofSheet (shadedSheet marks)).pseudo,
      x.1.part = "mark" ∧ x.1.index = none := by
  rw [ofRecords_shadedSheet]
  simp

theorem mem_pseudo_shadedSheet (marks : List String) :
    shadeRecord ∈ (Records.ofSheet (shadedSheet marks)).pseudo := by
  rw [ofSheet_shadedSheet]
  exact List.mem_singleton_self _

theorem get?_fill_shadeRecord : shadeRecord.properties.get? "fill" = some ["red"] := by
  decide

theorem length_rows_shadeRecord : shadeRecord.rows.length = 2 := by
  rw [shadeRecord, length_splitRows]
  decide

def twoMarks : List String := ["symbol(circle)", "symbol(square)"]

def threeMarks : List String := ["symbol(circle)", "symbol(square)", "symbol(star)"]

def threeMarksSource : String :=
  "* \x7b mark: symbol(circle), symbol(square), symbol(star);
     :mark \x7b fill: red; stroke: black, white; \x7d \x7d"

/-- With one mark for each row of the block, every mark is red. -/
theorem forall_value?_fill_twoMarks :
    (markRecord twoMarks).rows.length = 2 ∧
      shadeRecord.properties.get? "fill" = some ["red"] ∧
      shadeRecord.properties.get? "stroke" = some ["black", "white"] ∧
      (∀ x ∈ Parts.ofRecords (markRecord twoMarks) (Records.ofSheet (shadedSheet twoMarks)).pseudo,
        x.2 = shadeRecord) ∧
      ∀ i < (markRecord twoMarks).rows.length,
        (Parts.ofRecords (markRecord twoMarks)
          (Records.ofSheet (shadedSheet twoMarks)).pseudo).value? "mark" i "fill" = some "red" := by
  obtain ⟨honly, x, hx, hpart, hindex⟩ := parts_shadedSheet twoMarks
  have hlength : (markRecord twoMarks).rows.length = 2 := by
    rw [markRecord, length_splitRows]
    decide
  refine ⟨hlength, get?_fill_shadeRecord, by decide, honly, ?_⟩
  exact (forall_value?_eq_single_iff (mem_pseudo_shadedSheet twoMarks) honly get?_fill_shadeRecord
    (by decide)).mpr ⟨fun i _ => Parts.names_of_index_eq_none hx hpart hindex i,
      by rw [hlength, length_rows_shadeRecord]; decide⟩

/-- With a third mark, a block of two rows leaves it without its single value. -/
theorem not_forall_value?_eq_single :
    ¬ ∀ (source : String) (s : Stylesheet) (rule r : Record) (part key v : String),
      Stylesheet.parse source = .ok s → rule ∈ (Records.ofSheet s).rules →
      r ∈ (Records.ofSheet s).pseudo → ¬ "nth-".toList <+: part.toList →
      (∀ x ∈ Parts.ofRecords rule (Records.ofSheet s).pseudo, x.2 = r) →
      (∃ x ∈ Parts.ofRecords rule (Records.ofSheet s).pseudo,
        x.1.part = part ∧ x.1.index = none) →
      r.properties.get? key = some [v] → v ≠ "none" → ∀ i < rule.rows.length,
        (Parts.ofRecords rule (Records.ofSheet s).pseudo).value? part i key = some v := by
  intro hclaim
  obtain ⟨honly, hnamed⟩ := parts_shadedSheet threeMarks
  have hparse : Stylesheet.parse threeMarksSource = .ok (shadedSheet threeMarks) := by
    with_unfolding_all rfl
  have hmem : markRecord threeMarks ∈ (Records.ofSheet (shadedSheet threeMarks)).rules := by
    rw [ofSheet_shadedSheet]
    exact List.mem_singleton_self _
  have hlength : (markRecord threeMarks).rows.length = 3 := by
    rw [markRecord, length_splitRows]
    decide
  have hthird := hclaim _ _ _ _ _ _ _ hparse hmem (mem_pseudo_shadedSheet threeMarks) (by decide)
    honly hnamed get?_fill_shadeRecord (by decide) 2 (by omega)
  have hrow := ((Parts.value?_eq_some_iff honly).mp hthird).2
  rw [Record.get?_rowFor?_single rfl get?_fill_shadeRecord (by decide),
    length_rows_shadeRecord] at hrow
  omega

end Shading

end CartoStyle.Rule
