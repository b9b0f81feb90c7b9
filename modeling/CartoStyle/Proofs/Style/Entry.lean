import CartoStyle.Proofs.Sheet.Declaration
import CartoStyle.Proofs.Style.Field

/-!
What the symbolizers of a row say. A property is found under its key alone, so
what a symbolizer wrote is found again in a row it shares with a label, whose
keys are its own. Every value can stand in a row of a rule.
-/

namespace CartoStyle.Style

open Decimal Lexeme PropertyValue

theorem lookup_property (key k : String) (v : Option String) :
    (property key v).lookup k = if k = key then v else none := by
  cases v with
  | none => simp [property]
  | some v =>
    by_cases h : k = key
    · simp [property, h]
    · simp [property, List.lookup_cons, beq_eq_false_iff_ne.mpr h, h]

theorem forall_mem_property {P : String × String → Prop} {key : String} {v : Option String} :
    (∀ p ∈ property key v, P p) ↔ ∀ x ∈ v, P (key, x) := by
  cases v <;> simp [property]

theorem findSome?_partProperty (part key p k : String) (v : Option String) :
    (partProperty part key v).findSome?
      (fun (p', k', v) => if p' = p ∧ k' = k then some v else none) =
      if part = p ∧ key = k then v else none := by
  cases v <;> simp [partProperty]

theorem forall_mem_partProperty {P : String × String × String → Prop} {part key : String}
    {v : Option String} : (∀ p ∈ partProperty part key v, P p) ↔ ∀ x ∈ v, P (part, key, x) := by
  cases v <;> simp [partProperty]

def labelKeys : List String :=
  ["label", "font-family", "font-size", "font-style", "font-weight", "font-fill", "halo-radius",
    "halo-color", "halo-opacity", "label-offset", "label-rotation"]

/-- The parts that symbolizers speak about, which are also the keys of graphics. -/
def partNames : List String := ["mark", "stroke", "fill"]

theorem eq_of_mem_partNames {key : String} (h : key ∈ partNames) :
    key = "mark" ∨ key = "stroke" ∨ key = "fill" := by
  simpa [partNames] using h

/-- The text lists values for all rows of a rule. -/
def IsListing (text : String) : Prop :=
  ∃ ts : List String, ts ≠ [] ∧ (∀ t ∈ ts, IsSteady t) ∧ text = ", ".intercalate ts

/-- A list of values is read item by item. -/
theorem mapM_splitTopLevel_intercalate {α : Type} {f : String → Except Error α} {ts : List String}
    (hne : ts ≠ []) (h : ∀ t ∈ ts, IsSteady t) :
    (Text.splitTopLevel ',' (", ".intercalate ts)).mapM (fun t => f (Text.trim t)) =
      ts.mapM f := by
  have hparts := Text.areParts_of_forall (by simpa using hne)
    (List.forall_mem_map.mpr fun t ht => (h t ht).isValue.part)
  have hsplit := Text.map_trim_splitTopLevel_intercalate hparts fun t ht => (h t ht).trimmed
  have hmap := List.mapM_map (f := Text.trim) (g := f)
    (l := Text.splitTopLevel ',' (", ".intercalate ts))
  rw [hsplit] at hmap
  exact hmap.symm

def isRowKey (key : String) : Bool :=
  Sheet.Token.families.any (fun family => family.toList.isPrefixOf key.toList) &&
    key.toList.all Sheet.Token.isKeyChar && !CartoStyle.Rule.listKeys.contains key

def IsCell (p : String × String) : Prop :=
  Sheet.Token.IsKey p.1 ∧
    if p.1 ∈ CartoStyle.Rule.listKeys then IsListing p.2 else IsSteady p.2

def Entry.HasSteadyParts (e : Entry) : Prop :=
  ∀ p ∈ e.parts, p.1 ∈ partNames ∧ isRowKey p.2.1 = true ∧ PropertyValue.IsSteady p.2.2

structure Entry.IsSteady (e : Entry) : Prop where
  properties : ∀ p ∈ e.properties, IsCell p
  parts : ∀ p ∈ e.parts, p.1 ∈ partNames ∧ isRowKey p.2.1 = true ∧ PropertyValue.IsSteady p.2.2

theorem isKey_of_isRowKey {key : String} (h : isRowKey key = true) : Sheet.Token.IsKey key := by
  simp only [isRowKey, Bool.and_eq_true, List.any_eq_true, List.isPrefixOf_iff_prefix] at h
  obtain ⟨⟨⟨family, hfamily, word, hword⟩, hchars⟩, -⟩ := h
  refine ⟨family, hfamily, word, hword.symm, fun c hc => List.all_eq_true.mp hchars c ?_⟩
  rw [← hword]
  exact List.mem_append_right _ hc

theorem not_mem_listKeys_of_isRowKey {key : String} (h : isRowKey key = true) :
    key ∉ CartoStyle.Rule.listKeys := by
  simp only [isRowKey, Bool.and_eq_true, Bool.not_eq_true', List.contains_eq_mem,
    decide_eq_false_iff_not] at h
  exact h.2

theorem isCell_of_isRowKey {key v : String} (hkey : isRowKey key = true) (h : IsSteady v) :
    IsCell (key, v) := by
  refine ⟨isKey_of_isRowKey hkey, ?_⟩
  rw [if_neg (not_mem_listKeys_of_isRowKey hkey)]
  exact h

theorem isCell_of_isListing {key v : String} (hkey : Sheet.Token.IsKey key)
    (hlist : key ∈ CartoStyle.Rule.listKeys) (h : IsListing v) : IsCell (key, v) := by
  refine ⟨hkey, ?_⟩
  rw [if_pos hlist]
  exact h

theorem isCell_property {key : String} {value : Option String} (hkey : isRowKey key = true)
    (h : ∀ v ∈ value, IsSteady v) : ∀ p ∈ property key value, IsCell p :=
  forall_mem_property.mpr fun v hv => isCell_of_isRowKey hkey (h v hv)

theorem isSteady_partProperty {part key : String} {value : Option String}
    (hpart : part ∈ partNames) (hkey : isRowKey key = true) (h : ∀ v ∈ value, IsSteady v) :
    ∀ p ∈ partProperty part key value,
      p.1 ∈ partNames ∧ isRowKey p.2.1 = true ∧ IsSteady p.2.2 :=
  forall_mem_partProperty.mpr fun v hv => ⟨hpart, hkey, h v hv⟩

theorem Entry.IsSteady.append {a b : Entry} (ha : a.IsSteady) (hb : b.IsSteady) :
    (a.append b).IsSteady where
  properties := List.forall_mem_append.mpr ⟨ha.properties, hb.properties⟩
  parts := List.forall_mem_append.mpr ⟨ha.parts, hb.parts⟩

theorem lookup_append (a b : Entry) (key : String) :
    (a.append b).properties.lookup key = (a.properties.lookup key).or (b.properties.lookup key) :=
  List.lookup_append

theorem partValue?_append (a b : Entry) (part key : String) :
    (a.append b).partValue? part key = (a.partValue? part key).or (b.partValue? part key) :=
  List.findSome?_append

/-- The row and the parts say what the entry says, but for the keys of labels. -/
structure Instance.Draws (i : Instance) (e : Entry) : Prop where
  raw : ∀ key, key ∉ labelKeys → i.raw? key = e.properties.lookup key
  part : ∀ part ∈ partNames, ∀ key, i.part? part key = e.partValue? part key

section Reading

variable {i : Instance} {key : String}

theorem Instance.number_eq {x : Option Float} (h : i.raw? key = numberText x)
    (hx : ∀ y ∈ x, IsNumber y) : i.number key = .ok x := by
  rw [Instance.number, h, numberOf_numberText hx]

theorem Instance.numbers_eq {xs : Option (List Float)} (hkey : key ≠ "label")
    (h : i.raw? key = numbersText xs) (hxs : ∀ ys ∈ xs, IsNumbers ys) :
    i.numbers key = .ok xs := by
  rw [Instance.numbers, h, numbersOf_numbersText hkey hxs]

theorem Instance.text_eq {s : Option String} (h : i.raw? key = wordText s)
    (hs : ∀ t ∈ s, IsQuotable t) : i.text key = .ok s := by
  rw [Instance.text, h, textOf_wordText hs]

theorem Instance.color_eq {color : Option String} (h : i.raw? key = colorText color)
    (hcolor : ∀ c ∈ color, IsColor c) : color? <$> i.expression key = .ok color := by
  rw [Instance.expression, h, color?_expressionOf hcolor]

end Reading

end CartoStyle.Style
