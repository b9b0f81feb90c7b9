import CartoStyle.Proofs.Fault
import CartoStyle.Proofs.Value.Closed
import CartoStyle.Proofs.Value.Rendering
import CartoStyle.Style.OfRow
import CartoStyle.Style.Outline

/-!
The fields of symbolizers and the values they are written as. For every kind of
field the value text is read back, an absent one as absent, and it can stand in
a row: it is closed, trimmed and not the word for absent values.
-/

namespace CartoStyle.Style

open Decimal Lexeme PropertyValue

def IsColor (color : String) : Prop :=
  IsHex color ∨ color.toList.head? ≠ some '#' ∧ IsQuotable color

structure IsNumbers (xs : List Float) : Prop where
  ne_nil : xs ≠ []
  numbers : ∀ x ∈ xs, IsNumber x

/-- The number can be written twice as large and halved again. -/
structure IsRadius (x : Float) : Prop where
  double : IsNumber (x * 2.0)
  halve : x * 2.0 / 2.0 = x

section Reading

variable {key : String}

theorem valueText_number (x : Float) : (Expression.number x).valueText = display x := by
  rw [Expression.number, Expression.valueText, Expression.literalText]

theorem valueOf_eq {α : Type} {fault : ValueFault} {find : Value → Option α} {text : String}
    {e : Expression} {found : α} (hparse : PropertyValue.parse key text = .ok e)
    (hfind : find e.read = some found) : valueOf fault find key (some text) = .ok (some found) := by
  simp only [valueOf, hparse, bind, Except.bind, hfind]
  rfl

theorem numberOf_numberText {x : Option Float} (h : ∀ y ∈ x, IsNumber y) :
    numberOf key (numberText x) = .ok x := by
  cases x with
  | none => rfl
  | some y =>
    have hparse : PropertyValue.parse key (Expression.number y).valueText = .ok (.number y) :=
      parse_atom (.number (h y rfl))
    rw [valueText_number] at hparse
    exact valueOf_eq hparse rfl

theorem textOf_wordText {s : Option String} (h : ∀ t ∈ s, IsQuotable t) :
    textOf key (wordText s) = .ok s := by
  cases s with
  | none => rfl
  | some t => exact valueOf_eq (parse_atom (.text (h t rfl))) rfl

theorem readAll_eq_map (es : List Expression) :
    Expression.readAll es = es.map Expression.read := by
  induction es with
  | nil => rfl
  | cons e es ih => rw [Expression.readAll, ih, List.map_cons]

theorem toList_read_whole {es : List Expression} (hkey : key ≠ "label") (hne : es ≠ [])
    (h : ∀ e ∈ es, e.read.toList = [e.read]) :
    (whole key es).read.toList = es.map Expression.read := by
  match es, hne with
  | [e], _ => exact h e List.mem_cons_self
  | e :: f :: es, _ =>
    have hwhole : whole key (e :: f :: es) =
        .apply (if key = "label" then .text else .array) (e :: f :: es) := rfl
    rw [hwhole, if_neg hkey]
    exact readAll_eq_map _

theorem map_valueText_number (xs : List Float) :
    (xs.map Expression.number).map Expression.valueText = xs.map display := by
  rw [List.map_map]
  exact List.map_congr_left fun x _ => valueText_number x

theorem valueText_numbers (xs : List Float) :
    (Expression.array (xs.map .number)).valueText = " ".intercalate (xs.map display) := by
  rw [Expression.array, Expression.valueText, valueTexts_eq_map, map_valueText_number]

theorem mapM_asNumber? (xs : List Float) :
    (xs.map Value.number).mapM Value.asNumber? = some xs := by
  induction xs with
  | nil => rfl
  | cons x xs ih =>
    rw [List.map_cons, List.mapM_cons, ih]
    rfl

/-- Numbers in a row are read back. -/
theorem valueOf_numbers {xs : List Float} (hkey : key ≠ "label") (h : IsNumbers xs) :
    numbersOf key (some (" ".intercalate (xs.map display))) = .ok (some xs) := by
  have hne : xs.map Expression.number ≠ [] := by simpa using h.ne_nil
  have hparse : PropertyValue.parse key (whole key (xs.map .number)).valueText =
      .ok (whole key (xs.map .number)) :=
    parse_whole _ hne (List.forall_mem_map.mpr fun x hx => .number (h.numbers x hx))
  rw [valueText_whole _ hne, map_valueText_number] at hparse
  refine valueOf_eq hparse ?_
  rw [toList_read_whole hkey hne (List.forall_mem_map.mpr fun _ _ => rfl), List.map_map]
  exact mapM_asNumber? xs

theorem numbersOf_numbersText {xs : Option (List Float)} (hkey : key ≠ "label")
    (h : ∀ ys ∈ xs, IsNumbers ys) : numbersOf key (numbersText xs) = .ok xs := by
  cases xs with
  | none => rfl
  | some ys =>
    rw [numbersText, Option.map_some, valueText_numbers]
    exact valueOf_numbers hkey (h ys rfl)

theorem IsColor.expression_cases {color : String} (h : IsColor color) :
    (IsHex color ∧ colorExpression color = .hex color) ∨
      (IsQuotable color ∧ colorExpression color = .text color) := by
  rcases h with hhex | ⟨hhead, htext⟩
  · obtain ⟨ds, hcolor, -⟩ := id hhex
    exact Or.inl ⟨hhex, if_pos (by rw [hcolor]; rfl)⟩
  · exact Or.inr ⟨htext, if_neg hhead⟩

theorem isAtom_colorExpression {color : String} (h : IsColor color) :
    IsAtom (colorExpression color) := by
  rcases h.expression_cases with ⟨hhex, hcolor⟩ | ⟨htext, hcolor⟩
  · exact hcolor ▸ .hex hhex
  · exact hcolor ▸ .text htext

theorem colorOf?_colorExpression (color : String) :
    colorOf? (colorExpression color) = some color := by
  rw [colorExpression]
  split <;> rfl

theorem expressionOf_some {text : String} {e : Expression}
    (h : PropertyValue.parse key text = .ok e) : expressionOf key (some text) = .ok (some e) := by
  rw [expressionOf, h]
  rfl

theorem expressionOf_colorText {color : Option String} (h : ∀ c ∈ color, IsColor c) :
    expressionOf key (colorText color) = .ok (color.map colorExpression) := by
  cases color with
  | none => rfl
  | some c => exact expressionOf_some (parse_atom (isAtom_colorExpression (h c rfl)))

theorem color?_map (color : Option String) : color? (color.map colorExpression) = color := by
  cases color with
  | none => rfl
  | some c => exact colorOf?_colorExpression c

/-- A colour is read back. -/
theorem color?_expressionOf {color : Option String} (h : ∀ c ∈ color, IsColor c) :
    color? <$> expressionOf key (colorText color) = .ok color := by
  rw [expressionOf_colorText h]
  exact congrArg Except.ok (color?_map color)

end Reading

section Writing

variable {key : String}

theorem isSteady_numberText {x : Option Float} (h : ∀ y ∈ x, IsNumber y) :
    ∀ v ∈ numberText x, IsSteady v := by
  intro v hv
  obtain ⟨y, hy, rfl⟩ := Option.map_eq_some_iff.mp hv
  exact isSteady_number (h y hy).finite

theorem isSteady_numbers {xs : List Float} (h : IsNumbers xs) :
    IsSteady (" ".intercalate (xs.map display)) :=
  isSteady_words (by simpa using h.ne_nil)
    (List.forall_mem_map.mpr fun x hx => isSteady_number (h.numbers x hx).finite)

theorem isSteady_numbersText {xs : Option (List Float)} (h : ∀ ys ∈ xs, IsNumbers ys) :
    ∀ v ∈ numbersText xs, IsSteady v := by
  intro v hv
  obtain ⟨ys, hys, rfl⟩ := Option.map_eq_some_iff.mp hv
  rw [valueText_numbers]
  exact isSteady_numbers (h ys hys)

theorem isSteady_wordText {s : Option String} (h : ∀ t ∈ s, IsQuotable t) :
    ∀ v ∈ wordText s, IsSteady v := by
  intro v hv
  obtain ⟨t, ht, rfl⟩ := Option.map_eq_some_iff.mp hv
  exact isSteady_text (h t ht)

theorem isSteady_colorExpression {color : String} (h : IsColor color) :
    IsSteady (colorExpression color).valueText := by
  rcases h.expression_cases with ⟨hhex, hcolor⟩ | ⟨htext, hcolor⟩
  · exact hcolor ▸ isSteady_hex hhex
  · exact hcolor ▸ isSteady_text htext

theorem isSteady_colorText {color : Option String} (h : ∀ c ∈ color, IsColor c) :
    ∀ v ∈ colorText color, IsSteady v := by
  intro v hv
  obtain ⟨c, hc, rfl⟩ := Option.map_eq_some_iff.mp hv
  exact isSteady_colorExpression (h c hc)

end Writing

end CartoStyle.Style
