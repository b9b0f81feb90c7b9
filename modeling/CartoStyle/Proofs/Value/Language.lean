import CartoStyle.Proofs.Condition.Rendering
import CartoStyle.Proofs.Value.Rendering

/-!
The value language of a property: an atom, or several atoms in a row. The
value text separates atoms by nothing but blanks and keeps no trace of what an
atom is besides its own shape, and still no two values have one text.
-/

namespace CartoStyle.PropertyValue

open Lexeme

variable {key : String} {e e₁ e₂ : Expression} {es : List Expression}

/-- The values of a property. Several atoms make up the text of a label, or else an array. -/
inductive IsPropertyValue (key : String) : Expression → Prop
  | atom {e : Expression} (h : IsAtom e) : IsPropertyValue key e
  | several {es : List Expression} (htwo : 2 ≤ es.length) (h : ∀ e ∈ es, IsAtom e) :
      IsPropertyValue key (.apply (if key = "label" then .text else .array) es)

theorem whole_of_two_le (htwo : 2 ≤ es.length) :
    whole key es = .apply (if key = "label" then .text else .array) es := by
  match es, htwo with
  | _ :: _ :: _, _ => rfl

/-- A value is made up of its atoms. -/
theorem IsPropertyValue.exists_eq_whole (h : IsPropertyValue key e) :
    ∃ es, es ≠ [] ∧ (∀ a ∈ es, IsAtom a) ∧ e = whole key es := by
  cases h with
  | atom h => exact ⟨[e], List.cons_ne_nil _ _, List.forall_mem_singleton.mpr h, rfl⟩
  | @several es htwo h =>
    exact ⟨es, List.ne_nil_of_length_pos (by omega), h, (whole_of_two_le htwo).symm⟩

/-- Values with one text are one value. -/
theorem IsPropertyValue.eq_of_valueText_eq (h₁ : IsPropertyValue key e₁)
    (h₂ : IsPropertyValue key e₂) (htext : e₁.valueText = e₂.valueText) : e₁ = e₂ := by
  obtain ⟨es₁, hne₁, hatoms₁, rfl⟩ := h₁.exists_eq_whole
  obtain ⟨es₂, hne₂, hatoms₂, rfl⟩ := h₂.exists_eq_whole
  have hparse := parse_whole key hne₁ hatoms₁
  rw [htext, parse_whole key hne₂ hatoms₂] at hparse
  exact (Except.ok.inj hparse).symm

/-- A value is read back from its text. -/
theorem parse_valueText_of_isPropertyValue (h : IsPropertyValue key e) :
    parse key e.valueText = .ok e := by
  obtain ⟨es, hne, hatoms, rfl⟩ := h.exists_eq_whole
  exact parse_whole key hne hatoms

def legendLabel : Expression :=
  .apply .text [
    .url "it's.png",
    .symbol "",
    .apply .brace [.get "name of road"],
    .truth true,
    .text "true",
    .text "symbol",
    .apply (.other "legend-entry") [
      .hex "#ff00FF",
      .array [.number 2.5, .text "2.5", .apply (.other "none") []]]]

theorem isPropertyValue_legendLabel : IsPropertyValue "label" legendLabel := by
  have hcall : IsAtom (.apply (.other "legend-entry") [
      .hex "#ff00FF",
      .array [.number 2.5, .text "2.5", .apply (.other "none") []]]) := by
    have hentry : IsCallName "legend-entry" :=
      ⟨⟨'l', "egend-entry".toList, rfl, rfl, List.all_eq_true.mp (by decide)⟩,
        Text.toLower_eq_self (by decide), by decide⟩
    have hnone : IsCallName "none" :=
      ⟨⟨'n', "one".toList, rfl, rfl, List.all_eq_true.mp (by decide)⟩,
        Text.toLower_eq_self (by decide), by decide⟩
    have hhex : IsHex "#ff00FF" :=
      ⟨"ff00FF".toList, rfl, List.cons_ne_nil _ _, List.all_eq_true.mp (by decide)⟩
    refine @IsAtom.call _ [[.hex "#ff00FF"], [.number 2.5, .text "2.5", .apply (.other "none") []]]
      hentry (by simp) ?_
    simp only [List.forall_mem_cons, List.not_mem_nil, false_imp_iff, implies_true, and_true]
    exact ⟨.hex hhex, .number Condition.isNumber_five_halves, .text (Or.inl (by decide)),
      @IsAtom.call _ [] hnone nofun nofun⟩
  refine .several (by decide) ?_
  simp only [List.forall_mem_cons, List.not_mem_nil, false_imp_iff, implies_true, and_true]
  exact ⟨.url (Or.inr (by decide)), .symbol (Or.inl (by decide)),
    .brace ⟨by decide, .of_all rfl rfl⟩, .truth true, .text (Or.inl (by decide)),
    .text (Or.inl (by decide)), hcall⟩

theorem parse_legendLabel :
    IsPropertyValue "label" legendLabel ∧
      parse "label" ("url(\"it's.png\") symbol('') [name of road] true 'true' symbol " ++
        "legend-entry(#ff00FF, 2.5 '2.5' none())") = .ok legendLabel := by
  have hparse := parse_valueText_of_isPropertyValue isPropertyValue_legendLabel
  have htext : legendLabel.valueText =
      "url(\"it's.png\") symbol('') [name of road] true 'true' symbol " ++
        "legend-entry(#ff00FF, 2.5 '2.5' none())" := by decide +kernel
  rw [htext] at hparse
  exact ⟨isPropertyValue_legendLabel, hparse⟩

end CartoStyle.PropertyValue
