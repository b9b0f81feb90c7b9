import CartoStyle.Proofs.Sheet.Tiling
import CartoStyle.Proofs.Text.Splitting

/-!
Splitting and joining are inverse to each other. The values of a property are the parts of its
text without blanks around them and without empty ones, so they come back from the text that
joins them with commas and spaces, even if the last one leaves a bracket open.
-/

namespace CartoStyle.Sheet

open Text

/-- The text leaves nothing open, and the separator stands in it only where something is open. -/
structure IsItem (separator : Char) (s : String) : Prop where
  closed : Nesting.top.after s.toList = .top
  nested : ∀ xs ys, s.toList = xs ++ separator :: ys → Nesting.top.after xs ≠ .top

variable {separator : Char}

theorem IsItem.isPart {s : String} (hsep : Nesting.isReserved separator = false)
    (h : IsItem separator s) : IsPart separator s.toList where
  whole := (splitFrom_eq_singleton_iff hsep).mpr h.nested
  closed := h.closed

theorem intercalate_splitTopLevel (separator : Char) (source : String) :
    (String.singleton separator).intercalate (splitTopLevel separator source) = source := by
  rw [← String.toList_inj, String.toList_intercalate, splitTopLevel, List.map_map]
  have hid : String.toList ∘ String.ofList = id := funext fun _ => String.toList_ofList
  rw [hid, List.map_id, String.toList_singleton]
  exact intercalate_splitFrom separator .top source.toList

theorem splitTopLevel_intercalate {parts : List String}
    (hsep : Nesting.isReserved separator = false) (hne : parts ≠ [])
    (hparts : ∀ p ∈ parts, IsItem separator p) :
    splitTopLevel separator ((String.singleton separator).intercalate parts) = parts := by
  have hare : AreParts separator (parts.map String.toList) :=
    areParts_of_forall (by simpa using hne)
      (List.forall_mem_map.mpr fun p hp => (hparts p hp).isPart hsep)
  rw [splitTopLevel, String.toList_intercalate, String.toList_singleton,
    hare.splitTop_intercalate hsep, List.map_map]
  simp

/-- The values of a property come back from the text that joins them. -/
theorem map_trim_values {cs : List Char} (hne : (Token.declarationOf cs).values ≠ []) :
    (splitTopLevel ',' (", ".intercalate (Token.declarationOf cs).values)).map trim =
      (Token.declarationOf cs).values := by
  obtain ⟨value, hvalues⟩ : ∃ value, (Token.declarationOf cs).values =
      (((splitTop ',' value).map (dropEnds isBlank)).filter (!·.isEmpty)).map String.ofList :=
    ⟨_, rfl⟩
  rw [hvalues] at hne ⊢
  have hparts := (areParts_splitTop ',' value).map_dropEnds rfl
  refine map_trim_splitTopLevel_intercalate ?_ ?_
  · rw [List.map_map]
    rcases hparts.filter (!·.isEmpty) with hnone | hsome
    · rw [hnone] at hne
      exact absurd rfl hne
    · simpa using hsome
  · refine List.forall_mem_map.mpr fun part hpart => ?_
    obtain ⟨raw, -, rfl⟩ := List.mem_map.mp (List.mem_filter.mp hpart).1
    rw [String.toList_ofList]
    exact freeEnds_dropEnds isBlank raw

/-- What a splitting gives joins to the text that was split, what joins parts splits into them,
and the values of a property are found again in the text that joins them. -/
theorem splitTopLevel_inverse (separator : Char) :
    (∀ source, (String.singleton separator).intercalate (splitTopLevel separator source) =
      source) ∧
    (Nesting.isReserved separator = false → ∀ parts, parts ≠ [] →
      (∀ p ∈ parts, IsItem separator p) →
      splitTopLevel separator ((String.singleton separator).intercalate parts) = parts) ∧
    ∀ source ts, tokenize source = .ok ts → ∀ t ∈ ts, ∀ p, t.token = .property p →
      p.values ≠ [] → (splitTopLevel ',' (", ".intercalate p.values)).map trim = p.values := by
  refine ⟨intercalate_splitTopLevel separator, fun hsep _ => splitTopLevel_intercalate hsep, ?_⟩
  intro source ts hts t ht p hp hne
  obtain ⟨_, lexeme, _, _, _, _, _, htoken⟩ := (tokenize_eq_ok_iff.mp hts).isTile t ht
  rw [hp] at htoken
  obtain rfl : p = Token.declarationOf lexeme := Token.property.inj htoken
  exact map_trim_values hne

section Dashes

/-- Commas within parentheses and quotes, and a parenthesis that closes nothing. -/
def dashItems : List String := ["rgb(1, 2)", "'a, b'", ")"]

def dashSource : String := "stroke: red, , dash(1, 2;"

theorem isItem_of_mem_dashItems : ∀ p ∈ dashItems, IsItem ',' p := by
  have hitems : ∀ p ∈ dashItems, Nesting.top.after p.toList = .top ∧
      splitTop ',' p.toList = [p.toList] := by decide +kernel
  intro p hp
  obtain ⟨hclosed, hwhole⟩ := hitems p hp
  exact ⟨hclosed, (splitFrom_eq_singleton_iff rfl).mp hwhole⟩

theorem tokenize_dashSource : tokenize dashSource =
    .ok [⟨.property ⟨"stroke", ["red", "dash(1, 2"]⟩, 0, 25⟩] := by
  with_unfolding_all rfl

theorem splitTopLevel_dashes :
    Nesting.isReserved ',' = false ∧ (∀ p ∈ dashItems, IsItem ',' p) ∧
      splitTopLevel ',' "rgb(1, 2),'a, b',)" = dashItems ∧
      tokenize dashSource = .ok [⟨.property ⟨"stroke", ["red", "dash(1, 2"]⟩, 0, 25⟩] ∧
      (splitTopLevel ',' "red, dash(1, 2").map trim = ["red", "dash(1, 2"] := by
  obtain ⟨-, hitems, hvalues⟩ := splitTopLevel_inverse ','
  have hjoined : (String.singleton ',').intercalate dashItems = "rgb(1, 2),'a, b',)" := by
    decide +kernel
  have hsplit := hitems rfl dashItems (by decide) isItem_of_mem_dashItems
  rw [hjoined] at hsplit
  exact ⟨rfl, isItem_of_mem_dashItems, hsplit, tokenize_dashSource,
    hvalues _ _ tokenize_dashSource _ List.mem_cons_self _ rfl (by decide)⟩

end Dashes

end CartoStyle.Sheet
