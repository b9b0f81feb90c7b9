import CartoStyle.Proofs.Rule.PseudoSelector
import CartoStyle.Proofs.Style.Path

/-!
Parts of what a selector selects. Stars and brackets may stand in front of a colon and the name
of a part; what the brackets hold makes no difference, colons included, unless it is a line feed,
as a base lies on one line. Without a part behind it the same text speaks about no part.
-/

namespace CartoStyle.Rule.PseudoSelector

open Selector

/-- A selector made of stars and brackets ends in one of them. -/
theorem exists_getLast?_ofParts {parts : List Part} (h : parts ≠ []) :
    ∃ c, (c = '*' ∨ c = ']') ∧ (ofParts parts).toList.getLast? = some c := by
  obtain ⟨others, p, rfl⟩ := (List.eq_nil_or_concat' parts).resolve_left h
  have htext : (ofParts (others ++ [p])).toList = (ofParts others).toList ++ p.text.toList := by
    simp [ofParts]
  rw [htext]
  cases p with
  | star => exact ⟨'*', Or.inl rfl, List.getLast?_concat⟩
  | bracket content closed =>
    have hbracket : (Part.bracket content closed).text.toList =
        ('[' :: content.toList) ++ [']'] := by simp [Part.text]
    rw [hbracket, ← List.append_assoc]
    exact ⟨']', Or.inr rfl, List.getLast?_concat⟩

theorem parse?_ofParts (parts : List Part) : parse? (ofParts parts) = none := by
  by_cases hne : parts = []
  · rw [hne]
    decide
  · obtain ⟨c, hc, hlast⟩ := exists_getLast?_ofParts hne
    exact parse?_eq_none hc hlast

/-- A part is told from the stars and brackets in front of it exactly if these hold no line feed,
and they alone speak about no part. -/
theorem parse?_ofParts_append (parts : List Part) {part : String} (hpart : IsName part)
    (zeros : Nat) {index : Option Nat} (hindex : ∀ n ∈ index, n < 2 ^ 64) :
    parse? (ofParts parts ++ (":" ++ (part ++ indexText zeros index))) =
        (if '\n' ∈ (ofParts parts).toList then none
          else some { base := ofParts parts, part := part.toLower, index }) ∧
      parse? (ofParts parts) = none :=
  ⟨parse?_eq (ofParts parts) hpart zeros index hindex, parse?_ofParts parts⟩

section Towns

/-- Everything whose name is a certain text, in which a colon stands in front of a part. -/
def colonParts : List Part := [.star, .bracket "name = 'a:fill(1)'" (by decide +kernel)]

def brokenParts : List Part := [.bracket "kind =\n'town'" (by decide +kernel)]

theorem isName_nthMark : IsName "Nth-Mark" :=
  ⟨'N', ['t', 'h', '-', 'M', 'a', 'r', 'k'], by decide +kernel, rfl, by simp⟩

theorem isName_mark : IsName "mark" := ⟨'m', ['a', 'r', 'k'], by decide +kernel, rfl, by simp⟩

/-- The colon within the brackets is not the one in front of the part. -/
theorem parse?_colonParts :
    IsName "Nth-Mark" ∧ (∀ n ∈ some 12, n < 2 ^ 64) ∧
      parse? "*[name = 'a:fill(1)']:Nth-Mark(012)" =
        some { base := "*[name = 'a:fill(1)']", part := "nth-mark", index := some 12 } ∧
      parse? "*[name = 'a:fill(1)']" = none := by
  have hindex : ∀ n ∈ some 12, n < 2 ^ 64 := by simp
  obtain ⟨hwhole, halone⟩ := parse?_ofParts_append colonParts isName_nthMark 1 hindex
  have hbase : ofParts colonParts = "*[name = 'a:fill(1)']" := by decide +kernel
  have htext : "*[name = 'a:fill(1)']" ++ (":" ++ ("Nth-Mark" ++ indexText 1 (some 12))) =
      "*[name = 'a:fill(1)']:Nth-Mark(012)" := by decide +kernel
  have hlower : "Nth-Mark".toLower = "nth-mark" := by decide +kernel
  rw [hbase, htext, hlower, if_neg (by decide +kernel)] at hwhole
  rw [hbase] at halone
  exact ⟨isName_nthMark, hindex, hwhole, halone⟩

/-- A part behind a condition that is spread over two lines is not recognized. -/
theorem not_forall_parse?_ofParts_append :
    ¬ ∀ (parts : List Part) (part : String) (zeros : Nat) (index : Option Nat), IsName part →
      (∀ n ∈ index, n < 2 ^ 64) →
      parse? (ofParts parts ++ (":" ++ (part ++ indexText zeros index))) =
        some { base := ofParts parts, part := part.toLower, index } := by
  intro hclaim
  have hmark := hclaim brokenParts "mark" 0 none isName_mark nofun
  have hnone := parse?_eq (ofParts brokenParts) isName_mark 0 none nofun
  rw [if_pos (by decide +kernel), hmark] at hnone
  cases hnone

end Towns

end CartoStyle.Rule.PseudoSelector
