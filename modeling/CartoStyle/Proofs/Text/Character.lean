import Mathlib
import CartoStyle.Text.Quoting

/-!
Character classes by code point.
-/

namespace CartoStyle.Text

variable {c : Char}

theorem isDigit_iff : c.isDigit = true ↔ 48 ≤ c.toNat ∧ c.toNat ≤ 57 :=
  Char.isDigit_iff_toNat

theorem isAlpha_iff : c.isAlpha = true ↔
    (65 ≤ c.toNat ∧ c.toNat ≤ 90) ∨ (97 ≤ c.toNat ∧ c.toNat ≤ 122) := by
  show (decide ('A'.val ≤ c.val ∧ c.val ≤ 'Z'.val) ||
    decide ('a'.val ≤ c.val) && decide (c.val ≤ 'z'.val)) = true ↔ _
  simp [UInt32.le_iff_toNat_le, ← Char.toNat_val]

theorem isAlphanum_iff : c.isAlphanum = true ↔
    ((65 ≤ c.toNat ∧ c.toNat ≤ 90) ∨ (97 ≤ c.toNat ∧ c.toNat ≤ 122)) ∨
      (48 ≤ c.toNat ∧ c.toNat ≤ 57) := by
  show (c.isAlpha || c.isDigit) = true ↔ _
  rw [Bool.or_eq_true, isAlpha_iff, isDigit_iff]

theorem isAlpha_of_isDigit (h : c.isDigit = true) : c.isAlpha = false := by
  have h := isDigit_iff.mp h
  rw [← Bool.not_eq_true, isAlpha_iff]
  omega

theorem toLower_of_isDigit (h : c.isDigit = true) : c.toLower = c := by
  have h := isDigit_iff.mp h
  rw [Char.toLower, dif_neg]
  intro hupper
  have hlow : 65 ≤ c.toNat := UInt32.le_iff_toNat_le.mp hupper.1
  omega

/-- A character of a class is in no list without characters of the class. -/
theorem not_mem_of_all {p : Char → Bool} {cs : List Char} (hcs : cs.all (!p ·) = true)
    (h : p c = true) : c ∉ cs := by
  intro hc
  simpa [h] using List.all_eq_true.mp hcs c hc

/-- The printing characters of ASCII are not blank. -/
theorem isBlank_eq_false (hlow : 32 < c.toNat) (hhigh : c.toNat < 127) : isBlank c = false := by
  simp only [isBlank, Bool.or_eq_false_iff, Bool.and_eq_false_imp, decide_eq_true_eq,
    decide_eq_false_iff_not, beq_eq_false_iff_ne]
  omega

theorem isBlank_of_isAlphanum (h : c.isAlphanum = true) : isBlank c = false := by
  have h := isAlphanum_iff.mp h
  exact isBlank_eq_false (by omega) (by omega)

/-- A text without upper-case letters is its own lower-case form. -/
theorem toLower_eq_self {s : String} (h : s.toList.map Char.toLower = s.toList) :
    s.toLower = s := by
  rw [← String.toList_inj, ← h]
  exact String.toList_map

end CartoStyle.Text
